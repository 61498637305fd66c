import MatchingEngine.Foundation.Machine
import MatchingEngine.Foundation.Allocation
import MatchingEngine.PriceTime
import MatchingEngine.OrderMessages
import MatchingEngine.ConfiguredSymbols
import MatchingEngine.SelfWaiting
import MatchingEngine.ServerQuantities
import MatchingEngine.CancelIsolation
import MatchingEngine.SingleWriter
import MatchingEngine.NonInterference
import MatchingEngine.LockFreeRing
import MatchingEngine.QueueMPSC
import MatchingEngine.QueueMPMC
import MatchingEngine.LoggerProgress
import MatchingEngine.Shutdown
import MatchingEngine.AveragePrice
import MatchingEngine.LogDelivery
import MatchingEngine.QueueSize
import MatchingEngine.Reclamation
import MatchingEngine.Payments
import MatchingEngine.ThreadedEngine
import MatchingEngine.ClientProtocol
import MatchingEngine.ServiceOrder
import MatchingEngine.QueueProgress
import MatchingEngine.PoolStartup
import MatchingEngine.ClientRequestFile
