import MatchingEngine.OrderBook
import Mathlib.Data.List.Induction

/-!
# The invariant of an order book over its history

The tasks executed on a book, in order, determine the book and the reports. Fresh orders
with increasing serial numbers model that every new-order task comes from its own call;
apart from that, sides, prices and quantities are arbitrary.

Inside the matching loop the sides are arranged but the tops may cross. The loop only
ever replaces or removes top orders, and a removal or a replacement that keeps terms,
serial number and mark preserves the arrangement; when the loop returns, the tops do not
cross, and the arrangement carries this to all pairs of a bid and an ask.
-/

namespace MatchingEngine

/-- A task on the book of one symbol. -/
inductive BookTask
  | newOrder (order : Order)
  | cancelOrder (owner origClientOrderID : String) (side : OrderSide)
deriving DecidableEq

/-- A client request for one symbol, before a call number is attached to it. -/
inductive BookCall
  | newOrder (terms : OrderTerms)
  | cancelOrder (owner origClientOrderID : String) (side : OrderSide)
deriving DecidableEq

/-- The task of a call: a new order is constructed from its terms and named by the call number. -/
def BookCall.task (serial : ℕ) : BookCall → BookTask
  | newOrder terms => .newOrder (Order.ofTerms terms serial)
  | cancelOrder owner origClientOrderID side => .cancelOrder owner origClientOrderID side

/-- The tasks of a sequence of calls. -/
def bookTasks (calls : List BookCall) : List BookTask := calls.mapIdx BookCall.task

/-- The orders submitted by a list of tasks, in order. -/
def newOrders (tasks : List BookTask) : List Order :=
  tasks.filterMap fun
    | .newOrder order => some order
    | .cancelOrder .. => none

namespace OrderBook

/-- Execute a task; a cancel without a matching order changes nothing and reports nothing. -/
def execute (book : OrderBook) : BookTask → OrderBook × List OutgoingMessage
  | .newOrder order => book.taskNewOrder order
  | .cancelOrder owner origClientOrderID side =>
    match book.taskCancelOrder owner origClientOrderID side with
    | some (after, message) => (after, [message])
    | none => (book, [])

/-- Execute tasks one after the other and collect the reports. -/
def executeAll (book : OrderBook) : List BookTask → OrderBook × List OutgoingMessage
  | [] => (book, [])
  | task :: tasks =>
    let (after, messages) := book.execute task
    let (last, more) := after.executeAll tasks
    (last, messages ++ more)

/-- Executing one task more. -/
theorem executeAll_concat (book : OrderBook) (tasks : List BookTask) (task : BookTask) :
    book.executeAll (tasks ++ [task]) =
      (((book.executeAll tasks).1.execute task).1,
        (book.executeAll tasks).2 ++ ((book.executeAll tasks).1.execute task).2) := by
  induction tasks generalizing book with
  | nil => simp [executeAll]
  | cons first tasks ih => simp [executeAll, ih]

/-- The book reached by a sequence of calls. -/
def reached (calls : List BookCall) : OrderBook := (empty.executeAll (bookTasks calls)).1

/-- A side in order: only orders of the side, under their prices, not cancelled, and in order of
arrival at equal price. -/
structure SideArranged (side : OrderSide) (m : Multimap ℚ Order side.before) : Prop where
  sided : ∀ order ∈ m.values, order.side = side
  keyed : ∀ entry ∈ m.entries, entry.1 = entry.2.price
  live : ∀ order ∈ m.values, order.cancelled = false
  arrival : m.values.Pairwise fun x y => x.price = y.price → x.serial < y.serial

/-- Both sides in order; the tops may cross. -/
def Arranged (book : OrderBook) : Prop := ∀ side, SideArranged side (book.orders side)

/-- The invariant of a book between two tasks. -/
structure Sound (book : OrderBook) : Prop where
  arranged : book.Arranged
  uncrossed : ∀ bid ∈ book.bidOrders.values, ∀ ask ∈ book.askOrders.values, bid.price < ask.price

/-- A selection of keys and identities selects identities of values. -/
theorem identities_sublist {side : OrderSide} {m n : Multimap ℚ Order side.before}
    (hsub : (n.entries.map (Prod.map id Order.identity)).Sublist (m.entries.map (Prod.map id Order.identity))) :
    (n.values.map Order.identity).Sublist (m.values.map Order.identity) := by
  simpa [Multimap.values, List.map_map, Function.comp_def] using hsub.map Prod.snd

/-- Every selected value has the identity of an old one. -/
theorem exists_identity_of_sublist {side : OrderSide} {m n : Multimap ℚ Order side.before}
    (hsub : (n.entries.map (Prod.map id Order.identity)).Sublist (m.entries.map (Prod.map id Order.identity)))
    {order : Order} (horder : order ∈ n.values) : ∃ old ∈ m.values, old.identity = order.identity :=
  List.mem_map.mp ((identities_sublist hsub).subset (List.mem_map_of_mem horder))

/-- An arrangement depends only on keys and identities, and passes to every selection of them. -/
theorem SideArranged.of_identities {side : OrderSide} {m n : Multimap ℚ Order side.before}
    (h : SideArranged side m)
    (hsub : (n.entries.map (Prod.map id Order.identity)).Sublist (m.entries.map (Prod.map id Order.identity))) :
    SideArranged side n := by
  have hentry : ∀ entry ∈ n.entries, ∃ old ∈ m.entries,
      old.1 = entry.1 ∧ old.2.identity = entry.2.identity := by
    intro entry hentry
    obtain ⟨old, hold, heq⟩ := List.mem_map.mp (hsub.subset (List.mem_map_of_mem hentry))
    rw [Prod.ext_iff] at heq
    exact ⟨old, hold, heq⟩
  have hvalue : ∀ order ∈ n.values, ∃ old ∈ m.values, old.identity = order.identity :=
    fun order horder => exists_identity_of_sublist hsub horder
  have hvalues := identities_sublist hsub
  refine ⟨?_, ?_, ?_, ?_⟩
  · intro order horder
    obtain ⟨old, hold, hidentity⟩ := hvalue order horder
    have hside : old.side = order.side := congrArg (fun identity => identity.1.side) hidentity
    exact hside.symm.trans (h.sided old hold)
  · intro entry hmem
    obtain ⟨old, hold, hkey, hidentity⟩ := hentry entry hmem
    have hprice : old.2.price = entry.2.price := congrArg (fun identity => identity.1.price) hidentity
    exact hkey.symm.trans ((h.keyed old hold).trans hprice)
  · intro order horder
    obtain ⟨old, hold, hidentity⟩ := hvalue order horder
    have hmark : old.cancelled = order.cancelled := congrArg (fun identity => identity.2.2) hidentity
    exact hmark.symm.trans (h.live old hold)
  · have harrival : (m.values.map Order.identity).Pairwise
        fun x y => x.1.price = y.1.price → x.2.1 < y.2.1 :=
      List.pairwise_map.mpr h.arrival
    exact List.pairwise_map.mp (harrival.sublist hvalues)

/-- Iteration over an arranged side never comes to a strictly better price. -/
theorem SideArranged.priority {side : OrderSide} {m : Multimap ℚ Order side.before} (h : SideArranged side m) :
    m.values.Pairwise fun x y => ¬ side.before y.price x.price :=
  m.values_pairwise (fun order => order.price) h.keyed

/-- An order behind all of its price by arrival joins an arranged side. -/
theorem SideArranged.insert {side : OrderSide} {m : Multimap ℚ Order side.before} (h : SideArranged side m)
    {order : Order} (hside : order.side = side) (hlive : order.cancelled = false)
    (hlast : ∀ old ∈ m.values, old.serial < order.serial) :
    SideArranged side (m.insert order.price order) := by
  obtain ⟨ahead, behind, hentries, hinsert, _, hbehind⟩ := m.insert_entries_split order.price order
  refine ⟨?_, ?_, ?_, ?_⟩
  · intro other hother
    rcases (m.mem_insert_values _ _ _).mp hother with rfl | hother
    · exact hside
    · exact h.sided other hother
  · intro entry hmem
    rcases List.mem_cons.mp ((m.insert_entries_perm _ _).mem_iff.mp hmem) with rfl | hmem
    · rfl
    · exact h.keyed entry hmem
  · intro other hother
    rcases (m.mem_insert_values _ _ _).mp hother with rfl | hother
    · exact hlive
    · exact h.live other hother
  · have hvalues : m.values = ahead.map Prod.snd ++ behind.map Prod.snd := by
      rw [Multimap.values, hentries, List.map_append]
    have harrival := h.arrival
    rw [hvalues, List.pairwise_append] at harrival
    rw [Multimap.values, hinsert, List.map_append, List.map_cons, List.pairwise_append, List.pairwise_cons]
    refine ⟨harrival.1, ⟨?_, harrival.2.1⟩, ?_⟩
    · -- Nothing behind the new order has its price.
      intro other hother hprice
      obtain ⟨entry, hmem, rfl⟩ := List.mem_map.mp hother
      have hbefore := hbehind entry hmem
      rw [h.keyed entry (hentries ▸ List.mem_append_right _ hmem), ← hprice] at hbefore
      exact absurd hbefore (irrefl_of side.before order.price)
    · intro x hx y hy
      rcases List.mem_cons.mp hy with rfl | hy
      · exact fun _ => hlast x (hvalues ▸ List.mem_append_left _ hx)
      · exact harrival.2.2 x hx y hy

/-- Inserting a last order keeps the book arranged. -/
theorem Arranged.insert {book : OrderBook} (h : book.Arranged) {order : Order} (hlive : order.cancelled = false)
    (hlast : ∀ side, ∀ old ∈ (book.orders side).values, old.serial < order.serial) :
    (book.insert order).Arranged := by
  intro side
  by_cases hside : order.side = side
  · rw [insert_eq book hside, setOrders_orders_same]
    exact (h side).insert hside hlive (hlast side)
  · obtain rfl := (eq_or_eq_opposite side order.side).resolve_left (Ne.symm hside)
    rw [OrderBook.insert, setOrders_orders_opposite]
    exact h _

/-- A pass of the matching loop only removes orders or changes their execution records. -/
theorem matchTops_identities {book after : OrderBook} {bid' ask' : Order}
    (h : book.matchTops = some (after, bid', ask')) (side : OrderSide) :
    ((after.orders side).entries.map (Prod.map id Order.identity)).Sublist
      ((book.orders side).entries.map (Prod.map id Order.identity)) := by
  obtain ⟨bid, ask, hbid, hask, _, hpair, rfl⟩ := matchTops_eq_some_iff.mp h
  rw [matchTwoOrders_eq, Prod.mk.injEq] at hpair
  obtain ⟨rfl, rfl⟩ := hpair
  cases side
  · exact settleTop_identities hbid (bid.execute_identity _ _)
  · exact settleTop_identities hask (ask.execute_identity _ _)

/-- Matching only removes orders or changes their execution records. -/
theorem processMatching_identities (book : OrderBook) (side : OrderSide) :
    ((book.processMatching.1.orders side).entries.map (Prod.map id Order.identity)).Sublist
      ((book.orders side).entries.map (Prod.map id Order.identity)) := by
  induction book using processMatching_induction with
  | stop book htops =>
    rw [processMatching_eq, htops]
  | pass book after bid ask htops ih =>
    rw [processMatching_eq, htops]
    exact ih.trans (matchTops_identities htops side)

/-- The tops do not cross when the loop has returned. -/
theorem processMatching_matchTops (book : OrderBook) : book.processMatching.1.matchTops = none := by
  induction book using processMatching_induction with
  | stop book htops => rwa [processMatching_eq, htops]
  | pass book after bid ask htops ih =>
    rw [processMatching_eq, htops]
    exact ih

/-- In an arranged book, tops that do not cross bound all bids and asks. -/
theorem Arranged.sound {book : OrderBook} (h : book.Arranged) (htops : book.matchTops = none) : book.Sound := by
  refine ⟨h, fun bid hbid ask hask => ?_⟩
  obtain ⟨topBid, bids, hbids⟩ := List.exists_cons_of_ne_nil (List.ne_nil_of_mem hbid)
  obtain ⟨topAsk, asks, hasks⟩ := List.exists_cons_of_ne_nil (List.ne_nil_of_mem hask)
  have htop : topBid.price < topAsk.price :=
    (matchTops_eq_none_iff book).mp htops topBid topAsk
      ((Multimap.front?_eq_some_iff _ _).mpr ⟨bids, hbids⟩) ((Multimap.front?_eq_some_iff _ _).mpr ⟨asks, hasks⟩)
  have hbidTop : bid.price ≤ topBid.price := by
    have hpriority : (topBid :: bids).Pairwise _ := hbids ▸ (h .buy).priority
    rcases List.mem_cons.mp (hbids ▸ hbid) with rfl | hbid
    · exact le_rfl
    · exact not_lt.mp ((List.pairwise_cons.mp hpriority).1 bid hbid)
  have haskTop : topAsk.price ≤ ask.price := by
    have hpriority : (topAsk :: asks).Pairwise _ := hasks ▸ (h .sell).priority
    rcases List.mem_cons.mp (hasks ▸ hask) with rfl | hask
    · exact le_rfl
    · exact not_lt.mp ((List.pairwise_cons.mp hpriority).1 ask hask)
  exact hbidTop.trans_lt (htop.trans_le haskTop)

/-- Every order rests on its own side. -/
def Sided (book : OrderBook) : Prop := ∀ side, ∀ order ∈ (book.orders side).values, order.side = side

/-- Identities selected from a sided side are sided. -/
theorem sided_of_identities {side : OrderSide} {m n : Multimap ℚ Order side.before}
    (h : ∀ order ∈ m.values, order.side = side)
    (hsub : (n.entries.map (Prod.map id Order.identity)).Sublist (m.entries.map (Prod.map id Order.identity))) :
    ∀ order ∈ n.values, order.side = side := by
  intro order horder
  obtain ⟨old, hold, hidentity⟩ := exists_identity_of_sublist hsub horder
  have hside : old.side = order.side := congrArg (fun identity => identity.1.side) hidentity
  exact hside ▸ h old hold

/-- A pass keeps the orders on their sides. -/
theorem Sided.matchTops {book after : OrderBook} {bid ask : Order} (h : book.Sided)
    (htops : book.matchTops = some (after, bid, ask)) : after.Sided :=
  fun side => sided_of_identities (h side) (matchTops_identities htops side)

/-- Inserting an order on its side keeps the orders on their sides. -/
theorem Sided.insert {book : OrderBook} (h : book.Sided) (order : Order) : (book.insert order).Sided := by
  intro side other hother
  rcases (mem_insert_orders ..).mp hother with ⟨rfl, hside⟩ | hother
  · exact hside
  · exact h side other hother

/-- A cancel task only removes orders. -/
theorem Sided.cancel_subset {book : OrderBook} (h : book.Sided) (owner id : String) (side s : OrderSide) :
    ((book.execute (.cancelOrder owner id side)).1.orders s).values ⊆ (book.orders s).values := by
  rw [execute, taskCancelOrder_eq book _ _ side (h side)]
  cases (book.orders side).values.find? (·.hasClient owner id) with
  | none => exact List.Subset.refl _
  | some target =>
    rw [Option.map_some]
    rcases eq_or_eq_opposite s side with rfl | rfl
    · simp only [setOrders_orders_same, Multimap.eraseFirst_values]
      exact List.eraseP_subset
    · simp only [setOrders_orders_opposite]
      exact List.Subset.refl _

/-- Tasks keep the orders on their sides. -/
theorem Sided.execute {book : OrderBook} (h : book.Sided) (task : BookTask) : (book.execute task).1.Sided := by
  intro side
  cases task with
  | newOrder order =>
    exact sided_of_identities (h.insert order side) (processMatching_identities (book.insert order) side)
  | cancelOrder owner id s => exact fun order horder => h side order (h.cancel_subset owner id s side horder)

/-- A resting order is an order of the history, with its execution record changed. -/
def Originates (tasks : List BookTask) (order : Order) : Prop :=
  ∃ original ∈ newOrders tasks, original.toOrderTerms = order.toOrderTerms ∧ original.serial = order.serial

/-- What a history guarantees about the book it leads to. -/
structure History (tasks : List BookTask) (book : OrderBook) : Prop where
  sound : book.Sound
  origin : ∀ side, ∀ order ∈ (book.orders side).values, Originates tasks order

end OrderBook

/-- The new orders of a list of tasks are fresh, and their serial numbers increase. -/
structure Stamped (tasks : List BookTask) : Prop where
  fresh : ∀ order ∈ newOrders tasks, order = Order.ofTerms order.toOrderTerms order.serial
  increasing : (newOrders tasks).Pairwise fun x y => x.serial < y.serial

@[simp] theorem newOrders_nil : newOrders [] = [] := rfl

@[simp] theorem newOrders_append (tasks more : List BookTask) :
    newOrders (tasks ++ more) = newOrders tasks ++ newOrders more :=
  List.filterMap_append

@[simp] theorem newOrders_newOrder (order : Order) (tasks : List BookTask) :
    newOrders (.newOrder order :: tasks) = order :: newOrders tasks := rfl

@[simp] theorem newOrders_cancelOrder (owner origClientOrderID : String) (side : OrderSide)
    (tasks : List BookTask) :
    newOrders (.cancelOrder owner origClientOrderID side :: tasks) = newOrders tasks := rfl

/-- A prefix of a stamped list of tasks is stamped. -/
theorem Stamped.left {tasks more : List BookTask} (h : Stamped (tasks ++ more)) : Stamped tasks := by
  obtain ⟨hfresh, hincreasing⟩ := h
  rw [newOrders_append] at hfresh hincreasing
  exact ⟨fun order horder => hfresh order (List.mem_append_left _ horder),
    (List.pairwise_append.mp hincreasing).1⟩

namespace OrderBook

/-- An order with the identity of an order of the history is one too. -/
theorem Originates.of_identity {tasks : List BookTask} {order other : Order} (h : Originates tasks order)
    (hidentity : order.identity = other.identity) : Originates tasks other := by
  obtain ⟨original, horiginal, hterms, hserial⟩ := h
  exact ⟨original, horiginal, hterms.trans (congrArg Prod.fst hidentity),
    hserial.trans (congrArg (fun identity => identity.2.1) hidentity)⟩

/-- Identities that all come from orders of the history do so after a selection. -/
theorem Originates.of_identities {tasks : List BookTask} {side : OrderSide} {m n : Multimap ℚ Order side.before}
    (h : ∀ order ∈ m.values, Originates tasks order)
    (hsub : (n.entries.map (Prod.map id Order.identity)).Sublist (m.entries.map (Prod.map id Order.identity))) :
    ∀ order ∈ n.values, Originates tasks order := by
  intro order horder
  obtain ⟨old, hold, hidentity⟩ := exists_identity_of_sublist hsub horder
  exact (h old hold).of_identity hidentity

/-- A longer history still contains the origins. -/
theorem Originates.mono {tasks more : List BookTask} {order : Order} (h : Originates tasks order) :
    Originates (tasks ++ more) order := by
  obtain ⟨original, horiginal, hterms, hserial⟩ := h
  exact ⟨original, by rw [newOrders_append]; exact List.mem_append_left _ horiginal, hterms, hserial⟩

/-- The copies made by the matching loop have identities of orders in the book. -/
theorem processMatching_copies (book : OrderBook) :
    ∀ copy ∈ book.processMatching.2, ∃ side, ∃ order ∈ (book.orders side).values, order.identity = copy.identity := by
  induction book using processMatching_induction with
  | stop book htops =>
    rw [processMatching_eq, htops]
    exact fun copy hcopy => absurd hcopy List.not_mem_nil
  | pass book after bid ask htops ih =>
    intro copy hcopy
    rw [processMatching_eq, htops] at hcopy
    obtain ⟨oldBid, oldAsk, hbid, hask, _, hpair, _⟩ := matchTops_eq_some_iff.mp htops
    rw [matchTwoOrders_eq, Prod.mk.injEq] at hpair
    obtain ⟨bids, hbids⟩ := (Multimap.front?_eq_some_iff _ _).mp hbid
    obtain ⟨asks, hasks⟩ := (Multimap.front?_eq_some_iff _ _).mp hask
    rcases List.mem_cons.mp hcopy with rfl | hcopy
    · exact ⟨.buy, oldBid, hbids ▸ List.mem_cons_self .., hpair.1 ▸ (oldBid.execute_identity _ _).symm⟩
    rcases List.mem_cons.mp hcopy with rfl | hcopy
    · exact ⟨.sell, oldAsk, hasks ▸ List.mem_cons_self .., hpair.2 ▸ (oldAsk.execute_identity _ _).symm⟩
    obtain ⟨side, order, horder, hidentity⟩ := ih copy hcopy
    obtain ⟨old, hold, holdIdentity⟩ := exists_identity_of_sublist (matchTops_identities htops side) horder
    exact ⟨side, old, hold, holdIdentity.trans hidentity⟩

/-- The book and the reports after a task only show orders of the history. -/
theorem Originates.execute {tasks : List BookTask} {book : OrderBook} (hsided : book.Sided)
    (h : ∀ side, ∀ order ∈ (book.orders side).values, Originates tasks order) (task : BookTask) :
    (∀ side, ∀ order ∈ ((book.execute task).1.orders side).values, Originates (tasks ++ [task]) order) ∧
      ∀ message ∈ (book.execute task).2, Originates (tasks ++ [task]) message.order := by
  cases task with
  | newOrder order =>
    have horigin : ∀ side, ∀ other ∈ ((book.insert order).orders side).values,
        Originates (tasks ++ [.newOrder order]) other := by
      intro side other hother
      rcases (mem_insert_orders ..).mp hother with ⟨rfl, _⟩ | hother
      · exact ⟨other, by simp, rfl, rfl⟩
      · exact (h side other hother).mono
    refine ⟨fun side => Originates.of_identities (horigin side) (processMatching_identities _ side), ?_⟩
    intro message hmessage
    obtain ⟨copy, hcopy, rfl⟩ := List.mem_map.mp hmessage
    obtain ⟨side, other, hother, hidentity⟩ := processMatching_copies _ copy hcopy
    exact (horigin side other hother).of_identity hidentity
  | cancelOrder owner id side =>
    refine ⟨fun s order horder => (h s order (hsided.cancel_subset owner id side s horder)).mono, ?_⟩
    intro message hmessage
    rw [OrderBook.execute, taskCancelOrder_eq book _ _ side (hsided side)] at hmessage
    cases htarget : (book.orders side).values.find? (·.hasClient owner id) with
    | none => simp [htarget] at hmessage
    | some target =>
      simp only [htarget, Option.map_some, List.mem_singleton] at hmessage
      obtain ⟨original, horiginal, hterms, hserial⟩ := h side target (List.mem_of_find?_eq_some htarget)
      rw [hmessage]
      exact Originates.mono ⟨original, horiginal, hterms, hserial⟩

/-- Over a whole history from the empty book, the orders keep their sides, and the book and the
reports only show orders of the history. -/
theorem originates_executeAll (tasks : List BookTask) :
    (empty.executeAll tasks).1.Sided ∧
      (∀ side, ∀ order ∈ ((empty.executeAll tasks).1.orders side).values, Originates tasks order) ∧
      ∀ message ∈ (empty.executeAll tasks).2, Originates tasks message.order := by
  induction tasks using List.reverseRecOn with
  | nil =>
    have hnone : ∀ side, ∀ order, order ∉ ((empty.executeAll []).1.orders side).values := by simp [executeAll]
    exact ⟨fun side order horder => absurd horder (hnone side order),
      fun side order horder => absurd horder (hnone side order), by simp [executeAll]⟩
  | append_singleton tasks task ih =>
    obtain ⟨hsided, horders, hreports⟩ := ih
    rw [executeAll_concat]
    have hstep := Originates.execute hsided horders task
    refine ⟨hsided.execute task, hstep.1, fun message hmessage => ?_⟩
    rcases List.mem_append.mp hmessage with hmessage | hmessage
    · exact (hreports message hmessage).mono
    · exact hstep.2 message hmessage

/-- Removing an order of a sound book leaves a sound book. -/
theorem History.eraseFirst {tasks : List BookTask} {book : OrderBook} (h : History tasks book) (side : OrderSide)
    (test : Order → Bool) :
    History tasks (book.setOrders side ((book.orders side).eraseFirst test)) := by
  have hsub : ∀ s, (((book.setOrders side ((book.orders side).eraseFirst test)).orders s).entries).Sublist
      (book.orders s).entries := by
    intro s
    rcases eq_or_eq_opposite s side with rfl | rfl
    · rw [setOrders_orders_same]
      exact List.eraseP_sublist
    · rw [setOrders_orders_opposite]
  have hvalues := fun s => (hsub s).map Prod.snd
  refine ⟨⟨fun s => (h.sound.arranged s).of_identities ((hsub s).map _), ?_⟩, ?_⟩
  · intro bid hbid ask hask
    exact h.sound.uncrossed bid ((hvalues .buy).subset hbid) ask ((hvalues .sell).subset hask)
  · exact fun s order horder => h.origin s order ((hvalues s).subset horder)

/-- The empty book is sound and has no history. -/
theorem history_empty : History [] empty where
  sound := by
    refine ⟨fun side => ?_, by simp [empty]⟩
    cases side <;> exact ⟨by simp [empty, orders], by simp [empty, orders, Multimap.empty],
      by simp [empty, orders], by simp [empty, orders]⟩
  origin := by simp

/-- Executing a task extends the history. -/
theorem History.execute {tasks : List BookTask} {book : OrderBook} (h : History tasks book) (task : BookTask)
    (hstamped : Stamped (tasks ++ [task])) : History (tasks ++ [task]) (book.execute task).1 := by
  cases task with
  | newOrder order =>
    have hfresh := hstamped.fresh order (by simp)
    have hlast : ∀ side, ∀ old ∈ (book.orders side).values, old.serial < order.serial := by
      intro side old hold
      obtain ⟨original, horiginal, _, hserial⟩ := h.origin side old hold
      have hincreasing := hstamped.increasing
      rw [newOrders_append, List.pairwise_append] at hincreasing
      exact hserial ▸ hincreasing.2.2 original horiginal order (by simp)
    have harranged := h.sound.arranged.insert (by rw [hfresh]; rfl) hlast
    have hidentities := (book.insert order).processMatching_identities
    refine ⟨Arranged.sound (fun side => (harranged side).of_identities (hidentities side)) ?_,
      (Originates.execute (fun side => (h.sound.arranged side).sided) h.origin _).1⟩
    exact processMatching_matchTops _
  | cancelOrder owner origClientOrderID side =>
    have hold : History (tasks ++ [.cancelOrder owner origClientOrderID side]) book :=
      ⟨h.sound, fun side order horder => (h.origin side order horder).mono⟩
    simp only [OrderBook.execute, taskCancelOrder_eq book _ _ side (h.sound.arranged side).sided]
    cases (book.orders side).values.find? (·.hasClient owner origClientOrderID) with
    | none => exact hold
    | some target => exact hold.eraseFirst side _

/-- The tasks executed so far are a history of the book. -/
theorem History.executeAll {past tasks : List BookTask} {book : OrderBook} (h : History past book)
    (hstamped : Stamped (past ++ tasks)) : History (past ++ tasks) (book.executeAll tasks).1 := by
  induction tasks generalizing past book with
  | nil => simpa [OrderBook.executeAll] using h
  | cons task tasks ih =>
    rw [← List.singleton_append, ← List.append_assoc] at hstamped ⊢
    exact ih (h.execute task hstamped.left) hstamped

end OrderBook

/-- The tasks of calls, however these are numbered, construct fresh orders of the calls. -/
theorem mem_newOrders_mapIdx {calls : List BookCall} {number : ℕ → ℕ} {order : Order}
    (h : order ∈ newOrders (calls.mapIdx fun i call => call.task (number i))) :
    ∃ i terms, calls[i]? = some (.newOrder terms) ∧ order = Order.ofTerms terms (number i) := by
  obtain ⟨task, htask, horder⟩ := List.mem_filterMap.mp h
  obtain ⟨i, hi, rfl⟩ := List.mem_mapIdx.mp htask
  cases hcall : calls[i] with
  | newOrder terms =>
    simp only [hcall, BookCall.task, Option.some.injEq] at horder
    exact ⟨i, terms, by rw [List.getElem?_eq_getElem hi, hcall], horder.symm⟩
  | cancelOrder owner origClientOrderID side => simp [hcall, BookCall.task] at horder

/-- The tasks of calls construct fresh orders numbered by the calls. -/
theorem mem_newOrders_bookTasks {calls : List BookCall} {order : Order} (h : order ∈ newOrders (bookTasks calls)) :
    ∃ terms, calls[order.serial]? = some (.newOrder terms) ∧ order = Order.ofTerms terms order.serial := by
  obtain ⟨i, terms, hcall, rfl⟩ := mem_newOrders_mapIdx h
  exact ⟨terms, hcall, rfl⟩

/-- The tasks of calls are stamped. -/
theorem stamped_bookTasks (calls : List BookCall) : Stamped (bookTasks calls) where
  fresh order horder := by
    obtain ⟨terms, _, heq⟩ := mem_newOrders_bookTasks horder
    rw [heq]
    rfl
  increasing := by
    induction calls using List.reverseRecOn with
    | nil => exact .nil
    | append_singleton calls call ih =>
      rw [bookTasks, List.mapIdx_concat, newOrders_append, List.pairwise_append]
      refine ⟨ih, ?_, fun earlier hearlier order horder => ?_⟩
      · cases call <;> simp [BookCall.task]
      · obtain ⟨_, hcall, _⟩ := mem_newOrders_bookTasks hearlier
        have hlt := (List.getElem?_eq_some_iff.mp hcall).1
        cases call with
        | newOrder terms =>
          simp only [BookCall.task, newOrders_newOrder, newOrders_nil, List.mem_singleton] at horder
          exact horder ▸ hlt
        | cancelOrder owner origClientOrderID side => simp [BookCall.task] at horder

/-- Every book reached by calls has its history. -/
theorem history_reached (calls : List BookCall) :
    OrderBook.History (bookTasks calls) (OrderBook.reached calls) :=
  OrderBook.history_empty.executeAll (stamped_bookTasks calls)

namespace OrderBook

/-- The invariant of a book between two calls, in the terms of iteration over its two maps. The
number of the call that submitted an order is its time of insertion. -/
structure Invariant (calls : List BookCall) (book : OrderBook) : Prop where
  bidSides : ∀ order ∈ book.bidOrders.values, order.side = .buy
  askSides : ∀ order ∈ book.askOrders.values, order.side = .sell
  keys : ∀ side, ∀ entry ∈ (book.orders side).entries, entry.1 = entry.2.price
  bidPrices : book.bidOrders.values.Pairwise fun x y => y.price ≤ x.price
  askPrices : book.askOrders.values.Pairwise fun x y => x.price ≤ y.price
  arrival : ∀ side, (book.orders side).values.Pairwise fun x y => x.price = y.price → x.serial < y.serial
  submitted : ∀ side, ∀ order ∈ (book.orders side).values,
    calls[order.serial]? = some (.newOrder order.toOrderTerms)
  quantities : ∀ side, ∀ order ∈ (book.orders side).values,
    order.openQuantity + order.executedQuantity = order.quantity ∧ order.cancelled = false
  uncrossed : ∀ bid ask, book.bidOrders.front? = some bid → book.askOrders.front? = some ask →
    bid.price < ask.price

/-- After any calls the book is in order and uncrossed, and the matching loop of a next order
terminates. -/
theorem reached_invariant (calls : List BookCall) :
    Invariant calls (reached calls) ∧
      ∀ order : Order, ∃ fuel, matchingLoop fuel ((reached calls).insert order) [] =
        some ((reached calls).insert order).processMatching := by
  have hhistory := history_reached calls
  have harranged := hhistory.sound.arranged
  refine ⟨?_, fun order => ⟨_, matchingLoop_eq_processMatching (Nat.lt_succ_self _)⟩⟩
  constructor
  case bidSides => exact (harranged .buy).sided
  case askSides => exact (harranged .sell).sided
  case keys => exact fun side => (harranged side).keyed
  case bidPrices => exact (harranged .buy).priority.imp not_lt.mp
  case askPrices => exact (harranged .sell).priority.imp not_lt.mp
  case arrival => exact fun side => (harranged side).arrival
  case submitted =>
    intro side order horder
    obtain ⟨original, horiginal, hterms, hserial⟩ := hhistory.origin side order horder
    obtain ⟨terms, hcall, heq⟩ := mem_newOrders_bookTasks horiginal
    have hterms' : terms = order.toOrderTerms := by rw [← hterms, heq, Order.ofTerms_toOrderTerms]
    rw [← hserial, hcall, hterms']
  case quantities => exact fun side order horder => ⟨order.balance, (harranged side).live order horder⟩
  case uncrossed =>
    intro bid ask hbid hask
    obtain ⟨bids, hbids⟩ := (Multimap.front?_eq_some_iff _ _).mp hbid
    obtain ⟨asks, hasks⟩ := (Multimap.front?_eq_some_iff _ _).mp hask
    exact hhistory.sound.uncrossed bid (hbids ▸ List.mem_cons_self ..) ask (hasks ▸ List.mem_cons_self ..)

end OrderBook

end MatchingEngine
