import MatchingEngine.QueueMPMC
import MatchingEngine.QueueMPSC

/-!
# Reclaiming the nodes of the queues

Every node of the two linked queues is allocated by a thread that pushes it and deleted by the
thread that takes it out, or by the destructor of its queue. A node that exists is one that
following the links leads to, or the node of a call that has not linked it yet or has just
taken it out of the list. When no thread uses the queue any more, its destructor deletes
every node that is left.

A deleted node is never accessed, so that no node is deleted twice.
-/

namespace MatchingEngine

/-- The destructor of a queue: its nodes are deleted from the head on. -/
def QueueMPMC.destroy {ι T : Type*} (q : QueueMPMC ι T) : Option (Heap (Node (Option T))) :=
  Node.freeAll q.heap.allocated q.heap (some q.head)

/-- The destructor of a queue: its nodes are deleted from the head on. -/
def QueueMPSC.destroy {T : Type*} (q : QueueMPSC T) : Option (Heap (Node (Option T))) :=
  Node.freeAll q.heap.allocated q.heap (some q.head)

/-- The destructor of a queue deletes its chain, and nothing else. -/
theorem Node.Chain.destroy {α : Type*} {heap : Heap (Node α)} {entry : ℕ × α} {rest : List (ℕ × α)}
    (h : Node.Chain heap.cells (entry :: rest))
    (hall : ∀ address, heap.cells address ≠ none → address ∈ (entry :: rest).map Prod.fst) :
    ∃ heap', Node.freeAll heap.allocated heap (some entry.1) = some heap' ∧ ∀ address, heap'.cells address = none := by
  obtain ⟨heap', hfree, hcells⟩ := h.freeAll h.length_le
  refine ⟨heap', hfree, fun address => ?_⟩
  rw [hcells]
  split
  · rfl
  · rename_i hmem
    exact of_not_not (mt (hall address) hmem)

namespace TwoLockQueue

open QueueMPMC

variable {ι T : Type*} {s t : TwoLockQueue ι T} {dummy : Option T} {items : List (ℕ × Option T)} {owner : ℕ → Option ι}
  {thread : ι} {previous current : Option (CallState T)}

/-- The node that a call has not linked yet, or that it has taken out and is to delete. -/
def held : CallState T → Option ℕ
  | .storeData _ newNode | .lockTail _ newNode | .loadTail _ newNode | .storeNext _ newNode _ => some newNode
  | .unlockHead currentHead _ | .delete currentHead _ => some currentHead
  | .allocate _ | .storeTail _ _ | .unlockTail _ | .lockHead | .loadHead | .loadNext _ | .loadData _ _
  | .storeHead _ _ _ | .unlockMissed => none

/-- Every node that exists is in the queue or held by a call. -/
def Kept (s : TwoLockQueue ι T) : Prop :=
  ∀ address, s.queue.heap.cells address ≠ none →
    Node.Reaches s.queue.heap.cells s.queue.head address ∨ ∃ thread, (s.calls thread).bind held = some address

/-- The nodes that a call holds exist, are its own and are not in the queue. -/
theorem Described.held_owner (h : s.Described dummy items owner) {address : ℕ}
    (hheld : (s.calls thread).bind held = some address) :
    s.queue.heap.cells address ≠ none ∧ owner address = some thread := by
  obtain ⟨state, hcall, hstate⟩ := Option.bind_eq_some_iff.mp hheld
  have hpermits := h.calls thread state hcall
  cases state with
  | storeData data newNode | lockTail data newNode =>
    obtain rfl := Option.some.inj hstate
    exact ⟨by simp [hpermits.2], hpermits.1⟩
  | loadTail data newNode | storeNext data newNode tail =>
    obtain rfl := Option.some.inj hstate
    exact ⟨by simp [hpermits.1.2], hpermits.1.1⟩
  | unlockHead currentHead data =>
    obtain rfl := Option.some.inj hstate
    exact ⟨hpermits.2.2, hpermits.2.1⟩
  | delete currentHead data =>
    obtain rfl := Option.some.inj hstate
    exact ⟨hpermits.2, hpermits.1⟩
  | _ => cases hstate

variable [DecidableEq ι]

/-- A step of a thread leaves no node behind if its call holds what it allocates and what leaves the queue, and what
the call held before is then in the queue, still held or deleted. -/
theorem Kept.update (h : s.Kept) (hprevious : s.calls thread = previous)
    (hcalls : t.calls = Function.update s.calls thread current)
    (hnew : ∀ address, t.queue.heap.cells address ≠ none →
      s.queue.heap.cells address ≠ none ∨ current.bind held = some address)
    (hqueue : ∀ address, t.queue.heap.cells address ≠ none → Node.Reaches s.queue.heap.cells s.queue.head address →
      Node.Reaches t.queue.heap.cells t.queue.head address ∨ current.bind held = some address)
    (hheld : ∀ address, t.queue.heap.cells address ≠ none → previous.bind held = some address →
      Node.Reaches t.queue.heap.cells t.queue.head address ∨ current.bind held = some address) : t.Kept := by
  intro address hcell
  have hown : current.bind held = some address → ∃ thread, (t.calls thread).bind held = some address :=
    fun hcurrent => ⟨thread, by rw [hcalls, Function.update_self, hcurrent]⟩
  rcases hnew address hcell with hbefore | hcurrent
  · rcases h address hbefore with hreaches | ⟨other, hother⟩
    · exact (hqueue address hcell hreaches).imp_right hown
    · by_cases heq : other = thread
      · subst heq
        exact (hheld address hcell (hprevious ▸ hother)).imp_right hown
      · exact Or.inr ⟨other, by rw [hcalls, Function.update_of_ne heq, hother]⟩
  · exact Or.inr (hown hcurrent)

/-- A step that changes no node and does not move the head leaves no node behind. -/
theorem Kept.control (h : s.Kept) (hprevious : s.calls thread = previous)
    (hcalls : t.calls = Function.update s.calls thread current) (hheap : t.queue.heap = s.queue.heap)
    (hhead : t.queue.head = s.queue.head) (hheld : previous.bind held = current.bind held) : t.Kept := by
  refine h.update hprevious hcalls (fun address hcell => Or.inl (hheap ▸ hcell)) (fun address _ hreaches => Or.inl ?_)
    fun address _ hbefore => Or.inr (hheld ▸ hbefore)
  rw [hheap, hhead]
  exact hreaches

/-- No step of a call leaves a node behind. -/
theorem Kept.step (hk : s.Kept) (h : s.Described dummy items owner) {state : CallState T}
    (hcall : s.calls thread = some state) (hstep : s.step thread state = some t) : t.Kept := by
  have hpermits := h.calls thread state hcall
  cases state with
  | allocate data =>
    obtain rfl := Option.some.inj hstep
    refine hk.update hcall rfl (fun address hcell => ?_) (fun address _ hreaches => Or.inl ?_) fun _ _ hbefore => ?_
    · rcases Heap.of_allocate hcell with rfl | hbefore
      · exact Or.inr rfl
      · exact Or.inl hbefore
    · refine hreaches.update (fun node hcell => ?_) _
      rw [s.queue.heap.fresh _ le_rfl] at hcell
      cases hcell
    · cases hbefore
  | storeData data newNode =>
    obtain ⟨heap, hstore, rfl⟩ := Option.map_eq_some_iff.mp hstep
    obtain ⟨node, hnode, hcells⟩ := Heap.modify_cells hstore
    obtain rfl := Option.some.inj (hnode.symm.trans hpermits.2)
    refine hk.update hcall rfl (fun address hcell => Or.inl (Heap.of_store hstore hcell))
      (fun address _ hreaches => Or.inl ?_) fun _ _ hbefore => Or.inr hbefore
    simp only [goOn, hcells]
    exact hreaches.update (fun other hother => by rw [Option.some.inj (hother.symm.trans hnode)]) _
  | storeNext data newNode tail =>
    obtain ⟨heap, hstore, rfl⟩ := Option.map_eq_some_iff.mp hstep
    obtain ⟨before, last, heq, hlast, _⟩ := h.last_cell hpermits.2.2.1
    obtain ⟨node, hnode, hcells⟩ := Heap.modify_cells hstore
    obtain rfl := Option.some.inj (hnode.symm.trans hlast)
    have hkeep : ∀ {address}, Node.Reaches s.queue.heap.cells s.queue.head address →
        Node.Reaches heap.cells s.queue.head address := by
      intro address hreaches
      rw [hcells]
      exact hreaches.update (fun other hother => by rw [Option.some.inj (hother.symm.trans hnode)]) _
    refine hk.update hcall rfl (fun address hcell => Or.inl (Heap.of_store hstore hcell))
      (fun address _ hreaches => Or.inl (hkeep hreaches)) fun address _ hbefore => Or.inl ?_
    -- The tail leads to the new node.
    obtain rfl := Option.some.inj hbefore
    have htail : Node.Reaches s.queue.heap.cells s.queue.head tail :=
      h.chain.reaches_iff.mpr (heq ▸ List.mem_map_of_mem (List.mem_append_right _ (List.mem_singleton_self _)))
    exact (hkeep htail).tail ⟨last, by rw [hcells, Function.update_self]⟩
  | storeHead currentHead newHead data =>
    obtain rfl := Option.some.inj hstep
    obtain ⟨_, rfl, hfirst⟩ := hpermits
    obtain ⟨rest, rfl⟩ := List.head?_eq_some_iff.mp hfirst
    refine hk.update hcall rfl (fun _ hcell => Or.inl hcell) (fun address _ hreaches => ?_)
      fun _ _ hbefore => by cases hbefore
    rcases List.mem_cons.mp (h.chain.reaches_iff.mp hreaches) with rfl | hmem
    · exact Or.inr rfl
    · have hrest : Node.Chain s.queue.heap.cells ((newHead, data) :: rest) := h.chain.2
      exact Or.inl (hrest.reaches_iff.mpr hmem)
  | delete currentHead data =>
    obtain ⟨heap, hfree, rfl⟩ := Option.map_eq_some_iff.mp hstep
    obtain ⟨_, _, hcells⟩ := Heap.modify_cells hfree
    have hchain : Node.Chain heap.cells ((s.queue.head, dummy) :: items) := by
      refine h.chain.congr fun entry hentry => ?_
      rw [hcells, Function.update_of_ne]
      intro heq
      have howner := h.chainOwner entry hentry
      rw [heq, hpermits.1] at howner
      cases howner
    refine hk.update hcall rfl (fun address hcell => Or.inl (Heap.of_free hfree hcell).2)
      (fun address _ hreaches => Or.inl (hchain.reaches_iff.mpr (h.chain.reaches_iff.mp hreaches)))
      fun address hcell hbefore => ?_
    exact absurd (Option.some.inj hbefore).symm (Heap.of_free hfree hcell).1
  | lockTail data newNode =>
    simp only [TwoLockQueue.step] at hstep
    split at hstep
    · exact Option.some.inj hstep ▸ hk.control hcall rfl rfl rfl rfl
    · cases hstep
  | lockHead =>
    simp only [TwoLockQueue.step] at hstep
    split at hstep
    · exact Option.some.inj hstep ▸ hk.control hcall rfl rfl rfl rfl
    · cases hstep
  | loadNext currentHead =>
    obtain ⟨node, _, rfl⟩ := Option.map_eq_some_iff.mp hstep
    cases node.next with
    | none => exact hk.control hcall rfl rfl rfl rfl
    | some newHead => exact hk.control hcall rfl rfl rfl rfl
  | loadData currentHead newHead =>
    obtain ⟨node, _, rfl⟩ := Option.map_eq_some_iff.mp hstep
    exact hk.control hcall rfl rfl rfl rfl
  | loadTail | storeTail | unlockTail | loadHead | unlockHead | unlockMissed =>
    exact Option.some.inj hstep ▸ hk.control hcall rfl rfl rfl rfl

/-- No node is left behind in any state reached. -/
theorem kept_of_reachable (h : (twoLockQueue ι T).Reachable s) : s.Kept := by
  induction h with
  | start =>
    intro address hcell
    rcases Heap.of_allocate hcell with rfl | hbefore
    · exact Or.inl .refl
    · exact absurd rfl hbefore
  | @step label s t hs _ hnext ih =>
    obtain ⟨dummy, items, owner, hdescribed⟩ := described_of_reachable hs
    cases label with
    | enqueue thread data | dequeue thread =>
      simp only [twoLockQueue, TwoLockQueue.next, TwoLockQueue.call] at hnext
      split at hnext
      · rename_i hidle
        exact Option.some.inj hnext ▸ ih.control hidle rfl rfl rfl rfl
      · cases hnext
    | step thread =>
      obtain ⟨state, hcall, hstep⟩ := Option.bind_eq_some_iff.mp hnext
      exact ih.step hdescribed hcall hstep

/-- In every interleaving, the nodes that exist are the dummy, one node for each item in the queue, and at most one node
for each call: one that it has not linked yet or has taken out. No two calls have the same one. Once no call is left, the
destructor deletes all nodes. -/
theorem nodes_reclaimed (h : (twoLockQueue ι T).Reachable s) :
    ∃ (dummy : Option T) (items : List (ℕ × Option T)),
      Node.Chain s.queue.heap.cells ((s.queue.head, dummy) :: items) ∧
      s.dequeued ++ items.map Prod.snd = s.linked.map some ∧
      (∀ address, s.queue.heap.cells address ≠ none ↔
        address ∈ ((s.queue.head, dummy) :: items).map Prod.fst ∨
          ∃ thread, (s.calls thread).bind held = some address) ∧
      (∀ thread address, (s.calls thread).bind held = some address →
        address ∉ ((s.queue.head, dummy) :: items).map Prod.fst ∧
          ∀ other, (s.calls other).bind held = some address → other = thread) ∧
      ((∀ thread, s.calls thread = none) →
        ∃ heap, s.queue.destroy = some heap ∧ ∀ address, heap.cells address = none) := by
  obtain ⟨dummy, items, owner, hdescribed⟩ := described_of_reachable h
  have hkept := kept_of_reachable h
  refine ⟨dummy, items, hdescribed.chain, hdescribed.accounted, fun address => ⟨fun hcell => ?_, ?_⟩,
    fun thread address hheld => ⟨fun hmem => ?_, fun other hother => ?_⟩, fun hidle => ?_⟩
  · exact (hkept address hcell).imp_left hdescribed.chain.reaches_iff.mp
  · rintro (hmem | ⟨thread, hheld⟩)
    · obtain ⟨entry, hentry, rfl⟩ := List.mem_map.mp hmem
      obtain ⟨next, hcell⟩ := hdescribed.chain.cell hentry
      simp [hcell]
    · exact (hdescribed.held_owner hheld).1
  · obtain ⟨entry, hentry, rfl⟩ := List.mem_map.mp hmem
    have howner := (hdescribed.held_owner hheld).2
    rw [hdescribed.chainOwner entry hentry] at howner
    cases howner
  · exact Option.some.inj ((hdescribed.held_owner hother).2.symm.trans (hdescribed.held_owner hheld).2)
  · refine hdescribed.chain.destroy fun address hcell => ?_
    rcases hkept address hcell with hreaches | ⟨thread, hheld⟩
    · exact hdescribed.chain.reaches_iff.mp hreaches
    · rw [hidle thread] at hheld
      cases hheld

/-- An item is enqueued, and the queue is destroyed with the item in it. -/
theorem nodes_reclaimed_enqueue :
    ∃ s : TwoLockQueue Bool ℕ, (twoLockQueue Bool ℕ).Reachable s ∧ s.linked = [7] ∧
      ∃ heap, s.queue.destroy = some heap ∧ ∀ address, heap.cells address = none := by
  have hrun : ((twoLockQueue Bool ℕ).run (.enqueue true 7 :: List.replicate 7 (.step true))
      (twoLockQueue Bool ℕ).start).any
        (fun s => s.linked == [7] && (s.calls true).isNone && (s.calls false).isNone) = true := by
    decide
  obtain ⟨s, hreachable, htest⟩ := Machine.exists_reachable_of_run hrun
  simp only [Bool.and_eq_true, beq_iff_eq, Option.isNone_iff_eq_none] at htest
  obtain ⟨dummy, items, _, _, _, _, hdestroy⟩ := nodes_reclaimed hreachable
  refine ⟨s, hreachable, htest.1.1, hdestroy fun thread => ?_⟩
  cases thread with
  | false => exact htest.2
  | true => exact htest.1.2

end TwoLockQueue

namespace SharedQueue

open QueueMPSC

variable {ι T : Type*} {s t : SharedQueue ι T} {dummy : Option T} {queued walked : List (ℕ × Option T)}
  {lists : List (List (ℕ × Option T))} {owner : ℕ → Owner ι}

/-- Every node that exists is in the queue, still to be walked by the dispatcher, or constructed by a thread that has not
appended it. -/
def Kept (s : SharedQueue ι T) : Prop :=
  ∀ address, s.queue.heap.cells address ≠ none →
    Node.Reaches s.queue.heap.cells s.queue.head address ∨
      (∃ first, s.consumer.undeleted = some first ∧ Node.Reaches s.queue.heap.cells first address) ∨
      ∃ producer data, s.producers producer = some (.append data address)

/-- Calling `push`, waking up and notifying leave no node behind. -/
theorem Kept.control (h : s.Kept) (hqueue : t.queue = s.queue) (hconsumer : t.consumer.undeleted = s.consumer.undeleted)
    (hproducers : ∀ producer data newNode, s.producers producer = some (.append data newNode) →
      t.producers producer = some (.append data newNode)) : t.Kept := by
  intro address hcell
  rw [hqueue] at hcell ⊢
  rw [hconsumer]
  refine (h address hcell).imp_right fun hrest => hrest.imp_right ?_
  rintro ⟨producer, data, hproducer⟩
  exact ⟨producer, data, hproducers producer data address hproducer⟩

/-- The steps of the dispatcher leave no node behind. -/
theorem Kept.consume (hk : s.Kept) (hd : s.Delivers lists queued walked) (h : s.Chained dummy queued walked owner)
    (hstep : s.consume = some t) : t.Kept := by
  have hwalks := hd.walks
  rw [SharedQueue.consume] at hstep
  cases hconsumer : s.consumer with
  | isEmpty =>
    rw [hconsumer] at hstep
    obtain ⟨empty, _, rfl⟩ := Option.map_eq_some_iff.mp hstep
    refine hk.control rfl ?_ fun _ _ _ hproducer => hproducer
    simp only [hconsumer]
    cases empty <;> rfl
  | lock =>
    rw [hconsumer] at hwalks hstep
    obtain ⟨rfl, hqueued⟩ := hwalks
    obtain ⟨first, rest, rfl⟩ := List.exists_cons_of_ne_nil hqueued
    simp only [flush, h.head_cell, Node.first_cons, Option.map_map] at hstep
    obtain ⟨heap, hstore, rfl⟩ := Option.map_eq_some_iff.mp hstep
    obtain ⟨node, hnode, hcells⟩ := Heap.modify_cells hstore
    have hchain : Node.Chain heap.cells (first :: rest) := by
      rw [hcells]
      exact h.queue.tail _
    intro address hcell
    rcases hk address (Heap.of_store hstore hcell) with hreaches | ⟨other, hother, _⟩ | hconstructed
    · rcases List.mem_cons.mp (h.queue.reaches_iff.mp hreaches) with rfl | hmem
      · exact Or.inl .refl
      · exact Or.inr (Or.inl ⟨first.1, rfl, hchain.reaches_iff.mpr hmem⟩)
    · rw [hconsumer] at hother
      cases hother
    · exact Or.inr (Or.inr hconstructed)
  | waiting =>
    rw [hconsumer] at hstep
    cases hstep
  | walk messageLinkedList =>
    rw [hconsumer] at hstep
    cases messageLinkedList with
    | none => exact Option.some.inj hstep ▸ hk.control rfl (by rw [hconsumer]; rfl) fun _ _ _ hproducer => hproducer
    | some messageLinkedList =>
      obtain ⟨node, _, rfl⟩ := Option.map_eq_some_iff.mp hstep
      exact hk.control rfl (by rw [hconsumer]; rfl) fun _ _ _ hproducer => hproducer
  | advance messageLinkedList =>
    rw [hconsumer] at hstep
    obtain ⟨node, _, rfl⟩ := Option.map_eq_some_iff.mp hstep
    exact hk.control rfl (by rw [hconsumer]; rfl) fun _ _ _ hproducer => hproducer
  | delete temp messageLinkedList =>
    rw [hconsumer] at hstep hwalks
    obtain ⟨data, rest, rfl, rfl⟩ := hwalks
    obtain ⟨heap, hfree, rfl⟩ := Option.map_eq_some_iff.mp hstep
    obtain ⟨heap', hfree', hafter⟩ := h.delete s.consumer
    obtain rfl := Option.some.inj (hfree'.symm.trans hfree)
    intro address hcell
    obtain ⟨hne, hbefore⟩ := Heap.of_free hfree hcell
    rcases hk address hbefore with hreaches | ⟨first, hfirst, hreaches⟩ | hconstructed
    · exact Or.inl (hafter.queue.reaches_iff.mpr (h.queue.reaches_iff.mp hreaches))
    · rw [hconsumer] at hfirst
      obtain rfl := Option.some.inj hfirst
      rcases List.mem_cons.mp (h.walk.reaches_iff.mp hreaches) with rfl | hmem
      · exact absurd rfl hne
      · cases rest with
        | nil => cases hmem
        | cons next rest => exact Or.inr (Or.inl ⟨next.1, rfl, hafter.walk.reaches_iff.mpr hmem⟩)
    · exact Or.inr (Or.inr hconstructed)

variable [DecidableEq ι]

/-- The steps of a call of `push` leave no node behind. -/
theorem Kept.produce (hk : s.Kept) (h : s.Chained dummy queued walked owner) {producer : ι} {state : PushState T}
    (hproducer : s.producers producer = some state) (hstep : s.produce producer state = some t) : t.Kept := by
  cases state with
  | construct data =>
    obtain rfl := Option.some.inj hstep
    have hkeep : ∀ {first address}, Node.Reaches s.queue.heap.cells first address →
        Node.Reaches (s.queue.heap.allocate ⟨some data, none⟩).cells first address := by
      intro first address hreaches
      refine hreaches.update (fun node hcell => ?_) _
      rw [s.queue.heap.fresh _ le_rfl] at hcell
      cases hcell
    intro address hcell
    rcases Heap.of_allocate hcell with rfl | hbefore
    · exact Or.inr (Or.inr ⟨producer, data, Function.update_self ..⟩)
    · rcases hk address hbefore with hreaches | ⟨first, hfirst, hreaches⟩ | ⟨other, data', hother⟩
      · exact Or.inl (hkeep hreaches)
      · exact Or.inr (Or.inl ⟨first, hfirst, hkeep hreaches⟩)
      · refine Or.inr (Or.inr ⟨other, data', ?_⟩)
        simp only
        rw [Function.update_of_ne, hother]
        rintro rfl
        rw [hproducer] at hother
        cases hother
  | append data newNode =>
    obtain ⟨queue, hpush, rfl⟩ := Option.map_eq_some_iff.mp hstep
    obtain ⟨heap, hstore, rfl⟩ := Option.map_eq_some_iff.mp hpush
    obtain ⟨entries, last, hlast⟩ := h.exists_last
    have hchain := h.queue
    rw [hlast] at hchain
    obtain ⟨node, hnode, hcells⟩ := Heap.modify_cells hstore
    obtain rfl : node = ⟨last, none⟩ := Option.some.inj (hnode.symm.trans hchain.right.1)
    have hkeep : ∀ {first address}, Node.Reaches s.queue.heap.cells first address →
        Node.Reaches heap.cells first address := by
      intro first address hreaches
      rw [hcells]
      exact hreaches.update (fun other hother => by rw [Option.some.inj (hother.symm.trans hnode)]) _
    intro address hcell
    rcases hk address (Heap.of_store hstore hcell) with hreaches | ⟨first, hfirst, hreaches⟩ | ⟨other, data', hother⟩
    · exact Or.inl (hkeep hreaches)
    · exact Or.inr (Or.inl ⟨first, hfirst, hkeep hreaches⟩)
    · by_cases heq : other = producer
      · -- The tail leads to the new node.
        subst heq
        rw [hproducer, Option.some.injEq, PushState.append.injEq] at hother
        obtain ⟨rfl, rfl⟩ := hother
        have htail : Node.Reaches s.queue.heap.cells s.queue.head s.queue.tail :=
          h.queue.reaches_iff.mpr (hlast ▸ List.mem_map_of_mem (List.mem_append_right _ (List.mem_singleton_self _)))
        exact Or.inl ((hkeep htail).tail ⟨last, by rw [hcells, Function.update_self]⟩)
      · exact Or.inr (Or.inr ⟨other, data', by simp only [Function.update_of_ne heq, hother]⟩)
  | notify =>
    obtain rfl := Option.some.inj hstep
    refine hk.control rfl ?_ fun other data newNode hother => ?_
    · simp only
      split
      · rename_i hwaiting
        rw [hwaiting]
        rfl
      · rfl
    · simp only
      rw [Function.update_of_ne, hother]
      rintro rfl
      rw [hproducer] at hother
      cases hother

/-- No node is left behind in any state reached. -/
theorem kept_of_reachable (h : (sharedQueue ι T).Reachable s) : s.Kept := by
  induction h with
  | start =>
    intro address hcell
    rcases Heap.of_allocate hcell with rfl | hbefore
    · exact Or.inl .refl
    · exact absurd rfl hbefore
  | @step label s t hs _ hnext ih =>
    obtain ⟨lists, queued, walked, hdelivers, dummy, owner, hchained⟩ := described_of_reachable hs
    cases label with
    | push producer data =>
      simp only [sharedQueue, SharedQueue.next] at hnext
      split at hnext
      · rename_i hidle
        refine Option.some.inj hnext ▸ ih.control rfl rfl fun other data' newNode hother => ?_
        simp only
        rw [Function.update_of_ne, hother]
        rintro rfl
        rw [hidle] at hother
        cases hother
      · cases hnext
    | produce producer =>
      obtain ⟨state, hproducer, hstep⟩ := Option.bind_eq_some_iff.mp hnext
      exact ih.produce hchained hproducer hstep
    | consume => exact ih.consume hdelivers hchained hnext
    | wake =>
      simp only [sharedQueue, SharedQueue.next] at hnext
      split at hnext
      · rename_i hwaiting
        exact Option.some.inj hnext ▸ ih.control rfl (by rw [hwaiting]; rfl) fun _ _ _ hproducer => hproducer
      · cases hnext

/-- In every interleaving, the nodes that exist are the dummy, those of the messages in the queue, those that the
dispatcher has flushed and not deleted, and those that threads have constructed and not appended, which are all different.
When no thread is in a call of `push` and the dispatcher has deleted what it flushed, the destructor deletes all nodes. -/
theorem walked_nodes_reclaimed (h : (sharedQueue ι T).Reachable s) :
    ∃ (dummy : Option T) (queued walked : List (ℕ × Option T)),
      Node.Chain s.queue.heap.cells ((s.queue.head, dummy) :: queued) ∧ Node.Chain s.queue.heap.cells walked ∧
      s.consumer.undeleted = Node.first walked ∧
      s.dispatched ++ (s.undispatched walked ++ queued).map Prod.snd = s.pushed.map some ∧
      (∀ address, s.queue.heap.cells address ≠ none ↔
        address ∈ ((s.queue.head, dummy) :: queued).map Prod.fst ∨ address ∈ walked.map Prod.fst ∨
          ∃ producer data, s.producers producer = some (.append data address)) ∧
      (((s.queue.head, dummy) :: queued).map Prod.fst).Disjoint (walked.map Prod.fst) ∧
      (∀ producer data address, s.producers producer = some (.append data address) →
        address ∉ ((s.queue.head, dummy) :: queued).map Prod.fst ∧ address ∉ walked.map Prod.fst ∧
          ∀ other data', s.producers other = some (.append data' address) → other = producer) ∧
      ((∀ producer, s.producers producer = none) → s.consumer.undeleted = none →
        ∃ heap, s.queue.destroy = some heap ∧ ∀ address, heap.cells address = none) := by
  obtain ⟨lists, queued, walked, hdelivers, dummy, owner, hchained⟩ := described_of_reachable h
  have hkept := kept_of_reachable h
  have hundeleted := hdelivers.undeleted
  have hqueue : ∀ address ∈ ((s.queue.head, dummy) :: queued).map Prod.fst, owner address = .queue := by
    intro address hmem
    obtain ⟨entry, hentry, rfl⟩ := List.mem_map.mp hmem
    exact hchained.queueOwner entry hentry
  have hwalk : ∀ address ∈ walked.map Prod.fst, owner address = .dispatcher := by
    intro address hmem
    obtain ⟨entry, hentry, rfl⟩ := List.mem_map.mp hmem
    exact hchained.walkOwner entry hentry
  refine ⟨dummy, queued, walked, hchained.queue, hchained.walk, hundeleted, hdelivers.accounted,
    fun address => ⟨fun hcell => ?_, ?_⟩, fun address hmem hmem' => ?_,
    fun producer data address hproducer => ⟨fun hmem => ?_, fun hmem => ?_, fun other data' hother => ?_⟩,
    fun hproducers hnone => ?_⟩
  · refine (hkept address hcell).imp hchained.queue.reaches_iff.mp fun hrest => hrest.imp_left ?_
    rintro ⟨first, hfirst, hreaches⟩
    cases walked with
    | nil => cases hundeleted.symm.trans hfirst
    | cons entry rest =>
      obtain rfl := Option.some.inj (hundeleted.symm.trans hfirst)
      exact hchained.walk.reaches_iff.mp hreaches
  · rintro (hmem | hmem | ⟨producer, data, hproducer⟩)
    · obtain ⟨entry, hentry, rfl⟩ := List.mem_map.mp hmem
      obtain ⟨next, hcell⟩ := hchained.queue.cell hentry
      simp [hcell]
    · obtain ⟨entry, hentry, rfl⟩ := List.mem_map.mp hmem
      obtain ⟨next, hcell⟩ := hchained.walk.cell hentry
      simp [hcell]
    · simp [(hchained.constructed producer data address hproducer).1]
  · cases (hqueue address hmem).symm.trans (hwalk address hmem')
  · cases (hqueue address hmem).symm.trans (hchained.constructed producer data address hproducer).2
  · cases (hwalk address hmem).symm.trans (hchained.constructed producer data address hproducer).2
  · exact Owner.producer.inj ((hchained.constructed other data' address hother).2.symm.trans
      (hchained.constructed producer data address hproducer).2)
  · refine hchained.queue.destroy fun address hcell => ?_
    rcases hkept address hcell with hreaches | ⟨first, hfirst, _⟩ | ⟨producer, data, hproducer⟩
    · exact hchained.queue.reaches_iff.mp hreaches
    · cases hnone.symm.trans hfirst
    · cases (hproducers producer).symm.trans hproducer

/-- One message is dispatched, and the queue is destroyed with a second one in it. -/
theorem walked_nodes_reclaimed_second :
    ∃ s : SharedQueue Bool ℕ, (sharedQueue Bool ℕ).Reachable s ∧ s.pushed = [7, 8] ∧ s.dispatched = [some 7] ∧
      ∃ heap, s.queue.destroy = some heap ∧ ∀ address, heap.cells address = none := by
  have hrun : ((sharedQueue Bool ℕ).run
      (.push true 7 :: List.replicate 3 (.produce true) ++ List.replicate 6 .consume ++
        .push false 8 :: List.replicate 3 (.produce false)) (sharedQueue Bool ℕ).start).any
      (fun s => s.pushed == [7, 8] && s.dispatched == [some 7] && s.consumer.undeleted == none &&
        (s.producers true).isNone && (s.producers false).isNone) = true := by
    decide
  obtain ⟨s, hreachable, htest⟩ := Machine.exists_reachable_of_run hrun
  simp only [Bool.and_eq_true, beq_iff_eq, Option.isNone_iff_eq_none] at htest
  obtain ⟨⟨⟨⟨hpushed, hdispatched⟩, hundeleted⟩, htrue⟩, hfalse⟩ := htest
  obtain ⟨dummy, queued, walked, _, _, _, _, _, _, _, hdestroy⟩ := walked_nodes_reclaimed hreachable
  refine ⟨s, hreachable, hpushed, hdispatched, hdestroy (fun producer => ?_) hundeleted⟩
  cases producer with
  | false => exact hfalse
  | true => exact htrue

end SharedQueue

end MatchingEngine
