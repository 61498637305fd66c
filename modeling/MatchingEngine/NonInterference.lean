import MatchingEngine.BookReports

/-!
# Orders behind in priority do not interfere

Two runs of a book are compared, one with an additional order and one without it. As long
as some order ahead of the additional one rests, the books differ by this order alone: a
match only looks at the tops of the sides, an insertion falls ahead of it or behind it in
both books, and a cancel that does not name it finds the same order.

The books may drift apart only in the pass after which nothing is ahead any more. By then
every order that was ahead has left both books, and no later report is about it.
-/

namespace MatchingEngine

/-- The identity of an order determines its call. -/
theorem Order.serial_eq_of_identity {order other : Order} (h : order.identity = other.identity) :
    order.serial = other.serial :=
  congrArg (fun identity => identity.2.1) h

namespace OrderBook

variable {serial : ℕ} {side : OrderSide} {key : ℚ} {order : Order} {book other : OrderBook}
  {ahead behind : List (ℚ × Order)}

/-- No order of the call rests in the book. -/
def Absent (serial : ℕ) (book : OrderBook) : Prop := ∀ side, ∀ order ∈ (book.orders side).values, order.serial ≠ serial

/-- The books differ by one order, behind the same orders on its side; the call looked at has no order behind
these. -/
structure Behind (serial : ℕ) (side : OrderSide) (key : ℚ) (order : Order) (ahead behind : List (ℚ × Order))
    (book other : OrderBook) : Prop where
  withOrder : (book.orders side).entries = ahead ++ (key, order) :: behind
  without : (other.orders side).entries = ahead ++ behind
  opposite : book.orders side.opposite = other.orders side.opposite
  ahead : ∀ entry ∈ ahead, ¬ side.before key entry.1
  last : order.serial ≠ serial
  lastBehind : ∀ entry ∈ behind, entry.2.serial ≠ serial
  lastOpposite : ∀ resting ∈ (book.orders side.opposite).values, resting.serial ≠ serial

/-- The books differ by one order at most as long as the call looked at has an order in either of them. -/
def Coupled (serial : ℕ) (side : OrderSide) (key : ℚ) (order : Order) (book other : OrderBook) : Prop :=
  (∃ ahead behind, Behind serial side key order ahead behind book other) ∨ Absent serial book ∧ Absent serial other

/-- Where nothing is ahead, the call has no order. -/
theorem Behind.absent (h : Behind serial side key order [] behind book other) :
    Absent serial book ∧ Absent serial other := by
  have hbehind : ∀ resting ∈ behind.map Prod.snd, resting.serial ≠ serial := by
    intro resting hresting
    obtain ⟨entry, hentry, rfl⟩ := List.mem_map.mp hresting
    exact h.lastBehind entry hentry
  constructor
  · intro s resting hresting
    rcases eq_or_eq_opposite s side with rfl | rfl
    · rw [Multimap.values, h.withOrder, List.nil_append, List.map_cons] at hresting
      rcases List.mem_cons.mp hresting with rfl | hresting
      · exact h.last
      · exact hbehind resting hresting
    · exact h.lastOpposite resting hresting
  · intro s resting hresting
    rcases eq_or_eq_opposite s side with rfl | rfl
    · rw [Multimap.values, h.without, List.nil_append] at hresting
      exact hbehind resting hresting
    · rw [← h.opposite] at hresting
      exact h.lastOpposite resting hresting

/-- Matching reports nothing about a call without an order. -/
theorem Absent.processMatching (h : Absent serial book) :
    Absent serial book.processMatching.1 ∧ reportsOn serial (book.processMatching.2.map fillMessage) = [] := by
  constructor
  · intro side resting hresting
    obtain ⟨old, hold, hidentity⟩ := exists_identity_of_sublist (book.processMatching_identities side) hresting
    exact Order.serial_eq_of_identity hidentity ▸ h side old hold
  · refine reportsOn_eq_nil fun message hmessage => ?_
    obtain ⟨copy, hcopy, rfl⟩ := List.mem_map.mp hmessage
    obtain ⟨side, old, hold, hidentity⟩ := book.processMatching_copies copy hcopy
    exact ne_of_eq_of_ne (Order.serial_eq_of_identity hidentity).symm (h side old hold)

/-- A task of another call reports nothing about a call without an order. -/
theorem Absent.execute (h : Absent serial book) (hsided : book.Sided) {task : BookTask}
    (hnew : ∀ submitted ∈ newOrders [task], submitted.serial ≠ serial) :
    Absent serial (book.execute task).1 ∧ reportsOn serial (book.execute task).2 = [] := by
  cases task with
  | newOrder submitted =>
    refine Absent.processMatching fun s resting hresting => ?_
    rcases (mem_insert_orders ..).mp hresting with ⟨rfl, _⟩ | hresting
    · exact hnew _ (List.mem_singleton_self _)
    · exact h s resting hresting
  | cancelOrder owner id s =>
    refine ⟨fun s' resting hresting => h s' resting (hsided.cancel_subset owner id s s' hresting), ?_⟩
    refine reportsOn_eq_nil fun message hmessage => ?_
    rw [OrderBook.execute, taskCancelOrder_eq book _ _ s (hsided s)] at hmessage
    cases htarget : (book.orders s).values.find? (·.hasClient owner id) with
    | none => simp [htarget] at hmessage
    | some target =>
      simp only [htarget, Option.map_some, List.mem_singleton] at hmessage
      rw [hmessage]
      exact h s target (List.mem_of_find?_eq_some htarget)

/-- A pass of the matching loop only looks at the tops. -/
theorem matchTops_congr (h : ∀ side, (book.orders side).front? = (other.orders side).front?) :
    other.matchTops = book.matchTops.map fun pass =>
      (⟨settleTop other.bidOrders pass.2.1, settleTop other.askOrders pass.2.2⟩, pass.2.1, pass.2.2) := by
  have hbid : book.bidOrders.front? = other.bidOrders.front? := h .buy
  have hask : book.askOrders.front? = other.askOrders.front? := h .sell
  unfold matchTops
  rw [hbid, hask]
  cases other.bidOrders.front? with
  | none => rfl
  | some bid =>
    cases other.askOrders.front? with
    | none => rfl
    | some ask =>
      dsimp only
      split <;> rfl

/-- What is settled of the entries of a side. -/
theorem settleTop_entries {m : Multimap ℚ Order side.before} {top executed : Order} {rest : List (ℚ × Order)}
    (h : m.entries = (key, top) :: rest) :
    (settleTop m executed).entries = (if executed.isFilled then [] else [(key, executed)]) ++ rest := by
  unfold settleTop
  split <;> simp [Multimap.popFront, Multimap.modifyAt, h, Prod.map]

/-- The copy of a pass that belongs to a side. -/
def tradedOn (bid ask : Order) : OrderSide → Order
  | .buy => bid
  | .sell => ask

/-- A pass settles the top of each side. -/
theorem matchTops_orders {after : OrderBook} {bid ask : Order} (h : book.matchTops = some (after, bid, ask))
    (side : OrderSide) : after.orders side = settleTop (book.orders side) (tradedOn bid ask side) := by
  obtain ⟨_, _, _, _, _, _, rfl⟩ := matchTops_eq_some_iff.mp h
  cases side <;> rfl

/-- As long as something is ahead, a pass is the same in both books. -/
theorem Behind.matchTops {entry : ℚ × Order} (h : Behind serial side key order (entry :: ahead) behind book other) :
    (book.matchTops = none ∧ other.matchTops = none) ∨
      ∃ after after' bid ask ahead', book.matchTops = some (after, bid, ask) ∧
        other.matchTops = some (after', bid, ask) ∧ Behind serial side key order ahead' behind after after' := by
  have hfronts : ∀ s, (book.orders s).front? = (other.orders s).front? := by
    intro s
    rcases eq_or_eq_opposite s side with rfl | rfl
    · rw [Multimap.front?, Multimap.front?, Multimap.values, Multimap.values, h.withOrder, h.without]
      rfl
    · rw [h.opposite]
  have hcongr := matchTops_congr hfronts
  cases htops : book.matchTops with
  | none => exact .inl ⟨rfl, by rw [hcongr, htops]; rfl⟩
  | some pass =>
    obtain ⟨after, bid, ask⟩ := pass
    rw [htops, Option.map_some] at hcongr
    have hafter := matchTops_orders htops
    have hafter' := matchTops_orders hcongr
    refine .inr ⟨_, _, bid, ask, (if (tradedOn bid ask side).isFilled then [] else
      [(entry.1, tradedOn bid ask side)]) ++ ahead, rfl, hcongr, ?_⟩
    constructor
    case withOrder =>
      rw [hafter, settleTop_entries h.withOrder]
      exact (List.append_assoc ..).symm
    case without =>
      rw [hafter', settleTop_entries h.without]
      exact (List.append_assoc ..).symm
    case opposite => rw [hafter, hafter', h.opposite]
    case ahead =>
      intro e he
      rcases List.mem_append.mp he with he | he
      · have hfirst := h.ahead entry (List.mem_cons_self ..)
        split at he
        · cases he
        · rw [List.mem_singleton.mp he]
          exact hfirst
      · exact h.ahead e (List.mem_cons_of_mem _ he)
    case last => exact h.last
    case lastBehind => exact h.lastBehind
    case lastOpposite =>
      intro resting hresting
      obtain ⟨old, hold, hidentity⟩ := exists_identity_of_sublist (matchTops_identities htops side.opposite) hresting
      exact Order.serial_eq_of_identity hidentity ▸ h.lastOpposite old hold

/-- Where nothing is ahead, matching reports nothing about the call. -/
theorem Behind.processMatching_of_nil (h : Behind serial side key order [] behind book other) :
    Coupled serial side key order book.processMatching.1 other.processMatching.1 ∧
      reportsOn serial (book.processMatching.2.map fillMessage) =
        reportsOn serial (other.processMatching.2.map fillMessage) := by
  obtain ⟨hbook, hreports⟩ := h.absent.1.processMatching
  obtain ⟨hother, hreports'⟩ := h.absent.2.processMatching
  exact ⟨.inr ⟨hbook, hother⟩, by rw [hreports, hreports']⟩

/-- Matching keeps the books coupled, with the same reports about the call. -/
theorem Behind.processMatching (h : Behind serial side key order ahead behind book other) :
    Coupled serial side key order book.processMatching.1 other.processMatching.1 ∧
      reportsOn serial (book.processMatching.2.map fillMessage) =
        reportsOn serial (other.processMatching.2.map fillMessage) := by
  induction book using processMatching_induction generalizing ahead other with
  | stop book htops =>
    cases ahead with
    | nil => exact h.processMatching_of_nil
    | cons entry ahead =>
      rcases h.matchTops with ⟨_, hother⟩ | ⟨_, _, _, _, _, hsome, _⟩
      · rw [processMatching_eq book, processMatching_eq other, htops, hother]
        exact ⟨.inl ⟨_, _, h⟩, rfl⟩
      · rw [htops] at hsome
        cases hsome
  | pass book after bid ask htops ih =>
    cases ahead with
    | nil => exact h.processMatching_of_nil
    | cons entry ahead =>
      rcases h.matchTops with ⟨hnone, _⟩ | ⟨last, last', bid', ask', ahead', hsome, hother, hlast⟩
      · rw [htops] at hnone
        cases hnone
      · rw [htops, Option.some.injEq, Prod.mk.injEq, Prod.mk.injEq] at hsome
        obtain ⟨rfl, rfl, rfl⟩ := hsome
        obtain ⟨hcoupled, hreports⟩ := ih hlast
        rw [processMatching_eq book, processMatching_eq other, htops, hother]
        refine ⟨hcoupled, ?_⟩
        have hcons : ∀ copies : List Order, reportsOn serial ((bid :: ask :: copies).map fillMessage) =
            reportsOn serial [fillMessage bid, fillMessage ask] ++ reportsOn serial (copies.map fillMessage) :=
          fun copies => reportsOn_append serial [fillMessage bid, fillMessage ask] (copies.map fillMessage)
        rw [hcons, hcons, hreports]

/-- An order is inserted in both books ahead of the one by which they differ, or in both behind it. -/
theorem Behind.insert (h : Behind serial side key order ahead behind book other) {submitted : Order}
    (hnew : submitted.serial ≠ serial) :
    ∃ ahead' behind', Behind serial side key order ahead' behind' (book.insert submitted) (other.insert submitted) := by
  rcases eq_or_eq_opposite side submitted.side with hside | hside
  · have horders : ∀ b : OrderBook, (b.insert submitted).orders side = (b.orders side).insert submitted.price submitted ∧
        (b.insert submitted).orders side.opposite = b.orders side.opposite := by
      intro b
      rw [insert_eq b hside.symm]
      exact ⟨setOrders_orders_same .., setOrders_orders_opposite ..⟩
    have hentries : ∀ b : OrderBook, ((b.insert submitted).orders side).entries =
        Multimap.insertEntry side.before submitted.price submitted (b.orders side).entries :=
      fun b => congrArg Multimap.entries (horders b).1
    have hopposite : (book.insert submitted).orders side.opposite = (other.insert submitted).orders side.opposite := by
      rw [(horders book).2, (horders other).2, h.opposite]
    have hlastOpposite : ∀ resting ∈ ((book.insert submitted).orders side.opposite).values, resting.serial ≠ serial := by
      rw [(horders book).2]
      exact h.lastOpposite
    by_cases hahead : ∃ entry ∈ ahead, side.before submitted.price entry.1
    · -- The price is better than one ahead.
      refine ⟨Multimap.insertEntry side.before submitted.price submitted ahead, behind, ?_, ?_, hopposite,
        fun entry hentry => ?_, h.last, h.lastBehind, hlastOpposite⟩
      · rw [hentries, h.withOrder, Multimap.insertEntry_append_of_exists hahead]
      · rw [hentries, h.without, Multimap.insertEntry_append_of_exists hahead]
      · rcases Multimap.mem_insertEntry.mp hentry with rfl | hentry
        · obtain ⟨first, hfirst, hbefore⟩ := hahead
          exact fun hkey => h.ahead first hfirst (IsTrans.trans _ _ _ hkey hbefore)
        · exact h.ahead entry hentry
    · push Not at hahead
      by_cases hkey : side.before submitted.price key
      · -- The price is better than that of the order by which the books differ.
        have hordered := (book.orders side).ordered
        rw [h.withOrder, List.map_append, List.map_cons, List.pairwise_append, List.pairwise_cons] at hordered
        have hbehind : ∀ entry ∈ behind, side.before submitted.price entry.1 := fun entry hentry =>
          Multimap.before_of_before_of_not hkey (hordered.2.1.1 entry.1 (List.mem_map_of_mem hentry))
        refine ⟨ahead ++ [(submitted.price, submitted)], behind, ?_, ?_, hopposite, fun entry hentry => ?_, h.last,
          h.lastBehind, hlastOpposite⟩
        · rw [hentries, h.withOrder, Multimap.insertEntry_append_of_forall hahead, Multimap.insertEntry, if_pos hkey,
            List.append_assoc]
          rfl
        · rw [hentries, h.without, Multimap.insertEntry_append_of_forall hahead,
            Multimap.insertEntry_of_forall hbehind, List.append_assoc]
          rfl
        · rcases List.mem_append.mp hentry with hentry | hentry
          · exact h.ahead entry hentry
          · rw [List.mem_singleton.mp hentry]
            exact Std.Asymm.asymm _ _ hkey
      · refine ⟨ahead, Multimap.insertEntry side.before submitted.price submitted behind, ?_, ?_, hopposite, h.ahead,
          h.last, fun entry hentry => ?_, hlastOpposite⟩
        · rw [hentries, h.withOrder, Multimap.insertEntry_append_of_forall hahead, Multimap.insertEntry, if_neg hkey]
        · rw [hentries, h.without, Multimap.insertEntry_append_of_forall hahead]
        · rcases Multimap.mem_insertEntry.mp hentry with rfl | hentry
          · exact hnew
          · exact h.lastBehind entry hentry
  · have hopposite : submitted.side = side.opposite := by rw [hside, OrderSide.opposite_opposite]
    refine ⟨ahead, behind, ?_, ?_, ?_, h.ahead, h.last, h.lastBehind, fun resting hresting => ?_⟩
    · rw [insert_eq book hopposite, setOrders_opposite_orders, h.withOrder]
    · rw [insert_eq other hopposite, setOrders_opposite_orders, h.without]
    · rw [insert_eq book hopposite, insert_eq other hopposite, setOrders_orders_same, setOrders_orders_same, h.opposite]
    · rcases (mem_insert_orders ..).mp hresting with ⟨rfl, _⟩ | hresting
      · exact hnew
      · exact h.lastOpposite resting hresting

/-- A cancel that does not name the order by which the books differ has the same effect on both. -/
theorem Behind.cancel (h : Behind serial side key order ahead behind book other) (hbook : book.Sided)
    (hother : other.Sided) (owner id : String) (s : OrderSide)
    (hunnamed : s = side → order.hasClient owner id = false) :
    (∃ ahead' behind', Behind serial side key order ahead' behind' (book.execute (.cancelOrder owner id s)).1
      (other.execute (.cancelOrder owner id s)).1) ∧
      (book.execute (.cancelOrder owner id s)).2 = (other.execute (.cancelOrder owner id s)).2 := by
  rw [OrderBook.execute, OrderBook.execute, taskCancelOrder_eq book _ _ s (hbook s), taskCancelOrder_eq other _ _ s (hother s)]
  rcases eq_or_eq_opposite s side with rfl | rfl
  · have hfails : ¬ order.hasClient owner id = true := by simp [hunnamed rfl]
    -- The scan passes over the order by which the books differ.
    have hfind : (book.orders s).values.find? (·.hasClient owner id) =
        (other.orders s).values.find? (·.hasClient owner id) := by
      rw [Multimap.values, Multimap.values, h.withOrder, h.without, List.map_append, List.map_append, List.map_cons,
        List.find?_append, List.find?_append]
      exact congrArg _ (List.find?_cons_of_neg hfails)
    rw [hfind]
    cases (other.orders s).values.find? (·.hasClient owner id) with
    | none => exact ⟨⟨_, _, h⟩, rfl⟩
    | some target =>
      rw [Option.map_some, Option.map_some]
      refine ⟨?_, rfl⟩
      have herase : ∀ b : OrderBook, ((b.setOrders s ((b.orders s).eraseFirst (·.hasClient owner id))).orders s).entries =
          (b.orders s).entries.eraseP ((·.hasClient owner id) ∘ Prod.snd) := by
        intro b
        rw [setOrders_orders_same]
        rfl
      have hskip : ((key, order) :: behind).eraseP ((·.hasClient owner id) ∘ Prod.snd) =
          (key, order) :: behind.eraseP ((·.hasClient owner id) ∘ Prod.snd) := List.eraseP_cons_of_neg hfails
      have hopposite : (book.setOrders s ((book.orders s).eraseFirst (·.hasClient owner id))).orders s.opposite =
          (other.setOrders s ((other.orders s).eraseFirst (·.hasClient owner id))).orders s.opposite := by
        rw [setOrders_orders_opposite, setOrders_orders_opposite, h.opposite]
      have hlastOpposite : ∀ resting ∈ ((book.setOrders s
          ((book.orders s).eraseFirst (·.hasClient owner id))).orders s.opposite).values, resting.serial ≠ serial := by
        rw [setOrders_orders_opposite]
        exact h.lastOpposite
      by_cases hahead : ahead.any ((·.hasClient owner id) ∘ Prod.snd) = true
      · refine ⟨ahead.eraseP ((·.hasClient owner id) ∘ Prod.snd), behind, ?_, ?_, hopposite,
          fun entry hentry => h.ahead entry (List.mem_of_mem_eraseP hentry), h.last, h.lastBehind, hlastOpposite⟩
        · rw [herase, h.withOrder, List.eraseP_append, if_pos hahead]
        · rw [herase, h.without, List.eraseP_append, if_pos hahead]
      · refine ⟨ahead, behind.eraseP ((·.hasClient owner id) ∘ Prod.snd), ?_, ?_, hopposite, h.ahead, h.last,
          fun entry hentry => h.lastBehind entry (List.mem_of_mem_eraseP hentry), hlastOpposite⟩
        · rw [herase, h.withOrder, List.eraseP_append, if_neg hahead, hskip]
        · rw [herase, h.without, List.eraseP_append, if_neg hahead]
  · rw [h.opposite]
    cases (other.orders side.opposite).values.find? (·.hasClient owner id) with
    | none => exact ⟨⟨_, _, h⟩, rfl⟩
    | some target =>
      rw [Option.map_some, Option.map_some]
      refine ⟨⟨ahead, behind, ?_, ?_, ?_, h.ahead, h.last, h.lastBehind, fun resting hresting => ?_⟩, rfl⟩
      · rw [setOrders_opposite_orders, h.withOrder]
      · rw [setOrders_opposite_orders, h.without]
      · rw [setOrders_orders_same, setOrders_orders_same]
      · rw [setOrders_orders_same, Multimap.eraseFirst_values, ← h.opposite] at hresting
        exact h.lastOpposite resting (List.mem_of_mem_eraseP hresting)

/-- A task of another call that does not name the order by which the books differ keeps them coupled, with the same
reports about the call. -/
theorem Coupled.execute (h : Coupled serial side key order book other) (hbook : book.Sided) (hother : other.Sided)
    {task : BookTask} (hnew : ∀ submitted ∈ newOrders [task], submitted.serial ≠ serial)
    (hunnamed : ∀ owner id, task = .cancelOrder owner id side → order.hasClient owner id = false) :
    Coupled serial side key order (book.execute task).1 (other.execute task).1 ∧
      reportsOn serial (book.execute task).2 = reportsOn serial (other.execute task).2 := by
  rcases h with ⟨ahead, behind, h⟩ | ⟨habsent, habsent'⟩
  · cases task with
    | newOrder submitted =>
      obtain ⟨ahead', behind', hinserted⟩ := h.insert (hnew submitted (List.mem_singleton_self _))
      exact hinserted.processMatching
    | cancelOrder owner id s =>
      obtain ⟨hcoupled, hreports⟩ := h.cancel hbook hother owner id s
        fun hs => hunnamed owner id (hs ▸ rfl)
      exact ⟨.inl hcoupled, by rw [hreports]⟩
  · obtain ⟨hafter, hreports⟩ := habsent.execute hbook hnew
    obtain ⟨hafter', hreports'⟩ := habsent'.execute hother hnew
    exact ⟨.inr ⟨hafter, hafter'⟩, by rw [hreports, hreports']⟩

/-- Tasks of other calls that do not name the order by which the books differ keep them coupled, with the same
reports about the call. -/
theorem Coupled.executeAll (h : Coupled serial side key order book other) (hbook : book.Sided) (hother : other.Sided)
    (tasks : List BookTask) (hnew : ∀ submitted ∈ newOrders tasks, submitted.serial ≠ serial)
    (hunnamed : ∀ owner id, .cancelOrder owner id side ∈ tasks → order.hasClient owner id = false) :
    Coupled serial side key order (book.executeAll tasks).1 (other.executeAll tasks).1 ∧
      reportsOn serial (book.executeAll tasks).2 = reportsOn serial (other.executeAll tasks).2 := by
  induction tasks generalizing book other with
  | nil => exact ⟨h, rfl⟩
  | cons task tasks ih =>
    rw [← List.singleton_append, newOrders_append] at hnew
    obtain ⟨hfirst, hreports⟩ := h.execute hbook hother
      (fun submitted hsubmitted => hnew submitted (List.mem_append_left _ hsubmitted))
      fun owner id htask => hunnamed owner id (htask ▸ List.mem_cons_self ..)
    obtain ⟨hrest, hreports'⟩ := ih hfirst (hbook.execute task) (hother.execute task)
      (fun submitted hsubmitted => hnew submitted (List.mem_append_right _ hsubmitted))
      fun owner id hmem => hunnamed owner id (List.mem_cons_of_mem _ hmem)
    refine ⟨hrest, ?_⟩
    simp only [OrderBook.executeAll, reportsOn_append, hreports, hreports']

/-- Nothing rests of an absent call. -/
theorem Absent.restingWith (h : Absent serial book) : book.restingWith serial = [] := by
  refine List.filter_eq_nil_iff.mpr fun resting hresting => ?_
  obtain ⟨side, hresting⟩ := mem_resting.mp hresting
  simpa using h side resting hresting

/-- Coupled books have the same resting orders of the call. -/
theorem Coupled.restingWith (h : Coupled serial side key order book other) :
    book.restingWith serial = other.restingWith serial := by
  rcases h with ⟨ahead, behind, h⟩ | ⟨habsent, habsent'⟩
  · have hside : (book.orders side).values.filter (fun resting => resting.serial == serial) =
        (other.orders side).values.filter (fun resting => resting.serial == serial) := by
      have hlast : (order.serial == serial) = false := by simpa using h.last
      rw [Multimap.values, Multimap.values, h.withOrder, h.without, List.map_append, List.map_append, List.map_cons,
        List.filter_append, List.filter_append, List.filter_cons, hlast]
      rfl
    have hopposite : (book.orders side.opposite).values.filter (fun resting => resting.serial == serial) =
        (other.orders side.opposite).values.filter (fun resting => resting.serial == serial) := by rw [h.opposite]
    rw [OrderBook.restingWith, OrderBook.restingWith, resting, resting, List.filter_append, List.filter_append]
    cases side
    · exact congrArg₂ (· ++ ·) hside hopposite
    · exact congrArg₂ (· ++ ·) hopposite hside
  · rw [habsent.restingWith, habsent'.restingWith]

/-- The tops of a sound book do not cross. -/
theorem Sound.matchTops (h : book.Sound) : book.matchTops = none := by
  refine (matchTops_eq_none_iff book).mpr fun bid ask hbid hask => ?_
  obtain ⟨bids, hbids⟩ := (Multimap.front?_eq_some_iff _ _).mp hbid
  obtain ⟨asks, hasks⟩ := (Multimap.front?_eq_some_iff _ _).mp hask
  exact h.uncrossed bid (hbids ▸ List.mem_cons_self ..) ask (hasks ▸ List.mem_cons_self ..)

/-- An order added behind a resting one only rests. -/
theorem Sound.joinsBehind (h : book.Sound) (order : Order) (hdistinct : (book.resting.map Order.serial).Nodup) {resting : Order}
    (hnew : order.serial ≠ resting.serial) (hresting : resting ∈ (book.orders order.side).values)
    (hprice : ¬ order.side.before order.price resting.price) :
    book.execute (.newOrder order) = (book.insert order, []) ∧
      ∃ ahead behind, Behind resting.serial order.side order.price order ahead behind (book.insert order) book := by
  obtain ⟨ahead, behind, hentries, hinsert, hahead, hbehind⟩ :=
    (book.orders order.side).insert_entries_split order.price order
  have hside : (book.insert order).orders order.side = (book.orders order.side).insert order.price order := by
    rw [OrderBook.insert, setOrders_orders_same]
  have hopposite : (book.insert order).orders order.side.opposite = book.orders order.side.opposite := by
    rw [OrderBook.insert, setOrders_orders_opposite]
  have hmem : resting ∈ ahead.map Prod.snd := by
    obtain ⟨entry, hentry, rfl⟩ := List.mem_map.mp hresting
    rw [hentries] at hentry
    rcases List.mem_append.mp hentry with hentry | hentry
    · exact List.mem_map_of_mem hentry
    · have hkey := (h.arranged order.side).keyed entry (hentries ▸ List.mem_append_right _ hentry)
      exact absurd (hkey ▸ hbehind entry hentry) hprice
  -- No other resting order is of the same call.
  have hcalls := ((book.resting_perm order.side).map Order.serial).nodup_iff.mp hdistinct
  rw [Multimap.values, hentries, List.map_append, List.map_append, List.map_append, List.nodup_append,
    List.nodup_append] at hcalls
  have hserial : resting.serial ∈ (ahead.map Prod.snd).map Order.serial := List.mem_map_of_mem hmem
  have hcoupled : Behind resting.serial order.side order.price order ahead behind (book.insert order) book := by
    refine ⟨by rw [hside, hinsert], hentries, hopposite, hahead, hnew, fun entry hentry heq => ?_,
      fun other hother heq => ?_⟩
    · exact hcalls.1.2.2 _ hserial _ (List.mem_map_of_mem (List.mem_map_of_mem hentry)) heq.symm
    · rw [hopposite] at hother
      exact hcalls.2.2 _ (List.mem_append_left _ hserial) _ (List.mem_map_of_mem hother) heq.symm
  refine ⟨?_, ahead, behind, hcoupled⟩
  cases ahead with
  | nil => cases hmem
  | cons entry ahead =>
    rcases hcoupled.matchTops with ⟨hnone, _⟩ | ⟨_, _, _, _, _, _, hsome, _⟩
    · rw [OrderBook.execute, taskNewOrder, processMatching_eq, hnone]
      rfl
    · rw [h.matchTops] at hsome
      cases hsome

/-- The tasks of calls with numbers from a start. -/
def tasksFrom (start : ℕ) (calls : List BookCall) : List BookTask := calls.mapIdx fun i call => call.task (start + i)

/-- The tasks of calls after a first one. -/
theorem tasksFrom_cons (start : ℕ) (call : BookCall) (calls : List BookCall) :
    tasksFrom start (call :: calls) = call.task start :: tasksFrom (start + 1) calls := by
  rw [tasksFrom, List.mapIdx_cons, tasksFrom]
  simp only [Nat.add_zero, Nat.add_assoc, Nat.add_comm 1]

/-- Later calls have later numbers. -/
theorem le_serial_of_mem_tasksFrom {start : ℕ} {calls : List BookCall} {order : Order}
    (h : order ∈ newOrders (tasksFrom start calls)) : start ≤ order.serial := by
  obtain ⟨i, terms, _, rfl⟩ := mem_newOrders_mapIdx h
  exact Nat.le_add_right start i

/-- An order added behind a resting one, at the same or a worse price, changes nothing about the resting one: whatever
calls follow that do not cancel the added order, the reports about the resting one and what rests of it are the same
as without the added order. -/
theorem reports_independent_of_later_order (past later : List BookCall) (terms : OrderTerms) {resting : Order}
    (hresting : resting ∈ ((reached past).orders terms.side).values)
    (hprice : ¬ terms.side.before terms.price resting.price)
    (hunnamed : ∀ owner id, .cancelOrder owner id terms.side ∈ later →
      ¬ (owner = terms.owner ∧ id = terms.clientOrderID)) :
    let withOrder := (reached past).executeAll (tasksFrom past.length (.newOrder terms :: later))
    let without := (reached past).executeAll (tasksFrom (past.length + 1) later)
    reportsOn resting.serial withOrder.2 = reportsOn resting.serial without.2 ∧
      withOrder.1.restingWith resting.serial = without.1.restingWith resting.serial := by
  intro withOrder without
  have hsound := (history_reached past).sound
  have hsided : (reached past).Sided := fun side => (hsound.arranged side).sided
  have hdistinct : ((reached past).resting.map Order.serial).Nodup := by
    refine (Tracks.executeAll ?_).distinct
    exact List.pairwise_map.mpr ((stamped_bookTasks past).increasing.imp fun hlt => hlt.ne)
  have hearlier : resting.serial < past.length :=
    (List.getElem?_eq_some_iff.mp ((reached_invariant past).1.submitted terms.side resting hresting)).1
  obtain ⟨hexecute, ahead, behind, hbehind⟩ := hsound.joinsBehind (.ofTerms terms past.length) hdistinct
    hearlier.ne' hresting hprice
  obtain ⟨hcoupled, hreports⟩ := Coupled.executeAll (.inl ⟨ahead, behind, hbehind⟩) (by
      have hnext := hsided.execute (.newOrder (.ofTerms terms past.length))
      rwa [hexecute] at hnext) hsided (tasksFrom (past.length + 1) later)
    (fun submitted hsubmitted => by
      have := le_serial_of_mem_tasksFrom hsubmitted
      omega)
    fun owner id hmem => by
      obtain ⟨i, hi, htask⟩ := List.mem_mapIdx.mp hmem
      have hcall : .cancelOrder owner id terms.side ∈ later := by
        cases hcall : later[i] with
        | newOrder => simp [hcall, BookCall.task] at htask
        | cancelOrder o c sd =>
          simp only [hcall, BookCall.task, BookTask.cancelOrder.injEq] at htask
          obtain ⟨rfl, rfl, hsd⟩ := htask
          exact hsd ▸ hcall ▸ List.getElem_mem hi
      have hne := hunnamed owner id hcall
      rw [← Bool.not_eq_true, Order.hasClient_iff]
      intro hclient
      exact hne ⟨hclient.2.symm, hclient.1.symm⟩
  have hwith : withOrder = ((reached past).insert (.ofTerms terms past.length)).executeAll
      (tasksFrom (past.length + 1) later) := by
    change (reached past).executeAll (tasksFrom past.length (.newOrder terms :: later)) = _
    rw [tasksFrom_cons, BookCall.task, OrderBook.executeAll, hexecute]
    rfl
  rw [hwith]
  exact ⟨hreports, hcoupled.restingWith⟩

/-- Terms of an order of a client. -/
def exampleTerms (clientOrderID : String) (side : OrderSide) (price : ℚ) (quantity : ℤ) : OrderTerms :=
  ⟨clientOrderID, "A", "CLIENT", "EXCHANGE", side, .limit, price, quantity⟩

/-- An ask that sweeps two bids fills the first of them in the same way as without the second. -/
theorem reports_independent_of_later_order_sweep :
    let past := [.newOrder (exampleTerms "1" .buy 10 5)]
    let later := [.newOrder (exampleTerms "3" .sell 8 20)]
    let withOrder := (reached past).executeAll (tasksFrom 1 (.newOrder (exampleTerms "2" .buy 9 3) :: later))
    let without := (reached past).executeAll (tasksFrom 2 later)
    (reportsOn 0 withOrder.2).length = 1 ∧ reportsOn 0 withOrder.2 = reportsOn 0 without.2 ∧
      withOrder.1.restingWith 0 = without.1.restingWith 0 := by
  have hresting : Order.ofTerms (exampleTerms "1" .buy 10 5) 0 ∈
      ((reached [.newOrder (exampleTerms "1" .buy 10 5)]).orders .buy).values :=
    List.mem_of_getElem? (i := 0) rfl
  exact ⟨rfl, reports_independent_of_later_order _ [.newOrder (exampleTerms "3" .sell 8 20)]
    (exampleTerms "2" .buy 9 3) hresting (by decide +kernel) (by simp)⟩

end OrderBook

end MatchingEngine
