import MatchingEngine.LadderRuns
import MatchingEngine.ShareConservation

/-! # An order that never traded leaves no trace

A run with the order and the same run without it are compared call by call. Until the order
is cancelled, the second book is the first one less that order. -/
namespace NeverTraded

open EngineTypes
open Orders
open OrderedMap
open OrderBook
open PriceTimeBook
open BookInvariant
open BookRefinement
open BookRuns
open LadderRuns
open ShareConservation

/-- The call names the id. -/
def uses (id : OrderId) : Call → Bool
  | .add none => false
  | .add (some o) => o.1.id = id
  | .cancel j => j = id

/-! ## A ladder less one order -/

section

variable {L : Ladder} {id : OrderId} {o : Order}

theorem holds_cancel {j : OrderId} (hj : j ≠ id) :
    Ladder.holds (Ladder.cancel L id) j = Ladder.holds L j := by
  rw [Bool.eq_iff_iff, holds_iff, holds_iff]
  constructor
  · rintro ⟨s, x, hx, hxj⟩
    exact ⟨s, x, List.mem_of_mem_filter hx, hxj⟩
  · rintro ⟨s, x, hx, rfl⟩
    exact ⟨s, x, List.mem_filter.mpr ⟨hx, by simpa using hj⟩, rfl⟩

theorem cancel_comm (L : Ladder) (i j : OrderId) :
    Ladder.cancel (Ladder.cancel L i) j = Ladder.cancel (Ladder.cancel L j) i := by
  funext s
  simp only [Ladder.cancel, List.filter_filter, Bool.and_comm]

/-- A taker that takes a price takes every better one. -/
theorem accepts_better {x y : RestingOrder}
    (hxy : x.price = y.price ∨ better o.side.opposite x.price y.price)
    (hy : accepts o y = true) : accepts o x = true := by
  rw [accepts] at hy ⊢
  cases hp : o.price with
  | none => rfl
  | some limit =>
    rw [hp] at hy
    rcases hxy with heq | hlt
    · rw [heq]
      exact hy
    · cases hs : o.side with
      | buy =>
        simp only [hs, decide_eq_true_eq] at hy ⊢
        rw [hs] at hlt
        exact (le_of_lt hlt).trans hy
      | sell =>
        simp only [hs, decide_eq_true_eq] at hy ⊢
        rw [hs] at hlt
        exact hy.trans (le_of_lt hlt)

def Sorted (L : Ladder) : Prop :=
  ∀ s, (L s).Pairwise fun x y => x.price = y.price ∨ better s x.price y.price

/-- Without an order that it does not reach, a sweep takes the same and leaves the same. -/
theorem sweepOf_cancel (hs : Sorted L) (ht : ∀ a ∈ (sweepOf L o).1, a.1.order.id ≠ id) :
    sweepOf (Ladder.cancel L id) o = ((sweepOf L o).1, Ladder.cancel (fun _ => (sweepOf L o).2) id
      o.side.opposite) := by
  change Allocation.sweep RestingOrder.size (accepts o) RestingOrder.fill o.remaining
    ((L o.side.opposite).filter fun x => x.order.id ≠ id) = _
  apply Allocation.sweep_filter
  · exact fun _ _ => rfl
  · exact (hs o.side.opposite).imp accepts_better
  · intro a ha
    simpa using ht a ha

/-- What is dropped of a queue does not matter to the place of an order that is kept. -/
theorem place_filter {s : Side} {queue : List RestingOrder} {x : Option RestingOrder}
    {keep : RestingOrder → Bool}
    (hs : queue.Pairwise fun y z => y.price = z.price ∨ better s y.price z.price)
    (hx : ∀ y, x = some y → keep y = true) :
    (place s x queue).filter keep = place s x (queue.filter keep) := by
  cases x with
  | none => rfl
  | some x =>
    apply filter_orderedInsert (hx x rfl)
    refine hs.imp ?_
    rintro y z (heq | hlt) hxy
    · exact heq ▸ hxy
    · exact IsTrans.trans _ _ _ hxy hlt

theorem add_cancel (hs : Sorted L) (hne : o.id ≠ id)
    (ht : ∀ a ∈ (sweepOf L o).1, a.1.order.id ≠ id) :
    Ladder.add (Ladder.cancel L id) o = Ladder.cancel (Ladder.add L o) id := by
  have hsweep := sweepOf_cancel hs ht
  have hleft : leftover (Ladder.cancel L id) o = leftover L o := by
    rw [leftover, leftover, hsweep]
  funext s
  simp only [Ladder.add, hleft, hsweep, Ladder.cancel]
  by_cases hside : s = o.side
  · rw [if_pos hside, if_pos hside, place_filter (hs s)]
    intro y hy
    rw [rested_id hy]
    exact decide_eq_true hne
  · rw [if_neg hside, if_neg hside]

/-- The sweep of an accepted call leaves the order alone. -/
def Spares (L : Ladder) (id : OrderId) (c : Call) : Prop :=
  ∀ o : NewOrder, c = .add (some o) → Ladder.holds L o.1.id = false →
    ∀ a ∈ (sweepOf L o.1).1, a.1.order.id ≠ id

/-- A call that does not use the id and spares its order cannot tell whether it is there. -/
theorem next_cancel {c : Call} (hs : Sorted L) (hc : uses id c = false) (ht : Spares L id c) :
    Ladder.answer (Ladder.cancel L id) c = Ladder.answer L c ∧
      Ladder.next (Ladder.cancel L id) c = Ladder.cancel (Ladder.next L c) id := by
  cases c with
  | add order =>
    cases order with
    | none => exact ⟨rfl, rfl⟩
    | some o =>
      have hne : o.1.id ≠ id := by simpa [uses] using hc
      simp only [Ladder.answer, Ladder.next, holds_cancel hne]
      cases hh : Ladder.holds L o.1.id with
      | true => exact ⟨rfl, rfl⟩
      | false =>
        have htaken := ht o rfl hh
        simp only [Bool.false_eq_true, if_false, Ladder.trades, sweepOf_cancel hs htaken,
          add_cancel hs hne htaken, and_self]
  | cancel j =>
    have hne : j ≠ id := by simpa [uses] using hc
    simp only [Ladder.answer, Ladder.next, holds_cancel hne, cancel_comm L id j, and_self]

end

/-! ## Two runs -/

/-- `b'` is `b` less the order `id`. -/
structure Less (id : OrderId) (b b' : Book) : Prop where
  whole : Invariant b
  less : Invariant b'
  queues : resting b' = Ladder.cancel (resting b) id

section

variable {b b' : Book} {id : OrderId} {c : Call}

/-- A trade of a call names the taker or a maker that the sweep took from. -/
theorem taken_of_named {L : Ladder} {o : Order}
    (hn : ∀ t ∈ Ladder.trades L o, names t id = false) :
    ∀ a ∈ (sweepOf L o).1, a.1.order.id ≠ id := by
  intro a ha hid
  have hnamed := (names_tradeOf o a id).mpr (Or.inr hid)
  rw [hn _ (List.mem_map.mpr ⟨a, ha, rfl⟩)] at hnamed
  cases hnamed

theorem spares_of_named (h : Invariant b)
    (hn : ∀ t ∈ returned ((perform c).run b), names t id = false) : Spares (resting b) id c := by
  intro o hc hfree
  subst hc
  rw [returned_added h hfree] at hn
  exact taken_of_named hn

theorem less_step (h : Less id b b') (hc : uses id c = false)
    (hn : ∀ t ∈ returned ((perform c).run b), names t id = false) :
    answer b' c = answer b c ∧ Less id (step b c) (step b' c) := by
  obtain ⟨hb, hb', hqueues⟩ := h
  obtain ⟨hanswer, hnext⟩ := next_cancel (resting_sorted hb) hc (spares_of_named hb hn)
  rw [answer_eq hb, answer_eq hb', hqueues]
  refine ⟨hanswer, step_invariant hb c, step_invariant hb' c, ?_⟩
  rw [resting_step hb', resting_step hb, hqueues, hnext]

theorem less_run {calls : List Call} (h : Less id b b') (hc : ∀ c ∈ calls, uses id c = false)
    (hn : ∀ t ∈ trades b calls, names t id = false) :
    answers b' calls = answers b calls ∧ Less id (run b calls) (run b' calls) := by
  induction calls generalizing b b' with
  | nil => exact ⟨rfl, h⟩
  | cons c calls ih =>
    rw [trades] at hn
    obtain ⟨hanswer, hstep⟩ := less_step h (hc c List.mem_cons_self) fun t ht =>
      hn t (List.mem_append_left _ ht)
    obtain ⟨hanswers, hrun⟩ := ih hstep (fun d hd => hc d (List.mem_cons_of_mem _ hd))
      fun t ht => hn t (List.mem_append_right _ ht)
    exact ⟨by rw [answers, answers, hanswer, hanswers], hrun⟩

end

section

variable {b b' : Book} {x : NewOrder}

/-- A limit order that trades nothing on its arrival only joins its queue. -/
theorem less_added (h : Invariant b) (hacc : accepted b x.1 = true)
    (hlimit : x.1.getOrderKind = .limit)
    (hn : ∀ t ∈ returned ((perform (.add (some x))).run b), names t x.1.id = false) :
    Less x.1.id (step b (.add (some x))) b := by
  have hfree := (not_holds_iff h).mpr ((accepted_iff h).mp hacc)
  rw [returned_added h hfree] at hn
  have hnone : (sweepOf (resting b) x.1).1 = [] := by
    rw [List.eq_nil_iff_forall_not_mem]
    intro a ha
    have hnamed := (names_tradeOf x.1 a x.1.id).mpr (Or.inl rfl)
    rw [hn _ (List.mem_map.mpr ⟨a, ha, rfl⟩)] at hnamed
    cases hnamed
  have hleft : leftover (resting b) x.1 = x.1.remaining := by
    rw [leftover, hnone]
    simp
  have hpos := x.2.remaining_pos
  refine ⟨step_invariant h _, h, ?_⟩
  rw [resting_step h]
  simp only [Ladder.next, hfree, Bool.false_eq_true, if_false]
  refine (cancel_of_not_holds hfree).symm.trans ?_
  funext s
  simp only [Ladder.cancel, Ladder.add]
  by_cases hs : s = x.1.side
  · rw [if_pos hs, hleft, rested]
    cases hp : x.1.price with
    | none => simp [Order.getOrderKind, hp] at hlimit
    | some price =>
      simp only [if_neg hpos.ne', place]
      rw [filter_orderedInsert_self (by simp [resident])]
  · have hrest : (sweepOf (resting b) x.1).2 = resting b x.1.side.opposite :=
      Allocation.sweep_none hnone
    rw [if_neg hs, hrest, eq_opposite_of_ne hs]

/-- Cancelling the order takes the book to the one without it. -/
theorem less_cancelled (h : Less x.1.id b b') : step b (.cancel x.1.id) = b' := by
  apply book_ext h.less (step_invariant h.whole _)
  rw [resting_step h.whole, h.queues]
  rfl

end

/-- A limit order that is accepted, of which nothing trades, and that is cancelled: without the
two calls, every other call has the same answer and the final book is the same. -/
theorem leaves_no_trace (before between after : List Call) (x : NewOrder)
    (hacc : accepted (run emptyBook before) x.1 = true) (hlimit : x.1.getOrderKind = .limit)
    (huses : ∀ c ∈ between, uses x.1.id c = false)
    (hn : ∀ t ∈ trades (run emptyBook before) (.add (some x) :: between), names t x.1.id = false) :
    let calls := before ++ .add (some x) :: between ++ .cancel x.1.id :: after
    answers emptyBook (before ++ between ++ after) = ((answers emptyBook calls).eraseIdx
      (before.length + 1 + between.length)).eraseIdx before.length ∧
    run emptyBook (before ++ between ++ after) = run emptyBook calls := by
  intro calls
  rw [trades] at hn
  have h := run_invariant before
  have hadded := less_added h hacc hlimit fun t ht => hn t (List.mem_append_left _ ht)
  obtain ⟨hbetween, hless⟩ := less_run hadded huses fun t ht => hn t (List.mem_append_right _ ht)
  have hback := less_cancelled hless
  have hrun : run emptyBook calls = run (run (run emptyBook before) between) after := by
    rw [run_append, run_append, run_cons, run_cons, hback]
  have hanswers : answers emptyBook calls = answers emptyBook before ++
      (answer (run emptyBook before) (.add (some x)) :: (answers (run emptyBook before) between ++
        (answer (run (step (run emptyBook before) (.add (some x))) between) (.cancel x.1.id) ::
          answers (run (run emptyBook before) between) after))) := by
    simp only [calls, answers_append, answers, hback, hbetween, List.append_assoc,
      List.cons_append]
  constructor
  · rw [hanswers, List.eraseIdx_append_of_length_le (by simp; omega), length_answers]
    have hsecond : before.length + 1 + between.length - before.length = between.length + 1 := by omega
    rw [hsecond, List.eraseIdx_cons_succ, List.eraseIdx_append_of_length_le (by simp),
      length_answers, Nat.sub_self, List.eraseIdx_cons_zero,
      List.eraseIdx_append_of_length_le (by simp), length_answers, Nat.sub_self,
      List.eraseIdx_cons_zero, answers_append, answers_append, run_append, List.append_assoc]
  · rw [hrun, run_append, run_append]

/-- A bid rests in front of another one, and is gone when a market order comes for the bids. -/
theorem leaves_no_trace_two_bids :
    let first := NewOrder.limit 1 1 .buy 5 five_pos .hundred
    let second := NewOrder.limit 2 2 .buy 5 five_pos .hundred
    let taker := NewOrder.market 3 3 .sell 3 three_pos
    let calls := [] ++ .add (some first) :: [.add (some second)] ++ .cancel 1 :: [.add (some taker)]
    answers emptyBook [.add (some second), .add (some taker)] =
      ((answers emptyBook calls).eraseIdx 2).eraseIdx 0 ∧
    run emptyBook [.add (some second), .add (some taker)] = run emptyBook calls :=
  leaves_no_trace [] [.add (some (NewOrder.limit 2 2 .buy 5 five_pos .hundred))]
    [.add (some (NewOrder.market 3 3 .sell 3 three_pos))] (NewOrder.limit 1 1 .buy 5 five_pos .hundred)
    (by decide +kernel) rfl (by decide) (by decide +kernel)

end NeverTraded
