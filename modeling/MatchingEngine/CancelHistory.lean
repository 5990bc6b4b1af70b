import MatchingEngine.LadderRuns
import MatchingEngine.ShareConservation

/-! # Cancel is decided by history, and is final

`cancelOrder` answers from the index of list iterators. What it answers is a matter of the
calls of the run: the last accepted order of the id, its trades, and the cancels since. -/
namespace CancelHistory

open EngineTypes
open Orders
open OrderedMap
open OrderBook
open PriceTimeBook
open BookInvariant
open BookRefinement
open BookRuns
open LadderRuns
open PriceTimePriority
open ShareConservation

/-- The call at position `j` is a `cancelOrder` of the id that returned true. -/
def CancelledAt (calls : List Call) (j : ℕ) (id : OrderId) : Prop :=
  calls[j]? = some (.cancel id) ∧
    answer (run emptyBook (calls.take j)) (.cancel id) = .ok (.cancelled true)

/-- The last accepted order of the id is `o`, and no cancel has found it since. -/
structure Standing (calls : List Call) (id : OrderId) (i : ℕ) (o : NewOrder) : Prop where
  arrived : ArrivedAt calls id i
  call : calls[i]? = some (.add (some o))
  limit : o.1.getOrderKind = .limit
  kept : ∀ j, i < j → ¬ CancelledAt calls j id

/-- Not all of its shares have been traded, either. -/
def Outstanding (calls : List Call) (id : OrderId) (i : ℕ) (o : NewOrder) : Prop :=
  Standing calls id i o ∧ tradedSince calls id i < o.1.quantity.toInt

/-! ## History over one more call -/

section

variable {calls : List Call} {c : Call} {id : OrderId} {i j : ℕ} {o : NewOrder}

theorem cancelledAt_lt (h : CancelledAt calls j id) : j < calls.length :=
  (List.getElem?_eq_some_iff.mp h.1).1

theorem cancelledAt_iff : CancelledAt calls j id ↔ ∃ c, calls[j]? = some c ∧ c = .cancel id ∧
    Ladder.holds (resting (run emptyBook (calls.take j))) id = true := by
  rw [CancelledAt, answer_cancel (run_invariant _)]
  simp

theorem cancelledAt_concat : CancelledAt (calls ++ [c]) j id ↔ CancelledAt calls j id ∨
    j = calls.length ∧ c = .cancel id ∧ Ladder.holds (resting (run emptyBook calls)) id = true := by
  rw [cancelledAt_iff, cancelledAt_iff]
  exact at_concat (P := fun before c => c = .cancel id ∧
    Ladder.holds (resting (run emptyBook before)) id = true)

/-- The last accepted call of an id is the call just made, or it was the last before. -/
theorem arrivedAt_cases (h : ArrivedAt (calls ++ [c]) id i) :
    (i = calls.length ∧ ∃ o : NewOrder, c = .add (some o) ∧ o.1.id = id ∧
      accepted (run emptyBook calls) o.1 = true) ∨
    (ArrivedAt calls id i ∧ ∀ o : NewOrder, c = .add (some o) → o.1.id = id →
      accepted (run emptyBook calls) o.1 = false) := by
  have hi := acceptedAt_concat.mp h.1
  by_cases hlast : ∃ o : NewOrder, c = .add (some o) ∧ o.1.id = id ∧
      accepted (run emptyBook calls) o.1 = true
  · have hle := h.2 calls.length (acceptedAt_concat.mpr (Or.inr ⟨rfl, hlast⟩))
    rcases hi with hi | ⟨hi, _⟩
    · have hlt := acceptedAt_lt hi
      omega
    · exact Or.inl ⟨hi, hlast⟩
  · right
    refine ⟨⟨hi.resolve_right fun hn => hlast hn.2, ?_⟩, ?_⟩
    · intro k hk
      exact h.2 k (acceptedAt_concat.mpr (Or.inl hk))
    · intro o hc hid
      rw [Bool.eq_false_iff]
      exact fun hacc => hlast ⟨o, hc, hid, hacc⟩

theorem arrivedAt_unique (h : ArrivedAt calls id i) (h' : ArrivedAt calls id j) : i = j :=
  le_antisymm (h'.2 i h.1) (h.2 j h'.1)

end

/-! ## Where a resting order comes from -/

section

variable {b : Book} {c : Call} {id : OrderId}

theorem accepted_iff_not_holds (h : Invariant b) (o : NewOrder) :
    accepted b o.1 = true ↔ Ladder.holds (resting b) o.1.id = false :=
  (accepted_iff h).trans (not_holds_iff h).symm

/-- An order that rests after a call rested before it, or is the leftover of the call. -/
theorem rested_before (h : Invariant b) {s : Side} {y : RestingOrder}
    (hy : y ∈ resting (step b c) s) :
    (∃ o : NewOrder, c = .add (some o) ∧ accepted b o.1 = true ∧ y.order.id = o.1.id ∧
      y.order.quantity = o.1.quantity ∧ o.1.getOrderKind = .limit) ∨
    ∃ x ∈ resting b s, x.order.id = y.order.id ∧ x.order.quantity = y.order.quantity ∧
      c ≠ .cancel y.order.id ∧
      ∀ o : NewOrder, c = .add (some o) → o.1.id = y.order.id → accepted b o.1 = false := by
  have hheld : ∀ {x : RestingOrder}, x ∈ resting b s → Ladder.holds (resting b) x.order.id = true :=
    fun hx => holds_iff.mpr ⟨s, _, hx, rfl⟩
  have hstill : ∀ {x : RestingOrder}, x ∈ resting b s → ∀ o : NewOrder, c = .add (some o) →
      o.1.id = x.order.id → accepted b o.1 = false := by
    intro x hx o _ hid
    rw [Bool.eq_false_iff, ne_eq, accepted_iff_not_holds h, hid, hheld hx]
    exact Bool.noConfusion
  have hadd : ∀ order id, Call.add order ≠ .cancel id := by
    intro order id hc
    cases hc
  rw [resting_step h] at hy
  cases c with
  | cancel j =>
    obtain ⟨hy, hne⟩ := List.mem_filter.mp hy
    refine Or.inr ⟨y, hy, rfl, rfl, ?_, hstill hy⟩
    rintro ⟨⟩
    simp at hne
  | add order =>
    cases order with
    | none => exact Or.inr ⟨y, hy, rfl, rfl, hadd _ _, hstill hy⟩
    | some o =>
      simp only [Ladder.next] at hy
      split at hy
      · exact Or.inr ⟨y, hy, rfl, rfl, hadd _ _, hstill hy⟩
      · rename_i hfree
        have hacc := (accepted_iff_not_holds h o).mpr (Bool.eq_false_iff.mpr hfree)
        by_cases hs : s = o.1.side
        · subst hs
          rw [add_own] at hy
          rcases mem_place.mp hy with hr | hy
          · obtain ⟨horder, hp, _⟩ := rested_eq_some hr
            refine Or.inl ⟨o, rfl, hacc, rested_id hr, ?_, ?_⟩
            · rw [horder]
              rfl
            · simp [Order.getOrderKind, hp]
          · exact Or.inr ⟨y, hy, rfl, rfl, hadd _ _, hstill hy⟩
        · obtain rfl := eq_opposite_of_ne hs
          rw [add_opposite] at hy
          obtain ⟨x, hx, hid, hxy, _⟩ := Allocation.sweep_account fill_sizes
            (fun x : RestingOrder => x.order.id) (fun _ _ => rfl)
            (h.resting_nodup o.1.side.opposite) y hy
          refine Or.inr ⟨x, hx, hid, ?_, hadd _ _, fun o' hc hid' => hstill hx o' hc (hid'.trans hid.symm)⟩
          rcases hxy with rfl | ⟨t, rfl⟩ <;> rfl

/-- A trade that a call returns is one of the sweep of an accepted order. -/
theorem returned_cases (h : Invariant b) {c : Call} {t : Trade}
    (ht : t ∈ returned ((perform c).run b)) : ∃ o : NewOrder, c = .add (some o) ∧
      b.ownedOrders o.1.id = none ∧ ∃ a ∈ (sweepOf (resting b) o.1).1, tradeOf o.1 a = t := by
  obtain ⟨hstep, _⟩ := step_cases h c
  generalize step b c = b' at hstep
  generalize returned ((perform c).run b) = ts at hstep ht
  cases hstep with
  | added o _ hown hadd => exact ⟨o, rfl, hown, List.mem_map.mp ht⟩
  | _ => cases ht

/-- An id that neither rests nor is accepted by the call does not rest after it, and nothing
is traded under it. -/
theorem silent_step (h : Invariant b) (hfree : Ladder.holds (resting b) id = false)
    (hc : ∀ o : NewOrder, c = .add (some o) → o.1.id = id → accepted b o.1 = false) :
    Ladder.holds (resting (step b c)) id = false ∧
      ∀ t ∈ returned ((perform c).run b), names t id = false := by
  constructor
  · rw [Bool.eq_false_iff]
    intro hheld
    obtain ⟨s, y, hy, rfl⟩ := holds_iff.mp hheld
    rcases rested_before h hy with ⟨o, ho, hacc, hid, _⟩ | ⟨x, hx, hid, _⟩
    · rw [hc o ho hid.symm] at hacc
      cases hacc
    · rw [holds_iff.mpr ⟨s, x, hx, hid⟩] at hfree
      cases hfree
  · intro t ht
    obtain ⟨o, rfl, hown, a, ha, rfl⟩ := returned_cases h ht
    have hacc := (accepted_iff h).mpr hown
    rw [Bool.eq_false_iff, ne_eq, names_tradeOf]
    rintro (hid | hid)
    · rw [hc o rfl hid] at hacc
      cases hacc
    · rw [holds_iff.mpr ⟨_, a.1, (sweepOf_bounds h o.2 a ha).1, hid⟩] at hfree
      cases hfree

theorem volume_nonneg (h : Invariant b) (c : Call) (id : OrderId) :
    0 ≤ volume ((returned ((perform c).run b)).filter fun t => names t id) := by
  apply List.sum_nonneg
  intro q hq
  obtain ⟨t, ht, rfl⟩ := List.mem_map.mp hq
  obtain ⟨o, rfl, _, a, ha, rfl⟩ := returned_cases h (List.mem_of_mem_filter ht)
  obtain ⟨_, h0, hle⟩ := sweepOf_bounds h o.2 a ha
  rw [tradeOf_quantity h0 hle]
  exact h0.le

/-- A resting order that no longer rests after a call was cancelled by it, or traded in full. -/
theorem gone_after (h : Invariant b) {s : Side} {x : RestingOrder} (hx : x ∈ resting b s)
    (hgone : Ladder.holds (resting (step b c)) x.order.id = false) :
    c = .cancel x.order.id ∨
      volume ((returned ((perform c).run b)).filter fun t => names t x.order.id) = x.size := by
  rw [resting_step h, Bool.eq_false_iff, ne_eq, holds_iff] at hgone
  cases c with
  | cancel j =>
    left
    by_contra hne
    have hj : x.order.id ≠ j := fun hid => hne (hid ▸ rfl)
    exact hgone ⟨s, x, List.mem_filter.mpr ⟨hx, by simpa using hj⟩, rfl⟩
  | add order =>
    cases order with
    | none => exact absurd ⟨s, x, hx, rfl⟩ hgone
    | some o =>
      right
      simp only [Ladder.next] at hgone
      split at hgone
      · exact absurd ⟨s, x, hx, rfl⟩ hgone
      · rename_i hfree
        rw [Bool.not_eq_true] at hfree
        have hne : o.1.id ≠ x.order.id := by
          intro hid
          rw [hid, holds_iff.mpr ⟨s, x, hx, rfl⟩] at hfree
          cases hfree
        by_cases hs : s = o.1.side
        · subst hs
          exact absurd ⟨_, x, by rw [add_own]; exact mem_place.mpr (Or.inr hx), rfl⟩ hgone
        · obtain rfl := eq_opposite_of_ne hs
          rw [returned_added h hfree, volume_names h o hne]
          refine Allocation.takenFrom_of_gone _ ?_ (h.resting_nodup _) hx ?_
          · exact fun _ _ => rfl
          intro y hy hid
          exact hgone ⟨o.1.side.opposite, y, by rw [add_opposite]; exact hy, hid⟩

/-- Of a limit order that does not rest after it was accepted, everything was traded. -/
theorem filled_at_once (h : Invariant b) {o : NewOrder} (hacc : accepted b o.1 = true)
    (hlimit : o.1.getOrderKind = .limit)
    (hgone : Ladder.holds (resting (step b (.add (some o)))) o.1.id = false) :
    volume ((returned ((perform (.add (some o))).run b)).filter fun t => names t o.1.id) =
      o.1.quantity.toInt := by
  have hfree := (accepted_iff_not_holds h o).mp hacc
  have hleft : leftover (resting b) o.1 = 0 := by
    by_contra hne
    rw [resting_step h, Bool.eq_false_iff, ne_eq, holds_iff] at hgone
    cases hp : o.1.price with
    | none => simp [Order.getOrderKind, hp] at hlimit
    | some price =>
      refine hgone ⟨o.1.side, ⟨price, resident o.1 (leftover (resting b) o.1)⟩, ?_, rfl⟩
      simp only [Ladder.next, hfree, Bool.false_eq_true, if_false, Ladder.add, if_true, rested, hp,
        if_neg hne, place, List.mem_orderedInsert, true_or]
  rw [leftover, Order.remaining, o.2.2.1] at hleft
  rw [returned_added h hfree, trades_name_taker, volume_ladder h]
  omega

end

/-! ## Runs -/

/-- Each resting order is the standing one of its id, and a standing order that does not rest
has been traded in full. -/
structure Recorded (calls : List Call) (b : Book) : Prop where
  origin : ∀ s, ∀ x ∈ resting b s, ∃ i o, Standing calls x.order.id i o ∧
    x.order.quantity = o.1.quantity
  filled : ∀ id i o, Standing calls id i o → Ladder.holds (resting b) id = false →
    o.1.quantity.toInt ≤ tradedSince calls id i

section

variable {calls : List Call} {c : Call} {id : OrderId} {i : ℕ} {o : NewOrder}

theorem standing_last (hacc : accepted (run emptyBook calls) o.1 = true)
    (hlimit : o.1.getOrderKind = .limit) :
    Standing (calls ++ [.add (some o)]) o.1.id calls.length o where
  arrived := arrivedAt_last o hacc
  call := List.getElem?_concat_length
  limit := hlimit
  kept := by
    intro j hj hcancel
    have hlt := cancelledAt_lt hcancel
    rw [List.length_append, List.length_singleton] at hlt
    omega

theorem Standing.concat (h : Standing calls id i o) (hc : c ≠ .cancel id)
    (hn : ∀ o : NewOrder, c = .add (some o) → o.1.id = id →
      accepted (run emptyBook calls) o.1 = false) : Standing (calls ++ [c]) id i o where
  arrived := arrivedAt_concat h.arrived hn
  call := (List.getElem?_append_left (acceptedAt_lt h.arrived.1)).trans h.call
  limit := h.limit
  kept := by
    intro j hj hcancel
    rcases cancelledAt_concat.mp hcancel with hcancel | ⟨_, hid, _⟩
    · exact h.kept j hj hcancel
    · exact hc hid

/-- A standing order was standing before the call, or is the one that the call added. -/
theorem Standing.cases (h : Standing (calls ++ [c]) id i o) :
    (i = calls.length ∧ c = .add (some o) ∧ o.1.id = id ∧
      accepted (run emptyBook calls) o.1 = true) ∨
    (Standing calls id i o ∧
      (c = .cancel id → Ladder.holds (resting (run emptyBook calls)) id = false) ∧
      ∀ o : NewOrder, c = .add (some o) → o.1.id = id →
        accepted (run emptyBook calls) o.1 = false) := by
  rcases arrivedAt_cases h.arrived with ⟨rfl, o', hc, hid, hacc⟩ | ⟨harrived, hn⟩
  · have hcall := h.call
    rw [List.getElem?_concat_length, hc] at hcall
    cases hcall
    exact Or.inl ⟨rfl, hc, hid, hacc⟩
  · have hlt := acceptedAt_lt harrived.1
    have hcall := h.call
    rw [List.getElem?_append_left hlt] at hcall
    refine Or.inr ⟨⟨harrived, hcall, h.limit, ?_⟩, ?_, hn⟩
    · exact fun j hj hcancel => h.kept j hj (cancelledAt_concat.mpr (Or.inl hcancel))
    · intro hc
      rw [Bool.eq_false_iff]
      exact fun hheld => h.kept _ hlt (cancelledAt_concat.mpr (Or.inr ⟨rfl, hc, hheld⟩))

theorem recorded_step (h : Recorded calls (run emptyBook calls)) (c : Call) :
    Recorded (calls ++ [c]) (run emptyBook (calls ++ [c])) := by
  have hinv := run_invariant calls
  rw [run_concat]
  constructor
  · intro s y hy
    rcases rested_before hinv hy with ⟨o, rfl, hacc, hid, hquantity, hlimit⟩ |
      ⟨x, hx, hid, hquantity, hc, hn⟩
    · exact ⟨_, o, hid ▸ standing_last hacc hlimit, hquantity⟩
    · obtain ⟨i, o, hstanding, horder⟩ := h.origin s x hx
      rw [hid] at hstanding
      exact ⟨i, o, hstanding.concat hc hn, hquantity.symm.trans horder⟩
  · intro id i o hstanding hgone
    rcases hstanding.cases with ⟨rfl, rfl, rfl, hacc⟩ | ⟨hbefore, hcancel, hn⟩
    · rw [tradedSince_concat le_rfl, tradedSince_last,
        filled_at_once hinv hacc hstanding.limit hgone, zero_add]
    · rw [tradedSince_concat (acceptedAt_lt hbefore.arrived.1).le]
      cases hheld : Ladder.holds (resting (run emptyBook calls)) id with
      | false =>
        have hfilled := h.filled id i o hbefore hheld
        have hmore := volume_nonneg hinv c id
        omega
      | true =>
        -- The call traded the rest of it.
        obtain ⟨s, x, hx, rfl⟩ := holds_iff.mp hheld
        obtain ⟨i', harrived, haccount⟩ := accounted_run calls s x hx
        obtain ⟨i'', o'', hstanding'', hquantity⟩ := h.origin s x hx
        cases arrivedAt_unique harrived hbefore.arrived
        cases arrivedAt_unique hstanding''.arrived hbefore.arrived
        cases hstanding''.call.symm.trans hbefore.call
        rcases gone_after hinv hx hgone with hc | hvolume
        · rw [hcancel hc] at hheld
          cases hheld
        · rw [hvolume, ← haccount, hquantity]
          omega

theorem recorded_run (calls : List Call) : Recorded calls (run emptyBook calls) := by
  induction calls using List.reverseRecOn with
  | nil =>
    constructor
    · intro s x hx
      cases s <;> cases hx
    · intro id i o hstanding
      exact absurd (acceptedAt_lt hstanding.arrived.1) (Nat.not_lt_zero i)
  | append_singleton calls c ih => exact recorded_step ih c

/-- An id rests exactly when its history says so. -/
theorem holds_iff_outstanding (calls : List Call) (id : OrderId) :
    Ladder.holds (resting (run emptyBook calls)) id = true ↔ ∃ i o, Outstanding calls id i o := by
  have hrecorded := recorded_run calls
  constructor
  · intro hheld
    obtain ⟨s, x, hx, rfl⟩ := holds_iff.mp hheld
    obtain ⟨i', harrived, haccount⟩ := accounted_run calls s x hx
    obtain ⟨i, o, hstanding, hquantity⟩ := hrecorded.origin s x hx
    cases arrivedAt_unique harrived hstanding.arrived
    have hpos := resting_sizes (run_invariant calls) s x hx
    rw [hquantity] at haccount
    exact ⟨i', o, hstanding, by omega⟩
  · rintro ⟨i, o, hstanding, hless⟩
    by_contra hfree
    have hfilled := hrecorded.filled id i o hstanding (Bool.not_eq_true _ ▸ hfree)
    omega

/-- After an id has left the book, nothing is traded under it until it is accepted again. -/
theorem silent_run {before : List Call} (later : List Call)
    (hfree : Ladder.holds (resting (run emptyBook before)) id = false)
    (hn : ∀ k, before.length ≤ k → ¬ AcceptedAt (before ++ later) k id) :
    Ladder.holds (resting (run emptyBook (before ++ later))) id = false ∧
      ∀ t ∈ trades (run emptyBook before) later, names t id = false := by
  induction later using List.reverseRecOn with
  | nil => exact ⟨by rwa [List.append_nil], by simp [trades]⟩
  | append_singleton later c ih =>
    rw [← List.append_assoc] at hn ⊢
    obtain ⟨hsilent, hnone⟩ := ih fun k hk hacc => hn k hk (acceptedAt_concat.mpr (Or.inl hacc))
    obtain ⟨hsilent', hnone'⟩ := silent_step (c := c) (run_invariant (before ++ later)) hsilent
      fun o hc hid => Bool.eq_false_iff.mpr fun hacc => hn _ (by simp)
        (acceptedAt_concat.mpr (Or.inr ⟨rfl, o, hc, hid, hacc⟩))
    refine ⟨by rwa [run_concat], ?_⟩
    intro t ht
    rw [trades_append, ← run_append] at ht
    rcases List.mem_append.mp ht with ht | ht
    · exact hnone t ht
    · exact hnone' t ht

end

/-! ## Cancel -/

/-- What a `cancelOrder` that answers `found` leaves of `b`. -/
structure Withdrawn (b : Book) (id : OrderId) (found : Bool) (b' : Book) : Prop where
  removed : found = true → ∃ s, ∃ x ∈ resting b s, x.order.id = id ∧
    resting b' s = (resting b s).erase x ∧ resting b' s.opposite = resting b s.opposite
  unchanged : found = false → b' = b

theorem withdrawn_of_cancel {b b' : Book} {id : OrderId} (h : Invariant b) (h' : Invariant b')
    (hcancel : resting b' = Ladder.cancel (resting b) id) :
    Withdrawn b id (Ladder.holds (resting b) id) b' := by
  constructor
  · intro hheld
    obtain ⟨s, x, hx, rfl⟩ := holds_iff.mp hheld
    refine ⟨s, x, hx, rfl, ?_, ?_⟩
    · have hids := h.resting_nodup s
      rw [hcancel, Ladder.cancel, (List.Nodup.of_map _ hids).erase_eq_filter]
      apply List.filter_congr
      intro y hy
      rw [Bool.eq_iff_iff]
      simp only [decide_eq_true_eq, bne_iff_ne, ne_eq]
      exact not_congr ⟨fun hid => List.inj_on_of_nodup_map hids hy hx hid, fun he => he ▸ rfl⟩
    · rw [hcancel]
      apply List.filter_eq_self.mpr
      intro y hy
      have hne : y.order.id ≠ x.order.id := by
        intro hid
        have hy' := (h.mem_resting.mp hy).1
        rw [hid] at hy'
        exact opposite_ne s (h.unique_place hy' (h.mem_resting.mp hx).1).1
      simpa using hne
  · intro hfree
    exact book_ext h h' (hcancel.trans (cancel_of_not_holds hfree))

/-- `cancelOrder` returns whether the id's last accepted order is a limit order with shares that
were neither traded nor cancelled. It removes that order only, and for good. -/
theorem cancel_decided_by_history (calls : List Call) (id : OrderId) : ∃ found b',
    (cancelOrder id).run (run emptyBook calls) = .ok found b' ∧
    (found = true ↔ ∃ i o, Outstanding calls id i o) ∧
    Withdrawn (run emptyBook calls) id found b' ∧
    (found = true → ∀ later,
      (∀ k, calls.length < k → ¬ AcceptedAt (calls ++ .cancel id :: later) k id) →
        ∀ t ∈ trades b' later, names t id = false) := by
  have h := run_invariant calls
  obtain ⟨b', hrun, h', hcancel⟩ := cancelOrder_refines h id
  rw [isSome_owned_eq_holds h] at hrun
  refine ⟨_, b', hrun, holds_iff_outstanding calls id, withdrawn_of_cancel h h' hcancel, ?_⟩
  intro _ later hn
  have hstep : run emptyBook (calls ++ [.cancel id]) = b' := by
    rw [run_concat, step, perform, bind_ok hrun]
    rfl
  have hfree : Ladder.holds (resting (run emptyBook (calls ++ [.cancel id]))) id = false := by
    rw [hstep, hcancel, Bool.eq_false_iff, ne_eq, holds_iff]
    rintro ⟨s, x, hx, hid⟩
    simpa [hid] using (List.mem_filter.mp hx).2
  have hsilent := silent_run later hfree fun k hk => by
    rw [List.append_assoc]
    rw [List.length_append, List.length_singleton] at hk
    exact hn k hk
  exact hstep ▸ hsilent.2

end CancelHistory
