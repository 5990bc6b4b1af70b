import MatchingEngine.LadderRuns
import MatchingEngine.UncrossedBook

/-! # Which books can be reached

The two queues of a reachable book are sorted and uncrossed, no id stands in them twice, and
only the oldest order of a price can be partially filled. Every such pair of queues is reached. -/
namespace ReachableBooks

open EngineTypes
open Orders
open OrderedMap
open OrderBook
open PriceTimeBook
open BookInvariant
open BookRefinement
open BookRuns
open LadderRuns
open UncrossedBook

/-- No share of it was traded. -/
def Whole (x : RestingOrder) : Prop := x.order.remainingQty = x.order.quantity

/-- Of two orders in a queue, what the first allows the second to be. -/
def Behind (s : Side) (x y : RestingOrder) : Prop :=
  (x.price = y.price ∨ better s x.price y.price) ∧ (x.price = y.price → Whole y)

structure Standing (L : Ladder) : Prop where
  placed : ∀ s, ∀ x ∈ L s, Placed s x.price x.order.id x.order
  behind : ∀ s, (L s).Pairwise (Behind s)
  nodup : ((L .buy ++ L .sell).map fun x => x.order.id).Nodup
  uncrossed : Uncrossed L

variable {L L' : Ladder} {s : Side} {o : Order} {x z : RestingOrder}

/-! ## What every run keeps -/

theorem behind_swept (h : (L o.side.opposite).Pairwise (Behind o.side.opposite)) :
    (sweepOf L o).2.Pairwise (Behind o.side.opposite) := by
  refine Allocation.sweep_pairwise ?_ h
  exact fun _ _ _ hab => hab

/-- An order that has traded rests at a price where no other order of its side is. -/
theorem whole_of_same_price (hu : Uncrossed L) (hv : o.Valid)
    (hx : rested o (leftover L o) = some x) {y : RestingOrder} (hy : y ∈ L o.side)
    (hprice : y.price = x.price) : Whole x := by
  obtain ⟨horder, hlimit, _⟩ := rested_eq_some hx
  by_cases hnone : (sweepOf L o).1 = []
  · have hleft : leftover L o = o.remaining := by simp [leftover, hnone]
    rw [Whole, horder, hleft]
    simp [resident, Order.remaining, hv.2.1]
  · rw [sweepOf, Allocation.sweep_nothing_iff hv.remaining_pos] at hnone
    push Not at hnone
    obtain ⟨a, ha, hacc⟩ := hnone
    have hbeyond := (uncrossed_iff L o.side).mp hu y hy a (List.mem_of_mem_head? ha)
    rw [hprice] at hbeyond
    cases hside : o.side with
    | buy =>
      simp [accepts, hlimit, hside, better, Side.opposite] at hacc hbeyond
      exact absurd hbeyond hacc.not_gt
    | sell =>
      simp [accepts, hlimit, hside, better, Side.opposite] at hacc hbeyond
      exact absurd hbeyond hacc.not_gt

theorem behind_placed {queue : List RestingOrder} (h : queue.Pairwise (Behind s))
    (hx : ∀ y ∈ queue, y.price = x.price → Whole x) :
    (place s (some x) queue).Pairwise (Behind s) := by
  refine pairwise_orderedInsert h ?_ ?_ ?_
  · intro y _ hlt
    exact ⟨.inr hlt, fun he => absurd (he ▸ hlt) (irrefl_of (better s) _)⟩
  · intro y hy hnot
    refine ⟨?_, hx y hy⟩
    rcases trichotomous_of (better s) y.price x.price with hlt | heq | hgt
    · exact .inr hlt
    · exact .inl heq
    · exact absurd hgt hnot
  · intro y _ z _ hyz hlt
    rcases hyz.1 with heq | hworse
    · exact heq ▸ hlt
    · exact IsTrans.trans _ _ _ hlt hworse

variable {b : Book}

theorem behind_step (h : Invariant b) (hu : Uncrossed (resting b))
    (hb : ∀ s, (resting b s).Pairwise (Behind s)) (c : Call) :
    ∀ s, (resting (step b c) s).Pairwise (Behind s) := by
  obtain ⟨hstep, _⟩ := step_cases h c
  generalize step b c = b' at hstep
  generalize returned ((perform c).run b) = ts at hstep
  cases hstep with
  | null => exact hb
  | rejected => exact hb
  | added o _ hfree hadd =>
    intro s
    rw [hadd]
    by_cases hs : s = o.1.side
    · subst hs
      rw [add_own]
      cases hr : rested o.1 (leftover (resting b) o.1) with
      | none => exact hb _
      | some x =>
        exact behind_placed (hb _) fun y hy => whole_of_same_price hu o.2 hr hy
    · obtain rfl := eq_opposite_of_ne hs
      rw [add_opposite]
      exact behind_swept (hb _)
  | cancelled id _ hcancel =>
    intro s
    rw [hcancel]
    exact (hb s).filter _

theorem standing_run (calls : List Call) : Standing (resting (run emptyBook calls)) where
  placed _ _ hx := (run_invariant calls).placed_of_resting hx
  behind := by
    induction calls using List.reverseRecOn with
    | nil =>
      intro s
      cases s <;> exact .nil
    | append_singleton calls c ih =>
      rw [run_concat]
      exact behind_step (run_invariant calls) (uncrossed_run calls) ih c
  nodup := by
    have h := (reachable_representation calls).noneTwice
    rwa [List.map_append, ← (run_invariant calls).resting_ids, ← (run_invariant calls).resting_ids,
      ← List.map_append] at h
  uncrossed := uncrossed_run calls

/-! ## Building a book -/

theorem Standing.sublist (h : Standing L) (hsub : ∀ s, (L' s).Sublist (L s)) : Standing L' where
  placed s x hx := h.placed s x ((hsub s).subset hx)
  behind s := (h.behind s).sublist (hsub s)
  nodup := h.nodup.sublist (((hsub .buy).append (hsub .sell)).map _)
  uncrossed x hx y hy := h.uncrossed x ((hsub .buy).subset hx) y ((hsub .sell).subset hy)

/-- The youngest order of the best price. -/
theorem exists_youngest_best {queue : List RestingOrder} (h : queue.Pairwise (Behind s))
    (hne : queue ≠ []) : ∃ front z rest, queue = front ++ z :: rest ∧
      (∀ y ∈ front, y.price = z.price) ∧ ∀ y ∈ rest, better s z.price y.price := by
  induction queue with
  | nil => exact absurd rfl hne
  | cons x queue ih =>
    obtain ⟨hhead, htail⟩ := List.pairwise_cons.mp h
    cases queue with
    | nil => exact ⟨[], x, [], rfl, by simp, by simp⟩
    | cons y queue =>
      obtain ⟨front, z, rest, heq, hfront, hrest⟩ := ih htail (List.cons_ne_nil _ _)
      by_cases hprice : x.price = z.price
      · refine ⟨x :: front, z, rest, by rw [heq, List.cons_append], ?_, hrest⟩
        simpa [hprice] using hfront
      · refine ⟨[], x, y :: queue, rfl, by simp, fun w hw => ?_⟩
        have hz : better s x.price z.price :=
          (hhead z (by simp [heq])).1.resolve_left hprice
        rw [heq, List.mem_append, List.mem_cons] at hw
        rcases hw with hw | rfl | hw
        · exact hfront w hw ▸ hz
        · exact hz
        · exact IsTrans.trans _ _ _ hz (hrest w hw)

/-- The order as it was submitted. -/
def submitted (x : RestingOrder) : Order :=
  { x.order with remainingQty := x.order.quantity, status := .new }

/-- The order before any share of it was traded. -/
def untouched (x : RestingOrder) : RestingOrder :=
  ⟨x.price, { x.order with remainingQty := x.order.quantity, status := .opened }⟩

theorem submitted_valid (h : Placed s x.price x.order.id x.order) : (submitted x).Valid := by
  have hpos := h.positive
  have hle := h.bounded
  refine ⟨?_, rfl, rfl⟩
  rw [Int32.lt_iff_toInt_lt, Int32.toInt_zero]
  exact lt_of_lt_of_le hpos hle

theorem untouched_of_whole (h : Placed s x.price x.order.id x.order) (hw : Whole x) :
    untouched x = x := by
  obtain ⟨price, id, traderId, side, quantity, remainingQty, status, oprice⟩ := x
  have hstatus := h.status
  simp only [Whole] at hw
  subst hw
  simp only [if_true] at hstatus
  rw [untouched, hstatus]

/-- An order that crosses nothing rests behind those of its price. -/
theorem add_submitted (h : Placed s z.price z.order.id z.order) {front rest : List RestingOrder}
    (hs : L s = front ++ rest) (hfront : ∀ y ∈ front, ¬ better s z.price y.price)
    (hrest : ∀ y ∈ rest, better s z.price y.price)
    (hfar : ∀ y ∈ L s.opposite, better s.opposite z.price y.price) :
    Ladder.add L (submitted z) = Function.update L s (front ++ untouched z :: rest) := by
  have hside : (submitted z).side = s := h.side
  have hprice : (submitted z).price = some z.price := h.price
  have hvalid := submitted_valid h
  have hnone : (sweepOf L (submitted z)).1 = [] := by
    rw [sweepOf, Allocation.sweep_nothing_iff hvalid.remaining_pos, hside]
    intro y hy
    have hbeyond := hfar y (List.mem_of_mem_head? hy)
    cases s <;> simpa [accepts, hprice, hside, better, Side.opposite] using hbeyond
  have hleft : leftover L (submitted z) = (submitted z).quantity.toInt := by
    rw [leftover, hnone, List.map_nil, List.sum_nil, sub_zero]
    rfl
  have hpos : (submitted z).quantity.toInt ≠ 0 := hvalid.remaining_pos.ne'
  have hrested : rested (submitted z) (leftover L (submitted z)) = some (untouched z) := by
    simp only [rested, hprice, hleft, if_neg hpos]
    simp [resident, submitted, untouched]
  funext s'
  by_cases heq : s' = s
  · subst heq
    have hown := add_own L (submitted z)
    rw [hside, hrested, hs, place, orderedInsert_after hfront, orderedInsert_front hrest] at hown
    rw [hown, Function.update_self]
  · obtain rfl := eq_opposite_of_ne heq
    have hopp := add_opposite L (submitted z)
    rw [hside, sweepOf, Allocation.sweep_none hnone, hside] at hopp
    rw [hopp, Function.update_of_ne heq]

/-- A market order for what was traded of `z`. -/
def taker (f : OrderId) (z : RestingOrder) : Order :=
  ⟨f, 0, z.order.side.opposite, z.order.quantity - z.order.remainingQty,
    z.order.quantity - z.order.remainingQty, .new, none⟩

theorem remaining_taker (h : Placed s z.price z.order.id z.order) (f : OrderId) :
    (taker f z).remaining = z.order.quantity.toInt - z.order.remaining :=
  Int32.toInt_sub_of_le _ _ (Int32.le_iff_toInt_le.mpr (by simpa [Order.remaining] using h.positive.le))
    (Int32.le_iff_toInt_le.mpr h.bounded)

theorem taker_valid (h : Placed s z.price z.order.id z.order) (hw : ¬ Whole z) (f : OrderId) :
    (taker f z).Valid := by
  have hle := h.bounded
  have hremaining := remaining_taker h f
  have hne : z.order.remaining ≠ z.order.quantity.toInt := fun he => hw (Int32.toInt_inj.mp he)
  refine ⟨?_, rfl, rfl⟩
  rw [Int32.lt_iff_toInt_lt, Int32.toInt_zero]
  change 0 < (taker f z).remaining
  omega

theorem fill_untouched (h : Placed s z.price z.order.id z.order) (hw : ¬ Whole z) (f : OrderId) :
    (untouched z).fill (taker f z).remaining = z := by
  obtain ⟨price, id, traderId, side, quantity, remainingQty, status, oprice⟩ := z
  have hstatus := h.status
  simp only [Whole] at hw
  simp only [if_neg hw] at hstatus
  have hleft : quantity - Int32.ofInt (quantity - remainingQty).toInt = remainingQty := by
    rw [Int32.ofInt_toInt]
    grind
  simp only [RestingOrder.fill, untouched, Order.fill, Order.setStatus, taker, Order.remaining, hleft,
    hstatus]

/-- The market order takes from the front of the queue and leaves `z`. -/
theorem add_taker (h : Placed s z.price z.order.id z.order) (hw : ¬ Whole z) (f : OrderId)
    {rest : List RestingOrder} (hs : L s = untouched z :: rest) :
    Ladder.add L (taker f z) = Function.update L s (z :: rest) := by
  have hpos := h.positive
  have hvalid := (taker_valid h hw f).remaining_pos
  have hremaining := remaining_taker h f
  have hside : (taker f z).side = s.opposite := congrArg Side.opposite h.side
  have hback : (taker f z).side.opposite = s := by rw [hside]; cases s <;> rfl
  have hsweep : sweepOf L (taker f z) =
      ([(untouched z, (taker f z).remaining)], z :: rest) := by
    have hpart : ¬ (untouched z).size ≤ (taker f z).remaining := by
      rw [hremaining]
      change ¬ z.order.quantity.toInt ≤ _
      omega
    rw [sweepOf, hback, hs, Allocation.sweep, if_pos ⟨hvalid, rfl⟩, if_neg hpart,
      fill_untouched h hw]
  funext s'
  by_cases heq : s' = s
  · subst heq
    have hopp := add_opposite L (taker f z)
    rw [hback, hsweep] at hopp
    rw [hopp, Function.update_self]
  · obtain rfl := eq_opposite_of_ne heq
    have hown := add_own L (taker f z)
    rw [hside] at hown
    rw [hown, Function.update_of_ne heq]
    rfl

theorem not_holds_sublist (hsub : ∀ s, (L' s).Sublist (L s)) {id : OrderId}
    (h : Ladder.holds L id = false) : Ladder.holds L' id = false := by
  rw [Bool.eq_false_iff] at h ⊢
  intro hholds
  obtain ⟨s, x, hx, hid⟩ := holds_iff.mp hholds
  exact h (holds_iff.mpr ⟨s, x, (hsub s).subset hx, hid⟩)

theorem sublist_update {queue : List RestingOrder} (h : queue.Sublist (L s)) (s' : Side) :
    (Function.update L s queue s').Sublist (L s') := by
  by_cases heq : s' = s
  · subst heq
    rwa [Function.update_self]
  · rw [Function.update_of_ne heq]

/-- Without `z` its id is free. -/
theorem Standing.not_holds_without (h : Standing L) {front rest : List RestingOrder}
    (hs : L s = front ++ z :: rest) :
    Ladder.holds (Function.update L s (front ++ rest)) z.order.id = false := by
  have hz : z ∈ L s := by simp [hs]
  rw [Bool.eq_false_iff]
  intro hholds
  obtain ⟨s', x, hx, hid⟩ := holds_iff.mp hholds
  have hnodup := h.nodup
  rw [List.map_append, List.nodup_append] at hnodup
  obtain ⟨hbuy, hsell, hapart⟩ := hnodup
  by_cases heq : s' = s
  · subst heq
    have hown : ((L s').map fun x => x.order.id).Nodup := by
      cases s'
      · exact hbuy
      · exact hsell
    rw [Function.update_self] at hx
    rw [hs, List.map_append, List.map_cons, List.nodup_middle, ← List.map_append] at hown
    exact (List.nodup_cons.mp hown).1 (hid ▸ List.mem_map_of_mem hx)
  · rw [Function.update_of_ne heq] at hx
    cases s <;> cases s' <;> first | exact absurd rfl heq | skip
    · exact hapart _ (List.mem_map_of_mem hz) _ (List.mem_map_of_mem hx) hid.symm
    · exact hapart _ (List.mem_map_of_mem hx) _ (List.mem_map_of_mem hz) hid

/-- The calls that put the youngest order of the best price into its queue. -/
theorem Standing.put (h : Standing L) {f : OrderId} (hf : Ladder.holds L f = false)
    {front rest : List RestingOrder} (hs : L s = front ++ z :: rest)
    (hfront : ∀ y ∈ front, y.price = z.price) (hrest : ∀ y ∈ rest, better s z.price y.price) :
    ∃ calls : List Call, calls.length ≤ 2 ∧
      calls.foldl Ladder.next (Function.update L s (front ++ rest)) = L := by
  have hz : z ∈ L s := by simp [hs]
  have hplaced := h.placed s z hz
  have hsame : ∀ y : RestingOrder, y.price = z.price → ¬ better s z.price y.price :=
    fun y hy hlt => irrefl_of (better s) _ (hy ▸ hlt)
  have hnext : Ladder.next (Function.update L s (front ++ rest))
      (.add (some ⟨submitted z, submitted_valid hplaced⟩)) =
        Function.update L s (front ++ untouched z :: rest) := by
    have hadd := add_submitted (L := Function.update L s (front ++ rest)) hplaced
      (Function.update_self _ _ _) (fun y hy => hsame y (hfront y hy)) hrest (by
        rw [Function.update_of_ne (opposite_ne s)]
        exact (uncrossed_iff L s).mp h.uncrossed z hz)
    rw [Function.update_idem] at hadd
    have hfree : Ladder.holds (Function.update L s (front ++ rest)) (submitted z).id = false :=
      h.not_holds_without hs
    simp only [Ladder.next, hfree, hadd, Bool.false_eq_true, if_false]
  by_cases hw : Whole z
  · refine ⟨[.add (some ⟨submitted z, submitted_valid hplaced⟩)], by simp, ?_⟩
    rw [List.foldl_cons, List.foldl_nil, hnext, untouched_of_whole hplaced hw, ← hs,
      Function.update_eq_self]
  · -- nobody of its price is older, so nothing is before it
    have hfirst : front = [] := by
      apply List.eq_nil_iff_forall_not_mem.mpr
      intro y hy
      have hbehind := h.behind s
      rw [hs, List.pairwise_append] at hbehind
      exact hw ((hbehind.2.2 y hy z (by simp)).2 (hfront y hy))
    subst hfirst
    have hfree : Ladder.holds (Function.update L s ([] ++ untouched z :: rest)) (taker f z).id =
        false := by
      rw [Bool.eq_false_iff] at hf ⊢
      intro hholds
      obtain ⟨s', x, hx, hid⟩ := holds_iff.mp hholds
      by_cases heq : s' = s
      · subst heq
        rw [Function.update_self, List.nil_append, List.mem_cons] at hx
        rcases hx with rfl | hx
        · exact hf (holds_iff.mpr ⟨s', z, hz, hid⟩)
        · exact hf (holds_iff.mpr ⟨s', x, by simp [hs, hx], hid⟩)
      · rw [Function.update_of_ne heq] at hx
        exact hf (holds_iff.mpr ⟨s', x, hx, hid⟩)
    have htaken := add_taker (L := Function.update L s ([] ++ untouched z :: rest)) hplaced hw f
      (Function.update_self _ _ _)
    refine ⟨[.add (some ⟨submitted z, submitted_valid hplaced⟩),
      .add (some ⟨taker f z, taker_valid hplaced hw f⟩)], by simp, ?_⟩
    rw [List.foldl_cons, List.foldl_cons, List.foldl_nil, hnext]
    simp only [Ladder.next, hfree, htaken, Bool.false_eq_true, if_false, Function.update_idem]
    rw [← List.nil_append (z :: rest), ← hs, Function.update_eq_self]

/-- With one id to spare, any standing queues are built by at most two calls an order. -/
theorem Standing.built (h : Standing L) {f : OrderId} (hf : Ladder.holds L f = false) :
    ∃ calls : List Call, calls.length ≤ 2 * ((L .buy).length + (L .sell).length) ∧
      calls.foldl Ladder.next (fun _ => []) = L := by
  induction hn : (L .buy).length + (L .sell).length using Nat.strong_induction_on generalizing L
    with
  | _ n ih =>
  by_cases hempty : ∀ s, L s = []
  · exact ⟨[], Nat.zero_le _, (funext hempty).symm⟩
  · push Not at hempty
    obtain ⟨s, hne⟩ := hempty
    obtain ⟨front, z, rest, hs, hfront, hrest⟩ := exists_youngest_best (h.behind s) hne
    have hless : (front ++ rest).Sublist (L s) := by
      rw [hs]
      exact (List.sublist_cons_self z rest).append_left front
    have hsub := sublist_update hless
    have hcount : (Function.update L s (front ++ rest) .buy).length +
        (Function.update L s (front ++ rest) .sell).length + 1 = n := by
      rw [← hn]
      cases s <;> simp [hs] <;> omega
    obtain ⟨calls, hfew, hbuilt⟩ :=
      ih _ (by omega) (h.sublist hsub) (not_holds_sublist hsub hf) rfl
    obtain ⟨more, htwo, hput⟩ := h.put hf hs hfront hrest
    refine ⟨calls ++ more, ?_, by rw [List.foldl_append, hbuilt, hput]⟩
    rw [List.length_append]
    omega

/-! ## The characterisation -/

theorem resting_empty : resting emptyBook = fun _ => [] := by
  funext s
  cases s <;> rfl

/-- While an id is to spare, a book comes from calls on the empty one exactly if its containers
agree and its queues stand, and two calls for each resting order are enough. -/
theorem reachable_tfae (b : Book) (hfree : ∃ id, b.ownedOrders id = none) :
    [∃ calls, run emptyBook calls = b,
      ∃ calls, run emptyBook calls = b ∧
        calls.length ≤ 2 * ((resting b .buy).length + (resting b .sell).length),
      Invariant b ∧ Standing (resting b)].TFAE := by
  obtain ⟨f, hfree⟩ := hfree
  tfae_have 1 → 3 := by
    rintro ⟨calls, rfl⟩
    exact ⟨run_invariant calls, standing_run calls⟩
  tfae_have 3 → 2 := by
    rintro ⟨hinv, hstanding⟩
    obtain ⟨calls, hfew, hbuilt⟩ := hstanding.built ((not_holds_iff hinv).mpr hfree)
    refine ⟨calls, book_ext hinv (run_invariant calls) ?_, hfew⟩
    rw [(run_refines invariant_empty calls).2, resting_empty, hbuilt]
  tfae_have 2 → 1 := by
    rintro ⟨calls, hrun, _⟩
    exact ⟨calls, hrun⟩
  tfae_finish

/-- Seven calls come to one order that is partly filled; two are enough for it. -/
theorem reachable_tfae_one_left :
    let sell (id : OrderId) (quantity : Int32) (h : 0 < quantity) : Call :=
      .add (some ⟨⟨id, 1, .sell, quantity, quantity, .new, some .hundred⟩, h, rfl, rfl⟩)
    let buy (id : OrderId) (quantity : Int32) (h : 0 < quantity) : Call :=
      .add (some ⟨⟨id, 2, .buy, quantity, quantity, .new, none⟩, h, rfl, rfl⟩)
    let b := run emptyBook [sell 1 5 (by decide), sell 2 7 (by decide), sell 3 9 (by decide),
      .cancel 1, buy 4 7 (by decide), buy 5 2 (by decide), buy 5 3 (by decide)]
    resting b .sell = [⟨.hundred, ⟨3, 1, .sell, 9, 4, .partiallyFilled, some .hundred⟩⟩] ∧
      ∃ calls, run emptyBook calls = b ∧ calls.length ≤ 2 := by
  intro sell buy b
  have hone : resting b .sell = [⟨.hundred, ⟨3, 1, .sell, 9, 4, .partiallyFilled, some .hundred⟩⟩] := by
    decide +kernel
  have hnone : resting b .buy = [] := by decide +kernel
  have htfae := reachable_tfae b ⟨9, by decide +kernel⟩
  have hbuilt : ∃ calls, run emptyBook calls = b := ⟨_, rfl⟩
  obtain ⟨calls, hrun, hfew⟩ := (htfae.out 0 1).mp hbuilt
  rw [hone, hnone] at hfew
  exact ⟨hone, calls, hrun, hfew⟩

end ReachableBooks
