import Mathlib.Order.Monotone.Basic
import MatchingEngine.LadderRuns

/-! # Buy and sell are mirror images

The two branches of matching, resting and cancelling are written twice, over maps with
opposite comparators. Exchanging the sides and reversing the order of the prices of a run
exchanges the two sides of everything that it returns and leaves. -/
namespace MirrorImage

open EngineTypes
open Orders
open OrderedMap
open OrderBook
open PriceTimeBook
open BookInvariant
open BookRefinement
open BookRuns
open LadderRuns

variable (f : LimitPrice → LimitPrice)

/-! ## Mirrored calls and answers -/

def mirrorOrder (o : Order) : Order := { o with side := o.side.opposite, price := o.price.map f }

theorem valid_mirrorOrder {o : Order} (h : o.Valid) : (mirrorOrder f o).Valid := h

def mirrorCall : Call → Call
  | .add none => .add none
  | .add (some o) => .add (some ⟨mirrorOrder f o.1, valid_mirrorOrder f o.2⟩)
  | .cancel id => .cancel id

def mirrorTrade (t : Trade) : Trade := ⟨t.sellOrderId, t.buyOrderId, f t.price, t.quantity⟩

def mirrorAnswer : Answer → Answer
  | .trades ts => .trades (ts.map (mirrorTrade f))
  | .cancelled found => .cancelled found

def mirrorResting (x : RestingOrder) : RestingOrder := ⟨f x.price, mirrorOrder f x.order⟩

def mirrorLadder (L : Ladder) : Ladder := fun s => (L s.opposite).map (mirrorResting f)

/-- The limit prices of the calls of a run. -/
def pricesUsed (calls : List Call) : Set LimitPrice :=
  {p | ∃ o : NewOrder, Call.add (some o) ∈ calls ∧ o.1.price = some p}

@[simp] theorem mirrorOrder_id (o : Order) : (mirrorOrder f o).id = o.id := rfl
@[simp] theorem mirrorOrder_side (o : Order) : (mirrorOrder f o).side = o.side.opposite := rfl
@[simp] theorem mirrorOrder_remaining (o : Order) : (mirrorOrder f o).remaining = o.remaining := rfl
@[simp] theorem mirrorOrder_quantity (o : Order) : (mirrorOrder f o).quantity = o.quantity := rfl
@[simp] theorem mirrorResting_price (x : RestingOrder) :
    (mirrorResting f x).price = f x.price := rfl
@[simp] theorem mirrorResting_order (x : RestingOrder) :
    (mirrorResting f x).order = mirrorOrder f x.order := rfl
@[simp] theorem mirrorResting_size (x : RestingOrder) :
    (mirrorResting f x).size = x.size := rfl

@[simp] theorem opposite_opposite (s : Side) : s.opposite.opposite = s := by cases s <;> rfl

theorem tradeOf_mirror (o : Order) (x : RestingOrder) (t : ℤ) :
    tradeOf (mirrorOrder f o) (mirrorResting f x, t) = mirrorTrade f (tradeOf o (x, t)) := by
  cases hs : o.side <;> simp [tradeOf, hs, Side.opposite, mirrorTrade]

/-! ## One call -/

section Call

variable {f} {P : Set LimitPrice} {L : Ladder} {o : Order} {x : RestingOrder}

/-- A queue in which only some prices stand. -/
def Within (P : Set LimitPrice) (L : Ladder) : Prop := ∀ s, ∀ x ∈ L s, x.price ∈ P

variable (hf : StrictAntiOn f P)

include hf

/-- Reversed prices under the other comparator are in the same order. -/
theorem better_mirror (s : Side) {p q : LimitPrice} (hp : p ∈ P) (hq : q ∈ P) :
    better s.opposite (f p) (f q) ↔ better s p q := by
  cases s with
  | buy => exact hf.lt_iff_gt hp hq
  | sell => exact hf.lt_iff_gt hq hp

theorem accepts_mirror (hx : x.price ∈ P) (ho : ∀ p, o.price = some p → p ∈ P) :
    accepts (mirrorOrder f o) (mirrorResting f x) = accepts o x := by
  cases hp : o.price with
  | none => simp [accepts, mirrorOrder, hp]
  | some limit =>
    have hlimit := ho limit hp
    cases hs : o.side with
    | buy => simp [accepts, mirrorOrder, hp, hs, Side.opposite, hf.le_iff_ge hlimit hx]
    | sell => simp [accepts, mirrorOrder, hp, hs, Side.opposite, hf.le_iff_ge hx hlimit]

theorem sweepOf_mirror (hL : Within P L) (ho : ∀ p, o.price = some p → p ∈ P) :
    sweepOf (mirrorLadder f L) (mirrorOrder f o) =
      ((sweepOf L o).1.map (Prod.map (mirrorResting f) id), (sweepOf L o).2.map (mirrorResting f)) := by
  have hqueue : mirrorLadder f L (mirrorOrder f o).side.opposite =
      (L o.side.opposite).map (mirrorResting f) := by simp [mirrorLadder]
  rw [sweepOf, hqueue]
  exact Allocation.sweep_map (mirrorResting f) (fun _ _ => rfl)
    (fun x hx => accepts_mirror hf (hL _ x hx) ho) (fun _ _ _ => rfl)

theorem trades_mirror (hL : Within P L) (ho : ∀ p, o.price = some p → p ∈ P) :
    Ladder.trades (mirrorLadder f L) (mirrorOrder f o) =
      (Ladder.trades L o).map (mirrorTrade f) := by
  rw [Ladder.trades, sweepOf_mirror hf hL ho, Ladder.trades, List.map_map, List.map_map]
  apply List.map_congr_left
  intro x _
  exact tradeOf_mirror f o x.1 x.2

theorem leftover_mirror (hL : Within P L) (ho : ∀ p, o.price = some p → p ∈ P) :
    leftover (mirrorLadder f L) (mirrorOrder f o) = leftover L o := by
  rw [leftover, sweepOf_mirror hf hL ho, leftover, List.map_map]
  rfl

omit hf in
theorem rested_mirror (left : ℤ) :
    rested (mirrorOrder f o) left = (rested o left).map (mirrorResting f) := by
  cases hp : o.price with
  | none => simp [rested, mirrorOrder, hp]
  | some price =>
    by_cases h0 : left = 0
    · simp [rested, mirrorOrder, hp, h0]
    · simp [rested, mirrorOrder, hp, h0, mirrorResting, resident]

theorem place_mirror (s : Side) {queue : List RestingOrder} (hq : ∀ y ∈ queue, y.price ∈ P)
    {x : Option RestingOrder} (hx : ∀ y ∈ x, y.price ∈ P) :
    place s.opposite (x.map (mirrorResting f)) (queue.map (mirrorResting f)) =
      (place s x queue).map (mirrorResting f) := by
  cases x with
  | none => rfl
  | some x =>
    have hxP : x.price ∈ P := hx x rfl
    simp only [Option.map_some, place]
    symm
    apply List.map_orderedInsert
    · exact fun y hy => (better_mirror hf s (hq y hy) hxP).symm
    · exact fun y hy => (better_mirror hf s hxP (hq y hy)).symm

theorem add_mirror (hL : Within P L) (ho : ∀ p, o.price = some p → p ∈ P) :
    Ladder.add (mirrorLadder f L) (mirrorOrder f o) = mirrorLadder f (Ladder.add L o) := by
  funext s
  have hrested : ∀ y ∈ rested o (leftover L o), y.price ∈ P :=
    fun y hy => ho _ (rested_eq_some hy).2.1
  by_cases hs : s = o.side.opposite
  · subst hs
    rw [Ladder.add, if_pos (mirrorOrder_side f o).symm, leftover_mirror hf hL ho, rested_mirror,
      mirrorLadder, mirrorLadder, opposite_opposite, add_own]
    exact place_mirror hf o.side (hL o.side) hrested
  · have hs' : s = o.side := by
      cases s <;> cases hside : o.side <;> simp_all [Side.opposite]
    subst hs'
    rw [Ladder.add, if_neg (show o.side ≠ (mirrorOrder f o).side from hs),
      sweepOf_mirror hf hL ho, mirrorLadder, add_opposite]

omit hf in
theorem cancel_mirror (id : OrderId) :
    Ladder.cancel (mirrorLadder f L) id = mirrorLadder f (Ladder.cancel L id) := by
  funext s
  rw [Ladder.cancel, mirrorLadder, mirrorLadder, Ladder.cancel, List.filter_map]
  rfl

omit hf in
theorem holds_mirror (id : OrderId) :
    Ladder.holds (mirrorLadder f L) id = Ladder.holds L id := by
  rw [Bool.eq_iff_iff, holds_iff, holds_iff]
  constructor
  · rintro ⟨s, y, hy, rfl⟩
    obtain ⟨x, hx, rfl⟩ := List.mem_map.mp hy
    exact ⟨s.opposite, x, hx, rfl⟩
  · rintro ⟨s, x, hx, rfl⟩
    refine ⟨s.opposite, mirrorResting f x, List.mem_map.mpr ⟨x, ?_, rfl⟩, rfl⟩
    rwa [opposite_opposite]

/-- The prices of a call. -/
def Priced (P : Set LimitPrice) : Call → Prop
  | .add (some o) => ∀ p, o.1.price = some p → p ∈ P
  | _ => True

theorem answer_mirror (hL : Within P L) {c : Call} (hc : Priced P c) :
    Ladder.answer (mirrorLadder f L) (mirrorCall f c) =
      (Ladder.answer L c).map (mirrorAnswer f) := by
  cases c with
  | cancel id => simp [Ladder.answer, mirrorCall, holds_mirror, Except.map, mirrorAnswer]
  | add order =>
    cases order with
    | none => rfl
    | some o =>
      cases hheld : Ladder.holds L o.1.id with
      | true => simp [Ladder.answer, mirrorCall, holds_mirror, hheld, Except.map]
      | false =>
        simp [Ladder.answer, mirrorCall, holds_mirror, hheld, Except.map, mirrorAnswer,
          trades_mirror hf hL hc]

theorem next_mirror (hL : Within P L) {c : Call} (hc : Priced P c) :
    Ladder.next (mirrorLadder f L) (mirrorCall f c) = mirrorLadder f (Ladder.next L c) := by
  cases c with
  | cancel id => exact cancel_mirror id
  | add order =>
    cases order with
    | none => rfl
    | some o =>
      cases hheld : Ladder.holds L o.1.id with
      | true => simp [Ladder.next, mirrorCall, holds_mirror, hheld]
      | false => simp [Ladder.next, mirrorCall, holds_mirror, hheld, add_mirror hf hL hc]

omit hf in
/-- A call brings in no price but its own. -/
theorem within_next (hL : Within P L) {c : Call} (hc : Priced P c) :
    Within P (Ladder.next L c) := by
  cases c with
  | cancel id => exact fun s x hx => hL s x (List.mem_of_mem_filter hx)
  | add order =>
    cases order with
    | none => exact hL
    | some o =>
      rw [Ladder.next]
      split
      · exact hL
      intro s x hx
      rw [Ladder.add] at hx
      split at hx
      · rcases mem_place.mp hx with hr | hx
        · exact hc _ (rested_eq_some hr).2.1
        · exact hL s x hx
      · obtain ⟨y, hy, hprice⟩ := swept_price hx
        exact hprice ▸ hL _ y hy

end Call

/-! ## Whole runs -/

/-- `b'` is the mirror image of `b`: levels, objects and places. -/
structure MirrorBook (b b' : Book) : Prop where
  levels : ∀ s, (b'.levels s).entries = (b.levels s.opposite).entries.map (Prod.map f id)
  owned : ∀ id, b'.ownedOrders id = (b.ownedOrders id).map (mirrorOrder f)
  located : ∀ id, b'.orderLocation id =
    (b.orderLocation id).map fun loc => ⟨loc.side.opposite, f loc.price, loc.iterator⟩

section Run

variable {f} {P : Set LimitPrice} {b b' : Book}

theorem run_mirror (hf : StrictAntiOn f P) {L : Ladder} (hL : Within P L) {calls : List Call}
    (hc : ∀ c ∈ calls, Priced P c) :
    Ladder.answers (mirrorLadder f L) (calls.map (mirrorCall f)) =
        (Ladder.answers L calls).map (Except.map (mirrorAnswer f)) ∧
      (calls.map (mirrorCall f)).foldl Ladder.next (mirrorLadder f L) =
        mirrorLadder f (calls.foldl Ladder.next L) ∧
      Within P (calls.foldl Ladder.next L) := by
  induction calls generalizing L with
  | nil => exact ⟨rfl, rfl, hL⟩
  | cons c calls ih =>
    have hfirst := hc c List.mem_cons_self
    obtain ⟨hanswers, hrun, hwithin⟩ := ih (within_next hL hfirst)
      fun d hd => hc d (List.mem_cons_of_mem _ hd)
    rw [← next_mirror hf hL hfirst] at hanswers hrun
    refine ⟨?_, hrun, hwithin⟩
    rw [List.map_cons, Ladder.answers, answer_mirror hf hL hfirst, hanswers, Ladder.answers,
      List.map_cons]

/-- Mirrored queues are kept by mirrored containers. -/
theorem mirrorBook (hf : Set.InjOn f P) (h : Invariant b) (h' : Invariant b')
    (hP : Within P (resting b)) (hr : resting b' = mirrorLadder f (resting b)) :
    MirrorBook f b b' := by
  constructor
  · intro s
    have hflat : flatten (b'.levels s).entries =
        flatten ((b.levels s.opposite).entries.map (Prod.map f id)) := by
      rw [flatten_map_keys]
      change Listed b' s = (Listed b s.opposite).map (Prod.map f id)
      rw [← h'.resting_places, ← h.resting_places, hr, mirrorLadder, List.map_map, List.map_map]
      rfl
    have hkey : ∀ p ∈ (b.levels s.opposite).entries.map Prod.fst, p ∈ P := by
      intro p hp
      obtain ⟨e, he, rfl⟩ := List.mem_map.mp hp
      obtain ⟨i, hi⟩ := List.exists_mem_of_ne_nil _ (h.noEmpty _ e he)
      have hm : (e.1, i) ∈ Listed b s.opposite := mem_flatten.mpr ⟨e.2, he, hi⟩
      rw [← h.resting_places] at hm
      obtain ⟨x, hx, hxe⟩ := List.mem_map.mp hm
      exact (Prod.mk.inj hxe).1 ▸ hP _ x hx
    apply flatten_injective (levels_keys_nodup b' s) _ (h'.noEmpty s) _ hflat
    · rw [List.map_map]
      change ((b.levels s.opposite).entries.map (f ∘ Prod.fst)).Nodup
      rw [← List.map_map]
      exact (levels_keys_nodup b s.opposite).map_on fun p hp q hq => hf (hkey p hp) (hkey q hq)
    · intro e he
      obtain ⟨d, hd, rfl⟩ := List.mem_map.mp he
      exact h.noEmpty _ d hd
  · intro id
    apply Option.ext
    intro p
    simp only [owned_eq_some_iff h', Option.map_eq_some_iff, owned_eq_some_iff h, hr]
    constructor
    · rintro ⟨s, y, hy, rfl, hid⟩
      obtain ⟨x, hx, rfl⟩ := List.mem_map.mp hy
      exact ⟨x.order, ⟨s.opposite, x, hx, rfl, hid⟩, rfl⟩
    · rintro ⟨q, ⟨s, x, hx, rfl, hid⟩, rfl⟩
      refine ⟨s.opposite, mirrorResting f x, List.mem_map.mpr ⟨x, ?_, rfl⟩, rfl, hid⟩
      rwa [opposite_opposite]
  · intro id
    apply Option.ext
    intro loc
    simp only [located_iff h', Option.map_eq_some_iff, located_iff h, hr]
    constructor
    · rintro ⟨⟨y, hy, hprice, hid⟩, hit⟩
      obtain ⟨x, hx, rfl⟩ := List.mem_map.mp hy
      refine ⟨⟨loc.side.opposite, x.price, id⟩, ⟨⟨x, hx, rfl, hid⟩, rfl⟩, ?_⟩
      obtain ⟨s, p, i⟩ := loc
      simp only [opposite_opposite, OrderLocation.mk.injEq, true_and]
      exact ⟨hprice, hit.symm⟩
    · rintro ⟨q, ⟨⟨x, hx, hprice, hid⟩, hit⟩, rfl⟩
      refine ⟨⟨mirrorResting f x, List.mem_map.mpr ⟨x, ?_, rfl⟩, congrArg f hprice, hid⟩, hit⟩
      rwa [opposite_opposite]

end Run

/-- The mirrored run gives the mirrored answers, call by call, and ends in the mirrored book. -/
theorem mirror_image (f : LimitPrice → LimitPrice) (calls : List Call)
    (hf : StrictAntiOn f (pricesUsed calls)) :
    answers emptyBook (calls.map (mirrorCall f)) =
        (answers emptyBook calls).map (Except.map (mirrorAnswer f)) ∧
      MirrorBook f (run emptyBook calls) (run emptyBook (calls.map (mirrorCall f))) := by
  have hpriced : ∀ c ∈ calls, Priced (pricesUsed calls) c := by
    intro c hc
    cases c with
    | cancel id => exact trivial
    | add order =>
      cases order with
      | none => exact trivial
      | some o => exact fun p hp => ⟨o, hc, hp⟩
  have hempty : resting emptyBook = fun _ => [] := by
    funext s
    cases s <;> rfl
  have hmirror : mirrorLadder f (resting emptyBook) = resting emptyBook := by
    rw [hempty]
    rfl
  have hwithin : Within (pricesUsed calls) (resting emptyBook) := by
    intro s x hx
    rw [hempty] at hx
    cases hx
  obtain ⟨hanswers, hrun, hP⟩ := run_mirror hf hwithin hpriced
  obtain ⟨hanswers₁, hrun₁⟩ := run_refines invariant_empty calls
  obtain ⟨hanswers₂, hrun₂⟩ := run_refines invariant_empty (calls.map (mirrorCall f))
  rw [hmirror] at hanswers hrun
  refine ⟨?_, mirrorBook hf.injOn (run_invariant calls) (run_invariant _) ?_ ?_⟩
  · rw [hanswers₂, hanswers, hanswers₁]
  · rw [hrun₁]
    exact hP
  · rw [hrun₂, hrun, hrun₁]

/-- 50.0 -/
def fifty : LimitPrice := ⟨⟨0x4049000000000000⟩, by decide, by decide⟩

def exchange (p : LimitPrice) : LimitPrice := if p = .hundred then fifty else .hundred

/-- An ask at 100 and a bid at 50, and a market sell that meets the bid. -/
theorem mirror_image_two_prices :
    let calls : List Call := [
      .add (some (NewOrder.limit 1 1 .sell 5 five_pos .hundred)),
      .add (some (NewOrder.limit 2 2 .buy 5 five_pos fifty)),
      .add (some (NewOrder.market 3 3 .sell 3 three_pos))]
    answers emptyBook (calls.map (mirrorCall exchange)) =
        [.ok (.trades []), .ok (.trades []), .ok (.trades [⟨3, 2, .hundred, 3⟩])] ∧
      MirrorBook exchange (run emptyBook calls) (run emptyBook (calls.map (mirrorCall exchange))) := by
  intro calls
  have hused : ∀ p ∈ pricesUsed calls, p = .hundred ∨ p = fifty := by
    rintro p ⟨o, ho, hp⟩
    simp only [calls, List.mem_cons, Call.add.injEq, Option.some.injEq, List.not_mem_nil,
      or_false] at ho
    rcases ho with rfl | rfl | rfl
    · exact Or.inl (Option.some.inj hp).symm
    · exact Or.inr (Option.some.inj hp).symm
    · cases hp
  have hlt : fifty < .hundred := by decide
  have hanti : StrictAntiOn exchange (pricesUsed calls) := by
    intro p hp q hq hpq
    rcases hused p hp with rfl | rfl <;> rcases hused q hq with rfl | rfl
    · exact absurd hpq (lt_irrefl _)
    · exact absurd hpq hlt.asymm
    · simpa [exchange, hlt.ne] using hlt
    · exact absurd hpq (lt_irrefl _)
  exact ⟨by decide, (mirror_image exchange calls hanti).2⟩

end MirrorImage
