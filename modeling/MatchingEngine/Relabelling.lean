import MatchingEngine.MirrorImage

/-! # Names and prices

Of each resting order a book shows the id, the price and the remaining quantity, and its place in
the queue. An id is only ever compared for equality, a price only for order, and a trader is never
looked at: other ids, other prices in the same order and other traders change nothing but the
names in what is returned. -/
namespace Relabelling

open EngineTypes
open Orders
open OrderBook
open PriceTimeBook
open BookInvariant
open BookRefinement
open BookRuns
open LadderRuns
open MirrorImage

/-! ## What a book shows -/

structure Shown where
  id : OrderId
  price : LimitPrice
  remainingQty : Int32
  deriving DecidableEq

def shown (x : RestingOrder) : Shown := ⟨x.order.id, x.price, x.order.remainingQty⟩

def shownIn (L : Ladder) : Side → List Shown := fun s => (L s).map shown

def display (b : Book) : Side → List Shown := shownIn (resting b)

namespace Shown

def size (x : Shown) : ℤ := x.remainingQty.toInt

def fill (x : Shown) (t : ℤ) : Shown := { x with remainingQty := x.remainingQty - Int32.ofInt t }

/-- A taker looks at nothing but the price. -/
def accepted (taker : Order) (x : Shown) : Bool := accepts taker ⟨x.price, taker⟩

/-- A trade names nothing but the id and the price. -/
def trade (taker : Order) (x : Shown × ℤ) : Trade :=
  tradeOf taker (⟨x.1.price, { taker with id := x.1.id }⟩, x.2)

end Shown

theorem sweepOf_shown (L : Ladder) (o : Order) :
    Allocation.sweep Shown.size (Shown.accepted o) Shown.fill o.remaining
        (shownIn L o.side.opposite) =
      ((sweepOf L o).1.map (Prod.map shown id), (sweepOf L o).2.map shown) :=
  Allocation.sweep_map shown (fun _ _ => rfl) (fun _ _ => rfl) (fun _ _ _ => rfl)

theorem trades_shown (L : Ladder) (o : Order) : Ladder.trades L o =
    ((sweepOf L o).1.map (Prod.map shown id)).map (Shown.trade o) := by
  rw [Ladder.trades, List.map_map]
  apply List.map_congr_left
  intro x _
  rw [Function.comp, Shown.trade, tradeOf, tradeOf]
  cases o.side <;> rfl

theorem leftover_shown (L : Ladder) (o : Order) : leftover L o =
    o.remaining - (((sweepOf L o).1.map (Prod.map shown id)).map Prod.snd).sum := by
  rw [leftover, List.map_map]
  rfl

theorem place_shown (s : Side) (x : RestingOrder) (queue : List RestingOrder) :
    (place s (some x) queue).map shown =
      (queue.map shown).orderedInsert (fun a c => better s a.price c.price) (shown x) := by
  apply List.map_orderedInsert
  · exact fun _ _ => Iff.rfl
  · exact fun _ _ => Iff.rfl

theorem holds_shown (L : Ladder) (id : OrderId) : Ladder.holds L id =
    (shownIn L .buy ++ shownIn L .sell).any fun x => x.id = id := by
  rw [shownIn, shownIn, ← List.map_append, List.any_map]
  rfl

theorem cancel_shown (L : Ladder) (id : OrderId) (s : Side) :
    shownIn (Ladder.cancel L id) s = (shownIn L s).filter fun x => x.id ≠ id := by
  rw [shownIn, shownIn, List.filter_map]
  rfl

/-! ## Relabelled calls and answers -/

section Labels

variable (f : OrderId → OrderId) (τ : TraderId → TraderId) (g : LimitPrice → LimitPrice)

def relabelOrder (o : Order) : Order :=
  { o with id := f o.id, traderId := τ o.traderId, price := o.price.map g }

def relabelCall : Call → Call
  | .add none => .add none
  | .add (some o) => .add (some ⟨relabelOrder f τ g o.1, o.2⟩)
  | .cancel id => .cancel (f id)

def relabelTrade (t : Trade) : Trade := ⟨f t.buyOrderId, f t.sellOrderId, g t.price, t.quantity⟩

def relabelAnswer : Answer → Answer
  | .trades ts => .trades (ts.map (relabelTrade f g))
  | .cancelled found => .cancelled found

def relabel (x : Shown) : Shown := ⟨f x.id, g x.price, x.remainingQty⟩

/-- What `L'` shows is what `L` shows, relabelled. -/
def Relabelled (L L' : Ladder) : Prop := ∀ s, shownIn L' s = (shownIn L s).map (relabel f g)

end Labels

/-! ## One call -/

section Call

variable {f : OrderId → OrderId} {τ : TraderId → TraderId} {g : LimitPrice → LimitPrice}
  {P : Set LimitPrice} {L L' : Ladder} {o : Order}

theorem trade_relabel (x : Shown × ℤ) :
    Shown.trade (relabelOrder f τ g o) (Prod.map (relabel f g) id x) =
      relabelTrade f g (Shown.trade o x) := by
  obtain ⟨⟨id, price, remainingQty⟩, t⟩ := x
  cases hs : o.side <;> simp [Shown.trade, tradeOf, relabelOrder, hs, relabelTrade, relabel]

theorem rested_relabel (left : ℤ) :
    (rested (relabelOrder f τ g o) left).map shown = (rested o left).map (relabel f g ∘ shown) := by
  cases hp : o.price with
  | none => simp [rested, relabelOrder, hp]
  | some price =>
    by_cases h0 : left = 0
    · simp [rested, relabelOrder, hp, h0]
    · simp [rested, relabelOrder, hp, h0, resident, shown, relabel]

theorem cancel_relabel (hf : Function.Injective f) (h : Relabelled f g L L') (id : OrderId) :
    Relabelled f g (Ladder.cancel L id) (Ladder.cancel L' (f id)) := by
  intro s
  rw [cancel_shown, cancel_shown, h s, List.filter_map]
  refine congrArg (List.map (relabel f g)) (List.filter_congr fun x _ => ?_)
  simp [relabel, hf.eq_iff]

theorem holds_relabel (hf : Function.Injective f) (h : Relabelled f g L L') (id : OrderId) :
    Ladder.holds L' (f id) = Ladder.holds L id := by
  rw [holds_shown, holds_shown, h, h, ← List.map_append, List.any_map]
  refine congrFun (congrArg List.any rfl) _ |>.trans ?_
  refine List.any_congr rfl fun x => ?_
  simp [relabel, hf.eq_iff]

variable (hg : StrictMonoOn g P)

include hg

theorem accepted_relabel (ho : ∀ p, o.price = some p → p ∈ P) {x : Shown} (hx : x.price ∈ P) :
    Shown.accepted (relabelOrder f τ g o) (relabel f g x) = Shown.accepted o x := by
  cases hp : o.price with
  | none => simp [Shown.accepted, accepts, relabelOrder, hp]
  | some limit =>
    have hlimit := ho limit hp
    cases hs : o.side with
    | buy =>
      simp [Shown.accepted, accepts, relabelOrder, hp, hs, relabel, hg.le_iff_le hx hlimit]
    | sell =>
      simp [Shown.accepted, accepts, relabelOrder, hp, hs, relabel, hg.le_iff_le hlimit hx]

theorem better_relabel (s : Side) {p q : LimitPrice} (hp : p ∈ P) (hq : q ∈ P) :
    better s (g p) (g q) ↔ better s p q := by
  cases s with
  | buy => exact hg.lt_iff_lt hq hp
  | sell => exact hg.lt_iff_lt hp hq

theorem sweepOf_relabel (hL : Within P L) (ho : ∀ p, o.price = some p → p ∈ P)
    (h : Relabelled f g L L') :
    (sweepOf L' (relabelOrder f τ g o)).1.map (Prod.map shown id) =
        ((sweepOf L o).1.map (Prod.map shown id)).map (Prod.map (relabel f g) id) ∧
      (sweepOf L' (relabelOrder f τ g o)).2.map shown =
        ((sweepOf L o).2.map shown).map (relabel f g) := by
  have hprice : ∀ x ∈ shownIn L o.side.opposite, x.price ∈ P := by
    intro x hx
    obtain ⟨y, hy, rfl⟩ := List.mem_map.mp hx
    exact hL _ y hy
  have hmap : Allocation.sweep Shown.size (Shown.accepted (relabelOrder f τ g o)) Shown.fill
        o.remaining ((shownIn L o.side.opposite).map (relabel f g)) =
      (((sweepOf L o).1.map (Prod.map shown id)).map (Prod.map (relabel f g) id),
        ((sweepOf L o).2.map shown).map (relabel f g)) := by
    have hsize : ∀ x ∈ shownIn L o.side.opposite, Shown.size (relabel f g x) = Shown.size x :=
      fun _ _ => rfl
    have hfill : ∀ x ∈ shownIn L o.side.opposite, ∀ t,
        Shown.fill (relabel f g x) t = relabel f g (Shown.fill x t) := fun _ _ _ => rfl
    rw [Allocation.sweep_map (relabel f g) hsize
      (fun x hx => accepted_relabel hg ho (hprice x hx)) hfill, sweepOf_shown]
  rw [← h] at hmap
  have hsweep := sweepOf_shown L' (relabelOrder f τ g o)
  exact Prod.mk.inj (hsweep.symm.trans hmap)

theorem trades_relabel (hL : Within P L) (ho : ∀ p, o.price = some p → p ∈ P)
    (h : Relabelled f g L L') :
    Ladder.trades L' (relabelOrder f τ g o) = (Ladder.trades L o).map (relabelTrade f g) := by
  rw [trades_shown, (sweepOf_relabel hg hL ho h).1, trades_shown]
  generalize (sweepOf L o).1.map (Prod.map shown id) = taken
  rw [List.map_map, List.map_map]
  exact List.map_congr_left fun x _ => trade_relabel x

theorem leftover_relabel (hL : Within P L) (ho : ∀ p, o.price = some p → p ∈ P)
    (h : Relabelled f g L L') : leftover L' (relabelOrder f τ g o) = leftover L o := by
  rw [leftover_shown, (sweepOf_relabel hg hL ho h).1, leftover_shown, List.map_map]
  rfl

theorem add_relabel (hL : Within P L) (ho : ∀ p, o.price = some p → p ∈ P)
    (h : Relabelled f g L L') :
    Relabelled f g (Ladder.add L o) (Ladder.add L' (relabelOrder f τ g o)) := by
  intro s
  by_cases hs : s = o.side
  · subst hs
    rw [shownIn, shownIn, add_own]
    rw [show Ladder.add L' (relabelOrder f τ g o) o.side = _ from add_own L' (relabelOrder f τ g o),
      leftover_relabel hg hL ho h]
    have hrested := rested_relabel (f := f) (τ := τ) (g := g) (o := o) (leftover L o)
    cases hr : rested o (leftover L o) with
    | none =>
      rw [hr, Option.map_none, Option.map_eq_none_iff] at hrested
      rw [hrested]
      exact h o.side
    | some x =>
      rw [hr, Option.map_some, Option.map_eq_some_iff] at hrested
      obtain ⟨y, hy, hxy⟩ := hrested
      have hx : x.price ∈ P := ho _ (rested_eq_some hr).2.1
      rw [hy, place_shown, place_shown, hxy]
      change (shownIn L' o.side).orderedInsert _ _ = _
      rw [h o.side]
      symm
      apply List.map_orderedInsert
      · intro z hz
        obtain ⟨w, hw, rfl⟩ := List.mem_map.mp hz
        exact (better_relabel hg o.side (hL _ w hw) hx).symm
      · intro z hz
        obtain ⟨w, hw, rfl⟩ := List.mem_map.mp hz
        exact (better_relabel hg o.side hx (hL _ w hw)).symm
  · obtain rfl := eq_opposite_of_ne hs
    rw [shownIn, shownIn, add_opposite, show Ladder.add L' (relabelOrder f τ g o) o.side.opposite = _
      from add_opposite L' (relabelOrder f τ g o)]
    exact (sweepOf_relabel hg hL ho h).2

theorem answer_relabel (hf : Function.Injective f) (hL : Within P L) {c : Call} (hc : Priced P c)
    (h : Relabelled f g L L') :
    Ladder.answer L' (relabelCall f τ g c) = (Ladder.answer L c).map (relabelAnswer f g) := by
  cases c with
  | cancel id => simp [Ladder.answer, relabelCall, holds_relabel hf h, Except.map, relabelAnswer]
  | add order =>
    cases order with
    | none => rfl
    | some o =>
      have hheld : Ladder.holds L' (relabelOrder f τ g o.1).id = Ladder.holds L o.1.id :=
        holds_relabel hf h o.1.id
      cases hh : Ladder.holds L o.1.id with
      | true => simp [Ladder.answer, relabelCall, hheld, hh, Except.map]
      | false =>
        simp [Ladder.answer, relabelCall, hheld, hh, Except.map, relabelAnswer,
          trades_relabel hg hL hc h]

theorem next_relabel (hf : Function.Injective f) (hL : Within P L) {c : Call} (hc : Priced P c)
    (h : Relabelled f g L L') :
    Relabelled f g (Ladder.next L c) (Ladder.next L' (relabelCall f τ g c)) := by
  cases c with
  | cancel id => exact cancel_relabel hf h id
  | add order =>
    cases order with
    | none => exact h
    | some o =>
      have hheld : Ladder.holds L' (relabelOrder f τ g o.1).id = Ladder.holds L o.1.id :=
        holds_relabel hf h o.1.id
      cases hh : Ladder.holds L o.1.id with
      | true => simpa [Ladder.next, relabelCall, hheld, hh] using h
      | false => simpa [Ladder.next, relabelCall, hheld, hh] using add_relabel hg hL hc h

end Call

/-! ## Whole runs -/

section Run

variable {f : OrderId → OrderId} {τ : TraderId → TraderId} {g : LimitPrice → LimitPrice}
  {P : Set LimitPrice}

theorem run_relabel (hf : Function.Injective f) (hg : StrictMonoOn g P) {L L' : Ladder}
    (hL : Within P L) (h : Relabelled f g L L') {calls : List Call}
    (hc : ∀ c ∈ calls, Priced P c) :
    Ladder.answers L' (calls.map (relabelCall f τ g)) =
        (Ladder.answers L calls).map (Except.map (relabelAnswer f g)) ∧
      Relabelled f g (calls.foldl Ladder.next L)
        ((calls.map (relabelCall f τ g)).foldl Ladder.next L') := by
  induction calls generalizing L L' with
  | nil => exact ⟨rfl, h⟩
  | cons c calls ih =>
    have hfirst := hc c List.mem_cons_self
    obtain ⟨hanswers, hrun⟩ := ih (within_next hL hfirst) (next_relabel hg hf hL hfirst h)
      fun d hd => hc d (List.mem_cons_of_mem _ hd)
    refine ⟨?_, hrun⟩
    rw [List.map_cons, Ladder.answers, answer_relabel hg hf hL hfirst h, hanswers, Ladder.answers,
      List.map_cons]

end Run

/-- Other ids, one for one, other prices in the same order, and any traders at all: the run gives the
same answers and shows the same orders, under the other names. -/
theorem relabelling (f : OrderId → OrderId) (τ : TraderId → TraderId) (g : LimitPrice → LimitPrice)
    (calls : List Call) (hf : Function.Injective f) (hg : StrictMonoOn g (pricesUsed calls)) :
    answers emptyBook (calls.map (relabelCall f τ g)) =
        (answers emptyBook calls).map (Except.map (relabelAnswer f g)) ∧
      ∀ s, display (run emptyBook (calls.map (relabelCall f τ g))) s =
        (display (run emptyBook calls) s).map (relabel f g) := by
  have hempty : resting emptyBook = fun _ => [] := by
    funext s
    cases s <;> rfl
  have hwithin : Within (pricesUsed calls) (resting emptyBook) := by
    intro s x hx
    rw [hempty] at hx
    cases hx
  have hnone : Relabelled f g (resting emptyBook) (resting emptyBook) := by
    intro s
    rw [shownIn, hempty]
    rfl
  have hpriced : ∀ c ∈ calls, Priced (pricesUsed calls) c := by
    intro c hc
    cases c with
    | cancel id => exact trivial
    | add order =>
      cases order with
      | none => exact trivial
      | some o => exact fun p hp => ⟨o, hc, hp⟩
  obtain ⟨hanswers, hrun⟩ := run_relabel (τ := τ) hf hg hwithin hnone hpriced
  obtain ⟨hanswers₁, hrun₁⟩ := run_refines invariant_empty calls
  obtain ⟨hanswers₂, hrun₂⟩ := run_refines invariant_empty (calls.map (relabelCall f τ g))
  refine ⟨by rw [hanswers₂, hanswers, hanswers₁], fun s => ?_⟩
  rw [display, display, hrun₁, hrun₂]
  exact hrun s

/-- 25.0 -/
def twentyFive : LimitPrice := ⟨⟨0x4039000000000000⟩, by decide, by decide⟩

def halve (p : LimitPrice) : LimitPrice := if p = .hundred then fifty else twentyFive

/-- Two asks and a market buy: every id is ten more, every price half, and all is one trader's. -/
theorem relabelling_halved :
    let calls : List Call := [
      .add (some (NewOrder.limit 1 1 .sell 5 five_pos .hundred)),
      .add (some (NewOrder.limit 2 2 .sell 5 five_pos fifty)),
      .add (some (NewOrder.market 3 3 .buy 3 three_pos))]
    let renamed := calls.map (relabelCall (· + 10) (fun _ => 0) halve)
    answers emptyBook renamed =
        [.ok (.trades []), .ok (.trades []), .ok (.trades [⟨13, 12, twentyFive, 3⟩])] ∧
      display (run emptyBook renamed) .sell = [⟨12, twentyFive, 2⟩, ⟨11, fifty, 5⟩] := by
  intro calls renamed
  have hused : ∀ p ∈ pricesUsed calls, p = .hundred ∨ p = fifty := by
    rintro p ⟨o, ho, hp⟩
    simp only [calls, List.mem_cons, Call.add.injEq, Option.some.injEq, List.not_mem_nil,
      or_false] at ho
    rcases ho with rfl | rfl | rfl
    · exact Or.inl (Option.some.inj hp).symm
    · exact Or.inr (Option.some.inj hp).symm
    · cases hp
  have hlt : fifty < .hundred := by decide
  have hhalf : twentyFive < fifty := by decide
  have hmono : StrictMonoOn halve (pricesUsed calls) := by
    intro p hp q hq hpq
    rcases hused p hp with rfl | rfl <;> rcases hused q hq with rfl | rfl
    · exact absurd hpq (lt_irrefl _)
    · exact absurd hpq hlt.asymm
    · simpa [halve, hlt.ne] using hhalf
    · exact absurd hpq (lt_irrefl _)
  have hinj : Function.Injective fun id : OrderId => id + 10 :=
    fun _ _ h => (UInt64.add_left_inj 10).mp h
  obtain ⟨hanswers, hdisplay⟩ := relabelling (· + 10) (fun _ => 0) halve calls hinj hmono
  exact ⟨hanswers.trans (by decide), (hdisplay .sell).trans (by decide)⟩

end Relabelling
