import MatchingEngine.NeverTraded

/-! # Runs that trade nothing

What stands after such a run can be told from its calls: the orders that none of them cancels
and, behind those of their price, the submitted ones that no later call cancels. -/
namespace UntradedRuns

open EngineTypes
open Orders
open OrderedMap
open OrderBook
open PriceTimeBook
open BookInvariant
open BookRuns
open LadderRuns
open NeverTraded

def tradesIn : Except Failure Answer → List Trade
  | .ok (.trades ts) => ts
  | _ => []

def cancelId? : Call → Option OrderId
  | .add _ => none
  | .cancel id => some id

def cancelIds (cs : List Call) : List OrderId := cs.filterMap cancelId?

/-- The submitted orders that no later call cancels. -/
def survivors : List Call → List NewOrder
  | [] => []
  | .add (some o) :: cs => if o.1.id ∈ cancelIds cs then survivors cs else o :: survivors cs
  | _ :: cs => survivors cs

def without (L : Ladder) (ids : List OrderId) : Ladder := fun s =>
  (L s).filter fun x => x.order.id ∉ ids

/-- The order rests with all its shares, if it is a limit order. -/
def join (L : Ladder) (o : NewOrder) : Ladder := fun s =>
  if s = o.1.side then place s (rested o.1 o.1.remaining) (L s) else L s

/-- What stands after calls that trade nothing. -/
def standing (L : Ladder) (cs : List Call) : Ladder :=
  (survivors cs).foldl join (without L (cancelIds cs))

/-- No submitted order takes the price of the best one that then stands on the other side. -/
def Untraded (L : Ladder) (cs : List Call) : Prop :=
  ∀ before o after, cs = before ++ .add (some o) :: after →
    ∀ x ∈ (standing L before o.1.side.opposite).head?, accepts o.1 x = false

variable {L : Ladder} {cs : List Call} {o : NewOrder}

/-! ## One call -/

theorem trades_nil_iff : Ladder.trades L o.1 = [] ↔
    ∀ x ∈ (L o.1.side.opposite).head?, accepts o.1 x = false := by
  rw [Ladder.trades, List.map_eq_nil_iff]
  exact Allocation.sweep_nothing_iff o.2.remaining_pos

theorem next_untraded (hfree : Ladder.holds L o.1.id = false) (h : Ladder.trades L o.1 = []) :
    Ladder.next L (.add (some o)) = join L o := by
  have hnone : (sweepOf L o.1).1 = [] := List.map_eq_nil_iff.mp h
  have hleft : leftover L o.1 = o.1.remaining := by
    rw [leftover, hnone]
    exact sub_zero _
  have hrest : (sweepOf L o.1).2 = L o.1.side.opposite := Allocation.sweep_none hnone
  funext s
  rw [Ladder.next, hfree, if_neg Bool.false_ne_true, Ladder.add, join, hleft, hrest]
  by_cases hs : s = o.1.side
  · rw [if_pos hs, if_pos hs]
  · rw [if_neg hs, if_neg hs, eq_opposite_of_ne hs]

theorem place_sorted {s : Side} {queue : List RestingOrder}
    (hq : queue.Pairwise fun x y => x.price = y.price ∨ better s x.price y.price)
    (x : Option RestingOrder) :
    (place s x queue).Pairwise fun x y => x.price = y.price ∨ better s x.price y.price := by
  cases x with
  | none => exact hq
  | some x =>
    apply pairwise_orderedInsert hq
    · exact fun y _ hxy => .inr hxy
    · intro y _ hxy
      rcases trichotomous_of (better s) y.price x.price with hlt | heq | hgt
      · exact .inr hlt
      · exact .inl heq
      · exact absurd hgt hxy
    · rintro y _ z _ (heq | hlt) hxy
      · exact heq ▸ hxy
      · exact IsTrans.trans _ _ _ hxy hlt

theorem join_sorted (hs : Sorted L) (o : NewOrder) : Sorted (join L o) := by
  intro s
  rw [join]
  split
  · exact place_sorted (hs s) _
  · exact hs s

theorem cancel_sorted (hs : Sorted L) (id : OrderId) : Sorted (Ladder.cancel L id) :=
  fun s => (hs s).sublist List.filter_sublist

/-- An order that is taken out again need not have come. -/
theorem without_join (hs : Sorted L) (o : NewOrder) (ids : List OrderId) :
    without (join L o) ids = if o.1.id ∈ ids then without L ids else join (without L ids) o := by
  by_cases ho : o.1.id ∈ ids
  · rw [if_pos ho]
    funext s
    rw [without, without, join]
    split
    · cases hr : rested o.1 o.1.remaining with
      | none => rfl
      | some x => exact filter_orderedInsert_self (by simp [rested_id hr, ho]) _
    · rfl
  · rw [if_neg ho]
    funext s
    rw [without, join, join]
    split
    · apply place_filter (hs s)
      intro y hy
      rw [rested_id hy]
      exact decide_eq_true ho
    · rfl

/-! ## Runs -/

theorem standing_add (hs : Sorted L) (o : NewOrder) (cs : List Call) :
    standing L (.add (some o) :: cs) = standing (join L o) cs := by
  rw [standing, standing, without_join hs, survivors]
  change (if o.1.id ∈ cancelIds cs then _ else _ : List NewOrder).foldl join
    (without L (cancelIds cs)) = _
  split <;> rfl

theorem standing_cancel (L : Ladder) (id : OrderId) (cs : List Call) :
    standing L (.cancel id :: cs) = standing (Ladder.cancel L id) cs := by
  have hids : without L (cancelIds (.cancel id :: cs)) =
      without (Ladder.cancel L id) (cancelIds cs) := by
    funext s
    change (L s).filter (fun x => x.order.id ∉ id :: cancelIds cs) =
      ((L s).filter fun x => x.order.id ≠ id).filter fun x => x.order.id ∉ cancelIds cs
    rw [List.filter_filter]
    apply List.filter_congr
    intro x _
    simp [Bool.and_comm]
  rw [standing, hids]
  rfl

theorem standing_nil (L : Ladder) : standing L [] = L := by
  funext s
  exact List.filter_eq_self.mpr fun _ _ => rfl

theorem mem_standing {s : Side} {x : RestingOrder} : x ∈ standing L cs s ↔
    (x ∈ L s ∧ x.order.id ∉ cancelIds cs) ∨
      ∃ o ∈ survivors cs, s = o.1.side ∧ rested o.1 o.1.remaining = some x := by
  have hfold : ∀ (os : List NewOrder) (L : Ladder), x ∈ os.foldl join L s ↔
      x ∈ L s ∨ ∃ o ∈ os, s = o.1.side ∧ rested o.1 o.1.remaining = some x := by
    intro os
    induction os with
    | nil => simp
    | cons o os ih =>
      intro L
      rw [List.foldl_cons, ih, join]
      by_cases hside : s = o.1.side
      · simp [hside, mem_place, or_assoc, or_left_comm]
      · simp [hside]
  rw [standing, hfold, without, List.mem_filter, decide_eq_true_iff]

/-- From empty queues nothing is left exactly when every limit order is cancelled again. -/
theorem standing_nothing_iff :
    standing (fun _ => []) cs = (fun _ => []) ↔ ∀ o ∈ survivors cs, o.1.price = none := by
  constructor
  · intro h o ho
    cases hp : o.1.price with
    | none => rfl
    | some p =>
      have hrests : rested o.1 o.1.remaining = some ⟨p, resident o.1 o.1.remaining⟩ := by
        rw [rested, hp]
        exact if_neg o.2.remaining_pos.ne'
      have hx : _ ∈ standing (fun _ => []) cs o.1.side :=
        mem_standing.mpr (.inr ⟨o, ho, rfl, hrests⟩)
      rw [h] at hx
      cases hx
  · intro h
    funext s
    apply List.eq_nil_iff_forall_not_mem.mpr
    intro x hx
    rcases mem_standing.mp hx with ⟨hx, _⟩ | ⟨o, ho, _, hrests⟩
    · cases hx
    · have hlimit := (rested_eq_some hrests).2.1
      rw [h o ho] at hlimit
      cases hlimit

theorem untraded_cons {L' : Ladder} {c : Call}
    (h : ∀ before, standing L (c :: before) = standing L' before) :
    Untraded L (c :: cs) ↔
      (∀ o, c = .add (some o) → Ladder.trades L o.1 = []) ∧ Untraded L' cs := by
  constructor
  · intro hu
    constructor
    · rintro o rfl
      have hfirst := hu [] o cs rfl
      rw [standing_nil] at hfirst
      exact trades_nil_iff.mpr hfirst
    · intro before o after hsplit
      have hlater := hu (c :: before) o after (congrArg (c :: ·) hsplit)
      rwa [h] at hlater
  · rintro ⟨hc, hu⟩ before o after hsplit
    cases before with
    | nil =>
      obtain ⟨rfl, rfl⟩ := List.cons.inj hsplit
      rw [standing_nil]
      exact trades_nil_iff.mp (hc o rfl)
    | cons c' before =>
      obtain ⟨hhead, htail⟩ := List.cons.inj hsplit
      rw [← hhead, h]
      exact hu before o after htail

/-- Of a run without an error: whether it trades can be told from what stands at each call,
and so can what it leaves when it does not. -/
theorem untraded_run (hs : Sorted L) (hok : ∀ a ∈ Ladder.answers L cs, ∃ x, a = .ok x) :
    ((Ladder.answers L cs).flatMap tradesIn = [] ↔ Untraded L cs) ∧
      (Untraded L cs → cs.foldl Ladder.next L = standing L cs) := by
  induction cs generalizing L with
  | nil =>
    refine ⟨⟨fun _ before o after hsplit => ?_, fun _ => rfl⟩, fun _ => (standing_nil L).symm⟩
    exact absurd hsplit.symm (List.append_ne_nil_of_right_ne_nil _ (List.cons_ne_nil _ _))
  | cons c cs ih =>
    have hfirst : ∃ x, Ladder.answer L c = .ok x := hok _ List.mem_cons_self
    have hrest : ∀ a ∈ Ladder.answers (Ladder.next L c) cs, ∃ x, a = .ok x :=
      fun a ha => hok a (List.mem_cons_of_mem _ ha)
    rw [Ladder.answers, List.flatMap_cons, List.append_eq_nil_iff, List.foldl_cons]
    cases c with
    | cancel id =>
      obtain ⟨htrades, hleft⟩ := ih (cancel_sorted hs id) hrest
      rw [untraded_cons (standing_cancel L id), standing_cancel]
      have hnone : ∀ o, Call.cancel id = .add (some o) → Ladder.trades L o.1 = [] := by
        intro o hc
        cases hc
      exact ⟨and_congr ⟨fun _ => hnone, fun _ => rfl⟩ htrades, fun hu => hleft hu.2⟩
    | add order =>
      cases order with
      | none =>
        obtain ⟨x, hx⟩ := hfirst
        cases hx
      | some o =>
        cases hheld : Ladder.holds L o.1.id with
        | true =>
          obtain ⟨x, hx⟩ := hfirst
          rw [Ladder.answer, hheld] at hx
          cases hx
        | false =>
          have hanswer : tradesIn (Ladder.answer L (.add (some o))) = Ladder.trades L o.1 := by
            rw [Ladder.answer, hheld]
            rfl
          rw [untraded_cons (standing_add hs o), standing_add hs, hanswer]
          by_cases htrade : Ladder.trades L o.1 = []
          · have hnext := next_untraded hheld htrade
            rw [hnext] at hrest ⊢
            obtain ⟨htrades, hleft⟩ := ih (join_sorted hs o) hrest
            refine ⟨and_congr ⟨?_, fun hall => hall o rfl⟩ htrades, fun hu => hleft hu.2⟩
            rintro _ o' ⟨⟩
            exact htrade
          · -- The first trade settles both sides.
            refine ⟨⟨fun hnone => absurd hnone.1 htrade, fun hu => ?_⟩, fun hu => ?_⟩
            · exact absurd (hu.1 o rfl) htrade
            · exact absurd (hu.1 o rfl) htrade

end UntradedRuns
