import Mathlib.Data.Finset.Card
import Mathlib.Data.List.TFAE
import Mathlib.Tactic.TFAE
import MatchingEngine.Relabelling

/-! # What of a book can be seen

Calls tell all that a book shows, and nothing else: not the trader of a resting order, not the
quantity that was ordered, not the status. -/
namespace Observable

open EngineTypes
open Orders
open OrderBook
open PriceTimeBook
open BookInvariant
open BookRefinement
open BookRuns
open LadderRuns
open MirrorImage
open Relabelling

/-! ## Lists known from their pairs -/

/-- A list is determined by which of any two of its elements comes first. -/
theorem eq_of_first {α κ : Type*} [DecidableEq κ] {key : α → κ} {as bs : List α}
    (ha : (as.map key).Nodup) (hb : (bs.map key).Nodup)
    (h : ∀ x ∈ as ++ bs, ∀ y ∈ as ++ bs,
      (as.filter fun z => key z = key x ∨ key z = key y).head? =
        (bs.filter fun z => key z = key x ∨ key z = key y).head?) : as = bs := by
  induction as generalizing bs with
  | nil =>
    cases bs with
    | nil => rfl
    | cons b bs => simpa using h b (by simp) b (by simp)
  | cons a as ih =>
    cases bs with
    | nil => simpa using h a (by simp) a (by simp)
    | cons b bs =>
      obtain rfl : a = b := by
        have hfirst := h a (by simp) b (by simp)
        simpa using hfirst
      rw [List.map_cons, List.nodup_cons] at ha hb
      -- a pair from the two tails skips the first element
      have hother : ∀ x ∈ as ++ bs, key a ≠ key x := by
        intro x hx he
        rcases List.mem_append.mp hx with hx | hx
        · exact ha.1 (he ▸ List.mem_map_of_mem hx)
        · exact hb.1 (he ▸ List.mem_map_of_mem hx)
      have hwider : ∀ x ∈ as ++ bs, x ∈ a :: as ++ a :: bs := by
        intro x hx
        rcases List.mem_append.mp hx with hx | hx <;> simp [hx]
      refine congrArg (a :: ·) (ih ha.2 hb.2 fun x hx y hy => ?_)
      have hpair := h x (hwider x hx) y (hwider y hy)
      simpa [hother x hx, hother y hy] using hpair

/-! ## Nothing else is told -/

theorem relabelCall_id (c : Call) : relabelCall id id id c = c := by
  have horder : ∀ o : Order, relabelOrder id id id o = o := by
    intro o
    rw [relabelOrder, Option.map_id]
    rfl
  cases c with
  | cancel id => rfl
  | add order =>
    cases order with
    | none => rfl
    | some o => exact congrArg (fun o => Call.add (some o)) (Subtype.ext (horder o.1))

theorem relabelAnswer_id (a : Answer) : relabelAnswer id id a = a := by
  cases a with
  | cancelled found => rfl
  | trades ts => exact congrArg Answer.trades (List.map_id ts)

/-- What shows the same goes on showing and answering the same: it is its own relabelling. -/
theorem run_alike {L L' : Ladder} (h : shownIn L = shownIn L') (calls : List Call) :
    Ladder.answers L calls = Ladder.answers L' calls ∧
      shownIn (calls.foldl Ladder.next L) = shownIn (calls.foldl Ladder.next L') := by
  have hsame : Relabelled id id L L' := by
    intro s
    rw [h]
    exact (List.map_id _).symm
  have hwithin : Within Set.univ L := fun _ _ _ => trivial
  have hpriced : ∀ c ∈ calls, Priced Set.univ c := by
    intro c _
    rcases c with (_ | o) | id
    · exact trivial
    · exact fun _ _ => trivial
    · exact trivial
  obtain ⟨hanswers, hrun⟩ := run_relabel (τ := id) Function.injective_id strictMonoOn_id hwithin
    hsame hpriced
  have hcalls : calls.map (relabelCall id id id) = calls :=
    (List.map_congr_left fun c _ => relabelCall_id c).trans (List.map_id calls)
  rw [hcalls] at hanswers hrun
  refine ⟨?_, funext fun s => ?_⟩
  · rw [hanswers]
    refine (List.map_congr_left fun r _ => ?_).trans (List.map_id _) |>.symm
    cases r with
    | error e => rfl
    | ok a => exact congrArg Except.ok (relabelAnswer_id a)
  · rw [hrun s]
    exact (List.map_id _).symm

/-! ## Telling two books apart -/

/-- The largest market order, against `s`. -/
def sweeper (id : OrderId) (s : Side) : NewOrder := .market id 0 s.opposite 2147483647 (by decide)

theorem size_le_sweeper (x : RestingOrder) : x.size ≤ 2147483647 := by
  have := x.order.remainingQty.toInt_lt
  rw [RestingOrder.size, Order.remaining]
  omega

/-- It trades with the first of the queue, and the trade tells all that is shown of it. -/
theorem first_of_trades {L L' : Ladder} {id : OrderId} {s : Side}
    (h : Ladder.trades L (sweeper id s).1 = Ladder.trades L' (sweeper id s).1) :
    (shownIn L s).head? = (shownIn L' s).head? := by
  have hhead : ∀ L : Ladder, (Ladder.trades L (sweeper id s).1).head? =
      (L s).head?.map fun x => tradeOf (sweeper id s).1 (x, x.size) := by
    intro L
    have hside : (sweeper id s).1.side.opposite = s := by cases s <;> rfl
    have hall : (sweeper id s).1.remaining = 2147483647 :=
      (by decide : (2147483647 : Int32).toInt = 2147483647)
    rw [Ladder.trades, sweepOf, hside, hall]
    cases L s with
    | nil => rfl
    | cons x queue =>
      have hgo : 0 < (2147483647 : ℤ) ∧ accepts (sweeper id s).1 x = true := ⟨by omega, rfl⟩
      rw [Allocation.sweep, if_pos hgo, if_pos (size_le_sweeper x)]
      rfl
  have htell : ∀ x y : RestingOrder,
      tradeOf (sweeper id s).1 (x, x.size) = tradeOf (sweeper id s).1 (y, y.size) →
        shown x = shown y := by
    intro x y he
    cases s
    all_goals
      simp only [tradeOf, sweeper, NewOrder.market, Side.opposite, RestingOrder.size,
        Order.remaining, Int32.ofInt_toInt, Trade.mk.injEq, true_and] at he
      rw [shown, shown, he.1, he.2.1, he.2.2]
  have hfirst := congrArg List.head? h
  rw [hhead L, hhead L'] at hfirst
  rw [shownIn, shownIn, List.head?_map, List.head?_map]
  cases hx : (L s).head? with
  | none =>
    cases hy : (L' s).head? with
    | none => rfl
    | some y => simp [hx, hy] at hfirst
  | some x =>
    cases hy : (L' s).head? with
    | none => simp [hx, hy] at hfirst
    | some y =>
      simp only [hx, hy, Option.map_some, Option.some.injEq] at hfirst
      exact congrArg some (htell x y hfirst)

/-- Some id is neither of two. -/
theorem exists_other (i j : OrderId) : ∃ id : OrderId, id ≠ i ∧ id ≠ j := by
  have hcard : ({i, j} : Finset OrderId).card < ({0, 1, 2} : Finset OrderId).card :=
    Finset.card_le_two.trans_lt (by decide)
  obtain ⟨id, _, hid⟩ := Finset.exists_mem_notMem_of_card_lt_card hcard
  exact ⟨id, by simpa using hid⟩

/-- What is left of a ladder when all but two ids are cancelled. -/
def kept (L : Ladder) (i j : OrderId) : Ladder := fun s =>
  (L s).filter fun x => x.order.id = i ∨ x.order.id = j

theorem shownIn_kept (L : Ladder) (i j : OrderId) (s : Side) :
    shownIn (kept L i j) s = (shownIn L s).filter fun x => x.id = i ∨ x.id = j := by
  rw [shownIn, shownIn, kept, List.filter_map]
  rfl

theorem not_holds_kept {L : Ladder} {i j id : OrderId} (h : id ≠ i ∧ id ≠ j) :
    Ladder.holds (kept L i j) id = false := by
  rw [Bool.eq_false_iff, ne_eq, holds_iff]
  rintro ⟨s, x, hx, rfl⟩
  have hij := List.of_mem_filter hx
  simp [h.1, h.2] at hij

/-- The ids of two books, but for two of them. -/
def others (b b' : Book) (i j : OrderId) : List OrderId :=
  ((resting b .buy ++ resting b .sell ++ resting b' .buy ++ resting b' .sell).map
    fun x => x.order.id).filter fun id => ¬ (id = i ∨ id = j)

/-- The books give the same answers when some orders are cancelled and then a market order comes. -/
def AgreeOnProbes (b b' : Book) : Prop :=
  ∀ (ids : List OrderId) (o : NewOrder), o.1.price = none →
    answers b (ids.map .cancel ++ [.add (some o)]) = answers b' (ids.map .cancel ++ [.add (some o)])

section Probes

variable {b b' : Book}

theorem cancel_others (h : Invariant b) {ids : List OrderId} {i j : OrderId}
    (hids : ∀ s, ∀ x ∈ resting b s, x.order.id ∈ ids ↔ ¬ (x.order.id = i ∨ x.order.id = j)) :
    resting (run b (ids.map .cancel)) = kept (resting b) i j := by
  funext s
  rw [(run_refines h _).2, cancels_filter, kept]
  apply List.filter_congr
  intro x hx
  simp [hids s x hx]

/-- With all but two ids cancelled, the books show the same order first. -/
theorem first_of_probes (h : Invariant b) (h' : Invariant b') (hsame : AgreeOnProbes b b')
    (s : Side) (i j : OrderId) :
    ((display b s).filter fun x => x.id = i ∨ x.id = j).head? =
      ((display b' s).filter fun x => x.id = i ∨ x.id = j).head? := by
  obtain ⟨id, hid⟩ := exists_other i j
  have hmem : ∀ x ∈ resting b .buy ++ resting b .sell ++ resting b' .buy ++ resting b' .sell,
      x.order.id ∈ others b b' i j ↔ ¬ (x.order.id = i ∨ x.order.id = j) := by
    intro x hx
    have hin := List.mem_map_of_mem (f := fun x : RestingOrder => x.order.id) hx
    rw [others, List.mem_filter]
    exact ⟨fun hx => by simpa using hx.2, fun hij => ⟨hin, by simpa using hij⟩⟩
  have hleft : resting (run b ((others b b' i j).map .cancel)) = kept (resting b) i j :=
    cancel_others h fun s x hx => hmem x (by cases s <;> simp [hx])
  have hleft' : resting (run b' ((others b b' i j).map .cancel)) = kept (resting b') i j :=
    cancel_others h' fun s x hx => hmem x (by cases s <;> simp [hx])
  have hanswers := hsame (others b b' i j) (sweeper id s) rfl
  rw [answers_append, answers_append] at hanswers
  have hlast := (List.append_inj hanswers (by simp)).2
  simp only [answers, answer_eq (invariant_run h _), answer_eq (invariant_run h' _), hleft, hleft',
    List.cons.injEq, and_true] at hlast
  have hnew : (sweeper id s).1.id = id := rfl
  simp only [Ladder.answer, hnew, not_holds_kept hid, Bool.false_eq_true, if_false, Except.ok.injEq,
    Answer.trades.injEq] at hlast
  have hfirst := first_of_trades hlast
  rwa [shownIn_kept, shownIn_kept] at hfirst

theorem display_eq_of_probes (h : Invariant b) (h' : Invariant b') (hsame : AgreeOnProbes b b') :
    display b = display b' := by
  have hnodup : ∀ {b : Book}, Invariant b → ∀ s, ((display b s).map Shown.id).Nodup := by
    intro b h s
    rw [display, shownIn, List.map_map]
    exact h.resting_nodup s
  funext s
  exact eq_of_first (hnodup h s) (hnodup h' s) fun x _ y _ => first_of_probes h h' hsame s x.id y.id

theorem best_of_display (h : Invariant b) (s : Side) :
    (b.levels s).begin?.map Prod.fst = (display b s).head?.map Shown.price := by
  rw [begin?_eq_head h, display, shownIn, List.head?_map, Option.map_map]
  rfl

/-- What a book shows decides everything that later calls can tell. -/
theorem display_decides (h : Invariant b) (h' : Invariant b') (hd : display b = display b')
    (later : List Call) :
    answers b later = answers b' later ∧ display (run b later) = display (run b' later) ∧
      getBestBid (run b later) = getBestBid (run b' later) ∧
        getBestAsk (run b later) = getBestAsk (run b' later) := by
  obtain ⟨hanswers, hrun⟩ := run_alike hd later
  have hdisplay : display (run b later) = display (run b' later) := by
    rw [display, display, (run_refines h later).2, (run_refines h' later).2]
    exact hrun
  refine ⟨?_, hdisplay, ?_, ?_⟩
  · rw [(run_refines h later).1, (run_refines h' later).1, hanswers]
  · have hbest := best_of_display (invariant_run h later) .buy
    rw [hdisplay, ← best_of_display (invariant_run h' later) .buy] at hbest
    exact hbest
  · have hbest := best_of_display (invariant_run h later) .sell
    rw [hdisplay, ← best_of_display (invariant_run h' later) .sell] at hbest
    exact hbest

end Probes

/-- Two books that calls lead to answer all later calls alike if and only if they show the same, and
then they go on showing the same. It is enough to cancel some orders and send one market order. -/
theorem observable_tfae (calls calls' : List Call) :
    [∀ later, answers (run emptyBook calls) later = answers (run emptyBook calls') later,
      AgreeOnProbes (run emptyBook calls) (run emptyBook calls'),
      display (run emptyBook calls) = display (run emptyBook calls'),
      ∀ later, answers (run emptyBook calls) later = answers (run emptyBook calls') later ∧
        display (run emptyBook (calls ++ later)) = display (run emptyBook (calls' ++ later)) ∧
        getBestBid (run emptyBook (calls ++ later)) = getBestBid (run emptyBook (calls' ++ later)) ∧
        getBestAsk (run emptyBook (calls ++ later)) =
          getBestAsk (run emptyBook (calls' ++ later))].TFAE := by
  have h := run_invariant calls
  have h' := run_invariant calls'
  tfae_have 1 → 2 := fun hsame ids o _ => hsame _
  tfae_have 2 → 3 := display_eq_of_probes h h'
  tfae_have 3 → 4 := by
    intro hd later
    rw [run_append, run_append]
    exact display_decides h h' hd later
  tfae_have 4 → 1 := fun hall later => (hall later).1
  tfae_finish

end Observable
