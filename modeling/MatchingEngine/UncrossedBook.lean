import MatchingEngine.BookRuns

/-! # The book is never crossed or locked -/
namespace UncrossedBook

open EngineTypes
open Orders
open OrderBook
open PriceTimeBook
open BookInvariant
open BookRefinement
open BookRuns

def Uncrossed (L : Ladder) : Prop := ∀ x ∈ L .buy, ∀ y ∈ L .sell, x.price < y.price

/-- Seen from either side, the other side's prices are worse than out of reach. -/
theorem uncrossed_iff (L : Ladder) (s : Side) :
    Uncrossed L ↔ ∀ x ∈ L s, ∀ y ∈ L s.opposite, better s.opposite x.price y.price := by
  cases s with
  | buy => exact Iff.rfl
  | sell => exact ⟨fun h x hx y hy => h y hy x hx, fun h x hx y hy => h y hy x hx⟩

variable {b b' : Book} {o : Order}

theorem refused {x : RestingOrder} (h : accepts o x = false) :
    ∃ limit, o.price = some limit ∧ better o.side.opposite limit x.price := by
  rw [accepts] at h
  cases hp : o.price with
  | none => simp [hp] at h
  | some limit =>
    refine ⟨limit, rfl, ?_⟩
    cases hs : o.side <;> simpa [hp, hs, better, Side.opposite] using h

/-- Where the sweep stopped short, nothing that is left is within the taker's limit. -/
theorem beyond_limit (h : Invariant b) {limit : LimitPrice} (hp : o.price = some limit)
    {y : RestingOrder} (hy : y ∈ (resting b o.side.opposite).dropWhile (accepts o)) :
    better o.side.opposite limit y.price := by
  have hsorted := (resting_sorted h o.side.opposite).sublist
    (List.dropWhile_suffix (accepts o)).sublist
  cases hd : (resting b o.side.opposite).dropWhile (accepts o) with
  | nil => simp [hd] at hy
  | cons x xs =>
    have hfirst : accepts o x = false := by
      have := List.head?_dropWhile_not (accepts o) (resting b o.side.opposite)
      simpa [hd] using this
    obtain ⟨limit', hp', hlt⟩ := refused hfirst
    cases hp.symm.trans hp'
    rw [hd] at hy hsorted
    rcases List.mem_cons.mp hy with rfl | hy
    · exact hlt
    · rcases (List.pairwise_cons.mp hsorted).1 y hy with heq | hworse
      · exact heq ▸ hlt
      · exact IsTrans.trans _ _ _ hlt hworse

theorem uncrossed_add (h : Invariant b) (hv : o.Valid) (hfree : b.ownedOrders o.id = none)
    (hu : Uncrossed (resting b)) :
    Uncrossed (Ladder.add (resting b) o) := by
  rw [uncrossed_iff _ o.side] at hu ⊢
  intro x hx y hy
  rw [add_own] at hx
  rw [add_opposite] at hy
  rcases mem_place.mp hx with hr | hx
  · -- The taker rests because the sweep has stopped at its limit.
    obtain ⟨_, hp, hleft⟩ := rested_eq_some hr
    have hnonneg := (leftover_bounds h hv hfree).1
    have hdrop : (sweepOf (resting b) o).2 = (resting b o.side.opposite).dropWhile (accepts o) :=
      Allocation.sweep_stop (by unfold leftover sweepOf at hleft hnonneg; omega)
    rw [hdrop] at hy
    exact beyond_limit h hp hy
  · obtain ⟨z, hz, hprice⟩ := swept_price hy
    exact hprice ▸ hu x hx z hz

theorem uncrossed_step (h : Invariant b) (hu : Uncrossed (resting b)) (c : Call) :
    Uncrossed (resting (step b c)) := by
  obtain ⟨hstep, _⟩ := step_cases h c
  generalize step b c = b' at hstep
  generalize returned ((perform c).run b) = ts at hstep
  cases hstep with
  | null => exact hu
  | rejected => exact hu
  | added o _ hfree hadd =>
    rw [hadd]
    exact uncrossed_add h o.2 hfree hu
  | cancelled id _ hcancel =>
    rw [hcancel]
    exact fun x hx y hy => hu x (List.mem_of_mem_filter hx) y (List.mem_of_mem_filter hy)

theorem uncrossed_run (calls : List Call) : Uncrossed (resting (run emptyBook calls)) := by
  induction calls using List.reverseRecOn with
  | nil =>
    intro x hx
    cases hx
  | append_singleton calls c ih =>
    rw [run_concat]
    exact uncrossed_step (run_invariant calls) ih c

/-- The two best prices of an uncrossed book. -/
theorem bestBid_lt_bestAsk (h : Invariant b) (hu : Uncrossed (resting b)) {bid ask : LimitPrice}
    (hbid : getBestBid b = some bid) (hask : getBestAsk b = some ask) : bid < ask := by
  have hb := (begin?_price_iff h .buy bid).mp hbid
  have ha := (begin?_price_iff h .sell ask).mp hask
  obtain ⟨x, hx, rfl⟩ := hb.1
  obtain ⟨y, hy, rfl⟩ := ha.1
  exact hu x hx y hy

end UncrossedBook
