import MatchingEngine.CancelHistory

/-! # Which ids `addOrder` rejects

`addOrder` looks an id up in `ownedOrders_`, `cancelOrder` in `orderLocation_`. They agree
after every run, and an id is free again however its order left. -/
namespace IdReuse

open EngineTypes
open Orders
open OrderBook
open PriceTimeBook
open BookInvariant
open BookRefinement
open BookRuns
open LadderRuns
open PriceTimePriority
open ShareConservation
open CancelHistory

/-- How the order accepted at position `i` has left the book, or never came to rest in it. -/
inductive Left (calls : List Call) (id : OrderId) (i : ℕ) (o : NewOrder) : Prop
  /-- As a taker, as a maker, or as both in turn. -/
  | filled (h : tradedSince calls id i = o.1.quantity.toInt)
  | cancelled (j : ℕ) (hj : i < j) (h : CancelledAt calls j id)
  /-- A market order never waits. -/
  | dropped (h : o.1.getOrderKind = .market)

variable {calls : List Call} {id : OrderId} {i : ℕ} {o : NewOrder}

/-- An order that has left is not outstanding. -/
theorem free_of_left (harrived : ArrivedAt calls id i) (hcall : calls[i]? = some (.add (some o)))
    (hleft : Left calls id i o) : Ladder.holds (resting (run emptyBook calls)) id = false := by
  rw [Bool.eq_false_iff, ne_eq, holds_iff_outstanding]
  rintro ⟨i', o', hstanding, hless⟩
  cases arrivedAt_unique hstanding.arrived harrived
  cases hstanding.call.symm.trans hcall
  cases hleft with
  | filled h => omega
  | cancelled j hj h => exact hstanding.kept j hj h
  | dropped h =>
    rw [hstanding.limit] at h
    cases h

theorem addOrder_free {b : Book} (h : Invariant b) (o : NewOrder)
    (hfree : Ladder.holds (resting b) o.1.id = false) :
    ∃ ts b', (addOrder (some o.1)).run b = .ok ts b' := by
  obtain ⟨b', hrun, _⟩ := addOrder_refines h o.2 ((not_holds_iff h).mp hfree)
  exact ⟨_, b', hrun⟩

theorem addOrder_held {b : Book} (h : Invariant b) (o : NewOrder)
    (hheld : Ladder.holds (resting b) o.1.id = true) : (addOrder (some o.1)).run b =
      .error (.invalidArgument "Order ID is already active") b :=
  addOrder_rejected (isSome_owned_eq_holds h _ ▸ hheld)

/-- `addOrder` throws exactly when the id could be cancelled, changes nothing when it throws, and
takes the id of every order that has left. -/
theorem rejects_resting_ids (calls : List Call) (o : NewOrder) :
    let b := run emptyBook calls
    ((∃ f b', (addOrder (some o.1)).run b = .error f b') ↔
      ∃ b', (cancelOrder o.1.id).run b = .ok true b') ∧
    (∀ f b', (addOrder (some o.1)).run b = .error f b' →
      f = .invalidArgument "Order ID is already active" ∧ b' = b) ∧
    ∀ i p, ArrivedAt calls o.1.id i → calls[i]? = some (.add (some p)) → Left calls o.1.id i p →
      ∃ ts b', (addOrder (some o.1)).run b = .ok ts b' := by
  intro b
  have h : Invariant b := run_invariant calls
  obtain ⟨b₁, hcancel, _⟩ := cancelOrder_refines h o.1.id
  rw [isSome_owned_eq_holds h] at hcancel
  refine ⟨?_, ?_, ?_⟩
  · cases hheld : Ladder.holds (resting b) o.1.id with
    | true =>
      rw [hheld] at hcancel
      exact ⟨fun _ => ⟨b₁, hcancel⟩, fun _ => ⟨_, b, addOrder_held h o hheld⟩⟩
    | false =>
      obtain ⟨ts, b', hrun⟩ := addOrder_free h o hheld
      rw [hheld] at hcancel
      constructor
      · rintro ⟨f, b'', herror⟩
        rw [hrun] at herror
        cases herror
      · rintro ⟨b'', htrue⟩
        rw [hcancel] at htrue
        cases htrue
  · intro f b' herror
    cases hheld : Ladder.holds (resting b) o.1.id with
    | true =>
      rw [addOrder_held h o hheld] at herror
      cases herror
      exact ⟨rfl, rfl⟩
    | false =>
      obtain ⟨ts, b'', hrun⟩ := addOrder_free h o hheld
      rw [hrun] at herror
      cases herror
  · intro i p harrived hcall hleft
    exact addOrder_free h o (free_of_left harrived hcall hleft)

end IdReuse
