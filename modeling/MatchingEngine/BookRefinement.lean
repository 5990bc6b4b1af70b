import MatchingEngine.MatchingPass

/-! # The book refines the price-time book

Each public operation returns what the price-time book says, leaves its queues, and
keeps the representation invariant. -/
namespace BookRefinement

open EngineTypes
open Orders
open OrderedMap
open OrderBook
open PriceTimeBook
open BookInvariant
open MatchingPass

variable {b : Book} {o : Order} {id : OrderId}

/-! ## The matching loop -/

/-- The taker with `left` shares still to be traded. -/
def leaving (taker : Order) (left : ℤ) : Order := { taker with remainingQty := Int32.ofInt left }

/-- The book while `taker` is matched: `left` of its shares are still to be traded. -/
structure Matching (b : Book) (taker : Order) (left : ℤ) : Prop where
  invariant : InvariantWith (some taker.id) b
  nonneg : 0 ≤ left
  within : left ≤ taker.remaining
  owned : b.ownedOrders taker.id = some (leaving taker left)

namespace Matching

variable {taker : Order} {left : ℤ} {x : RestingOrder} {xs : List RestingOrder}

theorem toInt_left (h : Matching b taker left) : (Int32.ofInt left).toInt = left :=
  toInt_ofInt_of_le h.nonneg h.within

theorem remaining_leaving (h : Matching b taker left) : (leaving taker left).remaining = left :=
  h.toInt_left

/-- A trading pass with `x` ends with what `x` could not take. -/
theorem pass (h : Matching b taker left) (hr : resting b taker.side.opposite = x :: xs)
    (h0 : 0 < left) (ha : accepts taker x = true) :
    ∃ b', (matchOnce (branch taker.side) taker.id).run b =
        .ok (some (tradeOf taker (x, min x.size left))) b' ∧
      Matching b' taker (left - min x.size left) ∧
      resting b' taker.side.opposite = (if x.size ≤ left then xs else x.fill left :: xs) ∧
      resting b' taker.side = resting b taker.side := by
  have hio := h.remaining_leaving
  have hx : x ∈ resting b taker.side.opposite := by rw [hr]; simp
  have hsize : 0 < x.size := (h.invariant.placed_of_resting hx).positive
  have hwithin := h.within
  obtain ⟨b', hrun, hpass⟩ := matchOnce_trade h.invariant h.owned hr
    (by rw [hio]; exact h0) ha
  have hopp := hpass.opposite
  have htaker := hpass.taker
  rw [hio] at hrun hopp
  refine ⟨b', hrun, ⟨hpass.invariant, by omega, by omega, ?_⟩, hopp, hpass.own⟩
  rw [htaker]
  have hq : (tradeQty (leaving taker left) x.order).toInt = min x.size left := by
    rw [toInt_tradeQty, hio, min_comm]
    rfl
  have hsub : Int32.ofInt left - tradeQty (leaving taker left) x.order =
      Int32.ofInt (left - min x.size left) := by
    rw [← hq, Int32.ofInt_sub, Int32.ofInt_toInt]
  exact congrArg (fun q => some { taker with remainingQty := q }) hsub

theorem stop (h : Matching b taker left)
    (hs : left = 0 ∨ resting b taker.side.opposite = [] ∨
      ∃ x xs, resting b taker.side.opposite = x :: xs ∧ accepts taker x = false) :
    (matchOnce (branch taker.side) taker.id).run b = .ok none b := by
  rcases hs with h0 | hnil | ⟨x, xs, hr, ha⟩
  · have hio := h.remaining_leaving
    have hrun := matchOnce_exhausted h.owned (by omega)
    exact hrun
  · have hrun := matchOnce_empty h.invariant h.owned hnil
    exact hrun
  · have hrun := matchOnce_refused h.invariant h.owned hr ha
    exact hrun

end Matching

theorem matchLoop_stop {br : Branch} {incoming : OrderId} (fuel : ℕ)
    (h : (matchOnce br incoming).run b = .ok none b) :
    (matchLoop br incoming (fuel + 1)).run b = .ok [] b := by
  rw [matchLoop, bind_ok h]
  rfl

theorem matchLoop_pass {br : Branch} {incoming : OrderId} {fuel : ℕ} {t : Trade}
    {ts : List Trade} {b₁ b' : Book} (h : (matchOnce br incoming).run b = .ok (some t) b₁)
    (hrest : (matchLoop br incoming fuel).run b₁ = .ok ts b') :
    (matchLoop br incoming (fuel + 1)).run b = .ok (t :: ts) b' := by
  rw [matchLoop, bind_ok h]
  simp only
  rw [bind_ok hrest]
  rfl

/-- The loop sweeps the opposite queue. -/
theorem matchLoop_sweep {taker : Order} (queue : List RestingOrder) :
    ∀ {b : Book} {left : ℤ} {fuel : ℕ}, Matching b taker left →
      resting b taker.side.opposite = queue → queue.length < fuel →
      ∃ b', (matchLoop (branch taker.side) taker.id fuel).run b =
          .ok ((Allocation.sweep RestingOrder.size (accepts taker) RestingOrder.fill left
            queue).1.map (tradeOf taker)) b' ∧
        Matching b' taker (left - ((Allocation.sweep RestingOrder.size (accepts taker)
          RestingOrder.fill left queue).1.map Prod.snd).sum) ∧
        resting b' taker.side.opposite = (Allocation.sweep RestingOrder.size (accepts taker)
          RestingOrder.fill left queue).2 ∧
        resting b' taker.side = resting b taker.side := by
  induction queue with
  | nil =>
    intro b left fuel hm hr hfuel
    obtain ⟨fuel, rfl⟩ := Nat.exists_eq_add_of_lt hfuel
    refine ⟨b, ?_, by simpa [Allocation.sweep] using hm, by simpa [Allocation.sweep] using hr, rfl⟩
    simpa [Allocation.sweep] using matchLoop_stop _ (hm.stop (Or.inr (Or.inl hr)))
  | cons x xs ih =>
    intro b left fuel hm hr hfuel
    obtain ⟨fuel, rfl⟩ : ∃ n, fuel = n + 1 := ⟨fuel - 1, by omega⟩
    have hxs : xs.length < fuel := by simpa using hfuel
    by_cases hgo : 0 < left ∧ accepts taker x = true
    · obtain ⟨h0, ha⟩ := hgo
      obtain ⟨b₁, hrun, hm₁, hopp, hown⟩ := hm.pass hr h0 ha
      by_cases hd : x.size ≤ left
      · rw [if_pos hd] at hopp
        rw [min_eq_left hd] at hrun hm₁
        obtain ⟨b', hrun', hm', hopp', hown'⟩ := ih hm₁ hopp hxs
        refine ⟨b', ?_, ?_, ?_, hown'.trans hown⟩
        · simpa [Allocation.sweep, h0, ha, hd] using matchLoop_pass hrun hrun'
        · simpa [Allocation.sweep, h0, ha, hd, sub_sub] using hm'
        · simpa [Allocation.sweep, h0, ha, hd] using hopp'
      · rw [if_neg hd] at hopp
        rw [min_eq_right (not_le.mp hd).le] at hrun hm₁
        -- The taker is used up, so the next pass leaves the loop.
        obtain ⟨fuel, rfl⟩ : ∃ n, fuel = n + 1 := ⟨fuel - 1, by omega⟩
        have hstop := matchLoop_stop fuel (hm₁.stop (Or.inl (sub_self left)))
        refine ⟨b₁, ?_, ?_, ?_, hown⟩
        · simpa [Allocation.sweep, h0, ha, hd] using matchLoop_pass hrun hstop
        · simpa [Allocation.sweep, h0, ha, hd] using hm₁
        · simpa [Allocation.sweep, h0, ha, hd] using hopp
    · have hstop := hm.stop (by
        by_cases h0 : 0 < left
        · exact Or.inr (Or.inr ⟨x, xs, hr, by simpa [h0] using hgo⟩)
        · exact Or.inl (by have := hm.nonneg; omega))
      refine ⟨b, ?_, ?_, ?_, rfl⟩
      · simpa [Allocation.sweep, hgo] using matchLoop_stop fuel hstop
      · simpa [Allocation.sweep, hgo] using hm
      · simpa [Allocation.sweep, hgo] using hr

/-! ## Taking the incoming order in, and letting it go -/

theorem not_listed_of_free (h : Invariant b) (hfree : b.ownedOrders id = none) (s : Side)
    (price : LimitPrice) : (price, id) ∉ Listed b s := by
  intro hm
  obtain ⟨o, ho, _⟩ := h.placed s price id hm
  rw [hfree] at ho
  cases ho

/-- `ownedOrders_[id] = std::move(order)`. -/
def received (b : Book) (o : Order) : Book :=
  { b with ownedOrders := Function.update b.ownedOrders o.id (some o) }

theorem putOrder_received (b : Book) (o : Order) :
    (putOrder o.id o).run b = .ok () (received b o) := rfl

theorem listed_received (b : Book) (o : Order) (s : Side) :
    Listed (received b o) s = Listed b s := by
  simp [Listed, received]

theorem matching_received (h : Invariant b) (hfree : b.ownedOrders o.id = none) (hv : o.Valid) :
    Matching (received b o) o o.remaining where
  invariant := by
    constructor
    · intro s
      simpa [received] using h.noEmpty s
    · intro s
      rw [listed_received]
      exact h.nodup s
    · intro s price id hm
      rw [listed_received] at hm
      have hne : id ≠ o.id := fun hid => not_listed_of_free h hfree s price (hid ▸ hm)
      obtain ⟨o', ho', hp⟩ := h.placed s price id hm
      exact ⟨o', by simpa [received, Function.update_of_ne hne] using ho', hp⟩
    · intro id o' ho'
      by_cases hid : o.id = id
      · exact Or.inl (hid ▸ rfl)
      · have hb : b.ownedOrders id = some o' := by
          simpa [received, Function.update_of_ne (Ne.symm hid)] using ho'
        rcases h.owned id o' hb with hc | hm
        · cases hc
        · exact Or.inr (by simpa [listed_received] using hm)
    · intro id loc
      rw [listed_received]
      exact h.located id loc
    · intro id hid s price
      cases hid
      rw [listed_received]
      exact not_listed_of_free h hfree s price
  nonneg := hv.remaining_pos.le
  within := le_rfl
  owned := by
    have hl : leaving o o.remaining = o := by
      unfold leaving Order.remaining
      rw [Int32.ofInt_toInt]
    simp [received, hl]

theorem resting_received (h : Invariant b) (hfree : b.ownedOrders o.id = none) (s : Side) :
    resting (received b o) s = resting b s := by
  apply resting_congr (listed_received b o s)
  intro a ha
  have hne : a.2 ≠ o.id := fun hid => not_listed_of_free h hfree s a.1 (hid ▸ ha)
  simp [received, Function.update_of_ne hne]

/-- `ownedOrders_.erase(id)` of an order that never rested. -/
def released (b : Book) (id : OrderId) : Book :=
  { b with ownedOrders := Function.update b.ownedOrders id none }

theorem listed_released (b : Book) (id : OrderId) (s : Side) :
    Listed (released b id) s = Listed b s := by
  simp [Listed, released]

theorem invariant_released (h : InvariantWith (some id) b) : Invariant (released b id) := by
  constructor
  · intro s
    simpa [released] using h.noEmpty s
  · intro s
    rw [listed_released]
    exact h.nodup s
  · intro s price j hm
    rw [listed_released] at hm
    have hne : j ≠ id := fun hj => h.incoming j (hj ▸ rfl) s price hm
    simpa [released, Function.update_of_ne hne] using h.placed s price j hm
  · intro j o ho
    have hne : j ≠ id := by
      rintro rfl
      simp [released] at ho
    rcases h.owned j o (by simpa [released, Function.update_of_ne hne] using ho) with hj | hm
    · exact absurd (Option.some.inj hj).symm hne
    · exact Or.inr (by simpa [listed_released] using hm)
  · intro j loc
    rw [listed_released]
    exact h.located j loc
  · intro j hj
    cases hj

theorem resting_released (h : InvariantWith (some id) b) (s : Side) :
    resting (released b id) s = resting b s := by
  apply resting_congr (listed_released b id s)
  intro a ha
  have hne : a.2 ≠ id := fun hid => h.incoming a.2 (hid ▸ rfl) s a.1 ha
  simp [released, Function.update_of_ne hne]

/-! ## Resting the leftover -/

/-- The book with `o` at the tail of its level. -/
def stored (b : Book) (s : Side) (price : LimitPrice) (o : Order) : Book :=
  { (b.setLevels s ((b.levels s).push price o.id)) with
    ownedOrders := Function.update b.ownedOrders o.id (some o)
    orderLocation := Function.update b.orderLocation o.id (some ⟨s, price, o.id⟩) }

section Stored

variable {s : Side} {price : LimitPrice}

theorem listed_stored (b : Book) (s : Side) (price : LimitPrice) (o : Order) :
    Listed (stored b s price o) s =
      (Listed b s).orderedInsert (fun a c => better s a.1 c.1) (price, o.id) := by
  have h := OMap.flat_push (b.levels s) price o.id
  rw [Listed]
  simpa [stored] using h

theorem listed_stored_other {s' : Side} (hs : s' ≠ s) :
    Listed (stored b s price o) s' = Listed b s' := by
  rw [Listed]
  simp [stored, levels_setLevels_of_ne _ _ hs]

theorem mem_listed_stored {s' : Side} {a : LimitPrice × OrderId} :
    a ∈ Listed (stored b s price o) s' ↔ s' = s ∧ a = (price, o.id) ∨ a ∈ Listed b s' := by
  by_cases hs : s' = s
  · subst hs
    rw [listed_stored, List.mem_orderedInsert]
    simp
  · rw [listed_stored_other hs]
    simp [hs]

theorem invariant_stored (h : InvariantWith (some o.id) b) (hp : Placed s price o.id o) :
    Invariant (stored b s price o) := by
  constructor
  · intro s'
    by_cases hs : s' = s
    · subst hs
      simpa [stored] using OMap.noEmpty_push (h.noEmpty s') price o.id
    · simpa [stored, levels_setLevels_of_ne _ _ hs] using h.noEmpty s'
  · intro s'
    by_cases hs : s' = s
    · subst hs
      rw [listed_stored]
      have hperm := (List.perm_orderedInsert (fun a c => better s' a.1 c.1) (price, o.id)
        (Listed b s')).map Prod.snd
      rw [hperm.nodup_iff, List.map_cons, List.nodup_cons]
      refine ⟨?_, h.nodup s'⟩
      intro hm
      obtain ⟨a, ha, hid⟩ := List.mem_map.mp hm
      exact h.incoming a.2 (hid ▸ rfl) s' a.1 ha
    · rw [listed_stored_other hs]
      exact h.nodup s'
  · intro s' price' id hm
    rcases mem_listed_stored.mp hm with ⟨rfl, heq⟩ | hm
    · cases heq
      exact ⟨o, by simp [stored], hp⟩
    · have hne : id ≠ o.id := fun hid => h.incoming id (hid ▸ rfl) s' price' hm
      simpa [stored, Function.update_of_ne hne] using h.placed s' price' id hm
  · intro id o' ho'
    right
    by_cases hid : id = o.id
    · exact ⟨s, price, mem_listed_stored.mpr (Or.inl ⟨rfl, by rw [hid]⟩)⟩
    · have hb : b.ownedOrders id = some o' := by
        simpa [stored, Function.update_of_ne hid] using ho'
      obtain ⟨s', price', hm⟩ := (h.owned id o' hb).resolve_left fun hj =>
        hid (Option.some.inj hj).symm
      exact ⟨s', price', mem_listed_stored.mpr (Or.inr hm)⟩
  · intro id loc
    by_cases hid : id = o.id
    · subst hid
      have hnot := h.incoming o.id rfl loc.side loc.price
      have hloc : (stored b s price o).orderLocation o.id = some ⟨s, price, o.id⟩ := by
        simp [stored]
      rw [hloc, mem_listed_stored, Option.some.injEq]
      constructor
      · rintro rfl
        simp
      · rintro ⟨⟨hs, hpr⟩ | hm, hit⟩
        · obtain ⟨ls, lp, li⟩ := loc
          cases hs
          cases hpr
          cases hit
          rfl
        · exact absurd hm hnot
    · have hstep : (loc.price, id) ∈ Listed (stored b s price o) loc.side ↔
          (loc.price, id) ∈ Listed b loc.side := by
        rw [mem_listed_stored]
        simp [hid]
      rw [hstep]
      simpa [stored, Function.update_of_ne hid] using h.located id loc
  · intro id hid
    cases hid

theorem resting_stored (h : InvariantWith (some o.id) b) (s : Side) (price : LimitPrice) :
    resting (stored b s price o) s = place s (some ⟨price, o⟩) (resting b s) := by
  have main : ∀ l : List (LimitPrice × OrderId), (∀ a ∈ l, a ∈ Listed b s) →
      objects (stored b s price o) (l.orderedInsert (fun a c => better s a.1 c.1) (price, o.id)) =
        (objects b l).orderedInsert (fun a c => better s a.price c.price) ⟨price, o⟩ := by
    intro l
    have hnew : (stored b s price o).ownedOrders o.id = some o := by simp [stored]
    induction l with
    | nil => intro _; simp [objects, hnew]
    | cons a l ih =>
      intro hl
      have hm := hl a (by simp)
      have hold : ∀ c ∈ a :: l, (stored b s price o).ownedOrders c.2 = b.ownedOrders c.2 := by
        intro c hc
        have hne : c.2 ≠ o.id := fun hid => h.incoming c.2 (hid ▸ rfl) s c.1 (hl c hc)
        simp [stored, Function.update_of_ne hne]
      obtain ⟨m, ho, _⟩ := h.placed s a.1 a.2 hm
      have ho' := (hold a (by simp)).trans ho
      rw [show objects b (a :: l) = ⟨a.1, m⟩ :: objects b l from objects_cons ho l]
      by_cases hb : better s price a.1
      · rw [List.orderedInsert_cons, List.orderedInsert_cons, if_pos hb, if_pos hb,
          objects_cons hnew, objects_congr hold]
        rw [show objects b (a :: l) = ⟨a.1, m⟩ :: objects b l from objects_cons ho l]
      · rw [List.orderedInsert_cons, List.orderedInsert_cons, if_neg hb, if_neg hb]
        rw [show objects (stored b s price o) (a :: _) = ⟨a.1, m⟩ :: _ from objects_cons ho' _,
          ih fun c hc => hl c (by simp [hc])]
  rw [resting, listed_stored]
  exact main _ fun _ ha => ha

theorem resting_stored_other (h : InvariantWith (some o.id) b) {s' : Side} (hs : s' ≠ s) :
    resting (stored b s price o) s' = resting b s' := by
  apply resting_congr (listed_stored_other hs)
  intro a ha
  have hne : a.2 ≠ o.id := fun hid => h.incoming a.2 (hid ▸ rfl) s' a.1 ha
  simp [stored, Function.update_of_ne hne]

end Stored

/-! ## The public operations -/

theorem matchIncoming_ok (h : Invariant b) (hv : o.Valid) (hfree : b.ownedOrders o.id = none) :
    ∃ b', (matchIncoming o.id).run (received b o) = .ok (Ladder.trades (resting b) o) b' ∧
      Matching b' o (leftover (resting b) o) ∧
      resting b' o.side.opposite = (sweepOf (resting b) o).2 ∧
      resting b' o.side = resting b o.side := by
  have hm := matching_received h hfree hv
  have hopp := resting_received h hfree o.side.opposite
  have hown : (received b o).ownedOrders o.id = some o := by simp [received]
  have hfuel : (resting b o.side.opposite).length < passes (received b o) o.side.opposite := by
    have hlen := congrArg List.length (hm.invariant.resting_places o.side.opposite)
    rw [hopp, List.length_map] at hlen
    rw [hlen]
    exact Nat.lt_succ_self _
  obtain ⟨b', hrun, hm', hopp', hown'⟩ := matchLoop_sweep _ hm hopp hfuel
  refine ⟨b', ?_, hm', hopp', hown'.trans (resting_received h hfree o.side)⟩
  rw [matchIncoming, bind_ok (deref_ok hown)]
  simp only
  rw [bind_ok (get_ok _), branch_opposite]
  exact hrun

theorem leftover_bounds (h : Invariant b) (hv : o.Valid) (hfree : b.ownedOrders o.id = none) :
    0 ≤ leftover (resting b) o ∧ leftover (resting b) o ≤ o.remaining := by
  obtain ⟨_, _, hm, _⟩ := matchIncoming_ok h hv hfree
  exact ⟨hm.nonneg, hm.within⟩

theorem restInBook_ok {p : OrderId} {price : LimitPrice} (ho : b.ownedOrders p = some o)
    (hid : o.id = p) (hp : o.price = some price) : (restInBook p).run b =
      .ok () { (b.setLevels o.side ((b.levels o.side).push price p)) with
        orderLocation := Function.update b.orderLocation p (some ⟨o.side, price, p⟩) } := by
  subst hid
  rw [restInBook, bind_ok (deref_ok ho)]
  simp only [Order.getPrice, hp]
  obtain ⟨id, traderId, side, quantity, remainingQty, status, oprice⟩ := o
  cases side <;> rfl

theorem Matching.remainingQty_eq_quantity {left : ℤ} (hm : Matching b o left) :
    (leaving o left).remainingQty = (leaving o left).quantity ↔ left = o.quantity.toInt := by
  rw [← Int32.toInt_inj]
  change (Int32.ofInt left).toInt = o.quantity.toInt ↔ _
  rw [hm.toInt_left]

theorem Matching.remainingQty_eq_zero {left : ℤ} (hm : Matching b o left) :
    (leaving o left).remainingQty = 0 ↔ left = 0 := by
  rw [eq_zero_iff_toInt]
  change (Int32.ofInt left).toInt = 0 ↔ _
  rw [hm.toInt_left]

/-- A limit order's leftover goes to the tail of its level. -/
theorem Matching.rest_ok {left : ℤ} {price : LimitPrice} (hm : Matching b o left)
    (hp : o.price = some price) (ts : List Trade) :
    (do
      setStatus o.id (if (leaving o left).remainingQty = (leaving o left).quantity then .opened
        else .partiallyFilled)
      restInBook o.id
      return ts : BookM (List Trade)).run b = .ok ts (stored b o.side price (resident o left)) := by
  simp only [hm.remainingQty_eq_quantity]
  rw [bind_ok (setStatus_ok hm.owned _),
    bind_ok (restInBook_ok (o := resident o left)
      (by simp [resident, leaving, Order.setStatus]) (by rfl) hp)]
  obtain ⟨id, traderId, side, quantity, remainingQty, status, oprice⟩ := o
  cases side <;> rfl

/-- A leftover that rests has its place. -/
theorem placed_rested {left : ℤ} (hv : o.Valid) {price : LimitPrice} (hp : o.price = some price)
    (h0 : 0 < left) (hle : left ≤ o.remaining) :
    Placed o.side price o.id (resident o left) := by
  have hq : o.remaining = o.quantity.toInt := by rw [Order.remaining, hv.2.1]
  have hto := toInt_ofInt_of_le h0.le hle
  have hiff : Int32.ofInt left = o.quantity ↔ left = o.quantity.toInt := by
    rw [← Int32.toInt_inj, hto]
  refine ⟨rfl, rfl, hp, ?_, ?_, ?_⟩
  · change 0 < (Int32.ofInt left).toInt
    omega
  · change (Int32.ofInt left).toInt ≤ o.quantity.toInt
    omega
  · simp only [resident, hiff]

theorem addOrder_rejected (hown : (b.ownedOrders o.id).isSome) :
    (addOrder (some o)).run b = .error (.invalidArgument "Order ID is already active") b := by
  rw [addOrder]
  simp only
  rw [bind_ok (get_ok b), if_pos hown]
  rfl

theorem addOrder_null (b : Book) :
    (addOrder none).run b = .error (.invalidArgument "Cannot add a null order") b := rfl

/-- `addOrder` of an id that is not active is `Ladder.add`. -/
theorem addOrder_refines (h : Invariant b) (hv : o.Valid) (hfree : b.ownedOrders o.id = none) :
    ∃ b', (addOrder (some o)).run b = .ok (Ladder.trades (resting b) o) b' ∧ Invariant b' ∧
      resting b' = Ladder.add (resting b) o := by
  obtain ⟨b₁, hrun, hm, hopp, hown⟩ := matchIncoming_ok h hv hfree
  have hsides : ∀ b' : Book,
      resting b' o.side = place o.side (rested o (leftover (resting b) o)) (resting b o.side) →
      resting b' o.side.opposite = (sweepOf (resting b) o).2 →
      resting b' = Ladder.add (resting b) o := by
    intro b' h₁ h₂
    funext s
    by_cases hs : s = o.side
    · rw [Ladder.add, if_pos hs, hs, h₁]
    · rw [Ladder.add, if_neg hs, eq_opposite_of_ne hs, h₂]
  have hdropped : rested o (leftover (resting b) o) = none →
      Invariant (released b₁ o.id) ∧ resting (released b₁ o.id) = Ladder.add (resting b) o := by
    intro hnone
    refine ⟨invariant_released hm.invariant, hsides _ ?_ ?_⟩
    · rw [resting_released hm.invariant, hown, hnone, place]
    · rw [resting_released hm.invariant, hopp]
  rw [addOrder]
  simp only
  rw [bind_ok (get_ok b), if_neg (by simp [hfree]), bind_ok (putOrder_received b o),
    bind_ok hrun, bind_ok (deref_ok hm.owned)]
  by_cases h0 : leftover (resting b) o = 0
  · rw [if_pos (hm.remainingQty_eq_zero.mpr h0), bind_ok (setStatus_ok hm.owned _)]
    have hnone : rested o (leftover (resting b) o) = none := by
      rw [rested]
      cases o.price <;> simp [h0]
    refine ⟨released b₁ o.id, ?_, hdropped hnone⟩
    rw [bind_ok (eraseOwned_ok _ _)]
    simp [released]
  · rw [if_neg (fun hz => h0 (hm.remainingQty_eq_zero.mp hz))]
    cases hp : o.price with
    | none =>
      refine ⟨released b₁ o.id, ?_, hdropped (by simp [rested, hp])⟩
      simp only [Order.getOrderKind, leaving, hp]
      rw [bind_ok (setStatus_ok hm.owned _), bind_ok (eraseOwned_ok _ _)]
      simp [released]
    | some price =>
      have hpos : 0 < leftover (resting b) o := by
        have := hm.nonneg
        omega
      have hplaced := placed_rested hv hp hpos hm.within
      have hkind : (leaving o (leftover (resting b) o)).getOrderKind = .limit := by
        simp [Order.getOrderKind, leaving, hp]
      refine ⟨_, ?_, invariant_stored (o := resident o _) hm.invariant hplaced, hsides _ ?_ ?_⟩
      · rw [hkind]
        exact hm.rest_ok hp _
      · rw [resting_stored (o := resident o _) hm.invariant, hown, rested, hp]
        simp only [if_neg h0]
      · rw [resting_stored_other (o := resident o _) hm.invariant (opposite_ne o.side), hopp]

/-- The book after `cancelOrder` of the order at a place. -/
def withdrawn (b : Book) (s : Side) (price : LimitPrice) (l : List OrderId) (id : OrderId) : Book :=
  { (b.setLevels s ((b.levels s).store price (l.erase id))) with
    ownedOrders := Function.update b.ownedOrders id none
    orderLocation := Function.update b.orderLocation id none }

section Withdrawn

variable {s : Side} {price : LimitPrice} {l : List OrderId}

theorem listed_withdrawn (h : Invariant b) (hf : (b.levels s).find price = some l) (hm : id ∈ l)
    (s' : Side) :
    Listed (withdrawn b s price l id) s' = (Listed b s').filter fun a => a.2 ≠ id := by
  have hplace : (price, id) ∈ Listed b s := OMap.mem_flat.mpr ⟨l, hf, hm⟩
  by_cases hs : s' = s
  · subst hs
    have hdup : (Listed b s').Nodup := List.Nodup.of_map _ (h.nodup s')
    have herase : Listed (withdrawn b s' price l id) s' = (Listed b s').erase (price, id) := by
      have hstore := OMap.flat_store_erase hf hm
      rw [Listed]
      simpa [withdrawn] using hstore
    rw [herase, hdup.erase_eq_filter]
    apply List.filter_congr
    intro a ha
    by_cases hid : a.2 = id
    · have hpl := h.unique_place (hid ▸ (show (a.1, a.2) ∈ Listed b s' from ha)) hplace
      simp [← hid, ← hpl.2]
    · have hne : a ≠ (price, id) := fun he => hid (by rw [he])
      simp [hid, hne]
  · have hsame : Listed (withdrawn b s price l id) s' = Listed b s' := by
      rw [Listed]
      simp [withdrawn, levels_setLevels_of_ne _ _ hs]
    rw [hsame]
    symm
    apply List.filter_eq_self.mpr
    intro a ha
    have hne : a.2 ≠ id := by
      intro hid
      have ha' : (a.1, id) ∈ Listed b s' := hid ▸ ha
      exact hs (h.unique_place ha' hplace).1
    simpa using hne

theorem dropped_withdrawn (h : Invariant b) (hf : (b.levels s).find price = some l) (hm : id ∈ l) :
    Dropped none id b (withdrawn b s price l id) := by
  constructor
  · intro s'
    by_cases hs : s' = s
    · subst hs
      simpa [withdrawn] using OMap.noEmpty_store (h.noEmpty s') price (l.erase id)
    · simpa [withdrawn, levels_setLevels_of_ne _ _ hs] using h.noEmpty s'
  · intro s'
    rw [listed_withdrawn h hf hm]
    exact List.filter_sublist
  · intro s' price' j
    rw [listed_withdrawn h hf hm]
    simp
  · simp [withdrawn]
  · intro j hj _
    simp [withdrawn, Function.update_of_ne hj]
  · simp [withdrawn]

end Withdrawn

theorem isSome_owned_iff_located (h : Invariant b) (id : OrderId) :
    (b.ownedOrders id).isSome ↔ (b.orderLocation id).isSome := by
  simp only [Option.isSome_iff_exists]
  constructor
  · rintro ⟨o, ho⟩
    rcases h.owned id o ho with hc | ⟨s, price, hm⟩
    · cases hc
    · exact ⟨⟨s, price, id⟩, (h.located id ⟨s, price, id⟩).mpr ⟨hm, rfl⟩⟩
  · rintro ⟨loc, hloc⟩
    obtain ⟨hm, _⟩ := (h.located id loc).mp hloc
    obtain ⟨o, ho, _⟩ := h.placed loc.side loc.price id hm
    exact ⟨o, ho⟩

/-- An id is active exactly when it rests on one of the sides. -/
theorem isSome_owned_iff_resting (h : Invariant b) (id : OrderId) :
    (b.ownedOrders id).isSome ↔ ∃ s, ∃ x ∈ resting b s, x.order.id = id := by
  rw [Option.isSome_iff_exists]
  constructor
  · rintro ⟨o, ho⟩
    rcases h.owned id o ho with hc | ⟨s, price, hm⟩
    · cases hc
    · have hid := (h.placed_of_owned hm ho).named
      exact ⟨s, ⟨price, o⟩, h.mem_resting.mpr ⟨hid.symm ▸ hm, hid.symm ▸ ho⟩, hid⟩
  · rintro ⟨s, x, hx, rfl⟩
    exact ⟨x.order, (h.mem_resting.mp hx).2⟩

/-- `cancelOrder` is `Ladder.cancel`, and returns whether the id was resting. -/
theorem cancelOrder_refines (h : Invariant b) (id : OrderId) :
    ∃ b', (cancelOrder id).run b = .ok (b.ownedOrders id).isSome b' ∧ Invariant b' ∧
      resting b' = Ladder.cancel (resting b) id := by
  cases hloc : b.orderLocation id with
  | none =>
    have hfree : (b.ownedOrders id).isSome = false := by
      rw [Bool.eq_false_iff]
      intro hown
      simpa [hloc] using (isSome_owned_iff_located h id).mp hown
    refine ⟨b, ?_, h, ?_⟩
    · rw [cancelOrder, bind_ok (get_ok b), hloc, hfree]
      rfl
    · funext s
      symm
      apply List.filter_eq_self.mpr
      intro x hx
      have hne : x.order.id ≠ id := fun hid => by
        have := (isSome_owned_iff_resting h id).mpr ⟨s, x, hx, hid⟩
        simp [hfree] at this
      simpa using hne
  | some loc =>
    obtain ⟨hm, hit⟩ := (h.located id loc).mp hloc
    obtain ⟨l, hf, hl⟩ := OMap.mem_flat.mp hm
    obtain ⟨o, ho, _⟩ := h.placed loc.side loc.price id hm
    have hd := dropped_withdrawn h hf hl
    refine ⟨withdrawn b loc.side loc.price l id, ?_, hd.invariant h, ?_⟩
    · have hown : (b.ownedOrders id).isSome := by simp [ho]
      rw [cancelOrder, bind_ok (get_ok b), hloc]
      simp only [hit]
      rw [bind_ok (eraseAt_ok hf hl), bind_ok (setLocation_ok _ _ _), bind_ok (get_ok _)]
      simp only [ownedOrders_setLevels, hown, if_true]
      rw [bind_ok (setStatus_ok (o := o) (by simpa using ho) _), bind_ok (eraseOwned_ok _ _)]
      simp [withdrawn]
    · funext s
      exact hd.resting_filter h (listed_withdrawn h hf hl s)

end BookRefinement
