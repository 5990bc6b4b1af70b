import MatchingEngine.BookInvariant

/-! # One pass of the matching loop

A pass either leaves the loop with the book as it was, or trades with the front of the
best level and ends in `fillMaker` or `dropMaker`. -/
namespace MatchingPass

open EngineTypes
open Orders
open OrderedMap
open OrderBook
open PriceTimeBook
open BookInvariant

theorem toInt_tradeQty (taker maker : Order) :
    (tradeQty taker maker).toInt = min taker.remaining maker.remaining := toInt_stdMin _ _

/-- The book after a fill that leaves the maker shares. -/
def fillMaker (b : Book) (incoming r : OrderId) (io mo : Order) : Book :=
  { b with
    ownedOrders := Function.update
      (Function.update b.ownedOrders incoming (some (io.fill (tradeQty io mo)))) r
      (some ((mo.fill (tradeQty io mo)).setStatus .partiallyFilled)) }

/-- The book after a fill that uses the maker up. `l` is the rest of its queue. -/
def dropMaker (b : Book) (s : Side) (price : LimitPrice) (l : List OrderId)
    (incoming r : OrderId) (io mo : Order) : Book :=
  { (b.setLevels s ((b.levels s).store price l)) with
    ownedOrders := Function.update
      (Function.update b.ownedOrders incoming (some (io.fill (tradeQty io mo)))) r none
    orderLocation := Function.update b.orderLocation r none }

section Trade

variable {b : Book} {incoming r : OrderId} {io mo : Order} {price : LimitPrice}
  {l : List OrderId}

theorem tradeQty_bounds (hi : 0 < io.remaining) (hm : 0 < mo.remaining) :
    0 < (tradeQty io mo).toInt ∧ (tradeQty io mo).toInt ≤ io.remaining ∧
      (tradeQty io mo).toInt ≤ mo.remaining := by
  rw [toInt_tradeQty]
  omega

theorem eq_zero_iff_toInt (x : Int32) : x = 0 ↔ x.toInt = 0 := by
  rw [← Int32.toInt_inj, Int32.toInt_zero]

theorem exhausted_iff (hi : 0 < io.remaining) (hm : 0 < mo.remaining) :
    (mo.fill (tradeQty io mo)).remainingQty = 0 ↔ mo.remaining ≤ io.remaining := by
  obtain ⟨h0, _, h2⟩ := tradeQty_bounds hi hm
  rw [eq_zero_iff_toInt]
  change (mo.fill (tradeQty io mo)).remaining = 0 ↔ _
  rw [Order.remaining_fill h0.le h2, toInt_tradeQty]
  omega

theorem settleMaker_drop (hr : b.ownedOrders r = some mo) (hid : mo.id = r)
    (h0 : mo.remainingQty = 0) {s : Side} (hf : (b.levels s).find price = some (r :: l)) :
    (settleMaker s price r).run b = .ok ()
      { (b.setLevels s ((b.levels s).store price l)) with
        ownedOrders := Function.update b.ownedOrders r none
        orderLocation := Function.update b.orderLocation r none } := by
  let b₁ : Book := { b with
    ownedOrders := Function.update b.ownedOrders r (some (mo.setStatus .filled)) }
  have hpop := popFront_ok (b := b₁) (s := s) (by simpa [b₁] using hf)
  rw [settleMaker, bind_ok (deref_ok hr)]
  simp only [if_pos h0, hid]
  rw [bind_ok (setStatus_ok hr .filled), bind_ok hpop, bind_ok (setLocation_ok _ _ _),
    eraseOwned_ok]
  cases s <;> simp [b₁, Book.setLevels, Book.levels]

theorem settleMaker_keep (hr : b.ownedOrders r = some mo) (h0 : mo.remainingQty ≠ 0) (s : Side) :
    (settleMaker s price r).run b = .ok ()
      { b with
        ownedOrders := Function.update b.ownedOrders r
          (some (mo.setStatus .partiallyFilled)) } := by
  rw [settleMaker, bind_ok (deref_ok hr)]
  simp only [if_neg h0]
  exact setStatus_ok hr _

/-- Two distinct live orders trade the smaller remainder of the two; the maker's
object and place go exactly when nothing of it is left. -/
theorem tradeWith_ok (br : Branch) (hinc : b.ownedOrders incoming = some io)
    (hr : b.ownedOrders r = some mo)
    (hne : incoming ≠ r) (hid : mo.id = r) (hi : 0 < io.remaining) (hm : 0 < mo.remaining)
    (hf : (b.levels br.opposite).find price = some (r :: l)) :
    (tradeWith br incoming price r).run b =
      .ok (br.trade io.id r price (tradeQty io mo))
        (if mo.remaining ≤ io.remaining then dropMaker b br.opposite price l incoming r io mo
         else fillMaker b incoming r io mo) := by
  obtain ⟨h0, h1, h2⟩ := tradeQty_bounds hi hm
  have hleft := exhausted_iff hi hm
  let b₁ : Book := { b with
    ownedOrders := Function.update b.ownedOrders incoming (some (io.fill (tradeQty io mo))) }
  let b₂ : Book := { b with
    ownedOrders := Function.update b₁.ownedOrders r (some (mo.fill (tradeQty io mo))) }
  have hr₁ : b₁.ownedOrders r = some mo := by simp [b₁, Function.update_of_ne hne.symm, hr]
  have hr₂ : b₂.ownedOrders r = some (mo.fill (tradeQty io mo)) := by simp [b₂]
  have hf₂ : (b₂.levels br.opposite).find price = some (r :: l) := by simpa [b₂] using hf
  rw [tradeWith, bind_ok (deref_ok hinc), bind_ok (deref_ok hr),
    bind_ok (reduceQuantity_ok hinc h0.le h1), bind_ok (reduceQuantity_ok hr₁ h0.le h2)]
  by_cases hd : mo.remaining ≤ io.remaining
  · rw [bind_ok (settleMaker_drop hr₂ hid (hleft.mpr hd) hf₂), if_pos hd, hid]
    simp [b₁, b₂, dropMaker, setLevels_ownedOrders]
  · rw [bind_ok (settleMaker_keep hr₂ (fun h => hd (hleft.mp h)) br.opposite), if_neg hd, hid]
    simp [b₁, b₂, fillMaker]

end Trade

/-! ## What a pass leaves -/

section Outcome

variable {b : Book} {incoming : OrderId} {io mo : Order} {price : LimitPrice}
  {l : List OrderId} {rest : List (LimitPrice × List OrderId)} {s : Side}

theorem listed_dropMaker (incoming : OrderId) (io : Order)
    (he : (b.levels s).entries = (price, mo.id :: l) :: rest) :
    Listed b s = (price, mo.id) :: Listed (dropMaker b s price l incoming mo.id io mo) s := by
  have h := OMap.flat_store_tail he
  simp only [Listed]
  simpa [dropMaker] using h

theorem listed_dropMaker_other {s' : Side} (hs : s' ≠ s) :
    Listed (dropMaker b s price l incoming mo.id io mo) s' = Listed b s' := by
  rw [Listed]
  simp [dropMaker, levels_setLevels_of_ne _ _ hs]

theorem dropped_dropMaker (io : Order) (h : InvariantWith (some incoming) b)
    (he : (b.levels s).entries = (price, mo.id :: l) :: rest) :
    Dropped (some incoming) mo.id b (dropMaker b s price l incoming mo.id io mo) := by
  have hhead := listed_dropMaker incoming io he
  have hnd := h.nodup s
  rw [hhead, List.map_cons, List.nodup_cons] at hnd
  have hm : (price, mo.id) ∈ Listed b s := by rw [hhead]; simp
  constructor
  · intro s'
    by_cases hs : s' = s
    · subst hs
      simpa [dropMaker] using OMap.noEmpty_store (h.noEmpty s') price l
    · simpa [dropMaker, levels_setLevels_of_ne _ _ hs] using h.noEmpty s'
  · intro s'
    by_cases hs : s' = s
    · subst hs
      rw [hhead]
      exact List.sublist_cons_self _ _
    · rw [listed_dropMaker_other hs]
  · intro s' price' id
    by_cases hs : s' = s
    · subst hs
      rw [hhead, List.mem_cons]
      constructor
      · intro ht
        exact ⟨Or.inr ht, fun hid => hnd.1 (List.mem_map.mpr ⟨_, ht, hid⟩)⟩
      · rintro ⟨heq | ht, hid⟩
        · exact absurd (Prod.mk.inj heq).2 hid
        · exact ht
    · rw [listed_dropMaker_other hs]
      constructor
      · intro ht
        exact ⟨ht, fun hid => hs (h.unique_place (hid ▸ ht) hm).1⟩
      · exact And.left
  · simp [dropMaker]
  · intro id hid hinc
    have hid' : id ≠ incoming := fun hi => hinc (hi ▸ rfl)
    simp [dropMaker, Function.update_of_ne hid, Function.update_of_ne hid']
  · simp [dropMaker]

theorem listed_fillMaker (s : Side) : Listed (fillMaker b incoming mo.id io mo) s = Listed b s := by
  simp [Listed, fillMaker]

/-- A maker that keeps shares is partially filled and stays at its place. -/
theorem placed_fill (hi : 0 < io.remaining) (hp : Placed s price mo.id mo)
    (hd : io.remaining < mo.remaining) :
    Placed s price mo.id ((mo.fill (tradeQty io mo)).setStatus .partiallyFilled) := by
  obtain ⟨h0, _, h2⟩ := tradeQty_bounds hi hp.positive
  have hr := Order.remaining_fill h0.le h2
  have ht := toInt_tradeQty io mo
  have hb := hp.bounded
  have hlt : (mo.fill (tradeQty io mo)).remaining < mo.quantity.toInt := by omega
  have hne : (mo.fill (tradeQty io mo)).remainingQty ≠ mo.quantity := fun hq => by
    have : (mo.fill (tradeQty io mo)).remaining = mo.quantity.toInt := congrArg Int32.toInt hq
    omega
  refine ⟨rfl, hp.side, hp.price, ?_, ?_, ?_⟩
  · rw [Order.setStatus_remaining]
    omega
  · rw [Order.setStatus_remaining]
    exact hlt.le
  · rw [Order.setStatus_status, Order.setStatus_remainingQty, Order.setStatus_quantity,
      Order.fill_quantity, if_neg hne]

theorem invariant_fillMaker (h : InvariantWith (some incoming) b) (hi : 0 < io.remaining)
    (hm : (price, mo.id) ∈ Listed b s) (ho : b.ownedOrders mo.id = some mo)
    (hd : io.remaining < mo.remaining) :
    InvariantWith (some incoming) (fillMaker b incoming mo.id io mo) := by
  have hp := h.placed_of_owned hm ho
  constructor
  · intro s'
    simpa [fillMaker] using h.noEmpty s'
  · intro s'
    rw [listed_fillMaker]
    exact h.nodup s'
  · intro s' price' id hm'
    rw [listed_fillMaker] at hm'
    by_cases hid : id = mo.id
    · subst hid
      obtain ⟨rfl, rfl⟩ := h.unique_place hm hm'
      exact ⟨_, by simp [fillMaker], placed_fill hi hp hd⟩
    · have hinc : id ≠ incoming := fun hi' => h.incoming id (hi' ▸ rfl) s' price' hm'
      obtain ⟨o, ho', hp'⟩ := h.placed s' price' id hm'
      exact ⟨o, by simpa [fillMaker, Function.update_of_ne hid, Function.update_of_ne hinc]
        using ho', hp'⟩
  · intro id o ho'
    by_cases hinc : incoming = id
    · exact Or.inl (hinc ▸ rfl)
    · right
      by_cases hid : id = mo.id
      · exact ⟨s, price, by rw [listed_fillMaker, hid]; exact hm⟩
      · have hb : b.ownedOrders id = some o := by
          simpa [fillMaker, Function.update_of_ne hid, Function.update_of_ne (Ne.symm hinc)] using ho'
        obtain ⟨s', price', hm'⟩ :=
          (h.owned id o hb).resolve_left fun hi' => hinc (Option.some.inj hi')
        exact ⟨s', price', by rw [listed_fillMaker]; exact hm'⟩
  · intro id loc
    rw [listed_fillMaker]
    exact h.located id loc
  · intro id hid s' price'
    rw [listed_fillMaker]
    exact h.incoming id hid s' price'

theorem resting_fillMaker (h : InvariantWith (some incoming) b) {xs : List RestingOrder}
    (hr : resting b s = ⟨price, mo⟩ :: xs) :
    resting (fillMaker b incoming mo.id io mo) s =
      ⟨price, (mo.fill (tradeQty io mo)).setStatus .partiallyFilled⟩ :: xs := by
  have hplaces := h.resting_places s
  have hids := h.resting_nodup s
  rw [hr, List.map_cons] at hplaces
  rw [hr, List.map_cons, List.nodup_cons] at hids
  have hm : (price, mo.id) ∈ Listed b s := by simp [← hplaces]
  have ho : b.ownedOrders mo.id = some mo :=
    (h.mem_resting.mp (by rw [hr]; simp : (⟨price, mo⟩ : RestingOrder) ∈ resting b s)).2
  have hxs : objects b (xs.map fun x => (x.price, x.order.id)) = xs := by
    have h₁ := hr
    rw [resting, ← hplaces, objects_cons ho] at h₁
    exact (List.cons.inj h₁).2
  have hxs' : objects (fillMaker b incoming mo.id io mo)
      (xs.map fun x => (x.price, x.order.id)) = xs := by
    refine (objects_congr ?_).trans hxs
    intro a ha
    obtain ⟨x, hx, rfl⟩ := List.mem_map.mp ha
    have hne : x.order.id ≠ mo.id := fun hid => hids.1 (List.mem_map.mpr ⟨x, hx, hid⟩)
    have hinc : x.order.id ≠ incoming := fun hi => h.incoming x.order.id (hi ▸ rfl) s x.price
      (by rw [← hplaces]; exact List.mem_cons_of_mem _ ha)
    simp [fillMaker, Function.update_of_ne hne, Function.update_of_ne hinc]
  have hnew : (fillMaker b incoming mo.id io mo).ownedOrders mo.id =
      some ((mo.fill (tradeQty io mo)).setStatus .partiallyFilled) := by simp [fillMaker]
  rw [resting, listed_fillMaker, ← hplaces, objects_cons hnew, hxs']

/-- A fill leaves the other side as it was. -/
theorem resting_fillMaker_other (h : InvariantWith (some incoming) b) {s' : Side} (hs : s' ≠ s)
    (hm : (price, mo.id) ∈ Listed b s) :
    resting (fillMaker b incoming mo.id io mo) s' = resting b s' := by
  apply resting_congr (listed_fillMaker s')
  intro a ha
  have hne : a.2 ≠ mo.id := by
    intro hid
    have ha' : (a.1, mo.id) ∈ Listed b s' := hid ▸ ha
    exact hs (h.unique_place ha' hm).1
  have hinc : a.2 ≠ incoming := fun hi => h.incoming a.2 (hi ▸ rfl) s' a.1 ha
  simp [fillMaker, Function.update_of_ne hne, Function.update_of_ne hinc]

end Outcome

/-! ## The pass -/

section Pass

variable {b : Book} {incoming : OrderId} {io : Order} {xs : List RestingOrder} {x : RestingOrder}

theorem branch_opposite (s : Side) : (branch s).opposite = s.opposite := by cases s <;> rfl

theorem acceptsPrice_ok (b : Book) (io : Order) (x : RestingOrder) :
    (acceptsPrice (branch io.side) io x.price).run b = .ok (accepts io x) b := by
  cases hp : io.price with
  | none => simp only [acceptsPrice, Order.getOrderKind, accepts, hp]; rfl
  | some limit =>
    simp only [acceptsPrice, Order.getOrderKind, Order.getPrice, accepts, hp]
    cases io.side <;> rfl

theorem matchOnce_exhausted (hinc : b.ownedOrders incoming = some io) (h0 : io.remaining ≤ 0) :
    (matchOnce (branch io.side) incoming).run b = .ok none b := by
  have hle : io.remainingQty ≤ 0 := by
    rw [Int32.le_iff_toInt_le, Int32.toInt_zero]
    exact h0
  rw [matchOnce, bind_ok (deref_ok hinc)]
  simp only [if_pos hle]
  rfl

theorem not_exhausted (h0 : 0 < io.remaining) : ¬ io.remainingQty ≤ 0 := by
  rw [Int32.le_iff_toInt_le, Int32.toInt_zero]
  exact not_le.mpr h0

theorem matchOnce_empty (h : InvariantWith (some incoming) b)
    (hinc : b.ownedOrders incoming = some io) (hr : resting b io.side.opposite = []) :
    (matchOnce (branch io.side) incoming).run b = .ok none b := by
  rw [matchOnce, bind_ok (deref_ok hinc)]
  split
  · rfl
  · rw [bind_ok (get_ok b), branch_opposite, begin?_of_resting_nil h hr]
    rfl

theorem begin?_of_resting_cons {s : Side} (h : InvariantWith (some incoming) b)
    (hr : resting b s = x :: xs) :
    ∃ l rest, (b.levels s).entries = (x.price, x.order.id :: l) :: rest ∧
      (b.levels s).begin? = some (x.price, x.order.id :: l) := by
  obtain ⟨l, rest, he⟩ := entries_of_resting_cons h hr
  exact ⟨l, rest, he, by simp [OMap.begin?, he]⟩

theorem matchOnce_refused (h : InvariantWith (some incoming) b)
    (hinc : b.ownedOrders incoming = some io) (hr : resting b io.side.opposite = x :: xs)
    (ha : accepts io x = false) : (matchOnce (branch io.side) incoming).run b = .ok none b := by
  obtain ⟨l, rest, _, hb⟩ := begin?_of_resting_cons h hr
  rw [matchOnce, bind_ok (deref_ok hinc)]
  split
  · rfl
  · rw [bind_ok (get_ok b), branch_opposite, hb]
    simp only
    rw [bind_ok (acceptsPrice_ok b io x), ha]
    rfl

/-- What a pass that trades with `x`, the best of the opposite side, leaves. -/
structure Passed (b : Book) (incoming : OrderId) (io : Order) (x : RestingOrder)
    (xs : List RestingOrder) (b' : Book) : Prop where
  invariant : InvariantWith (some incoming) b'
  taker : b'.ownedOrders incoming = some (io.fill (tradeQty io x.order))
  opposite : resting b' io.side.opposite =
    if x.size ≤ io.remaining then xs else x.fill io.remaining :: xs
  own : resting b' io.side = resting b io.side

theorem tradeOf_eq (io : Order) (x : RestingOrder) :
    (branch io.side).trade io.id x.order.id x.price (tradeQty io x.order) =
      tradeOf io (x, min x.size io.remaining) := by
  have hq : Int32.ofInt (min x.size io.remaining) = tradeQty io x.order := by
    rw [min_comm, RestingOrder.size, ← toInt_tradeQty, Int32.ofInt_toInt]
  rw [tradeOf]
  rw [hq]
  cases io.side <;> rfl

theorem matchOnce_trade (h : InvariantWith (some incoming) b)
    (hinc : b.ownedOrders incoming = some io) (hr : resting b io.side.opposite = x :: xs)
    (h0 : 0 < io.remaining) (ha : accepts io x = true) :
    ∃ b', (matchOnce (branch io.side) incoming).run b =
      .ok (some (tradeOf io (x, min x.size io.remaining))) b' ∧ Passed b incoming io x xs b' := by
  obtain ⟨l, rest, he, hb⟩ := begin?_of_resting_cons h hr
  have hx : x ∈ resting b io.side.opposite := by rw [hr]; simp
  obtain ⟨hm, ho⟩ := h.mem_resting.mp hx
  have hp := h.placed_of_resting hx
  have hne : incoming ≠ x.order.id := fun hi => h.incoming incoming rfl _ _ (hi ▸ hm)
  have htrade := tradeWith_ok (branch io.side) hinc ho hne rfl h0 hp.positive
    (by rw [branch_opposite]; exact OMap.find_head he)
  rw [branch_opposite, tradeOf_eq] at htrade
  refine ⟨if x.order.remaining ≤ io.remaining then
      dropMaker b io.side.opposite x.price l incoming x.order.id io x.order
    else fillMaker b incoming x.order.id io x.order, ?_, ?_⟩
  · rw [matchOnce, bind_ok (deref_ok hinc), if_neg (not_exhausted h0), bind_ok (get_ok b),
      branch_opposite, hb]
    simp only
    rw [bind_ok (acceptsPrice_ok b io x), ha]
    simp only [if_true, front, pure_bind]
    rw [bind_ok htrade]
    rfl
  · by_cases hd : x.order.remaining ≤ io.remaining
    · have hdrop := dropped_dropMaker io h he
      have hhead := listed_dropMaker incoming io he
      have htail := hdrop.resting_tail h ho hhead
      rw [if_pos hd]
      refine ⟨hdrop.invariant h, ?_, ?_, ?_⟩
      · simp [dropMaker, Function.update_of_ne hne]
      · rw [if_pos (show x.size ≤ io.remaining from hd)]
        exact (List.cons.inj (htail.symm.trans hr)).2
      · exact hdrop.resting_other h (listed_dropMaker_other (opposite_ne io.side).symm)
    · rw [if_neg hd]
      refine ⟨invariant_fillMaker h h0 hm ho (not_le.mp hd), ?_, ?_, ?_⟩
      · simp [fillMaker, Function.update_of_ne hne]
      · have hq : tradeQty io x.order = Int32.ofInt io.remaining := by
          rw [← Int32.ofInt_toInt (tradeQty io x.order), toInt_tradeQty, min_eq_left (not_le.mp hd).le]
        rw [if_neg (show ¬ x.size ≤ io.remaining from hd), RestingOrder.fill, ← hq]
        exact resting_fillMaker h hr
      · exact resting_fillMaker_other h (opposite_ne io.side).symm hm

end Pass

end MatchingPass
