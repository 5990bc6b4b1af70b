import MatchingEngine.PriceTimeBook

/-! # Representation invariant of the book

`InvariantWith inc` is the invariant while the order `inc` is being matched: owned, and
in no list yet. Each public operation takes `Invariant` to `Invariant`, so the failures
of the model's pointers, iterators and levels are never met. -/
namespace BookInvariant

open EngineTypes
open Orders
open OrderedMap
open OrderBook
open PriceTimeBook

/-! ## Running the primitives -/

theorem bind_ok {ε σ α β : Type} {x : EStateM ε σ α} {f : α → EStateM ε σ β} {s s' : σ} {a : α}
    (h : x.run s = .ok a s') : (x >>= f).run s = (f a).run s' := by
  simp only [EStateM.run] at h ⊢
  simp [bind, EStateM.bind, h]

theorem bind_error {ε σ α β : Type} {x : EStateM ε σ α} {f : α → EStateM ε σ β} {s s' : σ} {e : ε}
    (h : x.run s = .error e s') : (x >>= f).run s = .error e s' := by
  simp only [EStateM.run] at h ⊢
  simp [bind, EStateM.bind, h]

theorem get_ok {ε σ : Type} (s : σ) : (get : EStateM ε σ σ).run s = .ok s s := rfl

variable {b : Book} {p id : OrderId} {o : Order} {s : Side} {price : LimitPrice}

theorem deref_ok (h : b.ownedOrders p = some o) : (deref p).run b = .ok o b := by
  rw [deref, bind_ok (get_ok b), h]
  rfl

theorem putOrder_ok (b : Book) (p : OrderId) (o : Order) : (putOrder p o).run b =
    .ok () { b with ownedOrders := Function.update b.ownedOrders p (some o) } := rfl

theorem eraseOwned_ok (b : Book) (id : OrderId) : (eraseOwned id).run b =
    .ok () { b with ownedOrders := Function.update b.ownedOrders id none } := rfl

theorem setLocation_ok (b : Book) (id : OrderId) (loc) : (setLocation id loc).run b =
    .ok () { b with orderLocation := Function.update b.orderLocation id loc } := rfl

theorem setStatus_ok (h : b.ownedOrders p = some o) (status) : (setStatus p status).run b =
    .ok ()
      { b with ownedOrders := Function.update b.ownedOrders p (some (o.setStatus status)) } := by
  rw [setStatus, bind_ok (deref_ok h), putOrder_ok]

theorem reduceQuantity_ok {t : Int32} (h : b.ownedOrders p = some o) (h0 : 0 ≤ t.toInt)
    (ht : t.toInt ≤ o.remaining) : (OrderBook.reduceQuantity p t).run b =
    .ok () { b with ownedOrders := Function.update b.ownedOrders p (some (o.fill t)) } := by
  rw [OrderBook.reduceQuantity, bind_ok (deref_ok h), Order.reduceQuantity_fill h0 ht]
  rfl

theorem popFront_ok {l} (h : (b.levels s).find price = some (id :: l)) :
    (popFront s price).run b = .ok () (b.setLevels s ((b.levels s).store price l)) := by
  rw [popFront, bind_ok (get_ok b), h]
  rfl

theorem eraseAt_ok {l} (h : (b.levels s).find price = some l) (hm : id ∈ l) :
    (eraseAt s price id).run b =
      .ok () (b.setLevels s ((b.levels s).store price (l.erase id))) := by
  rw [eraseAt, bind_ok (get_ok b), h]
  simp only [if_pos hm]
  rfl

@[simp] theorem levels_setLevels (b : Book) (s : Side) (m : Levels s) :
    (b.setLevels s m).levels s = m := by cases s <;> rfl

theorem levels_setLevels_of_ne (b : Book) {s s' : Side} (m : Levels s) (h : s' ≠ s) :
    (b.setLevels s m).levels s' = b.levels s' := by
  cases s <;> cases s' <;> first | rfl | exact absurd rfl h

@[simp] theorem ownedOrders_setLevels (b : Book) (s : Side) (m : Levels s) :
    (b.setLevels s m).ownedOrders = b.ownedOrders := by cases s <;> rfl

@[simp] theorem orderLocation_setLevels (b : Book) (s : Side) (m : Levels s) :
    (b.setLevels s m).orderLocation = b.orderLocation := by cases s <;> rfl

@[simp] theorem levels_mk (b : Book) (f g) (s : Side) :
    (⟨b.bids, b.asks, f, g⟩ : Book).levels s = b.levels s := by cases s <;> rfl

theorem setLevels_ownedOrders (b : Book) (f) (s : Side) (m : Levels s) :
    ({ b with ownedOrders := f } : Book).setLevels s m =
      { (b.setLevels s m) with ownedOrders := f } := by cases s <;> rfl

/-! ## The invariant -/

/-- Price and id of every listed order of a side, best price first and FIFO within a price. -/
abbrev Listed (b : Book) (s : Side) : List (LimitPrice × OrderId) := (b.levels s).flat

/-- The objects that listed places point to. -/
def objects (b : Book) (l : List (LimitPrice × OrderId)) : List RestingOrder :=
  l.filterMap fun a => (b.ownedOrders a.2).map (RestingOrder.mk a.1)

/-- The orders resting on a side, best price first and FIFO within a price. -/
def resting (b : Book) (s : Side) : List RestingOrder := objects b (Listed b s)

theorem objects_cons {b : Book} {price : LimitPrice} {id : OrderId} {o : Order}
    (ho : b.ownedOrders id = some o) (l : List (LimitPrice × OrderId)) :
    objects b ((price, id) :: l) = ⟨price, o⟩ :: objects b l := by
  simp [objects, ho]

theorem objects_congr {b b' : Book} {l : List (LimitPrice × OrderId)}
    (ho : ∀ a ∈ l, b'.ownedOrders a.2 = b.ownedOrders a.2) : objects b' l = objects b l :=
  List.filterMap_congr fun a ha => by rw [ho a ha]

/-- A resting order agrees with the place where it is listed. -/
structure Placed (s : Side) (price : LimitPrice) (id : OrderId) (o : Order) : Prop where
  named : o.id = id
  side : o.side = s
  price : o.price = some price
  positive : 0 < o.remaining
  bounded : o.remaining ≤ o.quantity.toInt
  status : o.status = if o.remainingQty = o.quantity then .opened else .partiallyFilled

structure InvariantWith (inc : Option OrderId) (b : Book) : Prop where
  noEmpty : ∀ s, (b.levels s).NoEmpty
  nodup : ∀ s, ((Listed b s).map Prod.snd).Nodup
  placed : ∀ s price id, (price, id) ∈ Listed b s →
    ∃ o, b.ownedOrders id = some o ∧ Placed s price id o
  owned : ∀ id o, b.ownedOrders id = some o → inc = some id ∨ ∃ s price, (price, id) ∈ Listed b s
  located : ∀ id loc, b.orderLocation id = some loc ↔
    (loc.price, id) ∈ Listed b loc.side ∧ loc.iterator = id
  incoming : ∀ id, inc = some id → ∀ s price, (price, id) ∉ Listed b s

abbrev Invariant (b : Book) : Prop := InvariantWith none b

theorem invariant_empty : Invariant emptyBook where
  noEmpty := by intro s; cases s <;> simp [emptyBook, Book.levels, OMap.empty, OMap.NoEmpty]
  nodup := by intro s; cases s <;> simp [emptyBook, Book.levels, OMap.empty, OMap.flat]
  placed := by intro s; cases s <;> simp [emptyBook, Book.levels, OMap.empty, OMap.flat]
  owned := by simp [emptyBook]
  located := by
    intro id loc
    cases hs : loc.side <;> simp [emptyBook, Book.levels, OMap.empty, OMap.flat]
  incoming := by simp

namespace InvariantWith

variable {inc : Option OrderId}

theorem placed_of_owned (h : InvariantWith inc b) (hm : (price, id) ∈ Listed b s)
    (ho : b.ownedOrders id = some o) : Placed s price id o := by
  obtain ⟨o', ho', hp⟩ := h.placed s price id hm
  cases ho.symm.trans ho'
  exact hp

theorem unique_place (h : InvariantWith inc b) {s' price'} (hm : (price, id) ∈ Listed b s)
    (hm' : (price', id) ∈ Listed b s') : s = s' ∧ price = price' := by
  obtain ⟨o, ho, hp⟩ := h.placed s price id hm
  have hp' := h.placed_of_owned hm' ho
  exact ⟨hp.side.symm.trans hp'.side, Option.some.inj (hp.price.symm.trans hp'.price)⟩

theorem mem_resting (h : InvariantWith inc b) {x : RestingOrder} :
    x ∈ resting b s ↔
      (x.price, x.order.id) ∈ Listed b s ∧ b.ownedOrders x.order.id = some x.order := by
  simp only [resting, objects, List.mem_filterMap, Option.map_eq_some_iff, Prod.exists]
  constructor
  · rintro ⟨price, id, hm, o, ho, rfl⟩
    have hp := h.placed_of_owned hm ho
    exact ⟨hp.named.symm ▸ hm, hp.named.symm ▸ ho⟩
  · rintro ⟨hm, ho⟩
    exact ⟨x.price, x.order.id, hm, x.order, ho, rfl⟩

theorem placed_of_resting (h : InvariantWith inc b) {x : RestingOrder} (hx : x ∈ resting b s) :
    Placed s x.price x.order.id x.order := by
  obtain ⟨hm, ho⟩ := h.mem_resting.mp hx
  exact h.placed_of_owned hm ho

/-- The resting orders stand exactly at the listed places. -/
theorem resting_places (h : InvariantWith inc b) (s : Side) :
    (resting b s).map (fun x => (x.price, x.order.id)) = Listed b s := by
  have main : ∀ l : List (LimitPrice × OrderId), (∀ a ∈ l, a ∈ Listed b s) →
      (objects b l).map (fun x => (x.price, x.order.id)) = l := by
    intro l
    induction l with
    | nil => intro _; rfl
    | cons a l ih =>
      intro hl
      obtain ⟨o, ho, hp⟩ := h.placed s a.1 a.2 (hl a (by simp))
      have htail := ih fun x hx => hl x (by simp [hx])
      rw [objects_cons ho, List.map_cons, htail, hp.named]
  exact main _ fun _ ha => ha

theorem resting_ids (h : InvariantWith inc b) (s : Side) :
    (resting b s).map (fun x => x.order.id) = (Listed b s).map Prod.snd := by
  rw [← h.resting_places s, List.map_map]
  rfl

theorem resting_nodup (h : InvariantWith inc b) (s : Side) :
    ((resting b s).map fun x => x.order.id).Nodup := h.resting_ids s ▸ h.nodup s

end InvariantWith

/-- Same list, same objects under it: same resting orders. -/
theorem resting_congr {b' : Book} (hl : Listed b' s = Listed b s)
    (ho : ∀ a ∈ Listed b s, b'.ownedOrders a.2 = b.ownedOrders a.2) :
    resting b' s = resting b s := by
  rw [resting, resting, hl]
  exact objects_congr ho

/-! ## The best order of a side -/

theorem begin?_of_resting_nil {inc : Option OrderId} (h : InvariantWith inc b)
    (hr : resting b s = []) : (b.levels s).begin? = none := by
  have hflat : Listed b s = [] := by rw [← h.resting_places s, hr, List.map_nil]
  cases he : (b.levels s).entries with
  | nil => simp [OMap.begin?, he]
  | cons e es =>
    have hne := h.noEmpty s e (by simp [he])
    simp only [Listed, OMap.flat, he, flatten_cons, List.append_eq_nil_iff, List.map_eq_nil_iff]
      at hflat
    exact absurd hflat.1 hne

theorem entries_of_resting_cons {inc : Option OrderId} (h : InvariantWith inc b)
    {x : RestingOrder} {xs : List RestingOrder} (hr : resting b s = x :: xs) :
    ∃ l rest, (b.levels s).entries = (x.price, x.order.id :: l) :: rest := by
  have hflat : Listed b s = (x.price, x.order.id) :: xs.map fun x => (x.price, x.order.id) := by
    rw [← h.resting_places s, hr, List.map_cons]
  cases he : (b.levels s).entries with
  | nil => simp [Listed, OMap.flat, he] at hflat
  | cons e es =>
    obtain ⟨price, q⟩ := e
    cases q with
    | nil => exact absurd rfl (h.noEmpty s (price, []) (by simp [he]))
    | cons id l =>
      simp only [Listed, OMap.flat, he, flatten_cons, List.map_cons, List.cons_append] at hflat
      obtain ⟨hprice, hid⟩ := Prod.mk.inj (List.cons.inj hflat).1
      exact ⟨l, es, by rw [hprice, hid]⟩

/-! ## Losing one listed order -/

/-- What removing the order `r` from its list and from both indexes leaves. -/
structure Dropped (inc : Option OrderId) (r : OrderId) (b b' : Book) : Prop where
  noEmpty : ∀ s, (b'.levels s).NoEmpty
  sublist : ∀ s, (Listed b' s).Sublist (Listed b s)
  listed : ∀ s price id, (price, id) ∈ Listed b' s ↔ (price, id) ∈ Listed b s ∧ id ≠ r
  gone : b'.ownedOrders r = none
  others : ∀ id, id ≠ r → inc ≠ some id → b'.ownedOrders id = b.ownedOrders id
  located : b'.orderLocation = Function.update b.orderLocation r none

theorem Dropped.invariant {inc : Option OrderId} {r : OrderId} {b' : Book}
    (hd : Dropped inc r b b') (h : InvariantWith inc b) : InvariantWith inc b' where
  noEmpty := hd.noEmpty
  nodup := fun s => (h.nodup s).sublist ((hd.sublist s).map _)
  placed := by
    intro s price id hm
    obtain ⟨hm, hne⟩ := (hd.listed s price id).mp hm
    have hinc : inc ≠ some id := fun hi => h.incoming id hi s price hm
    rw [hd.others id hne hinc]
    exact h.placed s price id hm
  owned := by
    intro id o ho
    by_cases hinc : inc = some id
    · exact Or.inl hinc
    · have hne : id ≠ r := fun he => by
        rw [he, hd.gone] at ho
        cases ho
      rw [hd.others id hne hinc] at ho
      obtain ⟨s, price, hm⟩ := (h.owned id o ho).resolve_left hinc
      exact Or.inr ⟨s, price, (hd.listed s price id).mpr ⟨hm, hne⟩⟩
  located := by
    intro id loc
    rw [hd.located, hd.listed]
    by_cases he : id = r
    · subst he
      simp
    · simp only [Function.update_of_ne he, ne_eq, he, not_false_eq_true, and_true]
      exact h.located id loc
  incoming := fun id hi s price hm => h.incoming id hi s price ((hd.listed s price id).mp hm).1

theorem Dropped.resting_other {inc : Option OrderId} {r : OrderId} {b' : Book}
    (hd : Dropped inc r b b') (h : InvariantWith inc b)
    (hs : Listed b' s = Listed b s) : resting b' s = resting b s := by
  apply resting_congr hs
  intro a ha
  have hr : a.2 ≠ r := ((hd.listed s a.1 a.2).mp (hs ▸ ha)).2
  exact hd.others a.2 hr fun hi => h.incoming a.2 hi s a.1 ha

/-- The other resting orders keep their order. -/
theorem Dropped.resting_filter {inc : Option OrderId} {r : OrderId} {b' : Book}
    (hd : Dropped inc r b b') (h : InvariantWith inc b)
    (hs : Listed b' s = (Listed b s).filter fun a => a.2 ≠ r) :
    resting b' s = (resting b s).filter fun x => x.order.id ≠ r := by
  have main : ∀ l : List (LimitPrice × OrderId), (∀ a ∈ l, a ∈ Listed b s) →
      objects b' (l.filter fun a => a.2 ≠ r) =
        (objects b l).filter fun x => x.order.id ≠ r := by
    intro l
    induction l with
    | nil => intro _; rfl
    | cons a l ih =>
      intro hl
      have hm := hl a (by simp)
      obtain ⟨o, ho, hp⟩ := h.placed s a.1 a.2 hm
      have htail := ih fun x hx => hl x (by simp [hx])
      by_cases he : a.2 = r
      · have hid : o.id = r := hp.named.trans he
        rw [he] at ho
        simpa [objects, List.filter_cons, List.filterMap_cons, ho, he, hid] using htail
      · have hid : o.id ≠ r := fun hi => he (hp.named.symm.trans hi)
        have ho' := hd.others a.2 he fun hi => h.incoming a.2 hi s a.1 hm
        rw [ho] at ho'
        simpa [objects, List.filter_cons, List.filterMap_cons, ho, ho', he, hid] using htail
  rw [resting, hs]
  exact main _ fun _ ha => ha

/-- A dropped best order leaves the rest of its side. -/
theorem Dropped.resting_tail {inc : Option OrderId} {r : OrderId} {b' : Book}
    (hd : Dropped inc r b b') (h : InvariantWith inc b) (ho : b.ownedOrders r = some o)
    (hs : Listed b s = (price, r) :: Listed b' s) :
    resting b s = ⟨price, o⟩ :: resting b' s := by
  rw [resting, hs, objects_cons ho, resting]
  congr 1
  symm
  apply objects_congr
  intro a ha
  have hm : a ∈ Listed b s := by simp [hs, ha]
  exact hd.others a.2 ((hd.listed s a.1 a.2).mp ha).2 fun hi => h.incoming a.2 hi s a.1 hm

end BookInvariant
