import MatchingEngine.BookRuns

/-! # The price-time allocation in closed form

`addOrder` loops, erases levels and edits indexes. Its result is a formula over the
opposite queue: each order reached is filled by what the orders before it leave. -/
namespace PriceTimeAllocation

open EngineTypes
open Orders
open OrderedMap
open OrderBook
open PriceTimeBook
open BookInvariant
open BookRefinement
open BookRuns

/-- The opposite orders that an incoming order reaches, up to the first price it refuses. -/
def reached (b : Book) (o : Order) : List RestingOrder :=
  (resting b o.side.opposite).takeWhile (accepts o)

/-- The fill of the order reached at place `i`. -/
def fillAt (b : Book) (o : Order) (i : ℕ) (x : RestingOrder) : ℤ :=
  min x.size (o.quantity.toInt - min o.quantity.toInt (((reached b o).take i).map RestingOrder.size).sum)

def fills (b : Book) (o : Order) : List (RestingOrder × ℤ) :=
  (reached b o).mapIdx fun i x => (x, fillAt b o i x)

def unfilled (b : Book) (o : Order) : ℤ := o.quantity.toInt - ((fills b o).map Prod.snd).sum

/-- What a fill leaves of a resting order. -/
def survivor (a : RestingOrder × ℤ) : Option RestingOrder :=
  if a.1.size - a.2 = 0 then none
  else if a.2 = 0 then some a.1
  else some ⟨a.1.price, { a.1.order with
    remainingQty := Int32.ofInt (a.1.size - a.2), status := .partiallyFilled }⟩

/-- The ids queued at a price. -/
def level (b : Book) (s : Side) (price : LimitPrice) : List OrderId :=
  ((b.levels s).find price).getD []

structure Allocated (b : Book) (o : Order) (ts : List Trade) (b' : Book) : Prop where
  trades : ts = ((fills b o).filter fun a => 0 < a.2).map (tradeOf o)
  quantities : ∀ a ∈ fills b o, (Int32.ofInt a.2).toInt = a.2
  prices : ∀ x ∈ resting b o.side.opposite, x.order.price = some x.price
  opposite : resting b' o.side.opposite = (fills b o).filterMap survivor ++
    (resting b o.side.opposite).dropWhile (accepts o)
  sizes : ∀ a ∈ fills b o, ∀ x, survivor a = some x → x.size = a.1.size - a.2
  gone : ∀ a ∈ fills b o, (b'.ownedOrders a.1.order.id = none ↔ a.1.size - a.2 = 0)
  own : resting b' o.side = place o.side (rested o (unfilled b o)) (resting b o.side)
  leftover : ∀ x, rested o (unfilled b o) = some x → x.size = unfilled b o
  tail : ∀ price, level b' o.side price = level b o.side price ++
    if o.price = some price ∧ unfilled b o ≠ 0 then [o.id] else []
  dropped : o.price = none ∨ unfilled b o = 0 → b'.ownedOrders o.id = none

/-! ## Levels of the queues -/

theorem level_eq {b : Book} (h : Invariant b) (s : Side) (price : LimitPrice) :
    level b s price = ((resting b s).filter fun x => x.price = price).map fun x => x.order.id := by
  have hq := OMap.queue_eq_filter (b.levels s) price
  change level b s price = ((Listed b s).filter _).map _ at hq
  rw [hq, ← h.resting_places s, List.filter_map, List.map_map]
  rfl

/-- An order is placed behind the orders of its own price. -/
theorem filter_place {s : Side} {queue : List RestingOrder} (x : Option RestingOrder)
    (hs : queue.Pairwise fun y z => y.price = z.price ∨ better s y.price z.price)
    (price : LimitPrice) :
    (place s x queue).filter (fun y => y.price = price) =
      queue.filter (fun y => y.price = price) ++ x.toList.filter fun y => y.price = price := by
  cases x with
  | none => simp [place]
  | some x =>
    rw [place]
    induction queue with
    | nil => simp
    | cons y queue ih =>
      obtain ⟨hhead, htail⟩ := List.pairwise_cons.mp hs
      by_cases hb : better s x.price y.price
      · have hworse : ∀ z ∈ y :: queue, better s x.price z.price := by
          intro z hz
          rcases List.mem_cons.mp hz with rfl | hz
          · exact hb
          · rcases hhead z hz with heq | hlt
            · exact heq ▸ hb
            · exact IsTrans.trans _ _ _ hb hlt
        rw [List.orderedInsert_cons, if_pos hb]
        by_cases hp : x.price = price
        · have hnone : (y :: queue).filter (fun z => z.price = price) = [] := by
            rw [List.filter_eq_nil_iff]
            intro z hz he
            have hzp : z.price = price := by simpa using he
            have hlt := hworse z hz
            rw [hp, hzp] at hlt
            exact irrefl_of (better s) price hlt
          rw [List.filter_cons_of_pos (by simpa using hp), hnone]
          simp [hp]
        · rw [List.filter_cons_of_neg (by simpa using hp)]
          simp [hp]
      · rw [List.orderedInsert_cons, if_neg hb, List.filter_cons, ih htail, List.filter_cons]
        split <;> simp

/-! ## The allocation -/

section

variable {b : Book} {o : Order}

theorem queue_sizes (h : Invariant b) (s : Side) : ∀ x ∈ resting b s, 0 < x.size :=
  fun _ hx => (h.placed_of_resting hx).positive

theorem remaining_eq_quantity (hv : o.Valid) : o.remaining = o.quantity.toInt := by
  rw [Order.remaining, hv.2.1]

theorem fills_eq_allotted (h : Invariant b) (hv : o.Valid) :
    fills b o = Allocation.allotted RestingOrder.size (accepts o) o.remaining
      (resting b o.side.opposite) := by
  rw [Allocation.allotted_eq_mapIdx hv.remaining_pos.le (queue_sizes h _),
    remaining_eq_quantity hv]
  rfl

theorem fills_bounds (h : Invariant b) (hv : o.Valid) : ∀ a ∈ fills b o,
    a.1 ∈ resting b o.side.opposite ∧ 0 ≤ a.2 ∧ a.2 ≤ a.1.size := by
  rw [fills_eq_allotted h hv]
  exact Allocation.allotted_bounds hv.remaining_pos.le (queue_sizes h _)

theorem leftover_eq_unfilled (h : Invariant b) (hv : o.Valid) :
    leftover (resting b) o = unfilled b o := by
  unfold leftover unfilled sweepOf
  rw [Allocation.sweep_eq hv.remaining_pos.le (queue_sizes h _), ← fills_eq_allotted h hv,
    Allocation.sum_filter_pos fun a ha => (fills_bounds h hv a ha).2.1, remaining_eq_quantity hv]

theorem unfilled_bounds (h : Invariant b) (hv : o.Valid) :
    0 ≤ unfilled b o ∧ unfilled b o ≤ o.remaining := by
  have hcap : ∀ c ∈ ((resting b o.side.opposite).takeWhile (accepts o)).map RestingOrder.size,
      0 ≤ c := by
    intro c hc
    obtain ⟨x, hx, rfl⟩ := List.mem_map.mp hc
    exact (queue_sizes h _ x ((List.takeWhile_prefix _).subset hx)).le
  have hsum := Allocation.sum_fills hv.remaining_pos.le hcap
  have hnonneg := List.sum_nonneg hcap
  have hpos := hv.remaining_pos
  rw [unfilled]
  rw [fills_eq_allotted h hv, Allocation.map_snd_allotted, hsum, ← remaining_eq_quantity hv]
  omega

theorem survivor_eq_leave {a : RestingOrder × ℤ} :
    Allocation.leave RestingOrder.size RestingOrder.fill a = survivor a := by
  have hfill : a.1.order.remainingQty - Int32.ofInt a.2 = Int32.ofInt (a.1.size - a.2) := by
    rw [Int32.ofInt_sub, RestingOrder.size, Order.remaining, Int32.ofInt_toInt]
  unfold Allocation.leave survivor
  by_cases hfull : a.2 = a.1.size
  · rw [if_pos hfull, if_pos (by omega)]
  · have hleft : ¬ a.1.size - a.2 = 0 := by omega
    rw [if_neg hfull, if_neg hleft, RestingOrder.fill, Order.fill, hfill]
    rfl

theorem survivor_size {a : RestingOrder × ℤ} {x : RestingOrder} (h0 : 0 ≤ a.2)
    (hle : a.2 ≤ a.1.size) (hx : survivor a = some x) :
    x.price = a.1.price ∧ x.order.id = a.1.order.id ∧ x.size = a.1.size - a.2 := by
  rw [survivor] at hx
  split at hx
  · cases hx
  · split at hx
    · rename_i hz
      cases hx
      simp [hz]
    · cases hx
      exact ⟨rfl, rfl, toInt_ofInt_of_le (by omega) (show _ ≤ a.1.order.remainingQty.toInt by
        change a.1.size - a.2 ≤ a.1.size
        omega)⟩

theorem reached_ids_nodup (h : Invariant b) :
    ((reached b o ++ (resting b o.side.opposite).dropWhile (accepts o)).map
      fun x => x.order.id).Nodup := by
  rw [reached, List.takeWhile_append_dropWhile]
  exact h.resting_nodup _

theorem fills_ids : (fills b o).map (fun a => a.1.order.id) =
    (reached b o).map fun x => x.order.id := by
  apply List.ext_getElem (by simp [fills])
  intro i h₁ h₂
  simp [fills]

/-- Two fills of one id are the same fill. -/
theorem fills_unique (h : Invariant b) {a c : RestingOrder × ℤ} (ha : a ∈ fills b o)
    (hc : c ∈ fills b o) (hid : a.1.order.id = c.1.order.id) : a = c := by
  have hnd := reached_ids_nodup (o := o) h
  rw [List.map_append, List.nodup_append', ← fills_ids] at hnd
  exact List.inj_on_of_nodup_map hnd.1 ha hc hid

theorem fills_reached {a : RestingOrder × ℤ} (ha : a ∈ fills b o) : a.1 ∈ reached b o := by
  obtain ⟨i, hi, rfl⟩ := List.mem_mapIdx.mp ha
  exact List.getElem_mem hi

end

/-! ## The claim's clauses, from the refinement -/

section

variable {b b' : Book} {o : Order}

theorem opposite_queue (h : Invariant b) (hv : o.Valid)
    (hadd : resting b' = Ladder.add (resting b) o) :
    resting b' o.side.opposite = (fills b o).filterMap survivor ++
      (resting b o.side.opposite).dropWhile (accepts o) := by
  rw [hadd, add_opposite, sweepOf,
    Allocation.sweep_eq hv.remaining_pos.le (queue_sizes h _), ← fills_eq_allotted h hv]
  simp only [survivor_eq_leave]

theorem own_queue (h : Invariant b) (hv : o.Valid)
    (hadd : resting b' = Ladder.add (resting b) o) :
    resting b' o.side = place o.side (rested o (unfilled b o)) (resting b o.side) := by
  rw [hadd, add_own, leftover_eq_unfilled h hv]

/-- An order on a changed side was there before, unless it is the leftover. -/
theorem mem_after (h : Invariant b) (hv : o.Valid) (hadd : resting b' = Ladder.add (resting b) o)
    {s : Side} {y : RestingOrder} (hy : y ∈ resting b' s) :
    (s = o.side ∧ rested o (unfilled b o) = some y) ∨
      ∃ x ∈ resting b s, x.order.id = y.order.id := by
  by_cases hs : s = o.side
  · subst hs
    rw [own_queue h hv hadd] at hy
    rcases mem_place.mp hy with hr | hy
    · exact Or.inl ⟨rfl, hr⟩
    · exact Or.inr ⟨y, hy, rfl⟩
  · right
    rw [eq_opposite_of_ne hs] at hy ⊢
    rw [opposite_queue h hv hadd] at hy
    rcases List.mem_append.mp hy with hy | hy
    · obtain ⟨a, ha, hsurv⟩ := List.mem_filterMap.mp hy
      obtain ⟨hm, h0, hle⟩ := fills_bounds h hv a ha
      exact ⟨a.1, hm, (survivor_size h0 hle hsurv).2.1.symm⟩
    · exact ⟨y, (List.dropWhile_suffix _).subset hy, rfl⟩

/-- A reached order goes exactly when its fill takes all of it. -/
theorem gone_iff (h : Invariant b) (h' : Invariant b') (hv : o.Valid)
    (hfree : b.ownedOrders o.id = none) (hadd : resting b' = Ladder.add (resting b) o)
    {a : RestingOrder × ℤ} (ha : a ∈ fills b o) :
    b'.ownedOrders a.1.order.id = none ↔ a.1.size - a.2 = 0 := by
  obtain ⟨hm, h0, hle⟩ := fills_bounds h hv a ha
  have hqueue := opposite_queue h hv hadd
  constructor
  · intro hnone
    by_contra hleft
    obtain ⟨x, hx⟩ : ∃ x, survivor a = some x := by
      rw [survivor]
      rw [if_neg hleft]
      split <;> exact ⟨_, rfl⟩
    have hmem : x ∈ resting b' o.side.opposite := by
      rw [hqueue]
      exact List.mem_append_left _ (List.mem_filterMap.mpr ⟨a, ha, hx⟩)
    have hown := (isSome_owned_iff_resting h' a.1.order.id).mpr
      ⟨_, x, hmem, (survivor_size h0 hle hx).2.1⟩
    simp [hnone] at hown
  · intro hall
    rw [← Option.not_isSome_iff_eq_none, isSome_owned_iff_resting h']
    rintro ⟨s, y, hy, hid⟩
    by_cases hs : s = o.side
    · rcases mem_after h hv hadd hy with ⟨_, hr⟩ | ⟨x, hx, hxid⟩
      · have hown := (isSome_owned_iff_resting h o.id).mpr
          ⟨_, a.1, hm, hid.symm.trans (rested_id hr)⟩
        simp [hfree] at hown
      · have hx' : (x.price, a.1.order.id) ∈ Listed b s :=
          (hxid.trans hid) ▸ (h.mem_resting.mp hx).1
        exact opposite_ne o.side ((h.unique_place (h.mem_resting.mp hm).1 hx').1.trans hs)
    · rw [eq_opposite_of_ne hs, hqueue] at hy
      rcases List.mem_append.mp hy with hy | hy
      · obtain ⟨c, hc, hsurv⟩ := List.mem_filterMap.mp hy
        obtain ⟨_, hc0, hcle⟩ := fills_bounds h hv c hc
        have hsame := fills_unique h ha hc (hid.symm.trans (survivor_size hc0 hcle hsurv).2.1)
        rw [← hsame, survivor, if_pos hall] at hsurv
        cases hsurv
      · have hnd := reached_ids_nodup (o := o) h
        rw [List.map_append, List.nodup_append'] at hnd
        exact hnd.2.2 (List.mem_map.mpr ⟨a.1, fills_reached ha, rfl⟩)
          (List.mem_map.mpr ⟨y, hy, hid⟩)

theorem not_resting_of_free (h : Invariant b) {id : OrderId} (hfree : b.ownedOrders id = none)
    {s : Side} {x : RestingOrder} (hx : x ∈ resting b s) : x.order.id ≠ id := by
  intro hid
  have hown := (isSome_owned_iff_resting h id).mpr ⟨s, x, hx, hid⟩
  simp [hfree] at hown

theorem dropped_leftover (h : Invariant b) (h' : Invariant b') (hv : o.Valid)
    (hfree : b.ownedOrders o.id = none) (hadd : resting b' = Ladder.add (resting b) o)
    (hd : o.price = none ∨ unfilled b o = 0) : b'.ownedOrders o.id = none := by
  rw [← Option.not_isSome_iff_eq_none, isSome_owned_iff_resting h']
  rintro ⟨s, y, hy, hid⟩
  rcases mem_after h hv hadd hy with ⟨_, hr⟩ | ⟨x, hx, hxid⟩
  · obtain ⟨_, hp, h0⟩ := rested_eq_some hr
    rcases hd with hd | hd
    · rw [hd] at hp
      cases hp
    · exact h0 hd
  · exact not_resting_of_free h hfree hx (hxid.trans hid)

theorem own_level (h : Invariant b) (h' : Invariant b') (hv : o.Valid)
    (hadd : resting b' = Ladder.add (resting b) o) (price : LimitPrice) :
    level b' o.side price = level b o.side price ++
      if o.price = some price ∧ unfilled b o ≠ 0 then [o.id] else [] := by
  rw [level_eq h', own_queue h hv hadd, filter_place _ (resting_sorted h o.side) price,
    List.map_append, ← level_eq h]
  congr 1
  cases hp : o.price with
  | none => simp [rested, hp]
  | some p =>
    by_cases h0 : unfilled b o = 0
    · simp [rested, hp, h0]
    · by_cases hpp : p = price <;> simp [rested, hp, h0, hpp, resident]

end

/-- `addOrder` of a valid order whose id is not resting computes the allocation. -/
theorem addOrder_allocates (calls : List Call) (o : NewOrder)
    (hfree : ∀ s, ∀ x ∈ resting (run emptyBook calls) s, x.order.id ≠ o.1.id) :
    ∃ ts b', (addOrder (some o.1)).run (run emptyBook calls) = .ok ts b' ∧
      Allocated (run emptyBook calls) o.1 ts b' := by
  have h := run_invariant calls
  have hnone : (run emptyBook calls).ownedOrders o.1.id = none := by
    rw [← Option.not_isSome_iff_eq_none, isSome_owned_iff_resting h]
    rintro ⟨s, x, hx, hid⟩
    exact hfree s x hx hid
  obtain ⟨b', hrun, h', hadd⟩ := addOrder_refines h o.2 hnone
  refine ⟨_, b', hrun, ?_⟩
  constructor
  · rw [Ladder.trades, sweepOf, Allocation.sweep_eq o.2.remaining_pos.le (queue_sizes h _),
      ← fills_eq_allotted h o.2]
  · intro a ha
    obtain ⟨_, h0, hle⟩ := fills_bounds h o.2 a ha
    exact toInt_ofInt_of_le h0 hle
  · intro x hx
    exact (h.placed_of_resting hx).price
  · exact opposite_queue h o.2 hadd
  · intro a ha x hx
    obtain ⟨_, h0, hle⟩ := fills_bounds h o.2 a ha
    exact (survivor_size h0 hle hx).2.2
  · intro a ha
    exact gone_iff h h' o.2 hnone hadd ha
  · exact own_queue h o.2 hadd
  · intro x hx
    obtain ⟨h0, hle⟩ := unfilled_bounds h o.2
    rw [RestingOrder.size, (rested_eq_some hx).1]
    exact toInt_ofInt_of_le h0 hle
  · exact own_level h h' o.2 hadd
  · exact dropped_leftover h h' o.2 hnone hadd

/-- A buy for 8 against one ask for 5. -/
theorem addOrder_allocates_over_one_ask :
    let ask := NewOrder.limit 1 1 .sell 5 (by decide) .hundred
    let bid := NewOrder.limit 2 2 .buy 8 (by decide) .hundred
    ∃ ts b', (addOrder (some bid.1)).run (run emptyBook [.add (some ask)]) = .ok ts b' ∧
      Allocated (run emptyBook [.add (some ask)]) bid.1 ts b' :=
  addOrder_allocates [.add (some _)] _ (by intro s; cases s <;> decide)

end PriceTimeAllocation
