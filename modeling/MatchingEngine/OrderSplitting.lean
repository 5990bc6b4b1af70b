import MatchingEngine.FillsExtend
import MatchingEngine.PriceTimeAllocation

/-! # Splitting an order changes nothing for the others

One order, against the same quantity in two orders submitted one after the other. -/
namespace OrderSplitting

open EngineTypes
open Orders
open OrderedMap
open OrderBook
open PriceTimeBook
open BookInvariant
open BookRefinement
open BookRuns
open LadderRuns
open ShareConservation
open FillsExtend

def atPrice (b : Book) (s : Side) (price : LimitPrice) : List RestingOrder :=
  (resting b s).filter fun x => x.price = price

/-- The orders `ids` came to a side with a limit, and `left` shares of them were not traded:
they rest at the tail of their price, and nothing rests of a market order. -/
structure Joined (b b' : Book) (s : Side) (price : Option LimitPrice) (ids : List OrderId)
    (left : ℤ) : Prop where
  earlier : (resting b' s).filter (fun y => y.order.id ∉ ids) = resting b s
  behind : ∀ p, ∃ tail, atPrice b' s p = atPrice b s p ++ tail ∧
    (∀ y ∈ tail, y.order.id ∈ ids) ∧ (price ≠ some p → tail = []) ∧
    (price = some p → (tail.map RestingOrder.size).sum = left)
  market : price = none → resting b' s = resting b s

theorem Joined.trans {b b' b'' : Book} {s : Side} {price : Option LimitPrice}
    {ids ids' : List OrderId} {left left' : ℤ} (h : Joined b b' s price ids left)
    (h' : Joined b' b'' s price ids' left') :
    Joined b b'' s price (ids ++ ids') (left + left') := by
  constructor
  · rw [← h.earlier, ← h'.earlier, List.filter_filter]
    apply List.filter_congr
    intro y _
    simp
  · intro p
    obtain ⟨tail, htail, hids, hother, hleft⟩ := h.behind p
    obtain ⟨tail', htail', hids', hother', hleft'⟩ := h'.behind p
    refine ⟨tail ++ tail', by rw [htail', htail, List.append_assoc], ?_, ?_, ?_⟩
    · intro y hy
      rcases List.mem_append.mp hy with hy | hy
      · exact List.mem_append_left _ (hids y hy)
      · exact List.mem_append_right _ (hids' y hy)
    · intro hp
      rw [hother hp, hother' hp, List.append_nil]
    · intro hp
      rw [List.map_append, List.sum_append, hleft hp, hleft' hp]
  · intro hp
    rw [h'.market hp, h.market hp]

section

variable {b b' : Book} {o : NewOrder}

theorem leftover_eq_untraded (h : Invariant b) (o : NewOrder) :
    leftover (resting b) o.1 =
      o.1.quantity.toInt - volume (Ladder.trades (resting b) o.1) := by
  rw [leftover, volume_ladder h, PriceTimeAllocation.remaining_eq_quantity o.2]

/-- What an accepted order adds to its own side. -/
theorem joined_add (h : Invariant b) (hfree : b.ownedOrders o.1.id = none)
    (hadd : resting b' = Ladder.add (resting b) o.1) :
    Joined b b' o.1.side o.1.price [o.1.id]
      (o.1.quantity.toInt - volume (Ladder.trades (resting b) o.1)) := by
  have hown : resting b' o.1.side =
      place o.1.side (rested o.1 (leftover (resting b) o.1)) (resting b o.1.side) := by
    rw [hadd, add_own]
  rw [← leftover_eq_untraded h]
  constructor
  · have hold : (resting b o.1.side).filter (fun y => y.order.id ∉ [o.1.id]) =
        resting b o.1.side := by
      apply List.filter_eq_self.mpr
      intro y hy
      simpa using PriceTimeAllocation.not_resting_of_free h hfree hy
    rw [hown]
    cases hr : rested o.1 (leftover (resting b) o.1) with
    | none => exact hold
    | some x =>
      have hid := rested_id hr
      rw [place, filter_orderedInsert_self (by simp [hid]), hold]
  · intro p
    refine ⟨_, by
      rw [atPrice, hown]
      exact PriceTimeAllocation.filter_place _ (resting_sorted h _) p, ?_, ?_, ?_⟩
    · intro y hy
      have hr := Option.mem_toList.mp (List.mem_of_mem_filter hy)
      rw [rested_id hr]
      exact List.mem_singleton_self _
    · intro hp
      rw [List.filter_eq_nil_iff]
      intro y hy heq
      have hprice : y.price = p := by simpa using heq
      obtain ⟨_, hlimit, _⟩ := rested_eq_some (Option.mem_toList.mp hy)
      exact hp (hprice ▸ hlimit)
    · intro hp
      by_cases h0 : leftover (resting b) o.1 = 0
      · simp [rested, hp, h0]
      · obtain ⟨hnonneg, hle⟩ := leftover_bounds h o.2 hfree
        have hsize := toInt_ofInt_of_le hnonneg hle
        have hrest : (rested o.1 (leftover (resting b) o.1)).toList.filter
            (fun y => y.price = p) = [⟨p, resident o.1 (leftover (resting b) o.1)⟩] := by
          simp [rested, hp, h0]
        rw [hrest, List.map_singleton, List.sum_singleton]
        exact hsize
  · intro hp
    rw [hown, rested, hp]
    rfl

/-- A trade names a resting order of the opposite side and has its price. -/
theorem trade_listed {id : OrderId} (h : Invariant b) (o : NewOrder) {t : Trade}
    (ht : t ∈ Ladder.trades (resting b) o.1) (hn : names t id = true) (hne : o.1.id ≠ id) :
    (t.price, id) ∈ Listed b o.1.side.opposite := by
  obtain ⟨a, ha, rfl⟩ := List.mem_map.mp ht
  have hid := ((names_tradeOf o.1 a id).mp hn).resolve_left hne
  have hprice : (tradeOf o.1 a).price = a.1.price := by
    rw [tradeOf]
    cases o.1.side <;> rfl
  rw [hprice, ← hid]
  exact (h.mem_resting.mp (sweepOf_bounds h o.2 a ha).1).1

/-- An order takes no id but its own. -/
theorem free_after (h : Invariant b) (h' : Invariant b')
    (hadd : resting b' = Ladder.add (resting b) o.1) {i : OrderId} (hne : o.1.id ≠ i)
    (hfree : b.ownedOrders i = none) : b'.ownedOrders i = none := by
  rw [← Option.not_isSome_iff_eq_none, isSome_owned_iff_resting h']
  rintro ⟨s, y, hy, rfl⟩
  rcases PriceTimeAllocation.mem_after h o.2 hadd hy with ⟨_, hr⟩ | ⟨x, hx, hid⟩
  · exact hne (rested_id hr).symm
  · exact PriceTimeAllocation.not_resting_of_free h hfree hx hid

theorem opposite_after {o : Order} (hadd : resting b' = Ladder.add (resting b) o) :
    resting b' o.side.opposite = (sweepOf (resting b) o).2 := by
  rw [hadd, add_opposite]

/-- A sweep moves no order of the opposite side to another price. -/
theorem listed_swept (h : Invariant b) (h' : Invariant b')
    (hadd : resting b' = Ladder.add (resting b) o.1) {a : LimitPrice × OrderId}
    (ha : a ∈ Listed b' o.1.side.opposite) : a ∈ Listed b o.1.side.opposite := by
  have hopp : resting b' o.1.side.opposite = (sweepOf (resting b) o.1).2 := opposite_after hadd
  have hsuffix : (sweepOf (resting b) o.1).2.map (fun x => (x.price, x.order.id)) <:+
      (resting b o.1.side.opposite).map fun x => (x.price, x.order.id) :=
    Allocation.sweep_suffix (by intro _ _; rfl) _ _
  rw [← h'.resting_places, hopp] at ha
  rw [← h.resting_places]
  exact hsuffix.subset ha

end

/-! ## One order and its two parts -/

theorem sum_pos {q₁ q₂ : Int32} (h₁ : 0 < q₁) (h₂ : 0 < q₂) (h : q₁.toInt + q₂.toInt < 2 ^ 31) :
    (q₁ + q₂).toInt = q₁.toInt + q₂.toInt ∧ 0 < q₁ + q₂ := by
  rw [Int32.lt_iff_toInt_lt, Int32.toInt_zero] at h₁ h₂
  have hsum : (q₁ + q₂).toInt = q₁.toInt + q₂.toInt := by
    rw [Int32.toInt_add]
    exact Int.bmod_eq_of_le (by omega) (by omega)
  refine ⟨hsum, ?_⟩
  rw [Int32.lt_iff_toInt_lt, Int32.toInt_zero, hsum]
  omega

/-- The two runs from `b`, of one order to `b₁` and of its two parts to `b₂`, as the others see
them. -/
structure Alike (b b₁ b₂ : Book) (side : Side) (ts₁ ts₂ : List Trade) : Prop where
  filled : ∀ x ∈ resting b side.opposite,
    volume (ts₁.filter fun t => names t x.order.id) = volume (ts₂.filter fun t => names t x.order.id)
  prices : ∀ x ∈ resting b side.opposite, ∀ t ∈ ts₁ ++ ts₂, names t x.order.id = true →
    t.price = x.price
  volumes : volume ts₁ = volume ts₂
  levels : b₂.levels side.opposite = b₁.levels side.opposite
  opposite : resting b₂ side.opposite = resting b₁ side.opposite

section

variable {b b₁ b' b₂ : Book} {side : Side} {price : Option LimitPrice} {q₁ q₂ : Int32}
  {hq₁ : 0 < q₁} {hq₂ : 0 < q₂} {id id₁ id₂ : OrderId} {trader trader₁ trader₂ : TraderId}

theorem fill_fill (x : RestingOrder) (s t : ℤ) : (x.fill s).fill t = x.fill (s + t) := by
  have hq : x.order.remainingQty - Int32.ofInt s - Int32.ofInt t =
      x.order.remainingQty - Int32.ofInt (s + t) := by
    rw [Int32.ofInt_add, Int32.sub_sub]
  simp only [RestingOrder.fill, Order.fill, Order.setStatus, hq]

/-- The two parts take from the opposite side what the whole order takes. -/
theorem sweepOf_parts (hq : 0 < q₁ + q₂) {β : Type*} [DecidableEq β] (key : RestingOrder → β)
    (hkey : ∀ x t, key (RestingOrder.fill x t) = key x)
    (hsum : (q₁ + q₂).toInt = q₁.toInt + q₂.toInt)
    (hb : resting b' side.opposite =
      (sweepOf (resting b) (incoming id₁ trader₁ side price q₁ hq₁).1).2) :
    (sweepOf (resting b) (incoming id trader side price (q₁ + q₂) hq).1).2 =
        (sweepOf (resting b') (incoming id₂ trader₂ side price q₂ hq₂).1).2 ∧
      ∀ k, Allocation.takenFrom key k
          (sweepOf (resting b) (incoming id trader side price (q₁ + q₂) hq).1).1 =
        Allocation.takenFrom key k
            (sweepOf (resting b) (incoming id₁ trader₁ side price q₁ hq₁).1).1 +
          Allocation.takenFrom key k
            (sweepOf (resting b') (incoming id₂ trader₂ side price q₂ hq₂).1).1 := by
  have h₁ := (incoming id₁ trader₁ side price q₁ hq₁).2.remaining_pos
  have h₂ := (incoming id₂ trader₂ side price q₂ hq₂).2.remaining_pos
  have hwhole : sweepOf (resting b) (incoming id trader side price (q₁ + q₂) hq).1 =
      Allocation.sweep RestingOrder.size (accepts (incoming id trader side price (q₁ + q₂) hq).1)
        RestingOrder.fill (q₁.toInt + q₂.toInt) (resting b side.opposite) := by
    rw [← hsum]
    rfl
  have hsecond : sweepOf (resting b') (incoming id₂ trader₂ side price q₂ hq₂).1 =
      Allocation.sweep RestingOrder.size (accepts (incoming id trader side price (q₁ + q₂) hq).1)
        RestingOrder.fill q₂.toInt (sweepOf (resting b) (incoming id₁ trader₁ side price q₁ hq₁).1).2 := by
    rw [← hb]
    rfl
  rw [hwhole, hsecond]
  exact Allocation.sweep_add fill_sizes (fun _ _ => rfl) fill_fill hkey h₁.le h₂.le _

theorem takenFrom_all (xs : List (RestingOrder × ℤ)) :
    Allocation.takenFrom (fun _ => ()) () xs = (xs.map Prod.snd).sum := by
  rw [Allocation.takenFrom, List.filter_eq_self.mpr]
  simp

theorem alike_parts {hq : 0 < q₁ + q₂} (hsum : (q₁ + q₂).toInt = q₁.toInt + q₂.toInt)
    (h : Invariant b) (h₁ : Invariant b₁) (h' : Invariant b') (h₂ : Invariant b₂)
    (hfree : b.ownedOrders id = none) (hfree₁ : b.ownedOrders id₁ = none)
    (hfree₂ : b.ownedOrders id₂ = none)
    (hadd : resting b₁ = Ladder.add (resting b) (incoming id trader side price (q₁ + q₂) hq).1)
    (hadd₁ : resting b' = Ladder.add (resting b) (incoming id₁ trader₁ side price q₁ hq₁).1)
    (hadd₂ : resting b₂ = Ladder.add (resting b') (incoming id₂ trader₂ side price q₂ hq₂).1) :
    Alike b b₁ b₂ side
      (Ladder.trades (resting b) (incoming id trader side price (q₁ + q₂) hq).1)
      (Ladder.trades (resting b) (incoming id₁ trader₁ side price q₁ hq₁).1 ++
        Ladder.trades (resting b') (incoming id₂ trader₂ side price q₂ hq₂).1) := by
  have hb₁ : resting b₁ side.opposite =
      (sweepOf (resting b) (incoming id trader side price (q₁ + q₂) hq).1).2 := opposite_after hadd
  have hb' : resting b' side.opposite =
      (sweepOf (resting b) (incoming id₁ trader₁ side price q₁ hq₁).1).2 := opposite_after hadd₁
  have hb₂ : resting b₂ side.opposite =
      (sweepOf (resting b') (incoming id₂ trader₂ side price q₂ hq₂).1).2 := opposite_after hadd₂
  have hne : ∀ {i : OrderId}, b.ownedOrders i = none →
      ∀ x ∈ resting b side.opposite, i ≠ x.order.id :=
    fun hi _ hx => (PriceTimeAllocation.not_resting_of_free h hi hx).symm
  obtain ⟨hopp, htaken⟩ := sweepOf_parts hq (fun x => x.order.id) (fun _ _ => rfl) hsum hb'
  have hsame : resting b₂ side.opposite = resting b₁ side.opposite := by rw [hb₁, hb₂, hopp]
  constructor
  · intro x hx
    rw [List.filter_append, volume_append, volume_names h _ (hne hfree x hx),
      volume_names h _ (hne hfree₁ x hx), volume_names h' _ (hne hfree₂ x hx)]
    exact htaken x.order.id
  · intro x hx t ht hn
    have hplace := (h.mem_resting.mp hx).1
    have hlisted : (t.price, x.order.id) ∈ Listed b side.opposite := by
      rcases List.mem_append.mp ht with ht | ht
      · exact trade_listed h _ ht hn (hne hfree x hx)
      · rcases List.mem_append.mp ht with ht | ht
        · exact trade_listed h _ ht hn (hne hfree₁ x hx)
        · have hswept : (t.price, x.order.id) ∈ Listed b' side.opposite :=
            trade_listed h' _ ht hn (hne hfree₂ x hx)
          exact listed_swept h h' hadd₁ hswept
    exact (h.unique_place hlisted hplace).2
  · rw [volume_append, volume_ladder h, volume_ladder h, volume_ladder h', ← takenFrom_all,
      ← takenFrom_all, ← takenFrom_all]
    exact (sweepOf_parts hq (fun _ => ()) (fun _ _ => rfl) hsum hb').2 ()
  · exact levels_ext h₁ h₂ hsame
  · exact hsame

end

/-- One order of `q₁ + q₂` fills the opposite orders, and leaves both sides, as an order of `q₁`
and then one of `q₂` do. -/
theorem splitting_changes_nothing (calls : List Call) (side : Side) (price : Option LimitPrice)
    (q₁ q₂ : Int32) (hq₁ : 0 < q₁) (hq₂ : 0 < q₂) (hrange : q₁.toInt + q₂.toInt < 2 ^ 31)
    (id id₁ id₂ : OrderId) (trader trader₁ trader₂ : TraderId) (hne : id₁ ≠ id₂)
    (hfree : ∀ i ∈ [id, id₁, id₂], (run emptyBook calls).ownedOrders i = none) :
    let b := run emptyBook calls
    ∃ ts ts₁ ts₂ b₁ b' b₂,
      (addOrder (some (incoming id trader side price (q₁ + q₂) (sum_pos hq₁ hq₂ hrange).2).1)).run b =
        .ok ts b₁ ∧
      (addOrder (some (incoming id₁ trader₁ side price q₁ hq₁).1)).run b = .ok ts₁ b' ∧
      (addOrder (some (incoming id₂ trader₂ side price q₂ hq₂).1)).run b' = .ok ts₂ b₂ ∧
      Alike b b₁ b₂ side ts (ts₁ ++ ts₂) ∧
      Joined b b₁ side price [id] (q₁.toInt + q₂.toInt - volume ts) ∧
      Joined b b₂ side price [id₁, id₂] (q₁.toInt + q₂.toInt - volume (ts₁ ++ ts₂)) := by
  intro b
  have h : Invariant b := run_invariant calls
  have hfree₀ : b.ownedOrders id = none := hfree id (by simp)
  have hfree₁ : b.ownedOrders id₁ = none := hfree id₁ (by simp)
  have hfree₂ : b.ownedOrders id₂ = none := hfree id₂ (by simp)
  obtain ⟨hsum, hq⟩ := sum_pos hq₁ hq₂ hrange
  obtain ⟨b₁, hrun, h₁, hadd⟩ :=
    addOrder_refines h (incoming id trader side price (q₁ + q₂) hq).2 hfree₀
  obtain ⟨b', hrun₁, h', hadd₁⟩ := addOrder_refines h (incoming id₁ trader₁ side price q₁ hq₁).2 hfree₁
  have hfree' : b'.ownedOrders id₂ = none := free_after h h' hadd₁ hne hfree₂
  obtain ⟨b₂, hrun₂, h₂, hadd₂⟩ :=
    addOrder_refines h' (incoming id₂ trader₂ side price q₂ hq₂).2 hfree'
  refine ⟨_, _, _, b₁, b', b₂, hrun, hrun₁, hrun₂,
    alike_parts hsum h h₁ h' h₂ hfree₀ hfree₁ hfree₂ hadd hadd₁ hadd₂, ?_, ?_⟩
  · rw [← hsum]
    exact joined_add h hfree₀ hadd
  · have hleft : q₁.toInt + q₂.toInt - volume
        (Ladder.trades (resting b) (incoming id₁ trader₁ side price q₁ hq₁).1 ++
          Ladder.trades (resting b') (incoming id₂ trader₂ side price q₂ hq₂).1) =
        q₁.toInt - volume (Ladder.trades (resting b) (incoming id₁ trader₁ side price q₁ hq₁).1) +
          (q₂.toInt - volume
            (Ladder.trades (resting b') (incoming id₂ trader₂ side price q₂ hq₂).1)) := by
      rw [volume_append]
      omega
    rw [hleft]
    exact (joined_add h hfree₁ hadd₁).trans (joined_add h' hfree' hadd₂)

/-- Against one ask, a buy of 8 and its parts of 3 and 5. -/
theorem splitting_a_buy_of_eight :
    let b := run emptyBook [Call.add (some (.limit 1 1 .sell 5 five_pos .hundred))]
    ∃ ts ts₁ ts₂ b₁ b' b₂,
      (addOrder (some (incoming 2 2 .buy (some .hundred) (3 + 5) (by decide)).1)).run b =
        .ok ts b₁ ∧
      (addOrder (some (incoming 3 2 .buy (some .hundred) 3 three_pos).1)).run b = .ok ts₁ b' ∧
      (addOrder (some (incoming 4 2 .buy (some .hundred) 5 five_pos).1)).run b' = .ok ts₂ b₂ ∧
      Alike b b₁ b₂ .buy ts (ts₁ ++ ts₂) ∧
      Joined b b₁ .buy (some .hundred) [2] (Int32.toInt 3 + Int32.toInt 5 - volume ts) ∧
      Joined b b₂ .buy (some .hundred) [3, 4]
        (Int32.toInt 3 + Int32.toInt 5 - volume (ts₁ ++ ts₂)) := by
  refine splitting_changes_nothing [Call.add (some _)] .buy (some .hundred) 3 5 three_pos five_pos
    (by decide) 2 3 4 2 2 2 (by decide) ?_
  intro i hi
  simp only [List.mem_cons, List.not_mem_nil, or_false] at hi
  rcases hi with rfl | rfl | rfl
  · decide
  · decide
  · decide

end OrderSplitting
