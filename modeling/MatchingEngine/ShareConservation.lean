import MatchingEngine.PriceTimePriority

/-! # Share conservation

Every share submitted on a side is traded, resting, dropped with a market leftover, or
was withdrawn by a cancel. The terms are read off the calls and the books of the run. -/
namespace ShareConservation

open EngineTypes
open Orders
open OrderedMap
open OrderBook
open PriceTimeBook
open BookInvariant
open BookRefinement
open BookRuns
open PriceTimePriority

/-- A quantity that each call contributes, summed over a run. -/
def total (f : Book → Call → ℤ) (b : Book) : List Call → ℤ
  | [] => 0
  | c :: calls => f b c + total f (step b c) calls

def submittedBy (s : Side) (b : Book) : Call → ℤ
  | .add (some o) => if accepted b o.1 ∧ o.1.side = s then o.1.quantity.toInt else 0
  | _ => 0

def volume (ts : List Trade) : ℤ := (ts.map fun t => t.quantity.toInt).sum

def tradedBy (b : Book) (c : Call) : ℤ := volume (returned ((perform c).run b))

/-- What `matchIncoming` leaves of the incoming order. -/
def leftAfterMatching (b : Book) (o : Order) : ℤ :=
  match (do let _ ← matchIncoming o.id; deref o.id : BookM Order).run (received b o) with
  | .ok raw _ => raw.remaining
  | .error _ _ => 0

/-- The leftover of a market order, dropped. -/
def droppedBy (s : Side) (b : Book) : Call → ℤ
  | .add (some o) =>
    if accepted b o.1 ∧ o.1.getOrderKind = .market ∧ o.1.side = s then leftAfterMatching b o.1
    else 0
  | _ => 0

/-- What was left of an order when it was cancelled. -/
def cancelledBy (s : Side) (b : Book) : Call → ℤ
  | .cancel id =>
    match b.ownedOrders id with
    | some o => if o.side = s then o.remaining else 0
    | none => 0
  | _ => 0

def restingTotal (b : Book) (s : Side) : ℤ := ((resting b s).map RestingOrder.size).sum

def names (t : Trade) (id : OrderId) : Bool := t.buyOrderId = id ∨ t.sellOrderId = id

/-- The shares traded under an id from the call at position `i` on. -/
def tradedSince (calls : List Call) (id : OrderId) (i : ℕ) : ℤ :=
  volume ((trades (run emptyBook (calls.take i)) (calls.drop i)).filter fun t => names t id)

/-! ## Sums -/

theorem total_append (f : Book → Call → ℤ) (b : Book) (calls : List Call) (c : Call) :
    total f b (calls ++ [c]) = total f b calls + f (run b calls) c := by
  induction calls generalizing b with
  | nil => simp [total]
  | cons d calls ih =>
    have h := ih (step b d)
    simp only [List.cons_append, total, h, run, List.foldl_cons]
    omega

theorem volume_append (ts us : List Trade) : volume (ts ++ us) = volume ts + volume us := by
  simp [volume]

/-- Under distinct keys, the items of one key add up to that item. -/
theorem sum_filter_key {α : Type} (key : α → OrderId) (size : α → ℤ) {l : List α} {x : α}
    (hn : (l.map key).Nodup) (hx : x ∈ l) :
    ((l.filter fun y => key y ≠ key x).map size).sum + size x = (l.map size).sum := by
  induction l with
  | nil => cases hx
  | cons y l ih =>
    rw [List.map_cons, List.nodup_cons] at hn
    by_cases hk : key y = key x
    · have hxy : x = y := by
        rcases List.mem_cons.mp hx with rfl | hm
        · rfl
        · exact absurd (List.mem_map.mpr ⟨x, hm, hk.symm⟩) hn.1
      subst hxy
      have hrest : l.filter (fun z => key z ≠ key x) = l := by
        apply List.filter_eq_self.mpr
        intro z hz
        have hne : key z ≠ key x := fun he => hn.1 (he ▸ List.mem_map.mpr ⟨z, hz, rfl⟩)
        simpa using hne
      rw [List.filter_cons_of_neg (by simp), hrest, List.map_cons, List.sum_cons]
      omega
    · have hm : x ∈ l := by
        rcases List.mem_cons.mp hx with rfl | hm
        · exact absurd rfl hk
        · exact hm
      have h := ih hn.2 hm
      rw [List.filter_cons_of_pos (by simpa using hk), List.map_cons, List.sum_cons, List.map_cons,
        List.sum_cons]
      omega

/-! ## One call -/

section

variable {b b' : Book} {o : NewOrder}

theorem fill_sizes (a : RestingOrder) (t : ℤ) (h0 : 0 < t) (h : t < a.size) :
    (a.fill t).size = a.size - t := RestingOrder.size_fill h0.le h.le

theorem resting_sizes (h : Invariant b) (s : Side) : ∀ x ∈ resting b s, 0 < x.size :=
  fun _ hx => (h.placed_of_resting hx).positive

theorem sweepOf_bounds (h : Invariant b) (hv : o.1.Valid) : ∀ a ∈ (sweepOf (resting b) o.1).1,
    a.1 ∈ resting b o.1.side.opposite ∧ 0 < a.2 ∧ a.2 ≤ a.1.size :=
  Allocation.sweep_bounds hv.remaining_pos.le (resting_sizes h _)

theorem tradeOf_quantity {a : RestingOrder × ℤ} (h0 : 0 < a.2) (h : a.2 ≤ a.1.size) :
    (tradeOf o.1 a).quantity.toInt = a.2 := by
  have ht : (Int32.ofInt a.2).toInt = a.2 := toInt_ofInt_of_le h0.le h
  rw [tradeOf]
  cases o.1.side <;> exact ht

/-- The trades of a call carry the amounts of its sweep. -/
theorem volume_trades {fs : List (RestingOrder × ℤ)}
    (hb : ∀ a ∈ fs, 0 < a.2 ∧ a.2 ≤ a.1.size) :
    volume (fs.map (tradeOf o.1)) = (fs.map Prod.snd).sum := by
  rw [volume]
  rw [List.map_map]
  congr 1
  apply List.map_congr_left
  intro a ha
  exact tradeOf_quantity (hb a ha).1 (hb a ha).2

theorem volume_ladder (h : Invariant b) (o : NewOrder) :
    volume (Ladder.trades (resting b) o.1) = ((sweepOf (resting b) o.1).1.map Prod.snd).sum :=
  volume_trades fun a ha => (sweepOf_bounds h o.2 a ha).2

theorem leftAfterMatching_eq (h : Invariant b) (hfree : b.ownedOrders o.1.id = none) :
    leftAfterMatching b o.1 = leftover (resting b) o.1 := by
  obtain ⟨b', hrun, hm, _⟩ := matchIncoming_ok h o.2 hfree
  rw [leftAfterMatching]
  rw [bind_ok hrun, deref_ok hm.owned]
  exact hm.toInt_left

theorem sum_place (s : Side) (x : Option RestingOrder) (queue : List RestingOrder) :
    ((place s x queue).map RestingOrder.size).sum =
      (queue.map RestingOrder.size).sum + ((x.map RestingOrder.size).getD 0) := by
  cases x with
  | none => simp [place]
  | some x =>
    have hp := (List.perm_orderedInsert (fun a c => better s a.price c.price) x queue).map
      RestingOrder.size
    rw [place, hp.sum_eq, List.map_cons, List.sum_cons]
    simp [add_comm]

/-- The leftover rests or, of a market order, is dropped. -/
theorem rested_or_dropped (h : Invariant b) (hfree : b.ownedOrders o.1.id = none) :
    ((rested o.1 (leftover (resting b) o.1)).map RestingOrder.size).getD 0 +
      (if o.1.getOrderKind = .market then leftover (resting b) o.1 else 0) =
        leftover (resting b) o.1 := by
  obtain ⟨h0, hle⟩ := leftover_bounds h o.2 hfree
  unfold rested Order.getOrderKind
  cases o.1.price with
  | none => simp
  | some price =>
    by_cases hz : leftover (resting b) o.1 = 0
    · simp [hz]
    · have hsize : (⟨price, resident o.1 (leftover (resting b) o.1)⟩ : RestingOrder).size =
          leftover (resting b) o.1 := toInt_ofInt_of_le h0 hle
      simp [hz, hsize]

theorem sum_cancel (h : Invariant b) (s : Side) (id : OrderId) :
    ((Ladder.cancel (resting b) id s).map RestingOrder.size).sum + cancelledBy s b (.cancel id) =
      restingTotal b s := by
  unfold Ladder.cancel restingTotal cancelledBy
  by_cases hex : ∃ x ∈ resting b s, x.order.id = id
  · obtain ⟨x, hx, rfl⟩ := hex
    obtain ⟨_, ho⟩ := h.mem_resting.mp hx
    have hside := (h.placed_of_resting hx).side
    simp only [ho, hside, if_true]
    exact sum_filter_key (fun x => x.order.id) RestingOrder.size (h.resting_nodup s) hx
  · have hsame : (resting b s).filter (fun x => x.order.id ≠ id) = resting b s := by
      apply List.filter_eq_self.mpr
      intro x hx
      have hne : x.order.id ≠ id := fun hid => hex ⟨x, hx, hid⟩
      simpa using hne
    rw [hsame]
    cases ho : b.ownedOrders id with
    | none => simp [ho]
    | some o =>
      have hne : o.side ≠ s := by
        intro hs
        rcases h.owned id o ho with hc | ⟨s', price, hm⟩
        · cases hc
        · have hp := h.placed_of_owned hm ho
          have hs' : s' = s := hp.side.symm.trans hs
          subst hs'
          exact hex ⟨⟨price, o⟩, h.mem_resting.mpr ⟨hp.named.symm ▸ hm, hp.named.symm ▸ ho⟩, hp.named⟩
      simp [ho, hne]

theorem sum_swept (h : Invariant b) (o : NewOrder) :
    (((sweepOf (resting b) o.1).2.map RestingOrder.size).sum +
      ((sweepOf (resting b) o.1).1.map Prod.snd).sum) = restingTotal b o.1.side.opposite :=
  Allocation.sum_sweep fill_sizes (resting_sizes h _)

/-- One call balances on each side. -/
theorem call_conserves (h : Invariant b) (c : Call) (s : Side) :
    submittedBy s b c + restingTotal b s =
      tradedBy b c + restingTotal (step b c) s + droppedBy s b c + cancelledBy s b c := by
  obtain ⟨hstep, _⟩ := step_cases h c
  rw [tradedBy]
  generalize step b c = b' at hstep
  generalize returned ((perform c).run b) = ts at hstep
  cases hstep with
  | null => simp [submittedBy, droppedBy, cancelledBy, volume]
  | rejected o hown =>
    have hacc := not_accepted h hown
    simp [submittedBy, droppedBy, cancelledBy, volume, hacc]
  | added o _ hfree hadd =>
    have hacc := (accepted_iff h).mpr hfree
    have hleft := leftAfterMatching_eq h hfree
    have hrest := rested_or_dropped h hfree
    have hswept := sum_swept h o
    have hquantity : o.1.quantity.toInt = o.1.remaining := by rw [Order.remaining, o.2.2.1]
    have hresidual : leftover (resting b) o.1 =
        o.1.remaining - ((sweepOf (resting b) o.1).1.map Prod.snd).sum := rfl
    rw [volume_ladder h]
    by_cases hs : o.1.side = s
    · subst hs
      have hown : restingTotal b' o.1.side = restingTotal b o.1.side +
          ((rested o.1 (leftover (resting b) o.1)).map RestingOrder.size).getD 0 := by
        simp only [restingTotal]
        rw [hadd, add_own, sum_place]
      by_cases hk : o.1.getOrderKind = .market
      · simp only [submittedBy, droppedBy, cancelledBy, hacc, hk, and_self, if_true, hleft] at hrest ⊢
        omega
      · simp only [submittedBy, droppedBy, cancelledBy, hacc, hk, and_true, if_true,
          and_false, if_false] at hrest ⊢
        omega
    · have hopp : restingTotal b' o.1.side.opposite =
          ((sweepOf (resting b) o.1).2.map RestingOrder.size).sum := by
        rw [restingTotal, hadd, add_opposite]
      simp only [submittedBy, droppedBy, cancelledBy, hs, and_false, if_false]
      rw [eq_opposite_of_ne (Ne.symm hs)]
      omega
  | cancelled id _ hcancel =>
    have hsum := sum_cancel h s id
    unfold restingTotal at hsum ⊢
    rw [hcancel]
    simp only [submittedBy, droppedBy, volume, List.map_nil, List.sum_nil]
    omega

end

/-! ## The account of one order -/

theorem names_tradeOf (o : Order) (a : RestingOrder × ℤ) (id : OrderId) :
    names (tradeOf o a) id = true ↔ o.id = id ∨ a.1.order.id = id := by
  unfold names tradeOf
  cases o.side
  · simp
  · simp [or_comm]

theorem tradedSince_concat {calls : List Call} {i : ℕ} (hi : i ≤ calls.length) (c : Call)
    (id : OrderId) : tradedSince (calls ++ [c]) id i = tradedSince calls id i +
      volume ((returned ((perform c).run (run emptyBook calls))).filter fun t => names t id) := by
  have hrun : run (run emptyBook (calls.take i)) (calls.drop i) = run emptyBook calls := by
    rw [run, run, ← List.foldl_append, List.take_append_drop]
    rfl
  simp only [tradedSince]
  rw [List.take_append_of_le_length hi, List.drop_append_of_le_length hi, trades_append, hrun,
    List.filter_append, volume_append]

theorem tradedSince_last (calls : List Call) (id : OrderId) :
    tradedSince calls id calls.length = 0 := by
  simp [tradedSince, trades, volume]

/-- Each resting order has lost exactly what was traded under its id since it arrived. -/
def Accounted (calls : List Call) (b : Book) : Prop :=
  ∀ s, ∀ x ∈ resting b s, ∃ i, ArrivedAt calls x.order.id i ∧
    x.order.quantity.toInt - x.size = tradedSince calls x.order.id i

section

variable {calls : List Call} {b' : Book}

/-- An order that a call leaves alone keeps its account. -/
theorem Accounted.keep {c : Call} {ts : List Trade} (h : Accounted calls (run emptyBook calls))
    (hts : returned ((perform c).run (run emptyBook calls)) = ts) {s : Side} {x : RestingOrder}
    (hx : x ∈ resting (run emptyBook calls) s) (hn : ∀ t ∈ ts, names t x.order.id = false)
    (hc : ∀ o : NewOrder, c = .add (some o) → o.1.id = x.order.id →
      accepted (run emptyBook calls) o.1 = false) :
    ∃ i, ArrivedAt (calls ++ [c]) x.order.id i ∧
      x.order.quantity.toInt - x.size = tradedSince (calls ++ [c]) x.order.id i := by
  obtain ⟨i, hi, haccount⟩ := h s x hx
  refine ⟨i, arrivedAt_concat hi hc, ?_⟩
  have hnone : ts.filter (fun t => names t x.order.id) = [] := by
    rw [List.filter_eq_nil_iff]
    intro t ht
    simp [hn t ht]
  rw [tradedSince_concat (acceptedAt_lt hi.1).le, hts, hnone, haccount]
  simp [volume]

/-- The trades that name a resting order carry what the sweep took from it. -/
theorem volume_names {b : Book} (h : Invariant b) (o : NewOrder) {id : OrderId}
    (hne : o.1.id ≠ id) :
    volume ((Ladder.trades (resting b) o.1).filter fun t => names t id) =
      Allocation.takenFrom (fun x : RestingOrder => x.order.id) id (sweepOf (resting b) o.1).1 := by
  have hfilter : (Ladder.trades (resting b) o.1).filter (fun t => names t id) =
      ((sweepOf (resting b) o.1).1.filter fun a => a.1.order.id = id).map (tradeOf o.1) := by
    rw [Ladder.trades, List.filter_map]
    congr 1
    apply List.filter_congr
    intro a _
    rw [Bool.eq_iff_iff, Function.comp_apply, names_tradeOf]
    simp [hne]
  rw [hfilter, volume_trades fun a ha =>
    (sweepOf_bounds h o.2 a (List.mem_of_mem_filter ha)).2, Allocation.takenFrom]

/-- Every trade of a call names its taker. -/
theorem trades_name_taker (L : Ladder) (o : Order) :
    (Ladder.trades L o).filter (fun t => names t o.id) = Ladder.trades L o := by
  apply List.filter_eq_self.mpr
  intro t ht
  obtain ⟨a, _, rfl⟩ := List.mem_map.mp ht
  exact (names_tradeOf o a o.id).mpr (Or.inl rfl)

theorem accounted_added {o : NewOrder} (h : Invariant (run emptyBook calls))
    (ha : Accounted calls (run emptyBook calls))
    (hts : returned ((perform (.add (some o))).run (run emptyBook calls)) =
      Ladder.trades (resting (run emptyBook calls)) o.1)
    (hfree : (run emptyBook calls).ownedOrders o.1.id = none)
    (hadd : resting b' = Ladder.add (resting (run emptyBook calls)) o.1) :
    Accounted (calls ++ [.add (some o)]) b' := by
  have hacc := (accepted_iff h).mpr hfree
  have hids : ∀ s, ∀ x ∈ resting (run emptyBook calls) s, o.1.id ≠ x.order.id := by
    intro s x hx hid
    have hown := (isSome_owned_iff_resting h o.1.id).mpr ⟨s, x, hx, hid.symm⟩
    simp [hfree] at hown
  have hstill : ∀ {x : RestingOrder}, o.1.id ≠ x.order.id → ∀ o' : NewOrder,
      Call.add (some o) = .add (some o') → o'.1.id = x.order.id →
        accepted (run emptyBook calls) o'.1 = false := by
    intro x hne o' ho' hid
    cases ho'
    exact absurd hid hne
  intro s y hy
  rw [hadd, Ladder.add] at hy
  by_cases hs : s = o.1.side
  · subst hs
    rw [if_pos rfl] at hy
    have hold : ∀ x ∈ resting (run emptyBook calls) o.1.side,
        ∃ i, ArrivedAt (calls ++ [.add (some o)]) x.order.id i ∧
          x.order.quantity.toInt - x.size =
            tradedSince (calls ++ [.add (some o)]) x.order.id i := by
      intro x hx
      refine ha.keep hts hx ?_ (hstill (hids _ x hx))
      intro t ht
      obtain ⟨a, ham, rfl⟩ := List.mem_map.mp ht
      rw [Bool.eq_false_iff, ne_eq, names_tradeOf]
      rintro (hid | hid)
      · exact hids _ x hx hid
      · have hplace := (h.mem_resting.mp (sweepOf_bounds h o.2 a ham).1).1
        rw [hid] at hplace
        exact opposite_ne o.1.side (h.unique_place hplace (h.mem_resting.mp hx).1).1
    rcases mem_place.mp hy with hr | hy
    · -- The leftover has lost what this very call traded.
      obtain ⟨h0, hle⟩ := leftover_bounds h o.2 hfree
      obtain ⟨horder, _, _⟩ := rested_eq_some hr
      have hid : y.order.id = o.1.id := rested_id hr
      have hsize : y.size = leftover (resting (run emptyBook calls)) o.1 := by
        rw [RestingOrder.size, horder]
        exact toInt_ofInt_of_le h0 hle
      have hquantity : y.order.quantity.toInt = o.1.remaining := by
        rw [horder, Order.remaining, o.2.2.1]
        rfl
      refine ⟨calls.length, hid ▸ arrivedAt_last o hacc, ?_⟩
      rw [tradedSince_concat le_rfl, tradedSince_last, hts, hid, trades_name_taker,
        volume_ladder h, hsize, hquantity, leftover]
      omega
    · exact hold y hy
  · rw [if_neg hs] at hy
    obtain ⟨x, hx, hid, hxy, hsum⟩ := Allocation.sweep_account fill_sizes
      (fun x : RestingOrder => x.order.id) (fun _ _ => rfl)
      (h.resting_nodup o.1.side.opposite) y hy
    have hne : o.1.id ≠ y.order.id := hid ▸ hids _ x hx
    have hquantity : y.order.quantity = x.order.quantity := by
      rcases hxy with rfl | ⟨t, rfl⟩ <;> rfl
    obtain ⟨i, hi, haccount⟩ := ha _ x hx
    rw [hid] at hi haccount
    refine ⟨i, arrivedAt_concat hi (hstill hne), ?_⟩
    rw [tradedSince_concat (acceptedAt_lt hi.1).le, hts, volume_names h o hne, ← haccount,
      hquantity]
    rw [sweepOf]
    omega

theorem accounted_step (h : Invariant (run emptyBook calls))
    (ha : Accounted calls (run emptyBook calls)) (c : Call) :
    Accounted (calls ++ [c]) (run emptyBook (calls ++ [c])) := by
  rw [run_concat]
  obtain ⟨hstep, _⟩ := step_cases h c
  generalize step (run emptyBook calls) c = b' at hstep
  generalize hts : returned ((perform c).run (run emptyBook calls)) = ts at hstep
  cases hstep with
  | null => exact fun s x hx => ha.keep hts hx (by simp) nofun
  | rejected o hown =>
    intro s x hx
    apply ha.keep hts hx (by simp)
    intro o' hc _
    cases hc
    exact not_accepted h hown
  | added o _ hfree hadd => exact accounted_added h ha hts hfree hadd
  | cancelled id _ hcancel =>
    intro s x hx
    rw [hcancel] at hx
    exact ha.keep hts (List.mem_of_mem_filter hx) (by simp) nofun

end

theorem accounted_run (calls : List Call) : Accounted calls (run emptyBook calls) := by
  induction calls using List.reverseRecOn with
  | nil =>
    intro s x hx
    cases s <;> cases hx
  | append_singleton calls c ih => exact accounted_step (run_invariant calls) ih c

theorem total_conserves (calls : List Call) (s : Side) :
    total (submittedBy s) emptyBook calls =
      total tradedBy emptyBook calls + restingTotal (run emptyBook calls) s +
        total (droppedBy s) emptyBook calls + total (cancelledBy s) emptyBook calls := by
  induction calls using List.reverseRecOn with
  | nil =>
    have hempty : restingTotal emptyBook s = 0 := by cases s <;> rfl
    simp [total, hempty]
  | append_singleton calls c ih =>
    have hcall := call_conserves (run_invariant calls) c s
    rw [run_concat]
    simp only [total_append]
    omega

theorem volume_run (calls : List Call) :
    volume (trades emptyBook calls) = total tradedBy emptyBook calls := by
  induction calls using List.reverseRecOn with
  | nil => rfl
  | append_singleton calls c ih => rw [trades_append, volume_append, ih, total_append, tradedBy]

/-- The ledger of each side balances over every run, and so does every resting order's. -/
theorem shares_conserved (calls : List Call) (s : Side) :
    total (submittedBy s) emptyBook calls =
        volume (trades emptyBook calls) + restingTotal (run emptyBook calls) s +
          total (droppedBy s) emptyBook calls + total (cancelledBy s) emptyBook calls ∧
      ∀ x ∈ resting (run emptyBook calls) s, ∃ i, ArrivedAt calls x.order.id i ∧
        x.order.quantity.toInt - x.order.remaining = tradedSince calls x.order.id i := by
  constructor
  · rw [total_conserves, volume_run]
  · exact accounted_run calls s

end ShareConservation
