import MatchingEngine.LadderRuns
import MatchingEngine.PriceTimePriority

/-! # The matching loop is safe and terminates

The loop has no counter. It ends because makers hold shares and used-up makers leave, and on
the way it touches nothing that it has erased. -/
namespace MatchingSafety

open EngineTypes
open Orders
open OrderedMap
open OrderBook
open PriceTimeBook
open BookInvariant
open MatchingPass
open BookRefinement
open BookRuns
open LadderRuns
open PriceTimePriority

/-! ## The loop's body, access by access

`matchOnce` takes a maker's level away together with its last order. Here every access of
the source stands in its place, and fails if what it touches is gone. -/

def popFrontNode (s : Side) (price : LimitPrice) : BookM Unit := do
  match ((← get).levels s).find price with
  | none => throw (.undefined .missingLevel)
  | some [] => throw (.undefined .emptyFront)
  | some (_ :: l) => modify fun b => b.setLevels s ((b.levels s).set price l)

def levelEmpty (s : Side) (price : LimitPrice) : BookM Bool := do
  match ((← get).levels s).find price with
  | none => throw (.undefined .missingLevel)
  | some l => return l.isEmpty

def eraseLevel (s : Side) (price : LimitPrice) : BookM Unit := do
  match ((← get).levels s).find price with
  | none => throw (.undefined .missingLevel)
  | some _ => modify fun b => b.setLevels s ((b.levels s).erase price)

def settleByAccess (opposite : Side) (bestPrice : LimitPrice) (resting : OrderId) : BookM Unit := do
  if (← deref resting).remainingQty = 0 then
    setStatus resting .filled
    let restingId := (← deref resting).id
    popFrontNode opposite bestPrice
    setLocation restingId none
    eraseOwned restingId
    if ← levelEmpty opposite bestPrice then eraseLevel opposite bestPrice
  else
    setStatus resting .partiallyFilled

/-- The body of the loop; `none` when it breaks. -/
def bodyByAccess (br : Branch) (incoming : OrderId) : BookM (Option Trade) := do
  let inc ← deref incoming
  match ((← get).levels br.opposite).begin? with
  | none => throw (.undefined .missingLevel)
  | some (bestPrice, level) =>
    if ← acceptsPrice br inc bestPrice then
      let resting ← front level
      let maker ← deref resting
      OrderBook.reduceQuantity incoming (tradeQty inc maker)
      OrderBook.reduceQuantity resting (tradeQty inc maker)
      settleByAccess br.opposite bestPrice resting
      return some (br.trade inc.id maker.id bestPrice (tradeQty inc maker))
    else return none

section Accesses

variable {b : Book} {s : Side} {price : LimitPrice} {r : OrderId} {mo : Order} {l : List OrderId}

theorem popFrontNode_ok (h : (b.levels s).find price = some (r :: l)) :
    (popFrontNode s price).run b = .ok () (b.setLevels s ((b.levels s).set price l)) := by
  rw [popFrontNode, bind_ok (get_ok b), h]
  rfl

theorem levelEmpty_ok (h : (b.levels s).find price = some l) :
    (levelEmpty s price).run b = .ok l.isEmpty b := by
  rw [levelEmpty, bind_ok (get_ok b), h]
  rfl

theorem eraseLevel_ok (h : (b.levels s).find price = some l) :
    (eraseLevel s price).run b = .ok () (b.setLevels s ((b.levels s).erase price)) := by
  rw [eraseLevel, bind_ok (get_ok b), h]
  rfl

/-- Access by access the settlement comes to the same. -/
theorem settleByAccess_eq (hr : b.ownedOrders r = some mo) (hid : mo.id = r)
    (hf : (b.levels s).find price = some (r :: l)) :
    (settleByAccess s price r).run b = (settleMaker s price r).run b := by
  by_cases h0 : mo.remainingQty = 0
  · rw [settleMaker_drop hr hid h0 hf, settleByAccess, bind_ok (deref_ok hr)]
    let b₁ : Book := { b with
      ownedOrders := Function.update b.ownedOrders r (some (mo.setStatus .filled)) }
    have hr₁ : b₁.ownedOrders r = some (mo.setStatus .filled) := by simp [b₁]
    have hf₁ : (b₁.levels s).find price = some (r :: l) := by simpa [b₁] using hf
    let b₂ : Book := { (b₁.setLevels s ((b₁.levels s).set price l)) with
      ownedOrders := Function.update b₁.ownedOrders r none
      orderLocation := Function.update b.orderLocation r none }
    have hf₂ : (b₂.levels s).find price = some l := by simp [b₂, OMap.find_set]
    simp only [if_pos h0]
    rw [bind_ok (setStatus_ok hr .filled), bind_ok (deref_ok hr₁), Order.setStatus_id, hid,
      bind_ok (popFrontNode_ok hf₁), bind_ok (setLocation_ok _ _ _), bind_ok (eraseOwned_ok _ _)]
    simp only [ownedOrders_setLevels, orderLocation_setLevels]
    rw [bind_ok (levelEmpty_ok (b := b₂) hf₂)]
    have hstore : (b.levels s).store price l =
        if l.isEmpty then ((b.levels s).set price l).erase price else (b.levels s).set price l := rfl
    rw [hstore]
    cases l.isEmpty with
    | true =>
      simp only [if_true]
      rw [eraseLevel_ok (b := b₂) hf₂]
      cases s <;> simp [b₂, b₁, Book.setLevels, Book.levels]
    | false =>
      simp only [Bool.false_eq_true, if_false, EStateM.run_pure]
      cases s <;> simp [b₂, b₁, Book.setLevels, Book.levels]
  · rw [settleMaker_keep hr h0, settleByAccess, bind_ok (deref_ok hr)]
    simp only [if_neg h0]
    exact setStatus_ok hr _

end Accesses

section Body

variable {b : Book} {incoming : OrderId} {io : Order} {x : RestingOrder} {xs : List RestingOrder}

/-- Access by access the body comes to the same as a pass of the loop. -/
theorem bodyByAccess_eq (h : InvariantWith (some incoming) b)
    (hinc : b.ownedOrders incoming = some io) (hr : resting b io.side.opposite = x :: xs)
    (h0 : 0 < io.remaining) :
    (bodyByAccess (branch io.side) incoming).run b =
      (matchOnce (branch io.side) incoming).run b := by
  obtain ⟨l, rest, he, hb⟩ := begin?_of_resting_cons h hr
  have hx : x ∈ resting b io.side.opposite := by simp [hr]
  obtain ⟨hm, ho⟩ := h.mem_resting.mp hx
  have hp := h.placed_of_resting hx
  have hne : x.order.id ≠ incoming := fun hi => h.incoming incoming rfl _ _ (hi ▸ hm)
  obtain ⟨ht0, ht1, ht2⟩ := tradeQty_bounds h0 hp.positive
  rw [matchOnce, bind_ok (deref_ok hinc), if_neg (not_exhausted h0), bind_ok (get_ok b),
    branch_opposite, hb, bodyByAccess, bind_ok (deref_ok hinc), bind_ok (get_ok b),
    branch_opposite, hb]
  simp only
  rw [bind_ok (acceptsPrice_ok b io x), bind_ok (acceptsPrice_ok b io x)]
  cases accepts io x with
  | false => rfl
  | true =>
    simp only [if_true, front, pure_bind]
    let b₁ : Book := { b with
      ownedOrders := Function.update b.ownedOrders incoming (some (io.fill (tradeQty io x.order))) }
    let b₂ : Book := { b with
      ownedOrders := Function.update b₁.ownedOrders x.order.id
        (some (x.order.fill (tradeQty io x.order))) }
    have ho₁ : b₁.ownedOrders x.order.id = some x.order := by
      simp [b₁, Function.update_of_ne hne, ho]
    have ho₂ : b₂.ownedOrders x.order.id = some (x.order.fill (tradeQty io x.order)) := by
      simp [b₂]
    have hf₂ : (b₂.levels io.side.opposite).find x.price = some (x.order.id :: l) := by
      simpa [b₂] using OMap.find_head he
    have hsettle := settleByAccess_eq ho₂ rfl hf₂
    obtain ⟨b₃, hb₃⟩ : ∃ b₃, (settleMaker io.side.opposite x.price x.order.id).run b₂ =
        .ok () b₃ := by
      by_cases hz : (x.order.fill (tradeQty io x.order)).remainingQty = 0
      · exact ⟨_, settleMaker_drop ho₂ rfl hz hf₂⟩
      · exact ⟨_, settleMaker_keep ho₂ hz _⟩
    have htrade : (tradeWith (branch io.side) incoming x.price x.order.id).run b =
        .ok ((branch io.side).trade io.id x.order.id x.price (tradeQty io x.order)) b₃ := by
      rw [tradeWith, bind_ok (deref_ok hinc), bind_ok (deref_ok ho),
        bind_ok (reduceQuantity_ok hinc ht0.le ht1), bind_ok (reduceQuantity_ok ho₁ ht0.le ht2),
        branch_opposite, bind_ok hb₃]
      rfl
    rw [bind_ok htrade, bind_ok (deref_ok ho), bind_ok (reduceQuantity_ok hinc ht0.le ht1),
      bind_ok (reduceQuantity_ok ho₁ ht0.le ht2), bind_ok (hsettle.trans hb₃)]

end Body

/-! ## The iterations of the loop -/

/-- The condition of the loop. -/
def loops (br : Branch) (incoming : OrderId) (b : Book) : Bool :=
  match b.ownedOrders incoming with
  | none => false
  | some inc => 0 < inc.remainingQty && (b.levels br.opposite).begin?.isSome

/-- The books in which the body is entered, in the first `n` turns of the loop. -/
def iterations (br : Branch) (incoming : OrderId) : ℕ → Book → List Book
  | 0, _ => []
  | n + 1, b =>
    if loops br incoming b then
      match (bodyByAccess br incoming).run b with
      | .ok (some _) b' => b :: iterations br incoming n b'
      | _ => [b]
    else []

/-- What an iteration relies on, for the two orders that it reads. -/
structure SafeFill (br : Branch) (b : Book) (taker maker : Order) (price : LimitPrice)
    (queue : List OrderId) : Prop where
  takerLive : b.ownedOrders taker.id = some taker
  level : (b.levels br.opposite).begin? = some (price, maker.id :: queue)
  makerLive : b.ownedOrders maker.id = some maker
  distinct : taker.id ≠ maker.id
  positive : 1 ≤ (tradeQty taker maker).toInt
  ofTaker : (tradeQty taker maker).toInt ≤ taker.remaining
  ofMaker : (tradeQty taker maker).toInt ≤ maker.remaining
  takerExact : ∃ o, taker.reduceQuantity (tradeQty taker maker) = .ok o ∧
    o.remaining = taker.remaining - (tradeQty taker maker).toInt
  makerExact : ∃ o, maker.reduceQuantity (tradeQty taker maker) = .ok o ∧
    o.remaining = maker.remaining - (tradeQty taker maker).toInt
  /-- No price is asked of a market order. -/
  priced : ∃ ok, (acceptsPrice br taker price).run b = .ok ok b

/-- An iteration that meets nothing it has erased, and trades two different orders. -/
structure SafeIteration (br : Branch) (incoming : OrderId) (b : Book) : Prop where
  reads : ∃ taker maker price queue, taker.id = incoming ∧ SafeFill br b taker maker price queue
  completes : ∃ t b', (bodyByAccess br incoming).run b = .ok t b' ∧
    (matchOnce br incoming).run b = .ok t b'
  parties : ∀ t b', (bodyByAccess br incoming).run b = .ok (some t) b' →
    t.buyOrderId ≠ t.sellOrderId

section Iterations

variable {b : Book} {taker : Order} {left : ℤ} {x : RestingOrder} {xs : List RestingOrder}

theorem loops_iff (h : Matching b taker left) : loops (branch taker.side) taker.id b = true ↔
    0 < left ∧ resting b taker.side.opposite ≠ [] := by
  have hleft : 0 < Int32.ofInt left ↔ 0 < left := by
    rw [Int32.lt_iff_toInt_lt, Int32.toInt_zero, h.toInt_left]
  have hqty : (leaving taker left).remainingQty = Int32.ofInt left := rfl
  simp only [loops, h.owned, hqty, Bool.and_eq_true, decide_eq_true_eq, hleft]
  refine and_congr_right fun _ => ?_
  rw [branch_opposite]
  cases hr : resting b taker.side.opposite with
  | nil => simp [begin?_of_resting_nil h.invariant hr]
  | cons x xs =>
    obtain ⟨_, _, _, hb⟩ := begin?_of_resting_cons h.invariant hr
    simp [hb]

theorem safeFill (h : Matching b taker left) (hr : resting b taker.side.opposite = x :: xs)
    (h0 : 0 < left) : ∃ queue,
      SafeFill (branch taker.side) b (leaving taker left) x.order x.price queue := by
  obtain ⟨queue, _, _, hb⟩ := begin?_of_resting_cons h.invariant hr
  have hx : x ∈ resting b taker.side.opposite := by simp [hr]
  obtain ⟨hm, ho⟩ := h.invariant.mem_resting.mp hx
  have hi : 0 < (leaving taker left).remaining := h.remaining_leaving.symm ▸ h0
  have hmaker := (h.invariant.placed_of_resting hx).positive
  obtain ⟨ht0, ht1, ht2⟩ := tradeQty_bounds hi hmaker
  refine ⟨queue, h.owned, by rw [branch_opposite, hb], ho, ?_, ht0, ht1, ht2, ?_, ?_, ?_⟩
  · exact fun hid => h.invariant.incoming taker.id rfl _ _ ((show taker.id = _ from hid) ▸ hm)
  · exact ⟨_, Order.reduceQuantity_fill ht0.le ht1, Order.remaining_fill ht0.le ht1⟩
  · exact ⟨_, Order.reduceQuantity_fill ht0.le ht2, Order.remaining_fill ht0.le ht2⟩
  · exact ⟨_, acceptsPrice_ok b (leaving taker left) x⟩

theorem body_eq (h : Matching b taker left) (hr : resting b taker.side.opposite = x :: xs)
    (h0 : 0 < left) : (bodyByAccess (branch taker.side) taker.id).run b =
      (matchOnce (branch taker.side) taker.id).run b := by
  have hleft : 0 < (leaving taker left).remaining := h.remaining_leaving.symm ▸ h0
  have hbody := bodyByAccess_eq h.invariant h.owned hr hleft
  exact hbody

/-- Once its condition holds, an iteration is safe. -/
theorem safeIteration (h : Matching b taker left) (hr : resting b taker.side.opposite = x :: xs)
    (h0 : 0 < left) : SafeIteration (branch taker.side) taker.id b := by
  have hbody := body_eq h hr h0
  obtain ⟨queue, hfill⟩ := safeFill h hr h0
  have hreads : ∃ inc maker price queue, inc.id = taker.id ∧
      SafeFill (branch taker.side) b inc maker price queue :=
    ⟨leaving taker left, _, _, queue, rfl, hfill⟩
  cases ha : accepts taker x with
  | false =>
    have hrun := h.stop (Or.inr (Or.inr ⟨x, xs, hr, ha⟩))
    refine ⟨hreads, ⟨none, b, hbody.trans hrun, hrun⟩, ?_⟩
    intro t b' ht
    rw [hbody, hrun] at ht
    cases ht
  | true =>
    obtain ⟨b', hrun, _⟩ := h.pass hr h0 ha
    refine ⟨hreads, ⟨some _, b', hbody.trans hrun, hrun⟩, ?_⟩
    intro t b'' ht
    rw [hbody, hrun] at ht
    cases ht
    have hne : taker.id ≠ x.order.id := hfill.distinct
    rw [tradeOf]
    split
    · exact hne
    · exact hne.symm

/-- Each iteration but the last one uses a resting order up. -/
theorem iterations_bound (queue : List RestingOrder) : ∀ {b : Book} {left : ℤ} (n : ℕ),
    Matching b taker left → resting b taker.side.opposite = queue →
    (iterations (branch taker.side) taker.id n b).length +
        (Allocation.sweep RestingOrder.size (accepts taker) RestingOrder.fill left queue).2.length ≤
      queue.length + 1 := by
  have done : ∀ {b : Book} {left : ℤ} (n : ℕ), Matching b taker left →
      ¬ (0 < left ∧ resting b taker.side.opposite ≠ []) →
      iterations (branch taker.side) taker.id n b = [] := by
    intro b left n hm hstop
    cases n with
    | zero => rfl
    | succ n => rw [iterations, if_neg (fun hl => hstop ((loops_iff hm).mp hl))]
  induction queue with
  | nil =>
    intro b left n hm hr
    rw [done n hm (by simp [hr])]
    simp [Allocation.sweep]
  | cons x xs ih =>
    intro b left n hm hr
    by_cases h0 : 0 < left
    · cases n with
      | zero =>
        have hsuffix := (swept_suffix taker left (x :: xs)).length_le
        simp only [List.length_map] at hsuffix
        simp only [iterations, List.length_nil]
        omega
      | succ n =>
        have hloop := (loops_iff hm).mpr ⟨h0, by simp [hr]⟩
        have hbody := body_eq hm hr h0
        cases ha : accepts taker x with
        | false =>
          rw [hm.stop (Or.inr (Or.inr ⟨x, xs, hr, ha⟩))] at hbody
          simp only [iterations, hloop, if_true, hbody, Allocation.sweep, ha]
          simp [Nat.add_comm]
        | true =>
          obtain ⟨b₁, hrun, hm₁, hopp, _⟩ := hm.pass hr h0 ha
          rw [hrun] at hbody
          simp only [iterations, hloop, if_true, hbody, Allocation.sweep, ha, h0, and_self,
            List.length_cons]
          by_cases hd : x.size ≤ left
          · rw [if_pos hd] at hopp
            rw [min_eq_left hd] at hm₁
            have hrest := ih n hm₁ hopp
            simp only [if_pos hd]
            omega
          · rw [min_eq_right (not_le.mp hd).le, sub_self] at hm₁
            rw [done n hm₁ (fun h => lt_irrefl 0 h.1)]
            simp [hd, Nat.add_comm]
    · rw [done n hm (fun h => h0 h.1)]
      have hsuffix := (swept_suffix taker left (x :: xs)).length_le
      simp only [List.length_map] at hsuffix
      simp only [List.length_nil]
      omega

theorem iterations_safe (n : ℕ) : ∀ {b : Book} {left : ℤ}, Matching b taker left →
    ∀ b₁ ∈ iterations (branch taker.side) taker.id n b,
      SafeIteration (branch taker.side) taker.id b₁ := by
  induction n with
  | zero =>
    intro b left _ b₁ hb₁
    cases hb₁
  | succ n ih =>
    intro b left hm b₁ hb₁
    by_cases hloop : loops (branch taker.side) taker.id b = true
    · obtain ⟨h0, hne⟩ := (loops_iff hm).mp hloop
      obtain ⟨x, xs, hr⟩ := List.exists_cons_of_ne_nil hne
      have hsafe := safeIteration hm hr h0
      have hbody := body_eq hm hr h0
      rw [iterations, if_pos hloop] at hb₁
      cases ha : accepts taker x with
      | false =>
        rw [hbody, hm.stop (Or.inr (Or.inr ⟨x, xs, hr, ha⟩))] at hb₁
        cases List.mem_singleton.mp hb₁
        exact hsafe
      | true =>
        obtain ⟨b', hrun, hm', _⟩ := hm.pass hr h0 ha
        rw [hbody, hrun] at hb₁
        rcases List.mem_cons.mp hb₁ with rfl | hb₁
        · exact hsafe
        · exact ih hm' b₁ hb₁
    · rw [iterations, if_neg hloop] at hb₁
      cases hb₁

end Iterations

/-! ## Every run -/

/-- The opposite resting orders that a call has used up: those that `b'` no longer owns. -/
def completelyFilled (b : Book) (o : Order) (b' : Book) : List RestingOrder :=
  (resting b o.side.opposite).filter fun x => b'.ownedOrders x.order.id = none

/-- All that the sweep does not leave is used up. -/
theorem length_completelyFilled {b b' : Book} {o : Order} (h : Invariant b)
    (hfresh : b.ownedOrders o.id = none) (hm : Matching b' o (leftover (resting b) o))
    (hopp : resting b' o.side.opposite = (sweepOf (resting b) o).2)
    (hown : resting b' o.side = resting b o.side) :
    (resting b o.side.opposite).length ≤
      (completelyFilled b o b').length + (sweepOf (resting b) o).2.length := by
  have hsplit := (resting b o.side.opposite).length_eq_length_filter_add
    fun x => decide (b'.ownedOrders x.order.id = none)
  have hids : (((resting b o.side.opposite).filter fun x =>
      !decide (b'.ownedOrders x.order.id = none)).map fun x => x.order.id).Nodup :=
    (h.resting_nodup o.side.opposite).sublist (List.filter_sublist.map _)
  have hsub : (((resting b o.side.opposite).filter fun x =>
      !decide (b'.ownedOrders x.order.id = none)).map fun x => x.order.id) ⊆
      (resting b' o.side.opposite).map fun x => x.order.id := by
    intro id hid
    obtain ⟨x, hx, rfl⟩ := List.mem_map.mp hid
    obtain ⟨hx, hlive⟩ := List.mem_filter.mp hx
    obtain ⟨hplace, _⟩ := h.mem_resting.mp hx
    obtain ⟨p, hp⟩ := Option.ne_none_iff_exists'.mp (by simpa using hlive)
    rcases hm.invariant.owned _ p hp with hinc | ⟨s, price, hlisted⟩
    · -- The taker's id names no resting order.
      exact absurd hplace (not_listed_of_free h ((Option.some.inj hinc) ▸ hfresh) _ _)
    · by_cases hs : s = o.side
      · subst hs
        rw [← hm.invariant.resting_places, hown, h.resting_places] at hlisted
        exact absurd (h.unique_place hplace hlisted).1 (opposite_ne o.side)
      · rw [eq_opposite_of_ne hs, ← hm.invariant.resting_places] at hlisted
        obtain ⟨y, hy, hyid⟩ := List.mem_map.mp hlisted
        exact List.mem_map.mpr ⟨y, hy, (Prod.mk.inj hyid).2⟩
  have hkept := (List.subperm_of_subset hids hsub).length_le
  rw [List.length_map, List.length_map, hopp] at hkept
  rw [completelyFilled]
  omega

/-- The loop enters its body at most once for each order that it uses up, and once more; no turn
meets what it erased; and `cancelOrder` finds the level of every order it is asked for. -/
theorem matching_safe (calls : List Call) (o : NewOrder)
    (hfresh : (run emptyBook calls).ownedOrders o.1.id = none) :
    let b := run emptyBook calls
    (∃ ts b', (matchIncoming o.1.id).run (received b o.1) = .ok ts b' ∧
      ∀ n, (iterations (branch o.1.side) o.1.id n (received b o.1)).length ≤
        (completelyFilled b o.1 b').length + 1) ∧
    (∀ n, ∀ b₁ ∈ iterations (branch o.1.side) o.1.id n (received b o.1),
      SafeIteration (branch o.1.side) o.1.id b₁) ∧
    ∀ id loc, b.orderLocation id = some loc →
      (∃ l, (b.levels loc.side).find loc.price = some l ∧ loc.iterator ∈ l) ∧
      ∃ b', (cancelOrder id).run b = .ok true b' := by
  intro b
  have h : Invariant b := run_invariant calls
  have hm := matching_received h hfresh o.2
  refine ⟨?_, fun n => iterations_safe n hm, ?_⟩
  · obtain ⟨b', hrun, hm', hopp, hown⟩ := matchIncoming_ok h o.2 hfresh
    refine ⟨_, b', hrun, fun n => ?_⟩
    have hbound := iterations_bound _ n hm (resting_received h hfresh _)
    have hused := length_completelyFilled h hfresh hm' hopp hown
    rw [sweepOf] at hused
    omega
  · intro id loc hloc
    obtain ⟨hm, hit⟩ := (h.located id loc).mp hloc
    obtain ⟨l, hf, hl⟩ := OMap.mem_flat.mp hm
    obtain ⟨b', hrun, _⟩ := cancelOrder_refines h id
    have hown := (isSome_owned_iff_located h id).mpr (by simp [hloc])
    rw [hown] at hrun
    exact ⟨⟨l, hf, hit.symm ▸ hl⟩, b', hrun⟩

/-- A buy for 8 against one ask for 5. -/
theorem matching_safe_one_ask :
    let ask := NewOrder.limit 1 1 .sell 5 (by decide) .hundred
    let bid := NewOrder.limit 2 2 .buy 8 (by decide) .hundred
    (iterations (branch .buy) 2 9 (received (run emptyBook [.add (some ask)]) bid.1)).length = 1 ∧
    ∃ ts b', (matchIncoming 2).run (received (run emptyBook [.add (some ask)]) bid.1) =
      .ok ts b' :=
  ⟨by decide, by
    obtain ⟨⟨ts, b', hrun, _⟩, _⟩ := matching_safe
      [.add (some (NewOrder.limit 1 1 .sell 5 (by decide) .hundred))]
      (NewOrder.limit 2 2 .buy 8 (by decide) .hundred) (by decide)
    exact ⟨ts, b', hrun⟩⟩

end MatchingSafety
