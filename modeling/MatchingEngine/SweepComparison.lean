import MatchingEngine.Allocation

/-! # Comparing greedy allocations

How a sweep changes with what it accepts and with its quantity, and what two sweeps in a
row come to. -/
namespace Allocation

variable {α : Type*} {size : α → ℤ} {accept accept' : α → Bool} {reduce : α → ℤ → α}

/-- Accepting more extends what is taken. -/
theorem sweep_prefix {q : ℤ} {as : List α} (h : ∀ a ∈ as, accept a = true → accept' a = true) :
    (sweep size accept reduce q as).1 <+: (sweep size accept' reduce q as).1 := by
  induction as generalizing q with
  | nil => exact List.prefix_refl _
  | cons a as ih =>
    by_cases hgo : 0 < q ∧ accept a = true
    · have hgo' : 0 < q ∧ accept' a = true := ⟨hgo.1, h a List.mem_cons_self hgo.2⟩
      rw [sweep, sweep, if_pos hgo, if_pos hgo']
      split
      · exact (List.prefix_cons_inj _).mpr (ih fun x hx => h x (List.mem_cons_of_mem _ hx))
      · exact List.prefix_refl _
    · rw [sweep, if_neg hgo]
      exact List.nil_prefix

/-- What is taken depends on the acceptance of the queue's items only. -/
theorem sweep_taken_congr {q : ℤ} {as : List α} (h : ∀ a ∈ as, accept a = accept' a) :
    (sweep size accept reduce q as).1 = (sweep size accept' reduce q as).1 := by
  have hle : (sweep size accept reduce q as).1 <+: (sweep size accept' reduce q as).1 :=
    sweep_prefix fun a ha hacc => (h a ha).symm.trans hacc
  have hge : (sweep size accept' reduce q as).1 <+: (sweep size accept reduce q as).1 :=
    sweep_prefix fun a ha hacc => (h a ha).trans hacc
  exact hle.eq_of_length_le hge.length_le

/-! ## Cutting a list off at a total -/

section Cut

variable {β γ : Type*} (weight : β → ℤ) (shorten : β → ℤ → β)

/-- The items that fit into a total weight; one that fits in part is shortened and is the last. -/
def cut : ℤ → List β → List β
  | _, [] => []
  | q, x :: xs =>
    if q ≤ 0 then []
    else if weight x ≤ q then x :: cut (q - weight x) xs
    else [shorten x q]

variable {weight shorten}

theorem cut_of_nonpos {q : ℤ} (h : q ≤ 0) (xs : List β) : cut weight shorten q xs = [] := by
  cases xs with
  | nil => rfl
  | cons x xs => rw [cut, if_pos h]

theorem sum_weight_nonneg {xs : List β} (hpos : ∀ x ∈ xs, 0 < weight x) :
    0 ≤ (xs.map weight).sum := by
  apply List.sum_nonneg
  intro c hc
  obtain ⟨x, hx, rfl⟩ := List.mem_map.mp hc
  exact (hpos x hx).le

/-- A total that holds everything cuts nothing off. -/
theorem cut_of_sum_le {q : ℤ} {xs : List β} (hpos : ∀ x ∈ xs, 0 < weight x)
    (h : (xs.map weight).sum ≤ q) : cut weight shorten q xs = xs := by
  induction xs generalizing q with
  | nil => rfl
  | cons x xs ih =>
    have hx := hpos x List.mem_cons_self
    have htail : ∀ y ∈ xs, 0 < weight y := fun y hy => hpos y (List.mem_cons_of_mem _ hy)
    have hsum := sum_weight_nonneg htail
    rw [List.map_cons, List.sum_cons] at h
    rw [cut, if_neg (by omega), if_pos (by omega), ih htail (by omega)]

theorem cut_min {q : ℤ} {xs : List β} (hpos : ∀ x ∈ xs, 0 < weight x) :
    cut weight shorten (min q (xs.map weight).sum) xs = cut weight shorten q xs := by
  rcases le_total q (xs.map weight).sum with h | h
  · rw [min_eq_left h]
  · rw [min_eq_right h, cut_of_sum_le hpos le_rfl, cut_of_sum_le hpos h]

theorem sum_cut {q : ℤ} {xs : List β} (hpos : ∀ x ∈ xs, 0 < weight x) (hq : 0 ≤ q)
    (hshort : ∀ x ∈ xs, ∀ t, 0 < t → t < weight x → weight (shorten x t) = t) :
    ((cut weight shorten q xs).map weight).sum = min q (xs.map weight).sum := by
  induction xs generalizing q with
  | nil => simpa [cut] using hq
  | cons x xs ih =>
    have hx := hpos x List.mem_cons_self
    have htail : ∀ y ∈ xs, 0 < weight y := fun y hy => hpos y (List.mem_cons_of_mem _ hy)
    have hsum := sum_weight_nonneg htail
    rw [List.map_cons, List.sum_cons, cut]
    split
    · rw [List.map_nil, List.sum_nil]
      omega
    · split
      · have hrest := ih htail (q := q - weight x) (by omega) fun y hy =>
          hshort y (List.mem_cons_of_mem _ hy)
        rw [List.map_cons, List.sum_cons, hrest]
        omega
      · have hlast := hshort x List.mem_cons_self q (by omega) (by omega)
        rw [List.map_cons, List.map_nil, List.sum_cons, List.sum_nil, hlast]
        omega

/-- All that is kept but for the last item is kept as it was. -/
theorem dropLast_cut_prefix (q : ℤ) (xs : List β) : (cut weight shorten q xs).dropLast <+: xs := by
  induction xs generalizing q with
  | nil => exact List.prefix_refl _
  | cons x xs ih =>
    rw [cut]
    split
    · exact List.nil_prefix
    · split
      · cases hc : cut weight shorten (q - weight x) xs with
        | nil => exact List.nil_prefix
        | cons y ys =>
          rw [List.dropLast_cons_cons, List.prefix_cons_inj, ← hc]
          exact ih _
      · exact List.nil_prefix

/-- Cutting keeps what the shortening keeps. -/
theorem map_cut_prefix {key : β → γ} (hk : ∀ x t, key (shorten x t) = key x) (q : ℤ)
    (xs : List β) : (cut weight shorten q xs).map key <+: xs.map key := by
  induction xs generalizing q with
  | nil => exact List.prefix_refl _
  | cons x xs ih =>
    rw [cut]
    split
    · exact List.nil_prefix
    · split
      · exact (List.prefix_cons_inj _).mpr (ih _)
      · rw [List.map_cons, List.map_cons, List.map_nil, hk]
        exact (List.prefix_cons_inj _).mpr List.nil_prefix

theorem cut_map {weight' : γ → ℤ} {shorten' : γ → ℤ → γ} {f : β → γ} {q : ℤ} {xs : List β}
    (hw : ∀ x ∈ xs, weight' (f x) = weight x)
    (hs : ∀ x ∈ xs, ∀ t, shorten' (f x) t = f (shorten x t)) :
    cut weight' shorten' q (xs.map f) = (cut weight shorten q xs).map f := by
  induction xs generalizing q with
  | nil => rfl
  | cons x xs ih =>
    have hrest := @ih (q - weight x) (fun y hy => hw y (List.mem_cons_of_mem _ hy))
      fun y hy => hs y (List.mem_cons_of_mem _ hy)
    rw [List.map_cons, cut, cut, hw x List.mem_cons_self, hs x List.mem_cons_self, hrest]
    split
    · rfl
    · split <;> rfl

end Cut

/-- A sweep of less takes what a sweep of more takes, cut off at the smaller quantity. -/
theorem sweep_cut {q q' : ℤ} (h : q ≤ q') (as : List α) :
    (sweep size accept reduce q as).1 =
      cut Prod.snd (fun x t => (x.1, t)) q (sweep size accept reduce q' as).1 := by
  induction as generalizing q q' with
  | nil => rfl
  | cons a as ih =>
    by_cases hgo : 0 < q ∧ accept a = true
    · obtain ⟨hq, hacc⟩ := hgo
      have hq' : 0 < q' := by omega
      simp only [sweep, hq, hq', hacc, and_self, if_true]
      rcases le_or_gt (size a) q with hall | hpart
      · -- Both quantities cover the item.
        have hrest := @ih (q - size a) (q' - size a) (by omega)
        simp only [if_pos hall, if_pos (hall.trans h), cut, not_le.mpr hq, if_false, hrest]
      · simp only [not_le.mpr hpart, if_false]
        rcases le_or_gt (size a) q' with hall' | hpart'
        · simp only [if_pos hall', cut, not_le.mpr hq, not_le.mpr hpart, if_false]
        · simp only [not_le.mpr hpart', if_false, cut, not_le.mpr hq]
          rcases h.eq_or_lt with rfl | hlt
          · rw [if_pos le_rfl]
          · rw [if_neg (not_le.mpr hlt)]
    · rw [sweep, if_neg hgo]
      by_cases hq : 0 < q
      · have hacc : ¬ (0 < q' ∧ accept a = true) := fun hgo' => hgo ⟨hq, hgo'.2⟩
        rw [sweep, if_neg hacc]
        rfl
      · rw [cut_of_nonpos (not_lt.mp hq)]

/-! ## Two sweeps in a row -/

@[simp] theorem takenFrom_nil {β : Type*} [DecidableEq β] (key : α → β) (k : β) :
    takenFrom key k ([] : List (α × ℤ)) = 0 := rfl

theorem takenFrom_cons {β : Type*} [DecidableEq β] (key : α → β) (k : β) (x : α × ℤ)
    (xs : List (α × ℤ)) :
    takenFrom key k (x :: xs) = (if key x.1 = k then x.2 else 0) + takenFrom key k xs := by
  rw [takenFrom, takenFrom, List.filter_cons]
  by_cases hk : key x.1 = k <;> simp [hk]

section Additive

variable {β : Type*} [DecidableEq β] {key : α → β}

/-- Two sweeps leave what one sweep of both quantities leaves, and take as much under each key. -/
theorem sweep_add (hsize : ∀ a t, 0 < t → t < size a → size (reduce a t) = size a - t)
    (haccept : ∀ a t, accept (reduce a t) = accept a)
    (hreduce : ∀ a s t, reduce (reduce a s) t = reduce a (s + t))
    (hkey : ∀ a t, key (reduce a t) = key a) {q r : ℤ} (hq : 0 ≤ q) (hr : 0 ≤ r) (as : List α) :
    (sweep size accept reduce (q + r) as).2 =
        (sweep size accept reduce r (sweep size accept reduce q as).2).2 ∧
      ∀ k, takenFrom key k (sweep size accept reduce (q + r) as).1 =
        takenFrom key k (sweep size accept reduce q as).1 +
          takenFrom key k (sweep size accept reduce r (sweep size accept reduce q as).2).1 := by
  induction as generalizing q with
  | nil => exact ⟨rfl, fun _ => rfl⟩
  | cons a as ih =>
    by_cases hgo : 0 < q ∧ accept a = true
    · obtain ⟨hpos, hacc⟩ := hgo
      have hpos' : 0 < q + r := by omega
      rcases le_or_gt (size a) q with hall | hpart
      · -- The first sweep already takes the whole item.
        have hsum : q + r - size a = q - size a + r := by omega
        obtain ⟨hleft, htaken⟩ := ih (q := q - size a) (by omega)
        simp only [sweep, hpos, hpos', hacc, and_self, if_true, if_pos hall,
          if_pos (show size a ≤ q + r by omega), hsum, takenFrom_cons]
        exact ⟨hleft, fun k => by rw [htaken k, add_assoc]⟩
      · have hrest := hsize a q hpos hpart
        have hacc' : accept (reduce a q) = true := (haccept a q).trans hacc
        simp only [sweep, hpos, hpos', hacc, and_self, if_true, if_neg (not_le.mpr hpart)]
        rcases hr.eq_or_lt with rfl | hrpos
        · simp [not_le.mpr hpart]
        · rcases le_or_gt (size a) (q + r) with hall' | hpart'
          · -- The second sweep takes what the first has left of the item.
            have hsum : r - (size a - q) = q + r - size a := by omega
            simp only [hrpos, hacc', and_self, if_true, if_pos hall', hrest,
              if_pos (show size a - q ≤ r by omega), hsum, takenFrom_cons, takenFrom_nil, hkey]
            refine ⟨trivial, fun k => ?_⟩
            split <;> omega
          · simp only [hrpos, hacc', and_self, if_true, if_neg (not_le.mpr hpart'), hrest,
              if_neg (show ¬ size a - q ≤ r by omega), hreduce, takenFrom_cons, takenFrom_nil,
              hkey]
            refine ⟨trivial, fun k => ?_⟩
            split <;> omega
    · have hfirst : sweep size accept reduce q (a :: as) = ([], a :: as) := by
        rw [sweep, if_neg hgo]
      by_cases hpos : 0 < q
      · have hacc : accept a = false := by simpa [hpos] using hgo
        simp [sweep, hacc]
      · have hz : q = 0 := by omega
        rw [hfirst, hz, zero_add]
        exact ⟨rfl, fun k => by simp⟩

end Additive

end Allocation
