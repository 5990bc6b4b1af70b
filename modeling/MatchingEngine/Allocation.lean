import Mathlib.Data.List.Basic
import Mathlib.Algebra.Order.BigOperators.Group.List
import Mathlib.Tactic.Linarith

/-! # Greedy allocation along a queue

A quantity is handed to the items of a list in turn, each taking what it can, until the
quantity is used up or an item is refused. `fills` has the amounts, `sweep` the run. -/
namespace Allocation

/-- Each capacity in turn takes what is left of the quantity. -/
def fills : ℤ → List ℤ → List ℤ
  | _, [] => []
  | q, c :: cs => min c q :: fills (q - min c q) cs

@[simp] theorem fills_nil (q : ℤ) : fills q [] = [] := rfl

@[simp] theorem fills_cons (q c : ℤ) (cs : List ℤ) :
    fills q (c :: cs) = min c q :: fills (q - min c q) cs := rfl

@[simp] theorem length_fills (q : ℤ) (cs : List ℤ) : (fills q cs).length = cs.length := by
  induction cs generalizing q with
  | nil => rfl
  | cons c cs ih => simp [ih]

section Bounds

variable {q : ℤ} {cs : List ℤ}

theorem sum_fills (hq : 0 ≤ q) (hc : ∀ c ∈ cs, 0 ≤ c) : (fills q cs).sum = min cs.sum q := by
  induction cs generalizing q with
  | nil => simpa using hq
  | cons c cs ih =>
    have hs : 0 ≤ cs.sum := List.sum_nonneg fun x hx => hc x (by simp [hx])
    have h0 := hc c (by simp)
    rw [fills_cons, List.sum_cons, ih (by omega) fun x hx => hc x (by simp [hx]), List.sum_cons]
    omega

/-- The amount at a position depends on the capacities before it by their sum only. -/
theorem getElem_fills (hq : 0 ≤ q) (hc : ∀ c ∈ cs, 0 ≤ c) (i : ℕ) (hi : i < cs.length)
    (hf : i < (fills q cs).length) : (fills q cs)[i] = min cs[i] (q - min q (cs.take i).sum) := by
  induction cs generalizing q i with
  | nil => simp at hi
  | cons c cs ih =>
    cases i with
    | zero => simp [hq]
    | succ i =>
      have h0 := hc c (by simp)
      have hs : 0 ≤ (cs.take i).sum :=
        List.sum_nonneg fun x hx => hc x (by simp [List.mem_of_mem_take hx])
      have hi' : i < cs.length := by simpa using hi
      have h := ih (q := q - min c q) (by omega) (fun x hx => hc x (by simp [hx])) i hi'
        (by simpa using hi')
      simp only [fills_cons, List.getElem_cons_succ, List.take_succ_cons, List.sum_cons]
      rw [h]
      omega

theorem fills_eq_mapIdx (hq : 0 ≤ q) (hc : ∀ c ∈ cs, 0 ≤ c) :
    fills q cs = cs.mapIdx fun i c => min c (q - min q (cs.take i).sum) := by
  apply List.ext_getElem (by simp)
  intro i h₁ h₂
  have hi : i < cs.length := by simpa using h₁
  rw [getElem_fills hq hc i hi h₁, List.getElem_mapIdx]

end Bounds

/-! ## Sweeping a queue -/

section Sweep

variable {α : Type*} (size : α → ℤ) (accept : α → Bool) (reduce : α → ℤ → α)

/-- The items taken from, each with its amount, and the queue that is left. -/
def sweep : ℤ → List α → List (α × ℤ) × List α
  | _, [] => ([], [])
  | q, a :: as =>
    if 0 < q ∧ accept a then
      if size a ≤ q then
        ((a, size a) :: (sweep (q - size a) as).1, (sweep (q - size a) as).2)
      else ([(a, q)], reduce a q :: as)
    else ([], a :: as)

/-- What an amount leaves of an item. -/
def leave (x : α × ℤ) : Option α :=
  if x.2 = size x.1 then none else if x.2 = 0 then some x.1 else some (reduce x.1 x.2)

/-- The items that may be taken from, each with its amount. -/
def allotted (q : ℤ) (as : List α) : List (α × ℤ) :=
  (as.takeWhile accept).zip (fills q ((as.takeWhile accept).map size))

variable {size accept reduce}

theorem zip_fills_zero (reduce : α → ℤ → α) {as : List α} (hs : ∀ a ∈ as, 0 < size a) :
    (as.zip (fills 0 (as.map size))).filter (fun x => 0 < x.2) = [] ∧
      (as.zip (fills 0 (as.map size))).filterMap (leave size reduce) = as := by
  induction as with
  | nil => simp
  | cons a as ih =>
    have h0 := hs a (by simp)
    obtain ⟨h₁, h₂⟩ := ih fun x hx => hs x (by simp [hx])
    have hm : min (size a) 0 = 0 := by omega
    have hl : leave size reduce (a, 0) = some a := by simp [leave, h0.ne]
    constructor
    · simpa [hm] using h₁
    · simp only [List.map_cons, fills_cons, hm, sub_zero, List.zip_cons_cons,
        List.filterMap_cons, hl, h₂]

/-- Each item's amount in closed form. -/
theorem allotted_eq_mapIdx {q : ℤ} {as : List α} (hq : 0 ≤ q) (hs : ∀ a ∈ as, 0 < size a) :
    allotted size accept q as = (as.takeWhile accept).mapIdx fun i a =>
      (a, min (size a) (q - min q (((as.takeWhile accept).take i).map size).sum)) := by
  have hcap : ∀ c ∈ (as.takeWhile accept).map size, 0 ≤ c := by
    intro c hc
    obtain ⟨a, ha, rfl⟩ := List.mem_map.mp hc
    exact (hs a ((List.takeWhile_prefix _).subset ha)).le
  rw [allotted]
  rw [fills_eq_mapIdx hq hcap]
  apply List.ext_getElem (by simp)
  intro i h₁ h₂
  simp [← List.map_take]

theorem map_snd_allotted (q : ℤ) (as : List α) :
    (allotted size accept q as).map Prod.snd = fills q ((as.takeWhile accept).map size) := by
  rw [allotted]
  rw [List.map_snd_zip]
  simp

/-- The amounts that are nothing can be left out of a sum. -/
theorem sum_filter_pos {fs : List (α × ℤ)} (h : ∀ a ∈ fs, 0 ≤ a.2) :
    ((fs.filter fun a => 0 < a.2).map Prod.snd).sum = (fs.map Prod.snd).sum := by
  induction fs with
  | nil => rfl
  | cons a fs ih =>
    have h0 := h a (by simp)
    have htail := ih fun x hx => h x (by simp [hx])
    by_cases hp : 0 < a.2
    · rw [List.filter_cons_of_pos (by simpa using hp), List.map_cons, List.sum_cons, htail,
        List.map_cons, List.sum_cons]
    · rw [List.filter_cons_of_neg (by simpa using hp), htail, List.map_cons, List.sum_cons]
      omega

theorem allotted_bounds {q : ℤ} {as : List α} (hq : 0 ≤ q) (hs : ∀ a ∈ as, 0 < size a) :
    ∀ x ∈ allotted size accept q as, x.1 ∈ as ∧ 0 ≤ x.2 ∧ x.2 ≤ size x.1 := by
  intro x hx
  rw [allotted_eq_mapIdx hq hs] at hx
  obtain ⟨i, hi, rfl⟩ := List.mem_mapIdx.mp hx
  have hmem : (as.takeWhile accept)[i] ∈ as :=
    (List.takeWhile_prefix _).subset (List.getElem_mem hi)
  have hpos := hs _ hmem
  refine ⟨hmem, ?_, min_le_left _ _⟩
  exact le_min hpos.le (by omega)

/-- A sweep takes from the front: what is left is the queue's end, but for a reduced item. -/
theorem sweep_suffix {β : Type*} {key : α → β} (hk : ∀ a t, key (reduce a t) = key a) (q : ℤ)
    (as : List α) : (sweep size accept reduce q as).2.map key <:+ as.map key := by
  induction as generalizing q with
  | nil => simp [sweep]
  | cons a as ih =>
    rw [sweep]
    split
    · split
      · exact (ih (q - size a)).trans (List.suffix_cons _ _)
      · simp [hk]
    · exact List.suffix_rfl

/-- What holds between an item and the later ones is kept, if it does not look at what is taken
from the earlier one. -/
theorem sweep_pairwise {R : α → α → Prop} (hr : ∀ a t b, R a b → R (reduce a t) b) {q : ℤ}
    {as : List α} (h : as.Pairwise R) : (sweep size accept reduce q as).2.Pairwise R := by
  induction as generalizing q with
  | nil => exact .nil
  | cons a as ih =>
    obtain ⟨hhead, htail⟩ := List.pairwise_cons.mp h
    rw [sweep]
    split
    · split
      · exact ih htail
      · exact List.pairwise_cons.mpr ⟨fun b hb => hr a q b (hhead b hb), htail⟩
    · exact h

/-- A sweep takes the greedy amounts along the accepted front of the queue. -/
theorem sweep_eq {q : ℤ} {as : List α} (hq : 0 ≤ q) (hs : ∀ a ∈ as, 0 < size a) :
    sweep size accept reduce q as =
      ((allotted size accept q as).filter fun x => 0 < x.2,
        (allotted size accept q as).filterMap (leave size reduce) ++ as.dropWhile accept) := by
  induction as generalizing q with
  | nil => simp [sweep, allotted]
  | cons a as ih =>
    have h0 := hs a (by simp)
    have hs' : ∀ x ∈ as, 0 < size x := fun x hx => hs x (by simp [hx])
    by_cases ha : accept a = true
    · have htake : (a :: as).takeWhile accept = a :: as.takeWhile accept := by simp [ha]
      have hdrop : (a :: as).dropWhile accept = as.dropWhile accept := by simp [ha]
      have hall : allotted size accept q (a :: as) =
          (a, min (size a) q) :: allotted size accept (q - min (size a) q) as := by
        simp [allotted, htake]
      have htake_pos : ∀ x ∈ as.takeWhile accept, 0 < size x :=
        fun x hx => hs' x ((List.takeWhile_prefix _).subset hx)
      have hstop := zip_fills_zero reduce htake_pos
      rw [hall, hdrop]
      rcases lt_or_ge q (size a) with hlt | hge
      · have hm : min (size a) q = q := by omega
        have hz : allotted size accept 0 as =
            (as.takeWhile accept).zip (fills 0 ((as.takeWhile accept).map size)) := rfl
        rw [hm, sub_self, List.filter_cons, List.filterMap_cons, hz, hstop.1, hstop.2]
        rcases hq.eq_or_lt with rfl | hpos
        · have hl : leave size reduce (a, 0) = some a := by simp [leave, h0.ne]
          simp [sweep, hl, List.takeWhile_append_dropWhile]
        · have hl : leave size reduce (a, q) = some (reduce a q) := by
            simp [leave, hlt.ne, hpos.ne']
          simp [sweep, ha, hpos, hl, not_le.mpr hlt, List.takeWhile_append_dropWhile]
      · have hm : min (size a) q = size a := by omega
        have hl : leave size reduce (a, size a) = none := by simp [leave]
        have hpos : 0 < q := by omega
        rw [hm, List.filter_cons, List.filterMap_cons, hl]
        simp [sweep, ha, hpos, hge, h0, ih (by omega : 0 ≤ q - size a) hs']
    · have htake : (a :: as).takeWhile accept = [] := by simp [ha]
      have hdrop : (a :: as).dropWhile accept = a :: as := by simp [ha]
      simp [sweep, allotted, htake, hdrop, ha]

/-- A quantity that is not used up was stopped by a refused item or the queue's end. -/
theorem sweep_stop {q : ℤ} {as : List α}
    (h : ((sweep size accept reduce q as).1.map Prod.snd).sum < q) :
    (sweep size accept reduce q as).2 = as.dropWhile accept := by
  induction as generalizing q with
  | nil => rfl
  | cons a as ih =>
    by_cases ha : accept a = true
    · have hdrop : (a :: as).dropWhile accept = as.dropWhile accept := by simp [ha]
      rw [hdrop]
      by_cases h0 : 0 < q
      · by_cases hd : size a ≤ q
        · simp only [sweep, h0, ha, hd, and_self, if_true, List.map_cons, List.sum_cons] at h ⊢
          exact ih (by omega)
        · simp [sweep, h0, ha, hd] at h
      · simp only [sweep, h0, false_and, if_false, List.map_nil, List.sum_nil] at h
    · simp [sweep, ha]

theorem sweep_none {q : ℤ} {as : List α} (h : (sweep size accept reduce q as).1 = []) :
    (sweep size accept reduce q as).2 = as := by
  cases as with
  | nil => rfl
  | cons a as =>
    rw [sweep] at h ⊢
    split at h
    · split at h <;> cases h
    · rename_i hgo
      rw [if_neg hgo]

/-- A positive quantity takes nothing exactly when the first item is refused. -/
theorem sweep_nothing_iff {q : ℤ} (hq : 0 < q) {as : List α} :
    (sweep size accept reduce q as).1 = [] ↔ ∀ a ∈ as.head?, accept a = false := by
  cases as with
  | nil => simp [sweep]
  | cons a as =>
    rw [sweep]
    by_cases ha : accept a = true
    · rw [if_pos ⟨hq, ha⟩]
      split <;> simp [ha]
    · rw [if_neg fun hgo => ha hgo.2]
      simpa using ha

/-- Dropping items that nothing is taken from changes nothing for the others. -/
theorem sweep_filter {keep : α → Bool} (hk : ∀ a t, keep (reduce a t) = keep a) {q : ℤ}
    {as : List α} (hs : as.Pairwise fun a b => accept b = true → accept a = true)
    (ht : ∀ x ∈ (sweep size accept reduce q as).1, keep x.1 = true) :
    sweep size accept reduce q (as.filter keep) = ((sweep size accept reduce q as).1,
      (sweep size accept reduce q as).2.filter keep) := by
  induction as generalizing q with
  | nil => rfl
  | cons a as ih =>
    obtain ⟨hhead, htail⟩ := List.pairwise_cons.mp hs
    by_cases hgo : 0 < q ∧ accept a = true
    · by_cases hd : size a ≤ q
      · simp only [sweep, if_pos hgo, if_pos hd] at ht ⊢
        have ha : keep a = true := ht (a, size a) List.mem_cons_self
        have hrest := ih htail fun x hx => ht x (List.mem_cons_of_mem _ hx)
        rw [List.filter_cons_of_pos ha, sweep, if_pos hgo, if_pos hd, hrest]
      · simp only [sweep, if_pos hgo, if_neg hd] at ht ⊢
        have ha : keep a = true := ht (a, q) List.mem_cons_self
        rw [List.filter_cons_of_pos ha, sweep, if_pos hgo, if_neg hd,
          List.filter_cons_of_pos ((hk a q).trans ha)]
    · -- The first item is refused, or nothing is left to hand out: so it is for any later item.
      simp only [sweep, if_neg hgo]
      cases hf : (a :: as).filter keep with
      | nil => rfl
      | cons b bs =>
        have hb : b ∈ a :: as := List.mem_of_mem_filter (hf ▸ List.mem_cons_self)
        have hstop : ¬ (0 < q ∧ accept b = true) := by
          rintro ⟨h0, hacc⟩
          rcases List.mem_cons.mp hb with rfl | hb
          · exact hgo ⟨h0, hacc⟩
          · exact hgo ⟨h0, hhead b hb hacc⟩
        rw [sweep, if_neg hstop]

/-- A sweep of a renamed queue is the renamed sweep. -/
theorem sweep_map {β : Type*} {size' : β → ℤ} {accept' : β → Bool} {reduce' : β → ℤ → β}
    (g : α → β) {q : ℤ} {as : List α} (hsize : ∀ a ∈ as, size' (g a) = size a)
    (haccept : ∀ a ∈ as, accept' (g a) = accept a)
    (hreduce : ∀ a ∈ as, ∀ t, reduce' (g a) t = g (reduce a t)) :
    sweep size' accept' reduce' q (as.map g) =
      ((sweep size accept reduce q as).1.map (Prod.map g id),
        (sweep size accept reduce q as).2.map g) := by
  induction as generalizing q with
  | nil => rfl
  | cons a as ih =>
    have hrest := @ih (q - size a) (fun x hx => hsize x (List.mem_cons_of_mem _ hx))
      (fun x hx => haccept x (List.mem_cons_of_mem _ hx))
      (fun x hx => hreduce x (List.mem_cons_of_mem _ hx))
    have ha : a ∈ a :: as := List.mem_cons_self
    rw [List.map_cons, sweep, sweep, hsize a ha, haccept a ha, hreduce a ha, hrest]
    split
    · split <;> rfl
    · rfl

theorem mem_of_taken {q : ℤ} {as : List α} :
    ∀ x ∈ (sweep size accept reduce q as).1, x.1 ∈ as := by
  induction as generalizing q with
  | nil => simp [sweep]
  | cons a as ih =>
    intro x hx
    rw [sweep] at hx
    split at hx
    · split at hx
      · rcases List.mem_cons.mp hx with rfl | hx
        · exact List.mem_cons_self
        · exact List.mem_cons_of_mem _ (ih x hx)
      · cases List.mem_singleton.mp hx
        exact List.mem_cons_self
    · cases hx

/-! ## What a sweep adds up to -/

theorem sweep_bounds {q : ℤ} {as : List α} (hq : 0 ≤ q) (hs : ∀ a ∈ as, 0 < size a) :
    ∀ x ∈ (sweep size accept reduce q as).1, x.1 ∈ as ∧ 0 < x.2 ∧ x.2 ≤ size x.1 := by
  intro x hx
  rw [sweep_eq hq hs] at hx
  obtain ⟨hm, hp⟩ := List.mem_filter.mp hx
  obtain ⟨ha, _, hle⟩ := allotted_bounds hq hs x hm
  exact ⟨ha, by simpa using hp, hle⟩

/-- The amounts taken under one key. -/
def takenFrom {β : Type*} [DecidableEq β] (key : α → β) (k : β) (xs : List (α × ℤ)) : ℤ :=
  ((xs.filter fun x => key x.1 = k).map Prod.snd).sum

theorem takenFrom_eq_zero {β : Type*} [DecidableEq β] {key : α → β} {k : β} {xs : List (α × ℤ)}
    (h : ∀ x ∈ xs, key x.1 ≠ k) : takenFrom key k xs = 0 := by
  have hnone : xs.filter (fun x => key x.1 = k) = [] := by
    rw [List.filter_eq_nil_iff]
    intro x hx
    simpa using h x hx
  rw [takenFrom, hnone]
  rfl

/-- An item that is not left was taken in full. -/
theorem takenFrom_of_gone {β : Type*} [DecidableEq β] (key : α → β)
    (hk : ∀ a t, key (reduce a t) = key a) {q : ℤ} {as : List α} (hn : (as.map key).Nodup) {x : α}
    (hx : x ∈ as) (hgone : ∀ y ∈ (sweep size accept reduce q as).2, key y ≠ key x) :
    takenFrom key (key x) (sweep size accept reduce q as).1 = size x := by
  induction as generalizing q with
  | nil => cases hx
  | cons a as ih =>
    rw [List.map_cons, List.nodup_cons] at hn
    by_cases hgo : 0 < q ∧ accept a = true
    · by_cases hd : size a ≤ q
      · simp only [sweep, if_pos hgo, if_pos hd] at hgone ⊢
        rcases List.mem_cons.mp hx with rfl | hx
        · have hnone : takenFrom key (key x) (sweep size accept reduce (q - size x) as).1 = 0 :=
            takenFrom_eq_zero fun y hy he =>
              hn.1 (he ▸ List.mem_map.mpr ⟨y.1, mem_of_taken y hy, rfl⟩)
          rw [takenFrom] at hnone ⊢
          rw [List.filter_cons_of_pos (by simp), List.map_cons, List.sum_cons, hnone, add_zero]
        · have hne : key a ≠ key x := fun he => hn.1 (he ▸ List.mem_map.mpr ⟨x, hx, rfl⟩)
          rw [takenFrom, List.filter_cons_of_neg (by simpa using hne)]
          exact ih hn.2 hx hgone
      · simp only [sweep, if_pos hgo, if_neg hd] at hgone
        rcases List.mem_cons.mp hx with rfl | hx
        · exact absurd (hk x q) (hgone _ List.mem_cons_self)
        · exact absurd rfl (hgone x (List.mem_cons_of_mem _ hx))
    · simp only [sweep, if_neg hgo] at hgone
      exact absurd rfl (hgone x hx)

section Account

variable (hr : ∀ a t, 0 < t → t < size a → size (reduce a t) = size a - t)

include hr

/-- What is taken and what is left add up to the queue. -/
theorem sum_sweep {q : ℤ} {as : List α} (hs : ∀ a ∈ as, 0 < size a) :
    ((sweep size accept reduce q as).2.map size).sum +
      ((sweep size accept reduce q as).1.map Prod.snd).sum = (as.map size).sum := by
  induction as generalizing q with
  | nil => simp [sweep]
  | cons a as ih =>
    have htail := ih (q := q - size a) fun x hx => hs x (by simp [hx])
    by_cases hgo : 0 < q ∧ accept a = true
    · by_cases hd : size a ≤ q
      · simp only [sweep, if_pos hgo, if_pos hd, List.map_cons, List.sum_cons]
        omega
      · have hsize := hr a q hgo.1 (not_le.mp hd)
        simp only [sweep, if_pos hgo, if_neg hd, List.map_cons, List.sum_cons, List.map_nil,
          List.sum_nil, hsize]
        omega
    · simp [sweep, hgo]

/-- An item that is left has lost what was taken under its key. -/
theorem sweep_account {β : Type*} [DecidableEq β] (key : α → β)
    (hk : ∀ a t, key (reduce a t) = key a) {q : ℤ} {as : List α} (hn : (as.map key).Nodup) :
    ∀ y ∈ (sweep size accept reduce q as).2, ∃ x ∈ as, key x = key y ∧
      (y = x ∨ ∃ t, y = reduce x t) ∧
      size x = size y + takenFrom key (key y) (sweep size accept reduce q as).1 := by
  induction as generalizing q with
  | nil => simp [sweep]
  | cons a as ih =>
    intro y hy
    rw [List.map_cons, List.nodup_cons] at hn
    have other : ∀ {z : α}, key z ∈ as.map key → key a ≠ key z := fun hz he => hn.1 (he ▸ hz)
    by_cases hgo : 0 < q ∧ accept a = true
    · by_cases hd : size a ≤ q
      · simp only [sweep, if_pos hgo, if_pos hd] at hy ⊢
        obtain ⟨x, hx, hkey, hxy, hsum⟩ := ih hn.2 y hy
        have hne : key a ≠ key y := other (hkey ▸ List.mem_map.mpr ⟨x, hx, rfl⟩)
        refine ⟨x, by simp [hx], hkey, hxy, ?_⟩
        rw [takenFrom, List.filter_cons_of_neg (by simpa using hne)]
        exact hsum
      · simp only [sweep, if_pos hgo, if_neg hd] at hy ⊢
        rcases List.mem_cons.mp hy with rfl | hy
        · refine ⟨a, by simp, (hk a q).symm, Or.inr ⟨q, rfl⟩, ?_⟩
          have hsize := hr a q hgo.1 (not_le.mp hd)
          simp [takenFrom, hk, hsize]
        · have hne : key a ≠ key y := other (List.mem_map.mpr ⟨y, hy, rfl⟩)
          refine ⟨y, by simp [hy], rfl, Or.inl rfl, ?_⟩
          rw [takenFrom_eq_zero (by simpa using hne), add_zero]
    · simp only [sweep, if_neg hgo] at hy ⊢
      exact ⟨y, hy, rfl, Or.inl rfl, by simp [takenFrom]⟩

end Account

end Sweep

end Allocation
