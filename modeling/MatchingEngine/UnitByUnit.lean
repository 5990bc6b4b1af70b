import Mathlib.Data.List.Flatten
import Mathlib.Data.List.NodupEquivFin
import Mathlib.Logic.Function.Basic
import MatchingEngine.SweepComparison

/-! # A sweep unit by unit

What a sweep takes as a list of single units, and why no other choice of units is better. -/
namespace Allocation

variable {α β : Type*}

/-! ## Lists compared position by position -/

/-- `l` is at least as good as `l'` at every position of `l'`. -/
def Dominates (R : α → α → Prop) (l l' : List α) : Prop :=
  ∀ (i : ℕ) (b : α), l'[i]? = some b → ∃ a, l[i]? = some a ∧ R a b

section Dominates

variable {R : α → α → Prop} {l l' : List α}

theorem Dominates.length_le (h : Dominates R l l') : l'.length ≤ l.length := by
  by_contra hlt
  rw [not_le] at hlt
  obtain ⟨a, ha, _⟩ := h l.length _ (List.getElem?_eq_getElem hlt)
  simp at ha

theorem Dominates.take (h : Dominates R l l') {n : ℕ} (hn : l'.length ≤ n) :
    Dominates R (l.take n) l' := by
  intro i b hb
  obtain ⟨hi, _⟩ := List.getElem?_eq_some_iff.mp hb
  rw [List.getElem?_take_of_lt (by omega)]
  exact h i b hb

theorem Dominates.map {S : β → β → Prop} {f : α → β} (h : Dominates R l l')
    (hf : ∀ a b, R a b → S (f a) (f b)) : Dominates S (l.map f) (l'.map f) := by
  intro i c hc
  rw [List.getElem?_map] at hc
  obtain ⟨b, hb, rfl⟩ := Option.map_eq_some_iff.mp hc
  obtain ⟨a, ha, hab⟩ := h i b hb
  exact ⟨f a, by rw [List.getElem?_map, ha, Option.map_some], hf a b hab⟩

/-- What is left out of a sorted list only moves the later items forward. -/
theorem dominates_of_sublist (hr : ∀ a, R a a) (hs : l.Pairwise R) (h : l'.Sublist l) :
    Dominates R l l' := by
  obtain ⟨f, hf⟩ := List.sublist_iff_exists_orderEmbedding_getElem?_eq.mp h
  intro i b hb
  have hle : i ≤ f i := f.strictMono.le_apply
  rw [hf i] at hb
  obtain ⟨hlt, rfl⟩ := List.getElem?_eq_some_iff.mp hb
  refine ⟨l[i], List.getElem?_eq_getElem (by omega), ?_⟩
  rcases hle.eq_or_lt with heq | hless
  · simp only [← heq]
    exact hr _
  · exact List.pairwise_iff_getElem.mp hs i (f i) (by omega) hlt hless

end Dominates

/-! ## Units -/

/-- An item for each unit of its amount. -/
def units (xs : List (α × ℤ)) : List α := xs.flatMap fun x => List.replicate x.2.toNat x.1

/-- An item for each unit of its size. -/
def offered (size : α → ℤ) (as : List α) : List α :=
  as.flatMap fun a => List.replicate (size a).toNat a

section Units

variable {size : α → ℤ} {accept : α → Bool} {reduce : α → ℤ → α} {q : ℤ} {as : List α}

/-- A sweep takes the first units on offer. -/
theorem units_sweep (hs : ∀ a ∈ as, 0 < size a) : units (sweep size accept reduce q as).1 =
    (offered size (as.takeWhile accept)).take q.toNat := by
  induction as generalizing q with
  | nil => simp [sweep, units, offered]
  | cons a as ih =>
    have ha := hs a List.mem_cons_self
    have hrest := ih (q := q - size a) fun x hx => hs x (List.mem_cons_of_mem _ hx)
    rw [sweep]
    by_cases haccept : accept a = true
    · rw [List.takeWhile_cons_of_pos haccept, offered, List.flatMap_cons, List.take_append,
        List.take_replicate, List.length_replicate]
      split
      · split
        · rename_i hpos hfits
          have hmin : min q.toNat (size a).toNat = (size a).toNat := by omega
          have hsub : q.toNat - (size a).toNat = (q - size a).toNat := by omega
          rw [hmin, hsub]
          exact congrArg (List.replicate (size a).toNat a ++ ·) hrest
        · rename_i hpos hover
          have hmin : min q.toNat (size a).toNat = q.toNat := by omega
          have hsub : q.toNat - (size a).toNat = 0 := by omega
          rw [hmin, hsub, List.take_zero]
          rfl
      · rename_i hstop
        have hzero : q.toNat = 0 := by
          have : ¬ 0 < q := fun hq => hstop ⟨hq, haccept⟩
          omega
        rw [hzero, Nat.zero_min, Nat.zero_sub, List.take_zero]
        rfl
    · rw [List.takeWhile_cons_of_neg haccept, if_neg fun h => haccept h.2]
      exact List.take_nil.symm

/-- Where nothing after a refused item is accepted, the accepted front has all accepted items. -/
theorem takeWhile_eq_filter (hmono : as.Pairwise fun a b => accept b = true → accept a = true) :
    as.takeWhile accept = as.filter accept := by
  induction as with
  | nil => rfl
  | cons a as ih =>
    obtain ⟨hhead, htail⟩ := List.pairwise_cons.mp hmono
    by_cases ha : accept a = true
    · rw [List.takeWhile_cons_of_pos ha, List.filter_cons_of_pos ha, ih htail]
    · rw [List.takeWhile_cons_of_neg ha, List.filter_cons_of_neg ha, eq_comm,
        List.filter_eq_nil_iff]
      exact fun b hb haccept => ha (hhead b hb haccept)

theorem offered_sublist {bs : List α} (h : bs.Sublist as) :
    (offered size bs).Sublist (offered size as) := h.flatMap _

theorem offered_pairwise {R : α → α → Prop} (hr : ∀ a, R a a) (h : as.Pairwise R) :
    (offered size as).Pairwise R := by
  rw [offered, List.pairwise_flatMap]
  refine ⟨fun a _ => List.pairwise_replicate.mpr (.inr (hr a)), h.imp ?_⟩
  intro a b hab x hx y hy
  rw [(List.mem_replicate.mp hx).2, (List.mem_replicate.mp hy).2]
  exact hab

theorem length_units_sweep (hs : ∀ a ∈ as, 0 < size a) :
    (units (sweep size accept reduce q as).1).length ≤ q.toNat := by
  rw [units_sweep hs]
  exact List.length_take_le _ _

/-- An amount of each item, in the order of the items. -/
def chosen (amount : α → ℕ) (as : List α) : List α := as.flatMap fun a => List.replicate (amount a) a

theorem chosen_congr {amount amount' : α → ℕ} (h : ∀ a ∈ as, amount a = amount' a) :
    chosen amount as = chosen amount' as :=
  List.flatMap_congr fun a ha => by rw [h a ha]

theorem chosen_zero (as : List α) : chosen (fun _ => 0) as = [] :=
  List.flatMap_eq_nil_iff.mpr fun _ _ => rfl

theorem chosen_sublist {amount : α → ℕ} (hle : ∀ a ∈ as, (amount a : ℤ) ≤ size a)
    (haccept : ∀ a ∈ as, amount a ≠ 0 → accept a = true) :
    (chosen amount as).Sublist (offered size (as.filter accept)) := by
  induction as with
  | nil => exact List.Sublist.refl _
  | cons a as ih =>
    rw [List.forall_mem_cons] at hle haccept
    have hrest := ih hle.2 haccept.2
    rw [chosen, List.flatMap_cons]
    by_cases ha : accept a = true
    · rw [List.filter_cons_of_pos ha, offered, List.flatMap_cons]
      have hfew : amount a ≤ (size a).toNat := by
        have := hle.1
        omega
      exact (List.replicate_sublist_replicate a |>.mpr hfew).append hrest
    · have hnone : amount a = 0 := by
        by_contra hsome
        exact ha (haccept.1 hsome)
      rw [List.filter_cons_of_neg ha, hnone, List.replicate_zero, List.nil_append]
      exact hrest

/-- What the sweep takes is such a choice. -/
theorem exists_chosen [DecidableEq α] (hnodup : as.Nodup) (hs : ∀ a ∈ as, 0 < size a) :
    ∃ amount : α → ℕ, (∀ a ∈ as, (amount a : ℤ) ≤ size a) ∧
      (∀ a ∈ as, amount a ≠ 0 → accept a = true) ∧
        chosen amount as = units (sweep size accept reduce q as).1 := by
  induction as generalizing q with
  | nil => exact ⟨fun _ => 0, by simp, by simp, rfl⟩
  | cons a as ih =>
    obtain ⟨hnew, hnodup⟩ := List.nodup_cons.mp hnodup
    have ha := hs a List.mem_cons_self
    have hkeep : ∀ (amount : α → ℕ) (n : ℕ), ∀ x ∈ as, Function.update amount a n x = amount x := by
      intro amount n x hx
      have hne : x ≠ a := fun he => hnew (he ▸ hx)
      exact Function.update_of_ne hne _ _
    rw [sweep]
    split
    · rename_i hgo
      split
      · obtain ⟨amount, hle, haccept, hsame⟩ :=
          ih hnodup (fun x hx => hs x (List.mem_cons_of_mem _ hx)) (q := q - size a)
        refine ⟨Function.update amount a (size a).toNat, ?_, ?_, ?_⟩
        · rw [List.forall_mem_cons, Function.update_self]
          refine ⟨by omega, fun x hx => ?_⟩
          rw [hkeep _ _ x hx]
          exact hle x hx
        · rw [List.forall_mem_cons]
          refine ⟨fun _ => hgo.2, fun x hx => ?_⟩
          rw [hkeep _ _ x hx]
          exact haccept x hx
        · rw [chosen, List.flatMap_cons, Function.update_self]
          refine congrArg (List.replicate (size a).toNat a ++ ·) ?_
          exact (chosen_congr (hkeep amount _)).trans hsame
      · refine ⟨Function.update (fun _ => 0) a q.toNat, ?_, ?_, ?_⟩
        · rw [List.forall_mem_cons, Function.update_self]
          refine ⟨by omega, fun x hx => ?_⟩
          rw [hkeep _ _ x hx]
          exact (hs x (List.mem_cons_of_mem _ hx)).le
        · rw [List.forall_mem_cons]
          refine ⟨fun _ => hgo.2, fun x hx hsome => ?_⟩
          rw [hkeep _ _ x hx] at hsome
          exact absurd rfl hsome
        · rw [chosen, List.flatMap_cons, Function.update_self]
          refine congrArg (List.replicate q.toNat a ++ ·) ?_
          exact (chosen_congr (hkeep _ _)).trans (chosen_zero as)
    · exact ⟨fun _ => 0, fun x hx => (hs x hx).le, fun _ _ hsome => absurd rfl hsome,
        chosen_zero _⟩

/-- No choice of units within the quantity is anywhere better than what the sweep takes. -/
theorem sweep_dominates {R : α → α → Prop} (hr : ∀ a, R a a) (hs : ∀ a ∈ as, 0 < size a)
    (hsorted : as.Pairwise R) (hmono : as.Pairwise fun a b => accept b = true → accept a = true)
    {others : List α} (hothers : others.Sublist (offered size (as.filter accept)))
    (hfew : others.length ≤ q.toNat) :
    Dominates R (units (sweep size accept reduce q as).1) others := by
  rw [units_sweep hs, takeWhile_eq_filter hmono]
  have hoffer : (offered size (as.filter accept)).Pairwise R :=
    offered_pairwise hr (hsorted.sublist List.filter_sublist)
  exact (dominates_of_sublist hr hoffer hothers).take hfew

end Units

end Allocation
