import Mathlib.Data.List.Basic
import Mathlib.Data.List.Flatten
import Mathlib.Data.List.ReduceOption

/-! # A log that is written in batches

Consecutive batches cut a log into pieces. Each is kept whole or lost whole. -/
namespace BatchLog

structure Batch (α : Type*) where
  records : List α
  kept : Bool

variable {α β : Type*}

/-- All records of the batches, kept or lost. -/
def attempted (bs : List (Batch α)) : List α := bs.flatMap Batch.records

/-- What is left of the log. -/
def kept (bs : List (Batch α)) : List α := (bs.filter Batch.kept).flatMap Batch.records

/-- No batch with one of the first `n` records was lost. -/
def KeptBefore (bs : List (Batch α)) (n : ℕ) : Prop :=
  ∀ before b after, bs = before ++ b :: after → (attempted before).length < n → b.kept = true

/-- Once a batch with something of kind `f` is lost, nothing of that kind is kept. -/
def NoHole (f : α → Option β) (bs : List (Batch α)) : Prop :=
  bs.Pairwise fun b c => b.kept = false → b.records.filterMap f ≠ [] → c.kept = true →
    c.records.filterMap f = []

@[simp] theorem attempted_nil : attempted ([] : List (Batch α)) = [] := rfl

@[simp] theorem kept_nil : kept ([] : List (Batch α)) = [] := rfl

@[simp] theorem attempted_cons (b : Batch α) (bs : List (Batch α)) :
    attempted (b :: bs) = b.records ++ attempted bs := by
  simp [attempted]

theorem kept_cons (b : Batch α) (bs : List (Batch α)) :
    kept (b :: bs) = if b.kept then b.records ++ kept bs else kept bs := by
  cases hb : b.kept <;> simp [kept, hb]

@[simp] theorem attempted_concat (bs : List (Batch α)) (b : Batch α) :
    attempted (bs ++ [b]) = attempted bs ++ b.records := by
  simp [attempted]

@[simp] theorem kept_concat_kept (bs : List (Batch α)) (records : List α) :
    kept (bs ++ [⟨records, true⟩]) = kept bs ++ records := by
  simp [kept]

@[simp] theorem kept_concat_lost (bs : List (Batch α)) (records : List α) :
    kept (bs ++ [⟨records, false⟩]) = kept bs := by
  simp [kept]

theorem kept_of_all {bs : List (Batch α)} (h : ∀ b ∈ bs, b.kept = true) :
    kept bs = attempted bs := by
  rw [kept, List.filter_eq_self.mpr h, attempted]

theorem kept_sublist (bs : List (Batch α)) : (kept bs).Sublist (attempted bs) :=
  List.filter_sublist.flatMap _

/-- The first records of the log are kept if none of their batches was lost. -/
theorem take_prefix_kept {bs : List (Batch α)} {n : ℕ} (h : KeptBefore bs n) :
    (attempted bs).take n <+: kept bs := by
  induction bs generalizing n with
  | nil => simp
  | cons b bs ih =>
    cases n with
    | zero => simp
    | succ n =>
      have hb : b.kept = true := h [] b bs rfl (Nat.succ_pos n)
      have hrest : KeptBefore bs (n + 1 - b.records.length) := by
        intro before c after hsplit hlt
        apply h (b :: before) c after (by simp [hsplit])
        rw [attempted_cons, List.length_append]
        omega
      rw [kept_cons, if_pos hb, attempted_cons, List.take_append]
      rcases Nat.le_total (n + 1) b.records.length with hle | hle
      · rw [Nat.sub_eq_zero_of_le hle, List.take_zero, List.append_nil]
        exact (List.take_prefix _ _).trans (List.prefix_append _ _)
      · rw [List.take_of_length_le hle, List.prefix_append_right_inj]
        exact ih hrest

/-- Without a hole, what is left of one kind is the start of all of that kind. -/
theorem kept_first {f : α → Option β} {bs : List (Batch α)} (h : NoHole f bs) :
    (kept bs).filterMap f <+: (attempted bs).filterMap f := by
  induction bs with
  | nil => exact List.prefix_rfl
  | cons b bs ih =>
    obtain ⟨hlater, hrest⟩ := List.pairwise_cons.mp h
    rw [kept_cons, attempted_cons, List.filterMap_append]
    cases hb : b.kept with
    | true =>
      rw [if_pos rfl, List.filterMap_append, List.prefix_append_right_inj]
      exact ih hrest
    | false =>
      rw [if_neg Bool.false_ne_true]
      by_cases hnone : b.records.filterMap f = []
      · rw [hnone, List.nil_append]
        exact ih hrest
      · have hempty : (kept bs).filterMap f = [] := by
          simp only [kept, List.filterMap_flatMap, List.flatMap_eq_nil_iff, List.mem_filter]
          intro c hc
          exact hlater c hc.1 hb hnone hc.2
        rw [hempty]
        exact List.nil_prefix

/-! ## Batches that are cut short -/

section CutShort

variable {γ : Type*} (f : γ → List α) (n : γ → ℕ)

/-- Of each batch, the first records. -/
def cutShort (bs : List γ) : List α := bs.flatMap fun b => (f b).take (n b)

variable {f n}

theorem cutShort_append (bs bs' : List γ) :
    cutShort f n (bs ++ bs') = cutShort f n bs ++ cutShort f n bs' := List.flatMap_append

@[simp] theorem cutShort_singleton (b : γ) : cutShort f n [b] = (f b).take (n b) := by
  simp [cutShort]

theorem cutShort_sublist (bs : List γ) : List.Sublist (cutShort f n bs) (bs.flatMap f) := by
  induction bs with
  | nil => exact List.Sublist.slnil
  | cons b bs ih => exact (List.take_sublist _ _).append ih

theorem cutShort_whole {bs : List γ} (h : ∀ b ∈ bs, (f b).length ≤ n b) :
    cutShort f n bs = bs.flatMap f := by
  apply List.flatMap_congr
  intro b hb
  exact List.take_of_length_le (h b hb)

end CutShort

/-! ## Groups -/

/-- A log of groups: a mark where a group begins, and its members. -/
def marked (gs : List (List β)) : List (Option β) := gs.flatMap fun g => none :: g.map some

@[simp] theorem marked_nil : marked ([] : List (List β)) = [] := rfl

@[simp] theorem marked_cons (g : List β) (gs : List (List β)) :
    marked (g :: gs) = none :: (g.map some ++ marked gs) := by
  simp [marked]

@[simp] theorem marked_append (gs gs' : List (List β)) :
    marked (gs ++ gs') = marked gs ++ marked gs' := List.flatMap_append

theorem marked_members (gs : List (List β)) : (marked gs).reduceOption = gs.flatten := by
  induction gs with
  | nil => rfl
  | cons g gs ih =>
    have hg : (g.map some).reduceOption = g := by simp [List.reduceOption, List.filterMap_map]
    simp [List.reduceOption_append, hg, ih]

theorem marked_first (gs : List (List β)) : (marked gs).takeWhile Option.isSome = [] := by
  cases gs with
  | nil => rfl
  | cons g gs => simp

/-- Wherever a log of groups is cut, the groups begun are what is before the cut and the members
right behind it. -/
theorem marked_cut {gs : List (List β)} {xs ys : List (Option β)} (h : xs ++ ys = marked gs) :
    marked (gs.take (xs.countP Option.isNone)) = xs ++ ys.takeWhile Option.isSome := by
  induction gs generalizing xs with
  | nil =>
    obtain ⟨rfl, rfl⟩ := List.append_eq_nil_iff.mp h
    rfl
  | cons g gs ih =>
    rw [marked_cons] at h
    cases xs with
    | nil =>
      obtain rfl : ys = _ := h
      simp
    | cons x xs =>
      rw [List.cons_append, List.cons.injEq] at h
      obtain ⟨rfl, h⟩ := h
      have hmembers : ∀ l : List β, (l.map some).countP Option.isNone = 0 := by
        intro l
        simp [List.countP_eq_zero]
      rcases List.append_eq_append_iff.mp h with ⟨zs, hg, rfl⟩ | ⟨zs, rfl, hrest⟩
      · -- The cut is inside this group.
        obtain ⟨front, back, rfl, rfl, rfl⟩ := List.map_eq_append_iff.mp hg
        simp [hmembers, marked_first]
      · simp [hmembers, ih hrest.symm]

end BatchLog
