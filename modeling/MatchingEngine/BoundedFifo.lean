import Mathlib.Data.List.Basic
import Mathlib.Data.Nat.ModEq
import Mathlib.Logic.Function.Basic
import Mathlib.Tactic.TypeStar

/-! # Bounded queues and circular windows

What a queue with room for `bound` values may answer, and the run of a value's slots through
an array of `n` slots that is used round and round. -/
namespace BoundedFifo

variable {α : Type*}

/-! ## Histories -/

/-- A finished operation with its answer. -/
inductive Op (α : Type*) where
  | push (v : α) (ok : Bool)
  | pop (answer : Option α)
  deriving DecidableEq

inductive FifoStep (bound : ℕ) : List α → Op α → List α → Prop
  | push {q : List α} (v : α) (h : q.length < bound) : FifoStep bound q (.push v true) (q ++ [v])
  | full {q : List α} (v : α) (h : q.length = bound) : FifoStep bound q (.push v false) q
  | pop (v : α) (q : List α) : FifoStep bound (v :: q) (.pop (some v)) q
  | empty : FifoStep bound [] (.pop none) []

/-- The operations lead from the empty queue to this one. -/
inductive History (bound : ℕ) : List (Op α) → List α → Prop
  | nil : History bound [] []
  | snoc {ops : List (Op α)} {q q' : List α} {op : Op α} (h : History bound ops q)
      (hs : FifoStep bound q op q') : History bound (ops ++ [op]) q'

def Op.accepted? : Op α → Option α
  | .push v true => some v
  | _ => none

def Op.popped? : Op α → Option α
  | .pop answer => answer
  | _ => none

/-- The values of the pushes that were taken. -/
def accepted (ops : List (Op α)) : List α := ops.filterMap Op.accepted?

def popped (ops : List (Op α)) : List α := ops.filterMap Op.popped?

@[simp] theorem accepted_concat (ops : List (Op α)) (op : Op α) :
    accepted (ops ++ [op]) = accepted ops ++ op.accepted?.toList := by
  cases h : op.accepted? <;> simp [accepted, h]

@[simp] theorem popped_concat (ops : List (Op α)) (op : Op α) :
    popped (ops ++ [op]) = popped ops ++ op.popped?.toList := by
  cases h : op.popped? <;> simp [popped, h]

variable {bound : ℕ} {ops : List (Op α)} {q : List α}

/-- What was taken in and not given out is in the queue, in order. -/
theorem History.account (h : History bound ops q) : popped ops ++ q = accepted ops := by
  induction h with
  | nil => rfl
  | snoc _ hs ih =>
    cases hs with
    | push v hroom => simp [← ih, Op.accepted?, Op.popped?]
    | full v hfull => simpa [Op.accepted?, Op.popped?] using ih
    | pop v q => simpa [Op.accepted?, Op.popped?] using ih
    | empty => simpa [Op.accepted?, Op.popped?] using ih

theorem History.length_le (h : History bound ops q) : q.length ≤ bound := by
  induction h with
  | nil => exact Nat.zero_le _
  | snoc _ hs ih =>
    cases hs with
    | push v hroom =>
      rw [List.length_append]
      exact hroom
    | full v hfull => exact ih
    | pop v q => exact Nat.le_of_succ_le ih
    | empty => exact ih

/-- Values come out in the order they went in. -/
theorem History.popped_prefix (h : History bound ops q) : popped ops <+: accepted ops :=
  ⟨q, h.account⟩

theorem History.length_account (h : History bound ops q) :
    (accepted ops).length = (popped ops).length + q.length := by
  rw [← h.account, List.length_append]

/-! ## Windows -/

/-- The values of `u` stand in the slots from place `start` on, and these are the slots in use. -/
structure Window (n : ℕ) (slots : ℕ → α) (used : ℕ → Bool) (start : ℕ) (u : List α) : Prop where
  values : ∀ i (h : i < u.length), slots ((start + i) % n) = u[i]
  inUse : ∀ k < n, used k = true ↔ ∃ i < u.length, k = (start + i) % n

/-- Fewer than `n` places in a row have different slots. -/
theorem slot_injective {n a i j : ℕ} (hi : i < n) (hj : j < n) (h : (a + i) % n = (a + j) % n) :
    i = j := by
  have hmod : i % n = j % n := Nat.ModEq.add_left_cancel' a h
  rwa [Nat.mod_eq_of_lt hi, Nat.mod_eq_of_lt hj] at hmod

variable {n start : ℕ} {slots : ℕ → α} {used : ℕ → Bool} {u : List α}

theorem window_nil (n : ℕ) (slots : ℕ → α) (start : ℕ) :
    Window n slots (fun _ => false) start [] :=
  ⟨nofun, by simp⟩

/-- The slot behind the window is not in use. -/
theorem Window.behind_free (h : Window n slots used start u) (hroom : u.length < n) :
    used ((start + u.length) % n) = false := by
  rw [Bool.eq_false_iff]
  intro hused
  obtain ⟨i, hi, heq⟩ := (h.inUse _ (Nat.mod_lt _ (by omega))).mp hused
  have := slot_injective hroom (by omega) heq
  omega

theorem Window.append (h : Window n slots used start u) (hroom : u.length < n) (v : α) :
    Window n (Function.update slots ((start + u.length) % n) v)
      (Function.update used ((start + u.length) % n) true) start (u ++ [v]) := by
  constructor
  · intro i hi
    rw [List.length_append, List.length_singleton] at hi
    by_cases he : i = u.length
    · subst he
      simp
    · have hlt : i < u.length := by omega
      have hne : (start + i) % n ≠ (start + u.length) % n :=
        fun heq => he (slot_injective (by omega) hroom heq)
      rw [Function.update_of_ne hne, h.values i hlt, List.getElem_append_left hlt]
  · intro k hk
    rw [List.length_append, List.length_singleton]
    by_cases he : k = (start + u.length) % n
    · subst he
      simp only [Function.update_self, true_iff]
      exact ⟨u.length, by omega, rfl⟩
    · rw [Function.update_of_ne he, h.inUse k hk]
      constructor
      · rintro ⟨i, hi, rfl⟩
        exact ⟨i, by omega, rfl⟩
      · rintro ⟨i, hi, rfl⟩
        have hne : i ≠ u.length := fun hi => he (hi ▸ rfl)
        exact ⟨i, by omega, rfl⟩

variable {v : α}

theorem Window.head (h : Window n slots used start (v :: u)) : slots (start % n) = v :=
  h.values 0 (by simp)

theorem Window.head_used (h : Window n slots used start (v :: u)) (hn : 0 < n) :
    used (start % n) = true :=
  (h.inUse _ (Nat.mod_lt _ hn)).mpr ⟨0, by simp, by simp⟩

/-- The first slot is given up, whatever is left in it. -/
theorem Window.tail (h : Window n slots used start (v :: u)) (hlen : u.length < n) (junk : α) :
    Window n (Function.update slots (start % n) junk) (Function.update used (start % n) false)
      (start + 1) u := by
  have hne : ∀ i < u.length, (start + 1 + i) % n ≠ start % n := by
    intro i hi heq
    have hzero : (start + (1 + i)) % n = (start + 0) % n := by rw [← Nat.add_assoc]; exact heq
    have := slot_injective (by omega) (by omega) hzero
    omega
  constructor
  · intro i hi
    have hvalue := h.values (i + 1) (by simpa using hi)
    rw [Function.update_of_ne (hne i hi), Nat.add_assoc, Nat.add_comm 1 i, hvalue]
    simp
  · intro k hk
    by_cases he : k = start % n
    · subst he
      simp only [Function.update_self, Bool.false_eq_true, false_iff, not_exists, not_and]
      exact fun i hi heq => hne i hi heq.symm
    · rw [Function.update_of_ne he, h.inUse k hk]
      constructor
      · rintro ⟨i, hi, rfl⟩
        obtain ⟨j, rfl⟩ : ∃ j, i = j + 1 := by
          cases i with
          | zero => exact absurd rfl he
          | succ j => exact ⟨j, rfl⟩
        exact ⟨j, by simpa using hi, by rw [Nat.add_assoc, Nat.add_comm 1 j]⟩
      · rintro ⟨i, hi, rfl⟩
        exact ⟨i + 1, by simpa using hi, by rw [Nat.add_assoc, Nat.add_comm 1 i]⟩

end BoundedFifo
