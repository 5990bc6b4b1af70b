import Mathlib.Data.List.Basic
import Mathlib.Logic.Function.Basic
import Mathlib.Order.Basic
import Mathlib.Tactic.TypeStar

/-! # Atomic locations with release stores and acquire loads

An atomic location keeps its stores in their order, each with what its thread knew of all threads
when it made it. A load may see any store that is not older than the newest one its thread has
seen there. Accesses to plain locations are stamped; two of them by different threads race when
the later thread does not know of the earlier access. -/
namespace ReleaseAcquire

structure Message (τ V : Type*) where
  value : V
  clock : τ → ℕ

/-- `seen t a` is the place of the newest store to `a` that thread `t` has seen, `clock t u` how
far `t` knows of `u`, and `touched d u` the time of the last access of `u` to `d`, or zero. -/
structure Memory (τ A D V W : Type*) where
  stores : A → List (Message τ V)
  seen : τ → A → ℕ
  clock : τ → τ → ℕ
  data : D → W
  touched : D → τ → ℕ

variable {τ A D V W : Type*} [DecidableEq τ] [DecidableEq A] [DecidableEq D]

namespace Memory

/-- The store that a load sees when it sees the one at place `i`. -/
def visible (m : Memory τ A D V W) (t : τ) (a : A) (i : ℕ) : Option (Message τ V) :=
  if m.seen t a ≤ i then (m.stores a)[i]? else none

def see (m : Memory τ A D V W) (t : τ) (a : A) (i : ℕ) : Memory τ A D V W :=
  { m with seen := Function.update m.seen t (Function.update (m.seen t) a i) }

/-- An acquire load also learns what the storing thread knew. -/
def acquire (m : Memory τ A D V W) (t : τ) (a : A) (i : ℕ) (msg : Message τ V) :
    Memory τ A D V W :=
  { m.see t a i with
    clock := Function.update m.clock t fun u => max (m.clock t u) (msg.clock u) }

/-- A release store; what its thread does next is later than it. -/
def release (m : Memory τ A D V W) (t : τ) (a : A) (v : V) : Memory τ A D V W :=
  { m.see t a (m.stores a).length with
    stores := Function.update m.stores a (m.stores a ++ [⟨v, m.clock t⟩])
    clock := Function.update m.clock t (Function.update (m.clock t) t (m.clock t t + 1)) }

/-- An access that leaves `w` in a plain location. -/
def touch (m : Memory τ A D V W) (t : τ) (d : D) (w : W) : Memory τ A D V W :=
  { m with
    data := Function.update m.data d w
    touched := Function.update m.touched d (Function.update (m.touched d) t (m.clock t t)) }

/-- An access of `t` to `d` now would race with one it does not know of. -/
def Race (m : Memory τ A D V W) (t : τ) (d : D) : Prop := ∃ u, u ≠ t ∧ m.clock t u < m.touched d u

section

variable (m : Memory τ A D V W) (t : τ) (a : A) (i : ℕ) (msg : Message τ V) (v : V)

omit [DecidableEq D]

@[simp] theorem acquire_data : (m.acquire t a i msg).data = m.data := rfl

@[simp] theorem acquire_touched : (m.acquire t a i msg).touched = m.touched := rfl

@[simp] theorem release_data : (m.release t a v).data = m.data := rfl

@[simp] theorem release_touched : (m.release t a v).touched = m.touched := rfl

end

end Memory

/-! ## Numbered stores -/

/-- The stores to `a` are the first `n + 1` of the sequence `value`, and the `k`-th was made when
its thread had made `k` before it. -/
structure Numbered (m : Memory τ A D V W) (t : τ) (a : A) (value : ℕ → V) (n : ℕ) : Prop where
  length : (m.stores a).length = n + 1
  message : ∀ k msg, (m.stores a)[k]? = some msg → msg.value = value k ∧ msg.clock t = k
  latest : m.seen t a = n
  own : m.clock t t = n + 1

/-- What `u` has seen of the numbered stores to `a`, and what it learnt from them. -/
structure Follows (m : Memory τ A D V W) (u t : τ) (a : A) (n k : ℕ) : Prop where
  seen : m.seen u a = k
  knows : k ≤ m.clock u t
  bounded : k ≤ n

variable {m : Memory τ A D V W} {t u : τ} {a b : A} {value : ℕ → V} {n k i : ℕ}
  {msg : Message τ V}

omit [DecidableEq τ] [DecidableEq A] [DecidableEq D] in
theorem Numbered.visible_own (h : Numbered m t a value n) (hv : m.visible t a i = some msg) :
    msg.value = value n := by
  unfold Memory.visible at hv
  split at hv
  · rename_i hle
    rw [h.latest] at hle
    have hlt := (List.getElem?_eq_some_iff.mp hv).1
    rw [h.length] at hlt
    obtain rfl : i = n := by omega
    exact (h.message _ _ hv).1
  · cases hv

omit [DecidableEq τ] [DecidableEq A] [DecidableEq D] in
/-- A load of another thread's stores may lag behind, but never goes back. -/
theorem Numbered.visible_other (h : Numbered m t a value n) (hf : Follows m u t a n k)
    (hv : m.visible u a i = some msg) :
    msg.value = value i ∧ msg.clock t = i ∧ k ≤ i ∧ i ≤ n := by
  unfold Memory.visible at hv
  split at hv
  · rename_i hle
    rw [hf.seen] at hle
    have hlt := (List.getElem?_eq_some_iff.mp hv).1
    rw [h.length] at hlt
    obtain ⟨hvalue, hclock⟩ := h.message _ _ hv
    exact ⟨hvalue, hclock, hle, by omega⟩
  · cases hv

/-! ## Two threads that answer each other -/

/-- Thread `t` stores to `a` and follows `b`, thread `u` stores to `b` and follows `a`. There are
`n` and `p` stores after the first; `t` has seen `j` of `u`'s, `u` has seen `k` of `t`'s. -/
structure Exchange (m : Memory τ A D V W) (t u : τ) (a b : A) (va vb : ℕ → V)
    (n j p k : ℕ) : Prop where
  threads : t ≠ u
  places : a ≠ b
  mine : Numbered m t a va n
  theirs : Numbered m u b vb p
  follows : Follows m t u b p j
  followed : Follows m u t a n k
  modest : ∀ c msg, msg ∈ m.stores c → msg.clock t ≤ m.clock t t ∧ msg.clock u ≤ m.clock u u
  modestNow : m.clock t u ≤ m.clock u u ∧ m.clock u t ≤ m.clock t t

namespace Exchange

variable {va vb : ℕ → V} {j p : ℕ}

omit [DecidableEq τ] [DecidableEq A] [DecidableEq D]

theorem swap (h : Exchange m t u a b va vb n j p k) : Exchange m u t b a vb va p k n j where
  threads := h.threads.symm
  places := h.places.symm
  mine := h.theirs
  theirs := h.mine
  follows := h.followed
  followed := h.follows
  modest c msg hmem := (h.modest c msg hmem).symm
  modestNow := h.modestNow.symm

/-- With no third thread, an access is safe if the other's last access is among what it has
seen. -/
theorem not_race (h : Exchange m t u a b va vb n j p k) (hall : ∀ v, v = t ∨ v = u) {d : D}
    (hd : m.touched d u ≤ j) : ¬ m.Race t d := by
  rintro ⟨v, hne, hlt⟩
  obtain rfl : v = u := (hall v).resolve_left hne
  have := h.follows.knows
  omega

variable [DecidableEq τ] [DecidableEq A]

theorem see_own (h : Exchange m t u a b va vb n j p k) (hv : m.visible t a i = some msg) :
    Exchange (m.see t a i) t u a b va vb n j p k := by
  have hi : i = n := by
    unfold Memory.visible at hv
    split at hv
    · rename_i hle
      rw [h.mine.latest] at hle
      have hlt := (List.getElem?_eq_some_iff.mp hv).1
      rw [h.mine.length] at hlt
      omega
    · cases hv
  have hsame : m.see t a i = m := by
    unfold Memory.see
    rw [hi, ← h.mine.latest, Function.update_eq_self, Function.update_eq_self]
  rwa [hsame]

/-- An acquire load of the other thread's location. -/
theorem acquire (h : Exchange m t u a b va vb n j p k) (hv : m.visible t b i = some msg) :
    Exchange (m.acquire t b i msg) t u a b va vb n i p k := by
  obtain ⟨_, hclock, _, hle⟩ := h.theirs.visible_other h.follows hv
  have hmem : msg ∈ m.stores b := by
    unfold Memory.visible at hv
    split at hv
    · exact List.mem_of_getElem? hv
    · cases hv
  have hmodest := h.modest b msg hmem
  have htt : (m.acquire t b i msg).clock t t = m.clock t t := by
    simp [Memory.acquire, Memory.see, hmodest.1]
  have hu : (m.acquire t b i msg).clock u = m.clock u := by
    simp [Memory.acquire, Memory.see, h.threads.symm]
  constructor
  · exact h.threads
  · exact h.places
  · refine ⟨h.mine.length, h.mine.message, ?_, htt.trans h.mine.own⟩
    simpa [Memory.acquire, Memory.see, h.places] using h.mine.latest
  · refine ⟨h.theirs.length, h.theirs.message, ?_, ?_⟩
    · simpa [Memory.acquire, Memory.see, h.threads.symm] using h.theirs.latest
    · rw [hu]
      exact h.theirs.own
  · refine ⟨by simp [Memory.acquire, Memory.see], ?_, hle⟩
    simp only [Memory.acquire, Memory.see, Function.update_self, hclock]
    exact Nat.le_max_right _ _
  · refine ⟨?_, ?_, h.followed.bounded⟩
    · simpa [Memory.acquire, Memory.see, h.threads.symm] using h.followed.seen
    · rw [hu]
      exact h.followed.knows
  · intro c msg' hmem'
    rw [htt, hu]
    exact h.modest c msg' hmem'
  · rw [hu, htt]
    refine ⟨?_, h.modestNow.2⟩
    simp only [Memory.acquire, Memory.see, Function.update_self]
    exact Nat.max_le.mpr ⟨h.modestNow.1, hmodest.2⟩

/-- A release store to the thread's own location. -/
theorem release (h : Exchange m t u a b va vb n j p k) :
    Exchange (m.release t a (va (n + 1))) t u a b va vb (n + 1) j p k := by
  have hu : (m.release t a (va (n + 1))).clock u = m.clock u := by
    simp [Memory.release, Memory.see, h.threads.symm]
  have htu : (m.release t a (va (n + 1))).clock t u = m.clock t u := by
    simp [Memory.release, Memory.see, h.threads.symm]
  have htt : (m.release t a (va (n + 1))).clock t t = n + 2 := by
    simp [Memory.release, Memory.see, h.mine.own]
  have ha : (m.release t a (va (n + 1))).stores a = m.stores a ++ [⟨va (n + 1), m.clock t⟩] := by
    simp [Memory.release]
  have hb : ∀ c ≠ a, (m.release t a (va (n + 1))).stores c = m.stores c := by
    intro c hc
    simp [Memory.release, hc]
  constructor
  · exact h.threads
  · exact h.places
  · refine ⟨by simp [ha, h.mine.length], fun i msg hmsg => ?_, ?_, htt⟩
    · rw [ha, List.getElem?_append] at hmsg
      split at hmsg
      · exact h.mine.message i msg hmsg
      · rename_i hlt
        rw [h.mine.length] at hlt hmsg
        have hi : i = n + 1 := by
          have := (List.getElem?_eq_some_iff.mp hmsg).1
          simp only [List.length_singleton] at this
          omega
        subst hi
        simp only [Nat.sub_self, List.getElem?_cons_zero, Option.some.injEq] at hmsg
        subst hmsg
        exact ⟨rfl, h.mine.own⟩
    · simp [Memory.release, Memory.see, h.mine.length]
  · refine ⟨by rw [hb b h.places.symm]; exact h.theirs.length, ?_, ?_, hu ▸ h.theirs.own⟩
    · rw [hb b h.places.symm]
      exact h.theirs.message
    · simpa [Memory.release, Memory.see, h.threads.symm] using h.theirs.latest
  · refine ⟨?_, htu.symm ▸ h.follows.knows, h.follows.bounded⟩
    simpa [Memory.release, Memory.see, h.places.symm] using h.follows.seen
  · refine ⟨?_, hu ▸ h.followed.knows, Nat.le_succ_of_le h.followed.bounded⟩
    simpa [Memory.release, Memory.see, h.threads.symm] using h.followed.seen
  · intro c msg hmem
    rw [htt, hu]
    have hold : ∀ msg, msg ∈ m.stores c → msg.clock t ≤ n + 2 ∧ msg.clock u ≤ m.clock u u := by
      intro msg hmem
      have := h.modest c msg hmem
      rw [h.mine.own] at this
      exact ⟨by omega, this.2⟩
    by_cases hc : c = a
    · subst hc
      rw [ha, List.mem_append, List.mem_singleton] at hmem
      rcases hmem with hmem | rfl
      · exact hold msg hmem
      · exact ⟨by simp [h.mine.own], h.modestNow.1⟩
    · rw [hb c hc] at hmem
      exact hold msg hmem
  · rw [htu, htt, hu]
    have := h.modestNow.2
    rw [h.mine.own] at this
    exact ⟨h.modestNow.1, by omega⟩

omit [DecidableEq A] in
/-- Accesses to plain locations leave the atomic ones alone. -/
theorem touch [DecidableEq D] (h : Exchange m t u a b va vb n j p k) (v : τ) (d : D) (w : W) :
    Exchange (m.touch v d w) t u a b va vb n j p k :=
  ⟨h.threads, h.places, ⟨h.mine.length, h.mine.message, h.mine.latest, h.mine.own⟩,
    ⟨h.theirs.length, h.theirs.message, h.theirs.latest, h.theirs.own⟩,
    ⟨h.follows.seen, h.follows.knows, h.follows.bounded⟩,
    ⟨h.followed.seen, h.followed.knows, h.followed.bounded⟩, h.modest, h.modestNow⟩

end Exchange

end ReleaseAcquire
