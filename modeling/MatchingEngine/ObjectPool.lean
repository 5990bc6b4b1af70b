import MatchingEngine.BookRuns

/-! # The object pool

A slot is named by its place in the pool's raw memory. `acquire` takes the slot off the free
list before it runs the constructor, and nothing puts it back if the constructor throws. -/
namespace ObjectPool

open EngineTypes
open Orders
open BookInvariant
open BookRuns

/-! ## The pool -/

/-- `storage` has the object that lives in a slot, if any. The free list's last slot is taken
first. -/
structure Pool (T : Type) where
  capacity : ℕ
  storage : ℕ → Option T
  freeList : List ℕ

/-- What `acquire` throws: its own error, or what the constructor of `T` threw. -/
inductive PoolError (E : Type) where
  | runtimeError (what : String)
  | constructor (e : E)

variable {T E Args : Type}

def newPool (capacity : ℕ) : Pool T := ⟨capacity, fun _ => none, List.range capacity⟩

abbrev PoolM (E T : Type) := EStateM (PoolError E) (Pool T)

def exhausted : PoolError E := .runtimeError "ObjectPool exhausted - increase capacity"

def acquire (construct : Args → Except E T) (args : Args) : PoolM E T ℕ := do
  match (← get).freeList.getLast? with
  | none => throw exhausted
  | some slot =>
    modify fun p => { p with freeList := p.freeList.dropLast }
    match construct args with
    | .error e => throw (.constructor e)
    | .ok obj =>
      modify fun p => { p with storage := Function.update p.storage slot (some obj) }
      return slot

def release (slot : ℕ) : PoolM E T Unit := do
  modify fun p => { p with storage := Function.update p.storage slot none }
  modify fun p => { p with freeList := p.freeList ++ [slot] }

def available (p : Pool T) : ℕ := p.freeList.length

/-- The slots with a live object. -/
def live (p : Pool T) : List ℕ := (List.range p.capacity).filter fun slot => (p.storage slot).isSome

/-! ## Runs -/

inductive PoolCall (Args : Type) where
  | acquire (args : Args)
  | release (slot : ℕ)

def after (construct : Args → Except E T) (p : Pool T) : PoolCall Args → Pool T
  | .acquire args => stateAfter ((acquire construct args).run p)
  | .release slot => stateAfter ((release slot : PoolM E T Unit).run p)

/-- Only live objects are released. -/
def Legal (construct : Args → Except E T) (p : Pool T) : List (PoolCall Args) → Prop
  | [] => True
  | .acquire args :: calls => Legal construct (after construct p (.acquire args)) calls
  | .release slot :: calls =>
    slot ∈ live p ∧ Legal construct (after construct p (.release slot)) calls

/-- No slot is lost or handed out twice by a call of `acquire`. -/
structure AcquireSound (construct : Args → Except E T) (p : Pool T) (args : Args) : Prop where
  fresh : ∀ slot p', (acquire construct args).run p = .ok slot p' →
    slot < p.capacity ∧ slot ∉ live p
  throws : (∃ p', (acquire construct args).run p = .error exhausted p') ↔
    (live p).length = p.capacity
  unchanged : ∀ e p', (acquire construct args).run p = .error e p' → p'.freeList = p.freeList

/-- Free and live slots make up the pool before and after every call, and every `acquire` is
sound. -/
def Sound (construct : Args → Except E T) (p : Pool T) : List (PoolCall Args) → Prop
  | [] => available p + (live p).length = p.capacity
  | .acquire args :: calls => available p + (live p).length = p.capacity ∧
    AcquireSound construct p args ∧ Sound construct (after construct p (.acquire args)) calls
  | .release slot :: calls => available p + (live p).length = p.capacity ∧
    Sound construct (after construct p (.release slot)) calls

/-- No constructor throws in a slot that the pool has given it. -/
def Constructs (construct : Args → Except E T) (p : Pool T) : List (PoolCall Args) → Prop
  | [] => True
  | .acquire args :: calls => (p.freeList ≠ [] → ∃ obj, construct args = .ok obj) ∧
    Constructs construct (after construct p (.acquire args)) calls
  | .release slot :: calls => Constructs construct (after construct p (.release slot)) calls

/-! ## What a call does -/

section

variable {construct : Args → Except E T} {p : Pool T} {args : Args} {slot : ℕ} {free : List ℕ}

theorem modify_ok {ε σ : Type} (f : σ → σ) (s : σ) :
    (modify f : EStateM ε σ PUnit).run s = .ok ⟨⟩ (f s) := rfl

theorem acquire_exhausted (h : p.freeList = []) :
    (acquire construct args).run p = .error exhausted p := by
  rw [acquire, bind_ok (get_ok p), h]
  rfl

theorem acquire_thrown (h : p.freeList = free ++ [slot]) {e : E} (he : construct args = .error e) :
    (acquire construct args).run p = .error (.constructor e) { p with freeList := free } := by
  have hfree : p.freeList.dropLast = free := by rw [h, List.dropLast_concat]
  rw [acquire, bind_ok (get_ok p), h]
  simp only [List.getLast?_concat, he]
  rw [bind_ok (modify_ok _ p), hfree]
  rfl

theorem acquire_ok (h : p.freeList = free ++ [slot]) {obj : T} (ho : construct args = .ok obj) :
    (acquire construct args).run p = .ok slot
      { p with
        storage := Function.update p.storage slot (some obj)
        freeList := free } := by
  have hfree : p.freeList.dropLast = free := by rw [h, List.dropLast_concat]
  rw [acquire, bind_ok (get_ok p), h]
  simp only [List.getLast?_concat, ho]
  rw [bind_ok (modify_ok _ p), hfree]
  rfl

theorem release_ok (p : Pool T) (slot : ℕ) : (release slot : PoolM E T Unit).run p = .ok ()
    { p with
      storage := Function.update p.storage slot none
      freeList := p.freeList ++ [slot] } := rfl

/-- An `acquire` finds no slot, loses the slot it took, or constructs in it. -/
inductive AcquireSteps (construct : Args → Except E T) (p : Pool T) (args : Args) :
    EStateM.Result (PoolError E) (Pool T) ℕ → Prop
  | exhausted (hnone : p.freeList = []) :
      AcquireSteps construct p args (.error exhausted p)
  | thrown (free : List ℕ) (slot : ℕ) (e : E) (hfree : p.freeList = free ++ [slot])
      (he : construct args = .error e) :
      AcquireSteps construct p args (.error (.constructor e) { p with freeList := free })
  | constructed (free : List ℕ) (slot : ℕ) (obj : T) (hfree : p.freeList = free ++ [slot])
      (ho : construct args = .ok obj) :
      AcquireSteps construct p args (.ok slot
        { p with
          storage := Function.update p.storage slot (some obj)
          freeList := free })

theorem acquire_cases (construct : Args → Except E T) (p : Pool T) (args : Args) :
    AcquireSteps construct p args ((acquire construct args).run p) := by
  rcases List.eq_nil_or_concat' p.freeList with hnone | ⟨free, slot, hfree⟩
  · rw [acquire_exhausted hnone]
    exact .exhausted hnone
  · cases hc : construct args with
    | error e =>
      rw [acquire_thrown hfree hc]
      exact .thrown free slot e hfree hc
    | ok obj =>
      rw [acquire_ok hfree hc]
      exact .constructed free slot obj hfree hc

end

/-! ## Free, live and lost slots -/

/-- Every slot is free, live, or lost to a constructor that threw. -/
structure Partition (p : Pool T) (lost : List ℕ) : Prop where
  nodup : (p.freeList ++ lost).Nodup
  vacant : ∀ slot, slot ∈ p.freeList ++ lost ↔ slot < p.capacity ∧ p.storage slot = none

theorem newPool_partition (capacity : ℕ) : Partition (newPool capacity : Pool T) [] := by
  constructor
  · simpa [newPool] using List.nodup_range
  · simp [newPool]

section

variable {construct : Args → Except E T} {p : Pool T} {args : Args} {slot : ℕ} {lost : List ℕ}

theorem mem_live : slot ∈ live p ↔ slot < p.capacity ∧ p.storage slot ≠ none := by
  simp [live, Option.isSome_iff_ne_none]

/-- The slots add up to the pool. -/
theorem Partition.account (h : Partition p lost) :
    available p + (live p).length + lost.length = p.capacity := by
  have hsplit := (List.range p.capacity).length_eq_length_filter_add
    fun slot => (p.storage slot).isSome
  have hperm : (p.freeList ++ lost).Perm
      ((List.range p.capacity).filter fun slot => !(p.storage slot).isSome) := by
    apply (List.perm_ext_iff_of_nodup h.nodup (List.nodup_range.filter _)).mpr
    intro slot
    rw [h.vacant]
    simp
  have hlen := hperm.length_eq
  rw [List.length_append] at hlen
  rw [List.length_range] at hsplit
  rw [available, live]
  omega

theorem partition_release (construct : Args → Except E T) (h : Partition p lost)
    (hlive : slot ∈ live p) : Partition (after construct p (.release slot)) lost := by
  obtain ⟨hslot, hsome⟩ := mem_live.mp hlive
  have hout : slot ∉ p.freeList ++ lost := fun hm => hsome ((h.vacant slot).mp hm).2
  have hperm : (p.freeList ++ [slot] ++ lost).Perm (slot :: (p.freeList ++ lost)) := by
    rw [List.append_assoc]
    exact List.perm_middle
  constructor
  · exact hperm.nodup_iff.mpr (List.nodup_cons.mpr ⟨hout, h.nodup⟩)
  · intro k
    rw [after, release_ok, stateAfter, hperm.mem_iff, List.mem_cons, h.vacant]
    by_cases hk : k = slot
    · subst hk
      simp [hslot]
    · simp [hk]

theorem partition_acquire (construct : Args → Except E T) (h : Partition p lost) (args : Args) :
    ∃ lost', Partition (after construct p (.acquire args)) lost' ∧
      (lost' = lost ∨ p.freeList ≠ [] ∧ ∃ e, construct args = .error e) := by
  rw [after]
  have hcases := acquire_cases construct p args
  generalize (acquire construct args).run p = r at hcases
  cases hcases with
  | exhausted hnone => exact ⟨lost, h, Or.inl rfl⟩
  | thrown free slot e hfree he =>
    have hperm : (free ++ (slot :: lost)).Perm (p.freeList ++ lost) := by
      rw [hfree, List.append_assoc]
      rfl
    refine ⟨slot :: lost, ⟨hperm.nodup_iff.mpr h.nodup, ?_⟩, Or.inr ⟨by simp [hfree], e, he⟩⟩
    intro k
    exact hperm.mem_iff.trans (h.vacant k)
  | constructed free slot obj hfree ho =>
    have hperm : (p.freeList ++ lost).Perm (slot :: (free ++ lost)) := by
      rw [hfree, List.append_assoc]
      exact List.perm_middle
    obtain ⟨hout, hnodup⟩ := List.nodup_cons.mp (hperm.nodup_iff.mp h.nodup)
    refine ⟨lost, ⟨hnodup, ?_⟩, Or.inl rfl⟩
    intro k
    have hk := h.vacant k
    rw [hperm.mem_iff, List.mem_cons] at hk
    simp only [stateAfter]
    by_cases he : k = slot
    · subst he
      simp [hout]
    · rw [Function.update_of_ne he, ← hk]
      simp [he]

/-- With nothing lost, an `acquire` that does not throw in the constructor is sound. -/
theorem acquireSound (h : Partition p []) (hok : p.freeList ≠ [] → ∃ obj, construct args = .ok obj) :
    AcquireSound construct p args := by
  have haccount := h.account
  have hcases := acquire_cases construct p args
  constructor
  · intro slot p' hrun
    rw [hrun] at hcases
    cases hcases with
    | constructed free _ obj hfree ho =>
      have hm : slot ∈ p.freeList ++ [] := by simp [hfree]
      obtain ⟨hslot, hnone⟩ := (h.vacant slot).mp hm
      exact ⟨hslot, fun hlive => (mem_live.mp hlive).2 hnone⟩
  · rw [List.length_nil, Nat.add_zero, available] at haccount
    constructor
    · rintro ⟨p', hrun⟩
      rw [hrun] at hcases
      cases hcases with
      | exhausted hnone =>
        rw [hnone, List.length_nil, Nat.zero_add] at haccount
        exact haccount
    · intro hfull
      have hnone : p.freeList = [] := List.eq_nil_of_length_eq_zero (by omega)
      exact ⟨p, acquire_exhausted hnone⟩
  · intro e p' hrun
    rw [hrun] at hcases
    cases hcases with
    | exhausted hnone => rfl
    | thrown free slot e hfree he =>
      obtain ⟨obj, ho⟩ := hok (by simp [hfree])
      rw [he] at ho
      cases ho

theorem constructs_of_sound {p : Pool T} {calls : List (PoolCall Args)}
    (h : Sound construct p calls) : Constructs construct p calls := by
  induction calls generalizing p with
  | nil => trivial
  | cons c calls ih =>
    cases c with
    | release slot => exact ih h.2
    | acquire args =>
      obtain ⟨_, hsound, hrest⟩ := h
      refine ⟨?_, ih hrest⟩
      intro hsome
      obtain ⟨free, slot, hfree⟩ := (List.eq_nil_or_concat' p.freeList).resolve_left hsome
      cases hc : construct args with
      | ok obj => exact ⟨obj, rfl⟩
      | error e =>
        have hkept := congrArg List.length (hsound.unchanged _ _ (acquire_thrown hfree hc))
        simp [hfree] at hkept

theorem sound_of_constructs {p : Pool T} {calls : List (PoolCall Args)} (hp : Partition p [])
    (hlegal : Legal construct p calls) (h : Constructs construct p calls) :
    Sound construct p calls := by
  have haccount := hp.account
  induction calls generalizing p with
  | nil => exact haccount
  | cons c calls ih =>
    cases c with
    | release slot =>
      have hp' := partition_release construct hp hlegal.1
      exact ⟨haccount, ih hp' hlegal.2 h hp'.account⟩
    | acquire args =>
      obtain ⟨hok, hrest⟩ := h
      obtain ⟨lost, hp', hlost⟩ := partition_acquire construct hp args
      obtain rfl : lost = [] := by
        rcases hlost with hlost | ⟨hsome, e, he⟩
        · exact hlost
        · obtain ⟨obj, ho⟩ := hok hsome
          rw [he] at ho
          cases ho
      exact ⟨haccount, acquireSound hp hok, ih hp' hlegal hrest hp'.account⟩

end

/-- The pool keeps its slots through a run exactly when no constructor throws in a slot. -/
theorem sound_iff_constructs (construct : Args → Except E T) (capacity : ℕ)
    (calls : List (PoolCall Args)) (hlegal : Legal construct (newPool capacity) calls) :
    Sound construct (newPool capacity) calls ↔ Constructs construct (newPool capacity) calls :=
  ⟨constructs_of_sound, sound_of_constructs (newPool_partition capacity) hlegal⟩

/-! ## Limit orders -/

/-- The arguments of the constructor of `LimitOrder`. -/
structure LimitOrderArgs where
  id : OrderId
  traderId : TraderId
  side : Side
  quantity : Int32
  price : Double

def constructLimitOrder (a : LimitOrderArgs) : Except Failure Order :=
  limitOrder a.id a.traderId a.side a.quantity a.price

/-- An order is placed in the only slot, a second one finds none, and the first is released. -/
theorem sound_iff_constructs_one_slot : Sound constructLimitOrder (newPool 1)
    [.acquire ⟨1, 1, .buy, 10, LimitPrice.hundred.val⟩,
      .acquire ⟨2, 1, .buy, 0, LimitPrice.hundred.val⟩, .release 0] := by
  apply (sound_iff_constructs _ _ _ ?_).mpr
  · exact ⟨fun _ => ⟨_, rfl⟩, fun hsome => absurd rfl hsome, trivial⟩
  · exact ⟨by decide, trivial⟩

/-- A quantity of 0 costs the pool its only slot. -/
theorem sound_fails : ¬ ∀ (capacity : ℕ) (calls : List (PoolCall LimitOrderArgs)),
    Legal constructLimitOrder (newPool capacity) calls →
    Sound constructLimitOrder (newPool capacity) calls := by
  intro hall
  have hsound := hall 1 [.acquire ⟨1, 1, .buy, 0, LimitPrice.hundred.val⟩] trivial
  have haccount : 0 + 0 = 1 := hsound.2.2
  cases haccount

end ObjectPool
