import Mathlib.Data.Nat.Bitwise
import MatchingEngine.BoundedFifo
import MatchingEngine.Transitions

/-! # The single-producer, single-consumer ring buffer

Each call is cut at its accesses to shared memory. A load sees the latest store. The history
gets a call's answer at the access that decides it: the load after which `push` returns false
or `pop` returns nothing, and the stores to `head_` and `tail_`. -/
namespace SpscRing

open BoundedFifo
open Transitions

/-- The template parameter, with its two static assertions. -/
structure Capacity where
  val : ℕ
  atLeastTwo : 2 ≤ val
  powerOfTwo : val &&& (val - 1) = 0

/-- The producer in `push(item)`: which accesses it has made, and what its locals hold. -/
inductive ProducerPc (α : Type*) where
  | idle
  | headLoaded (item : α) (head : ℕ)
  | roomSeen (item : α) (head : ℕ)
  | slotWritten (item : α) (head : ℕ)

inductive ConsumerPc (α : Type*) where
  | idle
  | tailLoaded (tail : ℕ)
  | valueSeen (tail : ℕ)
  | slotRead (item : α) (tail : ℕ)

/-- `unread` and `history` are read by no step. `unread` has the slots that were written and not
yet read. -/
structure Ring (α : Type*) where
  buffer : ℕ → α
  head : ℕ
  tail : ℕ
  producer : ProducerPc α
  consumer : ConsumerPc α
  unread : ℕ → Bool
  history : List (Op α)

variable {α : Type*}

/-- `buffer` is what the constructor leaves in the slots. -/
def newRing (buffer : ℕ → α) : Ring α := ⟨buffer, 0, 0, .idle, .idle, fun _ => false, []⟩

/-- `(index + 1) & (Capacity - 1)` -/
def nextIndex (c : Capacity) (index : ℕ) : ℕ := (index + 1) &&& (c.val - 1)

/-- The producer's next access. `item` is the argument when it enters `push`. -/
def producerStep (c : Capacity) (item : α) (s : Ring α) : Ring α :=
  match s.producer with
  | .idle => { s with producer := .headLoaded item s.head }
  | .headLoaded item head =>
    if nextIndex c head = s.tail then
      { s with
        producer := .idle
        history := s.history ++ [.push item false] }
    else { s with producer := .roomSeen item head }
  | .roomSeen item head =>
    { s with
      buffer := Function.update s.buffer head item
      unread := Function.update s.unread head true
      producer := .slotWritten item head }
  | .slotWritten item head =>
    { s with
      head := nextIndex c head
      producer := .idle
      history := s.history ++ [.push item true] }

/-- The consumer's next access. `junk` is what a move leaves in the slot. -/
def consumerStep (c : Capacity) (junk : α) (s : Ring α) : Ring α :=
  match s.consumer with
  | .idle => { s with consumer := .tailLoaded s.tail }
  | .tailLoaded tail =>
    if tail = s.head then
      { s with
        consumer := .idle
        history := s.history ++ [.pop none] }
    else { s with consumer := .valueSeen tail }
  | .valueSeen tail =>
    { s with
      buffer := Function.update s.buffer tail junk
      unread := Function.update s.unread tail false
      consumer := .slotRead (s.buffer tail) tail }
  | .slotRead item tail =>
    { s with
      tail := nextIndex c tail
      consumer := .idle
      history := s.history ++ [.pop (some item)] }

/-- One access of either thread. -/
inductive RingStep (c : Capacity) : Ring α → Ring α → Prop
  | producer (s : Ring α) (item : α) : RingStep c s (producerStep c item s)
  | consumer (s : Ring α) (junk : α) : RingStep c s (consumerStep c junk s)

/-- The values that are taken in and not given out. -/
def outstanding (s : Ring α) : ℕ := (accepted s.history).length - (popped s.history).length

/-! ## Indices -/

theorem nextIndex_eq_mod (c : Capacity) (index : ℕ) : nextIndex c index = (index + 1) % c.val := by
  have h0 : c.val ≠ 0 := by have := c.atLeastTwo; omega
  obtain ⟨k, hk⟩ := (Nat.and_sub_one_eq_zero_iff_isPowerOfTwo h0).mp c.powerOfTwo
  rw [nextIndex, hk, Nat.and_two_pow_sub_one_eq_mod]

theorem nextIndex_mod (c : Capacity) (n : ℕ) : nextIndex c (n % c.val) = (n + 1) % c.val := by
  rw [nextIndex_eq_mod, Nat.mod_add_mod]

/-! ## The invariant -/

/-- The value that the producer has written and not published. -/
def unpublished : ProducerPc α → List α
  | .slotWritten item _ => [item]
  | _ => []

/-- How many values the consumer has read and not released. -/
def taken : ConsumerPc α → ℕ
  | .slotRead _ _ => 1
  | _ => 0

def ProducerInvariant (c : Capacity) (head : ℕ) (q : List α) : ProducerPc α → Prop
  | .idle => True
  | .headLoaded _ h => h = head
  | .roomSeen _ h => h = head ∧ q.length < c.val - 1
  | .slotWritten _ h => h = head ∧ q.length < c.val - 1

def ConsumerInvariant (tail : ℕ) (q : List α) : ConsumerPc α → Prop
  | .idle => True
  | .tailLoaded t => t = tail
  | .valueSeen t => t = tail ∧ q ≠ []
  | .slotRead item t => t = tail ∧ q.head? = some item

/-- The ring holds the queue `q`. -/
structure RingInvariant (c : Capacity) (q : List α) (s : Ring α) : Prop where
  history : History (c.val - 1) s.history q
  head : s.head = (accepted s.history).length % c.val
  tail : s.tail = (popped s.history).length % c.val
  producer : ProducerInvariant c s.head q s.producer
  consumer : ConsumerInvariant s.tail q s.consumer
  window : Window c.val s.buffer s.unread ((popped s.history).length + taken s.consumer)
    (q.drop (taken s.consumer) ++ unpublished s.producer)

theorem newRing_invariant (c : Capacity) (buffer : ℕ → α) : RingInvariant c [] (newRing buffer) :=
  ⟨.nil, (Nat.zero_mod _).symm, (Nat.zero_mod _).symm, trivial, trivial, window_nil _ _ _⟩

section

variable {c : Capacity} {q : List α} {s : Ring α}

theorem taken_le (h : RingInvariant c q s) : taken s.consumer ≤ q.length := by
  have hc := h.consumer
  cases hpc : s.consumer with
  | slotRead item t =>
    rw [hpc] at hc
    cases q with
    | nil => cases hc.2
    | cons v q => exact Nat.succ_le_succ (Nat.zero_le _)
  | _ => exact Nat.zero_le _

theorem outstanding_eq (h : RingInvariant c q s) : outstanding s = q.length := by
  have hcount := h.history.length_account
  rw [outstanding]
  omega

/-- One slot is always left free, so that equal indices mean an empty ring. -/
theorem full_iff (h : RingInvariant c q s) :
    nextIndex c s.head = s.tail ↔ q.length = c.val - 1 := by
  have htwo := c.atLeastTwo
  have hle := h.history.length_le
  rw [h.head, h.tail, nextIndex_mod, h.history.length_account, Nat.add_assoc]
  constructor
  · intro heq
    by_contra hne
    have hzero := slot_injective (j := 0) (by omega) (by omega) heq
    omega
  · intro hfull
    rw [hfull, Nat.sub_add_cancel (by omega), Nat.add_mod_right]

theorem empty_iff (h : RingInvariant c q s) : s.tail = s.head ↔ q = [] := by
  have htwo := c.atLeastTwo
  have hle := h.history.length_le
  rw [h.head, h.tail, h.history.length_account]
  constructor
  · intro heq
    exact List.eq_nil_of_length_eq_zero
      (slot_injective (i := q.length) (j := 0) (by omega) (by omega) heq.symm)
  · rintro rfl
    rfl

/-- With what is written and not published, there is still a slot left. -/
theorem written_fits (h : RingInvariant c q s) :
    q.length + (unpublished s.producer).length < c.val := by
  have htwo := c.atLeastTwo
  have hle := h.history.length_le
  have hp := h.producer
  cases hpc : s.producer with
  | slotWritten item head =>
    rw [hpc] at hp
    have hroom := hp.2
    simp only [unpublished, List.length_singleton]
    omega
  | _ =>
    simp only [unpublished, List.length_nil]
    omega

theorem ProducerInvariant.shrink {head : ℕ} {v : α} {pc : ProducerPc α}
    (h : ProducerInvariant c head (v :: q) pc) : ProducerInvariant c head q pc := by
  cases pc with
  | idle => trivial
  | headLoaded item k => exact h
  | roomSeen item k => exact ⟨h.1, Nat.lt_of_succ_lt h.2⟩
  | slotWritten item k => exact ⟨h.1, Nat.lt_of_succ_lt h.2⟩

theorem ConsumerInvariant.grow {tail : ℕ} {v : α} {pc : ConsumerPc α}
    (h : ConsumerInvariant tail q pc) : ConsumerInvariant tail (q ++ [v]) pc := by
  cases pc with
  | idle => trivial
  | tailLoaded t => exact h
  | valueSeen t => exact ⟨h.1, by simp⟩
  | slotRead item t => exact ⟨h.1, by simp [h.2]⟩

theorem free_slot (h : RingInvariant c q s) {item : α} {head : ℕ}
    (hpc : s.producer = .roomSeen item head) :
    head = ((popped s.history).length + taken s.consumer +
      (q.drop (taken s.consumer) ++ unpublished s.producer).length) % c.val ∧
      (q.drop (taken s.consumer) ++ unpublished s.producer).length < c.val := by
  have hp := h.producer
  have htaken := taken_le h
  rw [hpc] at hp
  obtain ⟨rfl, hroom⟩ := hp
  have hlen : (q.drop (taken s.consumer) ++ unpublished s.producer).length =
      q.length - taken s.consumer := by simp [hpc, unpublished]
  rw [hlen, h.head, h.history.length_account]
  exact ⟨by congr 1; omega, by omega⟩

theorem producer_invariant (h : RingInvariant c q s) (item : α) :
    ∃ q', RingInvariant c q' (producerStep c item s) := by
  obtain ⟨hhistory, hhead, htail, hproducer, hconsumer, hwindow⟩ := id h
  rw [producerStep]
  cases hpc : s.producer with
  | idle => exact ⟨q, hhistory, hhead, htail, rfl, hconsumer, by simpa [hpc, unpublished] using hwindow⟩
  | headLoaded v head =>
    rw [hpc] at hproducer hwindow
    obtain rfl : head = s.head := hproducer
    simp only
    split
    · rename_i hfull
      refine ⟨q, hhistory.snoc (.full v ((full_iff h).mp hfull)), ?_, ?_, trivial, hconsumer, ?_⟩
      · simpa [Op.accepted?] using hhead
      · simpa [Op.popped?] using htail
      · simpa [Op.popped?, unpublished] using hwindow
    · rename_i hroom
      have hle := hhistory.length_le
      have hlt : q.length < c.val - 1 :=
        Nat.lt_of_le_of_ne hle fun heq => hroom ((full_iff h).mpr heq)
      exact ⟨q, hhistory, hhead, htail, ⟨rfl, hlt⟩, hconsumer, hwindow⟩
  | roomSeen v head =>
    obtain ⟨hslot, hfree⟩ := free_slot h hpc
    rw [hpc] at hproducer
    refine ⟨q, hhistory, hhead, htail, hproducer, hconsumer, ?_⟩
    have hnext := hwindow.append hfree v
    rw [← hslot] at hnext
    simpa [hpc, unpublished] using hnext
  | slotWritten v head =>
    rw [hpc] at hproducer hwindow
    obtain ⟨rfl, hroom⟩ := hproducer
    refine ⟨q ++ [v], hhistory.snoc (.push v hroom), ?_, ?_, trivial, hconsumer.grow, ?_⟩
    · simp [Op.accepted?, hhead, nextIndex_mod]
    · simpa [Op.popped?] using htail
    · rw [popped_concat, List.drop_append_of_le_length (taken_le h)]
      simpa [Op.popped?, unpublished] using hwindow

theorem consumer_invariant (h : RingInvariant c q s) (junk : α) :
    ∃ q', RingInvariant c q' (consumerStep c junk s) := by
  obtain ⟨hhistory, hhead, htail, hproducer, hconsumer, hwindow⟩ := id h
  rw [consumerStep]
  cases hpc : s.consumer with
  | idle =>
    rw [hpc] at hwindow
    exact ⟨q, hhistory, hhead, htail, hproducer, rfl, hwindow⟩
  | tailLoaded tail =>
    rw [hpc] at hconsumer hwindow
    obtain rfl : tail = s.tail := hconsumer
    simp only
    split
    · rename_i hempty
      obtain rfl := (empty_iff h).mp hempty
      refine ⟨[], hhistory.snoc .empty, ?_, ?_, hproducer, trivial, ?_⟩
      · simpa [Op.accepted?] using hhead
      · simpa [Op.popped?] using htail
      · simpa [Op.popped?, taken] using hwindow
    · rename_i hsome
      exact ⟨q, hhistory, hhead, htail, hproducer, ⟨rfl, fun heq => hsome ((empty_iff h).mpr heq)⟩,
        hwindow⟩
  | valueSeen tail =>
    rw [hpc] at hconsumer hwindow
    obtain ⟨rfl, hne⟩ := hconsumer
    obtain ⟨v, q, rfl⟩ := List.exists_cons_of_ne_nil hne
    simp only [taken, List.drop_zero, Nat.add_zero, List.cons_append] at hwindow
    have hlen : (q ++ unpublished s.producer).length < c.val := by
      have hfits := written_fits h
      rw [List.length_cons] at hfits
      rw [List.length_append]
      omega
    have hvalue := hwindow.head
    have hnext := hwindow.tail hlen junk
    rw [← htail] at hvalue hnext
    exact ⟨v :: q, hhistory, hhead, htail, hproducer, ⟨rfl, by rw [hvalue]; rfl⟩, hnext⟩
  | slotRead item tail =>
    rw [hpc] at hconsumer hwindow
    obtain ⟨rfl, hfirst⟩ := hconsumer
    obtain ⟨q, rfl⟩ : ∃ q', q = item :: q' := List.head?_eq_some_iff.mp hfirst
    refine ⟨q, hhistory.snoc (.pop item q), ?_, ?_, hproducer.shrink, trivial, ?_⟩
    · simpa [Op.accepted?] using hhead
    · simp [Op.popped?, htail, nextIndex_mod]
    · simpa [Op.popped?, taken] using hwindow

theorem ring_invariant {buffer : ℕ → α} (h : Reachable (RingStep c) (newRing buffer) s) :
    ∃ q, RingInvariant c q s := by
  apply h.invariant (I := fun s => ∃ q, RingInvariant c q s) ⟨[], newRing_invariant c buffer⟩
  rintro s s' ⟨q, hi⟩ _ hs
  cases hs with
  | producer item => exact producer_invariant hi item
  | consumer junk => exact consumer_invariant hi junk

end

/-! ## The refinement -/

/-- What each thread finds at its next access. -/
structure SafeAccess (c : Capacity) (s : Ring α) : Prop where
  /-- A slot is written only where nothing waits to be read. -/
  write : ∀ item head, s.producer = .roomSeen item head → head < c.val ∧ s.unread head = false
  /-- A slot is read only after it was written. -/
  read : ∀ tail, s.consumer = .valueSeen tail → tail < c.val ∧ s.unread tail = true
  /-- `push` is about to return false. -/
  full : ∀ item head, s.producer = .headLoaded item head → nextIndex c head = s.tail →
    outstanding s = c.val - 1
  /-- `pop` is about to return nothing. -/
  empty : ∀ tail, s.consumer = .tailLoaded tail → tail = s.head → outstanding s = 0

variable {c : Capacity} {q : List α} {s : Ring α}

theorem safeAccess (h : RingInvariant c q s) : SafeAccess c s := by
  have hpos : 0 < c.val := by have := c.atLeastTwo; omega
  constructor
  · intro item head hpc
    obtain ⟨rfl, hfree⟩ := free_slot h hpc
    exact ⟨Nat.mod_lt _ hpos, h.window.behind_free hfree⟩
  · intro tail hpc
    have hc := h.consumer
    have hwindow := h.window
    rw [hpc] at hc hwindow
    obtain ⟨rfl, hne⟩ := hc
    obtain ⟨v, q, rfl⟩ := List.exists_cons_of_ne_nil hne
    rw [h.tail]
    exact ⟨Nat.mod_lt _ hpos, hwindow.head_used hpos⟩
  · intro item head hpc hfull
    have hp := h.producer
    rw [hpc] at hp
    obtain rfl : head = s.head := hp
    rw [outstanding_eq h, (full_iff h).mp hfull]
  · intro tail hpc hempty
    have hc := h.consumer
    rw [hpc] at hc
    obtain rfl : tail = s.tail := hc
    rw [outstanding_eq h, (empty_iff h).mp hempty]
    rfl

/-- Whatever the interleaving, the answers are those of a queue with room for one value less than
there are slots, and no slot is written or read out of turn. -/
theorem ring_refines_fifo (c : Capacity) (buffer : ℕ → α) (s : Ring α)
    (h : Reachable (RingStep c) (newRing buffer) s) :
    (∃ q, History (c.val - 1) s.history q) ∧
      popped s.history <+: accepted s.history ∧ outstanding s ≤ c.val - 1 ∧ SafeAccess c s := by
  obtain ⟨q, hi⟩ := ring_invariant h
  refine ⟨⟨q, hi.history⟩, hi.history.popped_prefix, ?_, safeAccess hi⟩
  rw [outstanding_eq hi]
  exact hi.history.length_le

/-- The threads in a given order: the producer with an item, or the consumer with what it leaves. -/
def interleave (c : Capacity) (s : Ring α) (turns : List (α ⊕ α)) : Ring α :=
  turns.foldl (fun s => Sum.elim (producerStep c · s) (consumerStep c · s)) s

theorem interleave_reachable {buffer : ℕ → α} (h : Reachable (RingStep c) (newRing buffer) s)
    (turns : List (α ⊕ α)) : Reachable (RingStep c) (newRing buffer) (interleave c s turns) := by
  induction turns generalizing s with
  | nil => exact h
  | cons turn turns ih =>
    cases turn with
    | inl item => exact ih (.next h trivial (.producer s item))
    | inr junk => exact ih (.next h trivial (.consumer s junk))

/-- With two slots a second push is refused until the first value is out. -/
theorem ring_refines_fifo_two_slots :
    let c : Capacity := ⟨2, le_rfl, by decide⟩
    let s := interleave c (newRing fun _ => 0)
      [.inl 7, .inr 0, .inl 7, .inl 7, .inr 0, .inl 7, .inl 8, .inl 8, .inr 0, .inr 0, .inr 0, .inr 0]
    s.history = [.pop none, .push 7 true, .push 8 false, .pop (some 7)] ∧
      outstanding s ≤ 1 ∧ SafeAccess c s := by
  intro c s
  have hreach : Reachable (RingStep c) (newRing fun _ => 0) s := interleave_reachable .initial _
  obtain ⟨_, _, hfew, hsafe⟩ := ring_refines_fifo c (fun _ => 0) s hreach
  exact ⟨by decide, hfew, hsafe⟩

end SpscRing
