import MatchingEngine.ReleaseAcquire
import MatchingEngine.SpscRing

/-! # The ring buffer under its memory orders

The accesses of `push` and `pop` with the orders that the code gives them: a load may see an old
store to the index of the other thread, and the buffer's slots are plain memory. -/
namespace RingOrdering

open BoundedFifo
open ReleaseAcquire
open SpscRing
open Transitions

inductive Party where
  | producer
  | consumer
  deriving DecidableEq

inductive Index where
  | head
  | tail
  deriving DecidableEq

/-- `history` is read by no step; with each answer it has how many calls of the other thread the
caller had seen the end of. -/
structure Ring (α : Type*) where
  memory : Memory Party Index ℕ ℕ α
  producer : ProducerPc α
  consumer : ConsumerPc α
  history : List (Op α × ℕ)

variable {α : Type*}

def newRing (buffer : ℕ → α) : Ring α where
  memory :=
    { stores := fun _ => [⟨0, fun _ => 0⟩]
      seen := fun _ _ => 0
      clock := fun t u => if t = u then 1 else 0
      data := buffer
      touched := fun _ _ => 0 }
  producer := .idle
  consumer := .idle
  history := []

/-- The producer's next access; `i` is the place of the store that it sees if it is a load. The
load of `head_` is relaxed, the load of `tail_` is an acquire load, the store a release store. -/
def producerStep (c : Capacity) (item : α) (i : ℕ) (s : Ring α) : Option (Ring α) :=
  match s.producer with
  | .idle =>
    (s.memory.visible .producer .head i).map fun msg =>
      { s with
        memory := s.memory.see .producer .head i
        producer := .headLoaded item msg.value }
  | .headLoaded item head =>
    (s.memory.visible .producer .tail i).map fun msg =>
      if nextIndex c head = msg.value then
        { s with
          memory := s.memory.acquire .producer .tail i msg
          producer := .idle
          history := s.history ++ [(.push item false, i)] }
      else
        { s with
          memory := s.memory.acquire .producer .tail i msg
          producer := .roomSeen item head }
  | .roomSeen item head =>
    some { s with
      memory := s.memory.touch .producer head item
      producer := .slotWritten item head }
  | .slotWritten item head =>
    some { s with
      memory := s.memory.release .producer .head (nextIndex c head)
      producer := .idle
      history := s.history ++ [(.push item true, s.memory.seen .producer .tail)] }

/-- The consumer's next access. `junk` is what a move leaves in the slot. -/
def consumerStep (c : Capacity) (junk : α) (i : ℕ) (s : Ring α) : Option (Ring α) :=
  match s.consumer with
  | .idle =>
    (s.memory.visible .consumer .tail i).map fun msg =>
      { s with
        memory := s.memory.see .consumer .tail i
        consumer := .tailLoaded msg.value }
  | .tailLoaded tail =>
    (s.memory.visible .consumer .head i).map fun msg =>
      if tail = msg.value then
        { s with
          memory := s.memory.acquire .consumer .head i msg
          consumer := .idle
          history := s.history ++ [(.pop none, i)] }
      else
        { s with
          memory := s.memory.acquire .consumer .head i msg
          consumer := .valueSeen tail }
  | .valueSeen tail =>
    some { s with
      memory := s.memory.touch .consumer tail junk
      consumer := .slotRead (s.memory.data tail) tail }
  | .slotRead item tail =>
    some { s with
      memory := s.memory.release .consumer .tail (nextIndex c tail)
      consumer := .idle
      history := s.history ++ [(.pop (some item), s.memory.seen .consumer .head)] }

inductive RingStep (c : Capacity) : Ring α → Ring α → Prop
  | producer {s s' : Ring α} (item : α) (i : ℕ) (h : producerStep c item i s = some s') :
      RingStep c s s'
  | consumer {s s' : Ring α} (junk : α) (i : ℕ) (h : consumerStep c junk i s = some s') :
      RingStep c s s'

/-! ## What the calls may answer -/

def pushes (ops : List (Op α × ℕ)) : ℕ := (accepted (ops.map Prod.fst)).length

def pops (ops : List (Op α × ℕ)) : ℕ := (popped (ops.map Prod.fst)).length

@[simp] theorem pushes_concat (ops : List (Op α × ℕ)) (op : Op α × ℕ) :
    pushes (ops ++ [op]) = pushes ops + op.1.accepted?.toList.length := by simp [pushes]

@[simp] theorem pops_concat (ops : List (Op α × ℕ)) (op : Op α × ℕ) :
    pops (ops ++ [op]) = pops ops + op.1.popped?.toList.length := by simp [pops]

/-- A queue whose two sides lag behind each other: a push finds room or not for the pops that it
has seen, a pop finds a value or not among the pushes that it has seen. -/
inductive Lagging (bound : ℕ) : List (Op α × ℕ) → List α → Prop
  | nil : Lagging bound [] []
  | push {ops : List (Op α × ℕ)} {q : List α} {seen : ℕ} (v : α) (h : Lagging bound ops q)
      (hseen : seen ≤ pops ops) (hroom : pushes ops < seen + bound) :
      Lagging bound (ops ++ [(.push v true, seen)]) (q ++ [v])
  | full {ops : List (Op α × ℕ)} {q : List α} {seen : ℕ} (v : α) (h : Lagging bound ops q)
      (hseen : seen ≤ pops ops) (hfull : pushes ops = seen + bound) :
      Lagging bound (ops ++ [(.push v false, seen)]) q
  | pop {ops : List (Op α × ℕ)} {q : List α} {seen : ℕ} {v : α} (h : Lagging bound ops (v :: q))
      (hseen : seen ≤ pushes ops) (hvalue : pops ops < seen) :
      Lagging bound (ops ++ [(.pop (some v), seen)]) q
  | empty {ops : List (Op α × ℕ)} {q : List α} {seen : ℕ} (h : Lagging bound ops q)
      (hseen : seen ≤ pushes ops) (hempty : pops ops = seen) :
      Lagging bound (ops ++ [(.pop none, seen)]) q

variable {bound : ℕ} {ops : List (Op α × ℕ)} {q : List α}

theorem Lagging.account (h : Lagging bound ops q) :
    popped (ops.map Prod.fst) ++ q = accepted (ops.map Prod.fst) := by
  induction h with
  | nil => rfl
  | push v _ _ _ ih => simp [← ih, Op.accepted?, Op.popped?]
  | full v _ _ _ ih => simpa [Op.accepted?, Op.popped?] using ih
  | pop _ _ _ ih => simpa [Op.accepted?, Op.popped?] using ih
  | empty _ _ _ ih => simpa [Op.accepted?, Op.popped?] using ih

theorem Lagging.length (h : Lagging bound ops q) : pushes ops = pops ops + q.length := by
  rw [pushes, ← h.account, List.length_append, pops]

theorem Lagging.length_le (h : Lagging bound ops q) : q.length ≤ bound := by
  induction h with
  | nil => exact Nat.zero_le _
  | push v h hseen hroom _ =>
    have := h.length
    rw [List.length_append, List.length_singleton]
    omega
  | full _ _ _ _ ih => exact ih
  | pop _ _ _ ih => exact Nat.le_of_succ_le ih
  | empty _ _ _ ih => exact ih

/-! ## Stamps of the slots -/

/-- The last access of `t` to a slot was its access to one of the first `bound` places. -/
def Stamped (touched : ℕ → Party → ℕ) (t : Party) (n bound : ℕ) : Prop :=
  ∀ d, touched d t = 0 ∨ ∃ i < bound, d = i % n ∧ touched d t = i + 1

section

variable {m : Memory Party Index ℕ ℕ α} {touched : ℕ → Party → ℕ} {t u : Party} {n bound e d : ℕ}

theorem Stamped.le (h : Stamped touched t n bound) (hd : ∀ i < bound, d = i % n → i < e) :
    touched d t ≤ e := by
  rcases h d with hzero | ⟨i, hi, hslot, htime⟩
  · omega
  · have := hd i hi hslot
    omega

theorem Stamped.touch (h : Stamped m.touched t n bound) (hclock : m.clock t t = bound + 1)
    (w : α) : Stamped (m.touch t (bound % n) w).touched t n (bound + 1) := by
  intro d
  by_cases hd : d = bound % n
  · subst hd
    exact .inr ⟨bound, Nat.lt_succ_self _, rfl, by simp [Memory.touch, hclock]⟩
  · have hsame : (m.touch t (bound % n) w).touched d t = m.touched d t := by
      simp [Memory.touch, hd]
    rw [hsame]
    rcases h d with hzero | ⟨i, hi, hrest⟩
    · exact .inl hzero
    · exact .inr ⟨i, Nat.lt_succ_of_lt hi, hrest⟩

theorem Stamped.touch_other (h : Stamped m.touched u n bound) (hne : u ≠ t) (d : ℕ) (w : α) :
    Stamped (m.touch t d w).touched u n bound := by
  intro d'
  have hsame : (m.touch t d w).touched d' u = m.touched d' u := by
    by_cases hd : d' = d
    · subst hd
      simp [Memory.touch, hne]
    · simp [Memory.touch, hd]
  rw [hsame]
  exact h d'

/-- Of two places with one slot, the earlier is a whole round behind. -/
theorem round_behind {i b : ℕ} (hlt : i < b) (hslot : i % n = b % n) : i + n ≤ b := by
  by_contra hnear
  obtain ⟨d, rfl⟩ := Nat.exists_eq_add_of_lt hlt
  have hsame : (i + 0) % n = (i + (d + 1)) % n := hslot
  have hzero := slot_injective (by omega) (by omega) hsame
  omega

end

/-! ## The invariant -/

/-- `p` pops are finished and `j` of them seen by the producer. -/
def ProducerInvariant (c : Capacity) (n j : ℕ) : ProducerPc α → Prop
  | .idle => True
  | .headLoaded _ head => head = n % c.val
  | .roomSeen _ head => head = n % c.val ∧ n < j + (c.val - 1)
  | .slotWritten _ head => head = n % c.val ∧ n < j + (c.val - 1)

def ConsumerInvariant (c : Capacity) (p k : ℕ) (q : List α) : ConsumerPc α → Prop
  | .idle => True
  | .tailLoaded tail => tail = p % c.val
  | .valueSeen tail => tail = p % c.val ∧ p < k
  | .slotRead item tail => tail = p % c.val ∧ p < k ∧ q.head? = some item

/-- The ring holds `q`; the producer has seen the end of `j` pops, the consumer of `k` pushes. -/
structure RingInvariant (c : Capacity) (q : List α) (j k : ℕ) (s : Ring α) : Prop where
  history : Lagging (c.val - 1) s.history q
  exchange : Exchange s.memory .producer .consumer .head .tail (· % c.val) (· % c.val)
    (pushes s.history) j (pops s.history) k
  room : pushes s.history + (unpublished s.producer).length ≤ j + (c.val - 1)
  values : pops s.history + taken s.consumer ≤ k
  producer : ProducerInvariant c (pushes s.history) j s.producer
  consumer : ConsumerInvariant c (pops s.history) k q s.consumer
  window : ∃ used, Window c.val s.memory.data used (pops s.history + taken s.consumer)
    (q.drop (taken s.consumer) ++ unpublished s.producer)
  written : Stamped s.memory.touched .producer c.val
    (pushes s.history + (unpublished s.producer).length)
  read : Stamped s.memory.touched .consumer c.val (pops s.history + taken s.consumer)

theorem newRing_invariant (c : Capacity) (buffer : ℕ → α) :
    RingInvariant c [] 0 0 (newRing buffer) where
  history := .nil
  exchange :=
    { threads := nofun
      places := nofun
      mine := ⟨rfl, by simp [newRing, Nat.zero_mod, List.getElem?_singleton], rfl, rfl⟩
      theirs := ⟨rfl, by simp [newRing, Nat.zero_mod, List.getElem?_singleton], rfl, rfl⟩
      follows := ⟨rfl, Nat.zero_le _, le_rfl⟩
      followed := ⟨rfl, Nat.zero_le _, le_rfl⟩
      modest := by simp [newRing]
      modestNow := ⟨by simp [newRing], by simp [newRing]⟩ }
  room := Nat.zero_le _
  values := le_rfl
  producer := trivial
  consumer := trivial
  window := ⟨_, window_nil _ _ _⟩
  written _ := .inl rfl
  read _ := .inl rfl

section

variable {c : Capacity} {j k : ℕ} {s s' : Ring α}

theorem ConsumerInvariant.grow {p : ℕ} {pc : ConsumerPc α} (h : ConsumerInvariant c p k q pc)
    {v : α} : ConsumerInvariant c p k (q ++ [v]) pc := by
  cases pc with
  | idle => trivial
  | tailLoaded tail => exact h
  | valueSeen tail => exact h
  | slotRead item tail => exact ⟨h.1, h.2.1, by simp [h.2.2]⟩

/-- How far the two threads can be apart. -/
theorem RingInvariant.bounds (h : RingInvariant c q j k s) :
    j ≤ pops s.history ∧ pops s.history + taken s.consumer ≤ k ∧ k ≤ pushes s.history ∧
      pushes s.history = pops s.history + q.length :=
  ⟨h.exchange.follows.bounded, h.values, h.exchange.followed.bounded, h.history.length⟩

/-- The slots in use are the ones after those read, and they leave the next one free. -/
theorem RingInvariant.behind (h : RingInvariant c q j k s) :
    pops s.history + taken s.consumer + (q.drop (taken s.consumer) ++ unpublished s.producer).length
      = pushes s.history + (unpublished s.producer).length := by
  have := h.bounds
  rw [List.length_append, List.length_drop]
  omega

theorem producer_invariant (h : RingInvariant c q j k s) {item : α} {i : ℕ}
    (hs : producerStep c item i s = some s') : ∃ q' j', RingInvariant c q' j' k s' := by
  have htwo := c.atLeastTwo
  have hbounds := h.bounds
  have hbehind := h.behind
  obtain ⟨hhistory, hexchange, hroom, hvalues, hproducer, hconsumer, ⟨used, hwindow⟩, hwritten,
    hread⟩ := h
  rw [producerStep] at hs
  cases hpc : s.producer with
  | idle =>
    rw [hpc] at hs hroom hwindow hwritten
    obtain ⟨msg, hsees, rfl⟩ := Option.map_eq_some_iff.mp hs
    exact ⟨q, j, hhistory, hexchange.see_own hsees, hroom, hvalues,
      hexchange.mine.visible_own hsees, hconsumer, ⟨used, hwindow⟩, hwritten, hread⟩
  | headLoaded v head =>
    rw [hpc] at hs hroom hproducer hwindow hwritten
    obtain ⟨msg, hsees, hs⟩ := Option.map_eq_some_iff.mp hs
    obtain ⟨hvalue, _, hnew, hlast⟩ := hexchange.theirs.visible_other hexchange.follows hsees
    have hnext := hexchange.acquire hsees
    obtain rfl : head = pushes s.history % c.val := hproducer
    simp only [unpublished, List.length_nil, Nat.add_zero] at hroom
    rw [nextIndex_mod, hvalue] at hs
    split at hs
    · rename_i hfull
      have hround := round_behind (by omega) hfull.symm
      subst hs
      refine ⟨q, i, .full v hhistory hlast (by omega), ?_, ?_, ?_, trivial, ?_, ⟨used, ?_⟩, ?_, ?_⟩
      · simpa [Op.accepted?, Op.popped?] using hnext
      · simp [Op.accepted?, unpublished]
        omega
      · simpa [Op.popped?] using hvalues
      · simpa [Op.popped?] using hconsumer
      · simpa [Op.popped?, unpublished] using hwindow
      · simpa [Op.accepted?, unpublished] using hwritten
      · simpa [Op.popped?] using hread
    · rename_i hfree
      have hlt : pushes s.history < i + (c.val - 1) := by
        by_contra hge
        have hround : pushes s.history + 1 = i + c.val := by omega
        rw [hround, Nat.add_mod_right] at hfree
        exact hfree rfl
      subst hs
      exact ⟨q, i, hhistory, hnext, hlt.le, hvalues, ⟨rfl, hlt⟩, hconsumer, ⟨used, hwindow⟩,
        hwritten, hread⟩
  | roomSeen v head =>
    rw [hpc] at hs hroom hproducer hwindow hwritten hbehind
    obtain ⟨rfl, hlt⟩ := hproducer
    cases hs
    simp only [unpublished, List.append_nil, List.length_nil, Nat.add_zero] at *
    have hfilled := hwindow.append (by omega) v
    rw [hbehind] at hfilled
    exact ⟨q, j, hhistory, hexchange.touch _ _ _, hlt, hvalues, ⟨rfl, hlt⟩, hconsumer,
      ⟨_, hfilled⟩, hwritten.touch hexchange.mine.own v, hread.touch_other (by decide) _ _⟩
  | slotWritten v head =>
    rw [hpc] at hs hproducer hwindow hwritten
    obtain ⟨rfl, hlt⟩ := hproducer
    have htaken : taken s.consumer ≤ q.length := by omega
    cases hs
    rw [hexchange.follows.seen, nextIndex_mod]
    refine ⟨q ++ [v], j, .push v hhistory hbounds.1 hlt, ?_, ?_, ?_, trivial, ?_, ⟨used, ?_⟩, ?_, ?_⟩
    · simpa [Op.accepted?, Op.popped?] using hexchange.release
    · simpa [Op.accepted?, unpublished] using Nat.succ_le_of_lt hlt
    · simpa [Op.popped?] using hvalues
    · simpa [Op.popped?] using hconsumer.grow
    · rw [List.drop_append_of_le_length htaken]
      simpa [Op.popped?, unpublished] using hwindow
    · simpa [Op.accepted?, unpublished] using hwritten
    · simpa [Op.popped?] using hread

theorem consumer_invariant (h : RingInvariant c q j k s) {junk : α} {i : ℕ}
    (hs : consumerStep c junk i s = some s') : ∃ q' k', RingInvariant c q' j k' s' := by
  have htwo := c.atLeastTwo
  have hbounds := h.bounds
  have hbehind := h.behind
  obtain ⟨hhistory, hexchange, hroom, hvalues, hproducer, hconsumer, ⟨used, hwindow⟩, hwritten,
    hread⟩ := h
  rw [consumerStep] at hs
  cases hpc : s.consumer with
  | idle =>
    rw [hpc] at hs hvalues hwindow hread
    obtain ⟨msg, hsees, rfl⟩ := Option.map_eq_some_iff.mp hs
    exact ⟨q, k, hhistory, (hexchange.swap.see_own hsees).swap, hroom, hvalues, hproducer,
      hexchange.theirs.visible_own hsees, ⟨used, hwindow⟩, hwritten, hread⟩
  | tailLoaded tail =>
    rw [hpc] at hs hvalues hconsumer hwindow hread
    obtain ⟨msg, hsees, hs⟩ := Option.map_eq_some_iff.mp hs
    obtain ⟨hvalue, _, hnew, hlast⟩ := hexchange.mine.visible_other hexchange.followed hsees
    have hnext := (hexchange.swap.acquire hsees).swap
    obtain rfl : tail = pops s.history % c.val := hconsumer
    simp only [taken, Nat.add_zero] at hvalues
    rw [hvalue] at hs
    split at hs
    · rename_i hempty
      have hsame : pops s.history = i := by
        by_contra hne
        have hround := round_behind (by omega) hempty
        omega
      subst hs
      refine ⟨q, i, .empty hhistory hlast hsame, ?_, ?_, ?_, ?_, trivial, ⟨used, ?_⟩, ?_, ?_⟩
      · simpa [Op.accepted?, Op.popped?] using hnext
      · simpa [Op.accepted?] using hroom
      · simpa [Op.popped?, taken] using hsame.le
      · simpa [Op.accepted?] using hproducer
      · simpa [Op.popped?, taken] using hwindow
      · simpa [Op.accepted?] using hwritten
      · simpa [Op.popped?, taken] using hread
    · rename_i hsome
      have hlt : pops s.history < i := by
        by_contra hge
        have hsame : pops s.history = i := by omega
        exact hsome (hsame ▸ rfl)
      subst hs
      exact ⟨q, i, hhistory, hnext, hroom, hlt.le, hproducer, ⟨rfl, hlt⟩, ⟨used, hwindow⟩,
        hwritten, hread⟩
  | valueSeen tail =>
    rw [hpc] at hs hvalues hconsumer hwindow hread hbehind
    obtain ⟨rfl, hlt⟩ := hconsumer
    cases hs
    cases q with
    | nil =>
      simp only [List.length_nil] at hbounds
      omega
    | cons v q =>
      simp only [taken, List.drop_zero, Nat.add_zero, List.cons_append, List.length_cons] at *
      have hvalue := hwindow.head
      have hemptied := hwindow.tail (by omega) junk
      exact ⟨v :: q, k, hhistory, hexchange.touch _ _ _, hroom, hlt, hproducer,
        ⟨rfl, hlt, by rw [hvalue]; rfl⟩, ⟨_, hemptied⟩, hwritten.touch_other (by decide) _ _,
        hread.touch hexchange.theirs.own junk⟩
  | slotRead item tail =>
    rw [hpc] at hs hvalues hconsumer hwindow hread
    obtain ⟨rfl, hlt, hfirst⟩ := hconsumer
    obtain ⟨q, rfl⟩ : ∃ q', q = item :: q' := List.head?_eq_some_iff.mp hfirst
    cases hs
    rw [hexchange.followed.seen, nextIndex_mod]
    refine ⟨q, k, .pop hhistory hbounds.2.2.1 hlt, ?_, ?_, ?_, ?_, trivial, ⟨used, ?_⟩, ?_, ?_⟩
    · simpa [Op.accepted?, Op.popped?] using hexchange.swap.release.swap
    · simpa [Op.accepted?] using hroom
    · simpa [Op.popped?, taken] using Nat.succ_le_of_lt hlt
    · simpa [Op.accepted?] using hproducer
    · simpa [Op.popped?, taken] using hwindow
    · simpa [Op.accepted?] using hwritten
    · simpa [Op.popped?, taken] using hread

theorem ring_invariant {buffer : ℕ → α} (h : Reachable (RingStep c) (newRing buffer) s) :
    ∃ q j k, RingInvariant c q j k s := by
  apply h.invariant (I := fun s => ∃ q j k, RingInvariant c q j k s)
    ⟨[], 0, 0, newRing_invariant c buffer⟩
  rintro s s' ⟨q, j, k, hi⟩ _ hs
  cases hs with
  | producer item i hs =>
    obtain ⟨q', j', hi'⟩ := producer_invariant hi hs
    exact ⟨q', j', k, hi'⟩
  | consumer junk i hs =>
    obtain ⟨q', k', hi'⟩ := consumer_invariant hi hs
    exact ⟨q', j, k', hi'⟩

end

/-! ## What the orders are for -/

/-- A slot is accessed in its bounds, and after what the other thread did to it. -/
structure OrderedAccess (c : Capacity) (s : Ring α) : Prop where
  write : ∀ item head, s.producer = .roomSeen item head →
    head < c.val ∧ ¬ s.memory.Race .producer head
  read : ∀ tail, s.consumer = .valueSeen tail → tail < c.val ∧ ¬ s.memory.Race .consumer tail

theorem two_parties (t u : Party) (hne : t ≠ u) (v : Party) : v = t ∨ v = u := by
  cases t <;> cases u <;> cases v <;> simp_all

theorem RingInvariant.orderedAccess {c : Capacity} {j k : ℕ} {s : Ring α}
    (h : RingInvariant c q j k s) : OrderedAccess c s := by
  have htwo := c.atLeastTwo
  have hbounds := h.bounds
  constructor
  · intro item head hpc
    have hproducer := h.producer
    rw [hpc] at hproducer
    obtain ⟨rfl, hlt⟩ := hproducer
    refine ⟨Nat.mod_lt _ (by omega), h.exchange.not_race (two_parties _ _ h.exchange.threads) ?_⟩
    -- the pop that used this slot last is a round behind, and so among those seen
    refine h.read.le fun i hi hslot => ?_
    have hround := round_behind (by omega) hslot.symm
    omega
  · intro tail hpc
    have hconsumer := h.consumer
    have hroom := h.room
    rw [hpc] at hconsumer
    obtain ⟨rfl, hlt⟩ := hconsumer
    refine ⟨Nat.mod_lt _ (by omega),
      h.exchange.swap.not_race (two_parties _ _ h.exchange.swap.threads) ?_⟩
    refine h.written.le fun i hi hslot => ?_
    by_contra hlate
    have hround := round_behind (by omega) hslot
    omega

/-- However old the stores are that the loads see, values come out as they went in, a refusal and
an empty answer are right about what the caller had seen, and no access to a slot races. -/
theorem ring_ordered (c : Capacity) (buffer : ℕ → α) (s : Ring α)
    (h : Reachable (RingStep c) (newRing buffer) s) :
    (∃ q, Lagging (c.val - 1) s.history q ∧ q.length ≤ c.val - 1 ∧
      popped (s.history.map Prod.fst) ++ q = accepted (s.history.map Prod.fst)) ∧
      OrderedAccess c s := by
  obtain ⟨q, j, k, hi⟩ := ring_invariant h
  exact ⟨⟨q, hi.history, hi.history.length_le, hi.history.account⟩, hi.orderedAccess⟩

/-- The accesses in a given order, each with its item and the place that it sees if it loads. -/
def interleave (c : Capacity) (s : Ring α) (turns : List ((α × ℕ) ⊕ (α × ℕ))) : Option (Ring α) :=
  turns.foldlM (fun s turn => turn.elim (fun x => producerStep c x.1 x.2 s)
    fun x => consumerStep c x.1 x.2 s) s

theorem interleave_reachable {c : Capacity} {buffer : ℕ → α} {s s' : Ring α}
    {turns : List ((α × ℕ) ⊕ (α × ℕ))} (h : Reachable (RingStep c) (newRing buffer) s)
    (hs : interleave c s turns = some s') : Reachable (RingStep c) (newRing buffer) s' := by
  induction turns generalizing s with
  | nil =>
    cases hs
    exact h
  | cons turn turns ih =>
    rw [interleave, List.foldlM_cons] at hs
    obtain ⟨s₁, hfirst, hrest⟩ := Option.bind_eq_some_iff.mp hs
    refine ih (.next h trivial ?_) hrest
    cases turn with
    | inl x => exact .producer x.1 x.2 hfirst
    | inr x => exact .consumer x.1 x.2 hfirst

/-- The ring of two slots is empty again, and a push that sees the old `tail_` is refused. -/
theorem ring_ordered_stale :
    let c : Capacity := ⟨2, le_rfl, by decide⟩
    ∃ s, interleave c (newRing fun _ => 0) [.inl (7, 0), .inl (7, 0), .inl (7, 0), .inl (7, 0),
      .inr (0, 0), .inr (0, 1), .inr (0, 0), .inr (0, 0), .inl (8, 1), .inl (8, 0)] = some s ∧
      s.history = [(.push 7 true, 0), (.pop (some 7), 1), (.push 8 false, 0)] ∧
      OrderedAccess c s := by
  intro c
  have hrun : (interleave c (newRing fun _ => 0) [.inl (7, 0), .inl (7, 0), .inl (7, 0),
      .inl (7, 0), .inr (0, 0), .inr (0, 1), .inr (0, 0), .inr (0, 0), .inl (8, 1),
      .inl (8, 0)]).map Ring.history =
        some [(.push 7 true, 0), (.pop (some 7), 1), (.push 8 false, 0)] := by decide
  obtain ⟨s, hs, hhistory⟩ := Option.map_eq_some_iff.mp hrun
  exact ⟨s, hs, hhistory, (ring_ordered c _ s (interleave_reachable .initial hs)).2⟩

end RingOrdering
