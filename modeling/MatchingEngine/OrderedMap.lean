import Mathlib.Data.List.Sort
import Mathlib.Data.List.Flatten

/-! # Ordered maps by comparator, and maps of FIFO queues

An association list kept strictly sorted by a comparator `r`, as an ordered tree map is
seen from outside. A map of queues is read off as one list: keys in order, and each
queue from its front. -/
namespace OrderedMap

variable {κ β α : Type*} {r : κ → κ → Prop}

structure OMap (κ β : Type*) (r : κ → κ → Prop) where
  entries : List (κ × β)
  sorted : entries.Pairwise fun a b => r a.1 b.1

theorem OMap.ext {m n : OMap κ β r} (h : m.entries = n.entries) : m = n := by
  cases m
  cases n
  cases h
  rfl

def OMap.empty : OMap κ β r := ⟨[], .nil⟩

/-- The entry at `begin()`. -/
def OMap.begin? (m : OMap κ β r) : Option (κ × β) := m.entries.head?

def setEntry [DecidableEq κ] [DecidableRel r] (k : κ) (v : β) : List (κ × β) → List (κ × β)
  | [] => [(k, v)]
  | e :: es =>
    if r e.1 k then e :: setEntry k v es
    else if e.1 = k then (k, v) :: es
    else (k, v) :: e :: es

/-- The entries of a sorted list before and after a key, and what stands at the key. -/
structure Around (r : κ → κ → Prop) (es : List (κ × β)) (k : κ) (here : Option β)
    (before after : List (κ × β)) : Prop where
  lower : ∀ e ∈ before, r e.1 k
  upper : ∀ e ∈ after, r k e.1
  split : es = before ++ (here.toList.map fun v => (k, v)) ++ after

section StrictTotal

variable [IsStrictTotalOrder κ r]

theorem exists_around (k : κ) {es : List (κ × β)} (hs : es.Pairwise fun a b => r a.1 b.1) :
    ∃ here before after, Around r es k here before after := by
  induction es with
  | nil => exact ⟨none, [], [], by simp, by simp, rfl⟩
  | cons e es ih =>
    obtain ⟨hhead, htail⟩ := List.pairwise_cons.mp hs
    rcases trichotomous_of r e.1 k with hlt | heq | hgt
    · obtain ⟨here, before, after, hl, hu, rfl⟩ := ih htail
      exact ⟨here, e :: before, after, by simpa using ⟨hlt, fun a b => hl (a, b)⟩, hu, rfl⟩
    · subst heq
      exact ⟨some e.2, [], es, by simp, hhead, rfl⟩
    · refine ⟨none, [], e :: es, by simp, ?_, rfl⟩
      intro x hx
      rcases List.mem_cons.mp hx with rfl | hx
      · exact hgt
      · exact IsTrans.trans _ _ _ hgt (hhead x hx)

namespace Around

variable {es before after : List (κ × β)} {k : κ} {here : Option β}

theorem lower_ne (h : Around r es k here before after) : ∀ e ∈ before, e.1 ≠ k :=
  fun e he hk => irrefl_of r k (hk ▸ h.lower e he)

theorem upper_ne (h : Around r es k here before after) : ∀ e ∈ after, e.1 ≠ k :=
  fun e he hk => irrefl_of r k (hk ▸ h.upper e he)

omit [IsStrictTotalOrder κ r] in
theorem sorted_with (h : Around r es k here before after)
    (hs : es.Pairwise fun a b => r a.1 b.1) (v : β) :
    (before ++ (k, v) :: after).Pairwise fun a b => r a.1 b.1 := by
  rw [h.split, List.append_assoc, List.pairwise_append] at hs
  obtain ⟨hb, ha, hba⟩ := hs
  rw [List.pairwise_append, List.pairwise_cons]
  refine ⟨hb, ⟨h.upper, (List.pairwise_append.mp ha).2.1⟩, ?_⟩
  intro a hma b hmb
  rcases List.mem_cons.mp hmb with rfl | hmb
  · exact h.lower a hma
  · exact hba a hma b (List.mem_append_right _ hmb)

variable [DecidableEq κ]

theorem find_here (h : Around r es k here before after) :
    (es.find? fun e => e.1 = k).map Prod.snd = here := by
  have hb : before.find? (fun e => e.1 = k) = none := by
    simpa using fun a b => h.lower_ne (a, b)
  have ha : after.find? (fun e => e.1 = k) = none := by
    simpa using fun a b => h.upper_ne (a, b)
  cases here <;> simp [h.split, List.find?_append, hb, ha]

theorem filter_ne (h : Around r es k here before after) :
    es.filter (fun e => e.1 ≠ k) = before ++ after := by
  have hb : before.filter (fun e => e.1 ≠ k) = before :=
    List.filter_eq_self.mpr fun e he => by simpa using h.lower_ne e he
  have ha : after.filter (fun e => e.1 ≠ k) = after :=
    List.filter_eq_self.mpr fun e he => by simpa using h.upper_ne e he
  cases here <;> simp only [h.split, List.filter_append, hb, ha] <;> simp

theorem setEntry_eq [DecidableRel r] (h : Around r es k here before after) (v : β) :
    setEntry (r := r) k v es = before ++ (k, v) :: after := by
  obtain ⟨hl, hu, rfl⟩ := h
  induction before with
  | nil =>
    cases here with
    | some w => simp [setEntry, irrefl_of r k]
    | none =>
      cases after with
      | nil => rfl
      | cons e es =>
        have hr : r k e.1 := hu e (by simp)
        have hne : e.1 ≠ k := fun hk => irrefl_of r k (hk ▸ hr)
        have hn : ¬ r e.1 k := fun hk => irrefl_of r k (IsTrans.trans _ _ _ hr hk)
        simp [setEntry, hne, hn]
  | cons e before ih =>
    have hr : r e.1 k := hl e (by simp)
    simp only [List.cons_append, setEntry, if_pos hr]
    rw [ih fun x hx => hl x (by simp [hx])]

end Around

theorem setEntry_sorted [DecidableEq κ] [DecidableRel r] (k : κ) (v : β) {es : List (κ × β)}
    (hs : es.Pairwise fun a b => r a.1 b.1) :
    (setEntry (r := r) k v es).Pairwise fun a b => r a.1 b.1 := by
  obtain ⟨_, _, _, h⟩ := exists_around k hs
  rw [h.setEntry_eq]
  exact h.sorted_with hs v

end StrictTotal

namespace OMap

variable [DecidableEq κ]

def find (m : OMap κ β r) (k : κ) : Option β := (m.entries.find? fun e => e.1 = k).map Prod.snd

def erase (m : OMap κ β r) (k : κ) : OMap κ β r :=
  ⟨m.entries.filter fun e => e.1 ≠ k, m.sorted.filter _⟩

/-- Insert or assign. -/
def set [DecidableRel r] [IsStrictTotalOrder κ r] (m : OMap κ β r) (k : κ) (v : β) :
    OMap κ β r :=
  ⟨setEntry (r := r) k v m.entries, setEntry_sorted k v m.sorted⟩

variable [IsStrictTotalOrder κ r]

theorem around (m : OMap κ β r) (k : κ) :
    ∃ before after, Around r m.entries k (m.find k) before after := by
  obtain ⟨here, before, after, h⟩ := exists_around k m.sorted
  have hf : m.find k = here := h.find_here
  exact ⟨before, after, hf ▸ h⟩

theorem find_eq_some_iff {m : OMap κ β r} {k : κ} {v : β} :
    m.find k = some v ↔ (k, v) ∈ m.entries := by
  obtain ⟨before, after, h⟩ := m.around k
  have hb : (k, v) ∉ before := fun hm => h.lower_ne _ hm rfl
  have ha : (k, v) ∉ after := fun hm => h.upper_ne _ hm rfl
  rw [h.split]
  cases hf : m.find k <;> simp [hb, ha, eq_comm]

theorem find_head {m : OMap κ β r} {k : κ} {v : β} {rest : List (κ × β)}
    (h : m.entries = (k, v) :: rest) : m.find k = some v := by
  rw [find_eq_some_iff, h]
  simp

theorem around_set [DecidableRel r] (m : OMap κ β r) (k : κ) (v : β) :
    ∃ before after, Around r m.entries k (m.find k) before after ∧
      Around r (m.set k v).entries k (some v) before after := by
  obtain ⟨before, after, h⟩ := m.around k
  exact ⟨before, after, h, h.lower, h.upper, by simpa [set] using h.setEntry_eq v⟩

theorem find_set [DecidableRel r] (m : OMap κ β r) (k : κ) (v : β) :
    (m.set k v).find k = some v := by
  obtain ⟨_, _, _, h⟩ := m.around_set k v
  exact h.find_here

theorem erase_set [DecidableRel r] (m : OMap κ β r) (k : κ) (v : β) :
    (m.set k v).erase k = m.erase k := by
  obtain ⟨_, _, h, hset⟩ := m.around_set k v
  exact ext (hset.filter_ne.trans h.filter_ne.symm)

end OMap

/-! ## Maps of queues -/

def flatten (es : List (κ × List α)) : List (κ × α) := es.flatMap fun e => e.2.map fun x => (e.1, x)

@[simp] theorem flatten_nil : flatten ([] : List (κ × List α)) = [] := rfl

@[simp] theorem flatten_cons (e : κ × List α) (es) :
    flatten (e :: es) = (e.2.map fun x => (e.1, x)) ++ flatten es := rfl

@[simp] theorem flatten_append (es fs : List (κ × List α)) :
    flatten (es ++ fs) = flatten es ++ flatten fs := List.flatMap_append

theorem flatten_map_keys {κ' : Type*} (f : κ → κ') (es : List (κ × List α)) :
    flatten (es.map (Prod.map f id)) = (flatten es).map (Prod.map f id) := by
  induction es with
  | nil => rfl
  | cons e es ih => simp [ih, Function.comp_def]

theorem mem_flatten {es : List (κ × List α)} {a : κ × α} :
    a ∈ flatten es ↔ ∃ l, (a.1, l) ∈ es ∧ a.2 ∈ l := by
  obtain ⟨k, x⟩ := a
  simp only [flatten, List.mem_flatMap, List.mem_map, Prod.mk.injEq, Prod.exists]
  constructor
  · rintro ⟨_, l, hl, _, hx, rfl, rfl⟩
    exact ⟨l, hl, hx⟩
  · rintro ⟨l, hl, hx⟩
    exact ⟨k, l, hl, x, hx, rfl, rfl⟩

/-- Queue order of a flattened map: by key, and within a key by place in the queue. -/
theorem flatten_pairwise {es : List (κ × List α)} (hs : es.Pairwise fun a b => r a.1 b.1) :
    (flatten es).Pairwise fun a b => a.1 = b.1 ∨ r a.1 b.1 := by
  induction es with
  | nil => exact .nil
  | cons e es ih =>
    obtain ⟨hhead, htail⟩ := List.pairwise_cons.mp hs
    rw [flatten_cons, List.pairwise_append]
    refine ⟨?_, ih htail, ?_⟩
    · rw [List.pairwise_map]
      exact List.pairwise_of_forall fun _ _ => Or.inl rfl
    · intro a ha b hb
      obtain ⟨x, _, rfl⟩ := List.mem_map.mp ha
      obtain ⟨l, hl, _⟩ := mem_flatten.mp hb
      exact Or.inr (hhead _ hl)

/-- A map of queues is read back from its flat list: no key twice, no queue empty. -/
theorem flatten_injective [DecidableEq κ] {es fs : List (κ × List α)} (he : (es.map Prod.fst).Nodup)
    (hf : (fs.map Prod.fst).Nodup) (hne : ∀ e ∈ es, e.2 ≠ []) (hnf : ∀ e ∈ fs, e.2 ≠ [])
    (h : flatten es = flatten fs) : es = fs := by
  induction es generalizing fs with
  | nil =>
    cases fs with
    | nil => rfl
    | cons e fs =>
      simp only [flatten_nil, flatten_cons, List.nil_eq, List.append_eq_nil_iff, List.map_eq_nil_iff]
        at h
      exact absurd h.1 (hnf e List.mem_cons_self)
  | cons e es ih =>
    obtain ⟨k, q⟩ := e
    cases fs with
    | nil =>
      simp only [flatten_nil, flatten_cons, List.append_eq_nil_iff, List.map_eq_nil_iff] at h
      exact absurd h.1 (hne (k, q) List.mem_cons_self)
    | cons e' fs =>
      obtain ⟨k', q'⟩ := e'
      rw [List.map_cons, List.nodup_cons] at he hf
      have hq := hne (k, q) List.mem_cons_self
      have hq' := hnf (k', q') List.mem_cons_self
      obtain ⟨x, xs, rfl⟩ := List.exists_cons_of_ne_nil hq
      obtain ⟨y, ys, rfl⟩ := List.exists_cons_of_ne_nil hq'
      simp only [flatten_cons, List.map_cons, List.cons_append, List.cons.injEq, Prod.mk.injEq] at h
      obtain ⟨⟨rfl, rfl⟩, h⟩ := h
      -- The first queue ends where the key changes.
      have other : ∀ {gs : List (κ × List α)}, k ∉ gs.map Prod.fst →
          ∀ a ∈ flatten gs, a.1 ≠ k := by
        intro gs hk a ha hak
        obtain ⟨l, hl, _⟩ := mem_flatten.mp ha
        exact hk (List.mem_map.mpr ⟨_, hl, hak⟩)
      have ofKey : ∀ (zs : List α) {rest : List (κ × α)}, (∀ a ∈ rest, a.1 ≠ k) →
          ((zs.map fun z => (k, z)) ++ rest).filter (fun a => a.1 = k) = zs.map fun z => (k, z) := by
        intro zs rest hrest
        rw [List.filter_append, List.filter_eq_self.mpr, List.filter_eq_nil_iff.mpr,
          List.append_nil]
        · simpa using fun a b => hrest (a, b)
        · simp
      have hfirst := ofKey xs (other he.1)
      rw [h, ofKey ys (other hf.1)] at hfirst
      have hqueue : ys = xs := List.map_injective_iff.mpr (Prod.mk_right_injective k) hfirst
      subst hqueue
      rw [ih he.2 hf.2 (fun e hm => hne e (List.mem_cons_of_mem _ hm))
        (fun e hm => hnf e (List.mem_cons_of_mem _ hm)) (List.append_cancel_left h)]

theorem orderedInsert_after {s : α → α → Prop} [DecidableRel s] {x : α} {xs ys : List α}
    (h : ∀ y ∈ xs, ¬ s x y) : (xs ++ ys).orderedInsert s x = xs ++ ys.orderedInsert s x := by
  induction xs with
  | nil => rfl
  | cons y xs ih =>
    have hy : ¬ s x y := h y (by simp)
    simp only [List.cons_append, List.orderedInsert_cons, if_neg hy]
    rw [ih fun z hz => h z (by simp [hz])]

theorem orderedInsert_front {s : α → α → Prop} [DecidableRel s] {x : α} {ys : List α}
    (h : ∀ y ∈ ys, s x y) : ys.orderedInsert s x = x :: ys := by
  cases ys with
  | nil => rfl
  | cons y ys => simp [h y (by simp)]

/-- Insertion keeps a relation that holds between the new element and its two sides. -/
theorem pairwise_orderedInsert {s R : α → α → Prop} [DecidableRel s] {x : α} {l : List α}
    (hl : l.Pairwise R) (hafter : ∀ y ∈ l, s x y → R x y) (hbefore : ∀ y ∈ l, ¬ s x y → R y x)
    (htail : ∀ y ∈ l, ∀ z ∈ l, R y z → s x y → s x z) : (l.orderedInsert s x).Pairwise R := by
  induction l with
  | nil => simp
  | cons y l ih =>
    obtain ⟨hhead, hrest⟩ := List.pairwise_cons.mp hl
    rw [List.orderedInsert_cons]
    by_cases hxy : s x y
    · rw [if_pos hxy, List.pairwise_cons]
      refine ⟨?_, hl⟩
      intro z hz
      apply hafter z hz
      rcases List.mem_cons.mp hz with rfl | hm
      · exact hxy
      · exact htail y (by simp) z hz (hhead z hm) hxy
    · rw [if_neg hxy, List.pairwise_cons]
      constructor
      · intro z hz
        rw [List.mem_orderedInsert] at hz
        rcases hz with rfl | hm
        · exact hbefore y (by simp) hxy
        · exact hhead z hm
      · apply ih hrest
        · exact fun z hz => hafter z (by simp [hz])
        · exact fun z hz => hbefore z (by simp [hz])
        · exact fun z hz w hw => htail z (by simp [hz]) w (by simp [hw])

/-- What was inserted is dropped again. -/
theorem filter_orderedInsert_self {s : α → α → Prop} [DecidableRel s] {x : α} {keep : α → Bool}
    (hx : keep x = false) (l : List α) : (l.orderedInsert s x).filter keep = l.filter keep := by
  rw [List.orderedInsert_eq_take_drop, List.filter_append, List.filter_cons_of_neg (by simp [hx]),
    ← List.filter_append, List.takeWhile_append_dropWhile]

/-- Insertion among elements that are kept: what is dropped does not matter to its place. -/
theorem filter_orderedInsert {s : α → α → Prop} [DecidableRel s] {x : α} {l : List α}
    {keep : α → Bool} (hx : keep x = true) (hl : l.Pairwise fun y z => s x y → s x z) :
    (l.orderedInsert s x).filter keep = (l.filter keep).orderedInsert s x := by
  induction l with
  | nil => simp [hx]
  | cons y l ih =>
    obtain ⟨hhead, htail⟩ := List.pairwise_cons.mp hl
    rw [List.orderedInsert_cons]
    by_cases hxy : s x y
    · have hall : ∀ z ∈ (y :: l).filter keep, s x z := by
        intro z hz
        rcases List.mem_cons.mp (List.mem_of_mem_filter hz) with rfl | hz
        · exact hxy
        · exact hhead z hz hxy
      rw [if_pos hxy, orderedInsert_front hall, List.filter_cons_of_pos hx]
    · rw [if_neg hxy, List.filter_cons, List.filter_cons, ih htail]
      split
      · rw [List.orderedInsert_cons, if_neg hxy]
      · rfl

namespace OMap

def flat (m : OMap κ (List α) r) : List (κ × α) := flatten m.entries

/-- No key holds an empty queue. -/
def NoEmpty (m : OMap κ (List α) r) : Prop := ∀ e ∈ m.entries, e.2 ≠ []

theorem flat_pairwise (m : OMap κ (List α) r) :
    m.flat.Pairwise fun a b => a.1 = b.1 ∨ r a.1 b.1 := flatten_pairwise m.sorted

variable [DecidableEq κ] [IsStrictTotalOrder κ r]

theorem mem_flat {m : OMap κ (List α) r} {k : κ} {x : α} :
    (k, x) ∈ m.flat ↔ ∃ l, m.find k = some l ∧ x ∈ l := by
  simp only [flat, mem_flatten, find_eq_some_iff]

/-- The queue at a key is the part of the flat list with that key. -/
theorem queue_eq_filter (m : OMap κ (List α) r) (k : κ) :
    (m.find k).getD [] = (m.flat.filter fun a => a.1 = k).map Prod.snd := by
  obtain ⟨before, after, h⟩ := m.around k
  have none_of : ∀ {es : List (κ × List α)}, (∀ e ∈ es, e.1 ≠ k) →
      (flatten es).filter (fun a => a.1 = k) = [] := by
    intro es hes
    rw [List.filter_eq_nil_iff]
    intro a ha
    obtain ⟨l, hl, _⟩ := mem_flatten.mp ha
    simpa using hes _ hl
  have hb := none_of h.lower_ne
  have ha := none_of h.upper_ne
  rw [flat]
  rw [h.split]
  cases m.find k with
  | none => simp [hb, ha]
  | some l =>
    have hl : (l.map fun x => (k, x)).filter (fun a => a.1 = k) = l.map fun x => (k, x) :=
      List.filter_eq_self.mpr fun a hm => by
        obtain ⟨x, _, rfl⟩ := List.mem_map.mp hm
        simp
    simp [hb, ha, hl, Function.comp_def]

omit [IsStrictTotalOrder κ r] in
theorem noEmpty_erase {m : OMap κ (List α) r} (h : m.NoEmpty) (k : κ) : (m.erase k).NoEmpty :=
  fun e he => h e (List.mem_of_mem_filter he)

variable [DecidableRel r]

theorem noEmpty_set {m : OMap κ (List α) r} (h : m.NoEmpty) (k : κ) {l : List α} (hl : l ≠ []) :
    (m.set k l).NoEmpty := by
  obtain ⟨before, after, ha⟩ := m.around k
  have hset : (m.set k l).entries = before ++ (k, l) :: after := ha.setEntry_eq l
  intro e he
  rw [hset] at he
  rcases List.mem_append.mp he with hm | hm
  · exact h e (by rw [ha.split]; simp [hm])
  · rcases List.mem_cons.mp hm with rfl | hm
    · exact hl
    · exact h e (by rw [ha.split]; simp [hm])

/-- Append at the tail of a key's queue; the key's queue is made if there is none. -/
def push (m : OMap κ (List α) r) (k : κ) (x : α) : OMap κ (List α) r :=
  m.set k ((m.find k).getD [] ++ [x])

theorem noEmpty_push {m : OMap κ (List α) r} (h : m.NoEmpty) (k : κ) (x : α) :
    (m.push k x).NoEmpty := noEmpty_set h k (by simp)

/-- A pushed element stands behind its key's queue and before every later key. -/
theorem flat_push (m : OMap κ (List α) r) (k : κ) (x : α) :
    (m.push k x).flat = m.flat.orderedInsert (fun a b => r a.1 b.1) (k, x) := by
  obtain ⟨before, after, h⟩ := m.around k
  have hset : (m.push k x).entries = before ++ (k, (m.find k).getD [] ++ [x]) :: after :=
    h.setEntry_eq _
  have hfront : (flatten after).orderedInsert (fun a b => r a.1 b.1) (k, x) =
      (k, x) :: flatten after := orderedInsert_front fun a ha => by
    obtain ⟨l, hl, _⟩ := mem_flatten.mp ha
    exact h.upper _ hl
  have hskip : ∀ a ∈ flatten before ++ ((m.find k).getD []).map (fun y => (k, y)), ¬ r k a.1 := by
    intro a ha
    rcases List.mem_append.mp ha with ha | ha
    · obtain ⟨l, hl, _⟩ := mem_flatten.mp ha
      exact fun hr => irrefl_of r k (IsTrans.trans _ _ _ hr (h.lower _ hl))
    · obtain ⟨y, _, rfl⟩ := List.mem_map.mp ha
      exact irrefl_of r k
  have hflat : m.flat =
      (flatten before ++ ((m.find k).getD []).map (fun y => (k, y))) ++ flatten after := by
    rw [flat]
    rw [h.split]
    cases m.find k <;> simp
  rw [hflat, orderedInsert_after hskip, hfront, flat, hset]
  simp

/-- Store a key's changed queue; the key goes when its queue is empty. -/
def store (m : OMap κ (List α) r) (k : κ) (l : List α) : OMap κ (List α) r :=
  if l.isEmpty then (m.set k l).erase k else m.set k l

theorem noEmpty_store {m : OMap κ (List α) r} (h : m.NoEmpty) (k : κ) (l : List α) :
    (m.store k l).NoEmpty := by
  rw [store]
  split
  · rw [erase_set]
    exact noEmpty_erase h k
  · rename_i hl
    exact noEmpty_set h k (by simpa using hl)

theorem flat_store_erase [DecidableEq α] {m : OMap κ (List α) r} {k : κ} {l : List α} {x : α}
    (hf : m.find k = some l) (hx : x ∈ l) :
    (m.store k (l.erase x)).flat = m.flat.erase (k, x) := by
  obtain ⟨before, after, h⟩ := m.around k
  have hset : (m.set k (l.erase x)).entries = before ++ (k, l.erase x) :: after := h.setEntry_eq _
  have hdel : (m.erase k).entries = before ++ after := h.filter_ne
  have hnot : (k, x) ∉ flatten before := fun hm => by
    obtain ⟨q, hq, _⟩ := mem_flatten.mp hm
    exact h.lower_ne _ hq rfl
  have hmem : (k, x) ∈ l.map fun y => (k, y) := List.mem_map.mpr ⟨x, hx, rfl⟩
  have hinj : Function.Injective fun y : α => (k, y) := fun _ _ he => (Prod.mk.inj he).2
  have hflat : m.flat.erase (k, x) =
      flatten before ++ (((l.erase x).map fun y => (k, y)) ++ flatten after) := by
    rw [flat]
    rw [h.split, hf]
    simp only [Option.toList_some, List.map_cons, List.map_nil, List.append_assoc,
      List.cons_append, List.nil_append, flatten_append, flatten_cons]
    rw [List.erase_append_right _ hnot, List.erase_append_left _ hmem, List.map_erase hinj]
  rw [hflat]
  rw [store]
  split
  · rename_i he
    rw [erase_set, flat, hdel, List.isEmpty_iff.mp he]
    simp
  · rw [flat, hset]
    simp

/-- Popping the front of the first queue takes the head off the flat list. -/
theorem flat_store_tail [DecidableEq α] {m : OMap κ (List α) r} {k : κ} {x : α} {l : List α}
    {rest : List (κ × List α)} (h : m.entries = (k, x :: l) :: rest) :
    m.flat = (k, x) :: (m.store k l).flat := by
  have hs := flat_store_erase (find_head h) (List.mem_cons_self (a := x))
  have hf : m.flat = (k, x) :: ((l.map fun y => (k, y)) ++ flatten rest) := by simp [flat, h]
  rw [List.erase_cons_head] at hs
  rw [hs, hf, List.erase_cons_head]

end OMap

end OrderedMap
