import MatchingEngine.BatchLog
import MatchingEngine.RedisMarketData

/-! # What the publisher sends, and what the server holds

Every batch starts on a connection with nothing in flight and no reply unread, so the replies
read are its own. What the server has run of each batch is a first part of its commands. -/
namespace RedisPublisher

open EngineTypes
open Orders
open Transitions
open BatchLog
open RedisMarketData

/-! ## The commands of a batch -/

theorem length_commands (m : Msg) : m.commands.length = 3 := by cases m <;> rfl

theorem stream_append (msgs msgs' : List Msg) :
    stream (msgs ++ msgs') = stream msgs ++ stream msgs' := List.flatMap_append

theorem length_stream (msgs : List Msg) : (stream msgs).length = 3 * msgs.length := by
  induction msgs with
  | nil => rfl
  | cons m msgs ih =>
    have hcons : stream (m :: msgs) = m.commands ++ stream msgs := List.flatMap_cons
    rw [hcons, List.length_append, length_commands, ih, List.length_cons]
    omega

/-- The loop counts the commands that it appends. -/
theorem appendAll_eq {pipelined pipelined' : ℤ} {out out' : List RedisCommand} {batch : List Msg}
    (h : appendAll pipelined out batch = some (pipelined', out')) :
    out' = out ++ stream batch ∧ pipelined' = pipelined + (stream batch).length := by
  induction batch generalizing pipelined out with
  | nil =>
    cases h
    simp [stream]
  | cons m batch ih =>
    rw [appendAll] at h
    split at h
    · obtain ⟨hout, hcount⟩ := ih h
      have hcons : stream (m :: batch) = m.commands ++ stream batch := List.flatMap_cons
      rw [hcons, List.length_append, length_commands]
      exact ⟨by rw [hout, List.append_assoc], by push_cast; omega⟩
    · cases h

/-! ## Moves -/

theorem ensureConnected_cases {ctx ctx' : Option RedisContext} {reconnects ok : Bool}
    {result : Connect} (h : ensureConnected ctx reconnects result = (ctx', ok)) :
    (ok = true ∧ ∃ c, ctx' = some c ∧ c.err = false ∧ (ctx = some c ∨ c = .connected)) ∨
      (ok = false ∧ ∀ c, ctx' = some c → c.err = true) := by
  have hfresh : redisConnect result = (ctx', ok) →
      (ok = true ∧ ∃ c, ctx' = some c ∧ c.err = false ∧ (ctx = some c ∨ c = .connected)) ∨
        (ok = false ∧ ∀ c, ctx' = some c → c.err = true) := by
    intro hconnect
    cases result <;> cases hconnect
    · exact .inl ⟨rfl, _, rfl, rfl, .inr rfl⟩
    · refine .inr ⟨rfl, ?_⟩
      rintro c ⟨⟩
      rfl
    · refine .inr ⟨rfl, ?_⟩
      rintro c ⟨⟩
  cases ctx with
  | none => exact hfresh h
  | some c =>
    rw [ensureConnected] at h
    split at h
    · rename_i herr
      cases h
      exact .inl ⟨rfl, c, rfl, herr, .inl rfl⟩
    · split at h
      · cases h
        exact .inl ⟨rfl, _, rfl, rfl, .inr rfl⟩
      · exact hfresh h

/-- Everything that a step can be. -/
inductive Move (s : Publisher) : Publisher → Prop
  | call (m : Msg) (hs : s.stopping = false) : Move s (enqueue s m)
  | stop : Move s { s with stopping := true }
  | exit (hpc : s.pc = .waiting) (hq : s.queue = []) (hs : s.stopping = true) :
      Move s { s with pc := .exited }
  | take (hpc : s.pc = .waiting) : Move s { s with pc := .taken s.queue, queue := [] }
  | drop (batch : List Msg) (ctx : Option RedisContext) (hpc : s.pc = .taken batch)
      (hctx : ∀ c, ctx = some c → c.err = true) :
      Move s { s with
        ctx := ctx
        pc := .waiting
        trace := { s.trace with attempts := s.trace.attempts ++ [⟨batch, 0, 0, 0, .dropped⟩] } }
  | overflow (batch : List Msg) (c : RedisContext) (hpc : s.pc = .taken batch)
      (hc : s.ctx = some c ∨ c = .connected) :
      Move s { s with ctx := some c, pc := .overflowed batch }
  | append (batch : List Msg) (c : RedisContext) (hpc : s.pc = .taken batch) (herr : c.err = false)
      (hc : s.ctx = some c ∨ c = .connected) :
      Move s { s with
        ctx := some { c with inFlight := c.inFlight ++ stream batch }
        pc := .draining batch (stream batch).length (stream batch).length 0 }
  | execute (cmd : RedisCommand) (rest : List RedisCommand) (replies : ℕ)
      (hctx : s.ctx = some ⟨false, cmd :: rest, replies⟩) :
      Move s { s with
        ctx := some ⟨false, rest, replies + 1⟩
        store := perform s.store cmd
        trace := { s.trace with executed := s.trace.executed ++ [cmd] } }
  | reply (batch : List Msg) (appended : ℕ) (pipelined i : ℤ) (c : RedisContext)
      (hpc : s.pc = .draining batch appended pipelined i) (hctx : s.ctx = some c)
      (hr : 0 < c.replies) :
      Move s { s with
        ctx := some { c with replies := c.replies - 1 }
        pc := .draining batch appended pipelined (i + 1) }
  | lost (batch : List Msg) (appended : ℕ) (pipelined i : ℤ) (c : RedisContext)
      (hpc : s.pc = .draining batch appended pipelined i) (hctx : s.ctx = some c) :
      Move s { s with
        ctx := some ⟨true, [], 0⟩
        pc := .waiting
        trace := { s.trace with
          attempts := s.trace.attempts ++ [attemptOf c batch appended i .broke] } }
  | finish (batch : List Msg) (appended : ℕ) (pipelined i : ℤ) (c : RedisContext)
      (hpc : s.pc = .draining batch appended pipelined i) (hctx : s.ctx = some c)
      (hi : pipelined ≤ i) :
      Move s { s with
        pc := .waiting
        commandsSent := s.commandsSent + UInt64.ofInt pipelined
        trace := { s.trace with
          attempts := s.trace.attempts ++ [attemptOf c batch appended i .sent] } }

theorem connect_cases {s : Publisher} {batch : List Msg} (hpc : s.pc = .taken batch)
    (reconnects : Bool) (result : Connect) : Move s (connectStep s batch reconnects result) := by
  cases he : ensureConnected s.ctx reconnects result with
  | mk ctx ok =>
    rcases ensureConnected_cases he with ⟨rfl, c, rfl, herr, hc⟩ | ⟨rfl, hctx⟩
    · cases ha : appendAll 0 [] batch with
      | none =>
        simp only [connectStep, he, ha]
        exact .overflow batch c hpc hc
      | some out =>
        obtain ⟨pipelined, out⟩ := out
        obtain ⟨rfl, rfl⟩ := appendAll_eq ha
        simp only [connectStep, he, ha, List.nil_append, zero_add]
        exact .append batch c hpc herr hc
    · cases ctx <;> simp only [connectStep, he] <;> exact .drop batch _ hpc hctx

theorem drain_cases {s s' : Publisher} {c : RedisContext} {batch : List Msg} {appended : ℕ}
    {pipelined i : ℤ} {e : Event} (hpc : s.pc = .draining batch appended pipelined i)
    (hctx : s.ctx = some c) (h : drainStep s c batch appended pipelined i e = some s') :
    Move s s' := by
  cases e with
  | reply =>
    simp only [drainStep, Option.ite_none_right_eq_some, Option.some.injEq] at h
    exact h.2 ▸ .reply batch appended pipelined i c hpc hctx h.1.2
  | lost =>
    simp only [drainStep, Option.ite_none_right_eq_some, Option.some.injEq] at h
    exact h.2 ▸ .lost batch appended pipelined i c hpc hctx
  | finish =>
    simp only [drainStep, Option.ite_none_left_eq_some, Option.some.injEq, not_lt] at h
    exact h.2 ▸ .finish batch appended pipelined i c hpc hctx h.1
  | _ => cases h

/-- The events of the loop over the replies. -/
theorem reply_loop_cases {s s' : Publisher} {e : Event}
    (hloop : e = .reply ∨ e = .lost ∨ e = .finish) (h : next s e = some s') : Move s s' := by
  rcases hloop with rfl | rfl | rfl
  all_goals
    simp only [next] at h
    split at h
    · rename_i hpc hctx
      exact drain_cases hpc hctx h
    · cases h

theorem step_moves {s s' : Publisher} (h : Step s s') : Move s s' := by
  obtain ⟨e, he⟩ := h
  cases e with
  | onTrade trade now =>
    simp only [next, Option.ite_none_left_eq_some, Option.some.injEq] at he
    exact he.2 ▸ .call _ (Bool.eq_false_iff.mpr he.1)
  | onTopOfBook hasBid bid hasAsk ask =>
    simp only [next, Option.ite_none_left_eq_some, Option.some.injEq] at he
    exact he.2 ▸ .call _ (Bool.eq_false_iff.mpr he.1)
  | stop =>
    cases he
    exact .stop
  | wake =>
    simp only [next, Option.ite_none_right_eq_some] at he
    obtain ⟨hpc, he⟩ := he
    split at he
    · rename_i hq
      simp only [Option.ite_none_right_eq_some, Option.some.injEq] at he
      exact he.2 ▸ .exit hpc hq he.1
    · cases he
      exact .take hpc
  | connect reconnects result =>
    simp only [next] at he
    split at he
    · rename_i batch hpc
      cases he
      exact connect_cases hpc reconnects result
    · cases he
  | execute =>
    simp only [next, executeStep] at he
    split at he
    · rename_i cmd rest replies hctx
      cases he
      exact .execute cmd rest replies hctx
    · cases he
  | reply => exact reply_loop_cases (.inl rfl) he
  | lost => exact reply_loop_cases (.inr (.inl rfl)) he
  | finish => exact reply_loop_cases (.inr (.inr rfl)) he

/-! ## The invariant -/

/-- The batch that the thread has in hand and that is not an attempt yet. -/
def held : PublisherPc → List Msg
  | .taken batch => batch
  | .overflowed batch => batch
  | _ => []

/-- The batch whose replies are being read. -/
def current : PublisherPc → Option RedisContext → List Attempt
  | .draining batch appended _ i, some c => [attemptOf c batch appended i .draining]
  | _, _ => []

def attemptsNow (s : Publisher) : List Attempt := s.trace.attempts ++ current s.pc s.ctx

/-- Of each batch, the commands that the server has run. -/
def executedOf (as : List Attempt) : List RedisCommand :=
  cutShort (fun a => stream a.msgs) Attempt.executed as

structure Accounted (a : Attempt) : Prop where
  appended : a.outcome ≠ .dropped → a.appended = (stream a.msgs).length
  dropped : a.outcome = .dropped → a.executed = 0
  sent : a.outcome = .sent → a.read = a.appended ∧ a.executed = a.appended

/-- While replies are read, `done` has run, and the rest of the batch is in flight. -/
structure Draining (c : RedisContext) (batch : List Msg) (appended : ℕ) (pipelined i : ℤ)
    (done : List RedisCommand) : Prop where
  up : c.err = false
  split : stream batch = done ++ c.inFlight
  length : appended = (stream batch).length
  count : pipelined = appended
  replied : i + c.replies = done.length

/-- Between two batches, a connection without an error is as good as new. -/
def Connection (pc : PublisherPc) (ctx : Option RedisContext) : Prop :=
  match pc with
  | .draining batch appended pipelined i =>
    ∃ c done, ctx = some c ∧ Draining c batch appended pipelined i done
  | _ => ∀ c, ctx = some c → c.err = false → c = .connected

structure Invariant (store₀ : Store) (s : Publisher) : Prop where
  calls : s.trace.calls = (attemptsNow s).flatMap Attempt.msgs ++ held s.pc ++ s.queue
  executed : s.trace.executed = executedOf (attemptsNow s)
  accounted : ∀ a ∈ s.trace.attempts, Accounted a
  connection : Connection s.pc s.ctx
  store : s.store = s.trace.executed.foldl perform store₀
  exited : s.pc = .exited → s.queue = [] ∧ s.stopping = true

variable {store₀ : Store} {s s' : Publisher}

theorem initial_invariant (store₀ : Store) : Invariant store₀ (initial store₀) := by
  refine ⟨rfl, rfl, nofun, ?_, rfl, nofun⟩
  rintro c ⟨⟩ _
  rfl

theorem Draining.done_eq {c : RedisContext} {batch : List Msg} {appended : ℕ} {pipelined i : ℤ}
    {done : List RedisCommand} (h : Draining c batch appended pipelined i done) :
    (stream batch).take (appended - c.inFlight.length) = done := by
  rw [h.length, h.split, List.length_append, Nat.add_sub_cancel]
  exact List.take_left

theorem executedOf_attempt {c : RedisContext} {batch : List Msg} {appended : ℕ} {pipelined i : ℤ}
    {done : List RedisCommand} (h : Draining c batch appended pipelined i done)
    (as : List Attempt) (outcome : Outcome) :
    executedOf (as ++ [attemptOf c batch appended i outcome]) = executedOf as ++ done := by
  rw [executedOf, cutShort_append, cutShort_singleton]
  exact congrArg (executedOf as ++ ·) h.done_eq

/-- A connection that a batch starts on is as good as new. -/
theorem connected_of_taken (h : Invariant store₀ s) {batch : List Msg} {c : RedisContext}
    (hpc : s.pc = .taken batch) (herr : c.err = false)
    (hc : s.ctx = some c ∨ c = .connected) : c = .connected := by
  rcases hc with hc | hc
  · have hconnection := h.connection
    rw [hpc] at hconnection
    exact hconnection c hc herr
  · exact hc

theorem invariant_call (h : Invariant store₀ s) (m : Msg) (hs : s.stopping = false) :
    Invariant store₀ (enqueue s m) where
  calls := by
    change s.trace.calls ++ [m] = (attemptsNow s).flatMap Attempt.msgs ++ held s.pc ++ (s.queue ++ [m])
    rw [h.calls, List.append_assoc]
  executed := h.executed
  accounted := h.accounted
  connection := h.connection
  store := h.store
  exited hpc := by
    have hstopping := (h.exited hpc).2
    rw [hs] at hstopping
    cases hstopping

/-- A batch that was taken comes after the attempts and before the queue. -/
theorem of_taken (h : Invariant store₀ s) {batch : List Msg} (hpc : s.pc = .taken batch) :
    s.trace.calls = s.trace.attempts.flatMap Attempt.msgs ++ batch ++ s.queue ∧
      s.trace.executed = executedOf s.trace.attempts := by
  have hnow : attemptsNow s = s.trace.attempts := by
    rw [attemptsNow, hpc]
    exact List.append_nil _
  constructor
  · rw [h.calls, hnow, hpc]
    rfl
  · rw [h.executed, hnow]

/-- So does a batch whose replies are being read, and the server has run a part of it. -/
theorem of_draining (h : Invariant store₀ s) {c : RedisContext} {batch : List Msg} {appended : ℕ}
    {pipelined i : ℤ} (hpc : s.pc = .draining batch appended pipelined i) (hctx : s.ctx = some c) :
    s.trace.calls = s.trace.attempts.flatMap Attempt.msgs ++ batch ++ s.queue ∧
      ∃ done, Draining c batch appended pipelined i done ∧
        s.trace.executed = executedOf s.trace.attempts ++ done := by
  have hconnection := h.connection
  rw [hpc] at hconnection
  obtain ⟨c', done, hc', hdraining⟩ := hconnection
  cases hctx.symm.trans hc'
  have hnow : attemptsNow s = s.trace.attempts ++ [attemptOf c batch appended i .draining] := by
    rw [attemptsNow, hpc, hctx]
    rfl
  constructor
  · rw [h.calls, hnow, hpc]
    simp [held, attemptOf]
  · exact ⟨done, hdraining, by rw [h.executed, hnow, executedOf_attempt hdraining]⟩

/-- What is run of a batch in hand keeps the invariant, in step with the replies. -/
theorem invariant_draining (h : Invariant store₀ s) {c : RedisContext} {batch : List Msg}
    {appended : ℕ} {pipelined i : ℤ} {done executed : List RedisCommand} {store : Store}
    (hcalls : s.trace.calls = s.trace.attempts.flatMap Attempt.msgs ++ batch ++ s.queue)
    (hd : Draining c batch appended pipelined i done)
    (hexecuted : executed = executedOf s.trace.attempts ++ done)
    (hstore : store = executed.foldl perform store₀) :
    Invariant store₀ { s with
      ctx := some c
      pc := .draining batch appended pipelined i
      store := store
      trace := { s.trace with executed := executed } } := by
  constructor
  · change s.trace.calls = (s.trace.attempts ++ [_]).flatMap Attempt.msgs ++ [] ++ s.queue
    rw [hcalls]
    simp [attemptOf]
  · change executed = executedOf (s.trace.attempts ++ [attemptOf c batch appended i .draining])
    rw [executedOf_attempt hd, hexecuted]
  · exact h.accounted
  · exact ⟨c, done, rfl, hd⟩
  · exact hstore
  · exact nofun

/-- A batch that ends takes its place among the attempts. -/
theorem invariant_ended (h : Invariant store₀ s) {a : Attempt} {ctx : Option RedisContext}
    {sent : UInt64}
    (hcalls : s.trace.calls = s.trace.attempts.flatMap Attempt.msgs ++ a.msgs ++ s.queue)
    (hexecuted : s.trace.executed =
      executedOf s.trace.attempts ++ (stream a.msgs).take a.executed)
    (haccounted : Accounted a) (hclean : ∀ c, ctx = some c → c.err = false → c = .connected) :
    Invariant store₀ { s with
      ctx := ctx
      pc := .waiting
      commandsSent := sent
      trace := { s.trace with attempts := s.trace.attempts ++ [a] } } := by
  constructor
  · change s.trace.calls = (s.trace.attempts ++ [a] ++ []).flatMap Attempt.msgs ++ [] ++ s.queue
    rw [hcalls]
    simp
  · change s.trace.executed = executedOf (s.trace.attempts ++ [a] ++ [])
    rw [hexecuted, List.append_nil, executedOf, executedOf, cutShort_append, cutShort_singleton]
  · intro x hx
    rcases List.mem_append.mp hx with hx | hx
    · exact h.accounted x hx
    · exact List.mem_singleton.mp hx ▸ haccounted
  · exact hclean
  · exact h.store
  · exact nofun

theorem invariant_drop (h : Invariant store₀ s) {batch : List Msg} {ctx : Option RedisContext}
    (hpc : s.pc = .taken batch) (hctx : ∀ c, ctx = some c → c.err = true) :
    Invariant store₀ { s with
      ctx := ctx
      pc := .waiting
      trace := { s.trace with attempts := s.trace.attempts ++ [⟨batch, 0, 0, 0, .dropped⟩] } } := by
  obtain ⟨hcalls, hexecuted⟩ := of_taken h hpc
  refine invariant_ended h hcalls ?_ ⟨fun hne => absurd rfl hne, fun _ => rfl, nofun⟩ ?_
  · rw [hexecuted]
    exact (List.append_nil _).symm
  · intro c hc herr
    rw [hctx c hc] at herr
    cases herr

theorem invariant_append (h : Invariant store₀ s) {batch : List Msg} {c : RedisContext}
    (hpc : s.pc = .taken batch) (hc : c = .connected) :
    Invariant store₀ { s with
      ctx := some { c with inFlight := c.inFlight ++ stream batch }
      pc := .draining batch (stream batch).length (stream batch).length 0 } := by
  subst hc
  obtain ⟨hcalls, hexecuted⟩ := of_taken h hpc
  have hd : Draining ⟨false, stream batch, 0⟩ batch (stream batch).length
      (stream batch).length 0 [] := ⟨rfl, rfl, rfl, rfl, rfl⟩
  exact invariant_draining h hcalls hd (hexecuted.trans (List.append_nil _).symm) h.store

theorem invariant_execute (h : Invariant store₀ s) {cmd : RedisCommand} {rest : List RedisCommand}
    {replies : ℕ} (hctx : s.ctx = some ⟨false, cmd :: rest, replies⟩) :
    Invariant store₀ { s with
      ctx := some ⟨false, rest, replies + 1⟩
      store := perform s.store cmd
      trace := { s.trace with executed := s.trace.executed ++ [cmd] } } := by
  have hconnection := h.connection
  cases hpc : s.pc with
  | draining batch appended pipelined i =>
    obtain ⟨hcalls, done, hd, hexecuted⟩ := of_draining h hpc hctx
    have hd' : Draining ⟨false, rest, replies + 1⟩ batch appended pipelined i (done ++ [cmd]) := by
      refine ⟨rfl, by simpa using hd.split, hd.length, hd.count, ?_⟩
      have hreplied : i + (replies : ℤ) = done.length := hd.replied
      rw [List.length_append, List.length_singleton]
      push_cast
      omega
    have hstore : perform s.store cmd = (s.trace.executed ++ [cmd]).foldl perform store₀ := by
      rw [h.store, List.foldl_append]
      rfl
    exact invariant_draining h hcalls hd' (by rw [hexecuted, List.append_assoc]) hstore
  | _ =>
    -- Between two batches nothing is in flight.
    rw [hpc] at hconnection
    cases hconnection _ hctx rfl

theorem invariant_reply (h : Invariant store₀ s) {batch : List Msg} {appended : ℕ}
    {pipelined i : ℤ} {c : RedisContext} (hpc : s.pc = .draining batch appended pipelined i)
    (hctx : s.ctx = some c) (hr : 0 < c.replies) :
    Invariant store₀ { s with
      ctx := some { c with replies := c.replies - 1 }
      pc := .draining batch appended pipelined (i + 1) } := by
  obtain ⟨hcalls, done, hd, hexecuted⟩ := of_draining h hpc hctx
  have hd' : Draining { c with replies := c.replies - 1 } batch appended pipelined (i + 1) done := by
    refine ⟨hd.up, hd.split, hd.length, hd.count, ?_⟩
    have hreplied := hd.replied
    change i + 1 + ((c.replies - 1 : ℕ) : ℤ) = done.length
    omega
  exact invariant_draining h hcalls hd' hexecuted h.store

/-- Every command of a batch has one reply, and all of them were read. -/
theorem accounted_sent {batch : List Msg} {appended : ℕ} {pipelined i : ℤ} {c : RedisContext}
    {done : List RedisCommand} (h : Draining c batch appended pipelined i done)
    (hi : pipelined ≤ i) :
    c = .connected ∧ Accounted (attemptOf c batch appended i .sent) := by
  obtain ⟨hup, hsplit, hlength, hcount, hreplied⟩ := h
  have htotal : (stream batch).length = done.length + c.inFlight.length := by
    rw [hsplit, List.length_append]
  have hnone : c.inFlight = [] := List.eq_nil_of_length_eq_zero (by omega)
  have hread : c.replies = 0 := by omega
  have hall : i = appended := by omega
  obtain ⟨err, inFlight, replies⟩ := c
  cases hup
  cases hnone
  cases hread
  exact ⟨rfl, ⟨fun _ => hlength, nofun, fun _ => ⟨hall, rfl⟩⟩⟩

theorem invariant_step (h : Invariant store₀ s) (hs : Step s s') : Invariant store₀ s' := by
  cases step_moves hs with
  | call m hstopping => exact invariant_call h m hstopping
  | stop => exact ⟨h.calls, h.executed, h.accounted, h.connection, h.store,
      fun hpc => ⟨(h.exited hpc).1, rfl⟩⟩
  | exit hpc hq hstopping =>
    obtain ⟨hcalls, hexecuted, haccounted, hconnection, hstore, _⟩ := h
    rw [attemptsNow, hpc] at hcalls hexecuted
    rw [hpc] at hconnection
    exact ⟨hcalls, hexecuted, haccounted, hconnection, hstore, fun _ => ⟨hq, hstopping⟩⟩
  | take hpc =>
    obtain ⟨hcalls, hexecuted, haccounted, hconnection, hstore, _⟩ := h
    rw [attemptsNow, hpc] at hcalls hexecuted
    rw [hpc] at hconnection
    refine ⟨?_, hexecuted, haccounted, hconnection, hstore, nofun⟩
    rw [hcalls]
    simp [attemptsNow, current, held]
  | drop batch ctx hpc hctx => exact invariant_drop h hpc hctx
  | overflow batch c hpc hc =>
    obtain ⟨hcalls, hexecuted⟩ := of_taken h hpc
    constructor
    · change s.trace.calls = (s.trace.attempts ++ []).flatMap Attempt.msgs ++ batch ++ s.queue
      rw [hcalls, List.append_nil]
    · change s.trace.executed = executedOf (s.trace.attempts ++ [])
      rw [hexecuted, List.append_nil]
    · exact h.accounted
    · rintro c' ⟨⟩ herr
      exact connected_of_taken h hpc herr hc
    · exact h.store
    · exact nofun
  | append batch c hpc herr hc => exact invariant_append h hpc (connected_of_taken h hpc herr hc)
  | execute cmd rest replies hctx => exact invariant_execute h hctx
  | reply batch appended pipelined i c hpc hctx hr => exact invariant_reply h hpc hctx hr
  | lost batch appended pipelined i c hpc hctx =>
    obtain ⟨hcalls, done, hd, hexecuted⟩ := of_draining h hpc hctx
    rw [← hd.done_eq] at hexecuted
    refine invariant_ended h hcalls hexecuted ⟨fun _ => hd.length, nofun, nofun⟩ ?_
    rintro c' ⟨⟩ herr
    cases herr
  | finish batch appended pipelined i c hpc hctx hi =>
    obtain ⟨hcalls, done, hd, hexecuted⟩ := of_draining h hpc hctx
    rw [← hd.done_eq] at hexecuted
    obtain ⟨rfl, haccounted⟩ := accounted_sent hd hi
    refine invariant_ended h hcalls hexecuted haccounted ?_
    intro c' hc' _
    exact Option.some.inj (hc'.symm.trans hctx)

theorem reachable_invariant (h : Reachable Step (initial store₀) s) : Invariant store₀ s :=
  h.invariant (initial_invariant store₀) fun _ _ hi _ hs => invariant_step hi hs

/-! ## What the server holds -/

def keyOf : RedisCommand → Option String
  | .publish _ _ => none
  | .set key _ => some key
  | .del key => some key
  | .incr key => some key

/-- A key that a side's price is cached under: absent while the side is empty. -/
def cached (has : Bool) (price : Double) : Option String := if has then some (num price) else none

theorem perform_other {cmd : RedisCommand} {key : String} (h : keyOf cmd ≠ some key)
    (store : Store) : perform store cmd key = store key := by
  cases cmd with
  | publish channel payload => rfl
  | set k value => exact Function.update_of_ne (fun he => h (congrArg some he.symm)) _ _
  | del k => exact Function.update_of_ne (fun he => h (congrArg some he.symm)) _ _
  | incr k => exact Function.update_of_ne (fun he => h (congrArg some he.symm)) _ _

/-- Commands on other keys leave a key as it is. -/
theorem foldl_perform_other {cmds : List RedisCommand} {key : String}
    (h : ∀ cmd ∈ cmds, keyOf cmd ≠ some key) (store : Store) :
    cmds.foldl perform store key = store key := by
  induction cmds generalizing store with
  | nil => rfl
  | cons cmd cmds ih =>
    rw [List.foldl_cons, ih fun c hc => h c (List.mem_cons_of_mem _ hc),
      perform_other (h cmd List.mem_cons_self)]

theorem perform_cacheSide (store : Store) (key : String) (has : Bool) (price : Double) :
    perform store (cacheSide key has price) key = cached has price := by
  cases has with
  | false => exact Function.update_self _ _ _
  | true => exact Function.update_self _ _ _

theorem keyOf_cacheSide (key : String) (has : Bool) (price : Double) :
    keyOf (cacheSide key has price) = some key := by
  cases has <;> rfl

/-- The commands of a book message leave its two prices, whatever was there before. -/
theorem foldl_perform_book (store : Store) (hasBid hasAsk : Bool) (bid ask : Double) :
    (Msg.book hasBid hasAsk bid ask).commands.foldl perform store "md:best_bid" =
        cached hasBid bid ∧
      (Msg.book hasBid hasAsk bid ask).commands.foldl perform store "md:best_ask" =
        cached hasAsk ask := by
  have hne : keyOf (cacheSide "md:best_ask" hasAsk ask) ≠ some "md:best_bid" := by
    rw [keyOf_cacheSide]
    decide
  constructor
  · change perform (perform store _) (cacheSide "md:best_ask" hasAsk ask) "md:best_bid" = _
    rw [perform_other hne, perform_cacheSide]
  · change perform (perform store _) (cacheSide "md:best_ask" hasAsk ask) "md:best_ask" = _
    rw [perform_cacheSide]

/-- A trade touches neither of the cached prices. -/
theorem keyOf_trade {m : Msg} (hm : m.isBook = false) {cmd : RedisCommand} (hc : cmd ∈ m.commands) :
    keyOf cmd ≠ some "md:best_bid" ∧ keyOf cmd ≠ some "md:best_ask" := by
  cases m with
  | book hasBid hasAsk bid ask => cases hm
  | trade buyId sellId price quantity epochNanos =>
    simp only [Msg.commands, List.mem_cons, List.not_mem_nil, or_false] at hc
    rcases hc with rfl | rfl | rfl
    · exact ⟨nofun, nofun⟩
    · exact ⟨by simp [keyOf], by simp [keyOf]⟩
    · exact ⟨by simp [keyOf], by simp [keyOf]⟩

/-! ## The publisher's promises -/

theorem stream_attempts (as : List Attempt) :
    stream (as.flatMap Attempt.msgs) = as.flatMap fun a => stream a.msgs := List.flatMap_assoc

/-- The commands in flight for the batch whose replies are being read. -/
def unexecuted : PublisherPc → Option RedisContext → List RedisCommand
  | .draining _ _ _ _, some c => c.inFlight
  | _, _ => []

/-- The batch `a` has the message `m`, and no message after it is a BOOK message. -/
def HoldsLatest (s : Publisher) (a : Attempt) (m : Msg) : Prop :=
  ∃ as as' before behind after, attemptsNow s = as ++ a :: as' ∧ a.msgs = before ++ m :: behind ∧
    s.trace.calls = as.flatMap Attempt.msgs ++ before ++ m :: after ∧
    ∀ x ∈ after, x.isBook = false

/-- What is published of a sequence of calls, and what the cache shows. -/
structure Published (s : Publisher) : Prop where
  subsequence : List.Sublist s.trace.executed (stream s.trace.calls)
  nothingLost : (∀ a ∈ s.trace.attempts, a.outcome = .sent) →
    s.trace.executed ++ unexecuted s.pc s.ctx ++ stream (held s.pc ++ s.queue) =
      stream s.trace.calls
  /-- Where the thread waits with an empty queue, or has left. -/
  complete : (∀ a ∈ s.trace.attempts, a.outcome = .sent) →
    (s.pc = .waiting ∧ s.queue = [] ∨ s.pc = .exited) → s.trace.executed = stream s.trace.calls
  replies : ∀ a ∈ s.trace.attempts, a.outcome = .sent →
    a.read = a.appended ∧ a.appended = (stream a.msgs).length
  cache : ∀ a hasBid hasAsk bid ask, HoldsLatest s a (.book hasBid hasAsk bid ask) →
    a.executed = (stream a.msgs).length →
    s.store "md:best_bid" = cached hasBid bid ∧ s.store "md:best_ask" = cached hasAsk ask

theorem executed_sublist (h : Invariant store₀ s) :
    List.Sublist s.trace.executed (stream s.trace.calls) := by
  rw [h.executed, h.calls, stream_append, stream_append, stream_attempts, List.append_assoc]
  exact (cutShort_sublist _).trans (List.sublist_append_left _ _)

/-- Of batches that were all sent, everything was run. -/
theorem executedOf_sent (h : Invariant store₀ s)
    (hsent : ∀ a ∈ s.trace.attempts, a.outcome = .sent) :
    executedOf s.trace.attempts = stream (s.trace.attempts.flatMap Attempt.msgs) := by
  rw [stream_attempts]
  apply cutShort_whole
  intro a ha
  obtain ⟨happended, _, hread⟩ := h.accounted a ha
  rw [(hread (hsent a ha)).2, happended (by rw [hsent a ha]; decide)]

theorem nothing_lost (h : Invariant store₀ s)
    (hsent : ∀ a ∈ s.trace.attempts, a.outcome = .sent) :
    s.trace.executed ++ unexecuted s.pc s.ctx ++ stream (held s.pc ++ s.queue) =
      stream s.trace.calls := by
  have hwhole := executedOf_sent h hsent
  have hconnection := h.connection
  have hcalls := h.calls
  have hexecuted := h.executed
  rw [attemptsNow] at hcalls hexecuted
  cases hpc : s.pc with
  | draining batch appended pipelined i =>
    rw [hpc] at hconnection
    obtain ⟨c, _, hctx, _⟩ := hconnection
    obtain ⟨hcalls, done, hd, hexecuted⟩ := of_draining h hpc hctx
    rw [hcalls, hexecuted, hwhole, hctx]
    simp only [stream_append, hd.split, unexecuted, held, List.nil_append, List.append_assoc]
  | _ =>
    rw [hpc] at hcalls hexecuted
    simp only [current, List.append_nil] at hcalls hexecuted
    change s.trace.executed ++ [] ++ _ = _
    rw [hexecuted, hwhole, hcalls, List.append_nil, ← stream_append, List.append_assoc]

theorem executed_complete (h : Invariant store₀ s)
    (hsent : ∀ a ∈ s.trace.attempts, a.outcome = .sent)
    (hrest : s.pc = .waiting ∧ s.queue = [] ∨ s.pc = .exited) :
    s.trace.executed = stream s.trace.calls := by
  have hall := nothing_lost h hsent
  rcases hrest with ⟨hpc, hqueue⟩ | hpc
  · rw [hpc, hqueue] at hall
    simpa [unexecuted, held, stream] using hall
  · rw [hpc, (h.exited hpc).1] at hall
    simpa [unexecuted, held, stream] using hall

theorem cache_latest (h : Invariant store₀ s) {a : Attempt} {hasBid hasAsk : Bool} {bid ask : Double}
    (ha : HoldsLatest s a (.book hasBid hasAsk bid ask))
    (hall : a.executed = (stream a.msgs).length) :
    s.store "md:best_bid" = cached hasBid bid ∧ s.store "md:best_ask" = cached hasAsk ask := by
  obtain ⟨as, as', before, behind, after, has, hmsgs, hcalls, hafter⟩ := ha
  have hlater : after = behind ++ as'.flatMap Attempt.msgs ++ held s.pc ++ s.queue := by
    have hinv := h.calls
    rw [has, hcalls] at hinv
    simp only [List.flatMap_append, List.flatMap_cons, hmsgs, List.append_assoc, List.cons_append,
      List.append_cancel_left_eq, List.cons.injEq, true_and] at hinv
    rw [hinv]
    simp only [List.append_assoc]
  -- After the message only trades were run.
  have hquiet : ∀ cmd ∈ stream behind ++ executedOf as',
      keyOf cmd ≠ some "md:best_bid" ∧ keyOf cmd ≠ some "md:best_ask" := by
    intro cmd hcmd
    have hmem : cmd ∈ stream (behind ++ as'.flatMap Attempt.msgs) := by
      rw [stream_append, stream_attempts]
      rcases List.mem_append.mp hcmd with hcmd | hcmd
      · exact List.mem_append_left _ hcmd
      · exact List.mem_append_right _ ((cutShort_sublist as').subset hcmd)
    obtain ⟨x, hx, hcx⟩ := List.mem_flatMap.mp hmem
    refine keyOf_trade (hafter x ?_) hcx
    rw [hlater, List.append_assoc]
    exact List.mem_append_left _ hx
  have hexecuted : s.trace.executed = (executedOf as ++ stream before) ++
      (Msg.book hasBid hasAsk bid ask).commands ++ (stream behind ++ executedOf as') := by
    have hone : (stream a.msgs).take a.executed = stream before ++
        ((Msg.book hasBid hasAsk bid ask).commands ++ stream behind) := by
      rw [List.take_of_length_le hall.ge, hmsgs, stream_append]
      rfl
    rw [h.executed, has]
    change executedOf (as ++ ([a] ++ as')) = _
    rw [executedOf, cutShort_append, cutShort_append, cutShort_singleton, hone]
    simp only [List.append_assoc]
    rfl
  have hstore : ∀ key, (∀ cmd ∈ stream behind ++ executedOf as', keyOf cmd ≠ some key) →
      s.store key = (Msg.book hasBid hasAsk bid ask).commands.foldl perform
        ((executedOf as ++ stream before).foldl perform store₀) key := by
    intro key hkey
    rw [h.store, hexecuted, List.foldl_append, foldl_perform_other hkey, List.foldl_append]
  rw [hstore _ fun cmd hc => (hquiet cmd hc).1, hstore _ fun cmd hc => (hquiet cmd hc).2]
  exact foldl_perform_book _ _ _ _ _

/-- Whatever was called, however the queue was cut into batches and whatever failed: nothing is
published out of order or twice, and the cache has the latest book message that got through. -/
theorem publishes_in_order (store₀ : Store) (s : Publisher)
    (h : Reachable Step (initial store₀) s) : Published s := by
  have hinv := reachable_invariant h
  constructor
  · exact executed_sublist hinv
  · exact nothing_lost hinv
  · exact executed_complete hinv
  · intro a ha hsent
    obtain ⟨happended, _, hread⟩ := hinv.accounted a ha
    exact ⟨(hread hsent).1, happended (by rw [hsent]; decide)⟩
  · intro a hasBid hasAsk bid ask
    exact cache_latest hinv

/-- A batch of a book message and a trade that breaks after its first command, and one with a
book message that gets through. -/
def brokenBatch : List Event :=
  [.onTopOfBook true LimitPrice.hundred.val true LimitPrice.hundred.val,
    .onTrade ⟨2, 1, .hundred, 3⟩ 0, .wake, .connect true .ok, .execute, .lost,
    .onTopOfBook false Double.zero true LimitPrice.hundred.val, .wake, .connect true .ok,
    .execute, .execute, .reply, .execute, .reply, .reply, .finish]

theorem brokenBatch_converges : (events (initial fun _ => none) brokenBatch).map
    (fun s => (s.trace.executed.length, s.store "md:best_bid", s.store "md:best_ask",
      s.commandsSent)) = some (4, none, some "100.000000", 3) := by
  decide +kernel

theorem publishes_in_order_brokenBatch : ∃ s,
    events (initial fun _ => none) brokenBatch = some s ∧ s.store "md:best_bid" = none ∧
    s.store "md:best_ask" = some "100.000000" ∧ Published s := by
  obtain ⟨s, hs, hobs⟩ := Option.map_eq_some_iff.mp brokenBatch_converges
  simp only [Prod.mk.injEq] at hobs
  exact ⟨s, hs, hobs.2.1, hobs.2.2.1, publishes_in_order _ s (events_reachable .initial hs)⟩

end RedisPublisher
