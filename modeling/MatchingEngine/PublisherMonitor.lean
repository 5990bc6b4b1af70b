import MatchingEngine.MonitorWakeups
import MatchingEngine.RedisPublisher

/-! # The publisher under its mutex

`onTrade`, `onTopOfBook`, the destructor and `publisherLoop` statement by statement, against the
publisher of `RedisMarketData`, where each section is one step. The thread that makes the calls
also destroys the publisher, when it is done with it. The server and the network are parties of
their own. -/
namespace PublisherMonitor

open EngineTypes
open Orders
open RedisMarketData
open RedisPublisher
open Monitor
open Monitor.Signals
open Transitions

/-! ## The code -/

inductive Party where
  | caller
  | publisher
  | server
  | network
  deriving DecidableEq

instance : Fintype Party :=
  ⟨{.caller, .publisher, .server, .network}, fun i => by cases i <;> decide⟩

/-- `broken` is a connection that is down before `ctx_` knows of it. `finished` tells that the
publisher thread is over. The trace of `feed` is read by no statement, and its `pc` tells where the
publisher thread goes on. -/
structure Shared where
  feed : Publisher
  broken : Bool
  finished : Bool

/-- The statement a party is at, with its local variables. -/
inductive Pc where
  | idle
  | tradeLock (trade : Trade) (now : Int64)
  | tradePush (trade : Trade) (now : Int64)
  | bookLock (hasBid : Bool) (bid : Double) (hasAsk : Bool) (ask : Double)
  | bookPush (hasBid : Bool) (bid : Double) (hasAsk : Bool) (ask : Double)
  | pushUnlock
  | pushNotify
  | stopLock
  | stopSet
  | stopUnlock
  | stopNotify
  | join
  | destroyed
  | workLock
  | workWait
  | workTest
  | swap
  | swapUnlock (batch : List Msg)
  | connect (batch : List Msg)
  | overflowed (batch : List Msg)
  | read (batch : List Msg) (appended : ℕ) (pipelined i : ℤ)
  | exitUnlock
  | exit
  | exited
  | serve
  | link
  | breaking

/-- Where a call on the publisher begins. -/
def Pc.entry : Pc → Prop
  | .tradeLock _ _ | .bookLock _ _ _ _ | .stopLock => True
  | _ => False

/-- Where the loop goes on after what it did with a batch. -/
def Pc.resume : PublisherPc → Pc
  | .waiting => .workLock
  | .taken batch => .connect batch
  | .draining batch appended pipelined i => .read batch appended pipelined i
  | .overflowed batch => .overflowed batch
  | .exited => .exited

/-- The connection that `ensureConnected()` would keep. -/
def up : Option RedisContext → Bool
  | some c => !c.err
  | none => false

def code : Pc → Instr Pc Shared Unit
  | .idle => .idle Pc.entry
  | .tradeLock trade now => .lock (.tradePush trade now)
  | .tradePush trade now =>
    .access fun s =>
      ({ s with
          feed := enqueue s.feed
            (.trade trade.buyOrderId trade.sellOrderId trade.price.val trade.quantity now) },
        .pushUnlock)
  | .bookLock hasBid bid hasAsk ask => .lock (.bookPush hasBid bid hasAsk ask)
  | .bookPush hasBid bid hasAsk ask =>
    .access fun s => ({ s with feed := enqueue s.feed (.book hasBid hasAsk bid ask) }, .pushUnlock)
  | .pushUnlock => .unlock .pushNotify
  | .pushNotify => .notifyOne () .idle
  | .stopLock => .lock .stopSet
  | .stopSet => .access fun s => ({ s with feed := { s.feed with stopping := true } }, .stopUnlock)
  | .stopUnlock => .unlock .stopNotify
  | .stopNotify => .notifyAll () .join
  | .join => .act fun s s' k => s.finished = true ∧ s' = s ∧ k = .destroyed
  | .destroyed => .idle fun _ => False
  | .workLock => .lock .workWait
  | .workWait => .wait () (fun s => !s.feed.queue.isEmpty || s.feed.stopping) .workTest
  | .workTest =>
    .access fun s =>
      if s.feed.stopping && s.feed.queue.isEmpty then
        ({ s with feed := { s.feed with pc := .exited } }, .exitUnlock)
      else (s, .swap)
  | .swap =>
    .access fun s =>
      ({ s with feed := { s.feed with pc := .taken s.feed.queue, queue := [] } },
        .swapUnlock s.feed.queue)
  | .swapUnlock batch => .unlock (.connect batch)
  | .connect batch =>
    -- a new connection is not the one that broke
    .act fun s s' k =>
      ∃ reconnects result, k = .resume (connectStep s.feed batch reconnects result).pc ∧
        s' = { s with
          feed := connectStep s.feed batch reconnects result
          broken := s.broken && up s.feed.ctx }
  | .overflowed _ => .idle fun _ => False
  | .read batch appended pipelined i =>
    -- only a connection that broke loses a reply
    .act fun s s' k =>
      ∃ e c feed, s.feed.ctx = some c ∧ (e = .lost → s.broken = true) ∧
        drainStep s.feed c batch appended pipelined i e = some feed ∧ k = .resume feed.pc ∧
        s' = { s with feed := feed }
  | .exitUnlock => .unlock .exit
  | .exit => .act fun s s' k => s' = { s with finished := true } ∧ k = .exited
  | .exited => .idle fun _ => False
  | .serve =>
    .act fun s s' k =>
      s.broken = false ∧ ∃ feed, executeStep s.feed = some feed ∧ s' = { s with feed := feed } ∧
        k = .serve
  | .link => .idle fun k => k = .breaking
  | .breaking => .act fun s s' k => s' = { s with broken := true } ∧ k = .link

def Party.begins : Party → Pc
  | .caller => .idle
  | .publisher => .workLock
  | .server => .serve
  | .network => .link

abbrev Threads : Type := State Party Pc Shared Unit

/-- The publisher as the constructor leaves it. -/
def constructed (store : Store) : Threads := start ⟨initial store, false, false⟩ Party.begins

/-! ## The outline -/

def Pc.holds : Pc → Bool
  | .tradePush _ _ | .bookPush _ _ _ _ | .pushUnlock | .stopSet | .stopUnlock | .workWait
  | .workTest | .swap | .swapUnlock _ | .exitUnlock => true
  | _ => false

def Pc.party : Pc → Party
  | .workLock | .workWait | .workTest | .swap | .swapUnlock _ | .connect _ | .overflowed _
  | .read _ _ _ _ | .exitUnlock | .exit | .exited => .publisher
  | .serve => .server
  | .link | .breaking => .network
  | _ => .caller

/-- What the publisher thread's place says of `feed`. -/
def Pc.feed? : Pc → Option PublisherPc
  | .workLock | .workWait | .workTest | .swap => some .waiting
  | .swapUnlock batch | .connect batch => some (.taken batch)
  | .overflowed batch => some (.overflowed batch)
  | .read batch appended pipelined i => some (.draining batch appended pipelined i)
  | .exitUnlock | .exit | .exited => some .exited
  | _ => none

def ready (s : Shared) : Bool := !s.feed.queue.isEmpty || s.feed.stopping

/-- What a party knows besides where the publisher thread is. -/
def Pc.knows (s : Shared) : Pc → Prop
  | .stopUnlock | .stopNotify | .join | .destroyed => s.feed.stopping = true
  | .workTest => ready s = true
  | .swap => s.feed.queue ≠ []
  | .overflowed batch => appendAll 0 [] batch = none
  | .exited => s.finished = true
  | .idle | .tradeLock _ _ | .tradePush _ _ | .bookLock _ _ _ _ | .bookPush _ _ _ _ | .pushUnlock
  | .pushNotify | .stopLock | .stopSet => s.feed.stopping = false
  | _ => True

structure Stands (store : Store) (i : Party) (f : Pc) (s : Shared) : Prop where
  party : f.party = i
  live : Reachable RedisMarketData.Step (initial store) s.feed
  feed : ∀ pc ∈ f.feed?, s.feed.pc = pc
  knows : f.knows s

def outline (store : Store) : Outline Party Pc Shared where
  holds := Pc.holds
  free _ := True
  held := Stands store
  away := Stands store

variable {store : Store} {i j : Party} {f : Pc} {s s' : Shared}

/-- What a party leaves alone of the facts that others rely on. -/
structure Leaves (i : Party) (s s' : Shared) : Prop where
  caller : i ≠ .caller → s'.feed.stopping = s.feed.stopping
  pc : i ≠ .publisher → s'.feed.pc = s.feed.pc
  queue : i ≠ .publisher → s.feed.queue ≠ [] → s'.feed.queue ≠ []
  stopping : s.feed.stopping = true → s'.feed.stopping = true
  finished : s.finished = true → s'.finished = true

theorem Stands.other {k : Pc} (hk : k.feed? = none) (hparty : k.party = i)
    (hlive : Reachable RedisMarketData.Step (initial store) s.feed) (hknows : k.knows s) :
    Stands store i k s :=
  ⟨hparty, hlive, by simp [hk], hknows⟩

theorem Stands.keep (hl : Leaves i s s') (hji : j ≠ i)
    (hlive : Reachable RedisMarketData.Step (initial store) s'.feed) (h : Stands store j f s) :
    Stands store j f s' := by
  obtain ⟨rfl, _, hfeed, hknows⟩ := h
  refine ⟨rfl, hlive, ?_, ?_⟩
  · intro pc hpc
    have hpub : i ≠ .publisher := by
      rintro rfl
      cases f <;> simp [Pc.feed?] at hpc <;> simp [Pc.party] at hji
    rw [hl.pc hpub]
    exact hfeed pc hpc
  · cases f with
    | workTest =>
      simp only [Pc.knows, ready, Bool.or_eq_true, Bool.not_eq_true', List.isEmpty_eq_false_iff]
        at hknows ⊢
      exact hknows.imp (hl.queue fun he => hji he.symm) hl.stopping
    | swap => exact hl.queue (fun he => hji he.symm) hknows
    | stopUnlock => exact hl.stopping hknows
    | stopNotify => exact hl.stopping hknows
    | join => exact hl.stopping hknows
    | destroyed => exact hl.stopping hknows
    | overflowed batch => exact hknows
    | exited => exact hl.finished hknows
    | _ => first | trivial | exact (hl.caller fun he => hji he.symm).trans hknows

theorem unnoticed (hl : Leaves i s s')
    (hlive : Reachable RedisMarketData.Step (initial store) s'.feed) :
    (outline store).Unnoticed i s s' :=
  ⟨fun _ => trivial, fun _ hj _ => ⟨.keep hl hj hlive, .keep hl hj hlive⟩⟩

theorem leaves_self : Leaves i s s := ⟨fun _ => rfl, fun _ => rfl, fun _ h => h, id, id⟩

/-- The calls put their messages behind the others. -/
theorem leaves_push (m : Msg) : Leaves .caller s { s with feed := enqueue s.feed m } :=
  ⟨fun h => absurd rfl h, fun _ => rfl, fun _ _ => by simp [enqueue], id, id⟩

/-- The publisher thread in its loop, the server, and the network. -/
theorem leaves_stopping {feed : Publisher} {broken : Bool} (hstop : feed.stopping = s.feed.stopping)
    (hpub : i ≠ .publisher → feed.pc = s.feed.pc ∧ feed.queue = s.feed.queue) :
    Leaves i s ⟨feed, broken, s.finished⟩ :=
  ⟨fun _ => hstop, fun hi => (hpub hi).1, fun hi hq => by rwa [(hpub hi).2],
    fun h => hstop.trans h, id⟩

/-! ## Steps of the publisher's model -/

/-- What a step of the loop on a batch leaves alone. -/
theorem connectStep_frame (p : Publisher) (batch : List Msg) (reconnects : Bool)
    (result : Connect) :
    (connectStep p batch reconnects result).stopping = p.stopping ∧
      (connectStep p batch reconnects result).queue = p.queue := by
  unfold connectStep
  split
  · split <;> exact ⟨rfl, rfl⟩
  · exact ⟨rfl, rfl⟩

theorem drainStep_frame {p p' : Publisher} {c : RedisContext} {batch : List Msg}
    {appended : ℕ} {pipelined k : ℤ} {e : Event}
    (h : drainStep p c batch appended pipelined k e = some p') :
    p'.stopping = p.stopping ∧ p'.queue = p.queue := by
  cases e with
  | reply =>
    simp only [drainStep, Option.ite_none_right_eq_some, Option.some.injEq] at h
    exact h.2 ▸ ⟨rfl, rfl⟩
  | lost =>
    simp only [drainStep, Option.ite_none_right_eq_some, Option.some.injEq] at h
    exact h.2 ▸ ⟨rfl, rfl⟩
  | finish =>
    simp only [drainStep, Option.ite_none_left_eq_some, Option.some.injEq] at h
    exact h.2 ▸ ⟨rfl, rfl⟩
  | _ => cases h

theorem executeStep_frame {p p' : Publisher} (h : executeStep p = some p') :
    p'.stopping = p.stopping ∧ p'.pc = p.pc ∧ p'.queue = p.queue := by
  unfold executeStep at h
  split at h
  · cases h
    exact ⟨rfl, rfl, rfl⟩
  · cases h

/-- The loop over the replies is the model's. -/
theorem drainStep_step {p p' : Publisher} {c : RedisContext} {batch : List Msg} {appended : ℕ}
    {pipelined k : ℤ} {e : Event} (hpc : p.pc = .draining batch appended pipelined k)
    (hctx : p.ctx = some c) (h : drainStep p c batch appended pipelined k e = some p') :
    RedisMarketData.Step p p' := by
  refine ⟨e, ?_⟩
  cases e with
  | reply => simpa [next, hpc, hctx] using h
  | lost => simpa [next, hpc, hctx] using h
  | finish => simpa [next, hpc, hctx] using h
  | _ => cases h

theorem wake_exit {p : Publisher} (hpc : p.pc = .waiting) (hq : p.queue = [])
    (hstop : p.stopping = true) : next p .wake = some { p with pc := .exited } := by
  simp [next, hpc, hq, hstop]

theorem wake_take {p : Publisher} (hpc : p.pc = .waiting) (hq : p.queue ≠ []) :
    next p .wake = some { p with pc := .taken p.queue, queue := [] } := by
  simp [next, hpc, hq]

/-- Where the loop goes on after a batch was appended, dropped, or found too long to count. -/
theorem connectStep_pc (p : Publisher) (batch : List Msg) (reconnects : Bool) (result : Connect) :
    (connectStep p batch reconnects result).pc = .waiting ∨
      ((connectStep p batch reconnects result).pc = .overflowed batch ∧
        appendAll 0 [] batch = none) ∨
      ∃ appended pipelined,
        (connectStep p batch reconnects result).pc = .draining batch appended pipelined 0 := by
  unfold connectStep
  split
  · split
    · exact .inr (.inl ⟨rfl, by assumption⟩)
    · exact .inr (.inr ⟨_, _, rfl⟩)
  · exact .inl rfl

theorem drainStep_pc {p p' : Publisher} {c : RedisContext} {batch : List Msg} {appended : ℕ}
    {pipelined k : ℤ} {e : Event} (h : drainStep p c batch appended pipelined k e = some p') :
    p'.pc = .waiting ∨ p'.pc = .draining batch appended pipelined (k + 1) := by
  cases e with
  | reply =>
    simp only [drainStep, Option.ite_none_right_eq_some, Option.some.injEq] at h
    exact .inr (h.2 ▸ rfl)
  | lost =>
    simp only [drainStep, Option.ite_none_right_eq_some, Option.some.injEq] at h
    exact .inl (h.2 ▸ rfl)
  | finish =>
    simp only [drainStep, Option.ite_none_left_eq_some, Option.some.injEq] at h
    exact .inl (h.2 ▸ rfl)
  | _ => cases h

@[simp] theorem resume_party (pc : PublisherPc) : (Pc.resume pc).party = .publisher := by
  cases pc <;> rfl

@[simp] theorem resume_feed? (pc : PublisherPc) : (Pc.resume pc).feed? = some pc := by
  cases pc <;> rfl

theorem stands_connected (s : Shared) (batch : List Msg) (reconnects : Bool) (result : Connect)
    (broken : Bool)
    (hlive : Reachable RedisMarketData.Step (initial store)
      (connectStep s.feed batch reconnects result)) :
    Stands store .publisher (.resume (connectStep s.feed batch reconnects result).pc)
      ⟨connectStep s.feed batch reconnects result, broken, s.finished⟩ := by
  refine ⟨by simp, hlive, by simp, ?_⟩
  rcases connectStep_pc s.feed batch reconnects result with hpc | ⟨hpc, hnone⟩ | ⟨_, _, hpc⟩
  · rw [hpc]
    trivial
  · rw [hpc]
    exact hnone
  · rw [hpc]
    trivial

theorem stands_drained {s : Shared} {p : Publisher} {c : RedisContext} {batch : List Msg}
    {appended : ℕ} {pipelined k : ℤ} {e : Event}
    (h : drainStep s.feed c batch appended pipelined k e = some p)
    (hlive : Reachable RedisMarketData.Step (initial store) p) :
    Stands store .publisher (.resume p.pc) { s with feed := p } := by
  refine ⟨by simp, hlive, by simp, ?_⟩
  rcases drainStep_pc h with hpc | hpc
  · rw [hpc]
    trivial
  · rw [hpc]
    trivial

theorem resume_outside {pc : PublisherPc} : (Pc.resume pc).holds = false := by
  cases pc <;> rfl

theorem verified (store : Store) (i : Party) (f : Pc) : (outline store).Verified i f (code f) := by
  cases f with
  | idle =>
    refine ⟨rfl, ?_⟩
    rintro k s hk ⟨hi, hlive, _, hstop⟩
    cases k <;> first | exact absurd hk id | exact ⟨rfl, .other rfl hi hlive hstop⟩
  | tradeLock trade now => exact ⟨rfl, rfl, fun s _ h => .other rfl h.party h.live h.knows⟩
  | bookLock hasBid bid hasAsk ask =>
    exact ⟨rfl, rfl, fun s _ h => .other rfl h.party h.live h.knows⟩
  | tradePush trade now =>
    refine ⟨rfl, ?_⟩
    rintro s ⟨rfl, hlive, _, hstop⟩
    have hcall : next s.feed (.onTrade trade now) = some (enqueue s.feed
        (.trade trade.buyOrderId trade.sellOrderId trade.price.val trade.quantity now)) :=
      if_neg (Bool.eq_false_iff.mp hstop)
    have hpushed := hlive.next trivial ⟨_, hcall⟩
    exact ⟨rfl, .other rfl rfl hpushed hstop, fun j hj m h => .keep (leaves_push _) hj hpushed h⟩
  | bookPush hasBid bid hasAsk ask =>
    refine ⟨rfl, ?_⟩
    rintro s ⟨rfl, hlive, _, hstop⟩
    have hcall : next s.feed (.onTopOfBook hasBid bid hasAsk ask) =
        some (enqueue s.feed (.book hasBid hasAsk bid ask)) :=
      if_neg (Bool.eq_false_iff.mp hstop)
    have hpushed := hlive.next trivial ⟨_, hcall⟩
    exact ⟨rfl, .other rfl rfl hpushed hstop, fun j hj m h => .keep (leaves_push _) hj hpushed h⟩
  | pushUnlock => exact ⟨rfl, rfl, fun s h => ⟨trivial, .other rfl h.party h.live h.knows⟩⟩
  | pushNotify =>
    refine ⟨rfl, fun s => ⟨fun hh => ?_, fun _ h => .other rfl h.party h.live h.knows⟩⟩
    cases hh
  | stopLock => exact ⟨rfl, rfl, fun s _ h => .other rfl h.party h.live h.knows⟩
  | stopSet =>
    refine ⟨rfl, ?_⟩
    rintro s ⟨rfl, hlive, _, _⟩
    have hstopped := hlive.next trivial ⟨.stop, rfl⟩
    refine ⟨rfl, .other rfl rfl hstopped rfl, fun j hj m h => ?_⟩
    have hleaves : Leaves .caller s { s with feed := { s.feed with stopping := true } } :=
      ⟨fun hi => absurd rfl hi, fun _ => rfl, fun _ h => h, fun _ => rfl, id⟩
    exact .keep hleaves hj hstopped h
  | stopUnlock => exact ⟨rfl, rfl, fun s h => ⟨trivial, .other rfl h.party h.live h.knows⟩⟩
  | stopNotify =>
    refine ⟨rfl, fun s => ⟨fun hh => ?_, fun _ h => .other rfl h.party h.live h.knows⟩⟩
    cases hh
  | join =>
    refine ⟨rfl, ?_⟩
    rintro s s' k ⟨_, rfl, rfl⟩ h
    exact ⟨rfl, .other rfl h.party h.live h.knows, unnoticed leaves_self h.live⟩
  | destroyed => exact ⟨rfl, fun k s hk => absurd hk id⟩
  | workLock => exact ⟨rfl, rfl, fun s _ h => ⟨h.party, h.live, h.feed, trivial⟩⟩
  | workWait =>
    refine ⟨rfl, rfl, fun s _ h => h, fun s h => ⟨fun hp => ?_, fun _ => ⟨trivial, h⟩⟩⟩
    exact ⟨h.party, h.live, h.feed, hp⟩
  | workTest =>
    refine ⟨rfl, ?_⟩
    rintro s ⟨rfl, hlive, hfeed, hready⟩
    have hpc : s.feed.pc = .waiting := hfeed _ rfl
    by_cases hgo : (s.feed.stopping && s.feed.queue.isEmpty) = true
    · simp only [hgo, if_true]
      simp only [Bool.and_eq_true, List.isEmpty_iff] at hgo
      have hexit := hlive.next trivial ⟨.wake, wake_exit hpc hgo.2 hgo.1⟩
      have hleaves : Leaves .publisher s { s with feed := { s.feed with pc := .exited } } :=
        ⟨fun _ => rfl, fun hi => absurd rfl hi, fun _ h => h, id, id⟩
      exact ⟨rfl, ⟨rfl, hexit, by simp [Pc.feed?], trivial⟩, fun j hj m h => .keep hleaves hj hexit h⟩
    · simp only [hgo]
      have hne : s.feed.queue ≠ [] := by
        simp only [Pc.knows, ready, Bool.or_eq_true, Bool.not_eq_true', List.isEmpty_eq_false_iff]
          at hready
        rcases hready with hq | hstop
        · exact hq
        · simpa [hstop] using hgo
      exact ⟨rfl, ⟨rfl, hlive, hfeed, hne⟩, fun j _ m h => h⟩
  | swap =>
    refine ⟨rfl, ?_⟩
    rintro s ⟨rfl, hlive, hfeed, hq⟩
    have htaken := hlive.next trivial ⟨.wake, wake_take (hfeed _ rfl) hq⟩
    have hleaves : Leaves .publisher s
        { s with feed := { s.feed with pc := .taken s.feed.queue, queue := [] } } :=
      ⟨fun _ => rfl, fun hi => absurd rfl hi, fun hi => absurd rfl hi, id, id⟩
    exact ⟨rfl, ⟨rfl, htaken, by simp [Pc.feed?], trivial⟩, fun j hj m h => .keep hleaves hj htaken h⟩
  | swapUnlock batch => exact ⟨rfl, rfl, fun s h => ⟨trivial, h.party, h.live, h.feed, trivial⟩⟩
  | connect batch =>
    refine ⟨rfl, ?_⟩
    rintro s s' k ⟨reconnects, result, rfl, rfl⟩ ⟨rfl, hlive, hfeed, _⟩
    have hpc : s.feed.pc = .taken batch := hfeed _ rfl
    have hstep : next s.feed (.connect reconnects result) =
        some (connectStep s.feed batch reconnects result) := by
      simp [next, hpc]
    have hnext := hlive.next trivial ⟨_, hstep⟩
    refine ⟨resume_outside, stands_connected s batch reconnects result _ hnext, ?_⟩
    exact unnoticed (leaves_stopping (connectStep_frame _ _ _ _).1 fun hi => absurd rfl hi) hnext
  | overflowed batch => exact ⟨rfl, fun k s hk => absurd hk id⟩
  | read batch appended pipelined k =>
    refine ⟨rfl, ?_⟩
    rintro s s' k' ⟨e, c, feed, hctx, _, hdrain, rfl, rfl⟩ ⟨rfl, hlive, hfeed, _⟩
    have hnext := hlive.next trivial (drainStep_step (hfeed _ rfl) hctx hdrain)
    refine ⟨resume_outside, stands_drained hdrain hnext, ?_⟩
    exact unnoticed (leaves_stopping (drainStep_frame hdrain).1 fun hi => absurd rfl hi) hnext
  | exitUnlock => exact ⟨rfl, rfl, fun s h => ⟨trivial, h.party, h.live, h.feed, trivial⟩⟩
  | exit =>
    refine ⟨rfl, ?_⟩
    rintro s s' k ⟨rfl, rfl⟩ h
    refine ⟨rfl, ⟨h.party, h.live, h.feed, rfl⟩, unnoticed ?_ h.live⟩
    exact ⟨fun _ => rfl, fun _ => rfl, fun _ h => h, id, fun _ => rfl⟩
  | exited => exact ⟨rfl, fun k s hk => absurd hk id⟩
  | serve =>
    refine ⟨rfl, ?_⟩
    rintro s s' k ⟨_, feed, hserved, rfl, rfl⟩ ⟨rfl, hlive, _, _⟩
    have hnext := hlive.next trivial ⟨.execute, hserved⟩
    obtain ⟨hstop, hpc, hq⟩ := executeStep_frame hserved
    refine ⟨rfl, .other rfl rfl hnext trivial, ?_⟩
    exact unnoticed (leaves_stopping hstop fun _ => ⟨hpc, hq⟩) hnext
  | link =>
    refine ⟨rfl, ?_⟩
    rintro k s rfl h
    exact ⟨rfl, .other rfl h.party h.live trivial⟩
  | breaking =>
    refine ⟨rfl, ?_⟩
    rintro s s' k ⟨rfl, rfl⟩ h
    refine ⟨rfl, .other rfl h.party h.live trivial, unnoticed ?_ h.live⟩
    exact leaves_stopping rfl fun _ => ⟨rfl, rfl⟩

theorem constructed_outline (store : Store) (i : Party) :
    (outline store).holds i.begins = false ∧
      (outline store).away i i.begins ⟨initial store, false, false⟩ := by
  cases i
  · exact ⟨rfl, .other rfl rfl .initial rfl⟩
  · exact ⟨rfl, rfl, .initial, by simp [Party.begins, Pc.feed?, initial], trivial⟩
  · exact ⟨rfl, .other rfl rfl .initial trivial⟩
  · exact ⟨rfl, .other rfl rfl .initial trivial⟩

theorem reachable_outline {s : Threads}
    (h : Reachable (Monitor.Step fun _ => code) (constructed store) s) :
    (outline store).Sound (fun _ => code) s :=
  Outline.reachable_sound (verified store) trivial (constructed_outline store) h

/-- With or without the mutex, every party stands by its assertion. -/
theorem everywhere {code' : Party → Pc → Instr Pc Shared Unit} {s : Threads}
    (h : (outline store).Sound code' s) (i : Party) :
    Stands store i (s.thread i).place s.shared := by
  have hst := h.stands i
  generalize s.thread i = t at hst
  cases hst with
  | inside _ _ hheld => exact hheld
  | outside _ _ haway => exact haway
  | parked _ _ _ haway => exact haway

/-! ## Sleeping and waking -/

/-- Only the publisher thread waits. -/
theorem wait_place {f k : Pc} {c : Unit} {p : Shared → Bool} (h : code f = .wait c p k) :
    f = .workWait := by
  cases f <;> simp only [code, reduceCtorEq] at h
  rfl

def Pc.owes : Pc → ℕ∞
  | .pushUnlock | .pushNotify | .stopUnlock | .stopNotify => 1
  | f => if f.party = .publisher then 1 else 0

/-- The publisher thread answers for its queue while it is awake. -/
def signals : Signals Pc Shared := .single ready Pc.owes

theorem owes_resume (pc : PublisherPc) : (Pc.resume pc).owes = 1 := by
  cases pc <;> rfl

theorem ready_congr (s s' : Shared) (hstop : s'.feed.stopping = s.feed.stopping)
    (hqueue : s'.feed.queue = s.feed.queue) (h : ready s' = true) : ready s = true := by
  rwa [ready, hstop, hqueue] at h

theorem kept (store : Store) (i : Party) (f : Pc) :
    signals.Kept (outline store) (fun _ => code) () i f (code f) := by
  cases f with
  | idle => exact fun k _ => bot_le
  | tradePush trade now => exact ⟨ENat.zero_ne_top, fun s _ => single_answered rfl bot_le (.inr rfl)⟩
  | bookPush hasBid bid hasAsk ask =>
    exact ⟨ENat.zero_ne_top, fun s _ => single_answered rfl bot_le (.inr rfl)⟩
  | pushNotify => exact ⟨fun _ j w p k hw => wait_place hw ▸ le_add_self, fun hc => absurd rfl hc⟩
  | stopSet => exact ⟨ENat.zero_ne_top, fun s _ => single_answered rfl bot_le (.inr rfl)⟩
  | stopNotify => exact fun hc => absurd rfl hc
  | join =>
    rintro s s' k ⟨_, rfl, rfl⟩ _
    exact ⟨bot_le, le_rfl, fun m hd => hd⟩
  | destroyed => exact fun k hk => absurd hk id
  | workWait => exact single_wait le_rfl
  | workTest =>
    refine ⟨ENat.one_ne_top, fun s _ => ?_⟩
    by_cases hgo : (s.feed.stopping && s.feed.queue.isEmpty) = true
    · simp only [hgo, if_true]
      exact single_idle le_rfl id
    · simp only [hgo]
      exact single_idle le_rfl id
  | swap =>
    refine ⟨ENat.one_ne_top, fun s _ => single_answered rfl le_rfl (.inl fun h => ?_)⟩
    simp only [ready, List.isEmpty_nil, Bool.not_true, Bool.false_or] at h
    simp [ready, h]
  | connect batch =>
    rintro s s' k ⟨reconnects, result, rfl, rfl⟩ _
    obtain ⟨hstop, hqueue⟩ := connectStep_frame s.feed batch reconnects result
    have hmono := ready_congr s ⟨_, s.broken && up s.feed.ctx, s.finished⟩ hstop hqueue
    exact ⟨(owes_resume _).ge, single_cap_mono hmono, fun m hd => hmono hd⟩
  | overflowed batch => exact fun k hk => absurd hk id
  | read batch appended pipelined k =>
    rintro s s' k' ⟨e, c, feed, _, _, hdrain, rfl, rfl⟩ _
    obtain ⟨hstop, hqueue⟩ := drainStep_frame hdrain
    have hmono := ready_congr s { s with feed := feed } hstop hqueue
    exact ⟨(owes_resume _).ge, single_cap_mono hmono, fun m hd => hmono hd⟩
  | exit =>
    rintro s s' k ⟨rfl, rfl⟩ _
    exact ⟨le_rfl, le_rfl, fun m hd => hd⟩
  | exited => exact fun k hk => absurd hk id
  | serve =>
    rintro s s' k ⟨_, feed, hserved, rfl, rfl⟩ _
    obtain ⟨hstop, _, hqueue⟩ := executeStep_frame hserved
    have hmono := ready_congr s { s with feed := feed } hstop hqueue
    exact ⟨le_rfl, single_cap_mono hmono, fun m hd => hmono hd⟩
  | link => exact fun k _ => bot_le
  | breaking =>
    rintro s s' k ⟨rfl, rfl⟩ _
    exact ⟨le_rfl, le_rfl, fun m hd => hd⟩
  | tradeLock trade now => exact bot_le
  | bookLock hasBid bid hasAsk ask => exact bot_le
  | pushUnlock => exact le_rfl
  | stopLock => exact bot_le
  | stopUnlock => exact le_rfl
  | workLock => exact le_rfl
  | swapUnlock batch => exact le_rfl
  | exitUnlock => exact le_rfl

/-! ## Ranking -/

/-- What a live connection has still to carry: commands and replies. -/
def traffic : Option RedisContext → ℕ
  | some ⟨false, inFlight, replies⟩ => 2 * inFlight.length + replies
  | _ => 0

/-- A batch costs a round of the loop, and three commands and replies for each message. -/
def Pc.rank : Pc → ℕ
  | .idle => 0
  | .tradeLock _ _ | .bookLock _ _ _ _ => 26
  | .tradePush _ _ | .bookPush _ _ _ _ => 25
  | .pushUnlock => 8
  | .pushNotify => 7
  | .stopLock => 29
  | .stopSet => 28
  | .stopUnlock => 27
  | .stopNotify => 26
  | .join => 1
  | .destroyed => 0
  | .workLock => 6
  | .workWait => 5
  | .workTest => 4
  | .swap => 3
  | .swapUnlock batch => 6 * batch.length + 9
  | .connect batch => 6 * batch.length + 8
  | .overflowed _ => 0
  | .read _ _ _ _ => 7
  | .exitUnlock => 2
  | .exit => 1
  | .exited => 0
  | .serve => 0
  | .link => 0
  | .breaking => 1

def ranking : Ranking Pc Shared where
  rank := Pc.rank
  work s := 16 * s.feed.queue.length + traffic s.feed.ctx

theorem traffic_up {c : RedisContext} (h : c.err = false) :
    traffic (some c) = 2 * c.inFlight.length + c.replies := by
  obtain ⟨err, inFlight, replies⟩ := c
  cases h
  rfl

theorem traffic_down {ctx : Option RedisContext} (h : ∀ c, ctx = some c → c.err = true) :
    traffic ctx = 0 := by
  cases ctx with
  | none => rfl
  | some c =>
    obtain ⟨err, inFlight, replies⟩ := c
    cases (h _ rfl : err = true)
    rfl

/-- Appending a batch pays for its commands and their replies. -/
theorem connectStep_descends (p : Publisher) (batch : List Msg) (reconnects : Bool)
    (result : Connect) :
    (Pc.resume (connectStep p batch reconnects result).pc).rank +
        traffic (connectStep p batch reconnects result).ctx <
      (Pc.connect batch).rank + traffic p.ctx := by
  cases he : ensureConnected p.ctx reconnects result with
  | mk ctx ok =>
    rcases ensureConnected_cases he with ⟨rfl, c, rfl, herr, hc⟩ | ⟨rfl, hctx⟩
    · have hold : traffic (some c) ≤ traffic p.ctx := by
        rcases hc with hc | rfl
        · rw [hc]
        · exact Nat.zero_le _
      cases ha : appendAll 0 [] batch with
      | none =>
        simp only [connectStep, he, ha, Pc.resume, Pc.rank]
        omega
      | some appended =>
        obtain ⟨pipelined, out⟩ := appended
        have hout := (appendAll_eq ha).1
        have hlen : out.length = 3 * batch.length := by
          rw [hout, List.nil_append, length_stream]
        rw [traffic_up herr] at hold
        simp only [connectStep, he, ha, Pc.resume, Pc.rank]
        rw [traffic_up (by exact herr), List.length_append, hlen]
        simp only
        omega
    · have hdown := traffic_down hctx
      cases ctx with
      | none =>
        simp only [connectStep, he, Pc.resume, Pc.rank]
        omega
      | some c =>
        simp only [connectStep, he, Pc.resume, Pc.rank]
        omega

/-- A reply that is read was on its way. -/
theorem drainStep_descends {p p' : Publisher} {c : RedisContext} {batch : List Msg} {appended : ℕ}
    {pipelined k : ℤ} {e : Event} (hctx : p.ctx = some c) (hup : c.err = false)
    (h : drainStep p c batch appended pipelined k e = some p') :
    (Pc.resume p'.pc).rank + traffic p'.ctx <
      (Pc.read batch appended pipelined k).rank + traffic p.ctx := by
  cases e with
  | reply =>
    simp only [drainStep, Option.ite_none_right_eq_some, Option.some.injEq] at h
    obtain ⟨⟨_, hr⟩, rfl⟩ := h
    rw [hctx, traffic_up hup]
    simp only [Pc.resume, Pc.rank]
    rw [traffic_up (by exact hup)]
    simp only
    omega
  | lost =>
    simp only [drainStep, Option.ite_none_right_eq_some, Option.some.injEq] at h
    obtain ⟨_, rfl⟩ := h
    simp only [Pc.resume, Pc.rank, traffic]
    omega
  | finish =>
    simp only [drainStep, Option.ite_none_left_eq_some, Option.some.injEq] at h
    obtain ⟨_, rfl⟩ := h
    simp only [Pc.resume, Pc.rank]
    omega
  | _ => cases h

theorem executeStep_traffic {p p' : Publisher} (h : executeStep p = some p') :
    traffic p'.ctx + 1 = traffic p.ctx := by
  unfold executeStep at h
  split at h
  · rename_i cmd rest replies hctx
    cases h
    rw [hctx]
    simp only [traffic, List.length_cons]
    omega
  · cases h

/-- While replies are read the connection has shown no error. -/
theorem up_of_draining {p : Publisher} {c : RedisContext} {batch : List Msg} {appended : ℕ}
    {pipelined k : ℤ} (hlive : Reachable RedisMarketData.Step (initial store) p)
    (hpc : p.pc = .draining batch appended pipelined k) (hctx : p.ctx = some c) :
    ∃ done, Draining c batch appended pipelined k done := by
  obtain ⟨_, done, hd, _⟩ := of_draining (reachable_invariant hlive) hpc hctx
  exact ⟨done, hd⟩

theorem descends (store : Store) (i : Party) (f : Pc) :
    ranking.Descends (outline store) (fun _ => code) i f (code f) := by
  cases f with
  | idle => trivial
  | destroyed => trivial
  | overflowed batch => trivial
  | exited => trivial
  | link => trivial
  | tradePush trade now =>
    intro s _
    simp only [ranking, Pc.rank, enqueue, List.length_append, List.length_singleton]
    omega
  | bookPush hasBid bid hasAsk ask =>
    intro s _
    simp only [ranking, Pc.rank, enqueue, List.length_append, List.length_singleton]
    omega
  | pushNotify =>
    refine ⟨by simp [ranking, Pc.rank], fun j w p k hw => ?_⟩
    rw [wait_place hw]
    simp [ranking, Pc.rank]
  | stopSet => exact fun s _ => by simp [ranking, Pc.rank]
  | stopNotify =>
    refine ⟨6, fun j w p k hw => ?_, ?_⟩
    · rw [wait_place hw]
      simp [ranking, Pc.rank]
    · have hcard : Fintype.card Party = 4 := rfl
      simp [ranking, Pc.rank, hcard]
  | join =>
    rintro s s' k ⟨_, rfl, rfl⟩ _
    simp [ranking, Pc.rank]
  | workTest =>
    intro s _
    by_cases hgo : (s.feed.stopping && s.feed.queue.isEmpty) = true
    · simp [ranking, hgo, Pc.rank]
    · simp [ranking, hgo, Pc.rank]
  | swap =>
    intro s h
    have hne : 0 < s.feed.queue.length := List.length_pos_iff.mpr h.knows
    simp only [ranking, Pc.rank, List.length_nil]
    omega
  | connect batch =>
    rintro s s' k ⟨reconnects, result, rfl, rfl⟩ _
    have hlt := connectStep_descends s.feed batch reconnects result
    have hqueue := (connectStep_frame s.feed batch reconnects result).2
    simp only [ranking, hqueue]
    omega
  | read batch appended pipelined k =>
    rintro s s' k' ⟨e, c, feed, hctx, _, hdrain, rfl, rfl⟩ h
    obtain ⟨_, hd⟩ := up_of_draining h.live (h.feed _ rfl) hctx
    have hlt := drainStep_descends hctx hd.up hdrain
    have hqueue := (drainStep_frame hdrain).2
    simp only [ranking, hqueue]
    omega
  | exit =>
    rintro s s' k ⟨rfl, rfl⟩ _
    simp [ranking, Pc.rank]
  | serve =>
    rintro s s' k ⟨_, feed, hserved, rfl, rfl⟩ _
    have hless := executeStep_traffic hserved
    have hqueue := (executeStep_frame hserved).2.2
    simp only [ranking, hqueue]
    omega
  | breaking =>
    rintro s s' k ⟨rfl, rfl⟩ _
    simp [ranking, Pc.rank]
  | tradeLock trade now => exact Nat.lt_succ_self _
  | bookLock hasBid bid hasAsk ask => exact Nat.lt_succ_self _
  | pushUnlock => exact Nat.lt_succ_self 7
  | stopLock => exact Nat.lt_succ_self 28
  | stopUnlock => exact Nat.lt_succ_self 26
  | workLock => exact Nat.lt_succ_self 5
  | workWait => exact Nat.lt_succ_self 4
  | swapUnlock batch => exact Nat.lt_succ_self _
  | exitUnlock => exact Nat.lt_succ_self 1

/-! ## Where the parties come to rest -/

section Resting

variable {shared : Shared} {t : Thread Pc Unit}

/-- A thread that makes calls can only be left in the destructor, at `join()`. -/
theorem caller_still {program : Pc → Instr Pc Shared Unit}
    (hprogram : ∀ f, f.party = .caller → program f = code f) (hparty : t.place.party = .caller)
    (h : Still (fun _ => program) shared i t) :
    t = ⟨.idle, .running⟩ ∨ t = ⟨.destroyed, .running⟩ ∨
      (t = ⟨.join, .running⟩ ∧ shared.finished = false) := by
  cases h with
  | @idle f calls hc =>
    rw [hprogram f hparty] at hc
    cases f <;> simp [code, Pc.party] at hc hparty ⊢
  | @disabled f g hc hg =>
    rw [hprogram f hparty] at hc
    cases f <;> simp only [code, Instr.act.injEq, reduceCtorEq, Pc.party] at hc hparty
    subst hc
    refine .inr (.inr ⟨rfl, ?_⟩)
    cases hfin : shared.finished
    · rfl
    · exact absurd ⟨hfin, rfl, rfl⟩ (hg shared .destroyed)
  | @asleep f k cv p hw =>
    rw [hprogram f hparty] at hw
    rw [wait_place hw] at hparty
    cases hparty

end Resting

variable {s : Threads}

/-- A caller that has put its message on the queue and has not yet notified. -/
def pushing (store : Store) : Threads where
  shared := ⟨enqueue (initial store) (.book false false .zero .zero), false, false⟩
  holder := none
  thread
    | .caller => ⟨.pushNotify, .running⟩
    | .publisher => ⟨.workWait, .asleep ()⟩
    | .server => ⟨.serve, .running⟩
    | .network => ⟨.link, .running⟩

theorem pushing_reachable (store : Store) :
    Reachable (Monitor.Step fun _ => code) (constructed store) (pushing store) := by
  have h₀ : Reachable (Monitor.Step fun _ => code) (constructed store) (constructed store) :=
    .initial
  have h₁ := h₀.next trivial (.quiet (.lock (i := .publisher) rfl rfl rfl))
  have h₂ := h₁.next trivial (.quiet (.park (i := .publisher) rfl rfl rfl))
  have h₃ := h₂.next trivial
    (.call (i := .caller) (k := .bookLock false .zero false .zero) rfl rfl (by exact trivial))
  have h₄ := h₃.next trivial (.quiet (.lock (i := .caller) rfl rfl rfl))
  have h₅ := h₄.next trivial (.quiet (.access (i := .caller) rfl rfl))
  have h₆ := h₅.next trivial (.quiet (.unlock (i := .caller) rfl rfl))
  convert h₆ using 1
  refine congrArg (State.mk _ _) ?_
  funext i
  cases i <;> rfl

/-- The code while every statement that needs the server or the network stands still. -/
def offline : Pc → Instr Pc Shared Unit
  | .connect _ | .read _ _ _ _ | .serve | .breaking => .idle fun _ => False
  | f => code f

theorem offline_wait {f k : Pc} {c : Unit} {p : Shared → Bool} :
    offline f = .wait c p k ↔ code f = .wait c p k := by
  cases f <;> simp [offline, code]

theorem offline_verified (store : Store) (i : Party) (f : Pc) :
    (outline store).Verified i f (offline f) := by
  cases f with
  | connect batch => exact ⟨rfl, fun k s hk => absurd hk id⟩
  | read batch appended pipelined k => exact ⟨rfl, fun k s hk => absurd hk id⟩
  | serve => exact ⟨rfl, fun k s hk => absurd hk id⟩
  | breaking => exact ⟨rfl, fun k s hk => absurd hk id⟩
  | _ => exact verified store i _

theorem offline_descends (store : Store) (i : Party) (f : Pc) :
    ranking.Descends (outline store) (fun _ => offline) i f (offline f) := by
  have hfull : ranking.Descends (outline store) (fun _ => code) i f (offline f) := by
    cases f with
    | connect batch => trivial
    | read batch appended pipelined k => trivial
    | serve => trivial
    | breaking => trivial
    | _ => exact descends store i _
  exact hfull.recode fun j m cv p k hw => offline_wait.mp hw

/-- The matching thread never waits for Redis. From wherever the threads are, let the server, the
network and the publisher's dealings with them stand still: every schedule of the rest comes to an
end, and where it does each `onTrade` and `onTopOfBook` has returned. Only the destructor is left
to wait, for the publisher thread to finish. -/
theorem calls_never_wait (store : Store) (s : Threads)
    (h : Reachable (Monitor.Step fun _ => code) (constructed store) s) :
    (∃ bound, ∀ (run : ℕ → Threads) (n : ℕ), run 0 = s →
      (∀ k < n, Quiet (fun _ => offline) (run k) (run (k + 1))) → n ≤ bound) ∧
      ∀ s', Reachable (Quiet fun _ => offline) s s' → Stuck (fun _ => offline) s' →
        s'.thread .caller = ⟨.idle, .running⟩ ∨ s'.thread .caller = ⟨.destroyed, .running⟩ ∨
          (s'.thread .caller = ⟨.join, .running⟩ ∧ s'.shared.finished = false) := by
  have hsound : (outline store).Sound (fun _ => offline) s :=
    (reachable_outline h).recode fun _ _ _ _ _ hw => offline_wait.mpr hw
  refine ⟨⟨ranking.total s, fun run n h₀ hrun => ?_⟩, fun s' hq hstuck => ?_⟩
  · subst h₀
    exact Ranking.run_length_le (offline_verified store) (offline_descends store) hsound hrun
  have hsound' : (outline store).Sound (fun _ => offline) s' :=
    hq.invariant hsound fun _ _ hs _ hstep => hs.quiet (offline_verified store) hstep
  refine caller_still (fun f hf => ?_) (everywhere hsound' .caller).party
    (hstuck.still (offline_verified store) hsound' .caller)
  cases f <;> first | rfl | cases hf

theorem calls_never_wait_pushing :
    ∃ bound, ∀ (run : ℕ → Threads) (n : ℕ), run 0 = pushing (fun _ => none) →
      (∀ k < n, Quiet (fun _ => offline) (run k) (run (k + 1))) → n ≤ bound :=
  (calls_never_wait _ _ (pushing_reachable fun _ => none)).1

end PublisherMonitor
