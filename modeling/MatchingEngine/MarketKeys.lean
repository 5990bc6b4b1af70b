import Mathlib
import MatchingEngine.RedisPublisher

/-! # The keys and the counter of the trades

What `md:last_price` and `md:trade_count` hold after any failures, how far the three commands
of a trade can come apart, and what `commandsSent_` counts. -/
namespace MarketKeys

open EngineTypes
open Orders
open Transitions
open BatchLog
open RedisMarketData
open RedisPublisher

/-! ## The commands of a trade -/

/-- The payload that a command publishes on the channel of the trades. -/
def published : RedisCommand → Option String
  | .publish channel payload => if channel = "md:trades" then some payload else none
  | _ => none

/-- The price that a command leaves as the last one. -/
def priced : RedisCommand → Option String
  | .set key value => if key = "md:last_price" then some value else none
  | _ => none

/-- The command counts a trade. -/
def counted : RedisCommand → Bool
  | .incr key => key = "md:trade_count"
  | _ => false

/-- The commands that a message can have. -/
inductive Ours : RedisCommand → Prop
  | publish (channel payload : String) : Ours (.publish channel payload)
  | last (value : String) : Ours (.set "md:last_price" value)
  | count : Ours (.incr "md:trade_count")
  | bid (has : Bool) (price : Double) : Ours (cacheSide "md:best_bid" has price)
  | ask (has : Bool) (price : Double) : Ours (cacheSide "md:best_ask" has price)

theorem commands_ours (m : Msg) : ∀ cmd ∈ m.commands, Ours cmd := by
  cases m with
  | trade buyId sellId price quantity epochNanos =>
    simp only [Msg.commands, List.forall_mem_cons, List.not_mem_nil, false_implies, implies_true,
      and_true]
    exact ⟨.publish _ _, .last _, .count⟩
  | book hasBid hasAsk bid ask =>
    simp only [Msg.commands, List.forall_mem_cons, List.not_mem_nil, false_implies, implies_true,
      and_true]
    exact ⟨.bid _ _, .ask _ _, .publish _ _⟩

theorem keyOf_of_not_priced {cmd : RedisCommand} (h : Ours cmd) (hp : priced cmd = none) :
    keyOf cmd ≠ some "md:last_price" := by
  cases h with
  | publish channel payload => exact nofun
  | last value => simp [priced] at hp
  | count => simp [keyOf]
  | bid has price =>
    rw [keyOf_cacheSide]
    decide
  | ask has price =>
    rw [keyOf_cacheSide]
    decide

theorem keyOf_of_not_counted {cmd : RedisCommand} (h : Ours cmd) (hc : counted cmd = false) :
    keyOf cmd ≠ some "md:trade_count" := by
  cases h with
  | publish channel payload => exact nofun
  | last value => simp [keyOf]
  | count => simp [counted] at hc
  | bid has price =>
    rw [keyOf_cacheSide]
    decide
  | ask has price =>
    rw [keyOf_cacheSide]
    decide

/-! ## The last price -/

/-- The last price that was set, or what the key held before. -/
theorem lastPrice_foldl {cmds : List RedisCommand} (h : ∀ cmd ∈ cmds, Ours cmd) (store : Store) :
    cmds.foldl perform store "md:last_price" =
      (cmds.filterMap priced).getLast?.or (store "md:last_price") := by
  induction cmds using List.reverseRecOn with
  | nil => rfl
  | append_singleton cmds cmd ih =>
    have hcmd := h cmd (by simp)
    have hrest := ih fun c hc => h c (List.mem_append_left _ hc)
    rw [List.foldl_append, List.foldl_cons, List.foldl_nil, List.filterMap_append]
    cases hp : priced cmd with
    | none =>
      rw [perform_other (keyOf_of_not_priced hcmd hp), hrest]
      simp [hp]
    | some value =>
      have hset : cmd = .set "md:last_price" value := by
        cases cmd <;> simp [priced] at hp
        obtain ⟨rfl, rfl⟩ := hp
        rfl
      simp [hset, perform, priced]

/-! ## The counter -/

/-- The key counts `n`, as `INCR` reads it. -/
def Counts (value : Option String) (n : ℤ) : Prop :=
  value = none ∧ n = 0 ∨ value = some (toString n)

theorem counts_incremented {value : Option String} {n : ℤ} (h : Counts value n)
    (hn : n + 1 < 2 ^ 63) : Counts (incremented value) (n + 1) := by
  rcases h with ⟨rfl, rfl⟩ | rfl
  · exact .inr rfl
  · have hread : (toString n).toInt? = some n := Int.toInt?_repr n
    simp only [incremented, hread, true_and, if_pos hn]
    exact .inr rfl

theorem counts_foldl {cmds : List RedisCommand} {store : Store} {n : ℤ}
    (h : ∀ cmd ∈ cmds, Ours cmd) (hn : Counts (store "md:trade_count") n)
    (hfew : n + cmds.countP counted < 2 ^ 63) :
    Counts (cmds.foldl perform store "md:trade_count") (n + cmds.countP counted) := by
  induction cmds using List.reverseRecOn with
  | nil => simpa using hn
  | append_singleton cmds cmd ih =>
    have hcmd := h cmd (by simp)
    rw [List.countP_append, List.countP_singleton] at hfew ⊢
    have hrest := ih (fun c hc => h c (List.mem_append_left _ hc)) (by push_cast at hfew; omega)
    rw [List.foldl_append, List.foldl_cons, List.foldl_nil]
    cases hc : counted cmd with
    | false =>
      rw [perform_other (keyOf_of_not_counted hcmd hc)]
      simpa using hrest
    | true =>
      have hincr : cmd = .incr "md:trade_count" := by
        cases cmd <;> simp [counted] at hc
        exact congrArg _ hc
      rw [hc] at hfew
      simp only [if_true, Nat.cast_add, Nat.cast_one, ← add_assoc] at hfew ⊢
      rw [hincr]
      simp only [perform, Function.update_self]
      exact counts_incremented hrest hfew

/-! ## How far the commands of a trade come apart -/

/-- Of a sequence of commands: trades announced, prices set, trades counted. -/
def tally (cmds : List RedisCommand) : ℕ × ℕ × ℕ :=
  (cmds.countP fun c => (published c).isSome, cmds.countP fun c => (priced c).isSome,
    cmds.countP counted)

theorem tally_append (cmds cmds' : List RedisCommand) :
    tally (cmds ++ cmds') = tally cmds + tally cmds' := by
  simp [tally]

/-- Counted, priced and announced in this order, with at most `apart` between the two ends. -/
def InStep (apart : ℕ) (n : ℕ × ℕ × ℕ) : Prop :=
  n.2.2 ≤ n.2.1 ∧ n.2.1 ≤ n.1 ∧ n.1 ≤ n.2.2 + apart

theorem InStep.add {d e : ℕ} {m n : ℕ × ℕ × ℕ} (hm : InStep d m) (hn : InStep e n) :
    InStep (d + e) (m + n) := by
  obtain ⟨h₁, h₂, h₃⟩ := hm
  obtain ⟨h₄, h₅, h₆⟩ := hn
  refine ⟨Nat.add_le_add h₁ h₄, Nat.add_le_add h₂ h₅, ?_⟩
  change m.1 + n.1 ≤ m.2.2 + n.2.2 + (d + e)
  omega

theorem inStep_commands (m : Msg) : InStep 0 (tally m.commands) := by
  cases m with
  | trade buyId sellId price quantity epochNanos =>
    simp [InStep, tally, Msg.commands, published, priced, counted]
  | book hasBid hasAsk bid ask =>
    cases hasBid <;> cases hasAsk <;>
      simp [InStep, tally, Msg.commands, cacheSide, published, priced, counted]

theorem inStep_stream (msgs : List Msg) : InStep 0 (tally (stream msgs)) := by
  induction msgs with
  | nil => exact ⟨le_rfl, le_rfl, Nat.zero_le _⟩
  | cons m msgs ih =>
    rw [stream, List.flatMap_cons, tally_append]
    exact (inStep_commands m).add ih

theorem inStep_take_commands (m : Msg) {k : ℕ} (hk : k < 3) :
    InStep 1 (tally (m.commands.take k)) := by
  cases m with
  | trade buyId sellId price quantity epochNanos =>
    interval_cases k <;> simp [InStep, tally, Msg.commands, published, priced, counted]
  | book hasBid hasAsk bid ask =>
    interval_cases k <;> cases hasBid <;> cases hasAsk <;>
      simp [InStep, tally, Msg.commands, cacheSide, published, priced, counted]

/-- A batch that is cut leaves at most one trade behind with some of its commands. -/
theorem inStep_take (msgs : List Msg) (k : ℕ) : InStep 1 (tally ((stream msgs).take k)) := by
  induction msgs generalizing k with
  | nil => simp [stream, InStep, tally]
  | cons m msgs ih =>
    rw [stream, List.flatMap_cons, List.take_append, tally_append, length_commands]
    by_cases hk : k < 3
    · rw [Nat.sub_eq_zero_of_le hk.le, List.take_zero]
      exact inStep_take_commands m hk
    · rw [List.take_of_length_le (by rw [length_commands]; omega)]
      have hsum := (inStep_commands m).add (ih (k - 3))
      rwa [zero_add] at hsum

variable {store₀ : Store} {s s' : Publisher}

/-- Batches that were, or may still be, cut in the middle. -/
def cut (as : List Attempt) : ℕ :=
  as.countP fun a => a.outcome = .broke ∨ a.outcome = .draining

theorem inStep_attempts {as : List Attempt} (h : ∀ a ∈ as, Accounted a) :
    InStep (cut as) (tally (executedOf as)) := by
  induction as with
  | nil => exact ⟨le_rfl, le_rfl, Nat.zero_le _⟩
  | cons a as ih =>
    have ha := h a List.mem_cons_self
    have hrest := ih fun a' ha' => h a' (List.mem_cons_of_mem _ ha')
    have hsplit : executedOf (a :: as) = (stream a.msgs).take a.executed ++ executedOf as := by
      rw [← List.singleton_append, executedOf, cutShort_append, cutShort_singleton]
      rfl
    rw [hsplit, tally_append, cut, List.countP_cons, Nat.add_comm]
    refine InStep.add ?_ hrest
    cases ho : a.outcome with
    | dropped =>
      rw [ha.dropped ho]
      exact ⟨le_rfl, le_rfl, Nat.zero_le _⟩
    | sent =>
      rw [(ha.sent ho).2, ha.appended (by rw [ho]; decide), List.take_length]
      exact inStep_stream a.msgs
    | broke => exact inStep_take a.msgs a.executed
    | draining => exact inStep_take a.msgs a.executed

theorem mem_current {pc : PublisherPc} {ctx : Option RedisContext} {a : Attempt}
    (h : a ∈ current pc ctx) : ∃ batch appended pipelined i c,
      pc = .draining batch appended pipelined i ∧ ctx = some c ∧
        a = attemptOf c batch appended i .draining := by
  cases pc with
  | draining batch appended pipelined i =>
    cases ctx with
    | none => cases h
    | some c => exact ⟨batch, appended, pipelined, i, c, rfl, rfl, List.mem_singleton.mp h⟩
  | _ => cases h

theorem accounted_now (h : Invariant store₀ s) : ∀ a ∈ attemptsNow s, Accounted a := by
  intro a ha
  rcases List.mem_append.mp ha with ha | ha
  · exact h.accounted a ha
  · obtain ⟨batch, appended, pipelined, i, c, hpc, hctx, rfl⟩ := mem_current ha
    obtain ⟨_, done, hd, _⟩ := of_draining h hpc hctx
    exact ⟨fun _ => hd.length, nofun, nofun⟩

/-! ## The counter of the commands -/

/-- Commands of the batches whose replies were all read. -/
def confirmed (as : List Attempt) : ℕ :=
  ((as.filter fun a => a.outcome = .sent).map fun a => 3 * a.msgs.length).sum

/-- A batch that was not sent is not counted. -/
theorem confirmed_not_sent (as : List Attempt) {a : Attempt} (h : a.outcome ≠ .sent) :
    confirmed (as ++ [a]) = confirmed as := by
  simp [confirmed, h]

theorem confirmed_step (h : Invariant store₀ s)
    (hsent : s.commandsSent = UInt64.ofInt (confirmed s.trace.attempts)) (hs : Step s s') :
    s'.commandsSent = UInt64.ofInt (confirmed s'.trace.attempts) := by
  cases step_moves hs with
  | drop batch ctx hpc hctx =>
    change s.commandsSent = _
    rw [hsent, confirmed_not_sent]
    exact nofun
  | lost batch appended pipelined i c hpc hctx =>
    change s.commandsSent = _
    rw [hsent, confirmed_not_sent]
    exact nofun
  | finish batch appended pipelined i c hpc hctx hi =>
    obtain ⟨_, done, hd, _⟩ := of_draining h hpc hctx
    change s.commandsSent + UInt64.ofInt pipelined = _
    rw [hd.count, hd.length, length_stream, hsent, ← UInt64.ofInt_add]
    simp [confirmed, attemptOf]
  | _ => exact hsent

theorem confirmed_reachable (h : Reachable Step (initial store₀) s) :
    s.commandsSent = UInt64.ofInt (confirmed s.trace.attempts) := by
  have hboth : Invariant store₀ s ∧ s.commandsSent = UInt64.ofInt (confirmed s.trace.attempts) := by
    apply h.invariant (I := fun s => Invariant store₀ s ∧
      s.commandsSent = UInt64.ofInt (confirmed s.trace.attempts))
    · exact ⟨initial_invariant store₀, rfl⟩
    · intro s s' hi _ hs
      exact ⟨invariant_step hi.1 hs, confirmed_step hi.1 hi.2 hs⟩
  exact hboth.2

/-! ## The promises -/

/-- What the keys of the trades hold in terms of the commands that the server has run. -/
structure TradeKeys (store₀ : Store) (s : Publisher) : Prop where
  lastPrice : s.store "md:last_price" =
    (s.trace.executed.filterMap priced).getLast?.or (store₀ "md:last_price")
  tradeCount : ∀ n, Counts (store₀ "md:trade_count") n →
    n + s.trace.executed.countP counted < 2 ^ 63 →
      Counts (s.store "md:trade_count") (n + s.trace.executed.countP counted)
  inStep : InStep (cut (attemptsNow s)) (tally s.trace.executed)
  commandsSent : s.commandsSent = UInt64.ofInt (confirmed s.trace.attempts)

theorem executed_ours (h : Invariant store₀ s) : ∀ cmd ∈ s.trace.executed, Ours cmd := by
  intro cmd hcmd
  obtain ⟨m, _, hm⟩ := List.mem_flatMap.mp ((executed_sublist h).subset hcmd)
  exact commands_ours m cmd hm

/-- Whatever fails: the last price is the one last set, the counter has counted every `INCR` that
was run, and trades are announced and not counted at most once for each broken batch. -/
theorem tradeKeys (store₀ : Store) (s : Publisher) (h : Reachable Step (initial store₀) s) :
    TradeKeys store₀ s := by
  have hinv := reachable_invariant h
  constructor
  · rw [hinv.store]
    exact lastPrice_foldl (executed_ours hinv) store₀
  · intro n hn hfew
    rw [hinv.store]
    exact counts_foldl (executed_ours hinv) hn hfew
  · rw [hinv.executed]
    exact inStep_attempts (accounted_now hinv)
  · exact confirmed_reachable h

/-- A batch that breaks between the price of a trade and its count, and one that gets through. -/
def uncounted : List Event :=
  [.onTrade ⟨2, 1, .hundred, 3⟩ 0, .wake, .connect true .ok, .execute, .execute, .lost,
    .onTrade ⟨4, 3, .hundred, 5⟩ 0, .wake, .connect true .ok, .execute, .execute, .execute, .reply,
    .reply, .reply, .finish]

/-- What a server may hold from earlier publishers. -/
def sevenCounted : Store := Function.update (fun _ => none) "md:trade_count" (some "7")

theorem uncounted_runs : (events (initial sevenCounted) uncounted).map
    (fun s => (tally s.trace.executed, s.trace.executed.filterMap priced)) =
      some ((2, 2, 1), ["100.000000", "100.000000"]) := by
  decide +kernel

/-- Two trades are announced, and one is counted on top of the seven before. -/
theorem tradeKeys_uncounted : ∃ s, events (initial sevenCounted) uncounted = some s ∧
    tally s.trace.executed = (2, 2, 1) ∧ s.store "md:last_price" = some "100.000000" ∧
    s.store "md:trade_count" = some "8" := by
  obtain ⟨s, hs, hobs⟩ := Option.map_eq_some_iff.mp uncounted_runs
  obtain ⟨htally, hpriced⟩ := Prod.mk.inj hobs
  have hkeys := tradeKeys sevenCounted s (events_reachable .initial hs)
  have hone : s.trace.executed.countP counted = 1 := congrArg (fun n => n.2.2) htally
  refine ⟨s, hs, htally, ?_, ?_⟩
  · rw [hkeys.lastPrice, hpriced]
    rfl
  · have hcount := hkeys.tradeCount 7 (.inr (Function.update_self _ _ _))
    rw [hone] at hcount
    rcases hcount (by decide) with ⟨_, hzero⟩ | height
    · cases hzero
    · exact height

end MarketKeys
