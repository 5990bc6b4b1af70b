import MatchingEngine.CurrentFeed
import MatchingEngine.MarketKeys
import MatchingEngine.PublishedText
import MatchingEngine.TradesProjection

/-! # The engine between its database and its feed

One engine on a database journal and a market data publisher. A step that calls the sink is a
step of both; all others are steps of one side. -/
namespace MarketSystem

open EngineTypes
open Orders
open OrderBook
open Journal
open BatchLog
open BookRuns
open DatabaseJournal
open DatabaseEngine
open EngineMachine
open EngineMoves
open EngineInvariant
open CurrentFeed
open TradesProjection
open PublishedText
open MarketKeys
open RecoveryAtomicity
open Transitions

/-! ## What the matching thread hands on -/

/-- The trades that the sink was told of. -/
def sold (calls : List SinkCall) : List Trade :=
  calls.filterMap fun
    | .onTrade _ t => some t
    | .onTopOfBook _ _ _ _ => none

/-- The trades that the journal was handed. -/
def recordedTrades (j : PostgresJournal) : List Trade :=
  ((log j).filterMap Record.trade?).map TradeRow.trade

/-- In the trade log, and not recorded yet. -/
def unrecorded : LoopPc → List Trade
  | .logged _ t _ => [t]
  | _ => []

/-- In the trade log, and not sent yet. -/
def unsent : LoopPc → List Trade
  | .logged _ t _ => [t]
  | .recorded _ t _ => [t]
  | _ => []

/-- The trade log goes first, then the journal, then the sink, with one trade between them. -/
structure FanOut (old : List Trade) (s : Engine PostgresJournal) : Prop where
  recorded : s.core.tradeLog = old ++ recordedTrades s.journal ++ unrecorded (pcOf s)
  sent : s.core.tradeLog = old ++ sold s.trace.sink ++ unsent (pcOf s)

variable {old : List Trade} {base : List Command} {s s' : Engine PostgresJournal}

theorem FanOut.frame (h : FanOut old s) (hlog : s'.core.tradeLog = s.core.tradeLog)
    (hjournal : recordedTrades s'.journal = recordedTrades s.journal)
    (hsink : s'.trace.sink = s.trace.sink)
    (hunrecorded : unrecorded (pcOf s') = unrecorded (pcOf s))
    (hunsent : unsent (pcOf s') = unsent (pcOf s)) : FanOut old s' where
  recorded := by rw [hlog, hjournal, hunrecorded, h.recorded]
  sent := by rw [hlog, hsink, hunsent, h.sent]

structure System where
  engine : Engine PostgresJournal
  market : RedisMarketData.Publisher

/-- The call on the publisher; `now` is the wall clock that it reads. -/
def callEvent (now : Int64) : SinkCall → RedisMarketData.Event
  | .onTrade _ t => .onTrade t now
  | .onTopOfBook hasBid bid hasAsk ask => .onTopOfBook hasBid bid hasAsk ask

/-- The message that the call puts on the queue. -/
def msgOf (now : Int64) : SinkCall → RedisMarketData.Msg
  | .onTrade _ t => tradeMsg t now
  | .onTopOfBook hasBid bid hasAsk ask => .book hasBid hasAsk bid ask

inductive SystemStep : System → System → Prop
  | engine {s : System} {e : Engine PostgresJournal} (h : Step s.engine e)
      (hsink : e.trace.sink = s.engine.trace.sink) : SystemStep s { s with engine := e }
  /-- When the process is gone, the server goes on with what is in flight. -/
  | market {s : System} {m : RedisMarketData.Publisher} (e : RedisMarketData.Event)
      (h : RedisMarketData.next s.market e = some m) (halive : alive s.engine = true ∨ e = .execute)
      (hcalls : m.trace.calls = s.market.trace.calls) : SystemStep s { s with market := m }
  | call {s : System} {e : Engine PostgresJournal} {m : RedisMarketData.Publisher} (c : SinkCall)
      (now : Int64) (h : Step s.engine e) (hsink : e.trace.sink = s.engine.trace.sink ++ [c])
      (hm : RedisMarketData.next s.market (callEvent now c) = some m) : SystemStep s ⟨e, m⟩

/-- A step of the engine makes one call on the sink or none. -/
theorem sink_step (hs : Step s s') :
    s'.trace.sink = s.trace.sink ∨ ∃ c, s'.trace.sink = s.trace.sink ++ [c] := by
  cases step_moves hs with
  | quiet hcore htrace hjournal =>
    obtain ⟨pushed, htrace⟩ := htrace
    exact .inl (by rw [htrace])
  | loop now hm =>
    cases hm with
    | send => exact .inr ⟨_, rfl⟩
    | report => exact .inr ⟨_, rfl⟩
    | _ => exact .inl rfl

theorem next_call {m : RedisMarketData.Publisher} (hm : m.stopping = false) (now : Int64)
    (c : SinkCall) :
    RedisMarketData.next m (callEvent now c) = some (RedisMarketData.enqueue m (msgOf now c)) := by
  cases c <;> simp [RedisMarketData.next, callEvent, msgOf, tradeMsg, hm]

/-- The publisher never holds the engine up: whatever the engine does, the system does. -/
theorem engine_unblocked {s : System} {e : Engine PostgresJournal} (hm : s.market.stopping = false)
    (h : Step s.engine e) : ∃ m, SystemStep s ⟨e, m⟩ := by
  rcases sink_step h with hsink | ⟨c, hsink⟩
  · exact ⟨s.market, .engine h hsink⟩
  · exact ⟨_, .call c 0 h hsink (next_call hm 0 c)⟩

/-! ## The invariant of the system -/

/-- The publisher has the calls of the engine, each with its time. -/
def Told (calls : List SinkCall) (msgs : List RedisMarketData.Msg) : Prop :=
  List.Forall₂ (fun c m => ∃ now, m = msgOf now c) calls msgs

structure SystemInvariant (base : List Command) (old : List Trade) (db : Database)
    (store₀ : RedisMarketData.Store) (s : System) : Prop where
  live : Live base s.engine
  writer : WriterInvariant s.engine
  opened : s.engine.journal.trace.opened = db
  fanOut : FanOut old s.engine
  market : Reachable RedisMarketData.Step (RedisMarketData.initial store₀) s.market
  told : Told s.engine.trace.sink s.market.trace.calls

section

variable {db : Database} {store₀ : RedisMarketData.Store} {s s' : System}

end

/-! ## What the messages carry -/

section

open RedisMarketData
open RedisPublisher

variable {calls : List SinkCall} {msgs : List Msg}

/-- The keys of the two best prices after a call. -/
def cachedBy : SinkCall → Option String × Option String
  | .onTrade _ _ => (none, none)
  | .onTopOfBook hasBid bid hasAsk ask => (cached hasBid bid, cached hasAsk ask)

/-- The keys of the two best prices in a store. -/
def bestKeys (store : Store) : Option String × Option String :=
  (store "md:best_bid", store "md:best_ask")

/-- A trade is announced, priced and counted once, and a top of book not at all. -/
theorem commands_call (now : Int64) (c : SinkCall) :
    (msgOf now c).commands.filterMap published = (sold [c]).map (fun t => tradePayload t now) ∧
      (msgOf now c).commands.filterMap priced = (sold [c]).map (fun t => num t.price.val) ∧
      (msgOf now c).commands.countP counted = (sold [c]).length := by
  cases c with
  | onTrade position t =>
    rw [msgOf, commands_tradeMsg]
    exact ⟨rfl, rfl, rfl⟩
  | onTopOfBook hasBid bid hasAsk ask =>
    cases hasBid <;> cases hasAsk <;> exact ⟨rfl, rfl, rfl⟩

theorem sold_cons (c : SinkCall) (calls : List SinkCall) : sold (c :: calls) = sold [c] ++ sold calls :=
  List.filterMap_append (l := [c])

theorem stream_cons (m : Msg) (msgs : List Msg) : stream (m :: msgs) = m.commands ++ stream msgs :=
  List.flatMap_cons

theorem Told.announced (h : Told calls msgs) :
    List.Forall₂ (fun t payload => ∃ now, payload = tradePayload t now) (sold calls)
      ((stream msgs).filterMap published) := by
  induction h with
  | nil => exact .nil
  | @cons c m calls msgs hc h ih =>
    obtain ⟨now, rfl⟩ := hc
    rw [sold_cons, stream_cons, List.filterMap_append, (commands_call now c).1]
    refine List.rel_append ?_ ih
    rw [List.forall₂_map_right_iff, List.forall₂_same]
    exact fun t _ => ⟨now, rfl⟩

theorem Told.priced (h : Told calls msgs) :
    (stream msgs).filterMap priced = (sold calls).map (fun t => num t.price.val) := by
  induction h with
  | nil => rfl
  | @cons c m calls msgs hc h ih =>
    obtain ⟨now, rfl⟩ := hc
    rw [sold_cons, stream_cons, List.filterMap_append, (commands_call now c).2.1, ih,
      List.map_append]

theorem Told.counted (h : Told calls msgs) :
    (stream msgs).countP counted = (sold calls).length := by
  induction h with
  | nil => rfl
  | @cons c m calls msgs hc h ih =>
    obtain ⟨now, rfl⟩ := hc
    rw [sold_cons, stream_cons, List.countP_append, (commands_call now c).2.2, ih,
      List.length_append]

/-- A top of book replaces both keys, and a trade leaves them. -/
theorem bestKeys_call (now : Int64) (c : SinkCall) (store : Store) :
    bestKeys ((msgOf now c).commands.foldl perform store) =
      if isTop c then cachedBy c else bestKeys store := by
  cases c with
  | onTrade position t =>
    have hkeys := fun cmd (hc : cmd ∈ (msgOf now (.onTrade position t)).commands) =>
      keyOf_trade rfl hc
    rw [bestKeys, foldl_perform_other fun cmd hc => (hkeys cmd hc).1,
      foldl_perform_other fun cmd hc => (hkeys cmd hc).2]
    rfl
  | onTopOfBook hasBid bid hasAsk ask =>
    obtain ⟨hbid, hask⟩ := foldl_perform_book store hasBid hasAsk bid ask
    exact Prod.ext hbid hask

/-- The keys are those of the last top of book, or as they were. -/
theorem Told.bestKeys (h : Told calls msgs) (store : Store) :
    bestKeys ((stream msgs).foldl perform store) =
      (((calls.filter isTop).getLast?).map cachedBy).getD (bestKeys store) := by
  induction h generalizing store with
  | nil => rfl
  | @cons c m calls msgs hc h ih =>
    obtain ⟨now, rfl⟩ := hc
    rw [stream_cons, List.foldl_append, ih, bestKeys_call]
    cases htop : isTop c with
    | false => rw [List.filter_cons_of_neg (by simp [htop]), if_neg Bool.false_ne_true]
    | true =>
      rw [List.filter_cons_of_pos htop, List.getLast?_cons, if_pos rfl]
      cases (calls.filter isTop).getLast? <;> rfl

end

/-! ## The outputs -/

/-- Payloads of the trades, each with its time. -/
def Announces (ts : List Trade) (payloads : List String) : Prop :=
  List.Forall₂ (fun t payload => ∃ now, payload = tradePayload t now) ts payloads

/-- Of the trades `new`, neither the table nor the subscribers have one twice or out of order. -/
structure Behind (db : Database) (new : List Trade) (s : System) : Prop where
  table : ∃ fills, s.engine.journal.db.trades.map rowFill = db.trades.map rowFill ++ fills ∧
    fills.Sublist (new.map fillOf)
  announced : ∃ handed payloads, handed <+: new ∧ Announces handed payloads ∧
    (s.market.trace.executed.filterMap published).Sublist payloads

/-- Table, subscribers and keys have all of the trades `new`, and the keys have the best prices. -/
structure Settled (db : Database) (store₀ : RedisMarketData.Store) (new : List Trade)
    (s : System) : Prop where
  table : s.engine.journal.db.trades.map rowFill = db.trades.map rowFill ++ new.map fillOf
  announced : Announces new (s.market.trace.executed.filterMap published)
  lastPrice : s.market.store "md:last_price" =
    (new.getLast?.map fun t => RedisMarketData.num t.price.val).or (store₀ "md:last_price")
  tradeCount : ∀ n, Counts (store₀ "md:trade_count") n → n + new.length < 2 ^ 63 →
    Counts (s.market.store "md:trade_count") (n + new.length)
  best : s.engine.trace.applied ≠ [] → bestKeys s.market.store =
    ((getBestBid s.engine.core.book).map fun p => RedisMarketData.num p.val,
      (getBestAsk s.engine.core.book).map fun p => RedisMarketData.num p.val)

section

variable {db : Database} {store₀ : RedisMarketData.Store} {new : List Trade} {s : System}

theorem fills_recorded (records : List Record) :
    ((records.filterMap Record.trade?).map insTrade).map rowFill =
      ((records.filterMap Record.trade?).map TradeRow.trade).map fillOf := by
  rw [List.map_map, List.map_map]
  rfl

theorem behind (h : SystemInvariant base old db store₀ s)
    (hnew : s.engine.core.tradeLog = old ++ new) : Behind db new s := by
  constructor
  · have hrecorded := h.fanOut.recorded
    rw [hnew, List.append_assoc, List.append_cancel_left_eq] at hrecorded
    refine ⟨(((kept s.engine.journal.trace.batches).filterMap Record.trade?).map
      TradeRow.trade).map fillOf, ?_, ?_⟩
    · rw [h.writer.journal.trades, h.opened, List.map_append, fills_recorded]
    · rw [hrecorded]
      refine ((List.Sublist.map _ ?_).trans (List.sublist_append_left _ _)).map _
      refine List.Sublist.filterMap _ ?_
      rw [log, List.append_assoc]
      exact (kept_sublist _).trans (List.sublist_append_left _ _)
  · have hsent := h.fanOut.sent
    rw [hnew, List.append_assoc, List.append_cancel_left_eq] at hsent
    refine ⟨sold s.engine.trace.sink, _, ?_, h.told.announced, ?_⟩
    · rw [hsent]
      exact List.prefix_append _ _
    · exact (RedisPublisher.executed_sublist (RedisPublisher.reachable_invariant h.market)).filterMap _

end

/-- A step of the engine, with the call that it makes on the sink. -/
def deliver (s : System) (e : Engine PostgresJournal) : Option System :=
  match e.trace.sink.drop s.engine.trace.sink.length with
  | [] => some { s with engine := e }
  | c :: _ => (RedisMarketData.next s.market (callEvent 0 c)).map fun m => ⟨e, m⟩

/-- A turn of the engine, of its writer (a transaction commits or not) or of the publisher. -/
inductive Turn where
  | engine (e : Event)
  | writer (commits : Bool)
  | market (e : RedisMarketData.Event)

def turn (s : System) : Turn → Option System
  | .engine e => (next s.engine e).bind (deliver s)
  | .writer commits =>
    if alive s.engine then
      (writerStep commits s.engine.journal).map fun j => { s with engine := { s.engine with journal := j } }
    else none
  | .market e =>
    if alive s.engine then
      (RedisMarketData.next s.market e).bind fun m =>
        if m.trace.calls.length = s.market.trace.calls.length then some { s with market := m } else none
    else none

def turns (s : System) : List Turn → Option System
  | [] => some s
  | t :: ts => (turn s t).bind fun s' => turns s' ts

end MarketSystem
