import MatchingEngine.DurableLog

/-! # The database journal refines the in-memory journal

Both journals are given the same calls. One keeps a list; the other queues, writes in batches
and reads a table back. The statement that inserts an event has nine positional parameters,
and the row is read by column name. -/
namespace InMemoryRefinement

open EngineTypes
open Orders
open Journal
open BatchLog
open DatabaseJournal
open DurableLog
open Transitions

/-! ## Positions and names -/

inductive EventsColumn where
  | seq
  | type
  | kind
  | orderId
  | traderId
  | side
  | quantity
  | price
  | epochNanos
  deriving DecidableEq

/-- A parameter by its C++ type. -/
inductive Parameter where
  | longLong (v : Int64)
  | int (v : Int32)
  | double (v : Double)

/-- A value by the type of its column. -/
inductive Value where
  | bigint (v : Int64)
  | smallint (v : Int16)
  | integer (v : Int32)
  | doublePrecision (v : Double)

/-- The columns of `ins_event`, for `$1` to `$9`. -/
def insEventColumns : List EventsColumn :=
  [.seq, .type, .kind, .orderId, .traderId, .side, .quantity, .price, .epochNanos]

/-- The arguments of `exec_prepared("ins_event", ...)`. -/
def insEventParameters (ev : JournalEvent) : List Parameter :=
  [.longLong ev.seq.toInt64, .int (encodeCmd ev.type), .int (encodeKind ev.kind),
    .longLong ev.orderId.toInt64, .longLong ev.traderId.toInt64, .int (encodeSide ev.side),
    .int ev.quantity, .double ev.price, .longLong ev.epochNanos]

def smallint (v : Int32) : Option Value :=
  if -2 ^ 15 ≤ v.toInt ∧ v.toInt < 2 ^ 15 then some (.smallint v.toInt16) else none

/-- What a column stores of a parameter; `none` where the statement is refused. -/
def store : EventsColumn → Parameter → Option Value
  | .seq, .longLong v => some (.bigint v)
  | .orderId, .longLong v => some (.bigint v)
  | .traderId, .longLong v => some (.bigint v)
  | .epochNanos, .longLong v => some (.bigint v)
  | .type, .int v => smallint v
  | .kind, .int v => smallint v
  | .side, .int v => smallint v
  | .quantity, .int v => some (.integer v)
  | .price, .double v => some (.doublePrecision v)
  | _, _ => none

/-- `row["..."]` -/
def column (row : EventsRow) : EventsColumn → Value
  | .seq => .bigint row.seq
  | .type => .smallint row.type
  | .kind => .smallint row.kind
  | .orderId => .bigint row.orderId
  | .traderId => .bigint row.traderId
  | .side => .smallint row.side
  | .quantity => .integer row.quantity
  | .price => .doublePrecision row.price
  | .epochNanos => .bigint row.epochNanos

/-- Position by position the statement stores the row that `insEvent` says, and no column is left
out or given twice. -/
theorem insEvent_positional (ev : JournalEvent) :
    List.zipWith store insEventColumns (insEventParameters ev) =
        insEventColumns.map (fun c => some (column (insEvent ev) c)) ∧
      insEventColumns.Nodup ∧ ∀ c, c ∈ insEventColumns := by
  refine ⟨?_, by decide, fun c => by cases c <;> decide⟩
  have hsmall : ∀ v : Int32, v = 0 ∨ v = 1 → smallint v = some (.smallint v.toInt16) := by
    rintro v (rfl | rfl) <;> rfl
  have htype : smallint (encodeCmd ev.type) = some (.smallint (encodeCmd ev.type).toInt16) :=
    hsmall _ (by cases ev.type <;> decide)
  have hkind : smallint (encodeKind ev.kind) =
      some (.smallint (encodeKind ev.kind).toInt16) := hsmall _ (by cases ev.kind <;> decide)
  have hside : smallint (encodeSide ev.side) =
      some (.smallint (encodeSide ev.side).toInt16) := hsmall _ (by cases ev.side <;> decide)
  simp [insEventColumns, insEventParameters, store, column, insEvent, htype, hkind, hside]

/-! ## The two journals side by side -/

structure Journals where
  postgres : PostgresJournal
  memory : InMemoryJournal

def fresh : Journals := ⟨openJournal ⟨[], []⟩, ⟨[]⟩⟩

/-- Events come with increasing numbers that a signed column can hold. No transaction is made
to fail from outside. -/
inductive JournalsStep : Journals → Journals → Prop
  | append (p : Journals) (ev : JournalEvent) (hpos : 1 ≤ ev.seq) (hfit : ev.seq.toNat ≤ 2 ^ 63 - 1)
      (hnext : ∀ e ∈ p.memory.events, e.seq < ev.seq) :
      JournalsStep p ⟨IJournal.append p.postgres ev, IJournal.append p.memory ev⟩
  | recordTrade (p : Journals) (t : Trade) (now : Int64) :
      JournalsStep p ⟨IJournal.recordTrade p.postgres t now, IJournal.recordTrade p.memory t now⟩
  | writer (p : Journals) (j : PostgresJournal) (hj : writerStep true p.postgres = some j) :
      JournalsStep p { p with postgres := j }
  | requestStop (p : Journals) : JournalsStep p { p with postgres := requestStop p.postgres }

/-- All that was handed over is committed. -/
def Settled (j : PostgresJournal) : Prop :=
  j.eventQueue = [] ∧ j.tradeQueue = [] ∧ batchInHand j.writer = ([], [])

instance (j : PostgresJournal) : Decidable (Settled j) := inferInstanceAs (Decidable (_ ∧ _ ∧ _))

/-- The first number that a signed column cannot hold. -/
def beyond : UInt64 := 0x8000000000000000

theorem toNat_beyond : beyond.toNat = 2 ^ 63 := rfl

structure JournalsInvariant (p : Journals) : Prop where
  journal : JournalInvariant p.postgres
  opened : p.postgres.trace.opened = ⟨[], []⟩
  same : (log p.postgres).filterMap Record.event? = p.memory.events
  kept : ∀ b ∈ p.postgres.trace.batches, b.kept = true
  numbered : Numbered p.memory.events beyond

variable {p p' : Journals}

theorem fresh_invariant : JournalsInvariant fresh :=
  ⟨openJournal_invariant _, rfl, rfl, nofun, .nil, nofun⟩

/-- The numbers in the table and in hand differ, so the transaction goes through. -/
theorem transaction_commits (h : JournalsInvariant p) {events : List JournalEvent}
    {trades : List TradeRow} (hw : p.postgres.writer = .writing events trades) :
    transaction true p.postgres events trades = commitBatch p.postgres events trades := by
  have hhand := h.journal.hand
  rw [hw] at hhand
  obtain ⟨rfl, _⟩ := Prod.mk.inj hhand
  have hrows : p.postgres.db.events ++
      (p.postgres.trace.inHand.filterMap Record.event?).map insEvent =
      ((attempted p.postgres.trace.batches ++ p.postgres.trace.inHand).filterMap
        Record.event?).map insEvent := by
    rw [h.journal.events, h.opened, kept_of_all h.kept, List.filterMap_append, List.map_append]
    rfl
  have hincreasing : ((attempted p.postgres.trace.batches ++ p.postgres.trace.inHand).filterMap
      Record.event?).Pairwise fun a b => a.seq < b.seq := by
    refine h.numbered.increasing.sublist ?_
    rw [← h.same, log]
    exact (List.sublist_append_left _ _).filterMap _
  rw [transaction, if_pos]
  refine ⟨rfl, ?_⟩
  rw [hrows, List.map_map, List.Nodup, List.pairwise_map]
  refine hincreasing.imp ?_
  intro a b hlt heq
  have hseq : a.seq = b.seq := congrArg Int64.toUInt64 heq
  exact UInt64.lt_irrefl _ (hseq ▸ hlt)

theorem writer_keeps (h : JournalsInvariant p) {j : PostgresJournal}
    (hj : writerStep true p.postgres = some j) : ∀ b ∈ j.trace.batches, b.kept = true := by
  cases writer_cases hj with
  | exit => exact h.kept
  | take => exact h.kept
  | write events trades hw =>
    rw [transaction_commits h hw]
    intro b hb
    rcases List.mem_append.mp hb with hb | hb
    · exact h.kept b hb
    · rw [List.mem_singleton.mp hb]
  | count => exact h.kept

theorem journals_step (h : JournalsInvariant p) (hs : JournalsStep p p') :
    JournalsInvariant p' := by
  cases hs with
  | append ev hpos hfit hnext =>
    refine ⟨append_invariant h.journal ev, h.opened, ?_, h.kept, ?_, ?_⟩
    · have hlog := log_append p.postgres ev
      simp only [IJournal.append, hlog, List.filterMap_append, h.same]
      rfl
    · rw [IJournal.append]
      refine List.pairwise_append.mpr ⟨h.numbered.increasing, List.pairwise_singleton _ _, ?_⟩
      intro a ha b hb
      rw [List.mem_singleton.mp hb]
      exact hnext a ha
    · intro a ha
      rcases List.mem_append.mp ha with ha | ha
      · exact h.numbered.below a ha
      · rw [List.mem_singleton.mp ha, UInt64.lt_iff_toNat_lt, toNat_beyond]
        omega
  | recordTrade t now =>
    refine ⟨recordTrade_invariant h.journal t now, h.opened, ?_, h.kept, h.numbered⟩
    have hlog := log_recordTrade p.postgres t now
    simp only [IJournal.recordTrade, hlog, List.filterMap_append, h.same]
    exact List.append_nil _
  | writer j hj =>
    have hf := writer_frame h.journal hj
    exact ⟨writer_invariant h.journal hj, hf.opened.trans h.opened, by rw [hf.log, h.same],
      writer_keeps h hj, h.numbered⟩
  | requestStop => exact ⟨requestStop_invariant h.journal, h.opened, h.same, h.kept, h.numbered⟩

theorem journals_invariant (h : Reachable JournalsStep fresh p) : JournalsInvariant p :=
  h.invariant fresh_invariant fun _ _ hi _ hs => journals_step hi hs

/-- What is committed is read back as it was appended. -/
theorem loadAll_committed (h : JournalsInvariant p) :
    loadAll p.postgres = (attempted p.postgres.trace.batches).filterMap Record.event? := by
  have hprefix : (attempted p.postgres.trace.batches).filterMap Record.event? <+:
      p.memory.events := by
    rw [← h.same, log, List.append_assoc]
    exact (List.prefix_append _ _).filterMap _
  apply loadAll_of_table _ (h.numbered.shorten hprefix) toNat_beyond.le
  rw [h.journal.events, h.opened, kept_of_all h.kept]
  rfl

/-- Nothing that is settled is in hand or queued. -/
theorem settled_log (h : JournalInvariant p.postgres) (hs : Settled p.postgres) :
    log p.postgres = attempted p.postgres.trace.batches := by
  obtain ⟨hevents, htrades, hhand⟩ := hs
  have hqueued : p.postgres.trace.queued = [] := by
    apply List.eq_nil_of_length_eq_zero
    rw [← length_kinds, ← h.queues.1, ← h.queues.2, hevents, htrades]
    rfl
  have hinHand : p.postgres.trace.inHand = [] := by
    obtain ⟨he, ht⟩ := Prod.mk.inj (h.hand.symm.trans hhand)
    apply List.eq_nil_of_length_eq_zero
    rw [← length_kinds, he, ht]
    rfl
  rw [log, hqueued, hinHand, List.append_nil, List.append_nil]

/-- `loadAll` is at all times the start of what the in-memory journal returns, and all of it once
everything handed over is committed. -/
theorem postgres_refines_inMemory (h : Reachable JournalsStep fresh p) :
    IJournal.loadAll p.postgres <+: IJournal.loadAll p.memory ∧
      (Settled p.postgres → IJournal.loadAll p.postgres = IJournal.loadAll p.memory) := by
  have hi := journals_invariant h
  have hload : IJournal.loadAll p.postgres = _ := loadAll_committed hi
  have hmemory : IJournal.loadAll p.memory = p.memory.events := rfl
  rw [hload, hmemory, ← hi.same]
  constructor
  · rw [log, List.append_assoc]
    exact (List.prefix_append _ _).filterMap _
  · intro hs
    rw [settled_log hi.journal hs]

/-- An event is appended while the one before it is written; ids do not fit the signed column. -/
theorem postgres_refines_inMemory_two_batches : ∃ p, Reachable JournalsStep fresh p ∧
    p.memory.events.map JournalEvent.orderId = [0xFFFFFFFFFFFFFFFF, 0x8000000000000000] ∧
    IJournal.loadAll p.postgres = IJournal.loadAll p.memory := by
  let first := makeCancelEvent 0xFFFFFFFFFFFFFFFF 1 0
  let second := makeCancelEvent 0x8000000000000000 7 0
  have happend : Reachable JournalsStep fresh _ :=
    .next .initial trivial (.append _ first (by decide) (by decide) nofun)
  have htake : Reachable JournalsStep fresh _ := .next happend trivial (.writer _ _ rfl)
  have happend' : Reachable JournalsStep fresh _ :=
    .next htake trivial (.append _ second (by decide) (by decide) (by decide))
  have hcommit : Reachable JournalsStep fresh _ := .next happend' trivial (.writer _ _ rfl)
  have hcount : Reachable JournalsStep fresh _ := .next hcommit trivial (.writer _ _ rfl)
  have htake' : Reachable JournalsStep fresh _ := .next hcount trivial (.writer _ _ rfl)
  have hcommit' : Reachable JournalsStep fresh _ := .next htake' trivial (.writer _ _ rfl)
  exact ⟨_, hcommit', rfl, (postgres_refines_inMemory hcommit').2 ⟨rfl, rfl, rfl⟩⟩

end InMemoryRefinement
