import MatchingEngine.EngineInvariant
import MatchingEngine.UncrossedBook

/-! # The published top of book

Whatever a journal holds, recovery leaves a book that calls led to, also where a replay
throws halfway. So no message about the best prices shows them crossed or locked. -/
namespace TopOfBook

open EngineTypes
open Orders
open OrderBook
open BookInvariant
open BookRefinement
open BookRuns
open Journal
open EngineMachine
open EngineMoves
open EngineInvariant
open UncrossedBook
open Transitions

/-- Some calls on an empty book lead to this one. -/
def Ran (b : Book) : Prop := ∃ calls, b = run emptyBook calls

theorem Ran.invariant {b : Book} (h : Ran b) : Invariant b := by
  obtain ⟨calls, rfl⟩ := h
  exact run_invariant calls

theorem Ran.step {b : Book} (h : Ran b) (call : Call) : Ran (step b call) := by
  obtain ⟨calls, rfl⟩ := h
  exact ⟨calls ++ [call], (run_concat _ _ _).symm⟩

/-! ## Recovery -/

/-- The computation leads from a book that calls led to to another, whether or not it throws. -/
def KeepsRan {α : Type} (m : CoreM α) : Prop :=
  ∀ c, Ran c.book → Ran (stateAfter (m.run c)).book

theorem keepsRan_bind {α β : Type} {m : CoreM α} {f : α → CoreM β} (hm : KeepsRan m)
    (hf : ∀ a, KeepsRan (f a)) : KeepsRan (m >>= f) := by
  intro c hc
  have hmid := hm c hc
  cases hr : m.run c with
  | ok a c' =>
    rw [hr] at hmid
    rw [bind_ok hr]
    exact hf a c' hmid
  | error f c' =>
    rw [hr] at hmid
    rw [bind_error hr]
    exact hmid

theorem keepsRan_onBook {α : Type} {m : BookM α}
    (h : ∀ b, ∃ call, stateAfter (m.run b) = step b call) : KeepsRan (onBook m) := by
  intro c hc
  obtain ⟨call, hcall⟩ := h c.book
  cases hr : m.run c.book with
  | ok a b =>
    rw [hr] at hcall
    rw [onBook_ok hr]
    exact (show b = step c.book call from hcall) ▸ hc.step call
  | error f b =>
    rw [hr] at hcall
    rw [onBook_error hr]
    exact (show b = step c.book call from hcall) ▸ hc.step call

theorem addOrder_call {o : Order} (h : o.Valid) (b : Book) :
    ∃ call, stateAfter ((addOrder (some o)).run b) = step b call :=
  ⟨.add (some ⟨o, h⟩), rfl⟩

theorem cancelOrder_call (id : OrderId) (b : Book) :
    ∃ call, stateAfter ((cancelOrder id).run b) = step b call := by
  refine ⟨.cancel id, ?_⟩
  cases hr : (cancelOrder id).run b with
  | ok a b' =>
    rw [step, perform, bind_ok hr]
    rfl
  | error f b' =>
    rw [step, perform, bind_error hr]
    rfl

theorem keepsRan_cancel (id : OrderId) : KeepsRan (applyCommand (.cancel id)) :=
  keepsRan_bind (keepsRan_onBook (cancelOrder_call id)) fun _ _ hc => hc

theorem keepsRan_applyCommand (cmd : Command) : KeepsRan (applyCommand cmd) := by
  cases cmd with
  | submit order => exact keepsRan_onBook (addOrder_call order.2)
  | cancel id => exact keepsRan_cancel id

/-- An event of a corrupt journal is refused by the factory before it gets to the book. -/
theorem keepsRan_applyEvent (ev : JournalEvent) : KeepsRan (applyEvent ev) := by
  rw [applyEvent]
  cases ev.type with
  | cancel => exact keepsRan_cancel ev.orderId
  | submit =>
    cases hcreate : createOrder ev.kind ev.orderId ev.traderId ev.side ev.quantity ev.price with
    | error f => exact fun _ hc => hc
    | ok o => exact keepsRan_onBook (addOrder_call (createOrder_valid hcreate))

theorem keepsRan_replay (events : List JournalEvent) (m : UInt64) : KeepsRan (replay events m) := by
  induction events generalizing m with
  | nil => exact fun _ hc => hc
  | cons ev events ih =>
    apply keepsRan_bind (keepsRan_applyEvent ev)
    intro trades
    exact keepsRan_bind (fun _ hc => hc) fun _ => ih _

theorem keepsRan_recover (events : List JournalEvent) : KeepsRan (recover events) :=
  keepsRan_bind (keepsRan_replay events 0) fun _ _ hc => hc

/-! ## The messages -/

def Uncrossing (call : SinkCall) : Prop :=
  ∀ bid ask, call = .onTopOfBook true bid true ask → Double.lt bid ask = true

theorem topOfBook_uncrossing {b : Book} (h : Ran b) : Uncrossing (topOfBook b) := by
  obtain ⟨calls, rfl⟩ := h
  intro bid ask hcall
  rw [topOfBook] at hcall
  cases hbid : getBestBid (run emptyBook calls) with
  | none => simp [hbid] at hcall
  | some p =>
    cases hask : getBestAsk (run emptyBook calls) with
    | none => simp [hask] at hcall
    | some q =>
      simp only [hbid, hask, Option.map_some, Option.getD_some, Option.isSome_some,
        SinkCall.onTopOfBook.injEq, true_and] at hcall
      obtain ⟨rfl, rfl⟩ := hcall
      rw [← LimitPrice.lt_iff_double_lt]
      exact bestBid_lt_bestAsk (run_invariant calls) (uncrossed_run calls) hbid hask

variable {J : Type} [IJournal J] {s s' : Engine J}

structure MarketInvariant (s : Engine J) : Prop where
  ran : Ran s.core.book
  uncrossing : ∀ call ∈ s.trace.sink, Uncrossing call

theorem market_loop {now : Int64} (h : MarketInvariant s) (hm : LoopMove now s s') :
    MarketInvariant s' := by
  obtain ⟨hran, hsink⟩ := h
  have hsend : ∀ call, Uncrossing call → ∀ c ∈ s.trace.sink ++ [call], Uncrossing c := by
    intro call hcall c hc
    rcases List.mem_append.mp hc with hc | hc
    · exact hsink c hc
    · exact List.mem_singleton.mp hc ▸ hcall
  cases hm with
  | apply cmd ts core hpc hr =>
    have hkept := keepsRan_applyCommand cmd s.core hran
    exact ⟨by rwa [hr] at hkept, hsink⟩
  | reject cmd f core hpc hr =>
    have hkept := keepsRan_applyCommand cmd s.core hran
    exact ⟨by rwa [hr] at hkept, hsink⟩
  | send cmd t ts hpc => exact ⟨hran, hsend _ nofun⟩
  | report cmd hpc => exact ⟨hran, hsend _ (topOfBook_uncrossing hran)⟩
  | _ => exact ⟨hran, hsink⟩

theorem market_lives (h : MarketInvariant s) (hs : Lives s s') : MarketInvariant s' := by
  cases hs with
  | crash => exact ⟨keepsRan_recover _ freshCore ⟨[], rfl⟩, h.uncrossing⟩
  | run hs =>
    cases step_moves hs with
    | loop now hm => exact market_loop h hm
    | quiet hcore htrace hjournal =>
      obtain ⟨pushed, htrace⟩ := htrace
      exact ⟨hcore ▸ h.ran, htrace ▸ h.uncrossing⟩

theorem market_invariant {j : J} (h : Reachable Lives (initial j) s) : MarketInvariant s := by
  apply h.invariant (I := MarketInvariant) ⟨⟨[], rfl⟩, nofun⟩
  intro s s' hi _ hs
  exact market_lives hi hs

/-- No run of calls locks the book, and no life of an engine publishes a locked one. -/
theorem never_crossed_or_locked :
    (∀ calls, ∀ x ∈ resting (run emptyBook calls) .buy, ∀ y ∈ resting (run emptyBook calls) .sell,
      Double.lt x.price.val y.price.val = true) ∧
    ∀ {J : Type} [IJournal J] (j : J) (s : Engine J), Reachable Lives (initial j) s →
      ∀ bid ask, .onTopOfBook true bid true ask ∈ s.trace.sink → Double.lt bid ask = true := by
  constructor
  · intro calls x hx y hy
    rw [← LimitPrice.lt_iff_double_lt]
    exact uncrossed_run calls x hx y hy
  · intro J _ j s h bid ask hm
    exact (market_invariant h).uncrossing _ hm bid ask rfl

def ninetyNine : LimitPrice := ⟨⟨0x4058C00000000000⟩, by decide, by decide⟩

/-- A bid below the ask, and a crash after it. -/
def twoSided : List Event :=
  [.start, .control, .control, .control,
    .push 1 (.submit (NewOrder.limit 1 1 .sell 5 five_pos .hundred)),
    .push 2 (.submit (NewOrder.limit 2 2 .buy 3 three_pos ninetyNine))] ++
  List.replicate 8 (.loop 0)

theorem twoSided_publishes : (events (initial (⟨[]⟩ : InMemoryJournal)) twoSided).map
    (fun s => match s.trace.sink with
      | [_, .onTopOfBook hasBid bid hasAsk ask] => (hasBid, bid, hasAsk, ask)
      | _ => (false, Double.zero, false, Double.zero)) =
    some (true, ninetyNine.val, true, LimitPrice.hundred.val) := by
  decide +kernel

theorem never_crossed_or_locked_twoSided : ∃ s,
    events (initial (⟨[]⟩ : InMemoryJournal)) twoSided = some s ∧
    .onTopOfBook true ninetyNine.val true LimitPrice.hundred.val ∈ (restarted s).trace.sink ∧
    Double.lt ninetyNine.val LimitPrice.hundred.val = true := by
  obtain ⟨s, hs, hobs⟩ := Option.map_eq_some_iff.mp twoSided_publishes
  have hmem : .onTopOfBook true ninetyNine.val true LimitPrice.hundred.val ∈ s.trace.sink := by
    split at hobs
    · rename_i hsink
      obtain ⟨rfl, rfl, rfl, rfl⟩ : _ ∧ _ ∧ _ ∧ _ := by simpa using hobs
      simp [hsink]
    · cases hobs
  have hreach : Reachable Lives (initial (⟨[]⟩ : InMemoryJournal)) (restarted s) :=
    .next ((events_reachable .initial hs).map .run) trivial (.crash s)
  exact ⟨s, hs, hmem, never_crossed_or_locked.2 _ _ hreach _ _ hmem⟩

end TopOfBook
