import MatchingEngine.DatabaseJournal
import MatchingEngine.EngineInvariant

/-! # An engine on the database journal -/
namespace DatabaseEngine

open EngineTypes
open OrderBook
open Journal
open BatchLog
open DatabaseJournal
open EngineMachine
open EngineMoves
open EngineInvariant
open Transitions

variable {s s' : Engine PostgresJournal}

structure WriterInvariant (s : Engine PostgresJournal) : Prop where
  journal : JournalInvariant s.journal
  opened : s.journal.stopping = false
  appended : (log s.journal).filterMap Record.event? = s.trace.appended

theorem writer_move (h : WriterInvariant s) (hm : Move s s') : WriterInvariant s' := by
  obtain ⟨hj, hopen, happended⟩ := h
  cases hm with
  | quiet hcore htrace hjournal =>
    obtain ⟨pushed, htrace⟩ := htrace
    have hsame : s'.trace.appended = s.trace.appended := by rw [htrace]
    rcases hjournal with hjournal | ⟨commits, hstep⟩
    · exact ⟨hjournal ▸ hj, hjournal ▸ hopen, by rw [hjournal, hsame, happended]⟩
    · have hf := writer_frame hj hstep
      exact ⟨writer_invariant hj hstep, hf.stopping.trans hopen, by rw [hf.log, hsame, happended]⟩
  | loop now hm =>
    cases hm with
    | journal cmd hpc =>
      refine ⟨append_invariant hj _, hopen, ?_⟩
      have hlog := log_append s.journal (cmd.event s.core.nextSeq now)
      simp only [journalCommand, IJournal.append, hlog, List.filterMap_append, happended]
      rfl
    | record cmd t ts hpc =>
      refine ⟨recordTrade_invariant hj t now, hopen, ?_⟩
      have hlog := log_recordTrade s.journal t now
      simp only [IJournal.recordTrade, hlog, List.filterMap_append, happended]
      exact List.append_nil _
    | _ => exact ⟨hj, hopen, happended⟩

theorem opened_writer (db : Database) : WriterInvariant (initial (openJournal db)) :=
  ⟨openJournal_invariant db, rfl, rfl⟩

theorem writer_lives (h : WriterInvariant s) (hs : Lives s s') : WriterInvariant s' := by
  cases hs with
  | crash => exact ⟨openJournal_invariant _, rfl, rfl⟩
  | run hs => exact writer_move h (step_moves hs)

end DatabaseEngine
