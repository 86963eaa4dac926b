import Bxdb.Proof.Session

/-!
# The middle of a log

The writer reads the header of a log and appends to its end. What stands between has no
part in a session: it runs the same way on the log with another middle, and leaves the
same records behind it.

* `run_swap`, `session_swap`, `sessions_swap`: **a call, a session and a run of sessions,
  with another middle in the log.**
-/

namespace Bxdb

open Bytes Buffered ChunkRecord

variable {z : Zstd} {schedule : List (ℕ × Fault)} {db db' : AppendOnlyDb} {c : SaveCall}

/-! ## The same handle on another log -/

/-- The handle, on a directory with the log `log`, with `w` as its log's writer. -/
def AppendOnlyDb.withLog (db : AppendOnlyDb) (log : Option Bytes) (w : BufWriter) : AppendOnlyDb :=
  { db with dir := { db.dir with log := log }, logFile := w }

/-- Two log writers whose files differ in the middle: `mid` and `mid'`, behind `a`. -/
structure Swapped (a mid mid' : Bytes) (w w' : BufWriter) : Prop where
  log : LogOk w
  log' : LogOk w'
  bytes : ∃ m b, w.file.bytes = writeLogHeader m ++ (a ++ (mid ++ b)) ∧
    w'.file.bytes = writeLogHeader m ++ (a ++ (mid' ++ b))

section Swap

variable {a mid mid' : Bytes} {log : Option Bytes} {w : BufWriter}

/-- A commit adds the same records to both logs. -/
theorem Swapped.commit (h : Swapped a mid mid' db.logFile w) (id : UInt32) (rs : List ChunkRecord) :
    Swapped a mid mid' (db.commit id rs).logFile ((db.withLog log w).commit id rs).logFile := by
  obtain ⟨m, b, hb, hb'⟩ := h.bytes
  have hw : LogOk (db.withLog log w).logFile := h.log'
  obtain ⟨hok, hbytes⟩ := commit_log h.log hb id rs
  obtain ⟨hok', hbytes'⟩ := commit_log hw hb' id rs
  refine ⟨hok, hok', id, b ++ encodeAll rs, ?_, ?_⟩
  · rw [hbytes]
    simp only [List.append_assoc]
  · rw [hbytes']
    simp only [List.append_assoc]

/-- **A call that returns Ok**, with another middle in the log. -/
theorem run_swap (hrun : c.run z schedule db = some (db', .ok ())) (h : Swapped a mid mid' db.logFile w) :
    ∃ w', c.run z schedule (db.withLog log w) = some (db'.withLog log w', .ok ()) ∧ Swapped a mid mid' db'.logFile w' := by
  rw [run_eq] at hrun ⊢
  have hcheck : (db.withLog log w).checkSnapshot c.id = db.checkSnapshot c.id := rfl
  rw [hcheck]
  cases hs : db.checkSnapshot c.id with
  | error e =>
    rw [hs] at hrun
    simp at hrun
  | ok u =>
    rw [hs] at hrun
    dsimp only at hrun ⊢
    cases hp : c.plan with
    | error e =>
      rw [hp] at hrun
      simp [AppendOnlyDb.execute] at hrun
    | ok plan =>
      rw [hp] at hrun
      cases plan with
      | none =>
        obtain ⟨rfl, -⟩ := Prod.mk.inj (Option.some.inj hrun)
        exact ⟨w, rfl, h⟩
      | some jobs =>
        change (db.accept c.id).saveJobs z schedule c.id jobs = some (db', .ok ()) at hrun
        change ∃ w', ((db.withLog log w).accept c.id).saveJobs z schedule c.id jobs = _ ∧ _
        -- the pass does not look at the log
        have hpass : runPass z ((db.withLog log w).accept c.id) c.id jobs schedule =
            runPass z (db.accept c.id) c.id jobs schedule := rfl
        unfold AppendOnlyDb.saveJobs at hrun ⊢
        rw [hpass]
        dsimp only at hrun ⊢
        cases hout : (runPass z (db.accept c.id) c.id jobs schedule).outcome jobs with
        | none =>
          rw [hout] at hrun
          simp at hrun
        | some r =>
          rw [hout] at hrun
          cases r with
          | error e => simp at hrun
          | ok records =>
            obtain ⟨rfl, -⟩ := Prod.mk.inj (Option.some.inj hrun)
            exact ⟨_, rfl, @Swapped.commit (afterPass db c.id (runPass z (db.accept c.id) c.id jobs schedule))
              a mid mid' log w h c.id records⟩

theorem saves_swap {cs : List SaveCall} (hs : Saves z db cs db') (h : Swapped a mid mid' db.logFile w) :
    ∃ w', Saves z (db.withLog log w) cs (db'.withLog log w') ∧ Swapped a mid mid' db'.logFile w' := by
  induction hs with
  | nil => exact ⟨w, .nil, h⟩
  | snoc _ hsave ih =>
    obtain ⟨w₁, hsaves, h₁⟩ := ih
    obtain ⟨w₂, hrun, h₂⟩ := @run_swap z _ _ _ _ a mid mid' log w₁ hsave h₁
    exact ⟨w₂, .snoc hsaves hrun, h₂⟩

/-- Closing writes out the worker files alike. -/
theorem close_swap {dir' : Dir} (hclose : db.close = .ok dir') (h : Swapped a mid mid' db.logFile w) :
    dir'.log = some db.logFile.file.bytes ∧
      (db.withLog log w).close = .ok { dir' with log := some w.file.bytes } := by
  have hkeep : ∀ {w : BufWriter}, LogOk w → w.flushBuf none = (w, true) := by
    intro w hw
    unfold BufWriter.flushBuf
    rw [hw.buf]
    rfl
  unfold AppendOnlyDb.close at hclose ⊢
  obtain ⟨flushed, hflush, hdisk⟩ := bind_eq_ok.1 hclose
  obtain rfl := Except.ok.inj hdisk
  unfold AppendOnlyDb.flush at hflush ⊢
  rw [hkeep h.log] at hflush
  split at hflush
  · rename_i hall
    obtain rfl := Except.ok.inj hflush
    have hw : (db.withLog log w).logFile = w := rfl
    refine ⟨rfl, ?_⟩
    rw [hw, hkeep h.log', if_pos ⟨rfl, hall.2⟩, ok_bind]
    rfl
  · simp [ioErr] at hflush

end Swap

/-! ## Sessions -/

section Sessions

variable {a mid mid' b : Bytes} {m : UInt32} {dir dir' : Dir} {cs : List SaveCall}

/-- The log a handle opens behind a header. -/
theorem openLog_header (m : UInt32) (body : Bytes) : AppendOnlyDb.openLog (writeLogHeader m ++ body) =
    .ok (⟨writeLogHeader m ++ body, (writeLogHeader m ++ body).length, false, none⟩, some m) := by
  have hne : (writeLogHeader m ++ body).length ≠ 0 := by
    have : (writeLogHeader m).length = 16 := length_writeLogHeader m
    rw [List.length_append]
    omega
  unfold AppendOnlyDb.openLog
  rw [if_neg hne, readLogHeader, ok_bind]

theorem open_swap {n : ℕ} {t : UInt16} {u : Bool} (hl : dir.log = some (writeLogHeader m ++ (a ++ (mid ++ b))))
    (hopen : AppendOnlyDb.open dir n t u = .ok db) : ∃ w,
    AppendOnlyDb.open { dir with log := some (writeLogHeader m ++ (a ++ (mid' ++ b))) } n t u =
      .ok (db.withLog (some (writeLogHeader m ++ (a ++ (mid' ++ b)))) w) ∧ Swapped a mid mid' db.logFile w := by
  unfold AppendOnlyDb.open at hopen ⊢
  split at hopen
  · simp [ioErr] at hopen
  · rename_i hn
    rw [hl, Option.getD_some, openLog_header, ok_bind] at hopen
    obtain rfl := Except.ok.inj hopen
    rw [if_neg hn, Option.getD_some, openLog_header, ok_bind]
    exact ⟨_, rfl, logOk_new rfl rfl rfl, logOk_new rfl rfl rfl, m, b, rfl, rfl⟩

/-- **A session**, with another middle in the log. -/
theorem session_swap {u : Bool} (hl : dir.log = some (writeLogHeader m ++ (a ++ (mid ++ b))))
    (hs : ShadowSession z u dir cs dir') :
    ∃ m' b', dir'.log = some (writeLogHeader m' ++ (a ++ (mid ++ b'))) ∧
      ShadowSession z u { dir with log := some (writeLogHeader m ++ (a ++ (mid' ++ b))) } cs
        { dir' with log := some (writeLogHeader m' ++ (a ++ (mid' ++ b'))) } := by
  cases hs with
  | mk hopen hsaves hclose =>
    obtain ⟨w, hopen', h⟩ := @open_swap _ a mid mid' b m dir _ _ _ hl hopen
    obtain ⟨w', hsaves', h'⟩ := saves_swap hsaves h
    obtain ⟨hlog, hclose'⟩ := close_swap hclose h'
    obtain ⟨m', b', hb, hb'⟩ := h'.bytes
    rw [hb] at hlog
    rw [hb'] at hclose'
    exact ⟨m', b', hlog, .mk hopen' hsaves' hclose'⟩

/-- **Any run of sessions**, with another middle in the log. -/
theorem sessions_swap {ss : List (Bool × List SaveCall)} (hl : dir.log = some (writeLogHeader m ++ (a ++ (mid ++ b))))
    (hs : ShadowSessions z dir ss dir') :
    ∃ m' b', dir'.log = some (writeLogHeader m' ++ (a ++ (mid ++ b'))) ∧
      ShadowSessions z { dir with log := some (writeLogHeader m ++ (a ++ (mid' ++ b))) } ss
        { dir' with log := some (writeLogHeader m' ++ (a ++ (mid' ++ b'))) } := by
  induction hs with
  | nil => exact ⟨m, b, hl, .nil⟩
  | snoc _ hs ih =>
    obtain ⟨m₁, b₁, hl₁, hsessions⟩ := ih
    obtain ⟨m₂, b₂, hl₂, hsession⟩ := @session_swap z a mid mid' b₁ m₁ _ _ _ _ hl₁ hs
    exact ⟨m₂, b₂, hl₂, .snoc hsessions hsession⟩

end Sessions

end Bxdb
