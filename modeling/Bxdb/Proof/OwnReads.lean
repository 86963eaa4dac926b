import Bxdb.Proof.BulkAgree
import Bxdb.Proof.CheckSound
import Bxdb.Proof.History
import Bxdb.Proof.Layout

/-!
# What a reader sees of a handle's saves

A save writes the log out when it seeks to the header, but leaves the end of each worker
file in its writer. As every append is shorter than the writer's buffer, a file that grew
since the handle was opened is never written out in full (`Lags`), and the record of the
last append is the one cut off (`PassHeld.top`).

* `own_reads`: **readers find what a handle saved, and every range the log names is
  written out, exactly when all pages it saved are zero.**
* `own_reads_noise`: one page saved, and a load of it that fails.
-/

namespace Bxdb

open Bytes Buffered SortedIndex Versioned ChunkRecord

/-! ## One worker file -/

/-- A worker file, opened when it had `n` bytes: it still has them, and when nothing is
held back it has no more. -/
structure Lags (n : ℕ) (b : BlobFile) : Prop where
  held : b.writer.buf = [] → b.stream.length = n
  file : n ≤ b.writer.file.bytes.length

section File

variable {n : ℕ} {b : BlobFile}

theorem openAppend_lags (bytes : Bytes) : Lags bytes.length (BlobFile.openAppend bytes) :=
  ⟨fun _ => by rw [openAppend_stream], le_refl _⟩

/-- **An append keeps the file behind.** -/
theorem Lags.append (h : Lags n b) (hb : BlobOk b) {fault : Fault} {data : Bytes} (hd : data.length < blobBufCap)
    {r : UInt64 × UInt32} (hr : (appendBlob fault b data).2 = .ok r) : Lags n (appendBlob fault b data).1 := by
  have hok : (b.writer.writeAll fault data).2 = true := by
    unfold appendBlob at hr
    by_contra hno
    rw [if_neg hno] at hr
    cases hr
  have hwriter : (appendBlob fault b data).1.writer = (b.writer.writeAll fault data).1 := by
    unfold appendBlob
    rw [if_pos hok]
  constructor
  · rw [hwriter]
    intro hbuf
    by_cases hne : data = []
    · -- nothing was written
      have hsame : (b.writer.writeAll fault data).1 = b.writer := by
        rw [hne]
        exact BufWriter.writeAll_nil (by rw [hb.cap]; decide) fault
      rw [hsame] at hbuf
      unfold BlobFile.stream
      rw [hwriter, hsame]
      exact h.held hbuf
    · exact absurd hbuf (BufWriter.writeAll_buf (by rw [hb.cap]; exact hd) hne hok)
  · rw [hwriter]
    exact h.file.trans (BufWriter.writeAll_file hb.ok fault data).length_le

/-- A file that grew is not written out in full. -/
theorem Lags.behind (h : Lags n b) (hne : b.stream.length ≠ n) : b.writer.file.bytes.length < b.stream.length := by
  have hbuf : b.writer.buf ≠ [] := fun h0 => hne (h.held h0)
  have hpos := List.length_pos_iff.2 hbuf
  unfold BlobFile.stream BufWriter.stream
  rw [List.length_append]
  omega

/-- A file that did not grow is written out. -/
theorem Lags.written (h : Lags n b) (heq : b.stream.length = n) : b.writer.file.bytes = b.stream := by
  have hfile := h.file
  unfold BlobFile.stream BufWriter.stream at heq ⊢
  rw [List.length_append] at heq
  rw [List.length_eq_zero_iff.1 (show b.writer.buf.length = 0 by omega), List.append_nil]

end File

/-! ## One pass -/

/-- The worker files of a pass, `n` their lengths when the handle was opened and `start`
when the pass began: the last range of a file that grew is that of a record of the pass. -/
structure PassHeld (n start : UInt8 → ℕ) (p : Pass) : Prop where
  lags : ∀ w, Lags (n w) (p.blobFiles w)
  top : ∀ w, (p.blobFiles w).stream.length = start w ∨ ∃ i rec, p.writtenAt i = some rec ∧ rec.kind ≠ .zero ∧
    rec.workerId = w ∧ endOf rec = (p.blobFiles w).stream.length

section Run

variable {z : Zstd} {db : AppendOnlyDb} {id : UInt32} {jobs : List Job} {n start : UInt8 → ℕ}

theorem Moves.lags (hz : z.Small) {job : Job} {fault : Fault} {shadow : Shadow} {blobFiles : UInt8 → BlobFile}
    {task : Task} {r : Shadow × (UInt8 → BlobFile) × Task} (hm : Moves z db id job fault shadow blobFiles task r)
    (hb : ∀ w, BlobOk (blobFiles w)) (ht : TaskInv z db id shadow blobFiles job task)
    (hnf : ∀ e, r.2.2 ≠ .failed e) (h : ∀ w, Lags (n w) (blobFiles w)) : ∀ w, Lags (n w) (r.2.1 w) := by
  cases hm with
  | zero hp => exact h
  | encode hp hne => exact h
  | refuse hf => exact h
  | fail hr => exact absurd rfl (hnf _)
  | @append plan off len hr =>
    have hsmall : plan.data.length < blobBufCap := by
      rw [ht.1]
      exact planOf_data_small hz job
    exact (Function.forall_update_iff blobFiles fun w b => Lags (n w) b).2
      ⟨(h _).append (hb _) hsmall hr, fun w _ => h w⟩
  | insert => exact h
  | done => exact h
  | failed => exact h

/-- **One step keeps the files behind.** -/
theorem PassHeld.step (hz : z.Small) {p : Pass} {e : ℕ × Fault} (hinv : PassInv z db id jobs p)
    (h : PassHeld n start p) (hnf : (Pass.step z db id jobs p e).NoFailure) :
    PassHeld n start (Pass.step z db id jobs p e) := by
  rcases Pass.step_cases z db id jobs p e with heq | ⟨job, task, r, hj, ht, hm, heq⟩
  · rw [heq]
    exact h
  · rw [heq] at hnf ⊢
    have hnf' := hnf.of_set ht
    have hinv' := hinv.tasks _ _ _ hj ht
    have hset : ∀ i, Pass.writtenAt ⟨r.1, r.2.1, p.tasks.set e.1 r.2.2⟩ i =
        if i = e.1 then r.2.2.written? else p.writtenAt i := writtenAt_set (List.getElem?_eq_some_iff.1 ht).1
    -- a step never takes back what a task has written
    have hkeep : task.written? = none ∨ r.2.2.written? = task.written? → ∀ i rec, p.writtenAt i = some rec →
        Pass.writtenAt ⟨r.1, r.2.1, p.tasks.set e.1 r.2.2⟩ i = some rec := by
      intro hcase i rec hi
      rw [hset]
      by_cases hie : i = e.1
      · rw [hie, writtenAt_of ht] at hi
        rcases hcase with h0 | hsame
        · rw [h0] at hi
          cases hi
        · rw [if_pos hie, hsame, hi]
      · rw [if_neg hie, hi]
    refine ⟨hm.lags hz hinv.blobs hinv' hnf' h.lags, fun w => ?_⟩
    have htop := h.top w
    dsimp only
    cases hm.writes hinv.blobs hinv' hnf' with
    | same hb hw =>
      rw [hb]
      exact htop.imp_right fun ⟨i, rec, hi, hrec⟩ => ⟨i, rec, hkeep (.inr hw) i rec hi, hrec⟩
    | zero hb h0 hw hk =>
      rw [hb]
      exact htop.imp_right fun ⟨i, rec, hi, hrec⟩ => ⟨i, rec, hkeep (.inl h0) i rec hi, hrec⟩
    | @appended rec h0 hw hk hoff hend hothers =>
      by_cases hwe : w = rec.workerId
      · -- the new range is the last one
        refine .inr ⟨e.1, rec, ?_, hk, hwe.symm, ?_⟩
        · rw [hset, if_pos rfl, hw]
        · rw [hwe]
          exact hend
      · rw [hothers w hwe]
        exact htop.imp_right fun ⟨i, rec, hi, hrec⟩ => ⟨i, rec, hkeep (.inl h0) i rec hi, hrec⟩

/-- **The files in every state of a pass** in which nothing failed. -/
theorem runPass_held (hz : z.Small) (hpas : (jobs.map Job.pa).Nodup) (hb : ∀ w, BlobOk (db.blobFiles w))
    (hlags : ∀ w, Lags (n w) (db.blobFiles w)) (schedule : List (ℕ × Fault))
    (hnf : (runPass z db id jobs schedule).NoFailure) :
    PassHeld n (fun w => (db.blobFiles w).stream.length) (runPass z db id jobs schedule) := by
  induction schedule using List.reverseRecOn with
  | nil => exact ⟨hlags, fun w => .inl rfl⟩
  | append_singleton schedule e ih =>
    rw [runPass_concat] at hnf ⊢
    have hnf' := Pass.noFailure_of_step hnf
    exact (ih hnf').step hz (runPass_inv hpas hb schedule (.inr hnf')) hnf

end Run

/-! ## One save -/

/-- The worker files of a handle, `n` their lengths when it was opened and `news` the
versions saved since. -/
structure HandleHeld (n : UInt8 → ℕ) (news : List Version) (db : AppendOnlyDb) : Prop where
  lags : ∀ w, Lags (n w) (db.blobFiles w)
  top : ∀ w, (db.blobFiles w).stream.length = n w ∨ w.toNat < db.workerCount ∧ ∃ v ∈ news, v.page ≠ Page.zero ∧
    v.chunk.kind ≠ .zero ∧ v.chunk.workerId = w ∧ endOf v.chunk = (db.blobFiles w).stream.length
  zero : (∀ w, (db.blobFiles w).stream.length = n w) →
    (∀ pa, db.shadow pa = none) ∧ ∀ v ∈ news, v.page = Page.zero

section Save

variable {z : Zstd} {vs news : List Version} {db db' : AppendOnlyDb} {n : UInt8 → ℕ}

theorem Lags.le {n : ℕ} {b : BlobFile} (h : Lags n b) : n ≤ b.stream.length := by
  have hfile := h.file
  unfold BlobFile.stream BufWriter.stream
  rw [List.length_append]
  omega

theorem lenIn_zero {new : List ChunkRecord} {w : UInt8} (h : ((new.map Task.done).map (Task.lenIn w)).sum = 0)
    {r : ChunkRecord} (hr : r ∈ new) (hk : r.kind ≠ .zero) (hw : r.workerId = w) : r.len.toNat = 0 := by
  rw [List.sum_eq_zero_iff_forall_eq_nat] at h
  have h0 := h _ (List.mem_map_of_mem (List.mem_map_of_mem hr))
  unfold Task.lenIn Task.written? ChunkRecord.lenIn at h0
  simpa [hk, hw] using h0

section Pass

variable {id : UInt32} {c : SaveCall} {jobs : List Job} {records : List ChunkRecord} {p : Pass}

/-- The last range of a file after a save's pass, if the file has grown since the handle was opened. -/
theorem HandleHeld.top_saved (h : HandleOk z vs db) (hh : HandleHeld n news db) (hp : PassDone z vs db id c jobs p records)
    (hheld : PassHeld n (fun w => (db.blobFiles w).stream.length) p) (w : UInt8) :
    (p.blobFiles w).stream.length = n w ∨ w.toNat < db.workerCount ∧ ∃ v ∈ news ++ newVersions jobs records,
      v.page ≠ Page.zero ∧ v.chunk.kind ≠ .zero ∧ v.chunk.workerId = w ∧ endOf v.chunk = (p.blobFiles w).stream.length := by
  rcases hheld.top w with heq | ⟨i, rec, hi, hk, hw, hend⟩
  · -- the file is as the save found it
    rcases hh.top w with hn | ⟨hcount, v, hv, hpage, hvk, hvw, hvend⟩
    · exact .inl (heq.trans hn)
    · exact .inr ⟨hcount, v, List.mem_append_left _ hv, hpage, hvk, hvw, hvend.trans heq.symm⟩
  · rw [hp.writtenAt] at hi
    have hlt := (List.getElem?_eq_some_iff.1 hi).1
    rw [hp.length] at hlt
    have hj : jobs[i]? = some jobs[i] := List.getElem?_eq_getElem hlt
    have hrec := (hp.inv.tasks i _ _ hj (hp.task.2 hi)).1
    have hcount : w.toNat < db.workerCount := by
      rw [← hw, hrec.workerId hk]
      exact workerOf_toNat h.workers.1 h.workers.2 jobs[i].pa
    refine .inr ⟨hcount, ⟨rec, jobs[i].page⟩,
      List.mem_append_right _ (mem_newVersions.2 ⟨i, jobs[i], rec, hj, hi, rfl⟩), ?_, hk, hw, hend⟩
    intro hpage
    obtain ⟨off, len, rfl, -⟩ := hrec
    rw [planOf_zero hpage] at hk
    exact hk rfl

/-- A pass that appended nothing has encoded no page but the zero page. -/
theorem pages_zero (hne : ∀ page, z.compress page ≠ []) (hp : PassDone z vs db id c jobs p records)
    (hshadow : ∀ pa, db.shadow pa = none) (hsum : ∀ w, ((records.map Task.done).map (Task.lenIn w)).sum = 0)
    {i : ℕ} {job : Job} (hj : jobs[i]? = some job) : job.page = Page.zero := by
  by_contra hpage
  have hlt : i < records.length := by
    rw [hp.length]
    exact (List.getElem?_eq_some_iff.1 hj).1
  have hr : records[i]? = some records[i] := List.getElem?_eq_getElem hlt
  obtain ⟨off, len, hrec, hdata⟩ := (hp.inv.tasks i job _ hj (hp.task.2 hr)).1
  -- without a shadow the page is stored in full, and its bytes are not empty
  have hplan : planOf z (db.accept id) job = .full (z.compress job.page) := planOf_full rfl hpage (hshadow job.pa)
  rw [hplan] at hrec hdata
  have hlen := (hdata (by simp)).len_eq
  have h0 := lenIn_zero (hsum records[i].workerId) (List.getElem_mem hlt) (by rw [hrec]; simp [Plan.record]) rfl
  rw [hrec] at h0
  have hempty : (z.compress job.page).length = 0 := hlen.symm.trans h0
  exact hne _ (List.length_eq_zero_iff.1 hempty)

/-- Zero pages leave the shadow as it is. -/
theorem shadow_zero (hp : PassDone z vs db id c jobs p records)
    (hpages : ∀ {i : ℕ} {job : Job}, jobs[i]? = some job → job.page = Page.zero) (pa : UInt64) :
    p.shadow pa = db.shadow pa := by
  by_cases hpa : ∃ job ∈ jobs, job.pa = pa
  · obtain ⟨job, hmem, rfl⟩ := hpa
    obtain ⟨i, hi, rfl⟩ := List.getElem_of_mem hmem
    have hj : jobs[i]? = some jobs[i] := List.getElem?_eq_getElem hi
    have hlt : i < records.length := hp.length ▸ hi
    have hr : records[i]? = some records[i] := List.getElem?_eq_getElem hlt
    have hsh := (hp.inv.tasks i _ _ hj (hp.task.2 hr)).2
    rw [shadowAfter_eq (by rw [planOf_zero (hpages hj)]; simp)] at hsh
    exact hsh
  · exact hp.inv.shadow pa fun job hj hne => hpa ⟨job, hj, hne⟩

end Pass

/-- **One save keeps the files behind.** -/
theorem HandleHeld.saved (hz : z.Small) (hne : ∀ page, z.compress page ≠ []) {new : List Version} {c : SaveCall}
    (h : HandleOk z vs db) (hh : HandleHeld n news db) (hd : SaveDone z vs db c db' new) :
    HandleHeld n (news ++ new) db' := by
  cases hd with
  | empty hjobs =>
    rw [List.append_nil]
    exact ⟨hh.lags, hh.top, hh.zero⟩
  | @pass jobs records schedule _ hp =>
    have hblobs : ∀ w, BlobOk ((db.accept c.id).blobFiles w) := h.blobs
    have hpas := nodup_pas hp.jobsOf.sorted
    have hheld := runPass_held hz hpas hblobs hh.lags schedule (noFailure_of_done hp.done)
    have hlayout := runPass_layout hpas hblobs schedule (noFailure_of_done hp.done)
    generalize runPass z (db.accept c.id) c.id jobs schedule = p at hp hheld hlayout ⊢
    have htop := hh.top_saved h hp hheld
    refine ⟨hheld.lags, htop, fun hsame => ?_⟩
    -- no file grew, so nothing was appended, now or before
    have hgrown : ∀ w, (db.blobFiles w).stream.length = n w ∧ ((records.map Task.done).map (Task.lenIn w)).sum = 0 := by
      intro w
      have htotal : (p.blobFiles w).stream.length = (db.blobFiles w).stream.length + _ := hlayout.total w
      have hw : (p.blobFiles w).stream.length = n w := hsame w
      have hle := (hh.lags w).le
      rw [hp.done] at htotal
      omega
    obtain ⟨hshadow, hzero⟩ := hh.zero fun w => (hgrown w).1
    have hpages : ∀ {i : ℕ} {job : Job}, jobs[i]? = some job → job.page = Page.zero :=
      pages_zero hne hp hshadow fun w => (hgrown w).2
    refine ⟨fun pa => (shadow_zero hp hpages pa).trans (hshadow pa), fun v hv => ?_⟩
    rcases List.mem_append.1 hv with hv | hv
    · exact hzero v hv
    · obtain ⟨i, job, rec, hj, -, rfl⟩ := mem_newVersions.1 hv
      exact hpages hj

/-- The files of a handle just opened. -/
theorem open_held {dir : Dir} {k : ℕ} {t : UInt16} {u : Bool} (hopen : AppendOnlyDb.open dir k t u = .ok db) :
    HandleHeld (fun w => ((dir.blobs w).getD []).length) [] db := by
  obtain ⟨-, -, -, -, -, -, -, -, -, hshadow, -, hblobs⟩ := open_inv hopen
  have hlags : ∀ w, Lags ((dir.blobs w).getD []).length (db.blobFiles w) := by
    intro w
    rw [hblobs]
    exact openAppend_lags _
  refine ⟨hlags, fun w => .inl ?_, fun _ => ⟨fun pa => by rw [hshadow]; rfl, by simp⟩⟩
  rw [hblobs]
  exact congrArg List.length (openAppend_stream _)

/-- **A run of saves keeps the files behind.** -/
theorem saves_held (hz : z.Small) (hne : ∀ page, z.compress page ≠ []) {cs : List SaveCall} (h : HandleOk z vs db)
    (hb : ShadowBacked vs db.shadow) (hh : HandleHeld n [] db) (hs : Saves z db cs db') (hrange : ∀ c ∈ cs, c.InRange) :
    ∃ new, SavesOk z vs db cs db' new ∧ HandleHeld n new db' := by
  have hkeeps : SaveKeeps z fun us db => ∃ news, us = vs ++ news ∧ HandleHeld n news db := by
    rintro us new db db' c hok ⟨news, rfl, hheld⟩ _ hdone
    exact ⟨news ++ new, by rw [List.append_assoc], hheld.saved hz hne hok hdone⟩
  obtain ⟨new, hsaves, news, hnews, hheld⟩ := hkeeps.saves h hb ⟨[], by rw [List.append_nil], hh⟩ hs hrange
  obtain rfl := List.append_cancel_left hnews
  exact ⟨new, hsaves, hheld⟩

end Save

/-! ## Reading -/

/-- Every byte range that the log on disk names is in its worker's file on disk. -/
def WrittenOut (db : AppendOnlyDb) : Prop :=
  ∃ records, LogHolds db.disk.log records ∧ ∀ rec ∈ records, rec.kind ≠ .zero →
    ∃ bs, db.disk.blobs rec.workerId = some bs ∧ endOf rec ≤ bs.length

/-- **Reads find the saves** `cs`: every bulk load beside the open handle returns each page
of its range as last saved up to the snapshot. -/
def ReadsBack (z : Zstd) (cs : List SaveCall) (db : AppendOnlyDb) : Prop :=
  ∀ (off count : UInt64) (s : UInt32) (workers : ℕ), s ≤ maxSnapshotId → off.toNat + count.toNat < 2 ^ 64 →
    WorkersFit count.toNat workers → ∃ out, loadAllPages z db.disk (count.toNat * pageSize) true off count s workers = .ok out ∧
      RangeAsOf (savedBy cs) off count s out

/-- Every page the calls mark dirty is zero. -/
def ZeroPages (cs : List SaveCall) : Prop := ∀ c ∈ cs, ∀ pa page, c.dirty pa = some page → page = Page.zero

section Read

variable {z : Zstd} {vs new : List Version} {db db' : AppendOnlyDb} {n : UInt8 → ℕ} {cs cs' : List SaveCall}

theorem zeroPages_iff (hr : Records cs new) : ZeroPages cs ↔ ∀ v ∈ new, v.page = Page.zero := by
  constructor
  · intro h v hv
    obtain ⟨c, hc, -, hd⟩ := (hr v.pa v.snap v.page).1 ⟨v, ⟨hv, rfl, rfl⟩, rfl⟩
    exact h c hc v.pa v.page hd
  · intro h c hc pa page hd
    obtain ⟨v, ⟨hv, -, -⟩, hp⟩ := (hr pa c.id.toNat page).2 ⟨c, hc, rfl, hd⟩
    rw [← hp]
    exact h v hv

/-- A range that is cut off does not resolve. -/
theorem resolve_cut {store : PageStore} {rec : ChunkRecord} {bs : Bytes} {page : Page}
    (hb : store.blobs rec.workerId = some bs) (hlt : bs.length < endOf rec) (hk : rec.kind ≠ .zero) :
    store.resolveUncached z rec ≠ .ok page := by
  have hmmap : store.blobMmap rec.workerId = .ok bs := by
    unfold PageStore.blobMmap
    rw [hb]
  -- every kind but Zero needs its whole range in the file
  have hcut : range? bs rec.offset.toNat (rec.offset.toNat + rec.len.toNat) = none := range?_eq_none hlt
  intro h
  unfold PageStore.resolveUncached at h
  cases hkind : rec.kind with
  | zero => exact hk hkind
  | full =>
    rw [hkind] at h
    dsimp only at h
    unfold PageStore.decompressBlobInto at h
    rw [hmmap, ok_bind] at h
    dsimp only at h
    rw [hcut] at h
    split at h
    · cases h
    · cases h
  | delta =>
    rw [hkind] at h
    dsimp only at h
    obtain ⟨base, -, h⟩ := bind_eq_ok.1 h
    obtain ⟨blob, hblob, -⟩ := bind_eq_ok.1 h
    unfold PageStore.deltaBlob at hblob
    rw [hmmap, ok_bind] at hblob
    dsimp only at hblob
    rw [hcut] at hblob
    split at hblob
    · cases hblob
    · cases hblob

/-- **Only zero pages**: everything is on disk. -/
theorem HandleHeld.disk (hh : HandleHeld n new db) (hzero : ∀ v ∈ new, v.page = Page.zero) :
    db.disk.blobs = db.streams := by
  funext w
  have hsame : (db.blobFiles w).stream.length = n w := by
    rcases hh.top w with hn | ⟨-, v, hv, hpage, -⟩
    · exact hn
    · exact absurd (hzero v hv) hpage
  change (if w.toNat < db.workerCount then _ else _) = if w.toNat < db.workerCount then _ else _
  rw [(hh.lags w).written hsame]

/-- **A page that is not zero**: the last range of some file is cut off. -/
theorem HandleHeld.cut (hh : HandleHeld n new db) (hzero : ¬ ∀ v ∈ new, v.page = Page.zero) :
    ∃ v ∈ new, v.chunk.kind ≠ .zero ∧ ∃ bs, db.disk.blobs v.chunk.workerId = some bs ∧ bs.length < endOf v.chunk := by
  have hgrown : ¬ ∀ w, (db.blobFiles w).stream.length = n w := fun hsame => hzero (hh.zero hsame).2
  rw [not_forall] at hgrown
  obtain ⟨w, hw⟩ := hgrown
  rcases hh.top w with hn | ⟨hcount, v, hv, -, hk, rfl, hend⟩
  · exact absurd hn hw
  · refine ⟨v, hv, hk, (db.blobFiles v.chunk.workerId).writer.file.bytes, if_pos hcount, ?_⟩
    rw [hend]
    exact (hh.lags _).behind hw

theorem HandleOk.logHolds (h : HandleOk z vs db) : LogHolds db.disk.log (chunks vs) := by
  obtain ⟨log, m, body, hlog, hheader, hscan⟩ := h.scan
  exact ⟨log, m, body, hlog, hheader, hscan⟩

/-- **A record that is cut off** fails the loads of its own page. -/
theorem not_readsBack (h : HandleOk z vs db) (hidx : db.dir.idx = none) {v : Version} (hv : v ∈ vs)
    (hk : v.chunk.kind ≠ .zero) {bs : Bytes} (hb : db.disk.blobs v.chunk.workerId = some bs)
    (hlt : bs.length < endOf v.chunk) : ¬ ReadsBack z cs db := by
  intro hreads
  obtain ⟨m, hm, -⟩ := h.bytes
  have hbuild := buildLazyIndex_encode (chunks_plain h.stored) m
  have hlog : db.disk.log = some (writeLogHeader m ++ encodeAll (chunks vs)) := congrArg some hm
  have hidx' : db.disk.idx = none := hidx
  have hopen := open_lazy hidx' hlog hbuild
  have hpa := paOf_lt v.chunk.key
  have hone : (1 : UInt64).toNat = 1 := rfl
  have hsnap := snapshotOf_le v.chunk.key
  -- the page alone
  obtain ⟨out, hout, -⟩ := hreads (paOf v.chunk.key) 1 (snapshotOf v.chunk.key) 1 hsnap (by rw [hone]; omega) (by decide)
  have hinto : loadAllInto z db.disk (paOf v.chunk.key) 1 (snapshotOf v.chunk.key) 1 =
      .ok (out.all Option.isSome, outBuffer out) := by
    unfold loadAllInto
    rw [hout, ok_bind]
  have hrange : (paOf v.chunk.key).toNat + (1 : UInt64).toNat < 2 ^ 64 := by
    rw [hone]
    omega
  obtain ⟨-, pages, hlen, hload, -⟩ := (loadAllInto_log hidx' hlog hbuild hrange hsnap 1 _).1 hinto
  have hfirst : 0 < pages.length := by rw [hlen, hone]; omega
  have hpage := hload 0 hfirst
  have hmem : v.chunk ∈ index recordKey (chunks vs) := (mem_sortedChunks h.ordered _).2 (List.mem_map_of_mem hv)
  rw [show paOf v.chunk.key + UInt64.ofNat 0 = paOf v.chunk.key by simp] at hpage
  unfold loadPage at hpage
  rw [hopen, ok_bind] at hpage
  unfold PageStore.loadPage PageStore.floor at hpage
  rw [if_neg (UInt32.not_lt.2 hsnap)] at hpage
  dsimp only at hpage
  rw [hbuild, ok_bind] at hpage
  obtain ⟨found, hfound, hpage⟩ := bind_eq_ok.1 hpage
  rw [floorSorted_own hmem] at hfound
  obtain rfl := Except.ok.inj hfound
  obtain ⟨page, hresolve, -⟩ := bind_eq_ok.1 hpage
  exact resolve_cut hb hlt hk hresolve

theorem not_writtenOut (h : HandleOk z vs db) {v : Version} (hv : v ∈ vs) (hk : v.chunk.kind ≠ .zero) {bs : Bytes}
    (hb : db.disk.blobs v.chunk.workerId = some bs) (hlt : bs.length < endOf v.chunk) : ¬ WrittenOut db := by
  rintro ⟨records, hlog, hranges⟩
  obtain rfl := h.logHolds.unique hlog
  obtain ⟨bs', hb', hle⟩ := hranges v.chunk (List.mem_map_of_mem hv) hk
  rw [hb] at hb'
  obtain rfl := Option.some.inj hb'
  omega

/-- A handle with some saves, on an empty directory or a database without an index. -/
theorem handle_held (hz : z.Small) (hne : ∀ page, z.compress page ≠ []) {dir : Dir} {k : ℕ} {t : UInt16} {u : Bool}
    {db₀ : AppendOnlyDb} (hd : (cs = [] ∧ dir = Dir.empty) ∨ Managed z cs dir)
    (hopen : AppendOnlyDb.open dir k t u = .ok db₀) (hsaves : Saves z db₀ cs' db) (hrange : ∀ c ∈ cs', c.InRange) :
    ∃ vs new n, HandleOk z (vs ++ new) db ∧ HandleHeld n new db ∧ Records cs vs ∧ Records cs' new ∧ db.dir.idx = none := by
  obtain ⟨vs, h₀, hb₀, hr₀, hidx⟩ : ∃ vs, HandleOk z vs db₀ ∧ ShadowBacked vs db₀.shadow ∧ Records cs vs ∧
      dir.idx = none := by
    rcases hd with ⟨rfl, rfl⟩ | hd
    · obtain ⟨h, hb⟩ := open_empty (z := z) rfl (by simp [Dir.empty]) hopen
      exact ⟨[], h, hb, Records.nil, rfl⟩
    · obtain ⟨vs, hdir, hr, hidx, -⟩ := (Keeps.trivial z).managed (fun _ _ _ => True.intro) hd
      obtain ⟨h, hb⟩ := open_ok hdir hopen
      exact ⟨vs, h, hb, hr, hidx⟩
  obtain ⟨new, hs, hheld⟩ := saves_held hz hne h₀ hb₀ (open_held hopen) hsaves hrange
  obtain ⟨-, -, -, -, -, hdir, -⟩ := open_inv hopen
  exact ⟨vs, new, _, hs.handle, hheld, hr₀, hs.records, by rw [hs.setup.dir, hdir]; exact hidx⟩

/-- **When a handle's saves can be read back** beside it, before it is closed or flushed:
exactly when every page it saved is zero, which is also when every range the log names is
written out. -/
theorem own_reads (hz : z.Small) (hrt : z.RoundTrip) (hne : ∀ page, z.compress page ≠ []) {dir : Dir} {k : ℕ} {t : UInt16}
    {u : Bool} {db₀ : AppendOnlyDb} (hd : (cs = [] ∧ dir = Dir.empty) ∨ Managed z cs dir)
    (hopen : AppendOnlyDb.open dir k t u = .ok db₀) (hsaves : Saves z db₀ cs' db) (hrange : ∀ c ∈ cs', c.InRange) :
    (ReadsBack z (cs ++ cs') db ↔ ZeroPages cs') ∧ (WrittenOut db ↔ ZeroPages cs') := by
  obtain ⟨vs, new, n, h, hheld, hr₀, hr, hidx⟩ := handle_held hz hne hd hopen hsaves hrange
  rw [zeroPages_iff hr]
  refine ⟨⟨fun hreads => ?_, fun hzero => ?_⟩, fun hwritten => ?_, fun hzero => ?_⟩
  · by_contra hno
    obtain ⟨v, hv, hk, bs, hb, hlt⟩ := hheld.cut hno
    exact not_readsBack h hidx (List.mem_append_right _ hv) hk hb hlt hreads
  · -- everything is on disk, as after closing
    obtain ⟨m, hm, -⟩ := h.bytes
    have hnil : ([] : Bytes).length < logRecordBaseSize := by decide
    have hlog : db.disk.log = some (writeLogHeader m ++ (encodeAll (chunks (vs ++ new)) ++ [])) := by
      rw [List.append_nil]
      exact congrArg some hm
    have hstored : ∀ v ∈ vs ++ new, Stored z (vs ++ new) db.disk.blobs v := by
      rw [hheld.disk hzero]
      exact h.stored
    intro off count s workers hmax hoff hfit
    obtain ⟨out, hload, hout⟩ := loadAllPages_log hrt h.ordered.distinct hstored hmax rfl hoff hfit hnil hidx hlog
    exact ⟨out, hload, RangeAsOf.records (hr₀.append hr) hout⟩
  · by_contra hno
    obtain ⟨v, hv, hk, bs, hb, hlt⟩ := hheld.cut hno
    exact not_writtenOut h (List.mem_append_right _ hv) hk hb hlt hwritten
  · refine ⟨chunks (vs ++ new), h.logHolds, fun rec hrec hk => ?_⟩
    obtain ⟨v, hv, rfl⟩ := List.mem_map.1 hrec
    obtain ⟨bs, hb, hle, -⟩ := (h.stored v hv).range hk
    exact ⟨bs, by rw [hheld.disk hzero]; exact hb, hle⟩

end Read

/-- One page saved on an empty directory. -/
theorem one_saved (page : Page) : ∃ db₀ db, AppendOnlyDb.open Dir.empty 1 512 true = .ok db₀ ∧
    Saves Zstd.raw db₀ [onePage page 1] db := by
  obtain ⟨db₀, hopen⟩ : ∃ db, AppendOnlyDb.open Dir.empty 1 512 true = .ok db :=
    open_completes (by decide : 1 ≤ 1 ∧ 1 ≤ 255) 512 true (.inl rfl)
  obtain ⟨schedule, db, hrun⟩ := first_completes Zstd.raw_small (onePage_valid page (by decide : (1 : UInt32) ≤ maxSnapshotId))
    (by rw [show (onePage page 1).total = 1 from rfl]; norm_num [blobBufCap, maxFileLen]) hopen
  have hsaves : Saves Zstd.raw db₀ ([] ++ [onePage page 1]) db := .snoc .nil hrun
  exact ⟨db₀, db, hopen, hsaves⟩

theorem raw_nonempty (page : Page) : Zstd.raw.compress page ≠ [] := by
  intro h
  have := Zstd.raw_length page
  rw [h] at this
  cases this

/-- A zero page is read back. -/
theorem own_reads_zero : ∃ db₀ db, AppendOnlyDb.open Dir.empty 1 512 true = .ok db₀ ∧
    Saves Zstd.raw db₀ [onePage Page.zero 1] db ∧ ReadsBack Zstd.raw [onePage Page.zero 1] db := by
  obtain ⟨db₀, db, hopen, hsaves⟩ := one_saved Page.zero
  have hzero : ZeroPages [onePage Page.zero 1] := by
    intro c hc pa page hd
    obtain rfl := List.mem_singleton.1 hc
    exact ((onePage_dirty _ _ _ _).1 hd).2
  have hrange : ∀ c ∈ [onePage Page.zero 1], c.InRange := onePages_inRange [(Page.zero, 1)]
  exact ⟨db₀, db, hopen, hsaves,
    (own_reads Zstd.raw_small Zstd.raw_roundTrip raw_nonempty (.inl ⟨rfl, rfl⟩) hopen hsaves hrange).1.2 hzero⟩

/-- **A page that is not read back**: it is saved, and a load beside the handle fails. -/
theorem own_reads_noise : ∃ db₀ db, AppendOnlyDb.open Dir.empty 1 512 true = .ok db₀ ∧
    Saves Zstd.raw db₀ [onePage (noise 1) 1] db ∧ ¬ ReadsBack Zstd.raw [onePage (noise 1) 1] db ∧ ¬ WrittenOut db := by
  obtain ⟨db₀, db, hopen, hsaves⟩ := one_saved (noise 1)
  have hrange : ∀ c ∈ [onePage (noise 1) 1], c.InRange := onePages_inRange [(noise 1, 1)]
  obtain ⟨vs, new, n, h, hheld, -, hr, hidx⟩ :=
    handle_held Zstd.raw_small raw_nonempty (.inl ⟨rfl, rfl⟩) hopen hsaves hrange
  have hno : ¬ ∀ v ∈ new, v.page = Page.zero := by
    rw [← zeroPages_iff hr]
    intro hzero
    exact noise_ne_zero (by decide : (1 : UInt8) ≠ 0)
      (hzero _ (List.mem_singleton_self _) 0 (noise 1) ((onePage_dirty _ _ _ _).2 ⟨rfl, rfl⟩))
  obtain ⟨v, hv, hk, bs, hb, hlt⟩ := hheld.cut hno
  have hmem := List.mem_append_right vs hv
  exact ⟨db₀, db, hopen, hsaves, not_readsBack h hidx hmem hk hb hlt, not_writtenOut h hmem hk hb hlt⟩

end Bxdb
