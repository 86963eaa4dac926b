import Bxdb.Proof.Reader

/-!
# A reader beside a writer

Blob files only grow on disk while a handle saves (`runPass_onDisk`), so the mappings of an
open reader keep showing the bytes they were made over (`Standing.blobs`). Its lazy index
is that of the log at one moment, whichever thread built it (`Built`).

* `reader_isolated`: **a load below every later snapshot returns what the reader found when
  it was opened.**
* `reader_consistent`: **all loads that return Ok answer as of one moment.**
-/

namespace Bxdb

open Bytes Buffered SortedIndex Versioned ChunkRecord

/-! ## Worker files on disk -/

/-- Every worker's file has at least `n w` bytes on disk. -/
def OnDisk (n : UInt8 → ℕ) (blobFiles : UInt8 → BlobFile) : Prop :=
  ∀ w, n w ≤ (blobFiles w).writer.file.bytes.length

section Disk

variable {z : Zstd} {db : AppendOnlyDb} {id : UInt32} {jobs : List Job} {n : UInt8 → ℕ}

theorem appendBlob_file {b : BlobFile} (hb : BlobOk b) (fault : Fault) (data : Bytes) :
    b.writer.file.bytes <+: (appendBlob fault b data).1.writer.file.bytes := by
  have hgrow := BufWriter.writeAll_file hb.ok fault data
  unfold appendBlob
  split <;> exact hgrow

theorem OnDisk.append {blobFiles : UInt8 → BlobFile} (h : OnDisk n blobFiles) (hb : ∀ w, BlobOk (blobFiles w))
    (w : UInt8) (fault : Fault) (data : Bytes) :
    OnDisk n (Function.update blobFiles w (appendBlob fault (blobFiles w) data).1) :=
  (Function.forall_update_iff blobFiles fun w b => n w ≤ b.writer.file.bytes.length).2
    ⟨(h w).trans (appendBlob_file (hb w) fault data).length_le, fun w' _ => h w'⟩

theorem Moves.onDisk {job : Job} {fault : Fault} {shadow : Shadow} {blobFiles : UInt8 → BlobFile} {task : Task}
    {r : Shadow × (UInt8 → BlobFile) × Task} (hm : Moves z db id job fault shadow blobFiles task r)
    (hb : ∀ w, BlobOk (blobFiles w)) (h : OnDisk n blobFiles) : OnDisk n r.2.1 := by
  cases hm with
  | zero hp => exact h
  | encode hp hne => exact h
  | refuse hf => exact h
  | fail hr => exact h.append hb _ _ _
  | append hr => exact h.append hb _ _ _
  | insert => exact h
  | done => exact h
  | failed => exact h

/-- **No step of a pass shortens a file on disk.** -/
theorem runPass_onDisk (hpas : (jobs.map Job.pa).Nodup) (hb : ∀ w, BlobOk (db.blobFiles w))
    (h : OnDisk n db.blobFiles) (schedule : List (ℕ × Fault)) (hnf : (runPass z db id jobs schedule).NoFailure) :
    OnDisk n (runPass z db id jobs schedule).blobFiles := by
  induction schedule using List.reverseRecOn with
  | nil => exact h
  | append_singleton schedule e ih =>
    rw [runPass_concat] at hnf ⊢
    have hnf' := Pass.noFailure_of_step hnf
    have hinv := runPass_inv hpas hb schedule (.inr hnf')
    rcases Pass.step_cases z db id jobs (runPass z db id jobs schedule) e with heq | ⟨job, task, r, -, -, hm, heq⟩
    · rw [heq]
      exact ih hnf'
    · rw [heq]
      exact hm.onDisk hinv.blobs (ih hnf')

/-- A save does not either. -/
theorem onDisk_saveKeeps (z : Zstd) (n : UInt8 → ℕ) : SaveKeeps z fun _ db => OnDisk n db.blobFiles := by
  intro vs new db db' c hok hn _ hdone
  cases hdone with
  | empty hjobs => exact hn
  | pass hne hp =>
    have haccept : ∀ w, BlobOk ((db.accept c.id).blobFiles w) := hok.blobs
    exact runPass_onDisk (nodup_pas hp.jobsOf.sorted) haccept hn _ (noFailure_of_done hp.done)

/-- A handle starts with the files as they are. -/
theorem open_onDisk {dir : Dir} {k : ℕ} {t : UInt16} {u : Bool} (hopen : AppendOnlyDb.open dir k t u = .ok db) :
    OnDisk (fun w => ((dir.blobs w).getD []).length) db.blobFiles := by
  obtain ⟨-, -, -, -, -, -, -, -, -, -, -, hblobs⟩ := open_inv hopen
  intro w
  rw [hblobs]
  exact le_refl _

end Disk

/-! ## Flushing -/

section Flush

variable {z : Zstd} {vs : List Version} {db db' : AppendOnlyDb} {n : UInt8 → ℕ}

/-- What a flush leaves of a handle. -/
structure FlushOk (z : Zstd) (vs : List Version) (n : UInt8 → ℕ) (db db' : AppendOnlyDb) : Prop where
  handle : HandleOk z vs db'
  shadow : db'.shadow = db.shadow
  streams : db'.streams = db.streams
  onDisk : OnDisk n db'.blobFiles

/-- **A flush moves bytes to disk** and changes nothing else. -/
theorem flush_ok (h : HandleOk z vs db) (hn : OnDisk n db.blobFiles) (hf : db.flush = .ok db') :
    FlushOk z vs n db db' := by
  unfold AppendOnlyDb.flush at hf
  split at hf
  · rename_i hdone
    obtain rfl := Except.ok.inj hf
    -- the log's buffer is empty after every save
    have hlog : (db.logFile.flushBuf none).1 = db.logFile := by
      unfold BufWriter.flushBuf
      rw [h.log.buf]
      rfl
    have hstream : ∀ w, ((db.blobFiles w).writer.flushBuf none).1.stream = (db.blobFiles w).writer.stream :=
      fun w => BufWriter.flushBuf_stream (h.blobs w).ok none
    have hstreams : AppendOnlyDb.streams { db with
        logFile := (db.logFile.flushBuf none).1
        blobFiles := fun w => { db.blobFiles w with writer := ((db.blobFiles w).writer.flushBuf none).1 } } =
        db.streams := by
      funext w
      unfold AppendOnlyDb.streams BlobFile.stream
      dsimp only
      rw [hstream w]
    refine ⟨⟨h.workers, ?_, ?_, fun w => ?_, h.others, h.ordered, ?_, h.last, h.lastMax, h.shadow⟩, rfl, hstreams,
      fun w => ?_⟩
    · rw [hlog]; exact h.log
    · rw [hlog]; exact h.bytes
    · have hok := h.blobs w
      refine ⟨BufWriter.flushBuf_ok hok.ok none, ?_, ?_, ?_⟩
      · rw [BufWriter.flushBuf_cap]; exact hok.cap
      · rw [BufWriter.flushBuf_limit]; exact hok.limit
      · rw [hstream w]; exact hok.offset
    · rw [hstreams]; exact h.stored
    · exact (hn w).trans (BufWriter.flushBuf_file (h.blobs w).ok none).length_le
  · cases hf

end Flush

/-! ## The directory while the reader is open -/

/-- The lengths of some blob files, 0 for one that is not there. -/
def lengths (blobs : UInt8 → Option Bytes) : UInt8 → ℕ := fun w => ((blobs w).getD []).length

/-- **The directory holds the versions `vs`**, over blob files that extend `blobs₀` also on
disk, with a writer at work or without one. -/
inductive Standing (z : Zstd) (vs : List Version) (blobs₀ : UInt8 → Option Bytes) (s : Scene) : Prop
  | idle (hwriter : s.writer = none) (hdir : DirOk z vs s.dir) (hgrow : BlobsGrow blobs₀ s.dir.blobs)
  | busy {db : AppendOnlyDb} (hwriter : s.writer = some db) (hok : HandleOk z vs db) (hback : ShadowBacked vs db.shadow)
      (hgrow : BlobsGrow blobs₀ db.streams) (hdisk : OnDisk (lengths blobs₀) db.blobFiles)

section Stand

variable {z : Zstd} {vs : List Version} {blobs₀ : UInt8 → Option Bytes} {s : Scene}

/-- The directory does not depend on its readers. -/
theorem Standing.readers {s' : Scene} (h : Standing z vs blobs₀ s) (hdir : s'.dir = s.dir)
    (hwriter : s'.writer = s.writer) : Standing z vs blobs₀ s' := by
  cases h with
  | idle hidle hok hgrow => exact .idle (hwriter.trans hidle) (by rw [hdir]; exact hok) (by rw [hdir]; exact hgrow)
  | busy hbusy hok hback hgrow hdisk => exact .busy (hwriter.trans hbusy) hok hback hgrow hdisk

/-- A file that is long enough on disk shows the bytes it had. -/
theorem HandleOk.disk_grow {db : AppendOnlyDb} (hgrow : BlobsGrow blobs₀ db.streams)
    (hdisk : OnDisk (lengths blobs₀) db.blobFiles) : BlobsGrow blobs₀ db.disk.blobs := by
  intro w bs hbs
  obtain ⟨bs', hbs', hp⟩ := hgrow w bs hbs
  unfold AppendOnlyDb.streams at hbs'
  unfold AppendOnlyDb.disk
  dsimp only
  split at hbs'
  · rename_i hw
    rw [if_pos hw]
    obtain rfl := Option.some.inj hbs'
    refine ⟨_, rfl, List.prefix_of_prefix_length_le hp (List.prefix_append _ _) ?_⟩
    have hlen := hdisk w
    unfold lengths at hlen
    rwa [hbs] at hlen
  · rename_i hw
    rw [if_neg hw]
    exact ⟨bs', hbs', hp⟩

/-- **The mappings keep showing what they were made over.** -/
theorem Standing.blobs (h : Standing z vs blobs₀ s) : BlobsGrow blobs₀ s.disk.blobs := by
  unfold Scene.disk
  cases h with
  | idle hwriter hdir hgrow => rw [hwriter]; exact hgrow
  | busy hwriter hok hback hgrow hdisk => rw [hwriter]; exact HandleOk.disk_grow hgrow hdisk

/-- Somewhere the versions are stored, on disk or held back. -/
theorem Standing.stored (h : Standing z vs blobs₀ s) :
    Ordered vs ∧ ∃ blobs, BlobsGrow blobs₀ blobs ∧ ∀ v ∈ vs, Stored z vs blobs v := by
  cases h with
  | idle hwriter hdir hgrow => exact ⟨hdir.ordered, s.dir.blobs, hgrow, hdir.stored⟩
  | busy hwriter hok hback hgrow hdisk => exact ⟨hok.ordered, _, hgrow, hok.stored⟩

/-- **The log on disk is whole** whenever no save is running. -/
theorem Standing.readLogIndex (h : Standing z vs blobs₀ s) : readLogIndex s.disk = .ok (sortedChunks vs) := by
  obtain ⟨-, blobs, -, hst⟩ := h.stored
  have hlog : ∃ m, s.disk.log = some (writeLogHeader m ++ encodeAll (chunks vs)) := by
    unfold Scene.disk
    cases h with
    | idle hwriter hdir hgrow =>
      obtain ⟨m, hm, -⟩ := hdir.log
      rw [hwriter]
      exact ⟨m, hm⟩
    | busy hwriter hok hback hgrow hdisk =>
      obtain ⟨m, hm, -⟩ := hok.bytes
      rw [hwriter]
      exact ⟨m, congrArg some hm⟩
  obtain ⟨m, hm⟩ := hlog
  unfold Bxdb.readLogIndex
  rw [hm]
  exact buildLazyIndex_encode (chunks_plain hst) m

end Stand

/-! ## What the reader may find -/

/-- An index that was built while the reader was open: the records of the first versions
`vs₀` and of some of the saves since, stored in files that extend the mapped ones. -/
structure Built (z : Zstd) (vs₀ : List Version) (blobs₀ : UInt8 → Option Bytes) (saves : List SaveCall)
    (new : List Version) (idx : List ChunkRecord) : Prop where
  ordered : Ordered (vs₀ ++ new)
  records : Records saves new
  eq : idx = sortedChunks (vs₀ ++ new)
  stored : ∃ blobs, BlobsGrow blobs₀ blobs ∧ ∀ v ∈ vs₀ ++ new, Stored z (vs₀ ++ new) blobs v

/-- A store with the versions `vs₀`, stored in its files, and later versions `new`, stored
in files that extend them. -/
structure Shown (z : Zstd) (vs₀ new : List Version) (store : PageStore) : Prop where
  serves : Serves store (vs₀ ++ new)
  first : ∀ v ∈ vs₀, Stored z vs₀ store.blobs v
  later : ∃ blobs, BlobsGrow store.blobs blobs ∧ ∀ v ∈ vs₀ ++ new, Stored z (vs₀ ++ new) blobs v

/-- A log the index could have been built from. -/
theorem Built.log {z : Zstd} {vs₀ new : List Version} {blobs₀ : UInt8 → Option Bytes} {saves : List SaveCall}
    {idx : List ChunkRecord} (h : Built z vs₀ blobs₀ saves new idx) (m : UInt32) :
    buildLazyIndex (writeLogHeader m ++ encodeAll (chunks (vs₀ ++ new))) = .ok idx := by
  obtain ⟨blobs, -, hst⟩ := h.stored
  rw [h.eq]
  exact buildLazyIndex_encode (chunks_plain hst) m

section Show

variable {z : Zstd} {vs₀ new : List Version} {store : PageStore}

/-- The pages of two lists agree below the snapshots of what is only in the longer one. -/
theorem asOf_before {pa : UInt64} {t : ℕ} (hlt : ∀ v ∈ new, t < v.snap) {p : Option Page} :
    AsOf (pagesOf (vs₀ ++ new)) pa t p ↔ AsOf (pagesOf vs₀) pa t p := by
  refine asOf_congr_le fun u q hu => ?_
  rw [pagesOf_append]
  refine or_iff_left ?_
  rintro ⟨v, ⟨hv, -, rfl⟩, -⟩
  exact absurd (hlt v hv) (not_lt.2 hu)

/-- **Below the later versions a load finds the first ones**, all in the mapped bytes. -/
theorem Shown.before (hz : z.RoundTrip) (h : Shown z vs₀ new store) (pa : UInt64) {s : UInt32} (hs : s ≤ maxSnapshotId)
    (hlt : ∀ v ∈ new, s.toNat < v.snap) :
    ∃ p, store.loadPage z pa s = .ok p ∧ AsOf (pagesOf vs₀) pa s.toNat p := by
  have hall : StoredUpTo z (vs₀ ++ new) store.blobs s.toNat := by
    intro v hv hle
    rcases List.mem_append.1 hv with hv | hv
    · exact (h.first v hv).mono (fun _ hv => List.mem_append_left _ hv) (BlobsGrow.refl _)
    · exact absurd (hlt v hv) (not_lt.2 hle)
  obtain ⟨p, hload, hp⟩ := PageStore.loadPage_asOf hz h.serves pa hs hall
  exact ⟨p, hload, (asOf_before hlt).1 hp⟩

/-- **A load that returns Ok is right**, also where the mapped bytes may be too short. -/
theorem Shown.sound (hz : z.RoundTrip) (h : Shown z vs₀ new store) {pa : UInt64} {s : UInt32} {p : Option Page}
    (hload : store.loadPage z pa s = .ok p) : AsOf (pagesOf (vs₀ ++ new)) pa s.toNat p := by
  obtain ⟨blobs, hgrow, hst⟩ := h.later
  have hs : s ≤ maxSnapshotId := by
    by_contra hmax
    unfold PageStore.loadPage at hload
    rw [if_pos (UInt32.not_le.1 hmax)] at hload
    cases hload
  -- the same look-ups over all bytes that were ever accepted
  have hfull : Serves ⟨store.source, blobs⟩ (vs₀ ++ new) := ⟨h.serves.distinct, h.serves.floor, h.serves.exact⟩
  obtain ⟨q, hq, hasOf⟩ := PageStore.loadPage_asOf hz hfull pa hs fun v hv _ => hst v hv
  have hp : PageStore.loadPage z ⟨store.source, blobs⟩ pa s = .ok p := loadPage_grow hgrow hload
  rw [hp] at hq
  obtain rfl := Except.ok.inj hq
  exact hasOf

end Show

/-! ## The run -/

/-- The indices a reader may hold or come to hold: all built while it was open. -/
structure IndexOf (z : Zstd) (vs₀ : List Version) (blobs₀ : UInt8 → Option Bytes) (cs : List SaveCall) (s : Scene) :
    Prop where
  filled : ∀ idx, s.reader.source = .appendOnly (some idx) →
    ∃ saves new, saves <+: cs ∧ Built z vs₀ blobs₀ saves new idx
  offered : ∀ idx ∈ s.built, ∃ saves new, saves <+: cs ∧ Built z vs₀ blobs₀ saves new idx

/-- **The invariant of a run** beside a reader that was opened on `dir₀`, whose log held the
versions `vs₀`, as the store `store₀`. -/
structure SceneOk (z : Zstd) (vs₀ : List Version) (dir₀ : Dir) (store₀ : PageStore) (cs : List SaveCall)
    (as : List Answer) (s : Scene) : Prop where
  standing : ∃ new, Records cs new ∧ Standing z (vs₀ ++ new) dir₀.blobs s
  mapped : s.reader.mapped = fun w => (dir₀.blobs w).map List.length
  btree : ∀ mmap n, s.reader.source = .btree mmap n → store₀.source = .btree mmap n
  lazy : ∀ slot, s.reader.source = .appendOnly slot → ∃ log, store₀.source = .appendOnly log
  index : IndexOf z vs₀ dir₀.blobs cs s
  answers : ∀ store, Views s.reader dir₀.blobs store → ∀ a ∈ as, a.result = store.loadPage z a.pa a.snapshot

section Run

variable {z : Zstd} {vs₀ : List Version} {dir₀ : Dir} {store₀ : PageStore} {cs : List SaveCall} {as : List Answer}
  {s : Scene}

theorem IndexOf.mono {cs' : List SaveCall} {s' : Scene} (h : IndexOf z vs₀ dir₀.blobs cs s) (hcs : cs <+: cs')
    (hreader : s'.reader = s.reader) (hbuilt : s'.built = s.built) : IndexOf z vs₀ dir₀.blobs cs' s' := by
  refine ⟨fun idx hs => ?_, fun idx hi => ?_⟩
  · rw [hreader] at hs
    obtain ⟨saves, new, hp, hb⟩ := h.filled idx hs
    exact ⟨saves, new, hp.trans hcs, hb⟩
  · rw [hbuilt] at hi
    obtain ⟨saves, new, hp, hb⟩ := h.offered idx hi
    exact ⟨saves, new, hp.trans hcs, hb⟩

/-- A step that leaves the reader as it is. -/
theorem SceneOk.same {cs' : List SaveCall} {s' : Scene} (h : SceneOk z vs₀ dir₀ store₀ cs as s)
    (hreader : s'.reader = s.reader) (hindex : IndexOf z vs₀ dir₀.blobs cs' s')
    (hst : ∃ new, Records cs' new ∧ Standing z (vs₀ ++ new) dir₀.blobs s') : SceneOk z vs₀ dir₀ store₀ cs' as s' := by
  refine ⟨hst, ?_, ?_, ?_, hindex, ?_⟩
  · rw [hreader]; exact h.mapped
  · rw [hreader]; exact h.btree
  · rw [hreader]; exact h.lazy
  · rw [hreader]; exact h.answers

/-- A step of the writer. -/
theorem SceneOk.write {cs' : List SaveCall} {s' : Scene} (h : SceneOk z vs₀ dir₀ store₀ cs as s) (hcs : cs <+: cs')
    (hreader : s'.reader = s.reader) (hbuilt : s'.built = s.built)
    (hst : ∃ new, Records cs' new ∧ Standing z (vs₀ ++ new) dir₀.blobs s') : SceneOk z vs₀ dir₀ store₀ cs' as s' :=
  h.same hreader (h.index.mono hcs hreader hbuilt) hst

/-- **The index built now** is that of the versions there are now. -/
theorem SceneOk.built (h : SceneOk z vs₀ dir₀ store₀ cs as s) :
    ∃ new idx, readLogIndex s.disk = .ok idx ∧ Built z vs₀ dir₀.blobs cs new idx := by
  obtain ⟨new, hr, hst⟩ := h.standing
  obtain ⟨ho, hstored⟩ := hst.stored
  exact ⟨new, _, hst.readLogIndex, ho, hr, rfl, hstored⟩

/-- The mappings show the bytes of `dir₀`. -/
theorem SceneOk.blobs (h : SceneOk z vs₀ dir₀ store₀ cs as s) : s.reader.blobs s.disk = dir₀.blobs := by
  obtain ⟨new, -, hst⟩ := h.standing
  funext w
  unfold Reader.blobs
  rw [h.mapped]
  dsimp only
  cases hb : dir₀.blobs w with
  | none => rfl
  | some bs =>
    obtain ⟨bs', hbs', hp⟩ := hst.blobs w bs hb
    rw [hbs', Option.map_some, Option.map_some, Option.getD_some, ← List.prefix_iff_eq_take.1 hp]

/-- The slot is filled, by a load or by an offer. -/
theorem SceneOk.fill (h : SceneOk z vs₀ dir₀ store₀ cs as s) (hnone : s.reader.source = .appendOnly none)
    {idx : List ChunkRecord} (hb : ∃ saves new, saves <+: cs ∧ Built z vs₀ dir₀.blobs saves new idx) :
    SceneOk z vs₀ dir₀ store₀ cs as { s with reader := s.reader.filled idx } := by
  obtain ⟨new, hr, hst⟩ := h.standing
  refine ⟨⟨new, hr, hst.readers rfl rfl⟩, h.mapped, fun mmap n hs => ?_, fun slot hs => h.lazy _ hnone,
    ⟨fun idx' hs => ?_, h.index.offered⟩, fun store hv => h.answers store ?_⟩
  · cases hs
  · obtain rfl : idx = idx' := by simpa [Reader.filled] using hs
    exact hb
  · exact views_empty hnone hv.blobs

/-- **One load** by a reader whose slot is filled, or that has no slot. -/
theorem SceneOk.answer (h : SceneOk z vs₀ dir₀ store₀ cs as s) (hready : s.reader.Ready) {pa : UInt64} {snap : UInt32}
    {r : Reader} {result : Res (Option Page)} (hload : s.reader.loadPage z s.disk pa snap = (r, result)) :
    r = s.reader ∧ ∀ store, Views s.reader dir₀.blobs store → result = store.loadPage z pa snap := by
  have hsame : ∀ store, Views s.reader dir₀.blobs store →
      s.reader.loadPage z s.disk pa snap = (s.reader, store.loadPage z pa snap) := fun store hv =>
    Views.loadPage (by rw [h.blobs]; exact hv) hready pa snap
  have hview : ∃ store, Views s.reader dir₀.blobs store := by
    cases hs : s.reader.source with
    | btree mmap n => exact ⟨_, views_btree hs dir₀.blobs⟩
    | appendOnly slot =>
      cases slot with
      | none => exact absurd hs hready
      | some idx =>
        obtain ⟨saves, new, -, hb⟩ := h.index.filled idx hs
        exact ⟨_, views_lazy hs (hb.log 0) dir₀.blobs⟩
  obtain ⟨store, hv⟩ := hview
  rw [hsame store hv] at hload
  obtain ⟨rfl, -⟩ := Prod.mk.inj hload
  refine ⟨rfl, fun store' hv' => ?_⟩
  have heq := (hsame store' hv').symm.trans ((hsame store hv).trans hload)
  exact (Prod.mk.inj heq).2.symm

/-- **Every load keeps the invariant**, with its answer added. -/
theorem SceneOk.load (h : SceneOk z vs₀ dir₀ store₀ cs as s) {pa : UInt64} {snap : UInt32} {r : Reader}
    {result : Res (Option Page)} (hload : s.reader.loadPage z s.disk pa snap = (r, result)) :
    SceneOk z vs₀ dir₀ store₀ cs (as ++ [⟨pa, snap, result⟩]) { s with reader := r } := by
  have hadd : ∀ {s' : Scene}, SceneOk z vs₀ dir₀ store₀ cs as s' →
      (∀ store, Views s'.reader dir₀.blobs store → result = store.loadPage z pa snap) →
      SceneOk z vs₀ dir₀ store₀ cs (as ++ [⟨pa, snap, result⟩]) s' := by
    intro s' h' hres
    refine ⟨h'.standing, h'.mapped, h'.btree, h'.lazy, h'.index, fun store hv a ha => ?_⟩
    rcases List.mem_append.1 ha with ha | ha
    · exact h'.answers store hv a ha
    · obtain rfl := List.mem_singleton.1 ha
      exact hres store hv
  by_cases hready : s.reader.Ready
  · obtain ⟨rfl, hres⟩ := h.answer hready hload
    exact hadd h hres
  have hnone : s.reader.source = .appendOnly none := not_not.1 hready
  by_cases hmax : maxSnapshotId < snap
  · -- refused before the slot is looked at
    have hrefused : ∀ store : PageStore, (s.reader, store.loadPage z pa snap) = (r, result) := fun store =>
      (Reader.loadPage_refused pa hmax).symm.trans hload
    obtain ⟨rfl, -⟩ := Prod.mk.inj (hrefused store₀)
    exact hadd h fun store _ => (Prod.mk.inj (hrefused store)).2.symm
  · obtain ⟨new, idx, hread, hb⟩ := h.built
    rw [Reader.loadPage_first hnone hread pa (UInt32.not_lt.1 hmax)] at hload
    have h' := h.fill hnone ⟨cs, new, List.prefix_refl _, hb⟩
    obtain ⟨rfl, hres⟩ := h'.answer (by simp [Reader.Ready, Reader.filled]) hload
    exact hadd h' hres

end Run

/-! ## Every step keeps the invariant -/

theorem BlobsGrow.lengths {blobs blobs' : UInt8 → Option Bytes} (h : BlobsGrow blobs blobs') (w : UInt8) :
    lengths blobs w ≤ lengths blobs' w := by
  unfold Bxdb.lengths
  cases hb : blobs w with
  | none => exact Nat.zero_le _
  | some bs =>
    obtain ⟨bs', hb', hp⟩ := h w bs hb
    rw [hb']
    exact hp.length_le

section Steps

variable {z : Zstd} {vs : List Version} {blobs₀ : UInt8 → Option Bytes} {s : Scene}

theorem Standing.openWriter {n : ℕ} {t : UInt16} {u : Bool} {db : AppendOnlyDb} (h : Standing z vs blobs₀ s)
    (hidle : s.writer = none) (hopen : AppendOnlyDb.open s.dir n t u = .ok db) :
    Standing z vs blobs₀ { s with writer := some db } := by
  cases h with
  | busy hwriter => rw [hidle] at hwriter; cases hwriter
  | idle hwriter hdir hgrow =>
    obtain ⟨hok, hback⟩ := open_ok hdir hopen
    exact .busy rfl hok hback (hgrow.trans (open_grow hopen)) fun w => (hgrow.lengths w).trans (open_onDisk hopen w)

theorem Standing.save {db db' : AppendOnlyDb} {c : SaveCall} {schedule : List (ℕ × Fault)}
    (h : Standing z vs blobs₀ s) (hwriter : s.writer = some db) (hsave : c.run z schedule db = some (db', .ok ()))
    (hrange : c.InRange) : ∃ new, Records [c] new ∧ Standing z (vs ++ new) blobs₀ { s with writer := some db' } := by
  cases h with
  | idle hidle => rw [hidle] at hwriter; cases hwriter
  | @busy db₁ hwriter₁ hok hback hgrow hdisk =>
    obtain rfl : db₁ = db := Option.some.inj (hwriter₁.symm.trans hwriter)
    have hsaves : Saves z db₁ [c] db' := .snoc .nil hsave
    obtain ⟨new, hsaved, hdisk'⟩ :=
      SaveKeeps.saves (onDisk_saveKeeps z (lengths blobs₀)) hok hback hdisk hsaves (by simpa using hrange)
    exact ⟨new, hsaved.records, .busy rfl hsaved.handle hsaved.backed (hgrow.trans hsaved.grow) hdisk'⟩

theorem Standing.flush {db db' : AppendOnlyDb} (h : Standing z vs blobs₀ s) (hwriter : s.writer = some db)
    (hflush : db.flush = .ok db') : Standing z vs blobs₀ { s with writer := some db' } := by
  cases h with
  | idle hidle => rw [hidle] at hwriter; cases hwriter
  | @busy db₁ hwriter₁ hok hback hgrow hdisk =>
    obtain rfl : db₁ = db := Option.some.inj (hwriter₁.symm.trans hwriter)
    have hf := flush_ok hok hdisk hflush
    exact .busy rfl hf.handle (by rw [hf.shadow]; exact hback) (by rw [hf.streams]; exact hgrow) hf.onDisk

theorem Standing.close {db : AppendOnlyDb} {dir' : Dir} (h : Standing z vs blobs₀ s) (hwriter : s.writer = some db)
    (hclose : db.close = .ok dir') : Standing z vs blobs₀ { s with dir := dir', writer := none } := by
  cases h with
  | idle hidle => rw [hidle] at hwriter; cases hwriter
  | @busy db₁ hwriter₁ hok hback hgrow hdisk =>
    obtain rfl : db₁ = db := Option.some.inj (hwriter₁.symm.trans hwriter)
    obtain ⟨-, -, hblobs⟩ := close_inv hok.log hok.blobs hclose
    exact .idle rfl (close_ok hok hclose) (by rw [hblobs]; exact hgrow)

theorem Standing.convert {dir' : Dir} (h : Standing z vs blobs₀ s) (hidle : s.writer = none)
    (hconvert : toBtree s.dir = .ok dir') : Standing z vs blobs₀ { s with dir := dir' } := by
  cases h with
  | busy hwriter => rw [hidle] at hwriter; cases hwriter
  | idle hwriter hdir hgrow =>
    rw [toBtree_ok hdir] at hconvert
    obtain rfl := Except.ok.inj hconvert
    exact .idle hwriter ⟨hdir.ordered, hdir.log, hdir.stored, hdir.small⟩ hgrow

end Steps

section Reached

variable {z : Zstd} {vs₀ : List Version} {dir₀ : Dir} {store₀ : PageStore} {r₀ : Reader} {cs : List SaveCall}
  {as : List Answer} {s : Scene}

/-- The scene when the reader has just been opened. -/
abbrev Scene.opened (dir : Dir) (r : Reader) : Scene := ⟨dir, none, r, []⟩

theorem sceneOk_opened (hd : DirOk z vs₀ dir₀) (hr : Reader.open dir₀ = .ok r₀) (ho : Opened dir₀ store₀ r₀) :
    SceneOk z vs₀ dir₀ store₀ [] [] (.opened dir₀ r₀) where
  standing := ⟨[], Records.nil, by rw [List.append_nil]; exact .idle rfl hd (BlobsGrow.refl _)⟩
  mapped := ho.mapped
  btree := ho.views.btree
  lazy slot hs := by
    cases slot with
    | none =>
      obtain ⟨log, -, hsrc⟩ := ho.unbuilt hs
      exact ⟨log, hsrc⟩
    | some idx => exact absurd hs (Reader.open_unfilled hr idx)
  index := ⟨fun idx hs => absurd hs (Reader.open_unfilled hr idx), by simp⟩
  answers _ _ _ ha := by simp at ha

/-- **Every run keeps the invariant.** -/
theorem watched_ok (hd : DirOk z vs₀ dir₀) (hr : Reader.open dir₀ = .ok r₀) (ho : Opened dir₀ store₀ r₀)
    (hw : Watched z (.opened dir₀ r₀) cs as s) (hrange : ∀ c ∈ cs, c.InRange) :
    SceneOk z vs₀ dir₀ store₀ cs as s := by
  induction hw with
  | start => exact sceneOk_opened hd hr ho
  | openWriter _ hidle hopen ih =>
    have h := ih hrange
    obtain ⟨new, hrec, hst⟩ := h.standing
    exact h.write (List.prefix_refl _) rfl rfl ⟨new, hrec, hst.openWriter hidle hopen⟩
  | @save cs as s db db' c schedule _ hwriter hsave ih =>
    have h := ih fun c' hc' => hrange c' (List.mem_append_left _ hc')
    obtain ⟨new, hrec, hst⟩ := h.standing
    obtain ⟨new', hrec', hst'⟩ :=
      hst.save hwriter hsave (hrange c (List.mem_append_right _ (List.mem_singleton_self c)))
    exact h.write (List.prefix_append _ _) rfl rfl
      ⟨new ++ new', hrec.append hrec', by rw [← List.append_assoc]; exact hst'⟩
  | flush _ hwriter hflush ih =>
    have h := ih hrange
    obtain ⟨new, hrec, hst⟩ := h.standing
    exact h.write (List.prefix_refl _) rfl rfl ⟨new, hrec, hst.flush hwriter hflush⟩
  | close _ hwriter hclose ih =>
    have h := ih hrange
    obtain ⟨new, hrec, hst⟩ := h.standing
    exact h.write (List.prefix_refl _) rfl rfl ⟨new, hrec, hst.close hwriter hclose⟩
  | convert _ hidle hconvert ih =>
    have h := ih hrange
    obtain ⟨new, hrec, hst⟩ := h.standing
    exact h.write (List.prefix_refl _) rfl rfl ⟨new, hrec, hst.convert hidle hconvert⟩
  | @build cs as s built _ hempty hbuild ih =>
    have h := ih hrange
    obtain ⟨new, idx, hread, hb⟩ := h.built
    obtain rfl : idx = built := Except.ok.inj (hread.symm.trans hbuild)
    obtain ⟨now, hrec, hst⟩ := h.standing
    refine h.same rfl ⟨h.index.filled, fun idx' hi => ?_⟩ ⟨now, hrec, hst.readers rfl rfl⟩
    rcases List.mem_cons.1 hi with rfl | hi
    · exact ⟨cs, new, List.prefix_refl _, hb⟩
    · exact h.index.offered idx' hi
  | @offer cs as s slot built _ hbuilt hslot ih =>
    have h := ih hrange
    cases slot with
    | none => exact h.fill hslot (h.index.offered built hbuilt)
    | some idx =>
      -- the slot keeps what it has
      have hsame : ({ s.reader with source := .appendOnly (some (getOrInit (some idx) built)) } : Reader) = s.reader := by
        unfold getOrInit
        rw [Option.getD_some, ← hslot]
      rw [hsame]
      exact h
  | load _ hload ih => exact (ih hrange).load hload

end Reached

/-! ## What the reader answers -/

/-- **What a reader has to do with the saves**: it views a store with the saves it found
when it was opened and, unless it maps an index, some of the saves made since. -/
structure Seen (z : Zstd) (conv : Option (List SaveCall)) (cs₀ cs : List SaveCall) (as : List Answer)
    (saves : List SaveCall) (store : PageStore) (first new : List Version) : Prop where
  isPrefix : saves <+: cs
  shown : Shown z first new store
  found : Records (conv.getD cs₀) first
  all : Records (conv.getD (cs₀ ++ saves)) (first ++ new)
  ids : ∀ v ∈ new, ∃ c ∈ cs, v.snap = c.id.toNat
  answers : ∀ a ∈ as, a.result = store.loadPage z a.pa a.snapshot

section Answers

variable {z : Zstd} {cs₀ cs : List SaveCall} {conv : Option (List SaveCall)} {dir₀ : Dir} {vs₀ : List Version}
  {store₀ : PageStore} {as : List Answer} {s : Scene}

theorem Records.ids {new : List Version} (h : Records cs new) : ∀ v ∈ new, ∃ c ∈ cs, v.snap = c.id.toNat := by
  intro v hv
  obtain ⟨c, hc, hid, -⟩ := (h v.pa v.snap v.page).1 ⟨v, ⟨hv, rfl, rfl⟩, rfl⟩
  exact ⟨c, hc, hid.symm⟩

/-- A reader of the log. -/
theorem SceneOk.seen_log (h : SceneOk z vs₀ dir₀ store₀ cs as s) (hd : DirOk z vs₀ dir₀) (hr : Records cs₀ vs₀)
    {slot : Option (List ChunkRecord)} (hs : s.reader.source = .appendOnly slot) :
    ∃ saves store first new, Seen z none cs₀ cs as saves store first new := by
  obtain ⟨saves, new, idx, hp, hb, hview⟩ : ∃ saves new idx, saves <+: cs ∧ Built z vs₀ dir₀.blobs saves new idx ∧
      Views s.reader dir₀.blobs ⟨.appendOnly (writeLogHeader 0 ++ encodeAll (chunks (vs₀ ++ new))), dir₀.blobs⟩ := by
    cases slot with
    | none =>
      obtain ⟨new, idx, -, hb⟩ := h.built
      exact ⟨cs, new, idx, List.prefix_refl _, hb, views_empty hs rfl⟩
    | some idx =>
      obtain ⟨saves, new, hp, hb⟩ := h.index.filled idx hs
      exact ⟨saves, new, idx, hp, hb, views_lazy hs (hb.log 0) dir₀.blobs⟩
  obtain ⟨blobs, hgrow, hst⟩ := hb.stored
  have hserves := serves_log hb.ordered.distinct (fun v hv => (hst v hv).plain) 0
    (show ([] : Bytes).length < logRecordBaseSize by decide) dir₀.blobs
  rw [List.append_nil] at hserves
  refine ⟨saves, _, vs₀, new, hp, ⟨hserves, hd.stored, blobs, hgrow, hst⟩, hr, hr.append hb.records, ?_,
    h.answers _ hview⟩
  intro v hv
  obtain ⟨c, hc, hid⟩ := hb.records.ids v hv
  exact ⟨c, hp.subset hc, hid⟩

/-- A reader of an index. -/
theorem SceneOk.seen_index (h : SceneOk z vs₀ dir₀ store₀ cs as s) {saves : List SaveCall}
    (hi : IndexOk z saves dir₀) (ho : PageStore.open dir₀ = .ok store₀) {mmap : Bytes} {n : ℕ}
    (hs : s.reader.source = .btree mmap n) : ∃ store first new, Seen z (some saves) cs₀ cs as [] store first new := by
  obtain ⟨us, hord, hr, hidx, hst⟩ := hi
  obtain ⟨store, hopen, hblobs, hserves⟩ := open_indexFile hord hidx
  obtain rfl : store₀ = store := Except.ok.inj (ho.symm.trans hopen)
  have hview : Views s.reader dir₀.blobs store₀ :=
    ⟨hblobs, h.btree, fun idx h' => by rw [hs] at h'; cases h'⟩
  have hst' : ∀ v ∈ us, Stored z us store₀.blobs v := by
    rw [hblobs]
    exact hst
  refine ⟨store₀, us, [], List.nil_prefix, ⟨?_, hst', store₀.blobs, BlobsGrow.refl _, ?_⟩, hr, ?_, by simp,
    h.answers _ hview⟩
  · rwa [List.append_nil]
  · rwa [List.append_nil]
  · rw [List.append_nil us]
    exact hr

/-- **What the reader has seen**, on any directory that sessions and conversions made. -/
theorem watched_seen {r₀ : Reader} (hist : History z cs₀ conv dir₀) (hr : Reader.open dir₀ = .ok r₀)
    (hw : Watched z (.opened dir₀ r₀) cs as s) (hrange : ∀ c ∈ cs₀ ++ cs, c.InRange) :
    ∃ saves store first new, Seen z conv cs₀ cs as saves store first new := by
  obtain ⟨vs₀, hok⟩ := history_ok hist fun c hc => hrange c (List.mem_append_left _ hc)
  obtain ⟨store₀, ho⟩ := Reader.open_inv hr
  have h := watched_ok hok.dirOk hr ho hw fun c hc => hrange c (List.mem_append_right _ hc)
  cases hs : s.reader.source with
  | btree mmap n =>
    cases conv with
    | none =>
      -- a directory without an index is opened as its log
      obtain ⟨m, hm, -⟩ := hok.dirOk.log
      have hopen := open_log (hok.none rfl) hm
      rw [ho.opened] at hopen
      have hsrc := h.btree mmap n hs
      rw [Except.ok.inj hopen] at hsrc
      cases hsrc
    | some saves =>
      obtain ⟨store, first, new, hseen⟩ := h.seen_index (hok.some saves rfl) ho.opened hs
      exact ⟨[], store, first, new, hseen⟩
  | appendOnly slot =>
    cases conv with
    | none => exact h.seen_log hok.dirOk hok.records hs
    | some saves =>
      -- and one with an index as the index
      obtain ⟨us, -, -, hidx, -⟩ := hok.some saves rfl
      have hopen : PageStore.open dir₀ = _ := open_index hidx
      obtain ⟨log, hlog⟩ := h.lazy slot hs
      rw [ho.opened] at hopen
      rw [Except.ok.inj hopen] at hlog
      cases hlog

/-- A load below the saves made since is answered from the ones before. -/
theorem Seen.isolated (hz : z.RoundTrip) {saves : List SaveCall} {store : PageStore} {first new : List Version}
    (h : Seen z conv cs₀ cs as saves store first new) {a : Answer} (ha : a ∈ as) (hs : a.snapshot ≤ maxSnapshotId)
    (hlt : ∀ c ∈ cs, a.snapshot < c.id) :
    ∃ p, a.result = .ok p ∧ AsOf (savedBy (conv.getD cs₀)) a.pa a.snapshot.toNat p := by
  have hnew : ∀ v ∈ new, a.snapshot.toNat < v.snap := by
    intro v hv
    obtain ⟨c, hc, hid⟩ := h.ids v hv
    rw [hid]
    exact UInt32.lt_iff_toNat_lt.1 (hlt c hc)
  obtain ⟨p, hload, hasOf⟩ := h.shown.before hz a.pa hs hnew
  exact ⟨p, (h.answers a ha).trans hload, h.found.asOf.1 hasOf⟩

/-- **An open reader is isolated from later saves.** Whatever is saved, flushed and converted
after it was opened, in whatever order with its loads and with the indices its threads
build, a load at a snapshot below the later ones returns Ok, with the page that the saves
it was opened on gave. -/
theorem reader_isolated (hz : z.RoundTrip) {r₀ : Reader} (hist : History z cs₀ conv dir₀)
    (hr : Reader.open dir₀ = .ok r₀) (hw : Watched z (.opened dir₀ r₀) cs as s) (hrange : ∀ c ∈ cs₀ ++ cs, c.InRange)
    {a : Answer} (ha : a ∈ as) (hs : a.snapshot ≤ maxSnapshotId) (hlt : ∀ c ∈ cs, a.snapshot < c.id) :
    ∃ p, a.result = .ok p ∧ AsOf (savedBy (conv.getD cs₀)) a.pa a.snapshot.toNat p := by
  obtain ⟨saves, store, first, new, h⟩ := watched_seen hist hr hw hrange
  exact h.isolated hz ha hs hlt

end Answers

/-! ## A save while a reader is open -/

/-- The reader looks up after the save, and so builds its index with it. -/
theorem watched_noise : ∃ dir r s a b, History Zstd.raw (onePages [(noise 1, 1)]) none dir ∧ Reader.open dir = .ok r ∧
    Watched Zstd.raw (.opened dir r) (onePages [(noise 2, 4)]) [⟨0, 3, a⟩, ⟨0, 5, b⟩] s := by
  obtain ⟨dir, h, hi, hroom⟩ : ∃ dir, Session Zstd.raw Dir.empty (onePages [(noise 1, 1)]) dir ∧ dir.IdsBelow 2 ∧
      dir.HasRoom (3 * 1 * blobBufCap + 0) :=
    session_onePages Zstd.raw_small (by decide : 1 ≤ 4 ∧ 4 ≤ 255) 512 true (by simp) (by simp) (by decide) (by decide) _
      (by decide)
  obtain ⟨vs, hd, -, hidx⟩ := session_first h (onePages_inRange _)
  obtain ⟨m, hm, -⟩ := hd.log
  obtain ⟨r, hr⟩ : ∃ r, Reader.open dir = .ok r := by
    unfold Reader.open
    rw [open_log hidx hm]
    exact ⟨_, rfl⟩
  obtain ⟨db, hopen⟩ := open_completes (by decide : 1 ≤ 2 ∧ 2 ≤ 255) 0 true (.inr ⟨m, _, hm⟩)
  obtain ⟨hok, -⟩ := open_ok hd hopen
  obtain ⟨schedule, db', hsave, -⟩ := save_completes Zstd.raw_small
    (onePage_valid (noise 2) (by decide : (4 : UInt32) ≤ maxSnapshotId)) hok.blobs
    (fun l hl => UInt32.lt_of_lt_of_le ((open_below hi hopen).last l hl) (by decide : (2 : UInt32) ≤ 4)) (open_room hroom hopen).1
  have hopened : Watched Zstd.raw (.opened dir r) [] [] ⟨dir, some db, r, []⟩ := .openWriter .start rfl hopen
  have hsaved : Watched Zstd.raw (.opened dir r) ([] ++ [onePage (noise 2) 4]) [] ⟨dir, some db', r, []⟩ :=
    .save hopened rfl hsave
  exact ⟨dir, r, _, _, _, .first h, hr, .load (.load hsaved rfl) rfl⟩

/-- The load at snapshot 3 does not see the save of snapshot 4. -/
theorem reader_isolated_noise : ∃ dir r s a b, Reader.open dir = .ok r ∧
    Watched Zstd.raw (.opened dir r) (onePages [(noise 2, 4)]) [⟨0, 3, a⟩, ⟨0, 5, b⟩] s ∧ a = .ok (some (noise 1)) := by
  obtain ⟨dir, r, s, a, b, hist, hr, hw⟩ := watched_noise
  have hmem : (⟨0, 3, a⟩ : Answer) ∈ [⟨0, 3, a⟩, ⟨0, 5, b⟩] := List.mem_cons_self
  obtain ⟨p, ha, hasOf⟩ := reader_isolated Zstd.raw_roundTrip hist hr hw
    (onePages_inRange [(noise 1, 1), (noise 2, 4)]) hmem (by decide : (3 : UInt32) ≤ maxSnapshotId)
    (by simp [onePages, onePage, SaveCall.id])
  obtain ⟨vs, hok⟩ := history_ok hist (onePages_inRange _)
  have hfun := hok.records.functional hok.dirOk.ordered.distinct
  have hp : p = some (noise 1) := hasOf.unique hfun (latestPage_asOf 3 [(noise 1, 1)] (by simp))
  exact ⟨dir, r, s, a, b, hr, hw, by rw [← hp]; exact ha⟩

end Bxdb
