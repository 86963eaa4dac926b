import Bxdb.Proof.Layout
import Bxdb.Proof.PurgeCompose

/-!
# Two schedules of one save

The tasks of a save share the shadow and the worker files. A schedule decides where in
its file a task's bytes go, and nothing else.

* `HandleWell`: what holds of **every handle**, on any directory that sessions with any
  calls, conversions and purges lead to (`reached_well`, `HandleWell.calls`).
* `Ran`: a save that returned Ok, apart from the order of its appends.
* `schedule_independent`: **two schedules of one save give the same records up to the
  offset, the same shadow and files of the same lengths**, and its records resolve alike.
-/

namespace Bxdb

open Bytes Buffered SortedIndex ChunkRecord

/-! ## Records and the bytes they name -/

/-- The record can be read back from a log, and the bytes it names are in its file. -/
structure Held (blobs : UInt8 → Option Bytes) (r : ChunkRecord) : Prop where
  plain : r.Plain
  inFile : r.kind ≠ .zero → ∃ bs, blobs r.workerId = some bs ∧ endOf r ≤ bs.length

theorem Held.mono {blobs blobs' : UInt8 → Option Bytes} {r : ChunkRecord} (h : Held blobs r) (hg : BlobsGrow blobs blobs') :
    Held blobs' r := by
  refine ⟨h.plain, fun hk => ?_⟩
  obtain ⟨bs, hbs, hle⟩ := h.inFile hk
  obtain ⟨bs', hbs', hp⟩ := hg _ _ hbs
  exact ⟨bs', hbs', hle.trans hp.length_le⟩

/-- There is no index file, or it lists records that are held. -/
def IndexHeld (blobs : UInt8 → Option Bytes) (idx : Option Bytes) : Prop :=
  ∀ bytes, idx = some bytes → ∃ rs, bytes = indexFile rs ∧ KeySorted rs ∧ ∀ r ∈ rs, Held blobs r

theorem IndexHeld.mono {blobs blobs' : UInt8 → Option Bytes} {idx : Option Bytes} (h : IndexHeld blobs idx)
    (hg : BlobsGrow blobs blobs') : IndexHeld blobs' idx := by
  intro bytes hb
  obtain ⟨rs, hrs, hs, hheld⟩ := h bytes hb
  exact ⟨rs, hrs, hs, fun r hr => (hheld r hr).mono hg⟩

/-- What holds of a directory between sessions: nothing is said of what a Delta is
based on. -/
structure DirWell (rs : List ChunkRecord) (dir : Dir) : Prop where
  log : dir.log = none ∧ rs = [] ∨ ∃ m, dir.log = some (writeLogHeader m ++ encodeAll rs)
  records : ∀ r ∈ rs, Held dir.blobs r
  idx : IndexHeld dir.blobs dir.idx
  small : ∀ w bs, dir.blobs w = some bs → bs.length ≤ maxFileLen

/-- What holds of a handle between calls. A shadow entry's snapshot id is used up. -/
structure HandleWell (rs : List ChunkRecord) (db : AppendOnlyDb) : Prop where
  workers : 1 ≤ db.workerCount ∧ db.workerCount ≤ 255
  log : LogOk db.logFile
  bytes : ∃ m, db.logFile.file.bytes = writeLogHeader m ++ encodeAll rs
  blobs : ∀ w, BlobOk (db.blobFiles w)
  others : ∀ w bs, db.dir.blobs w = some bs → bs.length ≤ maxFileLen
  records : ∀ r ∈ rs, Held db.streams r
  idx : IndexHeld db.streams db.dir.idx
  shadow : ∀ pa key page, db.shadow pa = some (key, page) → ∃ l, db.lastSnapshot = some l ∧ snapshotOf key ≤ l

section

variable {z : Zstd} {rs : List ChunkRecord} {dir dir' : Dir} {db db' db₁ db₂ : AppendOnlyDb} {c : SaveCall} {id : UInt32}

theorem DirWell.open (h : DirWell rs dir) {n : ℕ} {t : UInt16} {u : Bool} (hopen : AppendOnlyDb.open dir n t u = .ok db) :
    HandleWell rs db := by
  obtain ⟨hw, hblobs, hothers, hsh⟩ := open_handle hopen h.small
  obtain ⟨-, -, -, -, -, hdir, -⟩ := open_inv hopen
  have hgrow := open_grow hopen
  have hlog : LogOk db.logFile ∧ ∃ m, db.logFile.file.bytes = writeLogHeader m ++ encodeAll rs := by
    rcases h.log with ⟨hnone, rfl⟩ | ⟨m, hm⟩
    · obtain ⟨hok, hbytes, -⟩ := open_newLog hnone hopen
      exact ⟨hok, 0, hbytes⟩
    · obtain ⟨hok, hbytes, -⟩ := open_logFile hm hopen
      exact ⟨hok, m, hbytes⟩
  refine ⟨hw, hlog.1, hlog.2, hblobs, hothers, fun r hr => (h.records r hr).mono hgrow, ?_, fun pa key page hp => ?_⟩
  · rw [hdir]
    exact h.idx.mono hgrow
  · rw [hsh] at hp
    simp [Shadow.new] at hp

theorem HandleWell.close (h : HandleWell rs db) (hc : db.close = .ok dir') : DirWell rs dir' := by
  obtain ⟨hl, hi, hb⟩ := close_inv h.log h.blobs hc
  obtain ⟨m, hm⟩ := h.bytes
  refine ⟨.inr ⟨m, by rw [hl, hm]⟩, ?_, ?_, close_small h.blobs h.others hc⟩
  · rw [hb]
    exact h.records
  · rw [hb, hi]
    exact h.idx

/-! ## One save -/

/-- A save over `jobs` that returned Ok: what it left, apart from where in the files. -/
structure Ran (z : Zstd) (db : AppendOnlyDb) (id : UInt32) (jobs : List Job) (db' : AppendOnlyDb)
    (new : List ChunkRecord) : Prop where
  setup : SameSetup db db'
  length : new.length = jobs.length
  recorded : ∀ (i : ℕ) (job : Job) (rec : ChunkRecord), jobs[i]? = some job → new[i]? = some rec →
    Recorded z (db.accept id) id db'.blobFiles job rec
  shadow : ∀ job ∈ jobs, db'.shadow job.pa = shadowAfter z (db.accept id) id job
  elsewhere : ∀ pa, (∀ job ∈ jobs, job.pa ≠ pa) → db'.shadow pa = db.shadow pa
  total : ∀ w, (db'.blobFiles w).stream.length = (db.blobFiles w).stream.length + (new.map (ChunkRecord.lenIn w)).sum
  grow : ∀ w, (db.blobFiles w).stream <+: (db'.blobFiles w).stream

/-- What a task appended is what its record names. -/
theorem lenIn_done (w : UInt8) (new : List ChunkRecord) :
    ((new.map Task.done).map (Task.lenIn w)).sum = (new.map (ChunkRecord.lenIn w)).sum := by
  rw [List.map_map]
  rfl

theorem ran_pass {jobs : List Job} {schedule : List (ℕ × Fault)} (h : HandleWell rs db)
    (hpas : (jobs.map Job.pa).Nodup) {new : List ChunkRecord}
    (hdone : (runPass z (db.accept id) id jobs schedule).tasks = new.map .done) :
    Ran z db id jobs ((afterPass db id (runPass z (db.accept id) id jobs schedule)).commit id new) new := by
  have hblobs : ∀ w, BlobOk ((db.accept id).blobFiles w) := h.blobs
  have hnf := noFailure_of_done hdone
  have hinv : PassInv z (db.accept id) id jobs _ := runPass_inv hpas hblobs schedule (.inr hnf)
  have hlayout := runPass_layout hpas hblobs schedule hnf
  have hlen : new.length = jobs.length := by
    have := hinv.length
    rwa [hdone, List.length_map] at this
  have htask : ∀ {i : ℕ} {rec : ChunkRecord}, new[i]? = some rec →
      (runPass z (db.accept id) id jobs schedule).tasks[i]? = some (.done rec) := by
    intro i rec hr
    rw [hdone, List.getElem?_map, hr]
    rfl
  refine ⟨⟨rfl, rfl, rfl, rfl⟩, hlen, fun i job rec hj hr => (hinv.tasks i job _ hj (htask hr)).1, fun job hj => ?_,
    hinv.shadow, fun w => ?_, hinv.grow⟩
  · obtain ⟨i, hi, rfl⟩ := List.getElem_of_mem hj
    have hr : new[i]? = some new[i] := List.getElem?_eq_getElem (hlen ▸ hi)
    exact (hinv.tasks i _ _ (List.getElem?_eq_getElem hi) (htask hr)).2
  · have := hlayout.total w
    rw [hdone, lenIn_done] at this
    exact this

/-- A record of a pass names what its page was encoded to. -/
theorem Recorded.held {blobFiles : UInt8 → BlobFile} {job : Job} {rec : ChunkRecord} {streams : UInt8 → Option Bytes}
    (h : Recorded z db id blobFiles job rec)
    (hs : streams (workerOf db.workerCount job.pa) = some (blobFiles (workerOf db.workerCount job.pa)).stream) :
    Held streams rec := by
  obtain ⟨off, len, rfl, hdata⟩ := h
  cases hp : planOf z db job with
  | zero => exact ⟨newZero_plain _, fun hk => absurd rfl hk⟩
  | delta baseKey data =>
    obtain hd := hdata (by rw [hp]; simp)
    exact ⟨newDelta_plain _ _ _ _ _, fun _ => ⟨_, hs, by unfold endOf; exact hd.len_eq ▸ hd.fits⟩⟩
  | full data =>
    obtain hd := hdata (by rw [hp]; simp)
    exact ⟨newFull_plain _ _ _ _, fun _ => ⟨_, hs, by unfold endOf; exact hd.len_eq ▸ hd.fits⟩⟩

theorem Ran.held {jobs : List Job} {new : List ChunkRecord} (hr : Ran z db id jobs db' new)
    (hw : 1 ≤ db.workerCount ∧ db.workerCount ≤ 255) : ∀ r ∈ new, Held db'.streams r := by
  intro r hmem
  obtain ⟨i, hi, rfl⟩ := List.getElem_of_mem hmem
  obtain ⟨job, hj⟩ : ∃ job, jobs[i]? = some job := ⟨_, List.getElem?_eq_getElem (hr.length ▸ hi)⟩
  refine (hr.recorded i job _ hj (List.getElem?_eq_getElem hi)).held ?_
  have hworkers : 1 ≤ db'.workerCount ∧ db'.workerCount ≤ 255 := by rwa [hr.setup.workerCount]
  have := streams_worker hworkers job.pa
  rwa [hr.setup.workerCount] at this

/-- An entry of the shadow after a save: an old one, or one of the save's own. -/
theorem Ran.shadow_cases {jobs : List Job} {new : List ChunkRecord} (hr : Ran z db id jobs db' new) {pa key : UInt64}
    {page : Page} (hsh : db'.shadow pa = some (key, page)) : db.shadow pa = some (key, page) ∨ key = encodeKey pa id := by
  by_cases hjob : ∃ job ∈ jobs, job.pa = pa
  · obtain ⟨job, hj, rfl⟩ := hjob
    rw [hr.shadow job hj] at hsh
    rcases shadowAfter_cases z (db.accept id) id job with hs | ⟨hs, -⟩
    · exact .inl (hs.symm.trans hsh)
    · rw [hs] at hsh
      exact .inr (Prod.mk.inj (Option.some.inj hsh)).1.symm
  · rw [hr.elsewhere pa fun job hj hp => hjob ⟨job, hj, hp⟩] at hsh
    exact .inl hsh

/-- Old shadow entries are still used up, and so is a new one of the id just taken. -/
theorem HandleWell.entry (h : HandleWell rs db) (hid : id ≤ maxSnapshotId)
    (hlast : ∀ l, db.lastSnapshot = some l → l < id) {pa key : UInt64} {page : Page}
    (hsh : db.shadow pa = some (key, page) ∨ key = encodeKey pa id) : snapshotOf key ≤ id := by
  rcases hsh with hold | rfl
  · obtain ⟨l, hl, hle⟩ := h.shadow pa key page hold
    exact UInt32.le_trans hle (UInt32.le_of_lt (hlast l hl))
  · rw [snapshotOf_encodeKey hid]
    exact UInt32.le_refl _

/-- **A save that returns Ok.** -/
theorem HandleWell.saved (h : HandleWell rs db) {schedule : List (ℕ × Fault)}
    (hrun : c.run z schedule db = some (db', .ok ())) :
    ∃ jobs new, JobsOf c jobs ∧ Ran z db c.id jobs db' new ∧ HandleWell (rs ++ new) db' := by
  obtain ⟨hcase, -⟩ := runCall_cases hrun
  obtain ⟨hid, hlast⟩ := run_id hrun
  cases hcase with
  | empty hjobs =>
    refine ⟨[], [], hjobs, ⟨⟨rfl, rfl, rfl, rfl⟩, rfl, by simp, by simp, fun _ _ => rfl, fun w => rfl,
      fun w => List.prefix_refl _⟩, ?_⟩
    rw [List.append_nil]
    exact ⟨h.workers, h.log, h.bytes, h.blobs, h.others, h.records, h.idx, fun pa key page hsh =>
      ⟨c.id, rfl, h.entry hid hlast (.inl hsh)⟩⟩
  | @pass jobs _ _ hjobs hne hrun =>
    have hblobs : ∀ w, BlobOk ((db.accept c.id).blobFiles w) := h.blobs
    -- every task is done, and its record is in its slot
    obtain ⟨new, hdone, hinv, rfl⟩ := saveJobs_ok hblobs hjobs.slots (nodup_pas hjobs.sorted) hrun
    have hran := ran_pass h (nodup_pas hjobs.sorted) hdone
    refine ⟨jobs, new, hjobs, hran, ?_⟩
    obtain ⟨m, hm⟩ := h.bytes
    have hlog : LogOk (afterPass db c.id (runPass z (db.accept c.id) c.id jobs schedule)).logFile := h.log
    obtain ⟨hlog', hbytes⟩ := commit_log hlog hm c.id new
    have hgrow : BlobsGrow db.streams
        ((afterPass db c.id (runPass z (db.accept c.id) c.id jobs schedule)).commit c.id new).streams :=
      streams_grow rfl rfl hran.grow
    refine ⟨h.workers, hlog', ⟨c.id, ?_⟩, hinv.blobs, h.others, fun r hr => ?_, h.idx.mono hgrow,
      fun pa key page hsh => ⟨c.id, rfl, h.entry hid hlast (hran.shadow_cases hsh)⟩⟩
    · rw [encodeAll_append]
      exact hbytes
    · rcases List.mem_append.1 hr with hr | hr
      · exact (h.records r hr).mono hgrow
      · exact hran.held h.workers r hr

/-- **A save that fails.** -/
theorem HandleWell.failed (hz : z.Small) (h : HandleWell rs db) {schedule : List (ℕ × Fault)} {e : Failure}
    (hrun : c.run z schedule db = some (db', .error e)) : HandleWell rs db' := by
  obtain ⟨hcase, hid⟩ := runCall_cases hrun
  rcases hid with ⟨e', -, rfl⟩ | ⟨hid, hlast⟩
  · exact h
  cases hcase with
  | refused => exact h
  | invalid =>
    exact ⟨h.workers, h.log, h.bytes, h.blobs, h.others, h.records, h.idx, fun pa key page hsh =>
      ⟨c.id, rfl, h.entry hid hlast (.inl hsh)⟩⟩
  | @pass jobs _ _ hjobs hne hrun =>
    obtain ⟨-, rfl⟩ := saveJobs_err hrun
    have hblobs : ∀ w, BlobOk ((db.accept c.id).blobFiles w) := h.blobs
    have hinv : PassInv z (db.accept c.id) c.id jobs _ :=
      runPass_inv (nodup_pas hjobs.sorted) hblobs schedule (.inl hz)
    have hgrow : BlobsGrow db.streams (afterPass db c.id (runPass z (db.accept c.id) c.id jobs schedule)).streams :=
      streams_grow rfl rfl hinv.grow
    refine ⟨h.workers, h.log, h.bytes, hinv.blobs, h.others, fun r hr => (h.records r hr).mono hgrow, h.idx.mono hgrow,
      fun pa key page hsh => ⟨c.id, rfl, ?_⟩⟩
    rcases hinv.shadow_cases hsh with hold | ⟨i, job, rec, -, -, rfl, rfl, -⟩
    · exact h.entry hid hlast (.inl hold)
    · have hnew : db.shadow job.pa = some (encodeKey job.pa c.id, job.page) ∨ encodeKey job.pa c.id = encodeKey job.pa c.id :=
        .inr rfl
      exact h.entry hid hlast hnew

/-- **Any calls on a handle.** -/
theorem HandleWell.calls (hz : z.Small) (h : HandleWell rs db) (hcalls : Calls z db db') : ∃ rs', HandleWell rs' db' := by
  induction hcalls with
  | nil => exact ⟨rs, h⟩
  | @snoc db1 db2 c schedule r _ hcall ih =>
    obtain ⟨rs', h'⟩ := ih
    cases r with
    | ok u =>
      obtain ⟨-, new, -, -, hwell⟩ := h'.saved hcall
      exact ⟨rs' ++ new, hwell⟩
    | error e => exact ⟨rs', h'.failed hz hcall⟩

/-! ## Conversions and purges -/

/-- The records a directory is read as, by the index file or by the log. -/
theorem DirWell.readRecords (h : DirWell rs dir) {read : List ChunkRecord} (hread : Bxdb.readRecords dir = .ok read) :
    KeySorted read ∧ ∀ r ∈ read, Held dir.blobs r := by
  unfold Bxdb.readRecords at hread
  cases hi : dir.idx with
  | some bytes =>
    rw [hi] at hread
    obtain ⟨is, rfl, hsorted, hheld⟩ := h.idx bytes hi
    dsimp only at hread
    rw [show readIndex (indexFile is) = .ok is from readIndex_file is] at hread
    obtain rfl := Except.ok.inj hread
    exact ⟨hsorted, hheld⟩
  | none =>
    rw [hi] at hread
    rcases h.log with ⟨hnone, -⟩ | ⟨m, hm⟩
    · rw [hnone] at hread
      simp [ioErr] at hread
    · have hbuild := buildLazyIndex_encode (fun r hr => (h.records r hr).plain) m
      rw [hm] at hread
      dsimp only at hread
      unfold readLog at hread
      rw [hbuild] at hread
      obtain rfl := Except.ok.inj hread
      exact ⟨index_strict recordKey rs, fun r hr => h.records r (List.mem_of_find?_eq_some (mem_index.1 hr))⟩

theorem DirWell.index (h : DirWell rs dir) (hc : toBtree dir = .ok dir') : DirWell rs dir' := by
  obtain ⟨log, is, hl, his, hsorted, hplain, rfl⟩ := toBtree_inv hc
  have hread : Bxdb.readRecords { dir with idx := none } = .ok is := by
    unfold Bxdb.readRecords
    dsimp only
    rw [hl]
    exact his
  have hwell : DirWell rs { dir with idx := none } := ⟨h.log, h.records, by intro bytes hb; simp at hb, h.small⟩
  refine ⟨h.log, h.records, fun bytes hb => ?_, h.small⟩
  obtain rfl := Option.some.inj hb
  exact ⟨is, rfl, hsorted, (hwell.readRecords hread).2⟩

/-- A log written from held records. -/
theorem DirWell.writeLog {is : List ChunkRecord} (hlog : dir.log = some (logFile is)) (hheld : ∀ r ∈ is, Held dir.blobs r)
    (hidx : IndexHeld dir.blobs dir.idx) (hsmall : ∀ w bs, dir.blobs w = some bs → bs.length ≤ maxFileLen) :
    DirWell (bySnap is) dir :=
  ⟨.inr ⟨maxSnapshot is, hlog⟩, fun r hr => hheld r (mem_bySnap.1 hr), hidx, hsmall⟩

theorem DirWell.backToLog (h : DirWell rs dir) (hc : toLog dir = .ok dir') : ∃ rs', DirWell rs' dir' := by
  cases hi : dir.idx with
  | none =>
    unfold toLog at hc
    rw [hi] at hc
    simp [notFoundErr, ioErr] at hc
  | some bytes =>
    obtain ⟨is, rfl, hsorted, hheld⟩ := h.idx bytes hi
    rw [toLog_indexFile hsorted hi] at hc
    obtain rfl := Except.ok.inj hc
    exact ⟨bySnap is, .writeLog rfl hheld h.idx h.small⟩

/-- **The bytes of a kept record** outlast a purge. -/
theorem Held.purged {kept : List ChunkRecord} {r : ChunkRecord} (h : Held dir.blobs r) (hr : r ∈ kept) :
    Held (purgedDir dir kept).blobs r := by
  refine ⟨h.plain, fun hk => ?_⟩
  obtain ⟨bs, hbs, -⟩ := h.inFile hk
  have hne : ¬ (blobRecords kept r.workerId).isEmpty := by
    have hmem : r ∈ blobRecords kept r.workerId := List.mem_filter.2 ⟨hr, by simpa using hk⟩
    simpa using List.ne_nil_of_mem hmem
  refine ⟨setLen bs (keepLen kept r.workerId), ?_, ?_⟩
  · change trimBlob kept r.workerId (dir.blobs r.workerId) = _
    rw [trimBlob_truncate hne, hbs]
    rfl
  · rw [length_setLen]
    exact endOf_le_keepLen hr hk

theorem DirWell.purge (h : DirWell rs dir) {ord : WalkOrder FileStep} {t : UInt32} {n : ℕ}
    (hp : Bxdb.purge ord dir t = .ok (dir', n)) : ∃ rs', DirWell rs' dir' := by
  cases hread : Bxdb.readRecords dir with
  | error e =>
    unfold Bxdb.purge purgePlan keptRecords at hp
    rw [hread] at hp
    simp [bind, Except.bind] at hp
  | ok read =>
    obtain ⟨hsorted, hheld⟩ := h.readRecords hread
    -- nothing to purge, or every kept record's file is long enough
    obtain ⟨-, ⟨-, rfl⟩ | ⟨-, hcut, rfl⟩⟩ := (purge_iff hread rfl).1 hp
    · exact ⟨rs, h⟩
    · set kept := read.filter fun r => snapshotOf r.key ≤ t
      have hkept : ∀ r ∈ kept, Held (purgedDir dir kept).blobs r := fun r hr =>
        (hheld r (List.mem_filter.1 hr).1).purged hr
      have hidx : IndexHeld (purgedDir dir kept).blobs (purgedDir dir kept).idx := by
        intro bytes hb
        obtain ⟨idx, -, rfl⟩ := Option.map_eq_some_iff.1 hb
        exact ⟨kept, rfl, hsorted.filter _, hkept⟩
      have hsmall : ∀ w bs, (purgedDir dir kept).blobs w = some bs → bs.length ≤ maxFileLen := by
        intro w bs hbs
        change trimBlob kept w (dir.blobs w) = some bs at hbs
        unfold trimBlob at hbs
        split at hbs
        · rename_i hne
          obtain ⟨bs', -, rfl⟩ := Option.map_eq_some_iff.1 hbs
          rw [length_setLen]
          exact (hcut.cut w hne).2
        · split at hbs
          · exact h.small w bs hbs
          · simp at hbs
      rcases h.log with ⟨hnone, rfl⟩ | ⟨m, hm⟩
      · refine ⟨[], .inl ⟨?_, rfl⟩, by simp, hidx, hsmall⟩
        unfold purgedDir
        rw [hnone]
        rfl
      · refine ⟨bySnap kept, .writeLog ?_ hkept hidx hsmall⟩
        unfold purgedDir
        rw [hm]
        rfl

/-- **Every directory that calls, conversions and purges lead to.** -/
theorem reached_well (hz : z.Small) (h : Reached z dir) : ∃ rs, DirWell rs dir := by
  induction h with
  | empty => exact ⟨[], .inl ⟨rfl, rfl⟩, by simp, by intro bytes hb; simp [Dir.empty] at hb, by simp [Dir.empty]⟩
  | session _ hopen hcalls hclose ih =>
    obtain ⟨rs, hd⟩ := ih
    obtain ⟨rs', h'⟩ := (hd.open hopen).calls hz hcalls
    exact ⟨rs', h'.close hclose⟩
  | index _ hc ih =>
    obtain ⟨rs, hd⟩ := ih
    exact ⟨rs, hd.index hc⟩
  | log _ hc ih =>
    obtain ⟨rs, hd⟩ := ih
    exact hd.backToLog hc
  | purge _ hp ih =>
    obtain ⟨rs, hd⟩ := ih
    exact hd.purge hp

/-! ## Two schedules -/

/-- A record without the place of its bytes. -/
def unplaced (r : ChunkRecord) : ChunkRecord := { r with offset := 0 }

/-- The content of a record, for a reader of the directory. -/
def resolveIn (z : Zstd) (dir : Dir) (rec : ChunkRecord) : Res Page := do
  let store ← PageStore.open dir
  store.resolveUncached z rec

/-- **The jobs of a call are determined.** -/
theorem JobsOf.unique {jobs jobs' : List Job} (h : JobsOf c jobs) (h' : JobsOf c jobs') : jobs = jobs' := by
  -- both list the dirty pages by address
  have hpages : jobs.map (fun j => (j.pa, j.page)) = jobs'.map fun j => (j.pa, j.page) := by
    have hsorted : ∀ {l : List Job}, l.Pairwise (fun a b => a.pa.toNat < b.pa.toNat) →
        (l.map fun j => (j.pa, j.page)).Pairwise fun a b => a.1.toNat < b.1.toNat := fun hl => by
      rw [List.pairwise_map]
      exact hl
    refine eq_of_mem_iff (hsorted h.sorted) (hsorted h'.sorted) fun e => ?_
    have hmem : ∀ {l : List Job}, JobsOf c l → (e ∈ l.map (fun j => (j.pa, j.page)) ↔ c.dirty e.1 = some e.2) := by
      intro l hl
      rw [hl.dirty, List.mem_map]
      constructor
      · rintro ⟨job, hj, rfl⟩
        exact ⟨job, hj, rfl, rfl⟩
      · rintro ⟨job, hj, hpa, hpage⟩
        exact ⟨job, hj, Prod.ext hpa hpage⟩
    rw [hmem h, hmem h']
  have hlen : jobs.length = jobs'.length := by
    have := congrArg List.length hpages
    rwa [List.length_map, List.length_map] at this
  have hslots : jobs.map Job.slot = jobs'.map Job.slot := by rw [h.slots, h'.slots, hlen]
  refine List.ext_getElem hlen fun i hi hi' => ?_
  have hslot : jobs[i].slot = jobs'[i].slot := by
    have := List.getElem_of_eq hslots (show i < (jobs.map Job.slot).length by rwa [List.length_map])
    rwa [List.getElem_map, List.getElem_map] at this
  have hpage : (jobs[i].pa, jobs[i].page) = (jobs'[i].pa, jobs'[i].page) := by
    have := List.getElem_of_eq hpages (show i < (jobs.map fun j => (j.pa, j.page)).length by rwa [List.length_map])
    rwa [List.getElem_map, List.getElem_map] at this
  obtain ⟨hpa, hpg⟩ := Prod.mk.inj hpage
  cases hja : jobs[i]
  cases hjb : jobs'[i]
  rw [hja, hjb] at hslot hpa hpg
  dsimp only at hslot hpa hpg
  rw [hslot, hpa, hpg]

/-- **What a plan fixes of its record**: everything but the place. -/
theorem Recorded.unplaced_eq {blobs₁ blobs₂ : UInt8 → BlobFile} {job : Job} {r₁ r₂ : ChunkRecord}
    (h₁ : Recorded z db id blobs₁ job r₁) (h₂ : Recorded z db id blobs₂ job r₂) : unplaced r₁ = unplaced r₂ := by
  obtain ⟨off₁, len₁, rfl, hd₁⟩ := h₁
  obtain ⟨off₂, len₂, rfl, hd₂⟩ := h₂
  cases hp : planOf z db job with
  | zero => rfl
  | delta baseKey data =>
    have hlen : len₁ = len₂ := UInt32.toNat_inj.1
      ((hd₁ (by rw [hp]; simp)).len_eq.trans (hd₂ (by rw [hp]; simp)).len_eq.symm)
    rw [hlen]
    rfl
  | full data =>
    have hlen : len₁ = len₂ := UInt32.toNat_inj.1
      ((hd₁ (by rw [hp]; simp)).len_eq.trans (hd₂ (by rw [hp]; simp)).len_eq.symm)
    rw [hlen]
    rfl

section Both

variable {jobs : List Job} {new₁ new₂ : List ChunkRecord} (h₁ : Ran z db id jobs db₁ new₁) (h₂ : Ran z db id jobs db₂ new₂)

include h₁ h₂

theorem Ran.records_eq : new₁.map unplaced = new₂.map unplaced := by
  have hlen : new₁.length = new₂.length := h₁.length.trans h₂.length.symm
  refine List.ext_getElem (by rw [List.length_map, List.length_map, hlen]) fun i hi hi' => ?_
  rw [List.length_map] at hi hi'
  rw [List.getElem_map, List.getElem_map]
  obtain ⟨job, hj⟩ : ∃ job, jobs[i]? = some job := ⟨_, List.getElem?_eq_getElem (h₁.length ▸ hi)⟩
  exact (h₁.recorded i job _ hj (List.getElem?_eq_getElem hi)).unplaced_eq
    (h₂.recorded i job _ hj (List.getElem?_eq_getElem hi'))

theorem Ran.shadow_eq : db₁.shadow = db₂.shadow := by
  funext pa
  by_cases hjob : ∃ job ∈ jobs, job.pa = pa
  · obtain ⟨job, hj, rfl⟩ := hjob
    rw [h₁.shadow job hj, h₂.shadow job hj]
  · have hne : ∀ job ∈ jobs, job.pa ≠ pa := fun job hj hp => hjob ⟨job, hj, hp⟩
    rw [h₁.elsewhere pa hne, h₂.elsewhere pa hne]

theorem Ran.lengths_eq (w : UInt8) : (db₁.streams w).map List.length = (db₂.streams w).map List.length := by
  have hsum : (new₁.map (ChunkRecord.lenIn w)).sum = (new₂.map (ChunkRecord.lenIn w)).sum := by
    have hmap : ∀ l : List ChunkRecord, l.map (ChunkRecord.lenIn w) = (l.map unplaced).map (ChunkRecord.lenIn w) := by
      intro l
      rw [List.map_map]
      rfl
    rw [hmap new₁, Ran.records_eq h₁ h₂, ← hmap]
  unfold AppendOnlyDb.streams
  rw [h₁.setup.workerCount, h₂.setup.workerCount, h₁.setup.dir, h₂.setup.dir]
  split
  · rw [Option.map_some, Option.map_some, h₁.total w, h₂.total w, hsum]
  · rfl

end Both

/-! ## The same page -/

/-- Two stores that find the same record of a key, with its bytes in `old`, which the
files of both extend. -/
structure Agree (old : UInt8 → Option Bytes) (store₁ store₂ : PageStore) (key : UInt64) : Prop where
  grow₁ : BlobsGrow old store₁.blobs
  grow₂ : BlobsGrow old store₂.blobs
  found : ∃ o, store₁.exactLookup key = .ok o ∧ store₂.exactLookup key = .ok o ∧ ∀ r, o = some r → Held old r

theorem decompress_same {old : UInt8 → Option Bytes} {store₁ store₂ : PageStore} {r : ChunkRecord}
    (h₁ : BlobsGrow old store₁.blobs) (h₂ : BlobsGrow old store₂.blobs) (h : Held old r) (hk : r.kind ≠ .zero) :
    store₁.decompressBlobInto z r = store₂.decompressBlobInto z r := by
  obtain ⟨bs, hbs, hle⟩ := h.inFile hk
  obtain ⟨bs₁, hbs₁, hp₁⟩ := h₁ _ _ hbs
  obtain ⟨bs₂, hbs₂, hp₂⟩ := h₂ _ _ hbs
  unfold endOf at hle
  have hrange : range? bs₁ r.offset.toNat (r.offset.toNat + r.len.toNat) =
      range? bs₂ r.offset.toNat (r.offset.toNat + r.len.toNat) := by
    rw [range?_of_le (Nat.le_add_right _ _) (hle.trans hp₁.length_le), range?_of_le (Nat.le_add_right _ _) (hle.trans hp₂.length_le),
      slice_of_isPrefix hp₁ hle, slice_of_isPrefix hp₂ hle]
  unfold PageStore.decompressBlobInto
  rw [blobMmap_of_some hbs₁, blobMmap_of_some hbs₂, ok_bind, ok_bind]
  dsimp only
  rw [hrange]

theorem Agree.loadFull {old : UInt8 → Option Bytes} {store₁ store₂ : PageStore} {key : UInt64}
    (h : Agree old store₁ store₂ key) : store₁.loadFull z key = store₂.loadFull z key := by
  obtain ⟨o, ho₁, ho₂, hheld⟩ := h.found
  unfold PageStore.loadFull
  rw [ho₁, ho₂, ok_bind, ok_bind]
  cases o with
  | none => rfl
  | some r =>
    dsimp only
    by_cases hk : r.kind = .full
    · rw [if_neg (not_not.2 hk), if_neg (not_not.2 hk)]
      exact decompress_same h.grow₁ h.grow₂ (hheld r rfl) (by rw [hk]; simp)
    · rw [if_pos hk, if_pos hk]

/-- **The bytes decide**: two records of one page that name the same data resolve alike. -/
theorem decompress_holds {store₁ store₂ : PageStore} {key : UInt64} {w : UInt8} {off₁ off₂ : UInt64} {len₁ len₂ : UInt32}
    {bs₁ bs₂ data : Bytes} (hb₁ : store₁.blobs w = some bs₁) (hb₂ : store₂.blobs w = some bs₂)
    (hd₁ : HoldsAt bs₁ off₁ len₁ data) (hd₂ : HoldsAt bs₂ off₂ len₂ data) :
    store₁.decompressBlobInto z (newFull key w off₁ len₁) = store₂.decompressBlobInto z (newFull key w off₂ len₂) := by
  have hbound₁ : ¬ 2 ^ 64 ≤ off₁.toNat + len₁.toNat := by rw [hd₁.len_eq]; exact not_le.2 hd₁.bound
  have hbound₂ : ¬ 2 ^ 64 ≤ off₂.toNat + len₂.toNat := by rw [hd₂.len_eq]; exact not_le.2 hd₂.bound
  unfold PageStore.decompressBlobInto
  rw [newFull_workerId, newFull_workerId, blobMmap_of_some hb₁, blobMmap_of_some hb₂, ok_bind, ok_bind]
  simp only [newFull_offset, newFull_len, hbound₁, hbound₂, if_false, range?_holdsAt hd₁, range?_holdsAt hd₂]

/-- **A record of the save resolves alike** under two schedules. -/
theorem resolve_same {blobs₁ blobs₂ : UInt8 → BlobFile} {job : Job} {r₁ r₂ : ChunkRecord} {old : UInt8 → Option Bytes}
    {store₁ store₂ : PageStore} (h₁ : Recorded z db id blobs₁ job r₁) (h₂ : Recorded z db id blobs₂ job r₂)
    (hb₁ : store₁.blobs (workerOf db.workerCount job.pa) = some (blobs₁ (workerOf db.workerCount job.pa)).stream)
    (hb₂ : store₂.blobs (workerOf db.workerCount job.pa) = some (blobs₂ (workerOf db.workerCount job.pa)).stream)
    (hbase : ∀ key data, planOf z db job = .delta key data → Agree old store₁ store₂ key) :
    store₁.resolveUncached z r₁ = store₂.resolveUncached z r₂ := by
  obtain ⟨off₁, len₁, rfl, hd₁⟩ := h₁
  obtain ⟨off₂, len₂, rfl, hd₂⟩ := h₂
  cases hp : planOf z db job with
  | zero => rfl
  | full data =>
    rw [hp] at hd₁ hd₂
    exact decompress_holds hb₁ hb₂ (hd₁ (by simp)) (hd₂ (by simp))
  | delta key data =>
    rw [hp] at hd₁ hd₂
    set w := workerOf db.workerCount job.pa
    have hblob₁ : store₁.deltaBlob (newDelta (encodeKey job.pa id) w off₁ len₁ key) = .ok data :=
      deltaBlob_delta hb₁ (hd₁ (by simp))
    have hblob₂ : store₂.deltaBlob (newDelta (encodeKey job.pa id) w off₂ len₂ key) = .ok data :=
      deltaBlob_delta hb₂ (hd₂ (by simp))
    unfold PageStore.resolveUncached
    simp only [Plan.record, newDelta_kind, newDelta_baseKey]
    rw [(hbase key data hp).loadFull, hblob₁, hblob₂]

/-- The first record of a key in a log is found, also when later records have other keys. -/
theorem exactSorted_log {rs new : List ChunkRecord} {key : UInt64} (hne : ∀ r ∈ new, r.key ≠ key) :
    exactSorted (SortedIndex.index recordKey (rs ++ new)) key = rs.find? fun r => r.key == key := by
  have hkey : (fun r : ChunkRecord => r.key == key) = fun r => decide (recordKey r = key.toNat) := by
    funext r
    simp only [recordKey, beq_eq_decide, UInt64.toNat_inj]
  have hnone : new.find? (fun r => r.key == key) = none :=
    List.find?_eq_none.2 fun r hr => by simpa using hne r hr
  unfold exactSorted
  rw [hkey, index_find?, List.find?_append, ← hkey, hnone, Option.or_none]

/-- A key with a used-up snapshot id is looked up alike on both directories. -/
theorem agree_of_close (h : HandleWell rs db) {key : UInt64} {d₁ d₂ : Dir} {new₁ new₂ : List ChunkRecord}
    {store₁ store₂ : PageStore} (hw₁ : HandleWell (rs ++ new₁) db₁) (hw₂ : HandleWell (rs ++ new₂) db₂)
    (hset₁ : SameSetup db db₁) (hset₂ : SameSetup db db₂) (hg₁ : BlobsGrow db.streams db₁.streams)
    (hg₂ : BlobsGrow db.streams db₂.streams) (hc₁ : db₁.close = .ok d₁) (hc₂ : db₂.close = .ok d₂)
    (hopen₁ : PageStore.open d₁ = .ok store₁) (hopen₂ : PageStore.open d₂ = .ok store₂)
    (hne₁ : ∀ r ∈ new₁, r.key ≠ key) (hne₂ : ∀ r ∈ new₂, r.key ≠ key) : Agree db.streams store₁ store₂ key := by
  obtain ⟨hl₁, hi₁, hb₁⟩ := close_inv hw₁.log hw₁.blobs hc₁
  obtain ⟨hl₂, hi₂, hb₂⟩ := close_inv hw₂.log hw₂.blobs hc₂
  rw [hset₁.dir] at hi₁
  rw [hset₂.dir] at hi₂
  cases hidx : db.dir.idx with
  | some bytes =>
    -- the index file is the same, and older than the save
    obtain ⟨is, rfl, hsorted, hheld⟩ := h.idx bytes hidx
    rw [hidx] at hi₁ hi₂
    rw [open_index hi₁] at hopen₁
    rw [open_index hi₂] at hopen₂
    obtain rfl := Except.ok.inj hopen₁
    obtain rfl := Except.ok.inj hopen₂
    have hlook := exactMmap_index hsorted (length_writeIndexHeader (maxSnapshot is)) key
    refine ⟨by rw [hb₁]; exact hg₁, by rw [hb₂]; exact hg₂, exactSorted is key, congrArg Except.ok hlook,
      congrArg Except.ok hlook, fun r hr => hheld r (exactSorted_some hr).1⟩
  | none =>
    rw [hidx] at hi₁ hi₂
    obtain ⟨m₁, hm₁⟩ := hw₁.bytes
    obtain ⟨m₂, hm₂⟩ := hw₂.bytes
    rw [hm₁] at hl₁
    rw [hm₂] at hl₂
    rw [open_log hi₁ hl₁] at hopen₁
    rw [open_log hi₂ hl₂] at hopen₂
    obtain rfl := Except.ok.inj hopen₁
    obtain rfl := Except.ok.inj hopen₂
    have hlook : ∀ {m : UInt32} {new : List ChunkRecord} {blobs : UInt8 → Option Bytes}, (∀ r ∈ rs ++ new, r.Plain) →
        (∀ r ∈ new, r.key ≠ key) → PageStore.exactLookup ⟨.appendOnly (writeLogHeader m ++ encodeAll (rs ++ new)), blobs⟩ key =
          .ok (rs.find? fun r => r.key == key) := by
      intro m new blobs hplain hne
      unfold PageStore.exactLookup
      dsimp only
      rw [buildLazyIndex_encode hplain m, ok_bind, exactSorted_log hne]
    exact ⟨by rw [hb₁]; exact hg₁, by rw [hb₂]; exact hg₂, _, hlook (fun r hr => (hw₁.records r hr).plain) hne₁,
      hlook (fun r hr => (hw₂.records r hr).plain) hne₂, fun r hr => h.records r (List.mem_of_find?_eq_some hr)⟩

/-- The store of a closed directory. -/
theorem HandleWell.store (h : HandleWell rs db) {d : Dir} (hc : db.close = .ok d) :
    ∃ store, PageStore.open d = .ok store ∧ store.blobs = db.streams := by
  obtain ⟨hl, hi, hb⟩ := close_inv h.log h.blobs hc
  obtain ⟨m, hm⟩ := h.bytes
  rw [hm] at hl
  cases hidx : db.dir.idx with
  | some bytes =>
    obtain ⟨is, rfl, -, -⟩ := h.idx bytes hidx
    rw [hidx] at hi
    exact ⟨_, open_index hi, hb⟩
  | none =>
    rw [hidx] at hi
    exact ⟨_, open_log hi hl, hb⟩

theorem HandleWell.logHolds (h : HandleWell rs db) : LogHolds db.disk.log rs := by
  obtain ⟨m, hm⟩ := h.bytes
  exact ⟨_, m, _, congrArg some hm, readLogHeader m _, scan_encode fun r hr => (h.records r hr).plain⟩

/-- Every record of a save carries its id. -/
theorem Ran.snap {jobs : List Job} {new : List ChunkRecord} (h : Ran z db id jobs db' new) (hid : id ≤ maxSnapshotId) :
    ∀ r ∈ new, snapshotOf r.key = id := by
  intro r hr
  obtain ⟨i, hi, rfl⟩ := List.getElem_of_mem hr
  obtain ⟨job, hj⟩ : ∃ job, jobs[i]? = some job := ⟨_, List.getElem?_eq_getElem (h.length ▸ hi)⟩
  obtain ⟨off, len, hrec, -⟩ := h.recorded i job _ hj (List.getElem?_eq_getElem hi)
  rw [hrec, show ∀ plan : Plan, (plan.record (encodeKey job.pa id) (workerOf (db.accept id).workerCount job.pa) off len).key =
    encodeKey job.pa id from fun plan => by cases plan <;> rfl]
  exact snapshotOf_encodeKey hid

/-- **Schedules do not matter.** Two schedules of one save, on any handle, that fail no
step: the records are the same up to the offset and in the same slots, the shadows are
the same, the worker files have the same lengths, and each record resolves alike. -/
theorem schedule_independent (hz : z.Small) {n : ℕ} {t : UInt16} {u : Bool} {s₁ s₂ : List (ℕ × Fault)}
    (hd : Reached z dir) (hopen : AppendOnlyDb.open dir n t u = .ok db) (hcalls : Calls z db db')
    (h₁ : c.run z s₁ db' = some (db₁, .ok ())) (h₂ : c.run z s₂ db' = some (db₂, .ok ())) :
    ∃ old new₁ new₂ : List ChunkRecord, LogHolds db₁.disk.log (old ++ new₁) ∧ LogHolds db₂.disk.log (old ++ new₂) ∧
      LogHolds db'.disk.log old ∧ new₁.map unplaced = new₂.map unplaced ∧ db₁.shadow = db₂.shadow ∧
      (∀ w, (db₁.streams w).map List.length = (db₂.streams w).map List.length) ∧
      ∀ d₁ d₂, db₁.close = .ok d₁ → db₂.close = .ok d₂ → ∀ (i : ℕ) (r₁ r₂ : ChunkRecord),
        new₁[i]? = some r₁ → new₂[i]? = some r₂ → resolveIn z d₁ r₁ = resolveIn z d₂ r₂ := by
  obtain ⟨rs, hwell⟩ := reached_well hz hd
  obtain ⟨old, h⟩ := (hwell.open hopen).calls hz hcalls
  obtain ⟨jobs, new₁, hjobs, hran₁, hw₁⟩ := h.saved h₁
  obtain ⟨jobs', new₂, hjobs', hran₂, hw₂⟩ := h.saved h₂
  obtain rfl := hjobs.unique hjobs'
  obtain ⟨hid, hlast⟩ := run_id h₁
  refine ⟨old, new₁, new₂, hw₁.logHolds, hw₂.logHolds, h.logHolds, hran₁.records_eq hran₂, hran₁.shadow_eq hran₂,
    hran₁.lengths_eq hran₂, fun d₁ d₂ hc₁ hc₂ i r₁ r₂ hr₁ hr₂ => ?_⟩
  obtain ⟨store₁, ho₁, hb₁⟩ := hw₁.store hc₁
  obtain ⟨store₂, ho₂, hb₂⟩ := hw₂.store hc₂
  obtain ⟨job, hj⟩ : ∃ job, jobs[i]? = some job :=
    ⟨_, List.getElem?_eq_getElem (hran₁.length ▸ (List.getElem?_eq_some_iff.1 hr₁).1)⟩
  have hstream : ∀ {db₁ : AppendOnlyDb}, SameSetup db' db₁ → db₁.streams (workerOf db'.workerCount job.pa) =
      some (db₁.blobFiles (workerOf db'.workerCount job.pa)).stream := by
    intro db₁ hset
    have := streams_worker (show 1 ≤ db₁.workerCount ∧ db₁.workerCount ≤ 255 by rw [hset.workerCount]; exact h.workers) job.pa
    rwa [hset.workerCount] at this
  have hgrow : ∀ {db₁ : AppendOnlyDb} {new : List ChunkRecord}, Ran z db' c.id jobs db₁ new →
      BlobsGrow db'.streams db₁.streams := fun hran => streams_grow hran.setup.dir hran.setup.workerCount hran.grow
  -- the base is older than the save
  have hbase : ∀ key data, planOf z (db'.accept c.id) job = .delta key data → Agree db'.streams store₁ store₂ key := by
    intro key data hplan
    obtain ⟨-, -, base, hsh, -, -⟩ := planOne_delta hplan
    obtain ⟨l, hl, hle⟩ := h.shadow job.pa key base hsh
    have hne : ∀ r : ChunkRecord, snapshotOf r.key = c.id → r.key ≠ key := by
      rintro r hr rfl
      rw [hr] at hle
      exact UInt32.lt_irrefl _ (UInt32.lt_of_lt_of_le (hlast l hl) hle)
    exact agree_of_close h hw₁ hw₂ hran₁.setup hran₂.setup (hgrow hran₁) (hgrow hran₂) hc₁ hc₂ ho₁ ho₂
      (fun r hr => hne r (hran₁.snap hid r hr)) fun r hr => hne r (hran₂.snap hid r hr)
  unfold resolveIn
  rw [ho₁, ho₂, ok_bind, ok_bind]
  exact resolve_same (hran₁.recorded i job r₁ hj hr₁) (hran₂.recorded i job r₂ hj hr₂)
    (by rw [hb₁]; exact hstream hran₁.setup) (by rw [hb₂]; exact hstream hran₂.setup) hbase

end

/-- A save of two pages into one worker file, the first page first and the second page first. -/
theorem schedule_independent_noise : ∃ db s₁ s₂ db₁ db₂, AppendOnlyDb.open Dir.empty 1 512 true = .ok db ∧
    s₁.head? = some (0, none) ∧ s₂.head? = some (1, none) ∧
    (twoPages (noise 1) (noise 2) 1).run Zstd.raw s₁ db = some (db₁, .ok ()) ∧
    (twoPages (noise 1) (noise 2) 1).run Zstd.raw s₂ db = some (db₂, .ok ()) ∧
    ∃ old new₁ new₂, LogHolds db₁.disk.log (old ++ new₁) ∧ LogHolds db₂.disk.log (old ++ new₂) ∧
      new₁.map unplaced = new₂.map unplaced ∧ db₁.shadow = db₂.shadow := by
  have hz := Zstd.raw_small
  obtain ⟨db, hopen⟩ : ∃ db, AppendOnlyDb.open Dir.empty 1 512 true = .ok db :=
    open_completes (by decide : 1 ≤ 1 ∧ 1 ≤ 255) 512 true (.inl rfl)
  obtain ⟨h, -⟩ := open_empty (z := Zstd.raw) rfl (by simp [Dir.empty]) hopen
  obtain ⟨-, -, hlast⟩ := open_newLog rfl hopen
  have hmem : ((noise 1).bytes ++ (noise 2).bytes).length = (2 : UInt64).toNat * pageSize := by
    rw [List.length_append, (noise 1).size, (noise 2).size]
    rfl
  obtain ⟨jobs, hjobs, hlen, -, hrun⟩ := run_all (z := Zstd.raw) hmem (by decide : (1 : UInt32) ≤ maxSnapshotId) (by decide)
    (fun l hl => by rw [hlast] at hl; simp at hl)
  have hroom : HasRoom (db.accept 1).blobFiles ((3 * jobs.length + 1) * blobBufCap) := by
    intro w
    obtain ⟨-, -, -, -, -, -, -, -, -, -, -, hb⟩ := open_inv hopen
    change (db.blobFiles w).stream.length + _ ≤ _
    rw [hb, hlen, show (2 : UInt64).toNat = 2 from rfl]
    dsimp only
    rw [openAppend_stream]
    norm_num [Dir.empty, blobBufCap, maxFileLen]
  have hb : ∀ w, BlobOk ((db.accept 1).blobFiles w) := h.blobs
  have hlt : 1 < jobs.length := by rw [hlen]; decide
  -- either page's task may go first
  have hfirst : ∀ {i : ℕ}, i < jobs.length → ∃ (rest : List (ℕ × Fault)) (db' : AppendOnlyDb),
      (db.accept 1).saveJobs Zstd.raw ((i, none) :: rest) 1 jobs = some (db', .ok ()) := fun hi =>
    saveJobs_first hz hjobs.slots (nodup_pas hjobs.sorted) hb hroom hi
  obtain ⟨rest₁, db₁, h₁⟩ := hfirst (show 0 < jobs.length by omega)
  obtain ⟨rest₂, db₂, h₂⟩ := hfirst hlt
  rw [← hrun] at h₁ h₂
  obtain ⟨old, new₁, new₂, hl₁, hl₂, -, hnew, hsh, -⟩ := schedule_independent hz .empty hopen .nil h₁ h₂
  exact ⟨db, _, _, db₁, db₂, hopen, rfl, rfl, h₁, h₂, old, new₁, new₂, hl₁, hl₂, hnew, hsh⟩

end Bxdb
