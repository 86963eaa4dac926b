import Bxdb.Spec.Format
import Bxdb.Lib.BufWriter
import Mathlib.Logic.Function.Basic

/-!
# The writer (`append_only.rs`)

A handle keeps the log and one blob file per worker open behind buffered writers,
and a **shadow**: the newest Full page it wrote for each address. A save turns every
dirty page into one task. The tasks run in parallel; each goes through atomic steps
(`stepTask`): look the page up in the shadow and encode it, append the bytes under
the blob file's lock, put a Full page into the shadow. A **schedule** lists which
task steps next and whether the operating system fails that step, so `savePages`
covers every interleaving and every failure of an append or a compression. The
records reach the log after the last task is done.

Log I/O is taken to succeed; blob files end at the operating system's largest offset.
-/

namespace Bxdb

open Bytes Buffered

def wordsPerGroup : ℕ := 64
def pagesPerGroup : ℕ := wordsPerGroup * 64

/-! ## The shadow -/

/-- The newest Full key and page of each address written through this handle. -/
abbrev Shadow := UInt64 → Option (UInt64 × Page)

def Shadow.new : Shadow := fun _ => none

/-- The condition `install` of `insert_if_newer`. -/
def Shadow.installs (shadow : Shadow) (pa key : UInt64) : Bool :=
  match shadow pa with
  | none => true
  | some (k, _) => k < key

def Shadow.insertIfNewer (shadow : Shadow) (pa key : UInt64) (page : Page) : Shadow :=
  if shadow.installs pa key then Function.update shadow pa (some (key, page)) else shadow

/-! ## Blob files -/

/-- The largest file length of the operating system. -/
def maxFileLen : ℕ := 2 ^ 63 - 1

/-- `BufWriter::new` holds back 8 KiB. -/
def blobBufCap : ℕ := 8192

def logBufCap : ℕ := 2 ^ 20

structure BlobFile where
  writer : BufWriter
  offset : UInt64

/-- The file of one worker, opened for appending. -/
def BlobFile.openAppend (bytes : Bytes) : BlobFile where
  writer := BufWriter.new blobBufCap ⟨bytes, 0, true, some maxFileLen⟩
  offset := UInt64.ofNat bytes.length

def appendBlob (fault : Fault) (blob : BlobFile) (data : Bytes) : BlobFile × Res (UInt64 × UInt32) :=
  if (blob.writer.writeAll fault data).2 then
    (⟨(blob.writer.writeAll fault data).1, blob.offset + UInt64.ofNat data.length⟩,
      if data.length < 2 ^ 32 then .ok (blob.offset, UInt32.ofNat data.length)
      else ioErr .invalidData "blob too large for u32 len")
  else ({ blob with writer := (blob.writer.writeAll fault data).1 }, ioErr .other "failed to write whole buffer")

/-! ## The handle -/

structure AppendOnlyDb where
  dir : Dir
  workerCount : ℕ
  deltaThreshold : UInt16
  useShadow : Bool
  shadow : Shadow
  logFile : BufWriter
  /-- `blobFiles w`, for `w` below `workerCount` -/
  blobFiles : UInt8 → BlobFile
  lastSnapshot : Option UInt32

namespace AppendOnlyDb

/-- The log as `open` leaves it, with the last snapshot id it reports. An empty file
gets a header; otherwise the header is checked and the cursor goes to the end. -/
def openLog (log : Bytes) : Res (RawFile × Option UInt32) :=
  if log.length = 0 then
    .ok ((⟨[], 0, false, none⟩ : RawFile).put (writeLogHeader 0), none)
  else do
    let (maxSnap, _) ← readAndVerifyHeader log magicLog
    .ok (⟨log, log.length, false, none⟩, some maxSnap)

def «open» (dir : Dir) (workerCount : ℕ) (deltaThreshold : UInt16) (useShadow : Bool) : Res AppendOnlyDb :=
  if workerCount = 0 ∨ 255 < workerCount then ioErr .invalidInput "worker_count must be in 1..=255"
  else do
    let (log, lastSnapshot) ← openLog (dir.log.getD [])
    .ok {
      dir := dir
      workerCount := workerCount
      deltaThreshold := if deltaThreshold = 0 then UInt16.ofNat defaultDeltaThreshold else deltaThreshold
      useShadow := useShadow
      shadow := Shadow.new
      logFile := BufWriter.new logBufCap log
      blobFiles := fun w => BlobFile.openAppend ((dir.blobs w).getD [])
      lastSnapshot := lastSnapshot }

/-- What other readers of the directory see: bytes held back are not there yet. -/
def disk (db : AppendOnlyDb) : Dir where
  log := some db.logFile.file.bytes
  idx := db.dir.idx
  blobs w := if w.toNat < db.workerCount then some (db.blobFiles w).writer.file.bytes else db.dir.blobs w

/-- Write out what the log and every worker's file hold back. -/
def flush (db : AppendOnlyDb) : Res AppendOnlyDb :=
  if (db.logFile.flushBuf none).2 = true ∧
      ∀ w : Fin 256, w.val < db.workerCount →
        ((db.blobFiles (UInt8.ofFin w)).writer.flushBuf none).2 = true then
    .ok { db with
      logFile := (db.logFile.flushBuf none).1
      blobFiles := fun w => { db.blobFiles w with writer := ((db.blobFiles w).writer.flushBuf none).1 } }
  else ioErr .other "failed to write whole buffer"

/-- The directory after a successful flush and the end of the handle. -/
def close (db : AppendOnlyDb) : Res Dir := do
  let db' ← db.flush
  .ok db'.disk

end AppendOnlyDb

/-! ## The pages of a save -/

/-- One page to save: its slot in `records_buf`, its address, its content. -/
structure Job where
  slot : ℕ
  pa : UInt64
  page : Page

/-- `memory[mem_off..mem_off + PAGE_SIZE]` -/
def pageAt (memory : Bytes) (pa : ℕ) : Res Page :=
  if h : (slice memory (pa * pageSize) ((pa + 1) * pageSize)).length = pageSize then .ok ⟨_, h⟩
  else panics "range end index out of range for slice"

def jobAt (memory : Bytes) (slot pa : ℕ) : Res Job := do
  let page ← pageAt memory pa
  .ok ⟨slot, UInt64.ofNat pa, page⟩

/-- The jobs of `save_all_pages`: every page, group after group. -/
def allJobs (memory : Bytes) (total : ℕ) : Res (List Job) :=
  let numGroups := (total + pagesPerGroup - 1) / pagesPerGroup
  let group g :=
    let writeBase := g * pagesPerGroup
    let groupPages := if g + 1 = numGroups then total - writeBase else pagesPerGroup
    (List.range groupPages).map fun i => (writeBase + i, writeBase + i)
  ((List.range numGroups).flatMap group).mapM fun e => jobAt memory e.1 e.2

def maskLastWord (w : UInt64) (wi expectedWords total : ℕ) : UInt64 :=
  if wi + 1 = expectedWords then
    if total - wi * 64 < 64 then w &&& ((1 <<< UInt64.ofNat (total - wi * 64)) - 1) else w
  else w

def testBit (w : UInt64) (i : ℕ) : Bool := w.toNat.testBit i

def countOnes (w : UInt64) : ℕ := (List.range 64).countP (testBit w)

def trailingZeros (w : UInt64) : ℕ := ((List.range 64).find? (testBit w)).getD 64

/-- `while w != 0 { let b = w.trailing_zeros(); …; w &= w - 1 }`, at most 64 rounds. -/
def setBits : ℕ → UInt64 → List ℕ
  | 0, _ => []
  | rounds + 1, w => if w = 0 then [] else trailingZeros w :: setBits rounds (w &&& (w - 1))

section Bitmap

variable (bitmap : List UInt64) (expectedWords total : ℕ)

/-- The words of a group, with the bits past `total_page_count` cleared. -/
def groupWords (g : ℕ) : List (ℕ × UInt64) :=
  let start := g * wordsPerGroup
  let stop := min ((g + 1) * wordsPerGroup) expectedWords
  (List.range (stop - start)).map fun i =>
    (start + i, maskLastWord (bitmap.getD (start + i) 0) (start + i) expectedWords total)

/-- Pass 1a: the number of dirty pages of a group. -/
def groupCount (g : ℕ) : ℕ := ((groupWords bitmap expectedWords total g).map fun e => countOnes e.2).sum

/-- Pass 1b: the exclusive prefix sum, which must stay below 2³². -/
def prefixSum : ℕ → List ℕ → Res (List ℕ × ℕ)
  | acc, [] => .ok ([], acc)
  | acc, c :: cs =>
    if 2 ^ 32 ≤ acc + c then ioErr .invalidInput "dirty count exceeds u32"
    else do
      let (offsets, total) ← prefixSum (acc + c) cs
      .ok (acc :: offsets, total)

/-- Pass 2: the addresses of a group's dirty pages, lowest first. -/
def groupPas (g : ℕ) : List ℕ :=
  (groupWords bitmap expectedWords total g).flatMap fun e => (setBits 64 e.2).map fun b => e.1 * 64 + b

end Bitmap

def numGroups (expectedWords : ℕ) : ℕ := (expectedWords + wordsPerGroup - 1) / wordsPerGroup

/-- The first slot of each group, and the number of dirty pages. -/
def bitmapOffsets (bitmap : List UInt64) (expectedWords total : ℕ) : Res (List ℕ × ℕ) :=
  prefixSum 0 ((List.range (numGroups expectedWords)).map (groupCount bitmap expectedWords total))

/-- The jobs of `save_pages_with_bitmap`, for the groups that have a dirty page. -/
def bitmapJobs (memory : Bytes) (bitmap : List UInt64) (expectedWords total : ℕ) (offsets : List ℕ) :
    Res (List Job) :=
  let activeGroups :=
    (List.range (numGroups expectedWords)).filter fun g => 0 < groupCount bitmap expectedWords total g
  (activeGroups.flatMap fun g =>
    (groupPas bitmap expectedWords total g).zipIdx.map fun e => (offsets.getD g 0 + e.2, e.1)).mapM
      fun e => jobAt memory e.1 e.2

/-! ## Saving one page -/

/-- What `process_one` decides before it takes the blob file's lock. -/
inductive Plan
  | zero
  | delta (baseKey : UInt64) (data : Bytes)
  | full (data : Bytes)

/-- A Zero page is recognised first; a page close to its shadow becomes a Delta. -/
def planOne (z : Zstd) (shadow : Shadow) (threshold : ℕ) (useShadow : Bool) (pa : UInt64) (page : Page) :
    Plan :=
  if isAllZero page then .zero
  else if useShadow then
    match shadow pa with
    | some (baseKey, basePage) =>
      let patch := computeXorPatch page basePage
      if patch.length ≤ threshold then .delta baseKey (encodeDeltaPatch patch) else .full (z.compress page)
    | none => .full (z.compress page)
  else .full (z.compress page)

/-- Where the task of one page stands. A Full record waits in `insert` until its page
is in the shadow. -/
inductive Task
  | start
  | append (plan : Plan)
  | insert (rec : ChunkRecord)
  | done (rec : ChunkRecord)
  | failed (e : Failure)

/-- What the tasks share, and where each stands. -/
structure Pass where
  shadow : Shadow
  blobFiles : UInt8 → BlobFile
  tasks : List Task

section Tasks

variable (z : Zstd) (db : AppendOnlyDb) (id : UInt32)

/-- The worker file of an address. -/
def workerOf (workerCount : ℕ) (pa : UInt64) : UInt8 := UInt8.ofNat (pa.toNat % workerCount)

/-- The record of an appended range. -/
def Plan.record (plan : Plan) (key : UInt64) (w : UInt8) (offset : UInt64) (len : UInt32) : ChunkRecord :=
  match plan with
  | .zero => ChunkRecord.newZero key
  | .delta baseKey _ => ChunkRecord.newDelta key w offset len baseKey
  | .full _ => ChunkRecord.newFull key w offset len

def Plan.data : Plan → Bytes
  | .zero => []
  | .delta _ data => data
  | .full data => data

/-- One atomic step of `process_one` for one page. -/
def stepTask (job : Job) (fault : Fault) (shadow : Shadow) (blobFiles : UInt8 → BlobFile) (task : Task) :
    Shadow × (UInt8 → BlobFile) × Task :=
  let key := encodeKey job.pa id
  let w := workerOf db.workerCount job.pa
  match task with
  | .start =>
    match planOne z shadow db.deltaThreshold.toNat db.useShadow job.pa job.page with
    | .zero => (shadow, blobFiles, .done (ChunkRecord.newZero key))
    | .delta baseKey data => (shadow, blobFiles, .append (.delta baseKey data))
    | .full data =>
      -- compression can fail
      if fault.isSome then (shadow, blobFiles, .failed (.err ⟨.other, "zstd compression failed"⟩))
      else (shadow, blobFiles, .append (.full data))
  | .append plan =>
    let blobFiles' := Function.update blobFiles w (appendBlob fault (blobFiles w) plan.data).1
    match (appendBlob fault (blobFiles w) plan.data).2 with
    | .error e => (shadow, blobFiles', .failed e)
    | .ok (offset, len) =>
      match plan with
      | .full _ => (shadow, blobFiles', .insert (plan.record key w offset len))
      | _ => (shadow, blobFiles', .done (plan.record key w offset len))
  | .insert rec =>
    (if db.useShadow then shadow.insertIfNewer job.pa key job.page else shadow, blobFiles, .done rec)
  | .done rec => (shadow, blobFiles, .done rec)
  | .failed e => (shadow, blobFiles, .failed e)

def Pass.step (jobs : List Job) (p : Pass) (e : ℕ × Fault) : Pass :=
  match jobs[e.1]?, p.tasks[e.1]? with
  | some job, some task =>
    let r := stepTask z db id job e.2 p.shadow p.blobFiles task
    ⟨r.1, r.2.1, p.tasks.set e.1 r.2.2⟩
  | _, _ => p

/-- The tasks of a save, run under a schedule. -/
def runPass (jobs : List Job) (schedule : List (ℕ × Fault)) : Pass :=
  schedule.foldl (Pass.step z db id jobs) ⟨db.shadow, db.blobFiles, jobs.map fun _ => .start⟩

end Tasks

def Task.rec? : Task → Option ChunkRecord
  | .done rec => some rec
  | _ => none

def Task.error? : Task → Option Failure
  | .failed e => some e
  | _ => none

/-- The task is not in the middle of its page. -/
def Task.settled : Task → Bool
  | .append _ => false
  | .insert _ => false
  | _ => true

/-- How a parallel pass ends: with `records_buf`, or with an error once no task is in
the middle of a page. `none` while it is still running. -/
def Pass.outcome (jobs : List Job) (p : Pass) : Option (Res (List ChunkRecord)) :=
  match p.tasks.mapM Task.rec? with
  | some recs =>
    some (.ok ((List.range recs.length).filterMap fun slot =>
      ((jobs.zip recs).find? fun e => e.1.slot == slot).map Prod.snd))
  | none =>
    match p.tasks.findSome? Task.error? with
    | some e => if p.tasks.all Task.settled then some (.error e) else none
    | none => none

/-! ## Saving -/

namespace AppendOnlyDb

/-- Records to the log, then the snapshot id into the header. The seeks write out
what the log's writer holds back. -/
def commit (db : AppendOnlyDb) (id : UInt32) (records : List ChunkRecord) : AppendOnlyDb :=
  let log := records.foldl (fun w r => (w.writeAll none r.writeTo).1) db.logFile
  { db with logFile := log.overwrite 9 (toLe32 id) }

/-- The parallel pass and what follows it. -/
def saveJobs (z : Zstd) (schedule : List (ℕ × Fault)) (db : AppendOnlyDb) (id : UInt32) (jobs : List Job) :
    Option (AppendOnlyDb × Res Unit) :=
  let p := runPass z db id jobs schedule
  let db' := { db with shadow := p.shadow, blobFiles := p.blobFiles }
  match p.outcome jobs with
  | none => none
  | some (.error e) => some (db', .error e)
  | some (.ok records) => some (db'.commit id records, .ok ())

/-- The checks on the snapshot id. -/
def checkSnapshot (db : AppendOnlyDb) (id : UInt32) : Res Unit :=
  if maxSnapshotId < id then ioErr .invalidInput "snapshot_id exceeds 19-bit range"
  else match db.lastSnapshot with
    | some last =>
      if id ≤ last then
        ioErr .invalidInput s!"snapshot_id must increase monotonically: got {id} after {last}"
      else .ok ()
    | none => .ok ()

def saveAllPages (z : Zstd) (schedule : List (ℕ × Fault)) (db : AppendOnlyDb) (memory : Bytes)
    (totalPageCount : UInt64) (snapshotId : UInt32) : Option (AppendOnlyDb × Res Unit) :=
  match db.checkSnapshot snapshotId with
  | .error e => some (db, .error e)
  | .ok () =>
    let db := { db with lastSnapshot := some snapshotId }
    let total := totalPageCount.toNat
    if memory.length ≠ total * pageSize then
      some (db, ioErr .invalidInput "memory length != total_page_count * 4096")
    else if total = 0 then some (db, .ok ())
    else match allJobs memory total with
      | .error e => some (db, .error e)
      | .ok jobs => db.saveJobs z schedule snapshotId jobs

def savePagesWithBitmap (z : Zstd) (schedule : List (ℕ × Fault)) (db : AppendOnlyDb) (memory : Bytes)
    (dirtyBitmap : List UInt64) (totalPageCount : UInt64) (snapshotId : UInt32) :
    Option (AppendOnlyDb × Res Unit) :=
  match db.checkSnapshot snapshotId with
  | .error e => some (db, .error e)
  | .ok () =>
    let db := { db with lastSnapshot := some snapshotId }
    let total := totalPageCount.toNat
    let expectedWords := (total + 63) / 64
    if memory.length ≠ total * pageSize then
      some (db, ioErr .invalidInput "memory length != total_page_count * 4096")
    else if dirtyBitmap.length < expectedWords then some (db, ioErr .invalidInput "dirty_bitmap too short")
    else if expectedWords = 0 then some (db, .ok ())
    else
      let bitmap := dirtyBitmap.take expectedWords
      match bitmapOffsets bitmap expectedWords total with
      | .error e => some (db, .error e)
      | .ok (offsets, totalDirty) =>
        if totalDirty = 0 then some (db, .ok ())
        else match bitmapJobs memory bitmap expectedWords total offsets with
          | .error e => some (db, .error e)
          | .ok jobs => db.saveJobs z schedule snapshotId jobs

end AppendOnlyDb

/-! ## Calls -/

/-- One save call with its arguments. -/
inductive SaveCall
  | all (memory : Bytes) (totalPageCount : UInt64) (snapshotId : UInt32)
  | bitmap (memory : Bytes) (dirtyBitmap : List UInt64) (totalPageCount : UInt64) (snapshotId : UInt32)

namespace SaveCall

def id : SaveCall → UInt32
  | all _ _ s => s
  | bitmap _ _ _ s => s

def total : SaveCall → ℕ
  | all _ n _ => n.toNat
  | bitmap _ _ n _ => n.toNat

def memory : SaveCall → Bytes
  | all m _ _ => m
  | bitmap m _ _ _ => m

/-- The caller marked the page of address `pa` dirty. -/
def marks : SaveCall → ℕ → Bool
  | all _ n _, pa => pa < n.toNat
  | bitmap _ bits n _, pa => decide (pa < n.toNat) && testBit (bits.getD (pa / 64) 0) (pa % 64)

/-- The content a call gives to an address, when it marks it dirty. -/
def dirty (c : SaveCall) (pa : UInt64) : Option Page :=
  if c.marks pa.toNat then (pageAt c.memory pa.toNat).toOption else none

/-- The marked addresses fit the 45 bits of a key. -/
def InRange (c : SaveCall) : Prop := ∀ pa, c.marks pa = true → pa < 2 ^ 45

/-- The call, made on a handle. -/
def run (z : Zstd) (schedule : List (ℕ × Fault)) (db : AppendOnlyDb) :
    SaveCall → Option (AppendOnlyDb × Res Unit)
  | all memory n s => db.saveAllPages z schedule memory n s
  | bitmap memory bits n s => db.savePagesWithBitmap z schedule memory bits n s

end SaveCall

end Bxdb
