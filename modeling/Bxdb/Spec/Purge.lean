import Bxdb.Spec.Convert
import Bxdb.Spec.AppendOnly

/-!
# Purge (`purge.rs`)

Purge drops the records above a threshold from the index files, cuts each worker file
at the end of the last range a kept record names, and removes the files of workers
no kept record names. The work is a list of file-level steps, so that a state
between two of them can be spoken of.
-/

namespace Bxdb

open Bytes

def readIndex (idx : Bytes) : Res (List ChunkRecord) := do
  let (_, body) ← readAndVerifyHeader idx magicIdx
  if body.length % fixedRecordSize ≠ 0 then
    ioErr .invalidData "index.bxdb body size not aligned to record size"
  else (chunksExact fixedRecordSize body).mapM ChunkRecord.decodeFixed

def readLog (log : Bytes) : Res (List ChunkRecord) := buildLazyIndex log

/-- One change to the directory. -/
inductive FileStep
  | truncate (w : UInt8) (keepLen : ℕ)
  | remove (w : UInt8)
  | renameIdx (bytes : Bytes)
  | renameLog (bytes : Bytes)
  deriving DecidableEq

/-- `set_len`: cut, or fill with zeros. -/
def setLen (bytes : Bytes) (n : ℕ) : Bytes := bytes.take n ++ List.replicate (n - bytes.length) 0

def applyStep (dir : Dir) : FileStep → Res Dir
  | .truncate w keepLen =>
    match dir.blobs w with
    | none => notFoundErr
    | some bytes =>
      if maxFileLen < keepLen then ioErr .invalidInput "out of range integral type conversion attempted"
      else .ok { dir with blobs := Function.update dir.blobs w (some (setLen bytes keepLen)) }
  | .remove w => .ok { dir with blobs := Function.update dir.blobs w none }
  | .renameIdx bytes => .ok { dir with idx := some bytes }
  | .renameLog bytes => .ok { dir with log := some bytes }

/-- The steps so far, from a directory. -/
def applySteps (dir : Dir) (steps : List FileStep) : Res Dir := steps.foldlM applyStep dir

/-- Where a record's blob range ends. -/
def endOf (r : ChunkRecord) : ℕ := r.offset.toNat + r.len.toNat

/-- The records whose blob a worker file holds. -/
def blobRecords (records : List ChunkRecord) (w : UInt8) : List ChunkRecord :=
  records.filter fun r => r.kind != .zero && r.workerId == w

/-- The length a worker file is cut to. -/
def keepLen (records : List ChunkRecord) (w : UInt8) : ℕ :=
  (blobRecords records w).foldl (fun m r => max m (endOf r)) 0

def allWorkers : List UInt8 := (List.finRange 256).map UInt8.ofFin

/-- One truncation for each worker that a non-Zero record names. -/
def truncateBlobs (records : List ChunkRecord) : Res (List FileStep) :=
  if records.any (fun r => r.kind != .zero && decide (2 ^ 64 ≤ endOf r)) then
    panics "attempt to add with overflow"
  else .ok ((allWorkers.filter fun w => ¬ (blobRecords records w).isEmpty).map fun w =>
    .truncate w (keepLen records w))

/-- One removal for each worker file that no record names. A Zero record names worker 0. -/
def cleanupUnusedBlobFiles (dir : Dir) (records : List ChunkRecord) : List FileStep :=
  (allWorkers.filter fun w =>
    (dir.blobs w).isSome && ¬ records.any fun r => r.workerId == w).map .remove

/-- An order in which a hash map or a directory is walked. -/
structure WalkOrder (α : Type) where
  walk : List α → List α
  perm : ∀ l, (walk l).Perm l

def WalkOrder.id (α : Type) : WalkOrder α := ⟨fun l => l, fun _ => List.Perm.refl _⟩

/-- The records of a directory: `index.bxdb` is read when it exists. -/
def readRecords (dir : Dir) : Res (List ChunkRecord) :=
  match dir.idx, dir.log with
  | some idx, _ => readIndex idx
  | none, some log => readLog log
  | none, none => ioErr .notFound "neither index.bxdb nor chunks.log found"

/-- The records a purge keeps, with the number it drops. -/
def keptRecords (dir : Dir) (snapshotThreshold : UInt32) : Res (List ChunkRecord × ℕ) := do
  let records ← readRecords dir
  let kept := records.filter fun r => snapshotOf r.key ≤ snapshotThreshold
  .ok (kept, records.length - kept.length)

/-- The file-level steps of a purge that keeps these records: the blob files in any
order, then `index.bxdb`, then `chunks.log`. -/
def purgeSteps (ord : WalkOrder FileStep) (dir : Dir) (kept : List ChunkRecord) : Res (List FileStep) := do
  let truncations ← truncateBlobs kept
  let idxStep := if dir.idx.isSome then [FileStep.renameIdx (indexFile kept)] else []
  let logStep := if dir.log.isSome then [FileStep.renameLog (logFile kept)] else []
  .ok (ord.walk (truncations ++ cleanupUnusedBlobFiles dir kept) ++ idxStep ++ logStep)

/-- What a purge does to the directory, step by step; nothing when no record is above
the threshold. -/
def purgePlan (ord : WalkOrder FileStep) (dir : Dir) (snapshotThreshold : UInt32) :
    Res (List FileStep × ℕ) := do
  let (kept, removed) ← keptRecords dir snapshotThreshold
  if removed = 0 then .ok ([], 0)
  else do
    let steps ← purgeSteps ord dir kept
    .ok (steps, removed)

/-- `purge(dir, snapshot_threshold)`: the directory after it, and the number of
records removed. -/
def purge (ord : WalkOrder FileStep) (dir : Dir) (snapshotThreshold : UInt32) : Res (Dir × ℕ) := do
  let (steps, removed) ← purgePlan ord dir snapshotThreshold
  let dir' ← applySteps dir steps
  .ok (dir', removed)

end Bxdb
