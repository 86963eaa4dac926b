import Bxdb.Spec.Btree

/-!
# Writing whole files (`convert.rs`, the file writers of `purge.rs`)

`to_btree` turns the log into `index.bxdb`: its records sorted by key, one for each
key. `to_log` turns `index.bxdb` back into a log, snapshot after snapshot. A new file
takes the old one's place by a rename, in one step.
-/

namespace Bxdb

open Bytes SortedIndex

/-- The largest snapshot id among records, 0 without one. -/
def maxSnapshot (records : List ChunkRecord) : UInt32 :=
  records.foldl (fun m r => max m (snapshotOf r.key)) 0

/-- The content of `index.bxdb`, one 32-byte entry for each record. -/
def indexFile (records : List ChunkRecord) : Bytes :=
  writeIndexHeader (maxSnapshot records) ++ records.flatMap ChunkRecord.encodeFixed

/-- The snapshot ids of records, in increasing order. -/
def snapshotIds (records : List ChunkRecord) : List UInt32 :=
  index UInt32.toNat (records.map fun r => snapshotOf r.key)

/-- The records of each snapshot in turn, each group in the order the records come in. -/
def bySnap (records : List ChunkRecord) : List ChunkRecord :=
  (snapshotIds records).flatMap fun s => records.filter fun r => snapshotOf r.key == s

/-- The content of `chunks.log`, snapshot after snapshot. -/
def logFile (records : List ChunkRecord) : Bytes :=
  writeLogHeader (maxSnapshot records) ++ (bySnap records).flatMap ChunkRecord.writeTo

def notFoundErr {α : Type} : Res α := ioErr .notFound "No such file or directory"

/-- `chunks.log` to `index.bxdb`. -/
def toBtree (dir : Dir) : Res Dir :=
  match dir.log with
  | none => notFoundErr
  | some log => do
    let records ← buildLazyIndex log
    .ok { dir with idx := some (indexFile records) }

/-- 32 bytes at a time, until fewer are left. -/
def readEntries (body : Bytes) : Res (List ChunkRecord) :=
  (chunksExact fixedRecordSize body).mapM ChunkRecord.decodeFixed

/-- The records of each snapshot in turn, each group sorted by key. -/
def bySnapSorted (records : List ChunkRecord) : List ChunkRecord :=
  (snapshotIds records).flatMap fun s => sortByKey recordKey (records.filter fun r => snapshotOf r.key == s)

/-- `index.bxdb` to `chunks.log`. -/
def toLog (dir : Dir) : Res Dir :=
  match dir.idx with
  | none => notFoundErr
  | some idx => do
    let (_, body) ← readAndVerifyHeader idx magicIdx
    let records ← readEntries body
    let log := writeLogHeader (maxSnapshot records) ++ (bySnapSorted records).flatMap ChunkRecord.writeTo
    .ok { dir with log := some log }

/-- `dir` holds the records of the database `written` as its log, as an index made of
that log, or as both, over the same blob files. -/
structure HeldAs (written dir : Dir) : Prop where
  log : dir.log = none ∨ dir.log = written.log
  idx : dir.idx = none ∨ ∃ d, toBtree written = .ok d ∧ dir.idx = d.idx
  present : dir.log ≠ none ∨ dir.idx ≠ none
  blobs : dir.blobs = written.blobs

end Bxdb
