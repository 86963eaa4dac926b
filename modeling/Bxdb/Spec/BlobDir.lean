import Bxdb.Spec.Lifecycle
import Bxdb.Lib.Numerals
import Mathlib.Data.List.AList

/-!
# The worker files by name (`append_only.rs`, `btree.rs`, `check.rs`, `purge.rs`)

`Dir.blobs` has one file for each worker. On disk there is a directory of named files, of
which some may be other people's. The writer and the truncation of a purge make a worker's
file name; the readers, `check` and the removal of a purge list the directory, in whatever
order it comes, and read a worker out of every name.
-/

namespace Bxdb

open Bytes SortedIndex

abbrev FileName := List Char

/-- The files of a directory, each under its own name. -/
abbrev Files := AList fun _ : FileName => Bytes

/-- One entry of a listing. -/
abbrev FileEntry := (_ : FileName) × Bytes

/-- `format!("worker_{i}.blob")` -/
def workerName (i : ℕ) : FileName := "worker_".toList ++ (Nat.toDigits 10 i ++ ".blob".toList)

/-- The worker of a name. `parse::<u8>` takes a plus sign and leading zeros. -/
def workerIdOf (name : FileName) : Option UInt8 := do
  let rest ← name.dropPrefix? "worker_".toList
  let digits ← rest.dropSuffix? ".blob".toList
  (Numerals.parse 10 256 digits).map UInt8.ofNat

/-! ## Reading a listing -/

structure BlobReaders where
  files : List Bytes
  byId : UInt8 → Option ℕ

namespace BlobReaders

/-- The paths that `new` collects. -/
def paths (entries : List FileEntry) : List (UInt8 × Bytes) :=
  entries.filterMap fun e => (workerIdOf e.1).map fun id => (id, e.2)

def push (r : BlobReaders) (p : UInt8 × Bytes) : BlobReaders where
  files := r.files ++ [p.2]
  byId := Function.update r.byId p.1 (some r.files.length)

/-- `BlobReaders::new`, over the entries of `blobs` in the order they are listed. -/
def new (entries : List FileEntry) : BlobReaders :=
  (sortByKey (fun p => p.1.toNat) (paths entries)).foldl push ⟨[], fun _ => none⟩

/-- `BlobReaders::mmap`; `none` is its `expect`. -/
def mmap (r : BlobReaders) (workerId : UInt8) : Option Bytes := (r.byId workerId).bind fun idx => r.files[idx]?

end BlobReaders

/-- `blob_sizes` of `check`. -/
def blobSizes (entries : List FileEntry) : UInt8 → Option ℕ :=
  entries.foldl (fun sizes e => match workerIdOf e.1 with
    | some id => Function.update sizes id (some e.2.length)
    | none => sizes) fun _ => none

/-! ## The directory -/

/-- A database directory as the file system has it. -/
structure NamedDir where
  log : Option Bytes
  idx : Option Bytes
  files : Files

namespace NamedDir

def empty : NamedDir := ⟨none, none, ∅⟩

/-- Each worker's file is the one under the name the writer gives it. -/
def view (d : NamedDir) : Dir := ⟨d.log, d.idx, fun w => d.files.lookup (workerName w.toNat)⟩

/-- The files of the workers, created or appended to by a session, beside the others. -/
def putWorkers (files : Files) (workerCount : ℕ) (bytes : UInt8 → Bytes) : Files :=
  (List.range workerCount).foldl (fun fs i => fs.insert (workerName i) (bytes (UInt8.ofNat i))) files

/-- What a session that closes leaves. -/
def close (d : NamedDir) (db : AppendOnlyDb) : Res NamedDir := do
  let db' ← db.flush
  .ok ⟨some db'.logFile.file.bytes, d.idx, putWorkers d.files db'.workerCount fun w => (db'.blobFiles w).writer.file.bytes⟩

def toBtree (d : NamedDir) : Res NamedDir := do
  let dir ← Bxdb.toBtree d.view
  .ok { d with idx := dir.idx }

def toLog (d : NamedDir) : Res NamedDir := do
  let dir ← Bxdb.toLog d.view
  .ok { d with log := dir.log }

/-- One worker's file, opened by name and cut. -/
def truncateBlob (records : List ChunkRecord) (files : Files) (w : UInt8) : Res Files :=
  match files.lookup (workerName w.toNat) with
  | none => notFoundErr
  | some bytes =>
    if maxFileLen < keepLen records w then ioErr .invalidInput "out of range integral type conversion attempted"
    else .ok (files.insert (workerName w.toNat) (setLen bytes (keepLen records w)))

/-- `truncate_blobs`; the workers come out of a hash map. -/
def truncateBlobs (ord : WalkOrder UInt8) (files : Files) (records : List ChunkRecord) : Res Files :=
  if records.any (fun r => r.kind != .zero && decide (2 ^ 64 ≤ endOf r)) then
    panics "attempt to add with overflow"
  else (ord.walk (allWorkers.filter fun w => ¬ (blobRecords records w).isEmpty)).foldlM (truncateBlob records) files

/-- Whether `cleanup_unused_blob_files` removes a file of this name. -/
def unused (records : List ChunkRecord) (name : FileName) : Bool :=
  match workerIdOf name with
  | some w => ¬ records.any fun r => r.workerId == w
  | none => false

def cleanupUnusedBlobFiles (ord : WalkOrder FileEntry) (files : Files) (records : List ChunkRecord) : Files :=
  (ord.walk files.entries).foldl (fun fs e => if unused records e.1 then fs.erase e.1 else fs) files

/-- `purge`, file by file. -/
def purge (ordW : WalkOrder UInt8) (ordE : WalkOrder FileEntry) (d : NamedDir) (snapshotThreshold : UInt32) :
    Res (NamedDir × ℕ) := do
  let (kept, removed) ← keptRecords d.view snapshotThreshold
  if removed = 0 then .ok (d, 0)
  else do
    let files ← truncateBlobs ordW d.files kept
    .ok (⟨d.log.map fun _ => logFile kept, d.idx.map fun _ => indexFile kept,
      cleanupUnusedBlobFiles ordE files kept⟩, removed)

end NamedDir

/-- The commands on a named directory, while other programs write and remove files under
names of their own: what they leave there is `others`. -/
inductive NamedLife (z : Zstd) : List Command → (FileName → Option Bytes) → NamedDir → Prop
  | empty : NamedLife z [] (fun _ => none) NamedDir.empty
  | session {es : List Command} {others : FileName → Option Bytes} {d d' : NamedDir} {n : ℕ} {t : UInt16} {u : Bool}
      {db db' : AppendOnlyDb} {cs : List SaveCall} (h : NamedLife z es others d)
      (hopen : AppendOnlyDb.open d.view n t u = .ok db) (hsaves : Saves z db cs db') (hclose : d.close db' = .ok d')
      (hrange : ∀ c ∈ cs, c.InRange) : NamedLife z (es ++ [.session cs]) others d'
  | toBtree {es : List Command} {others : FileName → Option Bytes} {d d' : NamedDir} (h : NamedLife z es others d)
      (hc : d.toBtree = .ok d') : NamedLife z (es ++ [.toBtree]) others d'
  | toLog {es : List Command} {others : FileName → Option Bytes} {d d' : NamedDir} (h : NamedLife z es others d)
      (hc : d.toLog = .ok d') : NamedLife z (es ++ [.toLog]) others d'
  | purge {es : List Command} {others : FileName → Option Bytes} {d d' : NamedDir} {ordW : WalkOrder UInt8}
      {ordE : WalkOrder FileEntry} {t : UInt32} {n : ℕ} (h : NamedLife z es others d)
      (hp : d.purge ordW ordE t = .ok (d', n)) : NamedLife z (es ++ [.purge t]) others d'
  | otherPut {es : List Command} {others : FileName → Option Bytes} {d : NamedDir} {name : FileName} {bytes : Bytes}
      (h : NamedLife z es others d) (hname : workerIdOf name = none) :
      NamedLife z es (Function.update others name (some bytes)) { d with files := d.files.insert name bytes }
  | otherRemove {es : List Command} {others : FileName → Option Bytes} {d : NamedDir} {name : FileName}
      (h : NamedLife z es others d) (hname : workerIdOf name = none) :
      NamedLife z es (Function.update others name none) { d with files := d.files.erase name }

end Bxdb
