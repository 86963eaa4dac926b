import Bxdb.Spec.Session
import Bxdb.Spec.Convert

/-!
# A reader that stays open (`btree.rs`)

Opening a store maps `index.bxdb` and the blob files with the lengths they have then.
Of the log only the path is kept: the lazy index is built by the first look-up, from what
the file holds by then, and its slot is filled once. A mapping shows later writes to its
file up to the length it was made with.

A `Scene` is a directory with such a reader and, beside it, at most one writer, whose
calls and the reader's come in any order.
-/

namespace Bxdb

/-- Where an open reader looks records up: the mapped index, or the slot of the lazy one. -/
inductive ReaderSource
  | btree (mmap : Bytes) (numRecords : ℕ)
  | appendOnly (lazyIndex : Option (List ChunkRecord))

/-- `mapped w` is the length that `worker_w.blob` was mapped with. -/
structure Reader where
  source : ReaderSource
  mapped : UInt8 → Option ℕ

/-- `build_lazy_index` on the log's path. -/
def readLogIndex (dir : Dir) : Res (List ChunkRecord) :=
  match dir.log with
  | none => notFoundErr
  | some log => buildLazyIndex log

/-- `OnceLock::get_or_init`: a slot that is filled keeps what it has. -/
def getOrInit (slot : Option (List ChunkRecord)) (built : List ChunkRecord) : List ChunkRecord := slot.getD built

def ensureLazyIndex (dir : Dir) (slot : Option (List ChunkRecord)) :
    Option (List ChunkRecord) × Res (List ChunkRecord) :=
  match slot with
  | some idx => (some idx, .ok idx)
  | none =>
    match readLogIndex dir with
    | .error e => (none, .error e)
    | .ok built => (some (getOrInit none built), .ok (getOrInit none built))

namespace Reader

/-- The store a directory is opened as, with its mappings. -/
def «open» (dir : Dir) : Res Reader := do
  let store ← PageStore.open dir
  let source := match store.source with
    | .btree mmap n => ReaderSource.btree mmap n
    | .appendOnly _ => .appendOnly none
  .ok ⟨source, fun w => (dir.blobs w).map List.length⟩

/-- What the mappings show, of files that only grew since. -/
def blobs (r : Reader) (dir : Dir) : UInt8 → Option Bytes :=
  fun w => (r.mapped w).map fun n => ((dir.blobs w).getD []).take n

/-- The mapped files as a store, for the reads that need nothing else of it. -/
def blobReaders (r : Reader) (dir : Dir) : PageStore := ⟨.appendOnly [], r.blobs dir⟩

def floor (r : Reader) (dir : Dir) (pa : UInt64) (snapshotId : UInt32) : Reader × Res (Option ChunkRecord) :=
  let key := encodeKey pa snapshotId
  match r.source with
  | .btree mmap n => (r, .ok (floorMmap mmap n key pa))
  | .appendOnly slot =>
    let (slot', idx) := ensureLazyIndex dir slot
    ({ r with source := .appendOnly slot' }, do
      let idx ← idx
      .ok (floorSorted idx key pa))

def exactLookup (r : Reader) (dir : Dir) (key : UInt64) : Reader × Res (Option ChunkRecord) :=
  match r.source with
  | .btree mmap n => (r, .ok (exactMmap mmap n key))
  | .appendOnly slot =>
    let (slot', idx) := ensureLazyIndex dir slot
    ({ r with source := .appendOnly slot' }, do
      let idx ← idx
      .ok (exactSorted idx key))

variable (z : Zstd)

/-- `load_full_cached`, with the cache off. -/
def loadFull (r : Reader) (dir : Dir) (key : UInt64) : Reader × Res Page :=
  match r.exactLookup dir key with
  | (r', .error e) => (r', .error e)
  | (r', .ok none) => (r', ioErr .invalidData "delta base chunk missing from index")
  | (r', .ok (some rec)) =>
    if rec.kind ≠ .full then (r', ioErr .invalidData "delta base is not a Full chunk")
    else (r', (r'.blobReaders dir).decompressBlobInto z rec)

def resolve (r : Reader) (dir : Dir) (rec : ChunkRecord) : Reader × Res Page :=
  match rec.kind with
  | .zero => (r, .ok Page.zero)
  | .full => (r, (r.blobReaders dir).decompressBlobInto z rec)
  | .delta =>
    let (r', base) := r.loadFull z dir rec.baseKey
    (r', do
      let base ← base
      let blob ← (r'.blobReaders dir).deltaBlob rec
      applyDeltaPatchInPlace blob base)

/-- `load_page` on an open reader, while the directory holds `dir`. -/
def loadPage (r : Reader) (dir : Dir) (pa : UInt64) (snapshotId : UInt32) : Reader × Res (Option Page) :=
  if maxSnapshotId < snapshotId then (r, ioErr .invalidInput "snapshot_id exceeds 19-bit range")
  else
    match r.floor dir pa snapshotId with
    | (r', .error e) => (r', .error e)
    | (r', .ok none) => (r', .ok none)
    | (r', .ok (some rec)) =>
      let (r'', page) := r'.resolve z dir rec
      (r'', do
        let page ← page
        .ok (some page))

/-- Loads one after the other, on files that do not change. -/
def loadPages (r : Reader) (dir : Dir) : List (UInt64 × UInt32) → Reader × List (Res (Option Page))
  | [] => (r, [])
  | (pa, s) :: queries =>
    let (r', result) := r.loadPage z dir pa s
    let (r'', results) := r'.loadPages dir queries
    (r'', result :: results)

end Reader

/-! ## A reader beside a writer -/

/-- `dir` is the directory while no writer has it open, and `built` the indices that
threads of the reader have built and not yet offered to the slot. -/
structure Scene where
  dir : Dir
  writer : Option AppendOnlyDb
  reader : Reader
  built : List (List ChunkRecord)

/-- What the files hold now. -/
def Scene.disk (s : Scene) : Dir :=
  match s.writer with
  | some db => db.disk
  | none => s.dir

/-- A load and what it returned. -/
structure Answer where
  pa : UInt64
  snapshot : UInt32
  result : Res (Option Page)

/-- What may happen while the reader is open: sessions of saves that return Ok, flushes,
conversions between them, loads, and look-ups of other threads of the reader, which build
an index when they find the slot empty and offer it later. The lists hold the saves and
the loads so far. -/
inductive Watched (z : Zstd) (s₀ : Scene) : List SaveCall → List Answer → Scene → Prop
  | start : Watched z s₀ [] [] s₀
  | openWriter {cs : List SaveCall} {as : List Answer} {s : Scene} {n : ℕ} {t : UInt16} {u : Bool} {db : AppendOnlyDb}
      (h : Watched z s₀ cs as s) (hidle : s.writer = none) (hopen : AppendOnlyDb.open s.dir n t u = .ok db) :
      Watched z s₀ cs as { s with writer := some db }
  | save {cs : List SaveCall} {as : List Answer} {s : Scene} {db db' : AppendOnlyDb} {c : SaveCall}
      {schedule : List (ℕ × Buffered.Fault)} (h : Watched z s₀ cs as s) (hwriter : s.writer = some db)
      (hsave : c.run z schedule db = some (db', .ok ())) : Watched z s₀ (cs ++ [c]) as { s with writer := some db' }
  | flush {cs : List SaveCall} {as : List Answer} {s : Scene} {db db' : AppendOnlyDb} (h : Watched z s₀ cs as s)
      (hwriter : s.writer = some db) (hflush : db.flush = .ok db') : Watched z s₀ cs as { s with writer := some db' }
  | close {cs : List SaveCall} {as : List Answer} {s : Scene} {db : AppendOnlyDb} {dir' : Dir}
      (h : Watched z s₀ cs as s) (hwriter : s.writer = some db) (hclose : db.close = .ok dir') :
      Watched z s₀ cs as { s with dir := dir', writer := none }
  | convert {cs : List SaveCall} {as : List Answer} {s : Scene} {dir' : Dir} (h : Watched z s₀ cs as s)
      (hidle : s.writer = none) (hconvert : toBtree s.dir = .ok dir') : Watched z s₀ cs as { s with dir := dir' }
  | build {cs : List SaveCall} {as : List Answer} {s : Scene} {built : List ChunkRecord} (h : Watched z s₀ cs as s)
      (hempty : s.reader.source = .appendOnly none) (hbuild : readLogIndex s.disk = .ok built) :
      Watched z s₀ cs as { s with built := built :: s.built }
  | offer {cs : List SaveCall} {as : List Answer} {s : Scene} {slot : Option (List ChunkRecord)}
      {built : List ChunkRecord} (h : Watched z s₀ cs as s) (hbuilt : built ∈ s.built)
      (hslot : s.reader.source = .appendOnly slot) :
      Watched z s₀ cs as { s with reader := { s.reader with source := .appendOnly (some (getOrInit slot built)) } }
  | load {cs : List SaveCall} {as : List Answer} {s : Scene} {pa : UInt64} {snap : UInt32} {r : Reader}
      {result : Res (Option Page)} (h : Watched z s₀ cs as s)
      (hload : s.reader.loadPage z s.disk pa snap = (r, result)) :
      Watched z s₀ cs (as ++ [⟨pa, snap, result⟩]) { s with reader := r }

end Bxdb
