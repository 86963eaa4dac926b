import Bxdb.Spec.Format
import Bxdb.Lib.SortedIndex

/-!
# The reader (`btree.rs`, and the bulk load of `append_only.rs`)

A page store reads `index.bxdb` when it exists and `chunks.log` otherwise. It finds
the newest record of an address at or below a snapshot (`floor`) or the record of a
key (`exactLookup`), reads the record's blob and, for a Delta, patches its base.
The shared cache is off in the shipped configuration.
-/

namespace Bxdb

open Bytes SortedIndex

inductive IndexMode
  | btree
  | appendOnly
  deriving DecidableEq, Repr

/-- Where a store looks records up: the mapped index, or the log's path and content. -/
inductive IndexSource
  | btree (mmap : Bytes) (numRecords : ℕ)
  | appendOnly (log : Bytes)

structure PageStore where
  source : IndexSource
  blobs : UInt8 → Option Bytes

/-! ## Look-ups -/

/-- The sort key of a record. -/
def recordKey (r : ChunkRecord) : ℕ := r.key.toNat

def readKeyAt (body : Bytes) (idx : ℕ) : UInt64 :=
  fromLe64 (slice body (idx * fixedRecordSize) (idx * fixedRecordSize + 8))

def readRecordAt (body : Bytes) (idx : ℕ) : Res ChunkRecord :=
  ChunkRecord.decodeFixed (slice body (idx * fixedRecordSize) (idx * fixedRecordSize + fixedRecordSize))

/-- The smallest position whose key exceeds `key`, less one; a record that does not
decode counts as absent. -/
def floorMmap (bytes : Bytes) (n : ℕ) (key pa : UInt64) : Option ChunkRecord :=
  let body := bytes.drop headerSize
  let lo := partitionLoop (fun mid => readKeyAt body mid ≤ key) n 0 n
  if lo = 0 then none
  else match readRecordAt body (lo - 1) with
    | .ok rec => if paOf rec.key = pa then some rec else none
    | .error _ => none

def exactMmap (bytes : Bytes) (n : ℕ) (key : UInt64) : Option ChunkRecord :=
  let body := bytes.drop headerSize
  match searchLoop (fun mid => (readKeyAt body mid).toNat) key.toNat n 0 n with
  | some mid => (readRecordAt body mid).toOption
  | none => none

/-- `body[a..b]`, which panics outside the body. The look-ups above read with clipped
slices; these are the same with every read checked. -/
def readBody (body : Bytes) (a b : ℕ) : Res Bytes :=
  match range? body a b with
  | some bs => .ok bs
  | none => panics "range end index out of range for slice"

def readKeyChecked (body : Bytes) (idx : ℕ) : Res UInt64 := do
  let bs ← readBody body (idx * fixedRecordSize) (idx * fixedRecordSize + 8)
  .ok (fromLe64 bs)

/-- The outer result is that of the read, the inner one that of `decode_fixed`. -/
def readRecordChecked (body : Bytes) (idx : ℕ) : Res (Res ChunkRecord) := do
  let bs ← readBody body (idx * fixedRecordSize) (idx * fixedRecordSize + fixedRecordSize)
  .ok (ChunkRecord.decodeFixed bs)

def floorMmapChecked (bytes : Bytes) (n : ℕ) (key pa : UInt64) : Res (Option ChunkRecord) := do
  let body ← readBody bytes headerSize bytes.length
  let lo ← partitionLoopM (fun mid => do
    let k ← readKeyChecked body mid
    .ok (decide (k ≤ key))) n 0 n
  if lo = 0 then .ok none
  else do
    match ← readRecordChecked body (lo - 1) with
    | .ok rec => .ok (if paOf rec.key = pa then some rec else none)
    | .error _ => .ok none

def exactMmapChecked (bytes : Bytes) (n : ℕ) (key : UInt64) : Res (Option ChunkRecord) := do
  let body ← readBody bytes headerSize bytes.length
  let found ← searchLoopM (fun mid => do
    let k ← readKeyChecked body mid
    .ok k.toNat) key.toNat n 0 n
  match found with
  | some mid => do
    let rec ← readRecordChecked body mid
    .ok rec.toOption
  | none => .ok none

def floorSorted (records : List ChunkRecord) (key pa : UInt64) : Option ChunkRecord :=
  match floor? recordKey records key.toNat with
  | some rec => if paOf rec.key = pa then some rec else none
  | none => none

def exactSorted (records : List ChunkRecord) (key : UInt64) : Option ChunkRecord :=
  records.find? fun r => r.key == key

/-- Every record of a log, sorted by key, the first of each key. -/
def buildLazyIndex (log : Bytes) : Res (List ChunkRecord) := do
  let (_, body) ← readAndVerifyHeader log magicLog
  let records ← ChunkRecord.scan body
  .ok (index recordKey records)

/-! ## The store -/

def verifyIndexHeader (bytes : Bytes) : Res Unit :=
  if bytes.length < headerSize then ioErr .invalidData "index.bxdb too short"
  else if slice bytes 0 8 ≠ magicIdx then ioErr .invalidData "bad index magic"
  else .ok ()

def verifyLogHeader (log : Bytes) : Res Unit := do
  let _ ← readAndVerifyHeader log magicLog
  .ok ()

namespace PageStore

def «open» (dir : Dir) : Res PageStore :=
  match dir.idx, dir.log with
  | some mmap, _ => do
    verifyIndexHeader mmap
    let bodyLen := mmap.length - headerSize
    if bodyLen % fixedRecordSize ≠ 0 then
      ioErr .invalidData "index.bxdb body size not aligned to record size"
    else .ok ⟨.btree mmap (bodyLen / fixedRecordSize), dir.blobs⟩
  | none, some log => do
    verifyLogHeader log
    .ok ⟨.appendOnly log, dir.blobs⟩
  | none, none => ioErr .notFound "neither index.bxdb nor chunks.log found"

def mode (store : PageStore) : IndexMode :=
  match store.source with
  | .btree _ _ => .btree
  | .appendOnly _ => .appendOnly

def floor (store : PageStore) (pa : UInt64) (snapshotId : UInt32) : Res (Option ChunkRecord) :=
  let key := encodeKey pa snapshotId
  match store.source with
  | .btree mmap n => .ok (floorMmap mmap n key pa)
  | .appendOnly log => do
    let idx ← buildLazyIndex log
    .ok (floorSorted idx key pa)

def exactLookup (store : PageStore) (key : UInt64) : Res (Option ChunkRecord) :=
  match store.source with
  | .btree mmap n => .ok (exactMmap mmap n key)
  | .appendOnly log => do
    let idx ← buildLazyIndex log
    .ok (exactSorted idx key)

/-- The mapped file of a worker; `expect` fails without one. -/
def blobMmap (store : PageStore) (workerId : UInt8) : Res Bytes :=
  match store.blobs workerId with
  | some bytes => .ok bytes
  | none => panics "worker blob not found"

variable (z : Zstd)

def decompressBlobInto (store : PageStore) (rec : ChunkRecord) : Res Page := do
  let bytes ← store.blobMmap rec.workerId
  let start := rec.offset.toNat
  if 2 ^ 64 ≤ start + rec.len.toNat then ioErr .invalidInput "blob offset+len overflow"
  else match range? bytes start (start + rec.len.toNat) with
    | none => ioErr .unexpectedEof "blob read out of range"
    | some blob =>
      match z.decompress pageSize blob with
      | none => ioErr .other "zstd decompression failed"
      | some out => if h : out.length = pageSize then .ok ⟨out, h⟩ else ioErr .invalidData "decompressed size != 4096"

/-- The patch bytes of a Delta. -/
def deltaBlob (store : PageStore) (rec : ChunkRecord) : Res Bytes := do
  let bytes ← store.blobMmap rec.workerId
  let start := rec.offset.toNat
  if 2 ^ 64 ≤ start + rec.len.toNat then panics "attempt to add with overflow"
  else match range? bytes start (start + rec.len.toNat) with
    | none => ioErr .unexpectedEof "delta blob out of range"
    | some blob => .ok blob

/-- The Full page a Delta starts from. -/
def loadFull (store : PageStore) (key : UInt64) : Res Page := do
  match ← store.exactLookup key with
  | none => ioErr .invalidData "delta base chunk missing from index"
  | some rec =>
    if rec.kind ≠ .full then ioErr .invalidData "delta base is not a Full chunk"
    else store.decompressBlobInto z rec

/-- The content of a record. -/
def resolveUncached (store : PageStore) (rec : ChunkRecord) : Res Page :=
  match rec.kind with
  | .zero => .ok Page.zero
  | .full => store.decompressBlobInto z rec
  | .delta => do
    let base ← store.loadFull z rec.baseKey
    let blob ← store.deltaBlob rec
    applyDeltaPatchInPlace blob base

end PageStore

/-! ## Loading one page -/

section Load

variable (z : Zstd)

def PageStore.loadPage (store : PageStore) (pa : UInt64) (snapshotId : UInt32) : Res (Option Page) :=
  if maxSnapshotId < snapshotId then ioErr .invalidInput "snapshot_id exceeds 19-bit range"
  else do
    match ← store.floor pa snapshotId with
    | none => .ok none
    | some rec =>
      let page ← store.resolveUncached z rec
      .ok (some page)

/-- `BtreeDb::open` and `load_page`: the page, or `none` for `Ok(false)`. -/
def loadPage (dir : Dir) (pa : UInt64) (snapshotId : UInt32) : Res (Option Page) := do
  let store ← PageStore.open dir
  store.loadPage z pa snapshotId

/-! ## Bulk loads -/

/-- The index path: one worker's pages. -/
def loadBtreePage (store : PageStore) (paOffset : UInt64) (snapshotId : UInt32) (i : ℕ) :
    Res (Option Page) :=
  if 2 ^ 64 ≤ paOffset.toNat + i then panics "attempt to add with overflow"
  else do
    match ← store.floor (paOffset + UInt64.ofNat i) snapshotId with
    | none => .ok none
    | some rec =>
      let page ← store.resolveUncached z rec
      .ok (some page)

/-- The scan path's table: the first record with the highest snapshot id of each address. -/
def scanLatest (paOffset : UInt64) (total : ℕ) (snapshotId : UInt32) (records : List ChunkRecord) :
    ℕ → Option ChunkRecord :=
  records.foldl (fun latest rec =>
    let pa := (paOf rec.key).toNat
    if pa < paOffset.toNat ∨ paOffset.toNat + total ≤ pa then latest
    else if snapshotId < snapshotOf rec.key then latest
    else
      let slot := pa - paOffset.toNat
      match latest slot with
      | none => Function.update latest slot (some rec)
      | some prev =>
        if snapshotOf prev.key < snapshotOf rec.key then Function.update latest slot (some rec) else latest)
    fun _ => none

def loadScanPage (store : PageStore) (latest : ℕ → Option ChunkRecord) (i : ℕ) : Res (Option Page) :=
  match latest i with
  | none => .ok none
  | some rec => do
    let page ← store.resolveUncached z rec
    .ok (some page)

/-- The page indices of each worker: consecutive, `⌈total / workers⌉` each. -/
def workerRanges (total workers : ℕ) : List (List ℕ) :=
  let perWorker := (total + workers - 1) / workers
  (List.range workers).filterMap fun k =>
    let cursor := k * perWorker
    if total ≤ cursor then none else some ((List.range (min perWorker (total - cursor))).map (cursor + ·))

/-- Joining the workers in order: the first failure is returned, a panic of that
worker as an error; a panic of a worker not joined yet stops the caller. -/
def joinWorkers : List (Res (List (Option Page))) → Res (List (Option Page))
  | [] => .ok []
  | .ok pages :: rest => do
    let more ← joinWorkers rest
    .ok (pages ++ more)
  | .error e :: rest =>
    if rest.any (fun r => match r with | .error (.panic _) => true | _ => false) then
      panics "a scoped thread panicked"
    else match e with
      | .err e => .error (.err e)
      | .panic _ => ioErr .other "worker panicked"

/-- `isize::MAX`: a vector cannot reserve more bytes. -/
def isizeMax : ℕ := 2 ^ 63 - 1

/-- What `Vec::with_capacity(worker_count)` reserves for each worker: its first page and
its slice, or the handle it is joined by. -/
def workerEntrySize : ℕ := 24

/-- Every worker's pages, in order. The division of the pages and the vector of the workers
come first; memory that the machine does not have is not modelled. -/
def loadAllWith (load : ℕ → Res (Option Page)) (total workers : ℕ) : Res (List (Option Page)) :=
  if 2 ^ 64 ≤ total + workers then panics "attempt to add with overflow"
  else if isizeMax < workers * workerEntrySize then panics "capacity overflow"
  else joinWorkers ((workerRanges total workers).map fun is => is.mapM load)

/-- The numbers of workers that a load of `total` pages accepts. -/
def WorkersFit (total workers : ℕ) : Prop :=
  total + max workers 1 < 2 ^ 64 ∧ max workers 1 * workerEntrySize ≤ isizeMax

instance (total workers : ℕ) : Decidable (WorkersFit total workers) :=
  inferInstanceAs (Decidable (_ ∧ _))

/-- `AppendOnlyDb::load_all_pages` on a directory, into a buffer of `outLen` bytes.
The pages in range, `none` for one that no record covers. -/
def loadAllPages (dir : Dir) (outLen : ℕ) (outAligned : Bool) (paOffset totalPageCount : UInt64)
    (snapshotId : UInt32) (workerCount : ℕ) : Res (List (Option Page)) :=
  let total := totalPageCount.toNat
  if maxSnapshotId < snapshotId then ioErr .invalidInput "snapshot_id exceeds 19-bit range"
  else if outLen ≠ total * pageSize then ioErr .invalidInput "output length != total_page_count * 4096"
  else if ¬ outAligned then ioErr .invalidInput "output buffer address not page-aligned"
  else do
    let workers := max workerCount 1
    let store ← PageStore.open dir
    match store.source with
    | .btree _ _ => loadAllWith (loadBtreePage z store paOffset snapshotId) total workers
    | .appendOnly log =>
      if 2 ^ 64 ≤ paOffset.toNat + total then panics "attempt to add with overflow"
      else do
        let (_, body) ← readAndVerifyHeader log magicLog
        let records ← ChunkRecord.scan body
        loadAllWith (loadScanPage z store (scanLatest paOffset total snapshotId records)) total workers

/-- The output buffer, zeroed before the load: a page no record covers stays zero. -/
def outBuffer (pages : List (Option Page)) : Bytes := pages.flatMap fun p => (p.getD Page.zero).bytes

/-- What a bulk load returns and leaves in its buffer: whether every page was found, and
the bytes. -/
def loadAllInto (dir : Dir) (paOffset totalPageCount : UInt64) (snapshotId : UInt32) (workerCount : ℕ) :
    Res (Bool × Bytes) := do
  let pages ← loadAllPages z dir (totalPageCount.toNat * pageSize) true paOffset totalPageCount snapshotId workerCount
  .ok (pages.all Option.isSome, outBuffer pages)

end Load

end Bxdb
