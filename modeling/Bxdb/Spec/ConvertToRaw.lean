import Bxdb.Spec.Btree
import Bxdb.Lib.BufWriter
import Bxdb.Lib.Versioned
import Mathlib.Data.List.Sort

/-!
# Exporting a raw chain (`bin/convert_to_raw.rs`)

`convert-to-raw` streams `chunks.log` through an image of the memory and writes one
file for each snapshot id it meets, with the pages touched there: their number, their
addresses, zeros up to a multiple of 4096 bytes, and the pages. A loader looks a page up
in the files from its snapshot backward. The file of snapshot 0 leaves out zero pages,
since no earlier file can hold another version of them.
-/

namespace Bxdb

open Bytes Versioned Buffered

/-! ## One file -/

def align : UInt64 := 4096

/-- `memory[a..a + PAGE_SIZE]` -/
def readPage (memory : Bytes) (a : ℕ) : Res Page :=
  if h : (slice memory a (a + pageSize)).length = pageSize then .ok ⟨_, h⟩
  else panics "range end index out of range for slice"

/-- The content of a file of the chain. -/
def writeRawFile (addrs : List UInt64) (memory : Bytes) : Res Bytes := do
  let num := UInt64.ofNat addrs.length
  let dataOff := (8 + num * 8 + (align - 1)) &&& ~~~(align - 1)
  let table := toLe64 num ++ addrs.flatMap toLe64
  let pad := dataOff.toNat - table.length
  let pages ← addrs.mapM fun a => readPage memory a.toNat
  .ok (table ++ List.replicate pad 0 ++ pages.flatMap Page.bytes)

/-! ## The chain -/

/-- The files of a chain directory, by the snapshot id that names them. -/
abbrev Chain := ℕ → Option Bytes

/-- A directory just made. -/
def Chain.empty : Chain := fun _ => none

/-- Whether the file of a snapshot lists a dirty page. -/
def lists (snapId : UInt32) (buf : Bytes) (pa : UInt64) : Res Bool :=
  if snapId = 0 then do
    let page ← readPage buf (pa.toNat * pageSize)
    .ok (!isAllZero page)
  else .ok true

def flushSnapshot (chain : Chain) (snapId : UInt32) (buf : Bytes) (dirty : List UInt64) : Res Chain := do
  let kept ← dirty.filterM (lists snapId buf)
  let file ← writeRawFile (kept.map fun pa => pa * UInt64.ofNat pageSize) buf
  .ok (Function.update chain snapId.toNat (some file))

/-- `BTreeSet::insert`, on the increasing list of the members. -/
def insertPa (pa : UInt64) (dirty : List UInt64) : List UInt64 :=
  if pa ∈ dirty then dirty else dirty.orderedInsert (· ≤ ·) pa

/-! ## The walk over the log -/

/-- The variables of `main`. `state` is the image of the memory, and `dirty` lists the
pages of the current snapshot. -/
structure RawState where
  chain : Chain
  state : Bytes
  dirty : List UInt64
  currentSnapId : UInt32
  lastPa : UInt64

section Walk

variable (z : Zstd) (store : PageStore)

/-- The page a record stands for. An `Err` is a warning that ends the walk. -/
def chunkPage (rec : ChunkRecord) : Res Page :=
  match rec.kind with
  | .full => store.decompressBlobInto z rec
  | .delta => do
    match ← store.exactLookup rec.baseKey with
    | none => ioErr .notFound "delta base not found"
    | some baseRec =>
      if baseRec.kind ≠ .full then ioErr .invalidData "delta base is not Full"
      else do
        let base ← store.decompressBlobInto z baseRec
        let blob ← store.deltaBlob rec
        applyDeltaPatch base blob
  | .zero => .ok Page.zero

/-- The snapshot boundary: a record of a later snapshot flushes the current one. -/
def enterSnapshot (st : RawState) (pa : UInt64) (snap : UInt32) : Res RawState :=
  if snap < st.currentSnapId then panics "snap < current"
  else if snap ≠ st.currentSnapId then do
    let chain ← flushSnapshot st.chain st.currentSnapId st.state st.dirty
    .ok { st with chain := chain, dirty := [], currentSnapId := snap, lastPa := pa }
  else if pa < st.lastPa then panics "PA < last PA"
  else .ok { st with lastPa := pa }

/-- One record: the variables after it, and whether the walk ends here, `truncated`. The
warning about a Full record prints `rec.offset + rec.len`. -/
def convertRecord (st : RawState) (rec : ChunkRecord) : Res (RawState × Bool) := do
  let pa := paOf rec.key
  let st ← enterSnapshot st pa (snapshotOf rec.key)
  let st := { st with dirty := insertPa pa st.dirty }
  let byteOff := pa.toNat * pageSize
  if st.state.length < byteOff + pageSize then panics "range end index out of range for slice"
  else match chunkPage z store rec with
    | .ok page => .ok ({ st with state := RawFile.writeAt st.state byteOff page.bytes }, false)
    | .error (.err _) =>
      if rec.kind = .full ∧ 2 ^ 64 ≤ rec.offset.toNat + rec.len.toNat then panics "attempt to add with overflow"
      else .ok (st, true)
    | .error (.panic msg) => panics msg

/-- The `loop`, with fuel above the input's length. -/
def convertLoop : ℕ → RawState → Bytes → Res (RawState × Bool)
  | 0, st, _ => .ok (st, false)
  | fuel + 1, st, bs =>
    match ChunkRecord.readFrom bs with
    | .error (.err e) => panics s!"read error: {e.msg}"
    | .error (.panic msg) => panics msg
    | .ok none => .ok (st, false)
    | .ok (some (rec, rest)) => do
      let (st, truncated) ← convertRecord z store st rec
      if truncated then .ok (st, true) else convertLoop fuel st rest

end Walk

/-- What a run leaves: the files, `raw-meta`, and whether it stopped at a record. -/
structure RawExport where
  chain : Chain
  rawMeta : String
  truncated : Bool

def rawMetaText (maxSnap : UInt32) : String := s!"current_snap_id={maxSnap}\n"

/-- `main`, into a chain directory that holds `chain`. -/
def convertToRaw (z : Zstd) (dir : Dir) (chain : Chain) (memorySize : UInt64) : Res RawExport :=
  if memorySize = 0 ∨ memorySize % UInt64.ofNat pageSize ≠ 0 then
    ioErr .invalidInput "memory_size must be a positive multiple of 4096"
  else match PageStore.open dir, dir.log with
    | .error _, _ => panics "failed to open bxdb page store"
    | .ok _, none => panics "cannot open chunks.log"
    | .ok store, some log =>
      if log.length < headerSize then panics "failed to read log header"
      else if slice log 0 8 ≠ magicLog then panics "bad chunks.log magic"
      else do
        let start : RawState := ⟨chain, List.replicate memorySize.toNat 0, [], 0, 0⟩
        let (st, truncated) ← convertLoop z store (log.length + 1) start (log.drop headerSize)
        if truncated then .ok ⟨st.chain, rawMetaText (st.currentSnapId - min st.currentSnapId 1), true⟩
        else do
          let chain ← flushSnapshot st.chain st.currentSnapId st.state st.dirty
          .ok ⟨chain, rawMetaText st.currentSnapId, false⟩

/-! ## Looking a page up -/

/-- The addresses a file lists. -/
def rawTable (file : Bytes) : List UInt64 :=
  (List.range (fromLe64 (slice file 0 8)).toNat).map fun i => fromLe64 (slice file (8 + i * 8) (8 + i * 8 + 8))

/-- Where the pages start: the first multiple of 4096 behind a table of `num` addresses. -/
def rawDataStart (num : ℕ) : ℕ := (8 + num * 8 + 4095) / 4096 * 4096

/-- The page a file has for an address, at the address's position in the table. -/
def rawPage (file : Bytes) (pa : UInt64) : Option Bytes :=
  let table := rawTable file
  (table.findIdx? fun a => a.toNat = pa.toNat * pageSize).map fun i =>
    slice file (rawDataStart table.length + i * pageSize) (rawDataStart table.length + i * pageSize + pageSize)

namespace Chain

/-- The pages of the file of snapshot `s`. -/
def layer (chain : Chain) (s : ℕ) (pa : UInt64) : Option Bytes := (chain s).bind fun file => rawPage file pa

/-- The page in the file with the largest id up to `s` that lists the address; zeros
when no file does. -/
def lookup (chain : Chain) (pa : UInt64) (s : ℕ) : Bytes := (lookback chain.layer pa s).getD Page.zero.bytes

end Chain

end Bxdb
