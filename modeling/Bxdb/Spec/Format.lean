import Bxdb.Spec.Chunk

/-!
# File headers and the database directory (`format.rs`)

A database directory holds `chunks.log`, `index.bxdb` (either may be missing) and
one blob file for each worker id. Both index files start with a 16-byte header:
magic, version, the largest snapshot id, three reserved bytes.
-/

namespace Bxdb

open Bytes

/-! ## Headers -/

def writeHeader (magic : Bytes) (maxSnapshotId : UInt32) : Bytes :=
  magic ++ [formatVersion] ++ toLe32 maxSnapshotId ++ [0, 0, 0]

def writeLogHeader (maxSnapshotId : UInt32) : Bytes := writeHeader magicLog maxSnapshotId

def writeIndexHeader (maxSnapshotId : UInt32) : Bytes := writeHeader magicIdx maxSnapshotId

/-- Reads and verifies the magic and version bytes. Returns the stored
`max_snapshot_id` and what follows the header. -/
def readAndVerifyHeader (bs : Bytes) (expectedMagic : Bytes) : Res (UInt32 × Bytes) :=
  if bs.length < headerSize then eofErr
  else
    let buf := bs.take headerSize
    if slice buf 0 8 ≠ expectedMagic then ioErr .invalidData "bad magic"
    else if buf.getD 8 0 ≠ formatVersion then
      ioErr .invalidData s!"unsupported format version {buf.getD 8 0}"
    else .ok (fromLe32 (slice buf 9 13), bs.drop headerSize)

theorem length_writeHeader {magic : Bytes} (hm : magic.length = 8) (m : UInt32) :
    (writeHeader magic m).length = headerSize := by
  simp [writeHeader, headerSize, hm]

/-- **A written header is read back.** -/
theorem readAndVerifyHeader_write {magic : Bytes} (hm : magic.length = 8) (m : UInt32) (body : Bytes) :
    readAndVerifyHeader (writeHeader magic m ++ body) magic = .ok (m, body) := by
  have hlen := length_writeHeader hm m
  have htake : (writeHeader magic m ++ body).take headerSize = writeHeader magic m := List.take_left' hlen
  have hdrop : (writeHeader magic m ++ body).drop headerSize = body := List.drop_left' hlen
  have hmagic : slice (writeHeader magic m) 0 8 = magic := by
    have := slice_mid [] magic ([formatVersion] ++ (toLe32 m ++ [0, 0, 0]))
    simpa [writeHeader, hm] using this
  have hver : (writeHeader magic m).getD 8 0 = formatVersion := by
    simp [writeHeader, List.getD_eq_getElem?_getD, hm]
  have hsnap : slice (writeHeader magic m) 9 13 = toLe32 m := by
    have := slice_mid (magic ++ [formatVersion]) (toLe32 m) [0, 0, 0]
    simpa [writeHeader, hm] using this
  unfold readAndVerifyHeader
  rw [if_neg (by rw [List.length_append, hlen]; omega), htake, hdrop]
  simp only [hmagic, hver, hsnap, ne_eq, not_true_eq_false, if_false, fromLe32_toLe32]

/-! ## The directory -/

/-- What a database directory holds. `blobs w` is `blobs/worker_w.blob`. -/
structure Dir where
  log : Option Bytes
  idx : Option Bytes
  blobs : UInt8 → Option Bytes

/-- A directory with no database in it. -/
def Dir.empty : Dir := ⟨none, none, fun _ => none⟩

/-! ## zstd -/

/-- The compression library: `compress` of one page, and `decompress` into a buffer
of a given capacity, which can fail. -/
structure Zstd where
  compress : Page → Bytes
  decompress : ℕ → Bytes → Option Bytes

/-- Decompression undoes compression of a page, into any buffer that can hold it. -/
def Zstd.RoundTrip (z : Zstd) : Prop :=
  ∀ (page : Page) (cap : ℕ), pageSize ≤ cap → z.decompress cap (z.compress page) = some page.bytes

/-- Compression makes no page much longer: the library's bound for 4096 bytes is 4174. -/
def Zstd.Small (z : Zstd) : Prop := ∀ page, (z.compress page).length < 2 * pageSize

end Bxdb
