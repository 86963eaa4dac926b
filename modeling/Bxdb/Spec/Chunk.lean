import Bxdb.Lib.Bytes
import Mathlib.Tactic.Simps.Basic
import Bxdb.Spec.Fault

/-!
# Keys, records and patches (`chunk.rs`)

A record names one version of one page: its key packs the page's address (45
bits) and the snapshot id (19 bits), and the rest says how to get the content
back. `writeTo` / `readFrom` are the log's codec (22 bytes, 30 for a Delta),
`encodeFixed` / `decodeFixed` the index's (32 bytes). A Delta's blob lists the
8-byte words in which the page differs from its base.
-/

namespace Bxdb

open Bytes

/-- File contents. -/
abbrev Bytes := List UInt8

def pageSize : ℕ := 4096
def pageWords : ℕ := pageSize / 8
def snapshotMask : UInt64 := ((1 : UInt64) <<< 19) - 1
def maxSnapshotId : UInt32 := ((1 : UInt32) <<< 19) - 1
def defaultDeltaThreshold : ℕ := 256

/-- `BXDBLOG\0` -/
def magicLog : Bytes := [0x42, 0x58, 0x44, 0x42, 0x4C, 0x4F, 0x47, 0x00]

/-- `BXDBIDX\0` -/
def magicIdx : Bytes := [0x42, 0x58, 0x44, 0x42, 0x49, 0x44, 0x58, 0x00]

def formatVersion : UInt8 := 0x01
def headerSize : ℕ := 16
def logRecordBaseSize : ℕ := 22
def fixedRecordSize : ℕ := 32

def chunkFull : UInt8 := 0
def chunkDelta : UInt8 := 1
def chunkZero : UInt8 := 2

/-! ## Keys -/

def encodeKey (pa : UInt64) (snapshotId : UInt32) : UInt64 :=
  (pa <<< 19) ||| (snapshotId.toUInt64 &&& snapshotMask)

def paOf (key : UInt64) : UInt64 := key >>> 19

def snapshotOf (key : UInt64) : UInt32 := (key &&& snapshotMask).toUInt32

theorem encodeKey_toNat (pa : UInt64) (s : UInt32) :
    (encodeKey pa s).toNat = pa.toNat % 2 ^ 45 * 2 ^ 19 + s.toNat % 2 ^ 19 := by
  have hmask : snapshotMask.toNat = 2 ^ 19 - 1 := rfl
  have h19 : ((19 : UInt64).toNat % 64) = 19 := rfl
  unfold encodeKey
  rw [UInt64.toNat_or, UInt64.toNat_and, UInt64.toNat_shiftLeft, UInt32.toNat_toUInt64, hmask, h19,
    Nat.and_two_pow_sub_one_eq_mod, Nat.shiftLeft_eq,
    show (2 : ℕ) ^ 64 = 2 ^ 45 * 2 ^ 19 from by norm_num, Nat.mul_mod_mul_right, ← Nat.shiftLeft_eq,
    ← Nat.shiftLeft_add_eq_or_of_lt (Nat.mod_lt _ (by norm_num)), Nat.shiftLeft_eq]

theorem paOf_toNat (key : UInt64) : (paOf key).toNat = key.toNat / 2 ^ 19 := by
  unfold paOf
  rw [UInt64.toNat_shiftRight, show ((19 : UInt64).toNat % 64) = 19 from rfl, Nat.shiftRight_eq_div_pow]

theorem snapshotOf_toNat (key : UInt64) : (snapshotOf key).toNat = key.toNat % 2 ^ 19 := by
  unfold snapshotOf
  rw [UInt64.toNat_toUInt32, UInt64.toNat_and, show snapshotMask.toNat = 2 ^ 19 - 1 from rfl,
    Nat.and_two_pow_sub_one_eq_mod, Nat.mod_eq_of_lt (lt_trans (Nat.mod_lt _ (by norm_num)) (by norm_num))]

theorem paOf_lt (key : UInt64) : (paOf key).toNat < 2 ^ 45 := by
  have := key.toNat_lt
  rw [paOf_toNat]; omega

theorem snapshotOf_le (key : UInt64) : snapshotOf key ≤ maxSnapshotId := by
  rw [UInt32.le_iff_toNat_le, snapshotOf_toNat, show maxSnapshotId.toNat = 2 ^ 19 - 1 from rfl]
  have := Nat.mod_lt key.toNat (show 0 < 2 ^ 19 by norm_num)
  omega

/-- **Packing loses nothing** of a 45-bit address. -/
theorem paOf_encodeKey {pa : UInt64} {s : UInt32} (hp : pa.toNat < 2 ^ 45) : paOf (encodeKey pa s) = pa := by
  apply UInt64.toNat_inj.1
  rw [paOf_toNat, encodeKey_toNat]
  have := Nat.mod_lt s.toNat (show 0 < 2 ^ 19 by norm_num)
  omega

/-- **Packing loses nothing** of a 19-bit snapshot id. -/
theorem snapshotOf_encodeKey {pa : UInt64} {s : UInt32} (hs : s ≤ maxSnapshotId) :
    snapshotOf (encodeKey pa s) = s := by
  apply UInt32.toNat_inj.1
  rw [UInt32.le_iff_toNat_le, show maxSnapshotId.toNat = 2 ^ 19 - 1 from rfl] at hs
  rw [snapshotOf_toNat, encodeKey_toNat]
  omega

theorem encodeKey_paOf_snapshotOf (key : UInt64) : encodeKey (paOf key) (snapshotOf key) = key := by
  apply UInt64.toNat_inj.1
  have := key.toNat_lt
  rw [encodeKey_toNat, paOf_toNat, snapshotOf_toNat]
  omega

/-! ## Pages -/

/-- A page: exactly 4096 bytes. -/
structure Page where
  bytes : Bytes
  size : bytes.length = pageSize
  deriving DecidableEq

def Page.zero : Page := ⟨List.replicate pageSize 0, List.length_replicate⟩

def isAllZero (page : Page) : Bool := page.bytes.all (· == 0)

theorem isAllZero_iff {page : Page} : isAllZero page = true ↔ page = Page.zero := by
  constructor
  · intro h
    obtain ⟨bs, hs⟩ := page
    congr 1
    rw [List.eq_replicate_iff]
    exact ⟨hs, by simpa [isAllZero] using h⟩
  · rintro rfl
    simp [isAllZero, Page.zero]

/-- The `i`-th 8-byte word of a page. -/
def wordAt (page : Page) (i : ℕ) : UInt64 := fromLe64 (slice page.bytes (i * 8) ((i + 1) * 8))

/-- The page with its `i`-th word replaced. -/
def setWord (page : Page) (i : ℕ) (h : i < pageWords) (w : UInt64) : Page where
  bytes := page.bytes.take (i * 8) ++ toLe64 w ++ page.bytes.drop ((i + 1) * 8)
  size := by
    have := page.size
    simp only [pageWords, pageSize] at *
    simp; omega

/-! ## Records -/

inductive ChunkKind
  | full
  | delta
  | zero
  deriving DecidableEq, Repr

def ChunkKind.asU8 : ChunkKind → UInt8
  | .full => chunkFull
  | .delta => chunkDelta
  | .zero => chunkZero

def ChunkKind.fromU8 (v : UInt8) : Res ChunkKind :=
  if v = chunkFull then .ok .full
  else if v = chunkDelta then .ok .delta
  else if v = chunkZero then .ok .zero
  else ioErr .invalidData s!"invalid chunk type {v}"

@[simp] theorem ChunkKind.fromU8_asU8 (k : ChunkKind) : ChunkKind.fromU8 k.asU8 = .ok k := by
  cases k <;> rfl

structure ChunkRecord where
  key : UInt64
  kind : ChunkKind
  workerId : UInt8
  offset : UInt64
  len : UInt32
  baseKey : UInt64
  deriving DecidableEq, Repr

namespace ChunkRecord

@[simps]
def newFull (key : UInt64) (workerId : UInt8) (offset : UInt64) (len : UInt32) : ChunkRecord :=
  ⟨key, .full, workerId, offset, len, 0⟩

@[simps]
def newDelta (key : UInt64) (workerId : UInt8) (offset : UInt64) (len : UInt32) (baseKey : UInt64) :
    ChunkRecord :=
  ⟨key, .delta, workerId, offset, len, baseKey⟩

@[simps]
def newZero (key : UInt64) : ChunkRecord := ⟨key, .zero, 0, 0, 0, 0⟩

def encodedLen (r : ChunkRecord) : ℕ :=
  if r.kind = .delta then logRecordBaseSize + 8 else logRecordBaseSize

/-- The log bytes of a record. -/
def writeTo (r : ChunkRecord) : Bytes :=
  toLe64 r.key ++ [r.kind.asU8] ++ [r.workerId] ++ toLe64 r.offset ++ toLe32 r.len ++
    if r.kind = .delta then toLe64 r.baseKey else []

/-- One record from the front of the input, with what is left; `none` at the end of
the input, which includes a rest shorter than the fixed part. -/
def readFrom (bs : Bytes) : Res (Option (ChunkRecord × Bytes)) :=
  if bs.length < logRecordBaseSize then .ok none
  else do
    let head := bs.take logRecordBaseSize
    let rest := bs.drop logRecordBaseSize
    let key := fromLe64 (slice head 0 8)
    let kind ← ChunkKind.fromU8 (head.getD 8 0)
    let workerId := head.getD 9 0
    let offset := fromLe64 (slice head 10 18)
    let len := fromLe32 (slice head 18 22)
    if kind = .delta then
      if rest.length < 8 then eofErr
      else .ok (some (⟨key, kind, workerId, offset, len, fromLe64 (rest.take 8)⟩, rest.drop 8))
    else .ok (some (⟨key, kind, workerId, offset, len, 0⟩, rest))

/-- `while let Some(rec) = read_from(r)?`, with fuel above the input's length. -/
def readAll : ℕ → Bytes → Res (List ChunkRecord)
  | 0, _ => .ok []
  | fuel + 1, bs =>
    match readFrom bs with
    | .error e => .error e
    | .ok none => .ok []
    | .ok (some (r, rest)) =>
      match readAll fuel rest with
      | .error e => .error e
      | .ok rs => .ok (r :: rs)

/-- Every record of a log body. -/
def scan (bs : Bytes) : Res (List ChunkRecord) := readAll (bs.length + 1) bs

/-- The 32 index bytes of a record. -/
def encodeFixed (r : ChunkRecord) : Bytes :=
  toLe64 r.key ++ toLe64 r.baseKey ++ toLe64 r.offset ++ toLe32 r.len ++ [r.kind.asU8] ++ [r.workerId] ++
    [0, 0]

def decodeFixed (buf : Bytes) : Res ChunkRecord := do
  let key := fromLe64 (slice buf 0 8)
  let baseKey := fromLe64 (slice buf 8 16)
  let offset := fromLe64 (slice buf 16 24)
  let len := fromLe32 (slice buf 24 28)
  let kind ← ChunkKind.fromU8 (buf.getD 28 0)
  let workerId := buf.getD 29 0
  .ok ⟨key, kind, workerId, offset, len, baseKey⟩

end ChunkRecord

/-! ## Delta patches -/

/-- Word indices with the XOR of the two words. -/
abbrev Patch := List (UInt16 × UInt64)

def encodeDeltaPatch (patch : Patch) : Bytes :=
  patch.flatMap fun e => toLe16 e.1 ++ toLe64 e.2

def computeXorPatch (page base : Page) : Patch :=
  (List.range pageWords).filterMap fun i =>
    let x := wordAt page i ^^^ wordAt base i
    if x ≠ 0 then some (UInt16.ofNat i, x) else none

/-- One 10-byte entry of a Delta's blob, applied. -/
def applyEntry (out : Page) (chunk : Bytes) : Res Page :=
  let idx := (fromLe16 (chunk.take 2)).toNat
  let xor := fromLe64 (slice chunk 2 10)
  if h : idx < pageWords then .ok (setWord out idx h (wordAt out idx ^^^ xor))
  else ioErr .invalidData "delta word index out of range"

def applyDeltaXor (blob : Bytes) (out : Page) : Res Page := (chunksExact 10 blob).foldlM applyEntry out

def applyDeltaPatchInPlace (blob : Bytes) (out : Page) : Res Page :=
  if blob.length % 10 ≠ 0 then ioErr .invalidData "delta blob length not multiple of 10"
  else applyDeltaXor blob out

def applyDeltaPatch (base : Page) (blob : Bytes) : Res Page :=
  if blob.length % 10 ≠ 0 then ioErr .invalidData "delta blob length not multiple of 10"
  else applyDeltaXor blob base

end Bxdb
