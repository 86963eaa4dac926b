import Bxdb.Spec.Btree

/-!
# The validator (`check.rs`)

`check` walks the log once, looks at each record's worker file and blob, and then at
each Delta's base. What it finds goes into a report; only I/O stops it.
-/

namespace Bxdb

open Bytes

structure CheckReport where
  totalRecords : ℕ
  fullCount : ℕ
  deltaCount : ℕ
  zeroCount : ℕ
  errors : List String
  blobFileSizes : List (UInt8 × ℕ)

namespace CheckReport

def ok (report : CheckReport) : Bool := report.errors.isEmpty

def push (report : CheckReport) (error : String) : CheckReport :=
  { report with errors := report.errors ++ [error] }

end CheckReport

section Records

variable (z : Zstd) (blobs : UInt8 → Option Bytes)

/-- `blob_sizes.get(&worker_id).copied().unwrap_or(0)` -/
def blobLen (w : UInt8) : ℕ := ((blobs w).map List.length).getD 0

/-- `offset.saturating_add(len)` -/
def satEnd (rec : ChunkRecord) : ℕ := min (rec.offset.toNat + rec.len.toNat) (2 ^ 64 - 1)

/-- The blob of a record whose end was found to be within its file. -/
def checkedBlob (rec : ChunkRecord) (text : String) : Res Bytes :=
  match blobs rec.workerId with
  | none => panics "worker blob not found"
  | some bytes =>
    if 2 ^ 64 ≤ rec.offset.toNat + rec.len.toNat then panics "attempt to add with overflow"
    else match range? bytes rec.offset.toNat (rec.offset.toNat + rec.len.toNat) with
      | none => ioErr .unexpectedEof text
      | some blob => .ok blob

def checkFull (report : CheckReport) (rec : ChunkRecord) : Res CheckReport :=
  let pa := paOf rec.key
  let snap := snapshotOf rec.key
  let wid := rec.workerId
  if rec.len = 0 then .ok report
  else if blobLen blobs wid < satEnd rec then
    .ok (report.push (s!"Full  pa={pa} snap={snap} worker={wid} offset={rec.offset} len={rec.len}: " ++
      s!"end {satEnd rec} > blob file size {blobLen blobs wid}"))
  else do
    let blob ← checkedBlob blobs rec "blob read out of range"
    match z.decompress (pageSize + 1) blob with
    | some out =>
      if out.length = pageSize then .ok report
      else .ok (report.push
        s!"Full  pa={pa} snap={snap} worker={wid}: decompressed {out.length} bytes (expected 4096)")
    | none => .ok (report.push s!"Full  pa={pa} snap={snap} worker={wid}: zstd decompress failed")

def checkDelta (report : CheckReport) (rec : ChunkRecord) : Res CheckReport :=
  let pa := paOf rec.key
  let snap := snapshotOf rec.key
  let wid := rec.workerId
  if rec.len = 0 then .ok report
  else if blobLen blobs wid < satEnd rec then
    .ok (report.push (s!"Delta pa={pa} snap={snap} worker={wid} offset={rec.offset} len={rec.len}: " ++
      s!"end {satEnd rec} > blob file size {blobLen blobs wid}"))
  else if rec.len.toNat % 10 ≠ 0 then
    .ok (report.push s!"Delta pa={pa} snap={snap} worker={wid}: blob length {rec.len} not a multiple of 10")
  else do
    let blob ← checkedBlob blobs rec "delta blob out of range"
    match (chunksExact 10 blob).find? fun chunk => pageWords ≤ (fromLe16 (chunk.take 2)).toNat with
    | some chunk =>
      .ok (report.push (s!"Delta pa={pa} snap={snap} worker={wid}: " ++
        s!"word index {fromLe16 (chunk.take 2)} out of range (max {pageWords - 1})"))
    | none => .ok report

/-- The Full and Zero records seen so far, by key; a later one takes the place of an
earlier one. -/
abbrev FullIndex := UInt64 → Option ChunkRecord

/-- The checks and the count of a record's kind. -/
def checkKind (report : CheckReport) (fullIndex : FullIndex) (rec : ChunkRecord) : Res (CheckReport × FullIndex) :=
  match rec.kind with
  | .full => do
    let report ← checkFull z blobs report rec
    .ok ({ report with fullCount := report.fullCount + 1 }, Function.update fullIndex rec.key (some rec))
  | .delta => do
    let report ← checkDelta blobs report rec
    .ok ({ report with deltaCount := report.deltaCount + 1 }, fullIndex)
  | .zero => .ok ({ report with zeroCount := report.zeroCount + 1 }, Function.update fullIndex rec.key (some rec))

/-- The first walk, for one record. -/
def checkRecord (st : CheckReport × FullIndex) (rec : ChunkRecord) : Res (CheckReport × FullIndex) := do
  let report := if (blobs rec.workerId).isSome then st.1 else
    st.1.push (s!"record pa={paOf rec.key} snap={snapshotOf rec.key}: " ++
      s!"worker_id {rec.workerId} has no blob file")
  let (report, fullIndex) ← checkKind z blobs report st.2 rec
  .ok ({ report with totalRecords := report.totalRecords + 1 }, fullIndex)

/-- The name `{:?}` gives a kind. -/
def ChunkKind.debug : ChunkKind → String
  | .full => "Full"
  | .delta => "Delta"
  | .zero => "Zero"

/-- The second walk, for one record: a Delta's base. -/
def checkBase (fullIndex : FullIndex) (report : CheckReport) (rec : ChunkRecord) : CheckReport :=
  let pa := paOf rec.key
  let snap := snapshotOf rec.key
  if rec.kind ≠ .delta then report
  else if rec.baseKey = 0 then report.push s!"Delta pa={pa} snap={snap}: base_key is zero"
  else match fullIndex rec.baseKey with
    | none => report.push (s!"Delta pa={pa} snap={snap}: base_key={rec.baseKey} " ++
        s!"(pa={paOf rec.baseKey} snap={snapshotOf rec.baseKey}) not found in index")
    | some base =>
      if base.kind ≠ .full then report.push
        s!"Delta pa={pa} snap={snap}: base_key={rec.baseKey} points to {base.kind.debug} (not Full)"
      else report

end Records

def check (z : Zstd) (dir : Dir) : Res CheckReport :=
  match dir.log with
  | none => ioErr .notFound "No such file or directory"
  | some log => do
    let (_, body) ← readAndVerifyHeader log magicLog
    let sizes := ((List.finRange 256).map UInt8.ofFin).filterMap fun w =>
      (dir.blobs w).map fun bytes => (w, bytes.length)
    let records ← ChunkRecord.scan body
    let (report, fullIndex) ← records.foldlM (checkRecord z dir.blobs) (⟨0, 0, 0, 0, [], sizes⟩, fun _ => none)
    .ok (records.foldl (checkBase fullIndex) report)

end Bxdb
