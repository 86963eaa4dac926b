import Bxdb.Proof.BulkAgree
import Bxdb.Spec.Check
import Bxdb.Spec.Purge

/-!
# A log cut at any byte

A cut leaves the records before it (`complete`) and a rest, the start of the next record
(`take_encodeAll`). A rest shorter than the fixed part ends the scan. A longer one is that
of a Delta cut inside its base key: the fixed part is read, the base key is not there,
and the scan fails (`scan_error`).

* `torn_log`: **a cut log is read as the log of its complete records, by every reader,
  exactly when the cut is not inside a base key.**
* `torn_delta`: a Delta cut there.
-/

namespace Bxdb

open Bytes SortedIndex ChunkRecord

/-! ## What a cut leaves -/

/-- The records that lie wholly within the first `n` bytes of their encoding. -/
def complete : List ChunkRecord → ℕ → List ChunkRecord
  | [], _ => []
  | r :: rs, n => if r.encodedLen ≤ n then r :: complete rs (n - r.encodedLen) else []

/-- The number of bytes after the last complete record. -/
def leftOver (rs : List ChunkRecord) (n : ℕ) : ℕ := n - (encodeAll (complete rs n)).length

theorem encodedLen_delta {r : ChunkRecord} {n : ℕ} (h : n < r.encodedLen) (hn : logRecordBaseSize ≤ n) :
    r.kind = .delta ∧ n < logRecordBaseSize + 8 := by
  unfold encodedLen at h
  split at h
  · rename_i hd
    exact ⟨hd, h⟩
  · omega

/-- **A cut log**: the complete records, and the start of the next one. -/
theorem take_encodeAll : ∀ {rs : List ChunkRecord} {n : ℕ}, n ≤ (encodeAll rs).length →
    ∃ tail, (encodeAll rs).take n = encodeAll (complete rs n) ++ tail ∧ tail.length = leftOver rs n ∧
      (logRecordBaseSize ≤ leftOver rs n → ∃ r : ChunkRecord, r.kind = .delta ∧ tail = r.writeTo.take (leftOver rs n) ∧
        leftOver rs n < logRecordBaseSize + 8) := by
  intro rs
  induction rs with
  | nil =>
    intro n hn
    obtain rfl : n = 0 := Nat.le_zero.1 hn
    exact ⟨[], rfl, rfl, fun h => absurd h (by decide)⟩
  | cons r rs ih =>
    intro n hn
    have hlen := length_writeTo r
    rw [encodeAll_cons, List.length_append, hlen] at hn
    by_cases hr : r.encodedLen ≤ n
    · obtain ⟨tail, htake, htail, hrest⟩ := ih (show n - r.encodedLen ≤ (encodeAll rs).length by omega)
      have hcomplete : complete (r :: rs) n = r :: complete rs (n - r.encodedLen) := if_pos hr
      have hleft : leftOver (r :: rs) n = leftOver rs (n - r.encodedLen) := by
        unfold leftOver
        rw [hcomplete, encodeAll_cons, List.length_append, hlen]
        omega
      rw [hleft, hcomplete]
      refine ⟨tail, ?_, htail, hrest⟩
      rw [encodeAll_cons, encodeAll_cons, List.take_append, hlen, htake, List.append_assoc,
        List.take_of_length_le (by omega)]
    · -- the cut is inside this record
      have hcomplete : complete (r :: rs) n = [] := if_neg hr
      have hleft : leftOver (r :: rs) n = n := by
        unfold leftOver
        rw [hcomplete]
        exact Nat.sub_zero n
      rw [hleft, hcomplete]
      refine ⟨r.writeTo.take n, ?_, ?_, fun hn' => ?_⟩
      · rw [encodeAll_cons, List.take_append_of_le_length (by omega), encodeAll_nil, List.nil_append]
      · rw [List.length_take]
        omega
      · obtain ⟨hd, hlt⟩ := encodedLen_delta (not_le.1 hr) hn'
        exact ⟨r, hd, rfl, hlt⟩

/-! ## Reading the rest -/

/-- **A Delta cut inside its base key** is an error. -/
theorem readFrom_torn {r : ChunkRecord} (hd : r.kind = .delta) {n : ℕ} (h1 : logRecordBaseSize ≤ n)
    (h2 : n < logRecordBaseSize + 8) : readFrom (r.writeTo.take n) = eofErr := by
  obtain ⟨hk, hkind, hw, ho, hl⟩ := head_fields r
  have hhead := length_head r
  have hlen : (r.writeTo.take n).length = n := by
    have := length_writeTo r
    have := encodedLen_ge r
    unfold encodedLen at *
    rw [if_pos hd] at *
    rw [List.length_take]
    omega
  have htake : (r.writeTo.take n).take logRecordBaseSize = r.head := by
    rw [List.take_take, min_eq_left h1, writeTo_eq, List.take_left' hhead]
  unfold readFrom
  rw [if_neg (by omega), htake]
  simp only [hkind, ChunkKind.fromU8_asU8, ok_bind]
  rw [if_pos hd, if_pos (by rw [List.length_drop, hlen]; omega)]

/-- A record that cannot be read fails the scan. -/
theorem scan_error {rs : List ChunkRecord} (h : ∀ r ∈ rs, r.Plain) {tail : Bytes} {e : Failure}
    (ht : readFrom tail = .error e) : scan (encodeAll rs ++ tail) = .error e := by
  obtain ⟨fuel, hread⟩ := readAll_append h tail _ (Nat.lt_succ_self _)
  unfold scan
  rw [hread, readAll, ht]
  rfl

/-! ## Records as the log keeps them -/

/-- The record without a base key the log does not hold. -/
def ChunkRecord.logged (r : ChunkRecord) : ChunkRecord := if r.kind = .delta then r else { r with baseKey := 0 }

theorem logged_plain (r : ChunkRecord) : r.logged.Plain := by
  intro h
  unfold ChunkRecord.logged at h ⊢
  split
  · rename_i hd
    rw [if_pos hd] at h
    exact absurd hd h
  · rfl

theorem writeTo_logged (r : ChunkRecord) : r.logged.writeTo = r.writeTo := by
  unfold ChunkRecord.logged
  split
  · rfl
  · rename_i hd
    simp only [writeTo, hd, if_false]

theorem encodeAll_logged (rs : List ChunkRecord) : encodeAll (rs.map ChunkRecord.logged) = encodeAll rs := by
  induction rs with
  | nil => rfl
  | cons r rs ih => rw [List.map_cons, encodeAll_cons, encodeAll_cons, writeTo_logged, ih]

/-- **The scan of a log cut inside a base key** fails, whatever its records. -/
theorem scan_torn {rs : List ChunkRecord} {n : ℕ} (hn : n ≤ (encodeAll rs).length)
    (hlong : logRecordBaseSize ≤ leftOver rs n) : scan ((encodeAll rs).take n) = eofErr := by
  obtain ⟨tail, htake, -, hrest⟩ := take_encodeAll hn
  obtain ⟨r, hd, rfl, hlt⟩ := hrest hlong
  have hplain : ∀ r ∈ (complete rs n).map ChunkRecord.logged, r.Plain := by
    intro r hr
    obtain ⟨r', -, rfl⟩ := List.mem_map.1 hr
    exact logged_plain r'
  rw [htake, ← encodeAll_logged]
  exact scan_error hplain (readFrom_torn hd hlong hlt)

/-! ## Readers -/

/-- The readers of a log make the same of both directories. -/
structure ReadAlike (dir whole : Dir) : Prop where
  btree : ∃ idx, toBtree dir = .ok { dir with idx := some idx } ∧ toBtree whole = .ok { whole with idx := some idx }
  page : ∀ z pa s, loadPage z dir pa s = loadPage z whole pa s
  all : ∀ z outLen aligned off count s workers,
    loadAllPages z dir outLen aligned off count s workers = loadAllPages z whole outLen aligned off count s workers
  check : ∀ z, check z dir = check z whole
  purge : ∀ t, keptRecords dir t = keptRecords whole t

section Readers

variable {m : UInt32} {body body' : Bytes} {records : List ChunkRecord} {dir : Dir}

theorem buildLazyIndex_scan (h : scan body = .ok records) :
    buildLazyIndex (writeLogHeader m ++ body) = .ok (index recordKey records) :=
  lazyIndex_scan (readLogHeader m body) h

/-- Log stores of two bodies with the same records answer alike. -/
theorem sameStore_scan (h : scan body = .ok records) (h' : scan body' = .ok records) {blobs : UInt8 → Option Bytes} :
    SameStore ⟨.appendOnly (writeLogHeader m ++ body), blobs⟩ ⟨.appendOnly (writeLogHeader m ++ body'), blobs⟩ := by
  refine ⟨fun pa s => ?_, fun key => ?_, rfl⟩
  · unfold PageStore.floor
    dsimp only
    rw [buildLazyIndex_scan h, buildLazyIndex_scan h']
  · unfold PageStore.exactLookup
    dsimp only
    rw [buildLazyIndex_scan h, buildLazyIndex_scan h']

/-- With an index the log is not read, without one both directories open their logs. -/
theorem open_scan (h : scan body = .ok records) (h' : scan body' = .ok records)
    (hl : dir.log = some (writeLogHeader m ++ body)) :
    PageStore.open dir = PageStore.open { dir with log := some (writeLogHeader m ++ body') } ∨
      PageStore.open dir = .ok ⟨.appendOnly (writeLogHeader m ++ body), dir.blobs⟩ ∧
        PageStore.open { dir with log := some (writeLogHeader m ++ body') } =
          .ok ⟨.appendOnly (writeLogHeader m ++ body'), dir.blobs⟩ := by
  cases hi : dir.idx with
  | some mmap =>
    left
    unfold PageStore.open
    rw [hi]
  | none =>
    have hopen' : PageStore.open { dir with log := some (writeLogHeader m ++ body') } = _ :=
      open_lazy hi rfl (buildLazyIndex_scan h')
    exact .inr ⟨open_lazy hi hl (buildLazyIndex_scan h), hi ▸ hopen'⟩

theorem toBtree_scan (h : scan body = .ok records) (hl : dir.log = some (writeLogHeader m ++ body)) :
    toBtree dir = .ok { dir with idx := some (indexFile (index recordKey records)) } := by
  unfold toBtree
  rw [hl]
  dsimp only
  rw [buildLazyIndex_scan h, ok_bind]

theorem loadAllPages_scanned (h : scan body = .ok records) (h' : scan body' = .ok records)
    (hl : dir.log = some (writeLogHeader m ++ body)) (z : Zstd) (outLen : ℕ) (aligned : Bool) (off count : UInt64)
    (s : UInt32) (workers : ℕ) : loadAllPages z dir outLen aligned off count s workers =
      loadAllPages z { dir with log := some (writeLogHeader m ++ body') } outLen aligned off count s workers := by
  unfold loadAllPages
  rcases open_scan h h' hl with hopen | ⟨hopen, hopen'⟩
  · rw [hopen]
  · have hpage : ∀ latest i, loadScanPage z ⟨.appendOnly (writeLogHeader m ++ body), dir.blobs⟩ latest i =
        loadScanPage z ⟨.appendOnly (writeLogHeader m ++ body'), dir.blobs⟩ latest i := by
      intro latest i
      unfold loadScanPage
      simp only [(sameStore_scan h h').resolve]
    rw [hopen, hopen']
    dsimp only
    rw [ok_bind, ok_bind]
    dsimp only
    rw [readLogHeader, readLogHeader, ok_bind, ok_bind]
    dsimp only
    rw [h, h', ok_bind, ok_bind, funext (hpage _)]

/-- **Every reader reads a log by its scan**: bodies with the same records are read alike. -/
theorem readAlike_scan (h : scan body = .ok records) (h' : scan body' = .ok records)
    (hl : dir.log = some (writeLogHeader m ++ body)) :
    ReadAlike dir { dir with log := some (writeLogHeader m ++ body') } := by
  refine ⟨⟨_, toBtree_scan h hl, toBtree_scan h' rfl⟩, fun z pa s => ?_, loadAllPages_scanned h h' hl, fun z => ?_,
    fun t => ?_⟩
  · unfold loadPage
    rcases open_scan h h' hl with hopen | ⟨hopen, hopen'⟩
    · rw [hopen]
    · rw [hopen, hopen', ok_bind, ok_bind, (sameStore_scan h h').loadPage]
  · unfold Bxdb.check
    rw [hl]
    dsimp only
    rw [readLogHeader, readLogHeader, ok_bind, ok_bind]
    dsimp only
    rw [h, h']
  · unfold keptRecords readRecords readLog
    rw [hl]
    cases dir.idx with
    | some mmap => rfl
    | none =>
      dsimp only
      rw [buildLazyIndex_scan h, buildLazyIndex_scan h']

end Readers

/-! ## Recovery -/

/-- **A cut log is recovered**: its scan gives the complete records, and every reader makes
of it what it makes of the log of these. -/
structure Recovered (rs : List ChunkRecord) (n : ℕ) : Prop where
  records : scan ((encodeAll rs).take n) = .ok (complete rs n)
  index : ∀ m, buildLazyIndex (writeLogHeader m ++ (encodeAll rs).take n) = .ok (index recordKey (complete rs n))
  readers : ∀ (m : UInt32) (dir : Dir), dir.log = some (writeLogHeader m ++ (encodeAll rs).take n) →
    ReadAlike dir { dir with log := some (writeLogHeader m ++ encodeAll (complete rs n)) }

/-- **When a cut log is recovered**: when fewer than 22 bytes follow the last complete
record, that is when the cut is not inside a Delta's base key, and no complete record has
a base key that the log does not hold. -/
theorem torn_log {rs : List ChunkRecord} {n : ℕ} (hn : n ≤ (encodeAll rs).length) :
    Recovered rs n ↔ leftOver rs n < logRecordBaseSize ∧ ∀ r ∈ complete rs n, r.Plain := by
  constructor
  · intro h
    refine ⟨?_, scan_plain h.records⟩
    by_contra hc
    have := h.records
    rw [scan_torn hn (not_lt.1 hc)] at this
    cases this
  · rintro ⟨hshort, hplain⟩
    have hscan : scan ((encodeAll rs).take n) = .ok (complete rs n) := by
      obtain ⟨tail, htake, hlen, -⟩ := take_encodeAll hn
      rw [htake]
      exact scan_encode_tail hplain (hlen ▸ hshort)
    exact ⟨hscan, fun m => buildLazyIndex_scan hscan, fun m dir hl => readAlike_scan hscan (scan_encode hplain) hl⟩

/-- A log cut after a whole record and ten bytes of the next. -/
theorem torn_log_head : Recovered [newZero 1, newZero 2] 32 := by
  have hn : 32 ≤ (encodeAll [newZero 1, newZero 2]).length := by decide
  refine (torn_log hn).2 ⟨by decide, fun r hr => ?_⟩
  have hone : complete [newZero 1, newZero 2] 32 = [newZero 1] := rfl
  rw [hone, List.mem_singleton] at hr
  rw [hr]
  exact newZero_plain 1

/-- **A Delta whose base key is cut** makes the scan fail. -/
theorem torn_delta : ¬ ∀ (rs : List ChunkRecord) (n : ℕ), n ≤ (encodeAll rs).length → Recovered rs n := by
  intro hall
  have h := (hall [newDelta 2 0 0 0 1] 25 (by decide)).records
  have herr : scan ((encodeAll [newDelta 2 0 0 0 1]).take 25) = eofErr := rfl
  rw [herr] at h
  cases h

end Bxdb
