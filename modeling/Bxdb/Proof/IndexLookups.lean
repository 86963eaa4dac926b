import Bxdb.Proof.Lookup
import Bxdb.Spec.Convert

/-!
# Look-ups in both forms of the index

The mapped index and the sorted log give the same answers, and these are the right
ones, for every address and every key. No look-up reads outside the body of the file:
with each read checked, it ends as it does without the checks (`floorMmapChecked_ok`,
`exactMmapChecked_ok`).

* `lookups_correct`: **`floor` finds the newest record of an address as of a snapshot**,
  and the exact look-up the record of a key.
-/

namespace Bxdb

open Bytes SortedIndex Versioned ChunkRecord

/-! ## Reads inside the body -/

section Checked

variable {body : Bytes} {n i : ℕ}

theorem readBody_ok {a b : ℕ} (hab : a ≤ b) (hb : b ≤ body.length) : readBody body a b = .ok (slice body a b) := by
  unfold readBody
  rw [range?_of_le hab hb]

/-- Where entry `i` of `n` ends. -/
theorem entry_end (h : n * fixedRecordSize ≤ body.length) (hi : i < n) :
    i * fixedRecordSize + fixedRecordSize ≤ body.length := by
  have := Nat.mul_le_mul_right fixedRecordSize (Nat.succ_le_of_lt hi)
  rw [Nat.succ_mul] at this
  omega

theorem readKeyChecked_ok (h : n * fixedRecordSize ≤ body.length) (hi : i < n) :
    readKeyChecked body i = .ok (readKeyAt body i) := by
  have hend := entry_end h hi
  have h8 : 8 ≤ fixedRecordSize := by decide
  unfold readKeyChecked
  rw [readBody_ok (by omega) (by omega)]
  rfl

theorem readRecordChecked_ok (h : n * fixedRecordSize ≤ body.length) (hi : i < n) :
    readRecordChecked body i = .ok (readRecordAt body i) := by
  unfold readRecordChecked
  rw [readBody_ok (by omega) (entry_end h hi)]
  rfl

variable {bytes : Bytes}

/-- The body that both look-ups start from. -/
theorem readBody_drop (h : headerSize + n * fixedRecordSize ≤ bytes.length) :
    readBody bytes headerSize bytes.length = .ok (bytes.drop headerSize) ∧
      n * fixedRecordSize ≤ (bytes.drop headerSize).length := by
  constructor
  · rw [readBody_ok (by omega) (le_refl _)]
    congr 1
    unfold slice
    rw [← List.length_drop, List.take_length]
  · rw [List.length_drop]
    omega

/-- **`floor_mmap` reads inside the body.** -/
theorem floorMmapChecked_ok (h : headerSize + n * fixedRecordSize ≤ bytes.length) (key pa : UInt64) :
    floorMmapChecked bytes n key pa = .ok (floorMmap bytes n key pa) := by
  obtain ⟨hbody, hn⟩ := readBody_drop h
  have hloop : partitionLoopM (fun mid => do
      let k ← readKeyChecked (bytes.drop headerSize) mid
      .ok (decide (k ≤ key))) n 0 n =
      .ok (partitionLoop (fun mid => readKeyAt (bytes.drop headerSize) mid ≤ key) n 0 n) := by
    apply partitionLoopM_ok _ (le_refl n)
    intro i hi
    rw [readKeyChecked_ok hn hi, ok_bind]
  have hle : partitionLoop (fun mid => readKeyAt (bytes.drop headerSize) mid ≤ key) n 0 n ≤ n :=
    partitionLoop_le (Nat.zero_le n)
  unfold floorMmapChecked floorMmap
  rw [hbody, ok_bind, hloop, ok_bind]
  dsimp only
  split_ifs with h0
  · rfl
  · -- the last key that is small enough is inside the range
    rw [readRecordChecked_ok hn (by omega), ok_bind]
    cases readRecordAt (bytes.drop headerSize)
        (partitionLoop (fun mid => readKeyAt (bytes.drop headerSize) mid ≤ key) n 0 n - 1) with
    | ok rec => rfl
    | error e => rfl

/-- **`exact_mmap` reads inside the body.** -/
theorem exactMmapChecked_ok (h : headerSize + n * fixedRecordSize ≤ bytes.length) (key : UInt64) :
    exactMmapChecked bytes n key = .ok (exactMmap bytes n key) := by
  obtain ⟨hbody, hn⟩ := readBody_drop h
  have hloop : searchLoopM (fun mid => do
      let k ← readKeyChecked (bytes.drop headerSize) mid
      .ok k.toNat) key.toNat n 0 n =
      .ok (searchLoop (fun mid => (readKeyAt (bytes.drop headerSize) mid).toNat) key.toNat n 0 n) := by
    apply searchLoopM_ok _ (le_refl n)
    intro i hi
    rw [readKeyChecked_ok hn hi, ok_bind]
  unfold exactMmapChecked exactMmap
  rw [hbody, ok_bind, hloop, ok_bind]
  dsimp only
  cases hs : searchLoop (fun mid => (readKeyAt (bytes.drop headerSize) mid).toNat) key.toNat n 0 n with
  | none => rfl
  | some mid =>
    dsimp only
    rw [readRecordChecked_ok hn (searchLoop_some hs).2.1, ok_bind]

end Checked

/-! ## Both forms -/

section

variable {rs : List ChunkRecord}

theorem indexFile_eq (rs : List ChunkRecord) : indexFile rs = writeIndexHeader (maxSnapshot rs) ++ encodeIndex rs := rfl

theorem length_indexFile (rs : List ChunkRecord) :
    (indexFile rs).length = headerSize + rs.length * fixedRecordSize := by
  rw [indexFile_eq, List.length_append, length_encodeIndex]
  congr 1

/-- The exact look-up finds a record exactly when the list holds it. -/
theorem exactSorted_iff (h : KeySorted rs) {key : UInt64} {r : ChunkRecord} :
    exactSorted rs key = some r ↔ r ∈ rs ∧ r.key = key := by
  constructor
  · exact exactSorted_some
  · rintro ⟨hr, rfl⟩
    exact exactSorted_mem h hr

/-- **Look-ups are correct on both forms of the index**, and stay inside the file: `floor`
answers as of the snapshot, with no record exactly when the address has none yet, and the
exact look-up finds the record of the key. -/
theorem lookups_correct (h : KeySorted rs) :
    (∀ (pa : UInt64) (s : UInt32), s ≤ maxSnapshotId →
      AsOf (recordsOf rs) pa s.toNat (floorMmap (indexFile rs) rs.length (encodeKey pa s) pa) ∧
        AsOf (recordsOf rs) pa s.toNat (floorSorted rs (encodeKey pa s) pa)) ∧
    (∀ (key : UInt64) (r : ChunkRecord),
      (exactMmap (indexFile rs) rs.length key = some r ↔ r ∈ rs ∧ r.key = key) ∧
        (exactSorted rs key = some r ↔ r ∈ rs ∧ r.key = key)) ∧
    (∀ key pa, floorMmapChecked (indexFile rs) rs.length key pa = .ok (floorMmap (indexFile rs) rs.length key pa)) ∧
    ∀ key, exactMmapChecked (indexFile rs) rs.length key = .ok (exactMmap (indexFile rs) rs.length key) := by
  have hheader : (writeIndexHeader (maxSnapshot rs)).length = headerSize := length_writeHeader rfl _
  have hlen : headerSize + rs.length * fixedRecordSize ≤ (indexFile rs).length := (length_indexFile rs).ge
  refine ⟨fun pa s hs => ?_, fun key r => ?_, floorMmapChecked_ok hlen, exactMmapChecked_ok hlen⟩
  · rw [indexFile_eq, floorMmap_index h hheader]
    exact ⟨floorSorted_asOf h pa hs, floorSorted_asOf h pa hs⟩
  · rw [indexFile_eq, exactMmap_index h hheader]
    exact ⟨exactSorted_iff h, exactSorted_iff h⟩

/-- Two versions of one page: as of snapshot 3 the older one. -/
theorem lookups_correct_pair :
    AsOf (recordsOf [newZero (encodeKey 7 1), newZero (encodeKey 7 4)]) 7 3
      (floorMmap (indexFile [newZero (encodeKey 7 1), newZero (encodeKey 7 4)]) 2 (encodeKey 7 3) 7) := by
  have hsorted : KeySorted [newZero (encodeKey 7 1), newZero (encodeKey 7 4)] := by decide
  exact ((lookups_correct hsorted).1 7 3 (by decide)).1

end

end Bxdb
