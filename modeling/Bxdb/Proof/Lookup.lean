import Bxdb.Spec.Convert
import Bxdb.Proof.Codec
import Bxdb.Lib.Versioned

/-!
# Look-ups in the two index files

Both index files hold a list of records with strictly increasing keys: the log after
it was sorted (`buildLazyIndex_log`), `index.bxdb` as it stands (`readRecordAt_index`).

* `floorSorted_asOf`: **`floor` finds the record of an address as of a snapshot**, for
  every 64-bit address.
* `floorMmap_index`, `exactMmap_index`: both look-ups give the same answer on either file.
-/

namespace Bxdb

open Bytes SortedIndex Versioned ChunkRecord

/-- The keys of the list strictly increase. -/
abbrev KeySorted (rs : List ChunkRecord) : Prop := rs.Pairwise fun a b => recordKey a < recordKey b

theorem recordKey_eq (r : ChunkRecord) :
    recordKey r = (paOf r.key).toNat * 2 ^ 19 + (snapshotOf r.key).toNat := by
  rw [paOf_toNat, snapshotOf_toNat]
  unfold recordKey; omega

theorem recordKey_inj {a b : ChunkRecord} (h : recordKey a = recordKey b) : a.key = b.key :=
  UInt64.toNat_inj.1 h

/-- Which record an address received with which snapshot id. -/
def recordsOf (rs : List ChunkRecord) : Writes UInt64 ℕ ChunkRecord :=
  fun pa t r => r ∈ rs ∧ paOf r.key = pa ∧ (snapshotOf r.key).toNat = t

theorem toNat_lt_of_le_max {s : UInt32} (hs : s ≤ maxSnapshotId) : s.toNat < 2 ^ 19 := by
  rw [UInt32.le_iff_toNat_le, show maxSnapshotId.toNat = 2 ^ 19 - 1 from rfl] at hs
  omega

/-- **`floor` answers as of the snapshot.** An address of more than 45 bits shares its
key with another one, and has no record. -/
theorem floorSorted_asOf {rs : List ChunkRecord} (h : KeySorted rs) (pa : UInt64) {s : UInt32}
    (hs : s ≤ maxSnapshotId) :
    AsOf (recordsOf rs) pa s.toNat (floorSorted rs (encodeKey pa s) pa) := by
  have hs' := toNat_lt_of_le_max hs
  have hkey : (encodeKey pa s).toNat = pa.toNat % 2 ^ 45 * 2 ^ 19 + s.toNat := by
    rw [encodeKey_toNat, Nat.mod_eq_of_lt hs']
  -- a record of `pa` at or below `s` has its key below the bound
  have hle : ∀ r ∈ rs, paOf r.key = pa → (snapshotOf r.key).toNat ≤ s.toNat →
      recordKey r ≤ (encodeKey pa s).toNat := by
    intro r _ hpa hsn
    have := paOf_lt r.key
    rw [hpa] at this
    rw [recordKey_eq, hkey, hpa, Nat.mod_eq_of_lt this]; omega
  unfold floorSorted
  cases hf : floor? recordKey rs (encodeKey pa s).toNat with
  | none =>
    rw [asOf_none]
    rintro t r ⟨hr, hpa, rfl⟩ hsn
    exact (floor?_eq_none h).1 hf r hr (hle r hr hpa hsn)
  | some r =>
    obtain ⟨hr, hrk, hmax⟩ := isFloor_iff.1 ((floor?_eq_some h).1 hf)
    rw [recordKey_eq, hkey] at hrk
    have hsr := toNat_lt_of_le_max (snapshotOf_le r.key)
    dsimp only
    by_cases hpa : paOf r.key = pa
    · rw [if_pos hpa, asOf_some]
      have hlt := paOf_lt r.key
      rw [hpa] at hlt
      rw [hpa, Nat.mod_eq_of_lt hlt] at hrk
      refine ⟨(snapshotOf r.key).toNat, ⟨hr, hpa, rfl⟩, by omega, ?_⟩
      rintro t r' ⟨hr', hpa', rfl⟩ hsn
      have := hmax r' hr' (hle r' hr' hpa' hsn)
      rw [recordKey_eq, recordKey_eq, hpa, hpa'] at this
      omega
    · rw [if_neg hpa, asOf_none]
      rintro t r' ⟨hr', hpa', rfl⟩ hsn
      -- a record of `pa` would lie between `r` and the bound
      have hk := hmax r' hr' (hle r' hr' hpa' hsn)
      have hlt := paOf_lt r'.key
      rw [hpa'] at hlt
      rw [recordKey_eq, recordKey_eq, hpa'] at hk
      rw [Nat.mod_eq_of_lt hlt] at hrk
      exact hpa (UInt64.toNat_inj.1 (by omega))

/-- `exactSorted` finds the records of the list. -/
theorem exactSorted_mem {rs : List ChunkRecord} (h : KeySorted rs) {r : ChunkRecord} (hr : r ∈ rs) :
    exactSorted rs r.key = some r := by
  have := find?_of_strict h hr
  unfold exactSorted
  rw [← this]
  congr 1
  funext a
  simp only [recordKey, beq_eq_decide, UInt64.toNat_inj]

theorem exactSorted_some {rs : List ChunkRecord} {k : UInt64} {r : ChunkRecord}
    (h : exactSorted rs k = some r) : r ∈ rs ∧ r.key = k := by
  refine ⟨List.mem_of_find?_eq_some h, ?_⟩
  simpa using List.find?_some h

/-! ## The log -/

theorem readLogHeader (m : UInt32) (body : Bytes) :
    readAndVerifyHeader (writeLogHeader m ++ body) magicLog = .ok (m, body) :=
  readAndVerifyHeader_write rfl m body

/-- The body is what comes behind the header. -/
theorem readAndVerifyHeader_body {bs magic body : Bytes} {m : UInt32}
    (h : readAndVerifyHeader bs magic = .ok (m, body)) : body = bs.drop headerSize := by
  unfold readAndVerifyHeader at h
  split at h
  · cases h
  · dsimp only at h
    split at h
    · cases h
    · split at h
      · cases h
      · exact (Prod.mk.inj (Except.ok.inj h)).2.symm

/-- **A log's index** holds its records sorted by key, also when the log ends in an
incomplete fixed part. -/
theorem buildLazyIndex_log {rs : List ChunkRecord} (h : ∀ r ∈ rs, r.Plain) (m : UInt32) {tail : Bytes}
    (ht : tail.length < logRecordBaseSize) :
    buildLazyIndex (writeLogHeader m ++ (encodeAll rs ++ tail)) = .ok (index recordKey rs) := by
  unfold buildLazyIndex
  rw [readLogHeader, ok_bind]
  simp only [scan_encode_tail h ht, ok_bind]

theorem buildLazyIndex_encode {rs : List ChunkRecord} (h : ∀ r ∈ rs, r.Plain) (m : UInt32) :
    buildLazyIndex (writeLogHeader m ++ encodeAll rs) = .ok (index recordKey rs) := by
  have hnil : ([] : Bytes).length < logRecordBaseSize := by decide
  have hbuild := buildLazyIndex_log h m hnil
  rwa [List.append_nil] at hbuild

/-- The lazy index lists what the scan gives. -/
theorem lazyIndex_scan {m : UInt32} {log body : Bytes} {records : List ChunkRecord}
    (hheader : readAndVerifyHeader log magicLog = .ok (m, body)) (hscan : ChunkRecord.scan body = .ok records) :
    buildLazyIndex log = .ok (index recordKey records) := by
  unfold buildLazyIndex
  rw [hheader, ok_bind]
  dsimp only
  rw [hscan, ok_bind]

/-- A log is sorted when it is indexed. -/
theorem buildLazyIndex_sorted {log : Bytes} {rs : List ChunkRecord} (h : buildLazyIndex log = .ok rs) : KeySorted rs := by
  unfold buildLazyIndex at h
  obtain ⟨_, -, hscan⟩ := bind_eq_ok.1 h
  obtain ⟨records, -, heq⟩ := bind_eq_ok.1 hscan
  obtain rfl := Except.ok.inj heq
  exact index_strict recordKey records

/-! ## The index file -/

/-- The body of an index file. -/
def encodeIndex (rs : List ChunkRecord) : Bytes := rs.flatMap encodeFixed

theorem length_encodeIndex (rs : List ChunkRecord) :
    (encodeIndex rs).length = rs.length * fixedRecordSize := by
  induction rs with
  | nil => simp [encodeIndex]
  | cons r rs ih =>
    rw [encodeIndex, List.flatMap_cons, List.length_append, length_encodeFixed]
    rw [encodeIndex] at ih
    rw [ih, List.length_cons]; ring

theorem readRecordAt_index (rs : List ChunkRecord) {i : ℕ} (h : i < rs.length) :
    readRecordAt (encodeIndex rs) i = .ok rs[i] := by
  unfold readRecordAt encodeIndex
  rw [slice_flatMap length_encodeFixed rs i h, decodeFixed_encodeFixed]

theorem readKeyAt_index (rs : List ChunkRecord) {i : ℕ} (h : i < rs.length) :
    readKeyAt (encodeIndex rs) i = rs[i].key := by
  have hs := slice_flatMap length_encodeFixed rs i h
  have hk : slice (rs.flatMap encodeFixed) (i * fixedRecordSize) (i * fixedRecordSize + 8) =
      slice rs[i].encodeFixed 0 8 := by
    rw [← hs]
    simp [slice, fixedRecordSize, List.take_take]
  unfold readKeyAt encodeIndex
  rw [hk]
  exact (encodeFixed_fields rs[i]).1

/-- The number of leading records with key at most `k`. -/
theorem partitionPoint_eq {rs : List ChunkRecord} (h : KeySorted rs) (k : ℕ) :
    partitionPoint (fun a => decide (a ≤ k)) (rs.map recordKey) ≤ rs.length ∧
    (∀ i (hi : i < rs.length),
      i < partitionPoint (fun a => decide (a ≤ k)) (rs.map recordKey) ↔ recordKey rs[i] ≤ k) := by
  induction rs with
  | nil => simp [partitionPoint]
  | cons r rs ih =>
    obtain ⟨hr, hrs⟩ := List.pairwise_cons.1 h
    obtain ⟨ih1, ih2⟩ := ih hrs
    unfold partitionPoint at ih1 ih2 ⊢
    by_cases hk : recordKey r ≤ k
    · simp only [List.map_cons, List.takeWhile_cons, hk, decide_true, if_true, List.length_cons]
      refine ⟨by omega, fun i hi => ?_⟩
      cases i with
      | zero => simp [hk]
      | succ i =>
        simp only [List.getElem_cons_succ]
        rw [← ih2 i (by simpa using hi)]; omega
    · simp only [List.map_cons, List.takeWhile_cons, hk, decide_false, Bool.false_eq_true, if_false,
        List.length_nil]
      refine ⟨Nat.zero_le _, fun i hi => ?_⟩
      cases i with
      | zero => simp [hk]
      | succ i =>
        have hi' : i < rs.length := by simpa using hi
        have := hr rs[i] (List.getElem_mem hi')
        simp only [List.getElem_cons_succ]; omega

theorem drop_indexHeader {hd : Bytes} (hh : hd.length = headerSize) (body : Bytes) :
    (hd ++ body).drop headerSize = body := List.drop_left' hh

/-- **`floor` on the index file** is `floor` on its records. -/
theorem floorMmap_index {rs : List ChunkRecord} (h : KeySorted rs) {hd : Bytes}
    (hh : hd.length = headerSize) (key pa : UInt64) :
    floorMmap (hd ++ encodeIndex rs) rs.length key pa = floorSorted rs key pa := by
  obtain ⟨h1, h2⟩ := partitionPoint_eq h key.toNat
  set n := partitionPoint (fun a => decide (a ≤ key.toNat)) (rs.map recordKey) with hn
  have hpart : partitionLoop (fun mid => readKeyAt (encodeIndex rs) mid ≤ key) rs.length 0 rs.length = n := by
    refine partitionLoop_eq (fun i hi => ?_) (fun i hi hi' => ?_) _ _ _ (Nat.zero_le _) h1 (le_refl _)
      (by omega)
    · have hlt : i < rs.length := by omega
      rw [readKeyAt_index rs hlt, decide_eq_true_eq, UInt64.le_iff_toNat_le]
      exact (h2 i hlt).1 hi
    · rw [readKeyAt_index rs hi', decide_eq_false_iff_not, UInt64.le_iff_toNat_le]
      intro hc
      have := (h2 i hi').2 hc
      omega
  unfold floorMmap floorSorted floor?
  simp only [drop_indexHeader hh, hpart, ← hn]
  by_cases h0 : n = 0
  · simp [h0]
  · have hlt : n - 1 < rs.length := by omega
    simp only [h0, if_false, readRecordAt_index rs hlt, List.getElem?_eq_getElem hlt]

/-- **The exact look-up on the index file** is that on its records. -/
theorem exactMmap_index {rs : List ChunkRecord} (h : KeySorted rs) {hd : Bytes}
    (hh : hd.length = headerSize) (key : UInt64) :
    exactMmap (hd ++ encodeIndex rs) rs.length key = exactSorted rs key := by
  unfold exactMmap
  simp only [drop_indexHeader hh]
  cases hs : searchLoop (fun mid => (readKeyAt (encodeIndex rs) mid).toNat) key.toNat rs.length 0 rs.length with
  | some i =>
    obtain ⟨-, hi, hk⟩ := searchLoop_some hs
    simp only [readKeyAt_index rs hi, UInt64.toNat_inj] at hk
    simp only [readRecordAt_index rs hi]
    rw [← hk, exactSorted_mem h (List.getElem_mem hi)]; rfl
  | none =>
    have hmono : ∀ i j, i < j → j < rs.length →
        (readKeyAt (encodeIndex rs) i).toNat < (readKeyAt (encodeIndex rs) j).toNat := by
      intro i j hij hj
      rw [readKeyAt_index rs (hij.trans hj), readKeyAt_index rs hj]
      exact List.pairwise_iff_getElem.1 h i j (hij.trans hj) hj hij
    have hne := searchLoop_none hmono (le_refl _) (by omega) hs
    cases he : exactSorted rs key with
    | none => rfl
    | some r =>
      obtain ⟨hr, hrk⟩ := exactSorted_some he
      obtain ⟨i, hi, rfl⟩ := List.getElem_of_mem hr
      have := hne i (Nat.zero_le _) hi
      rw [readKeyAt_index rs hi, hrk] at this
      exact absurd rfl this

end Bxdb
