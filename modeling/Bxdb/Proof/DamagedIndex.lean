import Bxdb.Proof.BulkAgree
import Bxdb.Proof.CachedReads

/-!
# Damaged index entries

Take any `index.bxdb` with strictly increasing keys, whatever its other bytes. `floor`
finds the entry that is newest as of the snapshot, and then decodes it; an entry that
does not decode gives `none`, as if the address had no entry (`floorMmap_entries`).

* `damaged_reported`: **a page is reported absent only when it is, and a damaged one as an
  error, exactly when the entry `floor` finds for it decodes**, if there is one.
* `damaged_absent`: an entry with an invalid type byte, whose page is reported absent.
-/

namespace Bxdb

open Bytes SortedIndex Versioned ChunkRecord

/-! ## Entries -/

/-- Which address has which entry at which snapshot: the first `n` entries of an index. -/
def entriesOf (mmap : Bytes) (n : ℕ) : Writes UInt64 ℕ ℕ :=
  fun pa t i => i < n ∧ paOf (readKeyAt (mmap.drop headerSize) i) = pa ∧
    (snapshotOf (readKeyAt (mmap.drop headerSize) i)).toNat = t

/-- Entry `i` decodes. -/
def Decodes (mmap : Bytes) (i : ℕ) : Prop := ∃ rec, readRecordAt (mmap.drop headerSize) i = .ok rec

/-- The keys of an index strictly increase. -/
def KeysIncrease (mmap : Bytes) (n : ℕ) : Prop :=
  ∀ i j, i < j → j < n → readKeyAt (mmap.drop headerSize) i < readKeyAt (mmap.drop headerSize) j

theorem key_toNat (key : UInt64) : key.toNat = (paOf key).toNat * 2 ^ 19 + (snapshotOf key).toNat := by
  rw [paOf_toNat, snapshotOf_toNat]
  omega

/-- A key of the address is below the bound when its snapshot id is. -/
theorem le_encodeKey {key pa : UInt64} {s : UInt32} (hs : s ≤ maxSnapshotId) (hpa : paOf key = pa) :
    key.toNat ≤ (encodeKey pa s).toNat ↔ (snapshotOf key).toNat ≤ s.toNat := by
  have hlt := paOf_lt key
  have hk := key_toNat key
  rw [hpa] at hlt hk
  rw [encodeKey_toNat, Nat.mod_eq_of_lt hlt, Nat.mod_eq_of_lt (toNat_lt_of_le_max hs)]
  omega

/-- Between a key of the address and the bound there are only keys of the address. -/
theorem paOf_between {key key' pa : UInt64} {s : UInt32} (hs : s ≤ maxSnapshotId) (hpa : paOf key = pa)
    (hle : key.toNat ≤ key'.toNat) (hbound : key'.toNat ≤ (encodeKey pa s).toNat) : paOf key' = pa := by
  have hlt := paOf_lt key
  have hk := key_toNat key
  have hk' := key_toNat key'
  have hs' := toNat_lt_of_le_max hs
  have hsk' := toNat_lt_of_le_max (snapshotOf_le key')
  rw [hpa] at hlt hk
  rw [encodeKey_toNat, Nat.mod_eq_of_lt hlt, Nat.mod_eq_of_lt hs'] at hbound
  exact UInt64.toNat_inj.1 (by omega)

section Entries

variable {mmap : Bytes} {n : ℕ}

theorem KeysIncrease.mono (h : KeysIncrease mmap n) {i j : ℕ} (hij : i ≤ j) (hj : j < n) :
    (readKeyAt (mmap.drop headerSize) i).toNat ≤ (readKeyAt (mmap.drop headerSize) j).toNat := by
  rcases Nat.eq_or_lt_of_le hij with rfl | hij
  · exact le_refl _
  · exact (UInt64.lt_iff_toNat_lt.1 (h i j hij hj)).le

/-- Where `floor` splits the entries: those at or below the bound come first. -/
theorem KeysIncrease.split (h : KeysIncrease mmap n) (bound : UInt64) :
    ∃ lo, lo ≤ n ∧ lo = partitionLoop (fun mid => readKeyAt (mmap.drop headerSize) mid ≤ bound) n 0 n ∧
      ∀ i, i < n → (i < lo ↔ (readKeyAt (mmap.drop headerSize) i).toNat ≤ bound.toNat) := by
  have hp : ∀ i j, i ≤ j → j < n → decide (readKeyAt (mmap.drop headerSize) j ≤ bound) = true →
      decide (readKeyAt (mmap.drop headerSize) i ≤ bound) = true := by
    intro i j hij hj hle
    rw [decide_eq_true_eq, UInt64.le_iff_toNat_le] at hle ⊢
    exact (h.mono hij hj).trans hle
  obtain ⟨hbelow, habove⟩ := partitionLoop_spec hp (Nat.zero_le n) (le_refl n) (Nat.sub_le n 0)
    (fun i hi => absurd hi (Nat.not_lt_zero i)) fun i hi hi' => absurd hi' (by omega)
  refine ⟨_, partitionLoop_le (Nat.zero_le n), rfl, fun i hi => ⟨fun hlt => ?_, fun hle => ?_⟩⟩
  · have := hbelow i hlt
    rwa [decide_eq_true_eq, UInt64.le_iff_toNat_le] at this
  · by_contra hc
    have := habove i (by omega) hi
    rw [decide_eq_false_iff_not, UInt64.le_iff_toNat_le] at this
    exact this hle

/-- **`floor` in an index file** finds the entry that is newest as of the snapshot, and
answers with it when it decodes. -/
theorem floorMmap_entries (h : KeysIncrease mmap n) (pa : UInt64) {s : UInt32} (hs : s ≤ maxSnapshotId) :
    ∃ found, AsOf (entriesOf mmap n) pa s.toNat found ∧ floorMmap mmap n (encodeKey pa s) pa =
      found.bind fun i => (readRecordAt (mmap.drop headerSize) i).toOption := by
  obtain ⟨lo, hlon, hlo, hsplit⟩ := h.split (encodeKey pa s)
  -- an entry of the address at or below the snapshot comes before the split
  have hin : ∀ i, i < n → paOf (readKeyAt (mmap.drop headerSize) i) = pa →
      (snapshotOf (readKeyAt (mmap.drop headerSize) i)).toNat ≤ s.toNat → i < lo :=
    fun i hi hpa hsn => (hsplit i hi).2 ((le_encodeKey hs hpa).2 hsn)
  unfold floorMmap
  dsimp only
  rw [← hlo]
  by_cases h0 : lo = 0
  · rw [if_pos h0]
    refine ⟨none, asOf_none.2 ?_, rfl⟩
    rintro t i ⟨hi, hpa, rfl⟩ hsn
    have := hin i hi hpa hsn
    omega
  · rw [if_neg h0]
    have hlast := (hsplit (lo - 1) (by omega)).1 (by omega)
    by_cases hpa : paOf (readKeyAt (mmap.drop headerSize) (lo - 1)) = pa
    · refine ⟨some (lo - 1), asOf_some.2 ⟨_, ⟨by omega, hpa, rfl⟩, (le_encodeKey hs hpa).1 hlast, ?_⟩, ?_⟩
      · rintro t i ⟨hi, hpa', rfl⟩ hsn
        have hilo := hin i hi hpa' hsn
        have hle := h.mono (show i ≤ lo - 1 by omega) (by omega)
        rw [key_toNat, key_toNat (readKeyAt _ (lo - 1)), hpa, hpa'] at hle
        omega
      · rw [Option.bind_some]
        cases hr : readRecordAt (mmap.drop headerSize) (lo - 1) with
        | ok rec =>
          dsimp only
          rw [readRecordAt_key hr, if_pos hpa]
          rfl
        | error e => rfl
    · refine ⟨none, asOf_none.2 ?_, ?_⟩
      · -- the last entry before the split would be of the address too
        rintro t i ⟨hi, hpa', rfl⟩ hsn
        have hilo := hin i hi hpa' hsn
        exact hpa (paOf_between hs hpa' (h.mono (show i ≤ lo - 1 by omega) (by omega)) hlast)
      · cases hr : readRecordAt (mmap.drop headerSize) (lo - 1) with
        | ok rec =>
          dsimp only
          rw [readRecordAt_key hr, if_neg hpa]
          rfl
        | error e => rfl

end Entries

/-! ## What absence says -/

section Absent

variable {z : Zstd} {dir : Dir} {store : PageStore} {cache : Option Memory.Mem} {pa : UInt64} {s : UInt32}

/-- A page is reported absent when `floor` finds nothing. -/
theorem loadPage_none (hs : s ≤ maxSnapshotId) :
    (BtreeDb.loadPage z store cache pa s).2 = .ok none ↔ store.floor pa s = .ok none := by
  unfold BtreeDb.loadPage
  rw [if_neg (UInt32.not_lt.2 hs)]
  cases store.floor pa s with
  | error e => simp
  | ok found =>
    cases found with
    | none => simp
    | some rec =>
      dsimp only
      generalize BtreeDb.resolveCached z store cache rec = r
      obtain ⟨cache', page⟩ := r
      cases page with
      | error e => simp
      | ok page => simp

theorem loadBtreePage_none {off : UInt64} {i : ℕ} (h : loadBtreePage z store off s i = .ok none) :
    off.toNat + i < 2 ^ 64 ∧ store.floor (off + UInt64.ofNat i) s = .ok none := by
  unfold loadBtreePage at h
  split at h
  · cases h
  · rename_i hlt
    obtain ⟨found, hfound, h⟩ := bind_eq_ok.1 h
    cases found with
    | none => exact ⟨by omega, hfound⟩
    | some rec =>
      obtain ⟨page, -, h⟩ := bind_eq_ok.1 h
      cases h

/-- A bulk load that succeeds passed its checks. -/
theorem loadAllPages_checked {outLen workers : ℕ} {aligned : Bool} {off count : UInt64} {pages : List (Option Page)}
    (h : loadAllPages z dir outLen aligned off count s workers = .ok pages) :
    s ≤ maxSnapshotId ∧ outLen = count.toNat * pageSize ∧ aligned = true := by
  unfold loadAllPages at h
  dsimp only at h
  by_cases hs : maxSnapshotId < s
  · rw [if_pos hs] at h
    cases h
  rw [if_neg hs] at h
  by_cases hout : outLen ≠ count.toNat * pageSize
  · rw [if_pos hout] at h
    cases h
  rw [if_neg hout] at h
  cases aligned with
  | false => cases h
  | true => exact ⟨UInt32.not_lt.1 hs, not_not.1 hout, rfl⟩

/-- A bulk load that succeeds on an index loaded each page. -/
theorem loadAllPages_btree {mmap : Bytes} {n outLen workers : ℕ} {aligned : Bool} {off count : UInt64}
    {pages : List (Option Page)} (hopen : PageStore.open dir = .ok store) (hsrc : store.source = .btree mmap n)
    (h : loadAllPages z dir outLen aligned off count s workers = .ok pages) :
    pages.length = count.toNat ∧ ∀ i (hi : i < pages.length), loadBtreePage z store off s i = .ok pages[i] := by
  obtain ⟨hs, hout, rfl⟩ := loadAllPages_checked h
  rw [loadAllPages_unfold hs hout, hopen, ok_bind, hsrc] at h
  exact (loadAllWith_iff.1 h).2

end Absent

/-! ## Reports -/

/-- **What the reader says about one page** of an index: that it is absent only when no
entry of the address is at or below the snapshot, and an error when the newest such entry
does not decode. The same for every bulk load over the page. -/
structure Reported (z : Zstd) (dir : Dir) (store : PageStore) (mmap : Bytes) (n : ℕ) (pa : UInt64) (s : UInt32) :
    Prop where
  absent : ∀ cache, (BtreeDb.loadPage z store cache pa s).2 = .ok none → AsOf (entriesOf mmap n) pa s.toNat none
  absentBulk : ∀ outLen aligned off count workers pages i, off.toNat + i = pa.toNat →
    loadAllPages z dir outLen aligned off count s workers = .ok pages → pages[i]? = some none →
      AsOf (entriesOf mmap n) pa s.toNat none
  damaged : ∀ i, AsOf (entriesOf mmap n) pa s.toNat (some i) → ¬ Decodes mmap i →
    ∀ cache, ∃ e, (BtreeDb.loadPage z store cache pa s).2 = .error (.err e)
  damagedBulk : ∀ i, AsOf (entriesOf mmap n) pa s.toNat (some i) → ¬ Decodes mmap i →
    ∀ outLen aligned off count workers, off.toNat ≤ pa.toNat → pa.toNat < off.toNat + count.toNat →
      ∃ e, loadAllPages z dir outLen aligned off count s workers = .error e

section

variable {z : Zstd} {dir : Dir} {store : PageStore} {mmap : Bytes} {n : ℕ} {pa : UInt64} {s : UInt32}

theorem floor_btree (hsrc : store.source = .btree mmap n) :
    store.floor pa s = .ok (floorMmap mmap n (encodeKey pa s) pa) := by
  unfold PageStore.floor
  rw [hsrc]

/-- When the newest entry decodes, `floor` finds nothing only where there is no entry. -/
theorem asOf_of_floor_none (hsrc : store.source = .btree mmap n) (hinc : KeysIncrease mmap n) (hs : s ≤ maxSnapshotId)
    (hdec : ∀ i, AsOf (entriesOf mmap n) pa s.toNat (some i) → Decodes mmap i) (hf : store.floor pa s = .ok none) :
    AsOf (entriesOf mmap n) pa s.toNat none := by
  obtain ⟨found, hasof, heq⟩ := floorMmap_entries hinc pa hs
  rw [floor_btree hsrc, heq] at hf
  cases found with
  | none => exact hasof
  | some i =>
    obtain ⟨rec, hrec⟩ := hdec i hasof
    rw [Option.bind_some, hrec] at hf
    cases hf

/-- An entry that does not decode is not found. -/
theorem floor_none_of_damaged (hsrc : store.source = .btree mmap n) (hinc : KeysIncrease mmap n)
    (hs : s ≤ maxSnapshotId) {i : ℕ} (hi : AsOf (entriesOf mmap n) pa s.toNat (some i)) (hdec : ¬ Decodes mmap i) :
    store.floor pa s = .ok none := by
  obtain ⟨found, hasof, heq⟩ := floorMmap_entries hinc pa hs
  rw [floor_btree hsrc, heq]
  cases found with
  | none => rfl
  | some j =>
    obtain ⟨t, ⟨hin, hpai, rfl⟩, hit, himax⟩ := asOf_some.1 hi
    obtain ⟨u, ⟨hjn, hpaj, rfl⟩, hjt, hjmax⟩ := asOf_some.1 hasof
    -- both are the newest, and keys do not repeat
    have h1 := himax _ j ⟨hjn, hpaj, rfl⟩ hjt
    have h2 := hjmax _ i ⟨hin, hpai, rfl⟩ hit
    have hkey : (readKeyAt (mmap.drop headerSize) i).toNat = (readKeyAt (mmap.drop headerSize) j).toNat := by
      rw [key_toNat, key_toNat (readKeyAt _ j), hpai, hpaj]
      omega
    have hij : i = j := by
      rcases Nat.lt_trichotomy i j with hlt | heq | hgt
      · have := UInt64.lt_iff_toNat_lt.1 (hinc i j hlt hjn)
        omega
      · exact heq
      · have := UInt64.lt_iff_toNat_lt.1 (hinc j i hgt hin)
        omega
    subst hij
    rw [Option.bind_some]
    cases hr : readRecordAt (mmap.drop headerSize) i with
    | ok rec => exact absurd ⟨rec, hr⟩ hdec
    | error e => rfl

/-- **Damaged entries are reported exactly where they can be decoded**: for every index
with increasing keys that a store opens, what is said about a page is right if and only if
the entry that is newest as of the snapshot, when there is one, decodes. -/
theorem damaged_reported (z : Zstd) (hopen : PageStore.open dir = .ok store) (hsrc : store.source = .btree mmap n)
    (hinc : KeysIncrease mmap n) (pa : UInt64) (hs : s ≤ maxSnapshotId) :
    Reported z dir store mmap n pa s ↔ ∀ i, AsOf (entriesOf mmap n) pa s.toNat (some i) → Decodes mmap i := by
  constructor
  · intro hrep i hi
    by_contra hdec
    -- the entry is skipped, and the page reported absent
    have hnone := hrep.absent none ((loadPage_none hs).2 (floor_none_of_damaged hsrc hinc hs hi hdec))
    obtain ⟨t, ha, ht, -⟩ := asOf_some.1 hi
    exact asOf_none.1 hnone t i ha ht
  · intro hdec
    refine ⟨fun cache h => ?_, fun outLen aligned off count workers pages i hpa h hnone => ?_,
      fun i hi hd => absurd (hdec i hi) hd, fun i hi hd => absurd (hdec i hi) hd⟩
    · exact asOf_of_floor_none hsrc hinc hs hdec ((loadPage_none hs).1 h)
    · obtain ⟨-, hload⟩ := loadAllPages_btree hopen hsrc h
      obtain ⟨hi, hpage⟩ := List.getElem?_eq_some_iff.1 hnone
      have hl := hload i hi
      rw [hpage] at hl
      obtain ⟨hlt, hf⟩ := loadBtreePage_none hl
      have haddr : off + UInt64.ofNat i = pa := UInt64.toNat_inj.1 ((toNat_add_ofNat hlt).trans hpa)
      rw [haddr] at hf
      exact asOf_of_floor_none hsrc hinc hs hdec hf

end

/-! ## An entry that does not decode -/

/-- An index with one entry, of address 0 and snapshot 0, whose type byte is 7. -/
def damagedIndex : Bytes := writeIndexHeader 0 ++ (newZero 0).encodeFixed.set 28 7

def damagedDir : Dir := ⟨none, some damagedIndex, fun _ => none⟩

/-- An index with three entries, of address 0 in snapshots 0 and 3 and of address 1, of which
the second has the type byte 7. -/
def partlyDamaged : Bytes :=
  writeIndexHeader 3 ++ ((newZero 0).encodeFixed ++ ((newZero 3).encodeFixed.set 28 7 ++ (newZero (encodeKey 1 2)).encodeFixed))

def partlyDamagedDir : Dir := ⟨none, some partlyDamaged, fun _ => none⟩

theorem partlyDamaged_keys : readKeyAt (partlyDamaged.drop headerSize) 0 = 0 ∧
    readKeyAt (partlyDamaged.drop headerSize) 1 = 3 ∧ readKeyAt (partlyDamaged.drop headerSize) 2 = encodeKey 1 2 := by
  decide +kernel

/-- As of snapshot 2 the damaged entry is not the newest. -/
theorem damaged_reported_sound :
    Reported Zstd.raw partlyDamagedDir ⟨.btree partlyDamaged 3, fun _ => none⟩ partlyDamaged 3 0 2 := by
  obtain ⟨hkey₀, hkey₁, hkey₂⟩ := partlyDamaged_keys
  have hinc : KeysIncrease partlyDamaged 3 := by
    intro i j hij hj
    obtain ⟨rfl, rfl⟩ | ⟨rfl, rfl⟩ | ⟨rfl, rfl⟩ : i = 0 ∧ j = 1 ∨ i = 0 ∧ j = 2 ∨ i = 1 ∧ j = 2 := by omega
    · rw [hkey₀, hkey₁]
      decide
    · rw [hkey₀, hkey₂]
      decide
    · rw [hkey₁, hkey₂]
      decide
  have hopen : PageStore.open partlyDamagedDir = .ok ⟨.btree partlyDamaged 3, fun _ => none⟩ := rfl
  refine (damaged_reported Zstd.raw hopen rfl hinc 0 (by decide)).2 fun i hi => ?_
  obtain ⟨t, ⟨hlt, hpa, ht⟩, hle, -⟩ := asOf_some.1 hi
  obtain rfl | rfl | rfl : i = 0 ∨ i = 1 ∨ i = 2 := by omega
  · exact ⟨newZero 0, rfl⟩
  · rw [hkey₁] at ht
    have hsnap : (snapshotOf 3).toNat = 3 := by decide
    rw [← ht, hsnap] at hle
    exact absurd hle (by decide)
  · rw [hkey₂] at hpa
    exact absurd hpa (by decide)

/-- **A page whose entry is damaged is reported absent.** -/
theorem damaged_absent : ¬ ∀ (z : Zstd) (dir : Dir) (store : PageStore) (mmap : Bytes) (n : ℕ) (pa : UInt64)
    (s : UInt32), PageStore.open dir = .ok store → store.source = .btree mmap n → KeysIncrease mmap n →
    s ≤ maxSnapshotId → Reported z dir store mmap n pa s := by
  intro hall
  have hinc : KeysIncrease damagedIndex 1 := by
    intro i j hij hj
    omega
  have hopen : PageStore.open damagedDir = .ok ⟨.btree damagedIndex 1, fun _ => none⟩ := rfl
  have hrep := hall Zstd.raw damagedDir _ damagedIndex 1 0 0 hopen rfl hinc (by decide)
  have hnone := hrep.absent none rfl
  exact asOf_none.1 hnone 0 0 ⟨by decide, rfl, rfl⟩ (le_refl _)

end Bxdb
