import Bxdb.Proof.Bulk
import Bxdb.Proof.Conversion

/-!
# The scan path and the index path of a bulk load

For every log that decodes, whatever its records and the worker files.

* `loadAllWith_iff`: a bulk load succeeds exactly when its number of workers fits and each
  of its pages loads.
* `scanLatest_eq_floor`: **the scan finds the record that `floor` finds in the index.**
* `bulk_agree`: both paths and the load of single pages agree, with all numbers of workers
  that can be reserved.
-/

namespace Bxdb

open Bytes SortedIndex Versioned ChunkRecord

/-! ## Workers -/

theorem mapM_all {α β : Type} {f : α → Res β} : ∀ {l : List α} {out : List β}, l.mapM f = .ok out →
    ∀ a ∈ l, ∃ b, f a = .ok b
  | [], _, _, a, ha => by simp at ha
  | a :: l, out, h, b, hb => by
    rw [List.mapM_cons] at h
    obtain ⟨x, hx, h⟩ := bind_eq_ok.1 h
    obtain ⟨xs, hxs, -⟩ := bind_eq_ok.1 h
    rcases List.mem_cons.1 hb with rfl | hb
    · exact ⟨x, hx⟩
    · exact mapM_all hxs b hb

/-- Joining succeeds only when every worker did. -/
theorem joinWorkers_all : ∀ {ls : List (Res (List (Option Page)))} {out : List (Option Page)},
    joinWorkers ls = .ok out → ∀ r ∈ ls, ∃ pages, r = .ok pages
  | [], _, _, r, hr => by simp at hr
  | .ok pages :: ls, out, h, r, hr => by
    rw [joinWorkers] at h
    obtain ⟨more, hmore, -⟩ := bind_eq_ok.1 h
    rcases List.mem_cons.1 hr with rfl | hr
    · exact ⟨pages, rfl⟩
    · exact joinWorkers_all hmore r hr
  | .error e :: ls, out, h, r, hr => by
    unfold joinWorkers at h
    split at h
    · simp [panics] at h
    · split at h
      · simp at h
      · simp [ioErr] at h

/-- **When a bulk load succeeds**: when its number of workers fits and every page loads, and
then it returns them in order. -/
theorem loadAllWith_iff {load : ℕ → Res (Option Page)} {total workers : ℕ} {out : List (Option Page)} :
    loadAllWith load total (max workers 1) = .ok out ↔
      WorkersFit total workers ∧ out.length = total ∧ ∀ i (h : i < out.length), load i = .ok out[i] := by
  have hw : 1 ≤ max workers 1 := le_max_right workers 1
  constructor
  · intro h
    have hfit : WorkersFit total workers := by
      by_contra hno
      obtain ⟨msg, hpanic⟩ := loadAllWith_unfit load hno
      rw [hpanic] at h
      cases h
    -- every page in range is some worker's, and no worker failed
    have hall : ∀ i < total, ∃ p, load i = .ok p := by
      intro i hi
      rw [← List.mem_range, ← flatten_workerRanges total hw] at hi
      obtain ⟨is, his, hmem⟩ := List.mem_flatten.1 hi
      obtain ⟨pages, hpages⟩ := joinWorkers_all (loadAllWith_fit hfit ▸ h) _ (List.mem_map_of_mem his)
      exact mapM_all hpages i hmem
    choose! g hg using hall
    rw [loadAllWith_ok hfit hg] at h
    obtain rfl := Except.ok.inj h
    refine ⟨hfit, by simp, fun i hi => ?_⟩
    have hi' : i < total := by simpa using hi
    rw [hg i hi', List.getElem_map, List.getElem_range]
  · rintro ⟨hfit, rfl, hload⟩
    have hg : ∀ i < out.length, load i = .ok (out.getD i none) := by
      intro i hi
      rw [hload i hi, List.getD_eq_getElem _ _ hi]
    rw [loadAllWith_ok hfit hg]
    congr 1
    apply List.ext_getElem
    · simp
    · intro i h1 h2
      rw [List.getElem_map, List.getElem_range, List.getD_eq_getElem _ _ h2]

/-! ## Look-ups -/

section Lookup

variable {records : List ChunkRecord} {off : UInt64} {total : ℕ} {s : UInt32}

theorem recordsOf_functional {rs : List ChunkRecord} (h : KeySorted rs) : Functional (recordsOf rs) := by
  rintro pa t a b ⟨ha, hpa, hsa⟩ ⟨hb, hpb, hsb⟩
  refine SortedIndex.eq_of_key_eq h ha hb ?_
  rw [recordKey_eq, recordKey_eq, hpa, hpb, hsa, hsb]

/-- **The scan finds what `floor` finds**: of the records with the largest snapshot id up
to the bound, the first one in the file. -/
theorem scanLatest_eq_floor (hoff : off.toNat + total < 2 ^ 64) (hs : s ≤ maxSnapshotId) {i : ℕ} (hi : i < total) :
    scanLatest off total s records i =
      floorSorted (index recordKey records) (encodeKey (off + UInt64.ofNat i) s) (off + UInt64.ofNat i) := by
  have hsorted : KeySorted (index recordKey records) := index_strict recordKey records
  have hsub : ∀ {t r}, recordsOf (index recordKey records) (off + UInt64.ofNat i) t r →
      recordsOf records (off + UInt64.ofNat i) t r :=
    fun h => ⟨List.mem_of_find?_eq_some (mem_index.1 h.1), h.2⟩
  have hscan := scanLatest_asOf (s := s) hoff records i hi
  refine AsOf.unique (recordsOf_functional hsorted) ?_ (floorSorted_asOf hsorted _ hs)
  cases hl : scanLatest off total s records i with
  | none =>
    rw [hl] at hscan
    exact asOf_none.2 fun t r hr => asOf_none.1 hscan t r (hsub hr)
  | some r =>
    rw [hl] at hscan
    obtain ⟨u, ⟨-, hpa, hu⟩, hle, hmax⟩ := asOf_some.1 hscan
    have hmem : r ∈ index recordKey records := mem_index.2 (scanLatest_first hoff records i hi r hl)
    exact asOf_some.2 ⟨u, ⟨hmem, hpa, hu⟩, hle, fun t r' hr' ht => hmax t r' (hsub hr') ht⟩

end Lookup

/-! ## The two stores of a log -/

section Agree

variable {z : Zstd} {log idx : Bytes} {rs : List ChunkRecord} {blobs : UInt8 → Option Bytes}

/-- The store of a log, and the store of the index made of it. -/
structure SameStore (store store' : PageStore) : Prop where
  floor : ∀ pa s, store.floor pa s = store'.floor pa s
  exact : ∀ key, store.exactLookup key = store'.exactLookup key
  blobs : store.blobs = store'.blobs

theorem sameStore (hrs : buildLazyIndex log = .ok rs) (hsorted : KeySorted rs) {header : Bytes}
    (hh : header.length = headerSize) :
    SameStore ⟨.appendOnly log, blobs⟩ ⟨.btree (header ++ encodeIndex rs) rs.length, blobs⟩ where
  floor pa s := by
    unfold PageStore.floor
    dsimp only
    rw [hrs, ok_bind, floorMmap_index hsorted hh]
  exact key := by
    unfold PageStore.exactLookup
    dsimp only
    rw [hrs, ok_bind, exactMmap_index hsorted hh]
  blobs := rfl

/-- Stores with the same look-ups resolve every record alike. -/
theorem SameStore.resolve {store store' : PageStore} (h : SameStore store store') (rec : ChunkRecord) :
    store.resolveUncached z rec = store'.resolveUncached z rec := by
  have hdec : ∀ r, store.decompressBlobInto z r = store'.decompressBlobInto z r := by
    intro r
    unfold PageStore.decompressBlobInto PageStore.blobMmap
    rw [h.blobs]
  have hblob : store.deltaBlob rec = store'.deltaBlob rec := by
    unfold PageStore.deltaBlob PageStore.blobMmap
    rw [h.blobs]
  have hfull : store.loadFull z rec.baseKey = store'.loadFull z rec.baseKey := by
    unfold PageStore.loadFull
    rw [h.exact]
    simp only [hdec]
  unfold PageStore.resolveUncached
  rw [hdec, hblob, hfull]

theorem SameStore.loadPage {store store' : PageStore} (h : SameStore store store') (pa : UInt64) (s : UInt32) :
    store.loadPage z pa s = store'.loadPage z pa s := by
  unfold PageStore.loadPage
  rw [h.floor]
  simp only [h.resolve]

/-- A single page of the index path is what `load_page` gives. -/
theorem loadBtreePage_eq {store : PageStore} {off : UInt64} {s : UInt32} {i : ℕ} (hoff : off.toNat + i < 2 ^ 64)
    (hs : s ≤ maxSnapshotId) : loadBtreePage z store off s i = store.loadPage z (off + UInt64.ofNat i) s := by
  unfold loadBtreePage PageStore.loadPage
  rw [if_neg (by omega), if_neg (UInt32.not_lt.2 hs)]

/-- A single page of the scan path is what `load_page` gives. -/
theorem loadScanPage_eq {m : UInt32} {body : Bytes} {records : List ChunkRecord}
    (hheader : readAndVerifyHeader log magicLog = .ok (m, body)) (hscan : ChunkRecord.scan body = .ok records)
    {off : UInt64} {total : ℕ} {s : UInt32} (hoff : off.toNat + total < 2 ^ 64) (hs : s ≤ maxSnapshotId) {i : ℕ}
    (hi : i < total) :
    loadScanPage z ⟨.appendOnly log, blobs⟩ (scanLatest off total s records) i =
      PageStore.loadPage z ⟨.appendOnly log, blobs⟩ (off + UInt64.ofNat i) s := by
  have hbuild := lazyIndex_scan hheader hscan
  have hfloor : PageStore.floor ⟨.appendOnly log, blobs⟩ (off + UInt64.ofNat i) s =
      .ok (scanLatest off total s records i) := by
    unfold PageStore.floor
    dsimp only
    rw [hbuild, ok_bind, scanLatest_eq_floor hoff hs hi]
  unfold loadScanPage PageStore.loadPage
  rw [if_neg (UInt32.not_lt.2 hs), hfloor, ok_bind]

/-! ## The bulk loads -/

section Whole

variable {dir d : Dir} {off count : UInt64} {s : UInt32} {workers : ℕ}

/-- What single loads say a bulk load gives: whether every page is there, and the bytes,
zero where there is none. -/
def PagesLoad (z : Zstd) (dir : Dir) (off count : UInt64) (s : UInt32) (r : Bool × Bytes) : Prop :=
  ∃ pages : List (Option Page), pages.length = count.toNat ∧
    (∀ i (h : i < pages.length), Bxdb.loadPage z dir (off + UInt64.ofNat i) s = .ok pages[i]) ∧
    r = (pages.all Option.isSome, outBuffer pages)

/-- A bulk load whose pages are read one by one. -/
theorem loadAllInto_iff {load : ℕ → Res (Option Page)}
    (hall : loadAllPages z dir (count.toNat * pageSize) true off count s workers =
      loadAllWith load count.toNat (max workers 1))
    (hpage : ∀ i < count.toNat, load i = Bxdb.loadPage z dir (off + UInt64.ofNat i) s) (r : Bool × Bytes) :
    loadAllInto z dir off count s workers = .ok r ↔ WorkersFit count.toNat workers ∧ PagesLoad z dir off count s r := by
  unfold loadAllInto PagesLoad
  rw [hall, bind_eq_ok]
  constructor
  · rintro ⟨pages, hpages, hr⟩
    obtain ⟨hfit, hlen, hload⟩ := loadAllWith_iff.1 hpages
    refine ⟨hfit, pages, hlen, fun i hi => ?_, (Except.ok.inj hr).symm⟩
    rw [← hpage i (hlen ▸ hi)]
    exact hload i hi
  · rintro ⟨hfit, pages, hlen, hload, rfl⟩
    refine ⟨pages, loadAllWith_iff.2 ⟨hfit, hlen, fun i hi => ?_⟩, rfl⟩
    rw [hpage i (hlen ▸ hi)]
    exact hload i hi

theorem open_lazy (hi : dir.idx = none) (hl : dir.log = some log) (hrs : buildLazyIndex log = .ok rs) :
    PageStore.open dir = .ok ⟨.appendOnly log, dir.blobs⟩ := by
  obtain ⟨⟨m, body⟩, hheader, -⟩ := bind_eq_ok.1 hrs
  unfold PageStore.open verifyLogHeader
  rw [hi, hl]
  dsimp only
  rw [hheader]
  rfl

/-- **A bulk load of a log** loads each page on its own. -/
theorem loadAllPages_scan (hi : dir.idx = none) (hl : dir.log = some log) {m : UInt32} {body : Bytes}
    {records : List ChunkRecord} (hheader : readAndVerifyHeader log magicLog = .ok (m, body))
    (hscan : ChunkRecord.scan body = .ok records) (hoff : off.toNat + count.toNat < 2 ^ 64) (hs : s ≤ maxSnapshotId) :
    ∃ load, loadAllPages z dir (count.toNat * pageSize) true off count s workers =
        loadAllWith load count.toNat (max workers 1) ∧
      ∀ i < count.toNat, load i = Bxdb.loadPage z dir (off + UInt64.ofNat i) s := by
  have hbuild := lazyIndex_scan hheader hscan
  have hopen := open_lazy hi hl hbuild
  refine ⟨loadScanPage z ⟨.appendOnly log, dir.blobs⟩ (scanLatest off count.toNat s records), ?_, fun i hlt => ?_⟩
  · rw [loadAllPages_unfold hs rfl, hopen, ok_bind]
    dsimp only
    rw [if_neg (by omega), hheader, ok_bind]
    dsimp only
    rw [hscan, ok_bind]
  · unfold Bxdb.loadPage
    rw [loadScanPage_eq hheader hscan hoff hs hlt, hopen, ok_bind]

/-- **A load of the log into a buffer** gives what the single loads say. -/
theorem loadAllInto_log (hi : dir.idx = none) (hl : dir.log = some log) (hrs : buildLazyIndex log = .ok rs)
    (hoff : off.toNat + count.toNat < 2 ^ 64) (hs : s ≤ maxSnapshotId) (workers : ℕ) (r : Bool × Bytes) :
    loadAllInto z dir off count s workers = .ok r ↔ WorkersFit count.toNat workers ∧ PagesLoad z dir off count s r := by
  obtain ⟨⟨m, body⟩, hheader, hrest⟩ := bind_eq_ok.1 hrs
  obtain ⟨records, hscan, -⟩ := bind_eq_ok.1 hrest
  obtain ⟨load, hall, hpage⟩ := @loadAllPages_scan z log dir off count s workers hi hl m body records hheader hscan hoff hs
  exact loadAllInto_iff hall hpage r

/-- **A load of an index into a buffer** gives what the single loads say. -/
theorem loadAllInto_index {mmap : Bytes} {n : ℕ} (hopen : PageStore.open dir = .ok ⟨.btree mmap n, dir.blobs⟩)
    (hoff : off.toNat + count.toNat < 2 ^ 64) (hs : s ≤ maxSnapshotId) (workers : ℕ) (r : Bool × Bytes) :
    loadAllInto z dir off count s workers = .ok r ↔ WorkersFit count.toNat workers ∧ PagesLoad z dir off count s r := by
  have hall : loadAllPages z dir (count.toNat * pageSize) true off count s workers =
      loadAllWith (loadBtreePage z ⟨.btree mmap n, dir.blobs⟩ off s) count.toNat (max workers 1) := by
    rw [loadAllPages_unfold hs rfl, hopen, ok_bind]
  refine loadAllInto_iff hall (fun i hi => ?_) r
  unfold Bxdb.loadPage
  rw [loadBtreePage_eq (by omega) hs, hopen, ok_bind]

/-- The index made of a log that decodes. -/
theorem toBtree_lazy (hl : dir.log = some log) (hrs : buildLazyIndex log = .ok rs) :
    toBtree dir = .ok { dir with idx := some (indexFile rs) } := by
  unfold toBtree
  rw [hl]
  dsimp only
  rw [hrs, ok_bind]

/-- Single loads from a log and from the index made of it are the same. -/
theorem pagesLoad_index (hi : dir.idx = none) (hl : dir.log = some log) (hrs : buildLazyIndex log = .ok rs)
    (r : Bool × Bytes) :
    PagesLoad z dir off count s r ↔ PagesLoad z { dir with idx := some (indexFile rs) } off count s r := by
  obtain ⟨log', rs', hl', hrs', hsorted, -, -⟩ := toBtree_inv (toBtree_lazy hl hrs)
  rw [hl] at hl'
  obtain rfl := Option.some.inj hl'
  rw [hrs] at hrs'
  obtain rfl := Except.ok.inj hrs'
  have hsame : SameStore ⟨.appendOnly log, dir.blobs⟩ ⟨.btree (indexFile rs) rs.length, dir.blobs⟩ :=
    sameStore hrs hsorted (length_writeIndexHeader _)
  have hopen : PageStore.open { dir with idx := some (indexFile rs) } =
      .ok ⟨.btree (indexFile rs) rs.length, dir.blobs⟩ := open_index rfl
  have hload : ∀ pa, Bxdb.loadPage z dir pa s = Bxdb.loadPage z { dir with idx := some (indexFile rs) } pa s := by
    intro pa
    unfold Bxdb.loadPage
    rw [open_lazy hi hl hrs, hopen, ok_bind, ok_bind, hsame.loadPage]
  unfold PagesLoad
  simp only [hload]

/-- A range of 45-bit addresses can be divided among all workers that can be reserved. -/
theorem workersFit_iff (hcount : count.toNat ≤ 2 ^ 45) (hw : 1 ≤ workers) :
    WorkersFit count.toNat workers ↔ workers * workerEntrySize ≤ isizeMax := by
  unfold WorkersFit
  rw [max_eq_left hw]
  refine ⟨fun h => h.2, fun h => ⟨?_, h⟩⟩
  unfold workerEntrySize isizeMax at h
  omega

theorem not_workersFit {total : ℕ} (hw : isizeMax < workers * workerEntrySize) : ¬ WorkersFit total workers := by
  intro hfit
  have hle : workers * workerEntrySize ≤ max workers 1 * workerEntrySize := Nat.mul_le_mul_right _ (le_max_left workers 1)
  exact absurd (lt_of_lt_of_le hw (hle.trans hfit.2)) (Nat.lt_irrefl _)

/-- **The scan path and the index path agree.** For every log that decodes, with any worker
files: a bulk load of the log and one of the index made of it, with any numbers of workers
that can be reserved, both fail or both return the same flag and bytes, which are those of
the single loads. With a larger number, both fail. -/
theorem bulk_agree (hi : dir.idx = none) (hl : dir.log = some log) (hrs : buildLazyIndex log = .ok rs)
    (hoff : off.toNat + count.toNat ≤ 2 ^ 45) (hs : s ≤ maxSnapshotId) :
    ∃ d, toBtree dir = .ok d ∧
      (∀ w₁ w₂, 1 ≤ w₁ → 1 ≤ w₂ → w₁ * workerEntrySize ≤ isizeMax → w₂ * workerEntrySize ≤ isizeMax →
        (∀ r, loadAllInto z dir off count s w₁ = .ok r ↔ loadAllInto z d off count s w₂ = .ok r) ∧
        (∀ r, loadAllInto z dir off count s w₁ = .ok r ↔ PagesLoad z dir off count s r) ∧
        ∀ r, loadAllInto z d off count s w₂ = .ok r ↔ PagesLoad z d off count s r) ∧
      ∀ w, isizeMax < w * workerEntrySize → ∀ r,
        loadAllInto z dir off count s w ≠ .ok r ∧ loadAllInto z d off count s w ≠ .ok r := by
  have hcount : count.toNat ≤ 2 ^ 45 := by omega
  have hopen : PageStore.open { dir with idx := some (indexFile rs) } =
      .ok ⟨.btree (indexFile rs) rs.length, dir.blobs⟩ := open_index rfl
  have hlog := @loadAllInto_log z log rs dir off count s hi hl hrs (by omega) hs
  have hidx := @loadAllInto_index z _ off count s _ _ hopen (by omega) hs
  refine ⟨_, toBtree_lazy hl hrs, fun w₁ w₂ h₁ h₂ hw₁ hw₂ => ?_, fun w hw r => ⟨fun h => ?_, fun h => ?_⟩⟩
  · have hfit₁ := (workersFit_iff hcount h₁).2 hw₁
    have hfit₂ := (workersFit_iff hcount h₂).2 hw₂
    refine ⟨fun r => ?_, fun r => ?_, fun r => ?_⟩
    · rw [hlog, hidx, pagesLoad_index hi hl hrs]
      exact ⟨fun h => ⟨hfit₂, h.2⟩, fun h => ⟨hfit₁, h.2⟩⟩
    · rw [hlog]
      exact and_iff_right hfit₁
    · rw [hidx]
      exact and_iff_right hfit₂
  · exact absurd ((hlog w r).1 h).1 (not_workersFit hw)
  · exact absurd ((hidx w r).1 h).1 (not_workersFit hw)

end Whole

end Agree

/-- A log in which two records share a key and a Delta has no base. -/
def unevenLog : Bytes := writeLogHeader 2 ++
  encodeAll [newZero (encodeKey 0 1), newFull (encodeKey 0 1) 0 0 3, newDelta (encodeKey 1 2) 0 0 0 (encodeKey 1 1)]

theorem buildLazyIndex_uneven : buildLazyIndex unevenLog = .ok (index recordKey
    [newZero (encodeKey 0 1), newFull (encodeKey 0 1) 0 0 3, newDelta (encodeKey 1 2) 0 0 0 (encodeKey 1 1)]) := by
  refine buildLazyIndex_encode ?_ 2
  simp [newZero_plain, newFull_plain, newDelta_plain]

theorem bulk_agree_uneven : ∃ d, toBtree ⟨some unevenLog, none, fun _ => none⟩ = .ok d ∧
    ∀ r, loadAllInto Zstd.raw ⟨some unevenLog, none, fun _ => none⟩ 0 2 2 1 = .ok r ↔
      loadAllInto Zstd.raw d 0 2 2 3 = .ok r := by
  obtain ⟨d, hconv, hagree, -⟩ := @bulk_agree Zstd.raw unevenLog _ ⟨some unevenLog, none, fun _ => none⟩ 0 2 2 rfl rfl
    buildLazyIndex_uneven (by decide) (by decide)
  exact ⟨d, hconv, (hagree 1 3 (le_refl 1) (by decide) (by decide) (by decide)).1⟩

/-- **More workers than can be reserved**: one page of a log without records, with one worker
from the log and with 2⁶² from the index made of it. -/
theorem bulk_overcommitted : ∃ d r, toBtree ⟨some (writeLogHeader 0), none, fun _ => none⟩ = .ok d ∧
    loadAllInto Zstd.raw ⟨some (writeLogHeader 0), none, fun _ => none⟩ 0 1 0 1 = .ok r ∧
    ∀ r, loadAllInto Zstd.raw d 0 1 0 (2 ^ 62) ≠ .ok r := by
  have hrs : buildLazyIndex (writeLogHeader 0) = .ok [] := rfl
  have hpage : Bxdb.loadPage Zstd.raw ⟨some (writeLogHeader 0), none, fun _ => none⟩ 0 0 = .ok none := by
    unfold Bxdb.loadPage
    rw [open_lazy rfl rfl hrs, ok_bind]
    unfold PageStore.loadPage PageStore.floor
    rw [if_neg (by decide)]
    dsimp only
    rw [hrs]
    rfl
  refine ⟨_, (false, outBuffer [none]), toBtree_lazy rfl hrs, ?_, fun r h => ?_⟩
  · refine (loadAllInto_log rfl rfl hrs (by decide) (by decide) 1 _).2 ⟨by decide, [none], rfl, fun i hi => ?_, rfl⟩
    obtain rfl : i = 0 := Nat.lt_one_iff.1 hi
    exact hpage
  · obtain ⟨hfit, -⟩ := (loadAllInto_index (open_index rfl) (by decide) (by decide) _ r).1 h
    exact absurd hfit (not_workersFit (by decide))

end Bxdb
