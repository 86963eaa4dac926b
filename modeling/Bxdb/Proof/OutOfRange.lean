import Bxdb.Proof.DamagedIndex

/-!
# Bulk loads past the range of addresses

A page address has 45 bits, a request may start anywhere in 64. What a bulk load returns
is what `load_page` returns for the same addresses (`loadAllPages_each`), and a record is
found only for its own address, so no page is filled from another one. The index path
adds the page's number to the start, the scan path computes the end of the range, and
neither addition is checked.

* `bulk_in_range`: **bulk loads are right on a request exactly when its additions stay
  below 2⁶⁴**.
* `bulk_overflow`: a request of two pages at the last address fails on an empty index.
-/

namespace Bxdb

open Bytes SortedIndex ChunkRecord

/-! ## Records of a store -/

/-- The store's index or log holds this record. -/
def PageStore.Holds (store : PageStore) (rec : ChunkRecord) : Prop :=
  match store.source with
  | .btree mmap n => ∃ i, i < n ∧ readRecordAt (mmap.drop headerSize) i = .ok rec
  | .appendOnly log => ∃ rs, buildLazyIndex log = .ok rs ∧ rec ∈ rs

section

variable {z : Zstd} {dir : Dir} {store : PageStore} {pa off count : UInt64} {s : UInt32}

/-- **`floor` finds a record of the address it was asked for**, whatever the index holds. -/
theorem floor_holds {rec : ChunkRecord} (h : store.floor pa s = .ok (some rec)) :
    store.Holds rec ∧ paOf rec.key = pa := by
  unfold PageStore.floor at h
  unfold PageStore.Holds
  cases hsrc : store.source with
  | btree mmap n =>
    rw [hsrc] at h
    have hf := Except.ok.inj h
    unfold floorMmap at hf
    dsimp only at hf ⊢
    have hlo : partitionLoop (fun mid => readKeyAt (mmap.drop headerSize) mid ≤ encodeKey pa s) n 0 n ≤ n :=
      partitionLoop_le (Nat.zero_le n)
    split at hf
    · cases hf
    · rename_i h0
      split at hf
      · rename_i r hread
        split at hf
        · rename_i hpa
          obtain rfl := Option.some.inj hf
          exact ⟨⟨_, by omega, hread⟩, hpa⟩
        · cases hf
      · cases hf
  | appendOnly log =>
    rw [hsrc] at h
    obtain ⟨rs, hrs, hf⟩ := bind_eq_ok.1 h
    have hf := Except.ok.inj hf
    unfold floorSorted at hf
    split at hf
    · rename_i r hr
      split at hf
      · rename_i hpa
        obtain rfl := Option.some.inj hf
        have hsorted : KeySorted rs := buildLazyIndex_sorted hrs
        exact ⟨⟨rs, hrs, (isFloor_iff.1 ((floor?_eq_some hsorted).1 hr)).1⟩, hpa⟩
      · cases hf
    · cases hf

/-- A page that loads is the content of a record of its address. -/
theorem loadPage_holds {page : Page} (h : store.loadPage z pa s = .ok (some page)) :
    ∃ rec, store.Holds rec ∧ paOf rec.key = pa ∧ store.resolveUncached z rec = .ok page := by
  unfold PageStore.loadPage at h
  split at h
  · cases h
  · obtain ⟨found, hfound, h⟩ := bind_eq_ok.1 h
    cases found with
    | none => cases h
    | some rec =>
      obtain ⟨page', hpage, h⟩ := bind_eq_ok.1 h
      obtain rfl := Option.some.inj (Except.ok.inj h)
      exact ⟨rec, (floor_holds hfound).1, (floor_holds hfound).2, hpage⟩

/-! ## Bulk loads, page by page -/

/-- What the store of a log was opened on. -/
theorem open_log_inv {log : Bytes} (hopen : PageStore.open dir = .ok store) (hsrc : store.source = .appendOnly log) :
    store = ⟨.appendOnly log, dir.blobs⟩ ∧ ∃ m body, readAndVerifyHeader log magicLog = .ok (m, body) := by
  unfold PageStore.open at hopen
  split at hopen
  · obtain ⟨-, -, h⟩ := bind_eq_ok.1 hopen
    dsimp only at h
    split at h
    · cases h
    · obtain rfl := Except.ok.inj h
      cases hsrc
  · rename_i log' hidx hlog
    obtain ⟨_, hheader, h⟩ := bind_eq_ok.1 hopen
    obtain rfl := Except.ok.inj h
    obtain rfl := IndexSource.appendOnly.inj hsrc
    unfold verifyLogHeader at hheader
    obtain ⟨⟨m, body⟩, hread, -⟩ := bind_eq_ok.1 hheader
    exact ⟨rfl, m, body, hread⟩
  · cases hopen

/-- **A bulk load that succeeds returns what single loads return**, and added no address
past 2⁶⁴. -/
theorem loadAllPages_each {outLen workers : ℕ} {aligned : Bool} {pages : List (Option Page)}
    (hopen : PageStore.open dir = .ok store) (h : loadAllPages z dir outLen aligned off count s workers = .ok pages) :
    pages.length = count.toNat ∧ ∀ i (hi : i < pages.length),
      off.toNat + i < 2 ^ 64 ∧ store.loadPage z (off + UInt64.ofNat i) s = .ok pages[i] := by
  cases hsrc : store.source with
  | btree mmap n =>
    obtain ⟨hs, -⟩ := loadAllPages_checked h
    obtain ⟨hlen, hload⟩ := loadAllPages_btree hopen hsrc h
    refine ⟨hlen, fun i hi => ?_⟩
    have hi' := hload i hi
    by_cases hoff : off.toNat + i < 2 ^ 64
    · rw [loadBtreePage_eq hoff hs] at hi'
      exact ⟨hoff, hi'⟩
    · unfold loadBtreePage at hi'
      rw [if_pos (by omega)] at hi'
      cases hi'
  | appendOnly log =>
    obtain ⟨hs, hout, rfl⟩ := loadAllPages_checked h
    obtain ⟨rfl, m, body, hheader⟩ := open_log_inv hopen hsrc
    rw [loadAllPages_unfold hs hout, hopen, ok_bind] at h
    dsimp only at h
    split at h
    · cases h
    · rename_i hoff
      rw [hheader, ok_bind] at h
      dsimp only at h
      obtain ⟨records, hscan, h⟩ := bind_eq_ok.1 h
      obtain ⟨-, hlen, hload⟩ := loadAllWith_iff.1 h
      refine ⟨hlen, fun i hi => ⟨by omega, ?_⟩⟩
      rw [← loadScanPage_eq hheader hscan (by omega) hs (hlen ▸ hi)]
      exact hload i hi

/-! ## Requests that fit -/

/-- The largest number of workers that can be reserved. -/
def workersMax : ℕ := isizeMax / workerEntrySize

/-- The additions of a bulk load stay below 2⁶⁴: those of addresses, and that of the number
of workers to the number of pages. -/
def Fits (mode : IndexMode) (off count : UInt64) : Prop :=
  count.toNat + workersMax < 2 ^ 64 ∧
    match mode with
    | .btree => count = 0 ∨ off.toNat + count.toNat ≤ 2 ^ 64
    | .appendOnly => off.toNat + count.toNat < 2 ^ 64

/-- **What a bulk load promises of a request**, on every directory read in this mode: with
any workers that can be reserved it goes through wherever single loads do, it fills a page only from a record whose address is
the sum, and it reports pages past 45 bits as missing. -/
structure BulkRight (mode : IndexMode) (off count : UInt64) : Prop where
  goes : ∀ (z : Zstd) (dir : Dir) (store : PageStore) (s : UInt32) (workers : ℕ), workers ≤ workersMax →
    PageStore.open dir = .ok store → store.mode = mode → (∀ pa, ∃ page, store.loadPage z pa s = .ok page) →
      ∃ pages, loadAllPages z dir (count.toNat * pageSize) true off count s workers = .ok pages
  filled : ∀ (z : Zstd) (dir : Dir) (store : PageStore) (s : UInt32) (outLen workers : ℕ) (aligned : Bool)
    (pages : List (Option Page)) (i : ℕ) (page : Page), PageStore.open dir = .ok store → store.mode = mode →
      loadAllPages z dir outLen aligned off count s workers = .ok pages → pages[i]? = some (some page) →
        ∃ rec, store.Holds rec ∧ (paOf rec.key).toNat = off.toNat + i ∧ store.resolveUncached z rec = .ok page
  missing : ∀ (z : Zstd) (dir : Dir) (store : PageStore) (s : UInt32) (outLen workers : ℕ) (aligned : Bool)
    (pages : List (Option Page)) (i : ℕ), PageStore.open dir = .ok store → store.mode = mode →
      loadAllPages z dir outLen aligned off count s workers = .ok pages → i < count.toNat →
        2 ^ 45 ≤ off.toNat + i → pages[i]? = some none

/-- No bulk load fills a page from a record of another address. -/
theorem loadAllPages_filled {outLen workers : ℕ} {aligned : Bool} {pages : List (Option Page)} {i : ℕ} {page : Page}
    (hopen : PageStore.open dir = .ok store) (h : loadAllPages z dir outLen aligned off count s workers = .ok pages)
    (hpage : pages[i]? = some (some page)) :
    ∃ rec, store.Holds rec ∧ (paOf rec.key).toNat = off.toNat + i ∧ store.resolveUncached z rec = .ok page := by
  obtain ⟨hi, hget⟩ := List.getElem?_eq_some_iff.1 hpage
  obtain ⟨hoff, hload⟩ := (loadAllPages_each hopen h).2 i hi
  rw [hget] at hload
  obtain ⟨rec, hrec, hpa, hres⟩ := loadPage_holds hload
  exact ⟨rec, hrec, by rw [hpa, toNat_add_ofNat hoff], hres⟩

/-- Pages past the 45 bits of an address have no record. -/
theorem loadAllPages_missing {outLen workers : ℕ} {aligned : Bool} {pages : List (Option Page)} {i : ℕ}
    (hopen : PageStore.open dir = .ok store) (h : loadAllPages z dir outLen aligned off count s workers = .ok pages)
    (hi : i < count.toNat) (hoff : 2 ^ 45 ≤ off.toNat + i) : pages[i]? = some none := by
  have hi' : i < pages.length := (loadAllPages_each hopen h).1 ▸ hi
  rw [List.getElem?_eq_getElem hi']
  cases hp : pages[i] with
  | none => rfl
  | some page =>
    obtain ⟨rec, -, hpa, -⟩ := loadAllPages_filled hopen h (List.getElem?_eq_some_iff.2 ⟨hi', hp⟩)
    have := paOf_lt rec.key
    omega

/-- A request that fits goes through when every single load does. -/
theorem loadAllPages_goes {workers : ℕ} (hw : workers ≤ workersMax) (hopen : PageStore.open dir = .ok store)
    (hfits : Fits store.mode off count)
    (hload : ∀ pa, ∃ page, store.loadPage z pa s = .ok page) :
    ∃ pages, loadAllPages z dir (count.toNat * pageSize) true off count s workers = .ok pages := by
  have hfit : WorkersFit count.toNat workers := by
    have hentries : max workers 1 ≤ workersMax := max_le hw (by decide)
    refine ⟨lt_of_le_of_lt (Nat.add_le_add_left hentries _) hfits.1, ?_⟩
    exact (Nat.mul_le_mul_right _ hentries).trans (by decide)
  replace hfits := hfits.2
  choose page hpage using hload
  have hs : s ≤ maxSnapshotId := by
    have h0 := hpage 0
    unfold PageStore.loadPage at h0
    split at h0
    · cases h0
    · rename_i hs
      exact UInt32.not_lt.1 hs
  refine ⟨(List.range count.toNat).map fun i => page (off + UInt64.ofNat i), ?_⟩
  rw [loadAllPages_unfold hs rfl, hopen, ok_bind]
  unfold PageStore.mode at hfits
  cases hsrc : store.source with
  | btree mmap n =>
    rw [hsrc] at hfits
    refine loadAllWith_ok hfit fun i hi => ?_
    have hoff : off.toNat + i < 2 ^ 64 := by
      rcases hfits with rfl | hfits
      · exact absurd hi (Nat.not_lt_zero i)
      · omega
    rw [loadBtreePage_eq hoff hs, hpage]
  | appendOnly log =>
    rw [hsrc] at hfits
    have hoff : off.toNat + count.toNat < 2 ^ 64 := hfits
    obtain ⟨rfl, m, body, hheader⟩ := open_log_inv hopen hsrc
    -- a single load has scanned the whole log
    obtain ⟨records, hscan⟩ : ∃ records, ChunkRecord.scan body = .ok records := by
      have h0 := hpage 0
      unfold PageStore.loadPage at h0
      rw [if_neg (UInt32.not_lt.2 hs)] at h0
      obtain ⟨found, hfound, -⟩ := bind_eq_ok.1 h0
      obtain ⟨rs, hrs, -⟩ := bind_eq_ok.1 hfound
      unfold buildLazyIndex at hrs
      rw [hheader, ok_bind] at hrs
      obtain ⟨records, hscan, -⟩ := bind_eq_ok.1 hrs
      exact ⟨records, hscan⟩
    dsimp only
    rw [if_neg (by omega), hheader, ok_bind]
    dsimp only
    rw [hscan, ok_bind]
    refine loadAllWith_ok hfit fun i hi => ?_
    rw [loadScanPage_eq hheader hscan hoff hs hi, hpage]

/-! ## Requests that do not fit -/

/-- A database without records, read from its index. -/
def blankIndex : Dir := ⟨none, some (indexFile []), fun _ => none⟩

/-- A database without records, read from its log. -/
def blankLog : Dir := ⟨some (writeLogHeader 0), none, fun _ => none⟩

theorem open_blankIndex : PageStore.open blankIndex = .ok ⟨.btree (indexFile []) 0, fun _ => none⟩ := rfl

theorem open_blankLog : PageStore.open blankLog = .ok ⟨.appendOnly (writeLogHeader 0), fun _ => none⟩ := rfl

theorem loadPage_blankIndex (z : Zstd) (pa : UInt64) :
    PageStore.loadPage z ⟨.btree (indexFile []) 0, fun _ => none⟩ pa 0 = .ok none := rfl

theorem loadPage_blankLog (z : Zstd) (pa : UInt64) :
    PageStore.loadPage z ⟨.appendOnly (writeLogHeader 0), fun _ => none⟩ pa 0 = .ok none := by
  have hrs : buildLazyIndex (writeLogHeader 0) = .ok [] := rfl
  unfold PageStore.loadPage PageStore.floor
  rw [if_neg (by decide)]
  dsimp only
  rw [hrs]
  rfl

/-- A right request leaves room for the largest number of workers. -/
theorem BulkRight.room {mode : IndexMode} (h : BulkRight mode off count) : count.toNat + workersMax < 2 ^ 64 := by
  have hpos : max workersMax 1 = workersMax := max_eq_left (by decide)
  cases mode with
  | btree =>
    obtain ⟨pages, hload⟩ := h.goes Zstd.raw blankIndex _ 0 workersMax (le_refl _) open_blankIndex rfl
      fun pa => ⟨none, loadPage_blankIndex Zstd.raw pa⟩
    rw [loadAllPages_unfold (by decide) rfl, open_blankIndex, ok_bind] at hload
    have hfit := (loadAllWith_iff.1 hload).1.1
    rwa [hpos] at hfit
  | appendOnly =>
    obtain ⟨pages, hload⟩ := h.goes Zstd.raw blankLog _ 0 workersMax (le_refl _) open_blankLog rfl
      fun pa => ⟨none, loadPage_blankLog Zstd.raw pa⟩
    rw [loadAllPages_unfold (by decide) rfl, open_blankLog, ok_bind] at hload
    dsimp only at hload
    split at hload
    · cases hload
    · obtain ⟨_, -, hload⟩ := bind_eq_ok.1 hload
      obtain ⟨records, -, hload⟩ := bind_eq_ok.1 hload
      have hfit := (loadAllWith_iff.1 hload).1.1
      rwa [hpos] at hfit

/-- **Bulk loads are right on a request exactly when its additions stay below 2⁶⁴**: on
the index path the addresses themselves, on the scan path the end of the range, and on both
the number of pages with that of the workers. -/
theorem bulk_in_range (mode : IndexMode) (off count : UInt64) : BulkRight mode off count ↔ Fits mode off count := by
  constructor
  · intro hright
    refine ⟨hright.room, ?_⟩
    cases mode with
    | btree =>
      obtain ⟨pages, h⟩ := hright.goes Zstd.raw blankIndex _ 0 1 (by decide) open_blankIndex rfl
        fun pa => ⟨none, loadPage_blankIndex Zstd.raw pa⟩
      obtain ⟨hlen, heach⟩ := loadAllPages_each open_blankIndex h
      by_cases h0 : count = 0
      · exact .inl h0
      · have hpos : count.toNat ≠ 0 := fun hc => h0 (UInt64.toNat_inj.1 hc)
        -- the last page is the one whose address is largest
        have hlast := (heach (count.toNat - 1) (by omega)).1
        exact .inr (by omega)
    | appendOnly =>
      obtain ⟨pages, h⟩ := hright.goes Zstd.raw blankLog _ 0 1 (by decide) open_blankLog rfl
        fun pa => ⟨none, loadPage_blankLog Zstd.raw pa⟩
      rw [loadAllPages_unfold (by decide) rfl, open_blankLog, ok_bind] at h
      dsimp only at h
      split at h
      · cases h
      · rename_i hoff
        exact not_le.1 hoff
  · intro hfits
    refine ⟨fun z dir store s workers hw hopen hmode hload => ?_,
      fun z dir store s outLen workers aligned pages i page hopen _ h hp => ?_,
      fun z dir store s outLen workers aligned pages i hopen _ h hi hoff => ?_⟩
    · subst hmode
      exact loadAllPages_goes hw hopen hfits hload
    · exact loadAllPages_filled hopen h hp
    · exact loadAllPages_missing hopen h hi hoff

/-- **A request past the last address**: two pages from the last one on, of an index. -/
theorem bulk_overflow : ¬ ∀ (mode : IndexMode) (off count : UInt64), 2 ^ 45 < off.toNat + count.toNat →
    BulkRight mode off count := by
  intro hall
  have hright := hall .btree 0xFFFFFFFFFFFFFFFF 2 (by decide)
  obtain ⟨pages, h⟩ := hright.goes Zstd.raw blankIndex _ 0 1 (by decide) open_blankIndex rfl
    fun pa => ⟨none, loadPage_blankIndex Zstd.raw pa⟩
  obtain ⟨hlen, heach⟩ := loadAllPages_each open_blankIndex h
  have hoff := (heach 1 (by rw [hlen]; decide)).1
  exact absurd hoff (by decide)

end

end Bxdb
