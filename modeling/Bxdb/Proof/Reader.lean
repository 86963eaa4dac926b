import Bxdb.Spec.Reader
import Bxdb.Proof.History

/-!
# What an open reader looks records up in

An open reader answers like a store: over the mapped index, or over any log that its lazy
index could have been built from (`Views`).

* `Views.loadPage`: **the reader and the store it views load the same page.**
* `reader_static`: on a directory that does not change, an open reader loads what a store
  opened for each load does, first time and later.
* `loadPage_grow`: **fewer blob bytes make a load fail, never change its answer.**
-/

namespace Bxdb

open Bytes SortedIndex Versioned ChunkRecord

/-! ## Readers and stores -/

/-- The stores a reader over these blob files may answer like: the slot of the lazy index
leaves it open as long as it is empty. -/
structure Views (r : Reader) (blobs : UInt8 → Option Bytes) (store : PageStore) : Prop where
  blobs : store.blobs = blobs
  btree : ∀ mmap n, r.source = .btree mmap n → store.source = .btree mmap n
  lazy : ∀ idx, r.source = .appendOnly (some idx) → ∃ log, store.source = .appendOnly log ∧ buildLazyIndex log = .ok idx

section View

variable {z : Zstd} {r : Reader} {dir : Dir} {store : PageStore} {blobs : UInt8 → Option Bytes}

theorem views_btree {mmap : Bytes} {n : ℕ} (hs : r.source = .btree mmap n) (blobs : UInt8 → Option Bytes) :
    Views r blobs ⟨.btree mmap n, blobs⟩ where
  blobs := rfl
  btree mmap' n' h := by
    obtain ⟨rfl, rfl⟩ := ReaderSource.btree.inj (hs.symm.trans h)
    rfl
  lazy idx h := by
    rw [hs] at h
    cases h

theorem views_lazy {idx : List ChunkRecord} {log : Bytes} (hs : r.source = .appendOnly (some idx))
    (hb : buildLazyIndex log = .ok idx) (blobs : UInt8 → Option Bytes) : Views r blobs ⟨.appendOnly log, blobs⟩ where
  blobs := rfl
  btree mmap n h := by
    rw [hs] at h
    cases h
  lazy idx' h := by
    obtain rfl : idx = idx' := Option.some.inj (ReaderSource.appendOnly.inj (hs.symm.trans h))
    exact ⟨log, rfl, hb⟩

/-- An empty slot leaves it open which store the reader views. -/
theorem views_empty (hs : r.source = .appendOnly none) (h : store.blobs = blobs) : Views r blobs store where
  blobs := h
  btree mmap n h := by
    rw [hs] at h
    cases h
  lazy idx h := by
    rw [hs] at h
    cases h

theorem Views.floor_btree (h : Views r blobs store) {mmap : Bytes} {n : ℕ} (hs : r.source = .btree mmap n)
    (pa : UInt64) (s : UInt32) : r.floor dir pa s = (r, store.floor pa s) := by
  unfold Reader.floor PageStore.floor
  rw [hs, h.btree mmap n hs]

theorem Views.floor_lazy (h : Views r blobs store) {idx : List ChunkRecord} (hs : r.source = .appendOnly (some idx))
    (pa : UInt64) (s : UInt32) : r.floor dir pa s = (r, store.floor pa s) := by
  obtain ⟨log, hlog, hbuild⟩ := h.lazy idx hs
  unfold Reader.floor PageStore.floor
  rw [hs, hlog]
  simp only [ensureLazyIndex, hbuild, ok_bind, ← hs]

theorem Views.exact_btree (h : Views r blobs store) {mmap : Bytes} {n : ℕ} (hs : r.source = .btree mmap n)
    (key : UInt64) : r.exactLookup dir key = (r, store.exactLookup key) := by
  unfold Reader.exactLookup PageStore.exactLookup
  rw [hs, h.btree mmap n hs]

theorem Views.exact_lazy (h : Views r blobs store) {idx : List ChunkRecord} (hs : r.source = .appendOnly (some idx))
    (key : UInt64) : r.exactLookup dir key = (r, store.exactLookup key) := by
  obtain ⟨log, hlog, hbuild⟩ := h.lazy idx hs
  unfold Reader.exactLookup PageStore.exactLookup
  rw [hs, hlog]
  simp only [ensureLazyIndex, hbuild, ok_bind, ← hs]

/-- The reader has its index. -/
def Reader.Ready (r : Reader) : Prop := r.source ≠ .appendOnly none

theorem Views.floor (h : Views r blobs store) (hready : r.Ready) (pa : UInt64) (s : UInt32) :
    r.floor dir pa s = (r, store.floor pa s) := by
  cases hs : r.source with
  | btree mmap n => exact h.floor_btree hs pa s
  | appendOnly slot =>
    cases slot with
    | none => exact absurd hs hready
    | some idx => exact h.floor_lazy hs pa s

theorem Views.exactLookup (h : Views r blobs store) (hready : r.Ready) (key : UInt64) :
    r.exactLookup dir key = (r, store.exactLookup key) := by
  cases hs : r.source with
  | btree mmap n => exact h.exact_btree hs key
  | appendOnly slot =>
    cases slot with
    | none => exact absurd hs hready
    | some idx => exact h.exact_lazy hs key

/-- Reading a blob takes the blob files alone. -/
theorem decompressBlobInto_congr {store' : PageStore} (h : store.blobs = store'.blobs) (rec : ChunkRecord) :
    store.decompressBlobInto z rec = store'.decompressBlobInto z rec := by
  unfold PageStore.decompressBlobInto PageStore.blobMmap
  rw [h]

theorem deltaBlob_congr {store' : PageStore} (h : store.blobs = store'.blobs) (rec : ChunkRecord) :
    store.deltaBlob rec = store'.deltaBlob rec := by
  unfold PageStore.deltaBlob PageStore.blobMmap
  rw [h]

theorem Views.loadFull (h : Views r (r.blobs dir) store) (hready : r.Ready) (key : UInt64) :
    r.loadFull z dir key = (r, store.loadFull z key) := by
  unfold Reader.loadFull PageStore.loadFull
  rw [h.exactLookup hready key]
  cases hl : store.exactLookup key with
  | error e => rfl
  | ok found =>
    rw [ok_bind]
    cases found with
    | none => rfl
    | some rec =>
      dsimp only
      split
      · rfl
      · rw [decompressBlobInto_congr (show (r.blobReaders dir).blobs = store.blobs from h.blobs.symm)]

theorem Views.resolve (h : Views r (r.blobs dir) store) (hready : r.Ready) (rec : ChunkRecord) :
    r.resolve z dir rec = (r, store.resolveUncached z rec) := by
  have hblobs : (r.blobReaders dir).blobs = store.blobs := h.blobs.symm
  unfold Reader.resolve PageStore.resolveUncached
  cases rec.kind with
  | zero => rfl
  | full => rw [decompressBlobInto_congr hblobs]
  | delta =>
    dsimp only
    rw [h.loadFull hready]
    simp only [deltaBlob_congr hblobs]

/-- **A reader with its index answers like the store it views.** -/
theorem Views.loadPage (h : Views r (r.blobs dir) store) (hready : r.Ready) (pa : UInt64) (s : UInt32) :
    r.loadPage z dir pa s = (r, store.loadPage z pa s) := by
  unfold Reader.loadPage PageStore.loadPage
  split
  · rfl
  · rw [h.floor hready pa s]
    cases hf : store.floor pa s with
    | error e => rfl
    | ok found =>
      rw [ok_bind]
      cases found with
      | none => rfl
      | some rec =>
        dsimp only
        rw [h.resolve hready rec]

/-- The reader once its slot is filled. -/
def Reader.filled (r : Reader) (idx : List ChunkRecord) : Reader := { r with source := .appendOnly (some idx) }

/-- **The first look-up builds the index**, and answers like those after it. -/
theorem Reader.loadPage_first (hs : r.source = .appendOnly none) {idx : List ChunkRecord} (hb : readLogIndex dir = .ok idx)
    (pa : UInt64) {s : UInt32} (hmax : s ≤ maxSnapshotId) :
    r.loadPage z dir pa s = (r.filled idx).loadPage z dir pa s := by
  have hfloor : r.floor dir pa s = (r.filled idx).floor dir pa s := by
    unfold Reader.floor Reader.filled
    rw [hs]
    simp only [ensureLazyIndex, hb, getOrInit, Option.getD_none]
  unfold Reader.loadPage
  rw [if_neg (UInt32.not_lt.2 hmax), if_neg (UInt32.not_lt.2 hmax), hfloor]

/-- A snapshot id that is too large is refused before any look-up. -/
theorem Reader.loadPage_refused (pa : UInt64) {s : UInt32} (hmax : maxSnapshotId < s) :
    r.loadPage z dir pa s = (r, store.loadPage z pa s) := by
  unfold Reader.loadPage PageStore.loadPage
  rw [if_pos hmax, if_pos hmax]

end View

/-! ## Files that do not change -/

section Static

variable {z : Zstd} {r : Reader} {dir : Dir} {store : PageStore}

/-- A reader of the files it was opened on, its index built or not. -/
structure Opened (dir : Dir) (store : PageStore) (r : Reader) : Prop where
  opened : PageStore.open dir = .ok store
  mapped : r.mapped = fun w => (dir.blobs w).map List.length
  views : Views r dir.blobs store
  unbuilt : r.source = .appendOnly none → ∃ log, dir.log = some log ∧ store.source = .appendOnly log

/-- A mapping of a file that did not change shows all of it. -/
theorem Reader.blobs_self (h : r.mapped = fun w => (dir.blobs w).map List.length) : r.blobs dir = dir.blobs := by
  funext w
  unfold Reader.blobs
  rw [h]
  dsimp only
  cases dir.blobs w with
  | none => rfl
  | some bs => rw [Option.map_some, Option.map_some, Option.getD_some, List.take_length]

theorem open_blobs (h : PageStore.open dir = .ok store) : store.blobs = dir.blobs := by
  unfold PageStore.open at h
  split at h
  · obtain ⟨-, -, h⟩ := bind_eq_ok.1 h
    dsimp only at h
    split at h
    · cases h
    · rw [← Except.ok.inj h]
  · obtain ⟨-, -, h⟩ := bind_eq_ok.1 h
    rw [← Except.ok.inj h]
  · cases h

/-- A store over a log was opened on it. -/
theorem open_appendOnly {log : Bytes} (h : PageStore.open dir = .ok store) (hs : store.source = .appendOnly log) :
    dir.log = some log := by
  unfold PageStore.open at h
  split at h
  · obtain ⟨-, -, h⟩ := bind_eq_ok.1 h
    dsimp only at h
    split at h
    · cases h
    · rw [← Except.ok.inj h] at hs
      cases hs
  · rename_i hl
    obtain ⟨-, -, h⟩ := bind_eq_ok.1 h
    rw [← Except.ok.inj h] at hs
    rw [hl, IndexSource.appendOnly.inj hs]
  · cases h

/-- **An opened reader views the store of its directory.** -/
theorem Reader.open_inv (h : Reader.open dir = .ok r) : ∃ store, Opened dir store r := by
  unfold Reader.open at h
  obtain ⟨store, hstore, h⟩ := bind_eq_ok.1 h
  obtain rfl := Except.ok.inj h
  refine ⟨store, hstore, rfl, ⟨open_blobs hstore, fun mmap n hs => ?_, fun idx hs => ?_⟩, fun hs => ?_⟩
  · cases hsrc : store.source with
    | btree mmap' n' =>
      rw [hsrc] at hs
      obtain ⟨rfl, rfl⟩ := ReaderSource.btree.inj hs
      rfl
    | appendOnly log => rw [hsrc] at hs; cases hs
  · cases hsrc : store.source with
    | btree mmap' n' => rw [hsrc] at hs; cases hs
    | appendOnly log => rw [hsrc] at hs; cases hs
  · cases hsrc : store.source with
    | btree mmap' n' => rw [hsrc] at hs; cases hs
    | appendOnly log => exact ⟨log, open_appendOnly hstore hsrc, rfl⟩

/-- An opened reader has built no index. -/
theorem Reader.open_unfilled (h : Reader.open dir = .ok r) (idx : List ChunkRecord) :
    r.source ≠ .appendOnly (some idx) := by
  unfold Reader.open at h
  obtain ⟨store, -, h⟩ := bind_eq_ok.1 h
  obtain rfl := Except.ok.inj h
  dsimp only
  cases store.source with
  | btree mmap n => simp
  | appendOnly log => simp

/-- **One load** leaves the reader as it was opened, or with its index built. -/
theorem Opened.loadPage (h : Opened dir store r) (pa : UInt64) (s : UInt32) :
    ∃ r', r.loadPage z dir pa s = (r', store.loadPage z pa s) ∧ Opened dir store r' := by
  have hblobs := Reader.blobs_self h.mapped
  by_cases hmax : maxSnapshotId < s
  · exact ⟨r, Reader.loadPage_refused pa hmax, h⟩
  by_cases hready : r.Ready
  · exact ⟨r, Views.loadPage (by rw [hblobs]; exact h.views) hready pa s, h⟩
  · have hnone : r.source = .appendOnly none := not_not.1 hready
    obtain ⟨log, hlog, hsrc⟩ := h.unbuilt hnone
    cases hb : buildLazyIndex log with
    | error e =>
      -- the index cannot be built, now or later
      have hread : readLogIndex dir = .error e := by unfold readLogIndex; rw [hlog]; exact hb
      refine ⟨r, ?_, h⟩
      unfold Reader.loadPage Reader.floor PageStore.loadPage PageStore.floor
      rw [if_neg hmax, if_neg hmax, hnone, hsrc]
      simp only [ensureLazyIndex, hread, hb]
      rw [← hnone]
      rfl
    | ok idx =>
      have hread : readLogIndex dir = .ok idx := by unfold readLogIndex; rw [hlog]; exact hb
      have hfilled : Opened dir store (r.filled idx) :=
        ⟨h.opened, h.mapped, ⟨h.views.blobs, by simp [Reader.filled], fun idx' hs => by
          obtain rfl : idx = idx' := by simpa [Reader.filled] using hs
          exact ⟨log, hsrc, hb⟩⟩, by simp [Reader.filled]⟩
      refine ⟨r.filled idx, ?_, hfilled⟩
      rw [Reader.loadPage_first hnone hread pa (UInt32.not_lt.1 hmax)]
      refine Views.loadPage ?_ (by simp [Reader.Ready, Reader.filled]) pa s
      rw [Reader.blobs_self hfilled.mapped]
      exact hfilled.views

/-- **On files that do not change an open reader loads what a reader opened for each load
does**, whatever the files hold: when the index is built cannot be told. -/
theorem reader_static (h : Reader.open dir = .ok r) (queries : List (UInt64 × UInt32)) :
    (r.loadPages z dir queries).2 = queries.map fun q => Bxdb.loadPage z dir q.1 q.2 := by
  obtain ⟨store, hopened⟩ := Reader.open_inv h
  clear h
  induction queries generalizing r with
  | nil => rfl
  | cons q queries ih =>
    obtain ⟨pa, s⟩ := q
    obtain ⟨r', hload, hopened'⟩ := hopened.loadPage (z := z) pa s
    have hpage : Bxdb.loadPage z dir pa s = store.loadPage z pa s := by
      unfold Bxdb.loadPage
      rw [hopened.opened, ok_bind]
    unfold Reader.loadPages
    rw [hload, List.map_cons, hpage]
    dsimp only
    rw [ih hopened']

end Static

/-! ## A Delta and its base, loaded again and again -/

/-- The patch that makes the second page of the first one. -/
def patchBlob : Bytes := encodeDeltaPatch (computeXorPatch (noise 2) (noise 1))

/-- A Full record in snapshot 1. -/
def patchBase : Version := ⟨newFull (encodeKey 0 1) 0 0 4106, noise 1⟩

/-- In snapshot 4 a Delta against it. -/
def patchedVersions : List Version :=
  [patchBase, ⟨newDelta (encodeKey 0 4) 1 0 (UInt32.ofNat patchBlob.length) (encodeKey 0 1), noise 2⟩]

/-- Their log, with a worker file for each. -/
def patchedDir : Dir where
  log := some (writeLogHeader 4 ++ encodeAll (chunks patchedVersions))
  idx := none
  blobs w := if w = 0 then some (Zstd.raw.compress (noise 1)) else if w = 1 then some patchBlob else none

theorem length_patchBlob : patchBlob.length ≤ 5120 := by
  have hlen := length_computeXorPatch (noise 2) (noise 1)
  have hwords : pageWords = 512 := rfl
  unfold patchBlob
  rw [length_encodeDeltaPatch]
  omega

theorem patched_stored : ∀ v ∈ patchedVersions, Stored Zstd.raw patchedVersions patchedDir.blobs v := by
  intro v hv
  rcases List.mem_cons.1 hv with rfl | hv
  · exact .full (rfl : patchedDir.blobs 0 = _) (.whole (Zstd.raw_length (noise 1)).symm)
  · rw [List.mem_singleton.1 hv]
    have hlen : (UInt32.ofNat patchBlob.length).toNat = patchBlob.length := UInt32.toNat_ofNat_of_lt' (by
      have := length_patchBlob
      rw [UInt32.size]
      omega)
    exact .delta (List.mem_cons_self : patchBase ∈ patchedVersions) rfl (by decide) (by decide)
      (rfl : patchedDir.blobs 1 = _) (.whole hlen)

theorem patched_formOk : FormOk Zstd.raw patchedVersions patchedDir where
  ordered := List.pairwise_pair.2 (.inl (by decide))
  log bytes hb := by
    refine ⟨4, (Option.some.inj hb).symm, fun v hv => ?_, by decide⟩
    rcases List.mem_cons.1 hv with rfl | hv
    · exact (by decide : (snapshotOf (encodeKey 0 1)).toNat ≤ 4)
    · rw [List.mem_singleton.1 hv]
      exact (by decide : (snapshotOf (encodeKey 0 4)).toNat ≤ 4)
  idx bytes hb := by cases hb
  present := .inl (by simp [patchedDir])
  stored := patched_stored
  small w bs hb := by
    have hmax : (5120 : ℕ) ≤ maxFileLen := by decide
    change (if w = 0 then some (Zstd.raw.compress (noise 1)) else if w = 1 then some patchBlob else none) = some bs at hb
    split at hb
    · rw [← Option.some.inj hb, Zstd.raw_length]
      exact le_trans (by decide) hmax
    · split at hb
      · rw [← Option.some.inj hb]
        exact length_patchBlob.trans hmax
      · cases hb

/-- Its pages, by the snapshot asked for. -/
theorem patched_loadPage : loadPage Zstd.raw patchedDir 0 0 = .ok none ∧
    loadPage Zstd.raw patchedDir 0 3 = .ok (some (noise 1)) ∧ loadPage Zstd.raw patchedDir 0 4 = .ok (some (noise 2)) := by
  have hfun : Functional (pagesOf patchedVersions) := pagesOf_functional patched_formOk.ordered.distinct
  -- the Full record and the Delta on it
  have hpages : ∀ {t p}, pagesOf patchedVersions 0 t p ↔ t = 1 ∧ p = noise 1 ∨ t = 4 ∧ p = noise 2 := by
    intro t p
    constructor
    · rintro ⟨v, ⟨hv, -, rfl⟩, rfl⟩
      rcases List.mem_cons.1 hv with rfl | hv
      · exact .inl ⟨by decide, rfl⟩
      · rw [List.mem_singleton.1 hv]
        exact .inr ⟨(by decide : (snapshotOf (encodeKey 0 4)).toNat = 4), rfl⟩
    · rintro (⟨rfl, rfl⟩ | ⟨rfl, rfl⟩)
      · exact ⟨patchBase, ⟨List.mem_cons_self, by decide, by decide⟩, rfl⟩
      · exact ⟨_, ⟨List.mem_cons_of_mem _ List.mem_cons_self, (by decide : paOf (encodeKey 0 4) = 0),
          (by decide : (snapshotOf (encodeKey 0 4)).toNat = 4)⟩, rfl⟩
  have hload : ∀ {s : UInt32} {p : Option Page}, s ≤ maxSnapshotId → AsOf (pagesOf patchedVersions) 0 s.toNat p →
      loadPage Zstd.raw patchedDir 0 s = .ok p := by
    intro s p hs hp
    obtain ⟨r, hr, hasOf⟩ := patched_formOk.load Zstd.raw_roundTrip 0 hs
    rw [hr, hasOf.unique hfun hp]
  refine ⟨hload (by decide) (asOf_none.2 fun t p hp hle => ?_),
    hload (by decide) (asOf_some.2 ⟨1, hpages.2 (.inl ⟨rfl, rfl⟩), by decide, fun t p hp hle => ?_⟩),
    hload (by decide) (asOf_some.2 ⟨4, hpages.2 (.inr ⟨rfl, rfl⟩), by decide, fun t p hp hle => hle⟩)⟩
  · rcases hpages.1 hp with ⟨rfl, -⟩ | ⟨rfl, -⟩
    · exact absurd hle (by decide)
    · exact absurd hle (by decide)
  · rcases hpages.1 hp with ⟨rfl, -⟩ | ⟨rfl, -⟩
    · exact le_refl 1
    · exact absurd hle (by decide)

/-- The index is built by the first load; later loads, of the Delta as of its base, use it again. -/
theorem reader_static_patched : ∃ r, Reader.open patchedDir = .ok r ∧
    (r.loadPages Zstd.raw patchedDir [(0, 4), (0, 3), (0, 0), (0, 4), (0, 524288)]).2 =
      [.ok (some (noise 2)), .ok (some (noise 1)), .ok none, .ok (some (noise 2)),
        ioErr .invalidInput "snapshot_id exceeds 19-bit range"] := by
  obtain ⟨h0, h3, h4⟩ := patched_loadPage
  have hopen : PageStore.open patchedDir = _ := open_log rfl rfl
  have hr : Reader.open patchedDir = .ok ⟨.appendOnly none, fun w => (patchedDir.blobs w).map List.length⟩ := by
    unfold Reader.open
    rw [hopen]
    rfl
  have hlarge : loadPage Zstd.raw patchedDir 0 524288 = ioErr .invalidInput "snapshot_id exceeds 19-bit range" := by
    unfold Bxdb.loadPage
    rw [hopen, ok_bind]
    unfold PageStore.loadPage
    exact if_pos (by decide)
  refine ⟨_, hr, ?_⟩
  rw [reader_static hr]
  simp only [List.map_cons, List.map_nil, h0, h3, h4, hlarge]

/-! ## Fewer bytes -/

section Grow

variable {z : Zstd} {source : IndexSource} {blobs blobs' : UInt8 → Option Bytes}

/-- A range that can be read stays as it is while the file grows. -/
theorem range?_of_isPrefix {bs bs' d : Bytes} {a b : ℕ} (hp : bs <+: bs') (h : range? bs a b = some d) :
    range? bs' a b = some d := by
  unfold range? at h ⊢
  split at h
  · rename_i hab
    rw [if_pos ⟨hab.1, hab.2.trans hp.length_le⟩, slice_of_isPrefix hp hab.2]
    exact h
  · cases h

theorem blobMmap_grow (hg : BlobsGrow blobs blobs') {w : UInt8} {bs : Bytes}
    (h : PageStore.blobMmap ⟨source, blobs⟩ w = .ok bs) :
    ∃ bs', PageStore.blobMmap ⟨source, blobs'⟩ w = .ok bs' ∧ bs <+: bs' := by
  unfold PageStore.blobMmap at h ⊢
  dsimp only at h ⊢
  cases hb : blobs w with
  | none => rw [hb] at h; cases h
  | some bytes =>
    rw [hb] at h
    obtain rfl := Except.ok.inj h
    obtain ⟨bs', hb', hp⟩ := hg w bytes hb
    exact ⟨bs', by rw [hb'], hp⟩

theorem decompressBlobInto_grow (hg : BlobsGrow blobs blobs') {rec : ChunkRecord} {page : Page}
    (h : PageStore.decompressBlobInto z ⟨source, blobs⟩ rec = .ok page) :
    PageStore.decompressBlobInto z ⟨source, blobs'⟩ rec = .ok page := by
  unfold PageStore.decompressBlobInto at h ⊢
  obtain ⟨bs, hb, h⟩ := bind_eq_ok.1 h
  obtain ⟨bs', hb', hp⟩ := blobMmap_grow hg hb
  rw [hb', ok_bind]
  dsimp only at h ⊢
  split at h
  · cases h
  · rename_i hlt
    rw [if_neg hlt]
    cases hr : range? bs rec.offset.toNat (rec.offset.toNat + rec.len.toNat) with
    | none => rw [hr] at h; cases h
    | some blob =>
      rw [hr] at h
      rw [range?_of_isPrefix hp hr]
      exact h

theorem deltaBlob_grow (hg : BlobsGrow blobs blobs') {rec : ChunkRecord} {data : Bytes}
    (h : PageStore.deltaBlob ⟨source, blobs⟩ rec = .ok data) : PageStore.deltaBlob ⟨source, blobs'⟩ rec = .ok data := by
  unfold PageStore.deltaBlob at h ⊢
  obtain ⟨bs, hb, h⟩ := bind_eq_ok.1 h
  obtain ⟨bs', hb', hp⟩ := blobMmap_grow hg hb
  rw [hb', ok_bind]
  dsimp only at h ⊢
  split at h
  · cases h
  · rename_i hlt
    rw [if_neg hlt]
    cases hr : range? bs rec.offset.toNat (rec.offset.toNat + rec.len.toNat) with
    | none => rw [hr] at h; cases h
    | some blob =>
      rw [hr] at h
      rw [range?_of_isPrefix hp hr]
      exact h

theorem loadFull_grow (hg : BlobsGrow blobs blobs') {key : UInt64} {page : Page}
    (h : PageStore.loadFull z ⟨source, blobs⟩ key = .ok page) : PageStore.loadFull z ⟨source, blobs'⟩ key = .ok page := by
  unfold PageStore.loadFull at h ⊢
  obtain ⟨found, hf, h⟩ := bind_eq_ok.1 h
  rw [show PageStore.exactLookup ⟨source, blobs'⟩ key = .ok found from hf, ok_bind]
  cases found with
  | none => cases h
  | some rec =>
    dsimp only at h ⊢
    split at h
    · cases h
    · rename_i hk
      rw [if_neg hk]
      exact decompressBlobInto_grow hg h

theorem resolve_grow (hg : BlobsGrow blobs blobs') {rec : ChunkRecord} {page : Page}
    (h : PageStore.resolveUncached z ⟨source, blobs⟩ rec = .ok page) :
    PageStore.resolveUncached z ⟨source, blobs'⟩ rec = .ok page := by
  unfold PageStore.resolveUncached at h ⊢
  cases hk : rec.kind with
  | zero => rw [hk] at h; exact h
  | full =>
    rw [hk] at h
    exact decompressBlobInto_grow hg h
  | delta =>
    rw [hk] at h
    dsimp only at h ⊢
    obtain ⟨base, hb, h⟩ := bind_eq_ok.1 h
    obtain ⟨blob, hd, h⟩ := bind_eq_ok.1 h
    rw [loadFull_grow hg hb, ok_bind, deltaBlob_grow hg hd, ok_bind]
    exact h

/-- **Fewer blob bytes make a load fail, never change its answer.** -/
theorem loadPage_grow (hg : BlobsGrow blobs blobs') {pa : UInt64} {s : UInt32} {p : Option Page}
    (h : PageStore.loadPage z ⟨source, blobs⟩ pa s = .ok p) : PageStore.loadPage z ⟨source, blobs'⟩ pa s = .ok p := by
  unfold PageStore.loadPage at h ⊢
  split at h
  · cases h
  · rename_i hmax
    rw [if_neg hmax]
    obtain ⟨found, hf, h⟩ := bind_eq_ok.1 h
    rw [show PageStore.floor ⟨source, blobs'⟩ pa s = .ok found from hf, ok_bind]
    cases found with
    | none => exact h
    | some rec =>
      dsimp only at h ⊢
      obtain ⟨page, hr, h⟩ := bind_eq_ok.1 h
      rw [resolve_grow hg hr, ok_bind]
      exact h

end Grow

end Bxdb
