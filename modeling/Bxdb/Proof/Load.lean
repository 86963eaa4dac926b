import Bxdb.Proof.Lookup

/-!
# Reading a page back

A **version** pairs a record with the page it stands for. `Stored` says what must be
in the blob files for that page to come back; `Serves` that a store finds the records
of a list of versions.

* `resolve_stored`: **a stored version resolves to its page.**
* `loadPage_asOf`, `loadAllPages_asOf`: every load answers as of its snapshot.
* `serves_log`, `serves_index`: the two kinds of store serve the versions of their file.
-/

namespace Bxdb

open Bytes SortedIndex Versioned ChunkRecord

/-! ## Versions -/

structure Version where
  chunk : ChunkRecord
  page : Page
  deriving DecidableEq

namespace Version

def key (v : Version) : UInt64 := v.chunk.key
def pa (v : Version) : UInt64 := paOf v.chunk.key
def snap (v : Version) : ℕ := (snapshotOf v.chunk.key).toNat

end Version

abbrev chunks (vs : List Version) : List ChunkRecord := vs.map Version.chunk

/-- Which version an address received with which snapshot id. -/
def versionsOf (vs : List Version) : Writes UInt64 ℕ Version := fun pa t v => v ∈ vs ∧ v.pa = pa ∧ v.snap = t

/-- Which page an address received with which snapshot id. -/
def pagesOf (vs : List Version) : Writes UInt64 ℕ Page := fun pa t p => ∃ v, versionsOf vs pa t v ∧ v.page = p

/-- No two versions share a key. -/
abbrev KeysDistinct (vs : List Version) : Prop := (vs.map Version.key).Nodup

theorem eq_of_key_eq {vs : List Version} (h : KeysDistinct vs) {v v' : Version} (hv : v ∈ vs)
    (hv' : v' ∈ vs) (hk : v.key = v'.key) : v = v' :=
  List.inj_on_of_nodup_map h hv hv' hk

theorem key_eq_of_pa_snap {v v' : Version} (hp : v.pa = v'.pa) (hs : v.snap = v'.snap) : v.key = v'.key := by
  have hs' : snapshotOf v.chunk.key = snapshotOf v'.chunk.key := UInt32.toNat_inj.1 hs
  unfold Version.key
  rw [← encodeKey_paOf_snapshotOf v.chunk.key, ← encodeKey_paOf_snapshotOf v'.chunk.key, hs']
  exact congrArg (encodeKey · _) hp

/-- **Distinct keys make the history a function.** -/
theorem pagesOf_functional {vs : List Version} (h : KeysDistinct vs) : Functional (pagesOf vs) := by
  rintro pa t p q ⟨v, ⟨hv, hp, hs⟩, rfl⟩ ⟨v', ⟨hv', hp', hs'⟩, rfl⟩
  rw [eq_of_key_eq h hv hv' (key_eq_of_pa_snap (hp.trans hp'.symm) (hs.trans hs'.symm))]

/-! ## What is stored -/

/-- `bs` holds `data` at the range `[off, off + len)`, whose end is a 64-bit number. -/
structure HoldsAt (bs : Bytes) (off : UInt64) (len : UInt32) (data : Bytes) : Prop where
  len_eq : len.toNat = data.length
  fits : off.toNat + data.length ≤ bs.length
  bound : off.toNat + data.length < 2 ^ 64
  bytes : slice bs off.toNat (off.toNat + data.length) = data

theorem HoldsAt.of_isPrefix {bs bs' : Bytes} {off : UInt64} {len : UInt32} {data : Bytes}
    (h : HoldsAt bs off len data) (hp : bs <+: bs') : HoldsAt bs' off len data :=
  ⟨h.len_eq, h.fits.trans hp.length_le, h.bound, by rw [slice_of_isPrefix hp h.fits]; exact h.bytes⟩

theorem HoldsAt.end_le {bs : Bytes} {off : UInt64} {len : UInt32} {data : Bytes} (h : HoldsAt bs off len data) :
    off.toNat + len.toNat ≤ bs.length ∧ off.toNat + len.toNat < 2 ^ 64 := by
  rw [h.len_eq]
  exact ⟨h.fits, h.bound⟩

/-- A file with nothing but the data. -/
theorem HoldsAt.whole {data : Bytes} {len : UInt32} (h : len.toNat = data.length) : HoldsAt data 0 len data := by
  have hoff : (0 : UInt64).toNat = 0 := rfl
  have hlt := len.toNat_lt
  refine ⟨h, ?_, ?_, ?_⟩
  · rw [hoff, Nat.zero_add]
  · rw [hoff]
    omega
  · rw [hoff, Nat.zero_add, slice_zero, List.take_length]

/-- The blob files hold what the version's record needs to give the page back. A
Delta needs a Full version of the same address and an earlier snapshot, in `vs`. -/
inductive Stored (z : Zstd) (vs : List Version) (blobs : UInt8 → Option Bytes) : Version → Prop
  | zero {key : UInt64} (hblob : (blobs 0).isSome) : Stored z vs blobs ⟨newZero key, Page.zero⟩
  | full {key : UInt64} {w : UInt8} {off : UInt64} {len : UInt32} {page : Page} {bs : Bytes}
      (hblob : blobs w = some bs) (hdata : HoldsAt bs off len (z.compress page)) :
      Stored z vs blobs ⟨newFull key w off len, page⟩
  | delta {key : UInt64} {w : UInt8} {off : UInt64} {len : UInt32} {page : Page} {bs : Bytes}
      {base : Version} (hbase : base ∈ vs) (hfull : base.chunk.kind = .full) (hpa : base.pa = paOf key)
      (hsnap : base.snap < (snapshotOf key).toNat) (hblob : blobs w = some bs)
      (hdata : HoldsAt bs off len (encodeDeltaPatch (computeXorPatch page base.page))) :
      Stored z vs blobs ⟨newDelta key w off len base.key, page⟩

/-- Every file is still there, and what it held is still at its front. -/
def BlobsGrow (blobs blobs' : UInt8 → Option Bytes) : Prop :=
  ∀ w bs, blobs w = some bs → ∃ bs', blobs' w = some bs' ∧ bs <+: bs'

theorem BlobsGrow.refl (blobs : UInt8 → Option Bytes) : BlobsGrow blobs blobs :=
  fun _ bs h => ⟨bs, h, List.prefix_refl _⟩

theorem BlobsGrow.trans {b1 b2 b3 : UInt8 → Option Bytes} (h : BlobsGrow b1 b2) (h' : BlobsGrow b2 b3) :
    BlobsGrow b1 b3 := by
  intro w bs hb
  obtain ⟨bs', hb', hp⟩ := h w bs hb
  obtain ⟨bs'', hb'', hp'⟩ := h' w bs' hb'
  exact ⟨bs'', hb'', hp.trans hp'⟩

/-- **Versions stay stored** while blob files grow and versions are added. -/
theorem Stored.mono {z : Zstd} {vs vs' : List Version} {blobs blobs' : UInt8 → Option Bytes} {v : Version}
    (h : Stored z vs blobs v) (hvs : ∀ v ∈ vs, v ∈ vs') (hb : BlobsGrow blobs blobs') :
    Stored z vs' blobs' v := by
  cases h with
  | zero hblob =>
    obtain ⟨bs, hbs⟩ := Option.isSome_iff_exists.1 hblob
    obtain ⟨bs', hbs', -⟩ := hb 0 bs hbs
    exact .zero (by rw [hbs']; rfl)
  | full hblob hdata =>
    obtain ⟨bs', hbs', hp⟩ := hb _ _ hblob
    exact .full hbs' (hdata.of_isPrefix hp)
  | delta hbase hfull hpa hsnap hblob hdata =>
    obtain ⟨bs', hbs', hp⟩ := hb _ _ hblob
    exact .delta (hvs _ hbase) hfull hpa hsnap hbs' (hdata.of_isPrefix hp)

theorem Stored.plain {z : Zstd} {vs : List Version} {blobs : UInt8 → Option Bytes} {v : Version}
    (h : Stored z vs blobs v) : v.chunk.Plain := by
  cases h with
  | zero => exact newZero_plain _
  | full => exact newFull_plain _ _ _ _
  | delta => exact newDelta_plain _ _ _ _ _

/-- Stored versions have records the codec writes. -/
theorem chunks_plain {z : Zstd} {vs vs' : List Version} {blobs : UInt8 → Option Bytes}
    (h : ∀ v ∈ vs, Stored z vs' blobs v) : ∀ r ∈ chunks vs, r.Plain := by
  intro r hr
  obtain ⟨v, hv, rfl⟩ := List.mem_map.1 hr
  exact (h v hv).plain

/-! ## Stores -/

/-- The store finds the records of `vs`. -/
structure Serves (store : PageStore) (vs : List Version) : Prop where
  distinct : KeysDistinct vs
  floor : ∀ (pa : UInt64) (s : UInt32), s ≤ maxSnapshotId → ∃ r, store.floor pa s = .ok r ∧
    AsOf (recordsOf (chunks vs)) pa s.toNat r
  exact : ∀ v ∈ vs, store.exactLookup v.key = .ok (some v.chunk)

section Resolve

variable {z : Zstd} {store : PageStore} {vs : List Version}

theorem blobMmap_of_some {w : UInt8} {bs : Bytes} (h : store.blobs w = some bs) : store.blobMmap w = .ok bs := by
  unfold PageStore.blobMmap; rw [h]

/-- The range a record names is read. -/
theorem range?_holdsAt {bs : Bytes} {off : UInt64} {len : UInt32} {data : Bytes}
    (h : HoldsAt bs off len data) : range? bs off.toNat (off.toNat + len.toNat) = some data := by
  rw [h.len_eq, range?_of_le (Nat.le_add_right _ _) h.fits, h.bytes]

/-- **A Full page is decompressed to what was compressed.** -/
theorem decompressBlobInto_full (hz : z.RoundTrip) {key : UInt64} {w : UInt8} {off : UInt64} {len : UInt32}
    {page : Page} {bs : Bytes} (hb : store.blobs w = some bs) (hd : HoldsAt bs off len (z.compress page)) :
    store.decompressBlobInto z (newFull key w off len) = .ok page := by
  have hbound : ¬ 2 ^ 64 ≤ off.toNat + len.toNat := by rw [hd.len_eq]; exact not_le.2 hd.bound
  unfold PageStore.decompressBlobInto
  rw [newFull_workerId, blobMmap_of_some hb, ok_bind]
  simp only [newFull_offset, newFull_len, hbound, if_false, range?_holdsAt hd]
  simp only [hz page pageSize (le_refl _), page.size, dif_pos]

theorem deltaBlob_delta {key base : UInt64} {w : UInt8} {off : UInt64} {len : UInt32} {bs data : Bytes}
    (hb : store.blobs w = some bs) (hd : HoldsAt bs off len data) :
    store.deltaBlob (newDelta key w off len base) = .ok data := by
  have hbound : ¬ 2 ^ 64 ≤ off.toNat + len.toNat := by rw [hd.len_eq]; exact not_le.2 hd.bound
  unfold PageStore.deltaBlob
  rw [newDelta_workerId, blobMmap_of_some hb, ok_bind]
  simp only [newDelta_offset, newDelta_len, hbound, if_false, range?_holdsAt hd]

/-- A stored Full version is one `newFull` record. -/
theorem Stored.full_inv {blobs : UInt8 → Option Bytes} {v : Version} (h : Stored z vs blobs v)
    (hk : v.chunk.kind = .full) : ∃ key w off len bs, v.chunk = newFull key w off len ∧
      blobs w = some bs ∧ HoldsAt bs off len (z.compress v.page) := by
  cases h with
  | zero => simp at hk
  | full hblob hdata => exact ⟨_, _, _, _, _, rfl, hblob, hdata⟩
  | delta => simp at hk

theorem loadFull_base (hz : z.RoundTrip) (hS : Serves store vs) {b : Version} (hb : b ∈ vs)
    (hst : Stored z vs store.blobs b) (hk : b.chunk.kind = .full) : store.loadFull z b.key = .ok b.page := by
  obtain ⟨key, w, off, len, bs, hc, hblob, hdata⟩ := hst.full_inv hk
  unfold PageStore.loadFull
  rw [hS.exact b hb, ok_bind]
  simp only [hk, ne_eq, not_true_eq_false, if_false]
  rw [hc]
  exact decompressBlobInto_full hz hblob hdata

/-- The versions up to snapshot `t` are stored. -/
abbrev StoredUpTo (z : Zstd) (vs : List Version) (blobs : UInt8 → Option Bytes) (t : ℕ) : Prop :=
  ∀ v ∈ vs, v.snap ≤ t → Stored z vs blobs v

/-- **A stored version resolves to its page.** A Delta needs its base, which is older. -/
theorem resolve_stored (hz : z.RoundTrip) (hS : Serves store vs) {t : ℕ} (hall : StoredUpTo z vs store.blobs t)
    {v : Version} (hv : v ∈ vs) (ht : v.snap ≤ t) : store.resolveUncached z v.chunk = .ok v.page := by
  unfold PageStore.resolveUncached
  cases hall v hv ht with
  | zero => rfl
  | full hblob hdata => exact decompressBlobInto_full hz hblob hdata
  | @delta key w off len page bs base hbase hfull hpa hsnap hblob hdata =>
    have hst : Stored z vs store.blobs base := hall base hbase (hsnap.le.trans ht)
    simp only [newDelta_kind, newDelta_baseKey]
    rw [loadFull_base hz hS hbase hst hfull, ok_bind, deltaBlob_delta hblob hdata, ok_bind]
    exact applyDeltaPatchInPlace_encode page base.page

/-- The record found for an address is one of a version, whose page is the answer. -/
theorem asOf_versions {pa : UInt64} {t : ℕ} {r : ChunkRecord} (hr : AsOf (recordsOf (chunks vs)) pa t (some r)) :
    ∃ v ∈ vs, v.chunk = r ∧ v.snap ≤ t ∧ AsOf (pagesOf vs) pa t (some v.page) := by
  obtain ⟨u, ⟨hmem, hpa, hsn⟩, hle, hmax⟩ := asOf_some.1 hr
  obtain ⟨v, hv, rfl⟩ := List.mem_map.1 hmem
  refine ⟨v, hv, rfl, hsn.trans_le hle, asOf_some.2 ⟨u, ⟨v, ⟨hv, hpa, hsn⟩, rfl⟩, hle, ?_⟩⟩
  rintro t' p ⟨v', ⟨hv', hpa', hsn'⟩, -⟩ ht'
  exact hmax t' v'.chunk ⟨List.mem_map_of_mem hv', hpa', hsn'⟩ ht'

theorem asOf_no_version {pa : UInt64} {t : ℕ} (hr : AsOf (recordsOf (chunks vs)) pa t none) :
    AsOf (pagesOf vs) pa t none := by
  rw [asOf_none] at hr ⊢
  rintro t' p ⟨v', ⟨hv', hpa', hsn'⟩, -⟩ ht'
  exact hr t' v'.chunk ⟨List.mem_map_of_mem hv', hpa', hsn'⟩ ht'

/-- What a look-up followed by `resolve` gives. -/
theorem lookup_resolve (hz : z.RoundTrip) (hS : Serves store vs) {pa : UInt64} {t : ℕ}
    (hall : StoredUpTo z vs store.blobs t) {r : Option ChunkRecord} (hr : AsOf (recordsOf (chunks vs)) pa t r) :
    ∃ p, AsOf (pagesOf vs) pa t p ∧
      (match r with
        | none => (.ok none : Res (Option Page))
        | some rec => do
          let page ← store.resolveUncached z rec
          .ok (some page)) = .ok p := by
  cases r with
  | none => exact ⟨none, asOf_no_version hr, rfl⟩
  | some rec =>
    obtain ⟨v, hv, rfl, ht, hp⟩ := asOf_versions hr
    refine ⟨some v.page, hp, ?_⟩
    dsimp only
    rw [resolve_stored hz hS hall hv ht, ok_bind]

theorem PageStore.loadPage_asOf (hz : z.RoundTrip) (hS : Serves store vs) (pa : UInt64) {s : UInt32}
    (hs : s ≤ maxSnapshotId) (hall : StoredUpTo z vs store.blobs s.toNat) :
    ∃ r, store.loadPage z pa s = .ok r ∧ AsOf (pagesOf vs) pa s.toNat r := by
  obtain ⟨r, hf, hr⟩ := hS.floor pa s hs
  obtain ⟨p, hp, hres⟩ := lookup_resolve hz hS hall hr
  refine ⟨p, ?_, hp⟩
  unfold PageStore.loadPage
  rw [if_neg (UInt32.not_lt.2 hs), hf, ok_bind]
  exact hres

end Resolve

/-! ## The two kinds of store -/

theorem recordKeys_nodup {vs : List Version} (h : KeysDistinct vs) : ((chunks vs).map recordKey).Nodup := by
  rw [List.map_map]
  have : (vs.map Version.key).map UInt64.toNat = vs.map (recordKey ∘ Version.chunk) := by
    rw [List.map_map]; rfl
  rw [← this]
  exact h.map fun _ _ => UInt64.toNat_inj.1

theorem asOf_records_congr {rs rs' : List ChunkRecord} (h : ∀ r, r ∈ rs ↔ r ∈ rs') {pa : UInt64} {t : ℕ}
    {r : Option ChunkRecord} : AsOf (recordsOf rs) pa t r ↔ AsOf (recordsOf rs') pa t r :=
  asOf_congr fun t r => by unfold recordsOf; rw [h r]

/-- The look-ups of a store over a sorted list that holds the records of `vs`. -/
theorem serves_sorted {store : PageStore} {vs : List Version} {rs : List ChunkRecord} (hd : KeysDistinct vs)
    (hrs : KeySorted rs) (hmem : ∀ r, r ∈ rs ↔ r ∈ chunks vs)
    (hfloor : ∀ pa s, store.floor pa s = .ok (floorSorted rs (encodeKey pa s) pa))
    (hexact : ∀ k, store.exactLookup k = .ok (exactSorted rs k)) : Serves store vs where
  distinct := hd
  floor pa s hs := ⟨_, hfloor pa s, (asOf_records_congr hmem).1 (floorSorted_asOf hrs pa hs)⟩
  exact v hv := by
    rw [hexact]
    exact congrArg _ (exactSorted_mem hrs ((hmem _).2 (List.mem_map_of_mem hv)))

/-- **A log serves the versions of its first records**, of each key the first one, also
with an incomplete fixed part at its end. -/
theorem serves_firsts {vs : List Version} {rs : List ChunkRecord} (hd : KeysDistinct vs) (hplain : ∀ r ∈ rs, r.Plain)
    (hmem : ∀ r, r ∈ index recordKey rs ↔ r ∈ chunks vs) (m : UInt32) {tail : Bytes}
    (ht : tail.length < logRecordBaseSize) (blobs : UInt8 → Option Bytes) :
    Serves ⟨.appendOnly (writeLogHeader m ++ (encodeAll rs ++ tail)), blobs⟩ vs := by
  have hbuild := buildLazyIndex_log hplain m ht
  refine serves_sorted hd (index_strict recordKey _) hmem (fun pa s => ?_) (fun k => ?_)
  · unfold PageStore.floor
    simp only [hbuild, ok_bind]
  · unfold PageStore.exactLookup
    simp only [hbuild, ok_bind]

/-- **A log serves its versions** when their keys are distinct. -/
theorem serves_log {vs : List Version} (hd : KeysDistinct vs) (hp : ∀ v ∈ vs, v.chunk.Plain) (m : UInt32)
    {tail : Bytes} (ht : tail.length < logRecordBaseSize) (blobs : UInt8 → Option Bytes) :
    Serves ⟨.appendOnly (writeLogHeader m ++ (encodeAll (chunks vs) ++ tail)), blobs⟩ vs := by
  have hplain : ∀ r ∈ chunks vs, r.Plain := by
    intro r hr
    obtain ⟨v, hv, rfl⟩ := List.mem_map.1 hr
    exact hp v hv
  exact serves_firsts hd hplain (fun r => mem_index_of_nodup (recordKeys_nodup hd)) m ht blobs

/-- **An index file serves the versions it lists.** -/
theorem serves_index {vs : List Version} {rs : List ChunkRecord} (hd : KeysDistinct vs) (hrs : KeySorted rs)
    (hmem : ∀ r, r ∈ rs ↔ r ∈ chunks vs) {header : Bytes} (hh : header.length = headerSize)
    (blobs : UInt8 → Option Bytes) : Serves ⟨.btree (header ++ encodeIndex rs) rs.length, blobs⟩ vs :=
  serves_sorted hd hrs hmem
    (fun pa s => congrArg Except.ok (floorMmap_index hrs hh (encodeKey pa s) pa))
    (fun k => congrArg Except.ok (exactMmap_index hrs hh k))

theorem length_writeLogHeader (m : UInt32) : (writeLogHeader m).length = headerSize :=
  length_writeHeader rfl m

theorem open_log {dir : Dir} {m : UInt32} {body : Bytes} (hi : dir.idx = none)
    (hl : dir.log = some (writeLogHeader m ++ body)) :
    PageStore.open dir = .ok ⟨.appendOnly (writeLogHeader m ++ body), dir.blobs⟩ := by
  unfold PageStore.open
  rw [hi, hl]
  simp only [verifyLogHeader, readLogHeader, ok_bind]

theorem length_writeIndexHeader (m : UInt32) : (writeIndexHeader m).length = headerSize :=
  length_writeHeader rfl m

theorem open_index {dir : Dir} {m : UInt32} {rs : List ChunkRecord}
    (hi : dir.idx = some (writeIndexHeader m ++ encodeIndex rs)) :
    PageStore.open dir = .ok ⟨.btree (writeIndexHeader m ++ encodeIndex rs) rs.length, dir.blobs⟩ := by
  have hlen : (writeIndexHeader m ++ encodeIndex rs).length = headerSize + rs.length * fixedRecordSize := by
    rw [List.length_append, length_writeIndexHeader, length_encodeIndex]
  have hbody : (writeIndexHeader m ++ encodeIndex rs).length - headerSize = rs.length * fixedRecordSize := by
    omega
  have hmagic : slice (writeIndexHeader m ++ encodeIndex rs) 0 8 = magicIdx := by
    have := slice_mid [] magicIdx ([formatVersion] ++ (toLe32 m ++ [0, 0, 0]) ++ encodeIndex rs)
    simpa [writeIndexHeader, writeHeader, magicIdx] using this
  have hverify : verifyIndexHeader (writeIndexHeader m ++ encodeIndex rs) = .ok () := by
    unfold verifyIndexHeader
    rw [if_neg (by omega), if_neg (by rw [hmagic]; exact not_not.2 rfl)]
  unfold PageStore.open
  rw [hi]
  dsimp only
  rw [hverify, ok_bind, hbody, Nat.mul_mod_left, if_neg (by simp), Nat.mul_div_cancel _ (by decide)]

/-! ## One page -/

/-- **A load answers as of its snapshot** whenever the store of the directory serves
versions that are stored up to it. -/
theorem loadPage_asOf {z : Zstd} (hz : z.RoundTrip) {dir : Dir} {store : PageStore} {vs : List Version}
    (ho : PageStore.open dir = .ok store) (hb : store.blobs = dir.blobs) (hS : Serves store vs) (pa : UInt64)
    {s : UInt32} (hs : s ≤ maxSnapshotId) (hall : StoredUpTo z vs dir.blobs s.toNat) :
    ∃ r, loadPage z dir pa s = .ok r ∧ AsOf (pagesOf vs) pa s.toNat r := by
  rw [← hb] at hall
  obtain ⟨r, hr, hp⟩ := PageStore.loadPage_asOf hz hS pa hs hall
  refine ⟨r, ?_, hp⟩
  unfold loadPage
  rw [ho, ok_bind, hr]

end Bxdb
