import Bxdb.Spec.BtreeDb
import Bxdb.Proof.Cache
import Bxdb.Proof.Load
import Bxdb.Spec.RawFrame

/-!
# Cached reads are uncached reads

A cache is sound for a store when each slot that reports a key holds the page of the Full
record the store finds under that key (`CacheSound`). A hit then returns what the store
would have read (`cacheGet_sound`), and a page is put only under the key of the record it
was read from (`cachePut_sound`). A Full record that `floor` finds is the one its key is
looked up to (`exactLookup_of_floor`); in `index.bxdb` this takes strictly increasing keys.

* `cachedReads_eq`: **every sequence of loads returns what it returns without a cache**,
  and leaves the cache sound.
* `duplicate_keys`: an index with a key twice, where it does not.
-/

namespace Bxdb

open Bytes Memory SharedCache SortedIndex

/-! ## The slots under a call -/

section Slots

variable {m : Mem} {key key' : UInt64} {g : ℕ} {page : Page}

theorem slotKey_iff (h : g < totalSlots) : slotKey m g = some key ∧ readSlotPage m g = page ↔
    table m (setOfSlot g) (wayOfSlot g) = some (key, page) := by
  rw [table_slot h, Option.map_eq_some_iff]
  constructor
  · rintro ⟨hk, rfl⟩
    exact ⟨key, hk, rfl⟩
  · rintro ⟨k, hk, heq⟩
    obtain ⟨rfl, rfl⟩ := Prod.mk.inj heq
    exact ⟨hk, rfl⟩

/-- A hit is a slot's page. -/
theorem slot_of_hit (h : (get m key).2 = some page) :
    ∃ g, g < totalSlots ∧ slotKey m g = some key ∧ readSlotPage m g = page := by
  obtain ⟨w, hw⟩ := table_of_hit h
  have hin := (table_eq_some.1 hw).1
  obtain ⟨hset, hway⟩ := setOfSlot_slotOf hin
  refine ⟨slotOf (locate key) w, slotOf_lt hin, (slotKey_iff (slotOf_lt hin)).2 ?_⟩
  rw [hset, hway]
  exact hw

theorem slot_get (h : g < totalSlots) (hk : slotKey (get m key).1 g = some key') :
    slotKey m g = some key' ∧ readSlotPage m g = readSlotPage (get m key).1 g := by
  rw [slotKey_iff h, ← table_get m key]
  exact (slotKey_iff h).1 ⟨hk, rfl⟩

/-- After a put, a slot holds that page, or what it held before. -/
theorem slot_put (h : g < totalSlots) (hk : slotKey (put m key page) g = some key') :
    (key' = key ∧ readSlotPage (put m key page) g = page) ∨
      (slotKey m g = some key' ∧ readSlotPage m g = readSlotPage (put m key page) g) := by
  by_cases hne : key = emptyKey
  · have hput : put m key page = m := if_pos hne
    rw [hput] at hk ⊢
    exact .inr ⟨hk, rfl⟩
  · have ht := (slotKey_iff h).1 ⟨hk, rfl⟩
    rw [table_put hne] at ht
    by_cases hself : setOfSlot g = locate key ∧ wayOfSlot g = putWay m key
    · rw [hself.1, hself.2, SetCache.write_self] at ht
      obtain ⟨hkey, hpage⟩ := Prod.mk.inj (Option.some.inj ht)
      exact .inl ⟨hkey.symm, hpage.symm⟩
    · rw [SetCache.write_other hself] at ht
      exact .inr ((slotKey_iff h).2 ht)

end Slots

/-! ## Sound caches -/

section Sound

variable (z : Zstd) (store : PageStore)

/-- The store finds a Full record under this key, and reads this page for it. -/
def IsFullPage (key : UInt64) (page : Page) : Prop :=
  ∃ rec, store.exactLookup key = .ok (some rec) ∧ rec.kind = .full ∧ store.decompressBlobInto z rec = .ok page

/-- **Every cached page** is the page of the Full record with its key. -/
def CacheSound (cache : Option Mem) : Prop :=
  ∀ m, cache = some m → ∀ g key, g < totalSlots → slotKey m g = some key → IsFullPage z store key (readSlotPage m g)

variable {z store} {cache : Option Mem} {key : UInt64} {page : Page}

theorem cacheGet_some (m : Mem) (key : UInt64) :
    BtreeDb.cacheGet (some m) key = (some (get m key).1, (get m key).2) := rfl

theorem cacheGet_some_snd {m : Mem} {hit : Option Page} (h : (get m key).2 = hit) :
    (BtreeDb.cacheGet (some m) key).2 = hit := h

theorem cacheGet_sound (h : CacheSound z store cache) (key : UInt64) :
    CacheSound z store (BtreeDb.cacheGet cache key).1 ∧
      ∀ page, (BtreeDb.cacheGet cache key).2 = some page → IsFullPage z store key page := by
  cases cache with
  | none => exact ⟨h, nofun⟩
  | some m =>
    constructor
    · intro m' hm' g key' hg hk
      obtain rfl := Option.some.inj hm'
      obtain ⟨hkey, hpage⟩ := slot_get hg hk
      rw [← hpage]
      exact h m rfl g key' hg hkey
    · intro page hhit
      obtain ⟨g, hg, hkey, rfl⟩ := slot_of_hit hhit
      exact h m rfl g key hg hkey

/-- A sound cache does not have a key without a Full record. -/
theorem miss_of_not_full {m : Mem} (h : CacheSound z store (some m)) (hno : ∀ page, ¬ IsFullPage z store key page) :
    (get m key).2 = none := by
  cases hg : (get m key).2 with
  | none => rfl
  | some page =>
    exact absurd ((cacheGet_sound h key).2 page (cacheGet_some_snd hg)) (hno page)

theorem cachePut_sound (h : CacheSound z store cache) (hp : IsFullPage z store key page) :
    CacheSound z store (BtreeDb.cachePut cache key page) := by
  intro m' hm' g key' hg hk
  obtain ⟨m, rfl, rfl⟩ := Option.map_eq_some_iff.1 hm'
  rcases slot_put hg hk with ⟨rfl, hpage⟩ | ⟨hkey, hpage⟩
  · rw [hpage]
    exact hp
  · rw [← hpage]
    exact h m rfl g key' hg hkey

/-- A miss reads the record, and caches its page under the record's key. -/
theorem decompressAndPut_eq (h : CacheSound z store cache) {rec : ChunkRecord}
    (hlook : store.exactLookup key = .ok (some rec)) (hfull : rec.kind = .full) :
    (BtreeDb.decompressAndPut z store cache key rec).2 = store.decompressBlobInto z rec ∧
      CacheSound z store (BtreeDb.decompressAndPut z store cache key rec).1 := by
  unfold BtreeDb.decompressAndPut
  cases hd : store.decompressBlobInto z rec with
  | error e => exact ⟨rfl, h⟩
  | ok page => exact ⟨rfl, cachePut_sound h ⟨rec, hlook, hfull, hd⟩⟩

/-- **The base of a Delta**, with and without a cache. -/
theorem loadFullCached_eq (h : CacheSound z store cache) (key : UInt64) :
    (BtreeDb.loadFullCached z store cache key).2 = store.loadFull z key ∧
      CacheSound z store (BtreeDb.loadFullCached z store cache key).1 := by
  obtain ⟨hsound, hhit⟩ := cacheGet_sound h key
  unfold BtreeDb.loadFullCached PageStore.loadFull
  generalize BtreeDb.cacheGet cache key = r at hsound hhit ⊢
  obtain ⟨cache', hit⟩ := r
  cases hit with
  | some page =>
    obtain ⟨rec, hlook, hfull, hd⟩ := hhit page rfl
    rw [hlook]
    refine ⟨?_, hsound⟩
    simp only [ok_bind, hfull, ne_eq, not_true_eq_false, if_false, hd]
  | none =>
    cases hlook : store.exactLookup key with
    | error e => exact ⟨rfl, hsound⟩
    | ok found =>
      cases found with
      | none => exact ⟨rfl, hsound⟩
      | some rec =>
        simp only [ok_bind]
        split
        · exact ⟨rfl, hsound⟩
        · rename_i hkind
          exact decompressAndPut_eq hsound hlook (not_not.1 hkind)

/-- **Any record**, with and without a cache, when a Full one is what its key is looked up to. -/
theorem resolveCached_eq (h : CacheSound z store cache) {rec : ChunkRecord}
    (hrec : rec.kind = .full → store.exactLookup rec.key = .ok (some rec)) :
    (BtreeDb.resolveCached z store cache rec).2 = store.resolveUncached z rec ∧
      CacheSound z store (BtreeDb.resolveCached z store cache rec).1 := by
  unfold BtreeDb.resolveCached PageStore.resolveUncached
  cases hkind : rec.kind with
  | zero => exact ⟨rfl, h⟩
  | full =>
    have hlook := hrec hkind
    obtain ⟨hsound, hhit⟩ := cacheGet_sound h rec.key
    generalize BtreeDb.cacheGet cache rec.key = r at hsound hhit ⊢
    obtain ⟨cache', hit⟩ := r
    cases hit with
    | some page =>
      obtain ⟨rec', hlook', -, hd⟩ := hhit page rfl
      rw [hlook] at hlook'
      obtain rfl := Option.some.inj (Except.ok.inj hlook')
      exact ⟨hd.symm, hsound⟩
    | none => exact decompressAndPut_eq hsound hlook hkind
  | delta =>
    obtain ⟨heq, hsound⟩ := loadFullCached_eq h rec.baseKey
    generalize BtreeDb.loadFullCached z store cache rec.baseKey = r at heq hsound ⊢
    obtain ⟨cache', base⟩ := r
    dsimp only at heq hsound ⊢
    rw [← heq]
    cases base with
    | error e => exact ⟨rfl, hsound⟩
    | ok base => exact ⟨rfl, hsound⟩

end Sound

/-! ## `floor` and the exact look-up -/

/-- The keys of an index file strictly increase. A log is sorted when it is indexed. -/
def PageStore.Sorted (store : PageStore) : Prop :=
  match store.source with
  | .btree mmap n => ∀ i j, i < j → j < n → readKeyAt (mmap.drop headerSize) i < readKeyAt (mmap.drop headerSize) j
  | .appendOnly _ => True

theorem readRecordAt_key {body : Bytes} {i : ℕ} {rec : ChunkRecord} (h : readRecordAt body i = .ok rec) :
    rec.key = readKeyAt body i := by
  unfold readRecordAt ChunkRecord.decodeFixed at h
  obtain ⟨kind, -, hrec⟩ := bind_eq_ok.1 h
  obtain rfl := Except.ok.inj hrec
  unfold readKeyAt
  dsimp only
  simp only [slice, fixedRecordSize, Nat.add_sub_cancel_left, List.drop_zero, List.take_take]
  rfl

/-- A record that `floor` finds in a sorted index file is found by its key. -/
theorem exactMmap_of_floor {bytes : Bytes} {n : ℕ} {key pa : UInt64} {rec : ChunkRecord}
    (hs : ∀ i j, i < j → j < n → readKeyAt (bytes.drop headerSize) i < readKeyAt (bytes.drop headerSize) j)
    (h : floorMmap bytes n key pa = some rec) : exactMmap bytes n rec.key = some rec := by
  have hmono : ∀ i j, i < j → j < n →
      (readKeyAt (bytes.drop headerSize) i).toNat < (readKeyAt (bytes.drop headerSize) j).toNat := by
    intro i j hij hj
    exact UInt64.lt_iff_toNat_lt.1 (hs i j hij hj)
  unfold floorMmap at h
  dsimp only at h
  set lo := partitionLoop (fun mid => readKeyAt (bytes.drop headerSize) mid ≤ key) n 0 n with hlo
  have hle : lo ≤ n := partitionLoop_le (Nat.zero_le n)
  by_cases h0 : lo = 0
  · rw [if_pos h0] at h
    cases h
  · rw [if_neg h0] at h
    cases hread : readRecordAt (bytes.drop headerSize) (lo - 1) with
    | error e =>
      rw [hread] at h
      cases h
    | ok r =>
      rw [hread] at h
      dsimp only at h
      split at h
      · obtain rfl := Option.some.inj h
        have hkey := readRecordAt_key hread
        unfold exactMmap
        dsimp only
        cases hsearch : searchLoop (fun mid => (readKeyAt (bytes.drop headerSize) mid).toNat) r.key.toNat n 0 n with
        | none =>
          have hne := searchLoop_none hmono (le_refl n) (by omega) hsearch (lo - 1) (by omega) (by omega)
          rw [hkey] at hne
          exact absurd rfl hne
        | some mid =>
          obtain ⟨-, hmid, heq⟩ := searchLoop_some hsearch
          -- the key occurs once
          have : mid = lo - 1 := by
            rw [hkey] at heq
            rcases Nat.lt_trichotomy mid (lo - 1) with hlt | heq' | hgt
            · have := hmono mid (lo - 1) hlt (by omega)
              omega
            · exact heq'
            · have := hmono (lo - 1) mid hgt hmid
              omega
          subst this
          dsimp only
          rw [hread]
          rfl
      · cases h

theorem exactSorted_of_floor {rs : List ChunkRecord} (h : KeySorted rs) {key pa : UInt64} {rec : ChunkRecord}
    (hf : floorSorted rs key pa = some rec) : exactSorted rs rec.key = some rec := by
  unfold floorSorted at hf
  split at hf
  · rename_i r hr
    split at hf
    · obtain rfl := Option.some.inj hf
      exact exactSorted_mem h ((isFloor_iff.1 ((floor?_eq_some h).1 hr)).1)
    · cases hf
  · cases hf

/-- **A record that `floor` finds** is the one its key is looked up to. -/
theorem exactLookup_of_floor {store : PageStore} (hs : store.Sorted) {pa : UInt64} {s : UInt32} {rec : ChunkRecord}
    (h : store.floor pa s = .ok (some rec)) : store.exactLookup rec.key = .ok (some rec) := by
  unfold PageStore.floor at h
  unfold PageStore.Sorted at hs
  unfold PageStore.exactLookup
  cases hsrc : store.source with
  | btree mmap n =>
    rw [hsrc] at h hs
    dsimp only at h hs ⊢
    rw [exactMmap_of_floor hs (Except.ok.inj h)]
  | appendOnly log =>
    rw [hsrc] at h
    dsimp only at h ⊢
    obtain ⟨idx, hidx, hf⟩ := bind_eq_ok.1 h
    rw [hidx, ok_bind, exactSorted_of_floor (buildLazyIndex_sorted hidx) (Except.ok.inj hf)]

/-! ## Loads -/

section Loads

variable {z : Zstd} {store : PageStore} {cache : Option Mem}

/-- **One load**, with and without a cache. -/
theorem loadPageCached_eq (hs : store.Sorted) (h : CacheSound z store cache) (pa : UInt64) (s : UInt32) :
    (BtreeDb.loadPage z store cache pa s).2 = store.loadPage z pa s ∧
      CacheSound z store (BtreeDb.loadPage z store cache pa s).1 := by
  unfold BtreeDb.loadPage PageStore.loadPage
  by_cases hmax : maxSnapshotId < s
  · rw [if_pos hmax, if_pos hmax]
    exact ⟨rfl, h⟩
  · rw [if_neg hmax, if_neg hmax]
    cases hf : store.floor pa s with
    | error e => exact ⟨rfl, h⟩
    | ok found =>
      cases found with
      | none => exact ⟨rfl, h⟩
      | some rec =>
        obtain ⟨heq, hsound⟩ := resolveCached_eq h fun _ => exactLookup_of_floor hs hf
        rw [ok_bind]
        dsimp only
        generalize BtreeDb.resolveCached z store cache rec = r at heq hsound ⊢
        obtain ⟨cache', page⟩ := r
        dsimp only at heq hsound ⊢
        rw [← heq]
        cases page with
        | error e => exact ⟨rfl, hsound⟩
        | ok page => exact ⟨rfl, hsound⟩

end Loads

/-- **Cached reads are uncached reads**, over any calls on a store whose index file, if it
has one, is sorted: the results are those of `floor` and `resolve_uncached`, and the cache
they leave is sound. -/
theorem cachedReads_eq (z : Zstd) (store : PageStore) (hs : store.Sorted) (cache : Option Mem)
    (hc : CacheSound z store cache) (calls : List (UInt64 × UInt32)) :
    (BtreeDb.loadPages z store cache calls).2 = calls.map (fun c => store.loadPage z c.1 c.2) ∧
      CacheSound z store (BtreeDb.loadPages z store cache calls).1 := by
  induction calls generalizing cache with
  | nil => exact ⟨rfl, hc⟩
  | cons call calls ih =>
    obtain ⟨heq, hsound⟩ := loadPageCached_eq hs hc call.1 call.2
    obtain ⟨hrest, hlast⟩ := ih _ hsound
    refine ⟨?_, hlast⟩
    show (BtreeDb.loadPage z store cache call.1 call.2).2 ::
      (BtreeDb.loadPages z store (BtreeDb.loadPage z store cache call.1 call.2).1 calls).2 = _
    rw [heq, hrest, List.map_cons]

/-- An initialised cache is sound: it holds nothing. -/
theorem cacheSound_init (z : Zstd) (store : PageStore) (m : Mem) (identity : Bytes) :
    CacheSound z store (some (initMetadata m identity)) := by
  intro m' hm' g key hg hk
  obtain rfl := Option.some.inj hm'
  have ht := (slotKey_iff hg).1 ⟨hk, rfl⟩
  rw [table_initMetadata] at ht
  cases ht

/-! ## One key twice -/

/-- A page of address 0 in snapshot 1. -/
def sharedFull : ChunkRecord := ChunkRecord.newFull 1 0 0 4106

/-- An empty patch, in snapshot 0, of the record with key 1. -/
def sharedDelta : ChunkRecord := ChunkRecord.newDelta 0 0 0 0 1

/-- These records in an index file, with one blob file. -/
def sharedDir (rs : List ChunkRecord) : Dir where
  log := none
  idx := some (indexFile rs)
  blobs w := if w = 0 then some (Zstd.raw.compress (noise 1)) else none

def sharedStore (rs : List ChunkRecord) : PageStore := ⟨.btree (indexFile rs) rs.length, (sharedDir rs).blobs⟩

theorem open_shared : PageStore.open (sharedDir [sharedDelta, sharedFull]) = .ok (sharedStore [sharedDelta, sharedFull]) ∧
    PageStore.open (sharedDir [sharedDelta, ChunkRecord.newZero 1, sharedFull]) =
      .ok (sharedStore [sharedDelta, ChunkRecord.newZero 1, sharedFull]) := by
  constructor
  · rfl
  · rfl

theorem sorted_shared : (sharedStore [sharedDelta, sharedFull]).Sorted := by
  intro i j hij hj
  have hi : i = 0 := by simp at hj; omega
  have hj' : j = 1 := by simp at hj; omega
  subst hi hj'
  decide +kernel

/-- An index of a Delta and its base, after an initialised cache. -/
theorem cachedReads_eq_shared :
    (BtreeDb.loadPages Zstd.raw (sharedStore [sharedDelta, sharedFull])
        (some (initMetadata (fun _ => 0) [])) [(0, 1), (0, 0)]).2 =
      [(0, 1), (0, 0)].map (fun c => (sharedStore [sharedDelta, sharedFull]).loadPage Zstd.raw c.1 c.2) ∧
    CacheSound Zstd.raw (sharedStore [sharedDelta, sharedFull])
      (BtreeDb.loadPages Zstd.raw (sharedStore [sharedDelta, sharedFull])
        (some (initMetadata (fun _ => 0) [])) [(0, 1), (0, 0)]).1 :=
  cachedReads_eq Zstd.raw _ sorted_shared _ (cacheSound_init _ _ _ _) _

/-- The Full record reads as its page. -/
theorem decompress_sharedFull (rs : List ChunkRecord) :
    (sharedStore rs).decompressBlobInto Zstd.raw sharedFull = .ok (noise 1) := by
  have hd : HoldsAt (Zstd.raw.compress (noise 1)) 0 4106 (Zstd.raw.compress (noise 1)) :=
    .whole (Zstd.raw_length (noise 1)).symm
  exact decompressBlobInto_full Zstd.raw_roundTrip rfl hd

/-- The Delta patches nothing. -/
theorem apply_sharedDelta (rs : List ChunkRecord) (page : Page) :
    BtreeDb.applyDelta (sharedStore rs) sharedDelta page = .ok page := by
  have hblob : (sharedStore rs).deltaBlob sharedDelta = .ok [] := by
    have hoff : (0 : UInt64).toNat = 0 := rfl
    have hd : HoldsAt (Zstd.raw.compress (noise 1)) 0 0 [] := by
      refine ⟨rfl, by rw [hoff, List.length_nil]; omega, by rw [hoff]; norm_num, ?_⟩
      rw [hoff, List.length_nil, Nat.add_zero, slice_self]
    exact deltaBlob_delta rfl hd
  unfold BtreeDb.applyDelta
  rw [hblob, ok_bind]
  rfl

/-- The store that has key 1 twice. -/
def twiceStore : PageStore := sharedStore [sharedDelta, ChunkRecord.newZero 1, sharedFull]

/-- `floor` finds the last record of key 1, the exact look-up the one before it. -/
theorem twice_lookups : twiceStore.floor 0 1 = .ok (some sharedFull) ∧ twiceStore.floor 0 0 = .ok (some sharedDelta) ∧
    twiceStore.exactLookup 1 = .ok (some (ChunkRecord.newZero 1)) := by
  decide +kernel

/-- The Full record is read and cached, when the cache does not have it. -/
theorem load_sharedFull {m : Mem} (h : (get m 1).2 = none) : BtreeDb.loadPage Zstd.raw twiceStore (some m) 0 1 =
    (some (put (get m 1).1 1 (noise 1)), .ok (some (noise 1))) := by
  have hres : BtreeDb.resolveCached Zstd.raw twiceStore (some m) sharedFull =
      (some (put (get m 1).1 1 (noise 1)), .ok (noise 1)) := by
    unfold BtreeDb.resolveCached BtreeDb.decompressAndPut
    rw [show sharedFull.kind = .full from rfl, show sharedFull.key = 1 from rfl, cacheGet_some, h]
    dsimp only
    rw [twiceStore, decompress_sharedFull]
    rfl
  unfold BtreeDb.loadPage
  rw [if_neg (by decide), twice_lookups.1]
  dsimp only
  rw [hres]

/-- The Delta is patched from the page the cache has for its base. -/
theorem load_sharedDelta {cache : Option Mem} {page : Page} (h : (BtreeDb.cacheGet cache 1).2 = some page) :
    (BtreeDb.loadPage Zstd.raw twiceStore cache 0 0).2 = .ok (some page) := by
  have hload : (BtreeDb.loadFullCached Zstd.raw twiceStore cache 1).2 = .ok page := by
    unfold BtreeDb.loadFullCached
    generalize BtreeDb.cacheGet cache 1 = r at h ⊢
    obtain ⟨cache', hit⟩ := r
    dsimp only at h
    rw [h]
  have hres : (BtreeDb.resolveCached Zstd.raw twiceStore cache sharedDelta).2 = .ok page := by
    unfold BtreeDb.resolveCached
    rw [show sharedDelta.kind = .delta from rfl, show sharedDelta.baseKey = 1 from rfl]
    dsimp only
    generalize BtreeDb.loadFullCached Zstd.raw twiceStore cache 1 = r at hload ⊢
    obtain ⟨cache', base⟩ := r
    dsimp only at hload
    rw [hload]
    exact apply_sharedDelta _ page
  unfold BtreeDb.loadPage
  rw [if_neg (by decide), twice_lookups.2.1]
  dsimp only
  generalize BtreeDb.resolveCached Zstd.raw twiceStore cache sharedDelta = r at hres ⊢
  obtain ⟨cache', result⟩ := r
  dsimp only at hres
  rw [hres]

/-- Without a cache the look-up of the base finds the Zero record. -/
theorem load_sharedDelta_uncached (page : Page) : twiceStore.loadPage Zstd.raw 0 0 ≠ .ok (some page) := by
  have hfail : twiceStore.loadPage Zstd.raw 0 0 = ioErr .invalidData "delta base is not a Full chunk" := by
    unfold PageStore.loadPage PageStore.resolveUncached PageStore.loadFull
    rw [if_neg (by decide), twice_lookups.2.1, ok_bind]
    dsimp only
    rw [show sharedDelta.kind = .delta from rfl, show sharedDelta.baseKey = 1 from rfl]
    dsimp only
    rw [twice_lookups.2.2]
    rfl
  rw [hfail]
  nofun

theorem loadPages_pair (z : Zstd) (store : PageStore) (cache : Option Mem) (c₁ c₂ : UInt64 × UInt32) :
    (BtreeDb.loadPages z store cache [c₁, c₂]).2 = [(BtreeDb.loadPage z store cache c₁.1 c₁.2).2,
      (BtreeDb.loadPage z store (BtreeDb.loadPage z store cache c₁.1 c₁.2).1 c₂.1 c₂.2).2] := rfl

/-- Key 1 is looked up to no Full record. -/
theorem twice_not_full (page : Page) : ¬ IsFullPage Zstd.raw twiceStore 1 page := by
  rintro ⟨rec, hlook, hkind, -⟩
  rw [twice_lookups.2.2] at hlook
  obtain rfl := Option.some.inj (Except.ok.inj hlook)
  cases hkind

/-- **With a key twice**, the base of a Delta is found in the cache after `floor` found it,
while the exact look-up finds another record. -/
theorem duplicate_keys : ¬ ∀ (dir : Dir) (store : PageStore) (cache : Option Mem) (calls : List (UInt64 × UInt32)),
    PageStore.open dir = .ok store → CacheSound Zstd.raw store cache →
    (BtreeDb.loadPages Zstd.raw store cache calls).2 = calls.map (fun c => store.loadPage Zstd.raw c.1 c.2) := by
  intro hall
  have hsound := cacheSound_init Zstd.raw twiceStore (fun _ => 0) []
  generalize initMetadata (fun _ => 0) [] = m at hsound
  have hmiss : (get m 1).2 = none := miss_of_not_full hsound twice_not_full
  have hkey : (1 : UInt64) ≠ emptyKey := by decide
  have hheld : (get (put (get m 1).1 1 (noise 1)) 1).2.isSome := hit_after_put hkey
  refine Exists.elim (Option.isSome_iff_exists.1 hheld) fun page hpage => ?_
  have hlast : (BtreeDb.loadPage Zstd.raw twiceStore (some (put (get m 1).1 1 (noise 1))) 0 0).2 = .ok (some page) :=
    load_sharedDelta (cacheGet_some_snd hpage)
  have heq := hall _ twiceStore (some m) [(0, 1), (0, 0)] open_shared.2 hsound
  rw [loadPages_pair, load_sharedFull hmiss, hlast, List.map_cons, List.map_cons] at heq
  have htail := (List.cons.inj (List.cons.inj heq).2).1
  exact load_sharedDelta_uncached page htail.symm

end Bxdb
