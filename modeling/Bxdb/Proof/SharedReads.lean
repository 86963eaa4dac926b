import Bxdb.Spec.SharedReads
import Bxdb.Proof.CachedReads
import Bxdb.Proof.Identity
import Bxdb.Proof.Lifecycle

/-!
# Readers that share a cache, over the life of a directory

* `run_loadPage`: a reader's thread, run alone, is `BtreeDb.loadPage`.
* `sharedLife_ok`: the cache holds pages that readers saw since it was created, whatever
  was saved, converted or purged meanwhile.
* `shared_reads`: **as long as no address was seen with two pages of one snapshot id, every
  order of the readers' steps gives each load the page it gives without a cache.**
* `stale_hit`: the condition is needed, as a purge leaves the cache alone.
-/

namespace Bxdb

open Bytes SortedIndex Versioned SharedCache ChunkRecord Memo Memory

/-! ## The threads -/

theorem holds_iff {m : Mem} {key : UInt64} {page : Page} : sharedCache.Holds m key page ↔
    ∃ g, g < totalSlots ∧ slotKey m g = some key ∧ readSlotPage m g = page := Iff.rfl

theorem sharedCache_get : sharedCache.get = SharedCache.get := rfl

theorem sharedCache_put : sharedCache.put = SharedCache.put := rfl

theorem sharedCache_sound : sharedCache.Sound where
  hit := by
    intro m key page h
    rw [sharedCache_get] at h
    exact slot_of_hit h
  get := by
    intro m key key' page h
    rw [sharedCache_get, holds_iff] at h
    obtain ⟨g, hg, hk, rfl⟩ := h
    obtain ⟨hk', hpage⟩ := slot_get hg hk
    exact ⟨g, hg, hk', hpage⟩
  put := by
    intro m key page key' page' h
    rw [sharedCache_put, holds_iff] at h
    obtain ⟨g, hg, hk, rfl⟩ := h
    rcases slot_put hg hk with h | ⟨hk', hpage⟩
    · exact .inl h
    · exact .inr ⟨g, hg, hk', hpage⟩

section Alone

variable (z : Zstd) (store : PageStore)

theorem run_decompressAndPut (m : Mem) (key : UInt64) (rec : ChunkRecord) :
    BtreeDb.decompressAndPut z store (some m) key rec =
      (some ((SharedReads.decompressAndPut z store key rec).run sharedCache m).1,
        ((SharedReads.decompressAndPut z store key rec).run sharedCache m).2) := by
  unfold BtreeDb.decompressAndPut SharedReads.decompressAndPut
  cases store.decompressBlobInto z rec <;> rfl

theorem run_loadFullCached (m : Mem) (key : UInt64) :
    BtreeDb.loadFullCached z store (some m) key =
      (some ((SharedReads.loadFullCached z store key).run sharedCache m).1,
        ((SharedReads.loadFullCached z store key).run sharedCache m).2) := by
  unfold BtreeDb.loadFullCached SharedReads.loadFullCached
  rw [cacheGet_some, Thread.run_get, sharedCache_get]
  cases (SharedCache.get m key).2 with
  | some page => rfl
  | none =>
    dsimp only
    cases store.exactLookup key with
    | error e => rfl
    | ok found =>
      cases found with
      | none => rfl
      | some rec =>
        dsimp only
        split
        · rfl
        · exact run_decompressAndPut z store _ key rec

theorem run_resolveCached (m : Mem) (rec : ChunkRecord) :
    BtreeDb.resolveCached z store (some m) rec =
      (some ((SharedReads.resolveCached z store rec).run sharedCache m).1,
        ((SharedReads.resolveCached z store rec).run sharedCache m).2) := by
  unfold BtreeDb.resolveCached SharedReads.resolveCached
  cases rec.kind with
  | zero => rfl
  | full =>
    dsimp only
    rw [cacheGet_some, Thread.run_get, sharedCache_get]
    cases (SharedCache.get m rec.key).2 with
    | some page => rfl
    | none => exact run_decompressAndPut z store _ rec.key rec
  | delta =>
    dsimp only
    rw [run_loadFullCached, Thread.run_bind, Thread.run_done]
    cases ((SharedReads.loadFullCached z store rec.baseKey).run sharedCache m).2 <;> rfl

/-- **A reader alone** loads as the reader with a cache of its own does. -/
theorem run_loadPage (m : Mem) (pa : UInt64) (s : UInt32) :
    BtreeDb.loadPage z store (some m) pa s =
      (some ((SharedReads.loadPage z store pa s).run sharedCache m).1,
        ((SharedReads.loadPage z store pa s).run sharedCache m).2) := by
  unfold BtreeDb.loadPage SharedReads.loadPage
  split
  · rfl
  · cases store.floor pa s with
    | error e => rfl
    | ok found =>
      cases found with
      | none => rfl
      | some rec =>
        dsimp only
        rw [run_resolveCached, Thread.run_bind, Thread.run_done]
        cases ((SharedReads.resolveCached z store rec).run sharedCache m).2 <;> rfl

end Alone

/-! ## Stored versions -/

section Stored

variable {z : Zstd} {store : PageStore} {vs : List Version} {T : UInt64 → Page → Prop} {v : Version}

theorem Stored.decompress (hz : z.RoundTrip) (hst : Stored z vs store.blobs v) (hk : v.chunk.kind = .full) :
    store.decompressBlobInto z v.chunk = .ok v.page := by
  obtain ⟨key, w, off, len, bs, hc, hblob, hdata⟩ := hst.full_inv hk
  rw [hc]
  exact decompressBlobInto_full hz hblob hdata

theorem decompressAndPut_full (hz : z.RoundTrip) (hst : Stored z vs store.blobs v) (hk : v.chunk.kind = .full)
    (key : UInt64) : SharedReads.decompressAndPut z store key v.chunk = .put key v.page (.done (.ok v.page)) := by
  unfold SharedReads.decompressAndPut
  rw [hst.decompress hz hk]

/-- The thread of a base. -/
theorem loadFullCached_base (hz : z.RoundTrip) (hS : Serves store vs) (hv : v ∈ vs) (hst : Stored z vs store.blobs v)
    (hk : v.chunk.kind = .full) : SharedReads.loadFullCached z store v.key = .get v.key fun hit =>
      match hit with
      | some page => .done (.ok page)
      | none => .put v.key v.page (.done (.ok v.page)) := by
  unfold SharedReads.loadFullCached
  congr 1
  funext hit
  cases hit with
  | some page => rfl
  | none =>
    dsimp only
    rw [hS.exact v hv]
    dsimp only
    rw [if_neg (fun h => h hk), decompressAndPut_full hz hst hk]

/-- **A version's thread offers pages of versions only.** -/
theorem offers_resolve (hz : z.RoundTrip) (hS : Serves store vs) (hall : ∀ v ∈ vs, Stored z vs store.blobs v)
    (hput : ∀ v ∈ vs, T v.key v.page) (hv : v ∈ vs) : (SharedReads.resolveCached z store v.chunk).Offers T := by
  have hst := hall v hv
  unfold SharedReads.resolveCached
  cases hk : v.chunk.kind with
  | zero => exact trivial
  | full =>
    intro hit
    cases hit with
    | some page => exact trivial
    | none =>
      dsimp only
      rw [decompressAndPut_full hz hst hk]
      exact ⟨hput v hv, trivial⟩
  | delta =>
    cases hst with
    | zero => cases hk
    | full => cases hk
    | @delta key w off len page bs base hbase hfull hpa hsnap hblob hdata =>
      dsimp only
      rw [newDelta_baseKey, loadFullCached_base hz hS hbase (hall base hbase) hfull]
      refine Thread.Offers.bind (fun hit => ?_) fun _ => trivial
      cases hit with
      | some page => exact trivial
      | none => exact ⟨hput base hbase, trivial⟩

/-- **It returns the version's page** when the table has no other page for a version's key. -/
theorem returns_resolve (hz : z.RoundTrip) (hS : Serves store vs) (hall : ∀ v ∈ vs, Stored z vs store.blobs v)
    (hget : ∀ v ∈ vs, ∀ page, T v.key page → page = v.page) (hv : v ∈ vs) :
    (SharedReads.resolveCached z store v.chunk).Returns T (.ok v.page) := by
  have hst := hall v hv
  have huncached : store.resolveUncached z v.chunk = .ok v.page :=
    resolve_stored hz hS (fun v hv _ => hall v hv) hv (le_refl v.snap)
  unfold SharedReads.resolveCached
  unfold PageStore.resolveUncached at huncached
  cases hk : v.chunk.kind with
  | zero =>
    rw [hk] at huncached
    exact huncached
  | full =>
    refine ⟨?_, fun page hpage => congrArg Except.ok (hget v hv page hpage)⟩
    dsimp only
    rw [decompressAndPut_full hz hst hk]
    exact rfl
  | delta =>
    cases hst with
    | zero => cases hk
    | full => cases hk
    | @delta key w off len page bs base hbase hfull hpa hsnap hblob hdata =>
      have hbaseSt := hall base hbase
      dsimp only at huncached ⊢
      rw [newDelta_kind, newDelta_baseKey, loadFull_base hz hS hbase hbaseSt hfull, ok_bind] at huncached
      rw [newDelta_baseKey, loadFullCached_base hz hS hbase hbaseSt hfull]
      have hreturns : Thread.Returns T (Except.ok base.page : Res Page) (.get base.key fun hit =>
          match hit with
          | some page => .done (.ok page)
          | none => .put base.key base.page (.done (.ok base.page))) :=
        ⟨rfl, fun page hpage => congrArg Except.ok (hget base hbase page hpage)⟩
      exact hreturns.bind huncached

/-- **It looks up a key of the version's address first**, unless the page is zero. -/
theorem begins_resolve (hst : Stored z vs store.blobs v) (hne : v.page ≠ Page.zero) :
    ∃ key next, SharedReads.resolveCached z store v.chunk = .get key next ∧ paOf key = v.pa := by
  cases hst with
  | zero => exact absurd rfl hne
  | full => exact ⟨_, _, rfl, rfl⟩
  | delta hbase hfull hpa => exact ⟨_, _, rfl, hpa⟩

theorem offers_loadPage (hz : z.RoundTrip) (hS : Serves store vs) (hall : ∀ v ∈ vs, Stored z vs store.blobs v)
    (hput : ∀ v ∈ vs, T v.key v.page) (pa : UInt64) (s : UInt32) : (SharedReads.loadPage z store pa s).Offers T := by
  unfold SharedReads.loadPage
  split
  · exact trivial
  · rename_i hs
    obtain ⟨r, hfloor, hr⟩ := hS.floor pa s (UInt32.not_lt.1 hs)
    rw [hfloor]
    cases r with
    | none => exact trivial
    | some rec =>
      obtain ⟨v, hv, rfl, -⟩ := asOf_versions hr
      exact (offers_resolve hz hS hall hput hv).bind fun _ => trivial

theorem begins_loadPage (hS : Serves store vs) (hall : ∀ v ∈ vs, Stored z vs store.blobs v)
    (hne : ∀ v ∈ vs, v.page ≠ Page.zero) {pa : UInt64} {s : UInt32} (hs : s ≤ maxSnapshotId) {t : ℕ} {page : Page}
    (hw : pagesOf vs pa t page) (hle : t ≤ s.toNat) :
    ∃ key next, SharedReads.loadPage z store pa s = .get key next ∧ paOf key = pa := by
  obtain ⟨r, hfloor, hr⟩ := hS.floor pa s hs
  unfold SharedReads.loadPage
  rw [if_neg (UInt32.not_lt.2 hs), hfloor]
  cases r with
  | none => exact absurd hle (asOf_none.1 (asOf_no_version hr) t page hw)
  | some rec =>
    obtain ⟨u, ⟨hmem, hpa, -⟩, -⟩ := asOf_some.1 hr
    obtain ⟨v, hv, rfl⟩ := List.mem_map.1 hmem
    obtain ⟨key, next, hget, hkey⟩ := begins_resolve (hall v hv) (hne v hv)
    dsimp only
    rw [hget]
    exact ⟨key, _, rfl, hkey.trans hpa⟩

/-- **A load returns what it returns without a cache.** -/
theorem returns_loadPage (hz : z.RoundTrip) (hS : Serves store vs) (hall : ∀ v ∈ vs, Stored z vs store.blobs v)
    (hget : ∀ v ∈ vs, ∀ page, T v.key page → page = v.page) (pa : UInt64) (s : UInt32) :
    (SharedReads.loadPage z store pa s).Returns T (store.loadPage z pa s) := by
  unfold SharedReads.loadPage PageStore.loadPage
  split
  · exact rfl
  · rename_i hs
    obtain ⟨r, hfloor, hr⟩ := hS.floor pa s (UInt32.not_lt.1 hs)
    rw [hfloor, ok_bind]
    cases r with
    | none => exact rfl
    | some rec =>
      obtain ⟨v, hv, rfl, -⟩ := asOf_versions hr
      dsimp only
      rw [resolve_stored hz hS (fun v hv _ => hall v hv) hv (le_refl v.snap), ok_bind]
      exact (returns_resolve hz hS hall hget hv).bind rfl

theorem readers_offer (hz : z.RoundTrip) (hS : Serves store vs) (hall : ∀ v ∈ vs, Stored z vs store.blobs v)
    (hput : ∀ v ∈ vs, T v.key v.page) (loads : List (UInt64 × UInt32)) :
    ∀ th ∈ SharedReads.readers z store loads, th.Offers T := by
  intro th hth
  obtain ⟨l, -, rfl⟩ := List.mem_map.1 hth
  exact offers_loadPage hz hS hall hput l.1 l.2

theorem readers_return (hz : z.RoundTrip) (hS : Serves store vs) (hall : ∀ v ∈ vs, Stored z vs store.blobs v)
    (hget : ∀ v ∈ vs, ∀ page, T v.key page → page = v.page) (loads : List (UInt64 × UInt32)) :
    List.Forall₂ (fun r th => Thread.Returns T r th) (loads.map fun l => store.loadPage z l.1 l.2)
      (SharedReads.readers z store loads) := by
  unfold SharedReads.readers
  rw [List.forall₂_map_left_iff, List.forall₂_map_right_iff, List.forall₂_same]
  exact fun l _ => returns_loadPage hz hS hall hget l.1 l.2

end Stored

/-! ## The life of a directory and its cache -/

section Life

variable {z : Zstd} {identity : Bytes} {es : List CacheCommand} {dir : Dir} {file : Option CacheFile}

/-- The commands on the directory. -/
def commandsOf (es : List CacheCommand) : List Command :=
  es.filterMap fun
    | .run c => some c
    | _ => none

/-- The page a key names was seen. -/
def SeenPage (W : Writes UInt64 ℕ Page) (key : UInt64) (page : Page) : Prop := W (paOf key) (snapshotOf key).toNat page

theorem Lifecycle.runs {cs : List Command} {c : Command} {dir' : Dir} (h : Lifecycle z cs dir) (hc : Command.Runs z c dir dir') :
    Lifecycle z (cs ++ [c]) dir' := by
  cases hc with
  | session hs hrange => exact .session h hs hrange
  | toBtree hc => exact .toBtree h hc
  | toLog hc => exact .toLog h hc
  | purge hp => exact .purge h hp

theorem sightings_concat (es : List CacheCommand) (e : CacheCommand) : sightings (es ++ [e]) = (sightings es).step e := by
  unfold sightings
  rw [List.foldl_append]
  rfl

theorem commandsOf_run (es : List CacheCommand) (c : Command) : commandsOf (es ++ [.run c]) = commandsOf es ++ [c] := by
  unfold commandsOf
  rw [List.filterMap_append]
  rfl

theorem commandsOf_other (es : List CacheCommand) {e : CacheCommand} (he : commandsOf [e] = []) :
    commandsOf (es ++ [e]) = commandsOf es := by
  unfold commandsOf at he ⊢
  rw [List.filterMap_append, he, List.append_nil]

/-- The readers' view is the archive's. -/
theorem archive_sightings (es : List CacheCommand) : (sightings es).archive = archived (commandsOf es) := by
  induction es using List.reverseRecOn with
  | nil => rfl
  | append_singleton es e ih =>
    rw [sightings_concat]
    cases e with
    | run c =>
      rw [commandsOf_run, archived_concat, ← ih]
      rfl
    | create => rw [commandsOf_other es rfl]; exact ih
    | delete => rw [commandsOf_other es rfl]; exact ih
    | reads loads => rw [commandsOf_other es rfl]; exact ih

/-- The cache file holds what readers saw since it was created, which is all they see now. -/
structure SharedOk (z : Zstd) (es : List CacheCommand) (dir : Dir) (file : Option CacheFile) : Prop where
  life : Lifecycle z (commandsOf es) dir
  seen : ∀ W, (sightings es).cached = some W → (sightings es).archive.read ≤ W
  held : ∀ f, file = some f → ∃ W, (sightings es).cached = some W ∧ sharedCache.Within (SeenPage W) f.mem

theorem within_mono {W W' : Writes UInt64 ℕ Page} {m : Mem} (h : sharedCache.Within (SeenPage W) m) (hle : W ≤ W') :
    sharedCache.Within (SeenPage W') m := fun key page hold => hle _ _ _ (h key page hold)

/-- `create` initialises the file, or leaves it as it is. -/
theorem create_cases (file : Option CacheFile) (identity : Bytes) :
    (∃ f : CacheFile, create file identity = { f with mem := initMetadata f.mem identity }) ∨
      ∃ f, file = some f ∧ create file identity = f := by
  unfold create
  generalize hf : file.getD .empty = f
  by_cases hsize : f.size < totalBytes
  · exact .inl ⟨f.ftruncate totalBytes, by simp only [hsize, decide_true, Bool.true_or, if_true]⟩
  · have hsome : file = some f := by
      cases file with
      | none =>
        obtain rfl : CacheFile.empty = f := hf
        exact absurd (by decide : (0 : ℕ) < totalBytes) hsize
      | some f' => exact congrArg some hf
    simp only [hsize, decide_false, Bool.false_or, Bool.false_eq_true, if_false]
    split
    · exact .inl ⟨f, rfl⟩
    · exact .inr ⟨f, hsome, rfl⟩

/-- What is held after `create` was held before. -/
theorem holds_create {key : UInt64} {page : Page} (h : sharedCache.Holds (create file identity).mem key page) :
    ∃ f, file = some f ∧ sharedCache.Holds f.mem key page := by
  rcases create_cases file identity with ⟨f, hf⟩ | ⟨f, hfile, hf⟩
  · obtain ⟨g, hg, hkey, -⟩ := h
    rw [hf, empty_initMetadata f identity g hg] at hkey
    cases hkey
  · rw [hf] at h
    exact ⟨f, hfile, h⟩

theorem open_cache {cache : CacheFile} (h : SharedCache.open file identity = .ok cache) :
    file = some cache ∧ verifyIdentity cache.mem identity = .ok () := by
  unfold SharedCache.open at h
  cases file with
  | none => cases h
  | some f =>
    dsimp only at h
    split at h
    · cases h
    · cases hv : verifyIdentity f.mem identity with
      | error e =>
        rw [hv] at h
        cases h
      | ok u =>
        rw [hv] at h
        cases h
        exact ⟨rfl, hv⟩

/-- **What a store opened on the directory serves.** -/
theorem LifeOk.store {a : Archive UInt64 ℕ Page} {seen later : List Version} (h : LifeOk z a seen later dir) :
    ∃ store, PageStore.open dir = .ok store ∧ store.blobs = dir.blobs ∧ Serves store seen := by
  rcases h.index with ⟨-, hidx, rfl⟩ | ⟨-, hidx⟩
  · have hd := h.dirOk
    rw [List.append_nil] at hd
    exact (hd.formOk hidx).open
  · exact open_indexFile h.ordered hidx

theorem lifecycle_nil {cs : List Command} (h : Lifecycle z cs dir) (hnil : cs = []) : dir = Dir.empty := by
  cases h with
  | empty => rfl
  | session => exact absurd hnil (by simp)
  | toBtree => exact absurd hnil (by simp)
  | toLog => exact absurd hnil (by simp)
  | purge => exact absurd hnil (by simp)

/-- A directory that can be opened has had a session. -/
theorem SharedOk.lifeOk {store : PageStore} (h : SharedOk z es dir file) (hopen : PageStore.open dir = .ok store) :
    ∃ seen later, LifeOk z (sightings es).archive seen later dir ∧ Serves store seen ∧
      ∀ v ∈ seen, Stored z seen store.blobs v := by
  have hne : commandsOf es ≠ [] := by
    intro hnil
    rw [lifecycle_nil h.life hnil] at hopen
    cases hopen
  obtain ⟨seen, later, hok⟩ := lifecycle_archive h.life hne
  rw [← archive_sightings] at hok
  obtain ⟨store', hopen', hblobs, hS⟩ := hok.store
  obtain rfl := Except.ok.inj (hopen.symm.trans hopen')
  exact ⟨seen, later, hok, hS, fun v hv => hblobs ▸ hok.stored v hv⟩

/-- The pages of the versions are what readers see. -/
theorem LifeOk.seenPage {a : Archive UInt64 ℕ Page} {seen later : List Version} (h : LifeOk z a seen later dir)
    {v : Version} (hv : v ∈ seen) : SeenPage a.read v.key v.page := by
  unfold SeenPage
  rw [h.read]
  exact ⟨v, ⟨hv, rfl, rfl⟩, rfl⟩

theorem SharedOk.run (h : SharedOk z es dir file) {c : Command} {dir' : Dir} (hc : Command.Runs z c dir dir') :
    SharedOk z (es ++ [.run c]) dir' file := by
  refine ⟨?_, fun W hW => ?_, fun f hf => ?_⟩
  · rw [commandsOf_run]
    exact h.life.runs hc
  · rw [sightings_concat] at hW ⊢
    obtain ⟨W₀, -, rfl⟩ := Option.map_eq_some_iff.1 hW
    exact le_sup_right
  · obtain ⟨W, hW, hheld⟩ := h.held f hf
    rw [sightings_concat]
    exact ⟨_, congrArg (Option.map _) hW, within_mono hheld le_sup_left⟩

theorem SharedOk.create (h : SharedOk z es dir file) (identity : Bytes) :
    SharedOk z (es ++ [.create]) dir (some (SharedCache.create file identity)) := by
  refine ⟨?_, fun W hW => ?_, fun f hf => ?_⟩
  · rw [commandsOf_other es rfl]
    exact h.life
  · rw [sightings_concat] at hW ⊢
    obtain rfl := Option.some.inj hW
    cases hcached : (sightings es).cached with
    | none => exact le_rfl
    | some W => exact h.seen W hcached
  · obtain rfl := Option.some.inj hf
    rw [sightings_concat]
    refine ⟨_, rfl, fun key page hold => ?_⟩
    -- a file that is kept holds what it held
    obtain ⟨f, hfile, hold⟩ := holds_create hold
    obtain ⟨W, hW, hheld⟩ := h.held f hfile
    rw [hW]
    exact hheld key page hold

theorem SharedOk.delete (h : SharedOk z es dir file) : SharedOk z (es ++ [.delete]) dir none := by
  refine ⟨?_, fun W hW => ?_, nofun⟩
  · rw [commandsOf_other es rfl]
    exact h.life
  · rw [sightings_concat] at hW
    cases hW

/-- Readers that put only what was seen. -/
theorem SharedOk.reads (h : SharedOk z es dir file) (loads : List (UInt64 × UInt32)) {f : CacheFile} {W : Writes UInt64 ℕ Page}
    (hW : (sightings es).cached = some W) (hheld : sharedCache.Within (SeenPage W) f.mem) :
    SharedOk z (es ++ [.reads loads]) dir (some f) := by
  refine ⟨?_, fun W hW => ?_, fun f' hf => ?_⟩
  · rw [commandsOf_other es rfl]
    exact h.life
  · rw [sightings_concat] at hW ⊢
    exact h.seen W hW
  · obtain rfl := Option.some.inj hf
    rw [sightings_concat]
    exact ⟨W, hW, hheld⟩

/-- **Readers put what was seen** since the cache was created, and the cache holds nothing else. -/
theorem SharedOk.offers (hz : z.RoundTrip) (h : SharedOk z es dir file) {store : PageStore} {cache : CacheFile}
    (hopen : PageStore.open dir = .ok store) (hcache : SharedCache.open file identity = .ok cache)
    (loads : List (UInt64 × UInt32)) : ∃ W, (sightings es).cached = some W ∧
      (∀ th ∈ SharedReads.readers z store loads, th.Offers (SeenPage W)) ∧ sharedCache.Within (SeenPage W) cache.mem := by
  obtain ⟨seen, later, hlife, hS, hall⟩ := h.lifeOk hopen
  obtain ⟨W, hW, hheld⟩ := h.held cache (open_cache hcache).1
  have hput : ∀ v ∈ seen, SeenPage W v.key v.page := fun v hv => h.seen W hW _ _ _ (hlife.seenPage hv)
  exact ⟨W, hW, readers_offer hz hS hall hput loads, hheld⟩

/-- **Their results are those without a cache** when no address was seen with two pages of one
snapshot id. -/
theorem SharedOk.returns (hz : z.RoundTrip) (h : SharedOk z es dir file) {store : PageStore}
    (hopen : PageStore.open dir = .ok store) (loads : List (UInt64 × UInt32)) {W : Writes UInt64 ℕ Page}
    (hW : (sightings es).cached = some W) (hfun : Functional W) :
    List.Forall₂ (fun r th => Thread.Returns (SeenPage W) r th) (loads.map fun l => store.loadPage z l.1 l.2)
      (SharedReads.readers z store loads) := by
  obtain ⟨seen, later, hlife, hS, hall⟩ := h.lifeOk hopen
  refine readers_return hz hS hall (fun v hv page hpage => ?_) loads
  exact hfun hpage (h.seen W hW _ _ _ (hlife.seenPage hv))

/-- What the loads that have ended returned. -/
theorem SharedOk.results (hz : z.RoundTrip) (h : SharedOk z es dir file) {store : PageStore}
    (hopen : PageStore.open dir = .ok store) {loads : List (UInt64 × UInt32)} {T : UInt64 → Page → Prop}
    {threads : List (Thread UInt64 Page (Res (Option Page)))}
    (hreturns : List.Forall₂ (fun r th => Thread.Returns T r th) (loads.map fun l => store.loadPage z l.1 l.2) threads) :
    threads.length = loads.length ∧ ∀ (i : ℕ) pa s r, loads[i]? = some (pa, s) → threads[i]? = some (Thread.done r) →
      r = loadPage z dir pa s ∧
        (s ≤ maxSnapshotId → ∃ page, r = .ok page ∧ AsOf (archived (commandsOf es)).read pa s.toNat page) := by
  obtain ⟨seen, later, hlife, -, -⟩ := h.lifeOk hopen
  refine ⟨?_, fun i pa s r hload hdone => ?_⟩
  · rw [← hreturns.length_eq, List.length_map]
  · have hres : (loads.map fun l => store.loadPage z l.1 l.2)[i]? = some (store.loadPage z pa s) := by
      rw [List.getElem?_map, hload]
      rfl
    obtain ⟨hi, hresult⟩ := List.getElem?_eq_some_iff.1 hres
    obtain ⟨hi', hthread⟩ := List.getElem?_eq_some_iff.1 hdone
    have hreturn := hreturns.get hi hi'
    rw [List.get_eq_getElem, List.get_eq_getElem, hresult, hthread] at hreturn
    have hload' : loadPage z dir pa s = r := by
      unfold loadPage
      rw [hopen, ok_bind]
      exact hreturn.symm
    refine ⟨hload'.symm, fun hs => ?_⟩
    obtain ⟨page, hpage, hasOf⟩ := hlife.load hz pa hs
    rw [archive_sightings] at hasOf
    exact ⟨page, hload'.symm.trans hpage, hasOf⟩

/-- **The cache holds what readers saw since it was created.** -/
theorem sharedLife_ok (hz : z.RoundTrip) (h : SharedLife z identity es dir file) : SharedOk z es dir file := by
  induction h with
  | empty => exact ⟨.empty, nofun, nofun⟩
  | run _ hc ih => exact ih.run hc
  | create _ ih => exact ih.create identity
  | delete _ ih => exact ih.delete
  | @reads es dir file store cache loads threads m _ hopen hcache hrun ih =>
    obtain ⟨W, hW, hoffers, hheld⟩ := ih.offers hz hopen hcache loads
    exact ih.reads loads hW (Run.within sharedCache_sound hrun ⟨hoffers, hheld⟩).2

/-- **Readers that share a cache**: in every order of their steps, each load returns what it
returns without a cache, unless an address was seen with two pages of one snapshot id since
the cache was created. -/
theorem shared_reads (hz : z.RoundTrip) (h : SharedLife z identity es dir file)
    (hfun : ∀ W, (sightings es).cached = some W → Functional W) {store : PageStore} {cache : CacheFile}
    (hopen : PageStore.open dir = .ok store) (hcache : SharedCache.open file identity = .ok cache)
    (loads : List (UInt64 × UInt32)) {threads : List (Thread UInt64 Page (Res (Option Page)))} {m : Mem}
    (hrun : Run sharedCache (SharedReads.readers z store loads, cache.mem) (threads, m)) :
    threads.length = loads.length ∧ ∀ (i : ℕ) pa s r, loads[i]? = some (pa, s) → threads[i]? = some (Thread.done r) →
      r = loadPage z dir pa s ∧
        (s ≤ maxSnapshotId → ∃ page, r = .ok page ∧ AsOf (archived (commandsOf es)).read pa s.toNat page) := by
  have hok := sharedLife_ok hz h
  obtain ⟨W, hW, hoffers, hheld⟩ := hok.offers hz hopen hcache loads
  have hreturns := hok.returns hz hopen loads hW (hfun W hW)
  exact hok.results hz hopen (Run.returns sharedCache_sound hrun ⟨hoffers, hheld⟩ hreturns)

/-! ## When no page is seen twice -/

/-- The calls of a command. -/
def Command.saves : Command → List SaveCall
  | .session cs => cs
  | _ => []

theorem recorded_savedBy (cs : List Command) :
    Archive.recorded (cs.map Command.event) ≤ savedBy (cs.flatMap Command.saves) := by
  rintro pa t page ⟨W, hW, hpage⟩
  obtain ⟨c, hc, hevent⟩ := List.mem_map.1 hW
  cases c with
  | session calls =>
    obtain rfl := Archive.Event.record.inj hevent
    obtain ⟨call, hcall, hsaved⟩ := hpage
    exact ⟨call, List.mem_flatMap.2 ⟨_, hc, hcall⟩, hsaved⟩
  | toBtree => cases hevent
  | toLog => cases hevent
  | purge u => cases hevent

/-- Readers see what was saved at some time. -/
theorem cached_le (es : List CacheCommand) :
    ∀ W, (sightings es).cached = some W → W ≤ savedBy ((commandsOf es).flatMap Command.saves) := by
  -- what the store shows now was saved by some command
  have hread : ∀ es, (sightings es).archive.read ≤ savedBy ((commandsOf es).flatMap Command.saves) := by
    intro es
    rw [archive_sightings]
    exact (Archive.run_sound _).2.trans (recorded_savedBy _)
  induction es using List.reverseRecOn with
  | nil => exact nofun
  | append_singleton es e ih =>
    intro W hW
    have hnow := hread (es ++ [e])
    rw [sightings_concat] at hW hnow
    cases e with
    | run c =>
      obtain ⟨W₀, hW₀, rfl⟩ := Option.map_eq_some_iff.1 hW
      refine sup_le ((ih W₀ hW₀).trans ?_) hnow
      rintro pa t page ⟨call, hcall, hsaved⟩
      rw [commandsOf_run, List.flatMap_append]
      exact ⟨call, List.mem_append_left _ hcall, hsaved⟩
    | create =>
      obtain rfl := Option.some.inj hW
      rw [commandsOf_other es rfl] at hnow ⊢
      cases hcached : (sightings es).cached with
      | none => exact hnow
      | some W => exact ih W hcached
    | delete => cases hW
    | reads loads =>
      rw [commandsOf_other es rfl]
      exact ih W hW

theorem savedBy_functional {cs : List SaveCall} (hids : (cs.map SaveCall.id).Nodup) : Functional (savedBy cs) := by
  rintro pa t p q ⟨c, hc, hid, hp⟩ ⟨c', hc', hid', hq⟩
  have heq : c = c' := List.inj_on_of_nodup_map hids hc hc' (UInt32.toNat_inj.1 (hid.trans hid'.symm))
  rw [heq] at hp
  exact Option.some.inj (hp.symm.trans hq)

/-- **Snapshot ids that are never saved twice** leave the readers no two pages to see. -/
theorem functional_of_ids (hids : (((commandsOf es).flatMap Command.saves).map SaveCall.id).Nodup) :
    ∀ W, (sightings es).cached = some W → Functional W :=
  fun W hW _ _ _ _ ha hb => savedBy_functional hids (cached_le es W hW _ _ _ ha) (cached_le es W hW _ _ _ hb)

/-- A page that is held for a Full record is returned, whatever the store has: a purge does
not touch the cache, and the ids above its threshold can be saved again. -/
theorem stale_hit {store : PageStore} {m : Mem} {rec : ChunkRecord} {pa : UInt64} {s : UInt32} {page : Page}
    (hs : s ≤ maxSnapshotId) (hfloor : store.floor pa s = .ok (some rec)) (hfull : rec.kind = .full)
    (hheld : (SharedCache.get m rec.key).2 = some page) :
    ((SharedReads.loadPage z store pa s).run sharedCache m).2 = .ok (some page) := by
  unfold SharedReads.loadPage
  rw [if_neg (UInt32.not_lt.2 hs), hfloor]
  dsimp only
  unfold SharedReads.resolveCached
  rw [hfull]
  dsimp only
  rw [Thread.run_bind, Thread.run_get, sharedCache_get, hheld]
  rfl

end Life

/-- Three saves. -/
theorem exists_runs : ∃ dir store, Command.Runs Zstd.raw (.session threeSaves) Dir.empty dir ∧ PageStore.open dir = .ok store := by
  obtain ⟨dir, hs, -, -⟩ := threeSaves_session
  have hrange := onePages_inRange [(noise 1, 1), (noise 2, 4), (noise 3, 9)]
  have hl : Lifecycle Zstd.raw ([] ++ [.session threeSaves]) dir := .session .empty hs hrange
  obtain ⟨seen, later, hok⟩ := lifecycle_archive hl (by simp)
  obtain ⟨store, hopen, -⟩ := hok.store
  exact ⟨dir, store, .session hs hrange, hopen⟩

/-- A load of a reader on them begins with a look-up. -/
theorem threeSaves_begins {dir : Dir} {store : PageStore} (hrun : Command.Runs Zstd.raw (.session threeSaves) Dir.empty dir)
    (hopen : PageStore.open dir = .ok store) :
    ∃ key next, SharedReads.loadPage Zstd.raw store 0 4 = .get key next ∧ key ≠ emptyKey := by
  have hl : Lifecycle Zstd.raw ([] ++ [.session threeSaves]) dir := Lifecycle.runs .empty hrun
  obtain ⟨seen, later, hok⟩ := lifecycle_archive hl (by simp)
  obtain ⟨store', hopen', hblobs, hS⟩ := hok.store
  obtain rfl := Except.ok.inj (hopen.symm.trans hopen')
  have hread : pagesOf seen = savedBy threeSaves := hok.read.symm.trans (bot_sup_eq _)
  have hfirst : pagesOf seen 0 1 (noise 1) := by
    rw [hread]
    exact savedBy_onePage.2 ⟨rfl, _, List.mem_cons_self, rfl, rfl⟩
  have hne : ∀ v ∈ seen, v.page ≠ Page.zero := by
    intro v hv
    have hw : pagesOf seen v.pa v.snap v.page := ⟨v, ⟨hv, rfl, rfl⟩, rfl⟩
    rw [hread] at hw
    obtain ⟨-, e, he, -, hp⟩ := savedBy_onePage.1 hw
    rw [← hp]
    simp only [List.mem_cons, List.not_mem_nil, or_false] at he
    rcases he with rfl | rfl | rfl <;> exact noise_ne_zero (by decide)
  obtain ⟨key, next, hget, hkey⟩ := begins_loadPage hS (fun v hv => by rw [hblobs]; exact hok.stored v hv) hne
    (by decide : (4 : UInt32) ≤ maxSnapshotId) hfirst (by decide)
  refine ⟨key, next, hget, ?_⟩
  rintro rfl
  exact absurd hkey (by decide)

theorem open_created : SharedCache.open (some (create none [47])) [47] = .ok (create none [47]) := by
  rw [(create_belongs none (by decide)).open, if_pos (by decide)]

/-- Three saves, and a cache. -/
theorem exists_shared : ∃ dir store,
    SharedLife Zstd.raw [47] [.run (.session threeSaves), .create] dir (some (create none [47])) ∧
    PageStore.open dir = .ok store ∧ SharedCache.open (some (create none [47])) [47] = .ok (create none [47]) := by
  obtain ⟨dir, store, hrun, hopen⟩ := exists_runs
  have hlife : SharedLife Zstd.raw [47] ([] ++ [.run (.session threeSaves)] ++ [.create]) dir (some (create none [47])) :=
    .create (.run .empty hrun)
  exact ⟨dir, store, hlife, hopen, open_created⟩

/-- Two readers of one page, which both end. -/
theorem shared_reads_noise : ∃ dir store, PageStore.open dir = .ok store ∧
    ∃ r m, Run sharedCache (SharedReads.readers Zstd.raw store [(0, 4), (0, 4)], (create none [47]).mem)
        ([.done r, .done r], m) ∧ r = loadPage Zstd.raw dir 0 4 := by
  obtain ⟨dir, store, hlife, hopen, hcache⟩ := exists_shared
  obtain ⟨rs, m, hrun⟩ := exists_done sharedCache (SharedReads.readers Zstd.raw store [(0, 4), (0, 4)]) (create none [47]).mem
  obtain ⟨hlen, hres⟩ := shared_reads Zstd.raw_roundTrip hlife (functional_of_ids (by decide)) hopen hcache _ hrun
  rw [List.length_map] at hlen
  obtain ⟨r, r', rfl⟩ : ∃ r r', rs = [r, r'] := List.length_eq_two.1 hlen
  obtain ⟨hr, -⟩ := hres 0 0 4 r rfl rfl
  obtain ⟨hr', -⟩ := hres 1 0 4 r' rfl rfl
  obtain rfl : r = r' := hr.trans hr'.symm
  exact ⟨dir, store, hopen, r, m, hrun, hr⟩

end Bxdb
