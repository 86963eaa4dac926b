import Bxdb.Spec.BtreeDb
import Bxdb.Spec.CacheFile
import Bxdb.Spec.Lifecycle
import Bxdb.Lib.Memo

/-!
# Readers that share a cache

`BtreeDb::load_page` as a thread over the shared cache: `get` and `put` take the mutex of
the set, so other readers come in between the two. The commands on a directory, and readers
with `DISABLE_SHARED_CACHE` off, in any order; the cache file stays until it is deleted.
-/

namespace Bxdb

open Bytes Memory Versioned

/-- The mapped cache. -/
def sharedCache : Memo.Table Mem UInt64 Page where
  get := SharedCache.get
  put := SharedCache.put
  Holds m key page := ∃ g, g < totalSlots ∧ SharedCache.slotKey m g = some key ∧ SharedCache.readSlotPage m g = page

namespace SharedReads

open Memo (Thread)

variable (z : Zstd) (store : PageStore)

/-- `decompress_blob_into`, then `cache.put`. -/
def decompressAndPut (key : UInt64) (rec : ChunkRecord) : Thread UInt64 Page (Res Page) :=
  match store.decompressBlobInto z rec with
  | .error e => .done (.error e)
  | .ok page => .put key page (.done (.ok page))

def loadFullCached (key : UInt64) : Thread UInt64 Page (Res Page) :=
  .get key fun hit =>
    match hit with
    | some page => .done (.ok page)
    | none =>
      match store.exactLookup key with
      | .error e => .done (.error e)
      | .ok none => .done (ioErr .invalidData "delta base chunk missing from index")
      | .ok (some rec) =>
        if rec.kind ≠ .full then .done (ioErr .invalidData "delta base is not a Full chunk")
        else decompressAndPut z store key rec

def resolveCached (rec : ChunkRecord) : Thread UInt64 Page (Res Page) :=
  match rec.kind with
  | .zero => .done (.ok Page.zero)
  | .full =>
    .get rec.key fun hit =>
      match hit with
      | some page => .done (.ok page)
      | none => decompressAndPut z store rec.key rec
  | .delta =>
    (loadFullCached z store rec.baseKey).bind fun base =>
      .done (match base with
        | .error e => .error e
        | .ok base => BtreeDb.applyDelta store rec base)

/-- `BtreeDb::load_page` -/
def loadPage (pa : UInt64) (snapshotId : UInt32) : Thread UInt64 Page (Res (Option Page)) :=
  if maxSnapshotId < snapshotId then .done (ioErr .invalidInput "snapshot_id exceeds 19-bit range")
  else
    match store.floor pa snapshotId with
    | .error e => .done (.error e)
    | .ok none => .done (.ok none)
    | .ok (some rec) => (resolveCached z store rec).bind fun page => .done (page.map some)

/-- One thread for each of these loads. -/
def readers (loads : List (UInt64 × UInt32)) : List (Thread UInt64 Page (Res (Option Page))) :=
  loads.map fun l => loadPage z store l.1 l.2

end SharedReads

/-! ## Commands and readers -/

/-- One command on a directory. -/
inductive Command.Runs (z : Zstd) : Command → Dir → Dir → Prop
  | session {cs : List SaveCall} {dir dir' : Dir} (hs : Session z dir cs dir') (hrange : ∀ c ∈ cs, c.InRange) :
      Command.Runs z (.session cs) dir dir'
  | toBtree {dir dir' : Dir} (hc : Bxdb.toBtree dir = .ok dir') : Command.Runs z .toBtree dir dir'
  | toLog {dir dir' : Dir} (hc : Bxdb.toLog dir = .ok dir') : Command.Runs z .toLog dir dir'
  | purge {dir dir' : Dir} {ord : WalkOrder FileStep} {t : UInt32} {n : ℕ} (hp : Bxdb.purge ord dir t = .ok (dir', n)) :
      Command.Runs z (.purge t) dir dir'

inductive CacheCommand
  | run (c : Command)
  /-- `bxdb cache create` -/
  | create
  /-- `bxdb cache delete` -/
  | delete
  /-- Loads in readers that open the database and the cache, to their end or not. -/
  | reads (loads : List (UInt64 × UInt32))

/-- Commands and readers on a database of this identity, one after the other. -/
inductive SharedLife (z : Zstd) (identity : Bytes) : List CacheCommand → Dir → Option CacheFile → Prop
  | empty : SharedLife z identity [] Dir.empty none
  | run {es : List CacheCommand} {c : Command} {dir dir' : Dir} {file : Option CacheFile}
      (h : SharedLife z identity es dir file) (hc : Command.Runs z c dir dir') : SharedLife z identity (es ++ [.run c]) dir' file
  | create {es : List CacheCommand} {dir : Dir} {file : Option CacheFile} (h : SharedLife z identity es dir file) :
      SharedLife z identity (es ++ [.create]) dir (some (SharedCache.create file identity))
  | delete {es : List CacheCommand} {dir : Dir} {file : Option CacheFile} (h : SharedLife z identity es dir file) :
      SharedLife z identity (es ++ [.delete]) dir none
  | reads {es : List CacheCommand} {dir : Dir} {file : Option CacheFile} {store : PageStore} {cache : CacheFile}
      {loads : List (UInt64 × UInt32)} {threads : List (Memo.Thread UInt64 Page (Res (Option Page)))} {m : Mem}
      (h : SharedLife z identity es dir file) (hopen : PageStore.open dir = .ok store)
      (hcache : SharedCache.open file identity = .ok cache)
      (hrun : Memo.Run sharedCache (SharedReads.readers z store loads, cache.mem) (threads, m)) :
      SharedLife z identity (es ++ [.reads loads]) dir (some { cache with mem := m })

/-- What readers see, and what they saw at any time since the cache was created. -/
structure Sightings where
  archive : Archive UInt64 ℕ Page
  cached : Option (Writes UInt64 ℕ Page)

noncomputable def Sightings.step (s : Sightings) : CacheCommand → Sightings
  | .run c => ⟨s.archive.step c.event, s.cached.map fun W => W ⊔ (s.archive.step c.event).read⟩
  | .create => ⟨s.archive, some (s.cached.getD s.archive.read)⟩
  | .delete => ⟨s.archive, none⟩
  | .reads _ => s

noncomputable def sightings (es : List CacheCommand) : Sightings := es.foldl Sightings.step ⟨Archive.empty, none⟩

end Bxdb
