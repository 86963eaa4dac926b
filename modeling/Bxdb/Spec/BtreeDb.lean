import Bxdb.Spec.Btree
import Bxdb.Spec.Cache

/-!
# The reader with a shared cache (`BtreeDb` of `btree.rs`)

A load finds the record with `floor` and resolves it through the cache, when there is
one: a Full page is looked up there and put there after it was decompressed, under its
own key; the base of a Delta is looked up and put under the base's key before the patch
is applied. The results come with the cache they leave behind.
-/

namespace Bxdb

open Memory

namespace BtreeDb

/-- `cache.get`, when there is a cache. -/
def cacheGet (cache : Option Mem) (key : UInt64) : Option Mem × Option Page :=
  match cache with
  | some m => (some (SharedCache.get m key).1, (SharedCache.get m key).2)
  | none => (none, none)

/-- `cache.put`, when there is a cache. -/
def cachePut (cache : Option Mem) (key : UInt64) (page : Page) : Option Mem :=
  cache.map fun m => SharedCache.put m key page

variable (z : Zstd) (store : PageStore)

/-- `decompress_blob_into`, then `cache.put`. -/
def decompressAndPut (cache : Option Mem) (key : UInt64) (rec : ChunkRecord) : Option Mem × Res Page :=
  match store.decompressBlobInto z rec with
  | .error e => (cache, .error e)
  | .ok page => (cachePut cache key page, .ok page)

def loadFullCached (cache : Option Mem) (key : UInt64) : Option Mem × Res Page :=
  match cacheGet cache key with
  | (cache, some page) => (cache, .ok page)
  | (cache, none) =>
    match store.exactLookup key with
    | .error e => (cache, .error e)
    | .ok none => (cache, ioErr .invalidData "delta base chunk missing from index")
    | .ok (some rec) =>
      if rec.kind ≠ .full then (cache, ioErr .invalidData "delta base is not a Full chunk")
      else decompressAndPut z store cache key rec

/-- The patch of a Delta, applied to its base. -/
def applyDelta (rec : ChunkRecord) (base : Page) : Res Page := do
  let blob ← store.deltaBlob rec
  applyDeltaPatchInPlace blob base

def resolveCached (cache : Option Mem) (rec : ChunkRecord) : Option Mem × Res Page :=
  match rec.kind with
  | .zero => (cache, .ok Page.zero)
  | .full =>
    match cacheGet cache rec.key with
    | (cache, some page) => (cache, .ok page)
    | (cache, none) => decompressAndPut z store cache rec.key rec
  | .delta =>
    match loadFullCached z store cache rec.baseKey with
    | (cache, .error e) => (cache, .error e)
    | (cache, .ok base) => (cache, applyDelta store rec base)

/-- `BtreeDb::load_page`. -/
def loadPage (cache : Option Mem) (pa : UInt64) (snapshotId : UInt32) : Option Mem × Res (Option Page) :=
  if maxSnapshotId < snapshotId then (cache, ioErr .invalidInput "snapshot_id exceeds 19-bit range")
  else match store.floor pa snapshotId with
    | .error e => (cache, .error e)
    | .ok none => (cache, .ok none)
    | .ok (some rec) =>
      match resolveCached z store cache rec with
      | (cache, .error e) => (cache, .error e)
      | (cache, .ok page) => (cache, .ok (some page))

/-- Calls one after the other: the results, and the cache they leave. -/
def loadPages (cache : Option Mem) : List (UInt64 × UInt32) → Option Mem × List (Res (Option Page))
  | [] => (cache, [])
  | (pa, s) :: calls =>
    let (cache, result) := loadPage z store cache pa s
    let (cache, results) := loadPages cache calls
    (cache, result :: results)

end BtreeDb

end Bxdb
