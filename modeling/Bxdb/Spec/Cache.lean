import Bxdb.Lib.Memory
import Bxdb.Spec.Chunk

/-!
# The shared cache (`cache.rs`)

One mapped file: 512 metadata pages, then 131072 data pages. A metadata page starts
with the mutex of its 16 sets; a set has 16 page ids and 16 timestamps, and the data
page of each of its ways is found by the way's global slot. `get` and `put` are what
these calls do while they hold the mutex; its own bytes, which nothing else touches,
are left out.
-/

namespace Bxdb

open Bytes Memory

def cachePageSize : ℕ := 4096
def metadataPages : ℕ := 512
def setsPerMeta : ℕ := 16
def waysPerSet : ℕ := 16
def totalSlots : ℕ := metadataPages * setsPerMeta * waysPerSet
def metadataBytes : ℕ := metadataPages * cachePageSize

def emptyKey : UInt64 := 0xFFFFFFFFFFFFFFFF
def fibMul : UInt64 := 0x9e3779b97f4a7c15

def setsOffset : ℕ := 64
def setStride : ℕ := 192

/-- `BBXD_SHM` -/
def cacheMagic : UInt64 := 0x4D48535F58444242
def idOffset : ℕ := setsOffset + setsPerMeta * setStride
def pathMax : ℕ := cachePageSize - idOffset - 8

namespace SharedCache

/-! ## Addresses -/

/-- The metadata page of a key and its set there. -/
def locate (key : UInt64) : ℕ × ℕ :=
  let hash := key * fibMul
  (((hash >>> 4) &&& 511).toNat, (hash &&& 15).toNat)

def setPtr (pageBase setIdx : ℕ) : ℕ := pageBase + setsOffset + setIdx * setStride

/-- The set at this place. -/
def setAt (loc : ℕ × ℕ) : ℕ := setPtr (loc.1 * cachePageSize) loc.2

/-- `&page_ids[way]` -/
def pageIdPtr (set way : ℕ) : ℕ := set + way * 8

/-- `timestamps.as_mut_ptr()` -/
def timestampsPtr (set : ℕ) : ℕ := set + waysPerSet * 8

def slotOf (loc : ℕ × ℕ) (way : ℕ) : ℕ := loc.1 * (setsPerMeta * waysPerSet) + loc.2 * waysPerSet + way

def dataPtr (slot : ℕ) : ℕ := metadataBytes + slot * cachePageSize

/-- The set a global slot belongs to. -/
def setOfSlot (globalSlot : ℕ) : ℕ × ℕ :=
  (globalSlot / (setsPerMeta * waysPerSet), globalSlot % (setsPerMeta * waysPerSet) / waysPerSet)

/-! ## One set -/

def pageIds (m : Mem) (set : ℕ) : List UInt64 := loadWords m set waysPerSet

def timestamps (m : Mem) (set : ℕ) : Bytes := load m (timestampsPtr set) waysPerSet

/-- The lowest way with this page id. -/
def findWay (ids : List UInt64) (key : UInt64) : Option ℕ := ids.findIdx? (· == key)

/-- `saturating_sub(1)` -/
def tick (t : UInt8) : UInt8 := if t = 0 then 0 else t - 1

def updateLru (m : Mem) (set accessed : ℕ) : Mem :=
  let m := store m (timestampsPtr set) ((timestamps m set).map tick)
  store m (timestampsPtr set + accessed) [255]

/-- The scan for the smallest timestamp, which starts from way 0 and 255. -/
def victim (ts : Bytes) : ℕ :=
  ((List.range waysPerSet).foldl (fun min w => if ts.getD w 0 < min.1 then (ts.getD w 0, w) else min)
    ((255 : UInt8), 0)).2

/-- The way of the key, else the first empty one, else the victim. -/
def chooseWay (m : Mem) (set : ℕ) (key : UInt64) : ℕ :=
  match (findWay (pageIds m set) key).or (findWay (pageIds m set) emptyKey) with
  | some way => way
  | none => victim (timestamps m set)

/-! ## The slots -/

/-- The page at an address. -/
def pageFrom (m : Mem) (a : ℕ) : Page := ⟨load m a cachePageSize, by rw [length_load]; rfl⟩

def slotKey (m : Mem) (globalSlot : ℕ) : Option UInt64 :=
  let way := globalSlot % (setsPerMeta * waysPerSet) % waysPerSet
  let key := load64 m (pageIdPtr (setAt (setOfSlot globalSlot)) way)
  if key = emptyKey then none else some key

def slotTimestamp (m : Mem) (globalSlot : ℕ) : UInt8 :=
  let way := globalSlot % (setsPerMeta * waysPerSet) % waysPerSet
  m (timestampsPtr (setAt (setOfSlot globalSlot)) + way)

def readSlotPage (m : Mem) (globalSlot : ℕ) : Page := pageFrom m (dataPtr globalSlot)

/-! ## Calls -/

def get (m : Mem) (key : UInt64) : Mem × Option Page :=
  if key = emptyKey then (m, none)
  else
    let set := setAt (locate key)
    match findWay (pageIds m set) key with
    | some w => (updateLru m set w, some (pageFrom m (dataPtr (slotOf (locate key) w))))
    | none => (m, none)

def put (m : Mem) (key : UInt64) (page : Page) : Mem :=
  if key = emptyKey then m
  else
    let set := setAt (locate key)
    let way := chooseWay m set key
    let m := store m (dataPtr (slotOf (locate key) way)) page.bytes
    let m := store64 m (pageIdPtr set way) key
    updateLru m set way

/-! ## Initialisation -/

/-- The magic and the path, cut to its region and ended by a zero byte if there is room. -/
def writeIdentity (m : Mem) (identity : Bytes) : Mem :=
  let m := store64 m idOffset cacheMagic
  let len := min identity.length pathMax
  let m := store m (idOffset + 8) (identity.take len)
  if len < pathMax then store m (idOffset + 8 + len) [0] else m

/-- A set with no page. -/
def initSet (m : Mem) (set : ℕ) : Mem :=
  let m := (List.range waysPerSet).foldl (fun m w => store64 m (pageIdPtr set w) emptyKey) m
  store m (timestampsPtr set) (List.replicate waysPerSet 0)

def initMetadata (m : Mem) (identity : Bytes) : Mem :=
  let m := store m 0 (List.replicate metadataBytes 0)
  let m := (List.range metadataPages).foldl (fun m idx =>
    (List.range setsPerMeta).foldl (fun m s => initSet m (setPtr (idx * cachePageSize) s)) m) m
  writeIdentity m identity

end SharedCache

end Bxdb
