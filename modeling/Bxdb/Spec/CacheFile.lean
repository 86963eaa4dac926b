import Bxdb.Spec.Cache

/-!
# The cache file (`cache.rs`)

`create`, `open` and `identity_path`, on a file that may not be there yet. The file is
mapped, so what the calls on the cache write is in it. System calls succeed.
-/

namespace Bxdb

open Bytes Memory

def totalBytes : ℕ := metadataBytes + totalSlots * cachePageSize

/-- The file: its size, and its bytes below it. -/
structure CacheFile where
  size : ℕ
  mem : Mem

namespace CacheFile

/-- What `create(true)` makes of a missing file. -/
def empty : CacheFile := ⟨0, fun _ => 0⟩

/-- `ftruncate` to a larger size: the bytes gained are zero. -/
def ftruncate (f : CacheFile) (size : ℕ) : CacheFile := ⟨size, fun a => if a < f.size then f.mem a else 0⟩

end CacheFile

inductive CacheError
  /-- cannot open cache -/
  | cannotOpen
  /-- cache file present but not fully initialised -/
  | notInitialised
  /-- shared cache corrupted: invalid magic -/
  | invalidMagic
  /-- shared cache identity mismatch: cache belongs to …, expected … -/
  | identityMismatch (stored expected : Bytes)
  deriving DecidableEq

namespace SharedCache

/-- The identity's bytes up to the first zero, at most `PATH_MAX`. `while *start.add(len) != 0
&& len < PATH_MAX` looks at one byte more when there is no zero, and stops whatever it is. -/
def storedIdentity (m : Mem) : Bytes := (load m (idOffset + 8) pathMax).takeWhile (· ≠ 0)

def verifyIdentity (m : Mem) (expected : Bytes) : Except CacheError Unit :=
  if load64 m idOffset ≠ cacheMagic then .error .invalidMagic
  else
    let stored := storedIdentity m
    if stored ≠ expected then .error (.identityMismatch stored expected) else .ok ()

/-- `SharedCache::create` -/
def create (file : Option CacheFile) (identity : Bytes) : CacheFile :=
  let file := file.getD .empty
  let needsInit := decide (file.size < totalBytes)
  let file := if needsInit then file.ftruncate totalBytes else file
  let doit := needsInit || !(verifyIdentity file.mem identity).isOk
  if doit then { file with mem := initMetadata file.mem identity } else file

/-- `SharedCache::open`; the cache is the mapped file. -/
def «open» (file : Option CacheFile) (identity : Bytes) : Except CacheError CacheFile :=
  match file with
  | none => .error .cannotOpen
  | some file => do
    if file.size < totalBytes then throw .notInitialised
    verifyIdentity file.mem identity
    return file

/-- `SharedCache::identity_path` -/
def identityPath (cache : CacheFile) : Bytes := storedIdentity cache.mem

end SharedCache

end Bxdb
