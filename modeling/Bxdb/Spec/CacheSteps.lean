import Bxdb.Spec.Cache

/-!
# Processes on the shared cache (`cache.rs`)

Any number of processes call `get` and `put`. A call goes through steps: lock the mutex
of the key's metadata page, choose a way, copy the page byte by byte, store the page id
(a put) and update the timestamps, unlock. A process can die between any two steps. The
mutex it held is then locked by the next process with `EOWNERDEAD`, which only marks it
consistent.
-/

namespace Bxdb.SharedCache

open Bytes Memory

inductive Call
  | get (key : UInt64)
  | put (key : UInt64) (page : Page)

def Call.key : Call → UInt64
  | .get key => key
  | .put key _ => key

/-- The page that the call passes to `put`. -/
def Call.passed : Call → List (UInt64 × Page)
  | .get _ => []
  | .put key page => [(key, page)]

/-- A robust mutex. -/
inductive Mutex
  | free
  | held (pid : ℕ)
  | ownerDead
  deriving DecidableEq

/-- Where a process stands. `out` is the buffer of a get: `none` after a miss, and in a put. -/
inductive Proc
  | idle
  | waiting (c : Call)
  | locked (c : Call)
  | copyIn (key : UInt64) (page : Page) (way n : ℕ)
  | copyOut (key : UInt64) (way : ℕ) (out : Bytes)
  | stamp (key : UInt64) (way : ℕ) (out : Option Bytes)
  | unlock (key : UInt64) (out : Option Bytes)
  | dead

/-- The shared file and its processes, with the pages passed to `put` and the hits
reported so far. -/
structure Shm where
  mem : Mem
  /-- the mutex of each metadata page -/
  mutex : ℕ → Mutex
  proc : ℕ → Proc
  puts : List (UInt64 × Page)
  hits : List (UInt64 × Bytes)

inductive Act
  | call (pid : ℕ) (c : Call)
  | next (pid : ℕ)
  | die (pid : ℕ)

namespace Shm

/-- The cache as `create` leaves it, and no process in a call. -/
def start (m : Mem) (identity : Bytes) : Shm :=
  ⟨initMetadata m identity, fun _ => .free, fun _ => .idle, [], []⟩

/-- A process moves, and leaves the memory like this. -/
def move (s : Shm) (pid : ℕ) (q : Proc) (m : Mem) : Shm :=
  { s with mem := m, proc := Function.update s.proc pid q }

/-- The mutex of a metadata page changes, as a process moves. -/
def switch (s : Shm) (pid : ℕ) (q : Proc) (idx : ℕ) (x : Mutex) : Shm :=
  { s with mutex := Function.update s.mutex idx x, proc := Function.update s.proc pid q }

/-- The hit that an unlocking process reports. -/
def report (key : UInt64) (out : Option Bytes) : List (UInt64 × Bytes) :=
  out.toList.map fun bytes => (key, bytes)

end Shm

open Shm

/-- One step of one process. -/
inductive Step : Shm → Act → Shm → Prop
  | call {s : Shm} {p : ℕ} {c : Call} (h : s.proc p = .idle) (hk : c.key ≠ emptyKey) :
      Step s (.call p c) { s.move p (.waiting c) s.mem with puts := c.passed ++ s.puts }
  -- the reserved key: `get` returns false, `put` returns
  | reserved {s : Shm} {p : ℕ} {c : Call} (h : s.proc p = .idle) (hk : c.key = emptyKey) :
      Step s (.call p c) { s with puts := c.passed ++ s.puts }
  | lock {s : Shm} {p : ℕ} {c : Call} (h : s.proc p = .waiting c)
      (hm : s.mutex (locate c.key).1 = .free ∨ s.mutex (locate c.key).1 = .ownerDead) :
      Step s (.next p) (s.switch p (.locked c) (locate c.key).1 (.held p))
  | hit {s : Shm} {p : ℕ} {key : UInt64} {w : ℕ} (h : s.proc p = .locked (.get key))
      (hw : findWay (pageIds s.mem (setAt (locate key))) key = some w) :
      Step s (.next p) (s.move p (.copyOut key w []) s.mem)
  | miss {s : Shm} {p : ℕ} {key : UInt64} (h : s.proc p = .locked (.get key))
      (hw : findWay (pageIds s.mem (setAt (locate key))) key = none) :
      Step s (.next p) (s.move p (.unlock key none) s.mem)
  | choose {s : Shm} {p : ℕ} {key : UInt64} {page : Page} (h : s.proc p = .locked (.put key page)) :
      Step s (.next p) (s.move p (.copyIn key page (chooseWay s.mem (setAt (locate key)) key) 0) s.mem)
  -- from the front; `memcpy` promises no order, but only a death in the middle of it shows one
  | copyIn {s : Shm} {p : ℕ} {key : UInt64} {page : Page} {w n : ℕ} (h : s.proc p = .copyIn key page w n)
      (hn : n < cachePageSize) :
      Step s (.next p) (s.move p (.copyIn key page w (n + 1))
        (store s.mem (dataPtr (slotOf (locate key) w) + n) [page.bytes.getD n 0]))
  | storeId {s : Shm} {p : ℕ} {key : UInt64} {page : Page} {w : ℕ} (h : s.proc p = .copyIn key page w cachePageSize) :
      Step s (.next p) (s.move p (.stamp key w none) (store64 s.mem (pageIdPtr (setAt (locate key)) w) key))
  | copyOut {s : Shm} {p : ℕ} {key : UInt64} {w : ℕ} {out : Bytes} (h : s.proc p = .copyOut key w out)
      (hn : out.length < cachePageSize) :
      Step s (.next p) (s.move p
        (.copyOut key w (out ++ [s.mem (dataPtr (slotOf (locate key) w) + out.length)])) s.mem)
  | copied {s : Shm} {p : ℕ} {key : UInt64} {w : ℕ} {out : Bytes} (h : s.proc p = .copyOut key w out)
      (hn : out.length = cachePageSize) : Step s (.next p) (s.move p (.stamp key w (some out)) s.mem)
  | stamp {s : Shm} {p : ℕ} {key : UInt64} {w : ℕ} {out : Option Bytes} (h : s.proc p = .stamp key w out) :
      Step s (.next p) (s.move p (.unlock key out) (updateLru s.mem (setAt (locate key)) w))
  | unlock {s : Shm} {p : ℕ} {key : UInt64} {out : Option Bytes} (h : s.proc p = .unlock key out) :
      Step s (.next p) { s.switch p .idle (locate key).1 .free with hits := report key out ++ s.hits }
  | die {s : Shm} {p : ℕ} (h : s.proc p ≠ .dead) :
      Step s (.die p) { s.move p .dead s.mem with
        mutex := fun idx => if s.mutex idx = .held p then .ownerDead else s.mutex idx }

/-- Steps one after the other, each of which meets `ok` in the state it starts from. -/
inductive Steps (ok : Shm → Act → Prop) (s₀ : Shm) : Shm → Prop
  | nil : Steps ok s₀ s₀
  | snoc {s s' : Shm} {a : Act} (h : Steps ok s₀ s) (hok : ok s a) (hs : Step s a s') : Steps ok s₀ s'

end Bxdb.SharedCache
