import Bxdb.Spec.SharedReads
import Bxdb.Spec.CacheSteps

/-!
# Readers on the cache, step by step

The readers of `SharedReads`, with each `get` and `put` taken through the steps of
`CacheSteps`: any other reader may come in between two of them, and a reader may die there.
The load of process `p` is thread `p`.
-/

namespace Bxdb

open Memory Memo SharedCache

/-- What the slots hold. -/
def SharedCache.heldPages (m : Mem) : List (UInt64 × Page) :=
  (List.range totalSlots).filterMap fun g => (slotKey m g).map fun key => (key, readSlotPage m g)

/-- Processes attach to a file; what it holds counts as put before. -/
def SharedCache.Shm.attach (m : Mem) (mutex : ℕ → Mutex) : Shm := ⟨m, mutex, fun _ => .idle, heldPages m, []⟩

namespace SharedReads

variable {α : Type}

/-- The call a load comes to next. -/
def nextCall : Thread UInt64 Page α → Option Call
  | .done _ => none
  | .get key _ => some (.get key)
  | .put key page _ => some (.put key page)

/-- The load goes on with what the call found. -/
def resume (hit : Option Page) : Thread UInt64 Page α → Thread UInt64 Page α
  | .done a => .done a
  | .get _ next => next hit
  | .put _ _ next => next

/-- Loads, and the cache they share. -/
abbrev Readers (α : Type) : Type := List (Thread UInt64 Page α) × Shm

/-- One step of one reader. A call takes the steps of its process up to the unlock, with
which the load goes on. -/
inductive ReaderStep : Readers α → Act → Readers α → Prop
  | call {threads : List (Thread UInt64 Page α)} {s s' : Shm} {p : ℕ} {th : Thread UInt64 Page α} {c : Call}
      (hth : threads[p]? = some th) (hcall : nextCall th = some c) (hk : c.key ≠ emptyKey) (hs : Step s (.call p c) s') :
      ReaderStep (threads, s) (.call p c) (threads, s')
  | reserved {threads : List (Thread UInt64 Page α)} {s s' : Shm} {p : ℕ} {th : Thread UInt64 Page α} {c : Call}
      (hth : threads[p]? = some th) (hcall : nextCall th = some c) (hk : c.key = emptyKey) (hs : Step s (.call p c) s') :
      ReaderStep (threads, s) (.call p c) (threads.set p (resume none th), s')
  | inside {threads : List (Thread UInt64 Page α)} {s s' : Shm} {p : ℕ} (hs : Step s (.next p) s')
      (hbusy : s'.proc p ≠ .idle) : ReaderStep (threads, s) (.next p) (threads, s')
  | unlock {threads : List (Thread UInt64 Page α)} {s s' : Shm} {p : ℕ} {th : Thread UInt64 Page α} {key : UInt64}
      {hit : Option Page} (hth : threads[p]? = some th) (hp : s.proc p = .unlock key (hit.map Page.bytes))
      (hs : Step s (.next p) s') : ReaderStep (threads, s) (.next p) (threads.set p (resume hit th), s')
  | die {threads : List (Thread UInt64 Page α)} {s s' : Shm} {p : ℕ} (hs : Step s (.die p) s') :
      ReaderStep (threads, s) (.die p) (threads, s')

/-- Steps one after the other, each of which meets `ok` in the state it starts from. -/
inductive ReaderSteps (ok : Shm → Act → Prop) (c₀ : Readers α) : Readers α → Prop
  | nil : ReaderSteps ok c₀ c₀
  | snoc {c c' : Readers α} {a : Act} (h : ReaderSteps ok c₀ c) (hok : ok c.2 a) (hs : ReaderStep c a c') :
      ReaderSteps ok c₀ c'

/-- No process dies. -/
def NoDeath (_ : Shm) (a : Act) : Prop := ∀ p, a ≠ .die p

/-- No process is in a call. -/
def Quiet (s : Shm) : Prop := ∀ p, s.proc p = .idle ∨ s.proc p = .dead

end SharedReads

open SharedReads

/-- Commands and readers on a database of this identity, one after the other, where readers
go through steps that meet `ok` and leave the mutexes as they are when they end or die. -/
inductive SteppedLife (z : Zstd) (ok : Shm → Act → Prop) (identity : Bytes) :
    List CacheCommand → Dir → Option CacheFile → Prop
  | empty : SteppedLife z ok identity [] Dir.empty none
  | run {es : List CacheCommand} {c : Command} {dir dir' : Dir} {file : Option CacheFile}
      (h : SteppedLife z ok identity es dir file) (hc : Command.Runs z c dir dir') :
      SteppedLife z ok identity (es ++ [.run c]) dir' file
  | create {es : List CacheCommand} {dir : Dir} {file : Option CacheFile} (h : SteppedLife z ok identity es dir file) :
      SteppedLife z ok identity (es ++ [.create]) dir (some (SharedCache.create file identity))
  | delete {es : List CacheCommand} {dir : Dir} {file : Option CacheFile} (h : SteppedLife z ok identity es dir file) :
      SteppedLife z ok identity (es ++ [.delete]) dir none
  | reads {es : List CacheCommand} {dir : Dir} {file : Option CacheFile} {store : PageStore} {cache : CacheFile}
      {loads : List (UInt64 × UInt32)} {mutex : ℕ → Mutex} {c : Readers (Res (Option Page))}
      (h : SteppedLife z ok identity es dir file) (hopen : PageStore.open dir = .ok store)
      (hcache : SharedCache.open file identity = .ok cache) (hmutex : ∀ idx p, mutex idx ≠ .held p)
      (hrun : ReaderSteps ok (readers z store loads, Shm.attach cache.mem mutex) c) (hquiet : Quiet c.2) :
      SteppedLife z ok identity (es ++ [.reads loads]) dir (some { cache with mem := c.2.mem })

end Bxdb
