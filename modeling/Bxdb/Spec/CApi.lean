import Bxdb.Spec.Reader

/-!
# The C interface (`c_api.rs`)

A host program holds pointers to handles and passes them back. Null pointers and handles of
another kind are refused without any effect, and where the Rust call fails the process
aborts. A `Host` is a database directory with the handles a process has on it: at most one
for appending, and any number of others. `Client` is what the program knows from its calls.
-/

namespace Bxdb

open Buffered

/-- A name argument. -/
inductive CName
  | null
  | notUtf8
  | path
  deriving DecidableEq

/-- How a call ends. -/
inductive CResult (α : Type)
  | returned (value : α)
  | aborted

namespace CResult

/-- `Result::expect`, in a function that no panic may leave. -/
def expect {α : Type} : Res α → CResult α
  | .ok a => .returned a
  | .error _ => .aborted

def map {α β : Type} (f : α → β) : CResult α → CResult β
  | .returned a => .returned (f a)
  | .aborted => .aborted

end CResult

/-- A call with its arguments; a null pointer is `none`. What `memory` and `dirty_bitmap` point
to goes on for as long as it is read; `pages` tells whether the buffer is page-aligned. -/
inductive CCall
  | init
  | openForAppendOnly (name : CName) (workerCount : ℤ) (deltaThreshold : UInt16) (useShadow : Bool)
  | openForBtree (name : CName)
  | close (db : Option ℕ)
  | saveAllPages (db : Option ℕ) (memory : Option Bytes) (totalPageCount : UInt64) (snapshotId : UInt32)
  | savePagesWithBitmap (db : Option ℕ) (memory : Option Bytes) (dirtyBitmap : Option (List UInt64))
      (totalPageCount : UInt64) (snapshotId : UInt32)
  | loadPage (db : Option ℕ) (page : Bool) (pa : UInt64) (snapshotId : UInt32)
  | loadAllPages (db : Option ℕ) (pages : Option Bool) (paOffset totalPageCount : UInt64) (snapshotId : UInt32)
      (workerCount : ℤ)

/-- What a call returns. A load that returns false has written nothing (`page none`), or
zeroed the pages it did not find (`pages`). -/
inductive CValue
  | void
  | pointer (p : Option ℕ)
  | page (p : Option Page)
  | pages (found : Bool) (written : Option Bytes)

/-- The handle a pointer leads to. -/
inductive BxdbHandle
  | dummy
  | appendOnly (db : AppendOnlyDb)
  | btree (r : Reader)

/-- `dir` is the directory while no handle has it open for appending. In `others`, `some none`
is a Dummy. A program that opens a second handle for appending is not covered: each keeps a
position in the log of its own, and one writes over what the other appended. -/
structure Host where
  dir : Dir
  writer : Option (ℕ × AppendOnlyDb)
  others : ℕ → Option (Option Reader)

/-- `(total_page_count as usize).saturating_mul(PAGE_SIZE)` -/
def memLen (totalPageCount : UInt64) : ℕ := min (totalPageCount.toNat * pageSize) (2 ^ 64 - 1)

/-- The call that `bxdb_save_all_pages` makes of its slice. -/
def saveAllCall (memory : Bytes) (totalPageCount : UInt64) (snapshotId : UInt32) : SaveCall :=
  .all (memory.take (memLen totalPageCount)) totalPageCount snapshotId

/-- The call that `bxdb_save_pages_with_bitmap` makes of its slices. -/
def saveBitmapCall (memory : Bytes) (dirtyBitmap : List UInt64) (totalPageCount : UInt64) (snapshotId : UInt32) : SaveCall :=
  .bitmap (memory.take (memLen totalPageCount)) (dirtyBitmap.take ((totalPageCount + 63) / 64).toNat) totalPageCount
    snapshotId

namespace Host

def new : Host := ⟨Dir.empty, none, fun _ => none⟩

/-- What the files hold. -/
def disk (h : Host) : Dir :=
  match h.writer with
  | some (_, db) => db.disk
  | none => h.dir

def handle (h : Host) (p : ℕ) : Option BxdbHandle :=
  match h.writer with
  | some (q, db) =>
    if p = q then some (.appendOnly db)
    else (h.others p).map fun o => o.elim .dummy .btree
  | none => (h.others p).map fun o => o.elim .dummy .btree

/-- The allocator may return this address. -/
def Fresh (h : Host) (p : ℕ) : Prop := h.handle p = none

/-- A save call on the handle for appending. -/
def save (z : Zstd) (schedule : List (ℕ × Fault)) (h : Host) (p : ℕ) (db : AppendOnlyDb) (call : SaveCall) :
    Option (CResult (Host × CValue)) :=
  (call.run z schedule db).map fun (db', r) =>
    (CResult.expect r).map fun _ => ({ h with writer := some (p, db') }, .void)

/-- A call, and what it leaves. A new handle gets the address `fresh`. It is `none` where the
pointer leads to no handle or the schedule of a save stops short, and where a second handle for
appending is opened, which `c_api.rs` allows. -/
def call (z : Zstd) (schedule : List (ℕ × Fault)) (fresh : ℕ) (h : Host) : CCall → Option (CResult (Host × CValue))
  | .init => some (.returned ({ h with others := Function.update h.others fresh (some none) }, .pointer (some fresh)))
  | .openForAppendOnly name workerCount deltaThreshold useShadow =>
    if name = .null ∨ workerCount ≤ 0 then some (.returned (h, .pointer none))
    else if name = .notUtf8 then some (.returned (h, .pointer none))
    else match h.writer with
      | some _ => none
      | none => some ((CResult.expect (AppendOnlyDb.open h.dir workerCount.toNat deltaThreshold useShadow)).map fun db =>
        ({ h with writer := some (fresh, db) }, .pointer (some fresh)))
  | .openForBtree name =>
    if name = .null then some (.returned (h, .pointer none))
    else if name = .notUtf8 then some (.returned (h, .pointer none))
    else some ((CResult.expect (Reader.open h.disk)).map fun r =>
      ({ h with others := Function.update h.others fresh (some (some r)) }, .pointer (some fresh)))
  | .close none => some (.returned (h, .void))
  | .close (some p) =>
    (h.handle p).map fun
      | .appendOnly db => (CResult.expect db.close).map fun dir => ({ h with dir := dir, writer := none }, .void)
      | _ => .returned ({ h with others := Function.update h.others p none }, .void)
  | .saveAllPages (some p) (some memory) totalPageCount snapshotId =>
    (h.handle p).bind fun
      | .appendOnly db => h.save z schedule p db (saveAllCall memory totalPageCount snapshotId)
      | _ => some (.returned (h, .void))
  | .saveAllPages _ _ _ _ => some (.returned (h, .void))
  | .savePagesWithBitmap (some p) (some memory) (some dirtyBitmap) totalPageCount snapshotId =>
    (h.handle p).bind fun
      | .appendOnly db => h.save z schedule p db (saveBitmapCall memory dirtyBitmap totalPageCount snapshotId)
      | _ => some (.returned (h, .void))
  | .savePagesWithBitmap _ _ _ _ _ => some (.returned (h, .void))
  | .loadPage (some p) true pa snapshotId =>
    (h.handle p).map fun
      | .btree r =>
        (CResult.expect (r.loadPage z h.disk pa snapshotId).2).map fun page =>
          ({ h with others := Function.update h.others p (some (some (r.loadPage z h.disk pa snapshotId).1)) }, .page page)
      | _ => .returned (h, .page none)
  | .loadPage _ _ _ _ => some (.returned (h, .page none))
  | .loadAllPages (some p) (some aligned) paOffset totalPageCount snapshotId workerCount =>
    (h.handle p).map fun
      | .appendOnly db =>
        (CResult.expect (loadAllPages z db.disk (memLen totalPageCount) aligned paOffset totalPageCount snapshotId
          (max workerCount 1).toNat)).map fun pages => (h, .pages (pages.all Option.isSome) (some (outBuffer pages)))
      | _ => .returned (h, .pages false none)
  | .loadAllPages _ _ _ _ _ _ => some (.returned (h, .pages false none))

end Host

/-! ## What the program knows -/

/-- The saves it has made, its handle for appending with the saves there were when it was
opened, and its handles for reading, likewise, if they were opened while there was no handle
for appending. -/
structure Client where
  saved : List SaveCall
  writer : Option (ℕ × List SaveCall)
  readers : ℕ → Option (List SaveCall)

namespace Client

def new : Client := ⟨[], none, fun _ => none⟩

def save (c : Client) (p : ℕ) (call : SaveCall) : Client :=
  if c.writer.any fun w => w.1 = p then { c with saved := c.saved ++ [call] } else c

/-- After a call that returned this value. -/
def next (c : Client) : CCall → CValue → Client
  | .openForAppendOnly _ _ _ _, .pointer (some p) => { c with writer := some (p, c.saved) }
  | .openForBtree _, .pointer (some p) =>
    if c.writer.isNone then { c with readers := Function.update c.readers p (some c.saved) } else c
  | .close (some p), _ =>
    { c with
      writer := c.writer.filter fun w => w.1 ≠ p
      readers := Function.update c.readers p none }
  | .saveAllPages (some p) (some memory) n s, _ => c.save p (saveAllCall memory n s)
  | .savePagesWithBitmap (some p) (some memory) (some bits) n s, _ => c.save p (saveBitmapCall memory bits n s)
  | _, _ => c

end Client

/-- Calls that return, one after the other, in a process that starts on no database. -/
inductive HostRun (z : Zstd) : Client → Host → Prop
  | new : HostRun z Client.new Host.new
  | call {c : Client} {h h' : Host} {v : CValue} {call : CCall} {schedule : List (ℕ × Fault)} {fresh : ℕ}
      (hrun : HostRun z c h) (hfresh : h.Fresh fresh) (hcall : h.call z schedule fresh call = some (.returned (h', v))) :
      HostRun z (c.next call v) h'

end Bxdb
