import Bxdb.Spec.AppendOnly
import Bxdb.Lib.Locks

/-!
# Saving under locks (`Shadow` and `process_one` of `append_only.rs`)

The shadow is 2048 maps, each behind a lock that many may hold to read; every worker's file
is behind a lock of its own. A page's task looks its address up in one shard, appends to
one file and puts its page into the same shard, and every access to what it has locked is a
step of its own.
-/

namespace Bxdb

open Bytes Buffered Locks

def shadowShards : ℕ := 2048

def shadowMul : UInt64 := 0x9e3779b97f4a7c15

/-- The shard of an address. -/
def Shadow.shard (pa : UInt64) : UInt64 := (pa * shadowMul) &&& (UInt64.ofNat shadowShards - 1)

/-- What has a lock. -/
inductive Resource
  | shard (idx : UInt64)
  | blob (w : UInt8)
  deriving DecidableEq

abbrev Resource.State : Resource → Type
  | .shard _ => Shadow
  | .blob _ => BlobFile

/-- What becomes of a page. -/
abbrev PageTask := Thread Resource.State (Res ChunkRecord)

/-! ## Critical sections -/

/-- `Shadow::get` -/
def Shadow.get (pa : UInt64) : Body Shadow (Option (UInt64 × Page)) := .access id fun w => .ret (w pa)

/-- `Shadow::insert_if_newer` -/
def Shadow.insertSection (pa key : UInt64) (page : Page) : Body Shadow Unit :=
  .access id fun w =>
    if w.installs pa key then .access (fun w => Function.update w pa (some (key, page))) fun _ => .ret ()
    else .ret ()

/-- `append_blob` -/
def appendSection (fault : Fault) (data : Bytes) : Body BlobFile (Res (UInt64 × UInt32)) :=
  .access id fun g =>
    let offset := g.offset
    .access (fun g => { g with writer := (g.writer.writeAll fault data).1 }) fun g =>
      if (g.writer.writeAll fault data).2 then
        .access (fun g => { g with offset := g.offset + UInt64.ofNat data.length }) fun _ =>
          .ret (if data.length < 2 ^ 32 then .ok (offset, UInt32.ofNat data.length)
            else ioErr .invalidData "blob too large for u32 len")
      else .ret (ioErr .other "failed to write whole buffer")

/-! ## The task of a page -/

section Tasks

variable (z : Zstd) (db : AppendOnlyDb) (id : UInt32) (job : Job)

def insertTask (r : ChunkRecord) : PageTask :=
  if db.useShadow then
    .lock (.shard (Shadow.shard job.pa)) .exclusive (Shadow.insertSection job.pa (encodeKey job.pa id) job.page)
      fun _ => .done (.ok r)
  else .pause (.done (.ok r))

def appendTask (fault : Fault) (plan : Plan) : PageTask :=
  let w := workerOf db.workerCount job.pa
  .lock (.blob w) .exclusive (appendSection fault plan.data) fun
    | .error e => .done (.error e)
    | .ok (offset, len) =>
      let r := plan.record (encodeKey job.pa id) w offset len
      match plan with
      | .full _ => insertTask db id job r
      | _ => .done (.ok r)

/-- What the operating system and the compressor do to one task. -/
structure TaskFaults where
  compress : Fault
  append : Fault

def planTask (faults : TaskFaults) : Plan → PageTask
  | .zero => .done (.ok (ChunkRecord.newZero (encodeKey job.pa id)))
  | .delta baseKey data => appendTask db id job faults.append (.delta baseKey data)
  | .full data =>
    if faults.compress.isSome then .done (.error (.err ⟨.other, "zstd compression failed"⟩))
    else appendTask db id job faults.append (.full data)

/-- `process_one` -/
def processOne (faults : TaskFaults) : PageTask :=
  let plan (entry : Option (UInt64 × Page)) :=
    planOne z (fun _ => entry) db.deltaThreshold.toNat db.useShadow job.pa job.page
  if ¬ isAllZero job.page ∧ db.useShadow then
    .lock (.shard (Shadow.shard job.pa)) .shared (Shadow.get job.pa) fun entry => planTask db id job faults (plan entry)
  else .pause (planTask db id job faults (plan none))

end Tasks

/-- The shards and the files of a handle. -/
def AppendOnlyDb.resources (db : AppendOnlyDb) : ∀ r : Resource, r.State
  | .shard idx => fun pa => if Shadow.shard pa = idx then db.shadow pa else none
  | .blob w => db.blobFiles w

/-- A pass over these pages, before the first of them. -/
def lockedPass (z : Zstd) (db : AppendOnlyDb) (id : UInt32) (jobs : List Job) (faults : Fin jobs.length → TaskFaults) :
    Atomic (Fin jobs.length) Resource.State (Res ChunkRecord) where
  threads k := processOne z db id (jobs.get k) (faults k)
  st := db.resources

end Bxdb
