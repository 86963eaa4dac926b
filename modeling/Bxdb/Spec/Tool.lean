import Bxdb.Spec.CacheFile
import Bxdb.Spec.Btree

/-!
# What the command line tool reports (`bxdb.rs`)

`bxdb cache inspect` and `bxdb stats`, up to how their lines are printed.
-/

namespace Bxdb

open Bytes

/-- `cmd_stats`: the records of the log, or of one snapshot, and those that are not Zero. -/
def cmdStats (dir : Dir) (snapshot : Option UInt32) : Res (ℕ × ℕ) :=
  match dir.log with
  | none => ioErr .notFound "No such file or directory"
  | some log => do
    let (_, body) ← readAndVerifyHeader log magicLog
    let records ← ChunkRecord.scan body
    .ok (records.foldl (fun (total, nonZero) rec =>
      if snapshot.any (snapshotOf rec.key ≠ ·) then (total, nonZero)
      else (total + 1, if rec.kind ≠ .zero then nonZero + 1 else nonZero)) (0, 0))

end Bxdb
