import Bxdb.Spec.AppendOnly
import Bxdb.Spec.Purge
import Bxdb.Lib.Versioned

/-!
# Sessions

A session opens the database, makes save calls that return Ok, and closes after a
successful flush. Every parameter may change from session to session, and every
call runs under its own schedule.
-/

namespace Bxdb

open Versioned

variable (z : Zstd)

/-- Save calls on one handle, each of which returns Ok. -/
inductive Saves : AppendOnlyDb → List SaveCall → AppendOnlyDb → Prop
  | nil {db : AppendOnlyDb} : Saves db [] db
  | snoc {db db1 db2 : AppendOnlyDb} {cs : List SaveCall} {c : SaveCall} {schedule : List (ℕ × Buffered.Fault)}
      (hsaves : Saves db cs db1) (hsave : c.run z schedule db1 = some (db2, .ok ())) : Saves db (cs ++ [c]) db2

/-- One session with these save calls. -/
inductive Session : Dir → List SaveCall → Dir → Prop
  | mk {dir dir' : Dir} {workerCount : ℕ} {deltaThreshold : UInt16} {useShadow : Bool} {db db' : AppendOnlyDb}
      {cs : List SaveCall} (hopen : AppendOnlyDb.open dir workerCount deltaThreshold useShadow = .ok db)
      (hsaves : Saves z db cs db') (hclose : db'.close = .ok dir') : Session dir cs dir'

/-- A database: what one or more sessions made of an empty directory. -/
inductive Written : List SaveCall → Dir → Prop
  | first {cs : List SaveCall} {dir : Dir} (h : Session z Dir.empty cs dir) : Written cs dir
  | next {cs cs' : List SaveCall} {dir dir' : Dir} (h : Written cs dir) (hs : Session z dir cs' dir') :
      Written (cs ++ cs') dir'

/-- Further sessions on a directory, one after the other. -/
inductive Sessions : Dir → List SaveCall → Dir → Prop
  | nil {dir : Dir} : Sessions dir [] dir
  | snoc {dir mid dir' : Dir} {cs cs' : List SaveCall} (h : Sessions dir cs mid) (hs : Session z mid cs' dir') :
      Sessions dir (cs ++ cs') dir'

/-- One session that was opened with this `use_shadow`. -/
inductive ShadowSession : Bool → Dir → List SaveCall → Dir → Prop
  | mk {dir dir' : Dir} {workerCount : ℕ} {deltaThreshold : UInt16} {useShadow : Bool} {db db' : AppendOnlyDb}
      {cs : List SaveCall} (hopen : AppendOnlyDb.open dir workerCount deltaThreshold useShadow = .ok db)
      (hsaves : Saves z db cs db') (hclose : db'.close = .ok dir') : ShadowSession useShadow dir cs dir'

/-- Further sessions, each with its `use_shadow` and its saves. -/
inductive ShadowSessions : Dir → List (Bool × List SaveCall) → Dir → Prop
  | nil {dir : Dir} : ShadowSessions dir [] dir
  | snoc {dir mid dir' : Dir} {ss : List (Bool × List SaveCall)} {useShadow : Bool} {cs : List SaveCall}
      (h : ShadowSessions dir ss mid) (hs : ShadowSession z useShadow mid cs dir') :
      ShadowSessions dir (ss ++ [(useShadow, cs)]) dir'

/-- What a handle may be opened on: an empty directory, or a database. -/
inductive Database : List SaveCall → Dir → Prop
  | empty : Database [] Dir.empty
  | written {cs : List SaveCall} {dir : Dir} (h : Written z cs dir) : Database cs dir

/-- Save calls on one handle, some of which fail; `cs` lists those that return Ok. Each
of these meets `ok`, a condition on the ones before it and on the handle it starts from. -/
inductive Attempts (ok : List SaveCall → AppendOnlyDb → SaveCall → Prop) :
    AppendOnlyDb → List SaveCall → AppendOnlyDb → Prop
  | nil {db : AppendOnlyDb} : Attempts ok db [] db
  | saved {db db1 db2 : AppendOnlyDb} {cs : List SaveCall} {c : SaveCall} {schedule : List (ℕ × Buffered.Fault)}
      (h : Attempts ok db cs db1) (hrange : c.InRange) (hok : ok cs db1 c)
      (hsave : c.run z schedule db1 = some (db2, .ok ())) : Attempts ok db (cs ++ [c]) db2
  | failed {db db1 db2 : AppendOnlyDb} {cs : List SaveCall} {c : SaveCall} {schedule : List (ℕ × Buffered.Fault)}
      {e : Failure} (h : Attempts ok db cs db1) (hrange : c.InRange)
      (hsave : c.run z schedule db1 = some (db2, .error e)) : Attempts ok db cs db2

/-- What sessions and conversions, in any order, made of an empty directory: all saves,
and the saves there were at the last conversion. -/
inductive History : List SaveCall → Option (List SaveCall) → Dir → Prop
  | first {cs : List SaveCall} {dir : Dir} (hs : Session z Dir.empty cs dir) : History cs none dir
  | session {cs cs' : List SaveCall} {conv : Option (List SaveCall)} {dir dir' : Dir} (h : History cs conv dir)
      (hs : Session z dir cs' dir') : History (cs ++ cs') conv dir'
  | convert {cs : List SaveCall} {conv : Option (List SaveCall)} {dir dir' : Dir} (h : History cs conv dir)
      (hc : toBtree dir = .ok dir') : History cs (some cs) dir'

/-- What sessions and purges, in any order, made of an empty directory. -/
inductive Maintained : Dir → Prop
  | first {cs : List SaveCall} {dir : Dir} (hs : Session z Dir.empty cs dir) (hrange : ∀ c ∈ cs, c.InRange) :
      Maintained dir
  | session {cs : List SaveCall} {dir dir' : Dir} (h : Maintained dir) (hs : Session z dir cs dir')
      (hrange : ∀ c ∈ cs, c.InRange) : Maintained dir'
  | purge {dir dir' : Dir} {ord : WalkOrder FileStep} {t : UInt32} {n : ℕ} (h : Maintained dir)
      (hp : purge ord dir t = .ok (dir', n)) : Maintained dir'

/-- The same, with the saves a purge has not undone. -/
inductive Managed : List SaveCall → Dir → Prop
  | first {cs : List SaveCall} {dir : Dir} (hs : Session z Dir.empty cs dir) (hrange : ∀ c ∈ cs, c.InRange) :
      Managed cs dir
  | session {cs cs' : List SaveCall} {dir dir' : Dir} (h : Managed cs dir) (hs : Session z dir cs' dir')
      (hrange : ∀ c ∈ cs', c.InRange) : Managed (cs ++ cs') dir'
  | purge {cs : List SaveCall} {dir dir' : Dir} {ord : WalkOrder FileStep} {t : UInt32} {n : ℕ} (h : Managed cs dir)
      (hp : purge ord dir t = .ok (dir', n)) : Managed (cs.filter fun c => c.id ≤ t) dir'

/-- Save calls on one handle, whatever they return. -/
inductive Calls : AppendOnlyDb → AppendOnlyDb → Prop
  | nil {db : AppendOnlyDb} : Calls db db
  | snoc {db db1 db2 : AppendOnlyDb} {c : SaveCall} {schedule : List (ℕ × Buffered.Fault)} {r : Res Unit}
      (h : Calls db db1) (hcall : c.run z schedule db1 = some (db2, r)) : Calls db db2

/-- Every directory that sessions with any calls, conversions either way and purges lead to. -/
inductive Reached : Dir → Prop
  | empty : Reached Dir.empty
  | session {dir dir' : Dir} {n : ℕ} {t : UInt16} {u : Bool} {db db' : AppendOnlyDb} (h : Reached dir)
      (hopen : AppendOnlyDb.open dir n t u = .ok db) (hcalls : Calls z db db') (hclose : db'.close = .ok dir') : Reached dir'
  | index {dir dir' : Dir} (h : Reached dir) (hc : toBtree dir = .ok dir') : Reached dir'
  | log {dir dir' : Dir} (h : Reached dir) (hc : toLog dir = .ok dir') : Reached dir'
  | purge {dir dir' : Dir} {ord : WalkOrder FileStep} {t : UInt32} {n : ℕ} (h : Reached dir)
      (hp : purge ord dir t = .ok (dir', n)) : Reached dir'

/-- What a crash leaves of a save `c` made after the saves `cs`: its blob bytes are all there,
but of its records only the bytes `left`, the first `k`, and the header still has the id it
had before. -/
inductive Crashed : List SaveCall → SaveCall → Bytes → Dir → Prop
  | mk {cs cs' : List SaveCall} {c : SaveCall} {dir after : Dir} {n : ℕ} {t : UInt16} {u : Bool}
      {db db' db'' : AppendOnlyDb} {schedule : List (ℕ × Buffered.Fault)} {log log' : Bytes} {k : ℕ}
      (h : Database z cs dir) (hopen : AppendOnlyDb.open dir n t u = .ok db) (hsaves : Saves z db cs' db')
      (hsave : c.run z schedule db' = some (db'', .ok ())) (hclose : db''.close = .ok after)
      (hlog : db'.disk.log = some log) (hlog' : after.log = some log') :
      Crashed (cs ++ cs') c ((log'.drop log.length).take k)
        { after with log := some (log ++ (log'.drop log.length).take k) }

/-- Which page an address received with which snapshot id. -/
def savedBy (cs : List SaveCall) : Writes UInt64 ℕ Page :=
  fun pa t page => ∃ c ∈ cs, c.id.toNat = t ∧ c.dirty pa = some page

end Bxdb
