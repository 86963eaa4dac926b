import Bxdb.Spec.Session
import Bxdb.Spec.Convert
import Bxdb.Lib.Archive

/-!
# The life of a directory

Sessions, both conversions and purges, in any order, from an empty directory. Each of them
is a step of an `Archive`: the log is its journal and the index its catalogue.
-/

namespace Bxdb

open Versioned

/-- What is done to a directory. -/
inductive Command
  | session (cs : List SaveCall)
  | toBtree
  | toLog
  | purge (threshold : UInt32)

/-- Commands that return Ok, one after the other, in sessions of calls that return Ok. -/
inductive Lifecycle (z : Zstd) : List Command → Dir → Prop
  | empty : Lifecycle z [] Dir.empty
  | session {es : List Command} {cs : List SaveCall} {dir dir' : Dir} (h : Lifecycle z es dir)
      (hs : Session z dir cs dir') (hrange : ∀ c ∈ cs, c.InRange) : Lifecycle z (es ++ [.session cs]) dir'
  | toBtree {es : List Command} {dir dir' : Dir} (h : Lifecycle z es dir) (hc : Bxdb.toBtree dir = .ok dir') :
      Lifecycle z (es ++ [.toBtree]) dir'
  | toLog {es : List Command} {dir dir' : Dir} (h : Lifecycle z es dir) (hc : Bxdb.toLog dir = .ok dir') :
      Lifecycle z (es ++ [.toLog]) dir'
  | purge {es : List Command} {dir dir' : Dir} {ord : WalkOrder FileStep} {t : UInt32} {n : ℕ} (h : Lifecycle z es dir)
      (hp : Bxdb.purge ord dir t = .ok (dir', n)) : Lifecycle z (es ++ [.purge t]) dir'

/-- A command as a step of the archive. -/
def Command.event : Command → Archive.Event UInt64 ℕ Page
  | .session cs => .record (savedBy cs)
  | .toBtree => .publish
  | .toLog => .restore
  | .purge t => .trim t.toNat

/-- **What the commands make of an archive.** -/
noncomputable def archived (es : List Command) : Archive UInt64 ℕ Page := Archive.run (es.map Command.event)

/-- The saves that no later purge undoes. -/
def survivors (es : List Command) : List SaveCall :=
  es.foldl (fun cs e => match e with
    | .session cs' => cs ++ cs'
    | .toBtree => cs
    | .toLog => cs
    | .purge t => cs.filter fun c => c.id ≤ t) []

/-- Whether there is an index, whether it was made after the last session, and whether it
was so at every purge and every conversion to a log. -/
structure Care where
  indexed : Bool
  fresh : Bool
  careful : Bool

def Care.step (k : Care) : Command → Care
  | .session _ => { k with fresh := k.fresh && !k.indexed }
  | .toBtree => { k with indexed := true, fresh := true }
  | .toLog => { k with fresh := true, careful := k.careful && k.fresh }
  | .purge _ => { k with careful := k.careful && k.fresh }

def care (es : List Command) : Care := es.foldl Care.step ⟨false, true, true⟩

end Bxdb
