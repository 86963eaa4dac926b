import Mathlib.Init

/-!
# Results of fallible calls

A call returns a value, an `io::Error` (kind and message), or panics.
-/

namespace Bxdb

/-- The kinds of `io::Error` the crate makes or passes on. -/
inductive ErrorKind
  | invalidInput
  | invalidData
  | unexpectedEof
  | notFound
  | other
  deriving DecidableEq, Repr

structure IoError where
  kind : ErrorKind
  msg : String
  deriving DecidableEq, Repr

/-- How a call can fail. A panic (an `expect`, an index out of range, an addition
that overflows) is kept apart from an error the caller can handle. -/
inductive Failure
  | err (e : IoError)
  | panic (msg : String)
  deriving DecidableEq, Repr

abbrev Res (α : Type) := Except Failure α

/-- An `Err(io::Error)`. -/
def ioErr {α : Type} (kind : ErrorKind) (msg : String) : Res α := .error (.err ⟨kind, msg⟩)

/-- A panic. -/
def panics {α : Type} (msg : String) : Res α := .error (.panic msg)

/-- `read_exact` at the end of the input. -/
def eofErr {α : Type} : Res α := ioErr .unexpectedEof "failed to fill whole buffer"

/-- A sequence of two calls succeeds when both do. -/
theorem bind_eq_ok {α β : Type} {x : Res α} {f : α → Res β} {b : β} :
    (x >>= f) = .ok b ↔ ∃ a, x = .ok a ∧ f a = .ok b := by
  cases x with
  | error e => simp [bind, Except.bind]
  | ok a => simp [bind, Except.bind]

@[simp] theorem ok_bind {α β : Type} (a : α) (f : α → Res β) : ((.ok a : Res α) >>= f) = f a := rfl

end Bxdb
