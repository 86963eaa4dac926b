import Mathlib.Data.Nat.Digits.Defs
import Mathlib.Data.List.Induction

/-!
# Numerals

Unsigned numbers as text, read the way `from_str_radix` does: an optional plus sign, at
least one digit, either case, leading zeros allowed, nothing at or above a bound.

* `parse_toDigits`: **a written number is read back.**
-/

namespace Numerals

/-- The value of a digit, in any radix up to 36. -/
def digitValue (c : Char) : Option ℕ :=
  if '0' ≤ c ∧ c ≤ '9' then some (c.toNat - '0'.toNat)
  else if 'a' ≤ c ∧ c ≤ 'z' then some (c.toNat - 'a'.toNat + 10)
  else if 'A' ≤ c ∧ c ≤ 'Z' then some (c.toNat - 'A'.toNat + 10)
  else none

def toDigit (radix : ℕ) (c : Char) : Option ℕ := (digitValue c).filter fun d => d < radix

/-- One more digit, unless the number gets too large. -/
def accept (radix bound acc : ℕ) (c : Char) : Option ℕ := do
  let d ← toDigit radix c
  if acc * radix + d < bound then some (acc * radix + d) else none

def parse (radix bound : ℕ) (s : List Char) : Option ℕ :=
  let digits := if s.head? = some '+' then s.tail else s
  if digits = [] then none else digits.foldlM (accept radix bound) 0

variable {radix bound n : ℕ} {s : List Char}

theorem digitValue_digitChar (h : n < 16) : digitValue n.digitChar = some n := by
  revert h
  revert n
  decide

theorem toDigit_digitChar (hr : radix ≤ 16) (h : n < radix) : toDigit radix n.digitChar = some n := by
  unfold toDigit
  rw [digitValue_digitChar (by omega), Option.filter_some]
  simp [h]

theorem accept_digitChar (hr : radix ≤ 16) {acc d : ℕ} (hd : d < radix) (h : acc * radix + d < bound) :
    accept radix bound acc d.digitChar = some (acc * radix + d) := by
  unfold accept
  rw [toDigit_digitChar hr hd]
  exact if_pos h

theorem foldlM_toDigits (h1 : 1 < radix) (hr : radix ≤ 16) (hn : n < bound) :
    (Nat.toDigits radix n).foldlM (accept radix bound) 0 = some n := by
  induction n using Nat.strong_induction_on with
  | _ n ih =>
    rw [Nat.toDigits_eq_if h1]
    split
    · rename_i hlt
      rw [List.foldlM_cons, accept_digitChar hr hlt (by omega), zero_mul, zero_add]
      rfl
    · rename_i hge
      have hdiv : n / radix < n := Nat.div_lt_self (by omega) h1
      have hsum : n / radix * radix + n % radix = n := Nat.div_add_mod' n radix
      rw [List.foldlM_append, ih _ hdiv (by omega)]
      change (accept radix bound (n / radix) (n % radix).digitChar >>= pure) = some n
      rw [accept_digitChar hr (Nat.mod_lt _ (by omega)) (by omega), hsum]
      rfl

/-- A number is written with the digits of its radix. -/
theorem mem_toDigits (h1 : 1 < radix) {c : Char} (hc : c ∈ Nat.toDigits radix n) : ∃ d, d < radix ∧ c = d.digitChar := by
  induction n using Nat.strong_induction_on with
  | _ n ih =>
    rw [Nat.toDigits_eq_if h1] at hc
    split at hc
    · rename_i hlt
      exact ⟨n, hlt, List.mem_singleton.1 hc⟩
    · rename_i hge
      rcases List.mem_append.1 hc with hc | hc
      · exact ih _ (Nat.div_lt_self (by omega) h1) hc
      · exact ⟨n % radix, Nat.mod_lt _ (by omega), List.mem_singleton.1 hc⟩

/-- A sign is no digit. -/
theorem head_ne_plus {cs : List Char} (h : cs.foldlM (accept radix bound) 0 = some n) : cs.head? ≠ some '+' := by
  intro hplus
  cases cs with
  | nil => cases hplus
  | cons c cs =>
    obtain rfl : c = '+' := Option.some.inj hplus
    rw [List.foldlM_cons] at h
    cases h

/-- **A written number is read back.** -/
theorem parse_toDigits (h1 : 1 < radix) (hr : radix ≤ 16) (hn : n < bound) :
    parse radix bound (Nat.toDigits radix n) = some n := by
  have hread := foldlM_toDigits h1 hr hn
  unfold parse
  rw [if_neg (head_ne_plus hread)]
  dsimp only
  rw [if_neg Nat.toDigits_ne_nil, hread]

end Numerals
