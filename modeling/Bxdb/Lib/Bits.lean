import Mathlib.Data.Nat.Bitwise
import Mathlib.Data.List.Nodup
import Mathlib.Data.List.Range

/-!
# The set bits of a number

`n &&& (n - 1)` clears the lowest set bit of `n` and no other
(`testBit_and_pred`), so that doing it again and again walks through the set bits
from the lowest to the highest. Masking the low bits of a number away rounds it down
(`and_two_pow_sub`).
-/

namespace Bits

/-- The set bits of `n` among the first `width`, lowest first. -/
def ones (width n : ℕ) : List ℕ := (List.range width).filter n.testBit

theorem mem_ones {width n i : ℕ} : i ∈ ones width n ↔ i < width ∧ n.testBit i = true := by
  simp [ones]

theorem ones_sorted (width n : ℕ) : (ones width n).Pairwise (· < ·) :=
  List.pairwise_lt_range.filter _

/-- A number with lowest set bit `b`. -/
theorem eq_of_lowest {n b : ℕ} (hb : n.testBit b = true) (hlow : ∀ i < b, n.testBit i = false) :
    n = 2 ^ (b + 1) * (n / 2 ^ (b + 1)) + 2 ^ b := by
  have hmod : n % 2 ^ (b + 1) = 2 ^ b := by
    apply Nat.eq_of_testBit_eq
    intro i
    rw [Nat.testBit_mod_two_pow, Nat.testBit_two_pow]
    rcases Nat.lt_trichotomy i b with hi | rfl | hi
    · have : b ≠ i := by omega
      simp [hlow i hi, this]
    · simp [hb]
    · have h1 : ¬ i < b + 1 := by omega
      have h2 : b ≠ i := by omega
      simp [h1, h2]
  have := Nat.div_add_mod n (2 ^ (b + 1))
  omega

/-- **`n &&& (n - 1)` clears the lowest set bit** and keeps the others. -/
theorem testBit_and_pred {n b : ℕ} (hb : n.testBit b = true) (hlow : ∀ i < b, n.testBit i = false) (i : ℕ) :
    (n &&& (n - 1)).testBit i = (n.testBit i && decide (i ≠ b)) := by
  have hn := eq_of_lowest hb hlow
  set m := n / 2 ^ (b + 1) with hm
  have hpos : 0 < 2 ^ b := Nat.two_pow_pos b
  have hlt : 2 ^ b < 2 ^ (b + 1) := Nat.pow_lt_pow_right (by omega) (by omega)
  have hpred : n - 1 = 2 ^ (b + 1) * m + (2 ^ b - 1) := by omega
  rw [Nat.testBit_and]
  rcases Nat.lt_trichotomy i b with hi | rfl | hi
  · rw [hlow i hi]; simp
  · -- below the lowest bit the predecessor is all ones, at it a zero
    have : (n - 1).testBit i = false := by
      rw [hpred, Nat.testBit_two_pow_mul_add _ (by omega)]
      simp [Nat.testBit_two_pow_sub_one]
    rw [this]; simp
  · have hhigh : (n - 1).testBit i = n.testBit i := by
      rw [hpred, Nat.testBit_two_pow_mul_add _ (by omega)]
      conv_rhs => rw [hn, Nat.testBit_two_pow_mul_add _ hlt]
      have h1 : ¬ i < b + 1 := by omega
      simp only [h1, if_false]
    have h2 : i ≠ b := by omega
    rw [hhigh]; simp [h2]

theorem exists_lowest {width n : ℕ} (h : ones width n ≠ []) : ∃ b rest, ones width n = b :: rest ∧
    n.testBit b = true ∧ (∀ i < b, n.testBit i = false) ∧ (List.range width).find? n.testBit = some b := by
  cases hl : ones width n with
  | nil => exact absurd hl h
  | cons b rest =>
    have hb : b ∈ ones width n := by rw [hl]; exact List.mem_cons_self
    have hfind : (List.range width).find? n.testBit = some b := by
      rw [← List.head?_filter]
      show (ones width n).head? = some b
      rw [hl]; rfl
    refine ⟨b, rest, rfl, (mem_ones.1 hb).2, fun i hi => ?_, hfind⟩
    by_contra hc
    have hi' : i ∈ ones width n := mem_ones.2 ⟨hi.trans (mem_ones.1 hb).1, by simpa using hc⟩
    have hsort := ones_sorted width n
    rw [hl] at hi' hsort
    rcases List.mem_cons.1 hi' with rfl | hr
    · exact absurd hi (lt_irrefl _)
    · exact absurd hi (not_lt.2 ((List.pairwise_cons.1 hsort).1 i hr).le)

/-- Clearing the lowest set bit drops the head. -/
theorem ones_and_pred {width n b : ℕ} {rest : List ℕ} (h : ones width n = b :: rest) (hb : n.testBit b = true)
    (hlow : ∀ i < b, n.testBit i = false) : ones width (n &&& (n - 1)) = rest := by
  have hfun : (n &&& (n - 1)).testBit = fun i => decide (i ≠ b) && n.testBit i := by
    funext i
    rw [testBit_and_pred hb hlow, Bool.and_comm]
  have hsort := ones_sorted width n
  rw [h] at hsort
  unfold ones
  rw [hfun, ← List.filter_filter]
  show (ones width n).filter (fun i => decide (i ≠ b)) = rest
  rw [h, List.filter_cons_of_neg (by simp)]
  refine List.filter_eq_self.2 fun i hi => ?_
  have := (List.pairwise_cons.1 hsort).1 i hi
  simp only [ne_eq, decide_eq_true_eq]
  omega

/-- **Masking the low `k` bits away** rounds down to a multiple of `2 ^ k`. -/
theorem and_two_pow_sub {w k n : ℕ} (hk : k ≤ w) (hn : n < 2 ^ w) : n &&& (2 ^ w - 2 ^ k) = n / 2 ^ k * 2 ^ k := by
  have hpos : 0 < 2 ^ k := Nat.two_pow_pos k
  have hle : 2 ^ k ≤ 2 ^ w := Nat.pow_le_pow_right (by omega) hk
  apply Nat.eq_of_testBit_eq
  intro i
  rw [show 2 ^ w - 2 ^ k = 2 ^ w - ((2 ^ k - 1) + 1) by omega, Nat.testBit_and,
    Nat.testBit_two_pow_sub_succ (by omega), Nat.testBit_two_pow_sub_one, Nat.testBit_mul_two_pow]
  rcases Nat.lt_or_ge i k with hi | hi
  · simp [hi, hi.not_ge]
  · rw [Nat.testBit_div_two_pow, Nat.sub_add_cancel hi]
    rcases Nat.lt_or_ge i w with hw | hw
    · simp [hi, hw, hi.not_gt]
    · rw [Nat.testBit_lt_two_pow (hn.trans_le (Nat.pow_le_pow_right (by omega) hw))]
      simp

/-! ## Masks of hits -/

/-- The bits of a mask put together by or. -/
theorem getLsbD_foldl_or {ι : Type*} {w : ℕ} (f : ι → BitVec w) (l : List ι) (mask : BitVec w) (j : ℕ) :
    (l.foldl (fun mask i => mask ||| f i) mask).getLsbD j = (mask.getLsbD j || l.any fun i => (f i).getLsbD j) := by
  induction l generalizing mask with
  | nil => rw [List.foldl_nil, List.any_nil, Bool.or_false]
  | cons i l ih => rw [List.foldl_cons, ih, BitVec.getLsbD_or, List.any_cons, Bool.or_assoc]

/-- **The trailing zeros of a mask of hits** count the entries before the first hit. -/
theorem ctz_eq_findIdx? {α : Type*} {w : ℕ} {mask : BitVec w} {l : List α} {p : α → Bool}
    (h : ∀ j, mask.getLsbD j = (l[j]?).any p) : (if mask = 0#w then none else some mask.ctz.toNat) = l.findIdx? p := by
  cases hfind : l.findIdx? p with
  | none =>
    refine if_pos (BitVec.eq_of_getLsbD_eq fun j _ => ?_)
    rw [h j, BitVec.getLsbD_zero]
    cases hj : l[j]? with
    | none => rfl
    | some a => exact List.findIdx?_eq_none_iff.1 hfind a (List.mem_of_getElem? hj)
  | some k =>
    obtain ⟨hk, hhit, hbefore⟩ := List.findIdx?_eq_some_iff_getElem.1 hfind
    have hbit : mask.getLsbD k = true := by
      rw [h k, List.getElem?_eq_getElem hk]
      exact hhit
    have hne : mask ≠ 0#w := by
      rintro rfl
      rw [BitVec.getLsbD_zero] at hbit
      cases hbit
    rw [if_neg hne]
    congr 1
    rcases Nat.lt_trichotomy mask.ctz.toNat k with hlt | heq | hgt
    · -- the bit at the trailing zeros is a hit
      have hctz := BitVec.getLsbD_true_ctz_of_ne_zero hne
      rw [h, List.getElem?_eq_getElem (by omega)] at hctz
      exact absurd hctz (hbefore _ hlt)
    · exact heq
    · rw [BitVec.getLsbD_false_of_lt_ctz hgt] at hbit
      cases hbit

end Bits
