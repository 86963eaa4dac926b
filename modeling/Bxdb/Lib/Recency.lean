import Mathlib.Data.List.Basic
import Mathlib.Order.Basic

/-!
# Recency stamps that saturate

Things are accessed one after the other; a history lists them newest first. Each has a
stamp: an access sets it to the top and takes one from all others, down to zero. So a
stamp above zero says how long ago the last access was, and a stamp of zero only that it
was long ago, or never.

* `stamp_cons`: one access, as the stamps see it.
* `newer_of_stamp_lt`: **a larger stamp is a later access.**
* `oldest_of_least`: **the least stamp is that of the one not accessed for longest**, unless
  that one was not accessed in the last `top` accesses.
-/

namespace Recency

variable {W : Type*} [DecidableEq W] {top : ℕ} {h : List W} {w w' : W}

/-- The stamp after the history `h`. -/
def stamp (top : ℕ) (h : List W) (w : W) : ℕ := if w ∈ h then top - h.idxOf w else 0

/-- `w'` was accessed after the last access of `w`, if there was any. -/
def Newer (h : List W) (w' w : W) : Prop := h.idxOf w' < h.idxOf w

theorem stamp_nil : stamp top [] w = 0 := if_neg List.not_mem_nil

/-- **One more access.** -/
theorem stamp_cons (a : W) : stamp top (a :: h) w = if w = a then top else stamp top h w - 1 := by
  unfold stamp
  by_cases hwa : w = a
  · subst hwa
    rw [if_pos List.mem_cons_self, if_pos rfl, List.idxOf_cons_self]
    omega
  · have hmem : w ∈ a :: h ↔ w ∈ h := by
      rw [List.mem_cons]
      exact or_iff_right hwa
    have hidx : (a :: h).idxOf w = h.idxOf w + 1 := List.idxOf_cons_ne h (Ne.symm hwa)
    rw [if_neg hwa, hidx]
    simp only [hmem]
    split
    · omega
    · omega

/-- A stamp above zero tells how many accesses came after. -/
theorem idxOf_of_stamp_pos (hpos : 0 < stamp top h w) : w ∈ h ∧ stamp top h w + h.idxOf w = top := by
  unfold stamp at *
  split at hpos
  · rename_i hmem
    rw [if_pos hmem]
    exact ⟨hmem, by omega⟩
  · omega

/-- **The larger stamp** is that of the later access. -/
theorem newer_of_stamp_lt (hlt : stamp top h w < stamp top h w') : Newer h w' w := by
  obtain ⟨hmem', hidx'⟩ := idxOf_of_stamp_pos (Nat.zero_lt_of_lt hlt)
  unfold Newer
  by_cases hmem : w ∈ h
  · unfold stamp at hlt hidx'
    rw [if_pos hmem, if_pos hmem'] at hlt
    omega
  · rw [List.idxOf_eq_length hmem]
    exact List.idxOf_lt_length_iff.2 hmem'

/-- A stamp of zero: no access among the last `top`. -/
theorem notMem_of_stamp_zero (hzero : stamp top h w = 0) : w ∉ h.take top := by
  intro hmem
  have hmem' : w ∈ h := List.mem_of_mem_take hmem
  have hidx : h.idxOf w < top := by
    have htake : (h.take top).idxOf w < (h.take top).length := List.idxOf_lt_length_iff.2 hmem
    have hsame : (h.take top).idxOf w = h.idxOf w := by
      conv_rhs => rw [← List.take_append_drop top h]
      rw [List.idxOf_append_of_mem hmem]
    rw [hsame, List.length_take] at htake
    omega
  unfold stamp at hzero
  rw [if_pos hmem'] at hzero
  omega

/-- **The least stamp.** Of those in `S`, the one with the least stamp was accessed before all
others, or not among the last `top` accesses. -/
theorem oldest_of_least {S : W → Prop} (hleast : ∀ w', S w' → stamp top h w ≤ stamp top h w') :
    (∀ w', S w' → w' ≠ w → Newer h w' w) ∨ w ∉ h.take top := by
  rcases Nat.eq_zero_or_pos (stamp top h w) with hzero | hpos
  · exact .inr (notMem_of_stamp_zero hzero)
  · refine .inl fun w' hw' hne => ?_
    have hle := hleast w' hw'
    obtain ⟨hmem, hidx⟩ := idxOf_of_stamp_pos hpos
    obtain ⟨hmem', hidx'⟩ := idxOf_of_stamp_pos (Nat.lt_of_lt_of_le hpos hle)
    have hdiff : h.idxOf w' ≠ h.idxOf w := fun heq => hne ((List.idxOf_inj hmem').1 heq)
    unfold Newer
    omega

/-- The newest one is neither the oldest nor long unaccessed. -/
theorem ne_head {a : W} (hhead : h.head? = some a) (htop : 0 < top) {b : W}
    (hw : Newer h b w ∨ w ∉ h.take top) : w ≠ a := by
  obtain ⟨l, rfl⟩ : ∃ l, h = a :: l := by
    cases h with
    | nil => simp at hhead
    | cons x l => exact ⟨l, by rw [Option.some.inj hhead]⟩
  rintro rfl
  rcases hw with hw | hw
  · unfold Newer at hw
    rw [List.idxOf_cons_self] at hw
    omega
  · obtain ⟨t, rfl⟩ : ∃ t, top = t + 1 := ⟨top - 1, by omega⟩
    exact hw (by rw [List.take_succ_cons]; exact List.mem_cons_self)

end Recency
