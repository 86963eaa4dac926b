import Bxdb.Lib.Bits
import Bxdb.Spec.FindWay

/-!
# The vectorised way search is the scalar one

A round sets two bits of the mask, those of its two ways (`sse_round`, `neon_round`). So
bit `j` of the mask tells whether way `j` has the key, and the trailing zeros are those
ways before the first that has it.

* `find_way_scalar`: **`find_way` returns the lowest way with the key on every target**,
  and none when there is none.
-/

namespace Bxdb.SharedCache

open Reg

variable {ids : PageIds} {key : UInt64} {lo hi : BitVec 64} {i : Fin 8} {j : ℕ}

/-! ## Lanes -/

theorem getLsbD_ofLanes (lo hi : BitVec 64) (j : ℕ) :
    (ofLanes lo hi).getLsbD j = if j < 64 then lo.getLsbD j else hi.getLsbD (j - 64) :=
  BitVec.getLsbD_append

@[simp] theorem lane_ofLanes_zero : (ofLanes lo hi).lane 0 = lo := by
  apply BitVec.eq_of_getLsbD_eq
  intro j hj
  unfold lane
  rw [BitVec.getLsbD_extractLsb', Nat.mul_zero, Nat.zero_add, getLsbD_ofLanes, if_pos hj, decide_eq_true hj,
    Bool.true_and]

@[simp] theorem lane_ofLanes_one : (ofLanes lo hi).lane 1 = hi := by
  apply BitVec.eq_of_getLsbD_eq
  intro j hj
  unfold lane
  rw [BitVec.getLsbD_extractLsb', Nat.mul_one, getLsbD_ofLanes, if_neg (by omega), decide_eq_true hj, Bool.true_and,
    Nat.add_sub_cancel_left]

theorem getLsbD_cmpeq (a b : BitVec 64) (hj : j < 64) : (cmpeq a b).getLsbD j = decide (a = b) := by
  unfold cmpeq
  split
  · rename_i heq
    rw [decide_eq_true heq, BitVec.getLsbD_allOnes, decide_eq_true hj]
  · rename_i hne
    rw [decide_eq_false hne]
    exact BitVec.getLsbD_zero

theorem decide_toBitVec (a b : UInt64) : decide (a.toBitVec = b.toBitVec) = (a == b) := by
  rw [beq_eq_decide]
  exact decide_eq_decide.2 UInt64.toBitVec_inj

/-! ## One round -/

/-- The mask of the round over ways `2 * i` and `2 * i + 1`. -/
def IsRound (ids : PageIds) (key : UInt64) (i : Fin 8) (x : BitVec 32) : Prop :=
  ∀ j, x.getLsbD j = true ↔ (j = i.val * 2 ∨ j = i.val * 2 + 1) ∧ ids.toList[j]? = some key

theorem getElem?_toList {k : ℕ} (hk : k < 16) : ids.toList[k]? = some ids[k] := by
  rw [List.getElem?_eq_getElem (by rw [Vector.length_toList]; exact hk), Vector.getElem_toList]

/-- The bits of a round, one for each of its ways. -/
theorem isRound_of {x : BitVec 32} {b c : Bool} (hx : ∀ j, x.getLsbD j =
    (decide (j = i.val * 2) && b || decide (j = i.val * 2 + 1) && c))
    (hb : b = true ↔ ids.toList[i.val * 2]? = some key)
    (hc : c = true ↔ ids.toList[i.val * 2 + 1]? = some key) : IsRound ids key i x := by
  intro j
  rw [hx j, Bool.or_eq_true, Bool.and_eq_true, Bool.and_eq_true, decide_eq_true_iff, decide_eq_true_iff, hb, hc]
  constructor
  · rintro (⟨rfl, hkey⟩ | ⟨rfl, hkey⟩)
    · exact ⟨.inl rfl, hkey⟩
    · exact ⟨.inr rfl, hkey⟩
  · rintro ⟨rfl | rfl, hkey⟩
    · exact .inl ⟨rfl, hkey⟩
    · exact .inr ⟨rfl, hkey⟩

theorem way_eq_iff {k : ℕ} (hk : k < 16) : (ids[k] == key) = true ↔ ids.toList[k]? = some key := by
  rw [getElem?_toList hk, beq_iff_eq, Option.some_inj]

theorem getLsbD_movemask (a : Reg) (j : ℕ) :
    (mmMovemaskPd a).getLsbD j = (decide (j = 0) && a.getLsbD 63 || decide (j = 1) && a.getLsbD 127) := by
  unfold mmMovemaskPd
  rw [BitVec.getLsbD_setWidth, BitVec.getLsbD_append, BitVec.getLsbD_ofBool, BitVec.getLsbD_ofBool]
  rcases j with _ | _ | j
  · simp
  · simp
  · simp

theorem sse_round : IsRound ids key i
    (mmMovemaskPd (mmCmpeqEpi64 (mmLoaduSi128 ids i) (mmSet1Epi64x key)) <<< (i.val * 2)) := by
  have hi := i.isLt
  refine isRound_of (fun j => ?_) (way_eq_iff (by omega)) (way_eq_iff (by omega))
  rw [BitVec.getLsbD_shiftLeft, getLsbD_movemask]
  unfold mmCmpeqEpi64 mmLoaduSi128 mmSet1Epi64x mapLanes₂
  rw [lane_ofLanes_zero, lane_ofLanes_zero, lane_ofLanes_one, lane_ofLanes_one, getLsbD_ofLanes, getLsbD_ofLanes,
    if_pos (by norm_num), if_neg (by norm_num), getLsbD_cmpeq _ _ (by norm_num), getLsbD_cmpeq _ _ (by norm_num),
    decide_toBitVec, decide_toBitVec]
  grind

/-- A compared lane, shifted down, is one bit. -/
theorem getLsbD_shifted (a b : UInt64) (j : ℕ) :
    ((cmpeq a.toBitVec b.toBitVec >>> 63).setWidth 32).getLsbD j = (decide (j = 0) && a == b) := by
  rw [BitVec.getLsbD_setWidth, BitVec.getLsbD_ushiftRight]
  rcases j with _ | j
  · rw [getLsbD_cmpeq _ _ (by norm_num), decide_toBitVec]
    rfl
  · rw [BitVec.getLsbD_of_ge _ _ (by omega), Bool.and_false]
    rfl

theorem neon_round : IsRound ids key i
    (((vgetqLaneU64 0 (vshrqNU64 63 (vceqqU64 (vld1qU64 ids i) (vdupqNU64 key)))).setWidth 32) <<< (i.val * 2) |||
      ((vgetqLaneU64 1 (vshrqNU64 63 (vceqqU64 (vld1qU64 ids i) (vdupqNU64 key)))).setWidth 32) <<<
        (i.val * 2 + 1)) := by
  have hi := i.isLt
  refine isRound_of (fun j => ?_) (way_eq_iff (by omega)) (way_eq_iff (by omega))
  unfold vgetqLaneU64 vshrqNU64 vceqqU64 vld1qU64 vdupqNU64 mapLanes mapLanes₂
  simp only [lane_ofLanes_zero, lane_ofLanes_one]
  rw [BitVec.getLsbD_or, BitVec.getLsbD_shiftLeft, BitVec.getLsbD_shiftLeft, getLsbD_shifted, getLsbD_shifted]
  grind

/-! ## The mask -/

/-- **Bit `j` of the mask** tells whether way `j` has the key. -/
theorem getLsbD_mask {rounds : Fin 8 → BitVec 32} (h : ∀ i, IsRound ids key i (rounds i)) (j : ℕ) :
    ((List.finRange 8).foldl (fun mask i => mask ||| rounds i) 0#32).getLsbD j = (ids.toList[j]?).any (· == key) := by
  rw [Bits.getLsbD_foldl_or, BitVec.getLsbD_zero, Bool.false_or]
  rw [Bool.eq_iff_iff, List.any_eq_true]
  constructor
  · rintro ⟨i, -, hbit⟩
    rw [((h i j).1 hbit).2, Option.any_some, beq_self_eq_true]
  · intro hany
    obtain ⟨k, hk, heq⟩ := (Option.any_eq_true _ _).1 hany
    have hlt : j < 16 := by
      have hlen : ids.toList.length = 16 := Vector.length_toList
      rw [← hlen]
      exact (List.getElem?_eq_some_iff.1 hk).1
    -- the round of its pair sets the bit
    have hpair : j = j / 2 * 2 ∨ j = j / 2 * 2 + 1 := by omega
    refine ⟨⟨j / 2, by omega⟩, List.mem_finRange _, (h ⟨j / 2, by omega⟩ j).2 ⟨hpair, ?_⟩⟩
    rw [hk, beq_iff_eq.1 heq]

/-- **Every round right, the search is the scalar one.** -/
theorem firstHit_mask {rounds : Fin 8 → BitVec 32} (h : ∀ i, IsRound ids key i (rounds i)) :
    firstHit ((List.finRange 8).foldl (fun mask i => mask ||| rounds i) 0#32) = findWay ids.toList key :=
  Bits.ctz_eq_findIdx? (getLsbD_mask h)

theorem findWaySse41_eq (ids : PageIds) (key : UInt64) : findWaySse41 ids key = findWay ids.toList key :=
  firstHit_mask fun _ => sse_round

theorem findWayNeon_eq (ids : PageIds) (key : UInt64) : findWayNeon ids key = findWay ids.toList key :=
  firstHit_mask fun _ => neon_round

/-! ## The way found -/

theorem findWay_eq_none : findWay ids.toList key = none ↔ ∀ w : Fin 16, ids[w] ≠ key := by
  unfold findWay
  rw [List.findIdx?_eq_none_iff]
  constructor
  · intro hnone w
    have hmem : ids[w] ∈ ids.toList := Vector.mem_toList_iff.2 (Vector.getElem_mem _)
    simpa using hnone _ hmem
  · intro hall k hk
    obtain ⟨w, hw, rfl⟩ := List.getElem_of_mem hk
    rw [Vector.length_toList] at hw
    rw [Vector.getElem_toList, beq_eq_false_iff_ne]
    exact hall ⟨w, hw⟩

theorem findWay_eq_some {w : Fin 16} :
    findWay ids.toList key = some w.val ↔ ids[w] = key ∧ ∀ v : Fin 16, v < w → ids[v] ≠ key := by
  unfold findWay
  rw [List.findIdx?_eq_some_iff_getElem]
  constructor
  · rintro ⟨hw, hkey, hbefore⟩
    rw [Vector.getElem_toList, beq_iff_eq] at hkey
    refine ⟨hkey, fun v hv => ?_⟩
    have hne := hbefore v.val hv
    rwa [Vector.getElem_toList, beq_iff_eq] at hne
  · rintro ⟨hkey, hbefore⟩
    refine ⟨by rw [Vector.length_toList]; exact w.isLt, ?_, fun v hv => ?_⟩
    · rw [Vector.getElem_toList, beq_iff_eq]
      exact hkey
    · rw [Vector.getElem_toList, beq_iff_eq]
      exact hbefore ⟨v, by omega⟩ hv

theorem findWayOn_eq (target : Target) (ids : PageIds) (key : UInt64) :
    findWayOn target ids key = findWay ids.toList key := by
  unfold findWayOn
  split
  · exact findWaySse41_eq ids key
  · exact findWayNeon_eq ids key
  · rfl
  · rfl

/-- **On every target `find_way` returns the lowest way with the key**, and none when there is
none, ids that occur more than once included. -/
theorem find_way_scalar (target : Target) (ids : PageIds) (key : UInt64) :
    findWayOn target ids key = findWay ids.toList key ∧
    findWaySse41 ids key = findWay ids.toList key ∧ findWayNeon ids key = findWay ids.toList key ∧
    (findWayOn target ids key = none ↔ ∀ w : Fin 16, ids[w] ≠ key) ∧
    ∀ w : Fin 16, findWayOn target ids key = some w.val ↔ ids[w] = key ∧ ∀ v : Fin 16, v < w → ids[v] ≠ key := by
  rw [findWayOn_eq]
  exact ⟨rfl, findWaySse41_eq ids key, findWayNeon_eq ids key, findWay_eq_none, fun w => findWay_eq_some⟩

end Bxdb.SharedCache
