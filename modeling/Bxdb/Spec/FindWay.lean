import Bxdb.Spec.Cache
import Mathlib.Data.List.FinRange

/-!
# The vectorised way search (`cache.rs`)

`find_way` and its two vector versions, with each intrinsic on a 128-bit register as its
manual gives it: lane `i` holds the bits from `64 * i` on, and a load fills lane 0 from the
lower address. The scalar version is `findWay`.
-/

namespace Bxdb.SharedCache

/-- The page ids of a set. -/
abbrev PageIds := Vector UInt64 16

/-- `__m128i`, `uint64x2_t` -/
abbrev Reg := BitVec 128

namespace Reg

def lane (r : Reg) (i : ℕ) : BitVec 64 := r.extractLsb' (64 * i) 64

def ofLanes (lo hi : BitVec 64) : Reg := hi ++ lo

/-- An operation on each of the two lanes. -/
def mapLanes (f : BitVec 64 → BitVec 64) (r : Reg) : Reg := ofLanes (f (r.lane 0)) (f (r.lane 1))

def mapLanes₂ (f : BitVec 64 → BitVec 64 → BitVec 64) (r s : Reg) : Reg :=
  ofLanes (f (r.lane 0) (s.lane 0)) (f (r.lane 1) (s.lane 1))

/-- All ones where the lanes agree. -/
def cmpeq (a b : BitVec 64) : BitVec 64 := if a = b then BitVec.allOnes 64 else 0#64

end Reg

open Reg

/-! ## SSE4.1 -/

/-- `_mm_set1_epi64x` -/
def mmSet1Epi64x (a : UInt64) : Reg := ofLanes a.toBitVec a.toBitVec

/-- `_mm_loadu_si128(ptr.add(i))`, a pointer to registers -/
def mmLoaduSi128 (ids : PageIds) (i : Fin 8) : Reg :=
  ofLanes (ids[i.val * 2]).toBitVec (ids[i.val * 2 + 1]).toBitVec

/-- `_mm_cmpeq_epi64` -/
def mmCmpeqEpi64 (a b : Reg) : Reg := mapLanes₂ cmpeq a b

/-- `_mm_movemask_pd`: the sign bits of the lanes -/
def mmMovemaskPd (a : Reg) : BitVec 32 :=
  (BitVec.ofBool (a.getLsbD 127) ++ BitVec.ofBool (a.getLsbD 63)).setWidth 32

/-- The hit, from the mask of all ways. -/
def firstHit (mask : BitVec 32) : Option ℕ := if mask = 0#32 then none else some mask.ctz.toNat

def findWaySse41 (ids : PageIds) (key : UInt64) : Option ℕ :=
  let k := mmSet1Epi64x key
  firstHit <| (List.finRange 8).foldl (fun mask i =>
    let cmp := mmCmpeqEpi64 (mmLoaduSi128 ids i) k
    mask ||| mmMovemaskPd cmp <<< (i.val * 2)) 0#32

/-! ## NEON -/

/-- `vdupq_n_u64` -/
def vdupqNU64 (a : UInt64) : Reg := ofLanes a.toBitVec a.toBitVec

/-- `vld1q_u64(ptr.add(i * 2))`, a pointer to words -/
def vld1qU64 (ids : PageIds) (i : Fin 8) : Reg :=
  ofLanes (ids[i.val * 2]).toBitVec (ids[i.val * 2 + 1]).toBitVec

/-- `vceqq_u64` -/
def vceqqU64 (a b : Reg) : Reg := mapLanes₂ cmpeq a b

/-- `vshrq_n_u64` -/
def vshrqNU64 (n : ℕ) (a : Reg) : Reg := mapLanes (· >>> n) a

/-- `vgetq_lane_u64` -/
def vgetqLaneU64 (i : ℕ) (a : Reg) : BitVec 64 := a.lane i

def findWayNeon (ids : PageIds) (key : UInt64) : Option ℕ :=
  let k := vdupqNU64 key
  firstHit <| (List.finRange 8).foldl (fun mask i =>
    let bits := vshrqNU64 63 (vceqqU64 (vld1qU64 ids i) k)
    let lo := (vgetqLaneU64 0 bits).setWidth 32
    let hi := (vgetqLaneU64 1 bits).setWidth 32
    mask ||| (lo <<< (i.val * 2) ||| hi <<< (i.val * 2 + 1))) 0#32

/-! ## The choice -/

/-- The architecture, and whether SSE4.1 is detected. -/
inductive Target
  | x86_64 (sse41 : Bool)
  | aarch64
  | other
  deriving DecidableEq, Repr

/-- `find_way` -/
def findWayOn (target : Target) (ids : PageIds) (key : UInt64) : Option ℕ :=
  match target with
  | .x86_64 true => findWaySse41 ids key
  | .aarch64 => findWayNeon ids key
  | .x86_64 false | .other => findWay ids.toList key

end Bxdb.SharedCache
