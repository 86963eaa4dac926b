import Bxdb.Proof.Bitmap
import Bxdb.Proof.Reopen

/-!
# Calls turned down because of their arguments

A save checks its snapshot id first, takes it, and only then checks the memory's length
and the bitmap (`validate`). A call that fails one of the later checks has used its id up.

* `rejected_save`: **a rejected call changes nothing, and no later call can tell, exactly
  when it was the snapshot id that was rejected.**
* `retry_refused`: a call with too short a memory, after which its id is gone.
-/

namespace Bxdb

open Buffered

/-- The check on the memory's length. -/
def checkMemory (memory : Bytes) (n : UInt64) : Res Unit :=
  if memory.length ≠ n.toNat * pageSize then ioErr .invalidInput "memory length != total_page_count * 4096"
  else .ok ()

/-- The checks on the bitmap: its length, and the number of dirty pages. -/
def checkBitmap (bits : List UInt64) (n : UInt64) : Res Unit := do
  if bits.length < (n.toNat + 63) / 64 then ioErr .invalidInput "dirty_bitmap too short"
  let _ ← bitmapOffsets (bits.take ((n.toNat + 63) / 64)) ((n.toNat + 63) / 64) n.toNat

/-- **The checks a call makes on its arguments**, in their order. -/
def SaveCall.validate (db : AppendOnlyDb) : SaveCall → Res Unit
  | .all memory n s => do
    db.checkSnapshot s
    checkMemory memory n
  | .bitmap memory bits n s => do
    db.checkSnapshot s
    checkMemory memory n
    checkBitmap bits n

/-- The snapshot id is out of range, or not above the last one. -/
def AppendOnlyDb.RefusesId (db : AppendOnlyDb) (id : UInt32) : Prop :=
  maxSnapshotId < id ∨ ∃ l, db.lastSnapshot = some l ∧ id ≤ l

/-- Save calls return the same on both handles, however many are made. -/
def SameResults (z : Zstd) (db db' : AppendOnlyDb) : Prop :=
  ∀ calls : List (SaveCall × List (ℕ × Fault)), (runCalls z db' calls).map Prod.snd = (runCalls z db calls).map Prod.snd

section

variable {z : Zstd} {db : AppendOnlyDb} {c : SaveCall} {e : Failure} {id : UInt32}

theorem refusesId_iff : db.RefusesId id ↔ ¬ db.Accepts id := by
  rw [accepts_iff]
  unfold AppendOnlyDb.RefusesId
  constructor
  · rintro (hmax | ⟨l, hl, hle⟩) ⟨hid, habove⟩
    · exact UInt32.not_lt.2 hid hmax
    · exact UInt32.not_lt.2 hle (habove l hl)
  · intro h
    by_cases hid : id ≤ maxSnapshotId
    · -- in range, so there is a last id, which is not below
      right
      by_contra hno
      refine h ⟨hid, fun l hl => ?_⟩
      by_contra hle
      exact hno ⟨l, hl, UInt32.not_lt.1 hle⟩
    · exact .inl (UInt32.not_le.1 hid)

theorem refusesId_error (h : db.checkSnapshot id = .error e) : db.RefusesId id := by
  rw [refusesId_iff]
  intro haccepts
  rw [AppendOnlyDb.Accepts, h] at haccepts
  cases haccepts

/-- The id a handle has taken is refused from then on. -/
theorem accept_refuses (db : AppendOnlyDb) (id : UInt32) : (db.accept id).RefusesId id :=
  .inr ⟨id, rfl, UInt32.le_refl id⟩

/-- The check on the memory, as the calls make it. -/
theorem checkMemory_cases (memory : Bytes) (n : UInt64) :
    (memory.length ≠ n.toNat * pageSize ∧
        checkMemory memory n = ioErr .invalidInput "memory length != total_page_count * 4096") ∨
      memory.length = n.toNat * pageSize ∧ checkMemory memory n = .ok () := by
  unfold checkMemory
  by_cases hm : memory.length = n.toNat * pageSize
  · exact .inr ⟨hm, by rw [if_neg (not_not.2 hm)]⟩
  · exact .inl ⟨hm, if_pos hm⟩

/-- With the id accepted, a check that fails is the plan's error. -/
theorem plan_of_validate (hs : db.checkSnapshot c.id = .ok ()) (h : c.validate db = .error e) : c.plan = .error e := by
  cases c with
  | all memory n s =>
    unfold SaveCall.validate at h
    unfold SaveCall.plan
    dsimp only [SaveCall.id] at hs h ⊢
    rw [hs, ok_bind] at h
    rcases checkMemory_cases memory n with ⟨hm, hcheck⟩ | ⟨hm, hcheck⟩
    · rw [hcheck] at h
      cases h
      exact if_pos hm
    · rw [hcheck] at h
      cases h
  | bitmap memory bits n s =>
    unfold SaveCall.validate at h
    unfold SaveCall.plan
    dsimp only [SaveCall.id] at hs h ⊢
    rw [hs, ok_bind] at h
    rcases checkMemory_cases memory n with ⟨hm, hcheck⟩ | ⟨hm, hcheck⟩
    · rw [hcheck] at h
      cases h
      exact if_pos hm
    rw [hcheck, ok_bind] at h
    rw [if_neg (not_not.2 hm)]
    unfold checkBitmap at h
    by_cases hlen : bits.length < (n.toNat + 63) / 64
    · rw [if_pos hlen] at h ⊢
      cases h
      rfl
    rw [if_neg hlen] at h ⊢
    -- the counts overflow, so there is a page
    cases ho : bitmapOffsets (bits.take ((n.toNat + 63) / 64)) ((n.toNat + 63) / 64) n.toNat with
    | ok r =>
      rw [ho] at h
      cases h
    | error e' =>
      rw [ho] at h
      cases h
      have hwords : (n.toNat + 63) / 64 ≠ 0 := by
        intro hzero
        rw [hzero] at ho
        cases ho
      rw [if_neg hwords]

/-- The first check is the one on the id. -/
theorem validate_of_error (hs : db.checkSnapshot c.id = .error e) : c.validate db = .error e := by
  cases c with
  | all memory n s =>
    change (db.checkSnapshot s >>= _) = _
    rw [show db.checkSnapshot s = .error e from hs]
    rfl
  | bitmap memory bits n s =>
    change (db.checkSnapshot s >>= _) = _
    rw [show db.checkSnapshot s = .error e from hs]
    rfl

/-- **What a rejected call returns and leaves**: the handle as it was when the id was at
fault, the handle with the id taken otherwise. -/
theorem run_rejected (schedule : List (ℕ × Fault)) (h : c.validate db = .error e) :
    (db.RefusesId c.id ∧ c.run z schedule db = some (db, .error e)) ∨
      ¬ db.RefusesId c.id ∧ c.run z schedule db = some (db.accept c.id, .error e) := by
  cases hs : db.checkSnapshot c.id with
  | error e' =>
    obtain rfl := Except.error.inj ((validate_of_error hs).symm.trans h)
    exact .inl ⟨refusesId_error hs, run_refused hs⟩
  | ok u =>
    refine .inr ⟨fun hrefuses => refusesId_iff.1 hrefuses hs, ?_⟩
    rw [run_plan hs, plan_of_validate hs h]
    rfl

/-- A call without pages returns what the check on its id says. -/
theorem run_noPages (z : Zstd) (db : AppendOnlyDb) (id : UInt32) :
    (runCalls z db [(.all [] 0 id, [])]).map Prod.snd = some [db.checkSnapshot id] := by
  have hrun : ∃ db', (SaveCall.all [] 0 id).run z [] db = some (db', db.checkSnapshot id) := by
    cases hs : db.checkSnapshot id with
    | error e => exact ⟨db, run_refused hs⟩
    | ok u =>
      have hplan : (SaveCall.all [] 0 id).plan = .ok none := by
        unfold SaveCall.plan
        dsimp only
        rw [if_neg (show ¬ (List.length ([] : Bytes) ≠ (0 : UInt64).toNat * pageSize) by simp)]
        exact if_pos rfl
      refine ⟨db.accept id, ?_⟩
      rw [run_plan hs, hplan]
      rfl
  obtain ⟨db', hrun⟩ := hrun
  rw [runCalls, hrun]
  rfl

/-- **When a rejected call goes unnoticed**: for any handle and any call that fails a check
on its arguments, exactly when the check was the one on the snapshot id. -/
theorem rejected_save (schedule : List (ℕ × Fault)) (h : c.validate db = .error e) :
    ∃ db', c.run z schedule db = some (db', .error e) ∧ (db' = db ↔ db.RefusesId c.id) ∧
      (SameResults z db db' ↔ db.RefusesId c.id) := by
  rcases run_rejected schedule h with ⟨hrefuses, hrun⟩ | ⟨hrefuses, hrun⟩
  · exact ⟨db, hrun, ⟨fun _ => hrefuses, fun _ => rfl⟩, fun _ => hrefuses, fun _ calls => rfl⟩
  · refine ⟨db.accept c.id, hrun, ⟨fun hsame => ?_, fun hr => absurd hr hrefuses⟩, fun hsame => ?_,
      fun hr => absurd hr hrefuses⟩
    · have := accept_refuses db c.id
      rwa [hsame] at this
    · -- a call without pages tells the handles apart
      have hresults := hsame [(.all [] 0 c.id, [])]
      rw [run_noPages, run_noPages] at hresults
      have hcheck : (db.accept c.id).checkSnapshot c.id = db.checkSnapshot c.id :=
        List.singleton_inj.1 (Option.some.inj hresults)
      rw [refusesId_iff]
      intro haccepts
      exact refusesId_iff.1 (accept_refuses db c.id) (hcheck.trans haccepts)

end

/-- A call with an id out of range leaves the handle as it was, and goes unnoticed. -/
theorem rejected_save_range : ∃ db db' : AppendOnlyDb, AppendOnlyDb.open Dir.empty 1 512 true = .ok db ∧
    (SaveCall.all [0] 1 0xFFFFFFFF).run Zstd.raw [] db =
      some (db', ioErr .invalidInput "snapshot_id exceeds 19-bit range") ∧ db' = db ∧ SameResults Zstd.raw db db' := by
  obtain ⟨db, hopen⟩ : ∃ db, AppendOnlyDb.open Dir.empty 1 512 true = .ok db :=
    open_completes (by decide : 1 ≤ 1 ∧ 1 ≤ 255) 512 true (.inl rfl)
  have hrefuses : db.RefusesId 0xFFFFFFFF := .inl (by decide)
  have hcheck : SaveCall.validate db (.all [0] 1 0xFFFFFFFF) =
      ioErr .invalidInput "snapshot_id exceeds 19-bit range" := by
    have hmax : maxSnapshotId < 0xFFFFFFFF := by decide
    unfold SaveCall.validate AppendOnlyDb.checkSnapshot
    dsimp only
    rw [if_pos hmax]
    rfl
  obtain ⟨db', hrun, hsame, hresults⟩ := rejected_save (z := Zstd.raw) [] hcheck
  exact ⟨db, db', hopen, hrun, hsame.2 hrefuses, hresults.2 hrefuses⟩

/-- **An id lost to a rejected call**: with a memory of one byte the call fails, and a call
with the same id and a whole page, which the handle would have taken, fails as well. -/
theorem retry_refused : ∃ db db' : AppendOnlyDb, AppendOnlyDb.open Dir.empty 1 512 true = .ok db ∧
    (SaveCall.all [0] 1 5).run Zstd.raw [] db =
      some (db', ioErr .invalidInput "memory length != total_page_count * 4096") ∧
    (∃ schedule db'', (onePage (noise 1) 5).run Zstd.raw schedule db = some (db'', .ok ())) ∧
    ∀ schedule, (onePage (noise 1) 5).run Zstd.raw schedule db' =
      some (db', ioErr .invalidInput "snapshot_id must increase monotonically: got 5 after 5") := by
  obtain ⟨db, hopen⟩ : ∃ db, AppendOnlyDb.open Dir.empty 1 512 true = .ok db :=
    open_completes (by decide : 1 ≤ 1 ∧ 1 ≤ 255) 512 true (.inl rfl)
  have haccepts : db.checkSnapshot 5 = .ok () := by
    obtain ⟨-, -, hlast⟩ := open_newLog rfl hopen
    exact checkSnapshot_accepts (by decide) fun l hl => by rw [hlast] at hl; cases hl
  have hmem : ([0] : Bytes).length ≠ (1 : UInt64).toNat * pageSize := by decide
  have hsave := first_completes Zstd.raw_small (onePage_valid (noise 1) (by decide : (5 : UInt32) ≤ maxSnapshotId))
    (by rw [show (onePage (noise 1) 5).total = 1 from rfl]; norm_num [blobBufCap, maxFileLen]) hopen
  refine ⟨db, db.accept 5, hopen, ?_, hsave, fun schedule => ?_⟩
  · have hplan : (SaveCall.all [0] 1 5).plan = ioErr .invalidInput "memory length != total_page_count * 4096" := by
      unfold SaveCall.plan
      exact if_pos hmem
    rw [run_plan haccepts, hplan]
    rfl
  · -- the retry fails the check on its id
    have hrefused : (db.accept 5).checkSnapshot 5 =
      ioErr .invalidInput "snapshot_id must increase monotonically: got 5 after 5" := rfl
    exact run_refused hrefused

end Bxdb
