import Bxdb.Proof.Pass

/-!
# One save

What a call leaves behind, for handles in a well-formed state (`HandleOk`): the log's
file holds the records of a list of versions, in order, and the worker files' streams
hold what these versions need.

* `commit_log`: **records and then the header's snapshot id reach the log file**, with
  nothing held back.
* `run_eq`: a call checks its id, and the rest follows its plan, which the handle has no part in.
* `save_done`, `save_ok`: a save that returns Ok adds one version for each dirty page.
* `save_err`: one that fails leaves the versions as they are.
-/

namespace Bxdb

open Bytes Buffered ChunkRecord

/-! ## The log -/

/-- The log's writer between two calls: at the end of its file, nothing held back. -/
structure LogOk (w : BufWriter) : Prop where
  ok : w.Ok
  cap : w.cap = logBufCap
  limit : w.file.limit = none
  append : w.file.append = false
  buf : w.buf = []

theorem LogOk.stream {w : BufWriter} (h : LogOk w) : w.stream = w.file.bytes := by
  rw [BufWriter.stream, h.buf, List.append_nil]

/-- Writing records one after the other. -/
theorem writeRecords {w : BufWriter} (hok : w.Ok) (hl : w.file.limit = none) (ha : w.file.append = false)
    (rs : List ChunkRecord) :
    let w' := rs.foldl (fun w r => (w.writeAll none r.writeTo).1) w
    w'.Ok ∧ w'.file.limit = none ∧ w'.file.append = false ∧ w'.cap = w.cap ∧
      w'.stream = w.stream ++ encodeAll rs := by
  induction rs generalizing w with
  | nil => exact ⟨hok, hl, ha, rfl, by simp⟩
  | cons r rs ih =>
    have hw := BufWriter.writeAll_unlimited (d := r.writeTo) hl
    obtain ⟨h1, h2, h3, h4, h5⟩ := ih (BufWriter.writeAll_ok hok none r.writeTo)
      (by rw [BufWriter.writeAll_limit]; exact hl) (by rw [BufWriter.writeAll_append]; exact ha)
    refine ⟨h1, h2, h3, ?_, ?_⟩
    · rw [List.foldl_cons, h4, BufWriter.writeAll_cap]
    · rw [List.foldl_cons, h5, BufWriter.writeAll_stream hok hw, encodeAll_cons, List.append_assoc]

/-- Bytes 9 to 13 of a log are the header's snapshot id. -/
theorem writeAt_header (m id : UInt32) (body : Bytes) :
    RawFile.writeAt (writeLogHeader m ++ body) 9 (toLe32 id) = writeLogHeader id ++ body := by
  have hlen := length_toLe32 m
  have hlen' := length_toLe32 id
  have h1 : (writeLogHeader m ++ body).take 9 = magicLog ++ [formatVersion] := by
    have : writeLogHeader m ++ body = (magicLog ++ [formatVersion]) ++ (toLe32 m ++ [0, 0, 0] ++ body) := by
      simp [writeLogHeader, writeHeader]
    rw [this]
    exact List.take_left' rfl
  have h2 : (writeLogHeader m ++ body).drop (9 + (toLe32 id).length) = [0, 0, 0] ++ body := by
    have : writeLogHeader m ++ body = (magicLog ++ [formatVersion] ++ toLe32 m) ++ ([0, 0, 0] ++ body) := by
      simp [writeLogHeader, writeHeader]
    rw [this]
    refine List.drop_left' ?_
    simp [hlen, magicLog]
  have h3 : 9 - (writeLogHeader m ++ body).length = 0 := by
    have : (writeLogHeader m).length = 16 := length_writeHeader rfl m
    rw [List.length_append]; omega
  unfold RawFile.writeAt
  rw [h1, h2, h3]
  simp [writeLogHeader, writeHeader]

/-- **The log after a commit**: the new records at its end, the new id in its header. -/
theorem commit_log {db : AppendOnlyDb} (h : LogOk db.logFile) {m : UInt32} {body : Bytes}
    (hb : db.logFile.file.bytes = writeLogHeader m ++ body) (id : UInt32) (rs : List ChunkRecord) :
    LogOk (db.commit id rs).logFile ∧
      (db.commit id rs).logFile.file.bytes = writeLogHeader id ++ (body ++ encodeAll rs) := by
  obtain ⟨h1, h2, h3, h4, h5⟩ := writeRecords h.ok h.limit h.append rs
  have hlen := length_toLe32 id
  have hcap : (toLe32 id).length < (rs.foldl (fun w r => (w.writeAll none r.writeTo).1) db.logFile).cap := by
    rw [h4, h.cap, hlen]; decide
  have hne : toLe32 id ≠ [] := by
    intro hnil; rw [hnil] at hlen; simp at hlen
  obtain ⟨o1, o2, o3, o4, o5, o6⟩ := BufWriter.overwrite_spec h1 h2 h3 hcap hne 9
  refine ⟨⟨o6, o3.trans (h4.trans h.cap), o4, o5, o2⟩, ?_⟩
  unfold AppendOnlyDb.commit
  dsimp only
  rw [o1, h5, h.stream, hb, List.append_assoc, writeAt_header]

/-! ## What a call does -/

theorem checkSnapshot_ok {db : AppendOnlyDb} {id : UInt32} (h : db.checkSnapshot id = .ok ()) :
    id ≤ maxSnapshotId ∧ ∀ l, db.lastSnapshot = some l → l < id := by
  unfold AppendOnlyDb.checkSnapshot at h
  split at h
  · simp [ioErr] at h
  · rename_i hmax
    refine ⟨UInt32.not_lt.1 hmax, fun l hl => ?_⟩
    rw [hl] at h
    dsimp only at h
    split at h
    · simp [ioErr] at h
    · rename_i hle
      exact UInt32.not_le.1 hle

/-- The handle once a call's snapshot id was accepted. -/
def AppendOnlyDb.accept (db : AppendOnlyDb) (id : UInt32) : AppendOnlyDb := { db with lastSnapshot := some id }

/-- What a call makes of its arguments: an error, nothing to do, or jobs. -/
def SaveCall.plan : SaveCall → Res (Option (List Job))
  | .all memory n _ =>
    if memory.length ≠ n.toNat * pageSize then ioErr .invalidInput "memory length != total_page_count * 4096"
    else if n.toNat = 0 then .ok none
    else match allJobs memory n.toNat with
      | .error e => .error e
      | .ok jobs => .ok (some jobs)
  | .bitmap memory bits n _ =>
    let words := (n.toNat + 63) / 64
    if memory.length ≠ n.toNat * pageSize then ioErr .invalidInput "memory length != total_page_count * 4096"
    else if bits.length < words then ioErr .invalidInput "dirty_bitmap too short"
    else if words = 0 then .ok none
    else match bitmapOffsets (bits.take words) words n.toNat with
      | .error e => .error e
      | .ok (offsets, totalDirty) =>
        if totalDirty = 0 then .ok none
        else match bitmapJobs memory (bits.take words) words n.toNat offsets with
          | .error e => .error e
          | .ok jobs => .ok (some jobs)

/-- A planned call on the handle that took its id. -/
def AppendOnlyDb.execute (z : Zstd) (schedule : List (ℕ × Fault)) (db : AppendOnlyDb) (id : UInt32) :
    Res (Option (List Job)) → Option (AppendOnlyDb × Res Unit)
  | .error e => some (db, .error e)
  | .ok none => some (db, .ok ())
  | .ok (some jobs) => db.saveJobs z schedule id jobs

section Call

variable {z : Zstd} {schedule : List (ℕ × Fault)} {db db' : AppendOnlyDb} {c : SaveCall} {r : Res Unit}

/-- **A call in two steps**: the check on its id, then its plan. -/
theorem run_eq : c.run z schedule db = match db.checkSnapshot c.id with
    | .error e => some (db, .error e)
    | .ok () => (db.accept c.id).execute z schedule c.id c.plan := by
  cases c with
  | all memory n s =>
    -- both refuse on the same checks, in the same order
    unfold SaveCall.run AppendOnlyDb.saveAllPages SaveCall.plan
    dsimp only [SaveCall.id]
    cases db.checkSnapshot s with
    | error e => rfl
    | ok u =>
      dsimp only
      split
      · rfl
      · split
        · rfl
        · cases allJobs memory n.toNat with
          | error e => rfl
          | ok jobs => rfl
  | bitmap memory bits n s =>
    unfold SaveCall.run AppendOnlyDb.savePagesWithBitmap SaveCall.plan
    dsimp only [SaveCall.id]
    cases db.checkSnapshot s with
    | error e => rfl
    | ok u =>
      dsimp only
      split
      · rfl
      · split
        · rfl
        · split
          · rfl
          · cases bitmapOffsets (bits.take ((n.toNat + 63) / 64)) ((n.toNat + 63) / 64) n.toNat with
            | error e => rfl
            | ok od =>
              obtain ⟨offsets, dirty⟩ := od
              dsimp only
              split
              · rfl
              · cases bitmapJobs memory (bits.take ((n.toNat + 63) / 64)) ((n.toNat + 63) / 64) n.toNat offsets with
                | error e => rfl
                | ok jobs => rfl

theorem run_refused {e : Failure} (h : db.checkSnapshot c.id = .error e) :
    c.run z schedule db = some (db, .error e) := by
  rw [run_eq, h]

theorem run_plan (h : db.checkSnapshot c.id = .ok ()) :
    c.run z schedule db = (db.accept c.id).execute z schedule c.id c.plan := by
  rw [run_eq, h]

/-- The jobs are planned unless there is none. -/
theorem jobsOf_of_count {jobs : List Job} {count : ℕ} {plan : Option (List Job)} (hjobs : JobsOf c jobs)
    (hlen : jobs.length = count)
    (h : (if count = 0 then .ok none else .ok (some jobs) : Res (Option (List Job))) = .ok plan) :
    JobsOf c (plan.getD []) ∧ plan ≠ some [] := by
  split at h
  · rename_i hzero
    obtain rfl := Except.ok.inj h
    rw [hzero] at hlen
    rw [List.length_eq_zero_iff.1 hlen] at hjobs
    exact ⟨hjobs, nofun⟩
  · rename_i hzero
    obtain rfl := Except.ok.inj h
    refine ⟨hjobs, fun hnil => hzero ?_⟩
    rw [← hlen, Option.some.inj hnil]
    rfl

/-- **A plan's jobs are those of the dirty pages**; it says so when there is none. -/
theorem plan_jobsOf {plan : Option (List Job)} (h : c.plan = .ok plan) :
    JobsOf c (plan.getD []) ∧ plan ≠ some [] := by
  cases c with
  | all memory n s =>
    unfold SaveCall.plan at h
    dsimp only at h
    split at h
    · cases h
    rename_i hm
    obtain ⟨jobs, hj, hjobs, hlen⟩ := allJobs_jobsOf (s := s) (not_not.1 hm)
    rw [hj] at h
    exact jobsOf_of_count hjobs hlen h
  | bitmap memory bits n s =>
    unfold SaveCall.plan at h
    dsimp only at h
    split at h
    · cases h
    rename_i hm
    split at h
    · cases h
    split at h
    · -- no page at all
      rename_i hzero
      obtain rfl := Except.ok.inj h
      refine ⟨⟨rfl, List.Pairwise.nil, fun pa page => ?_, by simp⟩, nofun⟩
      have htot : n.toNat = 0 := by omega
      simp [SaveCall.dirty, SaveCall.marks, htot]
    cases ho : bitmapOffsets (bits.take ((n.toNat + 63) / 64)) ((n.toNat + 63) / 64) n.toNat with
    | error e =>
      rw [ho] at h
      cases h
    | ok od =>
      obtain ⟨offsets, dirty⟩ := od
      obtain ⟨jobs, hj, hjobs, hlen⟩ := bitmapJobs_jobsOf (s := s) (not_not.1 hm) ho
      rw [ho] at h
      dsimp only at h
      rw [hj] at h
      exact jobsOf_of_count hjobs hlen h

/-- **How a call goes**: it is turned down by the check on its id, or it takes the id and
then fails a check, has nothing to do, or runs the pass over its jobs. -/
inductive CallCase (z : Zstd) (schedule : List (ℕ × Fault)) (db : AppendOnlyDb) (c : SaveCall) :
    AppendOnlyDb → Res Unit → Prop
  | refused {e : Failure} : CallCase z schedule db c db (.error e)
  | invalid {e : Failure} : CallCase z schedule db c (db.accept c.id) (.error e)
  | empty (hjobs : JobsOf c []) : CallCase z schedule db c (db.accept c.id) (.ok ())
  | pass {jobs : List Job} {db' : AppendOnlyDb} {r : Res Unit} (hjobs : JobsOf c jobs) (hne : jobs ≠ [])
      (hrun : (db.accept c.id).saveJobs z schedule c.id jobs = some (db', r)) : CallCase z schedule db c db' r

theorem runCall_cases (h : c.run z schedule db = some (db', r)) :
    CallCase z schedule db c db' r ∧
      ((∃ e, r = .error e ∧ db' = db) ∨ (c.id ≤ maxSnapshotId ∧ ∀ l, db.lastSnapshot = some l → l < c.id)) := by
  cases hs : db.checkSnapshot c.id with
  | error e =>
    rw [run_refused hs] at h
    obtain ⟨rfl, rfl⟩ := Prod.mk.inj (Option.some.inj h)
    exact ⟨.refused, .inl ⟨e, rfl, rfl⟩⟩
  | ok u =>
    refine ⟨?_, .inr (checkSnapshot_ok hs)⟩
    rw [run_plan hs] at h
    cases hp : c.plan with
    | error e =>
      rw [hp] at h
      obtain ⟨rfl, rfl⟩ := Prod.mk.inj (Option.some.inj h)
      exact .invalid
    | ok plan =>
      rw [hp] at h
      obtain ⟨hjobs, hne⟩ := plan_jobsOf hp
      cases plan with
      | none =>
        obtain ⟨rfl, rfl⟩ := Prod.mk.inj (Option.some.inj h)
        exact .empty hjobs
      | some jobs => exact .pass hjobs (fun hnil => hne (congrArg some hnil)) h

/-- A call that returns Ok has a plan. -/
theorem plan_of_ok (h : c.run z schedule db = some (db', .ok ())) : ∃ plan, c.plan = .ok plan := by
  cases hs : db.checkSnapshot c.id with
  | error e =>
    rw [run_refused hs] at h
    cases h
  | ok u =>
    rw [run_plan hs] at h
    cases hp : c.plan with
    | error e =>
      rw [hp] at h
      cases h
    | ok plan => exact ⟨plan, rfl⟩

end Call

/-! ## The handle's invariant -/

/-- The logical content of the worker files: what was accepted, written out or not. -/
def AppendOnlyDb.streams (db : AppendOnlyDb) : UInt8 → Option Bytes :=
  fun w => if w.toNat < db.workerCount then some (db.blobFiles w).stream else db.dir.blobs w

/-- Log order: by snapshot id, then by address. -/
abbrev Ordered (vs : List Version) : Prop :=
  vs.Pairwise fun a b => a.snap < b.snap ∨ a.snap = b.snap ∧ a.pa.toNat < b.pa.toNat

theorem Ordered.distinct {vs : List Version} (h : Ordered vs) : KeysDistinct vs := by
  unfold KeysDistinct
  rw [List.Nodup, List.pairwise_map]
  refine h.imp fun {a b} hab hk => ?_
  have hp : a.pa = b.pa := congrArg paOf hk
  have hs : a.snap = b.snap := congrArg (fun k => (snapshotOf k).toNat) hk
  rw [hp] at hab
  omega

/-- The shadow entry is a Full version in `vs`. -/
def Backed (vs : List Version) (pa key : UInt64) (page : Page) : Prop :=
  ∃ v ∈ vs, v.key = key ∧ v.pa = pa ∧ v.chunk.kind = .full ∧ v.page = page

theorem Backed.mono {vs vs' : List Version} {pa key : UInt64} {page : Page} (h : Backed vs pa key page)
    (hvs : ∀ v ∈ vs, v ∈ vs') : Backed vs' pa key page := by
  obtain ⟨v, hv, h⟩ := h
  exact ⟨v, hvs v hv, h⟩

/-- Every shadow entry is a Full version in `vs`. -/
def ShadowBacked (vs : List Version) (shadow : Shadow) : Prop :=
  ∀ pa key page, shadow pa = some (key, page) → Backed vs pa key page

/-- **The handle's invariant**, for the versions `vs` in the log. A shadow entry whose key
is not in the log (an orphan, left by a failed save) has a snapshot id that is used up. -/
structure HandleOk (z : Zstd) (vs : List Version) (db : AppendOnlyDb) : Prop where
  workers : 1 ≤ db.workerCount ∧ db.workerCount ≤ 255
  log : LogOk db.logFile
  bytes : ∃ m, db.logFile.file.bytes = writeLogHeader m ++ encodeAll (chunks vs) ∧
    (∀ v ∈ vs, v.snap ≤ m.toNat) ∧ m ≤ maxSnapshotId
  blobs : ∀ w, BlobOk (db.blobFiles w)
  others : ∀ w bs, db.dir.blobs w = some bs → bs.length ≤ maxFileLen
  ordered : Ordered vs
  stored : ∀ v ∈ vs, Stored z vs db.streams v
  last : ∀ v ∈ vs, ∃ l, db.lastSnapshot = some l ∧ v.snap ≤ l.toNat
  lastMax : ∀ l, db.lastSnapshot = some l → l ≤ maxSnapshotId
  shadow : ∀ pa key page, db.shadow pa = some (key, page) → paOf key = pa ∧
    (∃ l, db.lastSnapshot = some l ∧ snapshotOf key ≤ l) ∧
    (Backed vs pa key page ∨ ∀ v ∈ vs, v.key ≠ key)

/-! ## Planning -/

section Plan

variable {z : Zstd} {shadow : Shadow} {threshold : ℕ} {useShadow : Bool} {pa : UInt64} {page : Page}

theorem planOne_zero (h : planOne z shadow threshold useShadow pa page = .zero) : page = Page.zero := by
  unfold planOne at h
  split at h
  · rename_i hz
    exact isAllZero_iff.1 hz
  · split at h
    · split at h
      · dsimp only at h
        split at h <;> simp at h
      · simp at h
    · simp at h

theorem planOne_full {data : Bytes} (h : planOne z shadow threshold useShadow pa page = .full data) :
    data = z.compress page ∧ page ≠ Page.zero := by
  unfold planOne at h
  split at h
  · simp at h
  · rename_i hz
    refine ⟨?_, fun hp => hz (isAllZero_iff.2 hp)⟩
    split at h
    · split at h
      · dsimp only at h
        split at h
        · simp at h
        · exact (Plan.full.inj h).symm
      · exact (Plan.full.inj h).symm
    · exact (Plan.full.inj h).symm

theorem planOne_delta {key : UInt64} {data : Bytes}
    (h : planOne z shadow threshold useShadow pa page = .delta key data) :
    page ≠ Page.zero ∧ useShadow = true ∧ ∃ base, shadow pa = some (key, base) ∧
      (computeXorPatch page base).length ≤ threshold ∧ data = encodeDeltaPatch (computeXorPatch page base) := by
  unfold planOne at h
  split at h
  · simp at h
  · rename_i hz
    refine ⟨fun hp => hz (isAllZero_iff.2 hp), ?_⟩
    split at h
    · rename_i hs
      refine ⟨hs, ?_⟩
      split at h
      · rename_i k base hsh
        dsimp only at h
        split at h
        · rename_i hle
          obtain ⟨rfl, rfl⟩ := Plan.delta.inj h
          exact ⟨base, hsh, hle, rfl⟩
        · simp at h
      · simp at h
    · simp at h

end Plan

theorem workerOf_toNat {n : ℕ} (h1 : 1 ≤ n) (h2 : n ≤ 255) (pa : UInt64) : (workerOf n pa).toNat < n := by
  have := Nat.mod_lt pa.toNat h1
  unfold workerOf
  rw [UInt8.toNat_ofNat_of_lt' (show pa.toNat % n < 2 ^ 8 by omega)]
  exact this

/-! ## The versions a save adds -/

section Save

variable {z : Zstd} {vs : List Version} {db : AppendOnlyDb} {id : UInt32}

/-- Streams after the pass. -/
theorem streams_grow {db' : AppendOnlyDb} (hd : db'.dir = db.dir) (hw : db'.workerCount = db.workerCount)
    (hg : ∀ w, (db.blobFiles w).stream <+: (db'.blobFiles w).stream) : BlobsGrow db.streams db'.streams := by
  intro w bs hb
  unfold AppendOnlyDb.streams at hb ⊢
  rw [hw, hd]
  split
  · rename_i hlt
    rw [if_pos hlt] at hb
    obtain rfl := Option.some.inj hb
    exact ⟨_, rfl, hg w⟩
  · rename_i hlt
    rw [if_neg hlt] at hb
    exact ⟨bs, hb, List.prefix_refl _⟩

theorem streams_worker (h : 1 ≤ db.workerCount ∧ db.workerCount ≤ 255) (pa : UInt64) :
    db.streams (workerOf db.workerCount pa) = some (db.blobFiles (workerOf db.workerCount pa)).stream := by
  unfold AppendOnlyDb.streams
  exact if_pos (workerOf_toNat h.1 h.2 pa)

/-- Delta is only chosen against a base that is in the log. -/
def DeltasBacked (z : Zstd) (vs : List Version) (db : AppendOnlyDb) (jobs : List Job) : Prop :=
  ∀ job ∈ jobs, ∀ key data, planOf z db job = .delta key data →
    ∀ base, db.shadow job.pa = some (key, base) → Backed vs job.pa key base

/-- **The version of a finished job is stored.** -/
theorem stored_of_recorded (hworkers : 1 ≤ db.workerCount ∧ db.workerCount ≤ 255) {db' : AppendOnlyDb}
    (hw : db'.workerCount = db.workerCount) {job : Job} {rec : ChunkRecord}
    (hrec : Recorded z db id db'.blobFiles job rec) (hpa : job.pa.toNat < 2 ^ 45) (hid : id ≤ maxSnapshotId)
    (hlt : ∀ v ∈ vs, v.snap < id.toNat) {vs' : List Version} (hvs : ∀ v ∈ vs, v ∈ vs')
    (hbase : ∀ key data, planOf z db job = .delta key data →
      ∀ base, db.shadow job.pa = some (key, base) → Backed vs job.pa key base) :
    Stored z vs' db'.streams ⟨rec, job.page⟩ ∧ rec.key = encodeKey job.pa id ∧
      (rec.kind = .full ↔ ∃ data, planOf z db job = .full data) := by
  obtain ⟨off, len, rfl, hdata⟩ := hrec
  have hstream : db'.streams (workerOf db'.workerCount job.pa) = some _ :=
    streams_worker (hw ▸ hworkers) job.pa
  rw [hw] at hstream
  have hpa' : paOf (encodeKey job.pa id) = job.pa := paOf_encodeKey hpa
  have hsn' : snapshotOf (encodeKey job.pa id) = id := snapshotOf_encodeKey hid
  cases hp : planOf z db job with
  | zero =>
    rw [planOne_zero hp]
    refine ⟨.zero ?_, rfl, by simp [Plan.record]⟩
    have h0 : (0 : UInt8).toNat < db'.workerCount := by rw [hw]; exact hworkers.1
    unfold AppendOnlyDb.streams
    rw [if_pos h0]; rfl
  | full data =>
    have hh := hdata (by rw [hp]; simp)
    rw [hp] at hh
    refine ⟨.full hstream ?_, rfl, by simp [Plan.record]⟩
    rw [← (planOne_full hp).1]; exact hh
  | delta key data =>
    have hh := hdata (by rw [hp]; simp)
    rw [hp] at hh
    obtain ⟨-, -, base, hsh, -, hpatch⟩ := planOne_delta hp
    -- the entry of the shadow stands for a Full record of an earlier save
    obtain ⟨b, hb, hbk, hbp, hbf, hbpage⟩ := hbase key data hp base hsh
    refine ⟨?_, rfl, by simp [Plan.record]⟩
    have hst : Stored z vs' db'.streams
        ⟨newDelta (encodeKey job.pa id) (workerOf db.workerCount job.pa) off len b.key, job.page⟩ := by
      refine .delta (hvs b hb) hbf (by rw [hpa', hbp]) (by rw [hsn']; exact hlt b hb) hstream ?_
      rw [hbpage, ← hpatch]; exact hh
    rw [hbk] at hst
    exact hst

/-- What one finished task may have put into the shadow. -/
theorem shadowAfter_cases (z : Zstd) (db : AppendOnlyDb) (id : UInt32) (job : Job) : shadowAfter z db id job = db.shadow job.pa ∨
    (shadowAfter z db id job = some (encodeKey job.pa id, job.page) ∧ ∃ data, planOf z db job = .full data) := by
  unfold shadowAfter
  cases hp : planOf z db job with
  | zero => exact .inl rfl
  | delta key data => exact .inl rfl
  | full data =>
    dsimp only
    split
    · unfold Shadow.insertIfNewer
      split
      · exact .inr ⟨Function.update_self _ _ _, data, rfl⟩
      · exact .inl rfl
    · exact .inl rfl

/-- **Where a shadow entry comes from** after some of the pass: it was there before, or it
is the page of a finished Full task. -/
theorem PassInv.shadow_cases {jobs : List Job} {p : Pass} (h : PassInv z db id jobs p) {pa key : UInt64}
    {page : Page} (hsh : p.shadow pa = some (key, page)) :
    db.shadow pa = some (key, page) ∨ ∃ (i : ℕ) (job : Job) (rec : ChunkRecord), jobs[i]? = some job ∧
      p.tasks[i]? = some (.done rec) ∧ job.pa = pa ∧ key = encodeKey pa id ∧ page = job.page ∧
      ∃ data, planOf z db job = .full data := by
  by_cases hjob : ∃ job ∈ jobs, job.pa = pa
  · obtain ⟨job, hj, rfl⟩ := hjob
    obtain ⟨i, hi, rfl⟩ := List.getElem_of_mem hj
    have hj' : jobs[i]? = some jobs[i] := List.getElem?_eq_getElem hi
    have hlt : i < p.tasks.length := by rw [h.length]; exact hi
    have ht : p.tasks[i]? = some p.tasks[i] := List.getElem?_eq_getElem hlt
    have hinv := h.tasks i _ _ hj' ht
    cases htask : p.tasks[i] with
    | start => rw [htask] at hinv; exact .inl (hinv.symm.trans hsh)
    | append plan => rw [htask] at hinv; exact .inl (hinv.2.2.symm.trans hsh)
    | insert rec => rw [htask] at hinv; exact .inl (hinv.2.2.symm.trans hsh)
    | failed e => rw [htask] at hinv; exact .inl (hinv.symm.trans hsh)
    | done rec =>
      rw [htask] at hinv ht
      rcases shadowAfter_cases z db id jobs[i] with hs | ⟨hs, hfull⟩
      · exact .inl (hs.symm.trans (hinv.2.symm.trans hsh))
      · rw [hinv.2, hs] at hsh
        obtain ⟨rfl, rfl⟩ := Prod.mk.inj (Option.some.inj hsh)
        exact .inr ⟨i, _, rec, hj', ht, rfl, rfl, rfl, hfull⟩
  · rw [h.shadow pa fun job hj hp => hjob ⟨job, hj, hp⟩] at hsh
    exact .inl hsh

/-- The versions of a save: each job's record with its page. -/
def newVersions (jobs : List Job) (records : List ChunkRecord) : List Version :=
  List.zipWith (fun job rec => ⟨rec, job.page⟩) jobs records

theorem mem_newVersions {jobs : List Job} {records : List ChunkRecord} {v : Version} :
    v ∈ newVersions jobs records ↔
      ∃ (i : ℕ) (job : Job) (rec : ChunkRecord), jobs[i]? = some job ∧ records[i]? = some rec ∧ v = ⟨rec, job.page⟩ := by
  unfold newVersions
  constructor
  · intro hv
    obtain ⟨i, hi⟩ := List.mem_iff_getElem?.1 hv
    rw [List.getElem?_zipWith] at hi
    cases hj : jobs[i]? with
    | none => rw [hj] at hi; simp at hi
    | some job =>
      cases hr : records[i]? with
      | none => rw [hj, hr] at hi; simp at hi
      | some rec =>
        rw [hj, hr] at hi
        exact ⟨i, job, rec, hj, hr, (Option.some.inj hi).symm⟩
  · rintro ⟨i, job, rec, hj, hr, rfl⟩
    refine List.mem_iff_getElem?.2 ⟨i, ?_⟩
    rw [List.getElem?_zipWith, hj, hr]

theorem chunks_newVersions {jobs : List Job} {records : List ChunkRecord} (h : records.length = jobs.length) :
    chunks (newVersions jobs records) = records := by
  have hmap : chunks (newVersions jobs records) = List.zipWith (fun _ rec => rec) jobs records := by
    unfold newVersions
    exact List.map_zipWith
  rw [hmap]
  apply List.ext_getElem
  · simp [h]
  · intro i h1 h2; simp

theorem chunks_append (vs vs' : List Version) : chunks (vs ++ vs') = chunks vs ++ chunks vs' := List.map_append

/-- What stays the same on a handle. -/
structure SameSetup (db db' : AppendOnlyDb) : Prop where
  dir : db'.dir = db.dir
  workerCount : db'.workerCount = db.workerCount
  deltaThreshold : db'.deltaThreshold = db.deltaThreshold
  useShadow : db'.useShadow = db.useShadow

theorem SameSetup.refl (db : AppendOnlyDb) : SameSetup db db := ⟨rfl, rfl, rfl, rfl⟩

theorem SameSetup.trans {db1 db2 db3 : AppendOnlyDb} (h : SameSetup db1 db2) (h' : SameSetup db2 db3) :
    SameSetup db1 db3 :=
  ⟨h'.dir.trans h.dir, h'.workerCount.trans h.workerCount, h'.deltaThreshold.trans h.deltaThreshold,
    h'.useShadow.trans h.useShadow⟩

/-- The pass of a save that returns Ok, and the handle after it. -/
theorem saveJobs_ok {schedule : List (ℕ × Fault)} {jobs : List Job} {db' : AppendOnlyDb}
    (hb : ∀ w, BlobOk (db.blobFiles w)) (hslots : jobs.map Job.slot = List.range jobs.length)
    (hpas : (jobs.map Job.pa).Nodup) (h : db.saveJobs z schedule id jobs = some (db', .ok ())) :
    ∃ records, (runPass z db id jobs schedule).tasks = records.map .done ∧
      PassInv z db id jobs (runPass z db id jobs schedule) ∧
      db' = ({ db with shadow := (runPass z db id jobs schedule).shadow,
                       blobFiles := (runPass z db id jobs schedule).blobFiles } : AppendOnlyDb).commit id records := by
  unfold AppendOnlyDb.saveJobs at h
  dsimp only at h
  split at h
  · simp at h
  · simp at h
  · rename_i records hout
    have hdone := outcome_ok hslots (length_runPass jobs schedule) hout
    exact ⟨records, hdone, runPass_inv hpas hb schedule (.inr (noFailure_of_done hdone)),
      (Prod.mk.inj (Option.some.inj h)).1.symm⟩

/-- The id a call takes lies above everything stored so far. -/
theorem HandleOk.snap_lt (h : HandleOk z vs db) (hlt : ∀ l, db.lastSnapshot = some l → l < id) :
    ∀ v ∈ vs, v.snap < id.toNat := by
  intro v hv
  obtain ⟨l, hl, hle⟩ := h.last v hv
  have := UInt32.lt_iff_toNat_lt.1 (hlt l hl)
  omega

theorem HandleOk.accept (h : HandleOk z vs db) (hid : id ≤ maxSnapshotId)
    (hlt : ∀ l, db.lastSnapshot = some l → l < id) : HandleOk z vs (db.accept id) where
  workers := h.workers
  log := h.log
  bytes := h.bytes
  blobs := h.blobs
  others := h.others
  ordered := h.ordered
  stored := h.stored
  last v hv := ⟨id, rfl, (h.snap_lt hlt v hv).le⟩
  lastMax l hl := by
    obtain rfl := Option.some.inj hl
    exact hid
  shadow pa key page hsh := by
    obtain ⟨hpa, ⟨l, hl, hle⟩, hback⟩ := h.shadow pa key page hsh
    exact ⟨hpa, ⟨id, rfl, UInt32.le_trans hle (UInt32.le_of_lt (hlt l hl))⟩, hback⟩

/-- What a save that returns Ok adds to the log. -/
structure Saved (c : SaveCall) (new : List Version) : Prop where
  snap : ∀ v ∈ new, v.snap = c.id.toNat
  dirty : ∀ pa page, c.dirty pa = some page ↔ ∃ v ∈ new, v.pa = pa ∧ v.page = page

theorem nodup_pas {jobs : List Job} (h : jobs.Pairwise fun a b => a.pa.toNat < b.pa.toNat) :
    (jobs.map Job.pa).Nodup := by
  rw [List.Nodup, List.pairwise_map]
  refine h.imp fun {a b} hab hp => ?_
  rw [hp] at hab
  exact absurd hab (lt_irrefl _)

/-- The handle after a pass, before its records are in the log. -/
def afterPass (db : AppendOnlyDb) (id : UInt32) (p : Pass) : AppendOnlyDb :=
  { db.accept id with shadow := p.shadow, blobFiles := p.blobFiles }

section Commit

variable {c : SaveCall} {jobs : List Job} {records : List ChunkRecord} {p : Pass}

/-- What the pass of a save says about one of its records. -/
structure NewRecord (z : Zstd) (vs : List Version) (db : AppendOnlyDb) (id : UInt32)
    (streams : UInt8 → Option Bytes) (job : Job) (rec : ChunkRecord) : Prop where
  stored : Stored z vs streams ⟨rec, job.page⟩
  key : rec.key = encodeKey job.pa id
  pa : paOf rec.key = job.pa
  snap : (snapshotOf rec.key).toNat = id.toNat
  full : rec.kind = .full ↔ ∃ data, planOf z (db.accept id) job = .full data

/-- A pass with every task done, over the jobs of a call. -/
structure PassDone (z : Zstd) (vs : List Version) (db : AppendOnlyDb) (id : UInt32) (c : SaveCall)
    (jobs : List Job) (p : Pass) (records : List ChunkRecord) : Prop where
  jobsOf : JobsOf c jobs
  range : c.InRange
  done : p.tasks = records.map .done
  inv : PassInv z (db.accept id) id jobs p
  backed : DeltasBacked z vs (db.accept id) jobs

variable (h : HandleOk z vs db) (hid : id ≤ maxSnapshotId) (hlast : ∀ l, db.lastSnapshot = some l → l < id)
  (hp : PassDone z vs db id c jobs p records)

include hp in
theorem PassDone.length : records.length = jobs.length := by
  have := hp.inv.length
  rwa [hp.done, List.length_map] at this

include hp in
theorem PassDone.task {i : ℕ} {rec : ChunkRecord} :
    p.tasks[i]? = some (.done rec) ↔ records[i]? = some rec := by
  rw [hp.done, List.getElem?_map]
  cases records[i]? with
  | none => simp
  | some r => simp

include h hid hlast hp in
/-- **Each record of the pass** belongs to a stored version, under the key of its job. -/
theorem PassDone.newRecord {vs' : List Version} (hvs : ∀ v ∈ vs, v ∈ vs')
    {i : ℕ} {job : Job} {rec : ChunkRecord} (hj : jobs[i]? = some job) (hr : records[i]? = some rec) :
    NewRecord z vs' db id (afterPass db id p).streams job rec := by
  have hmem := List.mem_of_getElem? hj
  have hrec := (hp.inv.tasks i job _ hj (hp.task.2 hr)).1
  have hpa : job.pa.toNat < 2 ^ 45 := hp.range _ (hp.jobsOf.marked job hmem)
  have hw : (afterPass db id p).workerCount = db.workerCount := rfl
  obtain ⟨h1, h2, h3⟩ := stored_of_recorded h.workers hw hrec hpa hid (h.snap_lt hlast) hvs
    (hp.backed job hmem)
  exact ⟨h1, h2, by rw [h2, paOf_encodeKey hpa], by rw [h2, snapshotOf_encodeKey hid], h3⟩

include h hid hlast hp in
theorem PassDone.saved (hc : c.id = id) : Saved c (newVersions jobs records) where
  snap v hv := by
    obtain ⟨i, job, rec, hj, hr, rfl⟩ := mem_newVersions.1 hv
    rw [hc]
    exact (hp.newRecord h hid hlast (fun _ hv => hv) hj hr).snap
  dirty pa page := by
    rw [hp.jobsOf.dirty]
    constructor
    · rintro ⟨job, hj, rfl, rfl⟩
      obtain ⟨i, hi, rfl⟩ := List.getElem_of_mem hj
      have hri : i < records.length := hp.length ▸ hi
      have hj' : jobs[i]? = some jobs[i] := List.getElem?_eq_getElem hi
      have hr' : records[i]? = some records[i] := List.getElem?_eq_getElem hri
      exact ⟨_, mem_newVersions.2 ⟨i, _, _, hj', hr', rfl⟩,
        (hp.newRecord h hid hlast (fun _ hv => hv) hj' hr').pa, rfl⟩
    · rintro ⟨v, hv, rfl, rfl⟩
      obtain ⟨i, job, rec, hj, hr, rfl⟩ := mem_newVersions.1 hv
      exact ⟨job, List.mem_of_getElem? hj,
        (hp.newRecord h hid hlast (fun _ hv => hv) hj hr).pa.symm, rfl⟩

include h hid hlast hp in
/-- **The log stays ordered**: the new records come after all others, by address. -/
theorem PassDone.ordered : Ordered (vs ++ newVersions jobs records) := by
  refine List.pairwise_append.2 ⟨h.ordered, ?_, ?_⟩
  · rw [List.pairwise_iff_getElem]
    intro i j hi hj hij
    have hlen := hp.length
    have hi' : i < jobs.length := by simp [newVersions] at hi; omega
    have hj' : j < jobs.length := by simp [newVersions] at hj; omega
    have hri : i < records.length := hlen ▸ hi'
    have hrj : j < records.length := hlen ▸ hj'
    have hki := hp.newRecord h hid hlast (fun _ hv => hv) (List.getElem?_eq_getElem hi')
      (List.getElem?_eq_getElem hri)
    have hkj := hp.newRecord h hid hlast (fun _ hv => hv) (List.getElem?_eq_getElem hj')
      (List.getElem?_eq_getElem hrj)
    have hlt := List.pairwise_iff_getElem.1 hp.jobsOf.sorted i j hi' hj' hij
    simp only [newVersions, List.getElem_zipWith, Version.snap, Version.pa]
    exact .inr ⟨by rw [hki.snap, hkj.snap], by rw [hki.pa, hkj.pa]; exact hlt⟩
  · intro a ha b hv
    obtain ⟨i, job, rec, hj, hr, rfl⟩ := mem_newVersions.1 hv
    have := (hp.newRecord h hid hlast (fun _ hv => hv) hj hr).snap
    exact .inl (by rw [show (⟨rec, job.page⟩ : Version).snap = id.toNat from this]; exact h.snap_lt hlast a ha)

/-- Where an entry of the shadow stands after some of a pass, against the versions `vs'`
then in the log. -/
def EntryOk (vs' : List Version) (id : UInt32) (pa key : UInt64) (page : Page) : Prop :=
  paOf key = pa ∧ snapshotOf key ≤ id ∧ (Backed vs' pa key page ∨ ∀ v ∈ vs', v.key ≠ key)

include h hlast in
/-- An entry from before the save: it was backed, or its key stays unused because the
new keys carry a larger snapshot id. -/
theorem entryOk_old {new : List Version} (hnew : ∀ v ∈ new, v.snap = id.toNat) {pa key : UInt64} {page : Page}
    (hsh : db.shadow pa = some (key, page)) : EntryOk (vs ++ new) id pa key page := by
  obtain ⟨hpa, ⟨l, hl, hle⟩, hback⟩ := h.shadow pa key page hsh
  have hlt := UInt32.lt_of_le_of_lt hle (hlast l hl)
  refine ⟨hpa, UInt32.le_of_lt hlt, ?_⟩
  rcases hback with hback | hback
  · exact .inl (hback.mono fun v hv => List.mem_append_left _ hv)
  · refine .inr fun v hv hk => ?_
    rcases List.mem_append.1 hv with hv | hv
    · exact hback v hv hk
    · have := hnew v hv
      rw [show v.snap = (snapshotOf key).toNat from congrArg (fun k => (snapshotOf k).toNat) hk] at this
      exact absurd this (Nat.ne_of_lt (UInt32.lt_iff_toNat_lt.1 hlt))

include h hid hlast hp in
/-- An entry of the shadow after the pass was there before, or is a Full page of the pass. -/
theorem PassDone.shadow_cases {pa key : UInt64} {page : Page} (hsh : p.shadow pa = some (key, page)) :
    db.shadow pa = some (key, page) ∨
      snapshotOf key = id ∧ paOf key = pa ∧ Backed (newVersions jobs records) pa key page := by
  rcases hp.inv.shadow_cases hsh with hold | ⟨i, job, rec, hj, ht, rfl, rfl, rfl, hfull⟩
  · exact .inl hold
  · have hr := hp.task.1 ht
    have hnew := hp.newRecord h hid hlast (fun _ hv => hv) hj hr
    refine .inr ⟨?_, by rw [← hnew.key, hnew.pa], ⟨rec, job.page⟩, ?_, hnew.key, hnew.pa, hnew.full.2 hfull, rfl⟩
    · rw [← hnew.key]
      exact UInt32.toNat_inj.1 hnew.snap
    · exact mem_newVersions.2 ⟨i, job, rec, hj, hr, rfl⟩

include h hid hlast hp in
theorem PassDone.entryOk (hc : c.id = id) {pa key : UInt64} {page : Page} (hsh : p.shadow pa = some (key, page)) :
    EntryOk (vs ++ newVersions jobs records) id pa key page := by
  rcases hp.shadow_cases h hid hlast hsh with hold | ⟨hsnap, hpa, hback⟩
  · refine entryOk_old h hlast (fun v hv => ?_) hold
    rw [← hc]
    exact (hp.saved h hid hlast hc).snap v hv
  · exact ⟨hpa, by rw [hsnap]; exact UInt32.le_refl _, .inl (hback.mono fun v hv => List.mem_append_right _ hv)⟩

include h hid hlast hp in
/-- **A committed save** keeps the handle's invariant, with the new versions added. -/
theorem PassDone.handleOk (hc : c.id = id) :
    HandleOk z (vs ++ newVersions jobs records) ((afterPass db id p).commit id records) := by
  have hstreams : BlobsGrow db.streams ((afterPass db id p).commit id records).streams :=
    streams_grow rfl rfl hp.inv.grow
  obtain ⟨m, hm, -, -⟩ := h.bytes
  have hlog : LogOk (afterPass db id p).logFile := h.log
  obtain ⟨hlog', hbytes⟩ := commit_log hlog hm id records
  have hbound : ∀ v ∈ vs ++ newVersions jobs records, v.snap ≤ id.toNat := by
    intro v hv
    rcases List.mem_append.1 hv with hv | hv
    · exact (h.snap_lt hlast v hv).le
    · rw [← hc]
      exact ((hp.saved h hid hlast hc).snap v hv).le
  refine ⟨h.workers, hlog', ⟨id, ?_, hbound, hid⟩, hp.inv.blobs, h.others,
    hp.ordered h hid hlast, ?_, ?_, ?_, ?_⟩
  · rw [hbytes, ← encodeAll_append, chunks_append, chunks_newVersions hp.length]
  · intro v hv
    rcases List.mem_append.1 hv with hv | hv
    · exact (h.stored v hv).mono (fun v hv => List.mem_append_left _ hv) hstreams
    · obtain ⟨i, job, rec, hj, hr, rfl⟩ := mem_newVersions.1 hv
      exact (hp.newRecord h hid hlast (fun v hv => List.mem_append_left _ hv) hj hr).stored
  · intro v hv
    exact ⟨id, rfl, hbound v hv⟩
  · intro l hl
    obtain rfl := Option.some.inj hl
    exact hid
  · intro pa key page hsh
    obtain ⟨hpa, hle, hback⟩ := hp.entryOk h hid hlast hc hsh
    exact ⟨hpa, ⟨id, rfl, hle⟩, hback⟩

end Commit

/-! ## The two outcomes -/

theorem deltasBacked_of_shadow {jobs : List Job} (h : ShadowBacked vs db.shadow) :
    DeltasBacked z vs (db.accept id) jobs := by
  intro job _ key data _ base hsh
  exact h job.pa key base hsh

/-- What a save that returns Ok leaves behind. -/
structure SaveOk (z : Zstd) (vs : List Version) (db : AppendOnlyDb) (c : SaveCall) (db' : AppendOnlyDb)
    (new : List Version) : Prop where
  handle : HandleOk z (vs ++ new) db'
  saved : Saved c new
  setup : SameSetup db db'
  grow : BlobsGrow db.streams db'.streams
  shadow : ∀ pa key page, db'.shadow pa = some (key, page) →
    db.shadow pa = some (key, page) ∨ Backed (vs ++ new) pa key page
  last : db'.lastSnapshot = some c.id
  idMax : c.id ≤ maxSnapshotId
  idNew : ∀ l, db.lastSnapshot = some l → l < c.id

/-- Every entry is still backed when it was before. -/
theorem SaveOk.backed {c : SaveCall} {db' : AppendOnlyDb} {new : List Version} (h : SaveOk z vs db c db' new)
    (hb : ShadowBacked vs db.shadow) : ShadowBacked (vs ++ new) db'.shadow := by
  intro pa key page hsh
  rcases h.shadow pa key page hsh with hold | hback
  · exact (hb pa key page hold).mono fun v hv => List.mem_append_left _ hv
  · exact hback

/-- **A pass with every task done** adds the versions of its jobs, once committed. -/
theorem PassDone.saveOk {c : SaveCall} {jobs : List Job} {p : Pass} {records : List ChunkRecord} (h : HandleOk z vs db)
    (hid : c.id ≤ maxSnapshotId) (hlast : ∀ l, db.lastSnapshot = some l → l < c.id)
    (hp : PassDone z vs db c.id c jobs p records) :
    SaveOk z vs db c ((afterPass db c.id p).commit c.id records) (newVersions jobs records) where
  handle := hp.handleOk h hid hlast rfl
  saved := hp.saved h hid hlast rfl
  setup := ⟨rfl, rfl, rfl, rfl⟩
  grow := streams_grow rfl rfl hp.inv.grow
  shadow _ _ _ hsh := (hp.shadow_cases h hid hlast hsh).imp_right fun hnew =>
    hnew.2.2.mono fun _ hv => List.mem_append_right _ hv
  last := rfl
  idMax := hid
  idNew := hlast

/-- **How a save that returns Ok ends**, with the versions it adds: without a dirty page,
or with the records of a pass in the log. -/
inductive SaveDone (z : Zstd) (vs : List Version) (db : AppendOnlyDb) (c : SaveCall) :
    AppendOnlyDb → List Version → Prop
  | empty (hjobs : JobsOf c []) : SaveDone z vs db c (db.accept c.id) []
  | pass {jobs : List Job} {records : List ChunkRecord} {schedule : List (ℕ × Fault)} (hne : jobs ≠ [])
      (hp : PassDone z vs db c.id c jobs (runPass z (db.accept c.id) c.id jobs schedule) records) :
      SaveDone z vs db c ((afterPass db c.id (runPass z (db.accept c.id) c.id jobs schedule)).commit c.id records)
        (newVersions jobs records)

/-- The id of a call that returns Ok is new. -/
theorem run_id {schedule : List (ℕ × Fault)} {c : SaveCall} {db' : AppendOnlyDb}
    (hrun : c.run z schedule db = some (db', .ok ())) :
    c.id ≤ maxSnapshotId ∧ ∀ l, db.lastSnapshot = some l → l < c.id := by
  obtain ⟨-, hcheck⟩ := runCall_cases hrun
  rcases hcheck with ⟨e, he, -⟩ | hcheck
  · simp at he
  · exact hcheck

/-- **A save that returns Ok**, provided every Delta it chooses has its base in the log. -/
theorem save_done {schedule : List (ℕ × Fault)} {c : SaveCall} {db' : AppendOnlyDb} (h : HandleOk z vs db)
    (hrun : c.run z schedule db = some (db', .ok ())) (hrange : c.InRange)
    (hback : ∀ jobs, JobsOf c jobs → DeltasBacked z vs (db.accept c.id) jobs) :
    ∃ new, SaveDone z vs db c db' new := by
  obtain ⟨hcase, -⟩ := runCall_cases hrun
  cases hcase with
  | empty hjobs => exact ⟨[], .empty hjobs⟩
  | @pass jobs _ _ hjobs hne hrun =>
    have hblobs : ∀ w, BlobOk ((db.accept c.id).blobFiles w) := h.blobs
    obtain ⟨records, hdone, hinv, rfl⟩ := saveJobs_ok hblobs hjobs.slots (nodup_pas hjobs.sorted) hrun
    have hp : PassDone z vs db c.id c jobs _ records := ⟨hjobs, hrange, hdone, hinv, hback jobs hjobs⟩
    exact ⟨newVersions jobs records, .pass hne hp⟩

/-- **A save that returns Ok** adds one stored version for each dirty page. -/
theorem SaveDone.saveOk {c : SaveCall} {db' : AppendOnlyDb} {new : List Version} (h : HandleOk z vs db)
    (hid : c.id ≤ maxSnapshotId) (hlast : ∀ l, db.lastSnapshot = some l → l < c.id) (hd : SaveDone z vs db c db' new) :
    SaveOk z vs db c db' new := by
  cases hd with
  | empty hjobs =>
    refine ⟨?_, ⟨by simp, fun pa page => ?_⟩, ⟨rfl, rfl, rfl, rfl⟩, BlobsGrow.refl _, fun _ _ _ hsh => .inl hsh,
      rfl, hid, hlast⟩
    · rw [List.append_nil]; exact h.accept hid hlast
    · rw [hjobs.dirty]; simp
  | pass hne hp => exact hp.saveOk h hid hlast

/-- An entry of the shadow was there before, or is a Full page of the save. -/
theorem SaveDone.shadow {c : SaveCall} {db' : AppendOnlyDb} {new : List Version} (h : HandleOk z vs db)
    (hs : SaveOk z vs db c db' new) (hd : SaveDone z vs db c db' new) {pa key : UInt64} {page : Page}
    (hsh : db'.shadow pa = some (key, page)) : db.shadow pa = some (key, page) ∨ Backed new pa key page := by
  cases hd with
  | empty hjobs => exact .inl hsh
  | pass hne hp => exact (hp.shadow_cases h hs.idMax hs.idNew hsh).imp_right fun hnew => hnew.2.2

/-- A Delta has its base in the shadow. -/
theorem SaveDone.delta {c : SaveCall} {db' : AppendOnlyDb} {new : List Version} (h : HandleOk z vs db)
    (hs : SaveOk z vs db c db' new) (hd : SaveDone z vs db c db' new) {v : Version} (hv : v ∈ new)
    (hk : v.chunk.kind = .delta) : db.useShadow = true ∧ ∃ base, db.shadow v.pa = some (v.chunk.baseKey, base) := by
  cases hd with
  | empty hjobs => simp at hv
  | pass hne hp =>
    obtain ⟨i, job, rec, hj, hr, rfl⟩ := mem_newVersions.1 hv
    have hpa := (hp.newRecord h hs.idMax hs.idNew (fun _ hv => hv) hj hr).pa
    obtain ⟨off, len, rfl, -⟩ := (hp.inv.tasks i job _ hj (hp.task.2 hr)).1
    cases hplan : planOf z (db.accept c.id) job with
    | zero =>
      rw [hplan] at hk
      simp [Plan.record] at hk
    | full data =>
      rw [hplan] at hk
      simp [Plan.record] at hk
    | delta key data =>
      obtain ⟨-, hu, base, hsh, -⟩ := planOne_delta hplan
      rw [hplan] at hpa
      exact ⟨hu, base, (congrArg db.shadow hpa).trans hsh⟩

theorem save_ok {schedule : List (ℕ × Fault)} {c : SaveCall} {db' : AppendOnlyDb} (h : HandleOk z vs db)
    (hrun : c.run z schedule db = some (db', .ok ())) (hrange : c.InRange)
    (hback : ∀ jobs, JobsOf c jobs → DeltasBacked z vs (db.accept c.id) jobs) :
    ∃ new, SaveOk z vs db c db' new := by
  obtain ⟨hid, hlast⟩ := run_id hrun
  obtain ⟨new, hd⟩ := save_done h hrun hrange hback
  exact ⟨new, hd.saveOk h hid hlast⟩

/-- The pass of a save that fails. -/
theorem saveJobs_err {schedule : List (ℕ × Fault)} {jobs : List Job} {db' : AppendOnlyDb} {e : Failure}
    (h : db.saveJobs z schedule id jobs = some (db', .error e)) :
    (runPass z db id jobs schedule).outcome jobs = some (.error e) ∧
      db' = { db with shadow := (runPass z db id jobs schedule).shadow,
                      blobFiles := (runPass z db id jobs schedule).blobFiles } := by
  unfold AppendOnlyDb.saveJobs at h
  dsimp only at h
  split at h
  · simp at h
  · rename_i e' hout
    obtain ⟨rfl, he⟩ := Prod.mk.inj (Option.some.inj h)
    rw [Except.error.inj he] at hout
    exact ⟨hout, rfl⟩
  · simp at h

/-- What a save that fails leaves behind. -/
structure SaveErr (z : Zstd) (vs : List Version) (db : AppendOnlyDb) (c : SaveCall) (db' : AppendOnlyDb) : Prop where
  handle : HandleOk z vs db'
  setup : SameSetup db db'
  grow : BlobsGrow db.streams db'.streams
  log : db'.logFile = db.logFile
  shadow : ∀ pa key page, db'.shadow pa = some (key, page) →
    db.shadow pa = some (key, page) ∨ snapshotOf key = c.id ∧ ∀ l, db.lastSnapshot = some l → l < c.id
  last : ∀ l, db.lastSnapshot = some l → ∃ l', db'.lastSnapshot = some l' ∧ l ≤ l'

/-- **A save that fails** leaves the log and every stored version as they are. What it
put into the shadow carries its own snapshot id. -/
theorem save_err (hz : z.Small) {schedule : List (ℕ × Fault)} {c : SaveCall} {db' : AppendOnlyDb} {e : Failure}
    (h : HandleOk z vs db) (hrun : c.run z schedule db = some (db', .error e)) (hrange : c.InRange) :
    SaveErr z vs db c db' := by
  obtain ⟨hcase, hid⟩ := runCall_cases hrun
  rcases hid with ⟨e', -, rfl⟩ | ⟨hid, hlast⟩
  · exact ⟨h, SameSetup.refl _, BlobsGrow.refl _, rfl, fun _ _ _ hsh => .inl hsh, fun l hl => ⟨l, hl, UInt32.le_refl _⟩⟩
  have hle : ∀ l, db.lastSnapshot = some l → ∃ l', some c.id = some l' ∧ l ≤ l' := fun l hl =>
    ⟨c.id, rfl, UInt32.le_of_lt (hlast l hl)⟩
  cases hcase with
  | refused =>
    exact ⟨h, SameSetup.refl _, BlobsGrow.refl _, rfl, fun _ _ _ hsh => .inl hsh, fun l hl => ⟨l, hl, UInt32.le_refl _⟩⟩
  | invalid =>
    exact ⟨h.accept hid hlast, ⟨rfl, rfl, rfl, rfl⟩, BlobsGrow.refl _, rfl, fun _ _ _ hsh => .inl hsh, hle⟩
  | @pass jobs _ _ hjobs hne hrun =>
    obtain ⟨-, rfl⟩ := saveJobs_err hrun
    have hblobs : ∀ w, BlobOk ((db.accept c.id).blobFiles w) := h.blobs
    have hinv : PassInv z (db.accept c.id) c.id jobs _ :=
      runPass_inv (nodup_pas hjobs.sorted) hblobs schedule (.inl hz)
    have hacc := h.accept hid hlast
    have hgrow : BlobsGrow db.streams (afterPass db c.id (runPass z (db.accept c.id) c.id jobs schedule)).streams :=
      streams_grow rfl rfl hinv.grow
    -- an entry of the pass: the page of a finished task, whose record never reaches the log
    have hentry : ∀ pa key page, (runPass z (db.accept c.id) c.id jobs schedule).shadow pa = some (key, page) →
        db.shadow pa = some (key, page) ∨ snapshotOf key = c.id ∧ paOf key = pa := by
      intro pa key page hsh
      rcases hinv.shadow_cases hsh with hold | ⟨i, job, rec, hj, -, rfl, rfl, rfl, -⟩
      · exact .inl hold
      · exact .inr ⟨snapshotOf_encodeKey hid, paOf_encodeKey (hrange _ (hjobs.marked job (List.mem_of_getElem? hj)))⟩
    refine ⟨⟨h.workers, h.log, h.bytes, hinv.blobs, h.others, h.ordered,
      fun v hv => (h.stored v hv).mono (fun _ hv => hv) hgrow, hacc.last, hacc.lastMax, ?_⟩,
      ⟨rfl, rfl, rfl, rfl⟩, hgrow, rfl, ?_, hle⟩
    · intro pa key page hsh
      rcases hentry pa key page hsh with hold | ⟨hsnap, hpa⟩
      · exact hacc.shadow pa key page hold
      · refine ⟨hpa, ⟨c.id, rfl, by rw [hsnap]; exact UInt32.le_refl _⟩, .inr fun v hv hk => ?_⟩
        have hlt := h.snap_lt hlast v hv
        have hv' : v.snap = (snapshotOf key).toNat := congrArg (fun k => (snapshotOf k).toNat) hk
        rw [hsnap] at hv'
        omega
    · intro pa key page hsh
      exact (hentry pa key page hsh).imp_right fun hnew => ⟨hnew.1, hlast⟩

end Save

end Bxdb
