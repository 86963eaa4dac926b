import Bxdb.Proof.Session

/-!
# Saves can be completed

A pass never gets stuck: while the worker files have room, every task that is not done
can be taken to its end.

* `pass_completes`: **from any state without a failed task there is a schedule that
  finishes the pass.**
* `save_completes`, `session_completes`: so a call whose arguments pass its checks
  returns Ok under some schedule, and a session with it can be run.
-/

namespace Bxdb

open Bytes Buffered Versioned ChunkRecord

section Pass

variable {z : Zstd} {db : AppendOnlyDb} {id : UInt32} {jobs : List Job}

/-- Every worker file can take `k` more bytes. -/
def HasRoom (blobFiles : UInt8 → BlobFile) (k : ℕ) : Prop := ∀ w, (blobFiles w).stream.length + k ≤ maxFileLen

theorem appendBlob_room {b : BlobFile} (h : BlobOk b) {data : Bytes} (hd : data.length < blobBufCap)
    (hr : b.stream.length + data.length ≤ maxFileLen) : ∃ r, (appendBlob none b data).2 = .ok r := by
  have hok : (b.writer.writeAll none data).2 = true := BufWriter.writeAll_room h.ok fun m hm => by
    rw [h.limit] at hm
    obtain rfl := Option.some.inj hm
    exact hr
  have h32 : data.length < 2 ^ 32 := by
    have : blobBufCap = 8192 := rfl
    omega
  unfold appendBlob
  rw [if_pos hok]
  simp only [h32, if_true]
  exact ⟨_, rfl⟩

theorem appendBlob_length {b : BlobFile} (h : BlobOk b) {fault : Fault} {data : Bytes} (hd : data.length < blobBufCap) :
    (appendBlob fault b data).1.stream.length ≤ b.stream.length + blobBufCap := by
  cases hr : (appendBlob fault b data).2 with
  | ok r =>
    obtain ⟨off, len⟩ := r
    obtain ⟨-, hs, -⟩ := appendBlob_ok h hr
    rw [hs, List.length_append]; omega
  | error e =>
    obtain ⟨-, hs⟩ := appendBlob_err h hd hr
    rw [hs]; omega

/-- How many steps a task still has to take. -/
def Task.todo : Task → ℕ
  | .start => 3
  | .append _ => 2
  | .insert _ => 1
  | .done _ => 0
  | .failed _ => 0

/-- **A step without a fault brings a task closer to its end.** -/
theorem Moves.todo (hz : z.Small) {job : Job} {shadow : Shadow} {blobFiles : UInt8 → BlobFile} {task : Task}
    {r : Shadow × (UInt8 → BlobFile) × Task} (hm : Moves z db id job none shadow blobFiles task r)
    (hb : ∀ w, BlobOk (blobFiles w)) (ht : TaskInv z db id shadow blobFiles job task)
    (htodo : 0 < task.todo) (hroom : HasRoom blobFiles blobBufCap) :
    (∀ e, r.2.2 ≠ .failed e) ∧ r.2.2.todo < task.todo ∧
      ∀ w, (r.2.1 w).stream.length ≤ (blobFiles w).stream.length + blobBufCap := by
  have hsame : ∀ w, (blobFiles w).stream.length ≤ (blobFiles w).stream.length + blobBufCap :=
    fun w => Nat.le_add_right _ _
  cases hm with
  | zero hp => exact ⟨by simp, by simp [Task.todo], hsame⟩
  | encode hp hne => exact ⟨by simp, by simp [Task.todo], hsame⟩
  | refuse hf => simp at hf
  | @fail plan e hr =>
    -- there is room for what a page is encoded to
    have hsmall : plan.data.length < blobBufCap := by
      rw [ht.1]
      exact planOf_data_small hz job
    have hfits := hroom (workerOf db.workerCount job.pa)
    obtain ⟨range, hok⟩ := appendBlob_room (hb (workerOf db.workerCount job.pa)) hsmall (by omega)
    rw [hr] at hok
    cases hok
  | @append plan off len hr =>
    have hsmall : plan.data.length < blobBufCap := by
      rw [ht.1]
      exact planOf_data_small hz job
    refine ⟨?_, ?_, (Function.forall_update_iff blobFiles fun w b =>
      b.stream.length ≤ (blobFiles w).stream.length + blobBufCap).2
        ⟨appendBlob_length (hb _) hsmall, fun w _ => hsame w⟩⟩
    · cases plan with
      | zero => simp [Plan.next]
      | delta baseKey data => simp [Plan.next]
      | full data => simp [Plan.next]
    · cases plan with
      | zero => simp [Plan.next, Task.todo]
      | delta baseKey data => simp [Plan.next, Task.todo]
      | full data => simp [Plan.next, Task.todo]
  | insert => exact ⟨by simp, by simp [Task.todo], hsame⟩
  | done => simp [Task.todo] at htodo
  | failed => simp [Task.todo] at htodo

def Pass.todo (p : Pass) : ℕ := (p.tasks.map Task.todo).sum

/-- Replacing one entry changes a sum by the difference. -/
theorem sum_map_set {α : Type} {f : α → ℕ} : ∀ {l : List α} {i : ℕ} {a b : α}, l[i]? = some a →
    ((l.set i b).map f).sum + f a = (l.map f).sum + f b
  | [], i, a, b, h => by simp at h
  | x :: l, 0, a, b, h => by
    obtain rfl := Option.some.inj h
    simp only [List.set_cons_zero, List.map_cons, List.sum_cons]
    omega
  | x :: l, i + 1, a, b, h => by
    have ih : ((l.set i b).map f).sum + f a = (l.map f).sum + f b := sum_map_set h
    simp only [List.set_cons_succ, List.map_cons, List.sum_cons]
    omega

/-- A task that is not finished, as long as some work is left. -/
theorem exists_todo : ∀ {ts : List Task}, 0 < (ts.map Task.todo).sum →
    ∃ (i : ℕ) (t : Task), ts[i]? = some t ∧ 0 < t.todo
  | [], h => by simp at h
  | t :: ts, h => by
    by_cases ht : 0 < t.todo
    · exact ⟨0, t, rfl, ht⟩
    · have hrest : 0 < (ts.map Task.todo).sum := by
        rw [List.map_cons, List.sum_cons] at h
        omega
      obtain ⟨i, t', hi, ht'⟩ := exists_todo hrest
      exact ⟨i + 1, t', hi, ht'⟩

theorem done_of_todo : ∀ {ts : List Task}, (ts.map Task.todo).sum = 0 → (∀ t ∈ ts, ∀ e, t ≠ .failed e) →
    ∃ recs : List ChunkRecord, ts = recs.map .done
  | [], _, _ => ⟨[], rfl⟩
  | t :: ts, h, hnf => by
    rw [List.map_cons, List.sum_cons] at h
    have hrest : (ts.map Task.todo).sum = 0 := by omega
    obtain ⟨recs, hr⟩ := done_of_todo hrest fun t' ht' => hnf t' (List.mem_cons_of_mem _ ht')
    cases t with
    | done rec => exact ⟨rec :: recs, by rw [hr]; rfl⟩
    | start => simp [Task.todo] at h
    | append => simp [Task.todo] at h
    | insert => simp [Task.todo] at h
    | failed e => exact absurd rfl (hnf _ List.mem_cons_self e)

/-- **One step of a task that is not finished** brings the pass nearer to its end. -/
theorem pass_step_task (hz : z.Small) (hpas : (jobs.map Job.pa).Nodup) {p : Pass} (h : PassInv z db id jobs p)
    (hnf : p.NoFailure) {i : ℕ} {task : Task} (ht : p.tasks[i]? = some task) (hpos : 0 < task.todo)
    (hroom : HasRoom p.blobFiles blobBufCap) :
    PassInv z db id jobs (Pass.step z db id jobs p (i, none)) ∧
      (Pass.step z db id jobs p (i, none)).NoFailure ∧ (Pass.step z db id jobs p (i, none)).todo < p.todo ∧
      ∀ w, ((Pass.step z db id jobs p (i, none)).blobFiles w).stream.length ≤
        (p.blobFiles w).stream.length + blobBufCap := by
  have hlt : i < p.tasks.length := (List.getElem?_eq_some_iff.1 ht).1
  have hij : i < jobs.length := by rw [← h.length]; exact hlt
  have hj : jobs[i]? = some jobs[i] := List.getElem?_eq_getElem hij
  obtain ⟨r, hm, hstep⟩ := Pass.step_some z db id (e := (i, none)) hj ht
  obtain ⟨h1, h2, h3⟩ := hm.todo hz h.blobs (h.tasks i _ _ hj ht) hpos hroom
  refine ⟨h.step hpas (.inl hz), ?_, ?_, ?_⟩
  · intro k e hk
    rw [hstep] at hk
    dsimp only at hk
    by_cases hik : i = k
    · subst hik
      rw [List.getElem?_set_self hlt] at hk
      exact h1 e (Option.some.inj hk)
    · rw [List.getElem?_set_ne hik] at hk
      exact hnf k e hk
  · rw [hstep]
    have hsum := sum_map_set (f := Task.todo) (b := r.2.2) ht
    unfold Pass.todo
    dsimp only
    omega
  · rw [hstep]
    exact h3

/-- One useful step. -/
theorem pass_step_todo (hz : z.Small) (hpas : (jobs.map Job.pa).Nodup) {p : Pass} (h : PassInv z db id jobs p)
    (hnf : p.NoFailure) (htodo : 0 < p.todo) (hroom : HasRoom p.blobFiles blobBufCap) :
    ∃ i, PassInv z db id jobs (Pass.step z db id jobs p (i, none)) ∧
      (Pass.step z db id jobs p (i, none)).NoFailure ∧ (Pass.step z db id jobs p (i, none)).todo < p.todo ∧
      ∀ w, ((Pass.step z db id jobs p (i, none)).blobFiles w).stream.length ≤
        (p.blobFiles w).stream.length + blobBufCap := by
  obtain ⟨i, task, ht, hpos⟩ := exists_todo htodo
  exact ⟨i, pass_step_task hz hpas h hnf ht hpos hroom⟩

/-- **A pass can be finished** from any state without a failed task, and leaves the room
it did not need. -/
theorem pass_completes (hz : z.Small) (hpas : (jobs.map Job.pa).Nodup) (k : ℕ) : ∀ (n : ℕ) (p : Pass), p.todo ≤ n →
    PassInv z db id jobs p → p.NoFailure → HasRoom p.blobFiles (n * blobBufCap + k) →
    ∃ (schedule : List (ℕ × Fault)) (recs : List ChunkRecord),
      (schedule.foldl (Pass.step z db id jobs) p).tasks = recs.map .done ∧
      HasRoom (schedule.foldl (Pass.step z db id jobs) p).blobFiles k
  | 0, p, hn, h, hnf, hroom => by
    obtain ⟨recs, hr⟩ := done_of_todo (Nat.le_zero.1 hn) fun t ht e he => by
      obtain ⟨i, hi⟩ := List.mem_iff_getElem?.1 ht
      exact hnf i e (he ▸ hi)
    refine ⟨[], recs, hr, fun w => ?_⟩
    have := hroom w
    rw [Nat.zero_mul, Nat.zero_add] at this
    exact this
  | n + 1, p, hn, h, hnf, hroom => by
    by_cases htodo : 0 < p.todo
    · -- one task moves on, and uses up the room of one append
      have hroom1 : HasRoom p.blobFiles blobBufCap := by
        intro w
        have := hroom w
        rw [Nat.add_mul] at this
        omega
      obtain ⟨i, h1, h2, h3, h4⟩ := pass_step_todo hz hpas h hnf htodo hroom1
      have hroom' : HasRoom (Pass.step z db id jobs p (i, none)).blobFiles (n * blobBufCap + k) := by
        intro w
        have h5 := hroom w
        have h6 := h4 w
        rw [Nat.add_mul] at h5
        omega
      obtain ⟨schedule, recs, hr⟩ := pass_completes hz hpas k n _ (by omega) h1 h2 hroom'
      exact ⟨(i, none) :: schedule, recs, hr⟩
    · refine pass_completes hz hpas k n p (by omega) h hnf fun w => ?_
      have := hroom w
      rw [Nat.add_mul] at this
      omega

theorem mapM_rec?_done (recs : List ChunkRecord) : (recs.map Task.done).mapM Task.rec? = some recs := by
  induction recs with
  | nil => rfl
  | cons r recs ih => rw [List.map_cons, List.mapM_cons, ih]; rfl

/-- **A save can return Ok** after any steps of its pass that failed no task. -/
theorem saveJobs_finish (hz : z.Small) (hslots : jobs.map Job.slot = List.range jobs.length)
    (hpas : (jobs.map Job.pa).Nodup) {begun : List (ℕ × Fault)} {n k : ℕ}
    (hinv : PassInv z db id jobs (runPass z db id jobs begun)) (hnf : (runPass z db id jobs begun).NoFailure)
    (htodo : (runPass z db id jobs begun).todo ≤ n)
    (hroom : HasRoom (runPass z db id jobs begun).blobFiles (n * blobBufCap + k)) :
    ∃ (rest : List (ℕ × Fault)) (db' : AppendOnlyDb), db.saveJobs z (begun ++ rest) id jobs = some (db', .ok ()) ∧
      HasRoom db'.blobFiles k := by
  obtain ⟨rest, recs, hdone, hleft⟩ := pass_completes hz hpas k _ _ htodo hinv hnf hroom
  have hrun : runPass z db id jobs (begun ++ rest) =
      rest.foldl (Pass.step z db id jobs) (runPass z db id jobs begun) := by
    unfold runPass
    rw [List.foldl_append]
  rw [← hrun] at hdone hleft
  have hlen : recs.length = jobs.length := by
    have hl : (runPass z db id jobs (begun ++ rest)).tasks.length = jobs.length := length_runPass jobs _
    rwa [hdone, List.length_map] at hl
  have hout : (runPass z db id jobs (begun ++ rest)).outcome jobs = some (.ok recs) := by
    unfold Pass.outcome
    rw [hdone, mapM_rec?_done]
    dsimp only
    rw [records_by_slot hslots hlen]
  have hsave : db.saveJobs z (begun ++ rest) id jobs =
      some (({ db with shadow := (runPass z db id jobs (begun ++ rest)).shadow,
                       blobFiles := (runPass z db id jobs (begun ++ rest)).blobFiles } : AppendOnlyDb).commit id recs,
        .ok ()) := by
    unfold AppendOnlyDb.saveJobs
    dsimp only
    rw [hout]
  exact ⟨rest, _, hsave, hleft⟩

/-- The pass before its first step. -/
theorem runPass_start (hz : z.Small) (hpas : (jobs.map Job.pa).Nodup) (hb : ∀ w, BlobOk (db.blobFiles w)) :
    PassInv z db id jobs (runPass z db id jobs []) ∧ (runPass z db id jobs []).NoFailure ∧
      (runPass z db id jobs []).todo = 3 * jobs.length := by
  have hstart : (runPass z db id jobs []).tasks = jobs.map fun _ => .start := rfl
  refine ⟨runPass_inv hpas hb [] (.inl hz), fun i e hi => ?_, ?_⟩
  · rw [hstart, List.getElem?_map] at hi
    obtain ⟨j, -, hj⟩ := Option.map_eq_some_iff.1 hi
    simp at hj
  · have hthree : jobs.map (Task.todo ∘ fun _ => Task.start) = List.replicate jobs.length 3 := List.map_const'
    unfold Pass.todo
    rw [hstart, List.map_map, hthree, List.sum_replicate_nat, Nat.mul_comm]

/-- **The jobs of a save can be saved.** -/
theorem saveJobs_completes (hz : z.Small) (hslots : jobs.map Job.slot = List.range jobs.length)
    (hpas : (jobs.map Job.pa).Nodup) (hb : ∀ w, BlobOk (db.blobFiles w)) {k : ℕ}
    (hroom : HasRoom db.blobFiles (3 * jobs.length * blobBufCap + k)) :
    ∃ (schedule : List (ℕ × Fault)) (db' : AppendOnlyDb), db.saveJobs z schedule id jobs = some (db', .ok ()) ∧
      HasRoom db'.blobFiles k := by
  obtain ⟨hinv, hnf, htodo⟩ : PassInv z db id jobs (runPass z db id jobs []) ∧ _ := runPass_start hz hpas hb
  exact saveJobs_finish hz hslots hpas hinv hnf htodo.le hroom

/-- They can be saved with any of their tasks first. -/
theorem saveJobs_first (hz : z.Small) (hslots : jobs.map Job.slot = List.range jobs.length)
    (hpas : (jobs.map Job.pa).Nodup) (hb : ∀ w, BlobOk (db.blobFiles w))
    (hroom : HasRoom db.blobFiles ((3 * jobs.length + 1) * blobBufCap)) {i : ℕ} (hi : i < jobs.length) :
    ∃ (rest : List (ℕ × Fault)) (db' : AppendOnlyDb), db.saveJobs z ((i, none) :: rest) id jobs = some (db', .ok ()) := by
  obtain ⟨hinv, hnf, htodo⟩ : PassInv z db id jobs (runPass z db id jobs []) ∧ _ := runPass_start hz hpas hb
  have ht : (runPass z db id jobs []).tasks[i]? = some .start := by
    change (jobs.map fun _ => Task.start)[i]? = _
    rw [List.getElem?_map, List.getElem?_eq_getElem hi]
    rfl
  rw [Nat.add_mul, Nat.one_mul] at hroom
  obtain ⟨hinv', hnf', htodo', hgrow⟩ : PassInv z db id jobs (runPass z db id jobs [(i, none)]) ∧
      (runPass z db id jobs [(i, none)]).NoFailure ∧ _ := pass_step_task hz hpas hinv hnf ht (by decide) fun w => by
    have := hroom w
    change (db.blobFiles w).stream.length + blobBufCap ≤ maxFileLen
    omega
  have hleft : HasRoom (runPass z db id jobs [(i, none)]).blobFiles (3 * jobs.length * blobBufCap + 0) := by
    intro w
    have h1 : ((runPass z db id jobs [(i, none)]).blobFiles w).stream.length ≤
        (db.blobFiles w).stream.length + blobBufCap := hgrow w
    have h2 := hroom w
    omega
  have htodo'' : (runPass z db id jobs [(i, none)]).todo ≤ 3 * jobs.length := by
    rw [htodo] at htodo'
    exact htodo'.le
  obtain ⟨rest, db', hrun, -⟩ := saveJobs_finish hz hslots hpas hinv' hnf' htodo'' hleft
  exact ⟨rest, db', hrun⟩

end Pass

/-! ## Calls and sessions -/

section Session

variable {z : Zstd} {vs : List Version} {dir : Dir} {db : AppendOnlyDb}

/-- A `save_all_pages` call whose arguments pass its checks. -/
inductive SaveCall.ValidAll : SaveCall → Prop
  | mk {memory : Bytes} {n : UInt64} {s : UInt32} (hmem : memory.length = n.toNat * pageSize)
      (hid : s ≤ maxSnapshotId) (hrange : n.toNat ≤ 2 ^ 45) : ValidAll (.all memory n s)

theorem SaveCall.ValidAll.inRange {c : SaveCall} (h : c.ValidAll) : c.InRange := by
  cases h with
  | mk hmem hid hrange =>
    intro pa hpa
    simp only [SaveCall.marks, decide_eq_true_eq] at hpa
    omega

theorem checkSnapshot_accepts {id : UInt32} (hid : id ≤ maxSnapshotId)
    (hlast : ∀ l, db.lastSnapshot = some l → l < id) : db.checkSnapshot id = .ok () := by
  unfold AppendOnlyDb.checkSnapshot
  rw [if_neg (UInt32.not_lt.2 hid)]
  cases hl : db.lastSnapshot with
  | none => rfl
  | some l =>
    dsimp only
    rw [if_neg (UInt32.not_le.2 (hlast l hl))]

/-- **A valid call runs its pass**, under any schedule, when there is a page. -/
theorem run_all {memory : Bytes} {n : UInt64} {s : UInt32} (hmem : memory.length = n.toNat * pageSize)
    (hid : s ≤ maxSnapshotId) (hn : n.toNat ≠ 0) (hlast : ∀ l, db.lastSnapshot = some l → l < s) :
    ∃ jobs, JobsOf (.all memory n s) jobs ∧ jobs.length = n.toNat ∧ allJobs memory n.toNat = .ok jobs ∧
      ∀ schedule, (SaveCall.all memory n s).run z schedule db = (db.accept s).saveJobs z schedule s jobs := by
  obtain ⟨jobs, hj, hjobs, hlen⟩ := allJobs_jobsOf (s := s) hmem
  refine ⟨jobs, hjobs, hlen, hj, fun schedule => ?_⟩
  have hcheck := checkSnapshot_accepts hid hlast
  have hplan : (SaveCall.all memory n s).plan = .ok (some jobs) := by
    unfold SaveCall.plan
    dsimp only
    rw [if_neg (not_not.2 hmem), if_neg hn, hj]
  rw [run_plan hcheck, hplan]
  rfl

/-- **A valid call can return Ok.** -/
theorem save_completes (hz : z.Small) {c : SaveCall} (hc : c.ValidAll) (hb : ∀ w, BlobOk (db.blobFiles w))
    (hlast : ∀ l, db.lastSnapshot = some l → l < c.id) {k : ℕ}
    (hroom : HasRoom db.blobFiles (3 * c.total * blobBufCap + k)) :
    ∃ (schedule : List (ℕ × Fault)) (db' : AppendOnlyDb), c.run z schedule db = some (db', .ok ()) ∧
      HasRoom db'.blobFiles k := by
  cases hc with
  | @mk memory n s hmem hid hrange =>
    by_cases h0 : n.toNat = 0
    · have hcheck := checkSnapshot_accepts hid hlast
      refine ⟨[], db.accept s, ?_, fun w => ?_⟩
      · have hplan : (SaveCall.all memory n s).plan = .ok none := by
          unfold SaveCall.plan
          dsimp only
          rw [if_neg (not_not.2 hmem), if_pos h0]
        rw [run_plan hcheck, hplan]
        rfl
      · have := hroom w
        simp only [SaveCall.total, h0, Nat.mul_zero, Nat.zero_mul, Nat.zero_add] at this
        exact this
    · obtain ⟨jobs, hjobs, hlen, -, hrun⟩ := run_all (z := z) hmem hid h0 hlast
      have hroom' : HasRoom (db.accept s).blobFiles (3 * jobs.length * blobBufCap + k) := by
        rw [hlen]
        exact hroom
      have hb' : ∀ w, BlobOk ((db.accept s).blobFiles w) := hb
      have hcomplete : ∃ (schedule : List (ℕ × Fault)) (db' : AppendOnlyDb),
          (db.accept s).saveJobs z schedule s jobs = some (db', .ok ()) ∧ HasRoom db'.blobFiles k :=
        saveJobs_completes hz hjobs.slots (nodup_pas hjobs.sorted) hb' hroom'
      obtain ⟨schedule, db', hdone, hleft⟩ := hcomplete
      exact ⟨schedule, db', (hrun schedule).trans hdone, hleft⟩

/-! ## Sessions -/

/-- The ids a handle has used, and the one in its log's header, lie below `i`; a new
header holds 0. -/
structure IdsBelow (i : UInt32) (db : AppendOnlyDb) : Prop where
  last : ∀ l, db.lastSnapshot = some l → l < i
  header : ∃ m body, db.logFile.file.bytes = writeLogHeader m ++ body ∧ (m = 0 ∨ m < i)

theorem IdsBelow.mono {i j : UInt32} (h : IdsBelow i db) (hij : i ≤ j) : IdsBelow j db where
  last l hl := UInt32.lt_of_lt_of_le (h.last l hl) hij
  header := by
    obtain ⟨m, body, hm, hlt⟩ := h.header
    exact ⟨m, body, hm, hlt.imp_right fun hlt => UInt32.lt_of_lt_of_le hlt hij⟩

/-- The id in the header of a directory's log lies below `i`. -/
def Dir.IdsBelow (i : UInt32) (dir : Dir) : Prop := ∃ m body, dir.log = some (writeLogHeader m ++ body) ∧ m < i

/-- Every worker file of a directory can take `k` more bytes. -/
def Dir.HasRoom (dir : Dir) (k : ℕ) : Prop := ∀ w, ((dir.blobs w).getD []).length + k ≤ maxFileLen

/-- What a save that returns Ok leaves in the log. -/
theorem save_log {schedule : List (ℕ × Fault)} {c : SaveCall} {db' : AppendOnlyDb} (h : HandleOk z vs db)
    (hrun : c.run z schedule db = some (db', .ok ())) :
    db'.logFile = db.logFile ∨ ∃ body, db'.logFile.file.bytes = writeLogHeader c.id ++ body := by
  obtain ⟨hcase, -⟩ := runCall_cases hrun
  cases hcase with
  | empty hjobs => exact .inl rfl
  | @pass jobs _ _ hjobs hne hrun =>
    have hblobs : ∀ w, BlobOk ((db.accept c.id).blobFiles w) := h.blobs
    obtain ⟨records, -, -, rfl⟩ := saveJobs_ok hblobs hjobs.slots (nodup_pas hjobs.sorted) hrun
    obtain ⟨m, hm, -, -⟩ := h.bytes
    have hlog : LogOk (afterPass db c.id (runPass z (db.accept c.id) c.id jobs schedule)).logFile := h.log
    exact .inr ⟨_, (commit_log hlog hm c.id records).2⟩

theorem IdsBelow.save {schedule : List (ℕ × Fault)} {c : SaveCall} {db' : AppendOnlyDb} {new : List Version}
    {i j : UInt32} (hi : IdsBelow i db) (hij : i ≤ j) (hc : c.id < j) (h : HandleOk z vs db)
    (hs : SaveOk z vs db c db' new) (hrun : c.run z schedule db = some (db', .ok ())) : IdsBelow j db' where
  last l hl := by
    rw [hs.last] at hl
    obtain rfl := Option.some.inj hl
    exact hc
  header := by
    rcases save_log h hrun with hlog | ⟨body, hbody⟩
    · rw [hlog]
      exact (hi.mono hij).header
    · exact ⟨c.id, body, hbody, .inr hc⟩

/-- The pages of some calls, all together. -/
def totalPages (cs : List SaveCall) : ℕ := (cs.map SaveCall.total).sum

theorem totalPages_concat (cs : List SaveCall) (c : SaveCall) : totalPages (cs ++ [c]) = totalPages cs + c.total := by
  simp [totalPages]

/-- **Calls with increasing ids can all return Ok**, on one handle. -/
theorem saves_complete (hz : z.Small) {i : UInt32} (cs : List SaveCall) (hvalid : ∀ c ∈ cs, c.ValidAll)
    (hids : cs.Pairwise fun a b => a.id < b.id) (h : HandleOk z vs db) (hb : ShadowBacked vs db.shadow)
    (hi : IdsBelow i db) (hstart : ∀ c ∈ cs, i ≤ c.id) : ∀ {k : ℕ},
    HasRoom db.blobFiles (3 * totalPages cs * blobBufCap + k) →
    ∃ db', Saves z db cs db' ∧ HasRoom db'.blobFiles k ∧ ∀ j, i ≤ j → (∀ c ∈ cs, c.id < j) → IdsBelow j db' := by
  induction cs using List.reverseRecOn with
  | nil =>
    intro k hroom
    refine ⟨db, .nil, fun w => ?_, fun j hij _ => hi.mono hij⟩
    have := hroom w
    omega
  | append_singleton cs c ih =>
    intro k hroom
    have hmem : c ∈ cs ++ [c] := List.mem_append_right _ (List.mem_singleton_self c)
    obtain ⟨hids1, -, hids2⟩ := List.pairwise_append.1 hids
    have hroom' : HasRoom db.blobFiles (3 * totalPages cs * blobBufCap + (3 * c.total * blobBufCap + k)) := by
      intro w
      have := hroom w
      rw [totalPages_concat, Nat.mul_add, Nat.add_mul] at this
      omega
    obtain ⟨db1, hsaves, hroom1, hbelow⟩ := ih (fun c hc => hvalid c (List.mem_append_left _ hc)) hids1
      (fun c hc => hstart c (List.mem_append_left _ hc)) hroom'
    obtain ⟨new, ⟨h1, hb1, -, -, -⟩⟩ := saves_ok h hb hsaves fun c hc => (hvalid c (List.mem_append_left _ hc)).inRange
    have hlast : IdsBelow c.id db1 := hbelow c.id (hstart c hmem) fun c' hc' => hids2 c' hc' c (List.mem_singleton_self c)
    obtain ⟨schedule, db2, hrun, hroom2⟩ := save_completes hz (hvalid c hmem) h1.blobs hlast.last hroom1
    obtain ⟨new', h2⟩ := save_ok h1 hrun (hvalid c hmem).inRange fun _ _ => deltasBacked_of_shadow hb1
    exact ⟨db2, .snoc hsaves hrun, hroom2, fun j _ hj =>
      hlast.save (UInt32.le_of_lt (hj c hmem)) (hj c hmem) h1 h2 hrun⟩

/-- **A flush succeeds** while the worker files have room. -/
theorem close_completes (hlog : LogOk db.logFile) (hblobs : ∀ w, BlobOk (db.blobFiles w))
    (hroom : HasRoom db.blobFiles 0) : ∃ dir', db.close = .ok dir' := by
  have hlogFlush : (db.logFile.flushBuf none).2 = true := BufWriter.flushBuf_unlimited hlog.limit
  have hblobFlush : ∀ w : Fin 256, w.val < db.workerCount →
      ((db.blobFiles (UInt8.ofFin w)).writer.flushBuf none).2 = true := by
    intro w _
    refine BufWriter.flushBuf_room (hblobs _).ok fun m hm => ?_
    rw [(hblobs _).limit] at hm
    obtain rfl := Option.some.inj hm
    exact hroom _
  unfold AppendOnlyDb.close AppendOnlyDb.flush
  rw [if_pos ⟨hlogFlush, hblobFlush⟩, ok_bind]
  exact ⟨_, rfl⟩

/-- **Closing after saves**: the directory, with its header and its room. -/
theorem close_below (h : HandleOk z vs db) {i : UInt32} (hpos : 0 < i) (hi : IdsBelow i db) {k : ℕ}
    (hroom : HasRoom db.blobFiles k)
    (hothers : ∀ w bs, db.dir.blobs w = some bs → bs.length + k ≤ maxFileLen) :
    ∃ dir', db.close = .ok dir' ∧ dir'.IdsBelow i ∧ dir'.HasRoom k := by
  obtain ⟨dir', hclose⟩ := close_completes h.log h.blobs fun w => (Nat.le_add_right _ _).trans (hroom w)
  obtain ⟨hl, -, hb⟩ := close_inv h.log h.blobs hclose
  obtain ⟨m, body, hm, hlt⟩ := hi.header
  have hlt' : m < i := by
    rcases hlt with rfl | hlt
    · exact hpos
    · exact hlt
  refine ⟨dir', hclose, ⟨m, body, by rw [hl, hm], hlt'⟩, fun w => ?_⟩
  rw [hb]
  unfold AppendOnlyDb.streams
  split
  · exact hroom w
  · cases hbs : db.dir.blobs w with
    | none =>
      have := hroom w
      simp only [Option.getD_none, List.length_nil]
      omega
    | some bs => exact hothers w bs hbs

theorem open_room {n : ℕ} {t : UInt16} {u : Bool} {k : ℕ} (hroom : dir.HasRoom k)
    (h : AppendOnlyDb.open dir n t u = .ok db) : HasRoom db.blobFiles k ∧
      ∀ w bs, db.dir.blobs w = some bs → bs.length + k ≤ maxFileLen := by
  obtain ⟨-, -, log, last, -, hd, -, -, -, -, -, hb⟩ := open_inv h
  refine ⟨fun w => ?_, fun w bs hbs => ?_⟩
  · rw [hb]
    dsimp only
    rw [openAppend_stream]
    exact hroom w
  · rw [hd] at hbs
    have := hroom w
    rw [hbs] at this
    exact this

theorem open_new {i : UInt32} {n : ℕ} {t : UInt16} {u : Bool} (hl : dir.log = none)
    (h : AppendOnlyDb.open dir n t u = .ok db) : IdsBelow i db := by
  obtain ⟨-, hbytes, hlast⟩ := open_newLog hl h
  refine ⟨fun l hl => ?_, 0, [], hbytes, .inl rfl⟩
  rw [hlast] at hl
  simp at hl

theorem open_below {i : UInt32} {n : ℕ} {t : UInt16} {u : Bool} (hi : dir.IdsBelow i)
    (h : AppendOnlyDb.open dir n t u = .ok db) : IdsBelow i db := by
  obtain ⟨m, body, hm, hlt⟩ := hi
  obtain ⟨-, hbytes, hlast⟩ := open_logFile hm h
  refine ⟨fun l hl => ?_, m, body, hbytes, .inr hlt⟩
  rw [hlast] at hl
  obtain rfl := Option.some.inj hl
  exact hlt

/-- A directory can be opened when its log has a header, or is missing. -/
theorem open_completes {n : ℕ} (hn : 1 ≤ n ∧ n ≤ 255) (t : UInt16) (u : Bool)
    (hlog : dir.log = none ∨ ∃ m body, dir.log = some (writeLogHeader m ++ body)) :
    ∃ db, AppendOnlyDb.open dir n t u = .ok db := by
  have hopen : ∃ r, AppendOnlyDb.openLog (dir.log.getD []) = .ok r := by
    unfold AppendOnlyDb.openLog
    rcases hlog with hl | ⟨m, body, hl⟩
    · rw [hl]
      exact ⟨_, rfl⟩
    · have hne : (writeLogHeader m ++ body).length ≠ 0 := by
        have : (writeLogHeader m).length = 16 := length_writeHeader rfl m
        rw [List.length_append]; omega
      rw [hl, Option.getD_some, if_neg hne, readLogHeader, ok_bind]
      exact ⟨_, rfl⟩
  obtain ⟨⟨log, last⟩, hr⟩ := hopen
  unfold AppendOnlyDb.open
  rw [if_neg (by omega), hr, ok_bind]
  exact ⟨_, rfl⟩

/-- Calls that can be made one after the other, with ids from `i` on. -/
structure Runnable (i : UInt32) (cs : List SaveCall) : Prop where
  valid : ∀ c ∈ cs, c.ValidAll
  ids : cs.Pairwise fun a b => a.id < b.id
  start : ∀ c ∈ cs, i ≤ c.id

theorem Runnable.inRange {i : UInt32} {cs : List SaveCall} (h : Runnable i cs) : ∀ c ∈ cs, c.InRange :=
  fun c hc => (h.valid c hc).inRange

/-- The end of a session, from an opened handle. -/
theorem session_end (hz : z.Small) {i j : UInt32} {n : ℕ} {t : UInt16} {u : Bool} {cs : List SaveCall}
    (hopen : AppendOnlyDb.open dir n t u = .ok db) (h : HandleOk z vs db) (hb : ShadowBacked vs db.shadow)
    (hi : IdsBelow i db) (hcs : Runnable i cs) (hij : i ≤ j) (hj : 0 < j) (hlt : ∀ c ∈ cs, c.id < j) {k : ℕ}
    (hroom : dir.HasRoom (3 * totalPages cs * blobBufCap + k)) :
    ∃ dir', Session z dir cs dir' ∧ dir'.IdsBelow j ∧ dir'.HasRoom k := by
  obtain ⟨hr1, hr2⟩ := open_room hroom hopen
  obtain ⟨db', hsaves, hroom', hbelow⟩ := saves_complete hz cs hcs.valid hcs.ids h hb hi hcs.start hr1
  obtain ⟨new, ⟨h', -, -, hset, -⟩⟩ := saves_ok h hb hsaves hcs.inRange
  obtain ⟨dir', hclose, hi', hk⟩ := close_below h' hj (hbelow j hij hlt) hroom' fun w bs hbs => by
    rw [hset.dir] at hbs
    have := hr2 w bs hbs
    omega
  exact ⟨dir', .mk hopen hsaves hclose, hi', hk⟩

/-- **A first session can be run**, with any calls that can be made one after the other. -/
theorem session_first_completes (hz : z.Small) {n : ℕ} (hn : 1 ≤ n ∧ n ≤ 255) (t : UInt16) (u : Bool) {j : UInt32}
    {cs : List SaveCall} (hcs : Runnable 0 cs) (hj : 0 < j) (hlt : ∀ c ∈ cs, c.id < j) {k : ℕ}
    (hk : 3 * totalPages cs * blobBufCap + k ≤ maxFileLen) :
    ∃ dir', Session z Dir.empty cs dir' ∧ dir'.IdsBelow j ∧ dir'.HasRoom k := by
  have hlog : Dir.empty.log = none ∨ ∃ m body, Dir.empty.log = some (writeLogHeader m ++ body) := .inl rfl
  obtain ⟨db, hopen⟩ := open_completes hn t u hlog
  obtain ⟨h, hb⟩ := open_empty (z := z) rfl (by simp [Dir.empty]) hopen
  have hroom : Dir.empty.HasRoom (3 * totalPages cs * blobBufCap + k) := by
    intro w
    simpa [Dir.empty] using hk
  exact session_end hz hopen h hb (open_new rfl hopen) hcs (UInt32.zero_le) hj hlt hroom

/-- **A first call can be made** on an empty directory. -/
theorem first_completes (hz : z.Small) {n : ℕ} {t : UInt16} {u : Bool} {c : SaveCall} (hc : c.ValidAll)
    (hroom : 3 * c.total * blobBufCap ≤ maxFileLen) (hopen : AppendOnlyDb.open Dir.empty n t u = .ok db) :
    ∃ (schedule : List (ℕ × Fault)) (db' : AppendOnlyDb), c.run z schedule db = some (db', .ok ()) := by
  obtain ⟨h, -⟩ := open_empty (z := z) rfl (by simp [Dir.empty]) hopen
  obtain ⟨-, -, hlast⟩ := open_newLog rfl hopen
  have hempty : Dir.empty.HasRoom (3 * c.total * blobBufCap + 0) := by
    intro w
    simpa [Dir.empty] using hroom
  obtain ⟨schedule, db', hrun, -⟩ := save_completes hz hc h.blobs (fun l hl => by rw [hlast] at hl; simp at hl)
    (open_room hempty hopen).1
  exact ⟨schedule, db', hrun⟩

/-- **A further session can be run** on a database. -/
theorem session_next_completes (hz : z.Small) {n : ℕ} (hn : 1 ≤ n ∧ n ≤ 255) (t : UInt16) (u : Bool) {i j : UInt32}
    {cs : List SaveCall} (hd : DirOk z vs dir) (hi : dir.IdsBelow i) (hcs : Runnable i cs) (hij : i ≤ j) (hj : 0 < j)
    (hlt : ∀ c ∈ cs, c.id < j) {k : ℕ} (hroom : dir.HasRoom (3 * totalPages cs * blobBufCap + k)) :
    ∃ dir', Session z dir cs dir' ∧ dir'.IdsBelow j ∧ dir'.HasRoom k := by
  obtain ⟨m, hm, -⟩ := hd.log
  obtain ⟨db, hopen⟩ := open_completes hn t u (.inr ⟨m, _, hm⟩)
  obtain ⟨h, hb⟩ := open_ok hd hopen
  exact session_end hz hopen h hb (open_below hi hopen) hcs hij hj hlt hroom

/-! ## One page at a time -/

/-- A save of one page, at address 0. -/
def onePage (page : Page) (s : UInt32) : SaveCall := .all page.bytes 1 s

theorem onePage_valid (page : Page) {s : UInt32} (hs : s ≤ maxSnapshotId) : (onePage page s).ValidAll :=
  .mk (by rw [page.size]; rfl) hs (by decide)

/-- A page in the middle of some memory. -/
theorem pageAt_mid (pre post : Bytes) (page : Page) {pa : ℕ} (hpre : pre.length = pa * pageSize) :
    pageAt (pre ++ page.bytes ++ post) pa = .ok page := by
  have hslice : slice (pre ++ page.bytes ++ post) (pa * pageSize) ((pa + 1) * pageSize) = page.bytes := by
    have := slice_mid pre page.bytes post
    rwa [page.size, hpre, ← Nat.succ_mul, ← List.append_assoc] at this
  have hpage : ∀ h, (⟨slice (pre ++ page.bytes ++ post) (pa * pageSize) ((pa + 1) * pageSize), h⟩ : Page) = page := by
    rw [hslice]
    intro h
    rfl
  unfold pageAt
  rw [dif_pos (by rw [hslice, page.size]), hpage]

theorem pageAt_bytes (page : Page) : pageAt page.bytes 0 = .ok page := by
  have := pageAt_mid [] [] page (show ([] : Bytes).length = 0 * pageSize by simp)
  rwa [List.nil_append, List.append_nil] at this

theorem onePage_dirty (page : Page) (s : UInt32) (pa : UInt64) (page' : Page) :
    (onePage page s).dirty pa = some page' ↔ pa = 0 ∧ page' = page := by
  have hmarks : (onePage page s).marks pa.toNat = true ↔ pa = 0 := by
    unfold onePage SaveCall.marks
    rw [decide_eq_true_eq, ← UInt64.toNat_inj]
    change pa.toNat < 1 ↔ pa.toNat = 0
    omega
  unfold SaveCall.dirty
  by_cases hpa : pa = 0
  · subst hpa
    rw [if_pos (hmarks.2 rfl)]
    change (pageAt page.bytes 0).toOption = some page' ↔ _
    rw [pageAt_bytes]
    simp [Except.toOption, eq_comm]
  · rw [if_neg fun h => hpa (hmarks.1 h)]
    simp [hpa]

/-- The job of such a save. -/
def onePageJob (page : Page) : Job := ⟨0, 0, page⟩

theorem jobsOf_onePage {page : Page} {s : UInt32} {jobs : List Job} (hjobs : JobsOf (onePage page s) jobs) :
    jobs = [onePageJob page] := by
  have hjob : ∀ job ∈ jobs, job.pa = 0 ∧ job.page = page := fun job hj =>
    (onePage_dirty page s job.pa job.page).1 ((hjobs.dirty job.pa job.page).2 ⟨job, hj, rfl, rfl⟩)
  obtain ⟨job, hj, -⟩ := (hjobs.dirty 0 page).1 ((onePage_dirty page s 0 page).2 ⟨rfl, rfl⟩)
  have hlen : jobs.length = 1 := by
    have hpas := nodup_pas hjobs.sorted
    have hall : ∀ pa ∈ jobs.map Job.pa, pa = 0 := by
      intro pa hpa
      obtain ⟨j, hj, rfl⟩ := List.mem_map.1 hpa
      exact (hjob j hj).1
    have hsub : jobs.map Job.pa ⊆ [0] := fun pa hpa => List.mem_singleton.2 (hall pa hpa)
    have hle := hpas.length_le_of_subset hsub
    have hpos := List.length_pos_of_mem hj
    rw [List.length_map] at hle
    simp only [List.length_singleton] at hle
    omega
  obtain ⟨j, rfl⟩ := List.length_eq_one_iff.1 hlen
  obtain ⟨hpa, hpage⟩ := hjob j List.mem_cons_self
  have hslot : j.slot = 0 := by simpa using hjobs.slots
  obtain ⟨slot, pa, pg⟩ := j
  dsimp only at hpa hpage hslot
  rw [hpa, hpage, hslot]
  rfl

/-- How a save of one page returns Ok. -/
theorem onePage_run {schedule : List (ℕ × Fault)} {page : Page} {s : UInt32} {db' : AppendOnlyDb}
    (hb : ∀ w, BlobOk (db.blobFiles w)) (hrun : (onePage page s).run z schedule db = some (db', .ok ())) :
    s ≤ maxSnapshotId ∧ (∀ l, db.lastSnapshot = some l → l < s) ∧ JobsOf (onePage page s) [onePageJob page] ∧
      ∃ rec p, p.tasks = [.done rec] ∧ PassInv z (db.accept s) s [onePageJob page] p ∧
        db' = (afterPass db s p).commit s [rec] := by
  obtain ⟨hcase, -⟩ := runCall_cases hrun
  obtain ⟨hid, hlast⟩ : s ≤ maxSnapshotId ∧ ∀ l, db.lastSnapshot = some l → l < s := run_id hrun
  cases hcase with
  | empty hjobs => simpa using jobsOf_onePage hjobs
  | @pass jobs _ _ hjobs hne hrun =>
    obtain rfl := jobsOf_onePage hjobs
    have hblobs : ∀ w, BlobOk ((db.accept s).blobFiles w) := hb
    obtain ⟨records, hdone, hinv, rfl⟩ := saveJobs_ok hblobs hjobs.slots (nodup_pas hjobs.sorted) hrun
    have hlen : records.length = 1 := by
      have := hinv.length
      rwa [hdone, List.length_map] at this
    obtain ⟨rec, rfl⟩ := List.length_eq_one_iff.1 hlen
    exact ⟨hid, hlast, hjobs, rec, _, hdone, hinv, rfl⟩

/-- **A save of one page**: its record, and the shadow after it. -/
theorem onePage_saved {schedule : List (ℕ × Fault)} {page : Page} {s : UInt32} {db' : AppendOnlyDb} (h : HandleOk z vs db)
    (hrun : (onePage page s).run z schedule db = some (db', .ok ()))
    (hback : DeltasBacked z vs (db.accept s) [onePageJob page]) :
    ∃ rec, SaveOk z vs db (onePage page s) db' [⟨rec, page⟩] ∧
      Recorded z (db.accept s) s db'.blobFiles (onePageJob page) rec ∧
      db'.shadow 0 = shadowAfter z (db.accept s) s (onePageJob page) := by
  obtain ⟨hid, hlast, hjobs, rec, p, hdone, hinv, rfl⟩ := onePage_run h.blobs hrun
  have hp : PassDone z vs db s (onePage page s) [onePageJob page] p [rec] :=
    ⟨hjobs, (onePage_valid page hid).inRange, hdone, hinv, hback⟩
  have htask : p.tasks[0]? = some (.done rec) := by rw [hdone]; rfl
  obtain ⟨hrec, hsh⟩ := hinv.tasks 0 (onePageJob page) _ rfl htask
  exact ⟨rec, hp.saveOk (c := onePage page s) h hid hlast, hrec, hsh⟩

/-- Saves of one page, one after the other. -/
abbrev onePages (saves : List (Page × UInt32)) : List SaveCall := saves.map fun e => onePage e.1 e.2

theorem totalPages_onePages (saves : List (Page × UInt32)) : totalPages (onePages saves) = saves.length := by
  unfold totalPages onePages
  rw [List.map_map, show SaveCall.total ∘ (fun e : Page × UInt32 => onePage e.1 e.2) = fun _ => 1 from rfl]
  simp

theorem runnable_onePages {i : UInt32} {saves : List (Page × UInt32)} (hids : saves.Pairwise fun a b => a.2 < b.2)
    (hbounds : ∀ e ∈ saves, i ≤ e.2 ∧ e.2 ≤ maxSnapshotId) : Runnable i (onePages saves) where
  valid c hc := by
    obtain ⟨e, he, rfl⟩ := List.mem_map.1 hc
    exact onePage_valid e.1 (hbounds e he).2
  ids := by
    rw [List.pairwise_map]
    exact hids
  start c hc := by
    obtain ⟨e, he, rfl⟩ := List.mem_map.1 hc
    exact (hbounds e he).1

/-- The history of saves of one page. -/
theorem savedBy_onePage {saves : List (Page × UInt32)} {pa : UInt64} {t : ℕ} {page : Page} :
    savedBy (onePages saves) pa t page ↔ pa = 0 ∧ ∃ e ∈ saves, e.2.toNat = t ∧ e.1 = page := by
  unfold savedBy
  constructor
  · rintro ⟨c, hc, ht, hd⟩
    obtain ⟨e, he, rfl⟩ := List.mem_map.1 hc
    obtain ⟨hpa, hp⟩ := (onePage_dirty e.1 e.2 pa page).1 hd
    exact ⟨hpa, e, he, ht, hp.symm⟩
  · rintro ⟨rfl, e, he, ht, rfl⟩
    exact ⟨_, List.mem_map_of_mem he, ht, (onePage_dirty e.1 e.2 0 e.1).2 ⟨rfl, rfl⟩⟩

theorem onePages_inRange (saves : List (Page × UInt32)) : ∀ c ∈ onePages saves, c.InRange := by
  intro c hc pa hpa
  obtain ⟨e, he, rfl⟩ := List.mem_map.1 hc
  have hlt : pa < 1 := of_decide_eq_true hpa
  omega

theorem onePage_inRange (page : Page) (s : UInt32) : (onePage page s).InRange :=
  onePages_inRange [(page, s)] _ (List.mem_singleton_self _)

/-- **A first session of saves of one page.** -/
theorem session_onePages (hz : z.Small) {n : ℕ} (hn : 1 ≤ n ∧ n ≤ 255) (t : UInt16) (u : Bool)
    {saves : List (Page × UInt32)} {j : UInt32} (hids : saves.Pairwise fun a b => a.2 < b.2)
    (hbounds : ∀ e ∈ saves, 0 ≤ e.2 ∧ e.2 < j) (hj : 0 < j) (hmax : j ≤ maxSnapshotId) (k : ℕ)
    (hk : 3 * saves.length * blobBufCap + k ≤ maxFileLen) :
    ∃ dir, Session z Dir.empty (onePages saves) dir ∧ dir.IdsBelow j ∧ dir.HasRoom k := by
  have hcs : Runnable 0 (onePages saves) := runnable_onePages hids fun e he =>
    ⟨(hbounds e he).1, UInt32.le_trans (UInt32.le_of_lt (hbounds e he).2) hmax⟩
  rw [← totalPages_onePages] at hk
  refine session_first_completes hz hn t u hcs hj (fun c hc => ?_) hk
  obtain ⟨e, he, rfl⟩ := List.mem_map.1 hc
  exact (hbounds e he).2

/-- **A database made of saves of one page**, in one session. -/
theorem written_onePages (hz : z.Small) {n : ℕ} (hn : 1 ≤ n ∧ n ≤ 255) (t : UInt16) (u : Bool)
    {saves : List (Page × UInt32)} {j : UInt32} (hids : saves.Pairwise fun a b => a.2 < b.2)
    (hbounds : ∀ e ∈ saves, 0 ≤ e.2 ∧ e.2 < j) (hj : 0 < j) (hmax : j ≤ maxSnapshotId)
    (hk : 3 * saves.length * blobBufCap + 0 ≤ maxFileLen) : ∃ dir, Written z (onePages saves) dir := by
  obtain ⟨dir, hs, -, -⟩ := session_onePages hz hn t u hids hbounds hj hmax 0 hk
  exact ⟨dir, .first hs⟩

/-- **A further session of saves of one page.** -/
theorem session_onePages_next (hz : z.Small) {n : ℕ} (hn : 1 ≤ n ∧ n ≤ 255) (t : UInt16) (u : Bool)
    {saves : List (Page × UInt32)} {i j : UInt32} (hd : DirOk z vs dir) (hi : dir.IdsBelow i)
    (hids : saves.Pairwise fun a b => a.2 < b.2) (hbounds : ∀ e ∈ saves, i ≤ e.2 ∧ e.2 < j) (hij : i ≤ j)
    (hj : 0 < j) (hmax : j ≤ maxSnapshotId) (k : ℕ) (hroom : dir.HasRoom (3 * saves.length * blobBufCap + k)) :
    ∃ dir', Session z dir (onePages saves) dir' ∧ dir'.IdsBelow j ∧ dir'.HasRoom k := by
  have hcs : Runnable i (onePages saves) := runnable_onePages hids fun e he =>
    ⟨(hbounds e he).1, UInt32.le_trans (UInt32.le_of_lt (hbounds e he).2) hmax⟩
  rw [← totalPages_onePages] at hroom
  refine session_next_completes hz hn t u hd hi hcs hij hj (fun c hc => ?_) hroom
  obtain ⟨e, he, rfl⟩ := List.mem_map.1 hc
  exact (hbounds e he).2

/-- The page the latest of some saves gave to address 0. -/
def latestPage (saves : List (Page × UInt32)) (s : UInt32) : Option Page :=
  (saves.filter fun e => e.2 ≤ s).getLast?.map Prod.fst

theorem latestPage_asOf (s : UInt32) (saves : List (Page × UInt32)) (hids : saves.Pairwise fun a b => a.2 < b.2) :
    AsOf (savedBy (onePages saves)) 0 s.toNat (latestPage saves s) := by
  unfold latestPage
  induction saves using List.reverseRecOn with
  | nil =>
    refine asOf_none.2 fun t page h => ?_
    obtain ⟨-, e, he, -⟩ := savedBy_onePage.1 h
    simp at he
  | append_singleton saves e ih =>
    obtain ⟨hids1, -, hids2⟩ := List.pairwise_append.1 hids
    rw [List.filter_append]
    by_cases hle : e.2 ≤ s
    · -- the last save is at or below the snapshot
      rw [List.filter_cons_of_pos (by simpa using hle), List.filter_nil, List.getLast?_concat]
      refine asOf_some.2 ⟨e.2.toNat, savedBy_onePage.2 ⟨rfl, e, by simp, rfl, rfl⟩, UInt32.le_iff_toNat_le.1 hle, ?_⟩
      intro t page h _
      obtain ⟨-, e', he', rfl, -⟩ := savedBy_onePage.1 h
      rcases List.mem_append.1 he' with he' | he'
      · exact (UInt32.lt_iff_toNat_lt.1 (hids2 e' he' e (List.mem_singleton_self e))).le
      · rw [List.mem_singleton.1 he']
    · rw [List.filter_cons_of_neg (by simpa using hle), List.filter_nil, List.append_nil]
      have hsame : ∀ t page, t ≤ s.toNat →
          (savedBy (onePages (saves ++ [e])) 0 t page ↔ savedBy (onePages saves) 0 t page) := by
        intro t page ht
        rw [savedBy_onePage, savedBy_onePage]
        constructor
        · rintro ⟨h0, e', he', rfl, hp⟩
          rcases List.mem_append.1 he' with he' | he'
          · exact ⟨h0, e', he', rfl, hp⟩
          · rw [List.mem_singleton.1 he'] at ht
            exact absurd (UInt32.le_iff_toNat_le.2 ht) hle
        · rintro ⟨h0, e', he', ht', hp⟩
          exact ⟨h0, e', List.mem_append_left _ he', ht', hp⟩
      exact (asOf_congr_le hsame).2 (ih hids1)

/-! ## A page and a change to it -/

/-- A page that is not in the shadow is stored whole. -/
theorem planOf_full {page : Page} {job : Job} (hjob : job.page = page) (hne : page ≠ Page.zero)
    (hsh : db.shadow job.pa = none) : planOf z db job = .full (z.compress page) := by
  have hnz : isAllZero page ≠ true := fun h => hne (isAllZero_iff.1 h)
  unfold planOf planOne
  rw [hjob, if_neg hnz, hsh, ite_self]

/-- **A page in the shadow is stored as a patch** once the threshold allows every patch. -/
theorem planOf_delta {page base : Page} {key : UInt64} {job : Job} (hjob : job.page = page) (hne : page ≠ Page.zero)
    (hu : db.useShadow = true) (ht : pageWords ≤ db.deltaThreshold.toNat) (hsh : db.shadow job.pa = some (key, base)) :
    planOf z db job = .delta key (encodeDeltaPatch (computeXorPatch page base)) := by
  have hnz : isAllZero page ≠ true := fun h => hne (isAllZero_iff.1 h)
  have hlen : (computeXorPatch page base).length ≤ db.deltaThreshold.toNat := (length_computeXorPatch page base).trans ht
  unfold planOf planOne
  rw [hjob, if_neg hnz, if_pos hu, hsh]
  dsimp only
  rw [if_pos hlen]

/-- The shadow after a Full page of an address it had nothing for. -/
theorem shadowAfter_full {id : UInt32} {job : Job} {data : Bytes} (hplan : planOf z db job = .full data)
    (hu : db.useShadow = true) (hsh : db.shadow job.pa = none) :
    shadowAfter z db id job = some (encodeKey job.pa id, job.page) := by
  have hinst : db.shadow.installs job.pa (encodeKey job.pa id) = true := by
    unfold Shadow.installs
    rw [hsh]
  unfold shadowAfter
  rw [hplan]
  dsimp only
  rw [if_pos hu]
  unfold Shadow.insertIfNewer
  rw [if_pos hinst, Function.update_self]

/-- **Two saves in one session**: the second one is a Delta against the first. -/
theorem delta_pair (hz : z.Small) {n : ℕ} (hn : 1 ≤ n ∧ n ≤ 255) {p q : Page} (hp : p ≠ Page.zero) (hq : q ≠ Page.zero)
    {s s' : UInt32} (hlt : s < s') (hmax : s' < maxSnapshotId) :
    ∃ dir vs, Session z Dir.empty (onePages [(p, s), (q, s')]) dir ∧ DirOk z vs dir ∧
      ∃ v ∈ vs, v.chunk.kind = .delta ∧ v.chunk.baseKey = encodeKey 0 s := by
  obtain ⟨db, hopen⟩ : ∃ db, AppendOnlyDb.open Dir.empty n 512 true = .ok db := open_completes hn 512 true (.inl rfl)
  obtain ⟨h, hb⟩ := open_empty (z := z) rfl (by simp [Dir.empty]) hopen
  obtain ⟨hu, ht⟩ := open_setup hopen
  obtain ⟨-, -, -, -, -, -, -, -, -, hsh, -, -⟩ := open_inv hopen
  have hids : [(p, s), (q, s')].Pairwise fun a b => a.2 < b.2 := by simpa using hlt
  have hcs : Runnable 0 (onePages [(p, s), (q, s')]) := runnable_onePages hids fun e he => by
    refine ⟨UInt32.zero_le, ?_⟩
    rcases List.mem_cons.1 he with rfl | he
    · exact UInt32.le_of_lt (UInt32.lt_trans hlt hmax)
    · rw [List.mem_singleton.1 he]
      exact UInt32.le_of_lt hmax
  have hroom : Dir.empty.HasRoom (3 * totalPages (onePages [(p, s), (q, s')]) * blobBufCap + 0) := by
    intro w
    rw [totalPages_onePages]
    simp only [Dir.empty, Option.getD_none, List.length_nil]
    norm_num [blobBufCap, maxFileLen]
  obtain ⟨hr1, hr2⟩ := open_room hroom hopen
  obtain ⟨db₂, hsaves, hroom₂, -⟩ := saves_complete hz _ hcs.valid hcs.ids h hb (open_new rfl hopen) hcs.start hr1
  -- the two saves, one by one
  have hboth : Saves z db ([onePage p s] ++ [onePage q s']) db₂ := hsaves
  obtain ⟨db₁, sched₂, hsaves₁, hrun₂⟩ := saves_concat_inv hboth
  have hfirst : Saves z db ([] ++ [onePage p s]) db₁ := hsaves₁
  obtain ⟨db₀, sched₁, hsaves₀, hrun₁⟩ := saves_concat_inv hfirst
  obtain rfl := saves_nil_inv hsaves₀
  obtain ⟨rec₁, hs₁, -, hshadow₁⟩ := onePage_saved h hrun₁ (deltasBacked_of_shadow hb)
  have hnone : (db₀.accept s).shadow 0 = none := by
    change db₀.shadow 0 = none
    rw [hsh]
    rfl
  have hplan₁ : planOf z (db₀.accept s) (onePageJob p) = .full (z.compress p) := planOf_full rfl hp hnone
  rw [shadowAfter_full hplan₁ hu hnone] at hshadow₁
  have hb₁ := hs₁.backed hb
  obtain ⟨rec₂, hs₂, hrec₂, -⟩ := onePage_saved hs₁.handle hrun₂ (deltasBacked_of_shadow hb₁)
  have ht₁ : pageWords ≤ (db₁.accept s').deltaThreshold.toNat := by
    change pageWords ≤ db₁.deltaThreshold.toNat
    rw [hs₁.setup.deltaThreshold, ht]
    decide
  have hu₁ : (db₁.accept s').useShadow = true := by
    change db₁.useShadow = true
    rw [hs₁.setup.useShadow, hu]
  have hplan₂ : planOf z (db₁.accept s') (onePageJob q) =
      .delta (encodeKey 0 s) (encodeDeltaPatch (computeXorPatch q p)) := planOf_delta rfl hq hu₁ ht₁ hshadow₁
  obtain ⟨off, len, hrec₂, -⟩ := hrec₂
  rw [hplan₂] at hrec₂
  obtain ⟨dir, hclose⟩ := close_completes hs₂.handle.log hs₂.handle.blobs hroom₂
  refine ⟨dir, _, .mk hopen hsaves hclose, close_ok hs₂.handle hclose, ⟨rec₂, q⟩,
    List.mem_append_right _ (List.mem_singleton_self _), ?_, ?_⟩
  · rw [hrec₂]; rfl
  · rw [hrec₂]; rfl

end Session

end Bxdb
