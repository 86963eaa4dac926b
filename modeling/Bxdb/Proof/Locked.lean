import Bxdb.Spec.Locked
import Bxdb.Spec.RawFrame
import Bxdb.Proof.Session
import Bxdb.Proof.Progress

/-!
# Saving under locks is saving in atomic steps

`runPass` looks up, appends and inserts in one step each. `lockedPass_refines`: **whatever the
threads do under their locks, a schedule of `runPass` does too**.
-/

namespace Bxdb

open Bytes Buffered Locks

/-! ## Critical sections run through -/

theorem run_get (pa : UInt64) (shadow : Shadow) : (Shadow.get pa).run shadow = (shadow, shadow pa) := rfl

theorem run_insertSection (pa key : UInt64) (page : Page) (shadow : Shadow) :
    (Shadow.insertSection pa key page).run shadow = (shadow.insertIfNewer pa key page, ()) := by
  unfold Shadow.insertSection Shadow.insertIfNewer Body.run
  dsimp only [id]
  split
  · rfl
  · rfl

theorem run_appendSection (fault : Fault) (data : Bytes) (blob : BlobFile) :
    (appendSection fault data).run blob = appendBlob fault blob data := by
  unfold appendSection appendBlob Body.run Body.run
  dsimp only [id]
  split
  · rfl
  · rfl

/-! ## Locks taken -/

/-- There are 2048 shards, and as many files as workers. -/
def Resource.Exists (workerCount : ℕ) : Resource → Prop
  | .shard idx => idx.toNat < shadowShards
  | .blob w => w.toNat < workerCount

theorem shard_lt (pa : UInt64) : (Shadow.shard pa).toNat < shadowShards := by
  unfold Shadow.shard
  rw [UInt64.toNat_and]
  exact lt_of_le_of_lt Nat.and_le_right (by decide)

section Tasks

variable {z : Zstd} {db : AppendOnlyDb} {id : UInt32} {job : Job}

theorem insertTask_disciplined (r : ChunkRecord) :
    (insertTask db id job r).Disciplined (Resource.Exists db.workerCount) := by
  unfold insertTask
  split
  · exact ⟨shard_lt job.pa, by nofun, fun _ => True.intro⟩
  · exact True.intro

theorem appendTask_disciplined (hw : 1 ≤ db.workerCount ∧ db.workerCount ≤ 255) (fault : Fault) (plan : Plan) :
    (appendTask db id job fault plan).Disciplined (Resource.Exists db.workerCount) := by
  refine ⟨?_, by nofun, fun r => ?_⟩
  · have hlt : job.pa.toNat % db.workerCount < db.workerCount := Nat.mod_lt _ (by omega)
    change (UInt8.ofNat (job.pa.toNat % db.workerCount)).toNat < db.workerCount
    rw [UInt8.toNat_ofNat_of_lt' (by have : UInt8.size = 256 := rfl; omega)]
    exact hlt
  · cases r with
    | error e => exact True.intro
    | ok range =>
      cases plan with
      | zero => exact True.intro
      | delta baseKey data => exact True.intro
      | full data => exact insertTask_disciplined _

theorem planTask_disciplined (hw : 1 ≤ db.workerCount ∧ db.workerCount ≤ 255) (faults : TaskFaults) (plan : Plan) :
    (planTask db id job faults plan).Disciplined (Resource.Exists db.workerCount) := by
  cases plan with
  | zero => exact True.intro
  | delta baseKey data => exact appendTask_disciplined hw _ _
  | full data =>
    unfold planTask
    dsimp only
    split
    · exact True.intro
    · exact appendTask_disciplined hw _ _

/-- **A task takes locks that exist**, and shares them to read only. -/
theorem processOne_disciplined (hw : 1 ≤ db.workerCount ∧ db.workerCount ≤ 255) (faults : TaskFaults) :
    (processOne z db id job faults).Disciplined (Resource.Exists db.workerCount) := by
  unfold processOne
  dsimp only
  split
  · exact ⟨shard_lt job.pa, fun _ => ⟨fun _ => rfl, fun _ => True.intro⟩, fun _ => planTask_disciplined hw faults _⟩
  · exact planTask_disciplined hw faults _

end Tasks

/-! ## Atomic steps -/

/-- What is left to do of a task of `runPass`. -/
def taskThread (z : Zstd) (db : AppendOnlyDb) (id : UInt32) (job : Job) (faults : TaskFaults) : Task → PageTask
  | .start => processOne z db id job faults
  | .append plan => appendTask db id job faults.append plan
  | .insert r => insertTask db id job r
  | .done r => .done (.ok r)
  | .failed e => .done (.error e)

/-- The shadow that the shards make up. -/
def shadowOf (st : ∀ r : Resource, r.State) : Shadow := fun pa => st (.shard (Shadow.shard pa)) pa

theorem shadowOf_blob (st : ∀ r : Resource, r.State) (w : UInt8) (blob : BlobFile) :
    shadowOf (Function.update st (.blob w) blob) = shadowOf st := by
  funext pa
  unfold shadowOf
  rw [Function.update_of_ne (by nofun)]

theorem blobs_update (st : ∀ r : Resource, r.State) (w : UInt8) (blob : BlobFile) :
    (fun w' => Function.update st (.blob w) blob (.blob w')) = Function.update (fun w' => st (.blob w')) w blob := by
  funext w'
  by_cases hw : w' = w
  · subst hw
    rw [Function.update_self, Function.update_self]
  · rw [Function.update_of_ne hw, Function.update_of_ne fun he => hw (Resource.blob.inj he)]

theorem blobs_shard (st : ∀ r : Resource, r.State) (idx : UInt64) (shadow : Shadow) :
    (fun w => Function.update st (.shard idx) shadow (.blob w)) = fun w => st (.blob w) := by
  funext w
  rw [Function.update_of_ne (by nofun)]

/-- What an insertion leaves at an address depends on what was there. -/
theorem insertIfNewer_congr {shadow shadow' : Shadow} {pa pa' key : UInt64} {page : Page} (hpa : shadow pa = shadow' pa)
    (hpa' : shadow pa' = shadow' pa') : shadow.insertIfNewer pa key page pa' = shadow'.insertIfNewer pa key page pa' := by
  have hinstalls : shadow.installs pa key = shadow'.installs pa key := by
    unfold Shadow.installs
    rw [hpa]
  unfold Shadow.insertIfNewer
  rw [hinstalls]
  split
  · rw [Function.update_apply, Function.update_apply, hpa']
  · exact hpa'

/-- **An insertion into its shard** is an insertion into the shadow. -/
theorem shadowOf_insert (st : ∀ r : Resource, r.State) (pa key : UInt64) (page : Page) :
    shadowOf (Function.update st (.shard (Shadow.shard pa)) ((st (.shard (Shadow.shard pa)) : Shadow).insertIfNewer pa key page)) =
      (shadowOf st).insertIfNewer pa key page := by
  funext pa'
  by_cases hidx : Shadow.shard pa' = Shadow.shard pa
  · have hat : ∀ pa', Shadow.shard pa' = Shadow.shard pa →
        (st (.shard (Shadow.shard pa)) : Shadow) pa' = shadowOf st pa' := fun pa' h => by
      unfold shadowOf
      rw [h]
    rw [← insertIfNewer_congr (hat pa rfl) (hat pa' hidx)]
    unfold shadowOf
    rw [hidx, Function.update_self]
  · have hne : pa' ≠ pa := fun h => hidx (by rw [h])
    rw [insertIfNewer_ne hne]
    unfold shadowOf
    rw [Function.update_of_ne fun he => hidx (Resource.shard.inj he)]

/-- A pass and the threads that do it. -/
structure PassAgree (z : Zstd) (db : AppendOnlyDb) (id : UInt32) (jobs : List Job) (faults : Fin jobs.length → TaskFaults)
    (p : Pass) (a : Atomic (Fin jobs.length) Resource.State (Res ChunkRecord)) : Prop where
  shadow : p.shadow = shadowOf a.st
  blobFiles : p.blobFiles = fun w => a.st (.blob w)
  tasks : ∀ k, ∃ task, p.tasks[k.val]? = some task ∧ a.threads k = taskThread z db id (jobs.get k) (faults k) task

section Run

variable {z : Zstd} {db : AppendOnlyDb} {id : UInt32} {jobs : List Job} {faults : Fin jobs.length → TaskFaults} {p : Pass}
  {a a' : Atomic (Fin jobs.length) Resource.State (Res ChunkRecord)}

theorem agree_start : PassAgree z db id jobs faults ⟨db.shadow, db.blobFiles, jobs.map fun _ => .start⟩
    (lockedPass z db id jobs faults) where
  shadow := by
    funext pa
    exact (if_pos rfl).symm
  blobFiles := rfl
  tasks k := ⟨.start, by rw [List.getElem?_map, List.getElem?_eq_getElem k.isLt, Option.map_some], rfl⟩

/-- A thread that has taken a step, and the task it is. -/
theorem PassAgree.tasks_set (h : PassAgree z db id jobs faults p a) (k : Fin jobs.length) {th : PageTask} {task : Task}
    (hth : th = taskThread z db id (jobs.get k) (faults k) task) (k' : Fin jobs.length) :
    ∃ task', (p.tasks.set k.val task)[k'.val]? = some task' ∧
      Function.update a.threads k th k' = taskThread z db id (jobs.get k') (faults k') task' := by
  by_cases hk : k' = k
  · subst hk
    obtain ⟨old, hold, -⟩ := h.tasks k'
    exact ⟨task, List.getElem?_set_self (List.getElem?_eq_some_iff.1 hold).1, by rw [Function.update_self]; exact hth⟩
  · obtain ⟨task', htask', hthread⟩ := h.tasks k'
    refine ⟨task', ?_, by rw [Function.update_of_ne hk]; exact hthread⟩
    rw [List.getElem?_set_ne fun he => hk (Fin.ext he.symm)]
    exact htask'

/-- A step of `runPass`, task by task. -/
theorem PassAgree.of_stepTask (h : PassAgree z db id jobs faults p a) (k : Fin jobs.length) {f : Fault} {task task' : Task}
    {th : PageTask} {st : ∀ r : Resource, r.State} (htask : p.tasks[k.val]? = some task)
    (hstep : stepTask z db id (jobs.get k) f p.shadow p.blobFiles task = (shadowOf st, fun w => st (.blob w), task'))
    (hth : th = taskThread z db id (jobs.get k) (faults k) task') :
    PassAgree z db id jobs faults (p.step z db id jobs (k.val, f)) ⟨Function.update a.threads k th, st⟩ := by
  have hjob : jobs[k.val]? = some (jobs.get k) := List.getElem?_eq_getElem k.isLt
  have hrun : p.step z db id jobs (k.val, f) = ⟨shadowOf st, fun w => st (.blob w), p.tasks.set k.val task'⟩ := by
    unfold Pass.step
    dsimp only
    rw [hjob, htask]
    dsimp only
    rw [hstep]
  rw [hrun]
  exact ⟨rfl, rfl, h.tasks_set k hth⟩

/-- Without the shadow a page is planned the same whatever is in it. -/
theorem planOne_unshadowed {shadow shadow' : Shadow} {t : ℕ} {u : Bool} {pa : UInt64} {page : Page}
    (h : ¬ isAllZero page ∧ u → shadow pa = shadow' pa) :
    planOne z shadow t u pa page = planOne z shadow' t u pa page := by
  unfold planOne
  split
  · rfl
  · rename_i hzero
    split
    · rename_i hu
      rw [h ⟨hzero, hu⟩]
    · rfl

/-- The task after its plan. -/
def planned (id : UInt32) (job : Job) (faults : TaskFaults) : Plan → Task
  | .zero => .done (ChunkRecord.newZero (encodeKey job.pa id))
  | .delta baseKey data => .append (.delta baseKey data)
  | .full data =>
    if faults.compress.isSome then .failed (.err ⟨.other, "zstd compression failed"⟩) else .append (.full data)

theorem planTask_eq (job : Job) (f : TaskFaults) (plan : Plan) :
    planTask db id job f plan = taskThread z db id job f (planned id job f plan) := by
  cases plan with
  | zero => rfl
  | delta baseKey data => rfl
  | full data =>
    unfold planTask planned
    dsimp only
    split
    · rfl
    · rfl

theorem stepTask_start (job : Job) (f : TaskFaults) (shadow : Shadow) (blobFiles : UInt8 → BlobFile) :
    stepTask z db id job f.compress shadow blobFiles .start = (shadow, blobFiles,
      planned id job f (planOne z shadow db.deltaThreshold.toNat db.useShadow job.pa job.page)) := by
  unfold stepTask
  dsimp only
  cases planOne z shadow db.deltaThreshold.toNat db.useShadow job.pa job.page with
  | zero => rfl
  | delta baseKey data => rfl
  | full data =>
    unfold planned
    dsimp only
    split
    · rfl
    · rfl

/-- The task after its append. -/
def appended (db : AppendOnlyDb) (id : UInt32) (job : Job) (plan : Plan) : Res (UInt64 × UInt32) → Task
  | .error e => .failed e
  | .ok (offset, len) =>
    let r := plan.record (encodeKey job.pa id) (workerOf db.workerCount job.pa) offset len
    match plan with
    | .full _ => .insert r
    | _ => .done r

theorem appendTask_eq (job : Job) (f : TaskFaults) (plan : Plan) : appendTask db id job f.append plan =
    .lock (.blob (workerOf db.workerCount job.pa)) .exclusive (appendSection f.append plan.data) fun r =>
      taskThread z db id job f (appended db id job plan r) := by
  unfold appendTask
  dsimp only
  congr 1
  funext r
  cases r with
  | error e => rfl
  | ok range => cases plan <;> rfl

theorem stepTask_append (job : Job) (f : Fault) (shadow : Shadow) (blobFiles : UInt8 → BlobFile) (plan : Plan) :
    stepTask z db id job f shadow blobFiles (.append plan) = (shadow,
      Function.update blobFiles (workerOf db.workerCount job.pa)
        (appendBlob f (blobFiles (workerOf db.workerCount job.pa)) plan.data).1,
      appended db id job plan (appendBlob f (blobFiles (workerOf db.workerCount job.pa)) plan.data).2) := by
  unfold stepTask
  dsimp only
  cases (appendBlob f (blobFiles (workerOf db.workerCount job.pa)) plan.data).2 with
  | error e => rfl
  | ok range => cases plan <;> rfl

/-- A thread goes on without a lock: its task plans or ends without the shadow. -/
theorem PassAgree.pause (h : PassAgree z db id jobs faults p a) {k : Fin jobs.length} {next : PageTask}
    (hk : a.threads k = .pause next) :
    ∃ e, PassAgree z db id jobs faults (p.step z db id jobs e) ⟨Function.update a.threads k next, a.st⟩ := by
  obtain ⟨task, htask, hth⟩ := h.tasks k
  rw [hth] at hk
  cases task with
  | start =>
    -- a zero page, or no shadow: the plan does not depend on what the shadow holds
    change processOne z db id (jobs.get k) (faults k) = _ at hk
    unfold processOne at hk
    dsimp only at hk
    split at hk
    · cases hk
    · rename_i hcond
      obtain rfl := Thread.pause.inj hk
      refine ⟨_, h.of_stepTask (f := (faults k).compress) k htask ?_ (planTask_eq _ _ _)⟩
      rw [stepTask_start, ← h.shadow, h.blobFiles, planOne_unshadowed fun hc => absurd hc hcond]
  | append plan => cases hk
  | insert r =>
    change insertTask db id (jobs.get k) r = _ at hk
    unfold insertTask at hk
    split at hk
    · cases hk
    · rename_i hu
      obtain rfl := Thread.pause.inj hk
      refine ⟨_, h.of_stepTask (f := none) k htask ?_ (rfl : _ = taskThread z db id _ _ (.done r))⟩
      unfold stepTask
      dsimp only
      rw [if_neg hu, ← h.shadow, h.blobFiles]
  | done r => cases hk
  | failed e => cases hk

/-- A thread does a section: its task plans with its shard, appends to its worker's file or
inserts into its shard. -/
theorem PassAgree.lock (h : PassAgree z db id jobs faults p a) {k : Fin jobs.length} {ρ : Type} {i : Resource} {m : Mode}
    {body : Body i.State ρ} {next : ρ → PageTask} (hk : a.threads k = .lock i m body next) :
    ∃ e, PassAgree z db id jobs faults (p.step z db id jobs e)
      ⟨Function.update a.threads k (next (body.run (a.st i)).2), Function.update a.st i (body.run (a.st i)).1⟩ := by
  obtain ⟨task, htask, hth⟩ := h.tasks k
  rw [hth] at hk
  cases task with
  | start =>
    change processOne z db id (jobs.get k) (faults k) = _ at hk
    unfold processOne at hk
    dsimp only at hk
    split at hk
    · cases hk
      rw [run_get, Function.update_eq_self]
      refine ⟨_, h.of_stepTask (f := (faults k).compress) k htask ?_ (planTask_eq _ _ _)⟩
      rw [stepTask_start, ← h.shadow, h.blobFiles]
      -- the section sees its shard only, which is where the page's entry is
      have hsame : p.shadow (jobs.get k).pa = (a.st (.shard (Shadow.shard (jobs.get k).pa)) : Shadow) (jobs.get k).pa := by
        rw [h.shadow]
        rfl
      have hplan : planOne z p.shadow db.deltaThreshold.toNat db.useShadow (jobs.get k).pa (jobs.get k).page =
          planOne z (fun _ => (a.st (.shard (Shadow.shard (jobs.get k).pa)) : Shadow) (jobs.get k).pa)
            db.deltaThreshold.toNat db.useShadow (jobs.get k).pa (jobs.get k).page := planOne_congr hsame
      rw [hplan]
    · cases hk
  | append plan =>
    change appendTask db id (jobs.get k) (faults k).append plan = _ at hk
    rw [appendTask_eq (z := z)] at hk
    cases hk
    rw [run_appendSection]
    have hblob : p.blobFiles (workerOf db.workerCount (jobs.get k).pa) =
        a.st (.blob (workerOf db.workerCount (jobs.get k).pa)) := by rw [h.blobFiles]
    refine ⟨_, h.of_stepTask (f := (faults k).append) k htask ?_ rfl⟩
    rw [stepTask_append, hblob, shadowOf_blob, blobs_update, ← h.shadow, h.blobFiles]
  | insert r =>
    change insertTask db id (jobs.get k) r = _ at hk
    unfold insertTask at hk
    split at hk
    · rename_i hu
      cases hk
      rw [run_insertSection]
      refine ⟨_, h.of_stepTask (f := none) k htask ?_ (rfl : _ = taskThread z db id _ _ (.done r))⟩
      unfold stepTask
      dsimp only
      rw [if_pos hu, shadowOf_insert, blobs_shard, ← h.shadow, h.blobFiles]
    · cases hk
  | done r => cases hk
  | failed e => cases hk

/-- **One step of a thread is one step of its task.** -/
theorem PassAgree.step (h : PassAgree z db id jobs faults p a) (hstep : AtomicStep a a') :
    ∃ e, PassAgree z db id jobs faults (p.step z db id jobs e) a' := by
  cases hstep with
  | pause hk => exact h.pause hk
  | lock hk => exact h.lock hk

/-- **A run of whole sections is a schedule.** -/
theorem exists_schedule (hrun : AtomicRun (lockedPass z db id jobs faults) a) :
    ∃ schedule, PassAgree z db id jobs faults (runPass z db id jobs schedule) a := by
  induction hrun with
  | refl => exact ⟨[], agree_start⟩
  | tail _ hstep ih =>
    obtain ⟨schedule, hagree⟩ := ih
    obtain ⟨e, hagree⟩ := hagree.step hstep
    refine ⟨schedule ++ [e], ?_⟩
    unfold runPass
    rw [List.foldl_concat]
    exact hagree

/-- How a task ends. -/
def Task.ofResult : Res ChunkRecord → Task
  | .ok r => .done r
  | .error e => .failed e

theorem taskThread_done {job : Job} {f : TaskFaults} {task : Task} {r : Res ChunkRecord} :
    taskThread z db id job f task = .done r ↔ task = Task.ofResult r := by
  constructor
  · intro h
    cases task with
    | start =>
      change processOne z db id job f = _ at h
      unfold processOne at h
      dsimp only at h
      split at h
      · cases h
      · cases h
    | append plan => cases h
    | insert r' =>
      change insertTask db id job r' = _ at h
      unfold insertTask at h
      split at h
      · cases h
      · cases h
    | done r' =>
      cases h
      rfl
    | failed e =>
      cases h
      rfl
  · rintro rfl
    cases r with
    | ok r => rfl
    | error e => rfl

/-- **A pass under locks.** Whatever order the threads take their steps in, they never block
each other for good; they lock only what there is, and a writer is alone with what it locks.
Whenever no thread is inside a section, shadow, files and finished pages are as some schedule
of `runPass` leaves them. -/
theorem lockedPass_refines (hw : 1 ≤ db.workerCount ∧ db.workerCount ≤ 255)
    {c : Config (Fin jobs.length) Resource.State (Res ChunkRecord)}
    (hrun : Locks.Run (lockedPass z db id jobs faults).config c) :
    (∃ c', Locks.Run c c' ∧ ∀ k, ∃ r, c'.threads k = .idle (.done r)) ∧
    (∀ k resource m, (c.threads k).holds = some (resource, m) → resource.Exists db.workerCount ∧
      (m = .exclusive → ∀ k' m', (c.threads k').holds = some (resource, m') → k' = k)) ∧
    ((∀ k, (c.threads k).holds = none) → ∃ schedule, (runPass z db id jobs schedule).shadow = shadowOf c.st ∧
      (∀ w, (runPass z db id jobs schedule).blobFiles w = c.st (.blob w)) ∧
      ∀ (k : Fin jobs.length) r, c.threads k = .idle (.done r) ↔
        (runPass z db id jobs schedule).tasks[k.val]? = some (Task.ofResult r)) := by
  have hdisciplined : ∀ k, ((lockedPass z db id jobs faults).threads k).Disciplined (Resource.Exists db.workerCount) :=
    fun k => processOne_disciplined hw (faults k)
  have hok := Locks.Run.ok hrun (ok_config hdisciplined)
  refine ⟨exists_done c, fun k resource m hk => ⟨?_, ?_⟩, fun hquiet => ?_⟩
  · have heach := hok.each k
    cases hs : c.threads k with
    | idle th =>
      rw [hs] at hk
      cases hk
    | inside i m' rest next =>
      rw [hs] at hk heach
      obtain ⟨rfl, rfl⟩ := Prod.mk.inj (Option.some.inj hk)
      exact heach.1
  · rintro rfl k' m' hk'
    exact hok.alone k k' resource m' hk hk'
  · obtain ⟨a, harun, hsim⟩ := Run.atomic hrun hdisciplined
    obtain rfl := hsim.quiet hquiet
    obtain ⟨schedule, hagree⟩ := exists_schedule harun
    refine ⟨schedule, hagree.shadow, fun w => congrFun hagree.blobFiles w, fun k r => ?_⟩
    obtain ⟨task, htask, hth⟩ := hagree.tasks k
    change Status.idle (a.threads k) = .idle (.done r) ↔ _
    rw [htask, hth, Status.idle.injEq, taskThread_done, Option.some.injEq]

end Run

/-- Two pages on a new database, saved to the end. -/
theorem lockedPass_refines_noise : ∃ (db : AppendOnlyDb) (c : Config (Fin 2) Resource.State (Res ChunkRecord)),
    AppendOnlyDb.open Dir.empty 4 512 true = .ok db ∧ (∀ k, ∃ r, c.threads k = .idle (.done r)) ∧
    ∃ schedule, (runPass Zstd.raw db 1 [⟨0, 0, noise 1⟩, ⟨1, 1, noise 2⟩] schedule).shadow = shadowOf c.st := by
  obtain ⟨db, hopen⟩ : ∃ db, AppendOnlyDb.open Dir.empty 4 512 true = .ok db :=
    open_completes (by decide : 1 ≤ 4 ∧ 4 ≤ 255) 512 true (.inl rfl)
  have hw : 1 ≤ db.workerCount ∧ db.workerCount ≤ 255 := by
    obtain ⟨-, -, -, -, -, -, hn, -⟩ := open_inv hopen
    rw [hn]
    decide
  have hstart : Locks.Run (lockedPass Zstd.raw db 1 [⟨0, 0, noise 1⟩, ⟨1, 1, noise 2⟩] fun _ => ⟨none, none⟩).config
    (lockedPass Zstd.raw db 1 [⟨0, 0, noise 1⟩, ⟨1, 1, noise 2⟩] fun _ => ⟨none, none⟩).config := .refl
  obtain ⟨⟨c, hrun, hdone⟩, -, -⟩ := lockedPass_refines hw hstart
  obtain ⟨-, -, hquiet⟩ := lockedPass_refines hw hrun
  obtain ⟨schedule, hshadow, -⟩ := hquiet fun k => by
    obtain ⟨r, hr⟩ := hdone k
    rw [hr]
    rfl
  exact ⟨db, c, hopen, hdone, schedule, hshadow⟩

end Bxdb
