import Mathlib.Data.List.Infix
import Bxdb.Proof.Jobs

/-!
# The parallel pass of a save

Any order of the tasks' steps, with failures anywhere.

* `appendBlob_ok`, `appendBlob_err`: an append that succeeds puts its data at the returned
  range of the file's logical stream; one that fails leaves the stream as it was.
* `Moves`: what one step of one task can do; `Moves.spec`: what it keeps.
* `runPass_inv`: **in every state of the pass, each finished task's record names a range
  holding the data its page was encoded to**, encoded from the shadow the save started
  with, because no other task touches the shadow entry of its address.
* `outcome_ok`: a pass that ends well returns the records in slot order.
-/

namespace Bxdb

open Bytes Buffered ChunkRecord

/-! ## Blob files -/

/-- The writer appends to its file, and the recorded offset is the length of its stream. -/
structure BlobOk (b : BlobFile) : Prop where
  ok : b.writer.Ok
  cap : b.writer.cap = blobBufCap
  limit : b.writer.file.limit = some maxFileLen
  offset : b.offset.toNat = b.writer.stream.length

/-- The logical content of a worker file. -/
abbrev BlobFile.stream (b : BlobFile) : Bytes := b.writer.stream

theorem openAppend_ok {bytes : Bytes} (h : bytes.length ≤ maxFileLen) : BlobOk (BlobFile.openAppend bytes) where
  ok := BufWriter.new_ok (RawFile.appends_of_append rfl) fun m hm => by
    simp only [Option.some.injEq] at hm
    rw [← hm]; exact h
  cap := rfl
  limit := rfl
  offset := by
    have hmax : maxFileLen = 2 ^ 63 - 1 := rfl
    simp only [BlobFile.openAppend, BufWriter.new_stream]
    exact UInt64.toNat_ofNat_of_lt' (show bytes.length < 2 ^ 64 by omega)

@[simp] theorem openAppend_stream (bytes : Bytes) : (BlobFile.openAppend bytes).stream = bytes :=
  BufWriter.new_stream _ _

section Append

variable {b : BlobFile} {fault : Fault} {data : Bytes}

theorem appendBlob_growth (h : BlobOk b) (hok : (b.writer.writeAll fault data).2 = true) :
    (b.writer.writeAll fault data).1.stream = b.stream ++ data ∧ b.stream.length + data.length < 2 ^ 64 := by
  have hs := BufWriter.writeAll_stream h.ok hok
  refine ⟨hs, ?_⟩
  have h1 := (BufWriter.writeAll_ok h.ok fault data).within maxFileLen (by rw [BufWriter.writeAll_limit]; exact h.limit)
  have h2 := (BufWriter.writeAll_ok h.ok fault data).room
  rw [BufWriter.writeAll_cap, h.cap] at h2
  have hlen := congrArg List.length hs
  simp only [BufWriter.stream, List.length_append] at hlen
  have hcap : blobBufCap = 8192 := rfl
  have hmax : maxFileLen = 2 ^ 63 - 1 := rfl
  simp only [BlobFile.stream, BufWriter.stream, List.length_append]
  omega

/-- **An append that returns a range has put its data there.** -/
theorem appendBlob_ok (h : BlobOk b) {off : UInt64} {len : UInt32}
    (hr : (appendBlob fault b data).2 = .ok (off, len)) :
    BlobOk (appendBlob fault b data).1 ∧ (appendBlob fault b data).1.stream = b.stream ++ data ∧
      HoldsAt (appendBlob fault b data).1.stream off len data := by
  unfold appendBlob at hr ⊢
  split at hr
  · rename_i hok
    obtain ⟨hs, hlt⟩ := appendBlob_growth h hok
    simp only [hok, if_true]
    dsimp only at hr
    split at hr
    · rename_i h32
      simp only [Except.ok.injEq, Prod.mk.injEq] at hr
      obtain ⟨rfl, rfl⟩ := hr
      have hoff : (b.offset + UInt64.ofNat data.length).toNat = b.stream.length + data.length := by
        rw [toNat_add_ofNat (by rw [h.offset]; exact hlt), h.offset]
      refine ⟨⟨BufWriter.writeAll_ok h.ok _ _, by simp [h.cap], by simp [h.limit], ?_⟩, hs, ?_⟩
      · rw [hoff, hs, List.length_append]
      · have hlen : (UInt32.ofNat data.length).toNat = data.length := UInt32.toNat_ofNat_of_lt' h32
        have hst : BlobFile.stream ⟨(b.writer.writeAll fault data).1, b.offset + UInt64.ofNat data.length⟩ =
            b.stream ++ data := hs
        refine ⟨hlen, ?_, ?_, ?_⟩
        · rw [hst, h.offset, List.length_append]
        · rw [h.offset]; exact hlt
        · rw [hst, h.offset]; exact slice_append_right _ _
    · simp [ioErr] at hr
  · simp [ioErr] at hr

/-- **A failed append of less than the writer's capacity leaves the stream alone.** -/
theorem appendBlob_err (h : BlobOk b) (hd : data.length < blobBufCap) {e : Failure}
    (hr : (appendBlob fault b data).2 = .error e) :
    BlobOk (appendBlob fault b data).1 ∧ (appendBlob fault b data).1.stream = b.stream := by
  unfold appendBlob at hr ⊢
  split at hr
  · -- data this short always fits a 32-bit length
    have h32 : data.length < 2 ^ 32 := by
      have : blobBufCap = 8192 := rfl
      omega
    dsimp only at hr
    rw [if_pos h32] at hr
    simp at hr
  · rename_i hfail
    rw [if_neg hfail]
    have hs := BufWriter.writeAll_stream_err h.ok (by rw [h.cap]; exact hd) (by simpa using hfail)
    have hst : BlobFile.stream { b with writer := (b.writer.writeAll fault data).1 } = b.stream := hs
    refine ⟨⟨BufWriter.writeAll_ok h.ok _ _, by simp [h.cap], by simp [h.limit], ?_⟩, hst⟩
    exact h.offset.trans (congrArg List.length hst.symm)

end Append

/-! ## One step of one task -/

/-- A patch has at most one entry for each word. -/
theorem length_computeXorPatch (page base : Page) : (computeXorPatch page base).length ≤ pageWords := by
  have := List.length_filterMap_le (fun i =>
    let x := wordAt page i ^^^ wordAt base i
    if x ≠ 0 then some (UInt16.ofNat i, x) else none) (List.range pageWords)
  rwa [List.length_range] at this

section Step

variable (z : Zstd) (db : AppendOnlyDb) (id : UInt32)

/-- How a save that starts on `db` encodes a page. -/
def planOf (job : Job) : Plan :=
  planOne z db.shadow db.deltaThreshold.toNat db.useShadow job.pa job.page

/-- Where a task goes from its append: a Full record waits for its shadow entry. -/
def Plan.next (plan : Plan) (rec : ChunkRecord) : Task :=
  match plan with
  | .full _ => .insert rec
  | _ => .done rec

/-- **What one step of a task can do.** -/
inductive Moves (job : Job) (fault : Fault) (shadow : Shadow) (blobFiles : UInt8 → BlobFile) :
    Task → Shadow × (UInt8 → BlobFile) × Task → Prop
  | zero (hp : planOne z shadow db.deltaThreshold.toNat db.useShadow job.pa job.page = .zero) :
      Moves job fault shadow blobFiles .start
        (shadow, blobFiles, .done (ChunkRecord.newZero (encodeKey job.pa id)))
  | encode {plan : Plan} (hp : planOne z shadow db.deltaThreshold.toNat db.useShadow job.pa job.page = plan)
      (hne : plan ≠ .zero) : Moves job fault shadow blobFiles .start (shadow, blobFiles, .append plan)
  | refuse {e : Failure} (hf : fault.isSome = true) :
      Moves job fault shadow blobFiles .start (shadow, blobFiles, .failed e)
  | fail {plan : Plan} {e : Failure}
      (hr : (appendBlob fault (blobFiles (workerOf db.workerCount job.pa)) plan.data).2 = .error e) :
      Moves job fault shadow blobFiles (.append plan) (shadow, Function.update blobFiles (workerOf db.workerCount job.pa)
        (appendBlob fault (blobFiles (workerOf db.workerCount job.pa)) plan.data).1, .failed e)
  | append {plan : Plan} {off : UInt64} {len : UInt32}
      (hr : (appendBlob fault (blobFiles (workerOf db.workerCount job.pa)) plan.data).2 = .ok (off, len)) :
      Moves job fault shadow blobFiles (.append plan) (shadow, Function.update blobFiles (workerOf db.workerCount job.pa)
        (appendBlob fault (blobFiles (workerOf db.workerCount job.pa)) plan.data).1,
        plan.next (plan.record (encodeKey job.pa id) (workerOf db.workerCount job.pa) off len))
  | insert {rec : ChunkRecord} : Moves job fault shadow blobFiles (.insert rec)
      (if db.useShadow then shadow.insertIfNewer job.pa (encodeKey job.pa id) job.page else shadow, blobFiles,
        .done rec)
  | done {rec : ChunkRecord} : Moves job fault shadow blobFiles (.done rec) (shadow, blobFiles, .done rec)
  | failed {e : Failure} : Moves job fault shadow blobFiles (.failed e) (shadow, blobFiles, .failed e)

/-- The shadow entry a page has once its task is done. -/
def shadowAfter (job : Job) : Option (UInt64 × Page) :=
  match planOf z db job with
  | .full _ =>
    if db.useShadow then db.shadow.insertIfNewer job.pa (encodeKey job.pa id) job.page job.pa
    else db.shadow job.pa
  | _ => db.shadow job.pa

/-- The record names a range that holds what the page was encoded to. -/
def Recorded (blobFiles : UInt8 → BlobFile) (job : Job) (rec : ChunkRecord) : Prop :=
  ∃ off len, rec = (planOf z db job).record (encodeKey job.pa id) (workerOf db.workerCount job.pa) off len ∧
    (planOf z db job ≠ .zero →
      HoldsAt (blobFiles (workerOf db.workerCount job.pa)).stream off len (planOf z db job).data)

/-- What holds of a task at each of its points. -/
def TaskInv (shadow : Shadow) (blobFiles : UInt8 → BlobFile) (job : Job) : Task → Prop
  | .start => shadow job.pa = db.shadow job.pa
  | .append plan => plan = planOf z db job ∧ plan ≠ .zero ∧ shadow job.pa = db.shadow job.pa
  | .insert rec => (∃ data, planOf z db job = .full data) ∧ Recorded z db id blobFiles job rec ∧
      shadow job.pa = db.shadow job.pa
  | .done rec => Recorded z db id blobFiles job rec ∧ shadow job.pa = shadowAfter z db id job
  | .failed _ => shadow job.pa = db.shadow job.pa

/-- What one step of a task does: files stay well formed and grow, only the task's own
shadow entry can change, and the task's invariant holds of its next point. -/
structure StepSpec (job : Job) (shadow : Shadow) (blobFiles : UInt8 → BlobFile)
    (r : Shadow × (UInt8 → BlobFile) × Task) : Prop where
  blobs : ∀ w, BlobOk (r.2.1 w)
  grow : ∀ w, (blobFiles w).stream <+: (r.2.1 w).stream
  shadow : ∀ pa, pa ≠ job.pa → r.1 pa = shadow pa
  inv : TaskInv z db id r.1 r.2.1 job r.2.2

variable {z db id}

/-- A zero page is not stored. -/
theorem planOf_zero {job : Job} (hpage : job.page = Page.zero) : planOf z db job = .zero := by
  unfold planOf planOne
  rw [if_pos (isAllZero_iff.2 hpage)]

theorem planOf_data_small (hz : z.Small) (job : Job) : (planOf z db job).data.length < blobBufCap := by
  have hdelta : ∀ base, (encodeDeltaPatch (computeXorPatch job.page base)).length < blobBufCap := by
    intro base
    have := length_computeXorPatch job.page base
    rw [length_encodeDeltaPatch]
    have h1 : pageWords = 512 := by norm_num [pageWords, pageSize]
    have h2 : blobBufCap = 8192 := rfl
    omega
  unfold planOf planOne
  split
  · simp [Plan.data, blobBufCap]
  · split
    · split
      · dsimp only
        split
        · simp only [Plan.data]; exact hdelta _
        · simp only [Plan.data]; exact hz _
      · simp only [Plan.data]; exact hz _
    · simp only [Plan.data]; exact hz _

/-- A range stays where it is while streams grow. -/
theorem Recorded.mono {blobs blobs' : UInt8 → BlobFile} {job : Job} {rec : ChunkRecord}
    (h : Recorded z db id blobs job rec) (hg : ∀ w, (blobs w).stream <+: (blobs' w).stream) :
    Recorded z db id blobs' job rec := by
  obtain ⟨off, len, h1, h2⟩ := h
  exact ⟨off, len, h1, fun hne => (h2 hne).of_isPrefix (hg _)⟩

theorem TaskInv.mono {shadow shadow' : Shadow} {blobs blobs' : UInt8 → BlobFile} {job : Job} {task : Task}
    (h : TaskInv z db id shadow blobs job task) (hs : shadow' job.pa = shadow job.pa)
    (hg : ∀ w, (blobs w).stream <+: (blobs' w).stream) : TaskInv z db id shadow' blobs' job task := by
  cases task with
  | start => exact hs.trans h
  | append plan => exact ⟨h.1, h.2.1, hs.trans h.2.2⟩
  | insert rec => exact ⟨h.1, h.2.1.mono hg, hs.trans h.2.2⟩
  | done rec => exact ⟨h.1.mono hg, hs.trans h.2⟩
  | failed e => exact hs.trans h

/-- The plan depends only on the shadow entry of the page's address. -/
theorem planOne_congr {shadow shadow' : Shadow} {threshold : ℕ} {useShadow : Bool} {pa : UInt64} {page : Page}
    (h : shadow pa = shadow' pa) :
    planOne z shadow threshold useShadow pa page = planOne z shadow' threshold useShadow pa page := by
  unfold planOne; rw [h]

theorem insertIfNewer_ne {shadow : Shadow} {pa pa' key : UInt64} {page : Page} (h : pa' ≠ pa) :
    shadow.insertIfNewer pa key page pa' = shadow pa' := by
  unfold Shadow.insertIfNewer
  split
  · exact Function.update_of_ne h _ _
  · rfl

theorem stepTask_moves (job : Job) (fault : Fault) (shadow : Shadow) (blobFiles : UInt8 → BlobFile) (task : Task) :
    Moves z db id job fault shadow blobFiles task (stepTask z db id job fault shadow blobFiles task) := by
  cases task with
  | start =>
    unfold stepTask
    dsimp only
    cases hp : planOne z shadow db.deltaThreshold.toNat db.useShadow job.pa job.page with
    | zero => exact .zero hp
    | delta baseKey data => exact .encode hp (by simp)
    | full data =>
      dsimp only
      split
      · rename_i hf
        exact .refuse hf
      · exact .encode hp (by simp)
  | append plan =>
    unfold stepTask
    dsimp only
    -- only a Full page goes on to the shadow
    cases hr : (appendBlob fault (blobFiles (workerOf db.workerCount job.pa)) plan.data).2 with
    | error e => exact .fail hr
    | ok range =>
      cases plan with
      | zero => exact .append hr
      | delta baseKey data => exact .append hr
      | full data => exact .append hr
  | insert rec => exact .insert
  | done rec => exact .done
  | failed e => exact .failed

/-- Only a Full record changes the shadow. -/
theorem shadowAfter_eq {job : Job} (h : ∀ data, planOf z db job ≠ .full data) :
    shadowAfter z db id job = db.shadow job.pa := by
  unfold shadowAfter
  split
  · rename_i data hp
    exact absurd hp (h data)
  · rfl

/-- The entry is inserted as if no other task had run. -/
theorem insert_shadowAfter {job : Job} {data : Bytes} {shadow : Shadow} (hp : planOf z db job = .full data)
    (hsh : shadow job.pa = db.shadow job.pa) :
    (if db.useShadow then shadow.insertIfNewer job.pa (encodeKey job.pa id) job.page else shadow) job.pa =
      shadowAfter z db id job := by
  unfold shadowAfter
  rw [hp]
  dsimp only
  split
  · have hinst : shadow.installs job.pa (encodeKey job.pa id) = db.shadow.installs job.pa (encodeKey job.pa id) := by
      unfold Shadow.installs
      rw [hsh]
    unfold Shadow.insertIfNewer
    rw [hinst]
    split
    · rw [Function.update_self, Function.update_self]
    · exact hsh
  · exact hsh

theorem blobOk_update {blobFiles : UInt8 → BlobFile} {w : UInt8} {b : BlobFile} (hb : ∀ w, BlobOk (blobFiles w))
    (h : BlobOk b) : ∀ v, BlobOk (Function.update blobFiles w b v) :=
  (Function.forall_update_iff blobFiles fun _ b => BlobOk b).2 ⟨h, fun v _ => hb v⟩

theorem grow_update {blobFiles : UInt8 → BlobFile} {w : UInt8} {b : BlobFile}
    (h : (blobFiles w).stream <+: b.stream) : ∀ v, (blobFiles v).stream <+: (Function.update blobFiles w b v).stream :=
  (Function.forall_update_iff blobFiles fun v b => (blobFiles v).stream <+: b.stream).2
    ⟨h, fun _ _ => List.prefix_refl _⟩

section Spec

variable {job : Job} {fault : Fault} {shadow : Shadow} {blobFiles : UInt8 → BlobFile} {plan : Plan}

theorem spec_fail {e : Failure} (hb : ∀ w, BlobOk (blobFiles w))
    (ht : TaskInv z db id shadow blobFiles job (.append plan)) (hd : plan.data.length < blobBufCap)
    (hr : (appendBlob fault (blobFiles (workerOf db.workerCount job.pa)) plan.data).2 = .error e) :
    StepSpec z db id job shadow blobFiles (shadow, Function.update blobFiles (workerOf db.workerCount job.pa)
      (appendBlob fault (blobFiles (workerOf db.workerCount job.pa)) plan.data).1, .failed e) := by
  obtain ⟨h1, h2⟩ := appendBlob_err (hb _) hd hr
  refine ⟨blobOk_update hb h1, grow_update ?_, fun _ _ => rfl, ht.2.2⟩
  rw [h2]

theorem spec_append {off : UInt64} {len : UInt32} (hb : ∀ w, BlobOk (blobFiles w))
    (ht : TaskInv z db id shadow blobFiles job (.append plan))
    (hr : (appendBlob fault (blobFiles (workerOf db.workerCount job.pa)) plan.data).2 = .ok (off, len)) :
    StepSpec z db id job shadow blobFiles (shadow, Function.update blobFiles (workerOf db.workerCount job.pa)
      (appendBlob fault (blobFiles (workerOf db.workerCount job.pa)) plan.data).1,
      plan.next (plan.record (encodeKey job.pa id) (workerOf db.workerCount job.pa) off len)) := by
  obtain ⟨hplan, hne, hsh⟩ := ht
  obtain ⟨h1, h2, h3⟩ := appendBlob_ok (hb _) hr
  have hrec : Recorded z db id (Function.update blobFiles (workerOf db.workerCount job.pa)
      (appendBlob fault (blobFiles (workerOf db.workerCount job.pa)) plan.data).1) job
      (plan.record (encodeKey job.pa id) (workerOf db.workerCount job.pa) off len) := by
    refine ⟨off, len, by rw [hplan], fun _ => ?_⟩
    rw [← hplan, Function.update_self]
    exact h3
  refine ⟨blobOk_update hb h1, grow_update ?_, fun _ _ => rfl, ?_⟩
  · rw [h2]
    exact List.prefix_append _ _
  · dsimp only
    cases plan with
    | zero => exact absurd rfl hne
    | delta baseKey data =>
      refine ⟨hrec, ?_⟩
      rw [shadowAfter_eq (by rw [← hplan]; simp)]
      exact hsh
    | full data => exact ⟨⟨data, hplan.symm⟩, hrec, hsh⟩

/-- **One step of one task.** -/
theorem Moves.spec {task : Task} {r : Shadow × (UInt8 → BlobFile) × Task}
    (hm : Moves z db id job fault shadow blobFiles task r) (hb : ∀ w, BlobOk (blobFiles w))
    (ht : TaskInv z db id shadow blobFiles job task) (hd : z.Small ∨ ∀ e, r.2.2 ≠ .failed e) :
    StepSpec z db id job shadow blobFiles r := by
  have hrefl : ∀ w, (blobFiles w).stream <+: (blobFiles w).stream := fun w => List.prefix_refl _
  cases hm with
  | zero hp =>
    have hplan : planOf z db job = .zero := (planOne_congr ht).symm.trans hp
    refine ⟨hb, hrefl, fun _ _ => rfl, ⟨0, 0, by rw [hplan]; rfl, fun hne => absurd hplan hne⟩, ?_⟩
    rw [shadowAfter_eq (by rw [hplan]; simp)]
    exact ht
  | encode hp hne => exact ⟨hb, hrefl, fun _ _ => rfl, hp.symm.trans (planOne_congr ht), hne, ht⟩
  | refuse hf => exact ⟨hb, hrefl, fun _ _ => rfl, ht⟩
  | @fail plan e hr =>
    -- only an append of less than the capacity may fail
    refine spec_fail hb ht ?_ hr
    rcases hd with hz | hnf
    · rw [ht.1]
      exact planOf_data_small hz job
    · exact absurd rfl (hnf e)
  | append hr => exact spec_append hb ht hr
  | insert =>
    obtain ⟨⟨data, hp⟩, hrec, hsh⟩ := ht
    refine ⟨hb, hrefl, fun pa hpa => ?_, hrec, insert_shadowAfter hp hsh⟩
    dsimp only
    split
    · exact insertIfNewer_ne hpa
    · rfl
  | done => exact ⟨hb, hrefl, fun _ _ => rfl, ht⟩
  | failed => exact ⟨hb, hrefl, fun _ _ => rfl, ht⟩

end Spec

/-! ## The run -/

variable (z db id) in
/-- The invariant of the pass. -/
structure PassInv (jobs : List Job) (p : Pass) : Prop where
  blobs : ∀ w, BlobOk (p.blobFiles w)
  grow : ∀ w, (db.blobFiles w).stream <+: (p.blobFiles w).stream
  length : p.tasks.length = jobs.length
  tasks : ∀ (i : ℕ) (job : Job) (task : Task), jobs[i]? = some job → p.tasks[i]? = some task →
    TaskInv z db id p.shadow p.blobFiles job task
  shadow : ∀ pa, (∀ job ∈ jobs, job.pa ≠ pa) → p.shadow pa = db.shadow pa

/-- No task has failed. -/
def Pass.NoFailure (p : Pass) : Prop := ∀ (i : ℕ) (e : Failure), p.tasks[i]? ≠ some (Task.failed e)

variable (z db id) in
theorem Pass.step_some {jobs : List Job} {p : Pass} {e : ℕ × Fault} {job : Job} {task : Task}
    (hj : jobs[e.1]? = some job) (ht : p.tasks[e.1]? = some task) :
    ∃ r, Moves z db id job e.2 p.shadow p.blobFiles task r ∧
      Pass.step z db id jobs p e = ⟨r.1, r.2.1, p.tasks.set e.1 r.2.2⟩ := by
  unfold Pass.step
  rw [hj, ht]
  exact ⟨_, stepTask_moves job e.2 p.shadow p.blobFiles task, rfl⟩

variable (z db id) in
/-- **What one step of a pass can do**: one of its tasks moves, if there is one. -/
theorem Pass.step_cases (jobs : List Job) (p : Pass) (e : ℕ × Fault) : Pass.step z db id jobs p e = p ∨
    ∃ job task r, jobs[e.1]? = some job ∧ p.tasks[e.1]? = some task ∧
      Moves z db id job e.2 p.shadow p.blobFiles task r ∧
      Pass.step z db id jobs p e = ⟨r.1, r.2.1, p.tasks.set e.1 r.2.2⟩ := by
  cases hj : jobs[e.1]? with
  | none =>
    refine .inl ?_
    unfold Pass.step
    rw [hj]
  | some job =>
    cases ht : p.tasks[e.1]? with
    | none =>
      refine .inl ?_
      unfold Pass.step
      rw [ht, hj]
    | some task =>
      obtain ⟨r, hm, hstep⟩ := Pass.step_some z db id hj ht
      exact .inr ⟨job, task, r, rfl, rfl, hm, hstep⟩

theorem Pass.NoFailure.of_set {shadow : Shadow} {blobFiles : UInt8 → BlobFile} {tasks : List Task} {i : ℕ}
    {task task' : Task} (h : Pass.NoFailure ⟨shadow, blobFiles, tasks.set i task'⟩) (ht : tasks[i]? = some task) :
    ∀ e, task' ≠ .failed e := by
  intro e he
  refine h i e ?_
  dsimp only
  rw [List.getElem?_set_self (List.getElem?_eq_some_iff.1 ht).1, he]

theorem Pass.length_step (jobs : List Job) (p : Pass) (e : ℕ × Fault) :
    (Pass.step z db id jobs p e).tasks.length = p.tasks.length := by
  unfold Pass.step
  split
  · dsimp only
    rw [List.length_set]
  · rfl

theorem runPass_concat (jobs : List Job) (schedule : List (ℕ × Fault)) (e : ℕ × Fault) :
    runPass z db id jobs (schedule ++ [e]) = Pass.step z db id jobs (runPass z db id jobs schedule) e := by
  simp only [runPass, List.foldl_append, List.foldl_cons, List.foldl_nil]

theorem length_runPass (jobs : List Job) (schedule : List (ℕ × Fault)) :
    (runPass z db id jobs schedule).tasks.length = jobs.length := by
  induction schedule using List.reverseRecOn with
  | nil => simp [runPass]
  | append_singleton schedule e ih =>
    rw [runPass_concat, Pass.length_step, ih]

/-- A failed task stays failed. -/
theorem Pass.noFailure_of_step {jobs : List Job} {p : Pass} {e : ℕ × Fault}
    (h : (Pass.step z db id jobs p e).NoFailure) : p.NoFailure := by
  rcases Pass.step_cases z db id jobs p e with heq | ⟨job, task, r, hj, ht, hm, heq⟩
  · rwa [heq] at h
  · rw [heq] at h
    intro i f hi
    by_cases hei : e.1 = i
    · subst hei
      obtain rfl := Option.some.inj (ht.symm.trans hi)
      cases hm
      exact h.of_set ht f rfl
    · refine h i f ?_
      dsimp only
      rw [List.getElem?_set_ne hei]
      exact hi

theorem pa_ne_of_index {jobs : List Job} (hpas : (jobs.map Job.pa).Nodup) {i j : ℕ} {a b : Job}
    (ha : jobs[i]? = some a) (hb : jobs[j]? = some b) (hij : i ≠ j) : a.pa ≠ b.pa := by
  obtain ⟨hi, rfl⟩ := List.getElem?_eq_some_iff.1 ha
  obtain ⟨hj, rfl⟩ := List.getElem?_eq_some_iff.1 hb
  intro hp
  have hi' : i < (jobs.map Job.pa).length := by simpa using hi
  have hj' : j < (jobs.map Job.pa).length := by simpa using hj
  have heq : (jobs.map Job.pa)[i] = (jobs.map Job.pa)[j] := by simpa using hp
  exact hij ((List.Nodup.getElem_inj_iff hpas).1 heq)

/-- **One step of the pass** keeps its invariant. -/
theorem PassInv.step {jobs : List Job} (hpas : (jobs.map Job.pa).Nodup) {p : Pass} {e : ℕ × Fault}
    (h : PassInv z db id jobs p) (hd : z.Small ∨ (Pass.step z db id jobs p e).NoFailure) :
    PassInv z db id jobs (Pass.step z db id jobs p e) := by
  rcases Pass.step_cases z db id jobs p e with heq | ⟨job, task, r, hj, ht, hm, heq⟩
  · rw [heq]
    exact h
  · rw [heq] at hd ⊢
    have hlt : e.1 < p.tasks.length := (List.getElem?_eq_some_iff.1 ht).1
    have hstep := hm.spec h.blobs (h.tasks _ _ _ hj ht) (hd.imp_right fun hnf => hnf.of_set ht)
    refine ⟨hstep.blobs, fun w => (h.grow w).trans (hstep.grow w), ?_, ?_, ?_⟩
    · dsimp only
      rw [List.length_set]
      exact h.length
    · -- the stepped task moves on, every other task keeps its address's entry
      intro i job' task' hj' ht'
      dsimp only at ht' ⊢
      by_cases hei : e.1 = i
      · subst hei
        rw [List.getElem?_set_self hlt] at ht'
        rw [hj] at hj'
        obtain rfl := Option.some.inj hj'
        obtain rfl := Option.some.inj ht'
        exact hstep.inv
      · rw [List.getElem?_set_ne hei] at ht'
        refine (h.tasks i job' task' hj' ht').mono (hstep.shadow _ ?_) hstep.grow
        exact (pa_ne_of_index hpas hj hj' hei).symm
    · intro pa hpa
      rw [← h.shadow pa hpa]
      exact hstep.shadow pa (hpa job (List.mem_of_getElem? hj)).symm

/-- **Every state of a pass** keeps the invariant: under any schedule, whatever fails,
when encoded pages are smaller than the blob writers' buffer; and in any case as long
as nothing failed. -/
theorem runPass_inv {jobs : List Job} (hpas : (jobs.map Job.pa).Nodup) (hb : ∀ w, BlobOk (db.blobFiles w))
    (schedule : List (ℕ × Fault)) (hd : z.Small ∨ (runPass z db id jobs schedule).NoFailure) :
    PassInv z db id jobs (runPass z db id jobs schedule) := by
  induction schedule using List.reverseRecOn with
  | nil =>
    refine ⟨hb, fun w => List.prefix_refl _, by simp [runPass], fun i job task hj ht => ?_, fun _ _ => rfl⟩
    have hstart : task = .start := by
      simp only [runPass, List.foldl_nil, List.getElem?_map, hj, Option.map_some, Option.some.injEq] at ht
      exact ht.symm
    subst hstart
    rfl
  | append_singleton schedule e ih =>
    rw [runPass_concat] at hd ⊢
    exact (ih (hd.imp_right Pass.noFailure_of_step)).step hpas hd

end Step

/-! ## How a pass ends -/

theorem mapM_rec? : ∀ {tasks : List Task} {recs : List ChunkRecord}, tasks.mapM Task.rec? = some recs →
    tasks = recs.map .done
  | [], recs, h => by
    simp only [List.mapM_nil] at h
    obtain rfl := Option.some.inj h; rfl
  | task :: tasks, recs, h => by
    rw [List.mapM_cons] at h
    obtain ⟨r, hr, h⟩ := Option.bind_eq_some_iff.1 h
    obtain ⟨rs, hrs, h⟩ := Option.bind_eq_some_iff.1 h
    obtain rfl := Option.some.inj h
    rw [mapM_rec? hrs]
    cases task with
    | done r' => rw [show r' = r from Option.some.inj hr]; rfl
    | start => simp [Task.rec?] at hr
    | append => simp [Task.rec?] at hr
    | insert => simp [Task.rec?] at hr
    | failed => simp [Task.rec?] at hr

theorem filterMap_getElem? {α : Type} (l : List α) :
    (List.range l.length).filterMap (fun i => l[i]?) = l := by
  induction l using List.reverseRecOn with
  | nil => rfl
  | append_singleton l a ih =>
    rw [List.length_append, List.length_singleton, List.range_succ, List.filterMap_append]
    have hfirst : (List.range l.length).filterMap (fun i => (l ++ [a])[i]?) =
        (List.range l.length).filterMap fun i => l[i]? :=
      List.filterMap_congr fun i hi => List.getElem?_append_left (List.mem_range.1 hi)
    rw [hfirst, ih]
    simp

/-- `records_buf` read slot by slot, when slot `i` is the `i`-th job's. -/
theorem records_by_slot {jobs : List Job} {recs : List ChunkRecord}
    (hslots : jobs.map Job.slot = List.range jobs.length) (hlen : recs.length = jobs.length) :
    ((List.range recs.length).filterMap fun slot =>
      ((jobs.zip recs).find? fun e => e.1.slot == slot).map Prod.snd) = recs := by
  have hzip : (jobs.zip recs).length = recs.length := by rw [List.length_zip, hlen, Nat.min_self]
  have hslot : ∀ i (h : i < jobs.length), jobs[i].slot = i := by
    intro i h
    have h1 : (jobs.map Job.slot)[i]? = some jobs[i].slot := by
      rw [List.getElem?_map, List.getElem?_eq_getElem h]; rfl
    rw [hslots, List.getElem?_range h] at h1
    exact (Option.some.inj h1).symm
  have hsorted : (jobs.zip recs).Pairwise fun a b => a.1.slot < b.1.slot := by
    rw [List.pairwise_iff_getElem]
    intro i j hi hj hij
    rw [List.getElem_zip, List.getElem_zip]
    rw [hslot, hslot]; exact hij
  -- slots are the jobs' places, so the job found for a slot is the one there
  have hfind : ∀ i (h : i < recs.length) (h' : i < jobs.length),
      (jobs.zip recs).find? (fun e => e.1.slot == i) = some (jobs[i], recs[i]) := by
    intro i h h'
    have hmem : (jobs[i], recs[i]) ∈ jobs.zip recs := by
      rw [← List.getElem_zip (i := i) (h := by rw [hzip]; exact h)]
      exact List.getElem_mem _
    have := SortedIndex.find?_of_strict hsorted hmem
    rw [hslot] at this
    rw [← this]
    congr 1
  have hmap : ((List.range recs.length).filterMap fun slot =>
      ((jobs.zip recs).find? fun e => e.1.slot == slot).map Prod.snd) =
      (List.range recs.length).filterMap fun slot => recs[slot]? := by
    apply List.filterMap_congr
    intro slot hs
    have hs' := List.mem_range.1 hs
    rw [hfind slot hs' (hlen ▸ hs'), List.getElem?_eq_getElem hs']; rfl
  rw [hmap, filterMap_getElem?]

/-- **A pass that ends well** has every task done, and returns the records in the order
of the jobs. -/
theorem outcome_ok {jobs : List Job} {p : Pass} {records : List ChunkRecord}
    (hslots : jobs.map Job.slot = List.range jobs.length) (hlen : p.tasks.length = jobs.length)
    (h : p.outcome jobs = some (.ok records)) : p.tasks = records.map .done := by
  unfold Pass.outcome at h
  cases hm : p.tasks.mapM Task.rec? with
  | some recs =>
    rw [hm] at h
    have htasks := mapM_rec? hm
    have hrecs : recs.length = jobs.length := by rw [← hlen, htasks, List.length_map]
    simp only [Option.some.injEq, Except.ok.injEq] at h
    rw [records_by_slot hslots hrecs] at h
    rw [htasks, h]
  | none =>
    rw [hm] at h
    dsimp only at h
    split at h
    · split at h
      · simp at h
      · simp at h
    · simp at h

theorem noFailure_of_done {p : Pass} {records : List ChunkRecord} (h : p.tasks = records.map .done) :
    p.NoFailure := by
  intro i e hi
  rw [h, List.getElem?_map] at hi
  obtain ⟨r, -, hr⟩ := Option.map_eq_some_iff.1 hi
  simp at hr

end Bxdb
