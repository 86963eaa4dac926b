import Bxdb.Proof.FailedSaves
import Bxdb.Proof.Managed

/-!
# Where the ranges lie in the worker files

Every append starts where its file ends, so the ranges of a pass fill the files, in the
order the tasks reach the lock.

* `Moves.writes`: a step writes nothing, or one range at the end of one file.
* `runPass_layout`: **in every state of a pass its ranges lie apart**, behind everything
  the files held before, and make up all that was added.
* `blob_layout`: so they do after any sessions and purges.
-/

namespace Bxdb

open Bytes Buffered Versioned ChunkRecord

/-- Two ranges do not overlap. -/
def Apart (a b : ChunkRecord) : Prop := endOf a ≤ b.offset.toNat ∨ endOf b ≤ a.offset.toNat

/-- Two records whose ranges lie in one worker file. -/
def SameFile (a b : ChunkRecord) : Prop := a.kind ≠ .zero ∧ b.kind ≠ .zero ∧ a.workerId = b.workerId

/-- The number of bytes of a worker's file that a record names. -/
def ChunkRecord.lenIn (w : UInt8) (r : ChunkRecord) : ℕ := if r.kind ≠ .zero ∧ r.workerId = w then r.len.toNat else 0

/-- The record a task has its bytes in the file for. -/
def Task.written? : Task → Option ChunkRecord
  | .insert rec => some rec
  | .done rec => some rec
  | _ => none

def Task.lenIn (w : UInt8) (t : Task) : ℕ := (t.written?.map (ChunkRecord.lenIn w)).getD 0

/-! ## One step -/

section Step

variable {z : Zstd} {db : AppendOnlyDb} {id : UInt32}

/-- **What one step writes**: nothing, or the range of its own record, at the end of the
file of its worker. -/
inductive StepWrites (blobFiles : UInt8 → BlobFile) (task : Task) (r : Shadow × (UInt8 → BlobFile) × Task) : Prop
  | same (hb : r.2.1 = blobFiles) (hw : r.2.2.written? = task.written?)
  | zero {rec : ChunkRecord} (hb : r.2.1 = blobFiles) (h0 : task.written? = none) (hw : r.2.2.written? = some rec)
      (hk : rec.kind = .zero)
  | appended {rec : ChunkRecord} (h0 : task.written? = none) (hw : r.2.2.written? = some rec) (hk : rec.kind ≠ .zero)
      (hoff : rec.offset.toNat = (blobFiles rec.workerId).stream.length)
      (hend : endOf rec = (r.2.1 rec.workerId).stream.length) (hothers : ∀ w, w ≠ rec.workerId → r.2.1 w = blobFiles w)

/-- An append returns the range behind what the file held. -/
theorem appendBlob_range {b : BlobFile} (h : BlobOk b) {fault : Fault} {data : Bytes} {off : UInt64} {len : UInt32}
    (hr : (appendBlob fault b data).2 = .ok (off, len)) : off.toNat = b.stream.length ∧ len.toNat = data.length := by
  obtain ⟨-, -, hholds⟩ := appendBlob_ok h hr
  refine ⟨?_, hholds.len_eq⟩
  unfold appendBlob at hr
  split at hr
  · dsimp only at hr
    split at hr
    · obtain ⟨rfl, -⟩ := Prod.mk.inj (Except.ok.inj hr)
      exact h.offset
    · simp [ioErr] at hr
  · simp [ioErr] at hr

theorem Plan.next_written (plan : Plan) (rec : ChunkRecord) : (plan.next rec).written? = some rec := by
  cases plan with
  | zero => rfl
  | delta baseKey data => rfl
  | full data => rfl

theorem Plan.record_kind {plan : Plan} (hne : plan ≠ .zero) (key : UInt64) (w : UInt8) (off : UInt64) (len : UInt32) :
    (plan.record key w off len).kind ≠ .zero ∧ (plan.record key w off len).workerId = w ∧
      (plan.record key w off len).offset = off ∧ (plan.record key w off len).len = len := by
  cases plan with
  | zero => exact absurd rfl hne
  | delta baseKey data => exact ⟨by simp [Plan.record], rfl, rfl, rfl⟩
  | full data => exact ⟨by simp [Plan.record], rfl, rfl, rfl⟩

theorem Moves.writes {job : Job} {fault : Fault} {shadow : Shadow} {blobFiles : UInt8 → BlobFile} {task : Task}
    {r : Shadow × (UInt8 → BlobFile) × Task} (hm : Moves z db id job fault shadow blobFiles task r)
    (hb : ∀ w, BlobOk (blobFiles w)) (ht : TaskInv z db id shadow blobFiles job task)
    (hnf : ∀ e, r.2.2 ≠ .failed e) : StepWrites blobFiles task r := by
  cases hm with
  | zero hp => exact .zero rfl rfl rfl rfl
  | encode hp hne => exact .same rfl rfl
  | refuse hf => exact .same rfl rfl
  | @fail plan e hr => exact absurd rfl (hnf e)
  | @append plan off len hr =>
    obtain ⟨-, hstream, -⟩ := appendBlob_ok (hb _) hr
    obtain ⟨hoff, hlen⟩ := appendBlob_range (hb _) hr
    obtain ⟨hkind, hworker, hroff, hrlen⟩ := Plan.record_kind ht.2.1 (encodeKey job.pa id)
      (workerOf db.workerCount job.pa) off len
    refine .appended rfl (Plan.next_written _ _) hkind ?_ ?_ fun w hw => ?_
    · rw [hroff, hworker]
      exact hoff
    · unfold endOf
      rw [hroff, hrlen, hworker]
      dsimp only
      rw [Function.update_self, hstream, List.length_append, hoff, hlen]
    · rw [hworker] at hw
      exact Function.update_of_ne hw _ _
  | insert => exact .same rfl rfl
  | done => exact .same rfl rfl
  | failed => exact .same rfl rfl

end Step

/-! ## The pass -/

/-- The record of the task at a position, once its bytes are in the file. -/
def Pass.writtenAt (p : Pass) (i : ℕ) : Option ChunkRecord := p.tasks[i]?.bind Task.written?

/-- **The layout of a pass** that found files of these lengths. -/
structure PassLayout (start : UInt8 → ℕ) (p : Pass) : Prop where
  inside : ∀ i rec, p.writtenAt i = some rec → rec.kind ≠ .zero →
    start rec.workerId ≤ rec.offset.toNat ∧ endOf rec ≤ (p.blobFiles rec.workerId).stream.length
  apart : ∀ i j a b, i ≠ j → p.writtenAt i = some a → p.writtenAt j = some b → SameFile a b → Apart a b
  total : ∀ w, (p.blobFiles w).stream.length = start w + (p.tasks.map (Task.lenIn w)).sum

section Run

variable {z : Zstd} {db : AppendOnlyDb} {id : UInt32} {jobs : List Job}

/-- What another task wrote is still there after a step. -/
theorem writtenAt_set {p : Pass} {shadow : Shadow} {blobFiles : UInt8 → BlobFile} {k : ℕ} {t : Task}
    (hk : k < p.tasks.length) (i : ℕ) : Pass.writtenAt ⟨shadow, blobFiles, p.tasks.set k t⟩ i =
      if i = k then t.written? else p.writtenAt i := by
  unfold Pass.writtenAt
  dsimp only
  by_cases hik : i = k
  · subst hik
    rw [if_pos rfl, List.getElem?_set_self hk]
    rfl
  · rw [if_neg hik, List.getElem?_set_ne (Ne.symm hik)]

/-- What a task at a position had written, and what the pass had before the task moved. -/
theorem writtenAt_of {p : Pass} {k : ℕ} {task : Task} (ht : p.tasks[k]? = some task) :
    p.writtenAt k = task.written? := by
  unfold Pass.writtenAt
  rw [ht]
  rfl

theorem lenIn_none {t : Task} (h : t.written? = none) (w : UInt8) : t.lenIn w = 0 := by
  unfold Task.lenIn
  rw [h]
  rfl

theorem lenIn_some {t : Task} {rec : ChunkRecord} (h : t.written? = some rec) (w : UInt8) :
    t.lenIn w = rec.lenIn w := by
  unfold Task.lenIn
  rw [h]
  rfl

section Moved

variable {start : UInt8 → ℕ} {p : Pass} {k : ℕ} {task : Task} {shadow : Shadow} {blobFiles : UInt8 → BlobFile} {t : Task}

/-- A step that writes no bytes: the ranges are those of before. -/
theorem PassLayout.quiet (h : PassLayout start p) (ht : p.tasks[k]? = some task) (hb : blobFiles = p.blobFiles)
    (hlen : ∀ w, t.lenIn w = task.lenIn w)
    (hw : ∀ rec, t.written? = some rec → rec.kind ≠ .zero → task.written? = some rec) :
    PassLayout start ⟨shadow, blobFiles, p.tasks.set k t⟩ := by
  have hlt : k < p.tasks.length := (List.getElem?_eq_some_iff.1 ht).1
  have hold : ∀ i rec, Pass.writtenAt ⟨shadow, blobFiles, p.tasks.set k t⟩ i = some rec → rec.kind ≠ .zero →
      p.writtenAt i = some rec := by
    intro i rec hi hk
    rw [writtenAt_set hlt] at hi
    split at hi
    · rename_i hik
      rw [hik, writtenAt_of ht]
      exact hw rec hi hk
    · exact hi
  refine ⟨fun i rec hi hk => ?_, fun i j a b hij hi hj hab => ?_, fun w => ?_⟩
  · rw [hb]
    exact h.inside i rec (hold i rec hi hk) hk
  · exact h.apart i j a b hij (hold i a hi hab.1) (hold j b hj hab.2.1) hab
  · have htotal := h.total w
    have hsum := sum_map_set (f := Task.lenIn w) (b := t) ht
    rw [hlen] at hsum
    dsimp only
    rw [hb]
    omega

/-- A step that appends one range: it lies behind every other. -/
theorem PassLayout.append (h : PassLayout start p) {rec : ChunkRecord} (ht : p.tasks[k]? = some task)
    (h0 : task.written? = none) (hw : t.written? = some rec) (hk : rec.kind ≠ .zero)
    (hoff : rec.offset.toNat = (p.blobFiles rec.workerId).stream.length)
    (hend : endOf rec = (blobFiles rec.workerId).stream.length)
    (hothers : ∀ w, w ≠ rec.workerId → blobFiles w = p.blobFiles w) :
    PassLayout start ⟨shadow, blobFiles, p.tasks.set k t⟩ := by
  have hset : ∀ i, Pass.writtenAt ⟨shadow, blobFiles, p.tasks.set k t⟩ i =
      if i = k then t.written? else p.writtenAt i := writtenAt_set (List.getElem?_eq_some_iff.1 ht).1
  have hgrow : ∀ w, (p.blobFiles w).stream.length ≤ (blobFiles w).stream.length := by
    intro w
    by_cases hwe : w = rec.workerId
    · rw [hwe, ← hend, ← hoff]
      exact Nat.le_add_right _ _
    · rw [hothers w hwe]
  -- every range written before ends where the new one starts, or earlier
  have hbefore : ∀ i a, p.writtenAt i = some a → a.kind ≠ .zero → a.workerId = rec.workerId →
      endOf a ≤ rec.offset.toNat := by
    intro i a hi hka hwa
    have := (h.inside i a hi hka).2
    rw [hwa] at this
    omega
  refine ⟨fun i a hi hka => ?_, fun i j a b hij hi hj hab => ?_, fun w => ?_⟩
  · rw [hset] at hi
    split at hi
    · rw [hw] at hi
      obtain rfl := Option.some.inj hi
      have := h.total rec.workerId
      exact ⟨by omega, le_of_eq hend⟩
    · obtain ⟨h1, h2⟩ := h.inside i a hi hka
      exact ⟨h1, h2.trans (hgrow _)⟩
  · rw [hset] at hi hj
    split at hi
    · rename_i hie
      rw [hw] at hi
      obtain rfl := Option.some.inj hi
      rw [if_neg fun hje => hij (hie.trans hje.symm)] at hj
      exact .inr (hbefore j b hj hab.2.1 hab.2.2.symm)
    · split at hj
      · rw [hw] at hj
        obtain rfl := Option.some.inj hj
        exact .inl (hbefore i a hi hab.1 hab.2.2)
      · exact h.apart i j a b hij hi hj hab
  · have htotal := h.total w
    have hsum := sum_map_set (f := Task.lenIn w) (b := t) ht
    rw [lenIn_none h0, lenIn_some hw] at hsum
    unfold ChunkRecord.lenIn at hsum
    dsimp only
    by_cases hwe : w = rec.workerId
    · rw [if_pos ⟨hk, hwe.symm⟩] at hsum
      unfold endOf at hend
      rw [hwe] at htotal hsum ⊢
      omega
    · rw [if_neg fun hand => hwe hand.2.symm] at hsum
      rw [hothers w hwe]
      omega

end Moved

/-- **One step keeps the layout.** -/
theorem PassLayout.step {start : UInt8 → ℕ} {p : Pass} {e : ℕ × Fault} (hinv : PassInv z db id jobs p)
    (h : PassLayout start p) (hnf : (Pass.step z db id jobs p e).NoFailure) :
    PassLayout start (Pass.step z db id jobs p e) := by
  rcases Pass.step_cases z db id jobs p e with heq | ⟨job, task, r, hj, ht, hm, heq⟩
  · rw [heq]
    exact h
  · rw [heq] at hnf ⊢
    cases hm.writes hinv.blobs (hinv.tasks _ _ _ hj ht) (hnf.of_set ht) with
    | same hb hw =>
      refine h.quiet ht hb (fun w => ?_) fun rec hrec _ => ?_
      · unfold Task.lenIn
        rw [hw]
      · rw [← hw, hrec]
    | @zero rec hb h0 hw hk =>
      -- a Zero record names no bytes
      refine h.quiet ht hb (fun w => ?_) fun rec' hrec hk' => ?_
      · rw [lenIn_none h0, lenIn_some hw]
        unfold ChunkRecord.lenIn
        rw [if_neg fun hand => hand.1 hk]
      · obtain rfl := Option.some.inj (hw.symm.trans hrec)
        exact absurd hk hk'
    | appended h0 hw hk hoff hend hothers => exact h.append ht h0 hw hk hoff hend hothers

/-- **The layout in every state of a pass** in which nothing failed. -/
theorem runPass_layout (hpas : (jobs.map Job.pa).Nodup) (hb : ∀ w, BlobOk (db.blobFiles w))
    (schedule : List (ℕ × Fault)) (hnf : (runPass z db id jobs schedule).NoFailure) :
    PassLayout (fun w => (db.blobFiles w).stream.length) (runPass z db id jobs schedule) := by
  induction schedule using List.reverseRecOn with
  | nil =>
    have hnone : ∀ i, (runPass z db id jobs []).writtenAt i = none := by
      intro i
      unfold Pass.writtenAt runPass
      rw [List.foldl_nil, List.getElem?_map]
      cases jobs[i]? with
      | none => rfl
      | some job => rfl
    refine ⟨fun i rec hi => ?_, fun i j a b _ hi => ?_, fun w => ?_⟩
    · rw [hnone] at hi
      simp at hi
    · rw [hnone] at hi
      simp at hi
    · have hzero : Task.lenIn w ∘ (fun _ : Job => Task.start) = fun _ => 0 := rfl
      unfold runPass
      rw [List.foldl_nil, List.map_map, hzero]
      simp
  | append_singleton schedule e ih =>
    rw [runPass_concat] at hnf ⊢
    have hnf' := Pass.noFailure_of_step hnf
    exact (ih hnf').step (runPass_inv hpas hb schedule (.inr hnf')) hnf

end Run

/-! ## Saves, sessions and purges -/

/-- Where two records of a log lie, the second one behind the first in the log. -/
def Placed (a b : ChunkRecord) : Prop :=
  SameFile a b → Apart a b ∧ (snapshotOf a.key < snapshotOf b.key → endOf a ≤ b.offset.toNat)

abbrev LaidOut (vs : List Version) : Prop := vs.Pairwise fun a b => Placed a.chunk b.chunk

section Layout

variable {z : Zstd} {vs : List Version} {dir : Dir} {db db' : AppendOnlyDb} {cs : List SaveCall}

/-- A record that names bytes lies in the file of a worker of the session. -/
theorem Recorded.workerId {db : AppendOnlyDb} {id : UInt32} {blobFiles : UInt8 → BlobFile} {job : Job} {rec : ChunkRecord}
    (h : Recorded z db id blobFiles job rec) (hk : rec.kind ≠ .zero) : rec.workerId = workerOf db.workerCount job.pa := by
  obtain ⟨off, len, rfl, -⟩ := h
  cases hp : planOf z db job with
  | zero =>
    rw [hp] at hk
    exact absurd rfl hk
  | delta baseKey data => rfl
  | full data => rfl

/-- Where a pass that is done has the bytes of its records. -/
theorem PassDone.writtenAt {c : SaveCall} {id : UInt32} {jobs : List Job} {p : Pass} {records : List ChunkRecord}
    (hp : PassDone z vs db id c jobs p records) (i : ℕ) : p.writtenAt i = records[i]? := by
  unfold Pass.writtenAt
  rw [hp.done, List.getElem?_map]
  cases records[i]? with
  | none => rfl
  | some rec => rfl

/-- **The records of a save** lie apart, and behind every record before. -/
theorem PassDone.laidOut {c : SaveCall} {id : UInt32} {jobs : List Job} {schedule : List (ℕ × Fault)}
    {records : List ChunkRecord} (h : HandleOk z vs db) (hid : id ≤ maxSnapshotId)
    (hlast : ∀ l, db.lastSnapshot = some l → l < id)
    (hp : PassDone z vs db id c jobs (runPass z (db.accept id) id jobs schedule) records) (hl : LaidOut vs) :
    LaidOut (vs ++ newVersions jobs records) := by
  have hlayout := runPass_layout (nodup_pas hp.jobsOf.sorted) (show ∀ w, BlobOk ((db.accept id).blobFiles w) from h.blobs)
    schedule (noFailure_of_done hp.done)
  have hwritten := hp.writtenAt
  have hnew : ∀ {i : ℕ} {job : Job} {rec : ChunkRecord}, jobs[i]? = some job → records[i]? = some rec →
      NewRecord z vs db id _ job rec := hp.newRecord h hid hlast fun _ hv => hv
  refine List.pairwise_append.2 ⟨hl, ?_, fun a ha b hb => ?_⟩
  · rw [List.pairwise_iff_getElem]
    intro i j hi hj hij
    have hi' : i < jobs.length ∧ i < records.length := by
      have := hp.length
      simp [newVersions] at hi
      omega
    have hj' : j < jobs.length ∧ j < records.length := by
      have := hp.length
      simp [newVersions] at hj
      omega
    have hri : records[i]? = some records[i] := List.getElem?_eq_getElem hi'.2
    have hrj : records[j]? = some records[j] := List.getElem?_eq_getElem hj'.2
    simp only [newVersions, List.getElem_zipWith]
    intro hsame
    refine ⟨hlayout.apart i j _ _ (Nat.ne_of_lt hij) ((hwritten i).trans hri) ((hwritten j).trans hrj) hsame, fun hlt => ?_⟩
    -- both carry the id of the save
    have h1 := (hnew (List.getElem?_eq_getElem hi'.1) hri).snap
    have h2 := (hnew (List.getElem?_eq_getElem hj'.1) hrj).snap
    rw [UInt32.lt_iff_toNat_lt] at hlt
    omega
  · obtain ⟨i, job, rec, hj, hr, rfl⟩ := mem_newVersions.1 hb
    intro hsame
    obtain ⟨hka, hkb, hw⟩ := hsame
    have hrec := (hp.inv.tasks i job _ hj (hp.task.2 hr)).1
    have hworker : rec.workerId.toNat < db.workerCount := by
      rw [hrec.workerId hkb]
      exact workerOf_toNat h.workers.1 h.workers.2 job.pa
    -- the old range ends in what the save found in the file
    obtain ⟨bs, hbs, hle, -⟩ := (h.stored a ha).range hka
    unfold AppendOnlyDb.streams at hbs
    rw [hw, if_pos hworker] at hbs
    obtain rfl := Option.some.inj hbs
    have hend : endOf a.chunk ≤ rec.offset.toNat :=
      hle.trans (hlayout.inside i rec ((hwritten i).trans hr) hkb).1
    exact ⟨.inl hend, fun _ => hend⟩

theorem laidOut_keeps (z : Zstd) : Keeps z (fun vs _ => LaidOut vs) fun vs _ => LaidOut vs where
  fresh _ := List.Pairwise.nil
  opened _ hl _ := hl
  saved {vs new db db' c} h hl hs hd := by
    cases hd with
    | empty hjobs =>
      rw [List.append_nil]
      exact hl
    | pass hne hp => exact hp.laidOut h hs.idMax hs.idNew hl
  closed _ hl _ := hl

/-- The layout, for any two records of the log. -/
theorem LaidOut.ordered (ho : Ordered vs) (hl : LaidOut vs) {a b : ChunkRecord} (ha : a ∈ chunks vs) (hb : b ∈ chunks vs)
    (hsame : SameFile a b) (hlt : snapshotOf a.key < snapshotOf b.key) : endOf a ≤ b.offset.toNat := by
  obtain ⟨v, hv, rfl⟩ := List.mem_map.1 ha
  obtain ⟨v', hv', rfl⟩ := List.mem_map.1 hb
  obtain ⟨i, hi, rfl⟩ := List.getElem_of_mem hv
  obtain ⟨j, hj, rfl⟩ := List.getElem_of_mem hv'
  have hsnap : vs[i].snap < vs[j].snap := UInt32.lt_iff_toNat_lt.1 hlt
  -- the log lists smaller snapshots first
  rcases Nat.lt_trichotomy i j with hij | hij | hij
  · exact (List.pairwise_iff_getElem.1 hl i j hi hj hij hsame).2 hlt
  · subst hij
    exact absurd hsnap (lt_irrefl _)
  · have := List.pairwise_iff_getElem.1 ho j i hj hi hij
    omega

/-- **The layout of the worker files.** After any sessions and purges, every record that
names bytes names a range of its worker's file that holds exactly its encoded page; the
ranges in one file lie apart, those of a smaller snapshot in front of those of a larger. -/
theorem blob_layout (h : Managed z cs dir) : ∃ records, LogHolds dir.log records ∧
    (∀ rec ∈ records, rec.kind = .full → ∃ page, savedBy cs (paOf rec.key) (snapshotOf rec.key).toNat page ∧
      Names dir.blobs rec (z.compress page)) ∧
    (∀ rec ∈ records, rec.kind = .delta → ∃ base ∈ records, BaseOf z cs dir.blobs rec base) ∧
    records.Pairwise (fun a b => SameFile a b → Apart a b) ∧
    ∀ a ∈ records, ∀ b ∈ records, SameFile a b → snapshotOf a.key < snapshotOf b.key → endOf a ≤ b.offset.toNat := by
  obtain ⟨vs, hd, hr, -, hl⟩ := (laidOut_keeps z).managed (fun _ hl _ => hl.filter _) h
  refine ⟨chunks vs, hd.logHolds, fun rec hrec hk => ?_, fun rec hrec hk => ?_, ?_, fun a ha b hb => hl.ordered hd.ordered ha hb⟩
  · obtain ⟨v, hv, rfl⟩ := List.mem_map.1 hrec
    obtain ⟨key, w, off, len, bs, hc, hb, hdata⟩ := (hd.stored v hv).full_inv hk
    refine ⟨v.page, (hr _ _ _).1 ⟨v, ⟨hv, rfl, rfl⟩, rfl⟩, ?_⟩
    rw [hc]
    exact HoldsAt.names hb hdata
  · obtain ⟨v, hv, rfl⟩ := List.mem_map.1 hrec
    exact Stored.baseOf hd.stored hr hv hk
  · rw [List.pairwise_map]
    exact hl.imp fun hab hsame => (hab hsame).1

/-- Three pages in one session. -/
theorem blob_layout_noise : ∃ dir records, Managed Zstd.raw threeSaves dir ∧ LogHolds dir.log records ∧
    records.Pairwise (fun a b => SameFile a b → Apart a b) := by
  obtain ⟨dir, -, -, h⟩ := threeSaves_session
  obtain ⟨records, hlog, -, -, hapart, -⟩ := blob_layout h
  exact ⟨dir, records, h, hlog, hapart⟩

end Layout

end Bxdb
