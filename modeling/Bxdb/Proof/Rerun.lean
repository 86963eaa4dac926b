import Bxdb.Proof.Purge

/-!
# A purge started again

A purge can be stopped between any two of its steps and started again. The second run
reads only one of the two index files, so it matters which of them were replaced.

* `rerun_blobs`, `rerun_done`: stopped among the blob steps, or after the last step, the
  second run ends where the first one would have.
* `rerun_idx`: **stopped between the two renames, the second run does nothing.**
* `rerun_iff`: that is the only point from which the second run goes wrong.
-/

namespace Bxdb

open Bytes SortedIndex ChunkRecord

section Rerun

variable {z : Zstd} {vs : List Version} {dir : Dir} {t : UInt32}

/-- `index.bxdb` was replaced and `chunks.log` is still to be replaced. -/
def BetweenRenames (steps : List FileStep) (k : ℕ) : Prop :=
  (∃ bytes, .renameIdx bytes ∈ steps.take k) ∧ ∃ bytes, .renameLog bytes ∈ steps.drop k

theorem keptVersions_kept : keptVersions (keptVersions vs t) t = keptVersions vs t := by
  unfold keptVersions
  rw [List.filter_filter]
  congr 1
  funext v
  rw [Bool.and_self]

theorem dropped_kept : dropped (keptVersions vs t) t = 0 := by
  unfold dropped
  rw [keptVersions_kept, Nat.sub_self]

theorem purge_of_plan {ord : WalkOrder FileStep} {d d' : Dir} {steps : List FileStep} {n : ℕ}
    (hplan : purgePlan ord d t = .ok (steps, n)) (hrun : applySteps d steps = .ok d') :
    purge ord d t = .ok (d', n) := by
  unfold purge
  rw [hplan, ok_bind]
  dsimp only
  rw [hrun, ok_bind]

/-- **Trimming on top of a partial trim** is trimming. -/
theorem purgedDir_trimmed {kept : List ChunkRecord} {blobs : UInt8 → Option Bytes} (h : Trimmed kept dir.blobs blobs) :
    purgedDir { dir with blobs := blobs } kept = purgedDir dir kept := by
  have hblobs : (fun w => trimBlob kept w (blobs w)) = fun w => trimBlob kept w (dir.blobs w) := by
    funext w
    rcases h w with hw | hw
    · rw [hw]
    · rw [hw, trimBlob_trimBlob]
  unfold purgedDir
  rw [hblobs]

/-- **Stopped among the blob steps**, a purge can be started again. -/
theorem rerun_blobs (ord : WalkOrder FileStep) (h : FormOk z vs dir) (hd : dropped vs t ≠ 0)
    {blobs : UInt8 → Option Bytes} (ht : Trimmed (sortedChunks (keptVersions vs t)) dir.blobs blobs) :
    purge ord { dir with blobs := blobs } t =
      .ok (purgedDir dir (sortedChunks (keptVersions vs t)), dropped vs t) := by
  have hread : readRecords { dir with blobs := blobs } = .ok (sortedChunks vs) :=
    show readRecords dir = .ok (sortedChunks vs) from readRecords_ok h
  have hplan := purgePlan_of_records (t := t) ord h.ordered hread h.bound
  rw [if_neg hd] at hplan
  have hcover : Cuttable (sortedChunks (keptVersions vs t)) blobs := h.covers.cuttable.trim ht
  rw [← purgedDir_trimmed ht]
  exact purge_of_plan hplan (applySteps_plan hcover)

/-- **After the last step** there is nothing left to purge. -/
theorem rerun_done (ord : WalkOrder FileStep) (h : FormOk z vs dir) :
    purge ord (purgedDir dir (sortedChunks (keptVersions vs t))) t =
      .ok (purgedDir dir (sortedChunks (keptVersions vs t)), 0) := by
  obtain ⟨d, hrun, -, hd⟩ := purge_ok ord (h.purged t) t
  rw [if_pos dropped_kept] at hd
  rw [hrun, hd, dropped_kept]

/-- **Between the two renames** a second run sees the new index and does nothing. -/
theorem rerun_idx (ord : WalkOrder FileStep) (h : FormOk z vs dir) (blobs : UInt8 → Option Bytes) :
    purge ord { dir with idx := some (indexFile (sortedChunks (keptVersions vs t))), blobs := blobs } t =
      .ok ({ dir with idx := some (indexFile (sortedChunks (keptVersions vs t))), blobs := blobs }, 0) := by
  have hread : readRecords { dir with idx := some (indexFile (sortedChunks (keptVersions vs t))), blobs := blobs } =
      .ok (sortedChunks (keptVersions vs t)) := readIndex_file _
  have hbound : ∀ r ∈ sortedChunks (keptVersions (keptVersions vs t) t), r.kind ≠ .zero → endOf r < 2 ^ 64 := by
    rw [keptVersions_kept]
    exact h.bound
  have hplan := purgePlan_of_records ord h.ordered.kept hread hbound
  rw [if_pos dropped_kept, dropped_kept] at hplan
  exact purge_of_plan hplan (applySteps_nil _)

/-- A log with a record to drop is not the log without it. -/
theorem log_ne (h : FormOk z vs dir) (hd : dropped vs t ≠ 0) (hlog : dir.log.isSome) :
    dir.log ≠ (purgedDir dir (sortedChunks (keptVersions vs t))).log := by
  obtain ⟨bytes, hb⟩ := Option.isSome_iff_exists.1 hlog
  obtain ⟨bytes', hb'⟩ : ∃ bytes', (purgedDir dir (sortedChunks (keptVersions vs t))).log = some bytes' := by
    unfold purgedDir
    rw [hb]
    exact ⟨_, rfl⟩
  intro heq
  rw [hb, hb'] at heq
  have h1 := h.lazyIndex hb
  rw [Option.some.inj heq, (h.purged t).lazyIndex hb'] at h1
  have hlen := congrArg List.length (Except.ok.inj h1)
  rw [length_sortedChunks h.ordered, length_sortedChunks h.ordered.kept] at hlen
  unfold dropped at hd
  omega

theorem blobSteps_no_rename {kept : List ChunkRecord} {blobs : UInt8 → Option Bytes} {s : FileStep}
    (hs : s ∈ blobSteps kept blobs) : (∀ bytes, s ≠ .renameIdx bytes) ∧ ∀ bytes, s ≠ .renameLog bytes := by
  obtain ⟨w, hw⟩ := blobSteps_blobStep hs
  cases hw with
  | truncate _ => exact ⟨fun _ => nofun, fun _ => nofun⟩
  | remove _ => exact ⟨fun _ => nofun, fun _ => nofun⟩

theorem not_between_blobs {ord : WalkOrder FileStep} {kept : List ChunkRecord} {k : ℕ}
    (hk : k ≤ (blobSteps kept dir.blobs).length) : ¬ BetweenRenames (planSteps ord dir kept) k := by
  rintro ⟨⟨bytes, hmem⟩, -⟩
  unfold planSteps at hmem
  rw [List.append_assoc, List.take_append_of_le_length (by rw [length_walk]; exact hk)] at hmem
  have hstep := (ord.perm _).mem_iff.1 (List.mem_of_mem_take hmem)
  exact (blobSteps_no_rename hstep).1 bytes rfl

theorem between_idx {ord : WalkOrder FileStep} {kept : List ChunkRecord} (hidx : dir.idx.isSome) (hlog : dir.log.isSome) :
    BetweenRenames (planSteps ord dir kept) ((blobSteps kept dir.blobs).length + 1) := by
  have hlen : (ord.walk (blobSteps kept dir.blobs) ++ [FileStep.renameIdx (indexFile kept)]).length =
      (blobSteps kept dir.blobs).length + 1 := by
    rw [List.length_append, length_walk]
    rfl
  unfold BetweenRenames planSteps idxSteps logSteps
  rw [if_pos hidx, if_pos hlog, List.take_left' hlen, List.drop_left' hlen]
  exact ⟨⟨_, List.mem_append_right _ (List.mem_singleton_self _)⟩, _, List.mem_singleton_self _⟩

theorem not_between_all {ord : WalkOrder FileStep} {kept : List ChunkRecord} {k : ℕ}
    (hk : (blobSteps kept dir.blobs).length < k)
    (hboth : ¬ (dir.idx.isSome ∧ dir.log.isSome ∧ k = (blobSteps kept dir.blobs).length + 1)) :
    ¬ BetweenRenames (planSteps ord dir kept) k := by
  rintro ⟨-, bytes, hmem⟩
  rw [List.drop_of_length_le (length_planSteps_le hk hboth)] at hmem
  simp at hmem

/-- **When a purge can be started again.** The second run ends exactly where an
uninterrupted one does, unless the first was stopped between the two renames. -/
theorem rerun_iff {cs : List SaveCall} {written : Dir} (hw : Written z cs written) (hrange : ∀ c ∈ cs, c.InRange)
    (hh : HeldAs written dir) (ord ord' : WalkOrder FileStep) (t : UInt32) (k : ℕ) :
    ∃ steps n full mid again m, purgePlan ord dir t = .ok (steps, n) ∧ purge ord dir t = .ok (full, n) ∧
      applySteps dir (steps.take k) = .ok mid ∧ purge ord' mid t = .ok (again, m) ∧
      (again = full ↔ ¬ BetweenRenames steps k) := by
  obtain ⟨vs, hdir, -, -⟩ := written_ok hw hrange
  have h := hh.formOk hdir
  obtain ⟨full, hpurge, -, hfull⟩ := purge_ok ord h t
  have hplan := purgePlan_ok (t := t) ord h
  by_cases hd : dropped vs t = 0
  · -- nothing to drop: both runs take no step
    rw [if_pos hd] at hplan hfull
    subst hfull
    obtain ⟨again, hagain, -, heq⟩ := purge_ok ord' h t
    rw [if_pos hd] at heq
    refine ⟨_, _, _, full, again, _, hplan, hpurge, by rw [List.take_nil, applySteps_nil], hagain, ?_⟩
    have hnot : ¬ BetweenRenames [] k := by
      rintro ⟨⟨bytes, hmem⟩, -⟩
      simp at hmem
    exact iff_of_true heq hnot
  · rw [if_neg hd] at hplan hfull
    subst hfull
    by_cases hk : k ≤ (blobSteps (sortedChunks (keptVersions vs t)) dir.blobs).length
    · obtain ⟨blobs', hmid, htrim⟩ :
          ∃ blobs', applySteps dir ((planSteps ord dir (sortedChunks (keptVersions vs t))).take k) =
            .ok { dir with blobs := blobs' } ∧ Trimmed (sortedChunks (keptVersions vs t)) dir.blobs blobs' :=
        plan_take_blobs h.covers.cuttable hk
      exact ⟨_, _, _, _, _, _, hplan, hpurge, hmid, rerun_blobs ord' h hd htrim,
        iff_of_true rfl (not_between_blobs hk)⟩
    · by_cases hboth : dir.idx.isSome ∧ dir.log.isSome ∧
          k = (blobSteps (sortedChunks (keptVersions vs t)) dir.blobs).length + 1
      · obtain ⟨hidx, hlog, rfl⟩ := hboth
        refine ⟨_, _, _, _, _, _, hplan, hpurge, plan_take_idx h.covers.cuttable hidx hlog, rerun_idx ord' h _, ?_⟩
        refine iff_of_false (fun heq => ?_) (not_not.2 (between_idx hidx hlog))
        have hlogs := congrArg Dir.log heq
        exact log_ne h hd hlog hlogs
      · exact ⟨_, _, _, _, _, _, hplan, hpurge, plan_take_all h.covers.cuttable (by omega) hboth, rerun_done ord' h,
          iff_of_true rfl (not_between_all (by omega) hboth)⟩

end Rerun

/-! ## Two saves, purged at the first -/

/-- A database of two saves, with an index made of its log. -/
theorem exists_both : ∃ written dir vs, Written Zstd.raw (onePages [(noise 1, 1), (noise 2, 4)]) written ∧
    HeldAs written dir ∧ FormOk Zstd.raw vs dir ∧ dir.idx = some (indexFile (sortedChunks vs)) ∧ dir.log.isSome ∧
    dropped vs 1 ≠ 0 := by
  obtain ⟨written, hw⟩ : ∃ dir, Written Zstd.raw (onePages [(noise 1, 1), (noise 2, 4)]) dir :=
    written_onePages Zstd.raw_small (by decide : 1 ≤ 4 ∧ 4 ≤ 255) 512 true (by simp) (by simp) (by decide : 0 < (5 : UInt32))
      (by decide) (by decide)
  obtain ⟨vs, hd, hr, -⟩ := written_ok hw (onePages_inRange _)
  have hh : HeldAs written { written with idx := some (indexFile (sortedChunks vs)) } :=
    ⟨.inr rfl, .inr ⟨_, toBtree_ok hd, rfl⟩, .inr (by simp), rfl⟩
  have hsaved : savedBy (onePages [(noise 1, 1), (noise 2, 4)]) 0 4 (noise 2) :=
    savedBy_onePage.2 ⟨rfl, (noise 2, 4), by simp, rfl, rfl⟩
  obtain ⟨v, ⟨hv, -, hsnap⟩, -⟩ := (hr 0 4 (noise 2)).2 hsaved
  have hdrop : dropped vs 1 ≠ 0 := dropped_ne_zero hv (by rw [hsnap]; decide)
  obtain ⟨m, hm, -⟩ := hd.log
  exact ⟨written, _, vs, hw, hh, hh.formOk hd, rfl, by rw [hm]; rfl, hdrop⟩

/-- The second run leaves the dropped record in `chunks.log`, and `to_btree` brings the
whole old index back. -/
theorem rerun_wrong : ∃ written dir steps n full mid, Written Zstd.raw (onePages [(noise 1, 1), (noise 2, 4)]) written ∧
    HeldAs written dir ∧ purgePlan (WalkOrder.id _) dir 1 = .ok (steps, n) ∧
    purge (WalkOrder.id _) dir 1 = .ok (full, n) ∧ applySteps dir (steps.take (steps.length - 1)) = .ok mid ∧
    purge (WalkOrder.id _) mid 1 = .ok (mid, 0) ∧ mid.log ≠ full.log ∧
    toBtree mid = .ok { mid with idx := dir.idx } := by
  obtain ⟨written, dir, vs, hw, hh, h, hi, hlog, hdrop⟩ := exists_both
  have hidx : dir.idx.isSome := by rw [hi]; rfl
  have hne := log_ne h hdrop hlog
  obtain ⟨full, hpurge, -, hfull⟩ := purge_ok (WalkOrder.id _) h 1
  have hplan := purgePlan_ok (t := 1) (WalkOrder.id _) h
  rw [if_neg hdrop] at hplan hfull
  subst hfull
  have hlast : (planSteps (WalkOrder.id _) dir (sortedChunks (keptVersions vs 1))).length - 1 =
      (blobSteps (sortedChunks (keptVersions vs 1)) dir.blobs).length + 1 := by
    unfold planSteps idxSteps logSteps
    rw [if_pos hidx, if_pos hlog, List.length_append, List.length_append, length_walk]
    rfl
  set kept := sortedChunks (keptVersions vs 1) with hkept
  set mid : Dir := { dir with idx := some (indexFile kept), blobs := fun w => trimBlob kept w (dir.blobs w) }
  have hmid : applySteps dir ((planSteps (WalkOrder.id _) dir kept).take
      ((planSteps (WalkOrder.id _) dir kept).length - 1)) = .ok mid := by
    rw [hlast]
    exact plan_take_idx h.covers.cuttable hidx hlog
  have hagain : purge (WalkOrder.id _) mid 1 = .ok (mid, 0) := rerun_idx (WalkOrder.id _) h _
  -- the log still holds every record
  have hback : toBtree mid = .ok { mid with idx := dir.idx } := by
    obtain ⟨bytes, hl⟩ := Option.isSome_iff_exists.1 hlog
    have hl' : mid.log = some bytes := hl
    unfold toBtree
    rw [hl']
    dsimp only
    rw [h.lazyIndex hl, ok_bind, hi]
  exact ⟨written, dir, _, _, _, mid, hw, hh, hplan, hpurge, hmid, hagain, hne, hback⟩

/-- The same database, stopped after one step. -/
theorem rerun_iff_noise : ∃ written dir, Written Zstd.raw (onePages [(noise 1, 1), (noise 2, 4)]) written ∧
    HeldAs written dir ∧ ∃ steps n full mid again m, purgePlan (WalkOrder.id _) dir 1 = .ok (steps, n) ∧
      purge (WalkOrder.id _) dir 1 = .ok (full, n) ∧ applySteps dir (steps.take 1) = .ok mid ∧
      purge (WalkOrder.id _) mid 1 = .ok (again, m) ∧ (again = full ↔ ¬ BetweenRenames steps 1) := by
  obtain ⟨written, dir, -, hw, hh, -⟩ := exists_both
  exact ⟨written, dir, hw, hh, rerun_iff hw (onePages_inRange _) hh (WalkOrder.id _) (WalkOrder.id _) 1 1⟩

end Bxdb
