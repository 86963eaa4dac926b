import Bxdb.Proof.Conversion

/-!
# Purge with conversion, purge after purge

* `purge_iff`: **what a purge does, for any records it finds**, and when it fails.
* `purge_files`: on a database held in any form, the files after a purge are those of
  the kept versions.
* `purge_compose`: **purging an index is converting a purged log, and the lower of two
  thresholds wins.**
-/

namespace Bxdb

open Bytes SortedIndex ChunkRecord

/-! ## Any records -/

section Purge

variable {rs kept : List ChunkRecord} {dir dir' : Dir} {t : UInt32} {n : ℕ} {ord : WalkOrder FileStep}

/-- What a purge that drops something needs of the worker files. -/
structure Purgeable (kept : List ChunkRecord) (blobs : UInt8 → Option Bytes) : Prop where
  bound : ∀ r ∈ kept, r.kind ≠ .zero → endOf r < 2 ^ 64
  cut : Cuttable kept blobs

/-- No step brings a worker's file into being. -/
theorem applyStep_isSome {s : FileStep} (h : applyStep dir s = .ok dir') {w : UInt8} (hw : (dir'.blobs w).isSome) :
    (dir.blobs w).isSome := by
  -- no step creates a file
  cases s with
  | truncate w₀ k =>
    unfold applyStep at h
    dsimp only at h
    split at h
    · simp [notFoundErr, ioErr] at h
    · rename_i bytes hb
      split at h
      · simp [ioErr] at h
      · obtain rfl := Except.ok.inj h
        by_cases hww : w = w₀
        · subst hww
          rw [hb]
          rfl
        · change (Function.update dir.blobs w₀ _ w).isSome at hw
          rwa [Function.update_of_ne hww] at hw
  | remove w₀ =>
    obtain rfl := Except.ok.inj h
    by_cases hww : w = w₀
    · subst hww
      change (Function.update dir.blobs w none w).isSome at hw
      rw [Function.update_self] at hw
      simp at hw
    · change (Function.update dir.blobs w₀ none w).isSome at hw
      rwa [Function.update_of_ne hww] at hw
  | renameIdx bytes =>
    obtain rfl := Except.ok.inj h
    exact hw
  | renameLog bytes =>
    obtain rfl := Except.ok.inj h
    exact hw

/-- **Steps that all succeed** found every file they cut. -/
theorem truncate_of_run {w : UInt8} {k : ℕ} : ∀ (steps : List FileStep) {dir dir' : Dir}, applySteps dir steps = .ok dir' →
    .truncate w k ∈ steps → (dir.blobs w).isSome ∧ k ≤ maxFileLen
  | [], dir, dir', _, hmem => by simp at hmem
  | s :: steps, dir, dir', h, hmem => by
    rw [applySteps_cons] at h
    obtain ⟨mid, hs, hrest⟩ := bind_eq_ok.1 h
    rcases List.mem_cons.1 hmem with rfl | hmem
    · unfold applyStep at hs
      dsimp only at hs
      split at hs
      · simp [notFoundErr, ioErr] at hs
      · rename_i bytes hb
        split at hs
        · simp [ioErr] at hs
        · rename_i hle
          exact ⟨by rw [hb]; rfl, by omega⟩
    · obtain ⟨hsome, hle⟩ := truncate_of_run steps hrest hmem
      exact ⟨applyStep_isSome hs hsome, hle⟩

/-- **When the steps of a purge succeed**, in whatever order the worker files are walked. -/
theorem applySteps_plan_iff :
    applySteps dir (planSteps ord dir kept) = .ok dir' ↔ Cuttable kept dir.blobs ∧ dir' = purgedDir dir kept := by
  constructor
  · intro h
    have hcut : Cuttable kept dir.blobs := by
      intro w hw
      refine truncate_of_run _ h ?_
      have hmem : FileStep.truncate w (keepLen kept w) ∈ blobSteps kept dir.blobs := by
        refine List.mem_append_left _ (List.mem_map_of_mem ?_)
        exact List.mem_filter.2 ⟨mem_allWorkers w, by simpa using hw⟩
      unfold planSteps
      rw [List.append_assoc]
      exact List.mem_append_left _ ((ord.perm _).mem_iff.2 hmem)
    rw [applySteps_plan hcut] at h
    exact ⟨hcut, (Except.ok.inj h).symm⟩
  · rintro ⟨hcut, rfl⟩
    exact applySteps_plan hcut

/-- The sums that `truncate_blobs` computes must fit 64 bits. -/
theorem purgeSteps_eq (ord : WalkOrder FileStep) (dir : Dir) (kept : List ChunkRecord) :
    purgeSteps ord dir kept = .ok (planSteps ord dir kept) ∧ (∀ r ∈ kept, r.kind ≠ .zero → endOf r < 2 ^ 64) ∨
    (∃ e, purgeSteps ord dir kept = .error e) ∧ ¬ ∀ r ∈ kept, r.kind ≠ .zero → endOf r < 2 ^ 64 := by
  unfold purgeSteps truncateBlobs
  by_cases hany : kept.any (fun r => r.kind != .zero && decide (2 ^ 64 ≤ endOf r)) = true
  · right
    rw [if_pos hany]
    refine ⟨⟨_, rfl⟩, fun hall => ?_⟩
    obtain ⟨r, hr, hbad⟩ := List.any_eq_true.1 hany
    rw [Bool.and_eq_true, decide_eq_true_eq] at hbad
    have := hall r hr (by simpa using hbad.1)
    omega
  · left
    rw [if_neg hany]
    refine ⟨rfl, fun r hr hk => ?_⟩
    by_contra hge
    refine hany (List.any_eq_true.2 ⟨r, hr, ?_⟩)
    rw [Bool.and_eq_true, decide_eq_true_eq]
    exact ⟨by simpa using hk, by omega⟩

/-- **What a purge does**: nothing, when every record is at or below the threshold;
otherwise it needs the worker files of the records it keeps. -/
theorem purge_iff (hread : readRecords dir = .ok rs) (hkept : kept = rs.filter fun r => snapshotOf r.key ≤ t) :
    purge ord dir t = .ok (dir', n) ↔ n = rs.length - kept.length ∧
      (n = 0 ∧ dir' = dir ∨ n ≠ 0 ∧ Purgeable kept dir.blobs ∧ dir' = purgedDir dir kept) := by
  unfold purge purgePlan keptRecords
  rw [hread, ok_bind, ok_bind]
  dsimp only
  rw [← hkept]
  by_cases hzero : rs.length - kept.length = 0
  · -- no record is dropped, and no file is touched
    rw [if_pos hzero, ok_bind]
    dsimp only
    rw [applySteps_nil, ok_bind, hzero]
    constructor
    · intro h
      obtain ⟨rfl, rfl⟩ := Prod.mk.inj (Except.ok.inj h)
      exact ⟨rfl, .inl ⟨rfl, rfl⟩⟩
    · rintro ⟨rfl, ⟨-, rfl⟩ | ⟨hne, -⟩⟩
      · rfl
      · exact absurd rfl hne
  · rw [if_neg hzero]
    -- the steps are refused when a kept range ends at 2 ^ 64 or above
    rcases purgeSteps_eq ord dir kept with ⟨hsteps, hbound⟩ | ⟨⟨e, hsteps⟩, hbound⟩
    · rw [hsteps, ok_bind, ok_bind]
      dsimp only
      rw [bind_eq_ok]
      constructor
      · rintro ⟨d, hrun, h⟩
        obtain ⟨hcut, rfl⟩ := applySteps_plan_iff.1 hrun
        obtain ⟨rfl, rfl⟩ := Prod.mk.inj (Except.ok.inj h)
        exact ⟨rfl, .inr ⟨hzero, ⟨hbound, hcut⟩, rfl⟩⟩
      · rintro ⟨rfl, ⟨h0, -⟩ | ⟨-, hp, rfl⟩⟩
        · exact absurd h0 hzero
        · exact ⟨_, applySteps_plan_iff.2 ⟨hp.cut, rfl⟩, rfl⟩
    · rw [hsteps]
      constructor
      · intro h
        simp [bind, Except.bind] at h
      · rintro ⟨rfl, ⟨h0, -⟩ | ⟨-, hp, -⟩⟩
        · exact absurd h0 hzero
        · exact absurd hp.bound hbound

/-! ## Purge and conversion -/

/-- The outcome of both routes: the number of records dropped, and the index of the kept
ones. -/
def Outcome (rs : List ChunkRecord) (blobs : UInt8 → Option Bytes) (t : UInt32) (idx : Bytes) (n : ℕ) : Prop :=
  let kept := rs.filter fun r => snapshotOf r.key ≤ t
  n = rs.length - kept.length ∧ idx = indexFile kept ∧ (n = 0 ∨ Purgeable kept blobs)

theorem filter_eq_self_of_length {p : ChunkRecord → Bool} (h : rs.length - (rs.filter p).length = 0) : rs.filter p = rs := by
  have hle := List.length_filter_le p rs
  exact List.Sublist.eq_of_length List.filter_sublist (by omega)

theorem convert_purge {idx : Bytes} (hi : dir.idx = some (indexFile rs)) :
    (∃ d, purge ord dir t = .ok (d, n) ∧ d.idx = some idx) ↔ Outcome rs dir.blobs t idx n := by
  have hread : readRecords dir = .ok rs := by
    unfold readRecords
    rw [hi]
    exact readIndex_file rs
  unfold Outcome
  dsimp only
  constructor
  · rintro ⟨d, hpurge, hidx⟩
    obtain ⟨rfl, ⟨h0, rfl⟩ | ⟨-, hp, rfl⟩⟩ := (purge_iff hread rfl).1 hpurge
    · rw [hi] at hidx
      rw [filter_eq_self_of_length h0]
      exact ⟨rfl, (Option.some.inj hidx).symm, .inl (Nat.sub_self _)⟩
    · unfold purgedDir at hidx
      rw [hi] at hidx
      exact ⟨rfl, (Option.some.inj hidx).symm, .inr hp⟩
  · rintro ⟨rfl, rfl, hor⟩
    by_cases h0 : rs.length - (rs.filter fun r => snapshotOf r.key ≤ t).length = 0
    · exact ⟨dir, (purge_iff hread rfl).2 ⟨rfl, .inl ⟨h0, rfl⟩⟩, by rw [filter_eq_self_of_length h0, hi]⟩
    · have hp := hor.resolve_left h0
      refine ⟨_, (purge_iff hread rfl).2 ⟨rfl, .inr ⟨h0, hp, rfl⟩⟩, ?_⟩
      unfold purgedDir
      rw [hi]
      rfl

theorem purge_convert {log idx : Bytes} (hi : dir.idx = none) (hl : dir.log = some log)
    (hrs : buildLazyIndex log = .ok rs) (hsorted : KeySorted rs) (hplain : ∀ r ∈ rs, r.Plain) :
    (∃ d d', purge ord dir t = .ok (d, n) ∧ toBtree d = .ok d' ∧ d'.idx = some idx) ↔ Outcome rs dir.blobs t idx n := by
  have hread : readRecords dir = .ok rs := by
    unfold readRecords
    rw [hi, hl]
    exact hrs
  have hall : toBtree dir = .ok { dir with idx := some (indexFile rs) } := by
    unfold toBtree
    rw [hl]
    dsimp only
    rw [hrs, ok_bind]
  -- a log that purge wrote is converted to the index of the kept records
  have hkept : toBtree (purgedDir dir (rs.filter fun r => snapshotOf r.key ≤ t)) =
      .ok { purgedDir dir (rs.filter fun r => snapshotOf r.key ≤ t) with
        idx := some (indexFile (rs.filter fun r => snapshotOf r.key ≤ t)) } := by
    refine toBtree_logFile (hsorted.filter _) (fun r hr => hplain r (List.mem_filter.1 hr).1) ?_
    unfold purgedDir
    rw [hl]
    rfl
  unfold Outcome
  dsimp only
  constructor
  · rintro ⟨d, d', hpurge, hconv, hidx⟩
    obtain ⟨rfl, ⟨h0, rfl⟩ | ⟨-, hp, rfl⟩⟩ := (purge_iff hread rfl).1 hpurge
    · rw [hall] at hconv
      obtain rfl := Except.ok.inj hconv
      rw [filter_eq_self_of_length h0]
      exact ⟨rfl, (Option.some.inj hidx).symm, .inl (Nat.sub_self _)⟩
    · rw [hkept] at hconv
      obtain rfl := Except.ok.inj hconv
      exact ⟨rfl, (Option.some.inj hidx).symm, .inr hp⟩
  · rintro ⟨rfl, rfl, hor⟩
    by_cases h0 : rs.length - (rs.filter fun r => snapshotOf r.key ≤ t).length = 0
    · refine ⟨dir, _, (purge_iff hread rfl).2 ⟨rfl, .inl ⟨h0, rfl⟩⟩, hall, ?_⟩
      rw [filter_eq_self_of_length h0]
    · have hp := hor.resolve_left h0
      exact ⟨_, _, (purge_iff hread rfl).2 ⟨rfl, .inr ⟨h0, hp, rfl⟩⟩, hkept, rfl⟩

end Purge

/-! ## Purge after purge -/

section Again

variable {z : Zstd} {vs : List Version} {dir written : Dir} {t : UInt32}

/-- The files a directory has hold the versions' records and their largest snapshot id. -/
structure Exact (vs : List Version) (dir : Dir) : Prop where
  log : dir.log = dir.log.map fun _ => logFile (sortedChunks vs)
  idx : dir.idx = dir.idx.map fun _ => indexFile (sortedChunks vs)

theorem HeldAs.exact (hh : HeldAs written dir) (hd : DirOk z vs written) (hlog : Headed vs written.log) : Exact vs dir where
  log := by
    rcases hh.log with hl | hl
    · rw [hl]
      rfl
    · rw [hl, Headed.logFile_eq hlog hd.ordered]
      rfl
  idx := by
    rcases hh.idx with hi | ⟨d, hd', hi⟩
    · rw [hi]
      rfl
    · rw [toBtree_ok hd] at hd'
      obtain rfl := Except.ok.inj hd'
      rw [hi]
      rfl

/-- **The files after a purge** are those of the kept versions, also when it had nothing
to drop. -/
theorem purge_files (ord : WalkOrder FileStep) (h : FormOk z vs dir) (he : Exact vs dir) (t : UInt32) :
    ∃ dir', purge ord dir t = .ok (dir', dropped vs t) ∧ FormOk z (keptVersions vs t) dir' ∧
      Exact (keptVersions vs t) dir' ∧ dir'.log = dir.log.map (fun _ => logFile (sortedChunks (keptVersions vs t))) ∧
      dir'.idx = dir.idx.map fun _ => indexFile (sortedChunks (keptVersions vs t)) := by
  obtain ⟨dir', hpurge, hform, heq⟩ := purge_ok ord h t
  have hfiles : dir'.log = dir.log.map (fun _ => logFile (sortedChunks (keptVersions vs t))) ∧
      dir'.idx = dir.idx.map fun _ => indexFile (sortedChunks (keptVersions vs t)) := by
    by_cases h0 : dropped vs t = 0
    · rw [if_pos h0] at heq
      rw [heq, dropped_eq_zero h0]
      exact ⟨he.log, he.idx⟩
    · rw [if_neg h0] at heq
      rw [heq]
      exact ⟨rfl, rfl⟩
  refine ⟨dir', hpurge, hform, ⟨?_, ?_⟩, hfiles⟩
  · rw [hfiles.1, Option.map_map]
    rfl
  · rw [hfiles.2, Option.map_map]
    rfl

/-- **The lower of two thresholds wins.** -/
theorem keptVersions_min (vs : List Version) (t₁ t₂ : UInt32) :
    keptVersions (keptVersions vs t₁) t₂ = keptVersions vs (min t₁ t₂) := by
  unfold keptVersions
  rw [List.filter_filter]
  congr 1
  funext v
  rw [min_toNat, Bool.eq_iff_iff, Bool.and_eq_true, decide_eq_true_eq, decide_eq_true_eq, decide_eq_true_eq]
  omega

theorem dropped_min (vs : List Version) (t₁ t₂ : UInt32) :
    dropped vs t₁ + dropped (keptVersions vs t₁) t₂ = dropped vs (min t₁ t₂) := by
  have h1 : (keptVersions vs t₁).length ≤ vs.length := List.length_filter_le _ _
  have h2 : (keptVersions (keptVersions vs t₁) t₂).length ≤ (keptVersions vs t₁).length := List.length_filter_le _ _
  unfold dropped
  rw [← keptVersions_min]
  omega

end Again

/-- **Purge commutes with conversion, and composes.** For every log that decodes, purging
the index made of it and converting the purged log have the same outcomes: both fail, or
both end with the same index and number. On a database in any form, two purges leave the
files of one at the lower threshold, and a second purge at the same threshold drops nothing. -/
theorem purge_compose (z : Zstd) :
    (∀ dir log rs t ord ord' n idx, dir.idx = none → dir.log = some log → buildLazyIndex log = .ok rs →
      ∃ d, toBtree dir = .ok d ∧ ((∃ d₁, purge ord { d with log := none } t = .ok (d₁, n) ∧ d₁.idx = some idx) ↔
        ∃ d₂ d₃, purge ord' dir t = .ok (d₂, n) ∧ toBtree d₂ = .ok d₃ ∧ d₃.idx = some idx)) ∧
    ∀ written dir, Maintained z written → HeldAs written dir → ∀ ord₁ ord₂ ord₃ t₁ t₂, ∃ d₁ d₂ d₃ n₁ n₂,
      purge ord₁ dir t₁ = .ok (d₁, n₁) ∧ purge ord₂ d₁ t₂ = .ok (d₂, n₂) ∧
      purge ord₃ dir (min t₁ t₂) = .ok (d₃, n₁ + n₂) ∧ d₂.log = d₃.log ∧ d₂.idx = d₃.idx ∧
      purge ord₂ d₁ t₁ = .ok (d₁, 0) := by
  refine ⟨fun dir log rs t ord ord' n idx hi hl hrs => ?_, fun written dir hm hh ord₁ ord₂ ord₃ t₁ t₂ => ?_⟩
  · have hall : toBtree dir = .ok { dir with idx := some (indexFile rs) } := by
      unfold toBtree
      rw [hl]
      dsimp only
      rw [hrs, ok_bind]
    obtain ⟨log', rs', hl', hrs', hsorted, hplain, -⟩ := toBtree_inv hall
    rw [hl] at hl'
    obtain rfl := Option.some.inj hl'
    rw [hrs] at hrs'
    obtain rfl := Except.ok.inj hrs'
    exact ⟨_, hall, (convert_purge rfl).trans (purge_convert hi hl hrs hsorted hplain).symm⟩
  · obtain ⟨vs, hd, -, hlog⟩ := (headed_keeps z).maintained (headed_purge z) hm
    have h := hh.formOk hd
    obtain ⟨d₁, hp₁, h₁, he₁, hlog₁, hidx₁⟩ := purge_files ord₁ h (hh.exact hd hlog) t₁
    obtain ⟨d₂, hp₂, -, -, hlog₂, hidx₂⟩ := purge_files ord₂ h₁ he₁ t₂
    obtain ⟨d₃, hp₃, -, -, hlog₃, hidx₃⟩ := purge_files ord₃ h (hh.exact hd hlog) (min t₁ t₂)
    refine ⟨d₁, d₂, d₃, _, _, hp₁, hp₂, ?_, ?_, ?_, ?_⟩
    · rw [dropped_min]
      exact hp₃
    · rw [hlog₂, hlog₁, hlog₃, keptVersions_min, Option.map_map]
      rfl
    · rw [hidx₂, hidx₁, hidx₃, keptVersions_min, Option.map_map]
      rfl
    · obtain ⟨d', hp', -, heq⟩ := purge_ok ord₂ h₁ t₁
      have hzero : dropped (keptVersions vs t₁) t₁ = 0 := by
        unfold dropped
        rw [keptVersions_min, show min t₁ t₁ = t₁ from ite_self _, Nat.sub_self]
      rw [if_pos hzero] at heq
      rw [hp', heq, hzero]

/-- A database of three saves, purged twice; and the first purge made after a conversion,
and before it. -/
theorem purge_compose_noise : ∃ dir d₁ d₂ d₃ n₁ n₂, Maintained Zstd.raw dir ∧ purge (WalkOrder.id _) dir 8 = .ok (d₁, n₁) ∧
    purge (WalkOrder.id _) d₁ 3 = .ok (d₂, n₂) ∧ purge (WalkOrder.id _) dir (min 8 3) = .ok (d₃, n₁ + n₂) ∧
    d₂.log = d₃.log ∧ ∃ b b' e, toBtree dir = .ok b ∧ purge (WalkOrder.id _) { b with log := none } 8 = .ok (b', n₁) ∧
      toBtree d₁ = .ok e ∧ b'.idx = e.idx := by
  obtain ⟨dir, -, hm, -⟩ := threeSaves_session
  obtain ⟨vs, hd, hidx⟩ := maintained_ok hm
  obtain ⟨hconvert, hcompose⟩ := purge_compose Zstd.raw
  obtain ⟨d₁, d₂, d₃, n₁, n₂, h1, h2, h3, h4, -⟩ :=
    hcompose dir dir hm (hd.heldAs hidx) (WalkOrder.id _) (WalkOrder.id _) (WalkOrder.id _) 8 3
  obtain ⟨log, rs, hl, hrs, -⟩ := toBtree_inv (toBtree_ok hd)
  -- the purged log can be converted
  obtain ⟨e, idx, he, hei⟩ : ∃ e idx, toBtree d₁ = .ok e ∧ e.idx = some idx := by
    obtain ⟨vs, hd, -, hlog⟩ := (headed_keeps Zstd.raw).maintained (headed_purge Zstd.raw) hm
    have hh : HeldAs dir dir := hd.heldAs hidx
    obtain ⟨d, hp, hform, -, hfile, -⟩ := purge_files (WalkOrder.id _) (hh.formOk hd) (hh.exact hd hlog) 8
    obtain ⟨rfl, -⟩ := Prod.mk.inj (Except.ok.inj (hp.symm.trans h1))
    rw [hl] at hfile
    exact ⟨_, _, toBtree_logFile (index_strict recordKey _) (fun r hr => chunks_plain hform.stored r
      ((mem_sortedChunks hform.ordered r).1 hr)) hfile, rfl⟩
  obtain ⟨b, hb, hiff⟩ := hconvert dir log rs 8 (WalkOrder.id _) (WalkOrder.id _) n₁ idx hidx hl hrs
  obtain ⟨b', hb', hbi⟩ := hiff.2 ⟨d₁, e, h1, he, hei⟩
  exact ⟨dir, d₁, d₂, d₃, n₁, n₂, hm, h1, h2, h3, h4, b, b', e, hb, hb', he, hbi.trans hei.symm⟩

end Bxdb
