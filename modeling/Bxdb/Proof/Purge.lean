import Bxdb.Spec.Purge
import Bxdb.Proof.EndToEnd

/-!
# Purge keeps every version up to the threshold

Purge keeps the versions up to its threshold (`keptVersions`) and shortens the worker
files. A worker file is, at every moment, as it was or as purge leaves it (`Trimmed`),
and both hold every range a kept record names.

* `purgePlan_ok`: the steps of a purge, explicitly.
* `blobSteps_run`: **running the steps on the worker files, in any order.**
* `purge_ok`: the directory after a purge holds exactly the kept versions.
* `purge_load`: **loads answer as if the clock stopped at the threshold**, and are
  undisturbed between any two steps.
-/

namespace Bxdb

open Bytes SortedIndex Versioned ChunkRecord

/-! ## The versions kept -/

/-- The versions up to a threshold. -/
def keptVersions (vs : List Version) (t : UInt32) : List Version := vs.filter fun v => v.snap ≤ t.toNat

section Kept

variable {vs : List Version} {t : UInt32} {v : Version}

theorem mem_keptVersions : v ∈ keptVersions vs t ↔ v ∈ vs ∧ v.snap ≤ t.toNat := by
  unfold keptVersions
  rw [List.mem_filter, decide_eq_true_eq]

theorem Ordered.kept (h : Ordered vs) : Ordered (keptVersions vs t) := List.Pairwise.filter _ h

/-- **The history of the kept versions** is the history up to the threshold. -/
theorem pagesOf_kept {pa : UInt64} {u : ℕ} {p : Page} :
    pagesOf (keptVersions vs t) pa u p ↔ upTo t.toNat (pagesOf vs) pa u p := by
  unfold pagesOf versionsOf upTo
  constructor
  · rintro ⟨v, ⟨hv, hpa, rfl⟩, hp⟩
    obtain ⟨hv, hle⟩ := mem_keptVersions.1 hv
    exact ⟨⟨v, ⟨hv, hpa, rfl⟩, hp⟩, hle⟩
  · rintro ⟨⟨v, ⟨hv, hpa, rfl⟩, hp⟩, hle⟩
    exact ⟨v, ⟨mem_keptVersions.2 ⟨hv, hle⟩, hpa, rfl⟩, hp⟩

theorem asOf_kept {pa : UInt64} {s : ℕ} {r : Option Page} :
    AsOf (pagesOf (keptVersions vs t)) pa s r ↔ AsOf (pagesOf vs) pa (min s t.toNat) r :=
  (asOf_congr fun _ _ => pagesOf_kept).trans asOf_upTo

theorem mem_chunks_kept {r : ChunkRecord} :
    r ∈ chunks (keptVersions vs t) ↔ r ∈ chunks vs ∧ snapshotOf r.key ≤ t := by
  rw [List.mem_map, List.mem_map]
  constructor
  · rintro ⟨v, hv, rfl⟩
    obtain ⟨hv, hle⟩ := mem_keptVersions.1 hv
    exact ⟨⟨v, hv, rfl⟩, UInt32.le_iff_toNat_le.2 hle⟩
  · rintro ⟨⟨v, hv, rfl⟩, hle⟩
    exact ⟨v, mem_keptVersions.2 ⟨hv, UInt32.le_iff_toNat_le.1 hle⟩, rfl⟩

/-- Keeping records of the sorted list is sorting the kept versions. -/
theorem filter_sortedChunks (h : Ordered vs) (t : UInt32) :
    (sortedChunks vs).filter (fun r => snapshotOf r.key ≤ t) = sortedChunks (keptVersions vs t) := by
  refine eq_of_mem_iff ((index_strict recordKey _).filter _) (index_strict recordKey _) fun r => ?_
  rw [List.mem_filter, mem_sortedChunks h, mem_sortedChunks h.kept, mem_chunks_kept, decide_eq_true_eq]

theorem keptVersions_eq_self (h : (keptVersions vs t).length = vs.length) : keptVersions vs t = vs :=
  List.Sublist.eq_of_length (List.filter_sublist) h

end Kept

/-! ## The files written -/

/-- The order of the log, as a number. -/
def logKey (r : ChunkRecord) : ℕ := (snapshotOf r.key).toNat * 2 ^ 45 + (paOf r.key).toNat

theorem chunks_logKey {vs : List Version} (h : Ordered vs) :
    (chunks vs).Pairwise fun a b => logKey a < logKey b := by
  rw [List.pairwise_map]
  refine h.imp fun {a b} hab => ?_
  have ha := paOf_lt a.chunk.key
  unfold logKey
  change a.snap < b.snap ∨ a.snap = b.snap ∧ (paOf a.chunk.key).toNat < (paOf b.chunk.key).toNat at hab
  unfold Version.snap at hab
  omega

theorem uint32_toNat_injective : Function.Injective UInt32.toNat := fun _ _ => UInt32.toNat_inj.1

theorem mem_bySnap {rs : List ChunkRecord} {r : ChunkRecord} : r ∈ bySnap rs ↔ r ∈ rs := by
  unfold bySnap snapshotIds
  rw [List.mem_flatMap]
  constructor
  · rintro ⟨s, -, hr⟩
    exact (List.mem_filter.1 hr).1
  · intro hr
    refine ⟨snapshotOf r.key, (mem_index_of_injective uint32_toNat_injective).2 (List.mem_map_of_mem hr), ?_⟩
    exact List.mem_filter.2 ⟨hr, by simp⟩

theorem bySnap_logKey {rs : List ChunkRecord} (h : KeySorted rs) :
    (bySnap rs).Pairwise fun a b => logKey a < logKey b := by
  unfold bySnap
  rw [List.pairwise_flatMap]
  constructor
  · -- inside one snapshot the keys order the addresses
    intro s _
    refine (h.filter _).imp_of_mem fun {a b} ha hb hab => ?_
    have hsa : snapshotOf a.key = s := by simpa using (List.mem_filter.1 ha).2
    have hsb : snapshotOf b.key = s := by simpa using (List.mem_filter.1 hb).2
    rw [recordKey_eq, recordKey_eq, hsa, hsb] at hab
    have hpa : (paOf a.key).toNat < (paOf b.key).toNat := by omega
    unfold logKey
    rw [hsa, hsb]
    exact Nat.add_lt_add_left hpa _
  · have hsnaps : (snapshotIds rs).Pairwise fun s s' => s.toNat < s'.toNat := index_strict UInt32.toNat _
    refine hsnaps.imp ?_
    intro s s' hlt a ha b hb
    have hsa : snapshotOf a.key = s := by simpa using (List.mem_filter.1 ha).2
    have hsb : snapshotOf b.key = s' := by simpa using (List.mem_filter.1 hb).2
    have hpa := paOf_lt a.key
    unfold logKey
    rw [hsa, hsb]
    omega

/-- **Grouping by snapshot gives back log order.** -/
theorem bySnap_sortedChunks {vs : List Version} (h : Ordered vs) : bySnap (sortedChunks vs) = chunks vs := by
  refine eq_of_mem_iff (bySnap_logKey (index_strict recordKey _)) (chunks_logKey h) fun r => ?_
  rw [mem_bySnap, mem_sortedChunks h]

theorem uint32_le_max (a b : UInt32) : a ≤ max a b ∧ b ≤ max a b := by
  rw [show max a b = if a ≤ b then b else a from rfl]
  split
  · rename_i h
    exact ⟨h, UInt32.le_refl b⟩
  · rename_i h
    exact ⟨UInt32.le_refl a, (UInt32.le_total a b).resolve_left h⟩

theorem le_maxSnapshot {rs : List ChunkRecord} {r : ChunkRecord} (hr : r ∈ rs) :
    snapshotOf r.key ≤ maxSnapshot rs := by
  unfold maxSnapshot
  induction rs using List.reverseRecOn with
  | nil => simp at hr
  | append_singleton rs a ih =>
    rw [List.foldl_concat]
    obtain ⟨h1, h2⟩ := uint32_le_max (rs.foldl (fun m r => max m (snapshotOf r.key)) 0) (snapshotOf a.key)
    rcases List.mem_append.1 hr with hr | hr
    · exact UInt32.le_trans (ih hr) h1
    · rw [List.mem_singleton.1 hr]
      exact h2

theorem maxSnapshot_le (rs : List ChunkRecord) : maxSnapshot rs ≤ maxSnapshotId := by
  unfold maxSnapshot
  induction rs using List.reverseRecOn with
  | nil => exact UInt32.zero_le
  | append_singleton rs a ih =>
    rw [List.foldl_concat]
    set m := rs.foldl (fun m r => max m (snapshotOf r.key)) 0
    rw [show max m (snapshotOf a.key) = if m ≤ snapshotOf a.key then snapshotOf a.key else m from rfl]
    split
    · exact snapshotOf_le a.key
    · exact ih

/-! ## The plan -/

theorem decode_encodeIndex (rs : List ChunkRecord) : (rs.map encodeFixed).mapM decodeFixed = .ok rs := by
  induction rs with
  | nil => rfl
  | cons r rs ih =>
    rw [List.map_cons, List.mapM_cons, decodeFixed_encodeFixed, ok_bind, ih]
    rfl

theorem readIndex_file {m : UInt32} (rs : List ChunkRecord) :
    readIndex (writeIndexHeader m ++ encodeIndex rs) = .ok rs := by
  have hheader : readAndVerifyHeader (writeIndexHeader m ++ encodeIndex rs) magicIdx = .ok (m, encodeIndex rs) :=
    readAndVerifyHeader_write rfl m _
  have hchunks : chunksExact fixedRecordSize (encodeIndex rs) = rs.map encodeFixed :=
    chunksExact_flatMap (by decide) length_encodeFixed rs
  unfold readIndex
  rw [hheader, ok_bind]
  dsimp only
  rw [length_encodeIndex, Nat.mul_mod_left, if_neg (by simp), hchunks, decode_encodeIndex]

section Plan

variable {z : Zstd} {vs : List Version} {v : Version} {dir : Dir} {t : UInt32}

theorem length_sortedChunks (h : Ordered vs) : (sortedChunks vs).length = vs.length := by
  have hnodup : (sortedChunks vs).Nodup := (index_strict recordKey (chunks vs)).imp fun hlt heq => by
    rw [heq] at hlt
    exact lt_irrefl _ hlt
  have hchunks : (chunks vs).Nodup := List.Nodup.of_map recordKey (recordKeys_nodup h.distinct)
  rw [((List.perm_ext_iff_of_nodup hnodup hchunks).2 (mem_sortedChunks h)).length_eq, List.length_map]

/-- The number of versions a purge drops. -/
def dropped (vs : List Version) (t : UInt32) : ℕ := vs.length - (keptVersions vs t).length

/-- The log of a well-formed directory, read whole. -/
theorem FormOk.lazyIndex (h : FormOk z vs dir) {bytes : Bytes} (hl : dir.log = some bytes) :
    buildLazyIndex bytes = .ok (sortedChunks vs) := by
  obtain ⟨m, rfl, -⟩ := h.log bytes hl
  exact buildLazyIndex_encode (chunks_plain h.stored) m

/-- **The records a purge starts from**, read from the index or from the log. -/
theorem readRecords_ok (h : FormOk z vs dir) : readRecords dir = .ok (sortedChunks vs) := by
  unfold readRecords
  cases hi : dir.idx with
  | some bytes =>
    obtain ⟨m, rfl⟩ := h.idx bytes hi
    exact readIndex_file _
  | none =>
    cases hl : dir.log with
    | none => exact absurd h.present (by simp [hi, hl])
    | some bytes => exact h.lazyIndex hl

theorem dropped_eq_zero (h : dropped vs t = 0) : keptVersions vs t = vs := by
  have hle : (keptVersions vs t).length ≤ vs.length := List.length_filter_le _ _
  unfold dropped at h
  exact keptVersions_eq_self (by omega)

/-- A purge drops something when there is something above its threshold. -/
theorem dropped_ne_zero (hv : v ∈ vs) (hlt : t.toNat < v.snap) : dropped vs t ≠ 0 := by
  intro h
  rw [← dropped_eq_zero h] at hv
  have := (mem_keptVersions.1 hv).2
  omega

/-- Where a stored record's bytes lie. -/
theorem Stored.range {blobs : UInt8 → Option Bytes} {v : Version} (h : Stored z vs blobs v)
    (hk : v.chunk.kind ≠ .zero) :
    ∃ bs, blobs v.chunk.workerId = some bs ∧ endOf v.chunk ≤ bs.length ∧ endOf v.chunk < 2 ^ 64 := by
  cases h with
  | zero => exact absurd rfl hk
  | full hblob hdata => exact ⟨_, hblob, hdata.end_le⟩
  | delta hbase hfull hpa hsnap hblob hdata => exact ⟨_, hblob, hdata.end_le⟩

end Plan

/-! ## The worker files -/

section Blobs

variable {kept : List ChunkRecord} {w : UInt8}

/-- What purge leaves in a worker's file. -/
def trimBlob (kept : List ChunkRecord) (w : UInt8) (b : Option Bytes) : Option Bytes :=
  if ¬ (blobRecords kept w).isEmpty then b.map fun bytes => setLen bytes (keepLen kept w)
  else if kept.any fun r => r.workerId == w then b
  else none

/-- A step purge takes on a worker's file. -/
inductive BlobStep (kept : List ChunkRecord) : UInt8 → FileStep → Prop
  | truncate {w : UInt8} (h : ¬ (blobRecords kept w).isEmpty) : BlobStep kept w (.truncate w (keepLen kept w))
  | remove {w : UInt8} (h : ¬ kept.any fun r => r.workerId == w) : BlobStep kept w (.remove w)

/-- Every file that a kept record needs is there, and long enough. -/
def Covers (kept : List ChunkRecord) (blobs : UInt8 → Option Bytes) : Prop :=
  ∀ w, ¬ (blobRecords kept w).isEmpty → ∃ bs, blobs w = some bs ∧ keepLen kept w ≤ bs.length ∧ bs.length ≤ maxFileLen

/-- Every file that a kept record needs is there, and can be set to its new length. -/
def Cuttable (kept : List ChunkRecord) (blobs : UInt8 → Option Bytes) : Prop :=
  ∀ w, ¬ (blobRecords kept w).isEmpty → (blobs w).isSome ∧ keepLen kept w ≤ maxFileLen

theorem Covers.cuttable {blobs : UInt8 → Option Bytes} (h : Covers kept blobs) : Cuttable kept blobs := by
  intro w hw
  obtain ⟨bs, hbs, hle, hmax⟩ := h w hw
  exact ⟨by rw [hbs]; rfl, hle.trans hmax⟩

theorem length_setLen (bs : Bytes) (n : ℕ) : (setLen bs n).length = n := by
  unfold setLen
  rw [List.length_append, List.length_take, List.length_replicate]
  omega

theorem setLen_of_le {bs : Bytes} {n : ℕ} (h : n ≤ bs.length) : setLen bs n = bs.take n := by
  unfold setLen
  rw [Nat.sub_eq_zero_of_le h, List.replicate_zero, List.append_nil]

theorem setLen_self (bs : Bytes) : setLen bs bs.length = bs := by
  rw [setLen_of_le (le_refl _), List.take_length]

theorem setLen_setLen (bs : Bytes) (n : ℕ) : setLen (setLen bs n) n = setLen bs n := by
  have := setLen_self (setLen bs n)
  rwa [length_setLen] at this

/-- **Trimming twice is trimming once.** -/
theorem trimBlob_trimBlob (b : Option Bytes) : trimBlob kept w (trimBlob kept w b) = trimBlob kept w b := by
  unfold trimBlob
  split
  · cases b with
    | none => rfl
    | some bs => rw [Option.map_some, Option.map_some, setLen_setLen]
  · split
    · rfl
    · rfl

theorem blobRecords_any (h : ¬ (blobRecords kept w).isEmpty) : kept.any (fun r => r.workerId == w) = true := by
  obtain ⟨r, hr⟩ := List.exists_mem_of_ne_nil _ (by simpa using h)
  obtain ⟨hmem, hp⟩ := List.mem_filter.1 hr
  rw [Bool.and_eq_true] at hp
  exact List.any_eq_true.2 ⟨r, hmem, hp.2⟩

theorem trimBlob_truncate (h : ¬ (blobRecords kept w).isEmpty) (b : Option Bytes) :
    trimBlob kept w b = b.map fun bytes => setLen bytes (keepLen kept w) := if_pos h

theorem trimBlob_remove (h : ¬ kept.any fun r => r.workerId == w) (b : Option Bytes) : trimBlob kept w b = none := by
  have hempty : ¬ ¬ (blobRecords kept w).isEmpty := fun hne => h (blobRecords_any hne)
  unfold trimBlob
  rw [if_neg hempty, if_neg h]

/-- **One step on a worker's file** leaves it trimmed. -/
theorem applyStep_blob {s : FileStep} (hs : BlobStep kept w s) {dir : Dir} (hc : Cuttable kept dir.blobs) :
    applyStep dir s = .ok { dir with blobs := Function.update dir.blobs w (trimBlob kept w (dir.blobs w)) } := by
  cases hs with
  | truncate h =>
    obtain ⟨hsome, hmax⟩ := hc w h
    obtain ⟨bs, hbs⟩ := Option.isSome_iff_exists.1 hsome
    rw [trimBlob_truncate h]
    unfold applyStep
    dsimp only
    rw [hbs]
    dsimp only
    rw [if_neg (by omega)]
    rfl
  | remove h =>
    rw [trimBlob_remove h]
    rfl

/-- **A state of the worker files during a purge**: each is as it was, or trimmed. -/
def Trimmed (kept : List ChunkRecord) (blobs blobs' : UInt8 → Option Bytes) : Prop :=
  ∀ w, blobs' w = blobs w ∨ blobs' w = trimBlob kept w (blobs w)

/-- Trimming some files leaves what is needed in place. -/
theorem Cuttable.trim {blobs blobs' : UInt8 → Option Bytes} (hc : Cuttable kept blobs) (h : Trimmed kept blobs blobs') :
    Cuttable kept blobs' := by
  intro w hw
  obtain ⟨hsome, hmax⟩ := hc w hw
  refine ⟨?_, hmax⟩
  rcases h w with h | h
  · rw [h]; exact hsome
  · rw [h, trimBlob_truncate hw, Option.isSome_map]
    exact hsome

theorem applySteps_nil (dir : Dir) : applySteps dir [] = .ok dir := rfl

theorem applySteps_cons (dir : Dir) (s : FileStep) (steps : List FileStep) :
    applySteps dir (s :: steps) = (applyStep dir s >>= fun d => applySteps d steps) := List.foldlM_cons

theorem applySteps_append (dir : Dir) (steps steps' : List FileStep) :
    applySteps dir (steps ++ steps') = (applySteps dir steps >>= fun d => applySteps d steps') := List.foldlM_append

theorem BlobStep.worker {w' : UInt8} {s : FileStep} (h : BlobStep kept w s) (h' : BlobStep kept w' s) : w = w' := by
  cases h with
  | truncate _ => cases h'; rfl
  | remove _ => cases h'; rfl

/-- **Running steps on the worker files**, in any order: exactly the files they name are
trimmed. -/
theorem blobSteps_run : ∀ (steps : List FileStep) {dir : Dir}, (∀ s ∈ steps, ∃ w, BlobStep kept w s) →
    Cuttable kept dir.blobs → ∃ blobs', applySteps dir steps = .ok { dir with blobs := blobs' } ∧
      ∀ w, ((∃ s ∈ steps, BlobStep kept w s) → blobs' w = trimBlob kept w (dir.blobs w)) ∧
        ((¬ ∃ s ∈ steps, BlobStep kept w s) → blobs' w = dir.blobs w)
  | [], dir, _, _ => ⟨dir.blobs, applySteps_nil dir, fun w => ⟨by simp, fun _ => rfl⟩⟩
  | s :: steps, dir, hsteps, hc => by
    obtain ⟨w₀, hs⟩ := hsteps s List.mem_cons_self
    set mid : Dir := { dir with blobs := Function.update dir.blobs w₀ (trimBlob kept w₀ (dir.blobs w₀)) } with hmid
    have hself : mid.blobs w₀ = trimBlob kept w₀ (dir.blobs w₀) := Function.update_self _ _ _
    have hother : ∀ w, w ≠ w₀ → mid.blobs w = dir.blobs w := fun w hw => Function.update_of_ne hw _ _
    have hc' : Cuttable kept mid.blobs := hc.trim fun w => by
      by_cases hw : w = w₀
      · subst hw
        exact .inr hself
      · exact .inl (hother w hw)
    obtain ⟨blobs', hrun, hb⟩ := blobSteps_run steps (fun s' hs' => hsteps s' (List.mem_cons_of_mem _ hs')) hc'
    refine ⟨blobs', by rw [applySteps_cons, applyStep_blob hs hc, ok_bind, hrun], fun w => ⟨?_, ?_⟩⟩
    · rintro ⟨s', hs', hw⟩
      by_cases hlater : ∃ s ∈ steps, BlobStep kept w s
      · -- a later step names the file again
        rw [(hb w).1 hlater]
        by_cases hw₀ : w = w₀
        · subst hw₀
          rw [hself, trimBlob_trimBlob]
        · rw [hother w hw₀]
      · rcases List.mem_cons.1 hs' with rfl | hs'
        · rw [hw.worker hs] at hlater ⊢
          rw [(hb w₀).2 hlater, hself]
        · exact absurd ⟨s', hs', hw⟩ hlater
    · intro hnone
      have hlater : ¬ ∃ s ∈ steps, BlobStep kept w s := by
        rintro ⟨s', hs', hw⟩
        exact hnone ⟨s', List.mem_cons_of_mem _ hs', hw⟩
      have hw₀ : w ≠ w₀ := by
        rintro rfl
        exact hnone ⟨s, List.mem_cons_self, hs⟩
      rw [(hb w).2 hlater, hother w hw₀]

theorem mem_allWorkers (w : UInt8) : w ∈ allWorkers := by
  unfold allWorkers
  refine List.mem_map.2 ⟨⟨w.toNat, w.toNat_lt⟩, List.mem_finRange _, ofFin_toNat w⟩

/-- The truncations and removals of a purge. -/
def blobSteps (kept : List ChunkRecord) (blobs : UInt8 → Option Bytes) : List FileStep :=
  ((allWorkers.filter fun w => ¬ (blobRecords kept w).isEmpty).map fun w => .truncate w (keepLen kept w)) ++
    (allWorkers.filter fun w => (blobs w).isSome && ¬ kept.any fun r => r.workerId == w).map .remove

theorem blobSteps_blobStep {blobs : UInt8 → Option Bytes} {s : FileStep} (hs : s ∈ blobSteps kept blobs) :
    ∃ w, BlobStep kept w s := by
  unfold blobSteps at hs
  rcases List.mem_append.1 hs with hs | hs
  · obtain ⟨w, hw, rfl⟩ := List.mem_map.1 hs
    exact ⟨w, .truncate (by simpa using (List.mem_filter.1 hw).2)⟩
  · obtain ⟨w, hw, rfl⟩ := List.mem_map.1 hs
    have hp := (List.mem_filter.1 hw).2
    rw [Bool.and_eq_true, decide_eq_true_eq] at hp
    exact ⟨w, .remove hp.2⟩

/-- **Every file that trimming changes is named by a step.** -/
theorem trimBlob_of_not_step {blobs : UInt8 → Option Bytes} (h : ¬ ∃ s ∈ blobSteps kept blobs, BlobStep kept w s) :
    trimBlob kept w (blobs w) = blobs w := by
  have htrunc : ¬ ¬ (blobRecords kept w).isEmpty := by
    intro hne
    refine h ⟨_, List.mem_append_left _ (List.mem_map_of_mem ?_), .truncate hne⟩
    exact List.mem_filter.2 ⟨mem_allWorkers w, by simpa using hne⟩
  unfold trimBlob
  rw [if_neg htrunc]
  split
  · rfl
  · rename_i hany
    cases hb : blobs w with
    | none => rfl
    | some bs =>
      exfalso
      refine h ⟨_, List.mem_append_right _ (List.mem_map_of_mem ?_), .remove hany⟩
      refine List.mem_filter.2 ⟨mem_allWorkers w, ?_⟩
      rw [Bool.and_eq_true, decide_eq_true_eq]
      exact ⟨by rw [hb]; rfl, hany⟩

/-- **All steps on the worker files**, in any order. -/
theorem blobSteps_all {dir : Dir} (hc : Cuttable kept dir.blobs) {steps : List FileStep}
    (hp : steps.Perm (blobSteps kept dir.blobs)) :
    applySteps dir steps = .ok { dir with blobs := fun w => trimBlob kept w (dir.blobs w) } := by
  obtain ⟨blobs', hrun, hb⟩ := blobSteps_run steps (fun s hs => blobSteps_blobStep (hp.mem_iff.1 hs)) hc
  have hblobs : blobs' = fun w => trimBlob kept w (dir.blobs w) := by
    funext w
    by_cases hw : ∃ s ∈ steps, BlobStep kept w s
    · exact (hb w).1 hw
    · rw [(hb w).2 hw]
      refine (trimBlob_of_not_step ?_).symm
      rintro ⟨s, hs, hws⟩
      exact hw ⟨s, hp.mem_iff.2 hs, hws⟩
  rw [hrun, hblobs]

theorem blobSteps_trimmed {dir : Dir} (hc : Cuttable kept dir.blobs) {steps : List FileStep}
    (hsteps : ∀ s ∈ steps, s ∈ blobSteps kept dir.blobs) :
    ∃ blobs', applySteps dir steps = .ok { dir with blobs := blobs' } ∧ Trimmed kept dir.blobs blobs' := by
  obtain ⟨blobs', hrun, hb⟩ := blobSteps_run steps (fun s hs => blobSteps_blobStep (hsteps s hs)) hc
  refine ⟨blobs', hrun, fun w => ?_⟩
  by_cases hw : ∃ s ∈ steps, BlobStep kept w s
  · exact .inr ((hb w).1 hw)
  · exact .inl ((hb w).2 hw)

/-! ## All steps -/

def idxSteps (dir : Dir) (kept : List ChunkRecord) : List FileStep :=
  if dir.idx.isSome then [.renameIdx (indexFile kept)] else []

def logSteps (dir : Dir) (kept : List ChunkRecord) : List FileStep :=
  if dir.log.isSome then [.renameLog (logFile kept)] else []

/-- The steps of a purge that keeps these records. -/
def planSteps (ord : WalkOrder FileStep) (dir : Dir) (kept : List ChunkRecord) : List FileStep :=
  ord.walk (blobSteps kept dir.blobs) ++ idxSteps dir kept ++ logSteps dir kept

/-- The directory after all of them. -/
def purgedDir (dir : Dir) (kept : List ChunkRecord) : Dir where
  log := dir.log.map fun _ => logFile kept
  idx := dir.idx.map fun _ => indexFile kept
  blobs w := trimBlob kept w (dir.blobs w)

variable {ord : WalkOrder FileStep} {dir : Dir}

theorem length_walk : (ord.walk (blobSteps kept dir.blobs)).length = (blobSteps kept dir.blobs).length :=
  (ord.perm _).length_eq

/-- **Stopped among the blob steps**: the index files are untouched. -/
theorem plan_take_blobs (hc : Cuttable kept dir.blobs) {k : ℕ} (hk : k ≤ (blobSteps kept dir.blobs).length) :
    ∃ blobs', applySteps dir ((planSteps ord dir kept).take k) = .ok { dir with blobs := blobs' } ∧
      Trimmed kept dir.blobs blobs' := by
  have htake : (planSteps ord dir kept).take k = (ord.walk (blobSteps kept dir.blobs)).take k := by
    unfold planSteps
    rw [List.append_assoc, List.take_append_of_le_length (by rw [length_walk]; exact hk)]
  rw [htake]
  exact blobSteps_trimmed hc fun s hs => (ord.perm _).mem_iff.1 (List.mem_of_mem_take hs)

/-- **Stopped between the two renames.** -/
theorem plan_take_idx (hc : Cuttable kept dir.blobs) (hidx : dir.idx.isSome) (hlog : dir.log.isSome) :
    applySteps dir ((planSteps ord dir kept).take ((blobSteps kept dir.blobs).length + 1)) =
      .ok { dir with idx := some (indexFile kept), blobs := fun w => trimBlob kept w (dir.blobs w) } := by
  have htake : (planSteps ord dir kept).take ((blobSteps kept dir.blobs).length + 1) =
      ord.walk (blobSteps kept dir.blobs) ++ [.renameIdx (indexFile kept)] := by
    unfold planSteps idxSteps logSteps
    rw [if_pos hidx, if_pos hlog]
    refine List.take_left' ?_
    rw [List.length_append, length_walk]
    rfl
  rw [htake, applySteps_append, blobSteps_all hc (ord.perm _), ok_bind]
  rfl

theorem applySteps_plan (hc : Cuttable kept dir.blobs) :
    applySteps dir (planSteps ord dir kept) = .ok (purgedDir dir kept) := by
  unfold planSteps idxSteps logSteps
  rw [applySteps_append, applySteps_append, blobSteps_all hc (ord.perm _), ok_bind]
  obtain ⟨log, idx, blobs⟩ := dir
  cases idx with
  | none =>
    cases log with
    | none => rfl
    | some log => rfl
  | some idx =>
    cases log with
    | none => rfl
    | some log => rfl

/-- No step is left at any other point. -/
theorem length_planSteps_le {k : ℕ} (hk : (blobSteps kept dir.blobs).length < k)
    (hboth : ¬ (dir.idx.isSome ∧ dir.log.isSome ∧ k = (blobSteps kept dir.blobs).length + 1)) :
    (planSteps ord dir kept).length ≤ k := by
  unfold planSteps idxSteps logSteps
  rw [List.length_append, List.length_append, length_walk]
  by_cases hidx : dir.idx.isSome
  · by_cases hlog : dir.log.isSome
    · have hne : k ≠ (blobSteps kept dir.blobs).length + 1 := fun h => hboth ⟨hidx, hlog, h⟩
      rw [if_pos hidx, if_pos hlog, List.length_singleton, List.length_singleton]
      omega
    · rw [if_pos hidx, if_neg hlog, List.length_singleton, List.length_nil]
      omega
  · rw [if_neg hidx, List.length_nil]
    split
    · rw [List.length_singleton]; omega
    · rw [List.length_nil]; omega

/-- **Stopped anywhere else**, every step was taken. -/
theorem plan_take_all (hc : Cuttable kept dir.blobs) {k : ℕ} (hk : (blobSteps kept dir.blobs).length < k)
    (hboth : ¬ (dir.idx.isSome ∧ dir.log.isSome ∧ k = (blobSteps kept dir.blobs).length + 1)) :
    applySteps dir ((planSteps ord dir kept).take k) = .ok (purgedDir dir kept) := by
  rw [List.take_of_length_le (length_planSteps_le hk hboth), applySteps_plan hc]

end Blobs

/-! ## Kept versions stay stored -/

section Trim

variable {z : Zstd} {vs : List Version} {dir : Dir} {t : UInt32}

theorem foldl_max_le {l : List ChunkRecord} {m n : ℕ} :
    l.foldl (fun m r => max m (endOf r)) m ≤ n ↔ m ≤ n ∧ ∀ r ∈ l, endOf r ≤ n := by
  induction l generalizing m with
  | nil => simp
  | cons r l ih =>
    rw [List.foldl_cons, ih, max_le_iff, List.forall_mem_cons, and_assoc]

theorem keepLen_le {kept : List ChunkRecord} {w : UInt8} {n : ℕ} :
    keepLen kept w ≤ n ↔ ∀ r ∈ blobRecords kept w, endOf r ≤ n := by
  unfold keepLen
  rw [foldl_max_le]
  simp

theorem endOf_le_keepLen {kept : List ChunkRecord} {r : ChunkRecord} (hr : r ∈ kept) (hk : r.kind ≠ .zero) :
    endOf r ≤ keepLen kept r.workerId :=
  keepLen_le.1 (le_refl _) r (List.mem_filter.2 ⟨hr, by simpa using hk⟩)

/-- A range that lies below `n` survives a cut at `n`. -/
theorem HoldsAt.setLen {bs : Bytes} {off : UInt64} {len : UInt32} {data : Bytes} (h : HoldsAt bs off len data) {n : ℕ}
    (hn : off.toNat + len.toNat ≤ n) : HoldsAt (setLen bs n) off len data := by
  have hpre : bs.take n <+: Bxdb.setLen bs n := List.prefix_append _ _
  have hfits := h.fits
  rw [h.len_eq] at hn
  have htake : HoldsAt (bs.take n) off len data :=
    ⟨h.len_eq, by rw [List.length_take]; omega, h.bound, by rw [slice_take hn]; exact h.bytes⟩
  exact htake.of_isPrefix hpre

/-- A file that a kept record names. -/
theorem Trimmed.holds {kept : List ChunkRecord} {blobs blobs' : UInt8 → Option Bytes} (h : Trimmed kept blobs blobs')
    {r : ChunkRecord} (hr : r ∈ kept) (hk : r.kind ≠ .zero) {bs data : Bytes} (hb : blobs r.workerId = some bs)
    (hd : HoldsAt bs r.offset r.len data) : ∃ bs', blobs' r.workerId = some bs' ∧ HoldsAt bs' r.offset r.len data := by
  rcases h r.workerId with h | h
  · exact ⟨bs, h.trans hb, hd⟩
  · have hne : ¬ (blobRecords kept r.workerId).isEmpty := by
      have hmem : r ∈ blobRecords kept r.workerId := List.mem_filter.2 ⟨hr, by simpa using hk⟩
      simpa using List.ne_nil_of_mem hmem
    rw [trimBlob_truncate hne, hb, Option.map_some] at h
    exact ⟨_, h, hd.setLen (endOf_le_keepLen hr hk)⟩

/-- **Kept versions stay stored**, bases included, in every state of the worker files. -/
theorem Stored.trim (ho : Ordered vs) {blobs blobs' : UInt8 → Option Bytes}
    (ht : Trimmed (sortedChunks (keptVersions vs t)) blobs blobs') {v : Version} (hv : v ∈ keptVersions vs t)
    (h : Stored z vs blobs v) : Stored z (keptVersions vs t) blobs' v := by
  have hmem : v.chunk ∈ sortedChunks (keptVersions vs t) := (mem_sortedChunks ho.kept _).2 (List.mem_map_of_mem hv)
  have hle := (mem_keptVersions.1 hv).2
  cases h with
  | zero hblob =>
    refine .zero ?_
    rcases ht 0 with h | h
    · rw [h]; exact hblob
    · obtain ⟨bs, hbs⟩ := Option.isSome_iff_exists.1 hblob
      have hany : (sortedChunks (keptVersions vs t)).any (fun r => r.workerId == 0) = true :=
        List.any_eq_true.2 ⟨_, hmem, rfl⟩
      rw [h, hbs]
      unfold trimBlob
      rw [if_pos hany]
      split
      · rfl
      · rfl
  | full hblob hdata =>
    obtain ⟨bs', hb', hd'⟩ := ht.holds hmem (by simp) hblob hdata
    exact .full hb' hd'
  | delta hbase hfull hpa hsnap hblob hdata =>
    obtain ⟨bs', hb', hd'⟩ := ht.holds hmem (by simp) hblob hdata
    exact .delta (mem_keptVersions.2 ⟨hbase, hsnap.le.trans hle⟩) hfull hpa hsnap hb' hd'

/-- Purge finds every file it cuts. -/
theorem FormOk.covers (h : FormOk z vs dir) : Covers (sortedChunks (keptVersions vs t)) dir.blobs := by
  have hstored : ∀ r ∈ sortedChunks (keptVersions vs t), r.kind ≠ .zero →
      ∃ bs, dir.blobs r.workerId = some bs ∧ endOf r ≤ bs.length ∧ endOf r < 2 ^ 64 := by
    intro r hr hk
    obtain ⟨v, hv, rfl⟩ := List.mem_map.1 ((mem_sortedChunks h.ordered.kept _).1 hr)
    exact (h.stored v (mem_keptVersions.1 hv).1).range hk
  intro w hw
  obtain ⟨r, hr⟩ := List.exists_mem_of_ne_nil _ (by simpa using hw)
  have hsplit : ∀ r ∈ blobRecords (sortedChunks (keptVersions vs t)) w,
      r ∈ sortedChunks (keptVersions vs t) ∧ r.kind ≠ .zero ∧ r.workerId = w := by
    intro r hr
    obtain ⟨hmem, hp⟩ := List.mem_filter.1 hr
    rw [Bool.and_eq_true] at hp
    exact ⟨hmem, by simpa using hp.1, by simpa using hp.2⟩
  obtain ⟨hmem, hk, hw'⟩ := hsplit r hr
  obtain ⟨bs, hbs, -, -⟩ := hstored r hmem hk
  rw [hw'] at hbs
  refine ⟨bs, hbs, keepLen_le.2 fun r' hr' => ?_, h.small w bs hbs⟩
  obtain ⟨hmem', hk', hw''⟩ := hsplit r' hr'
  obtain ⟨bs', hbs', hle, -⟩ := hstored r' hmem' hk'
  rw [hw'', hbs] at hbs'
  rw [Option.some.inj hbs']
  exact hle

/-- **The steps of a purge** that finds these records. -/
theorem purgePlan_of_records (ord : WalkOrder FileStep) (ho : Ordered vs) (hread : readRecords dir = .ok (sortedChunks vs))
    (hbound : ∀ r ∈ sortedChunks (keptVersions vs t), r.kind ≠ .zero → endOf r < 2 ^ 64) :
    purgePlan ord dir t = .ok (if dropped vs t = 0 then [] else planSteps ord dir (sortedChunks (keptVersions vs t)),
      dropped vs t) := by
  have hsum : (sortedChunks (keptVersions vs t)).any (fun r => r.kind != .zero && decide (2 ^ 64 ≤ endOf r)) = false := by
    rw [List.any_eq_false]
    intro r hr hbad
    rw [Bool.and_eq_true, decide_eq_true_eq] at hbad
    have := hbound r hr (by simpa using hbad.1)
    omega
  unfold purgePlan keptRecords
  rw [hread, ok_bind, ok_bind]
  dsimp only
  rw [filter_sortedChunks ho, length_sortedChunks ho, length_sortedChunks ho.kept]
  change (if dropped vs t = 0 then _ else _) = _
  by_cases hd : dropped vs t = 0
  · rw [if_pos hd, if_pos hd, hd]
  · rw [if_neg hd, if_neg hd]
    unfold purgeSteps truncateBlobs
    rw [hsum]
    rfl

theorem FormOk.bound (h : FormOk z vs dir) :
    ∀ r ∈ sortedChunks (keptVersions vs t), r.kind ≠ .zero → endOf r < 2 ^ 64 := by
  intro r hr hk
  obtain ⟨v, hv, rfl⟩ := List.mem_map.1 ((mem_sortedChunks h.ordered.kept _).1 hr)
  obtain ⟨bs, -, -, hlt⟩ := (h.stored v (mem_keptVersions.1 hv).1).range hk
  exact hlt

theorem purgePlan_ok (ord : WalkOrder FileStep) (h : FormOk z vs dir) :
    purgePlan ord dir t = .ok (if dropped vs t = 0 then [] else planSteps ord dir (sortedChunks (keptVersions vs t)),
      dropped vs t) :=
  purgePlan_of_records ord h.ordered (readRecords_ok h) h.bound

/-- **The directory a purge leaves** holds exactly the kept versions. -/
theorem FormOk.purged (h : FormOk z vs dir) (t : UInt32) :
    FormOk z (keptVersions vs t) (purgedDir dir (sortedChunks (keptVersions vs t))) where
  ordered := h.ordered.kept
  log bytes hb := by
    obtain ⟨log, -, rfl⟩ := Option.map_eq_some_iff.1 hb
    refine ⟨maxSnapshot (sortedChunks (keptVersions vs t)), ?_, fun v hv => ?_, maxSnapshot_le _⟩
    · unfold logFile
      rw [bySnap_sortedChunks h.ordered.kept]
      rfl
    · exact UInt32.le_iff_toNat_le.1 (le_maxSnapshot ((mem_sortedChunks h.ordered.kept _).2 (List.mem_map_of_mem hv)))
  idx bytes hb := by
    obtain ⟨idx, -, rfl⟩ := Option.map_eq_some_iff.1 hb
    exact ⟨_, rfl⟩
  present := by
    unfold purgedDir
    refine h.present.imp (fun hl => ?_) (fun hi => ?_)
    · simpa using hl
    · simpa using hi
  stored v hv := (h.stored v (mem_keptVersions.1 hv).1).trim h.ordered (fun w => .inr rfl) hv
  small w bs hbs := by
    change trimBlob _ w (dir.blobs w) = some bs at hbs
    unfold trimBlob at hbs
    split at hbs
    · rename_i hne
      obtain ⟨bs', hbs', rfl⟩ := Option.map_eq_some_iff.1 hbs
      obtain ⟨bs'', hbs'', hle, hmax⟩ := h.covers (t := t) w hne
      rw [length_setLen]
      exact hle.trans hmax
    · split at hbs
      · exact h.small w bs hbs
      · simp at hbs

/-- **A purge of a well-formed directory** succeeds. -/
theorem purge_ok (ord : WalkOrder FileStep) (h : FormOk z vs dir) (t : UInt32) :
    ∃ dir', purge ord dir t = .ok (dir', dropped vs t) ∧ FormOk z (keptVersions vs t) dir' ∧
      dir' = if dropped vs t = 0 then dir else purgedDir dir (sortedChunks (keptVersions vs t)) := by
  unfold purge
  rw [purgePlan_ok ord h, ok_bind]
  dsimp only
  by_cases hd : dropped vs t = 0
  · rw [if_pos hd, if_pos hd, applySteps_nil, ok_bind]
    refine ⟨dir, rfl, ?_, rfl⟩
    rw [dropped_eq_zero hd]
    exact h
  · rw [if_neg hd, if_neg hd, applySteps_plan h.covers.cuttable, ok_bind]
    exact ⟨_, rfl, h.purged t, rfl⟩

/-- **A load between two steps of a purge**, at or below the threshold. -/
theorem load_between (hz : z.RoundTrip) (ord : WalkOrder FileStep) (h : FormOk z vs dir) (k : ℕ) :
    ∃ mid, applySteps dir ((planSteps ord dir (sortedChunks (keptVersions vs t))).take k) = .ok mid ∧
      ∀ (pa : UInt64) (s : UInt32), s ≤ maxSnapshotId → s ≤ t →
        ∃ r, loadPage z mid pa s = .ok r ∧ AsOf (pagesOf vs) pa s.toNat r := by
  have hkept : ∀ {pa : UInt64} {s : UInt32} {r : Option Page}, s ≤ t →
      AsOf (pagesOf (keptVersions vs t)) pa s.toNat r → AsOf (pagesOf vs) pa s.toNat r := by
    intro pa s r hst hr
    rw [asOf_kept, min_eq_left (UInt32.le_iff_toNat_le.1 hst)] at hr
    exact hr
  by_cases hk : k ≤ (blobSteps (sortedChunks (keptVersions vs t)) dir.blobs).length
  · -- the index files still list every record; the kept ones have their blobs
    obtain ⟨blobs', hrun, htrim⟩ :
        ∃ blobs', applySteps dir ((planSteps ord dir (sortedChunks (keptVersions vs t))).take k) =
          .ok { dir with blobs := blobs' } ∧ Trimmed (sortedChunks (keptVersions vs t)) dir.blobs blobs' :=
      plan_take_blobs h.covers.cuttable hk
    obtain ⟨store, hopen, hblobs, hS⟩ := h.open_with blobs'
    refine ⟨_, hrun, fun pa s hs hst => loadPage_asOf hz hopen hblobs hS pa hs fun v hv hle => ?_⟩
    have hv' : v ∈ keptVersions vs t := mem_keptVersions.2 ⟨hv, hle.trans (UInt32.le_iff_toNat_le.1 hst)⟩
    exact ((h.stored v hv).trim h.ordered htrim hv').mono (fun v hv => (mem_keptVersions.1 hv).1) (BlobsGrow.refl _)
  · by_cases hboth : dir.idx.isSome ∧ dir.log.isSome ∧
        k = (blobSteps (sortedChunks (keptVersions vs t)) dir.blobs).length + 1
    · -- the new index is read, the old log is not
      obtain ⟨hidx, hlog, rfl⟩ := hboth
      refine ⟨_, plan_take_idx h.covers.cuttable hidx hlog, fun pa s hs hst => ?_⟩
      set mid : Dir := { dir with idx := some (indexFile (sortedChunks (keptVersions vs t))),
                                  blobs := fun w => trimBlob (sortedChunks (keptVersions vs t)) w (dir.blobs w) }
      have hidx' : mid.idx = some (indexFile (sortedChunks (keptVersions vs t))) := rfl
      obtain ⟨store, hopen, hblobs, hS⟩ := open_indexFile h.ordered.kept hidx'
      obtain ⟨r, hr, hasOf⟩ := loadPage_asOf hz hopen hblobs hS pa hs fun v hv _ =>
        (h.stored v (mem_keptVersions.1 hv).1).trim h.ordered (fun w => .inr rfl) hv
      exact ⟨r, hr, hkept hst hasOf⟩
    · refine ⟨_, plan_take_all h.covers.cuttable (by omega) hboth, fun pa s hs hst => ?_⟩
      obtain ⟨r, hr, hasOf⟩ := (h.purged t).load hz pa hs
      exact ⟨r, hr, hkept hst hasOf⟩

theorem min_toNat (s t : UInt32) : (min s t).toNat = min s.toNat t.toNat := by
  rw [show min s t = if s ≤ t then s else t from rfl]
  split
  · rename_i h
    rw [min_eq_left (UInt32.le_iff_toNat_le.1 h)]
  · rename_i h
    rw [UInt32.le_iff_toNat_le] at h
    rw [min_eq_right (by omega)]

/-- **Purge preserves every surviving version.** After a purge a load answers as the
directory did at the snapshot or the threshold, whichever is lower; and at each moment
between two of its steps every load up to the threshold answers as before. -/
theorem purge_load (hz : z.RoundTrip) {cs : List SaveCall} {written : Dir} (hw : Written z cs written)
    (hrange : ∀ c ∈ cs, c.InRange) (hh : HeldAs written dir) (ord : WalkOrder FileStep) (t : UInt32) :
    ∃ steps dir' n, purgePlan ord dir t = .ok (steps, n) ∧ purge ord dir t = .ok (dir', n) ∧
      (∀ (pa : UInt64) (s : UInt32), s ≤ maxSnapshotId →
        ∃ r, loadPage z dir pa (min s t) = .ok r ∧ loadPage z dir' pa s = .ok r) ∧
      ∀ k, ∃ mid, applySteps dir (steps.take k) = .ok mid ∧
        ∀ (pa : UInt64) (s : UInt32), s ≤ maxSnapshotId → s ≤ t →
          ∃ r, loadPage z dir pa s = .ok r ∧ loadPage z mid pa s = .ok r := by
  obtain ⟨vs, hd, -, -⟩ := written_ok hw hrange
  have h := hh.formOk hd
  have hfun := pagesOf_functional h.ordered.distinct
  obtain ⟨dir', hpurge, h', -⟩ := purge_ok ord h t
  refine ⟨_, dir', _, purgePlan_ok ord h, hpurge, fun pa s hs => ?_, fun k => ?_⟩
  · -- the whole purge: a load sees what was there up to the threshold
    have hmin : min s t ≤ maxSnapshotId := by
      have := UInt32.le_iff_toNat_le.1 hs
      rw [UInt32.le_iff_toNat_le, min_toNat]
      omega
    obtain ⟨r, hr, hasOf⟩ := h.load hz pa hmin
    obtain ⟨r', hr', hasOf'⟩ := h'.load hz pa hs
    rw [asOf_kept, ← min_toNat] at hasOf'
    rw [hasOf.unique hfun hasOf'] at hr
    exact ⟨r', hr, hr'⟩
  · -- between two steps: no load up to the threshold sees a difference
    by_cases hd : dropped vs t = 0
    · refine ⟨dir, by rw [if_pos hd, List.take_nil, applySteps_nil], fun pa s hs _ => ?_⟩
      obtain ⟨r, hr, -⟩ := h.load hz pa hs
      exact ⟨r, hr, hr⟩
    · obtain ⟨mid, hmid, hload⟩ := load_between (t := t) hz ord h k
      refine ⟨mid, by rw [if_neg hd]; exact hmid, fun pa s hs hst => ?_⟩
      obtain ⟨r, hr, hasOf⟩ := h.load hz pa hs
      obtain ⟨r', hr', hasOf'⟩ := hload pa s hs hst
      rw [hasOf.unique hfun hasOf'] at hr
      exact ⟨r', hr, hr'⟩

end Trim

/-- A database held in both forms, purged at a threshold below its last save. -/
theorem purge_load_noise : ∃ written dir dir' n, Written Zstd.raw (onePages [(noise 1, 1), (noise 2, 4), (noise 3, 9)]) written ∧
    HeldAs written dir ∧ purge (WalkOrder.id _) dir 5 = .ok (dir', n) ∧
    loadPage Zstd.raw dir' 0 9 = loadPage Zstd.raw dir 0 5 := by
  obtain ⟨written, hw⟩ : ∃ dir, Written Zstd.raw (onePages [(noise 1, 1), (noise 2, 4), (noise 3, 9)]) dir :=
    written_onePages Zstd.raw_small (by decide : 1 ≤ 4 ∧ 4 ≤ 255) 512 true (by simp) (by simp) (by decide : 0 < (10 : UInt32))
      (by decide) (by decide)
  obtain ⟨vs, hd, -, -⟩ := written_ok hw (onePages_inRange _)
  have hh : HeldAs written { written with idx := some (indexFile (sortedChunks vs)) } :=
    ⟨.inr rfl, .inr ⟨_, toBtree_ok hd, rfl⟩, .inr (by simp), rfl⟩
  obtain ⟨steps, dir', n, -, hpurge, hload, -⟩ :=
    purge_load Zstd.raw_roundTrip hw (onePages_inRange _) hh (WalkOrder.id _) 5
  obtain ⟨r, hr, hr'⟩ := hload 0 9 (by decide)
  exact ⟨written, _, dir', n, hw, hh, hpurge, hr'.trans hr.symm⟩

end Bxdb
