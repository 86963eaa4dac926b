import Bxdb.Proof.PurgeCompose

/-!
# A purge of a log that grew after its conversion

Purge reads `index.bxdb` when it exists. A log that saves have extended since holds
records the index does not list.

* `purge_stale`: what a purge does then: it drops what the index lists above the
  threshold, and nothing when there is no such record.
* `inSync_iff`: **the two files describe the same records, and the number is right,
  exactly when the log was not extended.**
-/

namespace Bxdb

open Bytes SortedIndex ChunkRecord

/-- **In sync**: both files of `dir'` describe the records of the old log up to the
threshold, and `n` is the number of those it lost. -/
def InSync (oldLog : Option Bytes) (dir' : Dir) (t : UInt32) (n : ℕ) : Prop :=
  ∃ old log idx listed, LogHolds oldLog old ∧ LogHolds dir'.log log ∧ dir'.idx = some idx ∧ readIndex idx = .ok listed ∧
    (∀ r, r ∈ log ↔ r ∈ old ∧ snapshotOf r.key ≤ t) ∧ (∀ r, r ∈ listed ↔ r ∈ old ∧ snapshotOf r.key ≤ t) ∧
    n + log.length = old.length

section Stale

variable {z : Zstd} {vs new : List Version} {dir dir' : Dir} {t : UInt32} {cs : List SaveCall}

/-- The saves added no version exactly when they marked no page dirty. -/
theorem Records.eq_nil_iff (h : Records cs new) : new = [] ↔ ∀ c ∈ cs, ∀ pa, c.dirty pa = none := by
  constructor
  · rintro rfl c hc pa
    cases hd : c.dirty pa with
    | none => rfl
    | some page =>
      obtain ⟨v, ⟨hv, -⟩, -⟩ := (h pa c.id.toNat page).2 ⟨c, hc, rfl, hd⟩
      simp at hv
  · intro hnone
    cases new with
    | nil => rfl
    | cons v new =>
      have hv : pagesOf (v :: new) v.pa v.snap v.page := ⟨v, ⟨List.mem_cons_self, rfl, rfl⟩, rfl⟩
      obtain ⟨c, hc, -, hd⟩ := (h _ _ _).1 hv
      rw [hnone c hc] at hd
      simp at hd

/-- What is above the threshold in the index makes every later record be above it too. -/
theorem kept_of_dropped (ho : Ordered (vs ++ new)) (h : dropped vs t ≠ 0) :
    keptVersions (vs ++ new) t = keptVersions vs t := by
  have hsome : ∃ v ∈ vs, t.toNat < v.snap := by
    by_contra hall
    have hself : keptVersions vs t = vs := by
      refine List.filter_eq_self.2 fun v hv => decide_eq_true ?_
      by_contra hlt
      exact hall ⟨v, hv, by omega⟩
    unfold dropped at h
    rw [hself, Nat.sub_self] at h
    exact h rfl
  obtain ⟨v, hv, hlt⟩ := hsome
  have hnew : keptVersions new t = [] := by
    refine List.filter_eq_nil_iff.2 fun v' hv' => ?_
    have := (List.pairwise_append.1 ho).2.2 v hv v' hv'
    rw [decide_eq_true_eq]
    omega
  unfold keptVersions at hnew ⊢
  rw [List.filter_append, hnew, List.append_nil]

/-- **A purge that reads an index older than the log.** -/
theorem purge_stale (ord : WalkOrder FileStep) (hd : DirOk z (vs ++ new) dir)
    (hi : dir.idx = some (indexFile (sortedChunks vs))) (t : UInt32) :
    purge ord dir t = .ok (if dropped vs t = 0 then dir else purgedDir dir (sortedChunks (keptVersions vs t)),
      dropped vs t) := by
  have ho : Ordered vs := (List.pairwise_append.1 hd.ordered).1
  have hread : readRecords dir = .ok (sortedChunks vs) := by
    unfold readRecords
    rw [hi]
    exact readIndex_file _
  have hcount : dropped vs t = (sortedChunks vs).length - (sortedChunks (keptVersions vs t)).length := by
    rw [length_sortedChunks ho, length_sortedChunks ho.kept]
    rfl
  rw [purge_iff hread (filter_sortedChunks ho t).symm]
  refine ⟨hcount, ?_⟩
  by_cases h0 : dropped vs t = 0
  · rw [if_pos h0]
    exact .inl ⟨h0, rfl⟩
  · rw [if_neg h0]
    -- the worker files hold what the log lists, so also what the index lists
    have hlogOnly : DirOk z (vs ++ new) { dir with idx := none } := ⟨hd.ordered, hd.log, hd.stored, hd.small⟩
    have hform := hlogOnly.formOk rfl
    have hbound := hform.bound (t := t)
    have hcut : Cuttable (sortedChunks (keptVersions (vs ++ new) t)) dir.blobs := hform.covers.cuttable
    rw [kept_of_dropped hd.ordered h0] at hbound hcut
    exact .inr ⟨h0, ⟨hbound, hcut⟩, rfl⟩

/-- A purge that dropped nothing leaves the files in sync when they were. -/
theorem inSync_same (hd : DirOk z (vs ++ new) dir) (hi : dir.idx = some (indexFile (sortedChunks vs))) {t : UInt32}
    (h0 : dropped vs t = 0) : InSync dir.log dir t 0 ↔ new = [] := by
  have ho : Ordered vs := (List.pairwise_append.1 hd.ordered).1
  have hold := hd.logHolds
  constructor
  · rintro ⟨old, log, idx, listed, hl, hl', hidx, hread, hlog, hlisted, -⟩
    obtain rfl := hl.unique hold
    obtain rfl := hl'.unique hold
    rw [hi] at hidx
    obtain rfl := Option.some.inj hidx
    rw [show readIndex (indexFile (sortedChunks vs)) = _ from readIndex_file _] at hread
    obtain rfl := Except.ok.inj hread
    -- a later record is in the log, so it would be in the index
    cases new with
    | nil => rfl
    | cons v new =>
      have hv : v.chunk ∈ chunks (vs ++ v :: new) := List.mem_map_of_mem (List.mem_append_right _ List.mem_cons_self)
      have hmem := (hlisted v.chunk).2 ((hlog v.chunk).1 hv)
      obtain ⟨v', hv', heq⟩ := List.mem_map.1 ((mem_sortedChunks ho _).1 hmem)
      have hlt := (List.pairwise_append.1 hd.ordered).2.2 v' hv' v List.mem_cons_self
      unfold Version.snap Version.pa at hlt
      rw [heq] at hlt
      omega
  · rintro rfl
    rw [List.append_nil] at hold
    have hle : ∀ r ∈ chunks vs, snapshotOf r.key ≤ t := by
      intro r hr
      rw [← dropped_eq_zero h0] at hr
      exact (mem_chunks_kept.1 hr).2
    refine ⟨_, _, _, _, hold, hold, hi, readIndex_file _, fun r => ⟨fun hr => ⟨hr, hle r hr⟩, fun h => h.1⟩,
      fun r => ?_, Nat.zero_add _⟩
    rw [mem_sortedChunks ho]
    exact ⟨fun hr => ⟨hr, hle r hr⟩, fun h => h.1⟩

/-- The log a purge writes from the index. -/
theorem purgedDir_log (hd : DirOk z (vs ++ new) dir) {t : UInt32} (h0 : dropped vs t ≠ 0) :
    LogHolds (purgedDir dir (sortedChunks (keptVersions vs t))).log (chunks (keptVersions vs t)) := by
  have hlogOnly : DirOk z (vs ++ new) { dir with idx := none } := ⟨hd.ordered, hd.log, hd.stored, hd.small⟩
  have hp := (hlogOnly.formOk rfl).purged t
  rw [kept_of_dropped hd.ordered h0] at hp
  obtain ⟨m, hm, -⟩ := hd.log
  have hlog : (purgedDir dir (sortedChunks (keptVersions vs t))).log = some (logFile (sortedChunks (keptVersions vs t))) := by
    unfold purgedDir
    rw [hm]
    rfl
  obtain ⟨m', hbytes, hrest⟩ := hp.log _ hlog
  have hdir : DirOk z (keptVersions vs t) (purgedDir dir (sortedChunks (keptVersions vs t))) :=
    ⟨hp.ordered, ⟨m', by rw [hlog, hbytes], hrest⟩, hp.stored, hp.small⟩
  exact hdir.logHolds

/-- The number of records a purge says it dropped is what the index lost. -/
theorem inSync_purged (hd : DirOk z (vs ++ new) dir) (hi : dir.idx = some (indexFile (sortedChunks vs))) {t : UInt32}
    (h0 : dropped vs t ≠ 0) :
    InSync dir.log (purgedDir dir (sortedChunks (keptVersions vs t))) t (dropped vs t) ↔ new = [] := by
  have ho : Ordered vs := (List.pairwise_append.1 hd.ordered).1
  have hkept : (keptVersions vs t).length ≤ vs.length := List.length_filter_le _ _
  have hold := hd.logHolds
  have hlog' := purgedDir_log hd h0
  have hidx' : (purgedDir dir (sortedChunks (keptVersions vs t))).idx = some (indexFile (sortedChunks (keptVersions vs t))) := by
    unfold purgedDir
    rw [hi]
    rfl
  constructor
  · rintro ⟨old, log, idx, listed, hl, hl', -, -, -, -, hn⟩
    obtain rfl := hl.unique hold
    obtain rfl := hl'.unique hlog'
    unfold dropped at hn
    rw [List.length_map, List.length_map, List.length_append] at hn
    exact List.length_eq_zero_iff.1 (by omega)
  · rintro rfl
    rw [List.append_nil] at hold
    refine ⟨_, _, _, _, hold, hlog', hidx', readIndex_file _, fun r => mem_chunks_kept, fun r => ?_, ?_⟩
    · rw [mem_sortedChunks ho.kept]
      exact mem_chunks_kept
    · unfold dropped
      rw [List.length_map, List.length_map]
      omega

/-- **When the files are in sync after it**: when nothing was added to the log since. -/
theorem inSync_iff (hd : DirOk z (vs ++ new) dir) (hi : dir.idx = some (indexFile (sortedChunks vs))) (t : UInt32) :
    InSync dir.log (if dropped vs t = 0 then dir else purgedDir dir (sortedChunks (keptVersions vs t))) t (dropped vs t) ↔
      new = [] := by
  by_cases h0 : dropped vs t = 0
  · rw [if_pos h0, h0]
    exact inSync_same hd hi h0
  · rw [if_neg h0]
    exact inSync_purged hd hi h0

end Stale

section Main

variable {z : Zstd} {d₀ d₁ dir : Dir} {later : List SaveCall}

/-- **When purge keeps both files in sync**: when no save has marked a page dirty since
the index was made. -/
theorem purge_sync_iff (hm : Maintained z d₀) (hconv : toBtree d₀ = .ok d₁) (hs : Sessions z d₁ later dir)
    (hrange : ∀ c ∈ later, c.InRange) (ord : WalkOrder FileStep) (t : UInt32) :
    ∃ dir' n, purge ord dir t = .ok (dir', n) ∧
      (InSync dir.log dir' t n ↔ ∀ c ∈ later, ∀ pa, c.dirty pa = none) := by
  obtain ⟨vs, hd, -⟩ := maintained_ok hm
  rw [toBtree_ok hd] at hconv
  obtain rfl := Except.ok.inj hconv
  have hd₁ : DirOk z vs { d₀ with idx := some (indexFile (sortedChunks vs)) } := ⟨hd.ordered, hd.log, hd.stored, hd.small⟩
  obtain ⟨new, hd', hr, hidx, -⟩ := sessions_ok hd₁ hs hrange
  exact ⟨_, _, purge_stale ord hd' hidx t, (inSync_iff hd' hidx t).trans hr.eq_nil_iff⟩

/-- A log of two saves, the second one made after the conversion. -/
theorem stale_index_session : ∃ d₀ d₁ dir, Maintained Zstd.raw d₀ ∧ toBtree d₀ = .ok d₁ ∧
    Session Zstd.raw d₁ (onePages [(noise 2, 4)]) dir := by
  obtain ⟨d₀, hs₀, hi, hroom⟩ : ∃ dir, Session Zstd.raw Dir.empty (onePages [(noise 1, 1)]) dir ∧ dir.IdsBelow 2 ∧
      dir.HasRoom (3 * 1 * blobBufCap + 0) :=
    session_onePages Zstd.raw_small (by decide : 1 ≤ 4 ∧ 4 ≤ 255) 512 true (by simp) (by simp) (by decide) (by decide) _
      (by decide)
  have hm : Maintained Zstd.raw d₀ := .first hs₀ (onePages_inRange _)
  obtain ⟨vs, hd, -⟩ := maintained_ok hm
  have hd₁ : DirOk Zstd.raw vs { d₀ with idx := some (indexFile (sortedChunks vs)) } :=
    ⟨hd.ordered, hd.log, hd.stored, hd.small⟩
  obtain ⟨dir, hs, -, -⟩ : ∃ dir, Session Zstd.raw { d₀ with idx := some (indexFile (sortedChunks vs)) }
      (onePages [(noise 2, 4)]) dir ∧ dir.IdsBelow 5 ∧ dir.HasRoom 0 :=
    session_onePages_next Zstd.raw_small (by decide : 1 ≤ 4 ∧ 4 ≤ 255) 512 true hd₁ hi (by simp) (by simp) (by decide)
      (by decide) (by decide) 0 hroom
  exact ⟨d₀, _, dir, hm, toBtree_ok hd, hs⟩

/-- **Where the code breaks its promise.** The second save is not in the index, so a purge
below it finds nothing to drop, and the log keeps a record above the threshold. -/
theorem purge_out_of_sync : ∃ d₀ d₁ dir, Maintained Zstd.raw d₀ ∧ toBtree d₀ = .ok d₁ ∧
    Session Zstd.raw d₁ (onePages [(noise 2, 4)]) dir ∧
    ∃ dir' n, purge (WalkOrder.id _) dir 1 = .ok (dir', n) ∧ ¬ InSync dir.log dir' 1 n := by
  obtain ⟨d₀, d₁, dir, hm, hconv, hs⟩ := stale_index_session
  refine ⟨d₀, d₁, dir, hm, hconv, hs, ?_⟩
  obtain ⟨vs, hd, -⟩ := maintained_ok hm
  rw [toBtree_ok hd] at hconv
  obtain rfl := Except.ok.inj hconv
  have hd₁ : DirOk Zstd.raw vs { d₀ with idx := some (indexFile (sortedChunks vs)) } :=
    ⟨hd.ordered, hd.log, hd.stored, hd.small⟩
  obtain ⟨new, hd', hr, hidx, -⟩ := session_ok hd₁ hs (onePages_inRange _)
  refine ⟨_, _, purge_stale (WalkOrder.id _) hd' hidx 1, fun hsync => ?_⟩
  have hnone := hr.eq_nil_iff.1 ((inSync_iff hd' hidx 1).1 hsync) (onePage (noise 2) 4) (List.mem_singleton_self _) 0
  rw [(onePage_dirty (noise 2) 4 0 (noise 2)).2 ⟨rfl, rfl⟩] at hnone
  simp at hnone

/-- The same directory. -/
theorem purge_sync_iff_noise : ∃ d₀ d₁ dir, Maintained Zstd.raw d₀ ∧ toBtree d₀ = .ok d₁ ∧
    Sessions Zstd.raw d₁ ([] ++ onePages [(noise 2, 4)]) dir ∧
    ∃ dir' n, purge (WalkOrder.id _) dir 9 = .ok (dir', n) ∧
      (InSync dir.log dir' 9 n ↔ ∀ c ∈ [] ++ onePages [(noise 2, 4)], ∀ pa, c.dirty pa = none) := by
  obtain ⟨d₀, d₁, dir, hm, hconv, hs⟩ := stale_index_session
  have hsessions : Sessions Zstd.raw d₁ ([] ++ onePages [(noise 2, 4)]) dir := .snoc .nil hs
  exact ⟨d₀, d₁, dir, hm, hconv, hsessions, purge_sync_iff hm hconv hsessions (onePages_inRange _) (WalkOrder.id _) 9⟩

end Main

end Bxdb
