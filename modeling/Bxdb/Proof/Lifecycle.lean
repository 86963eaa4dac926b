import Bxdb.Spec.Lifecycle
import Bxdb.Proof.History
import Bxdb.Proof.Sync
import Bxdb.Proof.Layout
import Mathlib.Data.Set.Card

/-!
# Sessions, conversions and purges in any order

* `lifecycle_ok`: **the files are an archive**, whatever was done in whatever order, also
  when the index lags behind the log (`LifeOk`, kept by each command).
* `lifecycle_loads`: every load returns Ok, with what the archive's readers see.
* `lifecycle_completes`: every command returns Ok; `to_log` exactly when there is an index.
* `lifecycle_careful`: **when purges and conversions to a log run on a fresh index only, no
  load can tell which conversions were made.**
-/

namespace Bxdb

open Bytes SortedIndex Versioned ChunkRecord

/-! ## The invariant -/

/-- The pages of zeros have Zero records, and no other pages do. -/
def ZerosApart (vs : List Version) : Prop := ∀ v ∈ vs, v.chunk.kind = .zero ↔ v.page = Page.zero

theorem ZerosApart.mono {vs vs' : List Version} (h : ZerosApart vs) (hsub : ∀ v ∈ vs', v ∈ vs) : ZerosApart vs' :=
  fun v hv => h v (hsub v hv)

/-- **A save** gives pages of zeros Zero records. -/
theorem zerosApart_keeps (z : Zstd) : Keeps z (fun vs _ => ZerosApart vs) fun vs _ => ZerosApart vs where
  fresh _ := fun v hv => absurd hv List.not_mem_nil
  opened _ h _ := h
  saved {vs new db db' c} h hz hs hd := by
    cases hd with
    | empty hjobs =>
      rw [List.append_nil]
      exact hz
    | @pass jobs schedule records hne hp =>
      intro v hv
      rcases List.mem_append.1 hv with hv | hv
      · exact hz v hv
      · obtain ⟨i, job, rec, hj, hr, rfl⟩ := mem_newVersions.1 hv
        obtain ⟨off, len, rfl, -⟩ := (hp.inv.tasks i job _ hj (hp.task.2 hr)).1
        change (Plan.record (planOf z _ job) _ _ off len).kind = .zero ↔ job.page = Page.zero
        constructor
        · intro hk
          by_contra hpage
          have hplan : planOf z (db.accept c.id) job ≠ .zero := fun hplan => hpage (planOne_zero hplan)
          exact (Plan.record_kind hplan _ _ _ _).1 hk
        · intro hpage
          rw [planOf_zero hpage]
          rfl
  closed _ h _ := h

/-- The log holds the versions that readers see and some later ones, and the index, when
there is one, those that readers see. -/
structure LifeOk (z : Zstd) (a : Archive UInt64 ℕ Page) (seen later : List Version) (dir : Dir) : Prop where
  dirOk : DirOk z (seen ++ later) dir
  journal : a.journal = pagesOf (seen ++ later)
  read : a.read = pagesOf seen
  stored : ∀ v ∈ seen, Stored z seen dir.blobs v
  zeros : ZerosApart (seen ++ later)
  index : a.catalogue = none ∧ dir.idx = none ∧ later = [] ∨
    a.catalogue = some (pagesOf seen) ∧ dir.idx = some (indexFile (sortedChunks seen))

theorem pagesOf_sup (vs vs' : List Version) : pagesOf (vs ++ vs') = pagesOf vs ⊔ pagesOf vs' := by
  funext pa t page
  exact propext pagesOf_append

theorem pagesOf_upTo (vs : List Version) (t : UInt32) : pagesOf (keptVersions vs t) = upTo t.toNat (pagesOf vs) := by
  funext pa u page
  exact propext pagesOf_kept

theorem Records.eq {cs : List SaveCall} {vs : List Version} (h : Records cs vs) : pagesOf vs = savedBy cs := by
  funext pa t page
  exact propext (h pa t page)

/-- A version is above the threshold exactly when a purge drops it. -/
theorem above_iff {vs : List Version} {t : UInt32} : Archive.Above t.toNat (pagesOf vs) ↔ dropped vs t ≠ 0 := by
  constructor
  · rintro ⟨pa, s, page, ⟨v, ⟨hv, -, rfl⟩, -⟩, hlt⟩
    exact dropped_ne_zero hv hlt
  · intro h
    by_contra hab
    have hself : keptVersions vs t = vs := by
      refine List.filter_eq_self.2 fun v hv => decide_eq_true ?_
      by_contra hlt
      exact hab ⟨v.pa, v.snap, v.page, ⟨v, ⟨hv, rfl, rfl⟩, rfl⟩, by omega⟩
    unfold dropped at h
    rw [hself, Nat.sub_self] at h
    exact h rfl

section Steps

variable {z : Zstd} {a : Archive UInt64 ℕ Page} {seen later vs : List Version} {dir dir' : Dir} {cs : List SaveCall}

theorem LifeOk.ordered (h : LifeOk z a seen later dir) : Ordered seen := (List.pairwise_append.1 h.dirOk.ordered).1

/-- **A session** extends the log, and what readers see when there is no index. -/
theorem LifeOk.session (h : LifeOk z a seen later dir) (hs : Session z dir cs dir') (hrange : ∀ c ∈ cs, c.InRange) :
    ∃ seen' later', LifeOk z (a.step (.record (savedBy cs))) seen' later' dir' := by
  obtain ⟨new, hd, hr, hidx, hg, hz⟩ := (zerosApart_keeps z).session h.dirOk h.zeros hs hrange
  have hjournal : a.journal ⊔ savedBy cs = pagesOf (seen ++ later ++ new) := by
    rw [pagesOf_sup, hr.eq, h.journal]
  rcases h.index with ⟨hcat, hnone, rfl⟩ | ⟨hcat, hsome⟩
  · rw [List.append_nil] at hd hjournal hz
    refine ⟨seen ++ new, [], by rw [List.append_nil]; exact hd, by rw [List.append_nil]; exact hjournal, ?_, hd.stored,
      by rw [List.append_nil]; exact hz, .inl ⟨hcat, hidx.trans hnone, rfl⟩⟩
    rw [Archive.read_record, if_pos hcat]
    exact hjournal
  · rw [List.append_assoc] at hd hjournal hz
    refine ⟨seen, later ++ new, hd, hjournal, ?_, fun v hv => (h.stored v hv).mono (fun _ hv => hv) hg, hz,
      .inr ⟨hcat, hidx.trans hsome⟩⟩
    rw [Archive.read_record, if_neg (by rw [hcat]; simp)]
    exact h.read

theorem lifeOk_first (hs : Session z Dir.empty cs dir') (hrange : ∀ c ∈ cs, c.InRange) :
    ∃ vs, LifeOk z (Archive.empty.step (.record (savedBy cs))) vs [] dir' := by
  obtain ⟨vs, hd, hr, hidx, hz⟩ := (zerosApart_keeps z).first hs hrange
  have hjournal : (⊥ : Writes UInt64 ℕ Page) ⊔ savedBy cs = pagesOf vs := by rw [bot_sup_eq, hr.eq]
  exact ⟨vs, by rw [List.append_nil]; exact hd, by rw [List.append_nil]; exact hjournal, hjournal, hd.stored,
    by rw [List.append_nil]; exact hz, .inl ⟨rfl, hidx, rfl⟩⟩

/-- **`to_btree`** returns Ok, and readers see the whole log. -/
theorem LifeOk.toBtree (h : LifeOk z a seen later dir) :
    ∃ d, Bxdb.toBtree dir = .ok d ∧ LifeOk z (a.step .publish) (seen ++ later) [] d := by
  have hd : DirOk z (seen ++ later) { dir with idx := some (indexFile (sortedChunks (seen ++ later))) } :=
    ⟨h.dirOk.ordered, h.dirOk.log, h.dirOk.stored, h.dirOk.small⟩
  refine ⟨_, toBtree_ok h.dirOk, by rw [List.append_nil]; exact hd, by rw [List.append_nil]; exact h.journal, h.journal,
    h.dirOk.stored, by rw [List.append_nil]; exact h.zeros, .inr ⟨?_, rfl⟩⟩
  rw [← h.journal]
  rfl

/-- **`to_log`** returns Ok when there is an index, and drops the versions readers do not see. -/
theorem LifeOk.toLog (h : LifeOk z a seen later dir) (hcat : a.catalogue ≠ none) :
    ∃ d, Bxdb.toLog dir = .ok d ∧ LifeOk z (a.step .restore) seen [] d := by
  rcases h.index with ⟨hnone, -⟩ | ⟨hsome, hidx⟩
  · exact absurd hnone hcat
  · have hlog : ∃ m, logFile (sortedChunks seen) = writeLogHeader m ++ encodeAll (chunks seen) ∧
        (∀ v ∈ seen, v.snap ≤ m.toNat) ∧ m ≤ maxSnapshotId := by
      refine ⟨maxSnapshot (sortedChunks seen), ?_, fun v hv => ?_, maxSnapshot_le _⟩
      · unfold logFile
        rw [bySnap_sortedChunks h.ordered]
        rfl
      · exact UInt32.le_iff_toNat_le.1 (le_maxSnapshot ((mem_sortedChunks h.ordered _).2 (List.mem_map_of_mem hv)))
    obtain ⟨m, hm, hrest⟩ := hlog
    have hd : DirOk z seen { dir with log := some (logFile (sortedChunks seen)) } :=
      ⟨h.ordered, ⟨m, congrArg some hm, hrest⟩, h.stored, h.dirOk.small⟩
    refine ⟨_, toLog_indexFile (index_strict recordKey _) hidx, by rw [List.append_nil]; exact hd, ?_, ?_, h.stored,
      by rw [List.append_nil]; exact h.zeros.mono fun v hv => List.mem_append_left _ hv, .inr ⟨hsome, hidx⟩⟩
    · rw [List.append_nil]
      exact h.read
    · rw [Archive.read_restore]
      exact h.read

theorem LifeOk.toLog_iff (h : LifeOk z a seen later dir) : (∃ d, Bxdb.toLog dir = .ok d) ↔ a.catalogue ≠ none := by
  constructor
  · rintro ⟨d, hd⟩ hcat
    rcases h.index with ⟨-, hidx, -⟩ | ⟨hsome, -⟩
    · unfold Bxdb.toLog at hd
      rw [hidx] at hd
      cases hd
    · rw [hcat] at hsome
      cases hsome
  · intro hcat
    obtain ⟨d, hd, -⟩ := h.toLog hcat
    exact ⟨d, hd⟩

/-- What a purge makes of the files: it goes by what readers see. -/
theorem LifeOk.purge_eq (h : LifeOk z a seen later dir) (ord : WalkOrder FileStep) (t : UInt32) :
    purge ord dir t = .ok (if dropped seen t = 0 then dir else purgedDir dir (sortedChunks (keptVersions seen t)),
      dropped seen t) := by
  rcases h.index with ⟨-, hidx, rfl⟩ | ⟨-, hidx⟩
  · have hd := h.dirOk
    rw [List.append_nil] at hd
    obtain ⟨d, hrun, -, rfl⟩ := purge_ok ord (hd.formOk hidx) t
    exact hrun
  · exact purge_stale ord h.dirOk hidx t

/-- The directory a purge leaves when it drops something. -/
theorem LifeOk.purgedDir (h : LifeOk z a seen later dir) {t : UInt32} (h0 : dropped seen t ≠ 0) :
    DirOk z (keptVersions seen t) (purgedDir dir (sortedChunks (keptVersions seen t))) := by
  have hlogOnly : DirOk z (seen ++ later) { dir with idx := none } :=
    ⟨h.dirOk.ordered, h.dirOk.log, h.dirOk.stored, h.dirOk.small⟩
  have hp := (hlogOnly.formOk rfl).purged t
  rw [kept_of_dropped h.dirOk.ordered h0] at hp
  obtain ⟨m, hm, -⟩ := h.dirOk.log
  have hlog : (Bxdb.purgedDir dir (sortedChunks (keptVersions seen t))).log =
      some (logFile (sortedChunks (keptVersions seen t))) := by
    unfold Bxdb.purgedDir
    rw [hm]
    rfl
  obtain ⟨m', hbytes, hrest⟩ := hp.log _ hlog
  exact ⟨hp.ordered, ⟨m', by rw [hlog, hbytes], hrest⟩, hp.stored, hp.small⟩

/-- **A purge** returns Ok, and readers see the past up to its threshold. -/
theorem LifeOk.purge (h : LifeOk z a seen later dir) (ord : WalkOrder FileStep) (t : UInt32) :
    ∃ d seen' later', Bxdb.purge ord dir t = .ok (d, dropped seen t) ∧
      LifeOk z (a.step (.trim t.toNat)) seen' later' d := by
  have hrun := h.purge_eq ord t
  by_cases h0 : dropped seen t = 0
  · rw [if_pos h0] at hrun
    -- nothing above the threshold: the archive does not change either
    have hsame : a.step (.trim t.toNat) = a := by
      change a.trim t.toNat = a
      unfold Archive.trim
      rw [if_neg]
      rw [h.read, above_iff]
      exact not_not.2 h0
    rw [hsame]
    exact ⟨dir, seen, later, hrun, h⟩
  · rw [if_neg h0] at hrun
    have hd := h.purgedDir h0
    have hread : upTo t.toNat a.read = pagesOf (keptVersions seen t) := by rw [pagesOf_upTo, h.read]
    have htrim : a.step (.trim t.toNat) = ⟨pagesOf (keptVersions seen t),
        a.catalogue.map fun _ => pagesOf (keptVersions seen t)⟩ := by
      change a.trim t.toNat = _
      unfold Archive.trim
      rw [if_pos (by rw [h.read]; exact above_iff.2 h0), hread]
    refine ⟨_, keptVersions seen t, [], hrun, ?_⟩
    rw [htrim]
    refine ⟨by rw [List.append_nil]; exact hd, by rw [List.append_nil], ?_, hd.stored, ?_, ?_⟩
    · unfold Archive.read
      cases a.catalogue with
      | none => rfl
      | some W => rfl
    · rw [List.append_nil]
      exact h.zeros.mono fun v hv => List.mem_append_left _ (List.mem_of_mem_filter hv)
    · unfold Bxdb.purgedDir
      rcases h.index with ⟨hcat, hidx, -⟩ | ⟨hcat, hidx⟩
      · exact .inl ⟨by rw [hcat]; rfl, by rw [hidx]; rfl, rfl⟩
      · exact .inr ⟨by rw [hcat]; rfl, by rw [hidx]; rfl⟩

end Steps

/-! ## The run -/

section Run

variable {z : Zstd} {es : List Command} {dir : Dir}

theorem archived_concat (es : List Command) (e : Command) : archived (es ++ [e]) = (archived es).step e.event := by
  unfold archived
  rw [List.map_append]
  exact Archive.run_concat _ _

/-- **The files are an archive**, once there has been a session. -/
theorem lifecycle_ok (h : Lifecycle z es dir) :
    es = [] ∧ dir = Dir.empty ∨ ∃ seen later, LifeOk z (archived es) seen later dir := by
  induction h with
  | empty => exact .inl ⟨rfl, rfl⟩
  | session _ hs hrange ih =>
    rw [archived_concat]
    rcases ih with ⟨rfl, rfl⟩ | ⟨seen, later, h⟩
    · obtain ⟨vs, h⟩ := lifeOk_first hs hrange
      exact .inr ⟨vs, [], h⟩
    · exact .inr (h.session hs hrange)
  | toBtree _ hc ih =>
    rw [archived_concat]
    rcases ih with ⟨rfl, rfl⟩ | ⟨seen, later, h⟩
    · cases hc
    · obtain ⟨d, hd, h⟩ := h.toBtree
      obtain rfl := Except.ok.inj (hd.symm.trans hc)
      exact .inr ⟨_, _, h⟩
  | toLog _ hc ih =>
    rw [archived_concat]
    rcases ih with ⟨rfl, rfl⟩ | ⟨seen, later, h⟩
    · cases hc
    · obtain ⟨d, hd, h⟩ := h.toLog (h.toLog_iff.1 ⟨_, hc⟩)
      obtain rfl := Except.ok.inj (hd.symm.trans hc)
      exact .inr ⟨_, _, h⟩
  | purge _ hp ih =>
    rw [archived_concat]
    rcases ih with ⟨rfl, rfl⟩ | ⟨seen, later, h⟩
    · cases hp
    · obtain ⟨d, seen', later', hd, h⟩ := h.purge _ _
      obtain ⟨rfl, -⟩ := Prod.mk.inj (Except.ok.inj (hd.symm.trans hp))
      exact .inr ⟨_, _, h⟩

/-- With a command behind it, a directory is no longer empty. -/
theorem lifecycle_archive (h : Lifecycle z es dir) (hne : es ≠ []) :
    ∃ seen later, LifeOk z (archived es) seen later dir := by
  rcases lifecycle_ok h with ⟨rfl, -⟩ | h
  · exact absurd rfl hne
  · exact h

theorem LifeOk.load {a : Archive UInt64 ℕ Page} {seen later : List Version} (hz : z.RoundTrip)
    (h : LifeOk z a seen later dir) (pa : UInt64) {s : UInt32} (hs : s ≤ maxSnapshotId) :
    ∃ r, loadPage z dir pa s = .ok r ∧ AsOf a.read pa s.toNat r := by
  rw [h.read]
  rcases h.index with ⟨-, hidx, rfl⟩ | ⟨-, hidx⟩
  · have hd := h.dirOk
    rw [List.append_nil] at hd
    exact (hd.formOk hidx).load hz pa hs
  · obtain ⟨store, hopen, hblobs, hS⟩ := open_indexFile h.ordered hidx
    exact loadPage_asOf hz hopen hblobs hS pa hs fun v hv _ => h.stored v hv

/-- Opening the directory for writing changes nothing for its readers. -/
theorem LifeOk.opened {a : Archive UInt64 ℕ Page} {seen later : List Version} (h : LifeOk z a seen later dir) {n : ℕ}
    {t : UInt16} {u : Bool} {db : AppendOnlyDb} (hopen : AppendOnlyDb.open dir n t u = .ok db) :
    LifeOk z a seen later db.disk := by
  obtain ⟨hd, hidx, hg⟩ := open_disk h.dirOk hopen
  refine ⟨hd, h.journal, h.read, fun v hv => (h.stored v hv).mono (fun _ hv => hv) hg, h.zeros, ?_⟩
  rw [hidx]
  exact h.index

theorem LifeOk.loadAll {a : Archive UInt64 ℕ Page} {seen later : List Version} (hz : z.RoundTrip)
    (h : LifeOk z a seen later dir) {off count : UInt64} {s : UInt32} (hs : s ≤ maxSnapshotId)
    (hoff : off.toNat + count.toNat < 2 ^ 64) {workers : ℕ} (hfit : WorkersFit count.toNat workers) :
    ∃ out, loadAllPages z dir (count.toNat * pageSize) true off count s workers = .ok out ∧
      RangeAsOf a.read off count s out := by
  rw [h.read]
  rcases h.index with ⟨-, hidx, rfl⟩ | ⟨-, hidx⟩
  · obtain ⟨m, hm, -⟩ := h.dirOk.log
    have hnil : ([] : Bytes).length < logRecordBaseSize := by decide
    rw [List.append_nil, ← List.append_nil (encodeAll (chunks seen))] at hm
    exact loadAllPages_log hz h.ordered.distinct h.stored hs rfl hoff hfit hnil hidx hm
  · exact loadAllPages_index hz h.ordered.distinct h.stored hs rfl hoff hfit (index_strict recordKey _)
      (mem_sortedChunks h.ordered) hidx

/-- **What loads return after any commands**: the page the archive's readers see, one by
one and in bulk. -/
theorem lifecycle_loads (hz : z.RoundTrip) (h : Lifecycle z es dir) (hne : es ≠ []) {s : UInt32}
    (hs : s ≤ maxSnapshotId) :
    (∀ pa, ∃ r, loadPage z dir pa s = .ok r ∧ AsOf (archived es).read pa s.toNat r) ∧
    ∀ (n : ℕ) (t : UInt16) (u : Bool) (db : AppendOnlyDb), AppendOnlyDb.open dir n t u = .ok db →
      ∀ (off count : UInt64) (workers : ℕ), off.toNat + count.toNat < 2 ^ 64 → WorkersFit count.toNat workers →
        ∃ out, loadAllPages z db.disk (count.toNat * pageSize) true off count s workers = .ok out ∧
          RangeAsOf (archived es).read off count s out := by
  obtain ⟨seen, later, h⟩ := lifecycle_archive h hne
  exact ⟨fun pa => h.load hz pa hs, fun n t u db hopen off count workers hoff hfit =>
    (h.opened hopen).loadAll hz hs hoff hfit⟩

end Run

/-! ## Commands that complete -/

section Complete

variable {z : Zstd} {es : List Command} {dir : Dir}

/-- Versions are counted by their addresses and snapshots. -/
theorem countP_eq_ncard {vs : List Version} (ho : Ordered vs) (q : Version → Bool) :
    vs.countP q = Set.ncard {k : UInt64 × ℕ | ∃ v ∈ vs, q v = true ∧ v.pa = k.1 ∧ v.snap = k.2} := by
  classical
  have hnodup : ((vs.filter q).map fun v => (v.pa, v.snap)).Nodup := by
    refine List.Nodup.map_on (fun v hv v' hv' heq => ?_) (List.Nodup.filter _ (List.Nodup.of_map Version.key ho.distinct))
    obtain ⟨hpa, hsnap⟩ := Prod.mk.inj heq
    refine eq_of_key_eq ho.distinct (List.mem_filter.1 hv).1 (List.mem_filter.1 hv').1 ?_
    exact key_eq_of_pa_snap hpa hsnap
  have hset : {k : UInt64 × ℕ | ∃ v ∈ vs, q v = true ∧ v.pa = k.1 ∧ v.snap = k.2} =
      ((vs.filter q).map fun v => (v.pa, v.snap)).toFinset := by
    ext ⟨pa, s⟩
    simp only [Set.mem_ofPred_eq, Finset.mem_coe, List.mem_toFinset, List.mem_map, List.mem_filter, Prod.mk.injEq,
      and_assoc]
  rw [hset, Set.ncard_coe_finset, List.toFinset_card_of_nodup hnodup, List.length_map, List.countP_eq_length_filter]

/-- The versions a purge drops, counted in the archive. -/
theorem dropped_eq_ncard {vs : List Version} (ho : Ordered vs) (t : UInt32) :
    dropped vs t = Set.ncard {k : UInt64 × ℕ | t.toNat < k.2 ∧ ∃ page, pagesOf vs k.1 k.2 page} := by
  have hcount : dropped vs t = vs.countP fun v => decide (t.toNat < v.snap) := by
    have hpart := List.length_eq_countP_add_countP (fun v => decide (v.snap ≤ t.toNat)) (l := vs)
    have hnot : (vs.countP fun v => decide ¬ decide (v.snap ≤ t.toNat) = true) =
        vs.countP fun v => decide (t.toNat < v.snap) := by
      refine List.countP_congr fun v _ => ?_
      simp only [decide_eq_true_eq, not_le]
    rw [hnot, List.countP_eq_length_filter] at hpart
    unfold dropped keptVersions
    omega
  rw [hcount, countP_eq_ncard ho]
  congr 1
  ext ⟨pa, s⟩
  simp only [Set.mem_ofPred_eq, decide_eq_true_eq]
  constructor
  · rintro ⟨v, hv, hlt, rfl, rfl⟩
    exact ⟨hlt, v.page, v, ⟨hv, rfl, rfl⟩, rfl⟩
  · rintro ⟨hlt, page, v, ⟨hv, rfl, rfl⟩, -⟩
    exact ⟨v, hv, hlt, rfl, rfl⟩

/-- **Every command completes on what any commands have made**: sessions can open, a
conversion to an index returns Ok, one to a log exactly when there is an index, and a purge
with the number of versions that readers no longer see. -/
theorem lifecycle_completes (h : Lifecycle z es dir) (hne : es ≠ []) :
    (∀ n t u, 1 ≤ n ∧ n ≤ 255 → ∃ db, AppendOnlyDb.open dir n t u = .ok db) ∧ (∃ d, toBtree dir = .ok d) ∧
    ((∃ d, toLog dir = .ok d) ↔ (archived es).catalogue ≠ none) ∧
    ∀ ord t, ∃ d n, purge ord dir t = .ok (d, n) ∧
      n = Set.ncard {k : UInt64 × ℕ | t.toNat < k.2 ∧ ∃ page, (archived es).read k.1 k.2 page} := by
  obtain ⟨seen, later, h⟩ := lifecycle_archive h hne
  refine ⟨fun n t u hn => ?_, ?_, h.toLog_iff, fun ord t => ?_⟩
  · obtain ⟨m, hm, -⟩ := h.dirOk.log
    exact open_completes hn t u (.inr ⟨m, _, hm⟩)
  · obtain ⟨d, hd, -⟩ := h.toBtree
    exact ⟨d, hd⟩
  · obtain ⟨d, -, -, hd, -⟩ := h.purge ord t
    refine ⟨d, _, hd, ?_⟩
    rw [h.read]
    exact dropped_eq_ncard h.ordered t

end Complete

/-! ## Care -/

section Care

variable {z : Zstd} {es : List Command} {dir : Dir}

theorem care_concat (es : List Command) (e : Command) : care (es ++ [e]) = (care es).step e := by
  unfold care
  rw [List.foldl_append]
  rfl

theorem survivors_concat (es : List Command) (e : Command) : survivors (es ++ [e]) = match e with
    | .session cs => survivors es ++ cs
    | .toBtree => survivors es
    | .toLog => survivors es
    | .purge t => (survivors es).filter fun c => c.id ≤ t := by
  unfold survivors
  rw [List.foldl_append]
  cases e <;> rfl

theorem savedBy_filter (cs : List SaveCall) (t : UInt32) :
    savedBy (cs.filter fun c => c.id ≤ t) = upTo t.toNat (savedBy cs) := by
  funext pa u page
  refine propext ⟨?_, ?_⟩
  · rintro ⟨c, hc, rfl, hd⟩
    obtain ⟨hc, hle⟩ := List.mem_filter.1 hc
    exact ⟨⟨c, hc, rfl, hd⟩, UInt32.le_iff_toNat_le.1 (of_decide_eq_true hle)⟩
  · rintro ⟨⟨c, hc, rfl, hd⟩, hle⟩
    exact ⟨c, List.mem_filter.2 ⟨hc, decide_eq_true (UInt32.le_iff_toNat_le.2 hle)⟩, rfl, hd⟩

/-- What is kept of the records is what the surviving saves gave. -/
theorem kept_events (es : List Command) : Archive.kept (es.map Command.event) = savedBy (survivors es) := by
  induction es using List.reverseRecOn with
  | nil =>
    funext pa t page
    exact propext ⟨False.elim, fun ⟨c, hc, _⟩ => List.not_mem_nil hc⟩
  | append_singleton es e ih =>
    rw [List.map_append, List.map_singleton, Archive.kept_concat, ih, survivors_concat]
    cases e with
    | session cs =>
      funext pa t page
      exact propext savedBy_append.symm
    | toBtree => rfl
    | toLog => rfl
    | purge t => exact (savedBy_filter _ t).symm

/-- What the three flags say about the archive. -/
structure CareOk (k : Care) (es : List Command) : Prop where
  indexed : k.indexed = false → (archived es).catalogue = none
  fresh : k.fresh = true → (archived es).InStep
  careful : k.careful = true → Archive.Careful (es.map Command.event)

theorem careful_concat {e : Command} (h : Archive.Careful (es.map Command.event))
    (he : e.event.Rewrites → (archived es).InStep) : Archive.Careful ((es ++ [e]).map Command.event) := by
  intro pre e' hp hrw
  rw [List.map_append, List.map_singleton] at hp
  rcases (List.prefix_concat_iff).1 hp with heq | hp
  · obtain ⟨rfl, h1⟩ := List.append_inj' heq rfl
    obtain rfl := (List.singleton_inj.1 h1)
    exact he hrw
  · exact h pre e' hp hrw

/-- **The flags are right**, after every command. -/
theorem care_ok (es : List Command) : CareOk (care es) es := by
  induction es using List.reverseRecOn with
  | nil =>
    refine ⟨fun _ => rfl, fun _ => rfl, fun _ pre e hp _ => ?_⟩
    have := hp.length_le
    simp at this
  | append_singleton es e ih =>
    rw [care_concat]
    cases e with
    | session cs =>
      -- a session leaves an index behind, if there is one
      have hc : ∀ k : Care, k.step (.session cs) = { k with fresh := k.fresh && !k.indexed } := fun _ => rfl
      rw [hc]
      refine ⟨fun h => ?_, fun h => ?_, fun h => careful_concat (ih.careful h) False.elim⟩
      · rw [archived_concat]
        exact ih.indexed h
      · obtain ⟨-, hidx⟩ := Bool.and_eq_true_iff.1 h
        rw [archived_concat]
        exact Archive.inStep_of_none (ih.indexed (by simpa using hidx))
    | toBtree =>
      refine ⟨fun h => ?_, fun _ => ?_, fun h => careful_concat (ih.careful h) False.elim⟩
      · cases h
      · rw [archived_concat]
        exact Archive.inStep_publish _
    | toLog =>
      refine ⟨fun h => ?_, fun _ => ?_, fun h => ?_⟩
      · rw [archived_concat]
        exact ih.indexed h
      · rw [archived_concat]
        exact Archive.inStep_restore _
      · obtain ⟨h1, h2⟩ := Bool.and_eq_true_iff.1 h
        exact careful_concat (ih.careful h1) fun _ => ih.fresh h2
    | purge t =>
      refine ⟨fun h => ?_, fun h => ?_, fun h => ?_⟩
      · rw [archived_concat]
        have hcat := ih.indexed h
        change ((archived es).trim t.toNat).catalogue = none
        unfold Archive.trim
        split
        · rw [hcat]
          rfl
        · exact hcat
      · rw [archived_concat]
        exact ((ih.fresh h).trim t.toNat).1
      · obtain ⟨h1, h2⟩ := Bool.and_eq_true_iff.1 h
        exact careful_concat (ih.careful h1) fun _ => ih.fresh h2

/-- **With care, no load can tell which conversions were made**: when purges and
conversions to a log ran on a fresh index or on none, and the index is fresh, loads return
the page of the latest save at or below the snapshot that no purge has undone. -/
theorem lifecycle_careful (hz : z.RoundTrip) (h : Lifecycle z es dir) (hne : es ≠ []) (hcare : (care es).careful = true)
    (hfresh : (care es).fresh = true) {s : UInt32} (hs : s ≤ maxSnapshotId) :
    (∀ pa, ∃ r, loadPage z dir pa s = .ok r ∧ AsOf (savedBy (survivors es)) pa s.toNat r) ∧
    ∀ (n : ℕ) (t : UInt16) (u : Bool) (db : AppendOnlyDb), AppendOnlyDb.open dir n t u = .ok db →
      ∀ (off count : UInt64) (workers : ℕ), off.toNat + count.toNat < 2 ^ 64 → WorkersFit count.toNat workers →
        ∃ out, loadAllPages z db.disk (count.toNat * pageSize) true off count s workers = .ok out ∧
          RangeAsOf (savedBy (survivors es)) off count s out := by
  have hread : (archived es).read = savedBy (survivors es) := by
    rw [← kept_events]
    exact Archive.run_careful ((care_ok es).careful hcare) ((care_ok es).fresh hfresh)
  obtain ⟨seen, later, h⟩ := lifecycle_archive h hne
  rw [← hread]
  exact ⟨fun pa => h.load hz pa hs, fun n t u db hopen off count workers hoff hfit =>
    (h.opened hopen).loadAll hz hs hoff hfit⟩

end Care

/-! ## Two lives -/

/-- A save after the conversion. -/
theorem exists_stale : ∃ dir, Lifecycle Zstd.raw
    [.session (onePages [(noise 1, 1)]), .toBtree, .session (onePages [(noise 2, 4)])] dir := by
  obtain ⟨dir1, h1, hi, hroom⟩ : ∃ dir, Session Zstd.raw Dir.empty (onePages [(noise 1, 1)]) dir ∧ dir.IdsBelow 2 ∧
      dir.HasRoom (3 * 1 * blobBufCap) :=
    session_onePages Zstd.raw_small (by decide : 1 ≤ 4 ∧ 4 ≤ 255) 0 true (by simp) (by simp) (by decide) (by decide) _
      (by decide)
  obtain ⟨vs, hd, -, -⟩ := session_first h1 (onePages_inRange _)
  have hl1 : Lifecycle Zstd.raw ([] ++ [.session (onePages [(noise 1, 1)])]) dir1 := .session .empty h1 (onePages_inRange _)
  have hl2 := Lifecycle.toBtree hl1 (toBtree_ok hd)
  have hd' : DirOk Zstd.raw vs { dir1 with idx := some (indexFile (sortedChunks vs)) } :=
    ⟨hd.ordered, hd.log, hd.stored, hd.small⟩
  obtain ⟨dir2, h2, -, -⟩ : ∃ dir, Session Zstd.raw { dir1 with idx := some (indexFile (sortedChunks vs)) }
      (onePages [(noise 2, 4)]) dir ∧ dir.IdsBelow 5 ∧ dir.HasRoom 0 :=
    session_onePages_next Zstd.raw_small (by decide : 1 ≤ 4 ∧ 4 ≤ 255) 0 true hd' hi (by simp) (by simp)
      (by decide) (by decide) (by decide) _ hroom
  exact ⟨dir2, .session hl2 h2 (onePages_inRange _)⟩

/-- Readers see the index, which has the first save alone. -/
theorem lifecycle_loads_stale : ∃ dir r, loadPage Zstd.raw dir 0 4 = .ok r ∧
    AsOf (savedBy (onePages [(noise 1, 1)])) 0 4 r := by
  obtain ⟨dir, h⟩ := exists_stale
  obtain ⟨hpage, -⟩ := lifecycle_loads Zstd.raw_roundTrip h (by simp) (by decide : (4 : UInt32) ≤ maxSnapshotId)
  obtain ⟨r, hr, hasOf⟩ := hpage 0
  refine ⟨dir, r, hr, ?_⟩
  have hread : (archived [.session (onePages [(noise 1, 1)]), .toBtree, .session (onePages [(noise 2, 4)])]).read =
      ⊥ ⊔ savedBy (onePages [(noise 1, 1)]) := rfl
  rw [hread, bot_sup_eq] at hasOf
  exact hasOf

/-- Everything can be done there. Readers see one version, and a purge of everything drops
it. -/
theorem lifecycle_completes_stale : ∃ dir db d d' d'', AppendOnlyDb.open dir 4 512 true = .ok db ∧ toBtree dir = .ok d ∧
    toLog dir = .ok d' ∧ purge (WalkOrder.id _) dir 0 = .ok (d'', 1) := by
  obtain ⟨dir, h⟩ := exists_stale
  obtain ⟨hopen, ⟨d, hd⟩, hlog, hpurge⟩ := lifecycle_completes h (by simp)
  obtain ⟨db, hdb⟩ := hopen 4 512 true (by decide)
  -- there is an index, so the log can be written from it
  obtain ⟨d', hd'⟩ := hlog.2 (by simp [archived, Archive.run, Archive.step, Command.event])
  obtain ⟨d'', n, hd'', hn⟩ := hpurge (WalkOrder.id _) 0
  have hread : (archived [.session (onePages [(noise 1, 1)]), .toBtree, .session (onePages [(noise 2, 4)])]).read =
      savedBy (onePages [(noise 1, 1)]) := bot_sup_eq _
  have hone : {k : UInt64 × ℕ | (0 : UInt32).toNat < k.2 ∧ ∃ page, savedBy (onePages [(noise 1, 1)]) k.1 k.2 page} = {(0, 1)} := by
    ext ⟨pa, t⟩
    simp only [Set.mem_ofPred_eq, Set.mem_singleton_iff, savedBy_onePage, List.mem_singleton]
    constructor
    · rintro ⟨-, page, hpa, e, he, ht, -⟩
      rw [he] at ht
      rw [hpa, ← ht]
      rfl
    · intro heq
      obtain ⟨rfl, rfl⟩ := Prod.mk.inj heq
      exact ⟨by decide, noise 1, rfl, _, rfl, rfl, rfl⟩
  rw [hread, hone, Set.ncard_singleton] at hn
  rw [hn] at hd''
  exact ⟨dir, db, d, d', d'', hdb, hd, hd', hd''⟩

/-- Three saves, the last of them purged from the index and the log, and the log written
anew from the index. -/
theorem lifecycle_careful_noise : ∃ dir r, Lifecycle Zstd.raw [.session threeSaves, .toBtree, .purge 5, .toLog] dir ∧
    loadPage Zstd.raw dir 0 9 = .ok r ∧ AsOf (savedBy (threeSaves.filter fun c => c.id ≤ 5)) 0 9 r := by
  obtain ⟨d₁, hs, -, -⟩ := threeSaves_session
  have h₁ : Lifecycle Zstd.raw ([] ++ [.session threeSaves]) d₁ := .session .empty hs (onePages_inRange _)
  obtain ⟨seen, later, hok₁⟩ := lifecycle_archive h₁ (by simp)
  obtain ⟨d₂, hd₂, hok₂⟩ := hok₁.toBtree
  obtain ⟨d₃, seen₃, later₃, hd₃, hok₃⟩ := hok₂.purge (WalkOrder.id _) 5
  obtain ⟨d₄, hd₄, -⟩ := hok₃.toLog (by
    change (Archive.trim _ _).catalogue ≠ none
    unfold Archive.trim
    split <;> simp [Archive.step])
  have h₄ := Lifecycle.toLog (.purge (.toBtree h₁ hd₂) hd₃) hd₄
  obtain ⟨hpage, -⟩ := lifecycle_careful Zstd.raw_roundTrip h₄ (by simp) rfl rfl (by decide : (9 : UInt32) ≤ maxSnapshotId)
  obtain ⟨r, hr, hasOf⟩ := hpage 0
  exact ⟨d₄, r, h₄, hr, hasOf⟩

end Bxdb
