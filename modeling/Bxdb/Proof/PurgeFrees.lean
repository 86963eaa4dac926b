import Mathlib.Order.Bounds.Defs
import Bxdb.Proof.Layout

/-!
# What a purge frees

A purge cuts the worker files that a kept non-Zero record names, and removes those that no
kept record names. A Zero record names worker 0, so a file of worker 0 that only Zero
records name is neither cut nor removed.

* `purge_frees`: **a purge leaves of each worker file what kept records name, and nothing
  of a purged record, exactly when no kept Zero record is left alone with worker 0**.
* `purge_leaves_bytes`: a zero page and then another page, and a purge of the second.
-/

namespace Bxdb

open Bytes SortedIndex Versioned ChunkRecord

/-- Where the kept non-Zero records of a worker end. -/
def EndsIn (kept : List ChunkRecord) (w : UInt8) : Set ℕ :=
  {n | ∃ r ∈ kept, r.kind ≠ .zero ∧ r.workerId = w ∧ endOf r = n}

/-- No byte of the range the record names is there. -/
def Gone (blobs : UInt8 → Option Bytes) (r : ChunkRecord) : Prop :=
  ∀ bs, blobs r.workerId = some bs → bs.length ≤ r.offset.toNat

/-- **All purged data is freed**: each file that is left is as long as the greatest end of
a kept non-Zero record of its worker, so there is one; and no byte of a purged record that
names any is left. -/
structure Freed (records : List ChunkRecord) (t : UInt32) (blobs : UInt8 → Option Bytes) : Prop where
  exact : ∀ w bs, blobs w = some bs → IsGreatest (EndsIn (records.filter fun r => snapshotOf r.key ≤ t) w) bs.length
  gone : ∀ r ∈ records, t < snapshotOf r.key → r.kind ≠ .zero → 0 < r.len.toNat → Gone blobs r

/-- A Zero record is kept only beside a non-Zero record of worker 0. -/
def ZeroCovered (records : List ChunkRecord) (t : UInt32) : Prop :=
  (∃ r ∈ records, snapshotOf r.key ≤ t ∧ r.kind = .zero) →
    ∃ r ∈ records, snapshotOf r.key ≤ t ∧ r.kind ≠ .zero ∧ r.workerId = 0

section

variable {z : Zstd} {vs : List Version} {dir : Dir} {t : UInt32} {kept : List ChunkRecord} {w : UInt8}

theorem mem_blobRecords {r : ChunkRecord} : r ∈ blobRecords kept w ↔ r ∈ kept ∧ r.kind ≠ .zero ∧ r.workerId = w := by
  unfold blobRecords
  simp

/-- The greatest end is reached. -/
theorem foldl_max_reached {l : List ChunkRecord} {m : ℕ} :
    l.foldl (fun m r => max m (endOf r)) m = m ∨ ∃ r ∈ l, endOf r = l.foldl (fun m r => max m (endOf r)) m := by
  induction l generalizing m with
  | nil => exact .inl rfl
  | cons a l ih =>
    rw [List.foldl_cons]
    rcases ih (m := max m (endOf a)) with h | ⟨r, hr, h⟩
    · rcases le_total (endOf a) m with hle | hle
      · rw [max_eq_left hle] at h ⊢
        exact .inl h
      · rw [max_eq_right hle] at h ⊢
        exact .inr ⟨a, List.mem_cons_self, h.symm⟩
    · exact .inr ⟨r, List.mem_cons_of_mem _ hr, h⟩

/-- **The length a file is cut to** is the greatest end of a kept record of its worker. -/
theorem keepLen_greatest (h : ¬ (blobRecords kept w).isEmpty) : IsGreatest (EndsIn kept w) (keepLen kept w) := by
  constructor
  · obtain ⟨r, hr⟩ := List.exists_mem_of_ne_nil _ (by simpa using h)
    obtain ⟨hmem, hk, hw⟩ := mem_blobRecords.1 hr
    have hreach : keepLen kept w = 0 ∨ ∃ a ∈ blobRecords kept w, endOf a = keepLen kept w := foldl_max_reached
    rcases hreach with h0 | ⟨a, ha, hend⟩
    · -- every record ends at 0
      have hle := keepLen_le.1 (le_refl (keepLen kept w)) r hr
      exact ⟨r, hmem, hk, hw, by omega⟩
    · obtain ⟨hmem', hk', hw'⟩ := mem_blobRecords.1 ha
      exact ⟨a, hmem', hk', hw', hend⟩
  · rintro n ⟨r, hmem, hk, hw, rfl⟩
    exact keepLen_le.1 (le_refl _) r (mem_blobRecords.2 ⟨hmem, hk, hw⟩)

/-- The records a purge keeps, of a well-formed directory. -/
theorem mem_kept {r : ChunkRecord} (ho : Ordered vs) :
    r ∈ sortedChunks (keptVersions vs t) ↔ r ∈ sortedChunks vs ∧ snapshotOf r.key ≤ t := by
  rw [← filter_sortedChunks ho, List.mem_filter, decide_eq_true_eq]

/-- Only a Zero record names a worker without having bytes there, and it names worker 0. -/
theorem FormOk.zero_worker (h : FormOk z vs dir) {r : ChunkRecord} (hr : r ∈ sortedChunks vs) (hk : r.kind = .zero) :
    r.workerId = 0 ∧ (dir.blobs 0).isSome := by
  obtain ⟨v, hv, rfl⟩ := List.mem_map.1 ((mem_sortedChunks h.ordered _).1 hr)
  have hstored := h.stored v hv
  cases hstored with
  | zero hblob => exact ⟨rfl, hblob⟩
  | full => simp at hk
  | delta => simp at hk

/-- **What is freed when Zero records are covered.** -/
theorem FormOk.freed (h : FormOk z vs dir) (hl : LaidOut vs) (hcovered : ZeroCovered (sortedChunks vs) t) :
    Freed (sortedChunks vs) t (purgedDir dir (sortedChunks (keptVersions vs t))).blobs := by
  have hexact : ∀ w bs, (purgedDir dir (sortedChunks (keptVersions vs t))).blobs w = some bs →
      IsGreatest (EndsIn (sortedChunks (keptVersions vs t)) w) bs.length := by
    intro w bs hbs
    change trimBlob _ w (dir.blobs w) = some bs at hbs
    unfold trimBlob at hbs
    split at hbs
    · rename_i hne
      obtain ⟨old, -, rfl⟩ := Option.map_eq_some_iff.1 hbs
      rw [length_setLen]
      exact keepLen_greatest hne
    rename_i hempty
    split at hbs
    · -- the file is named by a Zero record, so another record of worker 0 is kept
      rename_i hany
      obtain ⟨r, hr, hw⟩ := List.any_eq_true.1 hany
      have hw' : r.workerId = w := by simpa using hw
      obtain ⟨hmem, hle⟩ := (mem_kept h.ordered).1 hr
      exfalso
      by_cases hk : r.kind = .zero
      · obtain ⟨a, ha, hale, hak, haw⟩ := hcovered ⟨r, hmem, hle, hk⟩
        rw [(h.zero_worker hmem hk).1] at hw'
        have hin := mem_blobRecords.2 ⟨(mem_kept h.ordered).2 ⟨ha, hale⟩, hak, haw.trans hw'⟩
        exact hempty (by simpa using List.ne_nil_of_mem hin)
      · exact hempty (by simpa using List.ne_nil_of_mem (mem_blobRecords.2 ⟨hr, hk, hw'⟩))
    · cases hbs
  refine ⟨fun w bs hbs => ?_, fun r hr hlt hk _ bs hbs => ?_⟩
  · rw [filter_sortedChunks h.ordered]
    exact hexact w bs hbs
  · -- the last kept record lies in front of every purged one
    obtain ⟨⟨a, ha, hak, haw, hend⟩, -⟩ := hexact _ bs hbs
    obtain ⟨hmem, hle⟩ := (mem_kept h.ordered).1 ha
    rw [← hend]
    exact hl.ordered h.ordered ((mem_sortedChunks h.ordered _).1 hmem) ((mem_sortedChunks h.ordered _).1 hr)
      ⟨hak, hk, haw⟩ (UInt32.lt_of_le_of_lt hle hlt)

/-- **A Zero record left alone** keeps the file of worker 0 as it was. -/
theorem FormOk.untouched (h : FormOk z vs dir) {r : ChunkRecord} (hr : r ∈ sortedChunks vs) (hle : snapshotOf r.key ≤ t)
    (hk : r.kind = .zero) (hno : ¬ ∃ a ∈ sortedChunks vs, snapshotOf a.key ≤ t ∧ a.kind ≠ .zero ∧ a.workerId = 0) :
    (purgedDir dir (sortedChunks (keptVersions vs t))).blobs 0 = dir.blobs 0 := by
  have hempty : ¬ ¬ (blobRecords (sortedChunks (keptVersions vs t)) 0).isEmpty := by
    intro hne
    obtain ⟨a, ha⟩ := List.exists_mem_of_ne_nil _ (by simpa using hne)
    obtain ⟨hmem, hak, haw⟩ := mem_blobRecords.1 ha
    obtain ⟨hmem, hale⟩ := (mem_kept h.ordered).1 hmem
    exact hno ⟨a, hmem, hale, hak, haw⟩
  have hany : (sortedChunks (keptVersions vs t)).any (fun r => r.workerId == 0) = true :=
    List.any_eq_true.2 ⟨r, (mem_kept h.ordered).2 ⟨hr, hle⟩, by simpa using (h.zero_worker hr hk).1⟩
  change trimBlob _ 0 (dir.blobs 0) = dir.blobs 0
  unfold trimBlob
  rw [if_neg hempty, if_pos hany]

theorem FormOk.covered (h : FormOk z vs dir)
    (hfreed : Freed (sortedChunks vs) t (purgedDir dir (sortedChunks (keptVersions vs t))).blobs) :
    ZeroCovered (sortedChunks vs) t := by
  rintro ⟨r, hr, hle, hk⟩
  by_contra hno
  obtain ⟨bs, hbs⟩ := Option.isSome_iff_exists.1 (h.zero_worker hr hk).2
  obtain ⟨⟨a, ha, hak, haw, -⟩, -⟩ := hfreed.exact 0 bs ((h.untouched hr hle hk hno).trans hbs)
  obtain ⟨ha, hale⟩ := List.mem_filter.1 ha
  exact hno ⟨a, ha, of_decide_eq_true hale, hak, haw⟩

/-- A purge that drops something leaves the directory trimmed. -/
theorem FormOk.purge_dir (h : FormOk z vs dir) {ord : WalkOrder FileStep} {dir' : Dir} {n : ℕ}
    (hp : purge ord dir t = .ok (dir', n)) (hn : n ≠ 0) :
    dir' = purgedDir dir (sortedChunks (keptVersions vs t)) := by
  obtain ⟨d, hrun, -, hd⟩ := purge_ok ord h t
  rw [hrun] at hp
  obtain ⟨rfl, rfl⟩ := Prod.mk.inj (Except.ok.inj hp)
  rw [hd, if_neg hn]

/-- **When a purge frees all purged data**: for every database, in every form it is held
as, and every threshold, exactly when Zero records are covered. -/
theorem purge_frees {base : Dir} (hm : Maintained z base) (hh : HeldAs base dir) {ord : WalkOrder FileStep} {dir' : Dir}
    {n : ℕ} (hp : purge ord dir t = .ok (dir', n)) (hn : n ≠ 0) :
    ∃ records, readRecords dir = .ok records ∧ (Freed records t dir'.blobs ↔ ZeroCovered records t) := by
  obtain ⟨vs, hd, -, hl⟩ := (laidOut_keeps z).maintained (fun _ hl _ => hl.filter _) hm
  have h := hh.formOk hd
  refine ⟨sortedChunks vs, readRecords_ok h, ?_⟩
  rw [h.purge_dir hp hn]
  exact ⟨h.covered, h.freed hl⟩

/-! ## Zero pages -/

/-- How a version is recorded, whatever the session: a zero page as Zero, and address 0
with worker 0. -/
structure Version.AsRecorded (v : Version) : Prop where
  zero : v.page = Page.zero → v.chunk.kind = .zero
  first : v.pa = 0 → v.chunk.workerId = 0

theorem SaveDone.asRecorded {new : List Version} {db db' : AppendOnlyDb} {c : SaveCall} (h : HandleOk z vs db)
    (hs : SaveOk z vs db c db' new) (hd : SaveDone z vs db c db' new) : ∀ v ∈ new, v.AsRecorded := by
  intro v hv
  cases hd with
  | empty hjobs => simp at hv
  | pass hne hp =>
    obtain ⟨i, job, rec, hj, hr, rfl⟩ := mem_newVersions.1 hv
    have hpa := (hp.newRecord h hs.idMax hs.idNew (fun _ hv => hv) hj hr).pa
    obtain ⟨off, len, rfl, -⟩ := (hp.inv.tasks i job _ hj (hp.task.2 hr)).1
    constructor
    · intro hpage
      rw [planOf_zero hpage]
      rfl
    · intro h0
      have hjob : job.pa = 0 := hpa.symm.trans h0
      have hworker : workerOf (db.accept c.id).workerCount job.pa = 0 := by
        unfold workerOf
        rw [hjob, UInt64.toNat_zero, Nat.zero_mod]
        rfl
      rw [hworker]
      cases planOf z (db.accept c.id) job with
      | zero => rfl
      | delta baseKey data => rfl
      | full data => rfl

theorem asRecorded_keeps (z : Zstd) : Keeps z (fun vs _ => ∀ v ∈ vs, v.AsRecorded) fun vs _ => ∀ v ∈ vs, v.AsRecorded where
  fresh _ v hv := by simp at hv
  opened _ hrec _ := hrec
  saved h hrec hs hd v hv := by
    rcases List.mem_append.1 hv with hv | hv
    · exact hrec v hv
    · exact hd.asRecorded h hs v hv
  closed _ hrec _ := hrec

/-- Saves of one page, in one session and with no index: their versions. -/
theorem onePages_versions (hz : z.Small) (saves : List (Page × UInt32)) {j : UInt32}
    (hids : saves.Pairwise fun a b => a.2 < b.2) (hbounds : ∀ e ∈ saves, 0 ≤ e.2 ∧ e.2 < j) (hj : 0 < j)
    (hmax : j ≤ maxSnapshotId) (hroom : 3 * saves.length * blobBufCap + 0 ≤ maxFileLen) :
    ∃ dir vs, Maintained z dir ∧ DirOk z vs dir ∧ dir.idx = none ∧ (∀ v ∈ vs, v.AsRecorded) ∧
      (∀ e ∈ saves, ∃ v ∈ vs, v.pa = 0 ∧ v.snap = e.2.toNat ∧ v.page = e.1) ∧
      ∀ v ∈ vs, v.pa = 0 ∧ ∃ e ∈ saves, e.2.toNat = v.snap ∧ e.1 = v.page := by
  obtain ⟨dir, hs, -, -⟩ := session_onePages hz (by decide : 1 ≤ 1 ∧ 1 ≤ 255) 512 true hids hbounds hj hmax 0 hroom
  obtain ⟨vs, hd, hr, hidx, hrec⟩ := (asRecorded_keeps z).managed (fun _ hrec _ v hv => hrec v (mem_keptVersions.1 hv).1)
    (.first hs (onePages_inRange _))
  refine ⟨dir, vs, .first hs (onePages_inRange _), hd, hidx, hrec, fun e he => ?_, fun v hv => ?_⟩
  · obtain ⟨v, ⟨hv, hpa, hsnap⟩, hpage⟩ := (hr 0 e.2.toNat e.1).2 (savedBy_onePage.2 ⟨rfl, e, he, rfl, rfl⟩)
    exact ⟨v, hv, hpa, hsnap, hpage⟩
  · exact savedBy_onePage.1 ((hr v.pa v.snap v.page).1 ⟨v, ⟨hv, rfl, rfl⟩, rfl⟩)

end

/-- Three pages, and a purge of the last: nothing of it is left. -/
theorem purge_frees_noise : ∃ dir dir' n records, Maintained Zstd.raw dir ∧ purge (WalkOrder.id _) dir 5 = .ok (dir', n) ∧
    readRecords dir = .ok records ∧ Freed records 5 dir'.blobs := by
  obtain ⟨dir, vs, hm, hd, hidx, hrec, hsaves, hall⟩ := onePages_versions Zstd.raw_small
    [(noise 1, 1), (noise 2, 4), (noise 3, 9)] (by simp) (by simp) (by decide : (0 : UInt32) < 10) (by decide)
    (by decide)
  have hh := hd.heldAs hidx
  have h := hh.formOk hd
  obtain ⟨dir', hp, -⟩ := purge_ok (WalkOrder.id _) h 5
  obtain ⟨v, hv, -, hsnap, -⟩ := hsaves (noise 3, 9) (by simp)
  have hn : dropped vs 5 ≠ 0 := dropped_ne_zero hv (by rw [hsnap]; decide)
  obtain ⟨records, hread, hiff⟩ := purge_frees hm hh hp hn
  refine ⟨dir, dir', _, records, hm, hp, hread, hiff.2 ?_⟩
  rw [readRecords_ok h] at hread
  obtain rfl := Except.ok.inj hread
  -- none of the pages is zero
  rintro ⟨r, hr, -, hk⟩
  exfalso
  obtain ⟨v, hv, rfl⟩ := List.mem_map.1 ((mem_sortedChunks h.ordered _).1 hr)
  have hzero : v.page = Page.zero := by
    have hstored := hd.stored v hv
    cases hstored with
    | zero => rfl
    | full => simp at hk
    | delta => simp at hk
  obtain ⟨-, e, he, -, hpage⟩ := hall v hv
  have hne : ∀ e ∈ [(noise 1, (1 : UInt32)), (noise 2, 4), (noise 3, 9)], e.1 ≠ Page.zero := by
    simp [noise_ne_zero]
  exact hne e he (hpage.trans hzero)

/-- **Bytes of a purged record that stay**: a zero page is saved, then another page, and
the second save is purged. The Zero record keeps the file of worker 0 as it was. -/
theorem purge_leaves_bytes : ∃ dir dir' n records, Maintained Zstd.raw dir ∧ HeldAs dir dir ∧
    purge (WalkOrder.id _) dir 1 = .ok (dir', n) ∧ n ≠ 0 ∧ readRecords dir = .ok records ∧
    (∃ r ∈ records, 1 < snapshotOf r.key ∧ r.kind ≠ .zero ∧ 0 < r.len.toNat ∧ ¬ Gone dir'.blobs r) ∧
    ¬ Freed records 1 dir'.blobs := by
  obtain ⟨dir, vs, hm, hd, hidx, hrec, hsaves, hall⟩ := onePages_versions Zstd.raw_small
    [(Page.zero, 1), (noise 1, 4)] (by simp) (by simp) (by decide : (0 : UInt32) < 10) (by decide) (by decide)
  have hh := hd.heldAs hidx
  have h := hh.formOk hd
  obtain ⟨dir', hp, -, hdir'⟩ := purge_ok (WalkOrder.id _) h 1
  obtain ⟨v, hv, hpa, hsnap, hpage⟩ := hsaves (noise 1, 4) (by simp)
  have hn : dropped vs 1 ≠ 0 := dropped_ne_zero hv (by rw [hsnap]; decide)
  rw [if_neg hn] at hdir'
  have hleft : ∃ r ∈ sortedChunks vs, 1 < snapshotOf r.key ∧ r.kind ≠ .zero ∧ 0 < r.len.toNat ∧ ¬ Gone dir'.blobs r := by
    -- up to the threshold there is only the zero page
    have hkept : ∀ a ∈ vs, a.snap < 4 → a.page = Page.zero := by
      intro a ha hlt
      obtain ⟨-, e, he, hs, hp⟩ := hall a ha
      rcases List.mem_cons.1 he with rfl | he
      · exact hp.symm
      · rw [List.mem_singleton.1 he] at hs
        rw [← hs] at hlt
        exact absurd hlt (by decide)
    have hno : ¬ ∃ a ∈ sortedChunks vs, snapshotOf a.key ≤ 1 ∧ a.kind ≠ .zero ∧ a.workerId = 0 := by
      rintro ⟨a, ha, hle, hk, -⟩
      obtain ⟨u, hu, rfl⟩ := List.mem_map.1 ((mem_sortedChunks h.ordered _).1 ha)
      have hsmall : u.snap ≤ 1 := UInt32.le_iff_toNat_le.1 hle
      exact hk ((hrec u hu).zero (hkept u hu (by omega)))
    obtain ⟨u, hu, -, husnap, hupage⟩ := hsaves (Page.zero, 1) (by simp)
    have hsame : dir'.blobs 0 = dir.blobs 0 := by
      rw [hdir']
      exact h.untouched ((mem_sortedChunks h.ordered _).2 (List.mem_map_of_mem hu))
        (UInt32.le_iff_toNat_le.2 (by change u.snap ≤ _; rw [husnap])) ((hrec u hu).zero hupage) hno
    refine ⟨v.chunk, (mem_sortedChunks h.ordered _).2 (List.mem_map_of_mem hv), UInt32.lt_iff_toNat_lt.2 ?_, ?_⟩
    · change 1 < v.snap
      rw [hsnap]
      decide
    have hworker := (hrec v hv).first hpa
    have hstored := hd.stored v hv
    cases hstored with
    | zero => exact absurd hpage.symm (noise_ne_zero (by decide : (1 : UInt8) ≠ 0))
    | @full key w off len page bs hblob hdata =>
      have hw : w = 0 := hworker
      have hlen := hdata.len_eq
      have hfits := hdata.fits
      have hsize := Zstd.raw_length page
      refine ⟨by simp, ?_, fun hgone => ?_⟩
      · change 0 < len.toNat
        omega
      · have hle := hgone bs (by rw [hw] at hblob; change dir'.blobs w = _; rw [hw, hsame, hblob])
        have hoff : bs.length ≤ off.toNat := hle
        omega
    | @delta key w off len page bs base hbase hfull hbpa hbsnap =>
      -- the only page before is the zero page
      have hzero := (hrec base hbase).zero (hkept base hbase (by rw [show 4 = _ from hsnap.symm]; exact hbsnap))
      rw [hfull] at hzero
      cases hzero
  refine ⟨dir, dir', _, _, hm, hh, hp, hn, readRecords_ok h, hleft, fun hfreed => ?_⟩
  obtain ⟨r, hr, hlt, hk, hlen, hgone⟩ := hleft
  exact hgone (hfreed.gone r hr hlt hk hlen)

end Bxdb
