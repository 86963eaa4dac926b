import Bxdb.Proof.Progress
import Bxdb.Spec.RawFrame

/-!
# A database answers floor queries

A directory can hold its records in `chunks.log`, in `index.bxdb`, or in both
(`FormOk`). Whatever the form, every load answers as of its snapshot (`FormOk.load`).

* `load_written`: **the page a load returns is the one the latest save at or below the
  snapshot gave to the address**, read from the log or from an index made of it.
-/

namespace Bxdb

open Bytes SortedIndex Versioned ChunkRecord

/-- The records of `vs`, sorted by key. -/
abbrev sortedChunks (vs : List Version) : List ChunkRecord := index recordKey (chunks vs)

/-- **A directory that holds `vs`** in one form or the other, or in both. -/
structure FormOk (z : Zstd) (vs : List Version) (dir : Dir) : Prop where
  ordered : Ordered vs
  log : ∀ bytes, dir.log = some bytes → ∃ m, bytes = writeLogHeader m ++ encodeAll (chunks vs) ∧
    (∀ v ∈ vs, v.snap ≤ m.toNat) ∧ m ≤ maxSnapshotId
  idx : ∀ bytes, dir.idx = some bytes → ∃ m, bytes = writeIndexHeader m ++ encodeIndex (sortedChunks vs)
  present : dir.log ≠ none ∨ dir.idx ≠ none
  stored : ∀ v ∈ vs, Stored z vs dir.blobs v
  small : ∀ w bs, dir.blobs w = some bs → bs.length ≤ maxFileLen

variable {z : Zstd} {vs : List Version} {dir dir' : Dir}

theorem DirOk.formOk (h : DirOk z vs dir) (hidx : dir.idx = none) : FormOk z vs dir where
  ordered := h.ordered
  log bytes hb := by
    obtain ⟨m, hm, hrest⟩ := h.log
    rw [hm] at hb
    exact ⟨m, (Option.some.inj hb).symm, hrest⟩
  idx bytes hb := by rw [hidx] at hb; simp at hb
  present := by
    obtain ⟨m, hm, -⟩ := h.log
    exact .inl (by rw [hm]; simp)
  stored := h.stored
  small := h.small

theorem mem_sortedChunks (h : Ordered vs) (r : ChunkRecord) : r ∈ sortedChunks vs ↔ r ∈ chunks vs :=
  mem_index_of_nodup (recordKeys_nodup h.distinct)

/-- An index file with the versions of `vs` is opened as a store that serves them. -/
theorem open_indexFile (h : Ordered vs) (hi : dir.idx = some (indexFile (sortedChunks vs))) :
    ∃ store, PageStore.open dir = .ok store ∧ store.blobs = dir.blobs ∧ Serves store vs :=
  ⟨_, open_index hi, rfl, serves_index h.distinct (index_strict recordKey _) (mem_sortedChunks h)
    (length_writeIndexHeader _) dir.blobs⟩

/-- The store of a well-formed directory serves the versions, whatever became of its
blob files. -/
theorem FormOk.open_with (h : FormOk z vs dir) (blobs : UInt8 → Option Bytes) :
    ∃ store, PageStore.open { dir with blobs := blobs } = .ok store ∧ store.blobs = blobs ∧ Serves store vs := by
  cases hi : dir.idx with
  | some bytes =>
    obtain ⟨m, rfl⟩ := h.idx bytes hi
    have ho : PageStore.open { dir with blobs := blobs } = _ := open_index hi
    rw [← hi]
    exact ⟨_, ho, rfl, serves_index h.ordered.distinct (index_strict recordKey _)
      (mem_sortedChunks h.ordered) (length_writeIndexHeader m) blobs⟩
  | none =>
    cases hl : dir.log with
    | none => exact absurd h.present (by simp [hi, hl])
    | some bytes =>
      obtain ⟨m, rfl, -⟩ := h.log bytes hl
      have ho : PageStore.open { dir with blobs := blobs } = _ := open_log hi hl
      have hnil : ([] : Bytes).length < logRecordBaseSize := by decide
      have hS := serves_log h.ordered.distinct (fun v hv => (h.stored v hv).plain) m hnil blobs
      rw [List.append_nil] at hS
      rw [← hi, ← hl]
      exact ⟨_, ho, rfl, hS⟩

/-- The store a directory is opened as, and that it serves the versions. -/
theorem FormOk.open (h : FormOk z vs dir) :
    ∃ store, PageStore.open dir = .ok store ∧ store.blobs = dir.blobs ∧ Serves store vs :=
  h.open_with dir.blobs

/-- **Every load answers as of its snapshot**, whatever the form. -/
theorem FormOk.load (hz : z.RoundTrip) (h : FormOk z vs dir) (pa : UInt64) {s : UInt32} (hs : s ≤ maxSnapshotId) :
    ∃ r, loadPage z dir pa s = .ok r ∧ AsOf (pagesOf vs) pa s.toNat r := by
  obtain ⟨store, ho, hb, hS⟩ := h.open
  exact loadPage_asOf hz ho hb hS pa hs fun v hv _ => h.stored v hv

/-- **`to_btree` lists the log's records by key.** -/
theorem toBtree_ok (h : DirOk z vs dir) :
    toBtree dir = .ok { dir with idx := some (indexFile (sortedChunks vs)) } := by
  obtain ⟨m, hm, -⟩ := h.log
  have hplain : ∀ r ∈ chunks vs, r.Plain := chunks_plain h.stored
  unfold toBtree
  rw [hm]
  dsimp only
  rw [buildLazyIndex_encode hplain m, ok_bind]

/-- A directory with both files, the index made of the log. -/
theorem DirOk.formOk_both (h : DirOk z vs dir) :
    FormOk z vs { dir with idx := some (indexFile (sortedChunks vs)) } where
  ordered := h.ordered
  log bytes hb := by
    obtain ⟨m, hm, hrest⟩ := h.log
    rw [show ({ dir with idx := some (indexFile (sortedChunks vs)) } : Dir).log = dir.log from rfl, hm] at hb
    exact ⟨m, (Option.some.inj hb).symm, hrest⟩
  idx bytes hb := ⟨_, (Option.some.inj hb).symm⟩
  present := .inr (by simp)
  stored := h.stored
  small := h.small

/-- A database is well formed in every form it is held as. -/
theorem HeldAs.formOk {written : Dir} (hh : HeldAs written dir) (h : DirOk z vs written) : FormOk z vs dir where
  ordered := h.ordered
  log bytes hb := by
    obtain ⟨m, hm, hrest⟩ := h.log
    rcases hh.log with hl | hl
    · rw [hl] at hb; simp at hb
    · rw [hl, hm] at hb
      exact ⟨m, (Option.some.inj hb).symm, hrest⟩
  idx bytes hb := by
    rcases hh.idx with hi | ⟨d, hd, hi⟩
    · rw [hi] at hb; simp at hb
    · rw [toBtree_ok h] at hd
      obtain rfl := Except.ok.inj hd
      rw [hi] at hb
      exact ⟨_, (Option.some.inj hb).symm⟩
  present := hh.present
  stored v hv := by
    rw [hh.blobs]
    exact h.stored v hv
  small := by
    rw [hh.blobs]
    exact h.small

/-- A database is held as itself. -/
theorem DirOk.heldAs (hd : DirOk z vs dir) (hidx : dir.idx = none) : HeldAs dir dir := by
  obtain ⟨m, hlog, -⟩ := hd.log
  exact ⟨.inr rfl, .inl hidx, .inl (by rw [hlog]; simp), rfl⟩

theorem Records.asOf {cs : List SaveCall} (h : Records cs vs) {pa : UInt64} {t : ℕ} {r : Option Page} :
    AsOf (pagesOf vs) pa t r ↔ AsOf (savedBy cs) pa t r := asOf_congr (h pa)

theorem Records.functional {cs : List SaveCall} (h : Records cs vs) (hd : KeysDistinct vs) :
    Functional (savedBy cs) := by
  intro pa t p q hp hq
  exact pagesOf_functional hd ((h pa t p).2 hp) ((h pa t q).2 hq)

/-- **End-to-end floor semantics.** After any sessions, a load at a snapshot returns the
page of the latest save at or below it that marked the address dirty, and reports a
missing page when there is none; from the log, and from an index made of the log. -/
theorem load_written (hz : z.RoundTrip) {cs : List SaveCall} (h : Written z cs dir)
    (hrange : ∀ c ∈ cs, c.InRange) (pa : UInt64) {s : UInt32} (hs : s ≤ maxSnapshotId) :
    Functional (savedBy cs) ∧
    (dir.idx = none ∧ ∃ r, loadPage z dir pa s = .ok r ∧ AsOf (savedBy cs) pa s.toNat r) ∧
    ∃ dir', toBtree dir = .ok dir' ∧ dir'.idx.isSome ∧
      ∃ r, loadPage z dir' pa s = .ok r ∧ AsOf (savedBy cs) pa s.toNat r := by
  obtain ⟨vs, hd, hr, hidx⟩ := written_ok h hrange
  refine ⟨hr.functional hd.ordered.distinct, ⟨hidx, ?_⟩, _, toBtree_ok hd, rfl, ?_⟩
  · obtain ⟨r, hload, hasOf⟩ := (hd.formOk hidx).load hz pa hs
    exact ⟨r, hload, hr.asOf.1 hasOf⟩
  · obtain ⟨r, hload, hasOf⟩ := hd.formOk_both.load hz pa hs
    exact ⟨r, hload, hr.asOf.1 hasOf⟩

/-- A database of saves of one page answers with the latest of them. -/
theorem load_onePages (hz : z.RoundTrip) {saves : List (Page × UInt32)} (hw : Written z (onePages saves) dir)
    (hids : saves.Pairwise fun a b => a.2 < b.2) {s : UInt32} (hs : s ≤ maxSnapshotId) :
    loadPage z dir 0 s = .ok (latestPage saves s) := by
  obtain ⟨vs, hd, hr, hidx⟩ := written_ok hw (onePages_inRange _)
  obtain ⟨r, hload, hasOf⟩ := (hd.formOk hidx).load hz 0 hs
  rw [hload, (hr.asOf.1 hasOf).unique (hr.functional hd.ordered.distinct) (latestPage_asOf s saves hids)]

/-- Two sessions with different numbers of workers; the second save is a Delta against
the first. -/
theorem load_written_noise : ∃ dir, Written Zstd.raw (onePages [(noise 1, 1), (noise 2, 4), (noise 3, 9)]) dir ∧
    loadPage Zstd.raw dir 0 0 = .ok none ∧ loadPage Zstd.raw dir 0 8 = .ok (some (noise 2)) := by
  obtain ⟨dir1, h1, hi, hroom⟩ : ∃ dir, Session Zstd.raw Dir.empty (onePages [(noise 1, 1), (noise 2, 4)]) dir ∧
      dir.IdsBelow 5 ∧ dir.HasRoom (3 * 1 * blobBufCap) :=
    session_onePages Zstd.raw_small (by decide : 1 ≤ 4 ∧ 4 ≤ 255) 512 true (by simp) (by simp) (by decide) (by decide) _
      (by decide)
  have hw1 : Written Zstd.raw (onePages [(noise 1, 1), (noise 2, 4)]) dir1 := .first h1
  obtain ⟨vs, hd, -, -⟩ := written_ok hw1 (onePages_inRange _)
  obtain ⟨dir2, h2, -, -⟩ : ∃ dir, Session Zstd.raw dir1 (onePages [(noise 3, 9)]) dir ∧
      dir.IdsBelow 10 ∧ dir.HasRoom 0 :=
    session_onePages_next Zstd.raw_small (by decide : 1 ≤ 7 ∧ 7 ≤ 255) 0 false hd hi (by simp) (by simp) (by decide)
      (by decide) (by decide) _ hroom
  have hw2 : Written Zstd.raw (onePages [(noise 1, 1), (noise 2, 4), (noise 3, 9)]) dir2 := .next hw1 h2
  have hids : [(noise 1, (1 : UInt32)), (noise 2, 4), (noise 3, 9)].Pairwise fun a b => a.2 < b.2 := by simp
  refine ⟨dir2, hw2, ?_, ?_⟩
  · obtain ⟨hfun, ⟨-, r, hr, hasOf⟩, -⟩ :=
      load_written Zstd.raw_roundTrip hw2 (onePages_inRange _) 0 (by decide : (0 : UInt32) ≤ maxSnapshotId)
    rw [hr, hasOf.unique hfun (latestPage_asOf 0 _ hids)]
    rfl
  · obtain ⟨hfun, ⟨-, r, hr, hasOf⟩, -⟩ :=
      load_written Zstd.raw_roundTrip hw2 (onePages_inRange _) 0 (by decide : (8 : UInt32) ≤ maxSnapshotId)
    rw [hr, hasOf.unique hfun (latestPage_asOf 8 _ hids)]
    rfl

end Bxdb
