import Bxdb.Proof.EndToEnd
import Bxdb.Proof.Bulk

/-!
# Saving and converting in any order

A reader takes `index.bxdb` whenever it exists, and only `to_btree` writes it. So what a
load sees is fixed by the last conversion (`HistoryOk`).

* `history_ok`: the invariant, over sessions and conversions in any order.
* `load_history`: **loads answer from the saves before the last conversion**, or from all
  saves when there was none.
-/

namespace Bxdb

open Bytes SortedIndex Versioned ChunkRecord

section History

variable {z : Zstd} {vs : List Version} {dir dir' : Dir} {cs : List SaveCall} {conv : Option (List SaveCall)}

/-- What readers of `index.bxdb` find: the records of the saves `cs`, all stored. -/
def IndexOk (z : Zstd) (cs : List SaveCall) (dir : Dir) : Prop :=
  ∃ vs, Ordered vs ∧ Records cs vs ∧ dir.idx = some (indexFile (sortedChunks vs)) ∧ ∀ v ∈ vs, Stored z vs dir.blobs v

/-- **The invariant of a history**: the log is in order, and so is the index if there is
one. -/
structure HistoryOk (z : Zstd) (cs : List SaveCall) (conv : Option (List SaveCall)) (vs : List Version) (dir : Dir) :
    Prop where
  dirOk : DirOk z vs dir
  records : Records cs vs
  none : conv = none → dir.idx = none
  some : ∀ saves, conv = some saves → IndexOk z saves dir

/-- The index stays valid while blob files grow. -/
theorem IndexOk.mono (h : IndexOk z cs dir) (hidx : dir'.idx = dir.idx) (hg : BlobsGrow dir.blobs dir'.blobs) :
    IndexOk z cs dir' := by
  obtain ⟨vs, ho, hr, hi, hst⟩ := h
  exact ⟨vs, ho, hr, hidx.trans hi, fun v hv => (hst v hv).mono (fun _ hv => hv) hg⟩

/-- **Every history keeps the invariant.** -/
theorem history_ok (h : History z cs conv dir) (hrange : ∀ c ∈ cs, c.InRange) : ∃ vs, HistoryOk z cs conv vs dir := by
  induction h with
  | first hs =>
    obtain ⟨vs, hd, hr, hidx⟩ := session_first hs hrange
    exact ⟨vs, hd, hr, fun _ => hidx, fun saves hsaves => by simp at hsaves⟩
  | session _ hs ih =>
    obtain ⟨vs, h⟩ := ih fun c hc => hrange c (List.mem_append_left _ hc)
    obtain ⟨new, hd', hr', hidx, hg⟩ := session_ok h.dirOk hs fun c hc => hrange c (List.mem_append_right _ hc)
    exact ⟨vs ++ new, hd', h.records.append hr', fun hc => hidx.trans (h.none hc),
      fun saves hsaves => (h.some saves hsaves).mono hidx hg⟩
  | @convert cs _ d _ _ hc ih =>
    obtain ⟨vs, h⟩ := ih hrange
    rw [toBtree_ok h.dirOk] at hc
    obtain rfl := Except.ok.inj hc
    have hd : DirOk z vs { d with idx := Option.some (indexFile (sortedChunks vs)) } :=
      ⟨h.dirOk.ordered, h.dirOk.log, h.dirOk.stored, h.dirOk.small⟩
    refine ⟨vs, hd, h.records, fun hc => by simp at hc, fun saves hsaves => ?_⟩
    obtain rfl := Option.some.inj hsaves
    exact ⟨vs, h.dirOk.ordered, h.records, rfl, h.dirOk.stored⟩

/-- Opening the directory for writing changes nothing for its readers. -/
theorem HistoryOk.opened (h : HistoryOk z cs conv vs dir) {n : ℕ} {t : UInt16} {u : Bool} {db : AppendOnlyDb}
    (hopen : AppendOnlyDb.open dir n t u = .ok db) : HistoryOk z cs conv vs db.disk := by
  obtain ⟨hd, hidx, hg⟩ := open_disk h.dirOk hopen
  exact ⟨hd, h.records, fun hc => hidx.trans (h.none hc), fun saves hsaves => (h.some saves hsaves).mono hidx hg⟩

/-- The store of a history's directory serves the saves it answers from. -/
theorem HistoryOk.load (hz : z.RoundTrip) (h : HistoryOk z cs conv vs dir) (pa : UInt64) {s : UInt32}
    (hs : s ≤ maxSnapshotId) :
    ∃ r, loadPage z dir pa s = .ok r ∧ AsOf (savedBy (conv.getD cs)) pa s.toNat r := by
  cases conv with
  | none =>
    obtain ⟨r, hr, hasOf⟩ := (h.dirOk.formOk (h.none rfl)).load hz pa hs
    exact ⟨r, hr, h.records.asOf.1 hasOf⟩
  | some saves =>
    obtain ⟨us, ho, hr, hi, hst⟩ := h.some saves rfl
    obtain ⟨store, hopen, hblobs, hS⟩ := open_indexFile ho hi
    obtain ⟨r, hload, hasOf⟩ := loadPage_asOf hz hopen hblobs hS pa hs fun v hv _ => hst v hv
    exact ⟨r, hload, hr.asOf.1 hasOf⟩

theorem RangeAsOf.records (hr : Records cs vs) {off count : UInt64} {s : UInt32} {out : List (Option Page)}
    (h : RangeAsOf (pagesOf vs) off count s out) : RangeAsOf (savedBy cs) off count s out :=
  ⟨h.1, fun i hi => hr.asOf.1 (h.2 i hi)⟩

/-- A bulk load answers from the same saves. -/
theorem HistoryOk.loadAll (hz : z.RoundTrip) (h : HistoryOk z cs conv vs dir) {off count : UInt64} {s : UInt32}
    (hs : s ≤ maxSnapshotId) (hoff : off.toNat + count.toNat < 2 ^ 64) {workers : ℕ} (hfit : WorkersFit count.toNat workers) :
    ∃ out, loadAllPages z dir (count.toNat * pageSize) true off count s workers = .ok out ∧
      RangeAsOf (savedBy (conv.getD cs)) off count s out := by
  cases conv with
  | none =>
    obtain ⟨m, hm, -⟩ := h.dirOk.log
    have hnil : ([] : Bytes).length < logRecordBaseSize := by decide
    rw [← List.append_nil (encodeAll (chunks vs))] at hm
    obtain ⟨out, hload, hout⟩ := loadAllPages_log hz h.dirOk.ordered.distinct h.dirOk.stored hs rfl hoff hfit hnil
      (h.none rfl) hm
    exact ⟨out, hload, hout.records h.records⟩
  | some saves =>
    obtain ⟨us, ho, hr, hi, hst⟩ := h.some saves rfl
    obtain ⟨out, hload, hout⟩ := loadAllPages_index hz ho.distinct hst hs rfl hoff hfit (index_strict recordKey _)
      (mem_sortedChunks ho) hi
    exact ⟨out, hload, hout.records hr⟩

/-- **What readers see after sessions and conversions in any order**: the page of the
latest save at or below the snapshot, among the saves made before the last conversion,
or among all saves when there was none. -/
theorem load_history (hz : z.RoundTrip) (h : History z cs conv dir) (hrange : ∀ c ∈ cs, c.InRange) {s : UInt32}
    (hs : s ≤ maxSnapshotId) :
    (∀ pa, ∃ r, loadPage z dir pa s = .ok r ∧ AsOf (savedBy (conv.getD cs)) pa s.toNat r) ∧
    ∀ (n : ℕ) (t : UInt16) (u : Bool) (db : AppendOnlyDb), AppendOnlyDb.open dir n t u = .ok db →
      ∀ (off count : UInt64) (workers : ℕ), off.toNat + count.toNat < 2 ^ 64 → WorkersFit count.toNat workers →
        ∃ out, loadAllPages z db.disk (count.toNat * pageSize) true off count s workers = .ok out ∧
          RangeAsOf (savedBy (conv.getD cs)) off count s out := by
  obtain ⟨vs, hok⟩ := history_ok h hrange
  refine ⟨fun pa => hok.load hz pa hs, fun n t u db hopen off count workers hoff hfit => ?_⟩
  exact (hok.opened hopen).loadAll hz hs hoff hfit

end History

/-! ## Save, convert, save -/

theorem exists_history :
    ∃ dir, History Zstd.raw (onePages [(noise 1, 1), (noise 2, 4)]) (some (onePages [(noise 1, 1)])) dir := by
  obtain ⟨dir1, h1, hi, hroom⟩ : ∃ dir, Session Zstd.raw Dir.empty (onePages [(noise 1, 1)]) dir ∧ dir.IdsBelow 2 ∧
      dir.HasRoom (3 * 1 * blobBufCap) :=
    session_onePages Zstd.raw_small (by decide : 1 ≤ 4 ∧ 4 ≤ 255) 0 true (by simp) (by simp) (by decide) (by decide) _
      (by decide)
  obtain ⟨vs, hd, -, -⟩ := session_first h1 (onePages_inRange _)
  have hconv : History Zstd.raw (onePages [(noise 1, 1)]) (some (onePages [(noise 1, 1)]))
      { dir1 with idx := some (indexFile (sortedChunks vs)) } := .convert (.first h1) (toBtree_ok hd)
  have hd' : DirOk Zstd.raw vs { dir1 with idx := some (indexFile (sortedChunks vs)) } :=
    ⟨hd.ordered, hd.log, hd.stored, hd.small⟩
  obtain ⟨dir2, h2, -, -⟩ : ∃ dir, Session Zstd.raw { dir1 with idx := some (indexFile (sortedChunks vs)) }
      (onePages [(noise 2, 4)]) dir ∧ dir.IdsBelow 5 ∧ dir.HasRoom 0 :=
    session_onePages_next Zstd.raw_small (by decide : 1 ≤ 4 ∧ 4 ≤ 255) 0 true hd' hi (by simp) (by simp)
      (by decide) (by decide) (by decide) _ hroom
  exact ⟨dir2, .session hconv h2⟩

/-- Loads answer from the first save alone. -/
theorem load_history_noise : ∃ dir, History Zstd.raw (onePages [(noise 1, 1), (noise 2, 4)]) (some (onePages [(noise 1, 1)])) dir ∧
    ∃ r, loadPage Zstd.raw dir 0 4 = .ok r ∧ AsOf (savedBy (onePages [(noise 1, 1)])) 0 4 r := by
  obtain ⟨dir, hist⟩ := exists_history
  obtain ⟨hpage, -⟩ := load_history Zstd.raw_roundTrip hist (onePages_inRange _) (by decide : (4 : UInt32) ≤ maxSnapshotId)
  exact ⟨dir, hist, hpage 0⟩

/-- The second save is in the log, and no load sees it. -/
theorem stale_index : ∃ dir, History Zstd.raw (onePages [(noise 1, 1), (noise 2, 4)]) (some (onePages [(noise 1, 1)])) dir ∧
    loadPage Zstd.raw dir 0 4 = .ok (some (noise 1)) ∧
    AsOf (savedBy (onePages [(noise 1, 1), (noise 2, 4)])) 0 4 (some (noise 2)) ∧ noise 1 ≠ noise 2 := by
  obtain ⟨dir, hist⟩ := exists_history
  obtain ⟨us, hok⟩ := history_ok hist (onePages_inRange _)
  have hfun : Functional (savedBy (onePages [(noise 1, (1 : UInt32))])) := by
    obtain ⟨us', ho', hr', -⟩ := hok.some _ rfl
    exact hr'.functional ho'.distinct
  obtain ⟨r, hload, hasOf⟩ := hok.load Zstd.raw_roundTrip 0 (by decide : (4 : UInt32) ≤ maxSnapshotId)
  have hr : r = some (noise 1) := hasOf.unique hfun (latestPage_asOf 4 [(noise 1, 1)] (by simp))
  refine ⟨dir, hist, by rw [hload, hr], ?_, fun h => ?_⟩
  · exact latestPage_asOf 4 [(noise 1, 1), (noise 2, 4)] (by simp)
  · exact absurd (noise_inj h) (by decide)

end Bxdb
