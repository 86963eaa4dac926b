import Bxdb.Proof.Check
import Bxdb.Proof.Managed

/-!
# What check says about a database

* `recordClean_stored`: the first walk of `check` finds nothing wrong with a stored version.
* `check_maintained_iff`: **`check` raises a false alarm exactly when a Delta's base is
  the Full page of address 0 at snapshot 0**, whose key `check` takes for a missing one.
-/

namespace Bxdb

open Bytes SortedIndex Versioned ChunkRecord

section Maintained

variable {z : Zstd} {vs : List Version} {dir : Dir}

/-- A stored range is clean. -/
theorem HoldsAt.rangeClean {bs data : Bytes} {rec : ChunkRecord} (h : HoldsAt bs rec.offset rec.len data) :
    RangeClean bs rec data := by
  have hlen := h.len_eq
  have hfits := h.fits
  have hbound := h.bound
  refine ⟨?_, by omega, ?_⟩
  · unfold satEnd
    omega
  · exact range?_holdsAt h

theorem indicesClean_encode (page base : Page) : IndicesClean (encodeDeltaPatch (computeXorPatch page base)) := by
  unfold IndicesClean
  rw [chunksExact_encodeDeltaPatch]
  intro chunk hc
  obtain ⟨e, he, rfl⟩ := List.mem_map.1 hc
  rw [entryBytes_idx]
  exact computeXorPatch_idx he

/-- **The first walk accepts every stored version.** -/
theorem recordClean_stored (hz : z.RoundTrip) {v : Version} (h : Stored z vs dir.blobs v) :
    RecordClean z dir.blobs v.chunk := by
  cases h with
  | zero hblob =>
    obtain ⟨bs, hbs⟩ := Option.isSome_iff_exists.1 hblob
    exact ⟨bs, hbs, fun hk => by simp at hk, fun hk => by simp at hk⟩
  | @full key w off len page bs hblob hdata =>
    have hdata' : HoldsAt bs (newFull key w off len).offset (newFull key w off len).len (z.compress page) := hdata
    refine ⟨bs, hblob, fun _ => .inr ⟨_, page.bytes, hdata'.rangeClean, ?_, page.size⟩, fun hk => by simp at hk⟩
    exact hz page _ (Nat.le_succ _)
  | @delta key w off len page bs base _ _ _ _ hblob hdata =>
    have hdata' : HoldsAt bs (newDelta key w off len base.key).offset (newDelta key w off len base.key).len _ := hdata
    refine ⟨bs, hblob, fun hk => by simp at hk, fun _ => .inr ⟨_, hdata'.rangeClean, ?_, indicesClean_encode _ _⟩⟩
    rw [hdata'.len_eq, length_encodeDeltaPatch, Nat.mul_mod_left]

/-- The table of bases finds the record of a key that only one record has. -/
theorem lastBase_of_nodup {rs : List ChunkRecord} (hd : (rs.map recordKey).Nodup) {r : ChunkRecord} (hr : r ∈ rs)
    (hk : r.kind ≠ .delta) : lastBase rs r.key = some r := by
  unfold lastBase
  induction rs using List.reverseRecOn with
  | nil => simp at hr
  | append_singleton rs a ih =>
    rw [List.map_append, List.nodup_append] at hd
    obtain ⟨hd1, -, hd2⟩ := hd
    rw [List.foldl_concat]
    unfold noteBase
    rcases List.mem_append.1 hr with hr | hr
    · have hne : r.key ≠ a.key := fun heq =>
        hd2 (recordKey r) (List.mem_map_of_mem hr) (recordKey a) (by simp) (congrArg UInt64.toNat heq)
      split
      · exact ih hd1 hr
      · rw [Function.update_of_ne hne]
        exact ih hd1 hr
    · obtain rfl := List.mem_singleton.1 hr
      rw [if_neg hk, Function.update_self]

/-- **The second walk** has one thing to say about a stored Delta: its base key may be 0. -/
theorem baseClean_stored (hd : KeysDistinct vs) {blobs : UInt8 → Option Bytes} {v : Version} (h : Stored z vs blobs v) :
    BaseClean (lastBase (chunks vs)) v.chunk ↔ (v.chunk.kind = .delta → v.chunk.baseKey ≠ 0) := by
  unfold BaseClean
  cases h with
  | zero => simp
  | full => simp
  | delta hbase hfull =>
    have hlast := lastBase_of_nodup (recordKeys_nodup hd) (List.mem_map_of_mem hbase) (by rw [hfull]; simp)
    exact ⟨fun h hk => (h hk).1, fun h hk => ⟨h hk, _, hlast, hfull⟩⟩

theorem check_dirOk (hz : z.RoundTrip) (h : DirOk z vs dir) :
    (∃ report, check z dir = .ok report ∧ report.errors = []) ↔
      ∀ r ∈ chunks vs, r.kind = .delta → r.baseKey ≠ encodeKey 0 0 := by
  obtain ⟨m, hm, -⟩ := h.log
  have hplain : ∀ r ∈ chunks vs, r.Plain := chunks_plain h.stored
  rw [check_clean_iff hm (readLogHeader m _) (scan_encode hplain)]
  have hzero : encodeKey 0 0 = 0 := rfl
  rw [hzero]
  constructor
  · rintro ⟨-, hbase⟩ r hr
    obtain ⟨v, hv, rfl⟩ := List.mem_map.1 hr
    exact (baseClean_stored h.ordered.distinct (h.stored v hv)).1 (hbase _ (List.mem_map_of_mem hv))
  · intro hne
    refine ⟨fun r hr => ?_, fun r hr => ?_⟩
    · obtain ⟨v, hv, rfl⟩ := List.mem_map.1 hr
      exact recordClean_stored hz (h.stored v hv)
    · obtain ⟨v, hv, rfl⟩ := List.mem_map.1 hr
      exact (baseClean_stored h.ordered.distinct (h.stored v hv)).2 (hne _ hr)

/-- **When check raises no false alarm**: on every database made by sessions and purges,
exactly when no Delta in the log has address 0 at snapshot 0 as its base. -/
theorem check_maintained_iff (hz : z.RoundTrip) (h : Maintained z dir) :
    ∃ m body records, dir.log = some (writeLogHeader m ++ body) ∧ ChunkRecord.scan body = .ok records ∧
      ((∃ report, check z dir = .ok report ∧ report.errors = []) ↔
        ∀ r ∈ records, r.kind = .delta → r.baseKey ≠ encodeKey 0 0) := by
  obtain ⟨vs, hd, -⟩ := maintained_ok h
  obtain ⟨m, hm, -⟩ := hd.log
  exact ⟨m, _, chunks vs, hm, scan_encode (chunks_plain hd.stored), check_dirOk hz hd⟩

end Maintained

/-- A page saved with snapshot 0 at address 0 and changed with snapshot 1. -/
theorem check_false_alarm : ∃ dir, Maintained Zstd.raw dir ∧
    ¬ ∃ report, check Zstd.raw dir = .ok report ∧ report.errors = [] := by
  obtain ⟨dir, vs, hs, hd, v, hv, hkind, hbase⟩ :=
    delta_pair Zstd.raw_small (by decide : 1 ≤ 1 ∧ 1 ≤ 255) (noise_ne_zero (by decide : (1 : UInt8) ≠ 0))
      (noise_ne_zero (by decide : (2 : UInt8) ≠ 0)) (by decide : (0 : UInt32) < 1) (by decide)
  refine ⟨dir, .first hs (onePages_inRange _), fun hclean => ?_⟩
  exact (check_dirOk Zstd.raw_roundTrip hd).1 hclean v.chunk (List.mem_map_of_mem hv) hkind hbase

/-- The same pages, saved with snapshots 1 and 2. -/
theorem check_maintained_noise : ∃ dir m body records, Maintained Zstd.raw dir ∧
    dir.log = some (writeLogHeader m ++ body) ∧ ChunkRecord.scan body = .ok records ∧
    ((∃ report, check Zstd.raw dir = .ok report ∧ report.errors = []) ↔
      ∀ r ∈ records, r.kind = .delta → r.baseKey ≠ encodeKey 0 0) := by
  obtain ⟨dir, vs, hs, -⟩ :=
    delta_pair Zstd.raw_small (by decide : 1 ≤ 1 ∧ 1 ≤ 255) (noise_ne_zero (by decide : (1 : UInt8) ≠ 0))
      (noise_ne_zero (by decide : (2 : UInt8) ≠ 0)) (by decide : (1 : UInt32) < 2) (by decide)
  have hm : Maintained Zstd.raw dir := .first hs (onePages_inRange _)
  obtain ⟨m, body, records, h⟩ := check_maintained_iff Zstd.raw_roundTrip hm
  exact ⟨dir, m, body, records, hm, h⟩

end Bxdb
