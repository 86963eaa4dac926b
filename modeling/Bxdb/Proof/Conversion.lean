import Bxdb.Proof.LogOrder

/-!
# Converting there and back

* `toLog_indexFile`: an index of sorted records is turned into the log of their groups.
* `index_bySnap`: sorting the groups by key gives the records of the index back.
* `convert_back`: **each conversion undoes the other, byte for byte.**
-/

namespace Bxdb

open Bytes SortedIndex ChunkRecord

section Convert

variable {rs : List ChunkRecord} {dir : Dir}

/-- The groups of sorted records are sorted. -/
theorem bySnapSorted_eq (h : KeySorted rs) : bySnapSorted rs = bySnap rs := by
  unfold bySnapSorted bySnap
  congr 1
  funext s
  have hle : (rs.filter fun r => snapshotOf r.key == s).Pairwise fun a b => recordKey a ≤ recordKey b :=
    (h.filter _).imp fun {a b} hab => le_of_lt hab
  exact sortByKey_of_pairwise _ hle

theorem readEntries_index (rs : List ChunkRecord) : readEntries (encodeIndex rs) = .ok rs := by
  have hchunks : chunksExact fixedRecordSize (encodeIndex rs) = rs.map encodeFixed :=
    chunksExact_flatMap (by decide) length_encodeFixed rs
  unfold readEntries
  rw [hchunks, decode_encodeIndex]

/-- **`to_log` on an index of sorted records** writes the log that a purge would write. -/
theorem toLog_indexFile (h : KeySorted rs) (hi : dir.idx = some (indexFile rs)) :
    toLog dir = .ok { dir with log := some (logFile rs) } := by
  have hheader : readAndVerifyHeader (indexFile rs) magicIdx = .ok (maxSnapshot rs, encodeIndex rs) :=
    readAndVerifyHeader_write rfl _ _
  unfold toLog
  rw [hi]
  dsimp only
  rw [hheader, ok_bind]
  dsimp only
  rw [readEntries_index, ok_bind, bySnapSorted_eq h]
  rfl

/-- **Sorting the groups gives the index back.** -/
theorem index_bySnap (h : KeySorted rs) : index recordKey (bySnap rs) = rs := by
  have hnodup : ((bySnap rs).map recordKey).Nodup := by
    rw [List.Nodup, List.pairwise_map]
    refine (bySnap_logKey h).imp fun {a b} hab hk => ?_
    unfold logKey at hab
    rw [recordKey_inj hk] at hab
    exact lt_irrefl _ hab
  refine eq_of_mem_iff (index_strict recordKey _) h fun r => ?_
  rw [mem_index_of_nodup hnodup, mem_bySnap]

/-- A log written from sorted records is read back as these records. -/
theorem buildLazyIndex_logFile (h : KeySorted rs) (hp : ∀ r ∈ rs, r.Plain) : buildLazyIndex (logFile rs) = .ok rs := by
  have hplain : ∀ r ∈ bySnap rs, r.Plain := fun r hr => hp r (mem_bySnap.1 hr)
  have hbuild := buildLazyIndex_encode hplain (maxSnapshot rs)
  rw [index_bySnap h] at hbuild
  exact hbuild

theorem toBtree_logFile (h : KeySorted rs) (hp : ∀ r ∈ rs, r.Plain) (hl : dir.log = some (logFile rs)) :
    toBtree dir = .ok { dir with idx := some (indexFile rs) } := by
  unfold toBtree
  rw [hl]
  dsimp only
  rw [buildLazyIndex_logFile h hp, ok_bind]

/-- **What `to_btree` makes of any log it accepts**: an index of sorted records. -/
theorem toBtree_inv {dir' : Dir} (h : toBtree dir = .ok dir') : ∃ log rs, dir.log = some log ∧
    buildLazyIndex log = .ok rs ∧ KeySorted rs ∧ (∀ r ∈ rs, r.Plain) ∧ dir' = { dir with idx := some (indexFile rs) } := by
  unfold toBtree at h
  split at h
  · simp [notFoundErr, ioErr] at h
  · rename_i log hlog
    obtain ⟨rs, hrs, h⟩ := bind_eq_ok.1 h
    refine ⟨log, rs, hlog, hrs, buildLazyIndex_sorted hrs, ?_, (Except.ok.inj h).symm⟩
    unfold buildLazyIndex at hrs
    obtain ⟨⟨m, body⟩, -, hrs⟩ := bind_eq_ok.1 hrs
    obtain ⟨records, hscan, hrs⟩ := bind_eq_ok.1 hrs
    rw [← Except.ok.inj hrs]
    intro r hr
    exact scan_plain hscan r (List.mem_of_find?_eq_some (mem_index.1 hr))

end Convert

/-- An exact log is the one `to_log` writes. -/
theorem Headed.logFile_eq {vs : List Version} {log : Option Bytes} (h : Headed vs log) (ho : Ordered vs) :
    log = some (logFile (sortedChunks vs)) := by
  unfold logFile
  rw [bySnap_sortedChunks ho, maxSnapshot_congr (mem_sortedChunks ho)]
  exact h

/-- **The conversions undo each other.** A database's log goes to an index, and the index alone
brings it back byte for byte, whatever became of `chunks.log`. So does the log alone bring back
every index that `to_btree` makes of a log it accepts. The records of both files are the same,
and a conversion made again changes nothing. -/
theorem convert_back (z : Zstd) : (∀ dir, Maintained z dir → ∃ d, toBtree dir = .ok d ∧
      (∀ log, toLog { d with log := log } = .ok d) ∧ d.log = dir.log ∧ toBtree d = .ok d) ∧
    ∀ dir d e, toBtree dir = .ok d → e.idx = d.idx → ∃ d', toLog e = .ok d' ∧
      (∀ idx, toBtree { d' with idx := idx } = .ok d') ∧ d'.idx = d.idx ∧ toLog d' = .ok d' ∧
      ∃ idx log rs, d'.idx = some idx ∧ d'.log = some log ∧ readIndex idx = .ok rs ∧ readLog log = .ok rs := by
  refine ⟨fun dir h => ?_, fun dir d e h he => ?_⟩
  · obtain ⟨vs, hd, -, hh⟩ := (headed_keeps z).maintained (headed_purge z) h
    have hlog := Headed.logFile_eq hh hd.ordered
    have hsorted : KeySorted (sortedChunks vs) := index_strict recordKey _
    have hplain : ∀ r ∈ sortedChunks vs, r.Plain := by
      intro r hr
      obtain ⟨v, hv, rfl⟩ := List.mem_map.1 ((mem_sortedChunks hd.ordered r).1 hr)
      exact (hd.stored v hv).plain
    refine ⟨_, toBtree_logFile hsorted hplain hlog, fun log => ?_, rfl, toBtree_logFile hsorted hplain hlog⟩
    rw [toLog_indexFile hsorted rfl, ← hlog]
  · obtain ⟨-, rs, -, -, hsorted, hplain, rfl⟩ := toBtree_inv h
    have hback : ∀ idx, toBtree { e with log := some (logFile rs), idx := idx } =
        .ok { e with log := some (logFile rs) } := by
      intro idx
      rw [toBtree_logFile hsorted hplain rfl]
      exact congrArg (fun idx => Except.ok (⟨some (logFile rs), idx, e.blobs⟩ : Dir)) he.symm
    exact ⟨_, toLog_indexFile hsorted he, hback, he, toLog_indexFile hsorted he,
      _, _, rs, he, rfl, readIndex_file rs, buildLazyIndex_logFile hsorted hplain⟩

/-- A database of three saves, whose log is deleted once there is an index, and whose index is
deleted once there is a log again. -/
theorem convert_back_noise : ∃ dir d d', Maintained Zstd.raw dir ∧ toBtree dir = .ok d ∧ d.log = dir.log ∧
    toLog { d with log := none } = .ok d ∧
    toLog ⟨none, d.idx, dir.blobs⟩ = .ok d' ∧ toBtree { d' with idx := none } = .ok d' ∧ d'.idx = d.idx := by
  obtain ⟨dir, -, hm, -⟩ := threeSaves_session
  obtain ⟨hlog, hidx⟩ := convert_back Zstd.raw
  obtain ⟨d, h1, h2, h3, -⟩ := hlog dir hm
  obtain ⟨d', h4, h5, h6, -⟩ := hidx dir d ⟨none, d.idx, dir.blobs⟩ h1 rfl
  exact ⟨dir, d, d', hm, h1, h3, h2 none, h4, h5 none, h6⟩

end Bxdb
