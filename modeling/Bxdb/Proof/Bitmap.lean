import Bxdb.Proof.Schedules

/-!
# Saves by bitmap

The dirty pages of a call are the set bits below its total (`dirtyPas`). The groups count
them word by word, the exclusive prefix sum of the counts gives each group its first
slot, and the slots of all groups together are `0, 1, …` (`slots_tile`); the walk over
the set bits fills them with the dirty pages in ascending order.

* `bitmap_save_covers`: **a bitmap save that returns Ok appends one record for each dirty
  page**, in ascending order, each made from that page's memory.
* `saves_as_bitmap`: **`save_all_pages` is a bitmap save with all bits set**, in every run.
-/

namespace Bxdb

open Bytes SortedIndex Buffered

/-! ## The prefix sum -/

/-- The prefix sum goes through while the count stays below 2³². -/
theorem prefixSum_ok : ∀ {cs : List ℕ} {acc : ℕ}, acc + cs.sum < 2 ^ 32 → ∃ r, prefixSum acc cs = .ok r
  | [], acc, _ => ⟨([], acc), rfl⟩
  | c :: cs, acc, h => by
    rw [List.sum_cons] at h
    obtain ⟨⟨offsets, total⟩, hr⟩ := prefixSum_ok (show acc + c + cs.sum < 2 ^ 32 by omega)
    refine ⟨(acc :: offsets, total), ?_⟩
    unfold prefixSum
    rw [if_neg (by omega), hr, ok_bind]

/-- **The slots of the groups tile the buffer**: group after group, they are `0, 1, …`. -/
theorem slots_tile {counts offsets : List ℕ} {total : ℕ} (h : prefixSum 0 counts = .ok (offsets, total)) :
    (List.range counts.length).flatMap (fun g => (List.range (counts.getD g 0)).map (offsets.getD g 0 + ·)) =
      List.range total := by
  obtain ⟨hsum, hoff⟩ := prefixSum_spec counts 0 h
  have hblocks := flatMap_blocks (counts.getD · 0) (fun g => (counts.take g).sum) (fun g => ?_) (by simp) counts.length
  · rw [List.take_length] at hblocks
    rw [hsum, Nat.zero_add, ← hblocks]
    refine List.flatMap_congr fun g hg => ?_
    rw [hoff g (List.mem_range.1 hg), Nat.zero_add]
  · -- past the last group the sum stays
    rcases Nat.lt_or_ge g counts.length with hg | hg
    · rw [List.take_add_one, List.sum_append, List.getElem?_eq_getElem hg, List.getD_eq_getElem _ _ hg]
      simp
    · rw [List.take_of_length_le hg, List.take_of_length_le (by omega), List.getD_eq_default _ _ hg, Nat.add_zero]

/-! ## The dirty pages -/

section

variable {memory : Bytes} {bits : List UInt64} {n : UInt64} {s : UInt32}

/-- The set bits below the total. -/
def dirtyPas (bits : List UInt64) (n : UInt64) : List ℕ :=
  (List.range n.toNat).filter fun i => testBit (bits.getD (i / 64) 0) (i % 64)

theorem mem_dirtyPas (memory : Bytes) (s : UInt32) {pa : ℕ} :
    pa ∈ dirtyPas bits n ↔ (SaveCall.bitmap memory bits n s).marks pa = true := by
  unfold dirtyPas SaveCall.marks
  rw [List.mem_filter, List.mem_range, Bool.and_eq_true, decide_eq_true_eq]

theorem dirtyPas_sorted : (dirtyPas bits n).Pairwise (· < ·) := List.pairwise_lt_range.filter _

/-- **The jobs of a bitmap save** are the dirty pages in ascending order, each with its memory. -/
theorem JobsOf.dirtyPas {jobs : List Job} (hm : memory.length = n.toNat * pageSize)
    (h : JobsOf (.bitmap memory bits n s) jobs) :
    jobs.map (fun j => j.pa.toNat) = dirtyPas bits n ∧ ∀ job ∈ jobs, pageAt memory job.pa.toNat = .ok job.page := by
  have hmem : ∀ {pa : ℕ}, (SaveCall.bitmap memory bits n s).marks pa = true →
      ∃ page, pageAt memory pa = .ok page ∧ pa < n.toNat := by
    intro pa hpa
    have hlt := (List.mem_range.1 (List.mem_filter.1 ((mem_dirtyPas memory s).2 hpa)).1)
    obtain ⟨page, hp⟩ := pageAt_ok hm hlt
    exact ⟨page, hp, hlt⟩
  constructor
  · have hsorted : (jobs.map fun j => j.pa.toNat).Pairwise (· < ·) := by
      rw [List.pairwise_map]
      exact h.sorted
    refine hsorted.eq_of_mem_iff dirtyPas_sorted fun pa => ?_
    rw [mem_dirtyPas memory s, List.mem_map]
    constructor
    · rintro ⟨job, hj, rfl⟩
      exact h.marked job hj
    · intro hpa
      obtain ⟨page, hp, hlt⟩ := hmem hpa
      have hto : (UInt64.ofNat pa).toNat = pa := UInt64.toNat_ofNat_of_lt' (hlt.trans n.toNat_lt)
      have hdirty : (SaveCall.bitmap memory bits n s).dirty (UInt64.ofNat pa) = some page := by
        unfold SaveCall.dirty
        rw [hto, if_pos hpa]
        change (pageAt memory pa).toOption = _
        rw [hp]
        rfl
      obtain ⟨job, hj, hjp, -⟩ := (h.dirty _ _).1 hdirty
      exact ⟨job, hj, by rw [hjp, hto]⟩
  · intro job hj
    obtain ⟨page, hp, -⟩ := hmem (h.marked job hj)
    have hdirty := (h.dirty job.pa job.page).2 ⟨job, hj, rfl, rfl⟩
    unfold SaveCall.dirty at hdirty
    rw [if_pos (h.marked job hj)] at hdirty
    change (pageAt memory job.pa.toNat).toOption = _ at hdirty
    rw [hp] at hdirty ⊢
    exact congrArg Except.ok (Option.some.inj hdirty)

/-! ## One save -/

/-- What a bitmap save that returns Ok has checked. -/
theorem bitmap_checked {z : Zstd} {db db' : AppendOnlyDb} {schedule : List (ℕ × Fault)}
    (h : (SaveCall.bitmap memory bits n s).run z schedule db = some (db', .ok ())) :
    memory.length = n.toNat * pageSize ∧ (n.toNat + 63) / 64 ≤ bits.length ∧
      ∃ offsets dirty, bitmapOffsets (bits.take ((n.toNat + 63) / 64)) ((n.toNat + 63) / 64) n.toNat =
        .ok (offsets, dirty) := by
  obtain ⟨plan, hp⟩ := plan_of_ok h
  unfold SaveCall.plan at hp
  dsimp only at hp
  split at hp
  · cases hp
  rename_i hm
  split at hp
  · cases hp
  rename_i hlen
  refine ⟨not_not.1 hm, by omega, ?_⟩
  split at hp
  · -- no page: there is no group either
    rename_i hzero
    rw [hzero]
    exact ⟨[], 0, rfl⟩
  · cases ho : bitmapOffsets (bits.take ((n.toNat + 63) / 64)) ((n.toNat + 63) / 64) n.toNat with
    | error e =>
      rw [ho] at hp
      cases hp
    | ok r => exact ⟨r.1, r.2, rfl⟩

/-- The count of a group, found in the list of them. -/
theorem getD_counts {bitmap : List UInt64} {words total g : ℕ} (hg : g < numGroups words) :
    ((List.range (numGroups words)).map (groupCount bitmap words total)).getD g 0 = groupCount bitmap words total g := by
  rw [List.getD_eq_getElem _ _ (by rwa [List.length_map, List.length_range]), List.getElem_map, List.getElem_range]

/-- **What a bitmap save covers**: from a handle in any state that calls lead to, when the
call returns Ok, the groups' slots tile the buffer, the jobs fill them one by one with the
dirty pages in ascending order (so no slice of the memory is out of range), and the log
gains one record for each of them, which names what that page was encoded to. -/
theorem bitmap_save_covers {z : Zstd} (hz : z.Small) {dir : Dir} {workers : ℕ} {t : UInt16} {u : Bool}
    {db₀ db db' : AppendOnlyDb} {schedule : List (ℕ × Fault)} (hd : Reached z dir)
    (hopen : AppendOnlyDb.open dir workers t u = .ok db₀) (hcalls : Calls z db₀ db)
    (hsave : (SaveCall.bitmap memory bits n s).run z schedule db = some (db', .ok ())) :
    ∃ (offsets : List ℕ) (dirty : ℕ) (jobs : List Job) (old new : List ChunkRecord),
      bitmapOffsets (bits.take ((n.toNat + 63) / 64)) ((n.toNat + 63) / 64) n.toNat = .ok (offsets, dirty) ∧
      (List.range (numGroups ((n.toNat + 63) / 64))).flatMap (fun g =>
        (List.range (groupCount (bits.take ((n.toNat + 63) / 64)) ((n.toNat + 63) / 64) n.toNat g)).map
          (offsets.getD g 0 + ·)) = List.range dirty ∧
      bitmapJobs memory (bits.take ((n.toNat + 63) / 64)) ((n.toNat + 63) / 64) n.toNat offsets = .ok jobs ∧
      jobs.map Job.slot = List.range dirty ∧ jobs.map (fun j => j.pa.toNat) = dirtyPas bits n ∧
      (∀ job ∈ jobs, pageAt memory job.pa.toNat = .ok job.page) ∧
      (∃ m, db.logFile.file.bytes = writeLogHeader m ++ encodeAll old) ∧
      (∃ m, db'.logFile.file.bytes = writeLogHeader m ++ encodeAll (old ++ new)) ∧
      new.length = dirty ∧ ∀ (i : ℕ) (job : Job) (rec : ChunkRecord), jobs[i]? = some job → new[i]? = some rec →
        Recorded z (db.accept s) s db'.blobFiles job rec := by
  obtain ⟨hm, -, offsets, dirty, ho⟩ := bitmap_checked hsave
  obtain ⟨jobs, hjobs, hof, hlen⟩ := bitmapJobs_jobsOf (s := s) hm ho
  obtain ⟨rs, hwell⟩ := reached_well hz hd
  obtain ⟨old, h⟩ := (hwell.open hopen).calls hz hcalls
  obtain ⟨jobs', new, hof', hran, hw⟩ := h.saved hsave
  obtain rfl := hof.unique hof'
  obtain ⟨hpas, hpages⟩ := hof.dirtyPas hm
  have htile := slots_tile ho
  rw [List.length_map, List.length_range] at htile
  refine ⟨offsets, dirty, jobs, old, new, ho, ?_, hjobs, hlen ▸ hof.slots, hpas, hpages, h.bytes, hw.bytes,
    hran.length.trans hlen, hran.recorded⟩
  rw [← htile]
  refine List.flatMap_congr fun g hg => ?_
  rw [getD_counts (List.mem_range.1 hg)]

/-! ## All pages as a bitmap -/

/-- A bitmap with every bit set, for this many pages. -/
def onesBitmap (n : UInt64) : List UInt64 := List.replicate ((n.toNat + 63) / 64) 0xFFFFFFFFFFFFFFFF

theorem onesBitmap_marks (memory : Bytes) (n : UInt64) (s : UInt32) (pa : ℕ) :
    (SaveCall.bitmap memory (onesBitmap n) n s).marks pa = (SaveCall.all memory n s).marks pa := by
  unfold SaveCall.marks onesBitmap
  dsimp only
  by_cases hlt : pa < n.toNat
  · have hword : pa / 64 < (List.replicate ((n.toNat + 63) / 64) (0xFFFFFFFFFFFFFFFF : UInt64)).length := by
      rw [List.length_replicate]
      omega
    have hones : (0xFFFFFFFFFFFFFFFF : UInt64).toNat = 2 ^ 64 - 1 := rfl
    have hmod : pa % 64 < 64 := Nat.mod_lt _ (by omega)
    rw [List.getD_eq_getElem _ _ hword, List.getElem_replicate]
    unfold testBit
    rw [hones, Nat.testBit_two_pow_sub_one, decide_eq_true hmod, Bool.and_true]
  · rw [decide_eq_false hlt, Bool.false_and]

/-- Calls that mark the same pages of the same memory have the same jobs. -/
theorem JobsOf.congr {c c' : SaveCall} {jobs : List Job} (h : JobsOf c jobs) (hmemory : c'.memory = c.memory)
    (hmarks : ∀ pa, c'.marks pa = c.marks pa) : JobsOf c' jobs := by
  refine ⟨h.slots, h.sorted, fun pa page => ?_, fun job hj => ?_⟩
  · rw [← h.dirty]
    unfold SaveCall.dirty
    rw [hmarks, hmemory]
  · rw [hmarks]
    exact h.marked job hj

/-- The counts of the groups add up to no more than the total. -/
theorem sum_counts (bits : List UInt64) (n : UInt64) :
    ((List.range (numGroups ((n.toNat + 63) / 64))).map
      (groupCount (bits.take ((n.toNat + 63) / 64)) ((n.toNat + 63) / 64) n.toNat)).sum ≤ n.toNat := by
  have hcounts : (List.range (numGroups ((n.toNat + 63) / 64))).map
      (groupCount (bits.take ((n.toNat + 63) / 64)) ((n.toNat + 63) / 64) n.toNat) =
      (List.range (numGroups ((n.toNat + 63) / 64))).map fun g =>
        (groupPas (bits.take ((n.toNat + 63) / 64)) ((n.toNat + 63) / 64) n.toNat g).length :=
    List.map_congr_left fun g _ => groupCount_eq g
  rw [hcounts, ← List.length_flatMap, flatMap_groupPas]
  -- strictly increasing numbers below the total
  have hsorted : (bitmapPas (bits.take ((n.toNat + 63) / 64)) n.toNat).Pairwise (· < ·) := bitmapPas_sorted
  have hnodup : (bitmapPas (bits.take ((n.toNat + 63) / 64)) n.toNat).Nodup := hsorted.imp fun h => Nat.ne_of_lt h
  have hsub : bitmapPas (bits.take ((n.toNat + 63) / 64)) n.toNat ⊆ List.range n.toNat := fun pa hpa =>
    List.mem_range.2 (mem_bitmapPas.1 hpa).1
  have hle := (List.subperm_of_subset hnodup hsub).length_le
  rwa [List.length_range] at hle

theorem plan_all_ones (memory : Bytes) {n : UInt64} (s : UInt32) (hn : n.toNat < 2 ^ 32) :
    (SaveCall.all memory n s).plan = (SaveCall.bitmap memory (onesBitmap n) n s).plan := by
  have hlen : (onesBitmap n).length = (n.toNat + 63) / 64 := List.length_replicate
  unfold SaveCall.plan
  dsimp only
  by_cases hm : memory.length ≠ n.toNat * pageSize
  · rw [if_pos hm, if_pos hm]
  rw [if_neg hm, if_neg hm, if_neg (show ¬ (onesBitmap n).length < (n.toNat + 63) / 64 by omega)]
  by_cases h0 : n.toNat = 0
  · rw [if_pos h0, if_pos (show (n.toNat + 63) / 64 = 0 by omega)]
  rw [if_neg h0, if_neg (show ¬ (n.toNat + 63) / 64 = 0 by omega)]
  obtain ⟨jobs, hall, hof, hcount⟩ := allJobs_jobsOf (s := s) (not_not.1 hm)
  have hsum := sum_counts (onesBitmap n) n
  obtain ⟨⟨offsets, dirty⟩, ho⟩ := prefixSum_ok (show 0 + _ < 2 ^ 32 by
    rw [Nat.zero_add]
    exact lt_of_le_of_lt hsum hn)
  have ho' : bitmapOffsets ((onesBitmap n).take ((n.toNat + 63) / 64)) ((n.toNat + 63) / 64) n.toNat =
      .ok (offsets, dirty) := ho
  -- both calls make one job for each dirty page, and their dirty pages are the same
  obtain ⟨jobs', hbits, hof', hdirty⟩ := bitmapJobs_jobsOf (s := s) (not_not.1 hm) ho'
  obtain rfl := hof'.unique (hof.congr rfl (onesBitmap_marks memory n s))
  rw [ho']
  dsimp only
  rw [if_neg (show ¬ dirty = 0 by omega), hall, hbits]

/-- **A call for all pages is the call with all bits set**, from any handle and under any
schedule. -/
theorem run_all_ones (z : Zstd) (schedule : List (ℕ × Fault)) (db : AppendOnlyDb) (memory : Bytes) {n : UInt64}
    (s : UInt32) (hn : n.toNat < 2 ^ 32) : (SaveCall.all memory n s).run z schedule db =
      (SaveCall.bitmap memory (onesBitmap n) n s).run z schedule db := by
  rw [run_eq, run_eq, plan_all_ones memory s hn]
  rfl

/-- The same call, by bitmap. -/
def SaveCall.asBitmap : SaveCall → SaveCall
  | .all memory n s => .bitmap memory (onesBitmap n) n s
  | .bitmap memory bits n s => .bitmap memory bits n s

/-- Save calls on one handle, one after the other, each with its schedule: the handle they
leave and what they return. -/
def runCalls (z : Zstd) (db : AppendOnlyDb) : List (SaveCall × List (ℕ × Fault)) → Option (AppendOnlyDb × List (Res Unit))
  | [] => some (db, [])
  | (c, schedule) :: calls => do
    let (db, r) ← c.run z schedule db
    let (db, rs) ← runCalls z db calls
    some (db, r :: rs)

/-- **`save_all_pages` equals a bitmap save with all bits set**, below 2³² pages: each call of a
run does the same to any handle and returns the same when it is made by bitmap, under every
schedule, in ascending order or not; and so does the run. -/
theorem saves_as_bitmap (z : Zstd) (calls : List (SaveCall × List (ℕ × Fault))) (hsmall : ∀ e ∈ calls, e.1.total < 2 ^ 32)
    (db : AppendOnlyDb) :
    (∀ e ∈ calls, ∀ db : AppendOnlyDb, e.1.run z e.2 db = e.1.asBitmap.run z e.2 db) ∧
    runCalls z db calls = runCalls z db (calls.map fun e => (e.1.asBitmap, e.2)) := by
  have hcall : ∀ e ∈ calls, ∀ db : AppendOnlyDb, e.1.run z e.2 db = e.1.asBitmap.run z e.2 db := by
    rintro ⟨c, schedule⟩ he db
    cases c with
    | all memory n s => exact run_all_ones z schedule db memory s (hsmall _ he)
    | bitmap memory bits n s => rfl
  refine ⟨hcall, ?_⟩
  clear hsmall
  induction calls generalizing db with
  | nil => rfl
  | cons e calls ih =>
    obtain ⟨c, schedule⟩ := e
    rw [List.map_cons, runCalls, runCalls, ← hcall _ List.mem_cons_self db]
    cases c.run z schedule db with
    | none => rfl
    | some r =>
      obtain ⟨db', r⟩ := r
      change (do
        let (db, rs) ← runCalls z db' calls
        some (db, r :: rs)) = _
      rw [ih db' fun e he => hcall e (List.mem_cons_of_mem _ he)]
      rfl

/-! ## 5000 pages -/

/-- The same page 5000 times: 79 words of a bitmap, in two groups. -/
def manyPages : Bytes := (List.replicate 5000 (noise 1).bytes).flatten

theorem length_manyPages : manyPages.length = (5000 : UInt64).toNat * pageSize := by
  unfold manyPages
  rw [List.length_flatten, List.map_replicate, List.sum_replicate_nat, (noise 1).size]
  rfl

/-- They can be saved by bitmap. -/
theorem manyPages_saved : ∃ (db db' : AppendOnlyDb) (schedule : List (ℕ × Fault)),
    AppendOnlyDb.open Dir.empty 4 512 true = .ok db ∧
      (SaveCall.all manyPages 5000 0).run Zstd.raw schedule db = some (db', .ok ()) := by
  obtain ⟨db, hopen⟩ : ∃ db, AppendOnlyDb.open Dir.empty 4 512 true = .ok db :=
    open_completes (by decide : 1 ≤ 4 ∧ 4 ≤ 255) 512 true (.inl rfl)
  obtain ⟨schedule, db', hrun⟩ := first_completes Zstd.raw_small
    (.mk length_manyPages (by decide : (0 : UInt32) ≤ maxSnapshotId) (by decide))
    (by rw [show (SaveCall.all manyPages 5000 0).total = 5000 from rfl]; norm_num [blobBufCap, maxFileLen]) hopen
  exact ⟨db, db', schedule, hopen, hrun⟩

/-- The call that saves them, and one by bitmap that does the same. -/
theorem saves_as_bitmap_many : ∃ (db db' : AppendOnlyDb) (schedule : List (ℕ × Fault)),
    runCalls Zstd.raw db [(.all manyPages 5000 0, schedule)] = some (db', [.ok ()]) ∧
    runCalls Zstd.raw db [(.bitmap manyPages (onesBitmap 5000) 5000 0, schedule)] = some (db', [.ok ()]) := by
  obtain ⟨db, db', schedule, -, hrun⟩ := manyPages_saved
  obtain ⟨-, hsame⟩ := saves_as_bitmap Zstd.raw [(.all manyPages 5000 0, schedule)]
    (List.forall_mem_singleton.2 (by decide : 5000 < 2 ^ 32)) db
  have hall : runCalls Zstd.raw db [(.all manyPages 5000 0, schedule)] = some (db', [.ok ()]) := by
    unfold runCalls
    rw [hrun]
    rfl
  exact ⟨db, db', schedule, hall, hsame.symm.trans hall⟩

/-- A bitmap save of all of them. -/
theorem bitmap_save_covers_noise : ∃ (db db' : AppendOnlyDb) (schedule : List (ℕ × Fault)) (jobs : List Job)
    (new : List ChunkRecord), AppendOnlyDb.open Dir.empty 4 512 true = .ok db ∧
      (SaveCall.bitmap manyPages (onesBitmap 5000) 5000 0).run Zstd.raw schedule db = some (db', .ok ()) ∧
      jobs.map (fun j => j.pa.toNat) = List.range 5000 ∧ new.length = 5000 ∧
      ∃ m, db'.logFile.file.bytes = writeLogHeader m ++ encodeAll new := by
  obtain ⟨db, db', schedule, hopen, hrun⟩ := manyPages_saved
  obtain ⟨-, hbytes, -⟩ := open_newLog rfl hopen
  rw [run_all_ones Zstd.raw schedule db _ 0 (by decide)] at hrun
  obtain ⟨offsets, dirty, jobs, old, new, -, -, -, hslots, hpas, -, ⟨m₀, hold⟩, ⟨m, hnew⟩, hlen, -⟩ :=
    bitmap_save_covers Zstd.raw_small .empty hopen .nil hrun
  have hrange : dirtyPas (onesBitmap 5000) 5000 = List.range 5000 := by
    unfold dirtyPas
    refine List.filter_eq_self.2 fun i hi => ?_
    have hones := (onesBitmap_marks manyPages 5000 0 i).trans (decide_eq_true (List.mem_range.1 hi) : _)
    exact (Bool.and_eq_true_iff.1 hones).2
  rw [hrange] at hpas
  -- the log was empty before
  have hempty : old = [] := by
    have hlength := congrArg List.length (hold.symm.trans hbytes)
    rw [List.length_append, List.length_append, show (writeLogHeader m₀).length = (writeLogHeader 0).length from rfl] at hlength
    cases old with
    | nil => rfl
    | cons r rs =>
      have := encodedLen_ge r
      rw [encodeAll_cons, List.length_append, length_writeTo, List.length_nil, show logRecordBaseSize = 22 from rfl] at *
      omega
  have hdirty : dirty = 5000 := by
    have hjobs := congrArg List.length hslots
    have hcount := congrArg List.length hpas
    rw [List.length_map, List.length_range] at hjobs hcount
    exact hjobs.symm.trans hcount
  rw [hempty, List.nil_append] at hnew
  exact ⟨db, db', schedule, jobs, new, hopen, hrun, hpas, hlen.trans hdirty, m, hnew⟩

end

end Bxdb
