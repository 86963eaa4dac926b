import Bxdb.Proof.Managed

/-!
# The order of the log, and its header

* `commit_headed`: a commit leaves its own snapshot id, the largest so far, in the header.
* `headed_keeps`: sessions and purges keep the header exact.
* `log_in_order`: **the records of a log strictly increase in snapshot id, then address,
  and its header holds the largest snapshot id**, after every session, save and purge.
-/

namespace Bxdb

open Bytes SortedIndex ChunkRecord

/-! ## The largest snapshot id -/

section Largest

variable {rs rs' : List ChunkRecord} {m : UInt32}

/-- The largest snapshot id is that of a record, or 0. -/
theorem maxSnapshot_reached (rs : List ChunkRecord) :
    maxSnapshot rs = 0 ∨ ∃ r ∈ rs, snapshotOf r.key = maxSnapshot rs := by
  unfold maxSnapshot
  induction rs using List.reverseRecOn with
  | nil => exact .inl rfl
  | append_singleton rs a ih =>
    rw [List.foldl_concat]
    set m := rs.foldl (fun m r => max m (snapshotOf r.key)) 0
    rw [show max m (snapshotOf a.key) = if m ≤ snapshotOf a.key then snapshotOf a.key else m from rfl]
    split
    · exact .inr ⟨a, List.mem_append_right _ (List.mem_singleton_self a), rfl⟩
    · rcases ih with ih | ⟨r, hr, hm⟩
      · exact .inl ih
      · exact .inr ⟨r, List.mem_append_left _ hr, hm⟩

/-- A bound that a record reaches is the largest snapshot id. -/
theorem maxSnapshot_eq (hle : ∀ r ∈ rs, snapshotOf r.key ≤ m) (hm : ∃ r ∈ rs, snapshotOf r.key = m) :
    maxSnapshot rs = m := by
  obtain ⟨r, hr, rfl⟩ := hm
  apply UInt32.le_antisymm
  · rcases maxSnapshot_reached rs with h | ⟨r', hr', h⟩
    · rw [h]
      exact UInt32.zero_le
    · rw [← h]
      exact hle r' hr'
  · exact le_maxSnapshot hr

/-- It depends on which records there are, not on their order. -/
theorem maxSnapshot_congr (h : ∀ r, r ∈ rs ↔ r ∈ rs') : maxSnapshot rs = maxSnapshot rs' := by
  have hle : ∀ {l l' : List ChunkRecord}, (∀ r, r ∈ l → r ∈ l') → maxSnapshot l ≤ maxSnapshot l' := by
    intro l l' hsub
    rcases maxSnapshot_reached l with hz | ⟨r, hr, hm⟩
    · rw [hz]
      exact UInt32.zero_le
    · rw [← hm]
      exact le_maxSnapshot (hsub r hr)
  exact UInt32.le_antisymm (hle fun r => (h r).1) (hle fun r => (h r).2)

end Largest

/-! ## An exact header -/

/-- The log holds the versions' records, and the largest snapshot id in its header. -/
def Headed (vs : List Version) (log : Option Bytes) : Prop :=
  log = some (writeLogHeader (maxSnapshot (chunks vs)) ++ encodeAll (chunks vs))

section Header

variable {z : Zstd} {vs new : List Version} {dir : Dir} {db db' : AppendOnlyDb} {n : ℕ} {t : UInt16} {u : Bool}

/-- **A save keeps the header exact**: without a dirty page nothing is written, and the
id of a commit is larger than all before it. -/
theorem commit_headed {c : SaveCall} (h : HandleOk z vs db) (hh : Headed vs db.disk.log) (hs : SaveOk z vs db c db' new)
    (hd : SaveDone z vs db c db' new) : Headed (vs ++ new) db'.disk.log := by
  cases hd with
  | empty hjobs =>
    rw [List.append_nil]
    exact hh
  | @pass jobs records schedule hne hp =>
    have hlog : LogOk (afterPass db c.id (runPass z (db.accept c.id) c.id jobs schedule)).logFile := h.log
    obtain ⟨-, hbytes⟩ := commit_log hlog (Option.some.inj hh) c.id records
    have hchunks : chunks (vs ++ newVersions jobs records) = chunks vs ++ records := by
      rw [chunks_append, chunks_newVersions hp.length]
    -- the header names the newest snapshot: none is above it, and one is at it
    have hle : ∀ r ∈ chunks (vs ++ newVersions jobs records), snapshotOf r.key ≤ c.id := by
      intro r hr
      obtain ⟨v, hv, rfl⟩ := List.mem_map.1 hr
      rw [UInt32.le_iff_toNat_le]
      rcases List.mem_append.1 hv with hv | hv
      · exact (h.snap_lt hs.idNew v hv).le
      · exact (hs.saved.snap v hv).le
    have hreached : ∃ r ∈ chunks (vs ++ newVersions jobs records), snapshotOf r.key = c.id := by
      have hpos : 0 < (newVersions jobs records).length := by
        have := List.length_pos_iff.2 hne
        unfold newVersions
        rw [List.length_zipWith, hp.length, min_self]
        exact this
      have hmem := List.getElem_mem hpos
      refine ⟨_, List.mem_map_of_mem (List.mem_append_right _ hmem), ?_⟩
      exact UInt32.toNat_inj.1 (hs.saved.snap _ hmem)
    unfold Headed
    rw [maxSnapshot_eq hle hreached, hchunks, encodeAll_append]
    exact congrArg some hbytes

/-- **The steps of a session keep the header exact.** -/
theorem headed_keeps (z : Zstd) : Keeps z (fun vs db => Headed vs db.disk.log) fun vs dir => Headed vs dir.log where
  fresh h := by
    obtain ⟨-, hbytes, -⟩ := open_newLog rfl h
    exact congrArg some hbytes
  opened _ hh hopen := by
    obtain ⟨-, hbytes, -⟩ := open_logFile hh hopen
    exact congrArg some hbytes
  saved h hh hs hd := commit_headed h hh hs hd
  closed h hh hclose := by
    obtain ⟨hl, -, -⟩ := close_inv h.log h.blobs hclose
    rw [hl]
    exact hh

/-- **A purge writes an exact header.** -/
theorem headed_purge (z : Zstd) : PurgeKeeps z fun vs dir => Headed vs dir.log := by
  intro vs dir t hd hh _
  have hmax : maxSnapshot (sortedChunks (keptVersions vs t)) = maxSnapshot (chunks (keptVersions vs t)) :=
    maxSnapshot_congr (mem_sortedChunks hd.ordered.kept)
  change dir.log.map (fun _ => logFile (sortedChunks (keptVersions vs t))) = _
  rw [show dir.log = _ from hh, Option.map_some]
  unfold logFile
  rw [bySnap_sortedChunks hd.ordered.kept, hmax]
  rfl

end Header

/-! ## What readers find -/

/-- Records strictly increasing in snapshot id, then address, under a header that holds
the largest snapshot id, 0 without a record. -/
structure LogInOrder (m : UInt32) (records : List ChunkRecord) : Prop where
  increasing : records.Pairwise fun a b => snapshotOf a.key < snapshotOf b.key ∨
    snapshotOf a.key = snapshotOf b.key ∧ paOf a.key < paOf b.key
  bound : ∀ r ∈ records, snapshotOf r.key ≤ m
  reached : records = [] ∧ m = 0 ∨ ∃ r ∈ records, snapshotOf r.key = m

/-- The keys of such a log are unique. -/
theorem LogInOrder.nodup {m : UInt32} {records : List ChunkRecord} (h : LogInOrder m records) :
    (records.map ChunkRecord.key).Nodup := by
  rw [List.Nodup, List.pairwise_map]
  refine h.increasing.imp fun {a b} hab hk => ?_
  rw [hk] at hab
  rcases hab with hlt | ⟨-, hlt⟩
  · exact UInt32.lt_irrefl _ hlt
  · exact UInt64.lt_irrefl _ hlt

theorem logInOrder {vs : List Version} (h : Ordered vs) : LogInOrder (maxSnapshot (chunks vs)) (chunks vs) where
  increasing := by
    rw [List.pairwise_map]
    refine h.imp fun {a b} hab => ?_
    rw [UInt32.lt_iff_toNat_lt, UInt64.lt_iff_toNat_lt, ← UInt32.toNat_inj]
    exact hab
  bound _ hr := le_maxSnapshot hr
  reached := by
    cases vs with
    | nil => exact .inl ⟨rfl, rfl⟩
    | cons v vs =>
      refine .inr ?_
      rcases maxSnapshot_reached (chunks (v :: vs)) with hz | hr
      · -- every id is 0
        refine ⟨v.chunk, List.mem_cons_self, ?_⟩
        have hle : snapshotOf v.chunk.key ≤ maxSnapshot (chunks (v :: vs)) := le_maxSnapshot List.mem_cons_self
        rw [hz] at hle ⊢
        exact UInt32.le_antisymm hle UInt32.zero_le
      · exact hr

/-- A `chunks.log` whose content a reader finds in order. -/
def LogFileInOrder (log : Option Bytes) : Prop :=
  ∃ bytes m body records, log = some bytes ∧ readAndVerifyHeader bytes magicLog = .ok (m, body) ∧
    ChunkRecord.scan body = .ok records ∧ LogInOrder m records ∧ (records.map ChunkRecord.key).Nodup

theorem Headed.inOrder {z : Zstd} {vs : List Version} {blobs : UInt8 → Option Bytes} {log : Option Bytes}
    (h : Headed vs log) (ho : Ordered vs) (hstored : ∀ v ∈ vs, Stored z vs blobs v) : LogFileInOrder log := by
  have hplain : ∀ r ∈ chunks vs, r.Plain := chunks_plain hstored
  exact ⟨_, _, _, _, h, readLogHeader _ _, scan_encode hplain, logInOrder ho, (logInOrder ho).nodup⟩

/-- **The log is in order** after any sessions and purges, and on a handle opened then
after any of its saves. -/
theorem log_in_order (z : Zstd) : (∀ dir, Maintained z dir → LogFileInOrder dir.log) ∧
    ∀ dir n t u db cs db', dir = Dir.empty ∨ Maintained z dir → AppendOnlyDb.open dir n t u = .ok db →
      Saves z db cs db' → (∀ c ∈ cs, c.InRange) → LogFileInOrder db'.disk.log := by
  refine ⟨fun dir h => ?_, fun dir n t u db cs db' hdir hopen hsaves hrange => ?_⟩
  · obtain ⟨vs, hd, -, hh⟩ := (headed_keeps z).maintained (headed_purge z) h
    exact hh.inOrder hd.ordered hd.stored
  · obtain ⟨vs, h, hb, hh⟩ : ∃ vs, HandleOk z vs db ∧ ShadowBacked vs db.shadow ∧ Headed vs db.disk.log := by
      rcases hdir with rfl | hm
      · obtain ⟨h, hb⟩ := open_empty (z := z) rfl (by simp [Dir.empty]) hopen
        exact ⟨[], h, hb, (headed_keeps z).fresh hopen⟩
      · obtain ⟨vs, hd, -, hh⟩ := (headed_keeps z).maintained (headed_purge z) hm
        obtain ⟨h, hb⟩ := open_ok hd hopen
        exact ⟨vs, h, hb, (headed_keeps z).opened hd hh hopen⟩
    obtain ⟨new, hs, hh'⟩ := (headed_keeps z).saves h hb hh hsaves hrange
    exact hh'.inOrder hs.handle.ordered hs.handle.stored

/-- A database purged between its saves. -/
theorem log_in_order_noise : ∃ dir dir' n, Maintained Zstd.raw dir ∧ purge (WalkOrder.id _) dir 5 = .ok (dir', n) ∧
    LogFileInOrder dir'.log := by
  obtain ⟨dir, -, hm, -⟩ := threeSaves_session
  obtain ⟨vs, hd, hidx⟩ := maintained_ok hm
  obtain ⟨dir', hpurge, -, -⟩ := purge_ok (WalkOrder.id _) (hd.formOk hidx) 5
  exact ⟨dir, dir', _, hm, hpurge, (log_in_order Zstd.raw).1 dir' (.purge hm hpurge)⟩

end Bxdb
