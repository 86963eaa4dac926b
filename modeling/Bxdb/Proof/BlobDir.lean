import Bxdb.Spec.BlobDir
import Bxdb.Proof.Lifecycle
import Bxdb.Proof.PurgeCompose

/-!
# The worker files by name

* `blobReaders_mmap`: over any listing, a worker's file is the one listed last under a name
  that reads as that worker.
* `workerIdOf_workerName`: the name the writer makes reads as its worker.
* `purge_names`: what a purge does to every name of a directory, whatever names are there.
* `namedLife_refines`: **in a directory that others leave their own files in, every listing
  gives the files that the writer made**, and the commands are those of the model by worker.
-/

namespace Bxdb

open Bytes SortedIndex

/-! ## The readers, over any listing -/

namespace BlobReaders

/-- The entry that `paths` has last for a worker. -/
def lastOf (ps : List (UInt8 × Bytes)) (w : UInt8) : Option Bytes :=
  (ps.filter fun p => p.1 = w).getLast?.map Prod.snd

theorem lastOf_concat (ps : List (UInt8 × Bytes)) (p : UInt8 × Bytes) (w : UInt8) :
    lastOf (ps ++ [p]) w = if p.1 = w then some p.2 else lastOf ps w := by
  unfold lastOf
  rw [List.filter_append]
  by_cases h : p.1 = w
  · rw [if_pos h, List.filter_cons_of_pos (by simpa using h), List.filter_nil, List.getLast?_concat, Option.map_some]
  · rw [if_neg h, List.filter_cons_of_neg (by simpa using h), List.filter_nil, List.append_nil]

/-- **Pushed one by one**, the last of each worker stays. -/
theorem foldl_push (ps : List (UInt8 × Bytes)) :
    (∀ w i, (ps.foldl push ⟨[], fun _ => none⟩).byId w = some i → i < (ps.foldl push ⟨[], fun _ => none⟩).files.length) ∧
      ∀ w, (ps.foldl push ⟨[], fun _ => none⟩).mmap w = lastOf ps w := by
  induction ps using List.reverseRecOn with
  | nil =>
    refine ⟨fun w i h => ?_, fun w => rfl⟩
    cases h
  | append_singleton ps p ih =>
    rw [List.foldl_concat]
    generalize ps.foldl push ⟨[], fun _ => none⟩ = r at ih
    obtain ⟨hbound, hlast⟩ := ih
    have hlen : (r.push p).files.length = r.files.length + 1 := List.length_append
    constructor
    · intro w i h
      change Function.update r.byId p.1 (some r.files.length) w = some i at h
      rw [hlen]
      rw [Function.update_apply] at h
      split at h
      · obtain rfl := Option.some.inj h
        omega
      · exact Nat.lt_succ_of_lt (hbound w i h)
    · -- a second file of a worker hides the first
      intro w
      rw [lastOf_concat, ← hlast w]
      change (Function.update r.byId p.1 (some r.files.length) w).bind _ = _
      rw [Function.update_apply]
      by_cases h : w = p.1
      · rw [if_pos h, if_pos h.symm, Option.bind_some]
        exact List.getElem?_concat_length
      · rw [if_neg h, if_neg (Ne.symm h)]
        unfold mmap
        cases hid : r.byId w with
        | none => rfl
        | some i => exact List.getElem?_append_left (hbound w i hid)

/-- **A worker's file is the one listed last** under a name that reads as that worker. -/
theorem blobReaders_mmap (entries : List FileEntry) (w : UInt8) : (new entries).mmap w = lastOf (paths entries) w := by
  have hfilter := filter_sortByKey (fun p : UInt8 × Bytes => p.1.toNat) (paths entries) w.toNat
  simp only [UInt8.toNat_inj] at hfilter
  unfold new
  rw [(foldl_push _).2 w]
  unfold lastOf
  rw [hfilter]

end BlobReaders

open BlobReaders

/-- **`check` measures the files that the readers map**, in any listing. -/
theorem blobSizes_eq (entries : List FileEntry) (w : UInt8) :
    blobSizes entries w = ((BlobReaders.new entries).mmap w).map List.length := by
  rw [blobReaders_mmap]
  unfold blobSizes
  induction entries using List.reverseRecOn with
  | nil => rfl
  | append_singleton entries e ih =>
    rw [List.foldl_concat]
    have hpaths : paths (entries ++ [e]) = paths entries ++ ((workerIdOf e.1).map fun id => (id, e.2)).toList := by
      unfold paths
      rw [List.filterMap_append, List.filterMap_cons, List.filterMap_nil]
      cases workerIdOf e.1 with
      | none => rfl
      | some id => rfl
    rw [hpaths]
    cases h : workerIdOf e.1 with
    | none =>
      rw [Option.map_none, Option.toList_none, List.append_nil]
      exact ih
    | some id =>
      rw [Option.map_some, Option.toList_some, lastOf_concat]
      dsimp only
      rw [Function.update_apply]
      by_cases hw : w = id
      · rw [if_pos hw, if_pos hw.symm]; rfl
      · rw [if_neg hw, if_neg (Ne.symm hw)]
        exact ih

/-! ## Names -/

theorem workerIdOf_workerName (w : UInt8) : workerIdOf (workerName w.toNat) = some w := by
  have hrest := List.dropPrefix?_append_of_beq (Nat.toDigits 10 w.toNat ++ ".blob".toList) (beq_self_eq_true "worker_".toList)
  have hdigits : (Nat.toDigits 10 w.toNat ++ ".blob".toList).dropSuffix? ".blob".toList = some (Nat.toDigits 10 w.toNat) :=
    List.dropSuffix?_eq_some_iff.2 ⟨_, rfl, beq_self_eq_true _⟩
  unfold workerIdOf workerName
  rw [hrest, Option.bind_eq_bind, Option.bind_some, hdigits, Option.bind_some,
    Numerals.parse_toDigits (by decide) (by decide) w.toNat_lt, Option.map_some, UInt8.ofNat_toNat]

theorem workerName_inj {w w' : UInt8} (h : workerName w.toNat = workerName w'.toNat) : w = w' := by
  have := workerIdOf_workerName w
  rw [h, workerIdOf_workerName] at this
  exact (Option.some.inj this).symm

theorem workerName_ne {name : FileName} (h : workerIdOf name = none) (w : UInt8) : name ≠ workerName w.toNat := by
  rintro rfl
  rw [workerIdOf_workerName] at h
  cases h

/-- Every name that reads as a worker is the one the writer makes. -/
def Canonical (files : Files) : Prop :=
  ∀ name ∈ files, ∀ w, workerIdOf name = some w → name = workerName w.toNat

/-- **The readers find what the writer wrote**, in whatever order the files are listed. -/
theorem Canonical.mmap {files : Files} (h : Canonical files) {entries : List FileEntry} (hp : entries.Perm files.entries)
    (w : UInt8) : (BlobReaders.new entries).mmap w = files.lookup (workerName w.toNat) := by
  rw [blobReaders_mmap]
  unfold lastOf
  cases hl : ((paths entries).filter fun p => p.1 = w).getLast? with
  | none =>
    rw [List.getLast?_eq_none_iff] at hl
    cases hf : files.lookup (workerName w.toNat) with
    | none => rfl
    | some bytes =>
      have hmem : (⟨workerName w.toNat, bytes⟩ : FileEntry) ∈ entries := hp.mem_iff.2 (AList.mem_lookup_iff.1 hf)
      have hpath : (w, bytes) ∈ paths entries :=
        List.mem_filterMap.2 ⟨_, hmem, by rw [workerIdOf_workerName, Option.map_some]⟩
      have hin : (w, bytes) ∈ (paths entries).filter fun p => p.1 = w := List.mem_filter.2 ⟨hpath, by simp⟩
      rw [hl] at hin
      cases hin
  | some p =>
    obtain ⟨hpath, hw⟩ := List.mem_filter.1 (List.mem_of_getLast? hl)
    obtain ⟨e, he, hid⟩ := List.mem_filterMap.1 hpath
    obtain ⟨id, hname, rfl⟩ := Option.map_eq_some_iff.1 hid
    obtain rfl : id = w := by simpa using hw
    have hentry : e ∈ files.entries := hp.mem_iff.1 he
    have hkey : e.1 ∈ files := AList.mem_keys.2 (List.mem_keys_of_mem hentry)
    rw [← h e.1 hkey id hname]
    exact (AList.mem_lookup_iff.2 hentry).symm

theorem Canonical.insert_worker {files : Files} (h : Canonical files) (i : ℕ) (hi : i < 256) (bytes : Bytes) :
    Canonical (files.insert (workerName i) bytes) := by
  intro name hname w hw
  rcases (AList.mem_insert _).1 hname with rfl | hname
  · have hback := workerIdOf_workerName (UInt8.ofNat i)
    rw [UInt8.toNat_ofNat_of_lt' hi] at hback
    rw [hback] at hw
    rw [← Option.some.inj hw, UInt8.toNat_ofNat_of_lt' hi]
  · exact h name hname w hw

theorem Canonical.insert_other {files : Files} (h : Canonical files) {name : FileName} (hname : workerIdOf name = none)
    (bytes : Bytes) : Canonical (files.insert name bytes) := by
  intro name' hname' w hw
  rcases (AList.mem_insert _).1 hname' with rfl | hname'
  · rw [hname] at hw
    cases hw
  · exact h name' hname' w hw

theorem Canonical.erase {files : Files} (h : Canonical files) (name : FileName) : Canonical (files.erase name) :=
  fun name' hname' w hw => h name' (AList.mem_erase.1 hname').2 w hw

namespace NamedDir

/-! ## Sessions -/

section Session

variable {files : Files} {bytes : UInt8 → Bytes}

theorem putWorkers_succ (n : ℕ) :
    putWorkers files (n + 1) bytes = (putWorkers files n bytes).insert (workerName n) (bytes (UInt8.ofNat n)) := by
  unfold putWorkers
  rw [List.range_succ, List.foldl_concat]

theorem canonical_putWorkers (h : Canonical files) : ∀ {n : ℕ}, n ≤ 256 → Canonical (putWorkers files n bytes)
  | 0, _ => h
  | n + 1, hn => by
    rw [putWorkers_succ]
    exact (canonical_putWorkers h (by omega)).insert_worker n (by omega) _

/-- A session writes the files of its workers, -/
theorem lookup_putWorkers (w : UInt8) : ∀ {n : ℕ}, n ≤ 256 → (putWorkers files n bytes).lookup (workerName w.toNat) =
    if w.toNat < n then some (bytes w) else files.lookup (workerName w.toNat)
  | 0, _ => rfl
  | n + 1, hn => by
    have hlast : (UInt8.ofNat n).toNat = n := UInt8.toNat_ofNat_of_lt' (show n < 2 ^ 8 by omega)
    rw [putWorkers_succ]
    by_cases hw : w = UInt8.ofNat n
    · subst hw
      rw [hlast, AList.lookup_insert, if_pos (Nat.lt_succ_self n)]
    · have hne : workerName w.toNat ≠ workerName n := by
        intro h
        rw [← hlast] at h
        exact hw (workerName_inj h)
      have hnat : w.toNat ≠ n := by
        rintro rfl
        exact hw UInt8.ofNat_toNat.symm
      rw [AList.lookup_insert_ne hne, lookup_putWorkers w (by omega)]
      exact if_congr (by omega) rfl rfl

/-- and no other. -/
theorem lookup_putWorkers_other {name : FileName} (hname : ∀ w : UInt8, name ≠ workerName w.toNat) :
    ∀ {n : ℕ}, n ≤ 256 → (putWorkers files n bytes).lookup name = files.lookup name
  | 0, _ => rfl
  | n + 1, hn => by
    have hlast : (UInt8.ofNat n).toNat = n := UInt8.toNat_ofNat_of_lt' (show n < 2 ^ 8 by omega)
    have hne := hname (UInt8.ofNat n)
    rw [hlast] at hne
    rw [putWorkers_succ, AList.lookup_insert_ne hne, lookup_putWorkers_other hname (by omega)]

theorem flush_same {db db' : AppendOnlyDb} (h : db.flush = .ok db') : db'.dir = db.dir ∧ db'.workerCount = db.workerCount := by
  unfold AppendOnlyDb.flush at h
  split at h
  · obtain rfl := Except.ok.inj h
    exact ⟨rfl, rfl⟩
  · simp [ioErr] at h

/-- **Closing a session**, by worker, is `close` of the handle. -/
theorem close_view {d d' : NamedDir} {db : AppendOnlyDb} (hdir : db.dir = d.view) (hn : db.workerCount ≤ 256)
    (h : d.close db = .ok d') : db.close = .ok d'.view ∧ (Canonical d.files → Canonical d'.files) ∧
      ∀ name, (∀ w : UInt8, name ≠ workerName w.toNat) → d'.files.lookup name = d.files.lookup name := by
  unfold NamedDir.close at h
  obtain ⟨db', hflush, h⟩ := bind_eq_ok.1 h
  obtain rfl := Except.ok.inj h
  obtain ⟨hdir', hn'⟩ := flush_same hflush
  rw [← hn'] at hn
  refine ⟨?_, fun hc => canonical_putWorkers hc hn, fun name hname => lookup_putWorkers_other hname hn⟩
  unfold AppendOnlyDb.close AppendOnlyDb.disk NamedDir.view
  rw [hflush, ok_bind, hdir', hdir]
  congr 2
  funext w
  have hw : (putWorkers d.files db'.workerCount fun w => (db'.blobFiles w).writer.file.bytes).lookup (workerName w.toNat) = _ :=
    lookup_putWorkers w hn
  exact hw.symm

end Session

/-! ## Purges -/

section Purge

variable {records : List ChunkRecord} {files files' : Files}

/-- What cutting the files of some workers does to each name. -/
structure Truncated (records : List ChunkRecord) (ws : List UInt8) (files files' : Files) : Prop where
  found : ∀ w ∈ ws, (files.lookup (workerName w.toNat)).isSome ∧ keepLen records w ≤ maxFileLen
  cut : ∀ w ∈ ws, files'.lookup (workerName w.toNat) =
    (files.lookup (workerName w.toNat)).map fun bytes => setLen bytes (keepLen records w)
  others : ∀ name, (∀ w ∈ ws, name ≠ workerName w.toNat) → files'.lookup name = files.lookup name
  canonical : Canonical files → Canonical files'

theorem truncateBlob_eq {w : UInt8} {bytes : Bytes} (hb : files.lookup (workerName w.toNat) = some bytes)
    (hmax : keepLen records w ≤ maxFileLen) : truncateBlob records files w =
      .ok (files.insert (workerName w.toNat) (setLen bytes (keepLen records w))) := by
  unfold truncateBlob
  rw [hb]
  exact if_neg (by omega)

theorem truncateBlob_inv {w : UInt8} (h : truncateBlob records files w = .ok files') :
    ∃ bytes, files.lookup (workerName w.toNat) = some bytes ∧ keepLen records w ≤ maxFileLen ∧
      files' = files.insert (workerName w.toNat) (setLen bytes (keepLen records w)) := by
  unfold truncateBlob at h
  split at h
  · simp [notFoundErr, ioErr] at h
  · rename_i bytes hb
    split at h
    · simp [ioErr] at h
    · rename_i hmax
      exact ⟨bytes, hb, by omega, (Except.ok.inj h).symm⟩

/-- **One cut**: its own name, and nothing else. -/
theorem lookup_cut {w w' : UInt8} {bytes : Bytes} (hb : files.lookup (workerName w.toNat) = some bytes) :
    (files.insert (workerName w.toNat) (setLen bytes (keepLen records w))).lookup (workerName w'.toNat) =
      if w' = w then (files.lookup (workerName w'.toNat)).map fun bytes => setLen bytes (keepLen records w')
      else files.lookup (workerName w'.toNat) := by
  by_cases h : w' = w
  · subst h
    rw [if_pos rfl, AList.lookup_insert, hb, Option.map_some]
  · rw [if_neg h, AList.lookup_insert_ne fun he => h (workerName_inj he)]

theorem truncateBlobs_inv : ∀ {ws : List UInt8} {files : Files}, ws.foldlM (truncateBlob records) files = .ok files' →
    Truncated records ws files files'
  | [], files, h => by
    obtain rfl := Except.ok.inj h
    exact ⟨by simp, by simp, fun _ _ => rfl, fun hc => hc⟩
  | w :: ws, files, h => by
    rw [List.foldlM_cons] at h
    obtain ⟨mid, hw, hrest⟩ := bind_eq_ok.1 h
    obtain ⟨bytes, hb, hmax, rfl⟩ := truncateBlob_inv hw
    have ht := truncateBlobs_inv hrest
    refine ⟨?_, ?_, ?_, fun hc => ht.canonical (hc.insert_worker w.toNat w.toNat_lt _)⟩
    · intro w' hmem
      rcases List.mem_cons.1 hmem with rfl | hmem
      · exact ⟨by rw [hb]; rfl, hmax⟩
      · obtain ⟨hsome, hle⟩ := ht.found w' hmem
        refine ⟨?_, hle⟩
        rw [lookup_cut hb] at hsome
        split at hsome
        · rwa [Option.isSome_map] at hsome
        · exact hsome
    · intro w' hmem
      by_cases hin : w' ∈ ws
      · -- a file cut twice is as if cut once
        rw [ht.cut w' hin, lookup_cut hb]
        split
        · rw [Option.map_map]
          exact congrArg (Option.map · _) (funext fun bytes => setLen_setLen bytes _)
        · rfl
      · obtain rfl : w' = w := (List.mem_cons.1 hmem).resolve_right hin
        have hne : ∀ w'' ∈ ws, workerName w'.toNat ≠ workerName w''.toNat := by
          rintro w'' hw'' he
          rw [workerName_inj he] at hin
          exact hin hw''
        rw [ht.others _ hne, lookup_cut hb, if_pos rfl]
    · intro name hname
      rw [ht.others name fun w' hw' => hname w' (List.mem_cons_of_mem _ hw'),
        AList.lookup_insert_ne (hname w List.mem_cons_self)]

/-- Workers whose files are all there can be cut. -/
theorem truncateBlobs_ok : ∀ {ws : List UInt8} {files : Files},
    (∀ w ∈ ws, (files.lookup (workerName w.toNat)).isSome ∧ keepLen records w ≤ maxFileLen) →
    ∃ files', ws.foldlM (truncateBlob records) files = .ok files'
  | [], files, _ => ⟨files, rfl⟩
  | w :: ws, files, h => by
    obtain ⟨hsome, hmax⟩ := h w List.mem_cons_self
    obtain ⟨bytes, hb⟩ := Option.isSome_iff_exists.1 hsome
    rw [List.foldlM_cons, truncateBlob_eq hb hmax, ok_bind]
    refine truncateBlobs_ok fun w' hmem => ?_
    obtain ⟨hsome', hmax'⟩ := h w' (List.mem_cons_of_mem _ hmem)
    refine ⟨?_, hmax'⟩
    rw [lookup_cut hb]
    split
    · rwa [Option.isSome_map]
    · exact hsome'

/-- One entry of the listing. -/
theorem lookup_cleanupEntry (e : FileEntry) (name : FileName) :
    (if unused records e.1 then files.erase e.1 else files).lookup name =
      if unused records name = true ∧ name = e.1 then none else files.lookup name := by
  by_cases he : name = e.1
  · subst he
    by_cases hu : unused records e.1 = true
    · rw [if_pos hu, if_pos ⟨hu, rfl⟩, AList.lookup_erase]
    · rw [if_neg hu, if_neg (show ¬ (_ ∧ e.1 = e.1) from fun h => hu h.1)]
  · rw [if_neg (show ¬ (_ ∧ name = e.1) from fun h => he h.2)]
    split
    · exact AList.lookup_erase_ne he
    · rfl

theorem lookup_cleanupEntries (name : FileName) : ∀ (entries : List FileEntry) (files : Files),
    (entries.foldl (fun fs e => if unused records e.1 then fs.erase e.1 else fs) files).lookup name =
      if unused records name = true ∧ name ∈ entries.map Sigma.fst then none else files.lookup name
  | [], files => by
    rw [if_neg (by simp)]
    rfl
  | e :: entries, files => by
    rw [List.foldl_cons, lookup_cleanupEntries name entries, lookup_cleanupEntry, ← ite_or]
    refine if_congr ?_ rfl rfl
    rw [List.map_cons, List.mem_cons, and_or_left, or_comm]

/-- **The removal**, over any listing of the directory. -/
theorem lookup_cleanup (ord : WalkOrder FileEntry) (name : FileName) :
    (cleanupUnusedBlobFiles ord files records).lookup name = if unused records name then none else files.lookup name := by
  unfold cleanupUnusedBlobFiles
  rw [lookup_cleanupEntries]
  by_cases hu : unused records name = true
  · rw [if_pos hu]
    split
    · rfl
    · rename_i hnot
      refine AList.lookup_eq_none.2 fun hmem => hnot ⟨hu, ?_⟩
      exact (((ord.perm _).map Sigma.fst).mem_iff).2 (AList.mem_keys.1 hmem)
  · rw [if_neg fun h => hu h.1, if_neg hu]

theorem canonical_cleanup (ord : WalkOrder FileEntry) (h : Canonical files) :
    Canonical (cleanupUnusedBlobFiles ord files records) := by
  intro name hname w hw
  refine h name ?_ w hw
  rw [← AList.lookup_isSome, lookup_cleanup] at hname
  split at hname
  · cases hname
  · exact AList.lookup_isSome.1 hname

theorem mem_cutWorkers {ord : WalkOrder UInt8} {w : UInt8} :
    w ∈ ord.walk (allWorkers.filter fun w => ¬ (blobRecords records w).isEmpty) ↔ ¬ (blobRecords records w).isEmpty := by
  rw [(ord.perm _).mem_iff, List.mem_filter, decide_eq_true_eq]
  exact and_iff_right (mem_allWorkers w)

/-- The sums that `truncate_blobs` computes fit 64 bits. -/
theorem bound_iff : ¬ records.any (fun r => r.kind != .zero && decide (2 ^ 64 ≤ endOf r)) = true ↔
    ∀ r ∈ records, r.kind ≠ .zero → endOf r < 2 ^ 64 := by
  rw [List.any_eq_true]
  constructor
  · intro h r hr hk
    by_contra hge
    refine h ⟨r, hr, ?_⟩
    rw [Bool.and_eq_true, decide_eq_true_eq]
    exact ⟨by simpa using hk, by omega⟩
  · rintro h ⟨r, hr, hbad⟩
    rw [Bool.and_eq_true, decide_eq_true_eq] at hbad
    have := h r hr (by simpa using hbad.1)
    omega

/-- **When the cuts succeed**, in whatever order the workers come. -/
theorem truncateBlobs_iff (ord : WalkOrder UInt8) : (∃ files', truncateBlobs ord files records = .ok files') ↔
    Purgeable records fun w => files.lookup (workerName w.toNat) := by
  unfold truncateBlobs
  constructor
  · rintro ⟨files', h⟩
    split at h
    · simp [panics] at h
    · rename_i hbound
      exact ⟨bound_iff.1 hbound, fun w hw => (truncateBlobs_inv h).found w (mem_cutWorkers.2 hw)⟩
  · rintro ⟨hbound, hcut⟩
    rw [if_neg (bound_iff.2 hbound)]
    exact truncateBlobs_ok fun w hw => hcut w (mem_cutWorkers.1 hw)

/-- A worker's file after the cuts and the removal, as the model by worker has it. -/
theorem lookup_purged {ordW : WalkOrder UInt8} {ordE : WalkOrder FileEntry} (h : truncateBlobs ordW files records = .ok files')
    (w : UInt8) : (cleanupUnusedBlobFiles ordE files' records).lookup (workerName w.toNat) =
      trimBlob records w (files.lookup (workerName w.toNat)) := by
  have hunused : unused records (workerName w.toNat) = true ↔ ¬ records.any fun r => r.workerId == w := by
    unfold unused
    rw [workerIdOf_workerName, decide_eq_true_eq]
  unfold truncateBlobs at h
  split at h
  · simp [panics] at h
  · have ht := truncateBlobs_inv h
    rw [lookup_cleanup]
    by_cases hany : ¬ records.any fun r => r.workerId == w
    · rw [if_pos (hunused.2 hany), trimBlob_remove hany]
    · rw [if_neg fun hu => hany (hunused.1 hu)]
      by_cases hne : ¬ (blobRecords records w).isEmpty
      · rw [ht.cut w (mem_cutWorkers.2 hne), trimBlob_truncate hne]
      · rw [ht.others _ fun w' hw' he => hne (by rw [workerName_inj he]; exact mem_cutWorkers.1 hw')]
        unfold trimBlob
        rw [if_neg hne, if_pos (not_not.1 hany)]

/-- Every other name. -/
theorem lookup_purged_other {ordW : WalkOrder UInt8} {ordE : WalkOrder FileEntry}
    (h : truncateBlobs ordW files records = .ok files') {name : FileName} (hname : ∀ w : UInt8, name ≠ workerName w.toNat) :
    (cleanupUnusedBlobFiles ordE files' records).lookup name = if unused records name then none else files.lookup name := by
  unfold truncateBlobs at h
  split at h
  · simp [panics] at h
  · rw [lookup_cleanup, (truncateBlobs_inv h).others name fun w _ => hname w]

theorem canonical_purged {ordW : WalkOrder UInt8} {ordE : WalkOrder FileEntry} (h : truncateBlobs ordW files records = .ok files')
    (hc : Canonical files) : Canonical (cleanupUnusedBlobFiles ordE files' records) := by
  unfold truncateBlobs at h
  split at h
  · simp [panics] at h
  · exact canonical_cleanup ordE ((truncateBlobs_inv h).canonical hc)

/-- The directory after a purge that drops something. -/
def purged (ordE : WalkOrder FileEntry) (d : NamedDir) (kept : List ChunkRecord) (files : Files) : NamedDir where
  log := d.log.map fun _ => logFile kept
  idx := d.idx.map fun _ => indexFile kept
  files := cleanupUnusedBlobFiles ordE files kept

theorem purged_view {ordW : WalkOrder UInt8} {ordE : WalkOrder FileEntry} {d : NamedDir}
    (h : truncateBlobs ordW d.files records = .ok files') : (purged ordE d records files').view = purgedDir d.view records := by
  unfold NamedDir.view purgedDir purged
  congr 1
  funext w
  exact lookup_purged h w

/-- **What a purge does**: nothing, when every record is at or below the threshold;
otherwise the cuts, the removal and the new files. -/
theorem purge_inv {ordW : WalkOrder UInt8} {ordE : WalkOrder FileEntry} {d d' : NamedDir} {t : UInt32} {n : ℕ}
    (h : d.purge ordW ordE t = .ok (d', n)) : ∃ rs, readRecords d.view = .ok rs ∧
      n = rs.length - (rs.filter fun r => snapshotOf r.key ≤ t).length ∧ (n = 0 ∧ d' = d ∨ n ≠ 0 ∧
        ∃ files', truncateBlobs ordW d.files (rs.filter fun r => snapshotOf r.key ≤ t) = .ok files' ∧
          d' = purged ordE d (rs.filter fun r => snapshotOf r.key ≤ t) files') := by
  unfold NamedDir.purge keptRecords at h
  obtain ⟨⟨kept, removed⟩, hkept, h⟩ := bind_eq_ok.1 h
  obtain ⟨rs, hread, hkept⟩ := bind_eq_ok.1 hkept
  obtain ⟨rfl, rfl⟩ := Prod.mk.inj (Except.ok.inj hkept)
  refine ⟨rs, hread, ?_⟩
  dsimp only at h
  split at h
  · rename_i hzero
    obtain ⟨rfl, rfl⟩ := Prod.mk.inj (Except.ok.inj h)
    exact ⟨hzero.symm, .inl ⟨rfl, rfl⟩⟩
  · rename_i hne
    obtain ⟨files', htrunc, h⟩ := bind_eq_ok.1 h
    obtain ⟨rfl, rfl⟩ := Prod.mk.inj (Except.ok.inj h)
    exact ⟨rfl, .inr ⟨hne, files', htrunc, rfl⟩⟩

theorem purge_nothing {ordW : WalkOrder UInt8} {ordE : WalkOrder FileEntry} {d : NamedDir} {t : UInt32} {rs : List ChunkRecord}
    (hread : readRecords d.view = .ok rs) (h0 : rs.length - (rs.filter fun r => snapshotOf r.key ≤ t).length = 0) :
    d.purge ordW ordE t = .ok (d, 0) := by
  unfold NamedDir.purge keptRecords
  rw [hread, ok_bind, ok_bind]
  exact if_pos h0

theorem purge_something {ordW : WalkOrder UInt8} {ordE : WalkOrder FileEntry} {d : NamedDir} {t : UInt32} {rs : List ChunkRecord}
    (hread : readRecords d.view = .ok rs) (hne : rs.length - (rs.filter fun r => snapshotOf r.key ≤ t).length ≠ 0)
    (htrunc : truncateBlobs ordW d.files (rs.filter fun r => snapshotOf r.key ≤ t) = .ok files') : d.purge ordW ordE t =
      .ok (purged ordE d (rs.filter fun r => snapshotOf r.key ≤ t) files',
        rs.length - (rs.filter fun r => snapshotOf r.key ≤ t).length) := by
  unfold NamedDir.purge keptRecords
  rw [hread, ok_bind, ok_bind]
  dsimp only
  rw [if_neg hne, htrunc]
  rfl

end Purge

end NamedDir

/-! ## The whole directory -/

/-- A purge that returns Ok has read the records. -/
theorem readRecords_of_purge {ord : WalkOrder FileStep} {dir dir' : Dir} {t : UInt32} {n : ℕ}
    (h : purge ord dir t = .ok (dir', n)) : ∃ rs, readRecords dir = .ok rs := by
  unfold Bxdb.purge purgePlan keptRecords at h
  obtain ⟨_, h, -⟩ := bind_eq_ok.1 h
  obtain ⟨_, h, -⟩ := bind_eq_ok.1 h
  obtain ⟨rs, hread, -⟩ := bind_eq_ok.1 h
  exact ⟨rs, hread⟩

open NamedDir

/-- **Purge, file by file.** It does what purge by worker does, in whatever order the workers
and the directory are walked. Of the files under other names it removes those that read as a
worker no kept record names, and changes none. -/
theorem purge_names (ord : WalkOrder FileStep) (ordW : WalkOrder UInt8) (ordE : WalkOrder FileEntry) (d : NamedDir) (t : UInt32) :
    (∀ dir' n, Bxdb.purge ord d.view t = .ok (dir', n) ↔ ∃ d', d.purge ordW ordE t = .ok (d', n) ∧ d'.view = dir') ∧
    ∀ d' n, d.purge ordW ordE t = .ok (d', n) → ∃ kept, keptRecords d.view t = .ok (kept, n) ∧
      ∀ name, (∀ w : UInt8, name ≠ workerName w.toNat) →
        d'.files.lookup name = if n ≠ 0 ∧ unused kept name = true then none else d.files.lookup name := by
  -- the purge by worker, the purge by name, and the names that are no worker's
  refine ⟨fun dir' n => ⟨fun h => ?_, ?_⟩, fun d' n h => ?_⟩
  · obtain ⟨rs, hread⟩ := readRecords_of_purge h
    obtain ⟨hn, hcase⟩ := (purge_iff hread rfl).1 h
    rcases hcase with ⟨h0, rfl⟩ | ⟨hne, hp, rfl⟩
    · subst h0
      exact ⟨d, purge_nothing hread hn.symm, rfl⟩
    · obtain ⟨files', htrunc⟩ := (truncateBlobs_iff ordW).2 hp
      subst hn
      exact ⟨_, purge_something hread hne htrunc, purged_view htrunc⟩
  · rintro ⟨d', h, rfl⟩
    obtain ⟨rs, hread, hn, hcase⟩ := purge_inv h
    refine (purge_iff hread rfl).2 ⟨hn, ?_⟩
    rcases hcase with ⟨h0, rfl⟩ | ⟨hne, files', htrunc, rfl⟩
    · exact .inl ⟨h0, rfl⟩
    · exact .inr ⟨hne, (truncateBlobs_iff ordW).1 ⟨files', htrunc⟩, purged_view htrunc⟩
  · obtain ⟨rs, hread, hn, hcase⟩ := purge_inv h
    refine ⟨rs.filter fun r => snapshotOf r.key ≤ t, ?_, fun name hname => ?_⟩
    · unfold keptRecords
      rw [hread, ok_bind, hn]
    · rcases hcase with ⟨h0, rfl⟩ | ⟨hne, files', htrunc, rfl⟩
      · rw [if_neg fun hu => hu.1 h0]
      · refine (lookup_purged_other htrunc hname).trans (if_congr ?_ rfl rfl)
        exact (and_iff_right hne).symm

variable {z : Zstd} {es : List Command} {others : FileName → Option Bytes} {d d' : NamedDir}

/-- What holds of a directory after every command. -/
structure NamedOk (z : Zstd) (es : List Command) (others : FileName → Option Bytes) (d : NamedDir) : Prop where
  life : Lifecycle z es d.view
  canonical : Canonical d.files
  kept : ∀ name, workerIdOf name = none → d.files.lookup name = others name

/-- A session keeps the directory it was opened on. -/
theorem saves_setup {dir : Dir} {n : ℕ} {t : UInt16} {u : Bool} {db db' : AppendOnlyDb} {cs : List SaveCall}
    (h : Lifecycle z es dir) (hopen : AppendOnlyDb.open dir n t u = .ok db) (hs : Saves z db cs db')
    (hrange : ∀ c ∈ cs, c.InRange) : db'.dir = dir ∧ db'.workerCount ≤ 256 := by
  have hhandle : ∃ vs, HandleOk z vs db ∧ ShadowBacked vs db.shadow := by
    rcases lifecycle_ok h with ⟨-, rfl⟩ | ⟨seen, later, hok⟩
    · exact ⟨[], open_empty rfl (by simp [Dir.empty]) hopen⟩
    · exact ⟨_, open_ok hok.dirOk hopen⟩
  obtain ⟨vs, hok, hbacked⟩ := hhandle
  obtain ⟨new, hnew⟩ := saves_ok hok hbacked hs hrange
  obtain ⟨-, hmax, log, last, -, hdir, hn, -⟩ := open_inv hopen
  exact ⟨hnew.setup.dir.trans hdir, by rw [hnew.setup.workerCount, hn]; omega⟩

theorem NamedOk.session {n : ℕ} {t : UInt16} {u : Bool} {db db' : AppendOnlyDb} {cs : List SaveCall}
    (h : NamedOk z es others d) (hopen : AppendOnlyDb.open d.view n t u = .ok db) (hs : Saves z db cs db')
    (hclose : d.close db' = .ok d') (hrange : ∀ c ∈ cs, c.InRange) : NamedOk z (es ++ [.session cs]) others d' := by
  obtain ⟨hdir, hn⟩ := saves_setup h.life hopen hs hrange
  obtain ⟨hview, hcanonical, hothers⟩ := close_view hdir hn hclose
  refine ⟨.session h.life (.mk hopen hs hview) hrange, hcanonical h.canonical, fun name hname => ?_⟩
  rw [hothers name (workerName_ne hname)]
  exact h.kept name hname

/-- A purge, which removes no file whose name does not read as a worker. -/
theorem NamedOk.purge {ordW : WalkOrder UInt8} {ordE : WalkOrder FileEntry} {t : UInt32} {n : ℕ}
    (h : NamedOk z es others d) (hp : d.purge ordW ordE t = .ok (d', n)) : NamedOk z (es ++ [.purge t]) others d' := by
  obtain ⟨rs, hread, hn, hcase⟩ := purge_inv hp
  rcases hcase with ⟨h0, rfl⟩ | ⟨hne, files', htrunc, rfl⟩
  · have hview : Bxdb.purge (WalkOrder.id _) d'.view t = .ok (d'.view, n) := (purge_iff hread rfl).2 ⟨hn, .inl ⟨h0, rfl⟩⟩
    exact ⟨.purge h.life hview, h.canonical, h.kept⟩
  · have hview : Bxdb.purge (WalkOrder.id _) d.view t = .ok ((purged ordE d _ files').view, n) :=
      (purge_iff hread rfl).2 ⟨hn, .inr ⟨hne, (truncateBlobs_iff ordW).1 ⟨files', htrunc⟩, purged_view htrunc⟩⟩
    refine ⟨.purge h.life hview, canonical_purged htrunc h.canonical, fun name hname => ?_⟩
    have hkept : (NamedDir.cleanupUnusedBlobFiles ordE files' _).lookup name = _ := lookup_purged_other htrunc (workerName_ne hname)
    have hunused : ∀ kept, unused kept name = false := fun kept => by
      unfold unused
      rw [hname]
    rw [hunused, if_neg Bool.false_ne_true] at hkept
    exact hkept.trans (h.kept name hname)

theorem namedLife_ok (h : NamedLife z es others d) : NamedOk z es others d := by
  induction h with
  | empty => exact ⟨.empty, fun name hname => absurd hname (AList.notMem_empty name), fun _ _ => rfl⟩
  | session _ hopen hsaves hclose hrange ih => exact ih.session hopen hsaves hclose hrange
  | toBtree _ hc ih =>
    obtain ⟨dir, hdir, hc⟩ := bind_eq_ok.1 hc
    obtain rfl := Except.ok.inj hc
    obtain ⟨log, rs, -, -, -, -, rfl⟩ := toBtree_inv hdir
    exact ⟨.toBtree ih.life hdir, ih.canonical, ih.kept⟩
  | @toLog es others d d' _ hc ih =>
    obtain ⟨dir, hdir, hc⟩ := bind_eq_ok.1 hc
    obtain rfl := Except.ok.inj hc
    -- `to_log` writes `chunks.log` only, so the files stay as they are
    have hsame : dir.idx = d.idx ∧ dir.blobs = d.view.blobs := by
      unfold Bxdb.toLog at hdir
      split at hdir
      · simp [notFoundErr, ioErr] at hdir
      · obtain ⟨⟨_, body⟩, -, hdir⟩ := bind_eq_ok.1 hdir
        obtain ⟨rs, -, hdir⟩ := bind_eq_ok.1 hdir
        obtain rfl := Except.ok.inj hdir
        exact ⟨rfl, rfl⟩
    have hview : NamedDir.view { d with log := dir.log } = dir := by
      obtain ⟨log, idx, blobs⟩ := dir
      obtain ⟨rfl, rfl⟩ := hsame
      rfl
    refine ⟨?_, ih.canonical, ih.kept⟩
    rw [hview]
    exact .toLog ih.life hdir
  | purge _ hp ih => exact ih.purge hp
  | @otherPut es others d name bytes _ hname ih =>
    -- no worker's file has this name
    have hview : NamedDir.view { d with files := d.files.insert name bytes } = d.view := by
      unfold NamedDir.view
      congr 1
      funext w
      exact AList.lookup_insert_ne fun h => workerName_ne hname w h.symm
    refine ⟨by rw [hview]; exact ih.life, ih.canonical.insert_other hname bytes, fun name' hname' => ?_⟩
    rw [Function.update_apply]
    split
    · rename_i heq
      rw [heq]
      exact AList.lookup_insert _
    · rename_i hne
      exact (AList.lookup_insert_ne hne).trans (ih.kept name' hname')
  | @otherRemove es others d name _ hname ih =>
    have hview : NamedDir.view { d with files := d.files.erase name } = d.view := by
      unfold NamedDir.view
      congr 1
      funext w
      exact AList.lookup_erase_ne fun h => workerName_ne hname w h.symm
    refine ⟨by rw [hview]; exact ih.life, ih.canonical.erase name, fun name' hname' => ?_⟩
    rw [Function.update_apply]
    split
    · rename_i heq
      rw [heq]
      exact AList.lookup_erase _ _
    · rename_i hne
      exact (AList.lookup_erase_ne hne).trans (ih.kept name' hname')

/-- A session by worker is a session on the named files. -/
theorem NamedLife.session_of {cs : List SaveCall} {dir' : Dir} (h : NamedLife z es others d) (hs : Session z d.view cs dir')
    (hrange : ∀ c ∈ cs, c.InRange) : ∃ d', NamedLife z (es ++ [.session cs]) others d' ∧ d'.view = dir' := by
  cases hs with
  | mk hopen hsaves hclose =>
    obtain ⟨db'', hflush, -⟩ := bind_eq_ok.1 hclose
    obtain ⟨d', hd'⟩ : ∃ d', d.close _ = .ok d' := ⟨_, by unfold NamedDir.close; rw [hflush, ok_bind]⟩
    obtain ⟨hdir, hn⟩ := saves_setup (namedLife_ok h).life hopen hsaves hrange
    obtain ⟨hview, -, -⟩ := close_view hdir hn hd'
    rw [hclose] at hview
    exact ⟨d', .session h hopen hsaves hd' hrange, (Except.ok.inj hview).symm⟩

/-- **A directory that other programs keep files of their own in.** The commands do to the
worker files what they do in the model by worker; the readers and `check` find exactly these
files, in whatever order the directory is listed; and nobody else's file is touched. -/
theorem namedLife_refines (h : NamedLife z es others d) : Lifecycle z es d.view ∧
    (∀ entries, entries.Perm d.files.entries → ∀ w, (BlobReaders.new entries).mmap w = d.view.blobs w ∧
      blobSizes entries w = (d.view.blobs w).map List.length) ∧
    ∀ name, workerIdOf name = none → d.files.lookup name = others name := by
  have hok := namedLife_ok h
  refine ⟨hok.life, fun entries hp w => ?_, hok.kept⟩
  have hmmap := hok.canonical.mmap hp w
  refine ⟨hmmap, ?_⟩
  rw [blobSizes_eq, hmmap]
  rfl

/-- Three saves beside a file of notes, listed from the end. -/
theorem namedLife_refines_notes : ∃ d : NamedDir, Lifecycle Zstd.raw [.session threeSaves] d.view ∧
    (∀ w, (BlobReaders.new d.files.entries.reverse).mmap w = d.view.blobs w) ∧
    d.files.lookup "notes".toList = some [1, 2, 3] := by
  obtain ⟨dir, hs, -, -⟩ := threeSaves_session
  obtain ⟨d, hd, -⟩ := NamedLife.session_of (d := NamedDir.empty) .empty hs (onePages_inRange _)
  have hnotes : NamedLife Zstd.raw _ _ { d with files := d.files.insert "notes".toList [1, 2, 3] } := .otherPut hd (by decide)
  obtain ⟨hlife, hlist, hothers⟩ := namedLife_refines hnotes
  refine ⟨_, hlife, fun w => (hlist _ (List.reverse_perm _) w).1, ?_⟩
  rw [hothers _ (by decide), Function.update_self]

end Bxdb
