import Bxdb.Proof.Check
import Bxdb.Proof.Load
import Bxdb.Spec.RawFrame

/-!
# Where a clean check promises too much

Check and reader look at the same records in different ways: the reader keeps the first
record of a key, check's table of bases the last, and check passes over empty ranges.

* `resolve_iff`: after a clean check, a record resolves exactly when it is `Readable`.
* `check_sound_iff`: **after a clean check every load succeeds exactly when every record
  the reader keeps is readable.**
-/

namespace Bxdb

open Bytes SortedIndex Versioned ChunkRecord

/-- Both capacities tell pages from other content alike. -/
def Zstd.Agree (z : Zstd) : Prop :=
  ∀ blob, (∃ out, z.decompress (pageSize + 1) blob = some out ∧ out.length = pageSize) ↔
    ∃ out, z.decompress pageSize blob = some out ∧ out.length = pageSize

/-- No bytes are no page: without a frame the library writes nothing or fails. -/
def Zstd.RejectsEmpty (z : Zstd) : Prop := ∀ cap out, z.decompress cap [] = some out → out.length ≠ pageSize

/-- The record the reader keeps of a key: the first. -/
def FirstOf (records : List ChunkRecord) (rec : ChunkRecord) : Prop :=
  records.find? (fun r => r.key == rec.key) = some rec

/-- **What the reader needs beyond a clean check.** -/
structure Readable (blobs : UInt8 → Option Bytes) (records : List ChunkRecord) (rec : ChunkRecord) : Prop where
  full : rec.kind = .full → rec.len ≠ 0
  empty : rec.kind = .delta → rec.len = 0 → ∀ bs, blobs rec.workerId = some bs → rec.offset.toNat ≤ bs.length
  base : rec.kind = .delta → ∃ base, FirstOf records base ∧ base.key = rec.baseKey ∧ base.kind = .full

section Sound

variable {z : Zstd} {records : List ChunkRecord} {rec : ChunkRecord} {store : PageStore} {bs : Bytes}

theorem mem_index_firstOf : rec ∈ index recordKey records ↔ FirstOf records rec := by
  have hkey : (fun r : ChunkRecord => decide (recordKey r = recordKey rec)) = fun r => r.key == rec.key := by
    funext r
    rw [beq_eq_decide, decide_eq_decide]
    exact UInt64.toNat_inj
  rw [mem_index, hkey]
  rfl

/-- Looking a key up finds the first record with it. -/
theorem exactSorted_index {k : UInt64} {base : ChunkRecord} :
    exactSorted (index recordKey records) k = some base ↔ FirstOf records base ∧ base.key = k := by
  constructor
  · intro h
    obtain ⟨hmem, hk⟩ := exactSorted_some h
    exact ⟨mem_index_firstOf.1 hmem, hk⟩
  · rintro ⟨hfirst, rfl⟩
    exact exactSorted_mem (index_strict recordKey records) (mem_index_firstOf.2 hfirst)

/-! ## One record -/

theorem blobOf_empty (h0 : rec.len = 0) : blobOf bs rec = if rec.offset.toNat ≤ bs.length then some [] else none := by
  have hlen : rec.len.toNat = 0 := by rw [h0]; rfl
  unfold blobOf range?
  rw [hlen, Nat.add_zero, slice_self]
  simp

/-- **A clean Full record** is decompressed exactly when it is not empty. -/
theorem decompress_iff (hagree : z.Agree) (hempty : z.RejectsEmpty) (hb : store.blobs rec.workerId = some bs)
    (hc : FullClean z bs rec) : (∃ page, store.decompressBlobInto z rec = .ok page) ↔ rec.len ≠ 0 := by
  unfold PageStore.decompressBlobInto
  rw [blobMmap_of_some hb, ok_bind]
  dsimp only
  constructor
  · rintro ⟨page, h⟩ h0
    split at h
    · simp [ioErr] at h
    · have hblob : range? bs rec.offset.toNat (rec.offset.toNat + rec.len.toNat) = _ := blobOf_empty h0
      rw [hblob] at h
      split at h
      · simp [ioErr] at h
      · rename_i blob heq
        have hnil : blob = [] := by
          split at heq
          · exact (Option.some.inj heq).symm
          · simp at heq
        rw [hnil] at h
        split at h
        · simp [ioErr] at h
        · rename_i out hout
          split at h
          · rename_i hlen
            exact hempty _ _ hout hlen
          · simp [ioErr] at h
  · intro h0
    obtain ⟨blob, out, hr, hout, hlen⟩ := hc.resolve_left h0
    obtain ⟨out', hout', hlen'⟩ := (hagree blob).1 ⟨out, hout, hlen⟩
    have hblob : range? bs rec.offset.toNat (rec.offset.toNat + rec.len.toNat) = some blob := hr.blob
    rw [if_neg (not_le.2 hr.bound), hblob]
    dsimp only
    rw [hout']
    dsimp only
    rw [dif_pos hlen']
    exact ⟨_, rfl⟩

/-- **The patch of a clean Delta record** is read, and can be applied, when it is not an
empty one past the end of its file. -/
theorem deltaBlob_clean (hb : store.blobs rec.workerId = some bs) (hc : DeltaClean bs rec)
    (hle : rec.len = 0 → rec.offset.toNat ≤ bs.length) :
    ∃ blob, store.deltaBlob rec = .ok blob ∧ blob.length % 10 = 0 ∧ IndicesClean blob := by
  unfold PageStore.deltaBlob
  rw [blobMmap_of_some hb, ok_bind]
  dsimp only
  by_cases h0 : rec.len = 0
  · have hlen : rec.len.toNat = 0 := by rw [h0]; rfl
    have hoff := rec.offset.toNat_lt
    have hblob : range? bs rec.offset.toNat (rec.offset.toNat + rec.len.toNat) = some [] :=
      (blobOf_empty h0).trans (if_pos (hle h0))
    rw [hblob, if_neg (by omega)]
    refine ⟨[], rfl, rfl, ?_⟩
    unfold IndicesClean
    rw [chunksExact_nil]
    simp
  · obtain ⟨blob, hr, hten, hidx⟩ := hc.resolve_left h0
    have hblob : range? bs rec.offset.toNat (rec.offset.toNat + rec.len.toNat) = some blob := hr.blob
    rw [if_neg (not_le.2 hr.bound), hblob]
    refine ⟨blob, rfl, ?_, hidx⟩
    rw [length_of_range? hblob, Nat.add_sub_cancel_left]
    exact hten

theorem deltaBlob_empty (hb : store.blobs rec.workerId = some bs) {blob : Bytes} (h : store.deltaBlob rec = .ok blob)
    (h0 : rec.len = 0) : rec.offset.toNat ≤ bs.length := by
  have hblob : range? bs rec.offset.toNat (rec.offset.toNat + rec.len.toNat) = _ := blobOf_empty h0
  unfold PageStore.deltaBlob at h
  rw [blobMmap_of_some hb, ok_bind] at h
  dsimp only at h
  rw [hblob] at h
  by_contra hle
  rw [if_neg hle] at h
  split at h
  · simp [panics] at h
  · simp [ioErr] at h

theorem applyEntry_ok {chunk : Bytes} (h : (fromLe16 (chunk.take 2)).toNat < pageWords) (out : Page) :
    ∃ page, applyEntry out chunk = .ok page := by
  unfold applyEntry
  dsimp only
  rw [dif_pos h]
  exact ⟨_, rfl⟩

/-- **A patch with every index inside a page** can be applied to any page. -/
theorem applyPatch_ok {blob : Bytes} (hten : blob.length % 10 = 0) (hidx : IndicesClean blob) (out : Page) :
    ∃ page, applyDeltaPatchInPlace blob out = .ok page := by
  have hfold : ∀ (cs : List Bytes), (∀ c ∈ cs, (fromLe16 (c.take 2)).toNat < pageWords) → ∀ out : Page,
      ∃ page, cs.foldlM applyEntry out = (.ok page : Res Page) := by
    intro cs
    induction cs with
    | nil => intro _ out; exact ⟨out, rfl⟩
    | cons c cs ih =>
      intro hcs out
      obtain ⟨out', hout'⟩ := applyEntry_ok (hcs c List.mem_cons_self) out
      obtain ⟨page, hpage⟩ := ih (fun c' hc' => hcs c' (List.mem_cons_of_mem _ hc')) out'
      refine ⟨page, ?_⟩
      rw [List.foldlM_cons, hout', ok_bind, hpage]
  unfold applyDeltaPatchInPlace applyDeltaXor
  rw [if_neg (by omega)]
  exact hfold _ hidx out

/-! ## Every record -/

variable (hagree : z.Agree) (hempty : z.RejectsEmpty)
  (hexact : ∀ k, store.exactLookup k = .ok (exactSorted (index recordKey records) k))
  (hclean : ∀ rec ∈ records, RecordClean z store.blobs rec)

theorem FirstOf.mem (h : FirstOf records rec) : rec ∈ records := List.mem_of_find?_eq_some h

include hagree hempty hexact hclean in
/-- **A Delta's base is loaded** exactly when the first record of its key is a Full one
that is not empty. -/
theorem loadFull_iff {k : UInt64} : (∃ page, store.loadFull z k = .ok page) ↔
    ∃ base, FirstOf records base ∧ base.key = k ∧ base.kind = .full ∧ base.len ≠ 0 := by
  unfold PageStore.loadFull
  rw [hexact, ok_bind]
  constructor
  · rintro ⟨page, h⟩
    split at h
    · simp [ioErr] at h
    · rename_i base hbase
      obtain ⟨hfirst, hk⟩ := exactSorted_index.1 hbase
      split at h
      · simp [ioErr] at h
      · rename_i hfull
        obtain ⟨bs, hb, hf, -⟩ := hclean base hfirst.mem
        exact ⟨base, hfirst, hk, not_not.1 hfull,
          (decompress_iff hagree hempty hb (hf (not_not.1 hfull))).1 ⟨page, h⟩⟩
  · rintro ⟨base, hfirst, hk, hfull, hlen⟩
    obtain ⟨bs, hb, hf, -⟩ := hclean base hfirst.mem
    rw [exactSorted_index.2 ⟨hfirst, hk⟩]
    dsimp only
    rw [if_neg (not_not.2 hfull)]
    exact (decompress_iff hagree hempty hb (hf hfull)).2 hlen

include hagree hempty hexact hclean in
/-- **After a clean check** the records the reader keeps resolve exactly when they are
readable. -/
theorem resolve_iff : (∀ rec, FirstOf records rec → ∃ page, store.resolveUncached z rec = .ok page) ↔
    ∀ rec, FirstOf records rec → Readable store.blobs records rec := by
  constructor
  · intro h rec hfirst
    obtain ⟨page, hpage⟩ := h rec hfirst
    obtain ⟨bs, hb, hf, hd⟩ := hclean rec hfirst.mem
    unfold PageStore.resolveUncached at hpage
    refine ⟨fun hk => ?_, fun hk h0 bs' hb' => ?_, fun hk => ?_⟩
    · rw [hk] at hpage
      exact (decompress_iff hagree hempty hb (hf hk)).1 ⟨page, hpage⟩
    · rw [hk] at hpage
      obtain ⟨base, -, hpage⟩ := bind_eq_ok.1 hpage
      obtain ⟨blob, hblob, -⟩ := bind_eq_ok.1 hpage
      exact deltaBlob_empty hb' hblob h0
    · rw [hk] at hpage
      obtain ⟨base, hbase, -⟩ := bind_eq_ok.1 hpage
      obtain ⟨b, hb, hkey, hfull, -⟩ := (loadFull_iff hagree hempty hexact hclean).1 ⟨base, hbase⟩
      exact ⟨b, hb, hkey, hfull⟩
  · intro h rec hfirst
    have hread := h rec hfirst
    obtain ⟨bs, hb, hf, hd⟩ := hclean rec hfirst.mem
    unfold PageStore.resolveUncached
    cases hk : rec.kind with
    | zero => exact ⟨_, rfl⟩
    | full => exact (decompress_iff hagree hempty hb (hf hk)).2 (hread.full hk)
    | delta =>
      -- the base is a record the reader keeps, so it is readable too
      obtain ⟨base, hbase, hkey, hfull⟩ := hread.base hk
      obtain ⟨page, hpage⟩ := (loadFull_iff hagree hempty hexact hclean).2
        ⟨base, hbase, hkey, hfull, (h base hbase).full hfull⟩
      obtain ⟨blob, hblob, hten, hidx⟩ := deltaBlob_clean hb (hd hk) fun h0 => hread.empty hk h0 bs hb
      obtain ⟨out, hout⟩ := applyPatch_ok hten hidx page
      refine ⟨out, ?_⟩
      dsimp only
      rw [hpage, ok_bind, hblob, ok_bind, hout]

end Sound

/-! ## Every load -/

section Loads

variable {z : Zstd} {dir : Dir}

/-- A check that returns has read the whole log. -/
theorem check_reads {report : CheckReport} (h : check z dir = .ok report) : ∃ log m body records, dir.log = some log ∧
    readAndVerifyHeader log magicLog = .ok (m, body) ∧ ChunkRecord.scan body = .ok records := by
  unfold check at h
  cases hl : dir.log with
  | none => rw [hl] at h; simp [ioErr] at h
  | some log =>
    rw [hl] at h
    dsimp only at h
    obtain ⟨⟨m, body⟩, hheader, h⟩ := bind_eq_ok.1 h
    obtain ⟨records, hscan, -⟩ := bind_eq_ok.1 h
    exact ⟨log, m, body, records, rfl, hheader, hscan⟩

/-- A record of the sorted list is found at its own address and snapshot. -/
theorem floorSorted_own {records : List ChunkRecord} {rec : ChunkRecord} (hmem : rec ∈ index recordKey records) :
    floorSorted (index recordKey records) (encodeKey (paOf rec.key) (snapshotOf rec.key)) (paOf rec.key) = some rec := by
  have hasOf := floorSorted_asOf (index_strict recordKey records) (paOf rec.key) (snapshotOf_le rec.key)
  cases hf : floorSorted (index recordKey records) (encodeKey (paOf rec.key) (snapshotOf rec.key)) (paOf rec.key) with
  | none =>
    rw [hf] at hasOf
    exact absurd (le_refl _) (asOf_none.1 hasOf _ rec ⟨hmem, rfl, rfl⟩)
  | some rec' =>
    rw [hf] at hasOf
    obtain ⟨u, ⟨hmem', hpa', hsnap'⟩, hle, hmax⟩ := asOf_some.1 hasOf
    have hge := hmax _ rec ⟨hmem, rfl, rfl⟩ (le_refl _)
    have hkey : recordKey rec' = recordKey rec := by
      rw [recordKey_eq, recordKey_eq, hpa']
      omega
    rw [SortedIndex.eq_of_key_eq (index_strict recordKey records) hmem' hmem hkey]

/-- What a floor query over these records finds, as the store resolves it. -/
def floorPage (z : Zstd) (store : PageStore) (records : List ChunkRecord) (pa : UInt64) (s : UInt32) :
    Res (Option Page) :=
  match floorSorted (index recordKey records) (encodeKey pa s) pa with
  | none => .ok none
  | some rec => do
    let page ← store.resolveUncached z rec
    .ok (some page)

/-- A load is a floor query over the records the store looks up. -/
theorem loadPage_eq_floorPage {store : PageStore} {records : List ChunkRecord} (hopen : PageStore.open dir = .ok store)
    (hfloor : ∀ pa s, store.floor pa s = .ok (floorSorted (index recordKey records) (encodeKey pa s) pa))
    (pa : UInt64) {s : UInt32} (hs : s ≤ maxSnapshotId) : loadPage z dir pa s = floorPage z store records pa s := by
  unfold loadPage PageStore.loadPage
  rw [hopen, ok_bind, if_neg (UInt32.not_lt.2 hs), hfloor]
  rfl

/-- **Every load succeeds** exactly when every record the reader keeps resolves. -/
theorem loads_iff {store : PageStore} {records : List ChunkRecord} (hopen : PageStore.open dir = .ok store)
    (hfloor : ∀ pa s, store.floor pa s = .ok (floorSorted (index recordKey records) (encodeKey pa s) pa)) :
    (∀ (pa : UInt64) (s : UInt32), s ≤ maxSnapshotId → ∃ r, loadPage z dir pa s = .ok r) ↔
      ∀ rec, FirstOf records rec → ∃ page, store.resolveUncached z rec = .ok page := by
  constructor
  · intro h rec hfirst
    -- the record's own address and snapshot find it
    have hs := snapshotOf_le rec.key
    obtain ⟨r, hr⟩ := h (paOf rec.key) (snapshotOf rec.key) hs
    rw [loadPage_eq_floorPage hopen hfloor _ hs, floorPage, floorSorted_own (mem_index_firstOf.2 hfirst)] at hr
    obtain ⟨page, hpage, -⟩ := bind_eq_ok.1 hr
    exact ⟨page, hpage⟩
  · intro h pa s hs
    rw [loadPage_eq_floorPage hopen hfloor pa hs, floorPage]
    have hasOf := floorSorted_asOf (index_strict recordKey records) pa hs
    cases hf : floorSorted (index recordKey records) (encodeKey pa s) pa with
    | none => exact ⟨none, rfl⟩
    | some rec =>
      rw [hf] at hasOf
      obtain ⟨u, ⟨hmem, -⟩, -⟩ := asOf_some.1 hasOf
      obtain ⟨page, hpage⟩ := h rec (mem_index_firstOf.1 hmem)
      dsimp only
      rw [hpage, ok_bind]
      exact ⟨_, rfl⟩

/-- **When a clean check keeps its promise**: every load of the directory succeeds exactly
when every record the reader keeps is readable. -/
theorem check_sound_iff (hagree : z.Agree) (hempty : z.RejectsEmpty) {report : CheckReport} (hidx : dir.idx = none)
    (hc : check z dir = .ok report) (he : report.errors = []) :
    ∃ log m body records, dir.log = some log ∧ readAndVerifyHeader log magicLog = .ok (m, body) ∧
      ChunkRecord.scan body = .ok records ∧
      ((∀ (pa : UInt64) (s : UInt32), s ≤ maxSnapshotId → ∃ r, loadPage z dir pa s = .ok r) ↔
        ∀ rec, FirstOf records rec → Readable dir.blobs records rec) := by
  obtain ⟨log, m, body, records, hl, hheader, hscan⟩ := check_reads hc
  obtain ⟨hclean, -⟩ := (check_clean_iff hl hheader hscan).1 ⟨report, hc, he⟩
  refine ⟨log, m, body, records, hl, hheader, hscan, ?_⟩
  have hbuild := lazyIndex_scan hheader hscan
  have hopen : PageStore.open dir = .ok ⟨.appendOnly log, dir.blobs⟩ := by
    unfold PageStore.open verifyLogHeader
    rw [hidx, hl]
    dsimp only
    rw [hheader, ok_bind]
    rfl
  -- both look-ups go through the index built from the log
  have hfloor : ∀ pa s, PageStore.floor ⟨.appendOnly log, dir.blobs⟩ pa s =
      .ok (floorSorted (index recordKey records) (encodeKey pa s) pa) := by
    intro pa s
    unfold PageStore.floor
    dsimp only
    rw [hbuild, ok_bind]
  have hexact : ∀ k, PageStore.exactLookup ⟨.appendOnly log, dir.blobs⟩ k =
      .ok (exactSorted (index recordKey records) k) := by
    intro k
    unfold PageStore.exactLookup
    dsimp only
    rw [hbuild, ok_bind]
  exact (loads_iff hopen hfloor).trans (resolve_iff hagree hempty hexact hclean)

end Loads

/-! ## A Full record without bytes -/

/-- A log with one Full record of length 0, and an empty worker file. -/
def emptyFullDir : Dir where
  log := some (writeLogHeader 0 ++ ChunkRecord.writeTo (newFull 0 0 0 0))
  idx := none
  blobs w := if w = 0 then some [] else none

/-- The library on pages without redundancy. Of no input it makes no output. -/
def Zstd.rawOrEmpty : Zstd where
  compress := Zstd.raw.compress
  decompress cap frame := if frame = [] then some [] else Zstd.raw.decompress cap frame

theorem emptyFull_check : ∃ report, check Zstd.rawOrEmpty emptyFullDir = .ok report ∧ report.errors = [] := ⟨_, rfl, rfl⟩

/-- Check has nothing to say about it, and its page cannot be loaded. -/
theorem check_unsound : (∃ report, check Zstd.rawOrEmpty emptyFullDir = .ok report ∧ report.errors = []) ∧
    loadPage Zstd.rawOrEmpty emptyFullDir 0 0 = .error (.err ⟨.invalidData, "decompressed size != 4096"⟩) :=
  ⟨emptyFull_check, rfl⟩

theorem rawOrEmpty_agree : Zstd.rawOrEmpty.Agree := by
  intro blob
  unfold Zstd.rawOrEmpty
  dsimp only
  split
  · exact Iff.rfl
  · unfold Zstd.raw
    simp

theorem rawOrEmpty_rejectsEmpty : Zstd.rawOrEmpty.RejectsEmpty := by
  intro cap out h hlen
  obtain rfl := Option.some.inj h
  cases hlen

theorem check_sound_emptyFull : ∃ log m body records, emptyFullDir.log = some log ∧
    readAndVerifyHeader log magicLog = .ok (m, body) ∧ ChunkRecord.scan body = .ok records ∧
    ((∀ (pa : UInt64) (s : UInt32), s ≤ maxSnapshotId → ∃ r, loadPage Zstd.rawOrEmpty emptyFullDir pa s = .ok r) ↔
      ∀ rec, FirstOf records rec → Readable emptyFullDir.blobs records rec) := by
  obtain ⟨report, hc, he⟩ := emptyFull_check
  exact check_sound_iff rawOrEmpty_agree rawOrEmpty_rejectsEmpty rfl hc he

end Bxdb
