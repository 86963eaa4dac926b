import Bxdb.Spec.Check
import Bxdb.Proof.Lookup

/-!
# What a clean check says

`RecordClean` and `BaseClean` are the conditions the two walks of `check` test on one
record. A walk adds an error exactly where its condition fails, so

* `check_clean_iff`: **`check` reports nothing exactly when every record meets both.**
-/

namespace Bxdb

open Bytes

section Walk

variable {z : Zstd} {blobs : UInt8 → Option Bytes} {report report' : CheckReport} {rec : ChunkRecord}

/-- The bytes a record names in its file. -/
abbrev blobOf (bs : Bytes) (rec : ChunkRecord) : Option Bytes :=
  range? bs rec.offset.toNat (rec.offset.toNat + rec.len.toNat)

/-- What `check` wants of a range. -/
structure RangeClean (bs : Bytes) (rec : ChunkRecord) (blob : Bytes) : Prop where
  fits : satEnd rec ≤ bs.length
  bound : rec.offset.toNat + rec.len.toNat < 2 ^ 64
  blob : blobOf bs rec = some blob

/-- What `check` wants of a Full record. An empty one is not looked at. -/
def FullClean (z : Zstd) (bs : Bytes) (rec : ChunkRecord) : Prop :=
  rec.len = 0 ∨ ∃ blob out, RangeClean bs rec blob ∧ z.decompress (pageSize + 1) blob = some out ∧ out.length = pageSize

/-- Every word index of a patch is inside a page. -/
def IndicesClean (blob : Bytes) : Prop :=
  ∀ chunk ∈ chunksExact 10 blob, (fromLe16 (chunk.take 2)).toNat < pageWords

/-- What `check` wants of a Delta record. An empty one is not looked at. -/
def DeltaClean (bs : Bytes) (rec : ChunkRecord) : Prop :=
  rec.len = 0 ∨ ∃ blob, RangeClean bs rec blob ∧ rec.len.toNat % 10 = 0 ∧ IndicesClean blob

/-- **What the first walk wants of a record.** -/
def RecordClean (z : Zstd) (blobs : UInt8 → Option Bytes) (rec : ChunkRecord) : Prop :=
  ∃ bs, blobs rec.workerId = some bs ∧ (rec.kind = .full → FullClean z bs rec) ∧ (rec.kind = .delta → DeltaClean bs rec)

/-- **What the second walk wants of a record.** -/
def BaseClean (fullIndex : FullIndex) (rec : ChunkRecord) : Prop :=
  rec.kind = .delta → rec.baseKey ≠ 0 ∧ ∃ base, fullIndex rec.baseKey = some base ∧ base.kind = .full

@[simp] theorem push_errors (report : CheckReport) (e : String) : (report.push e).errors = report.errors ++ [e] := rfl

theorem push_ne_nil (report : CheckReport) (e : String) : (report.push e).errors ≠ [] := by simp

theorem errors_iff_of {P : Prop} (h : P) : report.errors = [] ↔ report.errors = [] ∧ P := ⟨fun he => ⟨he, h⟩, And.left⟩

theorem errors_push_iff {P : Prop} {e : String} (h : ¬ P) : (report.push e).errors = [] ↔ report.errors = [] ∧ P :=
  iff_of_false (push_ne_nil report e) fun hand => h hand.2

theorem blobLen_some {w : UInt8} {bs : Bytes} (hb : blobs w = some bs) : blobLen blobs w = bs.length := by
  unfold blobLen
  rw [hb]
  rfl

theorem checkedBlob_ok {bs blob : Bytes} {text : String} (hb : blobs rec.workerId = some bs) :
    checkedBlob blobs rec text = .ok blob ↔
      rec.offset.toNat + rec.len.toNat < 2 ^ 64 ∧ blobOf bs rec = some blob := by
  unfold checkedBlob
  rw [hb]
  dsimp only
  by_cases hlt : 2 ^ 64 ≤ rec.offset.toNat + rec.len.toNat
  · rw [if_pos hlt]
    refine ⟨fun h => by simp [panics] at h, fun h => by omega⟩
  · rw [if_neg hlt]
    unfold blobOf
    cases range? bs rec.offset.toNat (rec.offset.toNat + rec.len.toNat) with
    | none => simp [ioErr]
    | some b =>
      rw [Except.ok.injEq, Option.some.injEq]
      exact ⟨fun h => ⟨not_le.1 hlt, h⟩, fun h => h.2⟩

/-- A Full record with a file: no error is added exactly when it is clean. -/
theorem checkFull_clean {bs : Bytes} (hb : blobs rec.workerId = some bs) (h : checkFull z blobs report rec = .ok report') :
    report'.errors = [] ↔ report.errors = [] ∧ FullClean z bs rec := by
  unfold checkFull at h
  dsimp only at h
  split at h
  · rename_i h0
    obtain rfl := Except.ok.inj h
    exact errors_iff_of (.inl h0)
  · rename_i h0
    have hclean : FullClean z bs rec ↔ ∃ blob out, RangeClean bs rec blob ∧
        z.decompress (pageSize + 1) blob = some out ∧ out.length = pageSize := or_iff_right h0
    rw [hclean]
    rw [blobLen_some hb] at h
    split at h
    · -- the range ends behind the file
      rename_i hlt
      obtain rfl := Except.ok.inj h
      refine errors_push_iff ?_
      rintro ⟨blob, out, hr, -⟩
      have := hr.fits
      omega
    · rename_i hlt
      obtain ⟨blob, hblob, h⟩ := bind_eq_ok.1 h
      obtain ⟨hbound, hblob⟩ := (checkedBlob_ok hb).1 hblob
      have hrange : RangeClean bs rec blob := ⟨by omega, hbound, hblob⟩
      have hsame : ∀ {blob'}, RangeClean bs rec blob' → blob' = blob := fun hr =>
        Option.some.inj (hr.blob.symm.trans hblob)
      split at h
      · rename_i out hout
        split at h
        · rename_i hlen
          obtain rfl := Except.ok.inj h
          exact errors_iff_of ⟨blob, out, hrange, hout, hlen⟩
        · -- a page of another length
          rename_i hlen
          obtain rfl := Except.ok.inj h
          refine errors_push_iff ?_
          rintro ⟨blob', out', hr, hd, hl⟩
          rw [hsame hr, hout] at hd
          rw [Option.some.inj hd] at hlen
          exact hlen hl
      · rename_i hout
        obtain rfl := Except.ok.inj h
        refine errors_push_iff ?_
        rintro ⟨blob', out', hr, hd, -⟩
        rw [hsame hr, hout] at hd
        cases hd

/-- A clean Full record passes. -/
theorem checkFull_pass {bs : Bytes} (hb : blobs rec.workerId = some bs) (h : FullClean z bs rec) :
    checkFull z blobs report rec = .ok report := by
  unfold checkFull
  dsimp only
  split
  · rfl
  · rename_i h0
    obtain ⟨blob, out, hr, hout, hlen⟩ := h.resolve_left h0
    have hfits := hr.fits
    rw [blobLen_some hb, if_neg (by omega), (checkedBlob_ok hb).2 ⟨hr.bound, hr.blob⟩, ok_bind, hout]
    dsimp only
    rw [if_pos hlen]

/-- Without its file a record's checks add at most errors. -/
theorem checkFull_nil (h : checkFull z blobs report rec = .ok report') (he : report'.errors = []) : report.errors = [] := by
  unfold checkFull at h
  dsimp only at h
  split at h
  · obtain rfl := Except.ok.inj h
    exact he
  · split at h
    · obtain rfl := Except.ok.inj h
      exact absurd he (push_ne_nil _ _)
    · obtain ⟨blob, -, h⟩ := bind_eq_ok.1 h
      split at h
      · split at h
        · obtain rfl := Except.ok.inj h
          exact he
        · obtain rfl := Except.ok.inj h
          exact absurd he (push_ne_nil _ _)
      · obtain rfl := Except.ok.inj h
        exact absurd he (push_ne_nil _ _)

theorem find?_index_none {blob : Bytes} :
    ((chunksExact 10 blob).find? fun chunk => pageWords ≤ (fromLe16 (chunk.take 2)).toNat) = none ↔ IndicesClean blob := by
  rw [List.find?_eq_none]
  unfold IndicesClean
  refine forall₂_congr fun chunk _ => ?_
  rw [decide_eq_true_eq, not_le]

/-- A Delta record with a file: no error is added exactly when it is clean. -/
theorem checkDelta_clean {bs : Bytes} (hb : blobs rec.workerId = some bs) (h : checkDelta blobs report rec = .ok report') :
    report'.errors = [] ↔ report.errors = [] ∧ DeltaClean bs rec := by
  unfold checkDelta at h
  dsimp only at h
  split at h
  · rename_i h0
    obtain rfl := Except.ok.inj h
    exact errors_iff_of (.inl h0)
  · rename_i h0
    have hclean : DeltaClean bs rec ↔ ∃ blob, RangeClean bs rec blob ∧ rec.len.toNat % 10 = 0 ∧ IndicesClean blob :=
      or_iff_right h0
    rw [hclean]
    rw [blobLen_some hb] at h
    split at h
    · -- the range ends behind the file
      rename_i hlt
      obtain rfl := Except.ok.inj h
      refine errors_push_iff ?_
      rintro ⟨blob, hr, -⟩
      have := hr.fits
      omega
    · rename_i hlt
      split at h
      · rename_i hten
        obtain rfl := Except.ok.inj h
        refine errors_push_iff ?_
        rintro ⟨blob, -, hten', -⟩
        exact hten hten'
      · rename_i hten
        obtain ⟨blob, hblob, h⟩ := bind_eq_ok.1 h
        obtain ⟨hbound, hblob⟩ := (checkedBlob_ok hb).1 hblob
        have hrange : RangeClean bs rec blob := ⟨by omega, hbound, hblob⟩
        split at h
        · -- an entry for a word outside the page
          rename_i chunk hchunk
          obtain rfl := Except.ok.inj h
          refine errors_push_iff ?_
          rintro ⟨blob', hr, -, hidx⟩
          rw [Option.some.inj (hr.blob.symm.trans hblob)] at hidx
          rw [find?_index_none.2 hidx] at hchunk
          cases hchunk
        · rename_i hnone
          obtain rfl := Except.ok.inj h
          exact errors_iff_of ⟨blob, hrange, not_not.1 hten, find?_index_none.1 hnone⟩

/-- A clean Delta record passes. -/
theorem checkDelta_pass {bs : Bytes} (hb : blobs rec.workerId = some bs) (h : DeltaClean bs rec) :
    checkDelta blobs report rec = .ok report := by
  unfold checkDelta
  dsimp only
  split
  · rfl
  · rename_i h0
    obtain ⟨blob, hr, hten, hidx⟩ := h.resolve_left h0
    have hfits := hr.fits
    rw [blobLen_some hb, if_neg (by omega), if_neg (not_not.2 hten), (checkedBlob_ok hb).2 ⟨hr.bound, hr.blob⟩, ok_bind,
      find?_index_none.2 hidx]

theorem checkDelta_nil (h : checkDelta blobs report rec = .ok report') (he : report'.errors = []) : report.errors = [] := by
  unfold checkDelta at h
  dsimp only at h
  split at h
  · obtain rfl := Except.ok.inj h
    exact he
  · split at h
    · obtain rfl := Except.ok.inj h
      exact absurd he (push_ne_nil _ _)
    · split at h
      · obtain rfl := Except.ok.inj h
        exact absurd he (push_ne_nil _ _)
      · obtain ⟨blob, -, h⟩ := bind_eq_ok.1 h
        split at h
        · obtain rfl := Except.ok.inj h
          exact absurd he (push_ne_nil _ _)
        · obtain rfl := Except.ok.inj h
          exact he

/-! ## The first walk -/

/-- The walk's table after a record. -/
def noteBase (fullIndex : FullIndex) (rec : ChunkRecord) : FullIndex :=
  if rec.kind = .delta then fullIndex else Function.update fullIndex rec.key (some rec)

theorem checkKind_ok {fi : FullIndex} {st : CheckReport × FullIndex}
    (h : checkKind z blobs report fi rec = .ok st) : st.2 = noteBase fi rec ∧
      (st.1.errors = [] → report.errors = []) ∧
      ∀ bs, blobs rec.workerId = some bs → (st.1.errors = [] ↔ report.errors = [] ∧ RecordClean z blobs rec) := by
  -- the file is there, so what is clean depends on the kind only
  have hclean : ∀ bs, blobs rec.workerId = some bs → (RecordClean z blobs rec ↔
      (rec.kind = .full → FullClean z bs rec) ∧ (rec.kind = .delta → DeltaClean bs rec)) := by
    intro bs hb
    unfold RecordClean
    constructor
    · rintro ⟨bs', hb', h⟩
      rw [hb] at hb'
      rw [Option.some.inj hb']
      exact h
    · intro h
      exact ⟨bs, hb, h⟩
  unfold checkKind at h
  unfold noteBase
  cases hk : rec.kind with
  | full =>
    rw [hk] at h
    obtain ⟨report', hr, h⟩ := bind_eq_ok.1 h
    obtain rfl := Except.ok.inj h
    have hnil : report'.errors = [] → report.errors = [] := checkFull_nil hr
    refine ⟨rfl, hnil, fun bs hb => ?_⟩
    rw [hclean bs hb, hk]
    simpa using checkFull_clean hb hr
  | delta =>
    rw [hk] at h
    obtain ⟨report', hr, h⟩ := bind_eq_ok.1 h
    obtain rfl := Except.ok.inj h
    have hnil : report'.errors = [] → report.errors = [] := checkDelta_nil hr
    refine ⟨rfl, hnil, fun bs hb => ?_⟩
    rw [hclean bs hb, hk]
    simpa using checkDelta_clean hb hr
  | zero =>
    rw [hk] at h
    obtain rfl := Except.ok.inj h
    refine ⟨rfl, fun he => he, fun bs hb => ?_⟩
    rw [hclean bs hb, hk]
    simp

/-- **One step of the first walk** adds no error exactly when the record is clean. -/
theorem checkRecord_ok {st st' : CheckReport × FullIndex} (h : checkRecord z blobs st rec = .ok st') :
    st'.2 = noteBase st.2 rec ∧ (st'.1.errors = [] ↔ st.1.errors = [] ∧ RecordClean z blobs rec) := by
  unfold checkRecord at h
  obtain ⟨st₁, hk, h⟩ := bind_eq_ok.1 h
  obtain rfl := Except.ok.inj h
  obtain ⟨h1, h2, h3⟩ := checkKind_ok hk
  refine ⟨h1, ?_⟩
  dsimp only
  cases hb : blobs rec.workerId with
  | some bs =>
    rw [h3 bs hb, hb]
    rfl
  | none =>
    refine iff_of_false (fun he => ?_) ?_
    · have := h2 he
      rw [hb] at this
      exact absurd this (push_ne_nil _ _)
    · rintro ⟨-, bs, hb', -⟩
      rw [hb] at hb'
      simp at hb'

theorem checkRecord_pass (h : RecordClean z blobs rec) (st : CheckReport × FullIndex) :
    ∃ st', checkRecord z blobs st rec = .ok st' := by
  obtain ⟨bs, hb, hfull, hdelta⟩ := h
  unfold checkRecord checkKind
  cases hk : rec.kind with
  | full =>
    dsimp only
    rw [checkFull_pass hb (hfull hk), ok_bind, ok_bind]
    exact ⟨_, rfl⟩
  | delta =>
    dsimp only
    rw [checkDelta_pass hb (hdelta hk), ok_bind, ok_bind]
    exact ⟨_, rfl⟩
  | zero => exact ⟨_, rfl⟩

/-- **The first walk** adds no error exactly when every record is clean. -/
theorem checkRecords_ok {records : List ChunkRecord} {st st' : CheckReport × FullIndex}
    (h : records.foldlM (checkRecord z blobs) st = .ok st') :
    st'.2 = records.foldl noteBase st.2 ∧
      (st'.1.errors = [] ↔ st.1.errors = [] ∧ ∀ rec ∈ records, RecordClean z blobs rec) := by
  induction records generalizing st with
  | nil =>
    rw [List.foldlM_nil] at h
    obtain rfl := Except.ok.inj h
    simp
  | cons rec records ih =>
    rw [List.foldlM_cons] at h
    obtain ⟨st₁, h1, h2⟩ := bind_eq_ok.1 h
    obtain ⟨hfi, he⟩ := checkRecord_ok h1
    obtain ⟨hfi', he'⟩ := ih h2
    refine ⟨by rw [hfi', hfi, List.foldl_cons], ?_⟩
    rw [he', he, List.forall_mem_cons, and_assoc]

theorem checkRecords_pass {records : List ChunkRecord} (h : ∀ rec ∈ records, RecordClean z blobs rec)
    (st : CheckReport × FullIndex) : ∃ st', records.foldlM (checkRecord z blobs) st = .ok st' := by
  induction records generalizing st with
  | nil => exact ⟨st, rfl⟩
  | cons rec records ih =>
    obtain ⟨st₁, h1⟩ := checkRecord_pass (h rec List.mem_cons_self) st
    obtain ⟨st', h2⟩ := ih (fun r hr => h r (List.mem_cons_of_mem _ hr)) st₁
    refine ⟨st', ?_⟩
    rw [List.foldlM_cons, h1, ok_bind, h2]

/-! ## The second walk -/

theorem checkBase_clean {fi : FullIndex} :
    (checkBase fi report rec).errors = [] ↔ report.errors = [] ∧ BaseClean fi rec := by
  unfold checkBase
  dsimp only
  split
  · -- only a Delta has a base
    rename_i hk
    exact errors_iff_of fun hk' => absurd hk' hk
  · rename_i hk
    have hclean : BaseClean fi rec ↔ rec.baseKey ≠ 0 ∧ ∃ base, fi rec.baseKey = some base ∧ base.kind = .full :=
      imp_iff_right (not_not.1 hk)
    rw [hclean]
    split
    · rename_i h0
      exact errors_push_iff fun h => h.1 h0
    · rename_i h0
      split
      · rename_i hnone
        refine errors_push_iff ?_
        rintro ⟨-, base, hb, -⟩
        rw [hnone] at hb
        cases hb
      · rename_i base hbase
        split
        · rename_i hfull
          refine errors_push_iff ?_
          rintro ⟨-, base', hb, hf⟩
          rw [hbase] at hb
          rw [Option.some.inj hb] at hfull
          exact hfull hf
        · rename_i hfull
          exact errors_iff_of ⟨h0, base, hbase, not_not.1 hfull⟩

theorem checkBases_clean {fi : FullIndex} {records : List ChunkRecord} :
    (records.foldl (checkBase fi) report).errors = [] ↔ report.errors = [] ∧ ∀ rec ∈ records, BaseClean fi rec := by
  induction records generalizing report with
  | nil => simp
  | cons rec records ih => rw [List.foldl_cons, ih, checkBase_clean, List.forall_mem_cons, and_assoc]

/-- The table the second walk looks bases up in: the last Full or Zero record of a key. -/
def lastBase (records : List ChunkRecord) : FullIndex := records.foldl noteBase fun _ => none

/-- **`check` reports nothing** exactly when every record meets the conditions of both
walks. -/
theorem check_clean_iff {dir : Dir} {log body : Bytes} {m : UInt32} {records : List ChunkRecord} (hl : dir.log = some log)
    (hh : readAndVerifyHeader log magicLog = .ok (m, body)) (hs : ChunkRecord.scan body = .ok records) :
    (∃ report, check z dir = .ok report ∧ report.errors = []) ↔
      (∀ rec ∈ records, RecordClean z dir.blobs rec) ∧ ∀ rec ∈ records, BaseClean (lastBase records) rec := by
  unfold check
  rw [hl]
  dsimp only
  rw [hh, ok_bind]
  dsimp only
  rw [hs, ok_bind]
  constructor
  · rintro ⟨report, h, he⟩
    obtain ⟨st, hfold, h⟩ := bind_eq_ok.1 h
    obtain rfl := Except.ok.inj h
    obtain ⟨hfi, hclean⟩ := checkRecords_ok hfold
    dsimp only at hfi
    rw [checkBases_clean, hclean, hfi] at he
    exact ⟨he.1.2, he.2⟩
  · rintro ⟨hrec, hbase⟩
    obtain ⟨st, hfold⟩ := checkRecords_pass hrec
      (⟨0, 0, 0, 0, [], ((List.finRange 256).map UInt8.ofFin).filterMap fun w =>
        (dir.blobs w).map fun bytes => (w, bytes.length)⟩, fun _ => none)
    obtain ⟨hfi, hclean⟩ := checkRecords_ok hfold
    rw [hfold, ok_bind]
    refine ⟨_, rfl, ?_⟩
    rw [checkBases_clean, hclean, hfi]
    exact ⟨⟨rfl, hrec⟩, hbase⟩

end Walk

end Bxdb
