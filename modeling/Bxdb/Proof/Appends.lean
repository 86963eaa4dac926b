import Bxdb.Proof.Pass

/-!
# One worker file, whatever its writes do

The offset a worker file keeps is the length of its logical stream (`BlobOk`). A call that
fails may have written held-back bytes out, but it adds nothing to the stream and leaves
the offset alone, so the next call starts where the stream ends.

* `Appended.stream`: the stream is what the file held, then the data of the calls that
  returned Ok, in order.
* `appends_hold`: **every range that was returned holds its data ever after.**
-/

namespace Bxdb

open Bytes Buffered

/-- A call of `append_blob`: its data, and what it returned. -/
abbrev AppendCall := Bytes × Res (UInt64 × UInt32)

/-- Calls of `append_blob` on one worker file, one after the other. Any write of the
operating system may fail, or take some of its bytes and then fail. -/
inductive Appended (b₀ : BlobFile) : List AppendCall → BlobFile → Prop
  | nil : Appended b₀ [] b₀
  | snoc {calls : List AppendCall} {b : BlobFile} (h : Appended b₀ calls b) (fault : Fault) (data : Bytes) :
      Appended b₀ (calls ++ [(data, (appendBlob fault b data).2)]) (appendBlob fault b data).1

/-- The data of a call that returned Ok. -/
def AppendCall.added (c : AppendCall) : Bytes :=
  match c.2 with
  | .ok _ => c.1
  | .error _ => []

section

variable {b₀ b : BlobFile} {calls : List AppendCall}

/-- **What one call does** to a well-formed worker file: it adds its data to the stream
and returns where, or it fails and adds nothing. -/
theorem appendBlob_added (h : BlobOk b) (fault : Fault) {data : Bytes} (hd : data.length < blobBufCap) :
    BlobOk (appendBlob fault b data).1 ∧
      (appendBlob fault b data).1.stream = b.stream ++ AppendCall.added (data, (appendBlob fault b data).2) ∧
      ∀ off len, (appendBlob fault b data).2 = .ok (off, len) → HoldsAt (appendBlob fault b data).1.stream off len data := by
  cases hr : (appendBlob fault b data).2 with
  | ok r =>
    obtain ⟨off, len⟩ := r
    obtain ⟨hok, hstream, hholds⟩ := appendBlob_ok h hr
    refine ⟨hok, hstream, fun off' len' hr' => ?_⟩
    obtain ⟨rfl, rfl⟩ := Prod.mk.inj (Except.ok.inj hr')
    exact hholds
  | error e =>
    obtain ⟨hok, hstream⟩ := appendBlob_err h hd hr
    refine ⟨hok, ?_, fun off' len' hr' => by cases hr'⟩
    rw [hstream]
    exact (List.append_nil _).symm

/-- **After any calls.** -/
theorem Appended.spec (h₀ : BlobOk b₀) (h : Appended b₀ calls b) (hshort : ∀ c ∈ calls, c.1.length < blobBufCap) :
    BlobOk b ∧ b.stream = b₀.stream ++ calls.flatMap AppendCall.added ∧
      ∀ data off len, (data, Except.ok (off, len)) ∈ calls → HoldsAt b.stream off len data := by
  induction h with
  | nil => exact ⟨h₀, by simp, by simp⟩
  | @snoc calls b _ fault data ih =>
    obtain ⟨hok, hstream, hholds⟩ := ih fun c hc => hshort c (List.mem_append_left _ hc)
    have hd : data.length < blobBufCap := hshort _ (List.mem_append_right _ (List.mem_singleton_self _))
    obtain ⟨hok', hstream', hnew⟩ := appendBlob_added hok fault hd
    refine ⟨hok', ?_, fun data' off len hmem => ?_⟩
    · rw [hstream', hstream, List.flatMap_append, List.flatMap_singleton, List.append_assoc]
    · rcases List.mem_append.1 hmem with hmem | hmem
      · -- an earlier range: the stream only grew
        have hgrow : b.stream <+: (appendBlob fault b data).1.stream := by
          rw [hstream']
          exact List.prefix_append _ _
        exact (hholds data' off len hmem).of_isPrefix hgrow
      · obtain ⟨rfl, hr⟩ := Prod.mk.inj (List.mem_singleton.1 hmem)
        exact hnew off len hr.symm

/-- **Blob offsets survive write failures.** After any calls on a worker file, with data
shorter than the writer holds back and failures anywhere, each call that returned a range
returned the length of its data, and the file followed by what is held back has the data
there. -/
theorem appends_hold {bytes : Bytes} (hbytes : bytes.length ≤ maxFileLen)
    (h : Appended (BlobFile.openAppend bytes) calls b) (hshort : ∀ c ∈ calls, c.1.length < blobBufCap) :
    b.writer.file.bytes ++ b.writer.buf = bytes ++ calls.flatMap AppendCall.added ∧
      ∀ data off len, (data, Except.ok (off, len)) ∈ calls → len.toNat = data.length ∧
        off.toNat + len.toNat ≤ (b.writer.file.bytes ++ b.writer.buf).length ∧
        slice (b.writer.file.bytes ++ b.writer.buf) off.toNat (off.toNat + len.toNat) = data := by
  obtain ⟨-, hstream, hholds⟩ := h.spec (openAppend_ok hbytes) hshort
  rw [openAppend_stream] at hstream
  refine ⟨hstream, fun data off len hmem => ?_⟩
  obtain ⟨hlen, hfits, -, hslice⟩ := hholds data off len hmem
  rw [hlen]
  exact ⟨rfl, hfits, hslice⟩

end

/-! ## A failed call between two others -/

section Failing

variable {fill : Bytes}

/-- A worker file that held one byte, with one byte of its buffer free. -/
def fullBuffer (fill : Bytes) : BlobFile := ⟨⟨blobBufCap, ⟨[7], 0, true, some maxFileLen⟩, fill⟩, 8192⟩

theorem append_fill (hfill : fill.length = 8191) :
    appendBlob none (BlobFile.openAppend [7]) fill = (fullBuffer fill, .ok (1, 8191)) := by
  have hfits : fill.length < (BlobFile.openAppend [7]).writer.spareCapacity := by
    rw [hfill]
    decide
  unfold appendBlob BufWriter.writeAll
  rw [if_pos hfits, hfill]
  rfl

/-- The flush before a write of three bytes fails after five. -/
theorem append_fails (hfill : fill.length = 8191) : appendBlob (some 5) (fullBuffer fill) [2, 2, 2] =
    (⟨⟨blobBufCap, RawFile.put ⟨[7], 0, true, some maxFileLen⟩ (fill.take 5), fill.drop 5⟩, 8192⟩,
      ioErr .other "failed to write whole buffer") := by
  have hne : fill.isEmpty = false := by
    cases fill with
    | nil => simp at hfill
    | cons a l => rfl
  -- the disk takes five bytes of the full buffer, and then no more
  have htakes : RawFile.takes (some 5) ⟨[7], 0, true, some maxFileLen⟩ fill = 5 := by
    unfold RawFile.takes
    rw [hfill]
    decide
  have hspare : BufWriter.spareCapacity ⟨blobBufCap, ⟨[7], 0, true, some maxFileLen⟩, fill⟩ = 1 := by
    have hcap : blobBufCap = 8192 := rfl
    unfold BufWriter.spareCapacity
    dsimp only
    omega
  have hflush : BufWriter.flushBuf (some 5) ⟨blobBufCap, ⟨[7], 0, true, some maxFileLen⟩, fill⟩ =
      (⟨blobBufCap, RawFile.put ⟨[7], 0, true, some maxFileLen⟩ (fill.take 5), fill.drop 5⟩, false) := by
    have hpart : ((5 : ℕ) == 8191) = false := by decide
    unfold BufWriter.flushBuf
    dsimp only
    rw [hne, if_neg Bool.false_ne_true]
    unfold RawFile.writeAll
    dsimp only
    rw [htakes, hfill, hpart]
  unfold appendBlob fullBuffer BufWriter.writeAll
  dsimp only
  rw [hspare, hflush]
  rfl

theorem append_after {w : BufWriter} (hcap : w.cap = blobBufCap) (hlen : w.buf.length = 8186) :
    (appendBlob none ⟨w, 8192⟩ [3, 3]).2 = .ok (8192, 2) := by
  have hfits : ([3, 3] : Bytes).length < w.spareCapacity := by
    unfold BufWriter.spareCapacity
    rw [hcap, hlen]
    decide
  unfold appendBlob BufWriter.writeAll
  rw [if_pos hfits]
  rfl

theorem appended_failed (hfill : fill.length = 8191) : ∃ b, Appended (BlobFile.openAppend [7])
    [(fill, .ok (1, 8191)), ([2, 2, 2], ioErr .other "failed to write whole buffer"), ([3, 3], .ok (8192, 2))] b := by
  have h : Appended (BlobFile.openAppend [7]) [] _ := .nil
  have h₁ := h.snoc none fill
  rw [append_fill hfill] at h₁
  have h₂ := h₁.snoc (some 5) [2, 2, 2]
  dsimp only at h₂
  rw [append_fails hfill] at h₂
  have h₃ := h₂.snoc none [3, 3]
  dsimp only at h₃
  rw [append_after rfl (by rw [List.length_drop, hfill])] at h₃
  exact ⟨_, h₃⟩

end Failing

/-- The third call's bytes are where it said, behind those of the first. -/
theorem appends_hold_failed : ∃ (fill : Bytes) (b : BlobFile), fill.length = 8191 ∧
    b.writer.file.bytes ++ b.writer.buf = [7] ++ (fill ++ ([] ++ ([3, 3] ++ []))) ∧
    slice (b.writer.file.bytes ++ b.writer.buf) 8192 8194 = [3, 3] := by
  obtain ⟨fill, hfill⟩ : ∃ l : Bytes, l.length = 8191 := ⟨List.replicate 8191 1, List.length_replicate⟩
  obtain ⟨b, h⟩ := appended_failed hfill
  obtain ⟨hstream, hholds⟩ := appends_hold (by decide) h fun c hc => by
    have hcap : blobBufCap = 8192 := rfl
    rcases List.mem_cons.1 hc with rfl | hc
    · dsimp only
      omega
    · rcases List.mem_cons.1 hc with rfl | hc
      · decide
      · rw [List.mem_singleton.1 hc]
        decide
  obtain ⟨-, -, hslice⟩ := hholds [3, 3] 8192 2 (by simp)
  exact ⟨fill, b, hfill, hstream, hslice⟩

end Bxdb
