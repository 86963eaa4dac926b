import Bxdb.Proof.Pass

/-!
# The round trips of `chunk.rs`

What is read is what was written, and what can be read is what the writer would have
written.

* `delta_roundTrip`: **a page, its patch against a base, and the base.** Patches are
  symmetric, so the blob of a page also leads back from the page to the base.
* `readFrom_exact`: the reader takes exactly the bytes of the record it returns.
* `log_roundTrip`: **lists of records and the byte strings that scan without a rest.**
-/

namespace Bxdb

open Bytes ChunkRecord

/-! ## Patches -/

section Patches

variable (page base : Page)

/-- The two pages of a patch can be exchanged. -/
theorem computeXorPatch_comm : computeXorPatch page base = computeXorPatch base page := by
  unfold computeXorPatch
  simp only [UInt64.xor_comm (wordAt page _)]

theorem toNat_wordIdx {i : ℕ} (h : i < pageWords) : (UInt16.ofNat i).toNat = i := by
  have hwords : pageWords = 512 := rfl
  exact UInt16.toNat_ofNat_of_lt' (show i < 2 ^ 16 by omega)

/-- The entries of a patch: the words that differ, with what they differ by. -/
theorem mem_computeXorPatch {e : UInt16 × UInt64} : e ∈ computeXorPatch page base ↔ e.1.toNat < pageWords ∧
    wordAt page e.1.toNat ≠ wordAt base e.1.toNat ∧ e.2 = wordAt page e.1.toNat ^^^ wordAt base e.1.toNat := by
  unfold computeXorPatch
  rw [List.mem_filterMap]
  constructor
  · rintro ⟨i, hi, he⟩
    have hlt : i < pageWords := List.mem_range.1 hi
    dsimp only at he
    split at he
    · rename_i hne
      obtain rfl := Option.some.inj he
      dsimp only
      rw [toNat_wordIdx hlt]
      exact ⟨hlt, fun heq => hne (UInt64.xor_eq_zero_iff.2 heq), rfl⟩
    · cases he
  · rintro ⟨hlt, hne, hx⟩
    refine ⟨e.1.toNat, List.mem_range.2 hlt, ?_⟩
    have hxne : wordAt page e.1.toNat ^^^ wordAt base e.1.toNat ≠ 0 := fun h => hne (UInt64.xor_eq_zero_iff.1 h)
    dsimp only
    rw [if_pos hxne, UInt16.ofNat_toNat, ← hx]

/-- **The indices of a patch grow.** -/
theorem computeXorPatch_sorted : (computeXorPatch page base).Pairwise fun a b => a.1 < b.1 := by
  unfold computeXorPatch
  rw [List.pairwise_filterMap]
  refine List.pairwise_lt_range.imp_of_mem fun {i j} hi hj hlt a ha b hb => ?_
  have hi' : i < pageWords := List.mem_range.1 hi
  have hj' : j < pageWords := List.mem_range.1 hj
  dsimp only at ha hb
  split at ha
  · split at hb
    · obtain rfl := Option.some.inj ha
      obtain rfl := Option.some.inj hb
      rw [UInt16.lt_iff_toNat_lt, toNat_wordIdx hi', toNat_wordIdx hj']
      exact hlt
    · cases hb
  · cases ha

/-- **The round trip of a patch.** The blob leads from the base to the page and back, by
either call; its entries are the words that differ, once each and in order. -/
theorem delta_roundTrip :
    (applyDeltaPatch base (encodeDeltaPatch (computeXorPatch page base)) = .ok page ∧
      applyDeltaPatchInPlace (encodeDeltaPatch (computeXorPatch page base)) base = .ok page) ∧
    (applyDeltaPatch page (encodeDeltaPatch (computeXorPatch page base)) = .ok base ∧
      applyDeltaPatchInPlace (encodeDeltaPatch (computeXorPatch page base)) page = .ok base) ∧
    ((computeXorPatch page base).Pairwise fun a b => a.1 < b.1) ∧
    (∀ e ∈ computeXorPatch page base, e.1.toNat < 512) ∧
    (∀ i < 512, (∃ e ∈ computeXorPatch page base, e.1.toNat = i) ↔ wordAt page i ≠ wordAt base i) ∧
    (encodeDeltaPatch (computeXorPatch page base)).length ≤ 5120 := by
  have hthere := applyDeltaPatchInPlace_encode page base
  have hback := applyDeltaPatchInPlace_encode base page
  rw [computeXorPatch_comm base page] at hback
  refine ⟨⟨hthere, hthere⟩, ⟨hback, hback⟩, computeXorPatch_sorted page base, fun e he => ?_, fun i hi => ?_, ?_⟩
  · exact ((mem_computeXorPatch page base).1 he).1
  · constructor
    · rintro ⟨e, he, rfl⟩
      exact ((mem_computeXorPatch page base).1 he).2.1
    · intro hne
      have hidx : (UInt16.ofNat i).toNat = i := toNat_wordIdx hi
      refine ⟨(UInt16.ofNat i, wordAt page i ^^^ wordAt base i), (mem_computeXorPatch page base).2 ?_, hidx⟩
      dsimp only
      rw [hidx]
      exact ⟨hi, hne, rfl⟩
  · have hlen := length_computeXorPatch page base
    have hwords : pageWords = 512 := rfl
    rw [length_encodeDeltaPatch]
    omega

end Patches

/-! ## Log records -/

theorem fromU8_exact {v : UInt8} {k : ChunkKind} (h : ChunkKind.fromU8 v = .ok k) : k.asU8 = v := by
  unfold ChunkKind.fromU8 at h
  split at h
  · rename_i hv
    obtain rfl := Except.ok.inj h
    exact hv.symm
  · split at h
    · rename_i hv
      obtain rfl := Except.ok.inj h
      exact hv.symm
    · split at h
      · rename_i hv
        obtain rfl := Except.ok.inj h
        exact hv.symm
      · simp [ioErr] at h

/-- The fixed part is its fields one after the other. -/
theorem head_exact {hd : Bytes} (hlen : hd.length = logRecordBaseSize) {r : ChunkRecord}
    (hkey : r.key = fromLe64 (slice hd 0 8)) (hkind : r.kind.asU8 = hd.getD 8 0) (hworker : r.workerId = hd.getD 9 0)
    (hoff : r.offset = fromLe64 (slice hd 10 18)) (hl : r.len = fromLe32 (slice hd 18 22)) : r.head = hd := by
  have h22 : hd.length = 22 := hlen
  have key8 : toLe64 r.key = slice hd 0 8 := by
    rw [hkey]
    exact toLe64_fromLe64 (length_slice (by omega))
  have off8 : toLe64 r.offset = slice hd 10 18 := by
    rw [hoff]
    exact toLe64_fromLe64 (length_slice (by omega))
  have len4 : toLe32 r.len = slice hd 18 22 := by
    rw [hl]
    exact toLe32_fromLe32 (length_slice (by omega))
  unfold ChunkRecord.head
  rw [key8, hkind, hworker, off8, len4, singleton_getD (by omega), singleton_getD (by omega),
    slice_append_slice hd (by omega) (by omega), slice_append_slice hd (by omega) (by omega),
    slice_append_slice hd (by omega) (by omega), slice_append_slice hd (by omega) (by omega), slice_zero,
    List.take_of_length_le (by omega)]

/-- **The reader takes the bytes that the record is written as.** -/
theorem readFrom_exact {bs rest : Bytes} {r : ChunkRecord} (h : readFrom bs = .ok (some (r, rest))) :
    bs = r.writeTo ++ rest := by
  unfold readFrom at h
  split at h
  · simp at h
  rename_i hlong
  obtain ⟨kind, hkind, h⟩ := bind_eq_ok.1 h
  have hlen : (bs.take logRecordBaseSize).length = logRecordBaseSize := List.length_take_of_le (not_lt.1 hlong)
  have hasU8 := fromU8_exact hkind
  have hsplit : bs = bs.take logRecordBaseSize ++ bs.drop logRecordBaseSize := (List.take_append_drop _ _).symm
  dsimp only at h
  split at h
  · rename_i hd
    split at h
    · simp [eofErr, ioErr] at h
    · rename_i h8
      obtain ⟨rfl, rfl⟩ := Prod.mk.inj (Option.some.inj (Except.ok.inj h))
      rw [writeTo_eq, head_exact hlen rfl hasU8 rfl rfl rfl, if_pos hd]
      dsimp only
      rw [toLe64_fromLe64 (List.length_take_of_le (not_lt.1 h8)), List.append_assoc, List.take_append_drop]
      exact hsplit
  · rename_i hd
    obtain ⟨rfl, rfl⟩ := Prod.mk.inj (Option.some.inj (Except.ok.inj h))
    rw [writeTo_eq, head_exact hlen rfl hasU8 rfl rfl rfl, if_neg hd, List.append_nil]
    exact hsplit

/-- `while let Some(rec) = read_from(r)?` on these bytes: the records, and the bytes that
were there at `Ok(None)`. -/
inductive Scanned : Bytes → List ChunkRecord → Bytes → Prop
  | done {bs : Bytes} (h : readFrom bs = .ok none) : Scanned bs [] bs
  | record {bs rest left : Bytes} {r : ChunkRecord} {rs : List ChunkRecord} (h : readFrom bs = .ok (some (r, rest)))
      (hs : Scanned rest rs left) : Scanned bs (r :: rs) left

/-- `Ok(None)` comes with less than a fixed part left. -/
theorem short_of_readFrom {bs : Bytes} (h : readFrom bs = .ok none) : bs.length < logRecordBaseSize := by
  unfold readFrom at h
  split at h
  · assumption
  · obtain ⟨kind, -, h⟩ := bind_eq_ok.1 h
    dsimp only at h
    split at h
    · split at h
      · simp [eofErr, ioErr] at h
      · cases h
    · cases h

theorem scanned_of_readAll : ∀ {fuel : ℕ} {bs : Bytes} {rs : List ChunkRecord}, bs.length < fuel →
    readAll fuel bs = .ok rs → ∃ left, Scanned bs rs left := by
  intro fuel
  induction fuel with
  | zero =>
    intro bs rs hlt _
    omega
  | succ fuel ih =>
    intro bs rs hlt h
    unfold readAll at h
    cases hr : readFrom bs with
    | error e =>
      rw [hr] at h
      cases h
    | ok o =>
      rw [hr] at h
      cases o with
      | none =>
        obtain rfl := Except.ok.inj h
        exact ⟨bs, .done hr⟩
      | some e =>
        obtain ⟨r, rest⟩ := e
        -- a record takes bytes off the input, so the fuel lasts
        have hshorter := readFrom_lt hr
        dsimp only at h
        cases hrest : readAll fuel rest with
        | error e =>
          rw [hrest] at h
          cases h
        | ok rs' =>
          rw [hrest] at h
          obtain rfl := Except.ok.inj h
          obtain ⟨left, hs⟩ := ih (by omega) hrest
          exact ⟨left, .record hr hs⟩

/-- **What is scanned and what is left** are the bytes. -/
theorem Scanned.exact {bs left : Bytes} {rs : List ChunkRecord} (h : Scanned bs rs left) :
    bs = encodeAll rs ++ left ∧ left.length < logRecordBaseSize ∧ ∀ r ∈ rs, r.Plain := by
  induction h with
  | done h => exact ⟨rfl, short_of_readFrom h, by simp⟩
  | @record bs rest left r rs h _ ih =>
    obtain ⟨hrest, hshort, hplain⟩ := ih
    refine ⟨?_, hshort, fun r' hr' => ?_⟩
    · rw [readFrom_exact h, encodeAll_cons, List.append_assoc, ← hrest]
    · rcases List.mem_cons.1 hr' with rfl | hr'
      · exact readFrom_plain h
      · exact hplain r' hr'

theorem scanned_encode {rs : List ChunkRecord} {left : Bytes} (h : ∀ r ∈ rs, r.Plain)
    (hshort : left.length < logRecordBaseSize) : Scanned (encodeAll rs ++ left) rs left := by
  induction rs with
  | nil => exact .done (readFrom_short hshort)
  | cons r rs ih =>
    rw [encodeAll_cons, List.append_assoc]
    exact .record (readFrom_writeTo (h r List.mem_cons_self) _) (ih fun r' hr' => h r' (List.mem_cons_of_mem _ hr'))

/-- **The scan of a log** and the loop it is: they agree, whatever the bytes. -/
theorem scan_iff {bs : Bytes} {rs : List ChunkRecord} : scan bs = .ok rs ↔ ∃ left, Scanned bs rs left := by
  constructor
  · exact scanned_of_readAll (Nat.lt_succ_self _)
  · rintro ⟨left, h⟩
    obtain ⟨hbs, hshort, hplain⟩ := h.exact
    rw [hbs]
    exact scan_encode_tail hplain hshort

/-- **The round trip of a log.** Records written one after another scan back to
themselves, with nothing left, each from as many bytes as its encoded length; and bytes
that scan with nothing left are the scanned records written again. -/
theorem log_roundTrip :
    (∀ rs : List ChunkRecord, (∀ r ∈ rs, r.kind ≠ .delta → r.baseKey = 0) →
      Scanned (encodeAll rs) rs [] ∧ scan (encodeAll rs) = .ok rs) ∧
    (∀ r : ChunkRecord, r.writeTo.length = r.encodedLen) ∧
    (∀ (bs rest : Bytes) (r : ChunkRecord), readFrom bs = .ok (some (r, rest)) → bs.length = r.encodedLen + rest.length) ∧
    ∀ (bs : Bytes) (rs : List ChunkRecord), Scanned bs rs [] → encodeAll rs = bs := by
  refine ⟨fun rs hplain => ?_, length_writeTo, fun bs rest r h => ?_, fun bs rs h => ?_⟩
  · have hnil : ([] : Bytes).length < logRecordBaseSize := by decide
    have hscanned := scanned_encode hplain hnil
    rw [List.append_nil] at hscanned
    exact ⟨hscanned, scan_iff.2 ⟨[], hscanned⟩⟩
  · rw [readFrom_exact h, List.length_append, length_writeTo]
  · obtain ⟨hbs, -, -⟩ := h.exact
    rw [hbs, List.append_nil]

/-- One record of each kind. -/
theorem log_roundTrip_kinds : scan (encodeAll [newFull 1 0 0 9, newDelta 2 1 7 30 1, newZero 3]) =
    .ok [newFull 1 0 0 9, newDelta 2 1 7 30 1, newZero 3] :=
  (log_roundTrip.1 _ (by simp)).2

end Bxdb
