import Bxdb.Spec.Chunk

/-!
# The codecs and patches give back what they were given

* `scan_encode`: a log body scans to its records, in order, whatever shorter rest
  follows the last one.
* `decodeFixed_encodeFixed`: the index codec.
* `applyDeltaPatchInPlace_encode`: a page's patch, applied to the base it was
  computed against, is the page.
-/

namespace Bxdb

open Bytes ChunkRecord

/-- Records as the writer makes them: only a Delta names a base. -/
def ChunkRecord.Plain (r : ChunkRecord) : Prop := r.kind ≠ .delta → r.baseKey = 0

theorem newFull_plain (key : UInt64) (w : UInt8) (off : UInt64) (len : UInt32) :
    (newFull key w off len).Plain := fun _ => rfl

theorem newDelta_plain (key : UInt64) (w : UInt8) (off : UInt64) (len : UInt32) (b : UInt64) :
    (newDelta key w off len b).Plain := fun h => absurd rfl h

theorem newZero_plain (key : UInt64) : (newZero key).Plain := fun _ => rfl

/-! ## Log records -/

theorem length_writeTo (r : ChunkRecord) : r.writeTo.length = r.encodedLen := by
  unfold writeTo encodedLen logRecordBaseSize
  split <;> simp

theorem encodedLen_ge (r : ChunkRecord) : logRecordBaseSize ≤ r.encodedLen := by
  unfold encodedLen; split <;> omega

/-- The fixed part of a record's log bytes. -/
def ChunkRecord.head (r : ChunkRecord) : Bytes :=
  toLe64 r.key ++ [r.kind.asU8] ++ [r.workerId] ++ toLe64 r.offset ++ toLe32 r.len

theorem length_head (r : ChunkRecord) : r.head.length = logRecordBaseSize := by
  simp [ChunkRecord.head, logRecordBaseSize]

theorem writeTo_eq (r : ChunkRecord) :
    r.writeTo = r.head ++ if r.kind = .delta then toLe64 r.baseKey else [] := rfl

/-- The fields of the fixed part are where the reader looks for them. -/
theorem head_fields (r : ChunkRecord) :
    fromLe64 (slice r.head 0 8) = r.key ∧ r.head.getD 8 0 = r.kind.asU8 ∧ r.head.getD 9 0 = r.workerId ∧
      fromLe64 (slice r.head 10 18) = r.offset ∧ fromLe32 (slice r.head 18 22) = r.len := by
  have hkey := slice_mid [] (toLe64 r.key)
    ([r.kind.asU8] ++ ([r.workerId] ++ (toLe64 r.offset ++ toLe32 r.len)))
  have hoff := slice_mid (toLe64 r.key ++ [r.kind.asU8] ++ [r.workerId]) (toLe64 r.offset) (toLe32 r.len)
  have hlen := slice_mid (toLe64 r.key ++ [r.kind.asU8] ++ [r.workerId] ++ toLe64 r.offset) (toLe32 r.len) []
  refine ⟨?_, ?_, ?_, ?_, ?_⟩ <;> simp_all [ChunkRecord.head, List.getD_eq_getElem?_getD]

/-- **Reading gives back what was written**, and what follows it. -/
theorem readFrom_writeTo {r : ChunkRecord} (hr : r.Plain) (rest : Bytes) :
    readFrom (r.writeTo ++ rest) = .ok (some (r, rest)) := by
  obtain ⟨hk, hkind, hw, ho, hl⟩ := head_fields r
  have hlen := length_head r
  have htake : (r.writeTo ++ rest).take logRecordBaseSize = r.head := by
    rw [writeTo_eq, List.append_assoc, List.take_left' hlen]
  have hdrop : (r.writeTo ++ rest).drop logRecordBaseSize =
      (if r.kind = .delta then toLe64 r.baseKey else []) ++ rest := by
    rw [writeTo_eq, List.append_assoc, List.drop_left' hlen]
  have hge : ¬ (r.writeTo ++ rest).length < logRecordBaseSize := by
    have := encodedLen_ge r
    rw [List.length_append, length_writeTo]; omega
  unfold readFrom
  rw [if_neg hge, htake, hdrop]
  simp only [hk, hkind, hw, ho, hl, ChunkKind.fromU8_asU8, ok_bind]
  by_cases hd : r.kind = .delta
  · have h8 := length_toLe64 r.baseKey
    have hnl : ¬ (toLe64 r.baseKey ++ rest).length < 8 := by simp
    rw [if_pos hd, if_pos hd, if_neg hnl, List.take_left' h8, List.drop_left' h8, fromLe64_toLe64]
  · rw [if_neg hd, if_neg hd, List.nil_append]
    have hb := hr hd
    obtain ⟨key, kind, wid, off, len, base⟩ := r
    simp only at hb; subst hb; rfl

/-- A record takes at least its fixed part from the input. -/
theorem readFrom_lt {bs rest : Bytes} {r : ChunkRecord} (h : readFrom bs = .ok (some (r, rest))) :
    rest.length < bs.length := by
  unfold readFrom at h
  split at h
  · simp at h
  rename_i hge
  simp only [bind_eq_ok] at h
  obtain ⟨kind, -, h⟩ := h
  unfold logRecordBaseSize at hge h
  split at h
  · split at h
    · simp [eofErr, ioErr] at h
    · simp only [Except.ok.injEq, Option.some.injEq, Prod.mk.injEq] at h
      rw [← h.2]; simp only [List.length_drop]; omega
  · simp only [Except.ok.injEq, Option.some.injEq, Prod.mk.injEq] at h
    rw [← h.2]; simp only [List.length_drop]; omega

/-- A rest shorter than the fixed part ends the scan. -/
theorem readFrom_short {bs : Bytes} (h : bs.length < logRecordBaseSize) : readFrom bs = .ok none :=
  if_pos h

/-- The bytes of a record list. -/
def encodeAll (rs : List ChunkRecord) : Bytes := rs.flatMap writeTo

@[simp] theorem encodeAll_nil : encodeAll [] = [] := rfl

@[simp] theorem encodeAll_cons (r : ChunkRecord) (rs : List ChunkRecord) :
    encodeAll (r :: rs) = r.writeTo ++ encodeAll rs := rfl

@[simp] theorem encodeAll_append (rs rs' : List ChunkRecord) :
    encodeAll (rs ++ rs') = encodeAll rs ++ encodeAll rs' := List.flatMap_append

/-- Every record takes bytes. -/
theorem length_le_encodeAll (rs : List ChunkRecord) : rs.length ≤ (encodeAll rs).length := by
  induction rs with
  | nil => exact Nat.zero_le _
  | cons r rs ih =>
    have := encodedLen_ge r
    rw [encodeAll_cons, List.length_append, length_writeTo, List.length_cons]
    unfold logRecordBaseSize at this
    omega

/-- **The records in front are read one by one**, then what is behind them. -/
theorem readAll_append {rs : List ChunkRecord} (h : ∀ r ∈ rs, r.Plain) (tail : Bytes) :
    ∀ fuel, (encodeAll rs ++ tail).length < fuel →
      ∃ fuel', readAll fuel (encodeAll rs ++ tail) = (readAll (fuel' + 1) tail).map (rs ++ ·) := by
  induction rs with
  | nil =>
    intro fuel hf
    refine ⟨fuel - 1, ?_⟩
    rw [encodeAll_nil, List.nil_append, Nat.sub_add_cancel (by omega)]
    cases readAll fuel tail with
    | error e => rfl
    | ok rs => rfl
  | cons r rs ih =>
    intro fuel hf
    rcases fuel with _ | fuel
    · omega
    · have hlen : (encodeAll rs ++ tail).length < fuel := by
        have := encodedLen_ge r
        simp only [encodeAll_cons, List.append_assoc, List.length_append, length_writeTo,
          logRecordBaseSize] at hf this ⊢
        omega
      obtain ⟨fuel', hrest⟩ := ih (fun r hr => h r (List.mem_cons_of_mem _ hr)) fuel hlen
      refine ⟨fuel', ?_⟩
      simp only [encodeAll_cons, List.append_assoc, readAll]
      rw [readFrom_writeTo (h r List.mem_cons_self)]
      simp only
      rw [hrest, readAll]
      cases readFrom tail with
      | error e => rfl
      | ok o =>
        cases o with
        | none => rfl
        | some p =>
          dsimp only
          cases readAll fuel' p.2 with
          | error e => rfl
          | ok rs' => rfl

/-- **A log body scans to its records**, also with an incomplete fixed part at the end. -/
theorem scan_encode_tail {rs : List ChunkRecord} (h : ∀ r ∈ rs, r.Plain) {tail : Bytes}
    (ht : tail.length < logRecordBaseSize) : scan (encodeAll rs ++ tail) = .ok rs := by
  obtain ⟨fuel, hread⟩ := readAll_append h tail _ (Nat.lt_succ_self _)
  unfold scan
  rw [hread, readAll, readFrom_short ht]
  exact congrArg Except.ok (List.append_nil rs)

theorem scan_encode {rs : List ChunkRecord} (h : ∀ r ∈ rs, r.Plain) : scan (encodeAll rs) = .ok rs := by
  have hnil : ([] : Bytes).length < logRecordBaseSize := by simp [logRecordBaseSize]
  have := scan_encode_tail h hnil
  rwa [List.append_nil] at this

/-- Every scanned record is one the writer's codec could have written. -/
theorem readFrom_plain {bs rest : Bytes} {r : ChunkRecord} (h : readFrom bs = .ok (some (r, rest))) :
    r.Plain := by
  unfold readFrom at h
  split at h
  · simp at h
  simp only [bind_eq_ok] at h
  obtain ⟨kind, -, h⟩ := h
  split at h
  · rename_i hd
    split at h
    · simp [eofErr, ioErr] at h
    · simp only [Except.ok.injEq, Option.some.injEq, Prod.mk.injEq] at h
      rw [← h.1]; exact fun hne => absurd hd hne
  · simp only [Except.ok.injEq, Option.some.injEq, Prod.mk.injEq] at h
    rw [← h.1]; exact fun _ => rfl

theorem readAll_plain : ∀ (fuel : ℕ) {bs : Bytes} {rs : List ChunkRecord}, readAll fuel bs = .ok rs → ∀ r ∈ rs, r.Plain
  | 0, bs, rs, h => by
    obtain rfl := Except.ok.inj h
    simp
  | fuel + 1, bs, rs, h => by
    unfold readAll at h
    cases hr : readFrom bs with
    | error e => rw [hr] at h; simp at h
    | ok o =>
      cases o with
      | none =>
        rw [hr] at h
        obtain rfl := Except.ok.inj h
        simp
      | some e =>
        obtain ⟨r, rest⟩ := e
        rw [hr] at h
        dsimp only at h
        cases hrest : readAll fuel rest with
        | error e => rw [hrest] at h; simp at h
        | ok rs' =>
          rw [hrest] at h
          obtain rfl := Except.ok.inj h
          intro r' hr'
          rcases List.mem_cons.1 hr' with rfl | hr'
          · exact readFrom_plain hr
          · exact readAll_plain fuel hrest r' hr'

theorem scan_plain {bs : Bytes} {rs : List ChunkRecord} (h : scan bs = .ok rs) : ∀ r ∈ rs, r.Plain := readAll_plain _ h

/-! ## Index records -/

theorem length_encodeFixed (r : ChunkRecord) : r.encodeFixed.length = fixedRecordSize := by
  simp [encodeFixed, fixedRecordSize]

/-- The fields of an index record are where the reader looks for them. -/
theorem encodeFixed_fields (r : ChunkRecord) :
    fromLe64 (slice r.encodeFixed 0 8) = r.key ∧ fromLe64 (slice r.encodeFixed 8 16) = r.baseKey ∧
      fromLe64 (slice r.encodeFixed 16 24) = r.offset ∧ fromLe32 (slice r.encodeFixed 24 28) = r.len ∧
      r.encodeFixed.getD 28 0 = r.kind.asU8 ∧ r.encodeFixed.getD 29 0 = r.workerId := by
  have hkey := slice_mid [] (toLe64 r.key) (toLe64 r.baseKey ++ (toLe64 r.offset ++ (toLe32 r.len ++
    ([r.kind.asU8] ++ ([r.workerId] ++ [0, 0])))))
  have hbase := slice_mid (toLe64 r.key) (toLe64 r.baseKey) (toLe64 r.offset ++ (toLe32 r.len ++
    ([r.kind.asU8] ++ ([r.workerId] ++ [0, 0]))))
  have hoff := slice_mid (toLe64 r.key ++ toLe64 r.baseKey) (toLe64 r.offset)
    (toLe32 r.len ++ ([r.kind.asU8] ++ ([r.workerId] ++ [0, 0])))
  have hlen := slice_mid (toLe64 r.key ++ toLe64 r.baseKey ++ toLe64 r.offset) (toLe32 r.len)
    ([r.kind.asU8] ++ ([r.workerId] ++ [0, 0]))
  refine ⟨?_, ?_, ?_, ?_, ?_, ?_⟩ <;> simp_all [encodeFixed, List.getD_eq_getElem?_getD]

/-- **The index codec loses nothing.** -/
theorem decodeFixed_encodeFixed (r : ChunkRecord) : decodeFixed r.encodeFixed = .ok r := by
  obtain ⟨hkey, hbase, hoff, hlen, hkind, hw⟩ := encodeFixed_fields r
  unfold decodeFixed
  simp only [hkey, hbase, hoff, hlen, hkind, hw, ChunkKind.fromU8_asU8, ok_bind]

/-! ## Patches -/

theorem wordAt_setWord_self (p : Page) {i : ℕ} (h : i < pageWords) (w : UInt64) :
    wordAt (setWord p i h w) i = w := by
  have hs := p.size
  have hmid := slice_mid (p.bytes.take (i * 8)) (toLe64 w) (p.bytes.drop ((i + 1) * 8))
  have hlen : (p.bytes.take (i * 8)).length = i * 8 := by
    simp only [pageWords, pageSize] at *
    rw [List.length_take]; omega
  rw [hlen, length_toLe64] at hmid
  unfold wordAt setWord
  simp only [List.append_assoc]
  rw [show (i + 1) * 8 = i * 8 + 8 by ring] at hmid ⊢
  rw [hmid, fromLe64_toLe64]

theorem wordAt_setWord_ne (p : Page) {i j : ℕ} (h : i < pageWords) (hj : j < pageWords) (w : UInt64)
    (hne : j ≠ i) : wordAt (setWord p i h w) j = wordAt p j := by
  have hs := p.size
  simp only [pageWords, pageSize] at *
  unfold wordAt setWord
  congr 1
  apply List.ext_getElem
  · rw [length_slice (by simp; omega), length_slice (by omega)]
  intro k h1 h2
  rw [length_slice (by simp; omega)] at h1
  rw [getElem_slice, getElem_slice]
  simp only [List.get_eq_getElem, List.append_assoc, List.getElem_append, List.length_take,
    length_toLe64, List.getElem_take, List.getElem_drop]
  -- word `j` lies wholly before or wholly after word `i`
  rcases Nat.lt_or_gt_of_ne hne with hlt | hgt
  · rw [dif_pos (by omega)]
  · rw [dif_neg (by omega), dif_neg (by omega)]
    congr 1; omega

/-- **Pages with the same words are the same.** -/
theorem page_ext {p q : Page} (h : ∀ i, i < pageWords → wordAt p i = wordAt q i) : p = q := by
  have hp := p.size
  have hq := q.size
  have hb : p.bytes = q.bytes := by
    apply List.ext_getElem (hp.trans hq.symm)
    intro n h1 h2
    simp only [pageWords, pageSize] at *
    have hw := h (n / 8) (by omega)
    have l1 : (slice p.bytes (n / 8 * 8) ((n / 8 + 1) * 8)).length = 8 := by
      rw [length_slice (by omega)]; omega
    have l2 : (slice q.bytes (n / 8 * 8) ((n / 8 + 1) * 8)).length = 8 := by
      rw [length_slice (by omega)]; omega
    have hsl : slice p.bytes (n / 8 * 8) ((n / 8 + 1) * 8) = slice q.bytes (n / 8 * 8) ((n / 8 + 1) * 8) := by
      rw [← toLe64_fromLe64 l1, ← toLe64_fromLe64 l2]; exact congrArg toLe64 hw
    have hr : n % 8 < 8 := Nat.mod_lt _ (by norm_num)
    have hk1 := getElem_slice (hr.trans_le l1.ge)
    have hk2 := getElem_slice (hr.trans_le l2.ge)
    simp only [List.get_eq_getElem, show n / 8 * 8 + n % 8 = n by omega] at hk1 hk2
    rw [← hk1, ← hk2]
    simp only [hsl]
  obtain ⟨pb, hps⟩ := p
  obtain ⟨qb, hqs⟩ := q
  simp only at hb; subst hb; rfl

/-- One entry of a patch, as the blob stores it. -/
def entryBytes (e : UInt16 × UInt64) : Bytes := toLe16 e.1 ++ toLe64 e.2

theorem length_entryBytes (e : UInt16 × UInt64) : (entryBytes e).length = 10 := by simp [entryBytes]

theorem encodeDeltaPatch_eq (patch : Patch) : encodeDeltaPatch patch = patch.flatMap entryBytes := rfl

theorem length_encodeDeltaPatch (patch : Patch) : (encodeDeltaPatch patch).length = patch.length * 10 := by
  induction patch with
  | nil => rfl
  | cons e patch ih =>
    rw [encodeDeltaPatch_eq, List.flatMap_cons, List.length_append, length_entryBytes,
      ← encodeDeltaPatch_eq, ih, List.length_cons]
    ring

theorem chunksExact_encodeDeltaPatch (patch : Patch) :
    chunksExact 10 (encodeDeltaPatch patch) = patch.map entryBytes :=
  chunksExact_flatMap (by norm_num) length_entryBytes patch

/-- The index of an entry, as the reader finds it. -/
theorem entryBytes_idx (e : UInt16 × UInt64) : fromLe16 ((entryBytes e).take 2) = e.1 := by
  rw [entryBytes, List.take_left' (length_toLe16 e.1), fromLe16_toLe16]

theorem applyEntry_entryBytes (out : Page) {e : UInt16 × UInt64} (h : e.1.toNat < pageWords) :
    applyEntry out (entryBytes e) = .ok (setWord out e.1.toNat h (wordAt out e.1.toNat ^^^ e.2)) := by
  have hx : slice (entryBytes e) 2 10 = toLe64 e.2 := by
    have := slice_append_right (toLe16 e.1) (toLe64 e.2)
    rwa [length_toLe16, length_toLe64] at this
  unfold applyEntry
  simp only [entryBytes_idx, hx, fromLe64_toLe64, h, dif_pos]

/-- The patch entries of the words `is`. -/
def patchOf (page base : Page) (is : List ℕ) : Patch :=
  is.filterMap fun i =>
    let x := wordAt page i ^^^ wordAt base i
    if x ≠ 0 then some (UInt16.ofNat i, x) else none

theorem computeXorPatch_eq (page base : Page) :
    computeXorPatch page base = patchOf page base (List.range pageWords) := rfl

/-- Every entry's index is a word of the page. -/
theorem computeXorPatch_idx {page base : Page} {e : UInt16 × UInt64} (h : e ∈ computeXorPatch page base) :
    e.1.toNat < pageWords := by
  unfold computeXorPatch at h
  simp only [List.mem_filterMap, List.mem_range] at h
  obtain ⟨i, hi, he⟩ := h
  split at he
  · simp only [Option.some.injEq] at he
    rw [← he, UInt16.toNat_ofNat_of_lt' (by simp only [pageWords, pageSize] at hi; simp [UInt16.size]; omega)]
    exact hi
  · simp at he

/-- **What applying the entries of some words does**: those words become the page's,
the others stay. The induction is on the words; a word not yet reached still holds
the base's value. -/
theorem apply_patchOf (page base : Page) : ∀ (is : List ℕ), is.Nodup → (∀ i ∈ is, i < pageWords) →
    ∀ out : Page, (∀ i ∈ is, wordAt out i = wordAt base i) →
      ∃ res, ((patchOf page base is).map entryBytes).foldlM applyEntry out = (.ok res : Res Page) ∧
        ∀ j, j < pageWords → wordAt res j = if j ∈ is then wordAt page j else wordAt out j := by
  intro is
  induction is with
  | nil => intro _ _ out _; exact ⟨out, rfl, fun j _ => by simp⟩
  | cons i is ih =>
    intro hnd hlt out hout
    obtain ⟨hi, hnd⟩ := List.nodup_cons.1 hnd
    have hiw := hlt i List.mem_cons_self
    have hlt' : ∀ k ∈ is, k < pageWords := fun k hk => hlt k (List.mem_cons_of_mem _ hk)
    by_cases hx : wordAt page i ^^^ wordAt base i = 0
    · -- equal words have no entry
      have heq : wordAt page i = wordAt base i := UInt64.xor_eq_zero_iff.1 hx
      obtain ⟨res, hres, hw⟩ := ih hnd hlt' out (fun k hk => hout k (List.mem_cons_of_mem _ hk))
      have hskip : patchOf page base (i :: is) = patchOf page base is := by
        simp only [patchOf, List.filterMap_cons, hx, ne_eq, not_true_eq_false, if_false]
      refine ⟨res, by rw [hskip]; exact hres, fun j hj => ?_⟩
      rw [hw j hj]
      by_cases hji : j = i
      · subst hji; simp [hi, heq, hout j List.mem_cons_self]
      · simp [hji]
    · have hidx : (UInt16.ofNat i).toNat = i :=
        UInt16.toNat_ofNat_of_lt' (by simp only [pageWords, pageSize] at hiw; simp [UInt16.size]; omega)
      have hstep := applyEntry_entryBytes out (e := (UInt16.ofNat i, wordAt page i ^^^ wordAt base i))
        (by simpa [hidx] using hiw)
      simp only [hidx] at hstep
      set out' := setWord out i hiw (wordAt out i ^^^ (wordAt page i ^^^ wordAt base i)) with hout'
      obtain ⟨res, hres, hw⟩ := ih hnd hlt' out' (fun k hk => by
        rw [hout', wordAt_setWord_ne out hiw (hlt' k hk) _ (fun h => hi (h ▸ hk))]
        exact hout k (List.mem_cons_of_mem _ hk))
      refine ⟨res, ?_, fun j hj => ?_⟩
      · simp only [patchOf, List.filterMap_cons, hx, ne_eq, not_false_eq_true, if_true, List.map_cons,
          List.foldlM_cons]
        rw [hstep]; exact hres
      · rw [hw j hj]
        by_cases hji : j = i
        · subst hji
          rw [if_neg hi, if_pos List.mem_cons_self, hout', wordAt_setWord_self,
            hout j List.mem_cons_self, UInt64.xor_comm (wordAt page j), ← UInt64.xor_assoc,
            UInt64.xor_self, UInt64.zero_xor]
        · rw [hout', wordAt_setWord_ne out hiw hj _ hji]
          simp [hji]

/-- **A patch applied to its base is the page.** -/
theorem applyDeltaPatchInPlace_encode (page base : Page) :
    applyDeltaPatchInPlace (encodeDeltaPatch (computeXorPatch page base)) base = .ok page := by
  obtain ⟨res, hres, hw⟩ := apply_patchOf page base (List.range pageWords) List.nodup_range
    (fun i hi => List.mem_range.1 hi) base (fun i _ => rfl)
  have hpage : res = page := page_ext fun i hi => by rw [hw i hi, if_pos (List.mem_range.2 hi)]
  have hmod : ¬ (encodeDeltaPatch (computeXorPatch page base)).length % 10 ≠ 0 := by
    rw [length_encodeDeltaPatch, Nat.mul_mod_left]; simp
  unfold applyDeltaPatchInPlace applyDeltaXor
  rw [if_neg hmod, chunksExact_encodeDeltaPatch, computeXorPatch_eq, hres, hpage]

end Bxdb
