import Bxdb.Lib.Bits
import Bxdb.Proof.Bulk
import Bxdb.Proof.Managed
import Bxdb.Spec.ConvertToRaw
import Mathlib.Data.List.Perm.Subperm

/-!
# The raw chain answers floor queries

* `rawPage_writeRawFile`: a file gives back, for every address it lists, the page the
  memory held there.
* `Exported`: the invariant of the walk over the log, kept by a record (`Exported.record`)
  and by the whole walk (`Exported.loop`).
* `convertToRaw_refines`: **looking a page up in the chain gives what a load returns**, in a
  directory with no chain file before.
* `convertToRaw_over`: what a run leaves where there are files already, which answer too
  (`convertToRaw_leftover`).
-/

namespace Bxdb

open Bytes SortedIndex Versioned ChunkRecord Buffered

/-! ## Reading the memory -/

theorem page_eq_of_bytes {p q : Page} (h : p.bytes = q.bytes) : p = q := by
  obtain ⟨_, _⟩ := p
  obtain ⟨_, _⟩ := q
  subst h
  rfl

/-- The page at byte `a` of a memory that has one there. -/
def pageFrom (memory : Bytes) (a : ℕ) : Page := (readPage memory a).toOption.getD Page.zero

theorem readPage_ok {memory : Bytes} {a : ℕ} (h : a + pageSize ≤ memory.length) :
    readPage memory a = .ok (pageFrom memory a) ∧ (pageFrom memory a).bytes = slice memory a (a + pageSize) := by
  have hlen : (slice memory a (a + pageSize)).length = pageSize := by
    rw [length_slice h, Nat.add_sub_cancel_left]
  have hread : readPage memory a = .ok ⟨_, hlen⟩ := by
    unfold readPage
    rw [dif_pos hlen]
  unfold pageFrom
  rw [hread]
  exact ⟨rfl, rfl⟩

/-- A page written over is read back. -/
theorem readPage_writeAt_self {memory : Bytes} {a : ℕ} (page : Page) (h : a + pageSize ≤ memory.length) :
    readPage (RawFile.writeAt memory a page.bytes) a = .ok page := by
  have hself : slice (RawFile.writeAt memory a page.bytes) a (a + pageSize) = page.bytes := by
    have := @RawFile.slice_writeAt_self memory page.bytes a (by rw [page.size]; exact h)
    rwa [page.size] at this
  have hpage : ∀ h, (⟨slice (RawFile.writeAt memory a page.bytes) a (a + pageSize), h⟩ : Page) = page := by
    rw [hself]
    intro h
    rfl
  unfold readPage
  rw [dif_pos (by rw [hself, page.size]), hpage]

/-- Every other page stays. -/
theorem readPage_writeAt_ne {memory : Bytes} {p q : ℕ} (page : Page) (h : (p + 1) * pageSize ≤ memory.length)
    (hne : q ≠ p) : readPage (RawFile.writeAt memory (p * pageSize) page.bytes) (q * pageSize) =
      readPage memory (q * pageSize) := by
  have hsame : slice (RawFile.writeAt memory (p * pageSize) page.bytes) (q * pageSize) (q * pageSize + pageSize) =
      slice memory (q * pageSize) (q * pageSize + pageSize) := by
    unfold pageSize at *
    apply RawFile.slice_writeAt_disjoint
    · rw [page.size]
      unfold pageSize
      omega
    · rw [page.size]
      unfold pageSize
      omega
  unfold readPage
  rw [hsame]

/-! ## One file -/

theorem dataOff_toNat {x : UInt64} (h : x.toNat + 4095 < 2 ^ 64) :
    ((x + (align - 1)) &&& ~~~(align - 1)).toNat = (x.toNat + 4095) / 4096 * 4096 := by
  have hmask : (~~~(align - 1)).toNat = 2 ^ 64 - 2 ^ 12 := rfl
  have hone : (align - 1).toNat = 4095 := rfl
  rw [UInt64.toNat_and, hmask, UInt64.toNat_add, hone, Nat.mod_eq_of_lt h, Bits.and_two_pow_sub (by omega) h]
  norm_num

section File

variable {addrs : List UInt64} {memory : Bytes}

/-- The parts of a file, with its pages at the first multiple of 4096 behind the table. -/
theorem writeRawFile_ok (hn : addrs.length < 2 ^ 60) (hin : ∀ a ∈ addrs, a.toNat + pageSize ≤ memory.length) :
    ∃ pad : Bytes, writeRawFile addrs memory = .ok (toLe64 (UInt64.ofNat addrs.length) ++ (addrs.flatMap toLe64 ++
        (pad ++ addrs.flatMap fun a => (pageFrom memory a.toNat).bytes))) ∧
      8 + addrs.length * 8 + pad.length = rawDataStart addrs.length := by
  have hpages := mapM_ok fun a ha => (readPage_ok (hin a ha)).1
  have hnum : (UInt64.ofNat addrs.length).toNat = addrs.length := UInt64.toNat_ofNat_of_lt' (by
    rw [UInt64.size]
    omega)
  have hoff : (8 + UInt64.ofNat addrs.length * 8).toNat = 8 + addrs.length * 8 := by
    have height : (8 : UInt64).toNat = 8 := rfl
    rw [UInt64.toNat_add, UInt64.toNat_mul, hnum, height]
    omega
  have hstart := @dataOff_toNat (8 + UInt64.ofNat addrs.length * 8) (by rw [hoff]; omega)
  rw [hoff] at hstart
  have htable : (toLe64 (UInt64.ofNat addrs.length) ++ addrs.flatMap toLe64).length = 8 + addrs.length * 8 := by
    rw [List.length_append, length_toLe64, List.length_flatMap]
    simp
  refine ⟨List.replicate (rawDataStart addrs.length - (8 + addrs.length * 8)) 0, ?_, ?_⟩
  · unfold writeRawFile
    dsimp only
    rw [hpages, ok_bind, hstart, htable, List.flatMap_map, List.append_assoc, List.append_assoc]
    rfl
  · rw [List.length_replicate]
    unfold rawDataStart
    omega

/-- The table is read back. -/
theorem rawTable_file (hn : addrs.length < 2 ^ 60) (rest : Bytes) :
    rawTable (toLe64 (UInt64.ofNat addrs.length) ++ (addrs.flatMap toLe64 ++ rest)) = addrs := by
  have hnum : (UInt64.ofNat addrs.length).toNat = addrs.length := UInt64.toNat_ofNat_of_lt' (by
    rw [UInt64.size]
    omega)
  have hcount : slice (toLe64 (UInt64.ofNat addrs.length) ++ (addrs.flatMap toLe64 ++ rest)) 0 8 =
      toLe64 (UInt64.ofNat addrs.length) := by
    rw [slice_append_left (by simp), slice_zero]
    exact List.take_of_length_le (by simp)
  have hlen : (addrs.flatMap toLe64).length = addrs.length * 8 := by
    rw [List.length_flatMap]
    simp
  unfold rawTable
  rw [hcount, fromLe64_toLe64, hnum]
  apply List.ext_getElem
  · simp
  · intro i h1 h2
    -- the table's bytes are blocks of eight, one for each address
    have hskip := slice_append_add (toLe64 (UInt64.ofNat addrs.length)) (addrs.flatMap toLe64 ++ rest) (i * 8) (i * 8 + 8)
    rw [length_toLe64] at hskip
    rw [List.getElem_map, List.getElem_range, Nat.add_assoc, hskip, slice_append_left (by rw [hlen]; omega),
      slice_flatMap length_toLe64 addrs i h2, fromLe64_toLe64]

/-- **A file gives back the pages it lists**, and no other. -/
theorem rawPage_writeRawFile (hn : addrs.length < 2 ^ 60) (hin : ∀ a ∈ addrs, a.toNat + pageSize ≤ memory.length)
    {file : Bytes} (hw : writeRawFile addrs memory = .ok file) (pa : UInt64) (bytes : Bytes) :
    rawPage file pa = some bytes ↔
      (∃ a ∈ addrs, a.toNat = pa.toNat * pageSize) ∧ (pageFrom memory (pa.toNat * pageSize)).bytes = bytes := by
  obtain ⟨pad, hok, hstart⟩ := writeRawFile_ok hn hin
  rw [hw] at hok
  obtain rfl := Except.ok.inj hok
  unfold rawPage
  dsimp only
  rw [rawTable_file hn]
  set table := toLe64 (UInt64.ofNat addrs.length) ++ (addrs.flatMap toLe64 ++
    (pad ++ addrs.flatMap fun a => (pageFrom memory a.toNat).bytes)) with htable
  -- the pages start where the reader looks for them, in the table's order
  have hpages : ∀ i (h : i < addrs.length), slice table (rawDataStart addrs.length + i * pageSize)
      (rawDataStart addrs.length + i * pageSize + pageSize) = (pageFrom memory addrs[i].toNat).bytes := by
    intro i h
    have hskip := slice_append_add (toLe64 (UInt64.ofNat addrs.length) ++ (addrs.flatMap toLe64 ++ pad))
      (addrs.flatMap fun a => (pageFrom memory a.toNat).bytes) (i * pageSize) (i * pageSize + pageSize)
    have hlen : (toLe64 (UInt64.ofNat addrs.length) ++ (addrs.flatMap toLe64 ++ pad)).length = rawDataStart addrs.length := by
      rw [← hstart, List.length_append, List.length_append, List.length_flatMap, length_toLe64]
      simp
      omega
    rw [hlen, List.append_assoc, List.append_assoc, ← htable, ← Nat.add_assoc] at hskip
    have hsize : ∀ a : UInt64, ((fun a : UInt64 => (pageFrom memory a.toNat).bytes) a).length = pageSize :=
      fun a => (pageFrom memory a.toNat).size
    rw [hskip, slice_flatMap hsize addrs i h]
  constructor
  · intro h
    obtain ⟨i, hi, hbytes⟩ := Option.map_eq_some_iff.1 h
    obtain ⟨hlt, hp, -⟩ := List.findIdx?_eq_some_iff_getElem.1 hi
    have ha : addrs[i].toNat = pa.toNat * pageSize := of_decide_eq_true hp
    rw [hpages i hlt, ha] at hbytes
    exact ⟨⟨addrs[i], List.getElem_mem hlt, ha⟩, hbytes⟩
  · rintro ⟨⟨a, ha, hpa⟩, rfl⟩
    have hfound : (addrs.findIdx? fun a => a.toNat = pa.toNat * pageSize) ≠ none := by
      intro hnone
      have := List.findIdx?_eq_none_iff.1 hnone a ha
      exact absurd hpa (of_decide_eq_false this)
    obtain ⟨i, hi⟩ := Option.ne_none_iff_exists'.1 hfound
    obtain ⟨hlt, hp, -⟩ := List.findIdx?_eq_some_iff_getElem.1 hi
    have ha' : addrs[i].toNat = pa.toNat * pageSize := of_decide_eq_true hp
    rw [hi, Option.map_some, hpages i hlt, ha']

end File

/-! ## Flushing a snapshot -/

theorem filterM_ok {α : Type} {p : α → Res Bool} {q : α → Bool} {l : List α} (h : ∀ a ∈ l, p a = .ok (q a)) :
    l.filterM p = .ok (l.filter q) := by
  have haux : ∀ (l acc : List α), (∀ a ∈ l, p a = .ok (q a)) →
      List.filterAuxM p l acc = .ok ((l.filter q).reverse ++ acc) := by
    intro l
    induction l with
    | nil =>
      intro acc _
      rfl
    | cons a l ih =>
      intro acc hl
      unfold List.filterAuxM
      rw [hl a List.mem_cons_self, ok_bind, ih _ fun b hb => hl b (List.mem_cons_of_mem _ hb)]
      cases hq : q a <;> simp [hq]
  unfold List.filterM
  rw [haux l [] h, ok_bind, List.append_nil]
  exact congrArg Except.ok (List.reverse_reverse _)

/-- Which bytes an address received with which snapshot id. -/
def bytesOf (vs : List Version) : Writes UInt64 ℕ Bytes := fun pa t bs => ∃ p, pagesOf vs pa t p ∧ p.bytes = bs

theorem bytesOf_iff {vs : List Version} {pa : UInt64} {t : ℕ} {bs : Bytes} :
    bytesOf vs pa t bs ↔ ∃ v ∈ vs, v.pa = pa ∧ v.snap = t ∧ v.page.bytes = bs := by
  constructor
  · rintro ⟨p, ⟨v, ⟨hv, hpa, ht⟩, rfl⟩, hbs⟩
    exact ⟨v, hv, hpa, ht, hbs⟩
  · rintro ⟨v, hv, hpa, ht, hbs⟩
    exact ⟨v.page, ⟨v, ⟨hv, hpa, ht⟩, rfl⟩, hbs⟩

/-- The variables after the records of `done`, in a memory of `n` pages: the image has the
pages of the current snapshot, and the files hold what came before it, under smaller ids. -/
structure Exported (n : ℕ) (done : List Version) (st : RawState) : Prop where
  size : st.state.length = n * pageSize
  inside : ∀ v ∈ done, v.pa.toNat < n
  past : ∀ v ∈ done, v.snap ≤ st.currentSnapId.toNat
  dirty : ∀ pa, pa ∈ st.dirty ↔ ∃ v ∈ done, v.pa = pa ∧ v.snap = st.currentSnapId.toNat
  nodup : st.dirty.Nodup
  image : ∀ v ∈ done, v.snap = st.currentSnapId.toNat → readPage st.state (v.pa.toNat * pageSize) = .ok v.page
  files : Layered st.chain.layer Page.zero.bytes fun pa t bs => bytesOf done pa t bs ∧ t < st.currentSnapId.toNat
  below : ∀ t, st.currentSnapId.toNat ≤ t → st.chain t = none

section Flush

variable {n : ℕ} {done : List Version} {st : RawState}

theorem Exported.dirty_lt (h : Exported n done st) {pa : UInt64} (hpa : pa ∈ st.dirty) : pa.toNat < n := by
  obtain ⟨v, hv, rfl, -⟩ := (h.dirty pa).1 hpa
  exact h.inside v hv

theorem Exported.length_dirty (h : Exported n done st) : st.dirty.length ≤ n := by
  have hnodup : (st.dirty.map UInt64.toNat).Nodup := h.nodup.map fun _ _ => UInt64.toNat_inj.1
  have hsub : st.dirty.map UInt64.toNat ⊆ List.range n := by
    intro i hi
    obtain ⟨pa, hpa, rfl⟩ := List.mem_map.1 hi
    exact List.mem_range.2 (h.dirty_lt hpa)
  have := (List.subperm_of_subset hnodup hsub).length_le
  rwa [List.length_map, List.length_range] at this

/-- The page of a version of the current snapshot is read from the image. -/
theorem Exported.pageFrom_eq (h : Exported n done st) {v : Version} (hv : v ∈ done)
    (hs : v.snap = st.currentSnapId.toNat) : pageFrom st.state (v.pa.toNat * pageSize) = v.page := by
  unfold pageFrom
  rw [h.image v hv hs]
  rfl

/-- The addresses a flush lists. -/
def RawState.kept (st : RawState) : List UInt64 := st.dirty.filter fun pa =>
  decide (st.currentSnapId = 0 → pageFrom st.state (pa.toNat * pageSize) ≠ Page.zero)

theorem Exported.mem_kept (h : Exported n done st) (pa : UInt64) : pa ∈ st.kept ↔ ∃ v ∈ done, v.pa = pa ∧
    v.snap = st.currentSnapId.toNat ∧ (st.currentSnapId = 0 → v.page ≠ Page.zero) := by
  unfold RawState.kept
  rw [List.mem_filter, decide_eq_true_eq]
  constructor
  · rintro ⟨hpa, hzero⟩
    obtain ⟨v, hv, rfl, hs⟩ := (h.dirty pa).1 hpa
    rw [h.pageFrom_eq hv hs] at hzero
    exact ⟨v, hv, rfl, hs, hzero⟩
  · rintro ⟨v, hv, rfl, hs, hzero⟩
    rw [h.pageFrom_eq hv hs]
    exact ⟨(h.dirty v.pa).2 ⟨v, hv, rfl, hs⟩, hzero⟩

theorem Exported.filterM_lists (h : Exported n done st) :
    st.dirty.filterM (lists st.currentSnapId st.state) = .ok st.kept := by
  apply filterM_ok
  intro pa hpa
  obtain ⟨v, hv, rfl, hs⟩ := (h.dirty pa).1 hpa
  rw [h.pageFrom_eq hv hs]
  unfold lists
  split
  · rename_i h0
    rw [h.image v hv hs, ok_bind]
    cases hz : isAllZero v.page with
    | true => simp [h0, isAllZero_iff.1 hz]
    | false =>
      have hne : v.page ≠ Page.zero := fun hc => by rw [isAllZero_iff.2 hc] at hz; simp at hz
      simp [hne]
  · rename_i h0
    simp [h0]

/-- The byte addresses of a flush: no product overflows. -/
theorem Exported.scale (h : Exported n done st) (hn : n * pageSize < 2 ^ 64) {pa : UInt64} (hpa : pa ∈ st.kept) :
    pa.toNat < n ∧ (pa * UInt64.ofNat pageSize).toNat = pa.toNat * pageSize := by
  have hlt := h.dirty_lt (List.mem_filter.1 hpa).1
  have hsize : (UInt64.ofNat pageSize).toNat = 4096 := rfl
  refine ⟨hlt, ?_⟩
  rw [UInt64.toNat_mul, hsize]
  unfold pageSize at *
  omega

/-- **The file of a snapshot** holds its pages; that of snapshot 0, those that are not zero. -/
theorem Exported.flush (h : Exported n done st) (hn : n * pageSize < 2 ^ 64) : ∃ file,
    flushSnapshot st.chain st.currentSnapId st.state st.dirty =
      .ok (Function.update st.chain st.currentSnapId.toNat (some file)) ∧
    ∀ pa bytes, rawPage file pa = some bytes ↔ ∃ v ∈ done, v.pa = pa ∧ v.snap = st.currentSnapId.toNat ∧
      (st.currentSnapId = 0 → v.page ≠ Page.zero) ∧ v.page.bytes = bytes := by
  have hlen : (st.kept.map fun pa => pa * UInt64.ofNat pageSize).length < 2 ^ 60 := by
    have h1 := h.length_dirty
    have h2 : st.kept.length ≤ st.dirty.length := List.length_filter_le _ _
    rw [List.length_map]
    unfold pageSize at hn
    omega
  have hin : ∀ a ∈ st.kept.map (fun pa => pa * UInt64.ofNat pageSize), a.toNat + pageSize ≤ st.state.length := by
    intro a ha
    obtain ⟨pa, hpa, rfl⟩ := List.mem_map.1 ha
    obtain ⟨hlt, hscale⟩ := h.scale hn hpa
    rw [hscale, h.size, ← Nat.succ_mul]
    exact Nat.mul_le_mul_right _ hlt
  obtain ⟨pad, hwrite, -⟩ := writeRawFile_ok hlen hin
  refine ⟨_, ?_, fun pa bytes => (rawPage_writeRawFile hlen hin hwrite pa bytes).trans ⟨?_, ?_⟩⟩
  · unfold flushSnapshot
    rw [h.filterM_lists, ok_bind, hwrite, ok_bind]
  · rintro ⟨⟨a, ha, heq⟩, hbytes⟩
    obtain ⟨pa', hpa', rfl⟩ := List.mem_map.1 ha
    rw [(h.scale hn hpa').2] at heq
    obtain rfl : pa' = pa := UInt64.toNat_inj.1 (Nat.eq_of_mul_eq_mul_right (by decide) heq)
    obtain ⟨v, hv, rfl, hs, hzero⟩ := (h.mem_kept pa').1 hpa'
    rw [h.pageFrom_eq hv hs] at hbytes
    exact ⟨v, hv, rfl, hs, hzero, hbytes⟩
  · rintro ⟨v, hv, rfl, hs, hzero, hbytes⟩
    have hpa := (h.mem_kept v.pa).2 ⟨v, hv, rfl, hs, hzero⟩
    rw [h.pageFrom_eq hv hs]
    exact ⟨⟨_, List.mem_map_of_mem hpa, (h.scale hn hpa).2⟩, hbytes⟩

/-- **After a flush the files hold everything.** -/
theorem Exported.flushed (h : Exported n done st) (hn : n * pageSize < 2 ^ 64) : ∃ chain,
    flushSnapshot st.chain st.currentSnapId st.state st.dirty = .ok chain ∧
    Layered chain.layer Page.zero.bytes (bytesOf done) ∧ ∀ t, st.currentSnapId.toNat < t → chain t = none := by
  obtain ⟨file, hok, hfile⟩ := h.flush hn
  refine ⟨_, hok, ?_, fun t ht => (Function.update_of_ne ht.ne' _ _).trans (h.below t ht.le)⟩
  set cur := st.currentSnapId.toNat with hcur
  have hself : ∀ pa, Chain.layer (Function.update st.chain cur (some file)) cur pa = rawPage file pa := by
    intro pa
    unfold Chain.layer
    rw [Function.update_self]
    rfl
  have hother : ∀ t pa, t ≠ cur → Chain.layer (Function.update st.chain cur (some file)) t pa = st.chain.layer t pa := by
    intro t pa ht
    unfold Chain.layer
    rw [Function.update_of_ne ht]
  -- only the file of the current snapshot is new; the older ones are as they were
  constructor
  · intro t pa bytes hL
    rcases eq_or_ne t cur with rfl | ht
    · rw [hself, hfile] at hL
      obtain ⟨v, hv, hpa, hs, -, hbytes⟩ := hL
      exact bytesOf_iff.2 ⟨v, hv, hpa, hs, hbytes⟩
    · rw [hother t pa ht] at hL
      exact (h.files.sound t pa bytes hL).1
  · intro pa t bytes hw
    obtain ⟨v, hv, rfl, rfl, rfl⟩ := bytesOf_iff.1 hw
    rcases eq_or_ne v.snap cur with hs | hs
    · rw [hs, hself]
      by_cases hzero : st.currentSnapId = 0 → v.page ≠ Page.zero
      · exact .inl ((hfile v.pa _).2 ⟨v, hv, rfl, hs, hzero, rfl⟩)
      · -- a zero page of snapshot 0 is left out, and nothing is older
        obtain ⟨h0, hnz⟩ := Classical.not_imp.1 hzero
        have hz : v.page = Page.zero := not_not.1 hnz
        refine .inr ⟨?_, by rw [hz], fun t' _ _ => ?_⟩
        · by_contra hne
          obtain ⟨bytes, hb⟩ := Option.ne_none_iff_exists'.1 hne
          obtain ⟨u, hu, hpa, hsu, hne', -⟩ := (hfile v.pa bytes).1 hb
          have hpages := h.pageFrom_eq hu hsu
          rw [hpa, h.pageFrom_eq hv hs] at hpages
          exact hne' h0 (hpages.symm.trans hz)
        · rw [hcur, h0]
          exact Nat.zero_le _
    · have hlt : v.snap < cur := lt_of_le_of_ne (h.past v hv) hs
      rw [hother _ _ hs]
      rcases h.files.complete v.pa v.snap _ ⟨hw, hlt⟩ with hL | ⟨hL, hz, hfirst⟩
      · exact .inl hL
      · refine .inr ⟨hL, hz, fun t' b hb => ?_⟩
        rcases Nat.lt_or_ge t' cur with ht' | ht'
        · exact hfirst t' b ⟨hb, ht'⟩
        · exact hlt.le.trans ht'

end Flush

/-! ## The walk -/

section Walk

variable {z : Zstd} {store : PageStore} {n : ℕ} {done rest : List Version} {v : Version} {st : RawState}

/-- **The export resolves a record just when a load does**, to the same page. -/
theorem chunkPage_iff {rec : ChunkRecord} {page : Page} :
    chunkPage z store rec = .ok page ↔ store.resolveUncached z rec = .ok page := by
  unfold PageStore.resolveUncached chunkPage
  cases hk : rec.kind with
  | zero => exact Iff.rfl
  | full => exact Iff.rfl
  | delta =>
    dsimp only
    unfold PageStore.loadFull
    cases hbase : store.exactLookup rec.baseKey with
    | error e => exact Iff.rfl
    | ok found =>
      rw [ok_bind, ok_bind]
      cases found with
      | none => exact iff_of_false nofun nofun
      | some baseRec =>
        dsimp only
        split
        · exact iff_of_false nofun nofun
        · exact Iff.rfl

/-- The records left come behind the walk's position. -/
def Ahead (st : RawState) (v : Version) : Prop :=
  st.currentSnapId.toNat < v.snap ∨ st.currentSnapId.toNat = v.snap ∧ st.lastPa ≤ v.pa

/-- **At a snapshot boundary** the files catch up, and the walk stands at the record. -/
theorem Exported.enter (h : Exported n done st) (hn : n * pageSize < 2 ^ 64) (hv : Ahead st v) : ∃ st',
    enterSnapshot st v.pa (snapshotOf v.key) = .ok st' ∧ Exported n done st' ∧
      st'.currentSnapId.toNat = v.snap ∧ st'.lastPa = v.pa := by
  have hsnap : v.snap = (snapshotOf v.key).toNat := rfl
  unfold enterSnapshot
  rcases hv with hlt | ⟨heq, hle⟩
  · -- a new snapshot: the one before it is complete and is written
    obtain ⟨chain, hflush, hfiles, habove⟩ := h.flushed hn
    have hne : snapshotOf v.key ≠ st.currentSnapId := by
      intro hc
      rw [hsnap, hc] at hlt
      omega
    have hnot : ¬ snapshotOf v.key < st.currentSnapId := by
      rw [UInt32.lt_iff_toNat_lt, ← hsnap]
      omega
    rw [if_neg hnot, if_pos hne, hflush, ok_bind]
    refine ⟨_, rfl, ⟨h.size, h.inside, fun u hu => ?_, fun pa => ?_, List.nodup_nil, fun u hu hs => ?_, ?_,
      fun t ht => habove t (hlt.trans_le ht)⟩, rfl, rfl⟩
    · exact (h.past u hu).trans hlt.le
    · constructor
      · intro hpa
        simp at hpa
      · rintro ⟨u, hu, -, hs⟩
        have hpast := h.past u hu
        change u.snap = v.snap at hs
        omega
    · have hpast := h.past u hu
      change u.snap = v.snap at hs
      omega
    · apply hfiles.congr
      intro pa t bytes
      refine ⟨fun hw => ⟨hw, ?_⟩, And.left⟩
      obtain ⟨u, hu, -, rfl, -⟩ := bytesOf_iff.1 hw
      exact (h.past u hu).trans_lt hlt
  · -- the same snapshot: the addresses go up
    have hsame : snapshotOf v.key = st.currentSnapId := UInt32.toNat_inj.1 heq.symm
    have hnot : ¬ snapshotOf v.key < st.currentSnapId := by
      rw [hsame]
      exact UInt32.lt_irrefl _
    rw [if_neg hnot, if_neg (not_not.2 hsame), if_neg (UInt64.not_lt.2 hle)]
    exact ⟨_, rfl, ⟨h.size, h.inside, h.past, h.dirty, h.nodup, h.image, h.files, h.below⟩, heq, rfl⟩

theorem mem_insertPa {pa q : UInt64} {dirty : List UInt64} : q ∈ insertPa pa dirty ↔ q = pa ∨ q ∈ dirty := by
  unfold insertPa
  split
  · rename_i hpa
    constructor
    · exact Or.inr
    · rintro (rfl | hq)
      · exact hpa
      · exact hq
  · exact List.mem_orderedInsert _

theorem nodup_insertPa {pa : UInt64} {dirty : List UInt64} (h : dirty.Nodup) : (insertPa pa dirty).Nodup := by
  unfold insertPa
  split
  · exact h
  · rename_i hpa
    rw [(List.perm_orderedInsert _ pa dirty).nodup_iff]
    exact List.nodup_cons.2 ⟨hpa, h⟩

/-- The versions after one more: it takes the place of one with its key. -/
abbrev latest (done : List Version) (v : Version) : List Version := supersede (fun u => recordKey u.chunk) done v

theorem mem_latest {u : Version} : u ∈ latest done v ↔ u = v ∨ u ∈ done ∧ recordKey u.chunk ≠ recordKey v.chunk :=
  mem_supersede

theorem recordKey_eq_of {u : Version} (hs : u.snap = v.snap) (hpa : u.pa = v.pa) :
    recordKey u.chunk = recordKey v.chunk := by
  change (snapshotOf u.chunk.key).toNat = (snapshotOf v.chunk.key).toNat at hs
  change paOf u.chunk.key = paOf v.chunk.key at hpa
  rw [recordKey_eq, recordKey_eq, hs, hpa]

/-- **A record's page** goes into the image. -/
theorem Exported.put (h : Exported n done st) (hs : st.currentSnapId.toNat = v.snap) (hpa : v.pa.toNat < n) :
    Exported n (latest done v) { st with
      dirty := insertPa v.pa st.dirty, state := RawFile.writeAt st.state (v.pa.toNat * pageSize) v.page.bytes } := by
  have hfits : (v.pa.toNat + 1) * pageSize ≤ st.state.length := by
    rw [h.size]
    exact Nat.mul_le_mul_right _ hpa
  have hfits' : v.pa.toNat * pageSize + pageSize ≤ st.state.length := by
    rwa [← Nat.succ_mul]
  constructor
  · rw [RawFile.length_writeAt (by rw [v.page.size]; exact hfits'), h.size]
  · intro u hu
    rcases mem_latest.1 hu with rfl | ⟨hu, -⟩
    · exact hpa
    · exact h.inside u hu
  · intro u hu
    rcases mem_latest.1 hu with rfl | ⟨hu, -⟩
    · exact hs.ge
    · exact h.past u hu
  · intro pa
    rw [mem_insertPa, h.dirty]
    constructor
    · rintro (rfl | ⟨u, hu, rfl, hsu⟩)
      · exact ⟨v, mem_latest.2 (.inl rfl), rfl, hs.symm⟩
      · by_cases hkey : u.pa = v.pa
        · exact ⟨v, mem_latest.2 (.inl rfl), hkey.symm, hs.symm⟩
        · refine ⟨u, mem_latest.2 (.inr ⟨hu, fun heq => hkey ?_⟩), rfl, hsu⟩
          exact congrArg paOf (recordKey_inj heq)
    · rintro ⟨u, hu, hpau, hsu⟩
      rcases mem_latest.1 hu with rfl | ⟨hu, -⟩
      · exact .inl hpau.symm
      · exact .inr ⟨u, hu, hpau, hsu⟩
  · exact nodup_insertPa h.nodup
  · intro u hu hsu
    rcases mem_latest.1 hu with rfl | ⟨hu, hkey⟩
    · exact readPage_writeAt_self u.page hfits'
    · -- another address of the snapshot: the write does not reach its page
      have hne : u.pa.toNat ≠ v.pa.toNat := fun hc => hkey (recordKey_eq_of (hsu.trans hs) (UInt64.toNat_inj.1 hc))
      exact (readPage_writeAt_ne v.page hfits hne).trans (h.image u hu hsu)
  · apply h.files.congr
    intro pa t bytes
    refine and_congr_left fun ht => ?_
    change t < st.currentSnapId.toNat at ht
    rw [bytesOf_iff, bytesOf_iff]
    constructor
    · rintro ⟨u, hu, hpau, hsu, hrest⟩
      refine ⟨u, mem_latest.2 (.inr ⟨hu, fun heq => ?_⟩), hpau, hsu, hrest⟩
      -- the record is of the current snapshot
      have hsame : u.snap = v.snap := congrArg (fun k => (snapshotOf k).toNat) (recordKey_inj heq)
      omega
    · rintro ⟨u, hu, hpau, hsu, hrest⟩
      rcases mem_latest.1 hu with rfl | ⟨hu, -⟩
      · omega
      · exact ⟨u, hu, hpau, hsu, hrest⟩
  · exact h.below

/-- What the walk makes of a record, once it stands in its snapshot. -/
theorem Exported.reach (h : Exported n done st) (hn : n * pageSize < 2 ^ 64) (hv : Ahead st v) (hpa : v.pa.toNat < n) :
    ∃ st', Exported n done st' ∧ st'.currentSnapId.toNat = v.snap ∧ st'.lastPa = v.pa ∧
      convertRecord z store st v.chunk = match chunkPage z store v.chunk with
        | .ok page => .ok ({ st' with
            dirty := insertPa v.pa st'.dirty, state := RawFile.writeAt st'.state (v.pa.toNat * pageSize) page.bytes }, false)
        | .error (.err _) =>
          if v.chunk.kind = .full ∧ 2 ^ 64 ≤ v.chunk.offset.toNat + v.chunk.len.toNat then
            panics "attempt to add with overflow"
          else .ok ({ st' with dirty := insertPa v.pa st'.dirty }, true)
        | .error (.panic msg) => panics msg := by
  obtain ⟨st1, henter, h1, hcur, hlast⟩ := h.enter hn hv
  have hfits : ¬ st1.state.length < v.pa.toNat * pageSize + pageSize := by
    rw [h1.size, ← Nat.succ_mul]
    exact Nat.not_lt.2 (Nat.mul_le_mul_right _ hpa)
  refine ⟨st1, h1, hcur, hlast, ?_⟩
  unfold convertRecord
  change (enterSnapshot st v.pa (snapshotOf v.key) >>= _) = _
  rw [henter, ok_bind]
  change (if st1.state.length < v.pa.toNat * pageSize + pageSize then _ else _) = _
  rw [if_neg hfits]
  rfl

/-- **One record.** -/
theorem Exported.record (h : Exported n done st) (hn : n * pageSize < 2 ^ 64) (hv : Ahead st v) (hpa : v.pa.toNat < n)
    (hpage : chunkPage z store v.chunk = .ok v.page) :
    ∃ st', convertRecord z store st v.chunk = .ok (st', false) ∧ Exported n (latest done v) st' ∧
      st'.currentSnapId.toNat = v.snap ∧ st'.lastPa = v.pa := by
  obtain ⟨st1, h1, hcur, hlast, hrec⟩ := @Exported.reach z store n done v st h hn hv hpa
  rw [hpage] at hrec
  exact ⟨_, hrec, h1.put hcur hpa, hcur, hlast⟩

theorem convertLoop_record {fuel : ℕ} {bs rest : Bytes} {rec : ChunkRecord} (hread : readFrom bs = .ok (some (rec, rest))) :
    convertLoop z store (fuel + 1) st bs = (convertRecord z store st rec >>= fun (st, truncated) =>
      if truncated then .ok (st, true) else convertLoop z store fuel st rest) := by
  conv_lhs => unfold convertLoop
  rw [hread]

/-- Log order, as far as the walk checks it. -/
def InOrder (a b : Version) : Prop := a.snap < b.snap ∨ a.snap = b.snap ∧ a.pa ≤ b.pa

/-- **The walk** over records that it can resolve, to whatever comes behind them. -/
theorem Exported.walk (hn : n * pageSize < 2 ^ 64) {behind : List Version} (tail : Bytes) (fuel : ℕ)
    (hpage : ∀ v ∈ rest, chunkPage z store v.chunk = .ok v.page) (hplain : ∀ v ∈ rest, v.chunk.Plain)
    (hpa : ∀ v ∈ rest, v.pa.toNat < n) : ∀ {done : List Version} {st : RawState},
    Exported n done st → (rest ++ behind).Pairwise InOrder → (∀ v ∈ rest ++ behind, Ahead st v) →
    ∃ st', convertLoop z store (rest.length + fuel) st (encodeAll (chunks rest) ++ tail) =
        convertLoop z store fuel st' tail ∧
      Exported n (rest.foldl latest done) st' ∧ (∀ v ∈ behind, Ahead st' v) ∧
      ∀ t, st.currentSnapId.toNat < t → (∀ v ∈ rest, v.snap < t) → st'.currentSnapId.toNat < t := by
  induction rest with
  | nil =>
    intro done st h _ hahead
    refine ⟨st, ?_, h, hahead, fun t ht _ => ht⟩
    rw [List.length_nil, Nat.zero_add]
    rfl
  | cons v rest ih =>
    intro done st h ho hahead
    obtain ⟨st1, hrec, h1, hcur, hlast⟩ := h.record hn (hahead v List.mem_cons_self) (hpa v List.mem_cons_self)
      (hpage v List.mem_cons_self)
    obtain ⟨hfirst, ho'⟩ := List.pairwise_cons.1 ho
    have hahead' : ∀ u ∈ rest ++ behind, Ahead st1 u := by
      intro u hu
      unfold Ahead
      rw [hcur, hlast]
      exact hfirst u hu
    obtain ⟨st2, hloop, h2, hbehind, hbelow⟩ := ih (fun u hu => hpage u (List.mem_cons_of_mem _ hu))
      (fun u hu => hplain u (List.mem_cons_of_mem _ hu)) (fun u hu => hpa u (List.mem_cons_of_mem _ hu)) h1 ho' hahead'
    refine ⟨st2, ?_, h2, hbehind, fun t _ ht => hbelow t ?_ fun u hu => ht u (List.mem_cons_of_mem _ hu)⟩
    swap
    · rw [hcur]
      exact ht v List.mem_cons_self
    have hread : readFrom (encodeAll (chunks (v :: rest)) ++ tail) = .ok (some (v.chunk, encodeAll (chunks rest) ++ tail)) := by
      have hcons : encodeAll (chunks (v :: rest)) = v.chunk.writeTo ++ encodeAll (chunks rest) := encodeAll_cons _ _
      rw [hcons, List.append_assoc]
      exact readFrom_writeTo (hplain v List.mem_cons_self) _
    rw [List.length_cons, Nat.add_right_comm, convertLoop_record hread, hrec, ok_bind]
    exact hloop

/-- **The walk over a whole log** with a key to each record. -/
theorem Exported.loop (hn : n * pageSize < 2 ^ 64) {vs : List Version} {fuel : ℕ}
    (hpage : ∀ v ∈ vs, chunkPage z store v.chunk = .ok v.page) (hplain : ∀ v ∈ vs, v.chunk.Plain)
    (hpa : ∀ v ∈ vs, v.pa.toNat < n) (h : Exported n [] st) (ho : Ordered vs) (hahead : ∀ v ∈ vs, Ahead st v)
    (hfuel : vs.length < fuel) :
    ∃ st', convertLoop z store fuel st (encodeAll (chunks vs)) = .ok (st', false) ∧ Exported n vs st' ∧
      ∀ t, st.currentSnapId.toNat < t → (∀ v ∈ vs, v.snap < t) → st'.currentSnapId.toNat < t := by
  obtain ⟨k, rfl⟩ := Nat.exists_eq_add_of_lt hfuel
  have hio : (vs ++ []).Pairwise InOrder := by
    rw [List.append_nil]
    exact ho.imp fun hab => hab.imp_right fun hs => ⟨hs.1, UInt64.le_iff_toNat_le.2 hs.2.le⟩
  obtain ⟨st1, hloop, h1, -, hbelow⟩ := Exported.walk hn [] (k + 1) hpage hplain hpa h hio
    (by rwa [List.append_nil])
  have hnodup : (([] ++ vs).map fun u : Version => recordKey u.chunk).Nodup := by
    have hkeys := recordKeys_nodup ho.distinct
    rwa [List.map_map] at hkeys
  rw [foldl_supersede_of_nodup hnodup] at h1
  refine ⟨st1, ?_, h1, hbelow⟩
  have hend : readFrom [] = .ok none := readFrom_short (by decide)
  rw [List.append_nil, ← Nat.add_assoc] at hloop
  rw [hloop]
  unfold convertLoop
  rw [hend]

end Walk

/-! ## The whole run -/

section Run

variable {z : Zstd} {vs : List Version} {dir written : Dir}

theorem magic_logHeader (m : UInt32) (body : Bytes) : slice (writeLogHeader m ++ body) 0 8 = magicLog := by
  have := slice_mid [] magicLog ([formatVersion] ++ (toLe32 m ++ [0, 0, 0]) ++ body)
  simpa [writeLogHeader, writeHeader, magicLog] using this

/-- The variables before the first record. -/
theorem exported_start (n : ℕ) : Exported n [] ⟨Chain.empty, List.replicate (n * pageSize) 0, [], 0, 0⟩ where
  size := List.length_replicate
  inside v hv := by simp at hv
  past v hv := by simp at hv
  dirty pa := by simp
  nodup := List.nodup_nil
  image v hv := by simp at hv
  files := by
    constructor
    · intro t pa bytes hL
      simp [Chain.layer, Chain.empty] at hL
    · rintro pa t bytes ⟨-, hlt⟩
      exact absurd hlt (Nat.not_lt_zero t)
  below t _ := rfl

/-- The variables of a run before its walk. -/
abbrev rawStart (memorySize : UInt64) : RawState := ⟨Chain.empty, List.replicate memorySize.toNat 0, [], 0, 0⟩

/-- Every record comes behind the start. -/
theorem ahead_start (memorySize : UInt64) (v : Version) : Ahead (rawStart memorySize) v := by
  rcases Nat.eq_zero_or_pos v.snap with h0 | h0
  · exact .inr ⟨h0.symm, UInt64.zero_le⟩
  · exact .inl h0

/-- A run comes down to its walk. -/
theorem convertToRaw_of_open {memorySize : UInt64} {store : PageStore} {log : Bytes} (hpos : 0 < memorySize)
    (halign : memorySize.toNat % pageSize = 0) (hopen : PageStore.open dir = .ok store) (hl : dir.log = some log)
    (hlen : headerSize ≤ log.length) (hmagic : slice log 0 8 = magicLog) :
    convertToRaw z dir Chain.empty memorySize =
      (convertLoop z store (log.length + 1) (rawStart memorySize) (log.drop headerSize) >>= fun (st, truncated) =>
        if truncated then .ok ⟨st.chain, rawMetaText (st.currentSnapId - min st.currentSnapId 1), true⟩
        else do
          let chain ← flushSnapshot st.chain st.currentSnapId st.state st.dirty
          .ok ⟨chain, rawMetaText st.currentSnapId, false⟩) := by
  have hvalid : ¬ (memorySize = 0 ∨ memorySize % UInt64.ofNat pageSize ≠ 0) := by
    rintro (h0 | h0)
    · rw [h0] at hpos
      exact absurd hpos (UInt64.lt_irrefl 0)
    · apply h0
      apply UInt64.toNat_inj.1
      rw [UInt64.toNat_mod]
      exact halign
  unfold convertToRaw
  rw [if_neg hvalid, hopen, hl]
  dsimp only
  rw [if_neg (Nat.not_lt.2 hlen), if_neg (not_not.2 hmagic)]

/-- **The export of a well-formed directory** is a chain with its versions, and with no file
behind the last of them. -/
theorem FormOk.export (hz : z.RoundTrip) (h : FormOk z vs dir) (hlog : dir.log ≠ none) {memorySize : UInt64}
    (hpos : 0 < memorySize) (halign : memorySize.toNat % pageSize = 0)
    (hpa : ∀ v ∈ vs, v.pa.toNat < memorySize.toNat / pageSize) : ∃ out,
    convertToRaw z dir Chain.empty memorySize = .ok out ∧ out.truncated = false ∧
      Layered out.chain.layer Page.zero.bytes (bytesOf vs) ∧
      ∀ t, 0 < t → (∀ v ∈ vs, v.snap < t) → out.chain t = none := by
  obtain ⟨store, hopen, hblobs, hS⟩ := h.open
  obtain ⟨log, hl⟩ := Option.ne_none_iff_exists'.1 hlog
  obtain ⟨m, rfl, -⟩ := h.log log hl
  have hlen : (writeLogHeader m).length = headerSize := length_writeLogHeader m
  have hsize : memorySize.toNat = memorySize.toNat / pageSize * pageSize := by
    unfold pageSize at *
    omega
  have hn : memorySize.toNat / pageSize * pageSize < 2 ^ 64 := by
    rw [← hsize]
    exact memorySize.toNat_lt
  have hpage : ∀ v ∈ vs, chunkPage z store v.chunk = .ok v.page := by
    intro v hv
    refine chunkPage_iff.2 (resolve_stored hz hS (fun u hu _ => ?_) hv (le_refl v.snap))
    rw [hblobs]
    exact h.stored u hu
  have hfuel : vs.length < (writeLogHeader m ++ encodeAll (chunks vs)).length + 1 := by
    have := length_le_encodeAll (chunks vs)
    rw [List.length_map] at this
    rw [List.length_append]
    omega
  have hstart := exported_start (memorySize.toNat / pageSize)
  rw [← hsize] at hstart
  obtain ⟨st, hloop, hst, hbelow⟩ := Exported.loop hn hpage (fun v hv => (h.stored v hv).plain) hpa hstart h.ordered
    (fun v _ => ahead_start memorySize v) hfuel
  obtain ⟨chain, hflush, hfiles, habove⟩ := hst.flushed hn
  refine ⟨⟨chain, rawMetaText st.currentSnapId, false⟩, ?_, rfl, hfiles, fun t hpos ht => habove t (hbelow t hpos ht)⟩
  rw [convertToRaw_of_open hpos halign hopen hl (by rw [List.length_append, hlen]; omega) (magic_logHeader m _),
    List.drop_left' hlen, hloop, ok_bind]
  dsimp only
  rw [if_neg Bool.false_ne_true, hflush, ok_bind]

/-- **The raw chain refines floor queries.** After a full export of a database whose
addresses lie in the memory, looking a page up backward from a snapshot gives the page a
load at that snapshot returns, and zeros where it finds none. -/
theorem convertToRaw_refines (hz : z.RoundTrip) (h : Maintained z written) (hh : HeldAs written dir)
    (hlog : dir.log ≠ none) {memorySize : UInt64} (hpos : 0 < memorySize) (halign : memorySize.toNat % pageSize = 0)
    (hpa : ∀ log records, dir.log = some log → ChunkRecord.scan (log.drop headerSize) = .ok records →
      ∀ r ∈ records, (paOf r.key).toNat < memorySize.toNat / pageSize) :
    ∃ out, convertToRaw z dir Chain.empty memorySize = .ok out ∧ out.truncated = false ∧
      ∀ (pa : UInt64) (s : UInt32), s ≤ maxSnapshotId →
        ∃ r, loadPage z dir pa s = .ok r ∧ out.chain.lookup pa s.toNat = (r.getD Page.zero).bytes := by
  obtain ⟨vs, hd, -⟩ := maintained_ok h
  have hform := hh.formOk hd
  obtain ⟨log, hl⟩ := Option.ne_none_iff_exists'.1 hlog
  have hin : ∀ v ∈ vs, v.pa.toNat < memorySize.toNat / pageSize := by
    intro v hv
    obtain ⟨m, rfl, -⟩ := hform.log log hl
    refine hpa _ (chunks vs) hl ?_ _ (List.mem_map_of_mem hv)
    rw [List.drop_left' (length_writeLogHeader m)]
    exact scan_encode (chunks_plain hd.stored)
  obtain ⟨out, hok, htrunc, hlayers, -⟩ := hform.export hz hlog hpos halign hin
  refine ⟨out, hok, htrunc, fun pa s hs => ?_⟩
  obtain ⟨r, hr, hasOf⟩ := hform.load hz pa hs
  refine ⟨r, hr, (lookback_getD hlayers hasOf.map).trans ?_⟩
  cases r with
  | none => rfl
  | some page => rfl

end Run

/-! ## Files of an earlier run -/

section Leftovers

variable {z : Zstd} {store : PageStore} {chain old : Chain} {st : RawState} {pa : UInt64} {s : ℕ}

/-- What a directory with the files of `old` holds when those of `new` were written into it. -/
def Chain.over (new old : Chain) : Chain := fun t => (new t).or (old t)

theorem Chain.over_update (chain old : Chain) (t : ℕ) (file : Bytes) :
    Function.update (chain.over old) t (some file) = Chain.over (Function.update chain t (some file)) old := by
  funext t'
  unfold Chain.over
  rcases eq_or_ne t' t with rfl | ht
  · rw [Function.update_self, Function.update_self, Option.some_or]
  · rw [Function.update_of_ne ht, Function.update_of_ne ht]

/-- Up to a snapshot that no old file is of, the look-ups are those of the new files. -/
theorem Chain.lookup_over (h : ∀ t ≤ s, old t = none) : (chain.over old).lookup pa s = chain.lookup pa s := by
  unfold Chain.lookup
  rw [lookback_congr fun t ht => ?_]
  unfold Chain.layer Chain.over
  rw [h t ht, Option.or_none]

/-- The variables of a run over the files of `old`. -/
def RawState.over (st : RawState) (old : Chain) : RawState := { st with chain := st.chain.over old }

theorem flushSnapshot_over (chain old : Chain) (snapId : UInt32) (buf : Bytes) (dirty : List UInt64) :
    flushSnapshot (chain.over old) snapId buf dirty = (flushSnapshot chain snapId buf dirty).map (Chain.over · old) := by
  unfold flushSnapshot
  cases dirty.filterM (lists snapId buf) with
  | error e => rfl
  | ok kept =>
    rw [ok_bind, ok_bind]
    cases writeRawFile (kept.map fun pa => pa * UInt64.ofNat pageSize) buf with
    | error e => rfl
    | ok file =>
      rw [ok_bind, ok_bind, Chain.over_update]
      rfl

theorem enterSnapshot_over (pa : UInt64) (snap : UInt32) :
    enterSnapshot (st.over old) pa snap = (enterSnapshot st pa snap).map (RawState.over · old) := by
  unfold enterSnapshot
  change (if snap < st.currentSnapId then _ else if snap ≠ st.currentSnapId then _ else
    if pa < st.lastPa then _ else _) = _
  by_cases hback : snap < st.currentSnapId
  · rw [if_pos hback, if_pos hback]
    rfl
  rw [if_neg hback, if_neg hback]
  by_cases hnext : snap ≠ st.currentSnapId
  · rw [if_pos hnext, if_pos hnext]
    change (flushSnapshot (st.chain.over old) st.currentSnapId st.state st.dirty >>= _) = _
    rw [flushSnapshot_over]
    cases flushSnapshot st.chain st.currentSnapId st.state st.dirty with
    | error e => rfl
    | ok chain => rfl
  rw [if_neg hnext, if_neg hnext]
  by_cases hpa : pa < st.lastPa
  · rw [if_pos hpa, if_pos hpa]
    rfl
  · rw [if_neg hpa, if_neg hpa]
    rfl

theorem convertRecord_over (rec : ChunkRecord) :
    convertRecord z store (st.over old) rec =
      (convertRecord z store st rec).map fun (st, truncated) => (st.over old, truncated) := by
  unfold convertRecord
  change (enterSnapshot (st.over old) (paOf rec.key) (snapshotOf rec.key) >>= _) =
    Except.map _ (enterSnapshot st (paOf rec.key) (snapshotOf rec.key) >>= _)
  rw [enterSnapshot_over]
  cases enterSnapshot st (paOf rec.key) (snapshotOf rec.key) with
  | error e => rfl
  | ok st1 =>
    change (if st1.state.length < (paOf rec.key).toNat * pageSize + pageSize then _ else _) =
      Except.map _ (if st1.state.length < (paOf rec.key).toNat * pageSize + pageSize then _ else _)
    split
    · rfl
    cases chunkPage z store rec with
    | ok page => rfl
    | error f =>
      cases f with
      | panic msg => rfl
      | err e =>
        dsimp only
        split
        · rfl
        · rfl

/-- **The walk does not look at the files** that were there before it. -/
theorem convertLoop_over (fuel : ℕ) : ∀ (st : RawState) (bs : Bytes),
    convertLoop z store fuel (st.over old) bs =
      (convertLoop z store fuel st bs).map fun (st, truncated) => (st.over old, truncated) := by
  induction fuel with
  | zero => exact fun st bs => rfl
  | succ fuel ih =>
    intro st bs
    unfold convertLoop
    cases readFrom bs with
    | error f => cases f <;> rfl
    | ok next =>
      cases next with
      | none => rfl
      | some next =>
        obtain ⟨rec, rest⟩ := next
        dsimp only
        rw [convertRecord_over]
        cases convertRecord z store st rec with
        | error e => rfl
        | ok next =>
          obtain ⟨st1, truncated⟩ := next
          cases truncated with
          | true => rfl
          | false => exact ih st1 rest

/-- **A run into a directory with files** leaves what it writes in a new one, over them. -/
theorem convertToRaw_over (dir : Dir) (old : Chain) (memorySize : UInt64) :
    convertToRaw z dir old memorySize =
      (convertToRaw z dir Chain.empty memorySize).map fun out => { out with chain := out.chain.over old } := by
  unfold convertToRaw
  split
  · rfl
  split
  · rfl
  · rfl
  rename_i store log _ _
  split
  · rfl
  split
  · rfl
  have hloop := @convertLoop_over z store old (log.length + 1) (rawStart memorySize) (log.drop headerSize)
  change convertLoop z store (log.length + 1) ⟨old, List.replicate memorySize.toNat 0, [], 0, 0⟩ (log.drop headerSize) = _ at hloop
  dsimp only
  rw [hloop]
  change _ = Except.map _ (convertLoop z store (log.length + 1) (rawStart memorySize) (log.drop headerSize) >>= _)
  cases convertLoop z store (log.length + 1) (rawStart memorySize) (log.drop headerSize) with
  | error e => rfl
  | ok ended =>
    obtain ⟨st, truncated⟩ := ended
    cases truncated with
    | true => rfl
    | false =>
      change (flushSnapshot (st.chain.over old) st.currentSnapId st.state st.dirty >>= _) =
        Except.map _ (flushSnapshot st.chain st.currentSnapId st.state st.dirty >>= _)
      rw [flushSnapshot_over]
      cases flushSnapshot st.chain st.currentSnapId st.state st.dirty with
      | error e => rfl
      | ok chain => rfl

end Leftovers

/-! ## Two exports into one directory -/

section Exports

variable {saves : List (Page × UInt32)} {dir : Dir}

/-- The addresses of saves of one page lie in a memory of one page. -/
theorem onePages_inside (hw : Written Zstd.raw (onePages saves) dir) : ∀ log records, dir.log = some log →
    ChunkRecord.scan (log.drop headerSize) = .ok records →
      ∀ r ∈ records, (paOf r.key).toNat < (4096 : UInt64).toNat / pageSize := by
  intro log records hl hscan r hrec
  obtain ⟨vs, hd, hr, -⟩ := written_ok hw (onePages_inRange _)
  obtain ⟨m, hlog, -⟩ := hd.log
  rw [hlog] at hl
  obtain rfl := Option.some.inj hl
  rw [List.drop_left' (length_writeLogHeader m), scan_encode (chunks_plain hd.stored)] at hscan
  obtain rfl := Except.ok.inj hscan
  obtain ⟨v, hv, rfl⟩ := List.mem_map.1 hrec
  obtain ⟨hzero, -⟩ := savedBy_onePage.1 ((hr _ _ _).1 ⟨v, ⟨hv, rfl, rfl⟩, rfl⟩)
  change v.pa.toNat < _
  rw [hzero]
  decide

/-- **The chain of saves of one page** has their pages in the files of their ids, and no file
behind the last of them. -/
theorem export_onePages (hw : Written Zstd.raw (onePages saves) dir) : ∃ out,
    convertToRaw Zstd.raw dir Chain.empty 4096 = .ok out ∧ out.truncated = false ∧
    (∀ e ∈ saves, e.1 ≠ Page.zero → out.chain.layer e.2.toNat 0 = some e.1.bytes) ∧
    ∀ t, 0 < t → (∀ e ∈ saves, e.2.toNat < t) → out.chain t = none := by
  obtain ⟨vs, hd, hr, hidx⟩ := written_ok hw (onePages_inRange _)
  obtain ⟨m, hlog, -⟩ := hd.log
  have hsaved : ∀ v ∈ vs, v.pa = 0 ∧ ∃ e ∈ saves, e.2.toNat = v.snap ∧ e.1 = v.page := fun v hv =>
    savedBy_onePage.1 ((hr _ _ _).1 ⟨v, ⟨hv, rfl, rfl⟩, rfl⟩)
  obtain ⟨out, hok, htrunc, hlayers, hbehind⟩ := (hd.formOk hidx).export Zstd.raw_roundTrip (by rw [hlog]; simp)
    (by decide : (0 : UInt64) < 4096) (by decide) fun v hv => by rw [(hsaved v hv).1]; decide
  refine ⟨out, hok, htrunc, fun e he hne => ?_, fun t hpos ht => hbehind t hpos fun v hv => ?_⟩
  · have hpage : pagesOf vs 0 e.2.toNat e.1 := (hr _ _ _).2 (savedBy_onePage.2 ⟨rfl, e, he, rfl, rfl⟩)
    rcases hlayers.complete 0 e.2.toNat e.1.bytes ⟨_, hpage, rfl⟩ with hL | ⟨-, hzero, -⟩
    · exact hL
    · exact absurd (page_eq_of_bytes hzero) hne
  · obtain ⟨-, e, he, hs, -⟩ := hsaved v hv
    rw [← hs]
    exact ht e he

end Exports

/-- Two saves of one page, exported from a memory of one page. -/
theorem convertToRaw_noise : ∃ dir out, Maintained Zstd.raw dir ∧
    convertToRaw Zstd.raw dir Chain.empty 4096 = .ok out ∧ out.truncated = false ∧
    out.chain.lookup 0 0 = Page.zero.bytes ∧ out.chain.lookup 0 8 = (noise 2).bytes := by
  have hids : [(noise 1, (1 : UInt32)), (noise 2, 4)].Pairwise fun a b => a.2 < b.2 := by simp
  obtain ⟨dir, hs, -, -⟩ : ∃ dir, Session Zstd.raw Dir.empty (onePages [(noise 1, 1), (noise 2, 4)]) dir ∧
      dir.IdsBelow 5 ∧ dir.HasRoom 0 :=
    session_onePages Zstd.raw_small (by decide : 1 ≤ 4 ∧ 4 ≤ 255) 512 true hids (by simp) (by decide) (by decide) 0
      (by decide)
  have hm : Maintained Zstd.raw dir := .first hs (onePages_inRange _)
  have hw : Written Zstd.raw (onePages [(noise 1, 1), (noise 2, 4)]) dir := .first hs
  obtain ⟨vs, hd, -, hidx⟩ := written_ok hw (onePages_inRange _)
  obtain ⟨m, hlog, -⟩ := hd.log
  obtain ⟨out, hok, htrunc, hlookup⟩ := convertToRaw_refines Zstd.raw_roundTrip hm (hd.heldAs hidx)
    (by rw [hlog]; simp) (by decide : (0 : UInt64) < 4096) (by decide) (onePages_inside hw)
  refine ⟨dir, out, hm, hok, htrunc, ?_, ?_⟩
  · obtain ⟨r, hr, hpage⟩ := hlookup 0 0 (by decide)
    rw [load_onePages Zstd.raw_roundTrip hw hids (by decide)] at hr
    rw [← Except.ok.inj hr] at hpage
    exact hpage
  · obtain ⟨r, hr, hpage⟩ := hlookup 0 8 (by decide)
    rw [load_onePages Zstd.raw_roundTrip hw hids (by decide)] at hr
    rw [← Except.ok.inj hr] at hpage
    exact hpage

/-- **A file of an earlier export answers for the database of a later one**: its snapshot is
above the last save of the second database, and the export leaves it where it is. -/
theorem convertToRaw_leftover : ∃ dir dir' earlier out, Maintained Zstd.raw dir ∧ Maintained Zstd.raw dir' ∧
    dir'.log ≠ none ∧ dir'.idx = none ∧
    convertToRaw Zstd.raw dir Chain.empty 4096 = .ok earlier ∧
    convertToRaw Zstd.raw dir' earlier.chain 4096 = .ok out ∧ out.truncated = false ∧
    loadPage Zstd.raw dir' 0 8 = .ok (some (noise 2)) ∧ out.chain.lookup 0 8 = (noise 3).bytes ∧ noise 3 ≠ noise 2 := by
  have hids : [(noise 1, (1 : UInt32)), (noise 2, 4)].Pairwise fun a b => a.2 < b.2 := by simp
  obtain ⟨dir, hs, -, -⟩ : ∃ dir, Session Zstd.raw Dir.empty (onePages [(noise 3, 6)]) dir ∧
      dir.IdsBelow 7 ∧ dir.HasRoom 0 :=
    session_onePages Zstd.raw_small (by decide : 1 ≤ 4 ∧ 4 ≤ 255) 512 true (by simp) (by simp) (by decide) (by decide) 0
      (by decide)
  obtain ⟨dir', hs', -, -⟩ : ∃ dir, Session Zstd.raw Dir.empty (onePages [(noise 1, 1), (noise 2, 4)]) dir ∧
      dir.IdsBelow 5 ∧ dir.HasRoom 0 :=
    session_onePages Zstd.raw_small (by decide : 1 ≤ 4 ∧ 4 ≤ 255) 512 true hids (by simp) (by decide) (by decide) 0
      (by decide)
  have hw' : Written Zstd.raw (onePages [(noise 1, 1), (noise 2, 4)]) dir' := .first hs'
  obtain ⟨vs, hd, -, hidx⟩ := written_ok hw' (onePages_inRange _)
  obtain ⟨m, hlog, -⟩ := hd.log
  obtain ⟨earlier, hrun, -, hlayers, hbehind⟩ := export_onePages (.first hs)
  obtain ⟨out, hrun', htrunc, -, hbehind'⟩ := export_onePages hw'
  refine ⟨dir, dir', earlier, { out with chain := out.chain.over earlier.chain }, .first hs (onePages_inRange _),
    .first hs' (onePages_inRange _), by rw [hlog]; simp, hidx, hrun, ?_, htrunc,
    load_onePages Zstd.raw_roundTrip hw' hids (by decide), ?_, fun hc => absurd (noise_inj hc) (by decide)⟩
  · rw [convertToRaw_over, hrun']
    rfl
  · -- the file of snapshot 6 is the earlier one
    have hnew : ∀ t, 5 ≤ t → out.chain t = none := fun t ht => hbehind' t (by omega) (by simp; omega)
    have hold : ∀ t, 7 ≤ t → earlier.chain t = none := fun t ht => hbehind t (by omega) (by simp; omega)
    have hlayer : (out.chain.over earlier.chain).layer 6 0 = some (noise 3).bytes := by
      unfold Chain.layer Chain.over
      rw [hnew 6 (by decide), Option.none_or]
      exact hlayers (noise 3, 6) List.mem_cons_self (noise_ne_zero (by decide))
    unfold Chain.lookup
    rw [lookback_some hlayer (by decide) fun t ht _ => ?_, Option.getD_some]
    unfold Chain.layer Chain.over
    rw [hnew t (by omega), Option.none_or, hold t ht]
    rfl

end Bxdb
