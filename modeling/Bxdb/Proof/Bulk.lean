import Bxdb.Proof.Load
import Mathlib.Data.List.Induction

/-!
# Bulk loads

`load_all_pages` splits its range among workers and joins them (`loadAllWith_ok`); on
a log it first scans for the newest record of each address (`scanLatest_asOf`), the
first one of its key (`scanLatest_first`).

* `loadAllPages_asOf`: **every page of the range is read as of the snapshot**, on
  either kind of store.
-/

namespace Bxdb

open Bytes SortedIndex Versioned ChunkRecord

/-! ## Splitting the range -/

theorem flatten_ranges (total q : ℕ) : ∀ k,
    ((List.range k).filterMap fun j =>
      if total ≤ j * q then none
      else some ((List.range (min q (total - j * q))).map (j * q + ·))).flatten = List.range (min (k * q) total)
  | 0 => by simp
  | k + 1 => by
    rw [List.range_succ, List.filterMap_append, List.flatten_append, flatten_ranges total q k]
    have hk : (k + 1) * q = k * q + q := by ring
    by_cases h : total ≤ k * q
    · rw [show min ((k + 1) * q) total = min (k * q) total by omega]
      simp [h]
    · rw [show min ((k + 1) * q) total = k * q + min q (total - k * q) by omega, List.range_add,
        show min (k * q) total = k * q by omega]
      simp [h]

/-- **The workers' ranges tile the pages.** -/
theorem flatten_workerRanges (total : ℕ) {workers : ℕ} (hw : 1 ≤ workers) :
    (workerRanges total workers).flatten = List.range total := by
  have hq : total ≤ workers * ((total + workers - 1) / workers) := by
    have := Nat.div_add_mod (total + workers - 1) workers
    have := Nat.mod_lt (total + workers - 1) (by omega : workers > 0)
    omega
  have := flatten_ranges total ((total + workers - 1) / workers) workers
  rw [Nat.min_eq_right hq] at this
  exact this

theorem mapM_ok {α β : Type} {f : α → Res β} {g : α → β} : ∀ {l : List α}, (∀ a ∈ l, f a = .ok (g a)) →
    l.mapM f = .ok (l.map g)
  | [], _ => rfl
  | a :: l, h => by
    rw [List.mapM_cons, h a List.mem_cons_self, ok_bind,
      mapM_ok fun b hb => h b (List.mem_cons_of_mem _ hb)]
    rfl

theorem joinWorkers_ok : ∀ ls : List (List (Option Page)), joinWorkers (ls.map .ok) = .ok ls.flatten
  | [] => rfl
  | pages :: ls => by
    rw [List.map_cons, joinWorkers, joinWorkers_ok ls]; rfl

/-- A number of workers that fits panics nowhere. -/
theorem loadAllWith_fit {load : ℕ → Res (Option Page)} {total workers : ℕ} (hfit : WorkersFit total workers) :
    loadAllWith load total (max workers 1) =
      joinWorkers ((workerRanges total (max workers 1)).map fun is => is.mapM load) := by
  unfold loadAllWith
  rw [if_neg (Nat.not_le.2 hfit.1), if_neg (Nat.not_lt.2 hfit.2)]

/-- One that does not fit panics, whatever the pages. -/
theorem loadAllWith_unfit (load : ℕ → Res (Option Page)) {total workers : ℕ} (hfit : ¬ WorkersFit total workers) :
    ∃ msg, loadAllWith load total (max workers 1) = panics msg := by
  unfold loadAllWith
  by_cases hsum : 2 ^ 64 ≤ total + max workers 1
  · rw [if_pos hsum]
    exact ⟨_, rfl⟩
  · have hentries : isizeMax < max workers 1 * workerEntrySize := by
      by_contra hle
      exact hfit ⟨Nat.not_le.1 hsum, Nat.not_lt.1 hle⟩
    rw [if_neg hsum, if_pos hentries]
    exact ⟨_, rfl⟩

/-- When every page loads, the load returns them in order. -/
theorem loadAllWith_ok {load : ℕ → Res (Option Page)} {g : ℕ → Option Page} {total workers : ℕ}
    (hfit : WorkersFit total workers) (h : ∀ i < total, load i = .ok (g i)) :
    loadAllWith load total (max workers 1) = .ok ((List.range total).map g) := by
  have hw : 1 ≤ max workers 1 := le_max_right workers 1
  have hmem : ∀ is ∈ workerRanges total (max workers 1), ∀ i ∈ is, i < total := by
    intro is his i hi
    rw [← List.mem_range, ← flatten_workerRanges total hw]
    exact List.mem_flatten.2 ⟨is, his, hi⟩
  have hmap : (workerRanges total (max workers 1)).map (fun is => is.mapM load) =
      ((workerRanges total (max workers 1)).map fun is => is.map g).map .ok := by
    rw [List.map_map]
    exact List.map_congr_left fun is his => mapM_ok fun i hi => h i (hmem is his i hi)
  rw [loadAllWith_fit hfit, hmap, joinWorkers_ok, ← List.map_flatten, flatten_workerRanges total hw]

/-! ## The scan -/

theorem toNat_add_ofNat {a : UInt64} {i : ℕ} (h : a.toNat + i < 2 ^ 64) :
    (a + UInt64.ofNat i).toNat = a.toNat + i := by
  rw [UInt64.toNat_add, UInt64.toNat_ofNat_of_lt' (show i < 2 ^ 64 by omega), Nat.mod_eq_of_lt h]

theorem recordsOf_concat {rs : List ChunkRecord} {r : ChunkRecord} {pa : UInt64} {t : ℕ} {r' : ChunkRecord} :
    recordsOf (rs ++ [r]) pa t r' ↔ recordsOf rs pa t r' ∨
      (r' = r ∧ paOf r.key = pa ∧ (snapshotOf r.key).toNat = t) := by
  unfold recordsOf
  constructor
  · rintro ⟨hm, hp, ht⟩
    rcases List.mem_append.1 hm with hm | hm
    · exact .inl ⟨hm, hp, ht⟩
    · rw [List.mem_singleton] at hm; subst hm; exact .inr ⟨rfl, hp, ht⟩
  · rintro (⟨hm, hp, ht⟩ | ⟨rfl, hp, ht⟩)
    · exact ⟨List.mem_append_left _ hm, hp, ht⟩
    · exact ⟨List.mem_append_right _ (List.mem_singleton_self _), hp, ht⟩

/-- A record that is not of the address, or above the snapshot, changes nothing. -/
theorem asOf_concat_skip {rs : List ChunkRecord} {r : ChunkRecord} {pa : UInt64} {s : ℕ}
    {a : Option ChunkRecord} (h : AsOf (recordsOf rs) pa s a)
    (hr : paOf r.key = pa → ¬ (snapshotOf r.key).toNat ≤ s) : AsOf (recordsOf (rs ++ [r])) pa s a := by
  cases a with
  | none =>
    rw [asOf_none] at h ⊢
    intro t r' hr' ht
    rcases recordsOf_concat.1 hr' with hr' | ⟨rfl, hp, rfl⟩
    · exact h t r' hr' ht
    · exact hr hp ht
  | some a =>
    obtain ⟨t, ha, hle, hmax⟩ := asOf_some.1 h
    refine asOf_some.2 ⟨t, recordsOf_concat.2 (.inl ha), hle, fun t' r' hr' ht' => ?_⟩
    rcases recordsOf_concat.1 hr' with hr' | ⟨rfl, hp, rfl⟩
    · exact hmax t' r' hr' ht'
    · exact absurd ht' (hr hp)

/-- A record of the address above everything found so far becomes the answer. -/
theorem asOf_concat_take {rs : List ChunkRecord} {r : ChunkRecord} {pa : UInt64} {s : ℕ}
    (hp : paOf r.key = pa) (hs : (snapshotOf r.key).toNat ≤ s)
    (hmax : ∀ t r', recordsOf rs pa t r' → t ≤ s → t ≤ (snapshotOf r.key).toNat) :
    AsOf (recordsOf (rs ++ [r])) pa s (some r) := by
  refine asOf_some.2 ⟨_, recordsOf_concat.2 (.inr ⟨rfl, hp, rfl⟩), hs, fun t' r' hr' ht' => ?_⟩
  rcases recordsOf_concat.1 hr' with hr' | ⟨-, -, rfl⟩
  · exact hmax t' r' hr' ht'
  · exact le_rfl

/-- **One record of the scan**: it takes its address's place when it is newer than what
is there, and nothing else changes. -/
theorem scanLatest_concat {off : UInt64} {total : ℕ} {s : UInt32} (hoff : off.toNat + total < 2 ^ 64)
    (rs : List ChunkRecord) (r : ChunkRecord) {i : ℕ} (hi : i < total) :
    (scanLatest off total s (rs ++ [r]) i = some r ∧ paOf r.key = off + UInt64.ofNat i ∧ snapshotOf r.key ≤ s ∧
      ∀ prev, scanLatest off total s rs i = some prev → snapshotOf prev.key < snapshotOf r.key) ∨
    (scanLatest off total s (rs ++ [r]) i = scanLatest off total s rs i ∧
      (paOf r.key = off + UInt64.ofNat i → snapshotOf r.key ≤ s →
        ∃ prev, scanLatest off total s rs i = some prev ∧ snapshotOf r.key ≤ snapshotOf prev.key)) := by
  have haddr : (off + UInt64.ofNat i).toNat = off.toNat + i := toNat_add_ofNat (by omega)
  unfold scanLatest
  rw [List.foldl_append, List.foldl_cons, List.foldl_nil]
  set latest := rs.foldl _ _ with hlatest
  dsimp only
  split
  · -- the record is out of range
    rename_i hout
    refine .inr ⟨rfl, fun hp => ?_⟩
    rw [hp, haddr] at hout
    omega
  · rename_i hin
    split
    · -- it is above the snapshot
      rename_i hsn
      exact .inr ⟨rfl, fun _ hle => absurd hsn (UInt32.not_lt.2 hle)⟩
    · rename_i hsn
      have hle : snapshotOf r.key ≤ s := UInt32.not_lt.1 hsn
      by_cases hslot : (paOf r.key).toNat - off.toNat = i
      · have hpa : paOf r.key = off + UInt64.ofNat i := UInt64.toNat_inj.1 (by rw [haddr]; omega)
        rw [hslot]
        -- it is of this address: it goes in if the slot is empty or older
        cases hl : latest i with
        | none =>
          dsimp only
          rw [Function.update_self]
          exact .inl ⟨rfl, hpa, hle, by simp⟩
        | some prev =>
          dsimp only
          split
          · rename_i hlt
            rw [Function.update_self]
            refine .inl ⟨rfl, hpa, hle, fun prev' hprev => ?_⟩
            rw [← Option.some.inj hprev]
            exact hlt
          · -- an equal or older snapshot: the first record found stays
            rename_i hlt
            exact .inr ⟨hl, fun _ _ => ⟨prev, rfl, UInt32.not_lt.1 hlt⟩⟩
      · -- it is of another address
        have hother : paOf r.key ≠ off + UInt64.ofNat i := fun hp => hslot (by rw [hp, haddr]; omega)
        refine .inr ⟨?_, fun hp => absurd hp hother⟩
        cases hl : latest ((paOf r.key).toNat - off.toNat) with
        | none => exact Function.update_of_ne (Ne.symm hslot) _ _
        | some prev =>
          dsimp only
          split
          · exact Function.update_of_ne (Ne.symm hslot) _ _
          · rfl

/-- **The scan keeps the newest record of each address** in range. -/
theorem scanLatest_asOf {off : UInt64} {total : ℕ} {s : UInt32} (hoff : off.toNat + total < 2 ^ 64)
    (rs : List ChunkRecord) : ∀ i < total,
    AsOf (recordsOf rs) (off + UInt64.ofNat i) s.toNat (scanLatest off total s rs i) := by
  induction rs using List.reverseRecOn with
  | nil =>
    intro i _
    exact asOf_none.2 fun t r hr => by simp [recordsOf] at hr
  | append_singleton rs r ih =>
    intro i hi
    have hih := ih i hi
    rcases scanLatest_concat hoff rs r hi with ⟨htake, hpa, hle, hnewer⟩ | ⟨hskip, holder⟩
    · rw [htake]
      refine asOf_concat_take hpa (UInt32.le_iff_toNat_le.1 hle) fun t r' hr' ht => ?_
      cases hl : scanLatest off total s rs i with
      | none =>
        rw [hl] at hih
        exact absurd ht (asOf_none.1 hih t r' hr')
      | some prev =>
        rw [hl] at hih
        obtain ⟨u, ⟨-, -, rfl⟩, -, hmax⟩ := asOf_some.1 hih
        exact (hmax t r' hr' ht).trans (UInt32.lt_iff_toNat_lt.1 (hnewer prev hl)).le
    · rw [hskip]
      by_cases hmine : paOf r.key = off + UInt64.ofNat i ∧ snapshotOf r.key ≤ s
      · obtain ⟨prev, hl, hge⟩ := holder hmine.1 hmine.2
        rw [hl] at hih ⊢
        obtain ⟨u, ha, hus, hmax⟩ := asOf_some.1 hih
        refine asOf_some.2 ⟨u, recordsOf_concat.2 (.inl ha), hus, fun t' r' hr' ht' => ?_⟩
        rcases recordsOf_concat.1 hr' with hr' | ⟨-, -, rfl⟩
        · exact hmax t' r' hr' ht'
        · rw [← ha.2.2]
          exact UInt32.le_iff_toNat_le.1 hge
      · -- the record is of another address or above the snapshot
        refine asOf_concat_skip hih fun hp hs => hmine ⟨hp, ?_⟩
        exact UInt32.le_iff_toNat_le.2 hs

/-- **Of records with one key the scan keeps the first.** -/
theorem scanLatest_first {off : UInt64} {total : ℕ} {s : UInt32} (hoff : off.toNat + total < 2 ^ 64)
    (rs : List ChunkRecord) : ∀ i < total, ∀ r, scanLatest off total s rs i = some r →
    rs.find? (fun b => recordKey b = recordKey r) = some r := by
  induction rs using List.reverseRecOn with
  | nil =>
    intro i _ r h
    simp [scanLatest] at h
  | append_singleton rs a ih =>
    intro i hi r h
    rw [List.find?_append]
    rcases scanLatest_concat hoff rs a hi with ⟨htake, hpa, hle, hnewer⟩ | ⟨hskip, -⟩
    · rw [htake] at h
      obtain rfl := Option.some.inj h
      -- an earlier record with its key would have been found, and be no older
      have hnone : rs.find? (fun b => recordKey b = recordKey a) = none := by
        rw [List.find?_eq_none]
        intro b hb hkey
        have hkey' : b.key = a.key := recordKey_inj (by simpa using hkey)
        have hb' : recordsOf rs (off + UInt64.ofNat i) (snapshotOf a.key).toNat b :=
          ⟨hb, by rw [hkey']; exact hpa, by rw [hkey']⟩
        have hasOf := scanLatest_asOf (s := s) hoff rs i hi
        cases hl : scanLatest off total s rs i with
        | none =>
          rw [hl] at hasOf
          exact asOf_none.1 hasOf _ b hb' (UInt32.le_iff_toNat_le.1 hle)
        | some prev =>
          rw [hl] at hasOf
          obtain ⟨u, ⟨-, -, rfl⟩, -, hmax⟩ := asOf_some.1 hasOf
          have h1 := hmax _ b hb' (UInt32.le_iff_toNat_le.1 hle)
          have h2 := UInt32.lt_iff_toNat_lt.1 (hnewer prev hl)
          omega
      rw [hnone]
      simp
    · rw [hskip] at h
      rw [ih i hi r h]
      rfl

/-! ## The whole load -/

section Whole

variable {z : Zstd} {vs : List Version} {dir : Dir} {off count : UInt64} {s : UInt32} {workers outLen : ℕ}

/-- A load into a well-sized, aligned buffer. -/
theorem loadAllPages_unfold (hs : s ≤ maxSnapshotId) (hout : outLen = count.toNat * pageSize) :
    loadAllPages z dir outLen true off count s workers = (do
      let store ← PageStore.open dir
      match store.source with
      | .btree _ _ => loadAllWith (loadBtreePage z store off s) count.toNat (max workers 1)
      | .appendOnly log =>
        if 2 ^ 64 ≤ off.toNat + count.toNat then panics "attempt to add with overflow"
        else do
          let (_, body) ← readAndVerifyHeader log magicLog
          let records ← ChunkRecord.scan body
          loadAllWith (loadScanPage z store (scanLatest off count.toNat s records)) count.toNat
            (max workers 1)) := by
  unfold loadAllPages
  exact (if_neg (UInt32.not_lt.2 hs)).trans (if_neg (not_not.2 hout))

/-- What a bulk load returns: each page of the range as of the snapshot. -/
def RangeAsOf (W : Writes UInt64 ℕ Page) (off count : UInt64) (s : UInt32) (out : List (Option Page)) : Prop :=
  out.length = count.toNat ∧ ∀ i (h : i < out.length), AsOf W (off + UInt64.ofNat i) s.toNat out[i]

theorem rangeAsOf_map {g : ℕ → Option Page}
    (h : ∀ i < count.toNat, AsOf (pagesOf vs) (off + UInt64.ofNat i) s.toNat (g i)) :
    RangeAsOf (pagesOf vs) off count s ((List.range count.toNat).map g) := by
  refine ⟨by simp, fun i hi => ?_⟩
  simp only [List.getElem_map, List.getElem_range]
  exact h i (by simpa using hi)

/-- **A bulk load of a log** reads every page of its range as of the snapshot. -/
theorem loadAllPages_log (hz : z.RoundTrip) (hd : KeysDistinct vs) (hall : ∀ v ∈ vs, Stored z vs dir.blobs v)
    (hs : s ≤ maxSnapshotId) (hout : outLen = count.toNat * pageSize) (hoff : off.toNat + count.toNat < 2 ^ 64)
    (hfit : WorkersFit count.toNat workers)
    {m : UInt32} {tail : Bytes} (ht : tail.length < logRecordBaseSize) (hi : dir.idx = none)
    (hl : dir.log = some (writeLogHeader m ++ (encodeAll (chunks vs) ++ tail))) :
    ∃ out, loadAllPages z dir outLen true off count s workers = .ok out ∧ RangeAsOf (pagesOf vs) off count s out := by
  have hplain : ∀ r ∈ chunks vs, r.Plain := chunks_plain hall
  set store : PageStore := ⟨.appendOnly (writeLogHeader m ++ (encodeAll (chunks vs) ++ tail)), dir.blobs⟩
    with hstore
  have hS : Serves store vs := serves_log hd (fun v hv => (hall v hv).plain) m ht dir.blobs
  have hpage : ∀ i < count.toNat, ∃ p, AsOf (pagesOf vs) (off + UInt64.ofNat i) s.toNat p ∧
      loadScanPage z store (scanLatest off count.toNat s (chunks vs)) i = .ok p := by
    intro i hi
    obtain ⟨p, hp, hres⟩ := lookup_resolve hz hS (fun v hv _ => hall v hv) (scanLatest_asOf hoff (chunks vs) i hi)
    refine ⟨p, hp, ?_⟩
    unfold loadScanPage
    cases hsl : scanLatest off count.toNat s (chunks vs) i with
    | none => rw [hsl] at hres; exact hres
    | some rec => rw [hsl] at hres; exact hres
  choose! g hg1 hg2 using hpage
  refine ⟨_, ?_, rangeAsOf_map hg1⟩
  rw [loadAllPages_unfold hs hout, open_log hi hl, ok_bind]
  dsimp only
  rw [if_neg (not_le.2 hoff), readLogHeader, ok_bind]
  dsimp only
  rw [scan_encode_tail hplain ht, ok_bind]
  exact loadAllWith_ok hfit hg2

/-- **A bulk load of an index file** reads every page of its range as of the snapshot. -/
theorem loadAllPages_index (hz : z.RoundTrip) (hd : KeysDistinct vs) (hall : ∀ v ∈ vs, Stored z vs dir.blobs v)
    (hs : s ≤ maxSnapshotId) (hout : outLen = count.toNat * pageSize) (hoff : off.toNat + count.toNat < 2 ^ 64)
    (hfit : WorkersFit count.toNat workers)
    {m : UInt32} {rs : List ChunkRecord} (hrs : KeySorted rs) (hmem : ∀ r, r ∈ rs ↔ r ∈ chunks vs)
    (hi : dir.idx = some (writeIndexHeader m ++ encodeIndex rs)) :
    ∃ out, loadAllPages z dir outLen true off count s workers = .ok out ∧ RangeAsOf (pagesOf vs) off count s out := by
  set store : PageStore := ⟨.btree (writeIndexHeader m ++ encodeIndex rs) rs.length, dir.blobs⟩ with hstore
  have hS : Serves store vs := serves_index hd hrs hmem (length_writeIndexHeader m) dir.blobs
  have hpage : ∀ i < count.toNat, ∃ p, AsOf (pagesOf vs) (off + UInt64.ofNat i) s.toNat p ∧
      loadBtreePage z store off s i = .ok p := by
    intro i hi
    obtain ⟨r, hf, hr⟩ := hS.floor (off + UInt64.ofNat i) s hs
    obtain ⟨p, hp, hres⟩ := lookup_resolve hz hS (fun v hv _ => hall v hv) hr
    refine ⟨p, hp, ?_⟩
    unfold loadBtreePage
    rw [if_neg (by omega), hf, ok_bind]
    exact hres
  choose! g hg1 hg2 using hpage
  refine ⟨_, ?_, rangeAsOf_map hg1⟩
  rw [loadAllPages_unfold hs hout, open_index hi, ok_bind]
  exact loadAllWith_ok hfit hg2

end Whole

end Bxdb
