import Bxdb.Spec.AppendOnly
import Bxdb.Proof.Bulk
import Bxdb.Lib.Bits

/-!
# The pages a save call covers

* `allJobs_jobsOf`, `bitmapJobs_jobsOf`: **both kinds of call make one job for each
  dirty page, in ascending order, and slot `i` is the `i`-th of them.** For the bitmap
  this goes through the group counts, the prefix sum and the walk over the set bits.
-/

namespace Bxdb

open Bytes

/-- The jobs of a call: its dirty pages in ascending order, one slot after the other. -/
structure JobsOf (c : SaveCall) (jobs : List Job) : Prop where
  slots : jobs.map Job.slot = List.range jobs.length
  sorted : jobs.Pairwise fun a b => a.pa.toNat < b.pa.toNat
  dirty : ∀ pa page, c.dirty pa = some page ↔ ∃ job ∈ jobs, job.pa = pa ∧ job.page = page
  marked : ∀ job ∈ jobs, c.marks job.pa.toNat = true

/-! ## From addresses to jobs -/

section Make

variable {memory : Bytes} {total : ℕ}

theorem pageAt_ok (hm : memory.length = total * pageSize) {pa : ℕ} (h : pa < total) :
    ∃ page, pageAt memory pa = .ok page := by
  have hlen : (slice memory (pa * pageSize) ((pa + 1) * pageSize)).length = pageSize := by
    have : (pa + 1) * pageSize ≤ total * pageSize := Nat.mul_le_mul_right _ h
    rw [length_slice (by omega), Nat.add_mul, Nat.one_mul, Nat.add_sub_cancel_left]
  unfold pageAt
  rw [dif_pos hlen]
  exact ⟨_, rfl⟩

/-- Jobs for the addresses of a list, in its order. -/
theorem mapM_jobAt (hm : memory.length = total * pageSize) {es : List (ℕ × ℕ)} (h : ∀ e ∈ es, e.2 < total) :
    ∃ jobs, (es.mapM fun e => jobAt memory e.1 e.2) = .ok jobs ∧
      jobs.map (fun j => (j.slot, j.pa)) = es.map (fun e => (e.1, UInt64.ofNat e.2)) ∧
      ∀ job ∈ jobs, ∃ e ∈ es, job.pa = UInt64.ofNat e.2 ∧ pageAt memory e.2 = .ok job.page := by
  induction es with
  | nil => exact ⟨[], rfl, rfl, by simp⟩
  | cons e es ih =>
    obtain ⟨jobs, h1, h2, h3⟩ := ih fun e he => h e (List.mem_cons_of_mem _ he)
    obtain ⟨page, hp⟩ := pageAt_ok hm (h e List.mem_cons_self)
    refine ⟨⟨e.1, UInt64.ofNat e.2, page⟩ :: jobs, ?_, ?_, ?_⟩
    · have hjob : jobAt memory e.1 e.2 = .ok ⟨e.1, UInt64.ofNat e.2, page⟩ := by
        unfold jobAt; rw [hp, ok_bind]
      rw [List.mapM_cons, hjob, ok_bind, h1]; rfl
    · rw [List.map_cons, List.map_cons, h2]
    · intro job hjob
      rcases List.mem_cons.1 hjob with rfl | hjob
      · exact ⟨e, List.mem_cons_self, rfl, hp⟩
      · obtain ⟨e', he', h4⟩ := h3 job hjob
        exact ⟨e', List.mem_cons_of_mem _ he', h4⟩

/-- Jobs for addresses below 2⁶⁴, with the slots counted up. -/
theorem mapM_zipIdx (hm : memory.length = total * pageSize) (ht : total ≤ 2 ^ 64) {pas : List ℕ}
    (h : ∀ pa ∈ pas, pa < total) :
    ∃ jobs, ((pas.zipIdx.map fun e => (e.2, e.1)).mapM fun e => jobAt memory e.1 e.2) = .ok jobs ∧
      jobs.map Job.slot = List.range pas.length ∧ jobs.map (fun job => job.pa.toNat) = pas ∧
      ∀ job ∈ jobs, pageAt memory job.pa.toNat = .ok job.page := by
  have hto : ∀ pa < total, (UInt64.ofNat pa).toNat = pa := fun pa hpa =>
    UInt64.toNat_ofNat_of_lt' (lt_of_lt_of_le hpa ht)
  have hbelow : ∀ e ∈ pas.zipIdx.map (fun e => (e.2, e.1)), e.2 < total := by
    intro e he
    obtain ⟨⟨pa, i⟩, hpi, rfl⟩ := List.mem_map.1 he
    exact h pa (List.fst_mem_of_mem_zipIdx hpi)
  obtain ⟨jobs, hjobs, hpairs, hpages⟩ := mapM_jobAt hm hbelow
  refine ⟨jobs, hjobs, ?_, ?_, fun job hj => ?_⟩
  · have hslots := congrArg (List.map Prod.fst) hpairs
    rw [List.map_map, List.map_map, List.map_map] at hslots
    calc jobs.map Job.slot = pas.zipIdx.map Prod.snd := hslots
      _ = List.range pas.length := by rw [List.zipIdx_map_snd, List.range_eq_range']
  · have haddrs := congrArg (List.map fun e : ℕ × UInt64 => e.2.toNat) hpairs
    rw [List.map_map, List.map_map, List.map_map] at haddrs
    calc jobs.map (fun job => job.pa.toNat) = pas.zipIdx.map (fun e => (UInt64.ofNat e.1).toNat) := haddrs
      _ = pas.zipIdx.map Prod.fst :=
        List.map_congr_left fun e he => hto e.1 (h e.1 (List.fst_mem_of_mem_zipIdx he))
      _ = pas := List.zipIdx_map_fst 0 pas
  · obtain ⟨e, he, hpa, hpage⟩ := hpages job hj
    rw [hpa, hto e.2 (hbelow e he)]
    exact hpage

/-- **Jobs for strictly increasing addresses**, with the slots counted up, are those of
a call that marks these addresses. -/
theorem jobsOf_addresses {c : SaveCall} (hm : c.memory.length = c.total * pageSize)
    (hc : c.total ≤ 2 ^ 64) {pas : List ℕ}
    (hsort : pas.Pairwise (· < ·)) (hmem : ∀ pa, pa ∈ pas ↔ c.marks pa = true)
    (hmarks : ∀ pa, c.marks pa = true → pa < c.total) :
    ∃ jobs, ((pas.zipIdx.map fun e => (e.2, e.1)).mapM fun e => jobAt c.memory e.1 e.2) = .ok jobs ∧
      JobsOf c jobs ∧ jobs.length = pas.length := by
  obtain ⟨jobs, hjobs, hslots, hpas, hpages⟩ := mapM_zipIdx hm hc fun pa hpa => hmarks pa ((hmem pa).1 hpa)
  have hlen : jobs.length = pas.length := by
    rw [← hpas, List.length_map]
  have hin : ∀ job ∈ jobs, job.pa.toNat ∈ pas := by
    intro job hj
    rw [← hpas]
    exact List.mem_map_of_mem hj
  refine ⟨jobs, hjobs, ⟨?_, ?_, fun pa page => ?_, fun job hj => (hmem _).1 (hin job hj)⟩, hlen⟩
  · rw [hslots, hlen]
  · rw [← hpas, List.pairwise_map] at hsort
    exact hsort
  · unfold SaveCall.dirty
    constructor
    · intro hd
      split at hd
      · rename_i hmark
        have hpa : pa.toNat ∈ pas := (hmem _).2 hmark
        rw [← hpas] at hpa
        obtain ⟨job, hj, hjp⟩ := List.mem_map.1 hpa
        rw [← hjp, hpages job hj] at hd
        exact ⟨job, hj, UInt64.toNat_inj.1 hjp, Option.some.inj hd⟩
      · cases hd
    · rintro ⟨job, hj, rfl, rfl⟩
      rw [if_pos ((hmem _).1 (hin job hj)), hpages job hj]
      rfl

end Make

/-! ## `save_all_pages` -/

/-- Blocks of consecutive numbers, one after the other. -/
theorem flatMap_blocks (size : ℕ → ℕ) (start : ℕ → ℕ) (hs : ∀ g, start (g + 1) = start g + size g)
    (h0 : start 0 = 0) : ∀ n, (List.range n).flatMap (fun g => (List.range (size g)).map (start g + ·)) =
      List.range (start n)
  | 0 => by simp [h0]
  | n + 1 => by
    rw [List.range_succ, List.flatMap_append, flatMap_blocks size start hs h0 n, hs n, List.range_add]
    simp

theorem zipIdx_range (n : ℕ) : (List.range n).zipIdx.map (fun e => (e.2, e.1)) =
    (List.range n).map fun i => (i, i) := by
  apply List.ext_getElem
  · simp
  · intro i h1 h2; simp

/-- The groups of `save_all_pages` make up the whole range. -/
theorem allGroups_eq (total : ℕ) :
    ((List.range ((total + pagesPerGroup - 1) / pagesPerGroup)).flatMap fun g =>
      (List.range (if g + 1 = (total + pagesPerGroup - 1) / pagesPerGroup then total - g * pagesPerGroup
        else pagesPerGroup)).map fun i => (g * pagesPerGroup + i, g * pagesPerGroup + i)) =
    (List.range total).map fun i => (i, i) := by
  set n := (total + pagesPerGroup - 1) / pagesPerGroup with hn
  have hq : pagesPerGroup = 4096 := rfl
  -- group `g` starts at `min (g * 4096) total`
  have hsize : ∀ g, g < n → (if g + 1 = n then total - g * pagesPerGroup else pagesPerGroup) =
      min ((g + 1) * pagesPerGroup) total - min (g * pagesPerGroup) total ∧
      min (g * pagesPerGroup) total = g * pagesPerGroup := by
    intro g hg
    rw [hq] at hn ⊢
    split <;> omega
  have hblocks := flatMap_blocks
    (fun g => min ((g + 1) * pagesPerGroup) total - min (g * pagesPerGroup) total)
    (fun g => min (g * pagesPerGroup) total)
    (fun g => by
      have : g * pagesPerGroup ≤ (g + 1) * pagesPerGroup := Nat.mul_le_mul_right _ (by omega)
      omega)
    (by simp) n
  have hend : min (n * pagesPerGroup) total = total := by rw [hq] at hn ⊢; omega
  rw [hend] at hblocks
  rw [← hblocks, List.map_flatMap]
  refine List.flatMap_congr fun g hg => ?_
  obtain ⟨h1, h2⟩ := hsize g (List.mem_range.1 hg)
  rw [h1, h2, List.map_map]
  rfl

/-- **`save_all_pages` makes one job for every page.** -/
theorem allJobs_jobsOf {memory : Bytes} {n : UInt64} {s : UInt32} (hm : memory.length = n.toNat * pageSize) :
    ∃ jobs, allJobs memory n.toNat = .ok jobs ∧ JobsOf (.all memory n s) jobs ∧ jobs.length = n.toNat := by
  have hsort : (List.range n.toNat).Pairwise (· < ·) := List.pairwise_lt_range
  obtain ⟨jobs, h1, h2, h3⟩ := jobsOf_addresses (c := .all memory n s) hm n.toNat_lt.le hsort
    (fun pa => by simp [SaveCall.marks]) (fun pa h => by simpa [SaveCall.marks, SaveCall.total] using h)
  refine ⟨jobs, ?_, h2, by rw [h3, List.length_range]⟩
  unfold allJobs
  simp only [allGroups_eq]
  rw [zipIdx_range] at h1
  exact h1

/-! ## `save_pages_with_bitmap` -/

section Bitmap

theorem ones_empty {w : UInt64} : Bits.ones 64 w.toNat = [] ↔ w = 0 := by
  constructor
  · intro h
    apply UInt64.toNat_inj.1
    apply Nat.eq_of_testBit_eq
    intro i
    rw [UInt64.toNat_zero, Nat.zero_testBit]
    by_cases hi : i < 64
    · by_contra hc
      have : i ∈ Bits.ones 64 w.toNat := Bits.mem_ones.2 ⟨hi, by simpa using hc⟩
      rw [h] at this
      simp at this
    · exact Nat.testBit_lt_two_pow (lt_of_lt_of_le w.toNat_lt (Nat.pow_le_pow_right (by omega) (by omega)))
  · rintro rfl
    simp [Bits.ones]

theorem toNat_and_pred {w : UInt64} (h : w ≠ 0) : (w &&& (w - 1)).toNat = w.toNat &&& (w.toNat - 1) := by
  have hpos : 0 < w.toNat := by
    rcases Nat.eq_zero_or_pos w.toNat with h0 | h0
    · exact absurd (UInt64.toNat_inj.1 (by rw [h0]; rfl)) h
    · exact h0
  have hsub : (w - 1).toNat = w.toNat - 1 := by
    rw [UInt64.toNat_sub_of_le _ _ (by rw [UInt64.le_iff_toNat_le]; exact hpos)]
    rfl
  rw [UInt64.toNat_and, hsub]

/-- **The walk over a word finds its set bits**, lowest first. -/
theorem setBits_eq : ∀ (rounds : ℕ) (w : UInt64), (Bits.ones 64 w.toNat).length ≤ rounds →
    setBits rounds w = Bits.ones 64 w.toNat
  | 0, w, h => by
    rw [List.length_eq_zero_iff.1 (Nat.le_zero.1 h)]; rfl
  | rounds + 1, w, h => by
    by_cases hw : w = 0
    · rw [ones_empty.2 hw]
      simp [setBits, hw]
    · obtain ⟨b, rest, hl, hb, hlow, hfind⟩ := Bits.exists_lowest (mt ones_empty.1 hw)
      have hrest := Bits.ones_and_pred hl hb hlow
      have hlen : (Bits.ones 64 (w &&& (w - 1)).toNat).length ≤ rounds := by
        rw [toNat_and_pred hw, hrest]
        rw [hl] at h
        simpa using h
      have htz : trailingZeros w = b := by
        unfold trailingZeros
        rw [show testBit w = w.toNat.testBit from rfl, hfind]; rfl
      unfold setBits
      rw [if_neg hw, htz, setBits_eq rounds _ hlen, toNat_and_pred hw, hrest, hl]

theorem setBits_ones (w : UInt64) : setBits 64 w = Bits.ones 64 w.toNat := by
  refine setBits_eq 64 w ?_
  have := List.length_filter_le w.toNat.testBit (List.range 64)
  rwa [List.length_range] at this

theorem countOnes_eq (w : UInt64) : countOnes w = (setBits 64 w).length := by
  rw [setBits_ones]
  exact List.countP_eq_length_filter

/-- The last word's mask keeps the bits of pages below the total. -/
theorem testBit_maskLastWord {w : UInt64} {wi total b : ℕ} (hwi : wi < (total + 63) / 64) (hb : b < 64) :
    (maskLastWord w wi ((total + 63) / 64) total).toNat.testBit b =
      (decide (wi * 64 + b < total) && w.toNat.testBit b) := by
  unfold maskLastWord
  split
  · rename_i hlast
    split
    · rename_i hvalid
      set v := total - wi * 64 with hv
      have hshift : ((1 : UInt64) <<< UInt64.ofNat v - 1).toNat = 2 ^ v - 1 := by
        have hpow : 2 ^ v < 2 ^ 64 := Nat.pow_lt_pow_right (by omega) hvalid
        have h1 : ((1 : UInt64) <<< UInt64.ofNat v).toNat = 2 ^ v := by
          rw [UInt64.toNat_shiftLeft, UInt64.toNat_ofNat_of_lt' (show v < 2 ^ 64 by omega),
            Nat.mod_eq_of_lt hvalid, Nat.shiftLeft_eq, show (1 : UInt64).toNat = 1 from rfl, Nat.one_mul,
            Nat.mod_eq_of_lt hpow]
        rw [UInt64.toNat_sub_of_le _ _ (by
          rw [UInt64.le_iff_toNat_le, h1]; exact Nat.one_le_two_pow), h1]
        rfl
      rw [UInt64.toNat_and, hshift, Nat.testBit_and, Nat.testBit_two_pow_sub_one, Bool.and_comm]
      congr 1
      exact decide_eq_decide.2 (by omega)
    · have : wi * 64 + b < total := by omega
      simp [this]
  · have : wi * 64 + b < total := by omega
    simp [this]

variable {bitmap : List UInt64} {total : ℕ}

/-- The dirty pages of a word. -/
def wordPas (bitmap : List UInt64) (total wi : ℕ) : List ℕ :=
  (Bits.ones 64 (maskLastWord (bitmap.getD wi 0) wi ((total + 63) / 64) total).toNat).map (wi * 64 + ·)

theorem groupPas_eq (g : ℕ) : groupPas bitmap ((total + 63) / 64) total g =
    (List.range (min ((g + 1) * wordsPerGroup) ((total + 63) / 64) - g * wordsPerGroup)).flatMap
      fun i => wordPas bitmap total (g * wordsPerGroup + i) := by
  unfold groupPas groupWords
  simp only [List.flatMap_map, setBits_ones]
  rfl

theorem groupCount_eq (g : ℕ) : groupCount bitmap ((total + 63) / 64) total g =
    (groupPas bitmap ((total + 63) / 64) total g).length := by
  unfold groupCount groupPas
  rw [List.length_flatMap]
  simp only [List.length_map, countOnes_eq]

/-- The groups' pages are the words' pages. -/
theorem flatMap_groupPas : (List.range (numGroups ((total + 63) / 64))).flatMap
      (groupPas bitmap ((total + 63) / 64) total) =
    (List.range ((total + 63) / 64)).flatMap (wordPas bitmap total) := by
  set ew := (total + 63) / 64 with hew
  have hblocks := flatMap_blocks
    (fun g => min ((g + 1) * wordsPerGroup) ew - min (g * wordsPerGroup) ew)
    (fun g => min (g * wordsPerGroup) ew)
    (fun g => by
      have : g * wordsPerGroup ≤ (g + 1) * wordsPerGroup := Nat.mul_le_mul_right _ (by omega)
      omega)
    (by simp) (numGroups ew)
  have hq : wordsPerGroup = 64 := rfl
  have hend : min (numGroups ew * wordsPerGroup) ew = ew := by unfold numGroups; rw [hq]; omega
  rw [hend] at hblocks
  rw [← hblocks, List.flatMap_assoc]
  refine List.flatMap_congr fun g hg => ?_
  rw [hew, groupPas_eq, ← hew, List.flatMap_map]
  have hstart : min (g * wordsPerGroup) ew = g * wordsPerGroup := by
    have := List.mem_range.1 hg
    unfold numGroups at this
    rw [hq] at this ⊢; omega
  rw [hstart]

theorem mem_wordPas {wi pa : ℕ} (hwi : wi < (total + 63) / 64) :
    pa ∈ wordPas bitmap total wi ↔ pa / 64 = wi ∧ pa < total ∧ testBit (bitmap.getD (pa / 64) 0) (pa % 64) = true := by
  unfold wordPas
  rw [List.mem_map]
  constructor
  · rintro ⟨b, hb, rfl⟩
    obtain ⟨h64, hbit⟩ := Bits.mem_ones.1 hb
    rw [testBit_maskLastWord hwi h64, Bool.and_eq_true, decide_eq_true_eq] at hbit
    have hdiv : (wi * 64 + b) / 64 = wi := by omega
    have hmod : (wi * 64 + b) % 64 = b := by omega
    rw [hdiv, hmod]
    exact ⟨rfl, hbit⟩
  · rintro ⟨hdiv, hlt, hbit⟩
    rw [hdiv] at hbit
    refine ⟨pa % 64, Bits.mem_ones.2 ⟨Nat.mod_lt _ (by omega), ?_⟩, by omega⟩
    rw [testBit_maskLastWord hwi (Nat.mod_lt _ (by omega)), Bool.and_eq_true, decide_eq_true_eq]
    exact ⟨by omega, hbit⟩

/-- The dirty pages of the bitmap, in ascending order. -/
def bitmapPas (bitmap : List UInt64) (total : ℕ) : List ℕ :=
  (List.range ((total + 63) / 64)).flatMap (wordPas bitmap total)

theorem mem_bitmapPas {pa : ℕ} : pa ∈ bitmapPas bitmap total ↔
    pa < total ∧ testBit (bitmap.getD (pa / 64) 0) (pa % 64) = true := by
  unfold bitmapPas
  rw [List.mem_flatMap]
  constructor
  · rintro ⟨wi, hwi, hpa⟩
    exact ((mem_wordPas (List.mem_range.1 hwi)).1 hpa).2
  · rintro ⟨hlt, hbit⟩
    have hwi : pa / 64 < (total + 63) / 64 := by omega
    exact ⟨pa / 64, List.mem_range.2 hwi, (mem_wordPas hwi).2 ⟨rfl, hlt, hbit⟩⟩

theorem bitmapPas_sorted : (bitmapPas bitmap total).Pairwise (· < ·) := by
  unfold bitmapPas
  rw [List.pairwise_flatMap]
  constructor
  · intro wi _
    unfold wordPas
    rw [List.pairwise_map]
    exact (Bits.ones_sorted _ _).imp fun h => by omega
  · refine (List.pairwise_lt_range).imp_of_mem fun {wi wj} hwi hwj hlt => ?_
    intro x hx y hy
    have h1 := ((mem_wordPas (List.mem_range.1 hwi)).1 hx).1
    have h2 := ((mem_wordPas (List.mem_range.1 hwj)).1 hy).1
    omega

/-- What the prefix sum computes. -/
theorem prefixSum_spec : ∀ (cs : List ℕ) (acc : ℕ) {offsets : List ℕ} {total : ℕ},
    prefixSum acc cs = .ok (offsets, total) →
    total = acc + cs.sum ∧ ∀ g < cs.length, offsets.getD g 0 = acc + (cs.take g).sum
  | [], acc, offsets, total, h => by
    simp only [prefixSum, Except.ok.injEq, Prod.mk.injEq] at h
    simp [h.2]
  | c :: cs, acc, offsets, total, h => by
    unfold prefixSum at h
    split at h
    · simp [ioErr] at h
    · obtain ⟨⟨offs, tot⟩, h1, h2⟩ := bind_eq_ok.1 h
      simp only [Except.ok.injEq, Prod.mk.injEq] at h2
      obtain ⟨rfl, rfl⟩ := h2
      obtain ⟨h3, h4⟩ := prefixSum_spec cs _ h1
      refine ⟨by rw [h3, List.sum_cons]; omega, fun g hg => ?_⟩
      cases g with
      | zero => simp
      | succ g =>
        have := h4 g (by simpa using hg)
        simp only [List.getD_cons_succ, List.take_succ_cons, List.sum_cons]
        rw [this]; omega

/-- Numbering each group from its entry of the prefix sum numbers all pages in a row. -/
theorem zipIdx_groups (f : ℕ → List ℕ) (off : ℕ → ℕ) : ∀ n,
    (∀ g < n, off g = (((List.range n).map fun g => (f g).length).take g).sum) →
    (List.range n).flatMap (fun g => (f g).zipIdx.map fun e => (off g + e.2, e.1)) =
      ((List.range n).flatMap f).zipIdx.map fun e => (e.2, e.1) := by
  have htake : ∀ (n g : ℕ), g ≤ n → (((List.range n).map fun g => (f g).length).take g) =
      (List.range g).map fun g => (f g).length := by
    intro n g hg
    rw [← List.map_take, List.take_range, Nat.min_eq_left hg]
  intro n
  induction n with
  | zero => intro _; rfl
  | succ n ih =>
    intro h
    have ih' := ih fun g hg => by rw [h g (by omega), htake _ _ (by omega), htake _ _ (by omega)]
    have hn := h n (by omega)
    rw [htake _ _ (by omega)] at hn
    rw [List.range_succ, List.flatMap_append, List.flatMap_append, List.zipIdx_append, List.map_append, ih']
    congr 1
    simp only [List.flatMap_singleton]
    rw [List.length_flatMap, Nat.zero_add, ← hn]
    apply List.ext_getElem
    · simp
    · intro i h1 h2; simp

/-- Skipping the groups without a dirty page changes nothing. -/
theorem flatMap_active {β : Type} {f : ℕ → List β} {p : ℕ → Bool} : ∀ {l : List ℕ},
    (∀ g ∈ l, p g = false → f g = []) → (l.filter p).flatMap f = l.flatMap f
  | [], _ => rfl
  | g :: l, h => by
    have ih := flatMap_active (l := l) fun g' hg' => h g' (List.mem_cons_of_mem _ hg')
    by_cases hp : p g = true
    · rw [List.filter_cons_of_pos hp, List.flatMap_cons, List.flatMap_cons, ih]
    · rw [List.filter_cons_of_neg hp, List.flatMap_cons, h g List.mem_cons_self (by simpa using hp), ih,
        List.nil_append]

/-- **`save_pages_with_bitmap` makes one job for each set bit below the total.** -/
theorem bitmapJobs_jobsOf {memory : Bytes} {bits : List UInt64} {n : UInt64} {s : UInt32}
    (hm : memory.length = n.toNat * pageSize) {offsets : List ℕ} {dirty : ℕ}
    (ho : bitmapOffsets (bits.take ((n.toNat + 63) / 64)) ((n.toNat + 63) / 64) n.toNat = .ok (offsets, dirty)) :
    ∃ jobs, bitmapJobs memory (bits.take ((n.toNat + 63) / 64)) ((n.toNat + 63) / 64) n.toNat offsets = .ok jobs ∧
      JobsOf (.bitmap memory bits n s) jobs ∧ jobs.length = dirty := by
  set ew := (n.toNat + 63) / 64 with hew
  set bitmap := bits.take ew with hbitmap
  have hmarks : ∀ pa, pa ∈ bitmapPas bitmap n.toNat ↔ (SaveCall.bitmap memory bits n s).marks pa = true := by
    intro pa
    rw [mem_bitmapPas]
    simp only [SaveCall.marks, Bool.and_eq_true, decide_eq_true_eq]
    refine and_congr_right fun hlt => ?_
    have : pa / 64 < ew := by omega
    rw [hbitmap, List.getD_eq_getElem?_getD, List.getElem?_take_of_lt this, ← List.getD_eq_getElem?_getD]
  obtain ⟨jobs, h1, h2, h3⟩ := jobsOf_addresses (c := .bitmap memory bits n s) hm n.toNat_lt.le
    bitmapPas_sorted hmarks fun pa h => by
      simp only [SaveCall.marks, Bool.and_eq_true, decide_eq_true_eq] at h
      exact h.1
  have hcounts : (List.range (numGroups ew)).map (groupCount bitmap ew n.toNat) =
      (List.range (numGroups ew)).map fun g => (groupPas bitmap ew n.toNat g).length :=
    List.map_congr_left fun g _ => groupCount_eq g
  unfold bitmapOffsets at ho
  rw [hcounts] at ho
  obtain ⟨hsum, hoff⟩ := prefixSum_spec _ _ ho
  have hpas : (List.range (numGroups ew)).flatMap (groupPas bitmap ew n.toNat) = bitmapPas bitmap n.toNat :=
    flatMap_groupPas
  have hslots := zipIdx_groups (groupPas bitmap ew n.toNat) (offsets.getD · 0) (numGroups ew) fun g hg => by
    have := hoff g (by rw [List.length_map, List.length_range]; exact hg)
    rw [this, Nat.zero_add]
  rw [hpas] at hslots
  refine ⟨jobs, ?_, h2, ?_⟩
  · unfold bitmapJobs
    dsimp only
    rw [flatMap_active (fun g _ hg => ?_), hslots]
    · exact h1
    · -- a group with no dirty page has no address
      rw [decide_eq_false_iff_not, groupCount_eq] at hg
      rw [List.length_eq_zero_iff.1 (Nat.eq_zero_of_not_pos hg)]; rfl
  · rw [h3, hsum, Nat.zero_add, ← hpas, List.length_flatMap]

end Bitmap

end Bxdb
