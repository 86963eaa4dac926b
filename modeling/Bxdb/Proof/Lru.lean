import Bxdb.Lib.Recency
import Bxdb.Proof.Cache
import Mathlib.Data.List.GetD

/-!
# Which page a full set loses

The timestamps of a set are recency stamps with top 255 over the accesses to the set
(`LruInv`), whatever calls on other sets and misses come between.

* `victim_le`: the scan finds a way with the smallest timestamp.
* `LruInv.step`: **a put or a hit stamps its way and ages the others.**
* `evicts_oldest`: **a full set loses the page not accessed for longest, or one that was not
  accessed in the last 255 accesses**, and never the one accessed last.
-/

namespace Bxdb.SharedCache

open Bytes Memory

/-! ## The timestamps of a set -/

/-- The timestamp of a way. -/
def stampOf (m : Mem) (loc : ℕ × ℕ) (w : ℕ) : UInt8 := m (timestampsPtr (setAt loc) + w)

variable {m m' : Mem} {loc : ℕ × ℕ} {w a : ℕ} {key : UInt64}

theorem getD_timestamps (hw : w < 16) : (timestamps m (setAt loc)).getD w 0 = stampOf m loc w := by
  have hlen : w < (timestamps m (setAt loc)).length := by
    have : (timestamps m (setAt loc)).length = 16 := length_load _ _ _
    omega
  rw [List.getD_eq_getElem?_getD, List.getElem?_eq_getElem hlen]
  exact getElem_load hlen

theorem tick_toNat (t : UInt8) : (tick t).toNat = t.toNat - 1 := by
  unfold tick
  split
  · rename_i h0
    rw [h0]
    rfl
  · rename_i hne
    have hpos : 1 ≤ t.toNat := Nat.one_le_iff_ne_zero.2 fun h => hne (UInt8.toNat_inj.1 h)
    exact UInt8.toNat_sub_of_le t 1 (UInt8.le_iff_toNat_le.2 hpos)

/-- **An access stamps its way** with 255 and takes one from the others. -/
theorem stampOf_updateLru (hw : w < 16) (ha : a < 16) :
    stampOf (updateLru m (setAt loc) a) loc w = if w = a then 255 else tick (stampOf m loc w) := by
  have hlen : ((timestamps m (setAt loc)).map tick).length = 16 := by
    rw [List.length_map]
    exact length_load _ _ _
  unfold stampOf updateLru
  by_cases hwa : w = a
  · subst hwa
    rw [if_pos rfl]
    unfold store
    rw [if_pos ⟨le_refl _, by rw [List.length_singleton]; omega⟩, Nat.sub_self, List.getD_cons_zero]
  · rw [if_neg hwa, store_outside (by rw [List.length_singleton]; omega),
      store_inside (show w < ((timestamps m (setAt loc)).map tick).length by omega), List.getElem_map]
    congr 1
    exact getElem_load _

theorem stampOf_congr (h : load m (timestampsPtr (setAt loc)) 16 = load m' (timestampsPtr (setAt loc)) 16) (hw : w < 16) :
    stampOf m loc w = stampOf m' loc w := eq_of_load_eq h hw

/-- A put of this set. -/
theorem stampOf_put {page : Page} (hk : key ≠ emptyKey) (hw : w < 16) :
    stampOf (put m key page) (locate key) w =
      if w = putWay m key then 255 else tick (stampOf m (locate key) w) := by
  have hp := put_inTable m key
  -- the page and its id are stored elsewhere
  have hsame : load (store64 (store m (dataPtr (slotOf (locate key) (putWay m key))) page.bytes)
      (pageIdPtr (setAt (locate key)) (putWay m key)) key) (timestampsPtr (setAt (locate key))) 16 =
      load m (timestampsPtr (setAt (locate key))) 16 := by
    rw [load_store64_sep (noOverlap_comm (sep_id_timestamps hp hp)),
      load_store_sep (by rw [page.size]; exact sep_timestamps_data hp _)]
  rw [put_of_ne hk, stampOf_updateLru hw hp.way, stampOf_congr hsame hw]

/-- A call on another set. -/
theorem stampOf_other {op : SetCache.Op UInt64 Page} (hin : InTable loc 0) (hw : w < 16) (hne : loc ≠ locate (opKey op)) :
    stampOf (step m op) loc w = stampOf m loc w := by
  have hop : ∀ {v}, v < 16 → InTable (locate (opKey op)) v := fun hv => ⟨(locate_lt _).1, (locate_lt _).2, hv⟩
  have h0 := hop (show 0 < 16 by norm_num)
  exact stampOf_congr (load_step (fun v hv => ⟨sep_timestamps_data hin _, noOverlap_comm (sep_id_timestamps (hop hv) hin)⟩)
    (sep_timestamps hin h0 hne)) hw

/-! ## The initial set -/

/-- Every timestamp of the set is zero. -/
def SetFresh (loc : ℕ × ℕ) (m : Mem) : Prop := ∀ w, w < 16 → stampOf m loc w = 0

theorem initSet_fresh : SetFresh loc (initSet m (setAt loc)) := by
  intro w hw
  have hlen : w < (List.replicate waysPerSet (0 : UInt8)).length := by
    rw [List.length_replicate]
    exact hw
  unfold stampOf initSet
  rw [store_inside hlen, List.getElem_replicate]

theorem initSet_keeps_fresh {loc' : ℕ × ℕ} (h : InTable loc 0) (h' : InTable loc' 0) (hf : SetFresh loc m) :
    SetFresh loc (initSet m (setAt loc')) := by
  by_cases heq : loc = loc'
  · subst heq
    exact initSet_fresh
  · intro w hw
    refine (stampOf_congr (load_initSet ?_) hw).trans (hf w hw)
    have hap := sets_apart h h' heq
    simp only [NoOverlap, timestampsPtr, waysPerSet, setStride] at *
    omega

theorem initMetadata_fresh (m : Mem) (identity : Bytes) (h : InTable loc 0) : SetFresh loc (initMetadata m identity) := by
  refine initMetadata_establishes h (fun _ => initSet_fresh) (fun _ _ h' => initSet_keeps_fresh h h')
    (fun m hf w hw => ?_) m
  refine (stampOf_congr (load_writeIdentity identity ?_) hw).trans (hf w hw)
  have hoff := set_off_identity h
  rw [show setStride = 192 from rfl] at hoff
  unfold timestampsPtr waysPerSet
  omega

/-! ## The victim -/

/-- **The scan finds the smallest timestamp.** -/
theorem victim_le (ts : Bytes) (hw : w < 16) : ts.getD (victim ts) 0 ≤ ts.getD w 0 := by
  -- over the ways seen so far
  have hscan : ∀ l : List ℕ, ∀ best : UInt8 × ℕ,
      best = l.foldl (fun min w => if ts.getD w 0 < min.1 then (ts.getD w 0, w) else min) ((255 : UInt8), 0) →
      (∀ w ∈ l, best.1 ≤ ts.getD w 0) ∧ (ts.getD best.2 0 = best.1 ∨ best.1 = 255) := by
    intro l
    induction l using List.reverseRecOn with
    | nil =>
      rintro best rfl
      exact ⟨by simp, .inr rfl⟩
    | append_singleton l v ih =>
      rintro best rfl
      obtain ⟨hle, hval⟩ := ih _ rfl
      rw [List.foldl_append, List.foldl_cons, List.foldl_nil]
      split
      · rename_i hlt
        refine ⟨fun u hu => ?_, .inl rfl⟩
        rcases List.mem_append.1 hu with hu | hu
        · exact UInt8.le_trans (UInt8.le_of_lt hlt) (hle u hu)
        · rw [List.mem_singleton.1 hu]
          exact UInt8.le_refl _
      · rename_i hge
        refine ⟨fun u hu => ?_, hval⟩
        rcases List.mem_append.1 hu with hu | hu
        · exact hle u hu
        · rw [List.mem_singleton.1 hu]
          exact UInt8.not_lt.1 hge
  obtain ⟨hle, hval⟩ := hscan (List.range waysPerSet) _ rfl
  have hbest := hle w (List.mem_range.2 hw)
  rcases hval with hval | h255
  · unfold victim
    rw [hval]
    exact hbest
  · -- every timestamp is 255
    rw [h255] at hbest
    have hmax : ∀ t : UInt8, t ≤ 255 := fun t => UInt8.le_iff_toNat_le.2 (Nat.le_of_lt_succ t.toNat_lt)
    exact UInt8.le_trans (hmax _) hbest

/-! ## Accesses -/

/-- The way and the key of the access that the call makes to this set: a put, or a hit. -/
def accessOf (m : Mem) (loc : ℕ × ℕ) : SetCache.Op UInt64 Page → Option (ℕ × UInt64)
  | .put key _ => if key ≠ emptyKey ∧ locate key = loc then some (putWay m key, key) else none
  | .get key =>
    if key ≠ emptyKey ∧ locate key = loc then (findWay (pageIds m (setAt loc)) key).map fun w => (w, key) else none

theorem accessOf_put {page : Page} : accessOf m loc (.put key page) =
    if key ≠ emptyKey ∧ locate key = loc then some (putWay m key, key) else none := rfl

theorem accessOf_get : accessOf m loc (.get key) =
    if key ≠ emptyKey ∧ locate key = loc then (findWay (pageIds m (setAt loc)) key).map fun w => (w, key)
    else none := rfl

/-- The accesses to a set, newest first. -/
def accesses (m : Mem) (loc : ℕ × ℕ) (ops : List (SetCache.Op UInt64 Page)) : List (ℕ × UInt64) :=
  (ops.foldl (fun s op => (step s.1 op, (accessOf s.1 loc op).toList ++ s.2)) (m, [])).2

theorem accesses_concat (m : Mem) (loc : ℕ × ℕ) (ops : List (SetCache.Op UInt64 Page)) (op : SetCache.Op UInt64 Page) :
    accesses m loc (ops ++ [op]) = (accessOf (run m ops) loc op).toList ++ accesses m loc ops := by
  have hrun : ∀ (ops : List (SetCache.Op UInt64 Page)) (s : Mem × List (ℕ × UInt64)),
      (ops.foldl (fun s op => (step s.1 op, (accessOf s.1 loc op).toList ++ s.2)) s).1 = run s.1 ops := by
    intro ops
    induction ops with
    | nil =>
      intro s
      rfl
    | cons op ops ih =>
      intro s
      exact ih _
  unfold accesses
  rw [List.foldl_append, List.foldl_cons, List.foldl_nil]
  dsimp only
  rw [hrun ops (m, [])]

/-- The reserved key changes nothing, and another key of another set is on that set. -/
theorem step_foreign {op : SetCache.Op UInt64 Page} (h : ¬ (opKey op ≠ emptyKey ∧ locate (opKey op) = loc)) :
    step m op = m ∨ loc ≠ locate (opKey op) := by
  by_cases hk : opKey op = emptyKey
  · left
    cases op with
    | put key page => exact if_pos hk
    | get key =>
      have hget : get m key = (m, none) := if_pos hk
      show (get m key).1 = m
      rw [hget]
  · exact .inr fun heq => h ⟨hk, heq.symm⟩

/-- No access: the call changes nothing, or is on another set. -/
theorem accessOf_none {op : SetCache.Op UInt64 Page} (h : accessOf m loc op = none) :
    step m op = m ∨ loc ≠ locate (opKey op) := by
  cases op with
  | put key page =>
    rw [accessOf_put] at h
    split at h
    · cases h
    · rename_i hforeign
      exact step_foreign hforeign
  | get key =>
    rw [accessOf_get] at h
    split at h
    · -- a miss
      rename_i hown
      obtain ⟨hk, rfl⟩ := hown
      rw [Option.map_eq_none_iff] at h
      left
      show (get m key).1 = m
      unfold get
      rw [if_neg hk]
      dsimp only
      rw [h]
    · rename_i hforeign
      exact step_foreign hforeign

/-- **An access** stamps its way, which then holds the key. -/
theorem accessOf_some {op : SetCache.Op UInt64 Page} (h : accessOf m loc op = some (a, key)) :
    a < 16 ∧ idOf (step m op) loc a = key ∧ ∀ w, w < 16 →
      stampOf (step m op) loc w = if w = a then 255 else tick (stampOf m loc w) := by
  cases op with
  | put key' page =>
    rw [accessOf_put] at h
    split at h
    · rename_i hown
      obtain ⟨hk, rfl⟩ := hown
      obtain ⟨rfl, rfl⟩ := Prod.mk.inj (Option.some.inj h)
      exact ⟨(put_inTable m key').way, idOf_put_self hk, fun w hw => stampOf_put hk hw⟩
    · cases h
  | get key' =>
    rw [accessOf_get] at h
    split at h
    · rename_i hown
      obtain ⟨hk, rfl⟩ := hown
      obtain ⟨w, hway, heq⟩ := Option.map_eq_some_iff.1 h
      obtain ⟨rfl, rfl⟩ := Prod.mk.inj heq
      obtain ⟨hw, hid⟩ := findWay_some hway
      have hstep : step m (.get key') = updateLru m (setAt (locate key')) w := by
        show (get m key').1 = _
        unfold get
        rw [if_neg hk]
        dsimp only
        rw [hway]
      have hin : ∀ {v}, v < 16 → InTable (locate key') v := fun hv => ⟨(locate_lt _).1, (locate_lt _).2, hv⟩
      rw [hstep]
      refine ⟨hw, ?_, fun v hv => stampOf_updateLru hv hw⟩
      exact (load64_congr (load_updateLru hw (sep_id_timestamps (hin hw) (hin hw)))).trans hid
    · cases h

/-! ## The invariant -/

/-- The ways accessed, newest first. -/
abbrev ways (h : List (ℕ × UInt64)) : List ℕ := h.map Prod.fst

/-- **The timestamps are recency stamps**, and the way accessed last holds its key. -/
structure LruInv (loc : ℕ × ℕ) (h : List (ℕ × UInt64)) (m : Mem) : Prop where
  stamp : ∀ w, w < 16 → (stampOf m loc w).toNat = Recency.stamp 255 (ways h) w
  last : ∀ a ∈ h.head?, a.1 < 16 ∧ idOf m loc a.1 = a.2

theorem LruInv.start (m : Mem) (identity : Bytes) (hin : InTable loc 0) : LruInv loc [] (initMetadata m identity) where
  stamp := by
    intro w hw
    rw [initMetadata_fresh m identity hin w hw]
    exact Recency.stamp_nil.symm
  last := nofun

/-- **One call**, of any kind and on any set. -/
theorem LruInv.step {h : List (ℕ × UInt64)} (hinv : LruInv loc h m) (hin : InTable loc 0)
    (op : SetCache.Op UInt64 Page) : LruInv loc ((accessOf m loc op).toList ++ h) (step m op) := by
  have hway : ∀ {w}, w < 16 → InTable loc w := fun hw => ⟨hin.page, hin.set, hw⟩
  cases hacc : accessOf m loc op with
  | none =>
    rcases accessOf_none hacc with hsame | hne
    · rw [hsame]
      exact hinv
    · -- another set's call
      have hop : ∀ {v}, v < 16 → InTable (locate (opKey op)) v := fun hv => ⟨(locate_lt _).1, (locate_lt _).2, hv⟩
      have h0 := hop (show 0 < 16 by norm_num)
      refine ⟨fun w hw => ?_, fun a ha => ?_⟩
      · rw [stampOf_other hin hw hne]
        exact hinv.stamp w hw
      · obtain ⟨hlt, hid⟩ := hinv.last a ha
        refine ⟨hlt, Eq.trans (load64_congr (load_step (fun v hv => ⟨sep_id_data (hway hlt) _, ?_⟩) ?_)) hid⟩
        · exact sep_ids (hway hlt) (hop hv) fun heq => hne heq.1
        · exact sep_id_timestamps (hway hlt) h0
  | some acc =>
    obtain ⟨a, key⟩ := acc
    obtain ⟨ha, hid, hstamps⟩ := accessOf_some hacc
    refine ⟨fun w hw => ?_, fun b hb => ?_⟩
    · show _ = Recency.stamp 255 (a :: ways h) w
      rw [hstamps w hw, Recency.stamp_cons, ← hinv.stamp w hw]
      split
      · rfl
      · exact tick_toNat _
    · obtain rfl : (a, key) = b := Option.some.inj hb
      exact ⟨ha, hid⟩

/-- After any calls. -/
theorem LruInv.run (m : Mem) (identity : Bytes) (hin : InTable loc 0) (ops : List (SetCache.Op UInt64 Page)) :
    LruInv loc (accesses (initMetadata m identity) loc ops) (run (initMetadata m identity) ops) := by
  induction ops using List.reverseRecOn with
  | nil => exact LruInv.start m identity hin
  | append_singleton ops op ih =>
    rw [accesses_concat, run_append]
    exact ih.step hin op

/-! ## Filling a set -/

theorem findWay_of_absent (h : ∀ w, w < 16 → idOf m loc w ≠ key) : findWay (pageIds m (setAt loc)) key = none := by
  unfold findWay
  rw [List.findIdx?_eq_none_iff]
  intro k hk
  obtain ⟨w, hw, rfl⟩ := List.getElem_of_mem hk
  have hlen : (pageIds m (setAt loc)).length = 16 := length_loadWords _ _ _
  rw [getElem_pageIds, beq_eq_false_iff_ne]
  exact h w (by omega)

/-- A key that is absent goes to the first empty way. -/
theorem putWay_first (habsent : ∀ v, v < 16 → idOf m (locate key) v ≠ key) (hw : w < 16)
    (hempty : idOf m (locate key) w = emptyKey) (hbelow : ∀ v, v < w → idOf m (locate key) v ≠ emptyKey) :
    putWay m key = w := by
  have hlen : w < (pageIds m (setAt (locate key))).length := by
    have : (pageIds m (setAt (locate key))).length = 16 := length_loadWords _ _ _
    omega
  have hfind : findWay (pageIds m (setAt (locate key))) emptyKey = some w := by
    refine List.findIdx?_eq_some_iff_getElem.2 ⟨hlen, ?_, fun v hv => ?_⟩
    · rw [getElem_pageIds, beq_iff_eq]
      exact hempty
    · rw [getElem_pageIds, beq_iff_eq]
      exact hbelow v hv
  unfold putWay chooseWay
  rw [findWay_of_absent habsent, hfind, Option.none_or]

/-- **An empty set takes 16 pages**, each in the next way. -/
theorem idOf_fill {page : Page} {keys : List UInt64} (hin : InTable loc 0) (he : SetEmpty loc m) (hlen : keys.length ≤ 16)
    (hnodup : keys.Nodup) (hkeys : ∀ k ∈ keys, k ≠ emptyKey ∧ locate k = loc) (hw : w < 16) :
    idOf (run m (keys.map fun k => .put k page)) loc w = keys.getD w emptyKey := by
  induction keys using List.reverseRecOn generalizing w with
  | nil => exact he w hw
  | append_singleton keys k ih =>
    obtain ⟨hk, rfl⟩ := hkeys k (List.mem_append_right _ List.mem_cons_self)
    rw [List.length_append, List.length_singleton] at hlen
    have hnew : k ∉ keys := by
      intro hmem
      exact (List.nodup_append.1 hnodup).2.2 k hmem k List.mem_cons_self rfl
    have hids := fun {v} (hv : v < 16) => ih (by omega) (List.nodup_append.1 hnodup).1
      (fun k' hk' => hkeys k' (List.mem_append_left _ hk')) hv
    rw [List.map_append, run_append]
    generalize run m (keys.map fun k => .put k page) = m' at hids
    -- the keys so far hold the first ways
    have hheld : ∀ v, v < keys.length → keys.getD v emptyKey ∈ keys := by
      intro v hv
      rw [List.getD_eq_getElem _ _ hv]
      exact List.getElem_mem hv
    have hrest : ∀ v, keys.length ≤ v → keys.getD v emptyKey = emptyKey := fun v hv => List.getD_eq_default _ _ hv
    have hway : putWay m' k = keys.length := by
      refine putWay_first (fun v hv => ?_) (by omega) ?_ fun v hv => ?_
      · rw [hids hv]
        rcases Nat.lt_or_ge v keys.length with hlt | hge
        · exact fun heq => hnew (heq ▸ hheld v hlt)
        · rw [hrest v hge]
          exact Ne.symm hk
      · rw [hids (by omega)]
        exact hrest _ (le_refl _)
      · rw [hids (by omega)]
        exact (hkeys _ (List.mem_append_left _ (hheld v hv))).1
    show idOf (put m' k page) (locate k) w = _
    by_cases hlast : w = keys.length
    · rw [hlast, ← hway, idOf_put_self hk, hway, List.getD_eq_getElem _ _ (by simp), List.getElem_concat_length rfl]
    · rw [idOf_put hk ⟨hin.page, hin.set, hw⟩ fun heq => hlast (heq.2.trans hway), hids hw]
      rcases Nat.lt_or_ge w keys.length with hlt | hge
      · rw [List.getD_append _ _ _ _ hlt]
      · rw [hrest w hge, List.getD_eq_default _ _ (by simp; omega)]

/-! ## What a full set loses -/

/-- Every way of the set holds a page, none that of the key. -/
def FullWithout (m : Mem) (loc : ℕ × ℕ) (key : UInt64) : Prop :=
  ∀ w, w < 16 → idOf m loc w ≠ emptyKey ∧ idOf m loc w ≠ key

/-- The way put into is one with the smallest timestamp. -/
theorem putWay_least (hfull : FullWithout m (locate key) key) (hw : w < 16) :
    (stampOf m (locate key) (putWay m key)).toNat ≤ (stampOf m (locate key) w).toNat := by
  have hchoose : putWay m key = victim (timestamps m (setAt (locate key))) := by
    unfold putWay chooseWay
    rw [findWay_of_absent fun w hw => (hfull w hw).2, findWay_of_absent fun w hw => (hfull w hw).1, Option.none_or]
  have hle := victim_le (timestamps m (setAt (locate key))) hw
  rw [← hchoose, getD_timestamps hw, getD_timestamps (put_inTable m key).way] at hle
  exact UInt8.le_iff_toNat_le.1 hle

variable {h : List (ℕ × UInt64)}

/-- **The larger timestamp** is that of the later access. -/
theorem LruInv.newer {w' : ℕ} (hinv : LruInv loc h m) (hw : w < 16) (hw' : w' < 16)
    (hlt : stampOf m loc w < stampOf m loc w') : Recency.Newer (ways h) w' w := by
  have hlt' := UInt8.lt_iff_toNat_lt.1 hlt
  rw [hinv.stamp w hw, hinv.stamp w' hw'] at hlt'
  exact Recency.newer_of_stamp_lt hlt'

/-- The way put into is the oldest, or was not accessed lately. -/
theorem LruInv.oldest (hinv : LruInv (locate key) h m) (hfull : FullWithout m (locate key) key) :
    (∀ w, w < 16 → w ≠ putWay m key → Recency.Newer (ways h) w (putWay m key)) ∨
      putWay m key ∉ (ways h).take 255 := by
  apply Recency.oldest_of_least
  intro w hw
  rw [← hinv.stamp w hw, ← hinv.stamp _ (put_inTable m key).way]
  exact putWay_least hfull hw

/-- The way accessed last is not put into. -/
theorem LruInv.ne_last (hinv : LruInv (locate key) h m) (hfull : FullWithout m (locate key) key) {acc : ℕ × UInt64}
    (hacc : h.head? = some acc) : putWay m key ≠ acc.1 := by
  have hhead : (ways h).head? = some acc.1 := by
    rw [List.head?_map, hacc, Option.map_some]
  -- some other way
  obtain ⟨b, hb, hbv⟩ : ∃ b, b < 16 ∧ b ≠ putWay m key := by
    by_cases h0 : putWay m key = 0
    · exact ⟨1, by norm_num, by omega⟩
    · exact ⟨0, by norm_num, by omega⟩
  exact Recency.ne_head hhead (by norm_num) ((hinv.oldest hfull).imp_left fun hall => hall b hb hbv)

/-- In a full set the way put into does not hold the key accessed last. -/
theorem LruInv.ne_last_key {ops : List (SetCache.Op UInt64 Page)} (hinv : LruInv (locate key) h m)
    (hok : SetCache.Ok locate (· = emptyKey) ops (table m)) (hfull : FullWithout m (locate key) key)
    {acc : ℕ × UInt64} (hacc : h.head? = some acc) : idOf m (locate key) (putWay m key) ≠ acc.2 := by
  intro heq
  obtain ⟨hlt, hid⟩ := hinv.last acc hacc
  have hway : ∀ {w}, w < 16 → idOf m (locate key) w = acc.2 →
      table m (locate key) w = some (acc.2, pageOf m (locate key) w) := by
    intro w hw hw2
    have hne : acc.2 ≠ emptyKey := hw2 ▸ (hfull w hw).1
    exact table_eq_some.2 ⟨⟨(locate_lt key).1, (locate_lt key).2, hw⟩, hw2, hne, rfl⟩
  -- no key has two ways
  exact hinv.ne_last hfull hacc (hok.once (hway (put_inTable m key).way heq) (hway hlt hid))

/-- **The larger timestamp is the later access, and a full set loses the page not accessed for
longest**, or one not accessed in the last 255 accesses to the set; never the key accessed
last. So it is after any calls on an initialised file, also on other sets. -/
theorem evicts_oldest (m₀ : Mem) (identity : Bytes) (ops : List (SetCache.Op UInt64 Page)) {loc : ℕ × ℕ}
    (hin : InTable loc 0) :
    let start := initMetadata m₀ identity
    let m := run start ops
    let h := accesses start loc ops
    (∀ w w', w < 16 → w' < 16 → stampOf m loc w < stampOf m loc w' → Recency.Newer (ways h) w' w) ∧
    ∀ key page v, key ≠ emptyKey → locate key = loc → FullWithout m loc key → v < 16 →
      idOf (put m key page) loc v ≠ idOf m loc v →
        ((∀ w, w < 16 → w ≠ v → Recency.Newer (ways h) w v) ∨ v ∉ (ways h).take 255) ∧
        ∀ acc, h.head? = some acc → v ≠ acc.1 ∧ idOf m loc v ≠ acc.2 := by
  intro start m h
  have hinv : LruInv loc h m := LruInv.run m₀ identity hin ops
  have hok : SetCache.Ok locate (· = emptyKey) ops (table m) :=
    SetCache.run_ok (table_initMetadata m₀ identity) (run_simulates start ops)
  clear_value m h
  refine ⟨fun w w' hw hw' hlt => hinv.newer hw hw' hlt, ?_⟩
  rintro key page v hk rfl hfull hv hchanged
  -- only the way put into changes
  obtain rfl : putWay m key = v := by
    by_contra hne
    exact hchanged (idOf_put hk ⟨hin.page, hin.set, hv⟩ fun heq => hne heq.2.symm)
  exact ⟨hinv.oldest hfull, fun acc hacc => ⟨hinv.ne_last hfull hacc, hinv.ne_last_key hok hfull hacc⟩⟩

/-- The 17th page of the first set. -/
theorem evicts_oldest_full :
    let keyAt := fun i => UInt64.ofNat (i * 8192)
    let ops : List (SetCache.Op UInt64 Page) := ((List.range 16).map keyAt).map fun k => .put k Page.zero
    let m := run (initMetadata (fun _ => 0) []) ops
    let h := accesses (initMetadata (fun _ => 0) []) (0, 0) ops
    (∀ w, w < 16 → w ≠ putWay m (keyAt 16) → Recency.Newer (ways h) w (putWay m (keyAt 16))) ∨
      putWay m (keyAt 16) ∉ (ways h).take 255 := by
  intro keyAt ops m h
  have hin : InTable (0, 0) 0 := ⟨by norm_num, by norm_num, by norm_num⟩
  have hkeys : ∀ i, i < 17 → keyAt i ≠ emptyKey ∧ locate (keyAt i) = (0, 0) := by decide
  -- sixteen puts fill the set, way by way
  have hids : ∀ w, w < 16 → idOf m (0, 0) w = keyAt w := by
    intro w hw
    have hown : ∀ k ∈ (List.range 16).map keyAt, k ≠ emptyKey ∧ locate k = (0, 0) := by
      intro k hk
      obtain ⟨i, hi, rfl⟩ := List.mem_map.1 hk
      exact hkeys i (Nat.lt_succ_of_lt (List.mem_range.1 hi))
    have hfill : idOf m (0, 0) w = ((List.range 16).map keyAt).getD w emptyKey :=
      idOf_fill hin (initMetadata_empty (fun _ => 0) [] hin) (by decide) (by decide) hown hw
    refine hfill.trans ?_
    rw [List.getD_eq_getElem _ _ (by rw [List.length_map, List.length_range]; exact hw), List.getElem_map,
      List.getElem_range]
  have hother : ∀ w, w < 16 → keyAt w ≠ keyAt 16 := by decide
  have hlast := hkeys 16 (by norm_num)
  have hfull : FullWithout m (0, 0) (keyAt 16) := by
    intro w hw
    rw [hids w hw]
    exact ⟨(hkeys w (by omega)).1, hother w hw⟩
  have hway : putWay m (keyAt 16) < 16 := (put_inTable m (keyAt 16)).way
  have hchanged : idOf (put m (keyAt 16) Page.zero) (0, 0) (putWay m (keyAt 16)) ≠ idOf m (0, 0) (putWay m (keyAt 16)) := by
    rw [hids _ hway, ← hlast.2, idOf_put_self hlast.1]
    exact (hother _ hway).symm
  exact ((evicts_oldest (fun _ => 0) [] ops hin).2 (keyAt 16) Page.zero _ hlast.1 hlast.2 hfull hway hchanged).1

end Bxdb.SharedCache
