import Bxdb.Spec.Cache
import Bxdb.Lib.SetCache

/-!
# The shared cache is a partial map

Every address the cache computes lies in its own place: page ids, timestamps and data
pages of different ways are apart (`sep_ids`, `sep_data`). So a put replaces the id and
the page of one way and nothing else (`abs_put`), and the cache, seen as a table of its
ways (`abs`), is a set-associative cache (`step_simulates`).

* `cache_partialMap`: **a hit returns the page of the latest put**, a key stays until its
  set is given another, no key has two slots, and no call touches another set.
-/

namespace Bxdb.SharedCache

open Bytes Memory

/-! ## Addresses -/

/-- A way of the table. -/
structure InTable (loc : ℕ × ℕ) (w : ℕ) : Prop where
  page : loc.1 < 512
  set : loc.2 < 16
  way : w < 16

theorem locate_lt (key : UInt64) : (locate key).1 < 512 ∧ (locate key).2 < 16 := by
  have h1 := Nat.and_le_right (n := ((key * fibMul) >>> 4).toNat) (m := 511)
  have h2 := Nat.and_le_right (n := (key * fibMul).toNat) (m := 15)
  constructor
  · show (((key * fibMul) >>> 4) &&& 511).toNat < 512
    rw [UInt64.toNat_and]
    exact Nat.lt_succ_of_le h1
  · show ((key * fibMul) &&& 15).toNat < 16
    rw [UInt64.toNat_and]
    exact Nat.lt_succ_of_le h2

variable {loc loc' : ℕ × ℕ} {w w' : ℕ}

/-- Different sets lie in different places. -/
theorem sets_apart (h : InTable loc w) (h' : InTable loc' w') (hne : loc ≠ loc') :
    setAt loc + setStride ≤ setAt loc' ∨ setAt loc' + setStride ≤ setAt loc := by
  obtain ⟨a, b⟩ := loc
  obtain ⟨c, d⟩ := loc'
  obtain ⟨h1, h2, h3⟩ := h
  obtain ⟨h1', h2', h3'⟩ := h'
  rw [Ne, Prod.mk.injEq] at hne
  simp only at *
  simp only [setAt, setPtr, cachePageSize, setsOffset, setStride]
  -- on another page, or in another place of the same page
  rcases Nat.lt_trichotomy a c with hac | hac | hac
  · omega
  · omega
  · omega

/-- Page ids of different ways. -/
theorem sep_ids (h : InTable loc w) (h' : InTable loc' w') (hne : ¬ (loc = loc' ∧ w = w')) :
    NoOverlap (pageIdPtr (setAt loc) w) 8 (pageIdPtr (setAt loc') w') 8 := by
  have hw := h.way
  have hw' := h'.way
  simp only [NoOverlap, pageIdPtr]
  by_cases hloc : loc = loc'
  · subst hloc
    have hww : w ≠ w' := fun heq => hne ⟨rfl, heq⟩
    omega
  · have := sets_apart h h' hloc
    simp only [setStride] at this
    omega

/-- Page ids and timestamps. -/
theorem sep_id_timestamps (h : InTable loc w) (h' : InTable loc' w') :
    NoOverlap (pageIdPtr (setAt loc) w) 8 (timestampsPtr (setAt loc')) 16 := by
  have hw := h.way
  simp only [NoOverlap, pageIdPtr, timestampsPtr, waysPerSet]
  by_cases hloc : loc = loc'
  · subst hloc
    omega
  · have := sets_apart h h' hloc
    simp only [setStride] at this
    omega

/-- Timestamps of different sets. -/
theorem sep_timestamps (h : InTable loc w) (h' : InTable loc' w') (hne : loc ≠ loc') :
    NoOverlap (timestampsPtr (setAt loc)) 16 (timestampsPtr (setAt loc')) 16 := by
  have := sets_apart h h' hne
  simp only [setStride] at this
  simp only [NoOverlap, timestampsPtr, waysPerSet]
  omega

/-- No set lies in the place of the identity. -/
theorem set_off_identity (h : InTable loc w) : setAt loc + setStride ≤ idOffset ∨ cachePageSize ≤ setAt loc := by
  obtain ⟨a, b⟩ := loc
  obtain ⟨h1, h2, h3⟩ := h
  simp only at *
  simp only [setAt, setPtr, idOffset, cachePageSize, setsOffset, setStride, setsPerMeta]
  rcases Nat.eq_zero_or_pos a with hfirst | hlater
  · omega
  · omega

/-- The sets' part of the metadata lies below the data pages. -/
theorem set_below_data (h : InTable loc w) (slot : ℕ) : setAt loc + setStride ≤ dataPtr slot := by
  obtain ⟨a, b⟩ := loc
  obtain ⟨h1, h2, h3⟩ := h
  simp only at *
  simp only [dataPtr, metadataBytes, metadataPages, setAt, setPtr, cachePageSize, setsOffset, setStride]
  omega

/-- **The slot of a way is its own.** -/
theorem slotOf_inj (h : InTable loc w) (h' : InTable loc' w') (heq : slotOf loc w = slotOf loc' w') :
    loc = loc' ∧ w = w' := by
  obtain ⟨a, b⟩ := loc
  obtain ⟨c, d⟩ := loc'
  obtain ⟨h1, h2, h3⟩ := h
  obtain ⟨h1', h2', h3'⟩ := h'
  simp only [slotOf, setsPerMeta, waysPerSet, Prod.mk.injEq] at *
  omega

/-- Data pages of different slots. -/
theorem sep_data {g g' : ℕ} (hne : g ≠ g') : NoOverlap (dataPtr g) cachePageSize (dataPtr g') cachePageSize := by
  simp only [NoOverlap, dataPtr, cachePageSize]
  omega

/-- The way of a global slot. -/
def wayOfSlot (globalSlot : ℕ) : ℕ := globalSlot % (setsPerMeta * waysPerSet) % waysPerSet

theorem slot_inTable {g : ℕ} (h : g < totalSlots) : InTable (setOfSlot g) (wayOfSlot g) := by
  simp only [totalSlots, metadataPages, setsPerMeta, waysPerSet] at h
  constructor <;> simp only [setOfSlot, wayOfSlot, setsPerMeta, waysPerSet] <;> omega

theorem slotOf_setOfSlot (g : ℕ) : slotOf (setOfSlot g) (wayOfSlot g) = g := by
  simp only [slotOf, setOfSlot, wayOfSlot, setsPerMeta, waysPerSet]
  omega

theorem slotOf_lt (h : InTable loc w) : slotOf loc w < totalSlots := by
  obtain ⟨h1, h2, h3⟩ := h
  simp only [slotOf, totalSlots, metadataPages, setsPerMeta, waysPerSet]
  omega

theorem setOfSlot_slotOf (h : InTable loc w) : setOfSlot (slotOf loc w) = loc ∧ wayOfSlot (slotOf loc w) = w :=
  slotOf_inj (slot_inTable (slotOf_lt h)) h (slotOf_setOfSlot _)

/-! ## One set -/

/-- The page id of a way. -/
def idOf (m : Mem) (loc : ℕ × ℕ) (w : ℕ) : UInt64 := load64 m (pageIdPtr (setAt loc) w)

/-- The page of a way. -/
def pageOf (m : Mem) (loc : ℕ × ℕ) (w : ℕ) : Page := pageFrom m (dataPtr (slotOf loc w))

variable {m m' : Mem} {key : UInt64}

theorem pageFrom_eq {a b : ℕ} (h : load m a cachePageSize = load m' b cachePageSize) : pageFrom m a = pageFrom m' b := by
  unfold pageFrom
  rw [Page.mk.injEq]
  exact h

theorem pageFrom_eq_page {a : ℕ} {page : Page} : pageFrom m a = page ↔ load m a cachePageSize = page.bytes := by
  obtain ⟨bs, hsize⟩ := page
  unfold pageFrom
  rw [Page.mk.injEq]

theorem getElem_pageIds {w : ℕ} (h : w < (pageIds m (setAt loc)).length) : (pageIds m (setAt loc))[w] = idOf m loc w :=
  getElem_loadWords h

theorem findWay_some (h : findWay (pageIds m (setAt loc)) key = some w) : w < 16 ∧ idOf m loc w = key := by
  unfold findWay at h
  obtain ⟨hw, heq, -⟩ := List.findIdx?_eq_some_iff_getElem.1 h
  rw [getElem_pageIds, beq_iff_eq] at heq
  have hlen : (pageIds m (setAt loc)).length = 16 := length_loadWords _ _ _
  exact ⟨by omega, heq⟩

theorem findWay_none (h : findWay (pageIds m (setAt loc)) key = none) (hw : w < 16) : idOf m loc w ≠ key := by
  unfold findWay at h
  rw [List.findIdx?_eq_none_iff] at h
  have hlen : w < (pageIds m (setAt loc)).length := by
    have : (pageIds m (setAt loc)).length = 16 := length_loadWords _ _ _
    omega
  have hmem := h _ (List.getElem_mem hlen)
  rw [getElem_pageIds] at hmem
  simpa using hmem

theorem victim_lt (ts : Bytes) : victim ts < 16 := by
  unfold victim
  -- every way the scan keeps is below 16
  have h : ∀ (l : List ℕ) (best : UInt8 × ℕ), (∀ w ∈ l, w < 16) → best.2 < 16 →
      (l.foldl (fun best w => if ts.getD w 0 < best.1 then (ts.getD w 0, w) else best) best).2 < 16 := by
    intro l
    induction l with
    | nil =>
      intro best _ hbest
      exact hbest
    | cons w l ih =>
      intro best hl hbest
      refine ih _ (fun w' hw' => hl w' (List.mem_cons_of_mem w hw')) ?_
      dsimp only
      split
      · exact hl w List.mem_cons_self
      · exact hbest
  exact h _ _ (fun w hw => List.mem_range.1 hw) (by norm_num)

theorem chooseWay_lt : chooseWay m (setAt loc) key < 16 := by
  unfold chooseWay
  split
  · rename_i way hway
    rcases Option.or_eq_some_iff.1 hway with h | ⟨-, h⟩
    · exact (findWay_some h).1
    · exact (findWay_some h).1
  · exact victim_lt _

/-- The chosen way holds the key, or no way does. -/
theorem chooseWay_holds : idOf m loc (chooseWay m (setAt loc) key) = key ∨ ∀ w, w < 16 → idOf m loc w ≠ key := by
  cases h : findWay (pageIds m (setAt loc)) key with
  | none => exact .inr fun w hw => findWay_none h hw
  | some way =>
    have hway : chooseWay m (setAt loc) key = way := by
      unfold chooseWay
      rw [h, Option.some_or]
    rw [hway]
    exact .inl (findWay_some h).2

/-! ## What a call changes -/

theorem load_updateLru {a n : ℕ} {set : ℕ} (hw : w < 16) (h : NoOverlap a n (timestampsPtr set) 16) :
    load (updateLru m set w) a n = load m a n := by
  have hlen : ((timestamps m set).map tick).length = 16 := by
    rw [List.length_map]
    exact length_load _ _ _
  unfold updateLru NoOverlap at *
  rw [load_store_sep, load_store_sep]
  · unfold NoOverlap
    omega
  · unfold NoOverlap
    rw [List.length_singleton]
    omega

/-- The way a put writes. -/
def putWay (m : Mem) (key : UInt64) : ℕ := chooseWay m (setAt (locate key)) key

theorem put_inTable (m : Mem) (key : UInt64) : InTable (locate key) (putWay m key) :=
  ⟨(locate_lt key).1, (locate_lt key).2, chooseWay_lt⟩

theorem put_of_ne (hk : key ≠ emptyKey) (page : Page) :
    put m key page = updateLru
      (store64 (store m (dataPtr (slotOf (locate key) (putWay m key))) page.bytes)
        (pageIdPtr (setAt (locate key)) (putWay m key)) key)
      (setAt (locate key)) (putWay m key) := by
  unfold put
  rw [if_neg hk]
  rfl

/-- **A put changes one page id, one data page and the timestamps of the set.** -/
theorem load_put {a n : ℕ} {page : Page} (hk : key ≠ emptyKey)
    (hd : NoOverlap a n (dataPtr (slotOf (locate key) (putWay m key))) cachePageSize)
    (hi : NoOverlap a n (pageIdPtr (setAt (locate key)) (putWay m key)) 8)
    (ht : NoOverlap a n (timestampsPtr (setAt (locate key))) 16) : load (put m key page) a n = load m a n := by
  rw [put_of_ne hk, load_updateLru (put_inTable m key).way ht, load_store64_sep hi,
    load_store_sep (by rw [page.size]; exact hd)]

theorem noOverlap_comm {a n b k : ℕ} (h : NoOverlap a n b k) : NoOverlap b k a n := h.symm

/-- Ids and timestamps lie below every data page. -/
theorem sep_id_data (h : InTable loc w) (g : ℕ) :
    NoOverlap (pageIdPtr (setAt loc) w) 8 (dataPtr g) cachePageSize := by
  have hb := set_below_data h g
  have hw := h.way
  simp only [setStride] at hb
  simp only [NoOverlap, pageIdPtr]
  omega

theorem sep_timestamps_data (h : InTable loc w) (g : ℕ) :
    NoOverlap (timestampsPtr (setAt loc)) 16 (dataPtr g) cachePageSize := by
  have hb := set_below_data h g
  simp only [setStride] at hb
  simp only [NoOverlap, timestampsPtr, waysPerSet]
  omega

/-- The page id of another way. -/
theorem idOf_put {page : Page} (hk : key ≠ emptyKey) (h : InTable loc w)
    (hne : ¬ (loc = locate key ∧ w = putWay m key)) : idOf (put m key page) loc w = idOf m loc w := by
  have hp := put_inTable m key
  exact load64_congr (load_put hk (sep_id_data h _) (sep_ids h hp hne) (sep_id_timestamps h hp))

/-- The page of another way. -/
theorem pageOf_put {page : Page} (hk : key ≠ emptyKey) (h : InTable loc w)
    (hne : ¬ (loc = locate key ∧ w = putWay m key)) : pageOf (put m key page) loc w = pageOf m loc w := by
  have hp := put_inTable m key
  have hslot : slotOf loc w ≠ slotOf (locate key) (putWay m key) := fun heq => hne (slotOf_inj h hp heq)
  exact pageFrom_eq (load_put hk (sep_data hslot) (noOverlap_comm (sep_id_data hp _))
    (noOverlap_comm (sep_timestamps_data hp _)))

/-- The way that is written. -/
theorem idOf_put_self {page : Page} (hk : key ≠ emptyKey) : idOf (put m key page) (locate key) (putWay m key) = key := by
  have hp := put_inTable m key
  unfold idOf
  rw [put_of_ne hk, load64_congr (load_updateLru hp.way (sep_id_timestamps hp hp)), load64_store64_same]

theorem pageOf_put_self {page : Page} (hk : key ≠ emptyKey) :
    pageOf (put m key page) (locate key) (putWay m key) = page := by
  have hp := put_inTable m key
  refine pageFrom_eq_page.2 ?_
  rw [put_of_ne hk, load_updateLru hp.way (noOverlap_comm (sep_timestamps_data hp _)),
    load_store64_sep (noOverlap_comm (sep_id_data hp _))]
  have hload := load_store_same m (dataPtr (slotOf (locate key) (putWay m key))) page.bytes
  rw [page.size] at hload
  exact hload

/-- A hit marks its way, and changes no id and no page. -/
theorem get_hit (h : (get m key).2.isSome) : key ≠ emptyKey ∧ ∃ w, w < 16 ∧ idOf m (locate key) w = key ∧
    get m key = (updateLru m (setAt (locate key)) w, some (pageOf m (locate key) w)) := by
  unfold get at h ⊢
  by_cases hk : key = emptyKey
  · rw [if_pos hk] at h
    cases h
  · rw [if_neg hk] at h ⊢
    dsimp only at h ⊢
    split at h
    · rename_i w hw
      obtain ⟨hlt, hid⟩ := findWay_some hw
      refine ⟨hk, w, hlt, hid, ?_⟩
      rfl
    · cases h

theorem get_miss (h : (get m key).2 = none) : (get m key).1 = m ∧
    (key ≠ emptyKey → ∀ w, w < 16 → idOf m (locate key) w ≠ key) := by
  unfold get at h ⊢
  by_cases hk : key = emptyKey
  · rw [if_pos hk]
    exact ⟨rfl, fun hne => absurd hk hne⟩
  · rw [if_neg hk] at h ⊢
    dsimp only at h ⊢
    split at h
    · cases h
    · rename_i hw
      exact ⟨rfl, fun _ w hlt => findWay_none hw hlt⟩

theorem load_get {a n : ℕ} (ht : NoOverlap a n (timestampsPtr (setAt (locate key))) 16) :
    load (get m key).1 a n = load m a n := by
  cases h : (get m key).2 with
  | none => rw [(get_miss h).1]
  | some page =>
    have hsome : (get m key).2.isSome := by rw [h, Option.isSome_some]
    obtain ⟨-, w, hw, -, heq⟩ := get_hit hsome
    rw [heq]
    exact load_updateLru hw ht

/-! ## The table of the ways -/

instance (loc : ℕ × ℕ) (w : ℕ) : Decidable (InTable loc w) :=
  decidable_of_iff (loc.1 < 512 ∧ loc.2 < 16 ∧ w < 16) ⟨fun ⟨h1, h2, h3⟩ => ⟨h1, h2, h3⟩, fun ⟨h1, h2, h3⟩ => ⟨h1, h2, h3⟩⟩

/-- What each way holds. -/
def table (m : Mem) : SetCache.Table UInt64 Page (ℕ × ℕ) ℕ := fun loc w =>
  if InTable loc w ∧ idOf m loc w ≠ emptyKey then some (idOf m loc w, pageOf m loc w) else none

theorem table_eq_some {page : Page} :
    table m loc w = some (key, page) ↔ InTable loc w ∧ idOf m loc w = key ∧ key ≠ emptyKey ∧ pageOf m loc w = page := by
  unfold table
  constructor
  · intro h
    split at h
    · rename_i hw
      obtain ⟨rfl, rfl⟩ := Prod.mk.inj (Option.some.inj h)
      exact ⟨hw.1, rfl, hw.2, rfl⟩
    · cases h
  · rintro ⟨hw, rfl, hne, rfl⟩
    exact if_pos ⟨hw, hne⟩

/-- **A put writes one way of the table.** -/
theorem table_put {page : Page} (hk : key ≠ emptyKey) :
    table (put m key page) = SetCache.write (table m) (locate key) (putWay m key) key page := by
  funext loc w
  by_cases hself : loc = locate key ∧ w = putWay m key
  · rw [hself.1, hself.2, SetCache.write_self]
    exact table_eq_some.2 ⟨put_inTable m key, idOf_put_self hk, hk, pageOf_put_self hk⟩
  · rw [SetCache.write_other hself]
    unfold table
    by_cases hw : InTable loc w
    · rw [idOf_put hk hw hself, pageOf_put hk hw hself]
    · rw [if_neg fun h => hw h.1, if_neg fun h => hw h.1]

/-- A get changes no way. -/
theorem table_get (m : Mem) (key : UInt64) : table (get m key).1 = table m := by
  funext loc w
  unfold table
  by_cases hw : InTable loc w
  · have hset : InTable (locate key) 0 := ⟨(locate_lt key).1, (locate_lt key).2, by norm_num⟩
    have hid : idOf (get m key).1 loc w = idOf m loc w := load64_congr (load_get (sep_id_timestamps hw hset))
    have hpage : pageOf (get m key).1 loc w = pageOf m loc w :=
      pageFrom_eq (load_get (noOverlap_comm (sep_timestamps_data hset _)))
    rw [hid, hpage]
  · rw [if_neg fun h => hw h.1, if_neg fun h => hw h.1]

theorem putWay_admits (hk : key ≠ emptyKey) : SetCache.Admits (table m (locate key)) key (putWay m key) := by
  have hchoice : idOf m (locate key) (putWay m key) = key ∨ ∀ w, w < 16 → idOf m (locate key) w ≠ key := chooseWay_holds
  rcases hchoice with h | h
  · exact .inl ⟨_, table_eq_some.2 ⟨put_inTable m key, h, hk, rfl⟩⟩
  · refine .inr fun w page hw => ?_
    obtain ⟨hin, hid, -⟩ := table_eq_some.1 hw
    exact h w hin.way hid

/-- A hit returns what a way of the key's set holds. -/
theorem table_of_hit {page : Page} (h : (get m key).2 = some page) : ∃ w, table m (locate key) w = some (key, page) := by
  have hsome : (get m key).2.isSome := by rw [h, Option.isSome_some]
  obtain ⟨hk, w, hw, hid, heq⟩ := get_hit hsome
  rw [heq] at h
  have hin : InTable (locate key) w := ⟨(locate_lt key).1, (locate_lt key).2, hw⟩
  exact ⟨w, table_eq_some.2 ⟨hin, hid, hk, Option.some.inj h⟩⟩

/-- A held key is hit. -/
theorem hit_of_holds (h : SetCache.Holds locate (table m) key) : (get m key).2.isSome := by
  obtain ⟨w, page, hw⟩ := h
  obtain ⟨hin, hid, hk, -⟩ := table_eq_some.1 hw
  by_contra hnone
  have hmiss : (get m key).2 = none := by simpa using hnone
  exact (get_miss hmiss).2 hk w hin.way hid

theorem slotKey_eq (m : Mem) (g : ℕ) : slotKey m g =
    if idOf m (setOfSlot g) (wayOfSlot g) = emptyKey then none else some (idOf m (setOfSlot g) (wayOfSlot g)) := rfl

/-- A slot as a way of the table. -/
theorem table_slot {g : ℕ} (h : g < totalSlots) :
    table m (setOfSlot g) (wayOfSlot g) = (slotKey m g).map fun k => (k, readSlotPage m g) := by
  have hpage : pageOf m (setOfSlot g) (wayOfSlot g) = readSlotPage m g := by
    unfold pageOf readSlotPage
    rw [slotOf_setOfSlot]
  unfold table
  rw [slotKey_eq, hpage]
  by_cases hid : idOf m (setOfSlot g) (wayOfSlot g) = emptyKey
  · rw [if_pos hid, if_neg fun hc => hc.2 hid, Option.map_none]
  · rw [if_neg hid, if_pos ⟨slot_inTable h, hid⟩, Option.map_some]

theorem table_of_slotKey {g : ℕ} (h : g < totalSlots) (hk : slotKey m g = some key) :
    table m (setOfSlot g) (wayOfSlot g) = some (key, readSlotPage m g) := by
  rw [table_slot h, hk, Option.map_some]

/-! ## Calls one after the other -/

/-- One call. -/
def step (m : Mem) : SetCache.Op UInt64 Page → Mem
  | .get key => (get m key).1
  | .put key page => put m key page

def run (m : Mem) (ops : List (SetCache.Op UInt64 Page)) : Mem := ops.foldl step m

/-- **A call is a step of the set-associative cache.** -/
theorem step_simulates (m : Mem) (op : SetCache.Op UInt64 Page) :
    SetCache.Step locate (· = emptyKey) (table m) op (table (step m op)) := by
  cases op with
  | get key =>
    show SetCache.Step _ _ _ _ (table (get m key).1)
    rw [table_get]
    exact .get
  | put key page =>
    show SetCache.Step _ _ _ _ (table (put m key page))
    by_cases hk : key = emptyKey
    · have hput : put m key page = m := if_pos hk
      rw [hput]
      exact .refuse hk
    · rw [table_put hk]
      exact .put hk (putWay_admits hk)

/-- A key is hit after its put. -/
theorem hit_after_put {page : Page} (hk : key ≠ emptyKey) : (get (put m key page) key).2.isSome :=
  hit_of_holds ((step_simulates m (.put key page)).holds hk)

theorem run_append (m : Mem) (ops ops' : List (SetCache.Op UInt64 Page)) : run m (ops ++ ops') = run (run m ops) ops' :=
  List.foldl_append

theorem run_simulates (m : Mem) (ops : List (SetCache.Op UInt64 Page)) :
    SetCache.Run locate (· = emptyKey) (table m) ops (table (run m ops)) := by
  induction ops using List.reverseRecOn with
  | nil => exact .nil
  | append_singleton ops op ih =>
    rw [run_append]
    exact .snoc ih (step_simulates (run m ops) op)

/-! ## The initial cache -/

/-- Every way of the set is empty. -/
def SetEmpty (loc : ℕ × ℕ) (m : Mem) : Prop := ∀ w, w < 16 → idOf m loc w = emptyKey

/-- Only the set's own part of the metadata is written. -/
theorem load_initSet {a n set : ℕ} (h : NoOverlap a n set setStride) : load (initSet m set) a n = load m a n := by
  simp only [NoOverlap, setStride] at h
  have hids : ∀ l : List ℕ, (∀ w ∈ l, w < 16) →
      load (l.foldl (fun m w => store64 m (pageIdPtr set w) emptyKey) m) a n = load m a n := by
    intro l hl
    induction l using List.reverseRecOn with
    | nil => rfl
    | append_singleton l w ih =>
      have hw := hl w (List.mem_append_right l List.mem_cons_self)
      rw [List.foldl_append, List.foldl_cons, List.foldl_nil, load_store64_sep,
        ih fun w hw => hl w (List.mem_append_left _ hw)]
      simp only [NoOverlap, pageIdPtr]
      omega
  unfold initSet
  rw [load_store_sep]
  · exact hids (List.range waysPerSet) fun w hw => List.mem_range.1 hw
  · rw [List.length_replicate]
    simp only [NoOverlap, timestampsPtr, waysPerSet]
    omega

theorem initSet_self (h : InTable loc 0) : SetEmpty loc (initSet m (setAt loc)) := by
  intro w hw
  have hin : ∀ {v}, v < 16 → InTable loc v := fun hv => ⟨h.page, h.set, hv⟩
  have hid : idOf ((List.range waysPerSet).foldl (fun m w => store64 m (pageIdPtr (setAt loc) w) emptyKey) m) loc w =
      emptyKey := by
    refine foldl_establishes (P := fun w m => idOf m loc w = emptyKey) ?_ ?_ m (List.mem_range.2 hw)
    · intro m i _
      exact load64_store64_same _ _ _
    · intro m i j hi hj hempty
      by_cases hij : i = j
      · subst hij
        exact load64_store64_same _ _ _
      · have hsep := sep_ids (hin (List.mem_range.1 hi)) (hin (List.mem_range.1 hj)) fun heq => hij heq.2
        exact (load64_congr (load_store64_sep hsep)).trans hempty
  refine Eq.trans (load64_congr (load_store_sep ?_)) hid
  rw [List.length_replicate]
  exact sep_id_timestamps (hin hw) (hin hw)

theorem initSet_keeps (h : InTable loc 0) (h' : InTable loc' 0) (he : SetEmpty loc m) :
    SetEmpty loc (initSet m (setAt loc')) := by
  by_cases heq : loc = loc'
  · subst heq
    exact initSet_self h
  · intro w hw
    refine Eq.trans (load64_congr (load_initSet ?_)) (he w hw)
    have hap := sets_apart h h' heq
    simp only [NoOverlap, pageIdPtr, setStride] at *
    omega

/-- The identity lies after the sets of its page. -/
theorem load_writeIdentity {a n : ℕ} (identity : Bytes) (h : a + n ≤ idOffset ∨ cachePageSize ≤ a) :
    load (writeIdentity m identity) a n = load m a n := by
  have hoff : idOffset = 3136 := rfl
  have hmax : pathMax = 952 := rfl
  rw [hoff, show cachePageSize = 4096 from rfl] at h
  have hlen : (identity.take (min identity.length pathMax)).length ≤ 952 := by
    rw [List.length_take, hmax]
    omega
  have h1 : load (store64 m idOffset cacheMagic) a n = load m a n :=
    load_store64_sep (by unfold NoOverlap; omega)
  have h2 : load (store (store64 m idOffset cacheMagic) (idOffset + 8) (identity.take (min identity.length pathMax))) a n =
      load m a n := by
    rw [load_store_sep, h1]
    unfold NoOverlap
    omega
  unfold writeIdentity
  dsimp only
  split
  · rename_i hlt
    rw [hmax] at hlt
    rw [load_store_sep]
    · exact h2
    · rw [List.length_singleton, hmax, hoff]
      unfold NoOverlap
      omega
  · exact h2

theorem setPtr_eq (idx s : ℕ) : setPtr (idx * cachePageSize) s = setAt (idx, s) := rfl

/-- **What the initialisation makes of a set**: what `initSet` sets up there, and no later
write spoils. -/
theorem initMetadata_establishes {P : Mem → Prop} (h : InTable loc 0) (hself : ∀ m, P (initSet m (setAt loc)))
    (hkeep : ∀ m loc', InTable loc' 0 → P m → P (initSet m (setAt loc'))) {identity : Bytes}
    (hidentity : ∀ m, P m → P (writeIdentity m identity)) (m : Mem) : P (initMetadata m identity) := by
  refine hidentity _ ?_
  have hmem : ∀ {idx s}, idx ∈ List.range metadataPages → s ∈ List.range setsPerMeta → InTable (idx, s) 0 :=
    fun hidx hs => ⟨List.mem_range.1 hidx, List.mem_range.1 hs, by norm_num⟩
  -- over the metadata pages, and in each over its sets
  refine foldl_establishes (P := fun idx m => idx = loc.1 → P m) ?_ ?_ _ (List.mem_range.2 h.page) rfl
  · rintro m idx hidx rfl
    refine foldl_establishes (P := fun s m => s = loc.2 → P m) ?_ ?_ m (List.mem_range.2 h.set) rfl
    · rintro m s _ rfl
      rw [setPtr_eq]
      exact hself m
    · rintro m s s' _ hs' hP heq
      rw [setPtr_eq]
      exact hkeep m _ (hmem hidx hs') (hP heq)
  · intro m idx idx' _ hidx' hP heq
    refine List.foldlRecOn (motive := P) _ _ (hP heq) ?_
    intro m hm s' hs'
    rw [setPtr_eq]
    exact hkeep m _ (hmem hidx' hs') hm

/-- **The initial cache is empty.** -/
theorem initMetadata_empty (m : Mem) (identity : Bytes) (hin : InTable loc 0) : SetEmpty loc (initMetadata m identity) := by
  refine initMetadata_establishes hin (fun _ => initSet_self hin) (fun _ _ hin' => initSet_keeps hin hin')
    (fun m he w hw => ?_) m
  refine Eq.trans (load64_congr (load_writeIdentity identity ?_)) (he w hw)
  have hoff := set_off_identity hin
  rw [show setStride = 192 from rfl] at hoff
  unfold pageIdPtr
  omega

theorem table_initMetadata (m : Mem) (identity : Bytes) (loc : ℕ × ℕ) (w : ℕ) :
    table (initMetadata m identity) loc w = none :=
  if_neg fun hc => hc.2 (initMetadata_empty m identity ⟨hc.1.page, hc.1.set, by norm_num⟩ w hc.1.way)

/-! ## The shared cache is a partial map -/

/-- The call puts a key into this set that no way of it holds. -/
def Inserts (m : Mem) (loc : ℕ × ℕ) : SetCache.Op UInt64 Page → Prop
  | .get _ => False
  | .put key _ => key ≠ emptyKey ∧ locate key = loc ∧ findWay (pageIds m (setAt loc)) key = none

theorem inserts_of_table {op : SetCache.Op UInt64 Page}
    (h : SetCache.Inserts locate (· = emptyKey) (table m) loc op) : Inserts m loc op := by
  cases op with
  | get key => exact h
  | put key page =>
    obtain ⟨hk, rfl, hnot⟩ := h
    refine ⟨hk, rfl, ?_⟩
    by_contra hsome
    obtain ⟨w, hw⟩ := Option.ne_none_iff_exists'.1 hsome
    obtain ⟨hlt, hid⟩ := findWay_some hw
    exact hnot ⟨w, _, table_eq_some.2 ⟨⟨(locate_lt key).1, (locate_lt key).2, hlt⟩, hid, hk, rfl⟩⟩

/-- A key put into its set is hit until another is inserted. -/
theorem hit_until_insert {start : Mem} {page : Page} (hk : key ≠ emptyKey) (pre post : List (SetCache.Op UInt64 Page))
    (hpost : ∀ pre' op post', post = pre' ++ op :: post' →
      ¬ Inserts (run start (pre ++ .put key page :: pre')) (locate key) op) :
    (get (run start (pre ++ .put key page :: post)) key).2.isSome := by
  apply hit_of_holds
  induction post using List.reverseRecOn with
  | nil =>
    rw [run_append]
    exact (step_simulates (run start pre) (.put key page)).holds hk
  | append_singleton post op ih =>
    have hheld := ih fun pre' op' post' heq => hpost pre' op' (post' ++ [op]) (by rw [heq]; simp)
    have hop := hpost post op [] rfl
    rw [← List.cons_append, ← List.append_assoc, run_append]
    exact (step_simulates _ op).keeps hheld fun hins => hop (inserts_of_table hins)

/-- The key of a call. -/
def opKey : SetCache.Op UInt64 Page → UInt64
  | .get key => key
  | .put key _ => key

/-- **A call changes no byte** of another set's ids, timestamps or pages. -/
theorem load_step {op : SetCache.Op UInt64 Page} {a n : ℕ}
    (h : ∀ w, w < 16 → NoOverlap a n (dataPtr (slotOf (locate (opKey op)) w)) cachePageSize ∧
      NoOverlap a n (pageIdPtr (setAt (locate (opKey op))) w) 8)
    (ht : NoOverlap a n (timestampsPtr (setAt (locate (opKey op)))) 16) : load (step m op) a n = load m a n := by
  cases op with
  | get key => exact load_get ht
  | put key page =>
    by_cases hk : key = emptyKey
    · have hput : put m key page = m := if_pos hk
      exact congrArg (fun m => load m a n) hput
    · exact load_put hk (h _ (put_inTable m key).way).1 (h _ (put_inTable m key).way).2 ht

/-- **A call on one set leaves the slots of the others.** -/
theorem step_other (m : Mem) (op : SetCache.Op UInt64 Page) {g : ℕ} (hg : g < totalSlots)
    (hset : setOfSlot g ≠ locate (opKey op)) :
    slotKey (step m op) g = slotKey m g ∧ slotTimestamp (step m op) g = slotTimestamp m g ∧
      readSlotPage (step m op) g = readSlotPage m g := by
  have hin := slot_inTable hg
  have hop : ∀ {w}, w < 16 → InTable (locate (opKey op)) w := fun hw => ⟨(locate_lt _).1, (locate_lt _).2, hw⟩
  have h0 := hop (show 0 < 16 by norm_num)
  have hne : ∀ {w}, ¬ (setOfSlot g = locate (opKey op) ∧ wayOfSlot g = w) := fun heq => hset heq.1
  refine ⟨?_, ?_, ?_⟩
  · have hid : idOf (step m op) (setOfSlot g) (wayOfSlot g) = idOf m (setOfSlot g) (wayOfSlot g) :=
      load64_congr (load_step (fun w hw => ⟨sep_id_data hin _, sep_ids hin (hop hw) hne⟩) (sep_id_timestamps hin h0))
    rw [slotKey_eq, slotKey_eq, hid]
  · have hway : wayOfSlot g < 16 := hin.way
    refine eq_of_load_eq (load_step (fun w hw => ⟨sep_timestamps_data hin _, ?_⟩) (sep_timestamps hin h0 hset)) hway
    exact noOverlap_comm (sep_id_timestamps (hop hw) hin)
  · refine pageFrom_eq (load_step (fun w hw => ⟨sep_data fun heq => ?_, ?_⟩) ?_)
    · rw [← slotOf_setOfSlot g] at heq
      exact hset (slotOf_inj hin (hop hw) heq).1
    · exact noOverlap_comm (sep_id_data (hop hw) _)
    · exact noOverlap_comm (sep_timestamps_data h0 _)

/-- **The shared cache is a partial map**, after any calls on an initialised file: a hit
returns the page of the latest put; a key put is hit until another key is inserted into its
set; no key has two slots, and each is in its own set, in the slot whose page a get of it
returns; no call changes another set; the reserved key is neither stored nor hit. -/
theorem cache_partialMap (m₀ : Mem) (identity : Bytes) (ops : List (SetCache.Op UInt64 Page)) :
    let start := initMetadata m₀ identity
    let m := run start ops
    (∀ key page, (get m key).2 = some page → SetCache.lastPut ops key = some page) ∧
    (∀ pre key page post, ops = pre ++ .put key page :: post → key ≠ emptyKey →
      (∀ pre' op post', post = pre' ++ op :: post' →
        ¬ Inserts (run start (pre ++ .put key page :: pre')) (locate key) op) → (get m key).2.isSome) ∧
    (∀ g g' key, g < totalSlots → g' < totalSlots → slotKey m g = some key → slotKey m g' = some key → g = g') ∧
    (∀ g key, g < totalSlots → slotKey m g = some key → setOfSlot g = locate key ∧
      (get m key).2 = some (readSlotPage m g) ∧ SetCache.lastPut ops key = some (readSlotPage m g)) ∧
    (∀ op g, g < totalSlots → setOfSlot g ≠ locate (opKey op) →
      slotKey (step m op) g = slotKey m g ∧ slotTimestamp (step m op) g = slotTimestamp m g ∧
        readSlotPage (step m op) g = readSlotPage m g) ∧
    (∀ page, put m emptyKey page = m ∧ get m emptyKey = (m, none) ∧ ∀ g, slotKey m g ≠ some emptyKey) := by
  intro start m
  have hok : SetCache.Ok locate (· = emptyKey) ops (table m) :=
    SetCache.run_ok (table_initMetadata m₀ identity) (run_simulates start ops)
  have hslot : ∀ {g g' key}, g < totalSlots → g' < totalSlots → slotKey m g = some key → slotKey m g' = some key →
      setOfSlot g = setOfSlot g' ∧ wayOfSlot g = wayOfSlot g' := by
    intro g g' key hg hg' hk hk'
    have ht := table_of_slotKey hg hk
    have ht' := table_of_slotKey hg' hk'
    have hset : setOfSlot g = setOfSlot g' := (hok.placed ht).symm.trans (hok.placed ht')
    rw [hset] at ht
    exact ⟨hset, hok.once ht ht'⟩
  refine ⟨?_, ?_, ?_, ?_, ?_, ?_⟩
  · intro key page h
    obtain ⟨w, hw⟩ := table_of_hit h
    exact hok.latest hw
  · rintro pre key page post heq hk hpost
    show (get (run start ops) key).2.isSome
    rw [heq]
    exact hit_until_insert hk pre post hpost
  · intro g g' key hg hg' hk hk'
    obtain ⟨hset, hway⟩ := hslot hg hg' hk hk'
    rw [← slotOf_setOfSlot g, ← slotOf_setOfSlot g', hset, hway]
  · intro g key hg hk
    have ht := table_of_slotKey hg hk
    have hset := hok.placed ht
    refine ⟨hset.symm, ?_, hok.latest ht⟩
    rw [← hset] at ht
    obtain ⟨page, hpage⟩ := Option.isSome_iff_exists.1 (hit_of_holds ⟨_, _, ht⟩)
    obtain ⟨w, hw⟩ := table_of_hit hpage
    -- the way that is hit is the only one of the key
    rw [hok.once hw ht, ht] at hw
    rw [hpage, (Prod.mk.inj (Option.some.inj hw)).2]
  · intro op g hg hset
    exact step_other m op hg hset
  · intro page
    refine ⟨if_pos rfl, if_pos rfl, fun g => ?_⟩
    rw [slotKey_eq]
    split
    · nofun
    · rename_i hne
      exact fun h => hne (Option.some.inj h)

end Bxdb.SharedCache
