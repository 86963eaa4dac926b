import Bxdb.Proof.Cache
import Bxdb.Spec.CacheFile
import Mathlib.Data.List.TakeWhile

/-!
# Whose cache it is

The identity stored is the one given, cut to 952 bytes (`Named.write`), and no call on the
cache touches it. It is compared with the whole identity expected.

* `identity_exact`: **the identity check is exact for identities of at most 952 bytes**, and
  for no others.
* `identity_cut`: a longer one.
-/

namespace Bxdb.SharedCache

open Bytes Memory

variable {m : Mem} {stored identity expected : Bytes} {file : Option CacheFile}

/-! ## What is stored -/

/-- The cache is marked with this identity. -/
structure Named (stored : Bytes) (m : Mem) : Prop where
  magic : load64 m idOffset = cacheMagic
  path : storedIdentity m = stored

theorem length_storedIdentity_le (m : Mem) : (storedIdentity m).length ≤ pathMax := by
  have hle := (List.takeWhile_prefix (p := (· ≠ 0)) (l := load m (idOffset + 8) pathMax)).length_le
  rwa [length_load] at hle

/-- What is written behind the magic: the path and a zero byte, or as much of it as fits. -/
def pathBytes (identity : Bytes) : Bytes :=
  if identity.length < pathMax then identity ++ [0] else identity.take pathMax

theorem length_pathBytes_le (identity : Bytes) : (pathBytes identity).length ≤ pathMax := by
  unfold pathBytes
  split
  · rw [List.length_append, List.length_singleton]
    omega
  · rw [List.length_take]
    omega

theorem writeIdentity_eq (m : Mem) (identity : Bytes) :
    writeIdentity m identity = store (store64 m idOffset cacheMagic) (idOffset + 8) (pathBytes identity) := by
  unfold writeIdentity pathBytes
  dsimp only
  by_cases hroom : identity.length < pathMax
  · rw [if_pos hroom, Nat.min_eq_left (Nat.le_of_lt hroom), if_pos hroom, List.take_length, store_snoc]
  · rw [if_neg hroom, Nat.min_eq_right (Nat.le_of_not_lt hroom), if_neg (Nat.lt_irrefl _)]

/-- The path read back, whatever lay there before. -/
theorem takeWhile_pathBytes (hnul : 0 ∉ identity) {rest : Bytes} (hrest : (pathBytes identity).length + rest.length = pathMax) :
    (pathBytes identity ++ rest).takeWhile (· ≠ 0) = identity.take pathMax := by
  have hkept : ∀ b ∈ identity, decide (b ≠ 0) = true := fun b hb => decide_eq_true fun heq => hnul (heq ▸ hb)
  unfold pathBytes at *
  by_cases hroom : identity.length < pathMax
  · rw [if_pos hroom, List.append_assoc, List.takeWhile_append_of_pos hkept, List.singleton_append,
      List.takeWhile_cons_of_neg (by simp), List.append_nil, List.take_of_length_le (Nat.le_of_lt hroom)]
  · -- the region is full
    rw [if_neg hroom, List.length_take] at hrest
    obtain rfl : rest = [] := List.length_eq_zero_iff.1 (by omega)
    rw [if_neg hroom, List.append_nil]
    exact List.takeWhile_eq_self_iff.2 fun b hb => hkept b (List.mem_of_mem_take hb)

/-- **What is written** is the path, cut to its region. -/
theorem Named.write (m : Mem) (hnul : 0 ∉ identity) : Named (identity.take pathMax) (writeIdentity m identity) := by
  have hle := length_pathBytes_le identity
  rw [writeIdentity_eq]
  constructor
  · rw [load64_congr (load_store_sep (Or.inl (le_refl _))), load64_store64_same]
  · have hload := load_store_longer (store64 m idOffset cacheMagic) (idOffset + 8) (pathBytes identity)
      (pathMax - (pathBytes identity).length)
    rw [Nat.add_sub_cancel' hle] at hload
    unfold storedIdentity
    rw [hload]
    exact takeWhile_pathBytes hnul (by rw [length_load]; omega)

/-! ## What is compared -/

theorem Named.verify (h : Named stored m) (expected : Bytes) :
    verifyIdentity m expected = if stored = expected then .ok () else .error (.identityMismatch stored expected) := by
  unfold verifyIdentity
  rw [if_neg fun hne => hne h.magic]
  dsimp only
  rw [h.path]
  simp only [ne_eq, ite_not]

theorem named_of_verify (h : verifyIdentity m expected = .ok ()) : Named expected m := by
  unfold verifyIdentity at h
  split at h
  · cases h
  · rename_i hmagic
    dsimp only at h
    split at h
    · cases h
    · rename_i hpath
      exact ⟨not_not.1 hmagic, not_not.1 hpath⟩

/-! ## The calls in between -/

/-- The calls a process makes on the mapped file. -/
def after (cache : CacheFile) (ops : List (SetCache.Op UInt64 Page)) : CacheFile :=
  { cache with mem := run cache.mem ops }

theorem mem_after_put (cache : CacheFile) (key : UInt64) (page : Page) :
    (after cache [.put key page]).mem = put cache.mem key page := by
  unfold after run
  rw [List.foldl_cons, List.foldl_nil]
  rfl

/-- No call touches the identity's place. -/
theorem load_step_identity (op : SetCache.Op UInt64 Page) {a n : ℕ} (ha : idOffset ≤ a) (hn : a + n ≤ cachePageSize) :
    load (step m op) a n = load m a n := by
  have hin : ∀ {w}, w < 16 → InTable (locate (opKey op)) w := fun hw => ⟨(locate_lt _).1, (locate_lt _).2, hw⟩
  have hoff := set_off_identity (hin (show 0 < 16 by norm_num))
  rw [show setStride = 192 from rfl] at hoff
  refine load_step (fun w hw => ⟨?_, ?_⟩) ?_
  · unfold NoOverlap dataPtr metadataBytes metadataPages
    omega
  · unfold NoOverlap pageIdPtr
    omega
  · unfold NoOverlap timestampsPtr waysPerSet
    omega

theorem Named.step (h : Named stored m) (op : SetCache.Op UInt64 Page) : Named stored (step m op) := by
  have hend : idOffset + 8 + pathMax = cachePageSize := by decide
  constructor
  · rw [load64_congr (load_step_identity op (le_refl _) (by omega))]
    exact h.magic
  · unfold storedIdentity
    rw [load_step_identity op (Nat.le_add_right _ _) (le_of_eq hend)]
    exact h.path

theorem Named.run (h : Named stored m) (ops : List (SetCache.Op UInt64 Page)) : Named stored (run m ops) := by
  induction ops using List.reverseRecOn with
  | nil => exact h
  | append_singleton ops op ih =>
    rw [run_append]
    exact ih.step op

/-! ## Creation -/

/-- A file of full size that belongs to `stored`. -/
structure Belongs (stored : Bytes) (cache : CacheFile) : Prop where
  size : totalBytes ≤ cache.size
  named : Named stored cache.mem

theorem Belongs.after {cache : CacheFile} (h : Belongs stored cache) (ops : List (SetCache.Op UInt64 Page)) :
    Belongs stored (after cache ops) := ⟨h.size, h.named.run ops⟩

theorem Belongs.open {cache : CacheFile} (h : Belongs stored cache) (expected : Bytes) : «open» (some cache) expected =
    if stored = expected then .ok cache else .error (.identityMismatch stored expected) := by
  unfold SharedCache.«open»
  dsimp only
  rw [if_neg (Nat.not_lt.2 h.size), h.named.verify]
  split
  · rfl
  · rfl

/-- Created again. -/
theorem Belongs.create {cache : CacheFile} (h : Belongs stored cache) (expected : Bytes) : create (some cache) expected =
    if stored = expected then cache else { cache with mem := initMetadata cache.mem expected } := by
  unfold SharedCache.create
  dsimp only
  rw [Option.getD_some, decide_eq_false (Nat.not_lt.2 h.size), if_neg Bool.false_ne_true, h.named.verify]
  by_cases heq : stored = expected
  · rw [if_pos heq, if_pos heq]
    rfl
  · rw [if_neg heq, if_neg heq]
    rfl

/-- **Whatever file was there**, or none, it belongs to the identity as far as it fits. -/
theorem create_belongs (file : Option CacheFile) (hnul : 0 ∉ identity) :
    Belongs (identity.take pathMax) (create file identity) := by
  have hinit : ∀ m, Named (identity.take pathMax) (initMetadata m identity) := fun _ => Named.write _ hnul
  unfold SharedCache.create
  dsimp only
  by_cases hsize : (file.getD .empty).size < totalBytes
  · -- made longer, and initialised
    rw [decide_eq_true hsize, if_pos rfl, Bool.true_or, if_pos rfl]
    exact ⟨le_refl _, hinit _⟩
  · rw [decide_eq_false hsize, if_neg Bool.false_ne_true, Bool.false_or]
    split
    · exact ⟨Nat.le_of_not_lt hsize, hinit _⟩
    · -- it has this identity already, which therefore fits
      rename_i hverified
      refine ⟨Nat.le_of_not_lt hsize, ?_⟩
      have hok : verifyIdentity (file.getD .empty).mem identity = .ok () := by
        cases hv : verifyIdentity (file.getD .empty).mem identity with
        | ok u => rfl
        | error e =>
          rw [hv] at hverified
          exact absurd rfl hverified
      have hnamed := named_of_verify hok
      have hfits : identity.length ≤ pathMax := by
        rw [← hnamed.path]
        exact length_storedIdentity_le _
      rw [List.take_of_length_le hfits]
      exact hnamed

/-! ## Whose cache it is -/

/-- No slot holds a page. -/
def Empty (cache : CacheFile) : Prop := ∀ g, g < totalSlots → slotKey cache.mem g = none

/-- Every slot holds what it held. -/
def Kept (cache cache' : CacheFile) : Prop := ∀ g, g < totalSlots →
  slotKey cache'.mem g = slotKey cache.mem g ∧ readSlotPage cache'.mem g = readSlotPage cache.mem g

/-- **The identity check is exact** for the cache created with `id1`, after any calls on it. -/
structure IdentityExact (file : Option CacheFile) (id1 id2 : Bytes) : Prop where
  opens : ∀ ops, (∃ c, «open» (some (after (create file id1) ops)) id2 = .ok c) ↔ id1 = id2
  path : ∀ ops c, «open» (some (after (create file id1) ops)) id2 = .ok c → identityPath c = id1
  keeps : ∀ ops, Kept (after (create file id1) ops) (create (some (after (create file id1) ops)) id1)
  empties : id2 ≠ id1 → ∀ ops, Empty (create (some (after (create file id1) ops)) id2)

theorem empty_initMetadata (cache : CacheFile) (identity : Bytes) :
    Empty { cache with mem := initMetadata cache.mem identity } := by
  intro g hg
  have hslot := table_slot (m := initMetadata cache.mem identity) hg
  rw [table_initMetadata] at hslot
  exact Option.map_eq_none_iff.1 hslot.symm

theorem exists_slot_put {key : UInt64} (m : Mem) (hk : key ≠ emptyKey) (page : Page) :
    ∃ g, g < totalSlots ∧ slotKey (put m key page) g = some key := by
  have hin := put_inTable m key
  obtain ⟨hset, hway⟩ := setOfSlot_slotOf hin
  refine ⟨_, slotOf_lt hin, ?_⟩
  rw [slotKey_eq, hset, hway, idOf_put_self hk, if_neg hk]

theorem take_ne_of_long (hlong : pathMax < identity.length) : identity.take pathMax ≠ identity := by
  intro heq
  have hlen := congrArg List.length heq
  rw [List.length_take] at hlen
  omega

/-- A longer identity does not find its own pages again. -/
theorem not_keeps_of_long (file : Option CacheFile) (hnul : 0 ∉ identity) (hlong : pathMax < identity.length) :
    ¬ ∀ ops, Kept (after (create file identity) ops) (create (some (after (create file identity) ops)) identity) := by
  intro hkept
  -- a page is put, and the cache created once more
  have hk : (0 : UInt64) ≠ emptyKey := by decide
  obtain ⟨g, hg, hheld⟩ := exists_slot_put (create file identity).mem hk Page.zero
  have hagain := (hkept [.put 0 Page.zero] g hg).1
  rw [((create_belongs file hnul).after _).create, if_neg (take_ne_of_long hlong),
    empty_initMetadata _ _ g hg] at hagain
  rw [mem_after_put, hheld] at hagain
  cases hagain

/-- **The identity check is exact** just for the identities that fit into their region. -/
theorem identity_exact (file : Option CacheFile) (id1 id2 : Bytes) (hnul : 0 ∉ id1) :
    IdentityExact file id1 id2 ↔ id1.length ≤ pathMax := by
  constructor
  · intro h
    by_contra hlong
    exact not_keeps_of_long file hnul (by omega) h.keeps
  · intro hfits
    have hcreated := create_belongs file hnul
    rw [List.take_of_length_le hfits] at hcreated
    have hbelongs := fun ops => hcreated.after ops
    refine ⟨fun ops => ?_, fun ops c h => ?_, fun ops => ?_, fun hne ops => ?_⟩
    · rw [(hbelongs ops).open]
      constructor
      · rintro ⟨c, h⟩
        by_contra hne
        rw [if_neg hne] at h
        cases h
      · intro heq
        exact ⟨_, if_pos heq⟩
    · rw [(hbelongs ops).open] at h
      split at h
      · cases h
        exact (hbelongs ops).named.path
      · cases h
    · rw [(hbelongs ops).create, if_pos rfl]
      exact fun g _ => ⟨rfl, rfl⟩
    · rw [(hbelongs ops).create, if_neg (Ne.symm hne)]
      exact empty_initMetadata _ _

/-- Two short paths. -/
theorem identity_exact_short : IdentityExact none [47, 100, 98] [47, 100] :=
  (identity_exact none [47, 100, 98] [47, 100] (by decide)).2 (by decide)

/-- A path of 953 bytes, `/a/a/…/ab`. -/
def longPath : Bytes := (List.replicate 476 [47, 97]).flatten ++ [98]

/-- **A longer path**: the cache just created does not open with it, but with the path cut. -/
theorem identity_cut :
    let cache := create none longPath
    ¬ IdentityExact none longPath longPath ∧
      «open» (some cache) longPath = .error (.identityMismatch (longPath.take pathMax) longPath) ∧
      «open» (some cache) (longPath.take pathMax) = .ok cache := by
  intro cache
  have hlen : longPath.length = 953 := by
    unfold longPath
    rw [List.length_append, List.length_flatten, List.map_replicate, List.sum_replicate_nat]
    rfl
  have hnul : (0 : UInt8) ∉ longPath := by
    unfold longPath
    rw [List.mem_append, List.mem_flatten]
    rintro (⟨l, hl, h⟩ | h)
    · rw [List.eq_of_mem_replicate hl] at h
      exact absurd h (by decide)
    · exact absurd h (by decide)
  have hlong : pathMax < longPath.length := by
    rw [hlen]
    decide
  have hbelongs := create_belongs none hnul
  refine ⟨fun h => not_keeps_of_long none hnul hlong h.keeps, ?_, ?_⟩
  · rw [hbelongs.open, if_neg (take_ne_of_long hlong)]
  · rw [hbelongs.open, if_pos rfl]

end Bxdb.SharedCache
