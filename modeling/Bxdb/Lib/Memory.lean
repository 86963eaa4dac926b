import Bxdb.Lib.Bytes
import Mathlib.Data.List.Induction

/-!
# Byte-addressed memory

A memory maps addresses to bytes. `load` and `store` move byte strings, `load64` and
`store64` little-endian words, `loadWords` reads an array of words.

* `load_store_same`, `load_store_sep`: **a load sees the store to its own range and none
  to a range apart from it.**
* `load_store_byte`: a store into an array replaces one entry.
* `foldl_establishes`: what each round of a loop sets up, and no round spoils, holds after it.
-/

namespace Memory

open Bytes

/-- The byte at each address. -/
abbrev Mem := ℕ → UInt8

def load (m : Mem) (a n : ℕ) : List UInt8 := (List.range n).map fun i => m (a + i)

def store (m : Mem) (a : ℕ) (bs : List UInt8) : Mem :=
  fun x => if a ≤ x ∧ x < a + bs.length then bs.getD (x - a) 0 else m x

/-- `n` bytes at `a` and `k` bytes at `b` share no address. -/
def NoOverlap (a n b k : ℕ) : Prop := a + n ≤ b ∨ b + k ≤ a

variable {m m' : Mem} {a b n k x : ℕ} {bs : List UInt8}

@[simp] theorem length_load (m : Mem) (a n : ℕ) : (load m a n).length = n := by
  unfold load
  rw [List.length_map, List.length_range]

theorem getElem_load {i : ℕ} (h : i < (load m a n).length) : (load m a n)[i] = m (a + i) := by
  simp only [load, List.getElem_map, List.getElem_range]

theorem load_congr (h : ∀ i, i < n → m (a + i) = m' (b + i)) : load m a n = load m' b n :=
  List.map_congr_left fun i hi => h i (List.mem_range.1 hi)

/-- Equal loads hold equal bytes. -/
theorem eq_of_load_eq {i : ℕ} (h : load m a n = load m' b n) (hi : i < n) : m (a + i) = m' (b + i) := by
  have hl : i < (load m a n).length := by rw [length_load]; exact hi
  have hl' : i < (load m' b n).length := by rw [length_load]; exact hi
  rw [← getElem_load hl, ← getElem_load hl']
  simp only [h]

theorem store_outside (h : ¬ (a ≤ x ∧ x < a + bs.length)) : store m a bs x = m x := if_neg h

theorem store_inside {i : ℕ} (h : i < bs.length) : store m a bs (a + i) = bs[i] := by
  unfold store
  rw [if_pos ⟨Nat.le_add_right a i, by omega⟩, Nat.add_sub_cancel_left, List.getD_eq_getElem?_getD,
    List.getElem?_eq_getElem h, Option.getD_some]

/-- **A stored range is loaded back.** -/
theorem load_store_same (m : Mem) (a : ℕ) (bs : List UInt8) : load (store m a bs) a bs.length = bs := by
  apply List.ext_getElem
  · exact length_load _ _ _
  · intro i h1 h2
    rw [getElem_load, store_inside h2]

/-- A load that goes on behind a stored range. -/
theorem load_store_longer (m : Mem) (a : ℕ) (bs : List UInt8) (k : ℕ) :
    load (store m a bs) a (bs.length + k) = bs ++ load m (a + bs.length) k := by
  apply List.ext_getElem
  · rw [List.length_append, length_load, length_load]
  · intro i h1 h2
    rw [getElem_load]
    rcases Nat.lt_or_ge i bs.length with hi | hi
    · rw [store_inside hi, List.getElem_append_left hi]
    · rw [store_outside (by omega), List.getElem_append_right hi, getElem_load]
      congr 1
      omega

/-- **A store leaves every other range alone.** -/
theorem load_store_sep (h : NoOverlap a n b bs.length) : load (store m b bs) a n = load m a n := by
  refine load_congr fun i hi => store_outside ?_
  unfold NoOverlap at h
  omega

theorem store_nil (m : Mem) (a : ℕ) : store m a [] = m := by
  funext x
  refine store_outside ?_
  rw [List.length_nil]
  omega

/-- A stored range grows by the byte stored after it. -/
theorem store_snoc (m : Mem) (a : ℕ) (bs : List UInt8) (b : UInt8) :
    store (store m a bs) (a + bs.length) [b] = store m a (bs ++ [b]) := by
  funext x
  unfold store
  rw [List.length_append, List.length_singleton]
  by_cases hlast : x = a + bs.length
  · subst hlast
    rw [if_pos ⟨le_refl _, by omega⟩, if_pos ⟨Nat.le_add_right _ _, by omega⟩, Nat.sub_self, Nat.add_sub_cancel_left]
    simp
  · rw [if_neg (by omega)]
    by_cases hin : a ≤ x ∧ x < a + bs.length
    · rw [if_pos hin, if_pos ⟨hin.1, by omega⟩, List.getD_eq_getElem?_getD, List.getD_eq_getElem?_getD,
        List.getElem?_append_left (by omega)]
    · rw [if_neg hin, if_neg (by omega)]

/-- A store inside a byte array replaces one entry. -/
theorem load_store_byte {i : ℕ} {v : UInt8} : load (store m (a + i) [v]) a n = (load m a n).set i v := by
  apply List.ext_getElem
  · rw [List.length_set, length_load, length_load]
  · intro j h1 h2
    rw [List.getElem_set, getElem_load, getElem_load]
    unfold store
    by_cases hij : i = j
    · subst hij
      rw [if_pos rfl, if_pos ⟨le_refl _, by simp⟩]
      simp
    · rw [if_neg hij, if_neg (by simp only [List.length_singleton]; omega)]

/-! ## Words -/

def load64 (m : Mem) (a : ℕ) : UInt64 := fromLe64 (load m a 8)

def store64 (m : Mem) (a : ℕ) (v : UInt64) : Mem := store m a (toLe64 v)

theorem load64_store64_same (m : Mem) (a : ℕ) (v : UInt64) : load64 (store64 m a v) a = v := by
  have h := load_store_same m a (toLe64 v)
  rw [length_toLe64] at h
  unfold load64 store64
  rw [h, fromLe64_toLe64]

theorem load_store64_sep {v : UInt64} (h : NoOverlap a n b 8) : load (store64 m b v) a n = load m a n :=
  load_store_sep (by rw [length_toLe64]; exact h)

theorem load64_congr (h : load m a 8 = load m' b 8) : load64 m a = load64 m' b := by
  unfold load64
  rw [h]

/-- An array of words. -/
def loadWords (m : Mem) (a n : ℕ) : List UInt64 := (List.range n).map fun i => load64 m (a + i * 8)

@[simp] theorem length_loadWords (m : Mem) (a n : ℕ) : (loadWords m a n).length = n := by
  unfold loadWords
  rw [List.length_map, List.length_range]

theorem getElem_loadWords {i : ℕ} (h : i < (loadWords m a n).length) : (loadWords m a n)[i] = load64 m (a + i * 8) := by
  simp only [loadWords, List.getElem_map, List.getElem_range]

theorem loadWords_congr (h : ∀ i, i < n → load64 m (a + i * 8) = load64 m' (b + i * 8)) :
    loadWords m a n = loadWords m' b n :=
  List.map_congr_left fun i hi => h i (List.mem_range.1 hi)

/-! ## Loops -/

/-- **What each round of a loop sets up, and no round spoils**, holds after the loop. -/
theorem foldl_establishes {ι σ : Type*} {P : ι → σ → Prop} {f : σ → ι → σ} {l : List ι}
    (hset : ∀ s i, i ∈ l → P i (f s i)) (hkeep : ∀ s i j, i ∈ l → j ∈ l → P i s → P i (f s j)) (s : σ) {i : ι}
    (hi : i ∈ l) : P i (l.foldl f s) := by
  induction l using List.reverseRecOn with
  | nil => cases hi
  | append_singleton l j ih =>
    rw [List.foldl_append, List.foldl_cons, List.foldl_nil]
    have hj : j ∈ l ++ [j] := List.mem_append_right l List.mem_cons_self
    by_cases hij : i = j
    · subst hij
      exact hset _ _ hj
    · have hil : i ∈ l := by simpa [hij] using hi
      refine hkeep _ _ _ hi hj (ih ?_ ?_ hil)
      · exact fun s i hi => hset s i (List.mem_append_left _ hi)
      · exact fun s i j hi hj => hkeep s i j (List.mem_append_left _ hi) (List.mem_append_left _ hj)

end Memory
