import Mathlib.Data.List.Induction
import Mathlib.Data.List.Sort
import Mathlib.Order.Bounds.Basic

/-!
# Sorted indexes over keyed entries

Entries with a key in a linear order are sorted by key (stably), entries with the
key of their left neighbour are dropped, and the result is searched.

* `index_find?`: **an index holds, for each key, the first entry with that key.**
* `index_strict`: its keys strictly increase.
* `supersede`: an entry takes the place of the one with its key. Done entry by entry, the last
  of each key stay (`mem_foldl_supersede`).
* `IsFloor`: the entry of a set with the largest key at most a bound; `floor?` finds
  it in a list with strictly increasing keys (`floor?_eq_some`, `floor?_eq_none`).
* `partitionLoop` and `searchLoop`: binary search by halving `[lo, hi)`. They find
  the partition point of a monotone test (`partitionLoop_eq`) and the position of a
  key (`searchLoop_some`, `searchLoop_none`).
-/

namespace SortedIndex

variable {α κ : Type*} [LinearOrder κ] (key : α → κ)

/-! ## Sorting and dropping duplicates -/

/-- Stable sort by key. -/
def sortByKey (l : List α) : List α := l.insertionSort fun a b => key a ≤ key b

/-- `a` followed by what stays of `l`: an entry is dropped when its key is that of
the last entry kept. -/
def dedupFrom : α → List α → List α
  | a, [] => [a]
  | a, b :: l => if key a = key b then dedupFrom a l else a :: dedupFrom b l

def dedupByKey : List α → List α
  | [] => []
  | a :: l => dedupFrom key a l

/-- Sort, then drop repeated keys. -/
def index (l : List α) : List α := dedupByKey key (sortByKey key l)

theorem sortByKey_pairwise (l : List α) : (sortByKey key l).Pairwise fun a b => key a ≤ key b := by
  have : Std.Total fun a b : α => key a ≤ key b := ⟨fun a b => le_total (key a) (key b)⟩
  have : IsTrans α fun a b : α => key a ≤ key b := ⟨fun _ _ _ h1 h2 => le_trans h1 h2⟩
  exact List.pairwise_insertionSort _ l

theorem sortByKey_perm (l : List α) : (sortByKey key l).Perm l := List.perm_insertionSort _ l

/-- A sorted list stays as it is. -/
theorem sortByKey_of_pairwise {l : List α} (h : l.Pairwise fun a b => key a ≤ key b) : sortByKey key l = l :=
  h.insertionSort_eq

/-- Sorting keeps the order of entries with equal keys. -/
theorem filter_sortByKey (l : List α) (k : κ) :
    (sortByKey key l).filter (fun a => key a = k) = l.filter (fun a => key a = k) := by
  have : Std.Total fun a b : α => key a ≤ key b := ⟨fun a b => le_total (key a) (key b)⟩
  have : IsTrans α fun a b : α => key a ≤ key b := ⟨fun _ _ _ h1 h2 => le_trans h1 h2⟩
  have hpw : (l.filter fun a => key a = k).Pairwise fun a b => key a ≤ key b := by
    rw [List.pairwise_iff_forall_sublist]
    intro a b hab
    have ha := hab.subset (List.mem_cons_self (a := a))
    have hb := hab.subset (List.mem_cons_of_mem _ (List.mem_singleton_self b))
    simp only [List.mem_filter, decide_eq_true_eq] at ha hb
    exact le_of_eq (ha.2.trans hb.2.symm)
  have hsub := List.sublist_insertionSort hpw List.filter_sublist
  have hfil := hsub.filter (fun a => key a = k)
  rw [List.filter_filter] at hfil
  simp only [Bool.and_self] at hfil
  refine (hfil.eq_of_length ?_).symm
  exact ((sortByKey_perm key l).filter _).length_eq.symm

theorem find?_sortByKey (l : List α) (k : κ) :
    (sortByKey key l).find? (fun a => key a = k) = l.find? (fun a => key a = k) := by
  rw [← List.head?_filter, ← List.head?_filter, filter_sortByKey]

theorem find?_dedupFrom (k : κ) : ∀ (l : List α) (a : α),
    (dedupFrom key a l).find? (fun b => key b = k) = (a :: l).find? (fun b => key b = k) := by
  intro l
  induction l with
  | nil => intro a; rfl
  | cons b l ih =>
    intro a
    unfold dedupFrom
    by_cases hab : key a = key b
    · rw [if_pos hab, ih a]
      by_cases hk : key a = k
      · simp [hk]
      · have hb : key b ≠ k := fun h => hk (hab.trans h)
        simp [hk, hb]
    · rw [if_neg hab]
      simp only [List.find?_cons]
      rw [ih b]; simp only [List.find?_cons]

theorem find?_dedupByKey (l : List α) (k : κ) :
    (dedupByKey key l).find? (fun a => key a = k) = l.find? (fun a => key a = k) := by
  cases l with
  | nil => rfl
  | cons a l => exact find?_dedupFrom key k l a

/-- **An index holds, for each key, the first entry with that key.** -/
theorem index_find? (l : List α) (k : κ) :
    (index key l).find? (fun a => key a = k) = l.find? (fun a => key a = k) := by
  rw [index, find?_dedupByKey, find?_sortByKey]

theorem mem_dedupFrom : ∀ (l : List α) (a x : α), x ∈ dedupFrom key a l → x ∈ a :: l := by
  intro l
  induction l with
  | nil => intro a x h; exact h
  | cons b l ih =>
    intro a x h
    unfold dedupFrom at h
    split at h
    · rcases List.mem_cons.1 (ih a x h) with rfl | h
      · exact List.mem_cons_self
      · exact List.mem_cons_of_mem _ (List.mem_cons_of_mem _ h)
    · rcases List.mem_cons.1 h with rfl | h
      · exact List.mem_cons_self
      · exact List.mem_cons_of_mem _ (ih b x h)

theorem dedupFrom_strict : ∀ (l : List α) (a : α), (a :: l).Pairwise (fun x y => key x ≤ key y) →
    (dedupFrom key a l).Pairwise fun x y => key x < key y := by
  intro l
  induction l with
  | nil => intro a _; simp [dedupFrom]
  | cons b l ih =>
    intro a h
    obtain ⟨ha, hbl⟩ := List.pairwise_cons.1 h
    unfold dedupFrom
    split
    · exact ih a (List.pairwise_cons.2 ⟨fun x hx => ha x (List.mem_cons_of_mem _ hx),
        (List.pairwise_cons.1 hbl).2⟩)
    · rename_i hne
      refine List.pairwise_cons.2 ⟨fun x hx => ?_, ih b hbl⟩
      have hab := lt_of_le_of_ne (ha b List.mem_cons_self) hne
      rcases List.mem_cons.1 (mem_dedupFrom key l b x hx) with rfl | hx
      · exact hab
      · exact lt_of_lt_of_le hab ((List.pairwise_cons.1 hbl).1 x hx)

/-- **The keys of an index strictly increase.** -/
theorem index_strict (l : List α) : (index key l).Pairwise fun a b => key a < key b := by
  unfold index
  cases h : sortByKey key l with
  | nil => exact List.Pairwise.nil
  | cons a s => exact dedupFrom_strict key s a (h ▸ sortByKey_pairwise key l)

variable {key}

/-- In a list with strictly increasing keys, an entry is found by its key. -/
theorem find?_of_strict {l : List α} (h : l.Pairwise fun a b => key a < key b) {a : α} (ha : a ∈ l) :
    l.find? (fun b => key b = key a) = some a := by
  induction l with
  | nil => simp at ha
  | cons b l ih =>
    obtain ⟨hb, hl⟩ := List.pairwise_cons.1 h
    rcases List.mem_cons.1 ha with rfl | ha
    · simp
    · rw [List.find?_cons_of_neg, ih hl ha]
      simpa using (hb a ha).ne

theorem eq_of_key_eq {l : List α} (h : l.Pairwise fun a b => key a < key b) {a b : α} (ha : a ∈ l)
    (hb : b ∈ l) (hk : key a = key b) : a = b := by
  have h1 := find?_of_strict h ha
  rw [hk, find?_of_strict h hb] at h1
  exact (Option.some.inj h1).symm

/-- **The entries of an index are the first ones with their keys.** -/
theorem mem_index {l : List α} {a : α} :
    a ∈ index key l ↔ l.find? (fun b => key b = key a) = some a := by
  rw [← index_find?]
  exact ⟨find?_of_strict (index_strict key l), fun h => List.mem_of_find?_eq_some h⟩

variable (key) in
theorem exists_find? {l : List α} {a : α} (ha : a ∈ l) :
    ∃ b, l.find? (fun b => key b = key a) = some b ∧ b ∈ l ∧ key b = key a := by
  obtain ⟨b, hb⟩ : ∃ b, l.find? (fun b => key b = key a) = some b := by
    rw [← Option.isSome_iff_exists, List.find?_isSome]
    exact ⟨a, ha, by simp⟩
  exact ⟨b, hb, List.mem_of_find?_eq_some hb, by simpa using List.find?_some hb⟩

/-- **An index of entries with distinct keys holds all of them.** -/
theorem mem_index_of_nodup {l : List α} (h : (l.map key).Nodup) {a : α} : a ∈ index key l ↔ a ∈ l := by
  rw [mem_index]
  refine ⟨fun h => List.mem_of_find?_eq_some h, fun ha => ?_⟩
  obtain ⟨b, hb, hmem, hkey⟩ := exists_find? key ha
  rw [hb, List.inj_on_of_nodup_map h hmem ha hkey]

/-- Of entries appended later, an index takes those with new keys. -/
theorem mem_index_append {l l' : List α} (h : (l.map key).Nodup) (h' : (l'.map key).Nodup) {a : α} :
    a ∈ index key (l ++ l') ↔ a ∈ l ∨ a ∈ l' ∧ key a ∉ l.map key := by
  rw [mem_index, List.find?_append]
  cases hf : l.find? fun b => key b = key a with
  | some b =>
    have hb := List.mem_of_find?_eq_some hf
    have hkey : key b = key a := by simpa using List.find?_some hf
    rw [Option.some_or, Option.some.injEq]
    constructor
    · rintro rfl
      exact .inl hb
    · rintro (ha | ⟨-, hnot⟩)
      · exact List.inj_on_of_nodup_map h hb ha hkey
      · exact absurd (List.mem_map.2 ⟨b, hb, hkey⟩) hnot
  | none =>
    have hnot : key a ∉ l.map key := by
      intro hmem
      obtain ⟨b, hb, hkey⟩ := List.mem_map.1 hmem
      simpa [hkey] using List.find?_eq_none.1 hf b hb
    rw [Option.none_or, ← mem_index, mem_index_of_nodup h']
    constructor
    · exact fun ha => .inr ⟨ha, hnot⟩
    · rintro (ha | ⟨ha, -⟩)
      · exact absurd (List.mem_map_of_mem ha) hnot
      · exact ha

/-- Under a key that tells entries apart, an index lists what the list holds. -/
theorem mem_index_of_injective (hinj : Function.Injective key) {l : List α} {a : α} : a ∈ index key l ↔ a ∈ l := by
  rw [mem_index]
  refine ⟨fun h => List.mem_of_find?_eq_some h, fun ha => ?_⟩
  obtain ⟨b, hb, -, hkey⟩ := exists_find? key ha
  rw [hb, hinj hkey]

/-- Two lists with strictly increasing keys and the same members are equal. -/
theorem eq_of_mem_iff {l l' : List α} (h : l.Pairwise fun a b => key a < key b)
    (h' : l'.Pairwise fun a b => key a < key b) (hm : ∀ a, a ∈ l ↔ a ∈ l') : l = l' := by
  have : Std.Irrefl fun a b : α => key a < key b := ⟨fun a => lt_irrefl (key a)⟩
  have : Std.Asymm fun a b : α => key a < key b := ⟨fun _ _ h => lt_asymm h⟩
  exact List.Pairwise.eq_of_mem_iff h h' hm

/-- An index is its own index. -/
theorem index_of_strict {l : List α} (h : l.Pairwise fun a b => key a < key b) : index key l = l := by
  refine eq_of_mem_iff (index_strict key l) h fun a => ?_
  rw [mem_index]
  exact ⟨fun h => List.mem_of_find?_eq_some h, find?_of_strict h⟩

/-! ## The last entry of each key -/

section Last

variable (key)

/-- `a` takes the place of the entry with its key. -/
def supersede (l : List α) (a : α) : List α := l.filter (fun b => key b ≠ key a) ++ [a]

variable {key}

theorem mem_supersede {l : List α} {a b : α} : b ∈ supersede key l a ↔ b = a ∨ b ∈ l ∧ key b ≠ key a := by
  unfold supersede
  rw [List.mem_append, List.mem_singleton, List.mem_filter, decide_eq_true_eq, or_comm]

/-- An entry with a new key is appended. -/
theorem supersede_of_new {l : List α} {a : α} (h : key a ∉ l.map key) : supersede key l a = l ++ [a] := by
  unfold supersede
  congr 1
  refine List.filter_eq_self.2 fun b hb => decide_eq_true fun heq => h ?_
  rw [← heq]
  exact List.mem_map_of_mem hb

/-- With distinct keys nothing is superseded. -/
theorem foldl_supersede_of_nodup {l l' : List α} (h : ((l ++ l').map key).Nodup) :
    l'.foldl (supersede key) l = l ++ l' := by
  induction l' generalizing l with
  | nil => rw [List.foldl_nil, List.append_nil]
  | cons a l' ih =>
    have hnew : key a ∉ l.map key := by
      intro hmem
      rw [List.map_append, List.map_cons] at h
      exact (List.nodup_append.1 h).2.2 _ hmem _ List.mem_cons_self rfl
    rw [List.foldl_cons, supersede_of_new hnew, ih (by rwa [List.append_assoc]), List.append_assoc]
    rfl

/-- **What stays are the last entries of their keys.** -/
theorem mem_foldl_supersede {l : List α} {a : α} :
    a ∈ l.foldl (supersede key) [] ↔ l.reverse.find? (fun b => key b = key a) = some a := by
  induction l using List.reverseRecOn with
  | nil => simp
  | append_singleton l b ih =>
    rw [List.foldl_append, List.foldl_cons, List.foldl_nil, mem_supersede, ih, List.reverse_append,
      List.reverse_singleton, List.singleton_append]
    by_cases hkey : key b = key a
    · rw [List.find?_cons_of_pos (by simpa using hkey), Option.some.injEq]
      constructor
      · rintro (rfl | ⟨-, hne⟩)
        · rfl
        · exact absurd hkey.symm hne
      · rintro rfl
        exact .inl rfl
    · rw [List.find?_cons_of_neg (by simpa using hkey)]
      constructor
      · rintro (rfl | ⟨hfound, -⟩)
        · exact absurd rfl hkey
        · exact hfound
      · intro hfound
        exact .inr ⟨hfound, Ne.symm hkey⟩

end Last

/-! ## The floor of a bound -/

/-- `a` has the largest key at most `t` in the set `S`. -/
def IsFloor (key : α → κ) (S : Set α) (t : κ) (a : α) : Prop :=
  a ∈ S ∧ IsGreatest {k | k ∈ key '' S ∧ k ≤ t} (key a)

theorem isFloor_iff {S : Set α} {t : κ} {a : α} :
    IsFloor key S t a ↔ a ∈ S ∧ key a ≤ t ∧ ∀ b ∈ S, key b ≤ t → key b ≤ key a := by
  constructor
  · rintro ⟨ha, ⟨-, hle⟩, hmax⟩
    exact ⟨ha, hle, fun b hb hbt => hmax ⟨⟨b, hb, rfl⟩, hbt⟩⟩
  · rintro ⟨ha, hle, hmax⟩
    refine ⟨ha, ⟨⟨a, ha, rfl⟩, hle⟩, ?_⟩
    rintro _ ⟨⟨b, hb, rfl⟩, hbt⟩
    exact hmax b hb hbt

/-- Where the entries' test first fails. -/
def partitionPoint (p : κ → Bool) (ks : List κ) : ℕ := (ks.takeWhile p).length

variable (key) in
/-- The last entry with key at most `t`, in a list sorted by key. -/
def floor? (l : List α) (t : κ) : Option α :=
  let idx := partitionPoint (fun k => decide (k ≤ t)) (l.map key)
  if idx = 0 then none else l[idx - 1]?

theorem floor?_cons {a : α} {l : List α} {t : κ} :
    floor? key (a :: l) t = if key a ≤ t then some ((floor? key l t).getD a) else none := by
  unfold floor? partitionPoint
  by_cases h : key a ≤ t
  · simp only [List.map_cons, List.takeWhile_cons, h, decide_true, if_true, List.length_cons,
      Nat.add_one_ne_zero, if_false, Nat.add_sub_cancel]
    rcases hn : (List.takeWhile (fun k => decide (k ≤ t)) (l.map key)).length with _ | n
    · simp
    · have hlt : n < l.length := by
        have := (List.takeWhile_sublist (l := l.map key) (fun k => decide (k ≤ t))).length_le
        rw [hn, List.length_map] at this; omega
      simp [hlt]
  · simp [h]

theorem floor?_eq_none {l : List α} (h : l.Pairwise fun a b => key a < key b) {t : κ} :
    floor? key l t = none ↔ ∀ a ∈ l, ¬ key a ≤ t := by
  cases l with
  | nil => simp [floor?, partitionPoint]
  | cons b l =>
    rw [floor?_cons]
    by_cases hbt : key b ≤ t
    · rw [if_pos hbt]
      exact ⟨nofun, fun hall => absurd hbt (hall b List.mem_cons_self)⟩
    · rw [if_neg hbt]
      refine ⟨fun _ a ha hat => hbt ?_, fun _ => rfl⟩
      -- the first key is the least
      rcases List.mem_cons.1 ha with rfl | ha
      · exact hat
      · exact ((List.pairwise_cons.1 h).1 a ha).le.trans hat

theorem isFloor_of_floor? {l : List α} (h : l.Pairwise fun a b => key a < key b) {t : κ} {a : α}
    (ha : floor? key l t = some a) : IsFloor key {b | b ∈ l} t a := by
  rw [isFloor_iff]
  simp only [Set.mem_ofPred_eq]
  induction l generalizing a with
  | nil => simp [floor?, partitionPoint] at ha
  | cons b l ih =>
    obtain ⟨hb, hl⟩ := List.pairwise_cons.1 h
    rw [floor?_cons] at ha
    split at ha
    · rename_i hbt
      cases hf : floor? key l t with
      | none =>
        -- no later entry is below the bound
        rw [hf, Option.getD_none, Option.some_inj] at ha
        subst ha
        refine ⟨List.mem_cons_self, hbt, fun c hc hct => ?_⟩
        rcases List.mem_cons.1 hc with rfl | hc
        · exact le_rfl
        · exact absurd hct ((floor?_eq_none hl).1 hf c hc)
      | some c =>
        rw [hf, Option.getD_some, Option.some_inj] at ha
        subst ha
        obtain ⟨hc, hct, hmax⟩ := ih hl hf
        refine ⟨List.mem_cons_of_mem _ hc, hct, fun d hd hdt => ?_⟩
        rcases List.mem_cons.1 hd with rfl | hd
        · exact (hb _ hc).le
        · exact hmax d hd hdt
    · cases ha

/-- **`floor?` finds the floor** in a list with strictly increasing keys. -/
theorem floor?_eq_some {l : List α} (h : l.Pairwise fun a b => key a < key b) {t : κ} {a : α} :
    floor? key l t = some a ↔ IsFloor key {b | b ∈ l} t a := by
  refine ⟨isFloor_of_floor? h, fun ha => ?_⟩
  cases hf : floor? key l t with
  | none => exact absurd ha.2.1.2 ((floor?_eq_none h).1 hf a ha.1)
  | some c =>
    obtain ⟨hc, hgreatest⟩ := isFloor_of_floor? h hf
    rw [eq_of_key_eq h ha.1 hc (ha.2.unique hgreatest)]

/-! ## Binary search -/

/-- Halve `[lo, hi)` until it is empty: the first position where the test fails. -/
def partitionLoop (p : ℕ → Bool) : ℕ → ℕ → ℕ → ℕ
  | 0, lo, _ => lo
  | fuel + 1, lo, hi =>
    if lo < hi then
      let mid := lo + (hi - lo) / 2
      if p mid then partitionLoop p fuel (mid + 1) hi else partitionLoop p fuel lo mid
    else lo

/-- **Binary search finds the partition point** of a test that never holds again
once it fails. -/
theorem partitionLoop_eq {p : ℕ → Bool} {n size : ℕ} (hp : ∀ i, i < n → p i = true)
    (hn : ∀ i, n ≤ i → i < size → p i = false) : ∀ (fuel lo hi : ℕ), lo ≤ n → n ≤ hi → hi ≤ size →
    hi - lo ≤ fuel → partitionLoop p fuel lo hi = n := by
  intro fuel
  induction fuel with
  | zero => intro lo hi h1 h2 _ h3; simp only [partitionLoop]; omega
  | succ fuel ih =>
    intro lo hi h1 h2 h2' h3
    simp only [partitionLoop]
    split
    · rename_i hlt
      cases hm : p (lo + (hi - lo) / 2) with
      | true =>
        have : lo + (hi - lo) / 2 < n := by
          by_contra hc
          rw [hn _ (by omega) (by omega)] at hm; simp at hm
        simp only [if_true]
        exact ih _ _ (by omega) h2 h2' (by omega)
      | false =>
        have : n ≤ lo + (hi - lo) / 2 := by
          by_contra hc
          rw [hp _ (by omega)] at hm; simp at hm
        simp only [Bool.false_eq_true, if_false]
        exact ih _ _ h1 this (by omega) (by omega)
    · omega

/-- The search stays inside its range. -/
theorem partitionLoop_le {p : ℕ → Bool} : ∀ {fuel lo hi : ℕ}, lo ≤ hi → partitionLoop p fuel lo hi ≤ hi := by
  intro fuel
  induction fuel with
  | zero => intro lo hi h; exact h
  | succ fuel ih =>
    intro lo hi h
    simp only [partitionLoop]
    split_ifs with hlt hp
    · exact ih (by omega)
    · exact le_trans (ih (by omega)) (by omega)
    · exact h

/-- **The search splits its range** by a test that never holds again once it fails. -/
theorem partitionLoop_spec {p : ℕ → Bool} {size : ℕ} (hp : ∀ i j, i ≤ j → j < size → p j = true → p i = true) :
    ∀ {fuel lo hi : ℕ}, lo ≤ hi → hi ≤ size → hi - lo ≤ fuel → (∀ i, i < lo → p i = true) →
      (∀ i, hi ≤ i → i < size → p i = false) →
      (∀ i, i < partitionLoop p fuel lo hi → p i = true) ∧
        ∀ i, partitionLoop p fuel lo hi ≤ i → i < size → p i = false := by
  intro fuel
  induction fuel with
  | zero =>
    intro lo hi h1 _ h3 hlow hhigh
    have : lo = hi := by omega
    simp only [partitionLoop]
    exact ⟨hlow, fun i hi' => hhigh i (by omega)⟩
  | succ fuel ih =>
    intro lo hi h1 h2 h3 hlow hhigh
    simp only [partitionLoop]
    split_ifs with hlt hm
    · refine ih (by omega) h2 (by omega) (fun i hi' => ?_) hhigh
      exact hp i _ (by omega) (by omega) hm
    · refine ih (by omega) (by omega) (by omega) hlow fun i hi' hi2 => ?_
      -- past a failed test the test fails
      rw [← Bool.not_eq_true]
      intro hc
      exact hm (hp _ i hi' hi2 hc)
    · have : lo = hi := by omega
      exact ⟨hlow, fun i hi' => hhigh i (by omega)⟩

/-- The search with a test that can fail. -/
def partitionLoopM {ε : Type*} (p : ℕ → Except ε Bool) : ℕ → ℕ → ℕ → Except ε ℕ
  | 0, lo, _ => .ok lo
  | fuel + 1, lo, hi =>
    if lo < hi then
      let mid := lo + (hi - lo) / 2
      match p mid with
      | .error e => .error e
      | .ok true => partitionLoopM p fuel (mid + 1) hi
      | .ok false => partitionLoopM p fuel lo mid
    else .ok lo

/-- **A search asks only inside its range**: it goes through when the tests there do. -/
theorem partitionLoopM_ok {ε : Type*} {p : ℕ → Except ε Bool} {q : ℕ → Bool} {size : ℕ}
    (h : ∀ i, i < size → p i = .ok (q i)) : ∀ {fuel lo hi : ℕ}, hi ≤ size →
      partitionLoopM p fuel lo hi = .ok (partitionLoop q fuel lo hi) := by
  intro fuel
  induction fuel with
  | zero => intro lo hi _; rfl
  | succ fuel ih =>
    intro lo hi hs
    simp only [partitionLoopM, partitionLoop]
    split_ifs with hlt hq
    · rw [h _ (by omega), hq]
      exact ih hs
    · rw [h _ (by omega), eq_false_of_ne_true hq]
      exact ih (by omega)
    · rfl

/-- Halve `[lo, hi)` looking for a position whose key is `k`. -/
def searchLoop (keyAt : ℕ → κ) (k : κ) : ℕ → ℕ → ℕ → Option ℕ
  | 0, _, _ => none
  | fuel + 1, lo, hi =>
    if lo < hi then
      let mid := lo + (hi - lo) / 2
      if keyAt mid = k then some mid
      else if keyAt mid < k then searchLoop keyAt k fuel (mid + 1) hi
      else searchLoop keyAt k fuel lo mid
    else none

theorem searchLoop_some {keyAt : ℕ → κ} {k : κ} : ∀ {fuel lo hi i : ℕ},
    searchLoop keyAt k fuel lo hi = some i → lo ≤ i ∧ i < hi ∧ keyAt i = k := by
  intro fuel
  induction fuel with
  | zero => intro lo hi i h; simp [searchLoop] at h
  | succ fuel ih =>
    intro lo hi i h
    simp only [searchLoop] at h
    split_ifs at h with h1 h2 h3
    · simp only [Option.some.injEq] at h; subst h; exact ⟨by omega, by omega, h2⟩
    · obtain ⟨h4, h5, h6⟩ := ih h; exact ⟨by omega, h5, h6⟩
    · obtain ⟨h4, h5, h6⟩ := ih h; exact ⟨h4, by omega, h6⟩

/-- **Binary search misses only absent keys**, when the keys strictly increase. -/
theorem searchLoop_none {keyAt : ℕ → κ} {k : κ} {n : ℕ}
    (hmono : ∀ i j, i < j → j < n → keyAt i < keyAt j) : ∀ {fuel lo hi : ℕ}, hi ≤ n → hi - lo ≤ fuel →
    searchLoop keyAt k fuel lo hi = none → ∀ i, lo ≤ i → i < hi → keyAt i ≠ k := by
  intro fuel
  induction fuel with
  | zero => intro lo hi _ h2 _ i h3 h4; omega
  | succ fuel ih =>
    intro lo hi h1 h2 h i hi1 hi2
    simp only [searchLoop] at h
    have hlt : lo < hi := by omega
    rw [if_pos hlt] at h
    split_ifs at h with h3 h4
    · rcases Nat.lt_or_ge (lo + (hi - lo) / 2) i with hc | hc
      · exact ih h1 (by omega) h i (by omega) hi2
      · rcases Nat.eq_or_lt_of_le hc with rfl | hc
        · exact h3
        · exact (lt_trans (hmono _ _ hc (by omega)) h4).ne
    · rcases Nat.lt_or_ge i (lo + (hi - lo) / 2) with hc | hc
      · exact ih (by omega) (by omega) h i hi1 hc
      · have hgt : k < keyAt (lo + (hi - lo) / 2) := lt_of_le_of_ne (not_lt.1 h4) (Ne.symm h3)
        rcases Nat.eq_or_lt_of_le hc with rfl | hc
        · exact h3
        · exact (lt_trans hgt (hmono _ _ hc (by omega))).ne'

/-- The search with reads that can fail. -/
def searchLoopM {ε : Type*} (keyAt : ℕ → Except ε κ) (k : κ) : ℕ → ℕ → ℕ → Except ε (Option ℕ)
  | 0, _, _ => .ok none
  | fuel + 1, lo, hi =>
    if lo < hi then
      let mid := lo + (hi - lo) / 2
      match keyAt mid with
      | .error e => .error e
      | .ok a =>
        if a = k then .ok (some mid)
        else if a < k then searchLoopM keyAt k fuel (mid + 1) hi
        else searchLoopM keyAt k fuel lo mid
    else .ok none

/-- **A search reads only inside its range**: it goes through when the reads there do. -/
theorem searchLoopM_ok {ε : Type*} {keyAt : ℕ → Except ε κ} {key' : ℕ → κ} {k : κ} {size : ℕ}
    (h : ∀ i, i < size → keyAt i = .ok (key' i)) : ∀ {fuel lo hi : ℕ}, hi ≤ size →
      searchLoopM keyAt k fuel lo hi = .ok (searchLoop key' k fuel lo hi) := by
  intro fuel
  induction fuel with
  | zero => intro lo hi _; rfl
  | succ fuel ih =>
    intro lo hi hs
    simp only [searchLoopM, searchLoop]
    split_ifs with hlt heq hless
    · rw [h _ (by omega)]
      dsimp only
      rw [if_pos heq]
    · rw [h _ (by omega)]
      dsimp only
      rw [if_neg heq, if_pos hless]
      exact ih hs
    · rw [h _ (by omega)]
      dsimp only
      rw [if_neg heq, if_neg hless]
      exact ih (by omega)
    · rfl

end SortedIndex
