import Mathlib.Logic.Function.Basic
import Mathlib.Data.List.Basic

/-!
# Set-associative caches

Keys are mapped to sets, and a set has a number of ways, each empty or holding one key
with its value. A put writes the way that holds its key, or any way at all when none
does, so that every choice of victim is covered. Some keys may be refused.

* `run_ok`: **after any run from the empty cache, each held key is in its own set, in one
  way only, and with the value of its latest put.**
* `Step.keeps`: a key stays held until its set is given a key it does not hold.
-/

namespace SetCache

variable {K V S W : Type*} [DecidableEq S] [DecidableEq W]

/-- What the ways of each set hold. -/
abbrev Table (K V S W : Type*) := S → W → Option (K × V)

inductive Op (K V : Type*)
  | get (k : K)
  | put (k : K) (v : V)

/-- The way that holds the key, or any way when none does. -/
def Admits (ways : W → Option (K × V)) (k : K) (w : W) : Prop :=
  (∃ v, ways w = some (k, v)) ∨ ∀ w' v, ways w' ≠ some (k, v)

def write (t : Table K V S W) (s : S) (w : W) (k : K) (v : V) : Table K V S W :=
  Function.update t s (Function.update (t s) w (some (k, v)))

theorem write_self (t : Table K V S W) (s : S) (w : W) (k : K) (v : V) : write t s w k v s w = some (k, v) := by
  unfold write
  rw [Function.update_self, Function.update_self]

theorem write_other {t : Table K V S W} {s s' : S} {w w' : W} {k : K} {v : V} (h : ¬ (s' = s ∧ w' = w)) :
    write t s w k v s' w' = t s' w' := by
  unfold write
  by_cases hs : s' = s
  · subst hs
    rw [Function.update_self, Function.update_of_ne fun hw => h ⟨rfl, hw⟩]
  · rw [Function.update_of_ne hs]

/-- One call on a cache that sends keys to sets by `loc` and refuses some keys. -/
inductive Step (loc : K → S) (refused : K → Prop) : Table K V S W → Op K V → Table K V S W → Prop
  | get {t : Table K V S W} {k : K} : Step loc refused t (.get k) t
  | refuse {t : Table K V S W} {k : K} {v : V} (h : refused k) : Step loc refused t (.put k v) t
  | put {t : Table K V S W} {k : K} {v : V} {w : W} (h : ¬ refused k) (hw : Admits (t (loc k)) k w) :
      Step loc refused t (.put k v) (write t (loc k) w k v)

/-- Some way of its set holds the key. -/
def Holds (loc : K → S) (t : Table K V S W) (k : K) : Prop := ∃ w v, t (loc k) w = some (k, v)

/-- The call gives this set a key that it does not hold. -/
def Inserts (loc : K → S) (refused : K → Prop) (t : Table K V S W) (s : S) : Op K V → Prop
  | .get _ => False
  | .put k _ => ¬ refused k ∧ loc k = s ∧ ¬ Holds loc t k

/-- **A key stays held** until its set is given another. -/
theorem Step.keeps {loc : K → S} {refused : K → Prop} {t t' : Table K V S W} {op : Op K V} {k : K}
    (hs : Step loc refused t op t') (hk : Holds loc t k) (hop : ¬ Inserts loc refused t (loc k) op) : Holds loc t' k := by
  obtain ⟨w, v, hw⟩ := hk
  cases hs with
  | get => exact ⟨w, v, hw⟩
  | refuse => exact ⟨w, v, hw⟩
  | @put k' v' w' hr hadm =>
    by_cases hsw : loc k = loc k' ∧ w = w'
    · -- the call's way holds the call's key, which is therefore this one
      obtain ⟨hloc, rfl⟩ := hsw
      obtain ⟨v₀, hv₀⟩ : ∃ v₀, t (loc k') w = some (k', v₀) := by
        by_contra hnone
        refine hop ⟨hr, hloc.symm, fun hheld => ?_⟩
        obtain ⟨w₁, v₁, h₁⟩ := hheld
        rcases hadm with hadm | hadm
        · exact hnone hadm
        · exact hadm w₁ v₁ h₁
      rw [hloc, hv₀] at hw
      obtain ⟨rfl, -⟩ := Prod.mk.inj (Option.some.inj hw)
      exact ⟨w, v', write_self _ _ _ _ _⟩
    · exact ⟨w, v, by rw [write_other hsw]; exact hw⟩

/-- A put holds its key. -/
theorem Step.holds {loc : K → S} {refused : K → Prop} {t t' : Table K V S W} {k : K} {v : V}
    (hs : Step loc refused t (.put k v) t') (hk : ¬ refused k) : Holds loc t' k := by
  cases hs with
  | refuse hr => exact absurd hr hk
  | @put _ _ w _ _ => exact ⟨w, v, write_self _ _ _ _ _⟩

/-- Calls one after the other. -/
inductive Run (loc : K → S) (refused : K → Prop) (t₀ : Table K V S W) : List (Op K V) → Table K V S W → Prop
  | nil : Run loc refused t₀ [] t₀
  | snoc {t t' : Table K V S W} {ops : List (Op K V)} {op : Op K V} (h : Run loc refused t₀ ops t)
      (hs : Step loc refused t op t') : Run loc refused t₀ (ops ++ [op]) t'

/-- The value of the latest put of a key. -/
def lastPut [DecidableEq K] (ops : List (Op K V)) (k : K) : Option V :=
  ops.foldl (fun r op => match op with
    | .get _ => r
    | .put k' v => if k' = k then some v else r) none

variable (loc : K → S) (refused : K → Prop)

/-- **The invariant** after these calls. -/
structure Ok [DecidableEq K] (ops : List (Op K V)) (t : Table K V S W) : Prop where
  kept : ∀ {s w k v}, t s w = some (k, v) → ¬ refused k
  placed : ∀ {s w k v}, t s w = some (k, v) → loc k = s
  once : ∀ {s w w' k v v'}, t s w = some (k, v) → t s w' = some (k, v') → w = w'
  latest : ∀ {s w k v}, t s w = some (k, v) → lastPut ops k = some v

variable {loc refused}

theorem lastPut_get [DecidableEq K] (ops : List (Op K V)) (k k' : K) : lastPut (ops ++ [.get k']) k = lastPut ops k := by
  unfold lastPut
  rw [List.foldl_append]
  rfl

theorem lastPut_put [DecidableEq K] (ops : List (Op K V)) (k k' : K) (v : V) :
    lastPut (ops ++ [.put k' v]) k = if k' = k then some v else lastPut ops k := by
  unfold lastPut
  rw [List.foldl_append]
  rfl

/-- **One call keeps the invariant.** -/
theorem Ok.step [DecidableEq K] {ops : List (Op K V)} {op : Op K V} {t t' : Table K V S W} (h : Ok loc refused ops t)
    (hs : Step loc refused t op t') : Ok loc refused (ops ++ [op]) t' := by
  cases hs with
  | get =>
    refine ⟨h.kept, h.placed, h.once, fun hw => ?_⟩
    rw [lastPut_get]
    exact h.latest hw
  | @refuse k v hr =>
    refine ⟨h.kept, h.placed, h.once, fun {s w k' v'} hw => ?_⟩
    have hne : k ≠ k' := fun heq => h.kept hw (heq ▸ hr)
    rw [lastPut_put, if_neg hne]
    exact h.latest hw
  | @put k v w hr hw =>
    -- what a way holds after the write
    have hcases : ∀ {s w' k' v'}, write t (loc k) w k v s w' = some (k', v') →
        (s = loc k ∧ w' = w ∧ k' = k ∧ v' = v) ∨ (¬ (s = loc k ∧ w' = w) ∧ t s w' = some (k', v')) := by
      intro s w' k' v' ht
      by_cases hsw : s = loc k ∧ w' = w
      · obtain ⟨rfl, rfl⟩ := hsw
        rw [write_self] at ht
        obtain ⟨rfl, rfl⟩ := Prod.mk.inj (Option.some.inj ht)
        exact .inl ⟨rfl, rfl, rfl, rfl⟩
      · rw [write_other hsw] at ht
        exact .inr ⟨hsw, ht⟩
    -- no other way holds the key
    have honly : ∀ {s w' v'}, t s w' = some (k, v') → s = loc k ∧ w' = w := by
      intro s w' v' ht
      obtain rfl := h.placed ht
      rcases hw with ⟨v₀, hw⟩ | hw
      · exact ⟨rfl, h.once ht hw⟩
      · exact absurd ht (hw w' v')
    refine ⟨fun {s w' k' v'} ht => ?_, fun {s w' k' v'} ht => ?_, fun {s w₁ w₂ k' v₁ v₂} h₁ h₂ => ?_,
      fun {s w' k' v'} ht => ?_⟩
    · rcases hcases ht with ⟨-, -, rfl, -⟩ | ⟨-, ht⟩
      · exact hr
      · exact h.kept ht
    · rcases hcases ht with ⟨rfl, -, rfl, -⟩ | ⟨-, ht⟩
      · rfl
      · exact h.placed ht
    · rcases hcases h₁ with ⟨rfl, rfl, rfl, -⟩ | ⟨hne₁, ht₁⟩
      · rcases hcases h₂ with ⟨-, rfl, -⟩ | ⟨hne₂, ht₂⟩
        · rfl
        · exact absurd (honly ht₂) hne₂
      · rcases hcases h₂ with ⟨rfl, rfl, rfl, -⟩ | ⟨-, ht₂⟩
        · exact absurd (honly ht₁) hne₁
        · exact h.once ht₁ ht₂
    · rw [lastPut_put]
      rcases hcases ht with ⟨-, -, rfl, rfl⟩ | ⟨hne, ht⟩
      · rw [if_pos rfl]
      · rw [if_neg fun heq => hne (honly (heq ▸ ht))]
        exact h.latest ht

/-- **After any run from the empty cache.** -/
theorem run_ok [DecidableEq K] {ops : List (Op K V)} {t₀ t : Table K V S W} (h₀ : ∀ s w, t₀ s w = none)
    (h : Run loc refused t₀ ops t) :
    Ok loc refused ops t := by
  induction h with
  | nil =>
    have hnone : ∀ {s w k v}, t₀ s w ≠ some (k, v) := by
      intro s w k v
      rw [h₀]
      nofun
    exact ⟨fun ht => absurd ht hnone, fun ht => absurd ht hnone, fun ht => absurd ht hnone, fun ht => absurd ht hnone⟩
  | snoc _ hs ih => exact ih.step hs

end SetCache
