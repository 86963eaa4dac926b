import Mathlib.Order.Bounds.Basic
import Mathlib.Order.Lattice

/-!
# Versioned values

Keys receive values at times. The value of a key **as of** a time is the one it
received latest at or before that time.

* `AsOf.unique`: it is unique when no key receives two values at one time.
* `asOf_upTo`: forgetting what was written after `t` shows the past as of `min s t`.
* `lookback_getD`: layers with the writes of each time answer as of a time when they are
  searched backward, also when they leave out first writes of the default value.
-/

namespace Versioned

variable {ι σ α β : Type*} [LinearOrder σ]

/-- `W i t a`: key `i` received the value `a` at time `t`. -/
abbrev Writes (ι σ α : Type*) := ι → σ → α → Prop

/-- No key receives two values at one time. -/
def Functional (W : Writes ι σ α) : Prop := ∀ ⦃i t a b⦄, W i t a → W i t b → a = b

/-- The times at which key `i` received a value, up to `s`. -/
def timesUpTo (W : Writes ι σ α) (i : ι) (s : σ) : Set σ := {t | (∃ a, W i t a) ∧ t ≤ s}

/-- `r` is what key `i` holds as of time `s`: the value received latest, or `none` when
there is none yet. -/
def AsOf (W : Writes ι σ α) (i : ι) (s : σ) : Option α → Prop
  | some a => ∃ t, W i t a ∧ IsGreatest (timesUpTo W i s) t
  | none => timesUpTo W i s = ∅

/-- What was written up to time `t`. -/
def upTo (t : σ) (W : Writes ι σ α) : Writes ι σ α := fun i s a => W i s a ∧ s ≤ t

variable {W W' : Writes ι σ α} {i : ι} {s t : σ}

theorem asOf_some {a : α} :
    AsOf W i s (some a) ↔ ∃ t, W i t a ∧ t ≤ s ∧ ∀ t' b, W i t' b → t' ≤ s → t' ≤ t := by
  constructor
  · rintro ⟨t, ha, ⟨-, hle⟩, hmax⟩
    exact ⟨t, ha, hle, fun t' b hb ht' => hmax ⟨⟨b, hb⟩, ht'⟩⟩
  · rintro ⟨t, ha, hle, hmax⟩
    exact ⟨t, ha, ⟨⟨a, ha⟩, hle⟩, fun t' ⟨⟨b, hb⟩, ht'⟩ => hmax t' b hb ht'⟩

theorem asOf_none : AsOf W i s none ↔ ∀ t a, W i t a → ¬ t ≤ s := by
  constructor
  · intro h t a ha hle
    have : t ∈ timesUpTo W i s := ⟨⟨a, ha⟩, hle⟩
    rw [show timesUpTo W i s = ∅ from h] at this
    exact this
  · intro h
    apply Set.eq_empty_of_forall_notMem
    rintro t ⟨⟨a, ha⟩, hle⟩
    exact h t a ha hle

/-- **The value as of a time is unique.** -/
theorem AsOf.unique (hW : Functional W) {r r' : Option α} (h : AsOf W i s r) (h' : AsOf W i s r') :
    r = r' := by
  cases r with
  | none =>
    cases r' with
    | none => rfl
    | some b =>
      obtain ⟨t, hb, hle, -⟩ := asOf_some.1 h'
      exact absurd hle (asOf_none.1 h t b hb)
  | some a =>
    cases r' with
    | none =>
      obtain ⟨t, ha, hle, -⟩ := asOf_some.1 h
      exact absurd hle (asOf_none.1 h' t a ha)
    | some b =>
      obtain ⟨t, ha, hle, hmax⟩ := asOf_some.1 h
      obtain ⟨t', hb, hle', hmax'⟩ := asOf_some.1 h'
      have ht : t = t' := le_antisymm (hmax' t a ha hle) (hmax t' b hb hle')
      subst ht
      rw [hW ha hb]

/-- Only what was written counts. -/
theorem asOf_congr (h : ∀ t a, W i t a ↔ W' i t a) {r : Option α} : AsOf W i s r ↔ AsOf W' i s r := by
  cases r with
  | none => rw [asOf_none, asOf_none]; simp only [h]
  | some a => rw [asOf_some, asOf_some]; simp only [h]

/-- **Forgetting the writes after `t`** shows the past as of `min s t`. -/
theorem asOf_upTo {r : Option α} : AsOf (upTo t W) i s r ↔ AsOf W i (min s t) r := by
  cases r with
  | none =>
    rw [asOf_none, asOf_none]
    constructor
    · intro h t' a ha hle
      exact h t' a ⟨ha, hle.trans (min_le_right _ _)⟩ (hle.trans (min_le_left _ _))
    · rintro h t' a ⟨ha, hle⟩ hs
      exact h t' a ha (le_min hs hle)
  | some a =>
    rw [asOf_some, asOf_some]
    constructor
    · rintro ⟨t', ⟨ha, hle⟩, hs, hmax⟩
      exact ⟨t', ha, le_min hs hle, fun u b hb hu =>
        hmax u b ⟨hb, hu.trans (min_le_right _ _)⟩ (hu.trans (min_le_left _ _))⟩
    · rintro ⟨t', ha, hle, hmax⟩
      exact ⟨t', ⟨ha, hle.trans (min_le_right _ _)⟩, hle.trans (min_le_left _ _), fun u b hb hu =>
        hmax u b hb.1 (le_min hu hb.2)⟩

/-- **Only the writes up to `s` matter** for what holds as of `s`. -/
theorem asOf_congr_le (h : ∀ t a, t ≤ s → (W i t a ↔ W' i t a)) {r : Option α} : AsOf W i s r ↔ AsOf W' i s r := by
  have hup : ∀ t a, upTo s W i t a ↔ upTo s W' i t a := fun t a =>
    ⟨fun hw => ⟨(h t a hw.2).1 hw.1, hw.2⟩, fun hw => ⟨(h t a hw.2).2 hw.1, hw.2⟩⟩
  rw [← min_self s, ← asOf_upTo, ← asOf_upTo]
  exact asOf_congr hup

/-- **Writing again what is there** at one time changes nothing. -/
theorem AsOf.of_insert {n : σ} {E : ι → α → Prop} (hE : ∀ i a, E i a → AsOf W i n (some a)) {r : Option α}
    (h : AsOf (fun i t a => W i t a ∨ t = n ∧ E i a) i s r) : AsOf W i s r := by
  cases r with
  | none =>
    rw [asOf_none] at h ⊢
    intro t a ha
    exact h t a (.inl ha)
  | some a =>
    obtain ⟨t, ha, hle, hmax⟩ := asOf_some.1 h
    rw [asOf_some]
    rcases ha with ha | ⟨rfl, he⟩
    · exact ⟨t, ha, hle, fun u b hb hu => hmax u b (.inl hb) hu⟩
    · -- the latest write is the repeated one, of what was there at `t`
      obtain ⟨t', ha', hle', hmax'⟩ := asOf_some.1 (hE i a he)
      exact ⟨t', ha', hle'.trans hle, fun u b hb hu => hmax' u b hb (hmax u b (.inl hb) hu)⟩

/-- A value seen through a function. -/
theorem AsOf.map {f : α → β} {r : Option α} (h : AsOf W i s r) :
    AsOf (fun i t b => ∃ a, W i t a ∧ f a = b) i s (r.map f) := by
  cases r with
  | none =>
    rw [Option.map_none, asOf_none]
    rintro t b ⟨a, ha, -⟩
    exact asOf_none.1 h t a ha
  | some a =>
    obtain ⟨t, ha, hle, hmax⟩ := asOf_some.1 h
    rw [Option.map_some, asOf_some]
    exact ⟨t, ⟨a, ha, rfl⟩, hle, fun t' b ⟨a', ha', _⟩ => hmax t' a' ha'⟩

/-! ## Layers -/

/-- The value of `i` in the newest layer up to `s` that has one. -/
def lookback (L : ℕ → ι → Option α) (i : ι) : ℕ → Option α
  | 0 => L 0 i
  | s + 1 => (L (s + 1) i).or (lookback L i s)

variable {L : ℕ → ι → Option α}

/-- Layers behind the time do not matter. -/
theorem lookback_congr {L' : ℕ → ι → Option α} {i : ι} {s : ℕ} (h : ∀ t ≤ s, L t i = L' t i) :
    lookback L i s = lookback L' i s := by
  induction s with
  | zero => exact h 0 (le_refl 0)
  | succ s ih =>
    unfold lookback
    rw [h (s + 1) (le_refl _), ih fun t ht => h t (by omega)]

theorem lookback_none {i : ι} {s : ℕ} (h : ∀ t ≤ s, L t i = none) : lookback L i s = none := by
  induction s with
  | zero => exact h 0 (le_refl 0)
  | succ s ih =>
    unfold lookback
    rw [h (s + 1) (le_refl _), Option.none_or, ih fun t ht => h t (by omega)]

theorem lookback_some {i : ι} {s t : ℕ} {a : α} (ha : L t i = some a) (hle : t ≤ s)
    (h : ∀ t', t < t' → t' ≤ s → L t' i = none) : lookback L i s = some a := by
  induction s with
  | zero =>
    obtain rfl : t = 0 := by omega
    exact ha
  | succ s ih =>
    unfold lookback
    rcases Nat.lt_or_ge s t with hs | hs
    · obtain rfl : t = s + 1 := by omega
      rw [ha, Option.some_or]
    · rw [h (s + 1) (by omega) (le_refl _), Option.none_or, ih hs fun t' ht hs' => h t' ht (by omega)]

/-- The layers hold the writes `W` and nothing else, up to first writes of `d`. -/
structure Layered (L : ℕ → ι → Option α) (d : α) (W : Writes ι ℕ α) : Prop where
  sound : ∀ t i a, L t i = some a → W i t a
  complete : ∀ i t a, W i t a → L t i = some a ∨ L t i = none ∧ a = d ∧ ∀ t' b, W i t' b → t ≤ t'

theorem Layered.congr {d : α} {W W' : Writes ι ℕ α} (h : Layered L d W) (hW : ∀ i t a, W i t a ↔ W' i t a) :
    Layered L d W' where
  sound t i a ha := (hW i t a).1 (h.sound t i a ha)
  complete i t a ha := by
    rcases h.complete i t a ((hW i t a).2 ha) with hL | ⟨hL, hd, hfirst⟩
    · exact .inl hL
    · exact .inr ⟨hL, hd, fun t' b hb => hfirst t' b ((hW i t' b).2 hb)⟩

/-- **Layers searched backward answer as of a time**, with `d` for what was never written. -/
theorem lookback_getD {d : α} {W : Writes ι ℕ α} (h : Layered L d W) {i : ι} {s : ℕ} {r : Option α}
    (hr : AsOf W i s r) : (lookback L i s).getD d = r.getD d := by
  have hempty : ∀ t, (∀ a, ¬ W i t a) → L t i = none := by
    intro t ht
    by_contra hne
    obtain ⟨a, ha⟩ := Option.ne_none_iff_exists'.1 hne
    exact ht a (h.sound t i a ha)
  cases r with
  | none =>
    rw [asOf_none] at hr
    rw [lookback_none fun t ht => hempty t fun a ha => hr t a ha ht]
  | some a =>
    obtain ⟨t, ha, hle, hmax⟩ := asOf_some.1 hr
    have hafter : ∀ t', t < t' → t' ≤ s → L t' i = none := fun t' htt hs =>
      hempty t' fun b hb => by have := hmax t' b hb hs; omega
    rcases h.complete i t a ha with hL | ⟨hL, rfl, hfirst⟩
    · rw [lookback_some hL hle hafter]
    · -- the only write up to `s` is the one left out
      have hall : ∀ t' ≤ s, L t' i = none := by
        intro t' hs
        rcases Nat.lt_trichotomy t' t with hlt | rfl | hgt
        · exact hempty t' fun b hb => by have := hfirst t' b hb; omega
        · exact hL
        · exact hafter t' hgt hs
      rw [lookback_none hall, Option.getD_none, Option.getD_some]

end Versioned
