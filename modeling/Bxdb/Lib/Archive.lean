import Bxdb.Lib.Versioned
import Mathlib.Data.List.Induction
import Mathlib.Order.ConditionallyCompleteLattice.Basic

/-!
# A journal and its catalogue

Versions are recorded in a journal. A catalogue may be published of it; readers then look
into the catalogue alone, and the journal may be restored from it. Trimming drops what
readers see above a time, and writes both anew when there is something to drop.

* `read_trim`: readers see the past as it was up to the time of the trim.
* `run_sound`: **nothing is seen that was not recorded.**
* `run_careful`: **when the journal is trimmed and restored only in step with the
  catalogue, publishing and restoring are unseen**, and what is left is what was recorded
  and not trimmed since.
-/

open Versioned

structure Archive (ι σ α : Type*) where
  journal : Writes ι σ α
  catalogue : Option (Writes ι σ α)

namespace Archive

variable {ι σ α : Type*} [LinearOrder σ]

/-- Something was written after `t`. -/
def Above (t : σ) (W : Writes ι σ α) : Prop := ∃ i s x, W i s x ∧ t < s

omit [LinearOrder σ] in
/-- What readers see. -/
def read (a : Archive ι σ α) : Writes ι σ α := a.catalogue.getD a.journal

inductive Event (ι σ α : Type*)
  | record (W : Writes ι σ α)
  | publish
  | restore
  | trim (t : σ)

def empty : Archive ι σ α := ⟨⊥, none⟩

open Classical in
noncomputable def trim (t : σ) (a : Archive ι σ α) : Archive ι σ α :=
  if Above t a.read then ⟨upTo t a.read, a.catalogue.map fun _ => upTo t a.read⟩ else a

noncomputable def step (a : Archive ι σ α) : Event ι σ α → Archive ι σ α
  | .record W => ⟨a.journal ⊔ W, a.catalogue⟩
  | .publish => ⟨a.journal, some a.journal⟩
  | .restore => ⟨a.read, a.catalogue⟩
  | .trim t => a.trim t

noncomputable def run (es : List (Event ι σ α)) : Archive ι σ α := es.foldl step empty

/-- The catalogue, if there is one, has what the journal has. -/
def InStep (a : Archive ι σ α) : Prop := a.read = a.journal

variable {a : Archive ι σ α} {W : Writes ι σ α} {es : List (Event ι σ α)} {t : σ}

theorem run_concat (es : List (Event ι σ α)) (e : Event ι σ α) : run (es ++ [e]) = (run es).step e := by
  unfold run
  rw [List.foldl_append]
  rfl

/-! ## What readers see after one step -/

theorem upTo_of_not_above (h : ¬ Above t W) : upTo t W = W := by
  funext i s x
  refine propext ⟨fun hw => hw.1, fun hw => ⟨hw, ?_⟩⟩
  by_contra hlt
  exact h ⟨i, s, x, hw, not_le.1 hlt⟩

/-- **A trim shows the past up to its time**, whether there was something to drop or not. -/
theorem read_trim (a : Archive ι σ α) (t : σ) : (a.trim t).read = upTo t a.read := by
  unfold trim
  by_cases h : Above t a.read
  · rw [if_pos h]
    unfold read
    cases a.catalogue with
    | none => rfl
    | some W => rfl
  · rw [if_neg h, upTo_of_not_above h]

@[simp] theorem read_publish (a : Archive ι σ α) : (a.step .publish).read = a.journal := rfl

@[simp] theorem read_restore (a : Archive ι σ α) : (a.step .restore).read = a.read := by
  unfold step read
  cases a.catalogue with
  | none => rfl
  | some W => rfl

/-- Readers of a catalogue do not see what is recorded after it. -/
theorem read_record (a : Archive ι σ α) (W : Writes ι σ α) :
    (a.step (.record W)).read = if a.catalogue = none then a.journal ⊔ W else a.read := by
  unfold step read
  cases a.catalogue with
  | none => rfl
  | some W' => rfl

/-! ## Nothing is made up -/

/-- What was recorded. -/
def recorded (es : List (Event ι σ α)) : Writes ι σ α := fun i s x => ∃ W, Event.record W ∈ es ∧ W i s x

omit [LinearOrder σ] in
theorem recorded_mono {es' : List (Event ι σ α)} (h : es ⊆ es') : recorded es ≤ recorded es' := by
  rintro i s x ⟨W, hW, hx⟩
  exact ⟨W, h hW, hx⟩

theorem upTo_le (t : σ) (W : Writes ι σ α) : upTo t W ≤ W := fun _ _ _ h => h.1

theorem step_le {R : Writes ι σ α} (hj : a.journal ≤ R) (hr : a.read ≤ R) {e : Event ι σ α}
    (he : ∀ W, e = .record W → W ≤ R) : (a.step e).journal ≤ R ∧ (a.step e).read ≤ R := by
  cases e with
  | record W =>
    have hw := he W rfl
    refine ⟨sup_le hj hw, ?_⟩
    rw [read_record]
    split
    · exact sup_le hj hw
    · exact hr
  | publish => exact ⟨hj, hj⟩
  | restore =>
    rw [read_restore]
    exact ⟨hr, hr⟩
  | trim t =>
    have hup := (upTo_le t a.read).trans hr
    refine ⟨?_, (read_trim a t).le.trans hup⟩
    change (a.trim t).journal ≤ R
    unfold trim
    split
    · exact hup
    · exact hj

/-- **Nothing is seen that was not recorded.** -/
theorem run_sound (es : List (Event ι σ α)) : (run es).journal ≤ recorded es ∧ (run es).read ≤ recorded es := by
  induction es using List.reverseRecOn with
  | nil => exact ⟨bot_le, bot_le⟩
  | append_singleton es e ih =>
    have hmono := recorded_mono (List.subset_append_left es [e])
    rw [run_concat]
    refine step_le (ih.1.trans hmono) (ih.2.trans hmono) fun W hW i s x hx => ?_
    exact ⟨W, List.mem_append_right _ (by rw [hW]; exact List.mem_singleton_self _), hx⟩

/-! ## Care -/

/-- What is left of a journal that is recorded to and trimmed. -/
def keep (W : Writes ι σ α) : Event ι σ α → Writes ι σ α
  | .record W' => W ⊔ W'
  | .publish => W
  | .restore => W
  | .trim t => upTo t W

def kept (es : List (Event ι σ α)) : Writes ι σ α := es.foldl keep ⊥

theorem kept_concat (es : List (Event ι σ α)) (e : Event ι σ α) : kept (es ++ [e]) = keep (kept es) e := by
  unfold kept
  rw [List.foldl_append]
  rfl

omit [LinearOrder σ] in
/-- The steps that write the journal anew from what readers see. -/
def Event.Rewrites : Event ι σ α → Prop
  | .restore => True
  | .trim _ => True
  | _ => False

/-- The journal is rewritten only when the catalogue is in step with it. -/
def Careful (es : List (Event ι σ α)) : Prop := ∀ pre e, pre ++ [e] <+: es → e.Rewrites → (run pre).InStep

theorem Careful.init {e : Event ι σ α} (h : Careful (es ++ [e])) : Careful es :=
  fun pre e' hp => h pre e' (hp.trans (List.prefix_append _ _))

/-- What is done in step keeps the two in step. -/
theorem InStep.trim (h : a.InStep) (t : σ) : (a.trim t).InStep ∧ (a.trim t).journal = upTo t a.journal := by
  unfold InStep at h ⊢
  rw [read_trim, h]
  unfold Archive.trim
  by_cases hab : Above t a.read
  · rw [if_pos hab, h]
    exact ⟨rfl, rfl⟩
  · rw [if_neg hab]
    rw [h] at hab
    rw [upTo_of_not_above hab]
    exact ⟨rfl, rfl⟩

theorem inStep_publish (a : Archive ι σ α) : (a.step .publish).InStep := rfl

theorem InStep.restore (h : a.InStep) : (a.step .restore).journal = a.journal := h

theorem inStep_restore (a : Archive ι σ α) : (a.step .restore).InStep := read_restore a

omit [LinearOrder σ] in
theorem inStep_of_none (h : a.catalogue = none) : a.InStep := by
  unfold InStep read
  rw [h]
  rfl

/-- **With care the journal is what was recorded and not trimmed since.** -/
theorem journal_careful (h : Careful es) : (run es).journal = kept es := by
  induction es using List.reverseRecOn with
  | nil => rfl
  | append_singleton es e ih =>
    have ih := ih h.init
    have hin := h es e (List.prefix_refl _)
    rw [run_concat, kept_concat, ← ih]
    cases e with
    | record W => rfl
    | publish => rfl
    | restore => exact (hin trivial).restore
    | trim t => exact ((hin trivial).trim t).2

/-- **With care, publishing and restoring are unseen.** -/
theorem run_careful (h : Careful es) (hin : (run es).InStep) : (run es).read = kept es :=
  Eq.trans hin (journal_careful h)

end Archive
