import Mathlib.Logic.Function.Basic
import Mathlib.Logic.Relation
import Mathlib.Data.Fintype.EquivFin

/-!
# Threads over locked resources

Each resource has a lock of its own, which many threads hold to read or one thread holds to
write. A thread runs one critical section after the other, one access at a time, and any
thread may take the next step.

* `Run.atomic`: **every run is a run in which each critical section is one step**, when the
  sections that share a lock only read.
* `Run.ok`: nobody is where a writer is.
* `exists_done`: from wherever a run has got to, every thread can still reach its end.
-/

namespace Locks

/-- A critical section. Each access reads the resource, and writes it. -/
inductive Body (σ ρ : Type)
  | ret (result : ρ)
  | access (write : σ → σ) (next : σ → Body σ ρ)

namespace Body

variable {σ ρ : Type}

/-- The section with nobody else about. -/
def run : Body σ ρ → σ → σ × ρ
  | ret r, s => (s, r)
  | access w next, s => (next s).run (w s)

def ReadOnly : Body σ ρ → Prop
  | ret _ => True
  | access w next => (∀ s, w s = s) ∧ ∀ s, (next s).ReadOnly

theorem ReadOnly.run : ∀ {b : Body σ ρ}, b.ReadOnly → ∀ s, (b.run s).1 = s
  | ret _, _, _ => rfl
  | access w next, h, s => by
    unfold Body.run
    rw [h.1 s]
    exact (h.2 s).run s

end Body

inductive Mode
  | shared
  | exclusive
  deriving DecidableEq

/-- What a thread does until it returns. -/
inductive Thread {ι : Type} (σ : ι → Type) (α : Type) : Type 1
  | done (result : α)
  | pause (next : Thread σ α)
  | lock {ρ : Type} (i : ι) (mode : Mode) (body : Body (σ i) ρ) (next : ρ → Thread σ α)

/-- Where a thread stands: outside, or in a section with the rest of it to run. -/
inductive Status {ι : Type} (σ : ι → Type) (α : Type) : Type 1
  | idle (thread : Thread σ α)
  | inside {ρ : Type} (i : ι) (mode : Mode) (rest : Body (σ i) ρ) (next : ρ → Thread σ α)

variable {ι κ α : Type} {σ : ι → Type}

/-- It takes locks of `R` only, and only reads where it shares one. -/
def Thread.Disciplined (R : ι → Prop) : Thread σ α → Prop
  | .done _ => True
  | .pause next => next.Disciplined R
  | .lock i m body next => R i ∧ (m = .shared → body.ReadOnly) ∧ ∀ r, (next r).Disciplined R

namespace Status

/-- The lock a thread holds. -/
def holds : Status σ α → Option (ι × Mode)
  | .idle _ => none
  | .inside i m _ _ => some (i, m)

def Disciplined (R : ι → Prop) : Status σ α → Prop
  | .idle th => th.Disciplined R
  | .inside i m rest next => R i ∧ (m = .shared → rest.ReadOnly) ∧ ∀ r, (next r).Disciplined R

/-- The thread once it has left its section. -/
def left (st : ∀ i, σ i) : Status σ α → Thread σ α
  | .idle th => th
  | .inside i _ rest next => next (rest.run (st i)).2

end Status

/-- The threads, and the resources. -/
structure Config (κ : Type) {ι : Type} (σ : ι → Type) (α : Type) where
  threads : κ → Status σ α
  st : ∀ i, σ i

/-- The same between sections. -/
structure Atomic (κ : Type) {ι : Type} (σ : ι → Type) (α : Type) where
  threads : κ → Thread σ α
  st : ∀ i, σ i

def Atomic.config (a : Atomic κ σ α) : Config κ σ α := ⟨fun k => .idle (a.threads k), a.st⟩

/-- What holds in every run: a writer is alone, and every thread keeps to its locks. -/
structure Ok (R : ι → Prop) (c : Config κ σ α) : Prop where
  alone : ∀ k k' i m, (c.threads k).holds = some (i, .exclusive) → (c.threads k').holds = some (i, m) → k' = k
  each : ∀ k, (c.threads k).Disciplined R

theorem ok_config {R : ι → Prop} {a : Atomic κ σ α} (h : ∀ k, (a.threads k).Disciplined R) : Ok R a.config where
  alone := fun k k' i m hk => by cases hk
  each := h

section Update

variable [DecidableEq κ] {R : ι → Prop} {c : Config κ σ α}

/-- What stays true of every thread when one takes a step. -/
theorem forall_update {P : Status σ α → Prop} (h : ∀ k, P (c.threads k)) (k : κ) {s : Status σ α} (hs : P s) :
    ∀ k', P (Function.update c.threads k s k') := by
  intro k'
  rw [Function.update_apply]
  split
  · exact hs
  · exact h k'

/-- One thread has moved, the others are as they were. -/
theorem forall_left {A : κ → Thread σ α} {threads : κ → Status σ α} {st : ∀ i, σ i} {k : κ} {s : Status σ α}
    (hk : A k = s.left st) (hothers : ∀ k', k' ≠ k → A k' = (threads k').left st) :
    ∀ k', A k' = (Function.update threads k s k').left st := by
  intro k'
  rw [Function.update_apply]
  split
  · rename_i hkk
    rw [hkk, hk]
  · rename_i hne
    exact hothers k' hne

/-- A thread that takes no lock leaves the others alone. -/
theorem Ok.alone_update (h : Ok R c) (k : κ) {s : Status σ α}
    (hs : ∀ e, s.holds = some e → (c.threads k).holds = some e) : ∀ k₁ k₂ i m,
    (Function.update c.threads k s k₁).holds = some (i, .exclusive) →
    (Function.update c.threads k s k₂).holds = some (i, m) → k₂ = k₁ := by
  have hback : ∀ k' e, (Function.update c.threads k s k').holds = some e → (c.threads k').holds = some e := by
    intro k' e he
    rw [Function.update_apply] at he
    split at he
    · rename_i hk
      rw [hk]
      exact hs e he
    · exact he
  exact fun k₁ k₂ i m h₁ h₂ => h.alone k₁ k₂ i m (hback k₁ _ h₁) (hback k₂ _ h₂)

end Update

/-- The resource `i` is `x` now, and will be `y` once its writer has left. -/
def Settles (threads : κ → Status σ α) (i : ι) (x y : σ i) : Prop :=
  y = x ∧ (∀ k, (threads k).holds ≠ some (i, .exclusive)) ∨
    ∃ (k : κ) (ρ : Type) (rest : Body (σ i) ρ) (next : ρ → Thread σ α),
      threads k = .inside i .exclusive rest next ∧ y = (rest.run x).1

/-- A resource without a writer is what it will be. -/
theorem Settles.free {threads : κ → Status σ α} {i : ι} {x y : σ i} (h : Settles threads i x y)
    (hfree : ∀ k, (threads k).holds ≠ some (i, .exclusive)) : y = x := by
  rcases h with ⟨rfl, -⟩ | ⟨k, ρ, rest, next, hk, -⟩
  · rfl
  · refine absurd ?_ (hfree k)
    rw [hk]
    rfl

/-- What becomes of a resource is up to the writer in it. -/
theorem Settles.mine {R : ι → Prop} {c : Config κ σ α} {i : ι} {x y : σ i} {k : κ} {ρ : Type} {rest : Body (σ i) ρ}
    {next : ρ → Thread σ α}
    (h : Settles c.threads i x y) (hok : Ok R c) (hk : c.threads k = .inside i .exclusive rest next) :
    y = (rest.run x).1 := by
  rcases h with ⟨-, hfree⟩ | ⟨k', ρ', rest', next', hk', hval⟩
  · refine absurd ?_ (hfree k)
    rw [hk]
    rfl
  · obtain rfl : k' = k := hok.alone k k' i .exclusive (by rw [hk]; rfl) (by rw [hk']; rfl)
    rw [hk] at hk'
    cases hk'
    exact hval

/-- Each thread as it will be once it has left its section, and each resource likewise. -/
structure Sim (c : Config κ σ α) (a : Atomic κ σ α) : Prop where
  threads : ∀ k, a.threads k = (c.threads k).left c.st
  st : ∀ i, Settles c.threads i (c.st i) (a.st i)

theorem sim_config (a : Atomic κ σ α) : Sim a.config a where
  threads := fun _ => rfl
  st := fun _ => .inl ⟨rfl, by intro k hk; cases hk⟩

/-- Between sections the two are the same. -/
theorem Sim.quiet {c : Config κ σ α} {a : Atomic κ σ α} (h : Sim c a) (hquiet : ∀ k, (c.threads k).holds = none) :
    c = a.config := by
  obtain ⟨threads, st⟩ := c
  have hst : a.st = st := funext fun i => (h.st i).free fun k hk => by
    rw [hquiet k] at hk
    cases hk
  have hthreads : threads = fun k => .idle (a.threads k) := by
    funext k
    rw [h.threads k]
    cases hs : threads k with
    | idle th => dsimp only; rw [hs]; rfl
    | inside i m rest next =>
      have := hquiet k
      dsimp only at this
      rw [hs] at this
      cases this
  unfold Atomic.config
  rw [hst, ← hthreads]

section Settles

variable [DecidableEq κ] {threads : κ → Status σ α} {i : ι} {x y : σ i} {k : κ} {s : Status σ α}

/-- A thread that does not write to a resource does not change what becomes of it. -/
theorem Settles.update (h : Settles threads i x y) (hold : (threads k).holds ≠ some (i, .exclusive))
    (hnew : s.holds ≠ some (i, .exclusive)) : Settles (Function.update threads k s) i x y := by
  rcases h with ⟨rfl, hfree⟩ | ⟨k', ρ, rest, next, hk', rfl⟩
  · refine .inl ⟨rfl, fun k' => ?_⟩
    rw [Function.update_apply]
    split
    · exact hnew
    · exact hfree k'
  · have hne : k' ≠ k := by
      rintro rfl
      rw [hk'] at hold
      exact hold rfl
    exact .inr ⟨k', ρ, rest, next, by rw [Function.update_of_ne hne]; exact hk', rfl⟩

theorem settles_writer {ρ : Type} {rest : Body (σ i) ρ} {next : ρ → Thread σ α} :
    Settles (Function.update threads k (.inside i .exclusive rest next)) i x (rest.run x).1 :=
  .inr ⟨k, ρ, rest, next, Function.update_self .., rfl⟩

/-- Another resource makes no difference to the thread inside this one. -/
theorem Status.left_update [DecidableEq ι] {st : ∀ i, σ i} (h : ∀ m, s.holds ≠ some (i, m)) :
    s.left (Function.update st i x) = s.left st := by
  cases s with
  | idle th => rfl
  | inside j m rest next =>
    have hne : j ≠ i := by
      rintro rfl
      exact h m rfl
    change next (rest.run (Function.update st i x j)).2 = _
    rw [Function.update_of_ne hne]
    rfl

end Settles

variable [DecidableEq κ] [DecidableEq ι]

/-- One thread takes its next step. -/
inductive Step : Config κ σ α → Config κ σ α → Prop
  | pause {c : Config κ σ α} {k : κ} {next : Thread σ α} (h : c.threads k = .idle (.pause next)) :
      Step c ⟨Function.update c.threads k (.idle next), c.st⟩
  | enter {c : Config κ σ α} {k : κ} {ρ : Type} {i : ι} {m : Mode} {body : Body (σ i) ρ} {next : ρ → Thread σ α}
      (h : c.threads k = .idle (.lock i m body next))
      (hfree : ∀ k' m', (c.threads k').holds = some (i, m') → m = .shared ∧ m' = .shared) :
      Step c ⟨Function.update c.threads k (.inside i m body next), c.st⟩
  | access {c : Config κ σ α} {k : κ} {ρ : Type} {i : ι} {m : Mode} {write : σ i → σ i} {rest : σ i → Body (σ i) ρ}
      {next : ρ → Thread σ α} (h : c.threads k = .inside i m (.access write rest) next) :
      Step c ⟨Function.update c.threads k (.inside i m (rest (c.st i)) next), Function.update c.st i (write (c.st i))⟩
  | leave {c : Config κ σ α} {k : κ} {ρ : Type} {i : ι} {m : Mode} {r : ρ} {next : ρ → Thread σ α}
      (h : c.threads k = .inside i m (.ret r) next) : Step c ⟨Function.update c.threads k (.idle (next r)), c.st⟩

/-- One thread takes its next step, a whole section at once. -/
inductive AtomicStep : Atomic κ σ α → Atomic κ σ α → Prop
  | pause {a : Atomic κ σ α} {k : κ} {next : Thread σ α} (h : a.threads k = .pause next) :
      AtomicStep a ⟨Function.update a.threads k next, a.st⟩
  | lock {a : Atomic κ σ α} {k : κ} {ρ : Type} {i : ι} {m : Mode} {body : Body (σ i) ρ} {next : ρ → Thread σ α}
      (h : a.threads k = .lock i m body next) :
      AtomicStep a ⟨Function.update a.threads k (next (body.run (a.st i)).2),
        Function.update a.st i (body.run (a.st i)).1⟩

abbrev Run : Config κ σ α → Config κ σ α → Prop := Relation.ReflTransGen Step

abbrev AtomicRun : Atomic κ σ α → Atomic κ σ α → Prop := Relation.ReflTransGen AtomicStep

/-! ## Every run -/

section Runs

variable {R : ι → Prop} {c c' : Config κ σ α} {a : Atomic κ σ α}

theorem Step.ok (hstep : Step c c') (h : Ok R c) : Ok R c' := by
  cases hstep with
  | @pause k next hk =>
    have heach := h.each k
    rw [hk] at heach
    exact ⟨h.alone_update k (by intro e he; cases he), forall_update h.each k heach⟩
  | @enter k ρ i m body next hk hfree =>
    have heach := h.each k
    rw [hk] at heach
    -- two holders of one lock: the one that enters found it free
    refine ⟨fun k₁ k₂ j m' h₁ h₂ => ?_, forall_update h.each k heach⟩
    dsimp only at h₁ h₂
    rw [Function.update_apply] at h₁ h₂
    split at h₁
    · rename_i hk₁
      obtain ⟨rfl, rfl⟩ := Prod.mk.inj (Option.some.inj h₁)
      split at h₂
      · rename_i hk₂
        rw [hk₁, hk₂]
      · cases (hfree k₂ m' h₂).1
    · split at h₂
      · obtain ⟨rfl, rfl⟩ := Prod.mk.inj (Option.some.inj h₂)
        cases (hfree k₁ _ h₁).2
      · exact h.alone k₁ k₂ j m' h₁ h₂
  | @access k ρ i m w rest next hk =>
    have heach := h.each k
    rw [hk] at heach
    refine ⟨h.alone_update k fun e he => by rw [hk]; exact he, forall_update h.each k ⟨heach.1, fun hm => ?_, heach.2.2⟩⟩
    exact (heach.2.1 hm).2 _
  | @leave k ρ i m r next hk =>
    have heach := h.each k
    rw [hk] at heach
    refine ⟨h.alone_update k (by intro e he; cases he), forall_update h.each k ?_⟩
    exact heach.2.2 r

/-- **Nobody is where a writer is**, after any steps. -/
theorem Run.ok (hrun : Run c c') (h : Ok R c) : Ok R c' := by
  induction hrun with
  | refl => exact h
  | tail _ hstep ih => exact hstep.ok ih

/-! ## Sections as one step -/

section Sections

variable {k : κ} {ρ : Type} {i : ι} {m : Mode} {next : ρ → Thread σ α}

theorem Sim.pause {next : Thread σ α} (h : Sim c a) (hk : c.threads k = .idle (.pause next)) :
    ∃ a', AtomicStep a a' ∧ Sim ⟨Function.update c.threads k (.idle next), c.st⟩ a' := by
  have hak : a.threads k = .pause next := by rw [h.threads k, hk]; rfl
  refine ⟨_, .pause hak, forall_left (Function.update_self ..) fun k' hne => ?_,
    fun i => (h.st i).update (by rw [hk]; nofun) nofun⟩
  dsimp only
  rw [Function.update_of_ne hne]
  exact h.threads k'

/-- The section is run as a whole when it is entered. -/
theorem Sim.enter {body : Body (σ i) ρ} (hok : Ok R c) (h : Sim c a) (hk : c.threads k = .idle (.lock i m body next))
    (hfree : ∀ k' m', (c.threads k').holds = some (i, m') → m = .shared ∧ m' = .shared) :
    ∃ a', AtomicStep a a' ∧ Sim ⟨Function.update c.threads k (.inside i m body next), c.st⟩ a' := by
  have hak : a.threads k = .lock i m body next := by rw [h.threads k, hk]; rfl
  have hsame : a.st i = c.st i := (h.st i).free fun k' hk' => by cases (hfree k' _ hk').2
  refine ⟨_, .lock hak, forall_left ?_ fun k' hne => ?_, fun j => ?_⟩
  · dsimp only
    rw [Function.update_self, hsame]
    rfl
  · dsimp only
    rw [Function.update_of_ne hne]
    exact h.threads k'
  dsimp only
  by_cases hj : j = i
  · subst hj
    rw [Function.update_self, hsame]
    cases m with
    | exclusive => exact settles_writer
    | shared =>
      have heach := hok.each k
      rw [hk] at heach
      -- a shared section only reads, so doing it at once changes nothing
      rw [(heach.2.1 rfl).run]
      have hsettles := h.st j
      rw [hsame] at hsettles
      exact hsettles.update (by rw [hk]; nofun) (by intro he; cases he)
  · rw [Function.update_of_ne hj]
    refine (h.st j).update (by rw [hk]; nofun) fun he => hj ?_
    exact (Prod.mk.inj (Option.some.inj he)).1.symm

/-- A reader changes nothing. -/
theorem Sim.read {write : σ i → σ i} {rest : σ i → Body (σ i) ρ} (hok : Ok R c) (h : Sim c a)
    (hk : c.threads k = .inside i .shared (.access write rest) next) :
    Sim ⟨Function.update c.threads k (.inside i .shared (rest (c.st i)) next),
      Function.update c.st i (write (c.st i))⟩ a := by
  have hak := h.threads k
  have heach := hok.each k
  rw [hk] at hak heach
  have hid : write (c.st i) = c.st i := (heach.2.1 rfl).1 _
  rw [hid, Function.update_eq_self]
  refine ⟨forall_left ?_ fun k' _ => h.threads k',
    fun j => (h.st j).update (by rw [hk]; intro he; cases he) (by intro he; cases he)⟩
  rw [hak]
  change next ((rest (c.st i)).run (write (c.st i))).2 = next ((rest (c.st i)).run (c.st i)).2
  rw [hid]

/-- A writer comes nearer to what the resource will be. -/
theorem Sim.write {write : σ i → σ i} {rest : σ i → Body (σ i) ρ} (hok : Ok R c) (h : Sim c a)
    (hk : c.threads k = .inside i .exclusive (.access write rest) next) :
    Sim ⟨Function.update c.threads k (.inside i .exclusive (rest (c.st i)) next),
      Function.update c.st i (write (c.st i))⟩ a := by
  have hak := h.threads k
  rw [hk] at hak
  -- nobody else is inside
  have halone : ∀ k', k' ≠ k → ∀ m', (c.threads k').holds ≠ some (i, m') := fun k' hne m' hk' =>
    hne (hok.alone k k' i m' (by rw [hk]; rfl) hk')
  refine ⟨forall_left ?_ fun k' hne => ?_, fun j => ?_⟩
  · rw [hak]
    change next ((rest (c.st i)).run (write (c.st i))).2 =
      next ((rest (c.st i)).run (Function.update c.st i (write (c.st i)) i)).2
    rw [Function.update_self]
  · rw [h.threads k', Status.left_update (halone k' hne)]
  dsimp only
  by_cases hj : j = i
  · subst hj
    rw [Function.update_self, (h.st j).mine hok hk]
    exact settles_writer
  · rw [Function.update_of_ne hj]
    have hne : some (i, Mode.exclusive) ≠ some (j, .exclusive) := fun he => hj (Prod.mk.inj (Option.some.inj he)).1.symm
    exact (h.st j).update (by rw [hk]; exact hne) hne

theorem Sim.leave {r : ρ} (hok : Ok R c) (h : Sim c a) (hk : c.threads k = .inside i m (.ret r) next) :
    Sim ⟨Function.update c.threads k (.idle (next r)), c.st⟩ a := by
  have hak := h.threads k
  rw [hk] at hak
  refine ⟨forall_left hak fun k' _ => h.threads k', fun j => ?_⟩
  by_cases hw : (c.threads k).holds = some (j, .exclusive)
  · -- the writer has nothing left to do
    rw [hk] at hw
    obtain ⟨rfl, rfl⟩ := Prod.mk.inj (Option.some.inj hw)
    refine .inl ⟨(h.st i).mine hok hk, fun k' => ?_⟩
    dsimp only
    rw [Function.update_apply]
    split
    · nofun
    · rename_i hne
      exact fun hk' => hne (hok.alone k k' i .exclusive (by rw [hk]; rfl) hk')
  · exact (h.st j).update hw (by nofun)

end Sections

/-- **Entering a section is its one step**; the accesses and the leaving are none. -/
theorem Step.sim (hstep : Step c c') (hok : Ok R c) (h : Sim c a) :
    ∃ a', (a' = a ∨ AtomicStep a a') ∧ Sim c' a' := by
  cases hstep with
  | pause hk =>
    obtain ⟨a', hstep, hsim⟩ := h.pause hk
    exact ⟨a', .inr hstep, hsim⟩
  | enter hk hfree =>
    obtain ⟨a', hstep, hsim⟩ := h.enter hok hk hfree
    exact ⟨a', .inr hstep, hsim⟩
  | @access k ρ i m write rest next hk =>
    cases m with
    | shared => exact ⟨a, .inl rfl, h.read hok hk⟩
    | exclusive => exact ⟨a, .inl rfl, h.write hok hk⟩
  | leave hk => exact ⟨a, .inl rfl, h.leave hok hk⟩

/-- **Every run is a run of whole sections.** -/
theorem Run.atomic (hrun : Run a.config c) (hok : ∀ k, (a.threads k).Disciplined R) :
    ∃ a', AtomicRun a a' ∧ Sim c a' := by
  induction hrun with
  | refl => exact ⟨a, .refl, sim_config a⟩
  | @tail c c' hrun hstep ih =>
    obtain ⟨a', harun, hsim⟩ := ih
    obtain ⟨a'', hcase, hsim'⟩ := hstep.sim (Run.ok hrun (ok_config hok)) hsim
    rcases hcase with rfl | hastep
    · exact ⟨_, harun, hsim'⟩
    · exact ⟨_, harun.tail hastep, hsim'⟩

/-! ## No deadlock -/

/-- A thread in its section can finish it, whatever the others do. -/
theorem run_body {i : ι} {m : Mode} {ρ : Type} {next : ρ → Thread σ α} (body : Body (σ i) ρ) :
    ∀ {c : Config κ σ α} {k : κ}, c.threads k = .inside i m body next →
      ∃ r st, Run c ⟨Function.update c.threads k (.idle (next r)), st⟩ := by
  induction body with
  | ret r => exact fun {c} {k} hk => ⟨r, c.st, .single (.leave hk)⟩
  | access w rest ih =>
    intro c k hk
    obtain ⟨r, st, hrun⟩ := ih (c.st i) (c := ⟨Function.update c.threads k (.inside i m (rest (c.st i)) next),
      Function.update c.st i (w (c.st i))⟩) (k := k) (Function.update_self ..)
    dsimp only at hrun
    rw [Function.update_idem] at hrun
    exact ⟨r, st, .head (.access hk) hrun⟩

/-- A thread can run to its end while the others wait outside. -/
theorem run_thread (th : Thread σ α) : ∀ {c : Config κ σ α} {k : κ}, c.threads k = .idle th →
    (∀ k', (c.threads k').holds = none) → ∃ r st, Run c ⟨Function.update c.threads k (.idle (.done r)), st⟩ := by
  induction th with
  | done r =>
    intro c k hk _
    exact ⟨r, c.st, by rw [← hk, Function.update_eq_self]⟩
  | pause next ih =>
    intro c k hk hout
    obtain ⟨r, st, hrun⟩ := ih (c := ⟨Function.update c.threads k (.idle next), c.st⟩) (k := k) (Function.update_self ..)
      (forall_update (P := fun s => s.holds = none) hout k rfl)
    dsimp only at hrun
    rw [Function.update_idem] at hrun
    exact ⟨r, st, .head (.pause hk) hrun⟩
  | lock i m body next ih =>
    intro c k hk hout
    have hstep := Step.enter hk fun k' m' h => by
      rw [hout k'] at h
      cases h
    obtain ⟨r, st, hbody⟩ := run_body body (c := ⟨Function.update c.threads k (.inside i m body next), c.st⟩) (k := k)
      (Function.update_self ..)
    dsimp only at hbody
    rw [Function.update_idem] at hbody
    obtain ⟨r', st', hrun⟩ := ih r (c := ⟨Function.update c.threads k (.idle (next r)), st⟩) (k := k)
      (Function.update_self ..) (forall_update (P := fun s => s.holds = none) hout k rfl)
    dsimp only at hrun
    rw [Function.update_idem] at hrun
    exact ⟨r', st', (Relation.ReflTransGen.head hstep hbody).trans hrun⟩

/-- Threads can leave their sections, one after the other. -/
theorem run_out (ks : List κ) : ∀ c : Config κ σ α, (∀ k, k ∉ ks → (c.threads k).holds = none) →
    ∃ c', Run c c' ∧ ∀ k, (c'.threads k).holds = none := by
  induction ks with
  | nil => exact fun c h => ⟨c, .refl, fun k => h k List.not_mem_nil⟩
  | cons k ks ih =>
    intro c h
    cases hs : c.threads k with
    | idle th =>
      refine ih c fun k' hk' => ?_
      by_cases hkk : k' = k
      · rw [hkk, hs]
        rfl
      · exact h k' fun hmem => (List.mem_cons.1 hmem).elim hkk hk'
    | inside i m body next =>
      obtain ⟨r, st, hrun⟩ := run_body body hs
      obtain ⟨c', hrest, hout⟩ := ih ⟨Function.update c.threads k (.idle (next r)), st⟩ fun k' hk' => by
        dsimp only
        rw [Function.update_apply]
        split
        · rfl
        · rename_i hkk
          exact h k' fun hmem => (List.mem_cons.1 hmem).elim hkk hk'
      exact ⟨c', hrun.trans hrest, hout⟩

/-- Threads can run to their end, one after the other. -/
theorem run_done (ks : List κ) : ∀ c : Config κ σ α, (∀ k, (c.threads k).holds = none) →
    (∀ k, k ∉ ks → ∃ r, c.threads k = .idle (.done r)) →
    ∃ c', Run c c' ∧ ∀ k, ∃ r, c'.threads k = .idle (.done r) := by
  induction ks with
  | nil => exact fun c _ h => ⟨c, .refl, fun k => h k List.not_mem_nil⟩
  | cons k ks ih =>
    intro c hout h
    cases hs : c.threads k with
    | inside i m body next =>
      have := hout k
      rw [hs] at this
      cases this
    | idle th =>
      obtain ⟨r, st, hrun⟩ := run_thread th hs hout
      obtain ⟨c', hrest, hdone⟩ := ih ⟨Function.update c.threads k (.idle (.done r)), st⟩
        (forall_update (P := fun s => s.holds = none) hout k rfl) fun k' hk' => by
          dsimp only
          rw [Function.update_apply]
          split
          · exact ⟨r, rfl⟩
          · rename_i hkk
            exact h k' fun hmem => (List.mem_cons.1 hmem).elim hkk hk'
      exact ⟨c', hrun.trans hrest, hdone⟩

/-- **No deadlock**: from wherever a run has got to, every thread can still reach its end. -/
theorem exists_done [Finite κ] (c : Config κ σ α) : ∃ c', Run c c' ∧ ∀ k, ∃ r, c'.threads k = .idle (.done r) := by
  obtain ⟨ks, hall⟩ := Finite.exists_univ_list κ
  obtain ⟨c₁, hrun₁, hout⟩ := run_out ks c fun k hk => absurd (hall.2 k) hk
  obtain ⟨c₂, hrun₂, hdone⟩ := run_done ks c₁ hout fun k hk => absurd (hall.2 k) hk
  exact ⟨c₂, hrun₁.trans hrun₂, hdone⟩

end Runs

end Locks
