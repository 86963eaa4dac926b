import Mathlib.Data.List.Forall2
import Mathlib.Logic.Relation

/-!
# Threads over a shared memo table

Threads look keys up in one table, compute what they miss and offer it to the others. Each
look-up and each offer is atomic, any thread may take the next step, and the table may drop
whatever it holds.

* `Run.within`: what the table holds was there or was offered.
* `Run.returns`: **when what a thread is handed for a key is what it would compute itself,
  every order of the steps gives each thread the result it has alone.**
* `exists_done`: every thread can be run to its end.
-/

namespace Memo

/-- A table, and the entries a state of it holds. -/
structure Table (τ κ ν : Type*) where
  get : τ → κ → τ × Option ν
  put : τ → κ → ν → τ
  Holds : τ → κ → ν → Prop

/-- It makes up no entry. -/
structure Table.Sound {τ κ ν : Type*} (S : Table τ κ ν) : Prop where
  hit : ∀ {t k v}, (S.get t k).2 = some v → S.Holds t k v
  get : ∀ {t k k' v}, S.Holds (S.get t k).1 k' v → S.Holds t k' v
  put : ∀ {t k v k' v'}, S.Holds (S.put t k v) k' v' → k' = k ∧ v' = v ∨ S.Holds t k' v'

/-- What a thread does with the table until it returns. -/
inductive Thread (κ ν α : Type*)
  | done (result : α)
  | get (key : κ) (next : Option ν → Thread κ ν α)
  | put (key : κ) (value : ν) (next : Thread κ ν α)

variable {τ κ ν α β : Type*}

namespace Thread

def bind : Thread κ ν α → (α → Thread κ ν β) → Thread κ ν β
  | done a, f => f a
  | get k next, f => get k fun hit => (next hit).bind f
  | put k v next, f => put k v (next.bind f)

/-- The thread alone. -/
def run (S : Table τ κ ν) : Thread κ ν α → τ → τ × α
  | done a, t => (t, a)
  | get k next, t => (next (S.get t k).2).run S (S.get t k).1
  | put k v next, t => next.run S (S.put t k v)

/-- It offers entries of `T` only, whatever it is handed. -/
def Offers (T : κ → ν → Prop) : Thread κ ν α → Prop
  | done _ => True
  | get _ next => ∀ hit, (next hit).Offers T
  | put k v next => T k v ∧ next.Offers T

/-- It returns `r` when it is handed entries of `T` only. -/
def Returns (T : κ → ν → Prop) (r : α) : Thread κ ν α → Prop
  | done a => a = r
  | get k next => (next none).Returns T r ∧ ∀ v, T k v → (next (some v)).Returns T r
  | put _ _ next => next.Returns T r

variable {T : κ → ν → Prop} {S : Table τ κ ν} {r : α}

@[simp] theorem run_done (a : α) (t : τ) : (done a : Thread κ ν α).run S t = (t, a) := rfl

@[simp] theorem run_get (k : κ) (next : Option ν → Thread κ ν α) (t : τ) :
    (get k next).run S t = (next (S.get t k).2).run S (S.get t k).1 := rfl

@[simp] theorem run_put (k : κ) (v : ν) (next : Thread κ ν α) (t : τ) :
    (put k v next).run S t = next.run S (S.put t k v) := rfl

theorem Offers.bind {f : α → Thread κ ν β} : ∀ {th : Thread κ ν α}, th.Offers T → (∀ a, (f a).Offers T) →
    (th.bind f).Offers T
  | done a, _, hf => hf a
  | get _ _, h, hf => fun hit => (h hit).bind hf
  | put _ _ _, h, hf => ⟨h.1, h.2.bind hf⟩

theorem Returns.bind {f : α → Thread κ ν β} {r' : β} {th : Thread κ ν α} (h : th.Returns T r)
    (hf : (f r).Returns T r') : (th.bind f).Returns T r' := by
  induction th with
  | done a =>
    obtain rfl : a = r := h
    exact hf
  | get k next ih => exact ⟨ih none h.1, fun v hv => ih (some v) (h.2 v hv)⟩
  | put k v next ih => exact ih h

theorem run_bind (f : α → Thread κ ν β) : ∀ (th : Thread κ ν α) (t : τ),
    (th.bind f).run S t = (f (th.run S t).2).run S (th.run S t).1
  | done _, _ => rfl
  | get k next, t => run_bind f (next (S.get t k).2) (S.get t k).1
  | put k v next, t => run_bind f next (S.put t k v)

end Thread

/-! ## Any order of steps -/

/-- One thread takes its next step. -/
inductive Step (S : Table τ κ ν) : List (Thread κ ν α) × τ → List (Thread κ ν α) × τ → Prop
  | get {threads : List (Thread κ ν α)} {i : ℕ} {k : κ} {next : Option ν → Thread κ ν α} (t : τ)
      (h : threads[i]? = some (.get k next)) :
      Step S (threads, t) (threads.set i (next (S.get t k).2), (S.get t k).1)
  | put {threads : List (Thread κ ν α)} {i : ℕ} {k : κ} {v : ν} {next : Thread κ ν α} (t : τ)
      (h : threads[i]? = some (.put k v next)) : Step S (threads, t) (threads.set i next, S.put t k v)

abbrev Run (S : Table τ κ ν) : List (Thread κ ν α) × τ → List (Thread κ ν α) × τ → Prop :=
  Relation.ReflTransGen (Step S)

/-- Every entry held is in `T`. -/
def Table.Within (S : Table τ κ ν) (T : κ → ν → Prop) (t : τ) : Prop := ∀ k v, S.Holds t k v → T k v

section Steps

variable {S : Table τ κ ν} {T : κ → ν → Prop} {threads threads' : List (Thread κ ν α)} {t t' : τ} {rs : List α}

theorem Table.Sound.within_get (hS : S.Sound) (h : S.Within T t) (k : κ) : S.Within T (S.get t k).1 :=
  fun k' v hv => h k' v (hS.get hv)

theorem Table.Sound.within_put (hS : S.Sound) (h : S.Within T t) {k : κ} {v : ν} (hv : T k v) :
    S.Within T (S.put t k v) := by
  intro k' v' hv'
  rcases hS.put hv' with ⟨rfl, rfl⟩ | hold
  · exact hv
  · exact h k' v' hold

/-- What stays true of every thread when one is replaced. -/
theorem forall_set {P : Thread κ ν α → Prop} (h : ∀ th ∈ threads, P th) (i : ℕ) {th : Thread κ ν α} (hth : P th) :
    ∀ th' ∈ threads.set i th, P th' := by
  intro th' hmem
  rcases List.mem_or_eq_of_mem_set hmem with hmem | rfl
  · exact h th' hmem
  · exact hth

theorem Step.within (hS : S.Sound) {s s' : List (Thread κ ν α) × τ} (hstep : Step S s s')
    (h : (∀ th ∈ s.1, th.Offers T) ∧ S.Within T s.2) : (∀ th ∈ s'.1, th.Offers T) ∧ S.Within T s'.2 := by
  obtain ⟨hoff, ht⟩ := h
  cases hstep with
  | get t hi =>
    exact ⟨forall_set hoff _ (hoff _ (List.mem_of_getElem? hi) _), hS.within_get ht _⟩
  | put t hi =>
    obtain ⟨hv, hnext⟩ := hoff _ (List.mem_of_getElem? hi)
    exact ⟨forall_set hoff _ hnext, hS.within_put ht hv⟩

/-- **What the table holds was there or was offered.** -/
theorem Run.within (hS : S.Sound) {s s' : List (Thread κ ν α) × τ} (hrun : Run S s s')
    (h : (∀ th ∈ s.1, th.Offers T) ∧ S.Within T s.2) : (∀ th ∈ s'.1, th.Offers T) ∧ S.Within T s'.2 := by
  induction hrun with
  | refl => exact h
  | tail _ hstep ih => exact hstep.within hS ih

/-- A thread's next step keeps its result. -/
theorem forall₂_set {R : α → Thread κ ν α → Prop} (h : List.Forall₂ R rs threads) {i : ℕ} {th th' : Thread κ ν α}
    (hi : threads[i]? = some th) (hkeep : ∀ r, R r th → R r th') : List.Forall₂ R rs (threads.set i th') := by
  induction h generalizing i with
  | nil => cases hi
  | @cons r th₀ rs threads hr _ ih =>
    cases i with
    | zero =>
      obtain rfl := Option.some.inj hi
      exact .cons (hkeep r hr) ‹_›
    | succ i => exact .cons hr (ih hi)

theorem Step.returns (hS : S.Sound) {s s' : List (Thread κ ν α) × τ} (hstep : Step S s s') (ht : S.Within T s.2)
    (h : List.Forall₂ (fun r th => th.Returns T r) rs s.1) : List.Forall₂ (fun r th => th.Returns T r) rs s'.1 := by
  cases hstep with
  | @get threads i k next t hi =>
    refine forall₂_set h hi fun r hr => ?_
    cases hit : (S.get t k).2 with
    | none => exact hr.1
    | some v => exact hr.2 v (ht k v (hS.hit hit))
  | put t hi => exact forall₂_set h hi fun r hr => hr

/-- **Every order of the steps gives each thread its own result.** -/
theorem Run.returns (hS : S.Sound) {s s' : List (Thread κ ν α) × τ} (hrun : Run S s s')
    (hoff : (∀ th ∈ s.1, th.Offers T) ∧ S.Within T s.2) (h : List.Forall₂ (fun r th => th.Returns T r) rs s.1) :
    List.Forall₂ (fun r th => th.Returns T r) rs s'.1 := by
  induction hrun with
  | refl => exact h
  | tail hrun hstep ih => exact hstep.returns hS (Run.within hS hrun hoff).2 ih

/-- A thread run to its end, the others waiting. -/
theorem run_one (S : Table τ κ ν) (th : Thread κ ν α) : ∀ (threads : List (Thread κ ν α)) (t : τ) (i : ℕ),
    threads[i]? = some th → Run S (threads, t) (threads.set i (.done (th.run S t).2), (th.run S t).1) := by
  induction th with
  | done a =>
    intro threads t i hi
    have hself : threads.set i (.done a) = threads := by
      obtain ⟨hlt, heq⟩ := List.getElem?_eq_some_iff.1 hi
      rw [← heq, List.set_getElem_self]
    change Run S (threads, t) (threads.set i (.done a), t)
    rw [hself]
  | get k next ih =>
    intro threads t i hi
    have hlt : i < threads.length := (List.getElem?_eq_some_iff.1 hi).1
    have hrest := ih (S.get t k).2 (threads.set i (next (S.get t k).2)) (S.get t k).1 i (List.getElem?_set_self hlt)
    rw [List.set_set] at hrest
    exact .head (Step.get t hi) hrest
  | put k v next ih =>
    intro threads t i hi
    have hlt : i < threads.length := (List.getElem?_eq_some_iff.1 hi).1
    have hrest := ih (threads.set i next) (S.put t k v) i (List.getElem?_set_self hlt)
    rw [List.set_set] at hrest
    exact .head (Step.put t hi) hrest

/-- **Every thread can be run to its end**, here the first of them first. -/
theorem exists_done (S : Table τ κ ν) (threads : List (Thread κ ν α)) (t : τ) :
    ∃ (rs : List α) (t' : τ), Run S (threads, t) (rs.map .done, t') := by
  suffices h : ∀ (done : List α) (rest : List (Thread κ ν α)) (t : τ), ∃ (rs : List α) (t' : τ),
      Run S (done.map .done ++ rest, t) (rs.map .done, t') from h [] threads t
  intro done rest
  induction rest generalizing done with
  | nil =>
    intro t
    rw [List.append_nil]
    exact ⟨done, t, .refl⟩
  | cons th rest ih =>
    intro t
    have hi : (done.map Thread.done ++ th :: rest)[done.length]? = some th := by
      rw [List.getElem?_append_right (by simp)]
      simp
    obtain ⟨rs, t', hrest⟩ := ih (done ++ [(th.run S t).2]) (th.run S t).1
    refine ⟨rs, t', (run_one S th _ t _ hi).trans ?_⟩
    rw [List.set_append_right _ _ (by simp), List.length_map, Nat.sub_self, List.set_cons_zero]
    rw [List.map_append, List.append_assoc] at hrest
    exact hrest

end Steps

end Memo
