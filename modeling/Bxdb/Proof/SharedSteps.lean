import Bxdb.Spec.SharedSteps
import Bxdb.Proof.CacheSteps
import Bxdb.Proof.SharedReads

/-!
# Readers that come in between each other's steps

A load is at a call as long as its process is in it (`ReadersOk.calls`), and what a hit
copied was put under its key, or was in the file before (`Inv`). So a load is handed the
entries that `SharedReads` hands it, although no call is taken in one piece and readers die.

* `ReadersOk.step`: the invariant, for one step of one reader.
* `steppedLife_ok`: the cache holds pages that readers saw since it was created.
* `stepped_reads`: **each load that ends returns what it returns without a cache**, for
  every order of the readers' steps and all deaths but those in the middle of a page.
* `stepped_end`: **no reader waits for ever**; whoever has died, the others can end.
-/

namespace Bxdb

open Memory Memo Versioned SharedCache SharedReads

/-! ## The file they attach to -/

section Attach

variable {m : Mem} {mutex : ℕ → Mutex} {key : UInt64} {page : Page}

theorem bytes_inj {page' : Page} (h : page'.bytes = page.bytes) : page' = page := by
  cases page'
  cases page
  rw [Page.mk.injEq]
  exact h

theorem mem_heldPages : (key, page) ∈ heldPages m ↔ sharedCache.Holds m key page := by
  unfold heldPages
  rw [List.mem_filterMap, holds_iff]
  constructor
  · rintro ⟨g, hg, hslot⟩
    obtain ⟨key', hkey, heq⟩ := Option.map_eq_some_iff.1 hslot
    obtain ⟨rfl, rfl⟩ := Prod.mk.inj heq
    exact ⟨g, List.mem_range.1 hg, hkey, rfl⟩
  · rintro ⟨g, hg, hkey, rfl⟩
    exact ⟨g, List.mem_range.2 hg, by rw [hkey]; rfl⟩

/-- A way with a key holds its page. -/
theorem holds_way {loc : ℕ × ℕ} {w : ℕ} (hin : InTable loc w) (hid : idOf m loc w ≠ emptyKey) :
    sharedCache.Holds m (idOf m loc w) (pageOf m loc w) := by
  obtain ⟨hset, hway⟩ := setOfSlot_slotOf hin
  refine holds_iff.2 ⟨slotOf loc w, slotOf_lt hin, ?_, rfl⟩
  rw [slotKey_eq, hset, hway, if_neg hid]

/-- What is held is the page of a way. -/
theorem way_of_holds (h : sharedCache.Holds m key page) :
    ∃ loc w, InTable loc w ∧ idOf m loc w = key ∧ key ≠ emptyKey ∧ slotBytes m loc w = page.bytes := by
  obtain ⟨g, hg, hkey, hpage⟩ := h
  obtain ⟨hin, hid, hne, -⟩ := table_eq_some.1 (table_of_slotKey hg hkey)
  refine ⟨setOfSlot g, wayOfSlot g, hin, hid, hne, ?_⟩
  unfold slotBytes
  rw [slotOf_setOfSlot]
  exact pageFrom_eq_page.1 hpage

/-- **Before any call** of the processes that attach. -/
theorem SharedCache.Inv.attach (hmutex : ∀ idx p, mutex idx ≠ .held p) : Inv (Shm.attach m mutex) := by
  unfold Shm.attach
  refine ⟨fun p idx => ⟨fun hheld => absurd hheld (hmutex idx p), ?_⟩, fun _ => trivial, fun loc w hin hid => ?_, nofun⟩
  · rintro ⟨key, hkey, -⟩
    cases hkey
  · dsimp only at hid ⊢
    have hpage : slotBytes m loc w = (pageOf m loc w).bytes := pageFrom_eq_page.1 rfl
    exact .inl ⟨pageOf m loc w, mem_heldPages.2 (holds_way hin hid), hpage.symm⟩

end Attach

/-! ## One step -/

/-- The key of the call that a process is in. -/
def SharedCache.Proc.key : Proc → Option UInt64
  | .waiting c => some c.key
  | q => q.holds

theorem SharedCache.Proc.holds_none {q : Proc} (h : q.holds = none) : (q = .idle ∨ q = .dead) ∨ ∃ c, q = .waiting c := by
  cases q with
  | idle => exact .inl (.inl rfl)
  | waiting c => exact .inr ⟨c, rfl⟩
  | dead => exact .inl (.inr rfl)
  | _ => cases h

theorem SharedCache.Proc.key_none {q : Proc} (h : q.key = none) : q = .idle ∨ q = .dead := by
  cases q with
  | idle => exact .inl rfl
  | dead => exact .inr rfl
  | _ => cases h

section Steps

variable {α : Type} {T : UInt64 → Page → Prop} {rs : List α} {threads : List (Thread UInt64 Page α)} {s s' : Shm} {p : ℕ}

theorem move_self (s : Shm) (p : ℕ) (q : Proc) (m : Mem) : (s.move p q m).proc p = q := Function.update_self ..

theorem move_other (s : Shm) {p r : ℕ} (hr : r ≠ p) (q : Proc) (m : Mem) : (s.move p q m).proc r = s.proc r :=
  Function.update_of_ne hr ..

theorem switch_self (s : Shm) (p : ℕ) (q : Proc) (idx : ℕ) (x : Mutex) : (s.switch p q idx x).proc p = q :=
  Function.update_self ..

theorem switch_other (s : Shm) {p r : ℕ} (hr : r ≠ p) (q : Proc) (idx : ℕ) (x : Mutex) :
    (s.switch p q idx x).proc r = s.proc r := Function.update_of_ne hr ..

/-- **A step in a call**: another process notices nothing, and the process stays in its call
until it unlocks. -/
theorem next_inv (hs : Step s (.next p) s') : s'.puts = s.puts ∧ (∀ r, r ≠ p → s'.proc r = s.proc r) ∧
    ((∃ key out, s.proc p = .unlock key out ∧ s'.proc p = .idle) ∨
      ((∀ key out, s.proc p ≠ .unlock key out) ∧ (s'.proc p).key = (s.proc p).key)) := by
  have hmove : ∀ {q m}, (∀ key out, s.proc p ≠ .unlock key out) → q.key = (s.proc p).key →
      (s.move p q m).puts = s.puts ∧ (∀ r, r ≠ p → (s.move p q m).proc r = s.proc r) ∧
        ((∃ key out, s.proc p = .unlock key out ∧ (s.move p q m).proc p = .idle) ∨
          ((∀ key out, s.proc p ≠ .unlock key out) ∧ ((s.move p q m).proc p).key = (s.proc p).key)) :=
    fun hne hkey => ⟨rfl, fun r hr => move_other s hr _ _, .inr ⟨hne, by rw [move_self, hkey]⟩⟩
  cases hs with
  | lock hp =>
    refine ⟨rfl, fun r hr => switch_other s hr _ _ _, .inr ⟨by rw [hp]; nofun, ?_⟩⟩
    rw [switch_self, hp]
    rfl
  | hit hp => exact hmove (by rw [hp]; nofun) (by rw [hp]; rfl)
  | miss hp => exact hmove (by rw [hp]; nofun) (by rw [hp]; rfl)
  | choose hp => exact hmove (by rw [hp]; nofun) (by rw [hp]; rfl)
  | copyIn hp => exact hmove (by rw [hp]; nofun) (by rw [hp]; rfl)
  | storeId hp => exact hmove (by rw [hp]; nofun) (by rw [hp]; rfl)
  | copyOut hp => exact hmove (by rw [hp]; nofun) (by rw [hp]; rfl)
  | copied hp => exact hmove (by rw [hp]; nofun) (by rw [hp]; rfl)
  | stamp hp => exact hmove (by rw [hp]; nofun) (by rw [hp]; rfl)
  | unlock hp => exact ⟨rfl, fun r hr => Function.update_of_ne hr .., .inl ⟨_, _, hp, Function.update_self ..⟩⟩

theorem unlock_idle {key : UInt64} {out : Option Bytes} (hp : s.proc p = .unlock key out) (hs : Step s (.next p) s') :
    s'.proc p = .idle := by
  obtain ⟨-, -, ⟨-, -, -, hidle⟩ | ⟨hne, -⟩⟩ := next_inv hs
  · exact hidle
  · exact absurd hp (hne key out)

/-- **The invariant**: every page that was put is in `T`, as are those still to be put, and
a load is at the call that its process is in. -/
structure ReadersOk (T : UInt64 → Page → Prop) (c : Readers α) : Prop where
  inv : Inv c.2
  puts : ∀ key page, (key, page) ∈ c.2.puts → T key page
  offers : ∀ th ∈ c.1, th.Offers T
  calls : ∀ p key, (c.2.proc p).key = some key → ∃ th call, c.1[p]? = some th ∧ nextCall th = some call ∧ call.key = key

/-- What a call puts is what its load offers. -/
theorem offers_passed {th : Thread UInt64 Page α} {call : Call} (h : th.Offers T) (hcall : nextCall th = some call)
    {key : UInt64} {page : Page} (hmem : (key, page) ∈ call.passed) : T key page := by
  cases th with
  | done a => cases hcall
  | get k next =>
    obtain rfl := Option.some.inj hcall
    cases hmem
  | put k pg next =>
    obtain rfl := Option.some.inj hcall
    obtain ⟨rfl, rfl⟩ := Prod.mk.inj (List.mem_singleton.1 hmem)
    exact h.1

theorem offers_resume {th : Thread UInt64 Page α} (h : th.Offers T) (hit : Option Page) : (resume hit th).Offers T := by
  cases th with
  | done a => trivial
  | get k next => exact h hit
  | put k pg next => exact h.2

/-- A load that is handed an entry of `T` goes on to its result. -/
theorem returns_resume {th : Thread UInt64 Page α} {r : α} {call : Call} (h : th.Returns T r)
    (hcall : nextCall th = some call) {hit : Option Page} (hhit : ∀ page, hit = some page → T call.key page) :
    (resume hit th).Returns T r := by
  cases th with
  | done a => cases hcall
  | get k next =>
    obtain rfl := Option.some.inj hcall
    cases hit with
    | none => exact h.1
    | some page => exact h.2 page (hhit page rfl)
  | put k pg next => exact h

/-- The calls that processes are in, when one of them has moved. -/
theorem ReadersOk.calls_moved {c : Readers α} (h : ReadersOk T c) (hothers : ∀ r, r ≠ p → s'.proc r = c.2.proc r)
    (hself : ∀ key, (s'.proc p).key = some key → ∃ th call, c.1[p]? = some th ∧ nextCall th = some call ∧ call.key = key)
    (q : ℕ) (key : UInt64) (hq : (s'.proc q).key = some key) :
    ∃ th call, c.1[q]? = some th ∧ nextCall th = some call ∧ call.key = key := by
  by_cases hqp : q = p
  · subst hqp
    exact hself key hq
  · rw [hothers q hqp] at hq
    exact h.calls q key hq

/-- When one of them has returned from its call, and its load goes on. -/
theorem ReadersOk.calls_set {c : Readers α} (h : ReadersOk T c) {th : Thread UInt64 Page α}
    (hothers : ∀ r, r ≠ p → s'.proc r = c.2.proc r) (hself : (s'.proc p).key = none) (q : ℕ) (key : UInt64)
    (hq : (s'.proc q).key = some key) :
    ∃ th' call, (c.1.set p th)[q]? = some th' ∧ nextCall th' = some call ∧ call.key = key := by
  by_cases hqp : q = p
  · subst hqp
    rw [hself] at hq
    cases hq
  · rw [hothers q hqp] at hq
    rw [List.getElem?_set_ne (Ne.symm hqp)]
    exact h.calls q key hq

/-- What was put, with what the next call of a load puts. -/
theorem ReadersOk.passed {c : Readers α} (h : ReadersOk T c) {th : Thread UInt64 Page α} (hth : c.1[p]? = some th)
    {call : Call} (hcall : nextCall th = some call) (key : UInt64) (page : Page)
    (hmem : (key, page) ∈ call.passed ++ c.2.puts) : T key page := by
  rcases List.mem_append.1 hmem with hnew | hold
  · exact offers_passed (h.offers th (List.mem_of_getElem? hth)) hcall hnew
  · exact h.puts key page hold

/-- The page of a get that is about to return. -/
theorem ReadersOk.copied {c : Readers α} (h : ReadersOk T c) {key : UInt64} {hit : Option Page}
    (hp : c.2.proc p = .unlock key (hit.map Page.bytes)) {page : Page} (hhit : hit = some page) : T key page := by
  subst hhit
  obtain ⟨page', hmem, hbytes⟩ := h.inv.procOk hp page.bytes rfl
  obtain rfl := bytes_inj hbytes
  exact h.puts key page' hmem

/-- **One step of one reader keeps the invariant**, unless a reader dies in the middle of a page. -/
theorem ReadersOk.step {c c' : Readers α} {a : Act} (h : ReadersOk T c) (hok : ¬ Tears c.2 a) (hs : ReaderStep c a c') :
    ReadersOk T c' := by
  cases hs with
  | @call threads s s' p th call hth hcall hk hs =>
    -- the call is the one the thread is at, so its page has passed
    have hinv : Inv s' := h.inv.step hok hs
    cases hs with
    | reserved _ hk' => exact absurd hk' hk
    | call hidle hk' =>
      refine ⟨hinv, h.passed hth hcall, h.offers, h.calls_moved (fun r hr => move_other s hr (.waiting call) s.mem) ?_⟩
      intro key hkey
      dsimp only at hkey
      rw [move_self] at hkey
      exact ⟨th, call, hth, hcall, Option.some.inj hkey⟩
  | @reserved threads s s' p th call hth hcall hk hs =>
    have hoffers := h.offers th (List.mem_of_getElem? hth)
    have hinv : Inv s' := h.inv.step hok hs
    cases hs with
    | call _ hk' => exact absurd hk hk'
    | reserved hidle hk' =>
      refine ⟨hinv, h.passed hth hcall, forall_set h.offers _ (offers_resume hoffers none), h.calls_set (fun _ _ => rfl) ?_⟩
      dsimp only
      rw [hidle]
      rfl
  | @inside threads s s' p hs hbusy =>
    -- a step inside a section changes no call and starts no put
    obtain ⟨hputs, hothers, hself⟩ := next_inv hs
    refine ⟨h.inv.step hok hs, fun key page hmem => ?_, h.offers, h.calls_moved hothers fun key hkey => ?_⟩
    · rw [hputs] at hmem
      exact h.puts key page hmem
    · rcases hself with ⟨-, -, -, hidle⟩ | ⟨-, hsame⟩
      · exact absurd hidle hbusy
      · rw [hsame] at hkey
        exact h.calls p key hkey
  | @unlock threads s s' p th key hit hth hp hs =>
    obtain ⟨hputs, hothers, -⟩ := next_inv hs
    have hoffers := h.offers th (List.mem_of_getElem? hth)
    -- the call is over, and its thread takes the answer
    have hidle : s'.proc p = .idle := unlock_idle hp hs
    refine ⟨h.inv.step hok hs, fun k page hmem => ?_, forall_set h.offers _ (offers_resume hoffers hit),
      h.calls_set hothers ?_⟩
    · rw [hputs] at hmem
      exact h.puts k page hmem
    · rw [hidle]
      rfl
  | @die threads s s' p hs =>
    have hinv : Inv s' := h.inv.step hok hs
    cases hs with
    | die hp =>
      refine ⟨hinv, h.puts, h.offers, h.calls_moved (fun r hr => move_other s hr .dead s.mem) ?_⟩
      intro key hkey
      dsimp only at hkey
      rw [move_self] at hkey
      cases hkey

theorem ReadersOk.steps {c₀ c : Readers α} (h₀ : ReadersOk T c₀) (h : ReaderSteps (fun s a => ¬ Tears s a) c₀ c) :
    ReadersOk T c := by
  induction h with
  | nil => exact h₀
  | snoc _ hok hs ih => exact ih.step hok hs

/-- A step keeps what each load returns. -/
theorem ReadersOk.step_returns {c c' : Readers α} {a : Act} (h : ReadersOk T c) (hs : ReaderStep c a c')
    (hr : List.Forall₂ (fun r th => th.Returns T r) rs c.1) : List.Forall₂ (fun r th => th.Returns T r) rs c'.1 := by
  cases hs with
  | call => exact hr
  | reserved hth hcall => exact forall₂_set hr hth fun r hr => returns_resume hr hcall nofun
  | inside => exact hr
  | unlock hth hp =>
    obtain ⟨th', call, hth', hcall, rfl⟩ := h.calls _ _ (by rw [hp]; rfl)
    obtain rfl := Option.some.inj (hth.symm.trans hth')
    exact forall₂_set hr hth fun r hr => returns_resume hr hcall fun page hpage => h.copied hp hpage
  | die => exact hr

/-- **Every run keeps what each load returns.** -/
theorem ReadersOk.returns {c₀ c : Readers α} (h₀ : ReadersOk T c₀) (h : ReaderSteps (fun s a => ¬ Tears s a) c₀ c)
    (hr : List.Forall₂ (fun r th => th.Returns T r) rs c₀.1) : List.Forall₂ (fun r th => th.Returns T r) rs c.1 := by
  induction h with
  | nil => exact hr
  | snoc hrun _ hs ih => exact (h₀.steps hrun).step_returns hs ih

/-- Before the first call. -/
theorem ReadersOk.attach {m : Mem} {mutex : ℕ → Mutex} (hmutex : ∀ idx p, mutex idx ≠ .held p)
    (hheld : sharedCache.Within T m) (hoffers : ∀ th ∈ threads, th.Offers T) : ReadersOk T (threads, Shm.attach m mutex) := by
  refine ⟨Inv.attach hmutex, fun key page hmem => ?_, hoffers, fun p key hkey => ?_⟩
  · unfold Shm.attach at hmem
    dsimp only at hmem
    exact hheld key page (mem_heldPages.1 hmem)
  · unfold Shm.attach at hkey
    cases hkey

theorem SharedReads.Quiet.holds (h : Quiet s) (p : ℕ) : (s.proc p).holds = none := by
  rcases h p with hidle | hdead
  · rw [hidle]
    rfl
  · rw [hdead]
    rfl

/-- **What the cache holds** when no process is in a call. -/
theorem ReadersOk.within {c : Readers α} (h : ReadersOk T c) (hquiet : Quiet c.2) : sharedCache.Within T c.2.mem := by
  intro key page hold
  obtain ⟨loc, w, hin, hid, hne, hbytes⟩ := way_of_holds hold
  rcases h.inv.slots loc w hin (by rw [hid]; exact hne) with ⟨page', hmem, hpage⟩ | ⟨p, htearing⟩
  · obtain rfl := bytes_inj (hpage.trans hbytes)
    rw [hid] at hmem
    exact h.puts key page' hmem
  · -- a process in the middle of the slot would be in a call
    obtain ⟨key', hheld, -⟩ := htearing.holds
    rw [hquiet.holds p] at hheld
    cases hheld

end Steps

/-! ## No reader waits for ever -/

section Progress

variable {α : Type} {T : UInt64 → Page → Prop} {ok : Shm → Act → Prop} {c : Readers α} {s s' : Shm} {p : ℕ}

/-- The steps that a process in a call takes at most until it unlocks. -/
def stepsLeft : Proc → ℕ
  | .idle => 0
  | .dead => 0
  | .unlock _ _ => 1
  | .stamp _ _ _ => 2
  | .copyIn _ _ _ n => 3 + (cachePageSize - n)
  | .copyOut _ _ out => 3 + (cachePageSize - out.length)
  | .locked _ => 4 + cachePageSize
  | .waiting _ => 5 + cachePageSize

/-- **A process that has a mutex can go on**, and comes nearer to its unlock. -/
theorem SharedCache.Inv.next (h : Inv s) {key : UInt64} (hp : (s.proc p).holds = some key) :
    ∃ s', Step s (.next p) s' ∧ stepsLeft (s'.proc p) < stepsLeft (s.proc p) ∧
      ((∃ out, s.proc p = .unlock key out) ∨ (s'.proc p).holds = some key) := by
  have hproc := h.proc p
  -- every step but the last keeps the mutex
  have hmove : ∀ {q m}, Step s (.next p) (s.move p q m) → stepsLeft q < stepsLeft (s.proc p) → q.holds = some key →
      ∃ s', Step s (.next p) s' ∧ stepsLeft (s'.proc p) < stepsLeft (s.proc p) ∧
        ((∃ out, s.proc p = .unlock key out) ∨ (s'.proc p).holds = some key) :=
    fun hs hleft hholds => ⟨_, hs, by rw [move_self]; exact hleft, .inr (by rw [move_self]; exact hholds)⟩
  cases hq : s.proc p with
  | idle =>
    rw [hq] at hp
    cases hp
  | waiting c =>
    rw [hq] at hp
    cases hp
  | dead =>
    rw [hq] at hp
    cases hp
  | locked c =>
    rw [hq] at hp hmove
    cases c with
    | get k =>
      cases hw : findWay (pageIds s.mem (setAt (locate k))) k with
      | some w => exact hmove (.hit hq hw) (by simp only [stepsLeft, List.length_nil]; omega) hp
      | none => exact hmove (.miss hq hw) (by simp only [stepsLeft]; omega) hp
    | put k page => exact hmove (.choose hq) (by simp only [stepsLeft]; omega) hp
  | copyIn k page w n =>
    rw [hq] at hp hproc hmove
    obtain ⟨-, -, -, hn, -⟩ := hproc
    rcases Nat.lt_or_eq_of_le hn with hlt | rfl
    · exact hmove (.copyIn hq hlt) (by simp only [stepsLeft]; omega) hp
    · exact hmove (.storeId hq) (by simp only [stepsLeft]; omega) hp
  | copyOut k w out =>
    rw [hq] at hp hproc hmove
    obtain ⟨-, -, -, hlen, -⟩ := hproc
    rcases Nat.lt_or_eq_of_le hlen with hlt | hend
    · exact hmove (.copyOut hq hlt) (by simp only [stepsLeft, List.length_append, List.length_singleton]; omega) hp
    · exact hmove (.copied hq hend) (by simp only [stepsLeft]; omega) hp
  | stamp k w out =>
    rw [hq] at hp hmove
    exact hmove (.stamp hq) (by simp only [stepsLeft]; omega) hp
  | unlock k out =>
    rw [hq] at hp
    obtain rfl := Option.some.inj hp
    have hs := Step.unlock hq
    refine ⟨_, hs, ?_, .inl ⟨out, rfl⟩⟩
    rw [unlock_idle hq hs]
    exact Nat.zero_lt_one

theorem SharedReads.ReaderSteps.trans {c₀ c' : Readers α} (h : ReaderSteps ok c₀ c) (h' : ReaderSteps ok c c') :
    ReaderSteps ok c₀ c' := by
  induction h' with
  | nil => exact h
  | snoc _ hok hs ih => exact .snoc ih hok hs

theorem SharedReads.ReaderStep.steps {c' : Readers α} {a : Act} (hs : ReaderStep c a c') (ha : ∀ p, a ≠ .die p) :
    ReaderSteps NoDeath c c' := .snoc .nil ha hs

/-- A run without deaths tears nothing. -/
theorem SharedReads.ReaderSteps.noDeath {c' : Readers α} (h : ReaderSteps NoDeath c c') :
    ReaderSteps (fun s a => ¬ Tears s a) c c' := by
  induction h with
  | nil => exact .nil
  | @snoc c c' a _ hok hs ih =>
    refine .snoc ih ?_ hs
    cases a with
    | call p c => exact id
    | next p => exact id
    | die p => exact absurd rfl (hok p)

/-- **A process that has a mutex unlocks it**, while the others stand still. -/
theorem ReadersOk.leave (h : ReadersOk T c) {key : UInt64} (hp : (c.2.proc p).holds = some key) :
    ∃ c' th hit, ReaderSteps NoDeath c c' ∧ c'.2.proc p = .idle ∧ (∀ r, r ≠ p → c'.2.proc r = c.2.proc r) ∧
      c.1[p]? = some th ∧ c'.1 = c.1.set p (resume hit th) := by
  -- each step leaves fewer
  generalize hn : stepsLeft (c.2.proc p) = n
  induction n using Nat.strong_induction_on generalizing c with
  | _ n ih =>
    obtain ⟨threads, s⟩ := c
    obtain ⟨s', hs, hleft, hnext⟩ := h.inv.next hp
    obtain ⟨-, hothers, -⟩ := next_inv hs
    rcases hnext with ⟨out, hunlock⟩ | hholds
    · -- the call returns
      obtain ⟨th, call, hth, -⟩ := h.calls p key (by dsimp only; rw [hunlock]; rfl)
      obtain ⟨hit, rfl⟩ : ∃ hit : Option Page, out = hit.map Page.bytes := by
        cases out with
        | none => exact ⟨none, rfl⟩
        | some bytes =>
          obtain ⟨page, -, rfl⟩ := h.inv.procOk hunlock bytes rfl
          exact ⟨some page, rfl⟩
      exact ⟨_, th, hit, ReaderStep.steps (.unlock hth hunlock hs) nofun, unlock_idle hunlock hs, hothers, hth, rfl⟩
    · -- one step nearer
      have hstep : ReaderStep (threads, s) (.next p) (threads, s') := by
        refine .inside hs fun hidle => ?_
        rw [hidle] at hholds
        cases hholds
      have hok : ReadersOk T (threads, s') := h.step id hstep
      obtain ⟨c', th, hit, hrun, hidle, hstill, hth, hset⟩ := ih _ (hn ▸ hleft) hok hholds rfl
      exact ⟨c', th, hit, (hstep.steps nofun).trans hrun, hidle,
        fun r hr => (hstill r hr).trans (hothers r hr), hth, hset⟩

/-- A mutex that nobody has can be locked. -/
theorem SharedCache.Inv.open (h : Inv s) {key : UInt64} (hfree : ∀ r, ¬ Holds s r (locate key).1) : s.Open key := by
  unfold Shm.Open
  cases hm : s.mutex (locate key).1 with
  | free => exact .inl rfl
  | held r => exact absurd ((h.mutex r _).1 hm) (hfree r)
  | ownerDead => exact .inr rfl

/-- A process that waits for a mutex that nobody has. -/
theorem ReadersOk.enter (h : ReadersOk T c) {call : Call} (hp : c.2.proc p = .waiting call)
    (hfree : ∀ r, ¬ Holds c.2 r (locate call.key).1) :
    ∃ c' th hit, ReaderSteps NoDeath c c' ∧ c'.2.proc p = .idle ∧ (∀ r, r ≠ p → c'.2.proc r = c.2.proc r) ∧
      c.1[p]? = some th ∧ c'.1 = c.1.set p (resume hit th) := by
  obtain ⟨threads, s⟩ := c
  have hs := Step.lock hp (h.inv.open hfree)
  have hproc : (s.switch p (.locked call) (locate call.key).1 (.held p)).proc p = .locked call := switch_self s ..
  have hstep : ReaderStep (threads, s) (.next p) (threads, s.switch p (.locked call) (locate call.key).1 (.held p)) :=
    .inside hs (by rw [hproc]; nofun)
  have hholds : ((s.switch p (.locked call) (locate call.key).1 (.held p)).proc p).holds = some call.key := by
    rw [hproc]
    rfl
  obtain ⟨c', th, hit, hrun, hidle, hstill, hth, hset⟩ := (h.step id hstep).leave hholds
  exact ⟨c', th, hit, (hstep.steps nofun).trans hrun, hidle,
    fun r hr => (hstill r hr).trans (switch_other s hr ..), hth, hset⟩

/-- A call of a process, while nobody else is in one. -/
theorem ReadersOk.call (h : ReadersOk T c) (hquiet : Quiet c.2) (hp : c.2.proc p = .idle) {th : Thread UInt64 Page α}
    (hth : c.1[p]? = some th) {call : Call} (hcall : nextCall th = some call) :
    ∃ c' hit, ReaderSteps NoDeath c c' ∧ c'.2.proc = c.2.proc ∧ c'.1 = c.1.set p (resume hit th) := by
  obtain ⟨threads, s⟩ := c
  by_cases hk : call.key = emptyKey
  · exact ⟨_, none, ReaderStep.steps (.reserved hth hcall hk (.reserved hp hk)) nofun, rfl, rfl⟩
  · have hstep := ReaderStep.call hth hcall hk (.call hp hk)
    obtain ⟨c', th', hit, hrun, hidle, hstill, hth', hset⟩ :=
      (h.step id hstep).enter (move_self s p (.waiting call) s.mem) fun r hr => by
      obtain ⟨key, hkey, -⟩ := hr
      dsimp only at hkey
      by_cases hrp : r = p
      · subst hrp
        rw [move_self] at hkey
        cases hkey
      · rw [move_other s hrp, hquiet.holds r] at hkey
        cases hkey
    obtain rfl := Option.some.inj (hth.symm.trans hth')
    refine ⟨c', hit, (hstep.steps nofun).trans hrun, funext fun r => ?_, hset⟩
    by_cases hrp : r = p
    · rw [hrp, hidle, hp]
    · exact (hstill r hrp).trans (move_other s hrp (.waiting call) s.mem)

/-- The state in which a load goes on. -/
theorem ReadersOk.after (h : ReadersOk T c) (hquiet : Quiet c.2) {th th' : Thread UInt64 Page α} (hth : c.1[p]? = some th)
    {c' : Readers α} (hrun : ReaderSteps NoDeath c c') (hproc : c'.2.proc = c.2.proc) (hset : c'.1 = c.1.set p th') :
    ReadersOk T c' ∧ Quiet c'.2 ∧ c'.1[p]? = some th' := by
  refine ⟨h.steps hrun.noDeath, fun r => ?_, ?_⟩
  · rw [hproc]
    exact hquiet r
  · rw [hset]
    exact List.getElem?_set_self (List.getElem?_eq_some_iff.1 hth).1

/-- **A load goes to its end**, while nobody else is in a call. -/
theorem ReadersOk.finish (h : ReadersOk T c) (hquiet : Quiet c.2) (hp : c.2.proc p = .idle) {th : Thread UInt64 Page α}
    (hth : c.1[p]? = some th) :
    ∃ c' r, ReaderSteps NoDeath c c' ∧ c'.2.proc = c.2.proc ∧ c'.1 = c.1.set p (.done r) := by
  induction th generalizing c with
  | done a =>
    obtain ⟨hlt, heq⟩ := List.getElem?_eq_some_iff.1 hth
    exact ⟨c, a, .nil, rfl, by rw [← heq, List.set_getElem_self]⟩
  | get k next ih =>
    obtain ⟨c₁, hit, hrun, hproc, hset⟩ := h.call hquiet hp hth rfl
    obtain ⟨h₁, hquiet₁, hth₁⟩ := h.after hquiet hth hrun hproc hset
    obtain ⟨c', r, hrun', hproc', hset'⟩ := ih hit h₁ hquiet₁ (by rw [hproc, hp]) hth₁
    exact ⟨c', r, hrun.trans hrun', hproc'.trans hproc, by rw [hset', hset, List.set_set]⟩
  | put k page next ih =>
    obtain ⟨c₁, hit, hrun, hproc, hset⟩ := h.call hquiet hp hth rfl
    obtain ⟨h₁, hquiet₁, hth₁⟩ := h.after hquiet hth hrun hproc hset
    obtain ⟨c', r, hrun', hproc', hset'⟩ := ih h₁ hquiet₁ (by rw [hproc, hp]) hth₁
    exact ⟨c', r, hrun.trans hrun', hproc'.trans hproc, by rw [hset', hset, List.set_set]⟩

/-- What changes when calls end: a process that lives may come out of its call. -/
def Calmer (s s' : Shm) : Prop := ∀ r, s'.proc r = s.proc r ∨ s.proc r ≠ .dead ∧ s'.proc r = .idle

theorem Calmer.trans {s'' : Shm} (h : Calmer s s') (h' : Calmer s' s'') : Calmer s s'' := by
  intro r
  rcases h' r with hsame | ⟨halive, hidle⟩
  · rw [hsame]
    exact h r
  · refine .inr ⟨fun hdead => ?_, hidle⟩
    rcases h r with hsame | ⟨hne, -⟩
    · exact halive (hsame.trans hdead)
    · exact hne hdead

/-- Of a process that is in no call, nothing changes. -/
theorem Calmer.out (h : Calmer s s') {r : ℕ} (hr : s.proc r = .idle ∨ s.proc r = .dead) : s'.proc r = s.proc r := by
  rcases h r with hsame | ⟨halive, hidle⟩
  · exact hsame
  · rw [hidle, hr.resolve_right halive]

theorem Calmer.dead (h : Calmer s s') {r : ℕ} (hr : s'.proc r = .dead) : s.proc r = .dead := by
  rcases h r with hsame | ⟨-, hidle⟩
  · rw [← hsame, hr]
  · rw [hidle] at hr
    cases hr

theorem calmer_of_idle (hp : s.proc p ≠ .dead) (hidle : s'.proc p = .idle) (hstill : ∀ r, r ≠ p → s'.proc r = s.proc r) :
    Calmer s s' := by
  intro r
  by_cases hrp : r = p
  · rw [hrp]
    exact .inr ⟨hp, hidle⟩
  · exact .inl (hstill r hrp)

/-- The process that has a mutex comes out of its call. -/
theorem ReadersOk.release (h : ReadersOk T c) {key : UInt64} (hp : (c.2.proc p).holds = some key) :
    ∃ c', ReaderSteps NoDeath c c' ∧ Calmer c.2 c'.2 ∧ c'.2.proc p = .idle ∧ ∀ r, r ≠ p → c'.2.proc r = c.2.proc r := by
  obtain ⟨c', th, hit, hrun, hidle, hstill, -⟩ := h.leave hp
  refine ⟨c', hrun, calmer_of_idle (fun hdead => ?_) hidle hstill, hidle, hstill⟩
  rw [hdead] at hp
  cases hp

/-- A process that waits comes out of its call after the one that has the mutex. -/
theorem ReadersOk.admit (h : ReadersOk T c) {call : Call} (hp : c.2.proc p = .waiting call) :
    ∃ c', ReaderSteps NoDeath c c' ∧ Calmer c.2 c'.2 ∧ c'.2.proc p = .idle := by
  have halive : c.2.proc p ≠ .dead := by rw [hp]; nofun
  by_cases hfree : ∃ r, Holds c.2 r (locate call.key).1
  · obtain ⟨r, key, hr, hidx⟩ := hfree
    obtain ⟨c₁, hrun₁, hcalm, hidle, hstill⟩ := h.release hr
    have hpr : p ≠ r := by
      rintro rfl
      rw [hp] at hr
      cases hr
    -- nobody else had the mutex
    have hfree₁ : ∀ q, ¬ Holds c₁.2 q (locate call.key).1 := by
      rintro q ⟨key', hq, hidx'⟩
      by_cases hqr : q = r
      · rw [hqr, hidle] at hq
        cases hq
      · rw [hstill q hqr] at hq
        exact hqr (h.inv.unique ⟨key', hq, hidx'⟩ ⟨key, hr, hidx⟩)
    obtain ⟨c', th, hit, hrun, hidle', hstill', -⟩ :=
      (h.steps hrun₁.noDeath).enter (by rw [hstill p hpr, hp]) hfree₁
    refine ⟨c', hrun₁.trans hrun, hcalm.trans (calmer_of_idle ?_ hidle' hstill'), hidle'⟩
    rw [hstill p hpr]
    exact halive
  · obtain ⟨c', th, hit, hrun, hidle, hstill, -⟩ := h.enter hp fun r hr => hfree ⟨r, hr⟩
    exact ⟨c', hrun, calmer_of_idle halive hidle hstill, hidle⟩

/-- **A process comes out of its call.** -/
theorem ReadersOk.settle (h : ReadersOk T c) (p : ℕ) :
    ∃ c', ReaderSteps NoDeath c c' ∧ Calmer c.2 c'.2 ∧ (c'.2.proc p = .idle ∨ c'.2.proc p = .dead) := by
  cases hholds : (c.2.proc p).holds with
  | some key =>
    obtain ⟨c', hrun, hcalm, hidle, -⟩ := h.release hholds
    exact ⟨c', hrun, hcalm, .inl hidle⟩
  | none =>
    rcases Proc.holds_none hholds with hout | ⟨call, hp⟩
    · exact ⟨c, .nil, fun _ => .inl rfl, hout⟩
    · obtain ⟨c', hrun, hcalm, hidle⟩ := h.admit hp
      exact ⟨c', hrun, hcalm, .inl hidle⟩

/-- **Every call can end.** -/
theorem ReadersOk.quiet (h : ReadersOk T c) : ∃ c', ReaderSteps NoDeath c c' ∧ Calmer c.2 c'.2 ∧ Quiet c'.2 := by
  have hfirst : ∀ n, ∃ c', ReaderSteps NoDeath c c' ∧ Calmer c.2 c'.2 ∧
      ∀ p, p < n → c'.2.proc p = .idle ∨ c'.2.proc p = .dead := by
    intro n
    induction n with
    | zero => exact ⟨c, .nil, fun _ => .inl rfl, nofun⟩
    | succ n ih =>
      obtain ⟨c₁, hrun, hcalm, hout⟩ := ih
      obtain ⟨c', hrun', hcalm', hn⟩ := (h.steps hrun.noDeath).settle n
      refine ⟨c', hrun.trans hrun', hcalm.trans hcalm', fun p hp => ?_⟩
      rcases Nat.lt_succ_iff_lt_or_eq.1 hp with hlt | rfl
      · rw [hcalm'.out (hout p hlt)]
        exact hout p hlt
      · exact hn
  obtain ⟨c', hrun, hcalm, hout⟩ := hfirst c.1.length
  refine ⟨c', hrun, hcalm, fun p => ?_⟩
  by_cases hp : p < c.1.length
  · exact hout p hp
  · -- a process without a load is in no call
    have hidle : c.2.proc p = .idle ∨ c.2.proc p = .dead := by
      cases hkey : (c.2.proc p).key with
      | none => exact Proc.key_none hkey
      | some key =>
        obtain ⟨th, call, hth, -⟩ := h.calls p key hkey
        exact absurd (List.getElem?_eq_some_iff.1 hth).1 hp
    rw [hcalm.out hidle]
    exact hidle

theorem SharedReads.ReaderSteps.length {c' : Readers α} (h : ReaderSteps ok c c') : c'.1.length = c.1.length := by
  induction h with
  | nil => rfl
  | snoc _ _ hs ih =>
    rw [← ih]
    cases hs with
    | call => rfl
    | reserved => exact List.length_set
    | inside => rfl
    | unlock => exact List.length_set
    | die => rfl

/-- A reader that lives ends, and the others stay where they are. -/
theorem ReadersOk.finish_live (h : ReadersOk T c) (hquiet : Quiet c.2) (hp : p < c.1.length) :
    ∃ c', ReaderSteps NoDeath c c' ∧ c'.2.proc = c.2.proc ∧ (∀ q, q ≠ p → c'.1[q]? = c.1[q]?) ∧
      (c.2.proc p = .dead ∨ ∃ r, c'.1[p]? = some (.done r)) := by
  rcases hquiet p with hidle | hdead
  · obtain ⟨c', r, hrun, hproc, hset⟩ := h.finish hquiet hidle (List.getElem?_eq_getElem hp)
    refine ⟨c', hrun, hproc, fun q hq => ?_, .inr ⟨r, ?_⟩⟩
    · rw [hset, List.getElem?_set_ne (Ne.symm hq)]
    · rw [hset, List.getElem?_set_self hp]
  · exact ⟨c, .nil, rfl, fun _ _ => rfl, .inl hdead⟩

/-- One after the other, when nobody is in a call. -/
theorem ReadersOk.finish_quiet (h : ReadersOk T c) (hquiet : Quiet c.2) : ∀ n, n ≤ c.1.length →
    ∃ c', ReaderSteps NoDeath c c' ∧ c'.2.proc = c.2.proc ∧
      ∀ p, p < n → c.2.proc p = .dead ∨ ∃ r, c'.1[p]? = some (.done r) := by
  intro n
  induction n with
  | zero => exact fun _ => ⟨c, .nil, rfl, nofun⟩
  | succ n ih =>
    intro hn
    obtain ⟨c₁, hrun, hproc, hdone⟩ := ih (Nat.le_of_succ_le hn)
    have hquiet₁ : Quiet c₁.2 := fun r => by rw [hproc]; exact hquiet r
    have hlen : n < c₁.1.length := by
      rw [hrun.length]
      exact hn
    obtain ⟨c', hrun', hproc', hothers, hend⟩ := (h.steps hrun.noDeath).finish_live hquiet₁ hlen
    refine ⟨c', hrun.trans hrun', hproc'.trans hproc, fun p hp => ?_⟩
    -- the last one, or one of those before it
    by_cases hpn : p = n
    · subst hpn
      rw [← hproc]
      exact hend
    · rw [hothers p hpn]
      exact hdone p (by omega)

/-- **The readers that live can all end**, whatever state they are in and whoever has died. -/
theorem ReadersOk.finish_all (h : ReadersOk T c) : ∃ c', ReaderSteps NoDeath c c' ∧ Quiet c'.2 ∧
    ∀ p, p < c.1.length → c.2.proc p = .dead ∨ ∃ r, c'.1[p]? = some (.done r) := by
  obtain ⟨c₀, hrun₀, hcalm, hquiet⟩ := h.quiet
  obtain ⟨c', hrun, hproc, hdone⟩ := (h.steps hrun₀.noDeath).finish_quiet hquiet c₀.1.length le_rfl
  refine ⟨c', hrun₀.trans hrun, fun r => ?_, fun p hp => ?_⟩
  · rw [hproc]
    exact hquiet r
  · rw [← hrun₀.length] at hp
    exact (hdone p hp).imp_left hcalm.dead

end Progress

/-! ## The life of a directory and its cache -/

section Life

variable {z : Zstd} {identity : Bytes} {es : List CacheCommand} {dir : Dir} {file : Option CacheFile}

/-- **The cache holds what readers saw since it was created**, when no reader dies in the
middle of a page. -/
theorem steppedLife_ok (hz : z.RoundTrip) (h : SteppedLife z (fun s a => ¬ Tears s a) identity es dir file) :
    SharedOk z es dir file := by
  induction h with
  | empty => exact ⟨.empty, nofun, nofun⟩
  | run _ hc ih => exact ih.run hc
  | create _ ih => exact ih.create identity
  | delete _ ih => exact ih.delete
  | @reads es dir file store cache loads mutex c _ hopen hcache hmutex hrun hquiet ih =>
    obtain ⟨W, hW, hoffers, hheld⟩ := ih.offers hz hopen hcache loads
    have hok := (ReadersOk.attach hmutex hheld hoffers).steps hrun
    exact ih.reads loads hW (hok.within hquiet)

/-- **Readers that come in between each other's steps**: each load that has ended returned
what it returns without a cache, unless an address was seen with two pages of one snapshot
id since the cache was created. -/
theorem stepped_reads (hz : z.RoundTrip) (h : SteppedLife z (fun s a => ¬ Tears s a) identity es dir file)
    (hfun : ∀ W, (sightings es).cached = some W → Functional W) {store : PageStore} {cache : CacheFile}
    (hopen : PageStore.open dir = .ok store) (hcache : SharedCache.open file identity = .ok cache)
    (loads : List (UInt64 × UInt32)) {mutex : ℕ → Mutex} (hmutex : ∀ idx p, mutex idx ≠ .held p)
    {threads : List (Thread UInt64 Page (Res (Option Page)))} {s : Shm}
    (hrun : ReaderSteps (fun s a => ¬ Tears s a) (readers z store loads, Shm.attach cache.mem mutex) (threads, s)) :
    threads.length = loads.length ∧ ∀ (i : ℕ) pa t r, loads[i]? = some (pa, t) → threads[i]? = some (Thread.done r) →
      r = loadPage z dir pa t ∧
        (t ≤ maxSnapshotId → ∃ page, r = .ok page ∧ AsOf (archived (commandsOf es)).read pa t.toNat page) := by
  have hok := steppedLife_ok hz h
  obtain ⟨W, hW, hoffers, hheld⟩ := hok.offers hz hopen hcache loads
  have hreturns := hok.returns hz hopen loads hW (hfun W hW)
  exact hok.results hz hopen ((ReadersOk.attach hmutex hheld hoffers).returns hrun hreturns)

/-- **No reader waits for ever**: from wherever the readers have come to, all that live can
end, and each then returns what it returns without a cache. -/
theorem stepped_end (hz : z.RoundTrip) (h : SteppedLife z (fun s a => ¬ Tears s a) identity es dir file)
    (hfun : ∀ W, (sightings es).cached = some W → Functional W) {store : PageStore} {cache : CacheFile}
    (hopen : PageStore.open dir = .ok store) (hcache : SharedCache.open file identity = .ok cache)
    (loads : List (UInt64 × UInt32)) {mutex : ℕ → Mutex} (hmutex : ∀ idx p, mutex idx ≠ .held p)
    {threads : List (Thread UInt64 Page (Res (Option Page)))} {s : Shm}
    (hrun : ReaderSteps (fun s a => ¬ Tears s a) (readers z store loads, Shm.attach cache.mem mutex) (threads, s)) :
    ∃ threads' s', ReaderSteps NoDeath (threads, s) (threads', s') ∧ Quiet s' ∧
      ∀ i pa t, loads[i]? = some (pa, t) → s.proc i = .dead ∨ threads'[i]? = some (.done (loadPage z dir pa t)) := by
  have hok := steppedLife_ok hz h
  obtain ⟨W, hW, hoffers, hheld⟩ := hok.offers hz hopen hcache loads
  have hreturns := hok.returns hz hopen loads hW (hfun W hW)
  have hstart := ReadersOk.attach hmutex hheld hoffers
  obtain ⟨⟨threads', s'⟩, hend, hquiet, hdone⟩ := (hstart.steps hrun).finish_all
  obtain ⟨hlen, hresult⟩ := hok.results hz hopen (hstart.returns (hrun.trans hend.noDeath) hreturns)
  refine ⟨threads', s', hend, hquiet, fun i pa t hload => ?_⟩
  have hi : i < threads.length := by
    have hsame : threads'.length = threads.length := hend.length
    rw [← hsame, hlen]
    exact (List.getElem?_eq_some_iff.1 hload).1
  rcases hdone i hi with hdead | ⟨r, hr⟩
  · exact .inl hdead
  · obtain ⟨heq, -⟩ := hresult i pa t r hload hr
    rw [← heq]
    exact .inr hr

end Life

theorem free_mutex : ∀ idx p, (fun _ => .free : ℕ → Mutex) idx ≠ .held p := nofun

/-- A reader dies with the mutex of its first look-up. -/
theorem dies_holding {α : Type} {threads : List (Thread UInt64 Page α)} {s : Shm} {p : ℕ} {key : UInt64}
    {next : Option Page → Thread UInt64 Page α} (hth : threads[p]? = some (.get key next)) (hk : key ≠ emptyKey)
    (hp : s.proc p = .idle) (hm : s.Open key) :
    ∃ s', ReaderSteps (fun s a => ¬ Tears s a) (threads, s) (threads, s') ∧ s'.proc p = .dead ∧
      (∀ q, q ≠ p → s'.proc q = s.proc q) ∧ s'.mutex (locate key).1 = .ownerDead := by
  have hcall : ReaderStep (threads, s) (.call p (.get key))
      (threads, { s.move p (.waiting (.get key)) s.mem with puts := s.puts }) :=
    .call hth rfl hk (.call hp hk)
  generalize hs₁ : ({ s.move p (.waiting (.get key)) s.mem with puts := s.puts } : Shm) = s₁ at hcall
  have hproc : s₁.proc p = .waiting (.get key) := by
    rw [← hs₁]
    exact move_self s ..
  have hlock : Step s₁ (.next p) (s₁.switch p (.locked (.get key)) (locate key).1 (.held p)) :=
    .lock hproc (by rw [← hs₁]; exact hm)
  have hlocked : (s₁.switch p (.locked (.get key)) (locate key).1 (.held p)).proc p = .locked (.get key) := switch_self s₁ ..
  -- it holds no half-copied page
  have hwhole : ¬ Tears (s₁.switch p (.locked (.get key)) (locate key).1 (.held p)) (.die p) := by
    rintro ⟨key', page, w, n, hcopy, -⟩
    rw [hlocked] at hcopy
    cases hcopy
  have hdie := Step.die (p := p) (by rw [hlocked]; nofun : (s₁.switch p (.locked (.get key)) (locate key).1 (.held p)).proc p ≠ .dead)
  refine ⟨_, (((ReaderSteps.nil.snoc id hcall).snoc id (.inside hlock (by rw [hlocked]; nofun))).snoc hwhole (.die hdie)),
    Function.update_self .., fun q hq => ?_, ?_⟩
  · change Function.update (Function.update s₁.proc p _) p _ q = s.proc q
    rw [Function.update_of_ne hq, Function.update_of_ne hq, ← hs₁]
    exact move_other s hq ..
  · change (if Function.update s₁.mutex (locate key).1 (.held p) (locate key).1 = .held p then _ else _) = Mutex.ownerDead
    rw [Function.update_self, if_pos rfl]

/-- Three saves, and a cache with two readers of one page. The first dies with the mutex
that both of them need. -/
structure Abandoned (dir : Dir) (store : PageStore) (key : UInt64) (s : Shm) : Prop where
  life : SteppedLife Zstd.raw (fun s a => ¬ Tears s a) [47] [.run (.session threeSaves), .create] dir (some (create none [47]))
  opened : PageStore.open dir = .ok store
  begins : ∃ next, SharedReads.loadPage Zstd.raw store 0 4 = .get key next
  steps : ReaderSteps (fun s a => ¬ Tears s a)
    (readers Zstd.raw store [(0, 4), (0, 4)], Shm.attach (create none [47]).mem fun _ => .free)
    (readers Zstd.raw store [(0, 4), (0, 4)], s)
  dead : s.proc 0 = .dead
  alive : s.proc 1 ≠ .dead
  mutex : s.mutex (locate key).1 = .ownerDead

theorem exists_abandoned : ∃ dir store key s, Abandoned dir store key s := by
  obtain ⟨dir, store, hrun, hopen⟩ := exists_runs
  have hlife : SteppedLife Zstd.raw (fun s a => ¬ Tears s a) [47] ([] ++ [.run (.session threeSaves)] ++ [.create]) dir
      (some (create none [47])) := .create (.run .empty hrun)
  obtain ⟨key, next, hget, hk⟩ := threeSaves_begins hrun hopen
  obtain ⟨s, hsteps, hdead, hothers, hmutex⟩ :=
    dies_holding (s := Shm.attach (create none [47]).mem fun _ => .free)
      (show (readers Zstd.raw store [(0, 4), (0, 4)])[0]? = _ from congrArg some hget) hk rfl (.inl rfl)
  exact ⟨dir, store, key, s, hlife, hopen, ⟨next, hget⟩, hsteps, hdead, by rw [hothers 1 one_ne_zero]; nofun, hmutex⟩

/-- The other one recovers the mutex, and ends with the page. -/
theorem stepped_reads_noise : ∃ dir store key s₀ threads s r, Abandoned dir store key s₀ ∧
    ReaderSteps (fun s a => ¬ Tears s a)
      (readers Zstd.raw store [(0, 4), (0, 4)], Shm.attach (create none [47]).mem fun _ => .free) (threads, s) ∧
    threads[1]? = some (.done r) ∧ r = loadPage Zstd.raw dir 0 4 := by
  obtain ⟨dir, store, key, s₀, h⟩ := exists_abandoned
  obtain ⟨W, hW, hoffers, hheld⟩ := (steppedLife_ok Zstd.raw_roundTrip h.life).offers Zstd.raw_roundTrip h.opened open_created
    [(0, 4), (0, 4)]
  obtain ⟨⟨threads, s⟩, hend, -, hdone⟩ := ((ReadersOk.attach free_mutex hheld hoffers).steps h.steps).finish_all
  have hrun := h.steps.trans hend.noDeath
  obtain ⟨-, hresult⟩ :=
    stepped_reads Zstd.raw_roundTrip h.life (functional_of_ids (by decide)) h.opened open_created _ free_mutex hrun
  obtain ⟨r, hr⟩ := (hdone 1 Nat.one_lt_two).resolve_left h.alive
  obtain ⟨heq, -⟩ := hresult 1 0 4 r rfl hr
  exact ⟨dir, store, key, s₀, threads, s, r, h, hrun, hr, heq⟩

/-- It can end from there. -/
theorem stepped_end_noise : ∃ dir store key s₀ threads s, Abandoned dir store key s₀ ∧
    ReaderSteps NoDeath (readers Zstd.raw store [(0, 4), (0, 4)], s₀) (threads, s) ∧ Quiet s ∧
    threads[1]? = some (.done (loadPage Zstd.raw dir 0 4)) := by
  obtain ⟨dir, store, key, s₀, h⟩ := exists_abandoned
  obtain ⟨threads, s, hend, hquiet, hdone⟩ :=
    stepped_end Zstd.raw_roundTrip h.life (functional_of_ids (by decide)) h.opened open_created [(0, 4), (0, 4)]
      free_mutex h.steps
  exact ⟨dir, store, key, s₀, threads, s, h, hend, hquiet, (hdone 1 0 4 rfl).resolve_left h.alive⟩

end Bxdb
