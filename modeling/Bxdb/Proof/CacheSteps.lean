import Bxdb.Spec.CacheSteps
import Bxdb.Proof.Cache

/-!
# What a hit returns when processes die

A slot that reports a key holds a page that was put under this key, unless a put is in
the middle of it: its process has written part of another page, or a whole one and not yet
its key (`Tearing`). The process holds the mutex of the slot's metadata page then, so that
nobody reads the slot, until it dies there: the next process finds the mutex consistent
and the slot torn (`Tears`). A death anywhere else leaves every slot whole (`Inv.step`).

* `hits_whole`: **in every run without such a death, each hit returns a page that was put
  under its key.**
* `torn_hit`: a run with one, and a hit on half a page.
-/

namespace Bxdb.SharedCache

open Bytes Memory Shm

/-! ## The slots in memory -/

/-- The bytes of the data page of a way. -/
def slotBytes (m : Mem) (loc : ℕ × ℕ) (w : ℕ) : Bytes := load m (dataPtr (slotOf loc w)) cachePageSize

/-- The way has the same page id and the same page. -/
def SameWay (m m' : Mem) (loc : ℕ × ℕ) (w : ℕ) : Prop :=
  idOf m' loc w = idOf m loc w ∧ slotBytes m' loc w = slotBytes m loc w

theorem length_slotBytes (m : Mem) (loc : ℕ × ℕ) (w : ℕ) : (slotBytes m loc w).length = cachePageSize :=
  length_load _ _ _

section Slots

variable {m : Mem} {loc loc' : ℕ × ℕ} {w w' n : ℕ} {b : UInt8} {key : UInt64}

theorem storeByte_id (h : InTable loc w) (slot : ℕ) :
    idOf (store m (dataPtr slot + n) [b]) loc w = idOf m loc w := by
  have hb := set_below_data h slot
  have hw := h.way
  refine load64_congr (load_store_sep ?_)
  rw [List.length_singleton]
  simp only [NoOverlap, pageIdPtr, setStride] at *
  omega

/-- A byte of a page. -/
theorem storeByte_self :
    slotBytes (store m (dataPtr (slotOf loc w) + n) [b]) loc w = (slotBytes m loc w).set n b := load_store_byte

theorem storeByte_other (h : InTable loc w) (h' : InTable loc' w') (hn : n < cachePageSize)
    (hne : ¬ (loc = loc' ∧ w = w')) :
    slotBytes (store m (dataPtr (slotOf loc' w') + n) [b]) loc w = slotBytes m loc w := by
  have hslot : slotOf loc w ≠ slotOf loc' w' := fun heq => hne (slotOf_inj h h' heq)
  refine load_store_sep ?_
  have hsep := sep_data hslot
  rw [List.length_singleton]
  simp only [NoOverlap] at *
  omega

theorem storeId_self : idOf (store64 m (pageIdPtr (setAt loc) w) key) loc w = key := load64_store64_same _ _ _

theorem storeId_other (h : InTable loc w) (h' : InTable loc' w') (hne : ¬ (loc = loc' ∧ w = w')) :
    idOf (store64 m (pageIdPtr (setAt loc') w') key) loc w = idOf m loc w :=
  load64_congr (load_store64_sep (sep_ids h h' hne))

theorem storeId_bytes (h' : InTable loc' w') :
    slotBytes (store64 m (pageIdPtr (setAt loc') w') key) loc w = slotBytes m loc w :=
  load_store64_sep (noOverlap_comm (sep_id_data h' _))

theorem updateLru_same (h : InTable loc w) (h' : InTable loc' w') : SameWay m (updateLru m (setAt loc') w') loc w :=
  ⟨load64_congr (load_updateLru h'.way (sep_id_timestamps h h')),
    load_updateLru h'.way (noOverlap_comm (sep_timestamps_data h' _))⟩

end Slots

/-! ## The invariant -/

/-- The key whose metadata page the process has locked. -/
def Proc.holds : Proc → Option UInt64
  | .locked c => some c.key
  | .copyIn key _ _ _ => some key
  | .copyOut key _ _ => some key
  | .stamp key _ _ => some key
  | .unlock key _ => some key
  | _ => none

/-- The process is in a call on a key of this metadata page, with the mutex locked. -/
def Holds (s : Shm) (p idx : ℕ) : Prop := ∃ key, (s.proc p).holds = some key ∧ (locate key).1 = idx

/-- The page was put under the key. -/
def WasPut (puts : List (UInt64 × Page)) (key : UInt64) (bytes : Bytes) : Prop :=
  ∃ page, (key, page) ∈ puts ∧ page.bytes = bytes

/-- What a process knows. -/
def ProcOk (m : Mem) (puts : List (UInt64 × Page)) : Proc → Prop
  | .waiting c => c.key ≠ emptyKey ∧ ∀ e ∈ c.passed, e ∈ puts
  | .locked c => c.key ≠ emptyKey ∧ ∀ e ∈ c.passed, e ∈ puts
  | .copyIn key page w n => key ≠ emptyKey ∧ (key, page) ∈ puts ∧ w < 16 ∧ n ≤ cachePageSize ∧
      (slotBytes m (locate key) w).take n = page.bytes.take n
  | .copyOut key w out => key ≠ emptyKey ∧ w < 16 ∧ idOf m (locate key) w = key ∧
      out.length ≤ cachePageSize ∧ out = (slotBytes m (locate key) w).take out.length
  | .stamp key w out => w < 16 ∧ ∀ bytes, out = some bytes → WasPut puts key bytes
  | .unlock key out => ∀ bytes, out = some bytes → WasPut puts key bytes
  | .idle => True
  | .dead => True

/-- The process is in the middle of this slot: it has written part of a page, or a whole
page under a key that is not there yet. -/
def Tearing (m : Mem) (q : Proc) (loc : ℕ × ℕ) (w : ℕ) : Prop :=
  ∃ key page n, q = .copyIn key page w n ∧ locate key = loc ∧ 0 < n ∧ (n < cachePageSize ∨ idOf m loc w ≠ key)

/-- A process dies in the middle of a slot that reports a key. -/
def Tears (s : Shm) : Act → Prop
  | .die p => ∃ key page w n, s.proc p = .copyIn key page w n ∧ 0 < n ∧ idOf s.mem (locate key) w ≠ emptyKey ∧
      (n < cachePageSize ∨ idOf s.mem (locate key) w ≠ key)
  | _ => False

/-- **The invariant.** -/
structure Inv (s : Shm) : Prop where
  mutex : ∀ p idx, s.mutex idx = .held p ↔ Holds s p idx
  proc : ∀ p, ProcOk s.mem s.puts (s.proc p)
  slots : ∀ loc w, InTable loc w → idOf s.mem loc w ≠ emptyKey →
    WasPut s.puts (idOf s.mem loc w) (slotBytes s.mem loc w) ∨ ∃ p, Tearing s.mem (s.proc p) loc w
  hits : ∀ key bytes, (key, bytes) ∈ s.hits → WasPut s.puts key bytes

variable {s s' : Shm} {m m' : Mem} {puts puts' : List (UInt64 × Page)} {p : ℕ} {loc : ℕ × ℕ} {w : ℕ}

theorem WasPut.mono {key : UInt64} {bytes : Bytes} (h : WasPut puts key bytes) (hsub : ∀ e ∈ puts, e ∈ puts') :
    WasPut puts' key bytes := by
  obtain ⟨page, hp, hb⟩ := h
  exact ⟨page, hsub _ hp, hb⟩

/-- A process knows what it knew, as long as the metadata page it holds is not written to. -/
theorem ProcOk.frame {q : Proc} (h : ProcOk m puts q) (hsub : ∀ e ∈ puts, e ∈ puts')
    (hsame : ∀ key w, q.holds = some key → w < 16 → SameWay m m' (locate key) w) : ProcOk m' puts' q := by
  cases q with
  | idle => trivial
  | dead => trivial
  | waiting c => exact ⟨h.1, fun e he => hsub e (h.2 e he)⟩
  | locked c => exact ⟨h.1, fun e he => hsub e (h.2 e he)⟩
  | copyIn key page w n =>
    obtain ⟨hk, hput, hw, hn, htake⟩ := h
    refine ⟨hk, hsub _ hput, hw, hn, ?_⟩
    rw [(hsame key w rfl hw).2]
    exact htake
  | copyOut key w out =>
    obtain ⟨hk, hw, hid, hlen, hout⟩ := h
    obtain ⟨hid', hbytes⟩ := hsame key w rfl hw
    refine ⟨hk, hw, ?_, hlen, ?_⟩
    · rw [hid', hid]
    · rw [hbytes]
      exact hout
  | stamp key w out => exact ⟨h.1, fun bytes hb => (h.2 bytes hb).mono hsub⟩
  | unlock key out => exact fun bytes hb => (h bytes hb).mono hsub

theorem Inv.procOk (h : Inv s) {q : Proc} (hp : s.proc p = q) : ProcOk s.mem s.puts q := by
  rw [← hp]
  exact h.proc p

theorem Tearing.holds {q : Proc} (h : Tearing m q loc w) : ∃ key, q.holds = some key ∧ locate key = loc := by
  obtain ⟨key, page, n, rfl, hloc, -⟩ := h
  exact ⟨key, rfl, hloc⟩

theorem Tearing.congr {q : Proc} (h : Tearing m q loc w) (hid : idOf m' loc w = idOf m loc w) : Tearing m' q loc w := by
  obtain ⟨key, page, n, rfl, hloc, hn, htorn⟩ := h
  refine ⟨key, page, n, rfl, hloc, hn, ?_⟩
  rw [hid]
  exact htorn

/-- Only one process holds a metadata page. -/
theorem Inv.unique (h : Inv s) {p q idx : ℕ} (hp : Holds s p idx) (hq : Holds s q idx) : p = q := by
  have h1 := (h.mutex p idx).2 hp
  rw [(h.mutex q idx).2 hq] at h1
  exact (Mutex.held.inj h1).symm

/-- A slot of a metadata page that this process holds: nobody else is in the middle of it. -/
theorem Inv.own_slot (h : Inv s) (hp : Holds s p loc.1) (hin : InTable loc w) (hid : idOf s.mem loc w ≠ emptyKey) :
    WasPut s.puts (idOf s.mem loc w) (slotBytes s.mem loc w) ∨ Tearing s.mem (s.proc p) loc w := by
  rcases h.slots loc w hin hid with hgood | ⟨q, hq⟩
  · exact .inl hgood
  · obtain ⟨key, hkey, hloc⟩ := hq.holds
    have hqh : Holds s q loc.1 := ⟨key, hkey, by rw [hloc]⟩
    rw [h.unique hp hqh]
    exact .inr hq

/-- **One process moves**, and writes to no metadata page but the one it holds. What is
left to show is about that process and that page. -/
theorem Inv.moved (h : Inv s) {q : Proc} (hmem : ∀ loc w, InTable loc w → ¬ Holds s p loc.1 → SameWay s.mem s'.mem loc w)
    (hproc : s'.proc = Function.update s.proc p q) (hsub : ∀ e ∈ s.puts, e ∈ s'.puts)
    (hmutex : ∀ r idx, s'.mutex idx = .held r ↔ Holds s' r idx) (hq : ProcOk s'.mem s'.puts q)
    (hslots : ∀ loc w, InTable loc w → Holds s p loc.1 → idOf s'.mem loc w ≠ emptyKey →
      WasPut s'.puts (idOf s'.mem loc w) (slotBytes s'.mem loc w) ∨ Tearing s'.mem q loc w)
    (hhits : ∀ key bytes, (key, bytes) ∈ s'.hits → (key, bytes) ∈ s.hits ∨ WasPut s'.puts key bytes) : Inv s' := by
  have hself : s'.proc p = q := by rw [hproc, Function.update_self]
  have hother : ∀ {r}, r ≠ p → s'.proc r = s.proc r := fun hr => by rw [hproc, Function.update_of_ne hr]
  refine ⟨hmutex, fun r => ?_, fun loc w hin hid => ?_, fun key bytes hk => ?_⟩
  · by_cases hr : r = p
    · rw [hr, hself]
      exact hq
    · rw [hother hr]
      refine (h.proc r).frame hsub fun key w hkey hw => ?_
      have hrh : Holds s r (locate key).1 := ⟨key, hkey, rfl⟩
      exact hmem _ _ ⟨(locate_lt key).1, (locate_lt key).2, hw⟩ fun hp => hr (h.unique hrh hp)
  · by_cases hp : Holds s p loc.1
    · rcases hslots loc w hin hp hid with hgood | htear
      · exact .inl hgood
      · exact .inr ⟨p, by rw [hself]; exact htear⟩
    · -- a slot of another metadata page is as it was
      obtain ⟨hid', hbytes⟩ := hmem loc w hin hp
      rw [hid'] at hid ⊢
      rw [hbytes]
      rcases h.slots loc w hin hid with hgood | ⟨r, hr⟩
      · exact .inl (hgood.mono hsub)
      · refine .inr ⟨r, ?_⟩
        obtain ⟨key, hkey, hloc⟩ := hr.holds
        have hne : r ≠ p := by
          rintro rfl
          exact hp ⟨key, hkey, by rw [hloc]⟩
        rw [hother hne]
        exact hr.congr hid'
  · rcases hhits key bytes hk with hold | hnew
    · exact (h.hits key bytes hold).mono hsub
    · exact hnew

/-! ## Each step -/

theorem holds_of_proc {q : Proc} (hproc : s'.proc = Function.update s.proc p q) {r idx : ℕ} :
    Holds s' r idx ↔ if r = p then ∃ key, q.holds = some key ∧ (locate key).1 = idx else Holds s r idx := by
  unfold Holds
  rw [hproc]
  by_cases hr : r = p
  · rw [if_pos hr, hr, Function.update_self]
  · rw [if_neg hr, Function.update_of_ne hr]

/-- A process that holds the same page as before leaves the mutexes right. -/
theorem mutex_of_holds {q : Proc} (h : Inv s) (hproc : s'.proc = Function.update s.proc p q)
    (hholds : q.holds = (s.proc p).holds) (hm : s'.mutex = s.mutex) (r idx : ℕ) :
    s'.mutex idx = .held r ↔ Holds s' r idx := by
  rw [hm, h.mutex, holds_of_proc hproc]
  by_cases hr : r = p
  · rw [if_pos hr, hr, hholds]
    rfl
  · rw [if_neg hr]

theorem not_tearing {q : Proc} (hq : ∀ key page w n, q ≠ .copyIn key page w n) : ¬ Tearing m q loc w := by
  rintro ⟨key, page, n, hq', -⟩
  exact hq key page w n hq'

/-- Steps under the mutex, or outside of every call. -/
theorem Inv.wrote {q : Proc} (h : Inv s) (hholds : q.holds = (s.proc p).holds)
    (hmem : ∀ loc w, InTable loc w → ¬ Holds s p loc.1 → SameWay s.mem m loc w) (hq : ProcOk m s.puts q)
    (hslots : ∀ loc w, InTable loc w → Holds s p loc.1 → idOf m loc w ≠ emptyKey →
      WasPut s.puts (idOf m loc w) (slotBytes m loc w) ∨ Tearing m q loc w) : Inv (s.move p q m) :=
  h.moved hmem rfl (fun _ he => he) (mutex_of_holds h rfl hholds rfl) hq hslots fun _ _ hk => .inl hk

/-- Steps that leave the memory. -/
theorem Inv.read {q : Proc} (h : Inv s) (hold : ∀ key page w n, s.proc p ≠ .copyIn key page w n)
    (hholds : q.holds = (s.proc p).holds) (hq : ProcOk s.mem s.puts q) : Inv (s.move p q s.mem) := by
  refine h.wrote hholds (fun _ _ _ _ => ⟨rfl, rfl⟩) hq ?_
  intro loc w hin hp hid
  exact (h.own_slot hp hin hid).imp_right fun htear => absurd htear (not_tearing hold)

/-- A slot of the page that is held, by a process that does not copy into it. -/
theorem Inv.own_put (h : Inv s) (hp : Holds s p loc.1) (hold : ∀ key page w n, s.proc p ≠ .copyIn key page w n)
    (hin : InTable loc w) (hid : idOf s.mem loc w ≠ emptyKey) :
    WasPut s.puts (idOf s.mem loc w) (slotBytes s.mem loc w) :=
  (h.own_slot hp hin hid).resolve_right (not_tearing hold)

/-- A process that copies is in the middle of its own slot only. -/
theorem Inv.own_other (h : Inv s) {key : UInt64} {page : Page} {w₀ n : ℕ} (hp : s.proc p = .copyIn key page w₀ n)
    (hpl : Holds s p loc.1) (hin : InTable loc w) (hid : idOf s.mem loc w ≠ emptyKey)
    (hself : ¬ (loc = locate key ∧ w = w₀)) : WasPut s.puts (idOf s.mem loc w) (slotBytes s.mem loc w) := by
  rcases h.own_slot hpl hin hid with hgood | htear
  · exact hgood
  · rw [hp] at htear
    obtain ⟨key', page', n', heq, hloc, -⟩ := htear
    obtain ⟨rfl, -, rfl, -⟩ := Proc.copyIn.inj heq
    exact absurd ⟨hloc.symm, rfl⟩ hself

theorem take_set_succ {l bs : Bytes} {n : ℕ} (hl : n < l.length) (hb : n < bs.length) (h : l.take n = bs.take n) :
    (l.set n (bs.getD n 0)).take (n + 1) = bs.take (n + 1) := by
  rw [List.take_add_one, List.take_add_one, List.take_set_of_le (le_refl n), h, List.getElem?_set_self hl,
    List.getD_eq_getElem?_getD, List.getElem?_eq_getElem hb, Option.getD_some]

/-- A byte of the page a put copies. -/
theorem Inv.copyIn (h : Inv s) {key : UInt64} {page : Page} {w₀ n : ℕ} (hp : s.proc p = .copyIn key page w₀ n)
    (hn : n < cachePageSize) : Inv (s.move p (.copyIn key page w₀ (n + 1))
      (store s.mem (dataPtr (slotOf (locate key) w₀) + n) [page.bytes.getD n 0])) := by
  obtain ⟨hk, hput, hw₀, -, htake⟩ := h.procOk hp
  have hin₀ : InTable (locate key) w₀ := ⟨(locate_lt key).1, (locate_lt key).2, hw₀⟩
  have hholds : Holds s p (locate key).1 := ⟨key, by rw [hp]; rfl, rfl⟩
  have hsize : n < page.bytes.length := by
    rw [page.size]
    exact hn
  -- one byte more of the slot is the page's
  have hnext : ((slotBytes s.mem (locate key) w₀).set n (page.bytes.getD n 0)).take (n + 1) = page.bytes.take (n + 1) :=
    take_set_succ (by rw [length_slotBytes]; exact hn) hsize htake
  have hsame : (Proc.copyIn key page w₀ (n + 1)).holds = (s.proc p).holds := by
    rw [hp]
    rfl
  -- no id changes, so other slots keep their pages
  refine h.wrote hsame (fun loc w hin hnot => ?_) ?_ ?_
  · refine ⟨storeByte_id hin _, storeByte_other hin hin₀ hn fun heq => hnot ?_⟩
    rw [heq.1]
    exact hholds
  · refine ⟨hk, hput, hw₀, hn, ?_⟩
    rw [storeByte_self]
    exact hnext
  · intro loc w hin hpl hid
    have hid' : idOf (store s.mem (dataPtr (slotOf (locate key) w₀) + n) [page.bytes.getD n 0]) loc w =
        idOf s.mem loc w := storeByte_id hin _
    rw [hid'] at hid ⊢
    by_cases hself : loc = locate key ∧ w = w₀
    · obtain ⟨hloc, hw⟩ := hself
      subst hloc hw
      by_cases hdone : n + 1 = cachePageSize ∧ idOf s.mem (locate key) w = key
      · -- the last byte of a page whose key is there already
        refine .inl ⟨page, ?_, ?_⟩
        · rw [hdone.2]
          exact hput
        · have hlen : ((slotBytes s.mem (locate key) w).set n (page.bytes.getD n 0)).length ≤ n + 1 := by
            rw [List.length_set, length_slotBytes, hdone.1]
          rw [List.take_of_length_le hlen, List.take_of_length_le (by rw [page.size, hdone.1]; exact le_refl _)] at hnext
          rw [storeByte_self, hnext]
      · -- the slot is being overwritten
        refine .inr ⟨key, page, n + 1, rfl, rfl, Nat.succ_pos n, ?_⟩
        rw [hid']
        rcases Nat.lt_or_ge (n + 1) cachePageSize with hlt | hge
        · exact .inl hlt
        · exact .inr fun heq => hdone ⟨by omega, heq⟩
    · rw [storeByte_other hin hin₀ hn hself]
      exact .inl (h.own_other hp hpl hin hid hself)

/-- The key of the page that was copied. -/
theorem Inv.storeId (h : Inv s) {key : UInt64} {page : Page} {w₀ : ℕ} (hp : s.proc p = .copyIn key page w₀ cachePageSize) :
    Inv (s.move p (.stamp key w₀ none) (store64 s.mem (pageIdPtr (setAt (locate key)) w₀) key)) := by
  obtain ⟨hk, hput, hw₀, -, htake⟩ := h.procOk hp
  have hin₀ : InTable (locate key) w₀ := ⟨(locate_lt key).1, (locate_lt key).2, hw₀⟩
  have hholds : Holds s p (locate key).1 := ⟨key, by rw [hp]; rfl, rfl⟩
  have hsame : (Proc.stamp key w₀ none).holds = (s.proc p).holds := by
    rw [hp]
    rfl
  refine h.wrote hsame (fun loc w hin hnot => ?_) ⟨hw₀, nofun⟩ ?_
  · refine ⟨storeId_other hin hin₀ fun heq => hnot ?_, storeId_bytes hin₀⟩
    rw [heq.1]
    exact hholds
  · intro loc w hin hpl hid
    refine .inl ?_
    -- ids and pages lie apart
    have hbytes : slotBytes (store64 s.mem (pageIdPtr (setAt (locate key)) w₀) key) loc w = slotBytes s.mem loc w :=
      storeId_bytes hin₀
    rw [hbytes]
    by_cases hself : loc = locate key ∧ w = w₀
    · obtain ⟨hloc, hw⟩ := hself
      subst hloc hw
      refine ⟨page, ?_, ?_⟩
      · rw [storeId_self]
        exact hput
      · rw [List.take_of_length_le (by rw [length_slotBytes]),
          List.take_of_length_le (by rw [page.size]; exact le_refl _)] at htake
        exact htake.symm
    · have hid' : idOf (store64 s.mem (pageIdPtr (setAt (locate key)) w₀) key) loc w = idOf s.mem loc w :=
        storeId_other hin hin₀ hself
      rw [hid'] at hid ⊢
      exact h.own_other hp hpl hin hid hself

/-- The mutex is free, or its owner is dead: nobody holds the page. -/
theorem Inv.not_held (h : Inv s) {idx : ℕ} (hm : s.mutex idx = .free ∨ s.mutex idx = .ownerDead) (r : ℕ) :
    ¬ Holds s r idx := by
  intro hr
  rw [(h.mutex r idx).2 hr] at hm
  rcases hm with hm | hm
  · cases hm
  · cases hm

theorem Inv.lock (h : Inv s) {c : Call} (hp : s.proc p = .waiting c)
    (hm : s.mutex (locate c.key).1 = .free ∨ s.mutex (locate c.key).1 = .ownerDead) :
    Inv (s.switch p (.locked c) (locate c.key).1 (.held p)) := by
  have hok := h.procOk hp
  have hnone : ∀ {idx}, ¬ Holds s p idx := by
    rintro idx ⟨key, hkey, -⟩
    rw [hp] at hkey
    cases hkey
  refine h.moved (fun _ _ _ _ => ⟨rfl, rfl⟩) rfl (fun _ he => he) (fun r idx => ?_) hok
    (fun _ _ _ hpl => absurd hpl hnone) (fun _ _ hk => .inl hk)
  rw [holds_of_proc rfl]
  show Function.update s.mutex _ _ idx = _ ↔ _
  by_cases hr : r = p
  · rw [if_pos hr, hr]
    by_cases hidx : idx = (locate c.key).1
    · rw [hidx, Function.update_self]
      exact ⟨fun _ => ⟨c.key, rfl, rfl⟩, fun _ => rfl⟩
    · rw [Function.update_of_ne hidx, h.mutex]
      refine ⟨fun hheld => absurd hheld hnone, ?_⟩
      rintro ⟨key, hkey, rfl⟩
      exact absurd (by rw [← Option.some.inj hkey]) hidx
  · rw [if_neg hr]
    by_cases hidx : idx = (locate c.key).1
    · rw [hidx, Function.update_self]
      exact ⟨fun heq => absurd (Mutex.held.inj heq).symm hr, fun hheld => absurd hheld (h.not_held hm r)⟩
    · rw [Function.update_of_ne hidx, h.mutex]

theorem Inv.unlock (h : Inv s) {key : UInt64} {out : Option Bytes} (hp : s.proc p = .unlock key out) :
    Inv { s.switch p .idle (locate key).1 .free with hits := report key out ++ s.hits } := by
  have hok := h.procOk hp
  have hold : ∀ key page w n, s.proc p ≠ .copyIn key page w n := by
    intro key page w n
    rw [hp]
    nofun
  have hholds : ∀ {idx}, Holds s p idx ↔ (locate key).1 = idx := by
    intro idx
    unfold Holds
    rw [hp]
    exact ⟨fun ⟨k, hk, hidx⟩ => by rw [← hidx, Option.some.inj hk], fun hidx => ⟨key, rfl, hidx⟩⟩
  refine h.moved (fun _ _ _ _ => ⟨rfl, rfl⟩) rfl (fun _ he => he) (fun r idx => ?_) trivial
    (fun _ _ hin hpl hid => .inl (h.own_put hpl hold hin hid)) (fun k bytes hk => ?_)
  · rw [holds_of_proc rfl]
    show Function.update s.mutex _ _ idx = _ ↔ _
    by_cases hidx : idx = (locate key).1
    · rw [hidx, Function.update_self]
      refine ⟨nofun, fun hheld => ?_⟩
      split at hheld
      · obtain ⟨k, hk, -⟩ := hheld
        cases hk
      · rename_i hr
        exact absurd (h.unique hheld (hholds.2 rfl)) hr
    · rw [Function.update_of_ne hidx, h.mutex]
      by_cases hr : r = p
      · rw [if_pos hr, hr, hholds]
        exact ⟨fun heq => absurd heq.symm hidx, fun ⟨k, hk, _⟩ => nomatch hk⟩
      · rw [if_neg hr]
  · rcases List.mem_append.1 hk with hnew | hold'
    · -- the hit that is reported now
      obtain ⟨bytes', hb, heq⟩ := List.mem_map.1 hnew
      obtain ⟨rfl, rfl⟩ := Prod.mk.inj heq
      exact .inr (hok bytes' (Option.mem_toList.1 hb))
    · exact .inl hold'

/-- **A death**, unless it tears a slot. -/
theorem Inv.die (h : Inv s) (hok : ¬ Tears s (.die p)) :
    Inv { s.move p .dead s.mem with mutex := fun idx => if s.mutex idx = .held p then .ownerDead else s.mutex idx } := by
  refine h.moved (fun _ _ _ _ => ⟨rfl, rfl⟩) rfl (fun _ he => he) (fun r idx => ?_) trivial (fun loc w hin hpl hid => ?_)
    (fun _ _ hk => .inl hk)
  · rw [holds_of_proc rfl]
    show (if s.mutex idx = .held p then Mutex.ownerDead else s.mutex idx) = _ ↔ _
    by_cases hr : r = p
    · rw [if_pos hr, hr]
      refine ⟨fun heq => ?_, fun ⟨k, hk, _⟩ => nomatch hk⟩
      split at heq
      · cases heq
      · rename_i hne
        exact absurd heq hne
    · rw [if_neg hr, ← h.mutex]
      split
      · rename_i hheld
        rw [hheld]
        exact ⟨nofun, fun heq => absurd (Mutex.held.inj heq).symm hr⟩
      · rfl
  · rcases h.own_slot hpl hin hid with hgood | htear
    · exact .inl hgood
    · obtain ⟨key, page, n, hp, rfl, hn, htorn⟩ := htear
      exact absurd ⟨key, page, w, n, hp, hn, hid, htorn⟩ hok

/-- A byte of the page a get reads. -/
theorem take_length_snoc {l out : Bytes} (h : out = l.take out.length) (hlt : out.length < l.length) :
    out ++ [l[out.length]] = l.take (out ++ [l[out.length]]).length := by
  rw [List.length_append, List.length_singleton, List.take_add_one, List.getElem?_eq_getElem hlt, Option.toList_some, ← h]

theorem Inv.copyOut (h : Inv s) {key : UInt64} {out : Bytes} (hp : s.proc p = .copyOut key w out)
    (hn : out.length < cachePageSize) :
    Inv (s.move p (.copyOut key w (out ++ [s.mem (dataPtr (slotOf (locate key) w) + out.length)])) s.mem) := by
  obtain ⟨hk, hw, hid, hlen, hout⟩ := h.procOk hp
  have hlt : out.length < (slotBytes s.mem (locate key) w).length := by
    rw [length_slotBytes]
    exact hn
  have hbyte : s.mem (dataPtr (slotOf (locate key) w) + out.length) = (slotBytes s.mem (locate key) w)[out.length] :=
    (getElem_load hlt).symm
  refine h.read ?_ (by rw [hp]; rfl) ⟨hk, hw, hid, ?_, ?_⟩
  · rw [hp]
    nofun
  · rw [List.length_append, List.length_singleton]
    exact hn
  · rw [hbyte]
    exact take_length_snoc hout hlt

/-- The page a get has read: nobody wrote its slot meanwhile. -/
theorem Inv.copied (h : Inv s) {key : UInt64} {out : Bytes} (hp : s.proc p = .copyOut key w out)
    (hn : out.length = cachePageSize) : Inv (s.move p (.stamp key w (some out)) s.mem) := by
  obtain ⟨hk, hw, hid, hlen, hout⟩ := h.procOk hp
  have hold : ∀ key page w n, s.proc p ≠ .copyIn key page w n := by
    rw [hp]
    nofun
  have hgood : WasPut s.puts key (slotBytes s.mem (locate key) w) := by
    have hput := h.own_put ⟨key, by rw [hp]; rfl, rfl⟩ hold ⟨(locate_lt key).1, (locate_lt key).2, hw⟩ (by rw [hid]; exact hk)
    rw [hid] at hput
    exact hput
  refine h.read hold (by rw [hp]; rfl) ⟨hw, fun bytes hb => ?_⟩
  rw [hn, List.take_of_length_le (by rw [length_slotBytes])] at hout
  rw [← Option.some.inj hb, hout]
  exact hgood

/-- The timestamps of a set hold no page. -/
theorem Inv.stamp (h : Inv s) {key : UInt64} {out : Option Bytes} (hp : s.proc p = .stamp key w out) :
    Inv (s.move p (.unlock key out) (updateLru s.mem (setAt (locate key)) w)) := by
  have hok := h.procOk hp
  have hold : ∀ key page w n, s.proc p ≠ .copyIn key page w n := by
    rw [hp]
    nofun
  have hset : InTable (locate key) w := ⟨(locate_lt key).1, (locate_lt key).2, hok.1⟩
  refine h.wrote (by rw [hp]; rfl) (fun loc w' hin _ => updateLru_same hin hset) hok.2 ?_
  intro loc w' hin hpl hid
  obtain ⟨hid', hbytes⟩ := updateLru_same (m := s.mem) hin hset
  rw [hid'] at hid ⊢
  rw [hbytes]
  exact .inl (h.own_put hpl hold hin hid)

/-- **One step keeps the invariant**, unless it tears a slot. -/
theorem Inv.step (h : Inv s) {a : Act} (hok : ¬ Tears s a) (hs : Step s a s') : Inv s' := by
  cases hs with
  | @call p c hp hk =>
    have hnone : ∀ {idx}, ¬ Holds s p idx := by
      rintro idx ⟨key, hkey, -⟩
      rw [hp] at hkey
      cases hkey
    have hholds : (Proc.waiting c).holds = (s.proc p).holds := by
      rw [hp]
      rfl
    exact h.moved (fun _ _ _ _ => ⟨rfl, rfl⟩) rfl (fun _ he => List.mem_append_right _ he)
      (mutex_of_holds h rfl hholds rfl) ⟨hk, fun _ he => List.mem_append_left _ he⟩
      (fun _ _ _ hpl => absurd hpl hnone) (fun _ _ hk => .inl hk)
  | @reserved p c hp hk =>
    -- only the list of puts grows
    refine ⟨h.mutex, fun r => (h.proc r).frame (fun _ he => List.mem_append_right _ he) fun _ _ _ _ => ⟨rfl, rfl⟩,
      fun loc w hin hid => ?_, fun k bytes hk => (h.hits k bytes hk).mono fun _ he => List.mem_append_right _ he⟩
    exact (h.slots loc w hin hid).imp_left fun hgood => hgood.mono fun _ he => List.mem_append_right _ he
  | lock hp hm => exact h.lock hp hm
  | @hit p key w hp hw =>
    have hok := h.procOk hp
    obtain ⟨hlt, hid⟩ := findWay_some hw
    refine h.read ?_ (by rw [hp]; rfl) ⟨hok.1, hlt, hid, Nat.zero_le _, rfl⟩
    rw [hp]
    nofun
  | @miss p key hp hw =>
    refine h.read ?_ (by rw [hp]; rfl) nofun
    rw [hp]
    nofun
  | @choose p key page hp =>
    have hok := h.procOk hp
    refine h.read ?_ (by rw [hp]; rfl) ⟨hok.1, hok.2 _ List.mem_cons_self, chooseWay_lt, Nat.zero_le _, ?_⟩
    · rw [hp]
      nofun
    · rw [List.take_zero, List.take_zero]
  | copyIn hp hn => exact h.copyIn hp hn
  | storeId hp => exact h.storeId hp
  | copyOut hp hn => exact h.copyOut hp hn
  | copied hp hn => exact h.copied hp hn
  | stamp hp => exact h.stamp hp
  | unlock hp => exact h.unlock hp
  | die hp => exact h.die hok

/-- **After any steps** that tear no slot. -/
theorem Inv.steps {s₀ : Shm} (h₀ : Inv s₀) (h : Steps (fun s a => ¬ Tears s a) s₀ s) : Inv s := by
  induction h with
  | nil => exact h₀
  | snoc _ hok hs ih => exact ih.step hok hs

/-- Before any call. -/
theorem Inv.start (m : Mem) (identity : Bytes) : Inv (Shm.start m identity) := by
  have hempty : ∀ {loc w}, InTable loc w → idOf (initMetadata m identity) loc w = emptyKey := by
    intro loc w hin
    by_contra hid
    have ht : table (initMetadata m identity) loc w = some _ := if_pos ⟨hin, hid⟩
    rw [table_initMetadata] at ht
    cases ht
  refine ⟨fun p idx => ⟨nofun, ?_⟩, fun _ => trivial, fun loc w hin hid => absurd (hempty hin) hid, nofun⟩
  rintro ⟨key, hkey, -⟩
  cases hkey

/-! ## Calls that are not interrupted -/

section Runs

variable {ok : Shm → Act → Prop} {s₀ : Shm} {key : UInt64} {page : Page}

theorem Steps.trans (h : Steps ok s₀ s) (h' : Steps ok s s') : Steps ok s₀ s' := by
  induction h' with
  | nil => exact h
  | snoc _ hok hs ih => exact .snoc ih hok hs

/-- Everything but a death is allowed. -/
structure Live (ok : Shm → Act → Prop) : Prop where
  call : ∀ s p c, ok s (.call p c)
  next : ∀ s p, ok s (.next p)

theorem move_move (s : Shm) (p : ℕ) (q q' : Proc) (m m' : Mem) : (s.move p q m).move p q' m' = s.move p q' m' := by
  unfold Shm.move
  rw [Function.update_idem]

/-- A put copies its page. -/
theorem copyIn_run (hl : Live ok) (hp : s.proc p = .copyIn key page w 0) : ∀ n, n ≤ cachePageSize →
    Steps ok s (s.move p (.copyIn key page w n) (store s.mem (dataPtr (slotOf (locate key) w)) (page.bytes.take n))) := by
  intro n
  induction n with
  | zero =>
    intro _
    rw [List.take_zero, store_nil]
    have hself : s.move p (.copyIn key page w 0) s.mem = s := by
      unfold Shm.move
      rw [← hp, Function.update_eq_self]
    rw [hself]
    exact .nil
  | succ n ih =>
    intro hn
    have hlt : n < page.bytes.length := by
      rw [page.size]
      exact hn
    have hlen : (page.bytes.take n).length = n := List.length_take_of_le hlt.le
    refine .snoc (ih (by omega)) (hl.next _ p) ?_
    have hproc : (s.move p (.copyIn key page w n) (store s.mem (dataPtr (slotOf (locate key) w)) (page.bytes.take n))).proc p =
        .copyIn key page w n := Function.update_self _ _ _
    have hstep := Step.copyIn hproc (by omega)
    rw [move_move] at hstep
    -- the bytes stored so far, and one more
    have hmem := store_snoc s.mem (dataPtr (slotOf (locate key) w)) (page.bytes.take n) (page.bytes.getD n 0)
    rw [hlen] at hmem
    have htake : page.bytes.take n ++ [page.bytes.getD n 0] = page.bytes.take (n + 1) := by
      rw [List.take_add_one, List.getD_eq_getElem?_getD, List.getElem?_eq_getElem hlt, Option.getD_some, Option.toList_some]
    rw [htake] at hmem
    rw [← hmem]
    exact hstep

/-- A get reads its slot. -/
theorem copyOut_run (hl : Live ok) (hp : s.proc p = .copyOut key w []) : ∀ n, n ≤ cachePageSize →
    Steps ok s (s.move p (.copyOut key w ((slotBytes s.mem (locate key) w).take n)) s.mem) := by
  intro n
  induction n with
  | zero =>
    intro _
    have hself : s.move p (.copyOut key w []) s.mem = s := by
      unfold Shm.move
      rw [← hp, Function.update_eq_self]
    rw [List.take_zero, hself]
    exact .nil
  | succ n ih =>
    intro hn
    have hlt : n < (slotBytes s.mem (locate key) w).length := by
      rw [length_slotBytes]
      exact hn
    have hlen : ((slotBytes s.mem (locate key) w).take n).length = n := List.length_take_of_le hlt.le
    refine .snoc (ih (by omega)) (hl.next _ p) ?_
    have hproc : (s.move p (.copyOut key w ((slotBytes s.mem (locate key) w).take n)) s.mem).proc p =
        .copyOut key w ((slotBytes s.mem (locate key) w).take n) := Function.update_self _ _ _
    have hstep := Step.copyOut hproc (by rw [hlen]; exact hn)
    rw [move_move, hlen] at hstep
    have hbyte : s.mem (dataPtr (slotOf (locate key) w) + n) = (slotBytes s.mem (locate key) w)[n] := (getElem_load hlt).symm
    rw [List.take_add_one, List.getElem?_eq_getElem hlt, Option.toList_some, ← hbyte]
    exact hstep

/-! The later steps of a call, from what its process did so far. -/

theorem storeId_move (s : Shm) (p : ℕ) (key : UInt64) (page : Page) (w : ℕ) (m : Mem) :
    Step (s.move p (.copyIn key page w cachePageSize) m) (.next p)
      (s.move p (.stamp key w none) (store64 m (pageIdPtr (setAt (locate key)) w) key)) := by
  have hproc : (s.move p (.copyIn key page w cachePageSize) m).proc p = .copyIn key page w cachePageSize :=
    Function.update_self _ _ _
  have hstep := Step.storeId hproc
  rw [move_move] at hstep
  exact hstep

theorem copied_move (s : Shm) (p : ℕ) (key : UInt64) (w : ℕ) {out : Bytes} (hn : out.length = cachePageSize) (m : Mem) :
    Step (s.move p (.copyOut key w out) m) (.next p) (s.move p (.stamp key w (some out)) m) := by
  have hproc : (s.move p (.copyOut key w out) m).proc p = .copyOut key w out := Function.update_self _ _ _
  have hstep := Step.copied hproc hn
  rw [move_move] at hstep
  exact hstep

theorem stamp_move (s : Shm) (p : ℕ) (key : UInt64) (w : ℕ) (out : Option Bytes) (m : Mem) :
    Step (s.move p (.stamp key w out) m) (.next p) (s.move p (.unlock key out) (updateLru m (setAt (locate key)) w)) := by
  have hproc : (s.move p (.stamp key w out) m).proc p = .stamp key w out := Function.update_self _ _ _
  have hstep := Step.stamp hproc
  rw [move_move] at hstep
  exact hstep

/-- The process has returned from a call on this key. -/
def Shm.returned (s : Shm) (p : ℕ) (key : UInt64) (out : Option Bytes) (m : Mem) : Shm :=
  { s.move p .idle m with
    mutex := Function.update s.mutex (locate key).1 .free
    hits := report key out ++ s.hits }

theorem returned_puts (s : Shm) (p : ℕ) (key : UInt64) (out : Option Bytes) (m : Mem) :
    (s.returned p key out m).puts = s.puts := rfl

theorem returned_hit (s : Shm) (p : ℕ) (key : UInt64) (bytes : Bytes) (m : Mem) :
    (s.returned p key (some bytes) m).hits = (key, bytes) :: s.hits := rfl

theorem unlock_move (s : Shm) (p : ℕ) (key : UInt64) (out : Option Bytes) (m : Mem) :
    Step (s.move p (.unlock key out) m) (.next p) (s.returned p key out m) := by
  have hproc : (s.move p (.unlock key out) m).proc p = .unlock key out := Function.update_self _ _ _
  have hstep := Step.unlock hproc
  unfold Shm.switch Shm.move at hstep
  dsimp only at hstep
  rw [Function.update_idem] at hstep
  exact hstep

/-- A put, from the choice of its way. -/
theorem put_tail (hl : Live ok) (hp : s.proc p = .copyIn key page w 0) :
    Steps ok s (s.returned p key none (updateLru (store64 (store s.mem (dataPtr (slotOf (locate key) w)) page.bytes)
      (pageIdPtr (setAt (locate key)) w) key) (setAt (locate key)) w)) := by
  have hcopy := copyIn_run hl hp cachePageSize (le_refl _)
  rw [List.take_of_length_le (by rw [page.size]; exact le_refl _)] at hcopy
  exact ((hcopy.snoc (hl.next _ p) (storeId_move s p key page w _)).snoc (hl.next _ p) (stamp_move s p key w none _)).snoc
    (hl.next _ p) (unlock_move s p key none _)

/-- A get, from the way it found. -/
theorem get_tail (hl : Live ok) (hp : s.proc p = .copyOut key w []) :
    Steps ok s (s.returned p key (some (slotBytes s.mem (locate key) w)) (updateLru s.mem (setAt (locate key)) w)) := by
  have hcopy := copyOut_run hl hp cachePageSize (le_refl _)
  rw [List.take_of_length_le (by rw [length_slotBytes])] at hcopy
  exact ((hcopy.snoc (hl.next _ p) (copied_move s p key w (length_slotBytes _ _ _) _)).snoc (hl.next _ p)
    (stamp_move s p key w _ _)).snoc (hl.next _ p) (unlock_move s p key _ _)

/-- A process has got the mutex for its call. -/
def Shm.entered (s : Shm) (p : ℕ) (c : Call) : Shm :=
  { s.switch p (.locked c) (locate c.key).1 (.held p) with puts := c.passed ++ s.puts }

theorem enter_run (hl : Live ok) (hp : s.proc p = .idle) {c : Call} (hk : c.key ≠ emptyKey)
    (hm : s.mutex (locate c.key).1 = .free ∨ s.mutex (locate c.key).1 = .ownerDead) : Steps ok s (s.entered p c) := by
  have hcall := Step.call hp hk
  generalize hs₁ : ({ s.move p (.waiting c) s.mem with puts := c.passed ++ s.puts } : Shm) = s₁ at hcall
  have hproc : s₁.proc p = .waiting c := by
    rw [← hs₁]
    exact Function.update_self _ _ _
  have hmutex : s₁.mutex = s.mutex := by rw [← hs₁]; rfl
  have hlock := Step.lock hproc (by rw [hmutex]; exact hm)
  have hend : s₁.switch p (.locked c) (locate c.key).1 (.held p) = s.entered p c := by
    rw [← hs₁]
    unfold Shm.entered Shm.switch Shm.move
    dsimp only
    rw [Function.update_idem]
  rw [hend] at hlock
  exact .snoc (.snoc .nil (hl.call s p c) hcall) (hl.next _ p) hlock

/-- The mutex can be locked. -/
def Shm.Open (s : Shm) (key : UInt64) : Prop :=
  s.mutex (locate key).1 = .free ∨ s.mutex (locate key).1 = .ownerDead

theorem choose_entered (s : Shm) (p : ℕ) (key : UInt64) (page : Page) :
    Step (s.entered p (.put key page)) (.next p)
      ((s.entered p (.put key page)).move p (.copyIn key page (putWay s.mem key) 0) s.mem) :=
  Step.choose (Function.update_self _ _ _)

/-- A put has chosen its way. -/
theorem chosen_run (hl : Live ok) (hp : s.proc p = .idle) (hk : key ≠ emptyKey) (hm : s.Open key) (page : Page) :
    ∃ s', Steps ok s s' ∧ s'.mem = s.mem ∧ s'.proc = Function.update s.proc p (.copyIn key page (putWay s.mem key) 0) ∧
      s'.mutex (locate key).1 = .held p ∧ s'.puts = (key, page) :: s.puts ∧ s'.hits = s.hits := by
  have henter : Steps ok s (s.entered p (.put key page)) := enter_run hl hp hk hm
  refine ⟨_, henter.snoc (hl.next _ p) (choose_entered s p key page), rfl, ?_, Function.update_self _ _ _, rfl, rfl⟩
  show Function.update (Function.update s.proc p _) p _ = _
  rw [Function.update_idem]

/-- **A put that is not interrupted** is `put`. -/
theorem put_run (hl : Live ok) (hp : s.proc p = .idle) (hk : key ≠ emptyKey) (hm : s.Open key) (page : Page) :
    ∃ s', Steps ok s s' ∧ s'.mem = put s.mem key page ∧ s'.proc = s.proc ∧ s'.Open key ∧
      s'.puts = (key, page) :: s.puts ∧ s'.hits = s.hits := by
  obtain ⟨s₁, hrun, hmem, hproc, -, hputs, hhits⟩ := chosen_run hl hp hk hm page
  have hself : s₁.proc p = .copyIn key page (putWay s.mem key) 0 := by rw [hproc, Function.update_self]
  have htail := put_tail hl hself
  rw [hmem, ← put_of_ne hk] at htail
  refine ⟨_, hrun.trans htail, rfl, ?_, .inl (Function.update_self _ _ _), hputs, hhits⟩
  show Function.update s₁.proc p .idle = s.proc
  rw [hproc, Function.update_idem, ← hp, Function.update_eq_self]

/-- **A get that is not interrupted** reports the page of the way it found. -/
theorem get_run (hl : Live ok) (hp : s.proc p = .idle) (hk : key ≠ emptyKey) (hm : s.Open key)
    (hw : findWay (pageIds s.mem (setAt (locate key))) key = some w) :
    ∃ s', Steps ok s s' ∧ s'.proc = s.proc ∧ s'.puts = s.puts ∧
      s'.hits = (key, slotBytes s.mem (locate key) w) :: s.hits := by
  have henter : Steps ok s (s.entered p (.get key)) := enter_run hl hp hk hm
  obtain ⟨s₁, hs₁⟩ : ∃ s₁, s₁ = (s.entered p (.get key)).move p (.copyOut key w []) s.mem := ⟨_, rfl⟩
  have hhit : Step (s.entered p (.get key)) (.next p) s₁ := by
    rw [hs₁]
    exact Step.hit (Function.update_self _ _ _) hw
  have hproc : s₁.proc p = .copyOut key w [] := by
    rw [hs₁]
    exact Function.update_self _ _ _
  have hmem : s₁.mem = s.mem := by rw [hs₁]; rfl
  have hrest : s₁.puts = s.puts ∧ s₁.hits = s.hits := by
    rw [hs₁]
    exact ⟨rfl, rfl⟩
  have htail := get_tail hl hproc
  rw [hmem] at htail
  refine ⟨_, (henter.snoc (hl.next _ p) hhit).trans htail, ?_, ?_, ?_⟩
  · rw [hs₁]
    show Function.update (Function.update (Function.update s.proc p _) p _) p .idle = s.proc
    rw [Function.update_idem, Function.update_idem, ← hp, Function.update_eq_self]
  · rw [returned_puts, hrest.1]
  · rw [returned_hit, hrest.2]

/-- A process dies with the mutex of its key. -/
theorem die_held (halive : s.proc p ≠ .dead) (hok : ok s (.die p)) (hm : s.mutex (locate key).1 = .held p) :
    ∃ s', Steps ok s s' ∧ s'.mem = s.mem ∧ s'.proc = Function.update s.proc p .dead ∧ s'.Open key ∧ s'.puts = s.puts ∧
      s'.hits = s.hits :=
  ⟨_, .snoc .nil hok (.die halive), rfl, rfl, .inr (if_pos hm), rfl, rfl⟩

/-- A put whose process dies before the first byte. -/
theorem spared_run (hl : Live ok) (hdie : ∀ s page w, s.proc p = .copyIn key page w 0 → ok s (.die p))
    (hp : s.proc p = .idle) (hk : key ≠ emptyKey) (hm : s.Open key) (page : Page) :
    ∃ s', Steps ok s s' ∧ s'.mem = s.mem ∧ s'.proc = Function.update s.proc p .dead ∧ s'.Open key ∧
      s'.puts = (key, page) :: s.puts ∧ s'.hits = s.hits := by
  obtain ⟨s₁, hrun, hmem, hproc, hmutex, hputs, hhits⟩ := chosen_run hl hp hk hm page
  have hself : s₁.proc p = .copyIn key page (putWay s.mem key) 0 := by rw [hproc, Function.update_self]
  obtain ⟨s', hrun', hmem', hproc', hopen, hputs', hhits'⟩ :=
    die_held (by rw [hself]; nofun) (hdie s₁ page _ hself) hmutex
  exact ⟨s', hrun.trans hrun', hmem'.trans hmem, by rw [hproc', hproc, Function.update_idem], hopen, hputs'.trans hputs,
    hhits'.trans hhits⟩

/-- A put over a key that is there, whose process dies after the first byte. -/
theorem torn_run (hok : ∀ s a, ok s a) (hp : s.proc p = .idle) (hk : key ≠ emptyKey) (hm : s.Open key)
    (hw : findWay (pageIds s.mem (setAt (locate key))) key = some w) (page : Page) :
    ∃ s', Steps ok s s' ∧ s'.mem = store s.mem (dataPtr (slotOf (locate key) w) + 0) [page.bytes.getD 0 0] ∧
      (∀ q, q ≠ p → s'.proc q = s.proc q) ∧ s'.Open key ∧ s'.puts = (key, page) :: s.puts ∧ s'.hits = s.hits := by
  have hway : putWay s.mem key = w := by
    unfold putWay chooseWay
    rw [hw, Option.some_or]
  obtain ⟨s₁, hrun, hmem, hproc, hmutex, hputs, hhits⟩ :=
    chosen_run ⟨fun _ _ _ => hok _ _, fun _ _ => hok _ _⟩ hp hk hm page
  rw [hway] at hproc
  have hself : s₁.proc p = .copyIn key page w 0 := by rw [hproc, Function.update_self]
  have hcopy := Step.copyIn hself (by decide)
  rw [hmem] at hcopy
  obtain ⟨m, hm'⟩ : ∃ m, m = store s.mem (dataPtr (slotOf (locate key) w) + 0) [page.bytes.getD 0 0] := ⟨_, rfl⟩
  rw [← hm'] at hcopy ⊢
  have halive : (s₁.move p (.copyIn key page w (0 + 1)) m).proc p ≠ .dead := by
    show Function.update s₁.proc p _ p ≠ .dead
    rw [Function.update_self]
    nofun
  obtain ⟨s', hrun', hmem₂, hproc', hopen, hputs', hhits'⟩ := die_held halive (hok _ _) hmutex
  refine ⟨s', (hrun.snoc (hok _ _) hcopy).trans hrun', hmem₂, fun q hq => ?_, hopen, hputs'.trans hputs, hhits'.trans hhits⟩
  rw [hproc', Function.update_of_ne hq]
  show Function.update s₁.proc p _ q = s.proc q
  rw [Function.update_of_ne hq, hproc, Function.update_of_ne hq]

/-- The one way of a key that was put into an empty cache. -/
theorem findWay_put {m : Mem} (hempty : ∀ loc w, table m loc w = none) (hk : key ≠ emptyKey) (page : Page) :
    findWay (pageIds (put m key page) (setAt (locate key))) key = some (putWay m key) := by
  have hput := put_inTable m key
  cases hw : findWay (pageIds (put m key page) (setAt (locate key))) key with
  | none => exact absurd (idOf_put_self hk) (findWay_none hw hput.way)
  | some w =>
    obtain ⟨hlt, hid⟩ := findWay_some hw
    have hin : InTable (locate key) w := ⟨hput.page, hput.set, hlt⟩
    by_contra hne
    have hold : idOf m (locate key) w = key := by
      rw [← idOf_put hk hin fun heq => hne (by rw [heq.2]), hid]
    have hheld : table m (locate key) w = some (key, pageOf m (locate key) w) := table_eq_some.2 ⟨hin, hold, hk, rfl⟩
    rw [hempty] at hheld
    cases hheld

theorem slotBytes_put (m : Mem) (hk : key ≠ emptyKey) (page : Page) :
    slotBytes (put m key page) (locate key) (putWay m key) = page.bytes := by
  have hpage : pageOf (put m key page) (locate key) (putWay m key) = page := pageOf_put_self hk
  exact pageFrom_eq_page.1 hpage

/-- A put on an initialised cache, with the way its key has then. -/
theorem first_put (hl : Live ok) (m : Mem) (identity : Bytes) (hk : key ≠ emptyKey) (page : Page) :
    ∃ s w, Steps ok (Shm.start m identity) s ∧ (∀ p, s.proc p = .idle) ∧ s.Open key ∧ s.puts = [(key, page)] ∧
      s.hits = [] ∧ findWay (pageIds s.mem (setAt (locate key))) key = some w ∧
      slotBytes s.mem (locate key) w = page.bytes := by
  obtain ⟨s₀, hs₀⟩ : ∃ s₀, s₀ = Shm.start m identity := ⟨_, rfl⟩
  have hempty : ∀ loc w, table s₀.mem loc w = none := by
    rw [hs₀]
    exact table_initMetadata m identity
  have hidle : ∀ p, s₀.proc p = .idle := by
    rw [hs₀]
    exact fun _ => rfl
  have hopen : s₀.Open key := by
    rw [hs₀]
    exact .inl rfl
  have hnone : s₀.puts = [] ∧ s₀.hits = [] := by
    rw [hs₀]
    exact ⟨rfl, rfl⟩
  obtain ⟨s, hrun, hmem, hproc, hopen', hputs, hhits⟩ := put_run hl (hidle 0) hk hopen page
  rw [← hs₀]
  refine ⟨s, putWay s₀.mem key, hrun, fun p => by rw [hproc, hidle], hopen', by rw [hputs, hnone.1], by rw [hhits, hnone.2],
    ?_, ?_⟩
  · rw [hmem]
    exact findWay_put hempty hk page
  · rw [hmem]
    exact slotBytes_put s₀.mem hk page

/-- **A put over the same key, torn after its first byte**, and a get that hits. -/
theorem torn_hit_run (hok : ∀ s a, ok s a) (m : Mem) (identity : Bytes) (hk : key ≠ emptyKey) (page page' : Page) :
    ∃ s, Steps ok (Shm.start m identity) s ∧ s.puts = [(key, page'), (key, page)] ∧
      s.hits = [(key, page.bytes.set 0 (page'.bytes.getD 0 0))] := by
  have hl : Live ok := ⟨fun _ _ _ => hok _ _, fun _ _ => hok _ _⟩
  obtain ⟨s, w, hrun, hidle, hopen, hputs, hhits, hw, hbytes⟩ := first_put hl m identity hk page
  obtain ⟨s₁, hrun₁, hmem₁, hproc₁, hopen₁, hputs₁, hhits₁⟩ := torn_run hok (hidle 1) hk hopen hw page'
  have hlt := (findWay_some hw).1
  have hin : ∀ {w}, w < 16 → InTable (locate key) w := fun hw => ⟨(locate_lt key).1, (locate_lt key).2, hw⟩
  -- the byte changes no page id
  have hids : pageIds s₁.mem (setAt (locate key)) = pageIds s.mem (setAt (locate key)) := by
    refine loadWords_congr fun i hi => ?_
    rw [hmem₁]
    exact storeByte_id (hin hi) _
  have hw₁ : findWay (pageIds s₁.mem (setAt (locate key))) key = some w := by rw [hids, hw]
  have hidle₁ : s₁.proc 2 = .idle := by rw [hproc₁ 2 (by decide), hidle]
  obtain ⟨s₂, hrun₂, -, hputs₂, hhits₂⟩ := get_run hl hidle₁ hk hopen₁ hw₁
  refine ⟨s₂, (hrun.trans hrun₁).trans hrun₂, by rw [hputs₂, hputs₁, hputs], ?_⟩
  rw [hhits₂, hhits₁, hhits, hmem₁, storeByte_self, hbytes]

end Runs

/-- A page of ones. -/
def onesPage : Page := ⟨List.replicate pageSize 1, List.length_replicate⟩

/-- **A torn hit**: a put of zeroes, a put of ones over it whose process dies after one
byte, and a get that returns neither. -/
theorem torn_hit : ¬ ∀ s, Steps (fun _ _ => True) (Shm.start (fun _ => 0) []) s → ∀ key bytes, (key, bytes) ∈ s.hits →
    ∃ page, (key, page) ∈ s.puts ∧ page.bytes = bytes := by
  intro hall
  have hk : (1 : UInt64) ≠ emptyKey := by decide
  obtain ⟨s, hrun, hputs, hhits⟩ :=
    torn_hit_run (fun (_ : Shm) (_ : Act) => trivial) (fun _ => 0) [] hk Page.zero onesPage
  obtain ⟨page, hmem, hbytes⟩ := hall s hrun 1 _ (by rw [hhits]; exact List.mem_cons_self)
  have hone : onesPage.bytes.getD 0 0 = 1 := rfl
  rw [hone] at hbytes
  have h0 : page.bytes[0]? = some 1 := by rw [hbytes]; rfl
  have h1 : page.bytes[1]? = some 0 := by rw [hbytes]; rfl
  rw [hputs] at hmem
  rcases List.mem_cons.1 hmem with heq | hmem
  · obtain rfl := (Prod.mk.inj heq).2
    have : onesPage.bytes[1]? = some 1 := rfl
    rw [this] at h1
    cases h1
  · obtain rfl := (Prod.mk.inj (List.mem_singleton.1 hmem)).2
    have : Page.zero.bytes[0]? = some 0 := rfl
    rw [this] at h0
    cases h0

/-- **A hit returns a page that was put under its key**, in every run, of any number of
processes, in which no process dies in the middle of a slot that reports a key. -/
theorem hits_whole (m : Mem) (identity : Bytes) (s : Shm)
    (h : Steps (fun s a => ¬ Tears s a) (Shm.start m identity) s) (key : UInt64) (bytes : Bytes)
    (hhit : (key, bytes) ∈ s.hits) : ∃ page, (key, page) ∈ s.puts ∧ page.bytes = bytes :=
  ((Inv.start m identity).steps h).hits key bytes hhit

/-- A put of zeroes, a put of ones whose process dies before it copies a byte, and a get
that recovers the mutex. -/
theorem hits_whole_put : ∃ s : Shm, s.proc 1 = .dead ∧ s.puts = [(1, onesPage), (1, Page.zero)] ∧
    s.hits = [(1, Page.zero.bytes)] ∧ ∃ page : Page, (1, page) ∈ s.puts ∧ page.bytes = Page.zero.bytes := by
  have hk : (1 : UInt64) ≠ emptyKey := by decide
  have hl : Live fun s a => ¬ Tears s a := ⟨fun _ _ _ h => h, fun _ _ h => h⟩
  obtain ⟨s, w, hrun, hidle, hopen, hputs, hhits, hw, hbytes⟩ := first_put hl (fun _ => 0) [] hk Page.zero
  -- nothing is copied yet
  obtain ⟨s₁, hrun₁, hmem₁, hproc₁, hopen₁, hputs₁, hhits₁⟩ := spared_run (p := 1) hl (fun s page w hcopy => by
    rintro ⟨key, page', w', n, hcopy', hn, -⟩
    obtain ⟨-, -, -, rfl⟩ := Proc.copyIn.inj (hcopy.symm.trans hcopy')
    exact absurd hn (Nat.lt_irrefl 0)) (hidle 1) hk hopen onesPage
  rw [← hmem₁] at hw hbytes
  have hidle₁ : s₁.proc 2 = .idle := by rw [hproc₁, Function.update_of_ne (by decide), hidle]
  obtain ⟨s₂, hrun₂, hproc₂, hputs₂, hhits₂⟩ := get_run hl hidle₁ hk hopen₁ hw
  rw [hhits₁, hhits, hbytes] at hhits₂
  refine ⟨s₂, by rw [hproc₂, hproc₁, Function.update_self], by rw [hputs₂, hputs₁, hputs], hhits₂, ?_⟩
  exact hits_whole (fun _ => 0) [] s₂ ((hrun.trans hrun₁).trans hrun₂) 1 Page.zero.bytes
    (by rw [hhits₂]; exact List.mem_cons_self)

end Bxdb.SharedCache
