import Bxdb.Spec.CApi
import Bxdb.Proof.OpenReader

/-!
# What a host program reads through the C interface

`call_step` says what a call that returns can do. Every such step keeps the directory a
database of the saves the program made (`HostDir`) and every reader one that was opened on
the saves there were then, with the later ones beside it (`Reading`).

* `hostRun_ok`: the invariant, over any calls.
* `capi_reads`: **loads below the later saves return what the handle was opened on**, and a
  database that no handle appends to can be opened and loaded whole.
-/

namespace Bxdb

open Buffered Versioned

/-! ## Handles -/

section Handles

variable {h : Host} {p q : ℕ}

/-- A pointer leads to the handle for appending or to one of the others. -/
theorem Host.handle_cases {x : BxdbHandle} (hp : h.handle p = some x) :
    (∃ db, x = .appendOnly db ∧ h.writer = some (p, db)) ∨
    ∃ o, x = o.elim .dummy .btree ∧ h.others p = some o ∧ ∀ db, h.writer ≠ some (p, db) := by
  unfold Host.handle at hp
  split at hp
  · rename_i q db hw
    split at hp
    · rename_i hpq
      exact .inl ⟨db, (Option.some.inj hp).symm, by rw [hw, hpq]⟩
    · rename_i hpq
      obtain ⟨o, ho, rfl⟩ := Option.map_eq_some_iff.1 hp
      refine .inr ⟨o, rfl, ho, fun db' h' => hpq ?_⟩
      exact congrArg Prod.fst (Option.some.inj (h'.symm.trans hw))
  · rename_i hw
    obtain ⟨o, ho, rfl⟩ := Option.map_eq_some_iff.1 hp
    exact .inr ⟨o, rfl, ho, fun db' h' => by rw [hw] at h'; cases h'⟩

theorem Host.handle_other (hother : ∀ db, h.writer ≠ some (p, db)) :
    h.handle p = (h.others p).map fun o => o.elim .dummy .btree := by
  unfold Host.handle
  split
  · rename_i q db hw
    rw [if_neg fun hpq => hother db (by rw [hw, hpq])]
  · rfl

theorem Host.handle_writer {db : AppendOnlyDb} (hw : h.writer = some (p, db)) : h.handle p = some (.appendOnly db) := by
  unfold Host.handle
  rw [hw]
  exact if_pos rfl

theorem Host.handle_btree {r : Reader} : h.handle p = some (.btree r) ↔
    h.others p = some (some r) ∧ ∀ db, h.writer ≠ some (p, db) := by
  constructor
  · intro hp
    rcases Host.handle_cases hp with ⟨db, hx, -⟩ | ⟨o, hx, ho, hother⟩
    · cases hx
    · cases o with
      | none => cases hx
      | some r' =>
        obtain rfl := BxdbHandle.btree.inj hx
        exact ⟨ho, hother⟩
  · rintro ⟨ho, hother⟩
    rw [Host.handle_other hother, ho]
    rfl

/-- A new handle is at an address where there was none. -/
theorem Host.Fresh.ne {x : BxdbHandle} (hf : h.Fresh p) (hq : h.handle q = some x) : q ≠ p := by
  rintro rfl
  rw [hf] at hq
  cases hq

/-- Handles at other addresses stay. -/
theorem Host.handle_update (hqp : q ≠ p) (o : Option (Option Reader)) :
    Host.handle { h with others := Function.update h.others p o } q = h.handle q := by
  unfold Host.handle
  dsimp only
  rw [Function.update_of_ne hqp]

theorem Host.disk_idle (hw : h.writer = none) : h.disk = h.dir := by
  unfold Host.disk
  rw [hw]

end Handles

/-! ## What a call can do -/

theorem CResult.map_returned {α β : Type} {x : Res α} {f : α → β} {b : β} :
    (CResult.expect x).map f = .returned b ↔ ∃ a, x = .ok a ∧ f a = b := by
  cases x with
  | error e => simp [CResult.expect, CResult.map]
  | ok a => simp [CResult.expect, CResult.map]

/-- **The steps of a process** and of what its program knows. -/
inductive HostStep (z : Zstd) (c : Client) (h : Host) : Client → Host → Prop
  | same : HostStep z c h c h
  | add {p : ℕ} {o : Option Reader} (hfresh : h.Fresh p) :
      HostStep z c h c { h with others := Function.update h.others p (some o) }
  | openWriter {p n : ℕ} {t : UInt16} {u : Bool} {db : AppendOnlyDb} (hfresh : h.Fresh p) (hidle : h.writer = none)
      (hopen : AppendOnlyDb.open h.dir n t u = .ok db) :
      HostStep z c h { c with writer := some (p, c.saved) } { h with writer := some (p, db) }
  | openReader {p : ℕ} {r : Reader} (hfresh : h.Fresh p) (hidle : h.writer = none) (hopen : Reader.open h.dir = .ok r) :
      HostStep z c h { c with readers := Function.update c.readers p (some c.saved) }
        { h with others := Function.update h.others p (some (some r)) }
  | closeWriter {p : ℕ} {db : AppendOnlyDb} {dir : Dir} (hwriter : h.writer = some (p, db)) (hclose : db.close = .ok dir) :
      HostStep z c h { c with writer := none, readers := Function.update c.readers p none }
        { h with dir := dir, writer := none }
  | closeOther {p : ℕ} (hother : ∀ db, h.writer ≠ some (p, db)) :
      HostStep z c h { c with readers := Function.update c.readers p none }
        { h with others := Function.update h.others p none }
  | save {p : ℕ} {db db' : AppendOnlyDb} {call : SaveCall} {schedule : List (ℕ × Fault)} (hwriter : h.writer = some (p, db))
      (hsave : call.run z schedule db = some (db', .ok ())) :
      HostStep z c h { c with saved := c.saved ++ [call] } { h with writer := some (p, db') }
  | load {p : ℕ} {r r' : Reader} {pa : UInt64} {s : UInt32} {result : Res (Option Page)}
      (hreader : h.handle p = some (.btree r)) (hload : r.loadPage z h.disk pa s = (r', result)) :
      HostStep z c h c { h with others := Function.update h.others p (some (some r')) }

/-- The program knows which handle appends. -/
def Linked (c : Client) (h : Host) : Prop := c.writer.map Prod.fst = h.writer.map Prod.fst

section Call

variable {z : Zstd} {c : Client} {h h' : Host} {v : CValue} {schedule : List (ℕ × Fault)} {fresh p : ℕ}

theorem Linked.writer {db : AppendOnlyDb} (hl : Linked c h) (hw : h.writer = some (p, db)) :
    ∃ pre, c.writer = some (p, pre) := by
  unfold Linked at hl
  rw [hw] at hl
  obtain ⟨⟨q, pre⟩, hq, rfl⟩ := Option.map_eq_some_iff.1 hl
  exact ⟨pre, hq⟩

theorem Linked.other (hl : Linked c h) (hother : ∀ db, h.writer ≠ some (p, db)) (pre : List SaveCall) :
    c.writer ≠ some (p, pre) := by
  intro hc
  unfold Linked at hl
  rw [hc] at hl
  obtain ⟨⟨q, db⟩, hq, rfl⟩ := Option.map_eq_some_iff.1 hl.symm
  exact hother db hq

theorem Linked.idle (hl : Linked c h) : c.writer.isNone ↔ h.writer = none := by
  unfold Linked at hl
  rw [Option.isNone_iff_eq_none, ← Option.map_eq_none_iff (f := Prod.fst), hl, Option.map_eq_none_iff]

/-- A save call, through a handle of any kind. -/
theorem save_step {call : SaveCall} (hl : Linked c h)
    (hcall : ((h.handle p).bind fun
      | .appendOnly db => h.save z schedule p db call
      | _ => some (.returned (h, .void))) = some (.returned (h', v))) : HostStep z c h (c.save p call) h' := by
  obtain ⟨x, hx, hcall⟩ := Option.bind_eq_some_iff.1 hcall
  rcases Host.handle_cases hx with ⟨db, rfl, hw⟩ | ⟨o, rfl, -, hother⟩
  · obtain ⟨⟨db', r⟩, hrun, hr⟩ := Option.map_eq_some_iff.1 hcall
    obtain ⟨_, rfl, hret⟩ := CResult.map_returned.1 hr
    obtain ⟨rfl, rfl⟩ := Prod.mk.inj hret
    obtain ⟨pre, hc⟩ := hl.writer hw
    have hsave : c.save p call = { c with saved := c.saved ++ [call] } := by
      unfold Client.save
      rw [hc]
      exact if_pos (by simp)
    rw [hsave]
    exact .save hw hrun
  · -- another kind of handle: the call does nothing
    have hh : h' = h := by
      cases o with
      | none => exact (congrArg Prod.fst (CResult.returned.inj (Option.some.inj hcall))).symm
      | some r => exact (congrArg Prod.fst (CResult.returned.inj (Option.some.inj hcall))).symm
    have hsave : c.save p call = c := by
      unfold Client.save
      cases hc : c.writer with
      | none => exact if_neg (by simp)
      | some w =>
        refine if_neg fun hp => ?_
        have hwp : w.1 = p := by simpa using hp
        exact hl.other hother w.2 (by rw [hc, ← hwp])
    rw [hsave, hh]
    exact .same

/-- A call without effect. -/
theorem same_step {c' : Client} {v' : CValue} (hc : c' = c)
    (hcall : some (CResult.returned (h, v')) = some (.returned (h', v))) :
    HostStep z c h c' h' := by
  obtain ⟨rfl, -⟩ := Prod.mk.inj (CResult.returned.inj (Option.some.inj hcall))
  rw [hc]
  exact .same

theorem openWriter_step {name : CName} {n : ℤ} {t : UInt16} {u : Bool} (hfresh : h.Fresh fresh)
    (hcall : h.call z schedule fresh (.openForAppendOnly name n t u) = some (.returned (h', v))) :
    HostStep z c h (c.next (.openForAppendOnly name n t u) v) h' := by
  unfold Host.call at hcall
  dsimp only at hcall
  split at hcall
  · obtain ⟨rfl, rfl⟩ := Prod.mk.inj (CResult.returned.inj (Option.some.inj hcall))
    exact .same
  split at hcall
  · obtain ⟨rfl, rfl⟩ := Prod.mk.inj (CResult.returned.inj (Option.some.inj hcall))
    exact .same
  split at hcall
  · cases hcall
  · rename_i hidle
    obtain ⟨db, hopen, hret⟩ := CResult.map_returned.1 (Option.some.inj hcall)
    obtain ⟨rfl, rfl⟩ := Prod.mk.inj hret
    exact .openWriter hfresh hidle hopen

theorem openReader_step {name : CName} (hl : Linked c h) (hfresh : h.Fresh fresh)
    (hcall : h.call z schedule fresh (.openForBtree name) = some (.returned (h', v))) :
    HostStep z c h (c.next (.openForBtree name) v) h' := by
  unfold Host.call at hcall
  dsimp only at hcall
  split at hcall
  · obtain ⟨rfl, rfl⟩ := Prod.mk.inj (CResult.returned.inj (Option.some.inj hcall))
    exact .same
  split at hcall
  · obtain ⟨rfl, rfl⟩ := Prod.mk.inj (CResult.returned.inj (Option.some.inj hcall))
    exact .same
  obtain ⟨r, hopen, hret⟩ := CResult.map_returned.1 (Option.some.inj hcall)
  obtain ⟨rfl, rfl⟩ := Prod.mk.inj hret
  by_cases hidle : h.writer = none
  · rw [Host.disk_idle hidle] at hopen
    unfold Client.next
    dsimp only
    rw [if_pos (hl.idle.2 hidle)]
    exact .openReader hfresh hidle hopen
  · unfold Client.next
    dsimp only
    rw [if_neg fun hc => hidle (hl.idle.1 hc)]
    exact .add hfresh

theorem close_step {p : ℕ} (hl : Linked c h) (hcall : h.call z schedule fresh (.close (some p)) = some (.returned (h', v))) :
    HostStep z c h (c.next (.close (some p)) v) h' := by
  obtain ⟨x, hx, hret⟩ := Option.map_eq_some_iff.1 hcall
  rcases Host.handle_cases hx with ⟨db, rfl, hw⟩ | ⟨o, rfl, -, hother⟩
  · obtain ⟨dir, hclose, hret⟩ := CResult.map_returned.1 hret
    obtain ⟨rfl, rfl⟩ := Prod.mk.inj hret
    obtain ⟨pre, hc⟩ := hl.writer hw
    have hnext : c.next (.close (some p)) .void =
        { c with writer := none, readers := Function.update c.readers p none } := by
      unfold Client.next
      rw [hc]
      simp [Option.filter]
    rw [hnext]
    exact .closeWriter hw hclose
  · have hh : ({ h with others := Function.update h.others p none }, CValue.void) = (h', v) := by
      cases o with
      | none => exact CResult.returned.inj hret
      | some r => exact CResult.returned.inj hret
    obtain ⟨rfl, rfl⟩ := Prod.mk.inj hh
    -- the handle for appending is another one
    have hfilter : (c.writer.filter fun w => w.1 ≠ p) = c.writer := by
      cases hc : c.writer with
      | none => rfl
      | some w =>
        have hwp : w.1 ≠ p := fun hp => hl.other hother w.2 (by rw [hc, ← hp])
        simp [Option.filter, hwp]
    unfold Client.next
    dsimp only
    rw [hfilter]
    exact .closeOther hother

theorem loadPage_step {p : ℕ} {pa : UInt64} {s : UInt32}
    (hcall : h.call z schedule fresh (.loadPage (some p) true pa s) = some (.returned (h', v))) :
    HostStep z c h (c.next (.loadPage (some p) true pa s) v) h' := by
  obtain ⟨x, hx, hret⟩ := Option.map_eq_some_iff.1 hcall
  cases x with
  | dummy => exact same_step rfl (congrArg some hret)
  | appendOnly db => exact same_step rfl (congrArg some hret)
  | btree r =>
    obtain ⟨page, hload, hret⟩ := CResult.map_returned.1 hret
    obtain ⟨rfl, rfl⟩ := Prod.mk.inj hret
    exact .load hx rfl

theorem loadAll_step {p : ℕ} {aligned : Bool} {off n : UInt64} {s : UInt32} {k : ℤ}
    (hcall : h.call z schedule fresh (.loadAllPages (some p) (some aligned) off n s k) = some (.returned (h', v))) :
    HostStep z c h (c.next (.loadAllPages (some p) (some aligned) off n s k) v) h' := by
  obtain ⟨x, hx, hret⟩ := Option.map_eq_some_iff.1 hcall
  cases x with
  | dummy => exact same_step rfl (congrArg some hret)
  | btree r => exact same_step rfl (congrArg some hret)
  | appendOnly db =>
    obtain ⟨pages, hload, hret⟩ := CResult.map_returned.1 hret
    obtain ⟨rfl, rfl⟩ := Prod.mk.inj hret
    exact .same

/-- **What a call does** is one step. Without a pointer, or a buffer, it has no effect. -/
theorem call_step {call : CCall} (hl : Linked c h) (hfresh : h.Fresh fresh)
    (hcall : h.call z schedule fresh call = some (.returned (h', v))) : HostStep z c h (c.next call v) h' := by
  -- a null pointer is turned away before the handle is looked up
  cases call with
  | init =>
    obtain ⟨rfl, rfl⟩ := Prod.mk.inj (CResult.returned.inj (Option.some.inj hcall))
    exact .add hfresh
  | openForAppendOnly name n t u => exact openWriter_step hfresh hcall
  | openForBtree name => exact openReader_step hl hfresh hcall
  | close db =>
    cases db with
    | none => exact same_step rfl hcall
    | some p => exact close_step hl hcall
  | saveAllPages db memory n s =>
    cases db with
    | none => exact same_step rfl hcall
    | some p =>
      cases memory with
      | none => exact same_step rfl hcall
      | some memory => exact save_step hl hcall
  | savePagesWithBitmap db memory bits n s =>
    cases db with
    | none => exact same_step rfl hcall
    | some p =>
      cases memory with
      | none => exact same_step rfl hcall
      | some memory =>
        cases bits with
        | none => exact same_step rfl hcall
        | some bits => exact save_step hl hcall
  | loadPage db page pa s =>
    cases db with
    | none => exact same_step rfl hcall
    | some p =>
      cases page with
      | false => exact same_step rfl hcall
      | true => exact loadPage_step hcall
  | loadAllPages db pages off n s k =>
    cases db with
    | none => exact same_step rfl hcall
    | some p =>
      cases pages with
      | none => exact same_step rfl hcall
      | some aligned => exact loadAll_step hcall

end Call

/-! ## The invariant -/

/-- **The directory is a database of the saves**: those made before the handle for appending
was opened, while there is one, and then the saves on that handle. -/
inductive HostDir (z : Zstd) (c : Client) (h : Host) : Prop
  | idle (hwriter : h.writer = none) (hclient : c.writer = none) (hdir : Database z c.saved h.dir)
  | busy {p n : ℕ} {t : UInt16} {u : Bool} {pre cs : List SaveCall} {db₀ db : AppendOnlyDb}
      (hwriter : h.writer = some (p, db)) (hclient : c.writer = some (p, pre)) (hdir : Database z pre h.dir)
      (hopen : AppendOnlyDb.open h.dir n t u = .ok db₀) (hsaves : Saves z db₀ cs db) (hsaved : c.saved = pre ++ cs)

/-- **A handle for reading**, opened on the saves `found`: what the process did since is a run
beside its reader. -/
inductive Reading (z : Zstd) (saved : List SaveCall) (h : Host) (p : ℕ) (found : List SaveCall) : Prop
  | mk {dir : Dir} {r : Reader} {since : List SaveCall} {as : List Answer} {s : Scene} (hwritten : Written z found dir)
      (hopen : Reader.open dir = .ok r) (hwatched : Watched z (.opened dir r) since as s) (hsaved : saved = found ++ since)
      (hhandle : h.handle p = some (.btree s.reader)) (hdir : s.dir = h.dir) (hwriter : s.writer = h.writer.map Prod.snd)

/-- What every call keeps. -/
structure HostOk (z : Zstd) (c : Client) (h : Host) : Prop where
  dir : HostDir z c h
  readers : ∀ p found, c.readers p = some found → Reading z c.saved h p found

section Invariant

variable {z : Zstd} {c c' : Client} {h h' : Host} {p q : ℕ} {saved found : List SaveCall}

theorem HostDir.linked (hd : HostDir z c h) : Linked c h := by
  unfold Linked
  cases hd with
  | idle hwriter hclient => rw [hwriter, hclient]; rfl
  | busy hwriter hclient => rw [hwriter, hclient]; rfl

/-- What is left after one entry is removed. -/
theorem kept_of_update {readers : ℕ → Option (List SaveCall)} (hp : Function.update readers q none p = some found) :
    p ≠ q ∧ readers p = some found := by
  by_cases hpq : p = q
  · subst hpq
    rw [Function.update_self] at hp
    cases hp
  · rw [Function.update_of_ne hpq] at hp
    exact ⟨hpq, hp⟩

/-- A scene of the process shows the files as they are. -/
theorem Host.disk_scene {s : Scene} (hdir : s.dir = h.dir) (hwriter : s.writer = h.writer.map Prod.snd) :
    s.disk = h.disk := by
  unfold Scene.disk Host.disk
  rw [hwriter, hdir]
  cases h.writer with
  | none => rfl
  | some w => rfl

theorem Database.session {cs cs' : List SaveCall} {dir dir' : Dir} (hd : Database z cs dir) (hs : Session z dir cs' dir') :
    Database z (cs ++ cs') dir' := by
  cases hd with
  | empty => exact .written (.first hs)
  | written hw => exact .written (.next hw hs)

/-- There is nothing to open where nothing was saved. -/
theorem Database.written_of_open {dir : Dir} {r : Reader} {cs : List SaveCall} (hd : Database z cs dir)
    (ho : Reader.open dir = .ok r) : Written z cs dir := by
  cases hd with
  | empty =>
    obtain ⟨store, ho, -⟩ := Reader.open_inv ho
    cases ho
  | written hw => exact hw

theorem Written.history {cs : List SaveCall} {dir : Dir} (hw : Written z cs dir) : History z cs none dir := by
  induction hw with
  | first hs => exact .first hs
  | next _ hs ih => exact .session ih hs

/-- The directory does not depend on the other handles. -/
theorem HostDir.frame (hd : HostDir z c h) (hdir : h'.dir = h.dir) (hwriter : h'.writer = h.writer)
    (hclient : c'.writer = c.writer) (hsaved : c'.saved = c.saved) : HostDir z c' h' := by
  cases hd with
  | idle hw hc hd => exact .idle (hwriter.trans hw) (hclient.trans hc) (by rw [hsaved, hdir]; exact hd)
  | busy hw hc hd ho hs hcs =>
    exact .busy (hwriter.trans hw) (hclient.trans hc) (by rw [hdir]; exact hd) (by rw [hdir]; exact ho) hs (hsaved.trans hcs)

/-- **One step keeps the directory a database.** -/
theorem HostDir.step (hd : HostDir z c h) (hs : HostStep z c h c' h') : HostDir z c' h' := by
  cases hs with
  | same => exact hd
  | add hfresh => exact hd.frame rfl rfl rfl rfl
  | openWriter hfresh hidle hopen =>
    cases hd with
    | busy hw => rw [hidle] at hw; cases hw
    | idle hw hc hd => exact .busy rfl rfl hd hopen .nil (List.append_nil _).symm
  | openReader hfresh hidle hopen => exact hd.frame rfl rfl rfl rfl
  | @closeWriter p db dir hwriter hclose =>
    cases hd with
    | idle hw => rw [hw] at hwriter; cases hwriter
    | busy hw hc hd ho hs hcs =>
      obtain ⟨-, rfl⟩ := Prod.mk.inj (Option.some.inj (hw.symm.trans hwriter))
      refine .idle rfl rfl ?_
      dsimp only
      rw [hcs]
      exact hd.session (.mk ho hs hclose)
  | closeOther hother => exact hd.frame rfl rfl rfl rfl
  | save hwriter hsave =>
    cases hd with
    | idle hw => rw [hw] at hwriter; cases hwriter
    | busy hw hc hd ho hs hcs =>
      obtain ⟨rfl, rfl⟩ := Prod.mk.inj (Option.some.inj (hw.symm.trans hwriter))
      exact .busy rfl hc hd ho (.snoc hs hsave) (by dsimp only; rw [hcs, List.append_assoc])
  | load hreader hload => exact hd.frame rfl rfl rfl rfl

/-- A reader does not depend on the other handles. -/
theorem Reading.frame (hr : Reading z saved h p found) (hhandle : h'.handle p = h.handle p) (hdir : h'.dir = h.dir)
    (hwriter : h'.writer = h.writer) : Reading z saved h' p found := by
  obtain ⟨hwritten, hopen, hwatched, hsaved, hp, hd, hw⟩ := hr
  exact .mk hwritten hopen hwatched hsaved (hhandle.trans hp) (hd.trans hdir.symm) (by rw [hw, hwriter])

theorem Reading.handle (hr : Reading z saved h p found) : ∃ r, h.handle p = some (.btree r) := by
  obtain ⟨-, -, -, -, hp, -, -⟩ := hr
  exact ⟨_, hp⟩

/-- **One step beside a reader** continues its run. -/
theorem Reading.step (hr : Reading z c.saved h p found) (hs : HostStep z c h c' h')
    (hkept : c'.readers p = some found) : Reading z c'.saved h' p found := by
  obtain ⟨r, hp⟩ := hr.handle
  obtain ⟨ho, hother⟩ := Host.handle_btree.1 hp
  cases hs with
  | same => exact hr
  | add hfresh => exact hr.frame (Host.handle_update (hfresh.ne hp) _) rfl rfl
  | @openWriter q n t u db hfresh hidle hopen =>
    obtain ⟨hwritten, hopened, hwatched, hsaved, hh, hd, hw⟩ := hr
    rw [hidle] at hw
    refine .mk hwritten hopened (.openWriter hwatched hw (by rw [hd]; exact hopen)) hsaved ?_ hd rfl
    refine Host.handle_btree.2 ⟨(Host.handle_btree.1 hh).1, fun db' h' => hfresh.ne hp ?_⟩
    exact (congrArg Prod.fst (Option.some.inj h')).symm
  | openReader hfresh hidle hopen => exact hr.frame (Host.handle_update (hfresh.ne hp) _) rfl rfl
  | @closeWriter q db dir hwriter hclose =>
    obtain ⟨hwritten, hopened, hwatched, hsaved, hh, hd, hw⟩ := hr
    rw [hwriter] at hw
    exact .mk hwritten hopened (.close hwatched hw hclose) hsaved
      (Host.handle_btree.2 ⟨(Host.handle_btree.1 hh).1, fun db' h' => by cases h'⟩) rfl rfl
  | @closeOther q hq =>
    obtain ⟨hne, -⟩ := kept_of_update hkept
    exact hr.frame (Host.handle_update hne _) rfl rfl
  | @save q db db' call schedule hwriter hsave =>
    obtain ⟨hwritten, hopened, hwatched, hsaved, hh, hd, hw⟩ := hr
    rw [hwriter] at hw
    refine .mk hwritten hopened (.save hwatched hw hsave) (by dsimp only; rw [hsaved, List.append_assoc]) ?_ hd rfl
    refine Host.handle_btree.2 ⟨(Host.handle_btree.1 hh).1, fun db'' h' => hother db ?_⟩
    rw [hwriter, show q = p from congrArg Prod.fst (Option.some.inj h')]
  | @load q r' r'' pa s result hreader hload =>
    by_cases hpq : p = q
    · subst hpq
      obtain ⟨hwritten, hopened, hwatched, hsaved, hh, hd, hw⟩ := hr
      rename_i sc
      obtain rfl : sc.reader = r' := BxdbHandle.btree.inj (Option.some.inj (hh.symm.trans hreader))
      have hdisk : sc.disk = h.disk := Host.disk_scene hd hw
      have hnow : Watched z _ _ _ { sc with reader := r'' } := .load hwatched (by rw [hdisk]; exact hload)
      exact .mk hwritten hopened hnow hsaved (Host.handle_btree.2 ⟨Function.update_self .., hother⟩) hd hw
    · exact hr.frame (Host.handle_update hpq _) rfl rfl

/-- The program knows no other readers than before, but for one it has just opened. -/
theorem HostStep.reader (hs : HostStep z c h c' h') (hp : c'.readers p = some found) :
    c.readers p = some found ∨ h.writer = none ∧ c'.saved = found ∧ c.saved = found ∧
      ∃ r, Reader.open h.dir = .ok r ∧ h'.dir = h.dir ∧ h'.writer = none ∧ h'.handle p = some (.btree r) := by
  cases hs with
  | same => exact .inl hp
  | add hfresh => exact .inl hp
  | openWriter hfresh hidle hopen => exact .inl hp
  | @openReader q r hfresh hidle hopen =>
    by_cases hpq : p = q
    · subst hpq
      dsimp only at hp
      rw [Function.update_self] at hp
      obtain rfl := Option.some.inj hp
      refine .inr ⟨hidle, rfl, rfl, r, hopen, rfl, hidle, Host.handle_btree.2 ⟨Function.update_self .., ?_⟩⟩
      intro db hw
      dsimp only at hw
      rw [hidle] at hw
      cases hw
    · dsimp only at hp
      rw [Function.update_of_ne hpq] at hp
      exact .inl hp
  | closeWriter hwriter hclose => exact .inl (kept_of_update hp).2
  | closeOther hother => exact .inl (kept_of_update hp).2
  | save hwriter hsave => exact .inl hp
  | load hreader hload => exact .inl hp

theorem HostOk.step (hok : HostOk z c h) (hs : HostStep z c h c' h') : HostOk z c' h' := by
  refine ⟨hok.dir.step hs, fun p found hp => ?_⟩
  rcases hs.reader hp with hold | ⟨hidle, hsaved', hsaved, r, hopen, hdir, hwriter, hhandle⟩
  · exact (hok.readers p found hold).step hs hp
  · cases hok.dir with
    | busy hw => rw [hidle] at hw; cases hw
    | idle hw hc hd =>
      rw [hsaved] at hd
      exact .mk (hd.written_of_open hopen) hopen .start (by rw [hsaved', List.append_nil]) hhandle hdir.symm
        (by rw [hwriter]; rfl)

/-- **Every run of calls keeps the invariant.** -/
theorem hostRun_ok (hrun : HostRun z c h) : HostOk z c h := by
  induction hrun with
  | new => exact ⟨.idle rfl rfl .empty, fun p found hp => by cases hp⟩
  | call _ hfresh hcall ih => exact ih.step (call_step ih.dir.linked hfresh hcall)

end Invariant

/-! ## What loads return -/

section Loads

variable {z : Zstd} {c : Client} {h : Host} {p : ℕ} {found : List SaveCall} {s : UInt32}

/-- A reader loads what it found, below the later saves. -/
theorem Reading.load (hz : z.RoundTrip) (hr : Reading z c.saved h p found) (hrange : ∀ call ∈ c.saved, call.InRange)
    (hs : s ≤ maxSnapshotId) (hlater : ∀ call ∈ c.saved.drop found.length, s < call.id) (pa : UInt64) :
    ∃ r r' page, h.handle p = some (.btree r) ∧ r.loadPage z h.disk pa s = (r', .ok page) ∧
      AsOf (savedBy found) pa s.toNat page := by
  obtain ⟨hwritten, hopened, hwatched, hsaved, hh, hd, hw⟩ := hr
  rename_i dir r since as sc
  rw [hsaved] at hrange hlater
  rw [List.drop_left] at hlater
  cases hload : sc.reader.loadPage z h.disk pa s with
  | mk r' result =>
    have hdisk : sc.disk = h.disk := Host.disk_scene hd hw
    obtain ⟨saves, store, first, new, hseen⟩ :=
      watched_seen hwritten.history hopened (.load hwatched (by rw [hdisk, hload])) hrange
    have hnew : ∀ v ∈ new, s.toNat < v.snap := by
      intro v hv
      obtain ⟨call, hc, hid⟩ := hseen.ids v hv
      rw [hid]
      exact UInt32.lt_iff_toNat_lt.1 (hlater call hc)
    obtain ⟨page, hpage, hasOf⟩ := hseen.shown.before hz pa hs hnew
    have hresult : result = .ok page :=
      (hseen.answers ⟨pa, s, result⟩ (List.mem_append_right _ (List.mem_singleton_self _))).trans hpage
    exact ⟨sc.reader, r', page, hh, by rw [hload, hresult], hseen.found.asOf.1 hasOf⟩

/-- A database with saves can be opened for reading. -/
theorem Written.opens {cs : List SaveCall} {dir : Dir} (hw : Written z cs dir) (hrange : ∀ call ∈ cs, call.InRange) :
    ∃ r, Reader.open dir = .ok r := by
  obtain ⟨vs, hd, -, hidx⟩ := written_ok hw hrange
  obtain ⟨m, hm, -⟩ := hd.log
  rw [← List.append_nil (encodeAll (chunks vs))] at hm
  unfold Reader.open
  rw [open_log hidx hm]
  exact ⟨_, rfl⟩

theorem Database.written_of_ne {cs : List SaveCall} {dir : Dir} (hd : Database z cs dir) (hne : cs ≠ []) : Written z cs dir := by
  cases hd with
  | empty => exact absurd rfl hne
  | written hw => exact hw

/-- A handle for appending that nothing was saved on since it was opened. -/
theorem HostDir.unsaved (hd : HostDir z c h) (hw : c.writer = some (p, c.saved)) : ∃ n t u db,
    h.writer = some (p, db) ∧ Database z c.saved h.dir ∧ AppendOnlyDb.open h.dir n t u = .ok db := by
  cases hd with
  | idle _ hc => rw [hc] at hw; cases hw
  | busy hwriter hc hdir hopen hsaves hsaved =>
    obtain ⟨rfl, rfl⟩ := Prod.mk.inj (Option.some.inj (hc.symm.trans hw))
    obtain rfl := List.self_eq_append_right.1 hsaved
    obtain rfl := saves_nil_inv hsaves
    exact ⟨_, _, _, _, hwriter, hdir, hopen⟩

/-- **What a program can rely on**, whatever calls it made before, on handles of any kind. A
load through a handle for reading that was opened while no handle appended, at a snapshot
below the saves made since, returns the page that the saves before gave. While no handle
appends, a database with saves can be opened for reading. A handle for appending loads the
saves made before it was opened in bulk, until it saves. -/
theorem capi_reads (hz : z.RoundTrip) (hrun : HostRun z c h) (hrange : ∀ call ∈ c.saved, call.InRange)
    (hs : s ≤ maxSnapshotId) (schedule : List (ℕ × Fault)) (fresh : ℕ) :
    (∀ p found, c.readers p = some found → found <+: c.saved ∧
      ((∀ call ∈ c.saved.drop found.length, s < call.id) → ∀ pa, ∃ h' page,
        h.call z schedule fresh (.loadPage (some p) true pa s) = some (.returned (h', .page page)) ∧
        AsOf (savedBy found) pa s.toNat page)) ∧
    (c.writer = none → c.saved ≠ [] → ∃ h',
      h.call z schedule fresh (.openForBtree .path) = some (.returned (h', .pointer (some fresh)))) ∧
    ∀ p, c.writer = some (p, c.saved) → c.saved ≠ [] → ∀ (off n : UInt64) (k : ℤ),
      k < 2 ^ 31 → off.toNat + n.toNat < 2 ^ 64 → n.toNat * pageSize < 2 ^ 64 → ∃ out,
        h.call z schedule fresh (.loadAllPages (some p) (some true) off n s k) =
          some (.returned (h, .pages (out.all Option.isSome) (some (outBuffer out)))) ∧
        RangeAsOf (savedBy c.saved) off n s out := by
  have hok := hostRun_ok hrun
  refine ⟨fun p found hp => ⟨?_, fun hlater pa => ?_⟩, fun hidle hne => ?_, fun p hw hne off n k hint hoff hlen => ?_⟩
  · obtain ⟨-, -, -, hsaved, -, -, -⟩ := hok.readers p found hp
    rw [hsaved]
    exact List.prefix_append _ _
  · obtain ⟨r, r', page, hh, hload, hasOf⟩ := (hok.readers p found hp).load hz hrange hs hlater pa
    refine ⟨{ h with others := Function.update h.others p (some (some r')) }, page, ?_, hasOf⟩
    unfold Host.call
    dsimp only
    rw [hh, Option.map_some]
    dsimp only
    rw [hload]
    rfl
  · cases hok.dir with
    | busy _ hc => rw [hidle] at hc; cases hc
    | idle hwriter _ hdir =>
      obtain ⟨r, hr⟩ := (hdir.written_of_ne hne).opens hrange
      refine ⟨{ h with others := Function.update h.others fresh (some (some r)) }, ?_⟩
      unfold Host.call
      dsimp only
      rw [if_neg (by decide), if_neg (by decide), Host.disk_idle hwriter, hr]
      rfl
  · obtain ⟨workers, t, u, db, hwriter, hdir, hopen⟩ := hok.dir.unsaved hw
    obtain ⟨vs, hhist⟩ := history_ok (hdir.written_of_ne hne).history hrange
    -- a C int of workers always fits
    have hfit : WorkersFit n.toNat (max k 1).toNat := by
      unfold WorkersFit workerEntrySize isizeMax
      unfold pageSize at hlen
      omega
    obtain ⟨out, hload, hout⟩ := (hhist.opened hopen).loadAll hz hs hoff hfit
    have hmem : memLen n = n.toNat * pageSize := min_eq_left (Nat.le_sub_one_of_lt hlen)
    refine ⟨out, ?_, hout⟩
    unfold Host.call
    dsimp only
    rw [Host.handle_writer hwriter, Option.map_some]
    dsimp only
    rw [hmem, hload]
    rfl

end Loads

/-! ## A program that reads while it saves -/

section Program

variable {z : Zstd} {c : Client} {h : Host} {p q n : ℕ} {t : UInt16} {u : Bool} {db db' : AppendOnlyDb} {page : Page}
  {s : UInt32} {schedule : List (ℕ × Fault)}

/-- The calls that open a handle for appending and save one page through it. -/
theorem hostRun_onePage (hrun : HostRun z c h) (hidle : h.writer = none) (hfresh : h.Fresh p)
    (hopen : AppendOnlyDb.open h.dir n t u = .ok db) (hsave : (onePage page s).run z schedule db = some (db', .ok ()))
    (hq : Host.Fresh { h with writer := some (p, db) } q) :
    HostRun z { c with saved := c.saved ++ [onePage page s], writer := some (p, c.saved) }
      { h with writer := some (p, db') } := by
  obtain ⟨hn, -⟩ := open_inv hopen
  have hopened : h.call z [] p (.openForAppendOnly .path n t u) =
      some (.returned ({ h with writer := some (p, db) }, .pointer (some p))) := by
    unfold Host.call
    dsimp only
    rw [if_neg (by simp; omega), if_neg (by decide), hidle, Int.toNat_natCast]
    dsimp only
    rw [hopen]
    rfl
  have hcall : saveAllCall page.bytes 1 s = onePage page s := by
    unfold saveAllCall
    rw [List.take_of_length_le (by rw [page.size]; decide)]
    rfl
  have hsaved : Host.call z schedule q { h with writer := some (p, db) } (.saveAllPages (some p) (some page.bytes) 1 s) =
      some (.returned ({ h with writer := some (p, db') }, .void)) := by
    unfold Host.call
    dsimp only
    rw [Host.handle_writer rfl, Option.bind_some]
    dsimp only
    rw [hcall]
    unfold Host.save
    rw [hsave]
    rfl
  have hnext := HostRun.call (HostRun.call hrun hfresh hopened) hq hsaved
  unfold Client.next Client.save at hnext
  dsimp only at hnext
  rw [if_pos (by simp), hcall] at hnext
  exact hnext

/-- The call that closes it. -/
theorem hostRun_close {pre : List SaveCall} {dir : Dir} (hrun : HostRun z c h) (hc : c.writer = some (p, pre))
    (hwriter : h.writer = some (p, db)) (hclose : db.close = .ok dir) (hq : h.Fresh q) :
    HostRun z { c with writer := none, readers := Function.update c.readers p none }
      { h with dir := dir, writer := none } := by
  have hcall : h.call z [] q (.close (some p)) = some (.returned ({ h with dir := dir, writer := none }, .void)) := by
    unfold Host.call
    dsimp only
    rw [Host.handle_writer hwriter, Option.map_some]
    dsimp only
    rw [hclose]
    rfl
  have hnext := HostRun.call hrun hq hcall
  unfold Client.next at hnext
  dsimp only at hnext
  rw [hc] at hnext
  simpa [Option.filter] using hnext

/-- The call that opens a handle for reading. -/
theorem hostRun_read {r : Reader} (hrun : HostRun z c h) (hc : c.writer = none) (hidle : h.writer = none)
    (hopen : Reader.open h.dir = .ok r) (hfresh : h.Fresh p) :
    HostRun z { c with readers := Function.update c.readers p (some c.saved) }
      { h with others := Function.update h.others p (some (some r)) } := by
  have hcall : h.call z [] p (.openForBtree .path) =
      some (.returned ({ h with others := Function.update h.others p (some (some r)) }, .pointer (some p))) := by
    unfold Host.call
    dsimp only
    rw [if_neg (by decide), if_neg (by decide), Host.disk_idle hidle, hopen]
    rfl
  have hnext := HostRun.call hrun hfresh hcall
  unfold Client.next at hnext
  dsimp only at hnext
  rwa [if_pos (by rw [hc]; rfl)] at hnext

/-- Two saves, with a handle for reading opened between them. -/
theorem exists_hostRun : ∃ c h, HostRun Zstd.raw c h ∧ c.saved = onePages [(noise 1, 1), (noise 2, 4)] ∧
    c.readers 1 = some (onePages [(noise 1, 1)]) := by
  obtain ⟨dir, hs, hi, hroom⟩ : ∃ dir, Session Zstd.raw Dir.empty (onePages [(noise 1, 1)]) dir ∧ dir.IdsBelow 2 ∧
      dir.HasRoom (3 * 1 * blobBufCap + 0) :=
    session_onePages Zstd.raw_small (by decide : 1 ≤ 4 ∧ 4 ≤ 255) 512 true (by simp) (by simp) (by decide) (by decide) _
      (by decide)
  obtain ⟨vs, hd, -, -⟩ := session_first hs (onePages_inRange _)
  obtain ⟨m, hm, -⟩ := hd.log
  obtain ⟨r, hr⟩ := (Written.first hs).opens (onePages_inRange _)
  obtain ⟨hopen, hsaves, hclose⟩ := hs
  obtain ⟨db₁, schedule, hnil, hsave⟩ := saves_concat_inv (show Saves Zstd.raw _ ([] ++ [onePage (noise 1) 1]) _ from hsaves)
  obtain rfl := saves_nil_inv hnil
  have hsaved := hostRun_onePage (p := 0) (q := 9) HostRun.new rfl rfl hopen hsave rfl
  have hclosed := hostRun_close (q := 9) hsaved rfl rfl hclose rfl
  have hread := hostRun_read (p := 1) hclosed rfl rfl hr rfl
  -- the second handle for appending
  obtain ⟨db, hopen₂⟩ := open_completes (by decide : 1 ≤ 2 ∧ 2 ≤ 255) 0 true (.inr ⟨m, _, hm⟩)
  obtain ⟨hok, -⟩ := open_ok hd hopen₂
  obtain ⟨schedule₂, db', hsave₂, -⟩ := save_completes Zstd.raw_small
    (onePage_valid (noise 2) (by decide : (4 : UInt32) ≤ maxSnapshotId)) hok.blobs
    (fun l hl => UInt32.lt_of_lt_of_le ((open_below hi hopen₂).last l hl) (by decide : (2 : UInt32) ≤ 4))
    (open_room hroom hopen₂).1
  exact ⟨_, _, hostRun_onePage (p := 2) (q := 9) hread rfl rfl hopen₂ hsave₂ rfl, rfl, rfl⟩

/-- The load at snapshot 3 does not see the save of snapshot 4. -/
theorem capi_reads_noise : ∃ c h h', HostRun Zstd.raw c h ∧ c.saved = onePages [(noise 1, 1), (noise 2, 4)] ∧
    c.readers 1 = some (onePages [(noise 1, 1)]) ∧
    h.call Zstd.raw [] 3 (.loadPage (some 1) true 0 3) = some (.returned (h', .page (some (noise 1)))) := by
  obtain ⟨c, h, hrun, hsaved, hp⟩ := exists_hostRun
  obtain ⟨hload, -⟩ := capi_reads Zstd.raw_roundTrip hrun (by rw [hsaved]; exact onePages_inRange _)
    (by decide : (3 : UInt32) ≤ maxSnapshotId) [] 3
  obtain ⟨-, hload⟩ := hload 1 _ hp
  obtain ⟨h', page, hcall, hasOf⟩ := hload (by rw [hsaved]; simp [onePages, onePage, SaveCall.id]) 0
  obtain ⟨dir, hw⟩ : ∃ dir, Written Zstd.raw (onePages [(noise 1, 1)]) dir :=
    written_onePages (j := 2) Zstd.raw_small (by decide : 1 ≤ 4 ∧ 4 ≤ 255) 512 true (by simp) (by simp) (by decide) (by decide)
      (by decide)
  obtain ⟨vs, hd, hr, -⟩ := written_ok hw (onePages_inRange _)
  have hpage : page = some (noise 1) :=
    hasOf.unique (hr.functional hd.ordered.distinct) (latestPage_asOf 3 [(noise 1, 1)] (by simp))
  exact ⟨c, h, h', hrun, hsaved, hp, by rw [hcall, hpage]⟩

end Program

end Bxdb
