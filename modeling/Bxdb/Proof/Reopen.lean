import Bxdb.Proof.Schedules

/-!
# Which snapshot ids a reopened handle accepts

A handle keeps the id of its last save in memory, and writes it to the log's header only
when the save has a page to write; a new log's header holds 0. Opening a log takes the
header's id. `HeaderOf` says which id the header holds after some saves; every save keeps
that (`HandleIds.saved`).

* `reopen_accepts`: **a reopened handle accepts the ids above the last one saved, exactly
  when the last save had a page to write, or has the id 0.**
* `reopen_forgets`: a save without a page, after which its id is accepted again.
-/

namespace Bxdb

open Bytes Buffered

/-- The handle takes this id. -/
def AppendOnlyDb.Accepts (db : AppendOnlyDb) (id : UInt32) : Prop := db.checkSnapshot id = .ok ()

/-- The call has a page to write. -/
def SaveCall.SavesPage (c : SaveCall) : Prop := ∃ pa page, c.dirty pa = some page

/-- The last save, if there is one, left its id in the header: it had a page to write, or
its id is the one a new header holds. -/
def SaveCall.InHeader (c : SaveCall) : Prop := c.SavesPage ∨ c.id = 0

/-- **The id in the log's header** after these saves. -/
def HeaderOf (cs : List SaveCall) (m : UInt32) : Prop :=
  match cs.getLast? with
  | none => m = 0
  | some c => c.id ≤ maxSnapshotId ∧ (c.InHeader → m = c.id) ∧ (¬ c.InHeader → m < c.id)

section

variable {z : Zstd} {db db' : AppendOnlyDb} {cs : List SaveCall} {c : SaveCall} {m : UInt32}

theorem accepts_iff {id : UInt32} :
    db.Accepts id ↔ id ≤ maxSnapshotId ∧ ∀ l, db.lastSnapshot = some l → l < id :=
  ⟨checkSnapshot_ok, fun h => checkSnapshot_accepts h.1 h.2⟩

theorem headerOf_nil : HeaderOf [] m ↔ m = 0 := Iff.rfl

theorem headerOf_concat : HeaderOf (cs ++ [c]) m ↔
    c.id ≤ maxSnapshotId ∧ (c.InHeader → m = c.id) ∧ (¬ c.InHeader → m < c.id) := by
  unfold HeaderOf
  rw [List.getLast?_concat]

theorem not_savesPage (h : JobsOf c []) : ¬ c.SavesPage := by
  rintro ⟨pa, page, hd⟩
  obtain ⟨job, hj, -⟩ := (h.dirty pa page).1 hd
  simp at hj

theorem savesPage_of_jobs {jobs : List Job} (h : JobsOf c jobs) (hne : jobs ≠ []) : c.SavesPage := by
  obtain ⟨job, hj⟩ := List.exists_mem_of_ne_nil jobs hne
  exact ⟨job.pa, job.page, (h.dirty _ _).2 ⟨job, hj, rfl, rfl⟩⟩

/-! ## The ids of a handle -/

/-- What a handle's log and memory say of the saves so far. -/
structure HandleIds (cs : List SaveCall) (db : AppendOnlyDb) : Prop where
  well : ∃ rs, HandleWell rs db
  ids : ∃ m body, db.logFile.file.bytes = writeLogHeader m ++ body ∧ HeaderOf cs m ∧
    ((db.lastSnapshot = none ∧ cs = []) ∨ db.lastSnapshot = some m ∨
      ∃ c, cs.getLast? = some c ∧ db.lastSnapshot = some c.id)

/-- The header's id is below every id the handle will take; without one in memory it is 0. -/
theorem header_le_last (h : HeaderOf cs m) (hlast : (db.lastSnapshot = none ∧ cs = []) ∨ db.lastSnapshot = some m ∨
    ∃ c, cs.getLast? = some c ∧ db.lastSnapshot = some c.id) :
    (∀ l, db.lastSnapshot = some l → m ≤ l) ∧ (db.lastSnapshot = none → m = 0) := by
  rcases hlast with ⟨hnone, rfl⟩ | hsome | ⟨c, hc, hsome⟩
  · exact ⟨fun l hl => by rw [hnone] at hl; simp at hl, fun _ => headerOf_nil.1 h⟩
  · refine ⟨fun l hl => ?_, fun hn => by rw [hsome] at hn; simp at hn⟩
    rw [hsome] at hl
    rw [Option.some.inj hl]
    exact UInt32.le_refl l
  · refine ⟨fun l hl => ?_, fun hn => by rw [hsome] at hn; simp at hn⟩
    rw [hsome] at hl
    obtain rfl := Option.some.inj hl
    unfold HeaderOf at h
    rw [hc] at h
    by_cases hrec : c.InHeader
    · rw [h.2.1 hrec]
      exact UInt32.le_refl _
    · exact UInt32.le_of_lt (h.2.2 hrec)

/-- **A save keeps track of the ids.** -/
theorem HandleIds.saved (h : HandleIds cs db) {schedule : List (ℕ × Fault)}
    (hrun : c.run z schedule db = some (db', .ok ())) : HandleIds (cs ++ [c]) db' := by
  obtain ⟨rs, hwell⟩ := h.well
  obtain ⟨m, body, hbytes, hheader, hlast⟩ := h.ids
  obtain ⟨hle, hzero⟩ := header_le_last hheader hlast
  obtain ⟨-, new, -, -, hwell'⟩ := hwell.saved hrun
  obtain ⟨hid, habove⟩ := run_id hrun
  obtain ⟨hcase, -⟩ := runCall_cases hrun
  refine ⟨⟨rs ++ new, hwell'⟩, ?_⟩
  cases hcase with
  | empty hjobs =>
    -- nothing is written, and the header stays
    refine ⟨m, body, hbytes, headerOf_concat.2 ⟨hid, fun hrec => ?_, fun hrec => ?_⟩, .inr (.inr ⟨c, List.getLast?_concat, rfl⟩)⟩
    · rcases hrec with hpage | h0
      · exact absurd hpage (not_savesPage hjobs)
      · rw [h0]
        apply hzero
        cases hl : db.lastSnapshot with
        | none => rfl
        | some l =>
          have := habove l hl
          rw [h0] at this
          exact absurd this (UInt32.not_lt.2 (UInt32.zero_le))
    · cases hl : db.lastSnapshot with
      | none =>
        rw [hzero hl]
        exact UInt32.pos_iff_ne_zero.2 fun h0 => hrec (.inr h0)
      | some l => exact UInt32.lt_of_le_of_lt (hle l hl) (habove l hl)
  | @pass jobs _ _ hjobs hne hjobrun =>
    have hblobs : ∀ w, BlobOk ((db.accept c.id).blobFiles w) := hwell.blobs
    obtain ⟨records, -, -, rfl⟩ := saveJobs_ok hblobs hjobs.slots (nodup_pas hjobs.sorted) hjobrun
    have hlog : LogOk (afterPass db c.id (runPass z (db.accept c.id) c.id jobs schedule)).logFile := hwell.log
    refine ⟨c.id, _, (commit_log hlog hbytes c.id records).2, headerOf_concat.2 ⟨hid, fun _ => rfl, fun hrec => ?_⟩,
      .inr (.inr ⟨c, List.getLast?_concat, rfl⟩)⟩
    exact absurd (.inl (savesPage_of_jobs hjobs hne)) hrec

theorem HandleIds.saves {cs' : List SaveCall} (h : HandleIds cs db) (hsaves : Saves z db cs' db') :
    HandleIds (cs ++ cs') db' := by
  induction hsaves with
  | nil => rwa [List.append_nil]
  | snoc _ hsave ih =>
    rw [← List.append_assoc]
    exact ih.saved hsave

/-! ## The ids of a directory -/

/-- What a directory's log says of the saves so far. -/
structure DirIds (cs : List SaveCall) (dir : Dir) : Prop where
  well : ∃ rs, DirWell rs dir
  ids : (cs = [] ∧ dir.log = none) ∨ ∃ m body, dir.log = some (writeLogHeader m ++ body) ∧ HeaderOf cs m

theorem dirIds_empty : DirIds [] Dir.empty where
  well := ⟨[], .inl ⟨rfl, rfl⟩, by simp, by intro bytes hb; simp [Dir.empty] at hb, by simp [Dir.empty]⟩
  ids := .inl ⟨rfl, rfl⟩

theorem DirIds.open {dir : Dir} {n : ℕ} {t : UInt16} {u : Bool} (h : DirIds cs dir)
    (hopen : AppendOnlyDb.open dir n t u = .ok db) : HandleIds cs db := by
  obtain ⟨rs, hwell⟩ := h.well
  refine ⟨⟨rs, hwell.open hopen⟩, ?_⟩
  rcases h.ids with ⟨rfl, hnone⟩ | ⟨m, body, hlog, hheader⟩
  · obtain ⟨-, hbytes, hlast⟩ := open_newLog hnone hopen
    exact ⟨0, [], hbytes, rfl, .inl ⟨hlast, rfl⟩⟩
  · obtain ⟨-, hbytes, hlast⟩ := open_logFile hlog hopen
    exact ⟨m, body, hbytes, hheader, .inr (.inl hlast)⟩

theorem HandleIds.close {dir' : Dir} (h : HandleIds cs db) (hclose : db.close = .ok dir') : DirIds cs dir' := by
  obtain ⟨rs, hwell⟩ := h.well
  obtain ⟨m, body, hbytes, hheader, -⟩ := h.ids
  obtain ⟨hlog, -, -⟩ := close_inv hwell.log hwell.blobs hclose
  exact ⟨⟨rs, hwell.close hclose⟩, .inr ⟨m, body, by rw [hlog, hbytes], hheader⟩⟩

theorem DirIds.session {dir dir' : Dir} {cs' : List SaveCall} (h : DirIds cs dir) (hs : Session z dir cs' dir') :
    DirIds (cs ++ cs') dir' := by
  cases hs with
  | mk hopen hsaves hclose => exact ((h.open hopen).saves hsaves).close hclose

theorem database_ids {dir : Dir} (h : Database z cs dir) : DirIds cs dir := by
  cases h with
  | empty => exact dirIds_empty
  | written hw =>
    induction hw with
    | first hs => exact dirIds_empty.session hs
    | next _ hs ih => exact ih.session hs

/-! ## Reopening -/

/-- **Reopening changes nothing about the ids**: the reopened handle accepts what the
closed one would have, which is every id above the last one saved, and every id when
nothing was saved. -/
structure Transparent (cs : List SaveCall) (closed reopened : AppendOnlyDb) : Prop where
  same : ∀ id, reopened.Accepts id ↔ closed.Accepts id
  above : ∀ id, reopened.Accepts id ↔ id ≤ maxSnapshotId ∧ ∀ c, cs.getLast? = some c → c.id < id

/-- **When reopening is transparent**: for every history of a database, every run of saves
on a handle and any way of reopening it, exactly when something was saved and the last
save is in the header. -/
theorem reopen_accepts {dir dir' : Dir} {n n' : ℕ} {t t' : UInt16} {u u' : Bool} {cs' : List SaveCall}
    {db₀ reopened : AppendOnlyDb} (hd : Database z cs dir) (hopen : AppendOnlyDb.open dir n t u = .ok db₀)
    (hsaves : Saves z db₀ cs' db) (hclose : db.close = .ok dir')
    (hreopen : AppendOnlyDb.open dir' n' t' u' = .ok reopened) :
    Transparent (cs ++ cs') db reopened ↔ ∃ c, (cs ++ cs').getLast? = some c ∧ c.InHeader := by
  have hids : HandleIds (cs ++ cs') db := ((database_ids hd).open hopen).saves hsaves
  generalize cs ++ cs' = saves at hids ⊢
  obtain ⟨rs, hwell⟩ := hids.well
  obtain ⟨m, body, hbytes, hheader, hlast⟩ := hids.ids
  obtain ⟨hlog, -, -⟩ := close_inv hwell.log hwell.blobs hclose
  obtain ⟨-, -, hrelast⟩ := open_logFile (hlog.trans (congrArg some hbytes)) hreopen
  -- the reopened handle goes by the header
  have hre : ∀ id, reopened.Accepts id ↔ id ≤ maxSnapshotId ∧ m < id := by
    intro id
    rw [accepts_iff, hrelast]
    simp
  constructor
  · intro htrans
    cases hc : saves.getLast? with
    | none =>
      -- nothing saved: 0 should be accepted
      have h0 : reopened.Accepts 0 := (htrans.above 0).2 ⟨by decide, fun c h => by rw [hc] at h; simp at h⟩
      exact absurd ((hre 0).1 h0).2 (UInt32.not_lt.2 UInt32.zero_le)
    | some c =>
      refine ⟨c, rfl, ?_⟩
      by_contra hrec
      unfold HeaderOf at hheader
      rw [hc] at hheader
      -- the id of the last save is accepted again
      have hagain := (htrans.above c.id).1 ((hre c.id).2 ⟨hheader.1, hheader.2.2 hrec⟩)
      exact UInt32.lt_irrefl _ (hagain.2 c hc)
  · rintro ⟨c, hc, hrec⟩
    unfold HeaderOf at hheader
    rw [hc] at hheader
    have hm := hheader.2.1 hrec
    have hdb : db.lastSnapshot = some c.id := by
      rcases hlast with ⟨-, rfl⟩ | hsome | ⟨c', hc', hsome⟩
      · simp at hc
      · rw [hsome, hm]
      · rw [hc] at hc'
        obtain rfl := Option.some.inj hc'
        exact hsome
    refine ⟨fun id => ?_, fun id => ?_⟩
    · rw [hre, accepts_iff, hdb, hm]
      simp
    · rw [hre, hc, hm]
      simp

/-- One call on an empty directory, and the directory opened again. -/
theorem first_reopened (hz : z.Small) (hc : c.ValidAll) (hroom : 3 * c.total * blobBufCap ≤ maxFileLen) :
    ∃ (n : ℕ) (t : UInt16) (u : Bool) (db₀ db : AppendOnlyDb) (dir' : Dir) (reopened : AppendOnlyDb),
      AppendOnlyDb.open Dir.empty n t u = .ok db₀ ∧ Saves z db₀ [c] db ∧ db.close = .ok dir' ∧
      AppendOnlyDb.open dir' db₀.workerCount t u = .ok reopened := by
  have hid : c.id ≤ maxSnapshotId := by
    cases hc with
    | mk _ hid _ => exact hid
  have hcs : Runnable 0 [c] := by
    refine ⟨?_, List.pairwise_singleton _ _, fun _ _ => UInt32.zero_le⟩
    intro c' hc'
    rwa [List.mem_singleton.1 hc']
  have hlt : ∀ c' ∈ [c], c'.id < maxSnapshotId + 1 := by
    intro c' hc'
    rw [List.mem_singleton.1 hc']
    exact UInt32.lt_of_le_of_lt hid (by decide)
  have hfit : 3 * totalPages [c] * blobBufCap + 0 ≤ maxFileLen := by
    simpa [totalPages] using hroom
  obtain ⟨dir', hs, ⟨m, body, hlog, -⟩, -⟩ :=
    session_first_completes hz (by decide : 1 ≤ 1 ∧ 1 ≤ 255) 512 true hcs (by decide) hlt hfit
  cases hs with
  | @mk _ n t u db₀ db _ hopen hsaves hclose =>
    obtain ⟨hn, -⟩ := open_handle hopen (by simp [Dir.empty])
    obtain ⟨reopened, hre⟩ := open_completes hn t u (.inr ⟨m, body, hlog⟩)
    exact ⟨n, t, u, db₀, db, dir', reopened, hopen, hsaves, hclose, hre⟩

end

/-- One page saved, and the log reopened: transparent. -/
theorem reopen_accepts_page : ∃ (db₀ db : AppendOnlyDb) (dir' : Dir) (reopened : AppendOnlyDb),
    Saves Zstd.raw db₀ [onePage (noise 1) 3] db ∧ db.close = .ok dir' ∧
      Transparent [onePage (noise 1) 3] db reopened := by
  obtain ⟨n, t, u, db₀, db, dir', reopened, hopen, hsaves, hclose, hre⟩ :=
    first_reopened Zstd.raw_small (onePage_valid (noise 1) (by decide : (3 : UInt32) ≤ maxSnapshotId))
      (by rw [show (onePage (noise 1) 3).total = 1 from rfl]; norm_num [blobBufCap, maxFileLen])
  have hpage : (onePage (noise 1) 3).SavesPage := ⟨0, noise 1, (onePage_dirty _ _ _ _).2 ⟨rfl, rfl⟩⟩
  exact ⟨db₀, db, dir', reopened, hsaves, hclose, (reopen_accepts .empty hopen hsaves hclose hre).2 ⟨_, rfl, .inl hpage⟩⟩

/-- **An id comes back**: a save of no page, with id 5, leaves 0 in the header; reopened,
the log takes id 5 a second time. -/
theorem reopen_forgets : ¬ ∀ (z : Zstd) (cs cs' : List SaveCall) (dir dir' : Dir) (n n' : ℕ) (t t' : UInt16)
    (u u' : Bool) (db₀ db reopened : AppendOnlyDb), Database z cs dir → AppendOnlyDb.open dir n t u = .ok db₀ →
    Saves z db₀ cs' db → db.close = .ok dir' → AppendOnlyDb.open dir' n' t' u' = .ok reopened →
    Transparent (cs ++ cs') db reopened := by
  intro hall
  obtain ⟨n, t, u, db₀, db, dir', reopened, hopen, hsaves, hclose, hre⟩ :=
    first_reopened (c := .all [] 0 5) Zstd.raw_small (.mk rfl (by decide) (by decide)) (Nat.zero_le _)
  have htrans := hall _ _ _ _ _ _ _ _ _ _ _ _ _ _ .empty hopen hsaves hclose hre
  have hids : HandleIds [.all [] 0 5] db := ((database_ids (.empty (z := Zstd.raw))).open hopen).saves hsaves
  obtain ⟨rs, hwell⟩ := hids.well
  obtain ⟨m, body, hbytes, hheader, -⟩ := hids.ids
  obtain ⟨hlog, -, -⟩ := close_inv hwell.log hwell.blobs hclose
  obtain ⟨-, -, hlast⟩ := open_logFile (hlog.trans (congrArg some hbytes)) hre
  -- the save has no page, so the header stays below its id
  have hnotin : ¬ SaveCall.InHeader (.all [] 0 5) := by
    rintro (⟨pa, page, hd⟩ | h0)
    · simp [SaveCall.dirty, SaveCall.marks] at hd
    · exact absurd h0 (by decide)
  have hm : m < 5 := (headerOf_concat.1 (show HeaderOf ([] ++ [_]) m from hheader)).2.2 hnotin
  have hagain : reopened.Accepts 5 := accepts_iff.2 ⟨by decide, fun l hl => by
    rw [hlast] at hl
    obtain rfl := Option.some.inj hl
    exact hm⟩
  have hlt := ((htrans.above 5).1 hagain).2 _ rfl
  exact absurd hlt (by decide)

end Bxdb
