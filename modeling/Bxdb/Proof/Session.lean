import Bxdb.Spec.Session
import Bxdb.Proof.Save

/-!
# Sessions keep a database well formed

`DirOk` is the invariant of a directory between two sessions; opening it gives a handle
in a well-formed state (`open_ok`), saves keep that (`saves_ok`), and closing gives the
directory back (`close_ok`).

* `Keeps.session`: **whatever each step of a session keeps, sessions keep**, beside the
  invariant.
* `written_ok`: **every database holds one stored version for each page each save
  marked dirty**, and nothing else.
-/

namespace Bxdb

open Bytes Buffered Versioned ChunkRecord

/-- **The directory's invariant**, for the versions `vs` in the log. -/
structure DirOk (z : Zstd) (vs : List Version) (dir : Dir) : Prop where
  ordered : Ordered vs
  log : ∃ m, dir.log = some (writeLogHeader m ++ encodeAll (chunks vs)) ∧
    (∀ v ∈ vs, v.snap ≤ m.toNat) ∧ m ≤ maxSnapshotId
  stored : ∀ v ∈ vs, Stored z vs dir.blobs v
  small : ∀ w bs, dir.blobs w = some bs → bs.length ≤ maxFileLen

section

variable {z : Zstd} {vs : List Version} {dir dir' : Dir} {n : ℕ} {t : UInt16} {u : Bool} {db db' : AppendOnlyDb}

/-! ## Opening -/

/-- The log file a handle starts on. -/
theorem logOk_new {f : RawFile} (hpos : f.pos = f.bytes.length) (ha : f.append = false) (hl : f.limit = none) :
    LogOk (BufWriter.new logBufCap f) where
  ok := BufWriter.new_ok (by unfold RawFile.Appends RawFile.cursor; rw [ha]; exact hpos) fun m hm => by
    rw [hl] at hm; simp at hm
  cap := rfl
  limit := hl
  append := ha
  buf := rfl

theorem open_inv (h : AppendOnlyDb.open dir n t u = .ok db) : 1 ≤ n ∧ n ≤ 255 ∧
    ∃ log last, AppendOnlyDb.openLog (dir.log.getD []) = .ok (log, last) ∧ db.dir = dir ∧ db.workerCount = n ∧
      db.logFile = BufWriter.new logBufCap log ∧ db.lastSnapshot = last ∧ db.shadow = Shadow.new ∧
      db.useShadow = u ∧ db.blobFiles = fun w => BlobFile.openAppend ((dir.blobs w).getD []) := by
  unfold AppendOnlyDb.open at h
  split at h
  · simp [ioErr] at h
  · rename_i hn
    obtain ⟨⟨log, last⟩, hlog, h⟩ := bind_eq_ok.1 h
    obtain rfl := Except.ok.inj h
    exact ⟨by omega, by omega, log, last, hlog, rfl, rfl, rfl, rfl, rfl, rfl, rfl⟩

theorem open_setup (h : AppendOnlyDb.open dir n t u = .ok db) :
    db.useShadow = u ∧ db.deltaThreshold = if t = 0 then UInt16.ofNat defaultDeltaThreshold else t := by
  unfold AppendOnlyDb.open at h
  split at h
  · simp [ioErr] at h
  · obtain ⟨⟨log, last⟩, -, h⟩ := bind_eq_ok.1 h
    obtain rfl := Except.ok.inj h
    exact ⟨rfl, rfl⟩

/-- Opening creates the files of the session's workers, and keeps every byte. -/
theorem open_grow (h : AppendOnlyDb.open dir n t u = .ok db) : BlobsGrow dir.blobs db.streams := by
  obtain ⟨-, -, log, last, -, hd, hw, -, -, -, -, hb⟩ := open_inv h
  intro w bs hbs
  unfold AppendOnlyDb.streams
  split
  · refine ⟨_, rfl, ?_⟩
    rw [hb]
    dsimp only
    rw [openAppend_stream, hbs]
    exact List.prefix_refl _
  · rw [hd]
    exact ⟨bs, hbs, List.prefix_refl _⟩

/-- What opening says whatever the log holds. -/
theorem open_handle (h : AppendOnlyDb.open dir n t u = .ok db)
    (hsmall : ∀ w bs, dir.blobs w = some bs → bs.length ≤ maxFileLen) :
    (1 ≤ db.workerCount ∧ db.workerCount ≤ 255) ∧ (∀ w, BlobOk (db.blobFiles w)) ∧
      (∀ w bs, db.dir.blobs w = some bs → bs.length ≤ maxFileLen) ∧ db.shadow = Shadow.new := by
  obtain ⟨h1, h2, log, last, -, hd, hw, -, -, hs, -, hb⟩ := open_inv h
  refine ⟨by rw [hw]; exact ⟨h1, h2⟩, fun w => ?_, by rw [hd]; exact hsmall, hs⟩
  rw [hb]
  refine openAppend_ok ?_
  cases hbs : dir.blobs w with
  | none => simp
  | some bs => exact hsmall w bs hbs

theorem shadowBacked_new (vs : List Version) : ShadowBacked vs Shadow.new := by
  intro pa key page h
  simp [Shadow.new] at h

/-- The log of a handle opened on a log. -/
theorem open_logFile {m : UInt32} {body : Bytes} (hl : dir.log = some (writeLogHeader m ++ body))
    (h : AppendOnlyDb.open dir n t u = .ok db) :
    LogOk db.logFile ∧ db.logFile.file.bytes = writeLogHeader m ++ body ∧ db.lastSnapshot = some m := by
  obtain ⟨-, -, log, last, hlog, -, -, hlf, hlast, -, -, -⟩ := open_inv h
  have hne : (writeLogHeader m ++ body).length ≠ 0 := by
    have : (writeLogHeader m).length = 16 := length_writeHeader rfl m
    rw [List.length_append]; omega
  rw [hl, Option.getD_some] at hlog
  unfold AppendOnlyDb.openLog at hlog
  rw [if_neg hne, readLogHeader, ok_bind] at hlog
  obtain ⟨rfl, rfl⟩ := Prod.mk.inj (Except.ok.inj hlog)
  rw [hlf, hlast]
  exact ⟨logOk_new rfl rfl rfl, rfl, rfl⟩

/-- The log of a handle opened without one. -/
theorem open_newLog (hl : dir.log = none) (h : AppendOnlyDb.open dir n t u = .ok db) :
    LogOk db.logFile ∧ db.logFile.file.bytes = writeLogHeader 0 ++ [] ∧ db.lastSnapshot = none := by
  obtain ⟨-, -, log, last, hlog, -, -, hlf, hlast, -, -, -⟩ := open_inv h
  rw [hl] at hlog
  obtain ⟨rfl, rfl⟩ := Prod.mk.inj (Except.ok.inj hlog)
  have hbytes : ((⟨[], 0, false, none⟩ : RawFile).put (writeLogHeader 0)).bytes = writeLogHeader 0 := by
    rw [RawFile.put_bytes (show (⟨[], 0, false, none⟩ : RawFile).Appends from rfl)]; rfl
  rw [hlf, hlast]
  refine ⟨logOk_new ?_ rfl rfl, hbytes.trans (List.append_nil _).symm, rfl⟩
  rw [hbytes]; rfl

/-- **Opening a database** gives a handle on the same versions. -/
theorem open_ok (hd : DirOk z vs dir) (h : AppendOnlyDb.open dir n t u = .ok db) :
    HandleOk z vs db ∧ ShadowBacked vs db.shadow := by
  obtain ⟨hw, hblobs, hothers, hsh⟩ := open_handle h hd.small
  obtain ⟨m, hm, hbound, hmax⟩ := hd.log
  obtain ⟨hlog, hbytes, hlast⟩ := open_logFile hm h
  refine ⟨⟨hw, hlog, ⟨m, hbytes, hbound, hmax⟩, hblobs, hothers, hd.ordered, fun v hv => ?_, fun v hv => ?_, ?_, ?_⟩, ?_⟩
  · exact (hd.stored v hv).mono (fun _ hv => hv) (open_grow h)
  · exact ⟨m, hlast, hbound v hv⟩
  · intro l hl
    rw [hlast] at hl
    obtain rfl := Option.some.inj hl
    exact hmax
  · intro pa key page hp
    rw [hsh] at hp
    simp [Shadow.new] at hp
  · rw [hsh]; exact shadowBacked_new vs

/-- **Opening an empty directory** gives a handle on no version. -/
theorem open_empty (hl : dir.log = none) (hsmall : ∀ w bs, dir.blobs w = some bs → bs.length ≤ maxFileLen)
    (h : AppendOnlyDb.open dir n t u = .ok db) : HandleOk z [] db ∧ ShadowBacked [] db.shadow := by
  obtain ⟨hw, hblobs, hothers, hsh⟩ := open_handle h hsmall
  obtain ⟨hlog, hbytes, hlast⟩ := open_newLog hl h
  refine ⟨⟨hw, hlog, ⟨0, hbytes, by simp, by decide⟩, hblobs, hothers, List.Pairwise.nil, by simp, by simp, ?_, ?_⟩, ?_⟩
  · intro l hl'
    rw [hlast] at hl'
    simp at hl'
  · intro pa key page hp
    rw [hsh] at hp
    simp [Shadow.new] at hp
  · rw [hsh]; exact shadowBacked_new []

/-- **What readers see of a handle just opened**: the same versions. -/
theorem open_disk (hd : DirOk z vs dir) (h : AppendOnlyDb.open dir n t u = .ok db) :
    DirOk z vs db.disk ∧ db.disk.idx = dir.idx ∧ BlobsGrow dir.blobs db.disk.blobs := by
  obtain ⟨hok, -⟩ := open_ok hd h
  obtain ⟨-, -, log, last, -, hdir, -, -, -, -, -, hb⟩ := open_inv h
  have hblobs : db.disk.blobs = db.streams := by
    funext w
    unfold AppendOnlyDb.disk AppendOnlyDb.streams BlobFile.stream BufWriter.stream
    have hbuf : (db.blobFiles w).writer.buf = [] := by rw [hb]; rfl
    rw [hbuf, List.append_nil]
  obtain ⟨m, hm, hrest⟩ := hok.bytes
  refine ⟨⟨hok.ordered, ⟨m, congrArg some hm, hrest⟩, ?_, ?_⟩, ?_, ?_⟩
  · rw [hblobs]; exact hok.stored
  · intro w bs hbs
    change (if w.toNat < db.workerCount then some (db.blobFiles w).writer.file.bytes else db.dir.blobs w) = some bs at hbs
    split at hbs
    · obtain rfl := Option.some.inj hbs
      exact (hok.blobs w).ok.within _ (hok.blobs w).limit
    · exact hok.others w bs hbs
  · change db.dir.idx = dir.idx
    rw [hdir]
  · rw [hblobs]; exact open_grow h

/-! ## Closing -/

theorem ofFin_toNat (w : UInt8) : UInt8.ofFin (⟨w.toNat, w.toNat_lt⟩ : Fin 256) = w := by
  apply UInt8.toNat_inj.1
  rfl

/-- **What closing leaves on disk**: everything that was accepted. -/
theorem close_inv (hlog : LogOk db.logFile) (hblobs : ∀ w, BlobOk (db.blobFiles w)) (h : db.close = .ok dir') :
    dir'.log = some db.logFile.file.bytes ∧ dir'.idx = db.dir.idx ∧ dir'.blobs = db.streams := by
  unfold AppendOnlyDb.close at h
  obtain ⟨db', hf, h⟩ := bind_eq_ok.1 h
  obtain rfl := Except.ok.inj h
  unfold AppendOnlyDb.flush at hf
  split at hf
  · rename_i hok
    obtain ⟨hl, hb⟩ := hok
    obtain rfl := Except.ok.inj hf
    refine ⟨?_, rfl, ?_⟩
    · have := BufWriter.flushBuf_bytes hlog.ok hl
      rw [hlog.stream] at this
      exact congrArg some this
    · funext w
      unfold AppendOnlyDb.disk AppendOnlyDb.streams
      dsimp only
      split
      · rename_i hw
        have := hb ⟨w.toNat, w.toNat_lt⟩ hw
        rw [ofFin_toNat] at this
        exact congrArg some (BufWriter.flushBuf_bytes (hblobs w).ok this)
      · rfl
  · simp [ioErr] at hf

/-- A flush that succeeds leaves no file past the limit. -/
theorem close_small (hblobs : ∀ w, BlobOk (db.blobFiles w))
    (hothers : ∀ w bs, db.dir.blobs w = some bs → bs.length ≤ maxFileLen) (hc : db.close = .ok dir') :
    ∀ w bs, dir'.blobs w = some bs → bs.length ≤ maxFileLen := by
  intro w bs hbs
  unfold AppendOnlyDb.close at hc
  obtain ⟨db', hf, hc⟩ := bind_eq_ok.1 hc
  obtain rfl := Except.ok.inj hc
  unfold AppendOnlyDb.flush at hf
  split at hf
  · obtain rfl := Except.ok.inj hf
    unfold AppendOnlyDb.disk at hbs
    dsimp only at hbs
    split at hbs
    · obtain rfl := Option.some.inj hbs
      have hlim := (hblobs w).limit
      exact (BufWriter.flushBuf_ok (hblobs w).ok none).within _ (by rw [BufWriter.flushBuf_limit]; exact hlim)
    · exact hothers w bs hbs
  · simp [ioErr] at hf

/-- **Closing a handle** gives a database of its versions. -/
theorem close_ok (h : HandleOk z vs db) (hc : db.close = .ok dir') : DirOk z vs dir' := by
  obtain ⟨hl, -, hb⟩ := close_inv h.log h.blobs hc
  obtain ⟨m, hm, hbound, hmax⟩ := h.bytes
  refine ⟨h.ordered, ⟨m, by rw [hl, hm], hbound, hmax⟩, fun v hv => ?_, close_small h.blobs h.others hc⟩
  rw [hb]
  exact h.stored v hv

/-! ## Runs of saves -/

/-- `vs` holds exactly the pages the calls marked dirty. -/
def Records (cs : List SaveCall) (vs : List Version) : Prop := ∀ pa t page, pagesOf vs pa t page ↔ savedBy cs pa t page

theorem pagesOf_append {vs vs' : List Version} {pa : UInt64} {t : ℕ} {page : Page} :
    pagesOf (vs ++ vs') pa t page ↔ pagesOf vs pa t page ∨ pagesOf vs' pa t page := by
  unfold pagesOf versionsOf
  constructor
  · rintro ⟨v, ⟨hv, hp, ht⟩, hpg⟩
    rcases List.mem_append.1 hv with hv | hv
    · exact .inl ⟨v, ⟨hv, hp, ht⟩, hpg⟩
    · exact .inr ⟨v, ⟨hv, hp, ht⟩, hpg⟩
  · rintro (⟨v, ⟨hv, hp, ht⟩, hpg⟩ | ⟨v, ⟨hv, hp, ht⟩, hpg⟩)
    · exact ⟨v, ⟨List.mem_append_left _ hv, hp, ht⟩, hpg⟩
    · exact ⟨v, ⟨List.mem_append_right _ hv, hp, ht⟩, hpg⟩

theorem savedBy_append {cs cs' : List SaveCall} {pa : UInt64} {t : ℕ} {page : Page} :
    savedBy (cs ++ cs') pa t page ↔ savedBy cs pa t page ∨ savedBy cs' pa t page := by
  unfold savedBy
  constructor
  · rintro ⟨c, hc, h⟩
    rcases List.mem_append.1 hc with hc | hc
    · exact .inl ⟨c, hc, h⟩
    · exact .inr ⟨c, hc, h⟩
  · rintro (⟨c, hc, h⟩ | ⟨c, hc, h⟩)
    · exact ⟨c, List.mem_append_left _ hc, h⟩
    · exact ⟨c, List.mem_append_right _ hc, h⟩

/-- The versions of one save are its dirty pages. -/
theorem Saved.records {c : SaveCall} {new : List Version} (h : Saved c new) : Records [c] new := by
  intro pa t page
  constructor
  · rintro ⟨v, ⟨hv, hp, ht⟩, hpg⟩
    refine ⟨c, List.mem_singleton_self c, ?_, (h.dirty pa page).2 ⟨v, hv, hp, hpg⟩⟩
    rw [← ht, h.snap v hv]
  · rintro ⟨c', hc', ht, hd⟩
    rw [List.mem_singleton] at hc'
    subst hc'
    obtain ⟨v, hv, hp, hpg⟩ := (h.dirty pa page).1 hd
    exact ⟨v, ⟨hv, hp, (h.snap v hv).trans ht⟩, hpg⟩

theorem Records.append {cs cs' : List SaveCall} {vs vs' : List Version} (h : Records cs vs) (h' : Records cs' vs') :
    Records (cs ++ cs') (vs ++ vs') := by
  intro pa t page
  rw [pagesOf_append, savedBy_append, h pa t page, h' pa t page]

theorem Records.nil : Records [] [] := by
  intro pa t page
  unfold pagesOf versionsOf savedBy
  simp

/-- The last of some saves. -/
theorem saves_concat_inv {cs : List SaveCall} {c : SaveCall} (h : Saves z db (cs ++ [c]) db') :
    ∃ db₁ schedule, Saves z db cs db₁ ∧ c.run z schedule db₁ = some (db', .ok ()) := by
  generalize hl : cs ++ [c] = l at h
  cases h with
  | nil => simp at hl
  | snoc hsaves hsave =>
    obtain ⟨rfl, hc⟩ := List.append_inj' hl rfl
    obtain rfl := List.singleton_inj.1 hc
    exact ⟨_, _, hsaves, hsave⟩

theorem saves_nil_inv (h : Saves z db [] db') : db' = db := by
  generalize hl : ([] : List SaveCall) = l at h
  cases h with
  | nil => rfl
  | snoc => simp at hl

/-! ## What sessions keep -/

/-- Properties of a handle and of a directory, for the versions in their log, that every
step of a session keeps. -/
structure Keeps (z : Zstd) (P : List Version → AppendOnlyDb → Prop) (Q : List Version → Dir → Prop) : Prop where
  fresh : ∀ {n : ℕ} {t : UInt16} {u : Bool} {db : AppendOnlyDb}, AppendOnlyDb.open Dir.empty n t u = .ok db → P [] db
  opened : ∀ {vs : List Version} {dir : Dir} {n : ℕ} {t : UInt16} {u : Bool} {db : AppendOnlyDb}, DirOk z vs dir →
    Q vs dir → AppendOnlyDb.open dir n t u = .ok db → P vs db
  saved : ∀ {vs new : List Version} {db db' : AppendOnlyDb} {c : SaveCall}, HandleOk z vs db → P vs db →
    SaveOk z vs db c db' new → SaveDone z vs db c db' new → P (vs ++ new) db'
  closed : ∀ {vs : List Version} {db : AppendOnlyDb} {dir' : Dir}, HandleOk z vs db → P vs db →
    db.close = .ok dir' → Q vs dir'

/-- Nothing in particular. -/
theorem Keeps.trivial (z : Zstd) : Keeps z (fun _ _ => True) fun _ _ => True :=
  ⟨fun _ => True.intro, fun _ _ _ => True.intro, fun _ _ _ _ => True.intro, fun _ _ _ => True.intro⟩

/-- What a run of saves leaves behind on a handle. -/
structure SavesOk (z : Zstd) (vs : List Version) (db : AppendOnlyDb) (cs : List SaveCall) (db' : AppendOnlyDb)
    (new : List Version) : Prop where
  handle : HandleOk z (vs ++ new) db'
  backed : ShadowBacked (vs ++ new) db'.shadow
  records : Records cs new
  setup : SameSetup db db'
  grow : BlobsGrow db.streams db'.streams

section Keep

variable {P : List Version → AppendOnlyDb → Prop} {Q : List Version → Dir → Prop} {cs : List SaveCall}

/-- What every save keeps. -/
def SaveKeeps (z : Zstd) (P : List Version → AppendOnlyDb → Prop) : Prop :=
  ∀ {vs new : List Version} {db db' : AppendOnlyDb} {c : SaveCall}, HandleOk z vs db → P vs db →
    SaveOk z vs db c db' new → SaveDone z vs db c db' new → P (vs ++ new) db'

/-- **A run of saves that return Ok**, on a handle whose shadow is backed by the log. -/
theorem SaveKeeps.saves (hk : SaveKeeps z P) (h : HandleOk z vs db) (hb : ShadowBacked vs db.shadow) (hP : P vs db)
    (hs : Saves z db cs db') (hrange : ∀ c ∈ cs, c.InRange) : ∃ new, SavesOk z vs db cs db' new ∧ P (vs ++ new) db' := by
  induction hs with
  | nil =>
    refine ⟨[], ⟨?_, ?_, Records.nil, SameSetup.refl _, BlobsGrow.refl _⟩, ?_⟩
    · rw [List.append_nil]; exact h
    · rw [List.append_nil]; exact hb
    · rw [List.append_nil]; exact hP
  | @snoc db1 db2 cs c schedule _ hsave ih =>
    obtain ⟨new, h1, hP1⟩ := ih fun c hc => hrange c (List.mem_append_left _ hc)
    obtain ⟨hid, hlast⟩ := run_id hsave
    have hlast' : c ∈ cs ++ [c] := List.mem_append_right _ (List.mem_singleton_self c)
    obtain ⟨new', hdone⟩ := save_done h1.handle hsave (hrange c hlast') fun _ _ => deltasBacked_of_shadow h1.backed
    have h2 := hdone.saveOk h1.handle hid hlast
    refine ⟨new ++ new', ⟨?_, ?_, h1.records.append h2.saved.records, h1.setup.trans h2.setup, h1.grow.trans h2.grow⟩, ?_⟩
    · rw [← List.append_assoc]; exact h2.handle
    · rw [← List.append_assoc]; exact h2.backed h1.backed
    · rw [← List.append_assoc]; exact hk h1.handle hP1 h2 hdone

theorem Keeps.saves (hk : Keeps z P Q) (h : HandleOk z vs db) (hb : ShadowBacked vs db.shadow) (hP : P vs db)
    (hs : Saves z db cs db') (hrange : ∀ c ∈ cs, c.InRange) : ∃ new, SavesOk z vs db cs db' new ∧ P (vs ++ new) db' :=
  SaveKeeps.saves hk.saved h hb hP hs hrange

/-- One session on a database. -/
theorem Keeps.session (hk : Keeps z P Q) (hd : DirOk z vs dir) (hQ : Q vs dir) (hs : Session z dir cs dir')
    (hrange : ∀ c ∈ cs, c.InRange) : ∃ new, DirOk z (vs ++ new) dir' ∧ Records cs new ∧ dir'.idx = dir.idx ∧
      BlobsGrow dir.blobs dir'.blobs ∧ Q (vs ++ new) dir' := by
  cases hs with
  | mk hopen hsaves hclose =>
    obtain ⟨h1, hb1⟩ := open_ok hd hopen
    obtain ⟨new, h2, hP⟩ := hk.saves h1 hb1 (hk.opened hd hQ hopen) hsaves hrange
    obtain ⟨-, hidx, hblobs⟩ := close_inv h2.handle.log h2.handle.blobs hclose
    have hdir : _ = dir := (open_inv hopen).2.2.choose_spec.choose_spec.2.1
    refine ⟨new, close_ok h2.handle hclose, h2.records, ?_, ?_, hk.closed h2.handle hP hclose⟩
    · rw [hidx, h2.setup.dir, hdir]
    · rw [hblobs]; exact (open_grow hopen).trans h2.grow

/-- The first session of a directory. -/
theorem Keeps.first (hk : Keeps z P Q) (hs : Session z Dir.empty cs dir') (hrange : ∀ c ∈ cs, c.InRange) :
    ∃ vs, DirOk z vs dir' ∧ Records cs vs ∧ dir'.idx = none ∧ Q vs dir' := by
  cases hs with
  | mk hopen hsaves hclose =>
    obtain ⟨h1, hb1⟩ := open_empty (z := z) rfl (by simp [Dir.empty]) hopen
    obtain ⟨new, h2, hP⟩ := hk.saves h1 hb1 (hk.fresh hopen) hsaves hrange
    obtain ⟨-, hidx, -⟩ := close_inv h2.handle.log h2.handle.blobs hclose
    have hdir : _ = Dir.empty := (open_inv hopen).2.2.choose_spec.choose_spec.2.1
    refine ⟨new, close_ok h2.handle hclose, h2.records, ?_, hk.closed h2.handle hP hclose⟩
    rw [hidx, h2.setup.dir, hdir]; rfl

/-- Sessions on a database, one after the other. -/
theorem Keeps.sessions (hk : Keeps z P Q) (hd : DirOk z vs dir) (hQ : Q vs dir) (hs : Sessions z dir cs dir')
    (hrange : ∀ c ∈ cs, c.InRange) : ∃ new, DirOk z (vs ++ new) dir' ∧ Records cs new ∧ dir'.idx = dir.idx ∧
      BlobsGrow dir.blobs dir'.blobs ∧ Q (vs ++ new) dir' := by
  induction hs with
  | nil =>
    refine ⟨[], ?_, Records.nil, rfl, BlobsGrow.refl _, ?_⟩
    · rw [List.append_nil]; exact hd
    · rw [List.append_nil]; exact hQ
  | snoc _ hs ih =>
    obtain ⟨new, hd', hr, hidx, hgrow, hQ'⟩ := ih fun c hc => hrange c (List.mem_append_left _ hc)
    obtain ⟨new', hd'', hr', hidx', hgrow', hQ''⟩ :=
      hk.session hd' hQ' hs fun c hc => hrange c (List.mem_append_right _ hc)
    refine ⟨new ++ new', ?_, hr.append hr', hidx'.trans hidx, hgrow.trans hgrow', ?_⟩
    · rw [← List.append_assoc]; exact hd''
    · rw [← List.append_assoc]; exact hQ''

end Keep

/-! ## Runs of sessions -/

theorem saves_ok {cs : List SaveCall} (h : HandleOk z vs db) (hb : ShadowBacked vs db.shadow)
    (hs : Saves z db cs db') (hrange : ∀ c ∈ cs, c.InRange) : ∃ new, SavesOk z vs db cs db' new := by
  obtain ⟨new, hnew, -⟩ := (Keeps.trivial z).saves h hb True.intro hs hrange
  exact ⟨new, hnew⟩

theorem session_ok {cs : List SaveCall} (hd : DirOk z vs dir) (hs : Session z dir cs dir')
    (hrange : ∀ c ∈ cs, c.InRange) :
    ∃ new, DirOk z (vs ++ new) dir' ∧ Records cs new ∧ dir'.idx = dir.idx ∧ BlobsGrow dir.blobs dir'.blobs := by
  obtain ⟨new, h1, h2, h3, h4, -⟩ := (Keeps.trivial z).session hd True.intro hs hrange
  exact ⟨new, h1, h2, h3, h4⟩

/-- **Sessions on a database** extend its log and leave its index alone. -/
theorem sessions_ok {cs : List SaveCall} (hd : DirOk z vs dir) (hs : Sessions z dir cs dir')
    (hrange : ∀ c ∈ cs, c.InRange) :
    ∃ new, DirOk z (vs ++ new) dir' ∧ Records cs new ∧ dir'.idx = dir.idx ∧ BlobsGrow dir.blobs dir'.blobs := by
  obtain ⟨new, h1, h2, h3, h4, -⟩ := (Keeps.trivial z).sessions hd True.intro hs hrange
  exact ⟨new, h1, h2, h3, h4⟩

theorem session_first {cs : List SaveCall} (hs : Session z Dir.empty cs dir') (hrange : ∀ c ∈ cs, c.InRange) :
    ∃ vs, DirOk z vs dir' ∧ Records cs vs ∧ dir'.idx = none := by
  obtain ⟨vs, h1, h2, h3, -⟩ := (Keeps.trivial z).first hs hrange
  exact ⟨vs, h1, h2, h3⟩

/-- Every session was opened with some `use_shadow`. -/
theorem session_iff {cs : List SaveCall} : Session z dir cs dir' ↔ ∃ u, ShadowSession z u dir cs dir' := by
  constructor
  · rintro ⟨hopen, hsaves, hclose⟩
    exact ⟨_, .mk hopen hsaves hclose⟩
  · rintro ⟨u, hopen, hsaves, hclose⟩
    exact .mk hopen hsaves hclose

theorem sessions_iff {cs : List SaveCall} :
    Sessions z dir cs dir' ↔ ∃ ss, ShadowSessions z dir ss dir' ∧ ss.flatMap Prod.snd = cs := by
  constructor
  · intro h
    induction h with
    | nil => exact ⟨[], .nil, rfl⟩
    | snoc _ hs ih =>
      obtain ⟨ss, h, rfl⟩ := ih
      obtain ⟨u, hs⟩ := session_iff.1 hs
      exact ⟨_, .snoc h hs, by simp⟩
  · rintro ⟨ss, h, rfl⟩
    induction h with
    | nil => exact .nil
    | snoc _ hs ih =>
      rw [List.flatMap_append, List.flatMap_singleton]
      exact .snoc ih (session_iff.2 ⟨_, hs⟩)

/-- **Every database is well formed**, and its versions are the pages saved. -/
theorem written_ok {cs : List SaveCall} (h : Written z cs dir) (hrange : ∀ c ∈ cs, c.InRange) :
    ∃ vs, DirOk z vs dir ∧ Records cs vs ∧ dir.idx = none := by
  induction h with
  | first hs => exact session_first hs hrange
  | @next cs cs' d d' _ hs ih =>
    obtain ⟨vs, hd, hr, hidx⟩ := ih fun c hc => hrange c (List.mem_append_left _ hc)
    obtain ⟨new, hd', hr', hidx', -⟩ := session_ok hd hs fun c hc => hrange c (List.mem_append_right _ hc)
    exact ⟨vs ++ new, hd', hr.append hr', hidx'.trans hidx⟩

end

end Bxdb
