import Bxdb.Proof.Purge

/-!
# Databases that are purged between sessions

* `Keeps.managed`: **what sessions and purges keep holds of every database made by
  them**, beside the invariant of `DirOk`; its versions are the pages saved and not
  purged since.
* `maintained_ok`: sessions and purges keep a database well formed.
-/

namespace Bxdb

open Bytes SortedIndex Versioned ChunkRecord

variable {z : Zstd} {vs : List Version} {dir dir' : Dir} {cs : List SaveCall}

/-! ## The log as readers find it -/

/-- A log that readers find to hold these records. -/
def LogHolds (log : Option Bytes) (records : List ChunkRecord) : Prop :=
  ∃ bytes m body, log = some bytes ∧ readAndVerifyHeader bytes magicLog = .ok (m, body) ∧
    ChunkRecord.scan body = .ok records

theorem LogHolds.unique {log : Option Bytes} {rs rs' : List ChunkRecord} (h : LogHolds log rs) (h' : LogHolds log rs') :
    rs = rs' := by
  obtain ⟨bytes, m, body, hl, hb, hs⟩ := h
  obtain ⟨bytes', m', body', hl', hb', hs'⟩ := h'
  rw [hl] at hl'
  obtain rfl := Option.some.inj hl'
  rw [hb] at hb'
  obtain ⟨-, rfl⟩ := Prod.mk.inj (Except.ok.inj hb')
  rw [hs] at hs'
  exact Except.ok.inj hs'

theorem DirOk.logHolds (hd : DirOk z vs dir) : LogHolds dir.log (chunks vs) := by
  obtain ⟨m, hm, -⟩ := hd.log
  exact ⟨_, m, _, hm, readLogHeader m _, scan_encode (chunks_plain hd.stored)⟩

/-! ## Purges between sessions -/

/-- The saves a purge leaves are the pages of the versions it keeps. -/
theorem Records.kept (h : Records cs vs) (t : UInt32) : Records (cs.filter fun c => c.id ≤ t) (keptVersions vs t) := by
  intro pa u page
  rw [pagesOf_kept]
  unfold upTo
  rw [h pa u page]
  constructor
  · rintro ⟨⟨c, hc, rfl, hd⟩, hle⟩
    refine ⟨c, List.mem_filter.2 ⟨hc, ?_⟩, rfl, hd⟩
    exact decide_eq_true (UInt32.le_iff_toNat_le.2 hle)
  · rintro ⟨c, hc, rfl, hd⟩
    obtain ⟨hc, hle⟩ := List.mem_filter.1 hc
    exact ⟨⟨c, hc, rfl, hd⟩, UInt32.le_iff_toNat_le.1 (of_decide_eq_true hle)⟩

/-- A database whose log is its only index. -/
theorem DirOk.purged (hd : DirOk z vs dir) (hidx : dir.idx = none) (ord : WalkOrder FileStep) {t : UInt32} {n : ℕ}
    (hp : purge ord dir t = .ok (dir', n)) : DirOk z (keptVersions vs t) dir' ∧ dir'.idx = none ∧
      dir' = if dropped vs t = 0 then dir else purgedDir dir (sortedChunks (keptVersions vs t)) := by
  obtain ⟨d₁, hrun, hform, heq⟩ := purge_ok ord (hd.formOk hidx) t
  rw [hrun] at hp
  obtain ⟨rfl, -⟩ := Prod.mk.inj (Except.ok.inj hp)
  have hfiles : d₁.log.isSome ∧ d₁.idx = none := by
    obtain ⟨m, hm, -⟩ := hd.log
    rw [heq]
    split
    · exact ⟨by rw [hm]; rfl, hidx⟩
    · unfold purgedDir
      rw [hm, hidx]
      exact ⟨rfl, rfl⟩
  obtain ⟨bytes, hb⟩ := Option.isSome_iff_exists.1 hfiles.1
  obtain ⟨m, rfl, hrest⟩ := hform.log bytes hb
  exact ⟨⟨hform.ordered, ⟨m, hb, hrest⟩, hform.stored, hform.small⟩, hfiles.2, heq⟩

section Keep

variable {P : List Version → AppendOnlyDb → Prop} {Q : List Version → Dir → Prop}

/-- What a purge that drops something keeps. -/
def PurgeKeeps (z : Zstd) (Q : List Version → Dir → Prop) : Prop :=
  ∀ {vs : List Version} {dir : Dir} {t : UInt32}, DirOk z vs dir → Q vs dir → dropped vs t ≠ 0 →
    Q (keptVersions vs t) (purgedDir dir (sortedChunks (keptVersions vs t)))

/-- **What every step keeps, every database has**, with its versions those of the saves
not purged. -/
theorem Keeps.managed (hk : Keeps z P Q) (hpurge : PurgeKeeps z Q) (h : Managed z cs dir) :
    ∃ vs, DirOk z vs dir ∧ Records cs vs ∧ dir.idx = none ∧ Q vs dir := by
  induction h with
  | first hs hrange => exact hk.first hs hrange
  | session _ hs hrange ih =>
    obtain ⟨vs, hd, hr, hidx, hQ⟩ := ih
    obtain ⟨new, hd', hr', hidx', -, hQ'⟩ := hk.session hd hQ hs hrange
    exact ⟨vs ++ new, hd', hr.append hr', hidx'.trans hidx, hQ'⟩
  | @purge cs d d' ord t n _ hp ih =>
    obtain ⟨vs, hd, hr, hidx, hQ⟩ := ih
    obtain ⟨hd', hidx', rfl⟩ := hd.purged hidx ord hp
    refine ⟨keptVersions vs t, hd', hr.kept t, hidx', ?_⟩
    by_cases hzero : dropped vs t = 0
    · rw [if_pos hzero, dropped_eq_zero hzero]
      exact hQ
    · rw [if_neg hzero]
      exact hpurge hd hQ hzero

theorem Maintained.managed (h : Maintained z dir) : ∃ cs, Managed z cs dir := by
  induction h with
  | first hs hrange => exact ⟨_, .first hs hrange⟩
  | session _ hs hrange ih =>
    obtain ⟨cs, ih⟩ := ih
    exact ⟨_, .session ih hs hrange⟩
  | purge _ hp ih =>
    obtain ⟨cs, ih⟩ := ih
    exact ⟨_, .purge ih hp⟩

theorem Keeps.maintained (hk : Keeps z P Q) (hpurge : PurgeKeeps z Q) (h : Maintained z dir) :
    ∃ vs, DirOk z vs dir ∧ dir.idx = none ∧ Q vs dir := by
  obtain ⟨cs, h⟩ := h.managed
  obtain ⟨vs, hd, -, hidx, hQ⟩ := hk.managed hpurge h
  exact ⟨vs, hd, hidx, hQ⟩

end Keep

/-- **Sessions and purges keep a database well formed.** -/
theorem maintained_ok (h : Maintained z dir) : ∃ vs, DirOk z vs dir ∧ dir.idx = none := by
  obtain ⟨vs, hd, hidx, -⟩ := (Keeps.trivial z).maintained (fun _ _ _ => True.intro) h
  exact ⟨vs, hd, hidx⟩

/-- Three saves of one page, in one session. -/
def threeSaves : List SaveCall := onePages [(noise 1, 1), (noise 2, 4), (noise 3, 9)]

theorem threeSaves_session : ∃ dir, Session Zstd.raw Dir.empty threeSaves dir ∧ Maintained Zstd.raw dir ∧
    Managed Zstd.raw threeSaves dir := by
  obtain ⟨dir, hs, -, -⟩ : ∃ dir, Session Zstd.raw Dir.empty threeSaves dir ∧ dir.IdsBelow 10 ∧ dir.HasRoom 0 :=
    session_onePages Zstd.raw_small (by decide : 1 ≤ 4 ∧ 4 ≤ 255) 512 true (by simp) (by simp) (by decide) (by decide) 0
      (by decide)
  exact ⟨dir, hs, .first hs (onePages_inRange _), .first hs (onePages_inRange _)⟩

end Bxdb
