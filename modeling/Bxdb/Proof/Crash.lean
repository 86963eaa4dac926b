import Bxdb.Proof.FailedSaves
import Bxdb.Proof.LogSwap
import Bxdb.Proof.PurgeFrees
import Bxdb.Proof.Sync
import Bxdb.Proof.TornLog

/-!
# A crash while a save appends its records

`open` keeps whatever a crash left at the end of the log. Whole records are read like any
other, before those of a later save with the same key; the start of a record shifts
whatever is appended behind it.

* `crashed_ok`: what a crash leaves, over the versions of the saves before it.
* `shadowSession_ok`: a session stores no Delta against a page of another one.
* `CrashOk.after`: later sessions append to that as to an undamaged log.
* `crash_recovers`: **later loads answer from the saves that returned Ok when what the crash
  left is `Harmless`.**
* `crash_retry`: a retry of the snapshot whose page readers never see.
-/

namespace Bxdb

open Bytes Buffered SortedIndex Versioned ChunkRecord

variable {z : Zstd} {cs : List SaveCall} {ss : List (Bool × List SaveCall)} {c : SaveCall} {left : Bytes} {dir dir' : Dir}
  {old new later : List Version} {m : UInt32}

/-! ## What a crash leaves -/

/-- The directory of a crash: `old` are the versions of the saves before, `new` those of the
save that crashed, and the log has the bytes `left` of their records. -/
structure CrashOk (z : Zstd) (cs : List SaveCall) (c : SaveCall) (left : Bytes) (dir : Dir) (old new : List Version)
    (m : UInt32) : Prop where
  before : DirOk z old { dir with log := some (writeLogHeader m ++ encodeAll (chunks old)) }
  records : Records cs old
  saved : Saved c new
  ordered : Ordered (old ++ new)
  stored : ∀ v ∈ new, Stored z (old ++ new) dir.blobs v
  log : dir.log = some (writeLogHeader m ++ (encodeAll (chunks old) ++ left))
  cut : ∃ k, left = (encodeAll (chunks new)).take k
  idx : dir.idx = none

theorem crashed_ok (h : Crashed z cs c left dir) (hrange : ∀ c' ∈ cs ++ [c], c'.InRange) :
    ∃ old new m, CrashOk z cs c left dir old new m := by
  cases h with
  | @mk cs cs' _ dir after n t u db db' db'' schedule log log' k h hopen hsaves hsave hclose hlog hlog' =>
    obtain ⟨vs, h1, hr, hsh, hdir, hidx⟩ := database_open h (fun c hc => hrange c (by simp [hc])) hopen
    obtain ⟨new₁, h2⟩ := saves_ok h1 (by rw [hsh]; exact shadowBacked_new _) hsaves fun c hc => hrange c (by simp [hc])
    obtain ⟨new₂, h3⟩ := save_ok h2.handle hsave (hrange c (by simp)) fun _ _ => deltasBacked_of_shadow h2.backed
    obtain ⟨hl, hi, hb⟩ := close_inv h3.handle.log h3.handle.blobs hclose
    obtain ⟨m, hm, hbound, hmax⟩ := h2.handle.bytes
    obtain ⟨m', hm', -⟩ := h3.handle.bytes
    have hlogm : log = writeLogHeader m ++ encodeAll (chunks (vs ++ new₁)) :=
      (Option.some.inj hlog).symm.trans hm
    have hlogm' : log' = writeLogHeader m' ++ (encodeAll (chunks (vs ++ new₁)) ++ encodeAll (chunks new₂)) := by
      rw [hl, hm', chunks_append, encodeAll_append] at hlog'
      exact (Option.some.inj hlog').symm
    -- what the crash may cut is the crashed save's own records
    have hdrop : log'.drop log.length = encodeAll (chunks new₂) := by
      rw [hlogm', hlogm, ← List.append_assoc]
      apply List.drop_left'
      rw [List.length_append, List.length_append, length_writeLogHeader, length_writeLogHeader]
    refine ⟨vs ++ new₁, new₂, m, ⟨h2.handle.ordered, ⟨m, rfl, hbound, hmax⟩, fun v hv => ?_, ?_⟩,
      hr.append h2.records, h3.saved, h3.handle.ordered, fun v hv => ?_, ?_, ⟨k, by rw [hdrop]⟩, ?_⟩
    · change Stored z _ after.blobs v
      rw [hb]
      exact (h2.handle.stored v hv).mono (fun _ hv => hv) h3.grow
    · have hsmall : ∀ w bs, after.blobs w = some bs → bs.length ≤ maxFileLen :=
        close_small h3.handle.blobs h3.handle.others hclose
      exact hsmall
    · change Stored z _ after.blobs v
      rw [hb]
      exact h3.handle.stored v (List.mem_append_right _ hv)
    · change some (log ++ _) = some (_ ++ (_ ++ _))
      rw [hlogm, List.append_assoc]
    · change after.idx = none
      rw [hi, h3.setup.dir, h2.setup.dir, hdir, hidx]

/-! ## Sessions with their shadow -/

/-- One handle with a shadow saved both. -/
def OneHandle (ss : List (Bool × List SaveCall)) (base v : Version) : Prop :=
  ∃ s ∈ ss, s.1 = true ∧ savedBy s.2 base.pa base.snap base.page ∧ savedBy s.2 v.pa v.snap v.page

/-- What one handle adds: each Delta has its base among the same saves. -/
structure HandleAdds (u : Bool) (new : List Version) : Prop where
  recorded : ∀ v ∈ new, v.AsRecorded
  deltas : ∀ v ∈ new, v.chunk.kind = .delta → u = true ∧ ∃ base ∈ new, base.key = v.chunk.baseKey

/-- **One session** starts with an empty shadow, so its Deltas have bases of its own. -/
theorem shadowSession_ok {vs : List Version} {u : Bool} (hd : DirOk z vs dir) (hs : ShadowSession z u dir cs dir')
    (hrange : ∀ c ∈ cs, c.InRange) : ∃ new, DirOk z (vs ++ new) dir' ∧ Records cs new ∧ dir'.idx = dir.idx ∧
      BlobsGrow dir.blobs dir'.blobs ∧ HandleAdds u new := by
  cases hs with
  | @mk _ _ _ _ _ db db' _ hopen hsaves hclose =>
    obtain ⟨h, hb⟩ := open_ok hd hopen
    obtain ⟨hu, -⟩ := open_setup hopen
    obtain ⟨-, -, -, -, -, hdir, -, -, -, hsh, -, -⟩ := open_inv hopen
    have hkeeps : SaveKeeps z fun all db => db.useShadow = u ∧
        ∃ ws, all = vs ++ ws ∧ ShadowBacked ws db.shadow ∧ HandleAdds u ws := by
      rintro _ new db db' c h ⟨hu, ws, rfl, hback, hadds⟩ hsave hdone
      refine ⟨hsave.setup.useShadow.trans hu, ws ++ new, List.append_assoc _ _ _, fun pa key page hentry => ?_,
        fun v hv => ?_, fun v hv hk => ?_⟩
      · rcases hdone.shadow h hsave hentry with hold | hnew
        · exact (hback pa key page hold).mono fun v hv => List.mem_append_left _ hv
        · exact hnew.mono fun v hv => List.mem_append_right _ hv
      · rcases List.mem_append.1 hv with hv | hv
        · exact hadds.recorded v hv
        · exact hdone.asRecorded h hsave v hv
      · rcases List.mem_append.1 hv with hv | hv
        · obtain ⟨hu, base, hbase, hkey⟩ := hadds.deltas v hv hk
          exact ⟨hu, base, List.mem_append_left _ hbase, hkey⟩
        · obtain ⟨hu', page, hentry⟩ := hdone.delta h hsave hv hk
          obtain ⟨base, hbase, hkey, -⟩ := hback _ _ _ hentry
          exact ⟨hu.symm.trans hu', base, List.mem_append_left _ hbase, hkey⟩
    obtain ⟨new, hsaved, -, ws, heq, -, hadds⟩ := hkeeps.saves h hb
      ⟨hu, [], (List.append_nil _).symm, by rw [hsh]; exact shadowBacked_new _, by simp, by simp⟩ hsaves hrange
    obtain rfl := List.append_cancel_left heq
    obtain ⟨-, hidx, hblobs⟩ := close_inv hsaved.handle.log hsaved.handle.blobs hclose
    refine ⟨new, close_ok hsaved.handle hclose, hsaved.records, ?_, ?_, hadds⟩
    · rw [hidx, hsaved.setup.dir, hdir]
    · rw [hblobs]
      exact (open_grow hopen).trans hsaved.grow

/-- **Sessions, one after the other.** -/
theorem shadowSessions_ok (hd : DirOk z old dir) (hs : ShadowSessions z dir ss dir')
    (hrange : ∀ c ∈ ss.flatMap Prod.snd, c.InRange) : ∃ later, DirOk z (old ++ later) dir' ∧
      Records (ss.flatMap Prod.snd) later ∧ dir'.idx = dir.idx ∧ BlobsGrow dir.blobs dir'.blobs ∧
      (∀ v ∈ later, v.AsRecorded) ∧
      ∀ v ∈ later, v.chunk.kind = .delta → ∃ base ∈ later, base.key = v.chunk.baseKey ∧ OneHandle ss base v := by
  induction hs with
  | nil =>
    refine ⟨[], ?_, Records.nil, rfl, BlobsGrow.refl _, by simp, by simp⟩
    rw [List.append_nil]
    exact hd
  | @snoc mid dir' ss u cs _ hs ih =>
    rw [List.flatMap_append, List.flatMap_singleton] at hrange ⊢
    obtain ⟨later, hd', hr, hidx, hgrow, hrec, hdeltas⟩ := ih fun c hc => hrange c (List.mem_append_left _ hc)
    obtain ⟨new, hd'', hr', hidx', hgrow', hadds⟩ :=
      shadowSession_ok hd' hs fun c hc => hrange c (List.mem_append_right _ hc)
    refine ⟨later ++ new, ?_, hr.append hr', hidx'.trans hidx, hgrow.trans hgrow', fun v hv => ?_, fun v hv hk => ?_⟩
    · rw [← List.append_assoc]
      exact hd''
    · rcases List.mem_append.1 hv with hv | hv
      · exact hrec v hv
      · exact hadds.recorded v hv
    · rcases List.mem_append.1 hv with hv | hv
      · obtain ⟨base, hbase, hkey, s, hs, hone⟩ := hdeltas v hv hk
        exact ⟨base, List.mem_append_left _ hbase, hkey, s, List.mem_append_left _ hs, hone⟩
      · obtain ⟨hu, base, hbase, hkey⟩ := hadds.deltas v hv hk
        have hsaved : ∀ w ∈ new, savedBy cs w.pa w.snap w.page := fun w hw => (hr' _ _ _).1 ⟨w, ⟨hw, rfl, rfl⟩, rfl⟩
        exact ⟨base, List.mem_append_right _ hbase, hkey, (u, cs), List.mem_append_right _ (List.mem_singleton_self _), hu,
          hsaved base hbase, hsaved v hv⟩

/-- **Sessions after a crash** add the versions they would add to the log without what the
crash left in it. -/
theorem CrashOk.after (h : CrashOk z cs c left dir old new m) (hs : ShadowSessions z dir ss dir')
    (hrange : ∀ c' ∈ ss.flatMap Prod.snd, c'.InRange) : ∃ later m',
    DirOk z (old ++ later) { dir' with log := some (writeLogHeader m' ++ encodeAll (chunks (old ++ later))) } ∧
      Records (ss.flatMap Prod.snd) later ∧ dir'.idx = none ∧ BlobsGrow dir.blobs dir'.blobs ∧
      (∀ v ∈ later, v.AsRecorded) ∧
      (∀ v ∈ later, v.chunk.kind = .delta → ∃ base ∈ later, base.key = v.chunk.baseKey ∧ OneHandle ss base v) ∧
      dir'.log = some (writeLogHeader m' ++ (encodeAll (chunks old) ++ (left ++ encodeAll (chunks later)))) := by
  have hlog : dir.log = some (writeLogHeader m ++ (encodeAll (chunks old) ++ (left ++ []))) := by
    rw [h.log, List.append_nil]
  obtain ⟨m', b, hlog', hs'⟩ := @sessions_swap z _ left [] [] m dir dir' ss hlog hs
  rw [List.nil_append, List.append_nil, List.nil_append] at hs'
  obtain ⟨later, hd, hr, hidx, hgrow, hrec, hdeltas⟩ := shadowSessions_ok h.before hs' hrange
  obtain ⟨m'', hm, -⟩ := hd.log
  -- the log read back as header and records
  have hsame : writeLogHeader m' ++ (encodeAll (chunks old) ++ b) =
      writeLogHeader m'' ++ (encodeAll (chunks old) ++ encodeAll (chunks later)) := by
    rw [chunks_append, encodeAll_append] at hm
    exact Option.some.inj hm
  obtain ⟨hheader, hbody⟩ := List.append_inj hsame (by rw [length_writeLogHeader, length_writeLogHeader])
  obtain rfl := List.append_cancel_left hbody
  refine ⟨later, m', ?_, hr, hidx.trans h.idx, hgrow, hrec, hdeltas, hlog'⟩
  rwa [chunks_append, encodeAll_append]

/-! ## The versions readers find -/

section Firsts

variable {vs : List Version}

/-- Of `vs` and then `later`, the first version of each key. -/
def firsts (vs later : List Version) : List Version := vs ++ later.filter fun v => v.key ∉ vs.map Version.key

theorem mem_firsts {v : Version} : v ∈ firsts vs later ↔ v ∈ vs ∨ v ∈ later ∧ v.key ∉ vs.map Version.key := by
  unfold firsts
  rw [List.mem_append, List.mem_filter, decide_eq_true_eq]

theorem firsts_distinct (h : KeysDistinct vs) (h' : KeysDistinct later) : KeysDistinct (firsts vs later) := by
  unfold firsts KeysDistinct
  rw [List.map_append, List.nodup_append]
  refine ⟨h, h'.sublist (List.filter_sublist.map _), ?_⟩
  rintro a ha b hb rfl
  obtain ⟨v, hv, rfl⟩ := List.mem_map.1 hb
  exact (of_decide_eq_true (List.mem_filter.1 hv).2) ha

/-- **The index of a log** lists the records of its first versions. -/
theorem mem_index_firsts (h : KeysDistinct vs) (h' : KeysDistinct later) {r : ChunkRecord} :
    r ∈ index recordKey (chunks vs ++ chunks later) ↔ r ∈ chunks (firsts vs later) := by
  have hkey : ∀ v : Version, recordKey v.chunk ∈ (chunks vs).map recordKey ↔ v.key ∈ vs.map Version.key := by
    intro v
    rw [List.map_map]
    constructor
    · intro hv
      obtain ⟨u, hu, huv⟩ := List.mem_map.1 hv
      exact List.mem_map.2 ⟨u, hu, recordKey_inj huv⟩
    · intro hv
      obtain ⟨u, hu, huv⟩ := List.mem_map.1 hv
      exact List.mem_map.2 ⟨u, hu, congrArg UInt64.toNat huv⟩
  rw [mem_index_append (recordKeys_nodup h) (recordKeys_nodup h')]
  constructor
  · rintro (hr | ⟨hr, hnot⟩)
    · obtain ⟨v, hv, rfl⟩ := List.mem_map.1 hr
      exact List.mem_map_of_mem (mem_firsts.2 (.inl hv))
    · obtain ⟨v, hv, rfl⟩ := List.mem_map.1 hr
      exact List.mem_map_of_mem (mem_firsts.2 (.inr ⟨hv, fun hmem => hnot ((hkey v).2 hmem)⟩))
  · intro hr
    obtain ⟨v, hv, rfl⟩ := List.mem_map.1 hr
    rcases mem_firsts.1 hv with hv | ⟨hv, hnot⟩
    · exact .inl (List.mem_map_of_mem hv)
    · exact .inr ⟨List.mem_map_of_mem hv, fun hmem => hnot ((hkey v).1 hmem)⟩

end Firsts

/-! ## The records left -/

theorem complete_isPrefix : ∀ (rs : List ChunkRecord) (n : ℕ), complete rs n <+: rs
  | [], _ => List.prefix_refl _
  | r :: rs, n => by
    unfold complete
    split
    · exact List.prefix_cons_inj r |>.2 (complete_isPrefix rs _)
    · exact List.nil_prefix

/-- **Bytes that scan are whole records** of the save, and less than a fixed part. -/
theorem CrashOk.scanned (h : CrashOk z cs c left dir old new m) {records : List ChunkRecord}
    (hscan : scan left = .ok records) : ∃ (part : List Version) (tail : Bytes), part <+: new ∧ chunks part = records ∧
      left = encodeAll records ++ tail ∧ tail.length < logRecordBaseSize := by
  obtain ⟨k, rfl⟩ := h.cut
  -- a cut behind the end is one at the end
  obtain ⟨n, hn, hcut⟩ : ∃ n, n ≤ (encodeAll (chunks new)).length ∧
      (encodeAll (chunks new)).take k = (encodeAll (chunks new)).take n :=
    ⟨min k _, min_le_right _ _, by rw [← List.take_take, List.take_length]⟩
  rw [hcut] at hscan ⊢
  have hshort : leftOver (chunks new) n < logRecordBaseSize := by
    by_contra hlong
    rw [scan_torn hn (not_lt.1 hlong)] at hscan
    simp [eofErr, ioErr] at hscan
  obtain ⟨tail, htake, htail, -⟩ := take_encodeAll hn
  rw [← htail] at hshort
  have hpre := complete_isPrefix (chunks new) n
  have hplain : ∀ r ∈ complete (chunks new) n, r.Plain := fun r hr => chunks_plain h.stored r (hpre.subset hr)
  rw [htake, scan_encode_tail hplain hshort] at hscan
  obtain rfl := Except.ok.inj hscan
  refine ⟨new.take (complete (chunks new) n).length, tail, List.take_prefix _ _, ?_, htake, hshort⟩
  rw [chunks, List.map_take]
  exact (List.prefix_iff_eq_take.1 hpre).symm

/-! ## Later sessions -/

/-- What is in the directory after later sessions `ss`: the versions `old` of the saves
before the crash, `part` of what the crash left, `later` of the sessions. -/
structure AfterCrash (z : Zstd) (cs : List SaveCall) (ss : List (Bool × List SaveCall)) (c : SaveCall) (dir : Dir)
    (old part later : List Version) : Prop where
  records : Records cs old
  records' : Records (ss.flatMap Prod.snd) later
  distinct : KeysDistinct (old ++ part)
  distinct' : KeysDistinct (old ++ later)
  saved : ∀ v ∈ part, v.snap = c.id.toNat ∧ c.dirty v.pa = some v.page
  stored : ∀ v ∈ old ++ part, Stored z old dir.blobs v
  stored' : ∀ v ∈ later, Stored z (old ++ later) dir.blobs v
  recorded : ∀ v ∈ later, v.AsRecorded
  deltas : ∀ v ∈ later, v.chunk.kind = .delta → ∃ base ∈ later, base.key = v.chunk.baseKey ∧ OneHandle ss base v
  idx : dir.idx = none
  log : ∃ m tail, dir.log = some (writeLogHeader m ++ (encodeAll (chunks (old ++ part) ++ chunks later) ++ tail)) ∧
    tail.length < logRecordBaseSize

/-- **After a crash whose bytes scan**, with nothing appended behind the start of a record. -/
theorem CrashOk.rest (h : CrashOk z cs c left dir old new m) (hs : ShadowSessions z dir ss dir')
    (hrange : ∀ c' ∈ ss.flatMap Prod.snd, c'.InRange) {records : List ChunkRecord} (hscan : scan left = .ok records)
    (haligned : encodeAll records = left ∨ ∀ c' ∈ ss.flatMap Prod.snd, ∀ pa, c'.dirty pa = none) :
    ∃ part later, chunks part = records ∧ AfterCrash z cs ss c dir' old part later := by
  obtain ⟨later, m', hd, hr', hidx, hgrow, hrec, hdeltas, hlog⟩ := h.after hs hrange
  obtain ⟨part, tail, hpre, rfl, hleft, hshort⟩ := h.scanned hscan
  -- the versions left are a prefix of the crashed save's
  have hsub : ∀ v ∈ old ++ part, v ∈ old ++ new := by
    intro v hv
    rw [List.mem_append] at hv ⊢
    exact hv.imp_right fun hv => hpre.subset hv
  refine ⟨part, later, rfl, h.records, hr', ?_, hd.ordered.distinct, fun v hv => ?_, fun v hv => ?_,
    fun v hv => hd.stored v (List.mem_append_right _ hv), hrec, hdeltas, hidx, m', ?_⟩
  · have hsublist : ((old ++ part).map Version.key).Sublist ((old ++ new).map Version.key) :=
      ((List.Sublist.refl old).append hpre.sublist).map _
    exact h.ordered.distinct.sublist hsublist
  · exact ⟨h.saved.snap v (hpre.subset hv), (h.saved.dirty v.pa v.page).2 ⟨v, hpre.subset hv, rfl, rfl⟩⟩
  · rcases List.mem_append.1 hv with hold | hpart
    · exact (h.before.stored v hold).mono (fun _ hv => hv) hgrow
    · -- the base of a Delta is older than the save, so it is none of its versions
      have hst := (h.stored v (hpre.subset hpart)).mono (fun _ hv => hv) hgrow
      have hsnap := h.saved.snap v (hpre.subset hpart)
      cases hst with
      | zero hblob => exact .zero hblob
      | full hblob hdata => exact .full hblob hdata
      | @delta key w off len page bs base hbase hfull hpa hlt hblob hdata =>
        rcases List.mem_append.1 hbase with hold | hnew
        · exact .delta hold hfull hpa hlt hblob hdata
        · have hbsnap := h.saved.snap base hnew
          change (snapshotOf key).toNat = c.id.toNat at hsnap
          omega
  · rcases haligned with heq | hnone
    · -- whole records only
      have htail : tail = [] := by
        rw [heq] at hleft
        exact List.self_eq_append_right.1 hleft
      refine ⟨[], ?_, by decide⟩
      rw [hlog, hleft, htail, List.append_nil, List.append_nil, chunks_append, encodeAll_append, encodeAll_append,
        List.append_assoc]
    · -- nothing is appended
      obtain rfl := (hr'.eq_nil_iff).2 hnone
      refine ⟨tail, ?_, hshort⟩
      have hnil : chunks [] = [] := rfl
      rw [hlog, hleft, hnil, encodeAll_nil, List.append_nil, List.append_nil, chunks_append, encodeAll_append,
        List.append_assoc]

section After

variable {part : List Version}

/-- The versions readers find. -/
abbrev found (old part later : List Version) : List Version := firsts (old ++ part) later

theorem AfterCrash.mem_found (h : AfterCrash z cs ss c dir old part later) {v : Version} :
    v ∈ found old part later ↔ v ∈ old ∨ v ∈ part ∨ v ∈ later ∧ ∀ u ∈ part, u.key ≠ v.key := by
  rw [mem_firsts, List.mem_append, or_assoc]
  refine or_congr_right (or_congr_right (and_congr_right fun hv => ?_))
  rw [List.map_append, List.mem_append, not_or]
  constructor
  · rintro ⟨-, hnot⟩ u hu hkey
    exact hnot (List.mem_map.2 ⟨u, hu, hkey⟩)
  · intro hne
    refine ⟨fun hmem => ?_, fun hmem => ?_⟩
    · -- no key of before the crash is used again
      have hdistinct := h.distinct'
      unfold KeysDistinct at hdistinct
      rw [List.map_append, List.nodup_append] at hdistinct
      exact hdistinct.2.2 _ hmem _ (List.mem_map_of_mem hv) rfl
    · obtain ⟨u, hu, hkey⟩ := List.mem_map.1 hmem
      exact hne u hu hkey

theorem AfterCrash.found_distinct (h : AfterCrash z cs ss c dir old part later) : KeysDistinct (found old part later) := by
  have hd := h.distinct'
  unfold KeysDistinct at hd
  rw [List.map_append] at hd
  exact firsts_distinct h.distinct hd.of_append_right

/-- **What readers find is stored**, when a Delta of a later session that is read against a
page of the crash was computed against the same page. -/
theorem AfterCrash.found_stored (h : AfterCrash z cs ss c dir old part later)
    (hbases : ∀ base ∈ later, ∀ v ∈ later, v.chunk.kind = .delta → base.key = v.chunk.baseKey → base.chunk.kind = .full →
      base.pa = v.pa → base.snap < v.snap → ∀ u ∈ part, u.key = base.key → u.chunk.kind = .full ∧ u.page = base.page) :
    ∀ v ∈ found old part later, Stored z (found old part later) dir.blobs v := by
  have hold : ∀ v ∈ old, v ∈ found old part later := fun v hv => h.mem_found.2 (.inl hv)
  have hgrow := BlobsGrow.refl dir.blobs
  intro v hv
  rcases h.mem_found.1 hv with hv | hv | ⟨hv, -⟩
  · exact (h.stored v (List.mem_append_left _ hv)).mono hold hgrow
  · exact (h.stored v (List.mem_append_right _ hv)).mono hold hgrow
  · have hst := h.stored' v hv
    cases hst with
    | zero hblob => exact .zero hblob
    | full hblob hdata => exact .full hblob hdata
    | @delta key w off len page bs base hbase hfull hpa hlt hblob hdata =>
      by_cases hin : base ∈ found old part later
      · exact .delta hin hfull hpa hlt hblob hdata
      · -- the record readers find for the base is one of the crash
        have hbase : base ∈ later := (List.mem_append.1 hbase).resolve_left fun hmem => hin (hold base hmem)
        obtain ⟨u, hu, hkey⟩ : ∃ u ∈ part, u.key = base.key := by
          by_contra hno
          exact hin (h.mem_found.2 (.inr (.inr ⟨hbase, fun u hu hkey => hno ⟨u, hu, hkey⟩⟩)))
        obtain ⟨hufull, hupage⟩ := hbases base hbase _ hv rfl rfl hfull hpa hlt u hu hkey
        have hupa : u.pa = base.pa := congrArg paOf hkey
        have husnap : u.snap = base.snap := congrArg (fun k => (snapshotOf k).toNat) hkey
        rw [← hkey]
        refine .delta (h.mem_found.2 (.inr (.inl hu))) hufull (hupa.trans hpa) (husnap ▸ hlt) hblob ?_
        rw [hupage]
        exact hdata

theorem AfterCrash.plain (h : AfterCrash z cs ss c dir old part later) :
    ∀ r ∈ chunks (old ++ part) ++ chunks later, r.Plain := by
  intro r hr
  rcases List.mem_append.1 hr with hr | hr
  · exact chunks_plain h.stored r hr
  · exact chunks_plain h.stored' r hr

/-- The store of the directory finds these versions. -/
theorem AfterCrash.serves (h : AfterCrash z cs ss c dir old part later) : ∃ store, PageStore.open dir = .ok store ∧
    store.blobs = dir.blobs ∧ Serves store (found old part later) := by
  obtain ⟨m, tail, hlog, hshort⟩ := h.log
  have hd := h.distinct'
  unfold KeysDistinct at hd
  rw [List.map_append] at hd
  exact ⟨_, open_log h.idx hlog, rfl, serves_firsts h.found_distinct h.plain
    (fun r => mem_index_firsts h.distinct hd.of_append_right) m hshort dir.blobs⟩

theorem AfterCrash.loads (hz : z.RoundTrip) (h : AfterCrash z cs ss c dir old part later)
    (hstored : ∀ v ∈ found old part later, Stored z (found old part later) dir.blobs v) (pa : UInt64) {s : UInt32}
    (hs : s ≤ maxSnapshotId) :
    ∃ r, loadPage z dir pa s = .ok r ∧ AsOf (pagesOf (found old part later)) pa s.toNat r := by
  obtain ⟨store, hopen, hblobs, hS⟩ := h.serves
  exact loadPage_asOf hz hopen hblobs hS pa hs fun v hv _ => hstored v hv

/-- **The pages readers find** are those saved, and those of the crash. -/
theorem AfterCrash.pages (h : AfterCrash z cs ss c dir old part later)
    (hsame : ∀ u ∈ part, ∀ v ∈ later, u.key = v.key → u.page = v.page) (pa : UInt64) (t : ℕ) (page : Page) :
    pagesOf (found old part later) pa t page ↔
      savedBy (cs ++ ss.flatMap Prod.snd) pa t page ∨ t = c.id.toNat ∧ ∃ u ∈ part, u.pa = pa ∧ u.page = page := by
  rw [savedBy_append, ← h.records pa t page, ← h.records' pa t page]
  constructor
  · rintro ⟨v, ⟨hv, hpa, hsnap⟩, hpage⟩
    rcases h.mem_found.1 hv with hv | hv | ⟨hv, -⟩
    · exact .inl (.inl ⟨v, ⟨hv, hpa, hsnap⟩, hpage⟩)
    · exact .inr ⟨hsnap.symm.trans (h.saved v hv).1, v, hv, hpa, hpage⟩
    · exact .inl (.inr ⟨v, ⟨hv, hpa, hsnap⟩, hpage⟩)
  · rintro ((⟨v, ⟨hv, hpa, hsnap⟩, hpage⟩ | ⟨v, ⟨hv, hpa, hsnap⟩, hpage⟩) | ⟨rfl, u, hu, hpa, hpage⟩)
    · exact ⟨v, ⟨h.mem_found.2 (.inl hv), hpa, hsnap⟩, hpage⟩
    · by_cases hrepeat : ∃ u ∈ part, u.key = v.key
      · -- saved again: readers find the page of the crash
        obtain ⟨u, hu, hkey⟩ := hrepeat
        have hupa : u.pa = v.pa := congrArg paOf hkey
        have husnap : u.snap = v.snap := congrArg (fun k => (snapshotOf k).toNat) hkey
        exact ⟨u, ⟨h.mem_found.2 (.inr (.inl hu)), hupa.trans hpa, husnap.trans hsnap⟩,
          (hsame u hu v hv hkey).trans hpage⟩
      · exact ⟨v, ⟨h.mem_found.2 (.inr (.inr ⟨hv, fun u hu hkey => hrepeat ⟨u, hu, hkey⟩⟩)), hpa, hsnap⟩, hpage⟩
    · exact ⟨u, ⟨h.mem_found.2 (.inr (.inl hu)), hpa, (h.saved u hu).1⟩, hpage⟩

end After

/-! ## Recovery -/

/-- **What a crash left does no harm** to the saves `cs` before it and the sessions `ss` after
it. -/
structure Harmless (cs : List SaveCall) (ss : List (Bool × List SaveCall)) (c : SaveCall) (left : Bytes)
    (records : List ChunkRecord) : Prop where
  /-- The bytes scan, so fewer than a fixed part follow the last whole record. -/
  scan : ChunkRecord.scan left = .ok records
  /-- Nothing is appended behind the start of a record. -/
  aligned : encodeAll records = left ∨ ∀ c' ∈ ss.flatMap Prod.snd, ∀ pa, c'.dirty pa = none
  /-- The page of a whole record is the one the address has from the other saves. -/
  pages : ∀ r ∈ records, AsOf (savedBy (cs ++ ss.flatMap Prod.snd)) (paOf r.key) c.id.toNat (c.dirty (paOf r.key))
  /-- Where a Delta was left, no handle with a shadow makes a retry and then another save. -/
  deltas : ∀ r ∈ records, r.kind = .delta → ∀ s ∈ ss, s.1 = true → ∀ c₁ ∈ s.2, ∀ c₂ ∈ s.2, c₁.id = c.id → c.id < c₂.id →
    c₁.dirty (paOf r.key) = none ∨ c₂.dirty (paOf r.key) = none

/-- **A directory answers from the saves `cs`**: its log scans, and every load returns the
page of the latest of them. -/
structure Restored (z : Zstd) (cs : List SaveCall) (dir : Dir) : Prop where
  scan : ∃ records, LogHolds dir.log records
  page : ∀ (pa : UInt64) (s : UInt32), s ≤ maxSnapshotId →
    ∃ r, loadPage z dir pa s = .ok r ∧ AsOf (savedBy cs) pa s.toNat r
  all : ∀ (off count : UInt64) (s : UInt32) (workers : ℕ), s ≤ maxSnapshotId → off.toNat + count.toNat < 2 ^ 64 →
    WorkersFit count.toNat workers → ∃ out, loadAllPages z dir (count.toNat * pageSize) true off count s workers = .ok out ∧
      RangeAsOf (savedBy cs) off count s out

section Recovery

variable {part : List Version} {records : List ChunkRecord}

/-- The page of the crash is the one a retry saved. -/
theorem AfterCrash.same (h : AfterCrash z cs ss c dir old part later) (hharm : Harmless cs ss c left (chunks part)) :
    ∀ u ∈ part, ∀ v ∈ later, u.key = v.key → u.page = v.page := by
  intro u hu v hv hkey
  obtain ⟨husnap, hudirty⟩ := h.saved u hu
  have hpa : v.pa = u.pa := congrArg paOf hkey.symm
  have hsnap : v.snap = c.id.toNat := (congrArg (fun k => (snapshotOf k).toNat) hkey.symm).trans husnap
  have hfun : Functional (savedBy (cs ++ ss.flatMap Prod.snd)) := (h.records.append h.records').functional h.distinct'
  have hcrash : AsOf (savedBy (cs ++ ss.flatMap Prod.snd)) u.pa c.id.toNat (some u.page) := by
    rw [← hudirty]
    exact hharm.pages u.chunk (List.mem_map_of_mem hu)
  have hretry : savedBy (cs ++ ss.flatMap Prod.snd) u.pa c.id.toNat v.page :=
    savedBy_append.2 (.inr ((h.records' _ _ _).1 ⟨v, ⟨hv, hpa, hsnap⟩, rfl⟩))
  exact Option.some.inj (hcrash.unique hfun (asOf_some.2 ⟨_, hretry, le_rfl, fun _ _ _ hle => hle⟩))

/-- Later Deltas are read against the pages they were computed against. -/
theorem AfterCrash.bases (h : AfterCrash z cs ss c dir old part later) (hharm : Harmless cs ss c left (chunks part)) :
    ∀ base ∈ later, ∀ v ∈ later, v.chunk.kind = .delta → base.key = v.chunk.baseKey → base.chunk.kind = .full →
      base.pa = v.pa → base.snap < v.snap → ∀ u ∈ part, u.key = base.key → u.chunk.kind = .full ∧ u.page = base.page := by
  intro base hbase v hv hdelta hbkey hfull hpa hlt u hu hkey
  have hpage := h.same hharm u hu base hbase hkey
  have hupa : u.pa = base.pa := congrArg paOf hkey
  have husnap : u.snap = base.snap := congrArg (fun k => (snapshotOf k).toNat) hkey
  obtain ⟨hsnap, -⟩ := h.saved u hu
  have hst := h.stored u (List.mem_append_right _ hu)
  refine ⟨?_, hpage⟩
  cases hk : u.chunk.kind with
  | full => rfl
  | zero =>
    -- a zero page would not have been saved again as Full
    have hzero : u.page = Page.zero := by
      cases hst with
      | zero => rfl
      | full => simp at hk
      | delta => simp at hk
    have hbzero := (h.recorded base hbase).zero (hpage.symm.trans hzero)
    rw [hfull] at hbzero
    cases hbzero
  | delta =>
    -- the handle that saved the Delta saved its base
    obtain ⟨base', hbase', hbkey', hone⟩ := h.deltas v hv hdelta
    have hdistinct := h.distinct'
    unfold KeysDistinct at hdistinct
    rw [List.map_append] at hdistinct
    obtain rfl : base' = base :=
      List.inj_on_of_nodup_map hdistinct.of_append_right hbase' hbase (hbkey'.trans hbkey.symm)
    obtain ⟨s, hs, hon, ⟨c₁, hc₁, hid₁, hdirty₁⟩, c₂, hc₂, hid₂, hdirty₂⟩ := hone
    have hretry : c₁.id = c.id := UInt32.toNat_inj.1 (by omega)
    have hlater : c.id < c₂.id := UInt32.lt_iff_toNat_lt.2 (by omega)
    have hnone := hharm.deltas u.chunk (List.mem_map_of_mem hu) hk s hs hon c₁ hc₁ c₂ hc₂ hretry hlater
    change c₁.dirty u.pa = none ∨ c₂.dirty u.pa = none at hnone
    rw [hupa] at hnone
    rcases hnone with hnone | hnone
    · rw [hdirty₁] at hnone
      cases hnone
    · rw [hpa, hdirty₂] at hnone
      cases hnone

theorem AfterCrash.restored (hz : z.RoundTrip) (h : AfterCrash z cs ss c dir old part later)
    (hharm : Harmless cs ss c left (chunks part)) : Restored z (cs ++ ss.flatMap Prod.snd) dir := by
  have hstored := h.found_stored (h.bases hharm)
  -- the pages of the crash are there anyway
  have hsaved : ∀ u ∈ part, AsOf (savedBy (cs ++ ss.flatMap Prod.snd)) u.pa c.id.toNat (some u.page) := by
    intro u hu
    rw [← (h.saved u hu).2]
    exact hharm.pages u.chunk (List.mem_map_of_mem hu)
  have hpage : ∀ (pa : UInt64) (s : UInt32), s ≤ maxSnapshotId →
      ∃ r, loadPage z dir pa s = .ok r ∧ AsOf (savedBy (cs ++ ss.flatMap Prod.snd)) pa s.toNat r := by
    intro pa s hs
    obtain ⟨r, hload, hasOf⟩ := h.loads hz hstored pa hs
    refine ⟨r, hload, AsOf.of_insert (E := fun pa page => ∃ u ∈ part, u.pa = pa ∧ u.page = page) ?_
      ((asOf_congr (h.pages (h.same hharm) pa)).1 hasOf)⟩
    rintro pa page ⟨u, hu, rfl, rfl⟩
    exact hsaved u hu
  obtain ⟨m, tail, hlog, hshort⟩ := h.log
  have hheader := readLogHeader m (encodeAll (chunks (old ++ part) ++ chunks later) ++ tail)
  have hscan := scan_encode_tail h.plain hshort
  refine ⟨⟨_, _, m, _, hlog, hheader, hscan⟩, hpage, fun off count s workers hs hoff hfit => ?_⟩
  obtain ⟨load, hall, hload⟩ := @loadAllPages_scan z _ dir off count s workers h.idx hlog m _ _ hheader hscan hoff hs
  choose g hg using fun pa => hpage pa s hs
  refine ⟨(List.range count.toNat).map fun i => g (off + UInt64.ofNat i), ?_, by simp, fun i hi => ?_⟩
  · rw [hall]
    refine loadAllWith_ok hfit fun i hi => ?_
    rw [hload i hi]
    exact (hg _).1
  · simp only [List.getElem_map, List.getElem_range]
    exact (hg _).2

/-- **Crash recovery.** Whatever the crash left, once it is `Harmless` to the saves that
returned Ok before and after it, the log scans and every load answers from these saves. -/
theorem crash_recovers (hz : z.RoundTrip) (h : Crashed z cs c left dir) (hs : ShadowSessions z dir ss dir')
    (hrange : ∀ c' ∈ cs ++ c :: ss.flatMap Prod.snd, c'.InRange) (hharm : Harmless cs ss c left records) :
    Restored z (cs ++ ss.flatMap Prod.snd) dir' := by
  have hbefore : ∀ c' ∈ cs ++ [c], c'.InRange := by
    intro c' hc'
    apply hrange
    simp only [List.mem_append, List.mem_cons, List.not_mem_nil] at hc' ⊢
    tauto
  obtain ⟨old, new, m, hcrash⟩ := crashed_ok h hbefore
  obtain ⟨part, later, rfl, hafter⟩ := hcrash.rest hs (fun c' hc' => hrange c' (by simp [hc'])) hharm.scan hharm.aligned
  exact hafter.restored hz hharm

end Recovery

/-! ## A retry -/

/-- A save of one page that crashes with its record appended, and a retry of its snapshot. -/
structure CrashedRetry (z : Zstd) (p q : Page) (left : Bytes) (dir dir' : Dir) (records : List ChunkRecord) : Prop where
  crashed : Crashed z [] (onePage p 1) left dir
  retried : ∃ u, ShadowSessions z dir [(u, [onePage q 1])] dir'
  scan : ChunkRecord.scan left = .ok records
  whole : encodeAll records = left
  nonempty : records ≠ []

theorem crashedRetry_exists (hz : z.Small) (p q : Page) : ∃ left dir dir' records, CrashedRetry z p q left dir dir' records := by
  obtain ⟨db, hopen⟩ : ∃ db, AppendOnlyDb.open Dir.empty 1 512 true = .ok db :=
    open_completes (by decide : 1 ≤ 1 ∧ 1 ≤ 255) 512 true (.inl rfl)
  obtain ⟨h, hb⟩ := open_empty (z := z) rfl (by simp [Dir.empty]) hopen
  obtain ⟨-, hbytes, hlast⟩ := open_newLog rfl hopen
  have hempty : Dir.empty.HasRoom (3 * 1 * blobBufCap + (3 * 1 * blobBufCap + 0)) := by
    intro w
    have : ((Dir.empty.blobs w).getD []).length = 0 := rfl
    rw [this]
    decide
  obtain ⟨hroom, hothers⟩ := open_room hempty hopen
  -- the save that crashes
  obtain ⟨schedule, db', hrun, hroom'⟩ := save_completes hz (onePage_valid p (by decide : (1 : UInt32) ≤ maxSnapshotId))
    h.blobs (fun l hl => by rw [hlast] at hl; simp at hl) hroom
  obtain ⟨new, hs⟩ := save_ok h hrun (onePage_inRange p 1) fun _ _ => deltasBacked_of_shadow hb
  have hid : (onePage p 1).id < 2 := (by decide : (1 : UInt32) < 2)
  have hbelow : IdsBelow 2 db' := (open_new (i := 2) rfl hopen).save (UInt32.le_refl 2) hid h hs hrun
  obtain ⟨after, hclose, -, hk⟩ := close_below hs.handle (by decide) hbelow hroom' fun w bs hbs => by
    rw [hs.setup.dir] at hbs
    have := hothers w bs hbs
    omega
  obtain ⟨hl, -, -⟩ := close_inv hs.handle.log hs.handle.blobs hclose
  obtain ⟨m, hm, -⟩ := hs.handle.bytes
  rw [hm] at hl
  have hdisk : db.disk.log = some (writeLogHeader 0) := congrArg some (hbytes.trans (List.append_nil _))
  have hdrop : (writeLogHeader m ++ encodeAll (chunks ([] ++ new))).drop (writeLogHeader 0).length = encodeAll (chunks new) :=
    List.drop_left' (by rw [length_writeLogHeader, length_writeLogHeader])
  have hcrash : Crashed z [] (onePage p 1) (encodeAll (chunks new))
      { after with log := some (writeLogHeader 0 ++ encodeAll (chunks new)) } := by
    have hmk := Crashed.mk (k := (encodeAll (chunks new)).length) .empty hopen .nil hrun hclose hdisk hl
    rw [hdrop, List.take_length] at hmk
    exact hmk
  -- the retry, on the log without the record
  have hclean : DirOk z [] { after with log := some (writeLogHeader 0 ++ ([] ++ ([] ++ []))) } := by
    refine ⟨List.Pairwise.nil, ⟨0, rfl, by simp, by decide⟩, by simp, ?_⟩
    have hsmall : ∀ w bs, after.blobs w = some bs → bs.length ≤ maxFileLen :=
      close_small hs.handle.blobs hs.handle.others hclose
    exact hsmall
  obtain ⟨dir', hsession, -, -⟩ : ∃ dir', Session z { after with log := some (writeLogHeader 0 ++ ([] ++ ([] ++ []))) }
      (onePages [(q, 1)]) dir' ∧ dir'.IdsBelow 2 ∧ dir'.HasRoom 0 :=
    session_onePages_next hz (by decide : 1 ≤ 1 ∧ 1 ≤ 255) 512 true hclean ⟨0, [], rfl, by decide⟩ (by simp)
      (by simp) (by decide : (1 : UInt32) ≤ 2) (by decide) (by decide) 0 hk
  obtain ⟨u, hsession⟩ := session_iff.1 hsession
  obtain ⟨m', b', -, hretry⟩ := @session_swap z [] [] (encodeAll (chunks new)) [] 0 _ _ _ _ rfl hsession
  rw [List.nil_append, List.append_nil] at hretry
  refine ⟨_, _, _, chunks new, hcrash, ⟨u, .snoc .nil hretry⟩, scan_encode (chunks_plain hs.handle.stored), rfl, ?_⟩
  -- the page of the save is among its versions
  obtain ⟨v, hv, -⟩ := (hs.saved.dirty 0 p).1 ((onePage_dirty p 1 0 p).2 ⟨rfl, rfl⟩)
  exact List.ne_nil_of_mem (List.mem_map_of_mem hv)

/-- A retry with the same page does no harm. -/
theorem CrashedRetry.harmless {p : Page} {records : List ChunkRecord} (h : CrashedRetry z p p left dir dir' records)
    (u : Bool) : Harmless [] [(u, [onePage p 1])] (onePage p 1) left records := by
  refine ⟨h.scan, .inl h.whole, fun r _ => ?_, fun r _ _ s hs _ c₁ _ c₂ hc₂ _ hlt => ?_⟩
  · rw [List.nil_append, List.flatMap_singleton]
    cases hd : (onePage p 1).dirty (paOf r.key) with
    | none =>
      -- an address that neither saves
      rw [asOf_none]
      rintro t page ⟨c', hc', -, hdirty⟩ -
      rw [List.mem_singleton.1 hc', hd] at hdirty
      cases hdirty
    | some page =>
      exact asOf_some.2 ⟨_, ⟨_, List.mem_singleton_self _, rfl, hd⟩, le_rfl, fun _ _ _ hle => hle⟩
  · rw [List.mem_singleton.1 hs] at hc₂
    rw [List.mem_singleton.1 hc₂] at hlt
    exact absurd hlt (UInt32.lt_irrefl _)

theorem crash_recovers_noise : ∃ left dir dir' records, CrashedRetry Zstd.raw (noise 1) (noise 1) left dir dir' records ∧
    Restored Zstd.raw [onePage (noise 1) 1] dir' := by
  obtain ⟨left, dir, dir', records, h⟩ := crashedRetry_exists Zstd.raw_small (noise 1) (noise 1)
  have hrange : ∀ c' ∈ [] ++ onePage (noise 1) 1 :: [onePage (noise 1) 1], c'.InRange := by
    intro c' hc'
    have hc'' : c' = onePage (noise 1) 1 := by simpa using hc'
    rw [hc'']
    exact onePage_inRange (noise 1) 1
  obtain ⟨u, hretried⟩ := h.retried
  exact ⟨left, dir, dir', records, h, crash_recovers Zstd.raw_roundTrip h.crashed hretried hrange (h.harmless u)⟩

/-- **A retry with another page**: readers find the record of the crash first, and return the
page of the save that never returned. -/
theorem CrashedRetry.loads (hz : z.RoundTrip) {p q : Page} {records : List ChunkRecord}
    (h : CrashedRetry z p q left dir dir' records) : loadPage z dir' 0 1 = .ok (some p) := by
  obtain ⟨old, new, m, hcrash⟩ := crashed_ok h.crashed fun c' hc' => by
    have hc'' : c' = onePage p 1 := by simpa using hc'
    rw [hc'']
    exact onePage_inRange p 1
  obtain ⟨u, hretried⟩ := h.retried
  obtain ⟨part, later, rfl, hafter⟩ := hcrash.rest hretried
    (fun c' hc' => by rw [List.mem_singleton.1 hc']; exact onePage_inRange q 1)
    h.scan (.inl h.whole)
  -- the retry is the only later save, so no Delta of it has a base among its versions
  have hone : ∀ v ∈ later, v.snap = 1 := by
    intro v hv
    obtain ⟨c', hc', hid, -⟩ := (hafter.records' _ _ _).1 ⟨v, ⟨hv, rfl, rfl⟩, rfl⟩
    rw [List.mem_singleton.1 hc'] at hid
    exact hid.symm
  have hstored := hafter.found_stored fun base hbase v hv _ _ _ _ hlt => by
    rw [hone base hbase, hone v hv] at hlt
    exact absurd hlt (lt_irrefl 1)
  obtain ⟨r, hload, hasOf⟩ := hafter.loads hz hstored 0 (by decide : (1 : UInt32) ≤ maxSnapshotId)
  obtain ⟨u, hu⟩ : ∃ u, u ∈ part := List.exists_mem_of_ne_nil _ fun hnil => h.nonempty (by rw [hnil]; rfl)
  obtain ⟨husnap, hudirty⟩ := hafter.saved u hu
  obtain ⟨hupa, hupage⟩ := (onePage_dirty p 1 _ _).1 hudirty
  have hfirst : AsOf (pagesOf (found old part later)) 0 1 (some p) :=
    asOf_some.2 ⟨1, ⟨u, ⟨hafter.mem_found.2 (.inr (.inl hu)), hupa, husnap⟩, hupage⟩, le_rfl, fun _ _ _ hle => hle⟩
  rw [hload, hasOf.unique (pagesOf_functional hafter.found_distinct) hfirst]

/-- **A retry that readers never see.** -/
theorem crash_retry : ¬ ∀ (z : Zstd) (cs cs' : List SaveCall) (c : SaveCall) (left : Bytes) (dir dir' : Dir),
    z.RoundTrip → Crashed z cs c left dir → Sessions z dir cs' dir' → (∀ c' ∈ cs ++ c :: cs', c'.InRange) →
    Restored z (cs ++ cs') dir' := by
  intro hall
  obtain ⟨left, dir, dir', records, h⟩ := crashedRetry_exists Zstd.raw_small (noise 1) (noise 2)
  have hrange : ∀ c' ∈ [] ++ onePage (noise 1) 1 :: [onePage (noise 2) 1], c'.InRange := by
    intro c' hc'
    rcases List.mem_cons.1 hc' with rfl | hc'
    · exact onePage_inRange (noise 1) 1
    · rw [List.mem_singleton.1 hc']
      exact onePage_inRange (noise 2) 1
  obtain ⟨u, hretried⟩ := h.retried
  have hrestored := hall Zstd.raw [] [onePage (noise 2) 1] _ left dir dir' Zstd.raw_roundTrip h.crashed
    (sessions_iff.2 ⟨_, hretried, rfl⟩) hrange
  obtain ⟨r, hload, hasOf⟩ := hrestored.page 0 1 (by decide)
  rw [h.loads Zstd.raw_roundTrip] at hload
  obtain rfl := Except.ok.inj hload
  -- the only save that returned Ok has the other page
  obtain ⟨t, ⟨c', hc', -, hdirty⟩, -⟩ := asOf_some.1 hasOf
  rw [List.nil_append, List.mem_singleton] at hc'
  rw [hc'] at hdirty
  exact absurd (noise_inj ((onePage_dirty _ _ _ _).1 hdirty).2) (by decide)

end Bxdb
