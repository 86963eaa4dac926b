import Bxdb.Proof.EndToEnd

/-!
# Saves that fail

A save that fails part-way leaves the Full pages it finished in the shadow, under keys
that never reach the log. Nothing goes wrong until a later save stores a Delta against
such an entry (`dangling_delta`).

* `attempts_ok`: **a shadow entry is a Full version in the log, or its snapshot id
  belongs to no save that returned Ok.**
* `deltas_resolve`: as long as every Delta is stored against an entry of the first kind,
  the base of every Delta is in the log, and every page saved can be loaded.
-/

namespace Bxdb

open Bytes Buffered SortedIndex Versioned ChunkRecord

/-- **Every base is committed**: a dirty page that is within the threshold of its shadow
entry finds there the snapshot id of a save that returned Ok. -/
def BasesCommitted (cs : List SaveCall) (db : AppendOnlyDb) (c : SaveCall) : Prop :=
  ∀ pa page key base, c.dirty pa = some page → page ≠ Page.zero → db.shadow pa = some (key, base) →
    (computeXorPatch page base).length ≤ db.deltaThreshold.toNat → ∃ c' ∈ cs, c'.id = snapshotOf key

/-- The range a record names holds `data`. -/
def Names (blobs : UInt8 → Option Bytes) (rec : ChunkRecord) (data : Bytes) : Prop :=
  ∃ bs, blobs rec.workerId = some bs ∧ range? bs rec.offset.toNat (rec.offset.toNat + rec.len.toNat) = some data

/-- `base` is what the Delta `rec` was computed against. -/
structure BaseOf (z : Zstd) (cs : List SaveCall) (blobs : UInt8 → Option Bytes) (rec base : ChunkRecord) : Prop where
  key : base.key = rec.baseKey
  full : base.kind = .full
  pa : paOf base.key = paOf rec.key
  snap : snapshotOf base.key < snapshotOf rec.key
  patch : ∃ page basePage, savedBy cs (paOf rec.key) (snapshotOf rec.key).toNat page ∧
    savedBy cs (paOf base.key) (snapshotOf base.key).toNat basePage ∧ Names blobs base (z.compress basePage) ∧
    Names blobs rec (encodeDeltaPatch (computeXorPatch page basePage))

section

variable {z : Zstd} {vs : List Version} {dir dir' : Dir} {db db' : AppendOnlyDb} {cs : List SaveCall}

theorem HoldsAt.names {blobs : UInt8 → Option Bytes} {rec : ChunkRecord} {bs data : Bytes}
    (hb : blobs rec.workerId = some bs) (hd : HoldsAt bs rec.offset rec.len data) : Names blobs rec data :=
  ⟨bs, hb, range?_holdsAt hd⟩

/-- **A stored Delta has its base in the log.** -/
theorem Stored.baseOf {blobs : UInt8 → Option Bytes} {v : Version} (hstored : ∀ v ∈ vs, Stored z vs blobs v)
    (hr : Records cs vs) (hv : v ∈ vs) (hk : v.chunk.kind = .delta) :
    ∃ base ∈ chunks vs, BaseOf z cs blobs v.chunk base := by
  have hsaved : ∀ v ∈ vs, savedBy cs v.pa v.snap v.page := fun v hv => (hr _ _ _).1 ⟨v, ⟨hv, rfl, rfl⟩, rfl⟩
  have hst := hstored v hv
  have hvsaved := hsaved v hv
  cases hst with
  | zero => simp at hk
  | full => simp at hk
  | @delta key w off len page bs base hbase hfull hpa hsnap hblob hdata =>
    obtain ⟨bkey, bw, boff, blen, bbs, hc, hbblob, hbdata⟩ := (hstored base hbase).full_inv hfull
    refine ⟨base.chunk, List.mem_map_of_mem hbase, rfl, hfull, hpa, UInt32.lt_iff_toNat_lt.2 hsnap, page, base.page,
      hvsaved, hsaved base hbase, ?_, HoldsAt.names hblob hdata⟩
    rw [hc]
    exact HoldsAt.names hbblob hbdata

/-! ## Runs with failures -/

/-- What holds after some calls on a handle that started with the versions `vs`, and no
entry in its shadow. -/
structure AttemptsOk (z : Zstd) (vs : List Version) (db₀ : AppendOnlyDb) (cs : List SaveCall) (db : AppendOnlyDb)
    (new : List Version) : Prop where
  handle : HandleOk z (vs ++ new) db
  records : Records cs new
  setup : SameSetup db₀ db
  ids : ∀ c ∈ cs, ∃ l, db.lastSnapshot = some l ∧ c.id ≤ l
  shadow : ∀ pa key page, db.shadow pa = some (key, page) →
    Backed (vs ++ new) pa key page ∨ ∀ c ∈ cs, c.id ≠ snapshotOf key

/-- A save whose bases are committed finds them in the log. -/
theorem AttemptsOk.deltasBacked {db₀ : AppendOnlyDb} {new : List Version} {c : SaveCall}
    (h : AttemptsOk z vs db₀ cs db new) (hc : BasesCommitted cs db c) {jobs : List Job} (hjobs : JobsOf c jobs) :
    DeltasBacked z (vs ++ new) (db.accept c.id) jobs := by
  intro job hjob key data hplan base hsh
  obtain ⟨hne, -, base', hsh', hle, -⟩ := planOne_delta hplan
  obtain rfl : base' = base := by
    rw [hsh] at hsh'
    exact (Prod.mk.inj (Option.some.inj hsh')).2.symm
  have hdirty : c.dirty job.pa = some job.page := (hjobs.dirty job.pa job.page).2 ⟨job, hjob, rfl, rfl⟩
  obtain ⟨c', hc', hid⟩ := hc job.pa job.page key base' hdirty hne hsh hle
  rcases h.shadow job.pa key base' hsh with hback | horphan
  · exact hback
  · exact absurd hid (horphan c' hc')

/-- One call that returns Ok. -/
theorem AttemptsOk.saved {db₀ : AppendOnlyDb} {new : List Version} {c : SaveCall} {schedule : List (ℕ × Fault)}
    (h : AttemptsOk z vs db₀ cs db new) (hrange : c.InRange) (hc : BasesCommitted cs db c)
    (hsave : c.run z schedule db = some (db', .ok ())) : ∃ new', AttemptsOk z vs db₀ (cs ++ [c]) db' (new ++ new') := by
  obtain ⟨new', hs⟩ := save_ok h.handle hsave hrange fun _ hjobs => h.deltasBacked hc hjobs
  refine ⟨new', ?_, h.records.append hs.saved.records, h.setup.trans hs.setup, fun c' hc' => ?_, ?_⟩
  · rw [← List.append_assoc]
    exact hs.handle
  · refine ⟨c.id, hs.last, ?_⟩
    rcases List.mem_append.1 hc' with hc' | hc'
    · obtain ⟨l, hl, hle⟩ := h.ids c' hc'
      exact UInt32.le_trans hle (UInt32.le_of_lt (hs.idNew l hl))
    · rw [List.mem_singleton.1 hc']
      exact UInt32.le_refl _
  · intro pa key page hsh
    rw [← List.append_assoc]
    rcases hs.shadow pa key page hsh with hold | hback
    · rcases h.shadow pa key page hold with hback | horphan
      · exact .inl (hback.mono fun v hv => List.mem_append_left _ hv)
      · -- an entry left behind earlier: the new id is above it
        obtain ⟨-, ⟨l, hl, hle⟩, -⟩ := h.handle.shadow pa key page hold
        refine .inr fun c' hc' hid => ?_
        rcases List.mem_append.1 hc' with hc' | hc'
        · exact horphan c' hc' hid
        · rw [List.mem_singleton.1 hc'] at hid
          have hlt := hs.idNew l hl
          rw [hid] at hlt
          exact UInt32.lt_irrefl _ (UInt32.lt_of_lt_of_le hlt hle)
    · exact .inl hback

/-- One call that fails. -/
theorem AttemptsOk.failed {db₀ : AppendOnlyDb} {new : List Version} {c : SaveCall} {schedule : List (ℕ × Fault)}
    {e : Failure} (hz : z.Small) (h : AttemptsOk z vs db₀ cs db new) (hrange : c.InRange)
    (hsave : c.run z schedule db = some (db', .error e)) : AttemptsOk z vs db₀ cs db' new := by
  have hs := save_err hz h.handle hsave hrange
  refine ⟨hs.handle, h.records, h.setup.trans hs.setup, fun c' hc' => ?_, fun pa key page hsh => ?_⟩
  · obtain ⟨l, hl, hle⟩ := h.ids c' hc'
    obtain ⟨l', hl', hle'⟩ := hs.last l hl
    exact ⟨l', hl', UInt32.le_trans hle hle'⟩
  · rcases hs.shadow pa key page hsh with hold | ⟨hsnap, hlast⟩
    · exact h.shadow pa key page hold
    · -- an orphan: its id is above that of every save so far
      refine .inr fun c' hc' hid => ?_
      obtain ⟨l, hl, hle⟩ := h.ids c' hc'
      have hlt := hlast l hl
      rw [← hsnap, ← hid] at hlt
      exact UInt32.lt_irrefl _ (UInt32.lt_of_lt_of_le hlt hle)

/-- **Any run of calls whose Deltas use committed bases.** -/
theorem attempts_ok (hz : z.Small) (h : HandleOk z vs db) (hsh : db.shadow = Shadow.new)
    (hrun : Attempts z BasesCommitted db cs db') : ∃ new, AttemptsOk z vs db cs db' new := by
  induction hrun with
  | nil =>
    refine ⟨[], ?_, Records.nil, SameSetup.refl _, by simp, fun pa key page hp => ?_⟩
    · rw [List.append_nil]
      exact h
    · rw [hsh] at hp
      simp [Shadow.new] at hp
  | saved _ hrange hok hsave ih =>
    obtain ⟨new, hinv⟩ := ih
    obtain ⟨new', hinv'⟩ := hinv.saved hrange hok hsave
    exact ⟨new ++ new', hinv'⟩
  | failed _ hrange hsave ih =>
    obtain ⟨new, hinv⟩ := ih
    exact ⟨new, hinv.failed hz hrange hsave⟩

/-- A handle on an empty directory, or on a database. -/
theorem database_open {n : ℕ} {t : UInt16} {u : Bool} (hd : Database z cs dir) (hrange : ∀ c ∈ cs, c.InRange)
    (hopen : AppendOnlyDb.open dir n t u = .ok db) :
    ∃ vs, HandleOk z vs db ∧ Records cs vs ∧ db.shadow = Shadow.new ∧ db.dir = dir ∧ dir.idx = none := by
  obtain ⟨-, -, -, -, -, hdir, -, -, -, hsh, -, -⟩ := open_inv hopen
  cases hd with
  | empty => exact ⟨[], (open_empty rfl (by simp [Dir.empty]) hopen).1, Records.nil, hsh, hdir, rfl⟩
  | written h =>
    obtain ⟨vs, hd, hr, hidx⟩ := written_ok h hrange
    exact ⟨vs, (open_ok hd hopen).1, hr, hsh, hdir, hidx⟩

/-- The records readers find in the log of a handle. -/
theorem HandleOk.scan (h : HandleOk z vs db) : ∃ log m body, db.disk.log = some log ∧
    readAndVerifyHeader log magicLog = .ok (m, body) ∧ ChunkRecord.scan body = .ok (chunks vs) := by
  obtain ⟨m, hm, -⟩ := h.bytes
  exact ⟨_, m, _, congrArg some hm, readLogHeader m _, scan_encode (chunks_plain h.stored)⟩

/-- What a save gave to an address is what a load finds there at its snapshot. -/
theorem FormOk.load_saved (hz : z.RoundTrip) (h : FormOk z vs dir) (hr : Records cs vs) {c : SaveCall} (hc : c ∈ cs)
    (hid : c.id ≤ maxSnapshotId) {pa : UInt64} {page : Page} (hdirty : c.dirty pa = some page) :
    loadPage z dir pa c.id = .ok (some page) := by
  obtain ⟨r, hload, hasOf⟩ := h.load hz pa hid
  have hw : pagesOf vs pa c.id.toNat page := (hr _ _ _).2 ⟨c, hc, rfl, hdirty⟩
  have hnow : AsOf (pagesOf vs) pa c.id.toNat (some page) := asOf_some.2 ⟨_, hw, le_rfl, fun _ _ _ hle => hle⟩
  rw [hload, hasOf.unique (pagesOf_functional h.ordered.distinct) hnow]

/-- **No Delta dangles** in a run of calls, failed ones among them, whose Deltas use
committed bases: the base of every Delta in the log is a Full record of the log, and
every page of a save that returned Ok can be loaded once the handle is closed. -/
theorem deltas_resolve (hz : z.Small) (hrt : z.RoundTrip) {cs₀ : List SaveCall} {n : ℕ} {t : UInt16}
    (hd : Database z cs₀ dir) (hrange : ∀ c ∈ cs₀, c.InRange) (hopen : AppendOnlyDb.open dir n t true = .ok db)
    (hrun : Attempts z BasesCommitted db cs db') :
    (∃ log m body records, db'.disk.log = some log ∧ readAndVerifyHeader log magicLog = .ok (m, body) ∧
      ChunkRecord.scan body = .ok records ∧
      ∀ rec ∈ records, rec.kind = .delta → ∃ base ∈ records, BaseOf z (cs₀ ++ cs) db'.streams rec base) ∧
    ∀ dir', db'.close = .ok dir' → dir'.log = db'.disk.log ∧ dir'.blobs = db'.streams ∧
      ∀ c ∈ cs, ∀ pa page, c.dirty pa = some page → loadPage z dir' pa c.id = .ok (some page) := by
  obtain ⟨vs, h, hr, hsh, hdir, hidx⟩ := database_open hd hrange hopen
  obtain ⟨new, hinv⟩ := attempts_ok hz h hsh hrun
  have hrecords : Records (cs₀ ++ cs) (vs ++ new) := hr.append hinv.records
  refine ⟨?_, fun dir' hclose => ?_⟩
  · obtain ⟨log, m, body, hlog, hheader, hscan⟩ := hinv.handle.scan
    refine ⟨log, m, body, _, hlog, hheader, hscan, fun rec hrec hk => ?_⟩
    obtain ⟨v, hv, rfl⟩ := List.mem_map.1 hrec
    exact Stored.baseOf hinv.handle.stored hrecords hv hk
  · obtain ⟨hl, hi, hb⟩ := close_inv hinv.handle.log hinv.handle.blobs hclose
    refine ⟨hl, hb, fun c hc pa page hdirty => ?_⟩
    have hnone : dir'.idx = none := by rw [hi, hinv.setup.dir, hdir, hidx]
    obtain ⟨l, hl, hle⟩ := hinv.ids c hc
    have hmax : c.id ≤ maxSnapshotId := UInt32.le_trans hle (hinv.handle.lastMax l hl)
    exact ((close_ok hinv.handle hclose).formOk hnone).load_saved hrt hrecords (List.mem_append_right _ hc) hmax hdirty

end

/-! ## A save that fails on its second page -/

/-- A save of the pages of addresses 0 and 1. -/
def twoPages (p q : Page) (s : UInt32) : SaveCall := .all (p.bytes ++ q.bytes) 2 s

theorem allJobs_twoPages (p q : Page) : allJobs (p.bytes ++ q.bytes) 2 = .ok [⟨0, 0, p⟩, ⟨1, 1, q⟩] := by
  have hp := pageAt_mid [] q.bytes p (show ([] : Bytes).length = 0 * pageSize by simp)
  have hq := pageAt_mid p.bytes [] q (show p.bytes.length = 1 * pageSize by rw [p.size, Nat.one_mul])
  rw [List.nil_append] at hp
  rw [List.append_nil] at hq
  have hjobs : allJobs (p.bytes ++ q.bytes) 2 = (do
      let a ← jobAt (p.bytes ++ q.bytes) 0 0
      let b ← jobAt (p.bytes ++ q.bytes) 1 1
      pure [a, b]) := rfl
  unfold jobAt at hjobs
  rw [hjobs, hp, hq]
  rfl

theorem twoPages_inRange (p q : Page) (s : UInt32) : (twoPages p q s).InRange := by
  intro pa hpa
  have hlt : pa < 2 := of_decide_eq_true hpa
  omega

section Failing

variable {z : Zstd} {vs : List Version} {db : AppendOnlyDb}

/-- The first task finishes, then the second one cannot compress its page. -/
def failSecond : List (ℕ × Fault) := [(0, none), (0, none), (0, none), (1, some 0)]

theorem runPass_failSecond {id : UInt32} {j₀ j₁ : Job} {d₀ d₁ : Bytes} (h₀ : planOf z db j₀ = .full d₀)
    (h₁ : planOf z db j₁ = .full d₁) (hne : j₁.pa ≠ j₀.pa) (hu : db.useShadow = true) {off : UInt64} {len : UInt32}
    (happ : (appendBlob none (db.blobFiles (workerOf db.workerCount j₀.pa)) d₀).2 = .ok (off, len)) :
    runPass z db id [j₀, j₁] failSecond =
      ⟨db.shadow.insertIfNewer j₀.pa (encodeKey j₀.pa id) j₀.page,
        Function.update db.blobFiles (workerOf db.workerCount j₀.pa)
          (appendBlob none (db.blobFiles (workerOf db.workerCount j₀.pa)) d₀).1,
        [.done (newFull (encodeKey j₀.pa id) (workerOf db.workerCount j₀.pa) off len),
          .failed (.err ⟨.other, "zstd compression failed"⟩)]⟩ := by
  have hplan : planOne z (db.shadow.insertIfNewer j₀.pa (encodeKey j₀.pa id) j₀.page) db.deltaThreshold.toNat
      true j₁.pa j₁.page = .full d₁ := by
    rw [← h₁, ← hu]
    exact planOne_congr (insertIfNewer_ne hne)
  unfold planOf at h₀
  rw [hu] at h₀
  simp [runPass, failSecond, Pass.step, stepTask, h₀, hplan, hu, happ, Plan.data, Plan.record]

/-- A first page that is stored as a Delta leaves nothing in the shadow. -/
theorem runPass_failSecond_delta {id : UInt32} {j₀ j₁ : Job} {base : UInt64} {d₀ d₁ : Bytes}
    (h₀ : planOf z db j₀ = .delta base d₀) (h₁ : planOf z db j₁ = .full d₁) {off : UInt64} {len : UInt32}
    (happ : (appendBlob none (db.blobFiles (workerOf db.workerCount j₀.pa)) d₀).2 = .ok (off, len)) :
    runPass z db id [j₀, j₁] failSecond =
      ⟨db.shadow,
        Function.update db.blobFiles (workerOf db.workerCount j₀.pa)
          (appendBlob none (db.blobFiles (workerOf db.workerCount j₀.pa)) d₀).1,
        [.done (newDelta (encodeKey j₀.pa id) (workerOf db.workerCount j₀.pa) off len base),
          .failed (.err ⟨.other, "zstd compression failed"⟩)]⟩ := by
  unfold planOf at h₀ h₁
  simp [runPass, failSecond, Pass.step, stepTask, h₀, h₁, happ, Plan.data, Plan.record]

/-- **A save whose second page cannot be compressed** fails. Its shadow is the one the
pass left, and only the first page took room. -/
theorem twoPages_fails {p q : Page} {s : UInt32} (hid : s ≤ maxSnapshotId)
    (hlast : ∀ l, db.lastSnapshot = some l → l < s) {w : UInt8} (hb : BlobOk (db.blobFiles w)) {data : Bytes}
    (hdata : data.length < blobBufCap) {sh : Shadow} {rec : ChunkRecord} {e : Failure}
    (hpass : runPass z (db.accept s) s [⟨0, 0, p⟩, ⟨1, 1, q⟩] failSecond =
      ⟨sh, Function.update db.blobFiles w (appendBlob none (db.blobFiles w) data).1, [.done rec, .failed e]⟩)
    {k : ℕ} (hroom : HasRoom db.blobFiles (blobBufCap + k)) :
    ∃ db', (twoPages p q s).run z failSecond db = some (db', .error e) ∧ db'.shadow = sh ∧
      db'.lastSnapshot = some s ∧ HasRoom db'.blobFiles k := by
  have hmem : (p.bytes ++ q.bytes).length = (2 : UInt64).toNat * pageSize := by
    rw [List.length_append, p.size, q.size]
    rfl
  obtain ⟨jobs, -, -, hjobs, hrun⟩ := run_all (z := z) hmem hid (by decide) hlast
  rw [show (2 : UInt64).toNat = 2 from rfl, allJobs_twoPages] at hjobs
  obtain rfl := Except.ok.inj hjobs
  refine ⟨afterPass db s (runPass z (db.accept s) s [⟨0, 0, p⟩, ⟨1, 1, q⟩] failSecond), ?_, by rw [hpass]; rfl, rfl, ?_⟩
  · have hout : (runPass z (db.accept s) s [⟨0, 0, p⟩, ⟨1, 1, q⟩] failSecond).outcome [⟨0, 0, p⟩, ⟨1, 1, q⟩] =
        some (.error e) := by
      rw [hpass]
      rfl
    unfold twoPages
    rw [hrun]
    unfold AppendOnlyDb.saveJobs
    dsimp only
    rw [hout]
    rfl
  · rw [hpass]
    intro w'
    -- the one blob that was appended is shorter than a buffer
    change (Function.update db.blobFiles w (appendBlob none (db.blobFiles w) data).1 w').stream.length + k ≤ _
    by_cases hw : w' = w
    · subst hw
      rw [Function.update_self]
      have : (appendBlob none (db.blobFiles w') data).1.stream.length ≤ (db.blobFiles w').stream.length + blobBufCap :=
        appendBlob_length hb hdata
      have := hroom w'
      omega
    · rw [Function.update_of_ne hw]
      have := hroom w'
      omega

/-- Room for one more page is room for its encoding. -/
theorem appendBlob_hasRoom (h : HandleOk z vs db) {k : ℕ} (hroom : HasRoom db.blobFiles (blobBufCap + k)) (w : UInt8)
    {data : Bytes} (hdata : data.length < blobBufCap) :
    ∃ off len, (appendBlob none (db.blobFiles w) data).2 = .ok (off, len) := by
  have hfits : (db.blobFiles w).stream.length + data.length ≤ maxFileLen := by
    have := hroom w
    omega
  obtain ⟨⟨off, len⟩, happ⟩ := appendBlob_room (h.blobs w) hdata hfits
  exact ⟨off, len, happ⟩

/-- **A save can fail and leave its first page in the shadow**, under a key that is not
in the log. -/
theorem twoPages_fails_full (hz : z.Small) (h : HandleOk z vs db) {p q : Page} (hp : p ≠ Page.zero) (hq : q ≠ Page.zero)
    {s : UInt32} (hid : s ≤ maxSnapshotId) (hlast : ∀ l, db.lastSnapshot = some l → l < s) (hu : db.useShadow = true)
    (h₀ : db.shadow 0 = none) (h₁ : db.shadow 1 = none) {k : ℕ} (hroom : HasRoom db.blobFiles (blobBufCap + k)) :
    ∃ db' e, (twoPages p q s).run z failSecond db = some (db', .error e) ∧
      db'.shadow 0 = some (encodeKey 0 s, p) ∧ db'.lastSnapshot = some s ∧ HasRoom db'.blobFiles k := by
  have hplan₀ : planOf z (db.accept s) ⟨0, 0, p⟩ = .full (z.compress p) := planOf_full rfl hp h₀
  have hplan₁ : planOf z (db.accept s) ⟨1, 1, q⟩ = .full (z.compress q) := planOf_full rfl hq h₁
  obtain ⟨off, len, happ⟩ := appendBlob_hasRoom h hroom (workerOf db.workerCount 0) (hz p)
  obtain ⟨db', hrun, hsh, hrest⟩ := twoPages_fails hid hlast (h.blobs _) (hz p)
    (runPass_failSecond hplan₀ hplan₁ (show (1 : UInt64) ≠ 0 by decide) hu happ) hroom
  refine ⟨db', _, hrun, ?_, hrest⟩
  have hinst : db.shadow.installs 0 (encodeKey 0 s) = true := by
    unfold Shadow.installs
    rw [h₀]
  rw [hsh]
  change db.shadow.insertIfNewer 0 (encodeKey 0 s) p 0 = some (encodeKey 0 s, p)
  unfold Shadow.insertIfNewer
  rw [if_pos hinst, Function.update_self]

/-- It leaves the shadow alone when its first page is a Delta. -/
theorem twoPages_fails_delta (hz : z.Small) (h : HandleOk z vs db) {p q base : Page} {key : UInt64} (hp : p ≠ Page.zero)
    (hq : q ≠ Page.zero) {s : UInt32} (hid : s ≤ maxSnapshotId) (hlast : ∀ l, db.lastSnapshot = some l → l < s)
    (hu : db.useShadow = true) (ht : pageWords ≤ db.deltaThreshold.toNat) (h₀ : db.shadow 0 = some (key, base))
    (h₁ : db.shadow 1 = none) {k : ℕ} (hroom : HasRoom db.blobFiles (blobBufCap + k)) :
    ∃ db' e, (twoPages p q s).run z failSecond db = some (db', .error e) ∧
      db'.shadow = db.shadow ∧ db'.lastSnapshot = some s ∧ HasRoom db'.blobFiles k := by
  have hplan₀ : planOf z (db.accept s) ⟨0, 0, p⟩ = .delta key (encodeDeltaPatch (computeXorPatch p base)) :=
    planOf_delta rfl hp hu ht h₀
  have hplan₁ : planOf z (db.accept s) ⟨1, 1, q⟩ = .full (z.compress q) := planOf_full rfl hq h₁
  have hdata : (planOf z (db.accept s) ⟨0, 0, p⟩).data.length < blobBufCap := planOf_data_small hz _
  rw [hplan₀, Plan.data] at hdata
  obtain ⟨off, len, happ⟩ := appendBlob_hasRoom h hroom (workerOf db.workerCount 0) hdata
  obtain ⟨db', hrun, hrest⟩ := twoPages_fails hid hlast (h.blobs _) hdata (runPass_failSecond_delta hplan₀ hplan₁ happ) hroom
  exact ⟨db', _, hrun, hrest⟩

/-- A handle on an empty directory whose first save failed. -/
structure FailedFirst (db db₁ : AppendOnlyDb) : Prop where
  opened : AppendOnlyDb.open Dir.empty 1 512 true = .ok db
  attempt (ok : List SaveCall → AppendOnlyDb → SaveCall → Prop) : Attempts Zstd.raw ok db [] db₁
  handle : HandleOk Zstd.raw [] db₁
  setup : SameSetup db db₁
  shadow : db₁.shadow 0 = some (encodeKey 0 1, noise 1)
  last : db₁.lastSnapshot = some 1
  room : HasRoom db₁.blobFiles (3 * 1 * blobBufCap + 0)

theorem failed_first : ∃ db db₁, FailedFirst db db₁ := by
  have hz := Zstd.raw_small
  obtain ⟨db, hopen⟩ : ∃ db, AppendOnlyDb.open Dir.empty 1 512 true = .ok db :=
    open_completes (by decide : 1 ≤ 1 ∧ 1 ≤ 255) 512 true (.inl rfl)
  obtain ⟨h, -⟩ := open_empty (z := Zstd.raw) rfl (by simp [Dir.empty]) hopen
  obtain ⟨hu, -⟩ := open_setup hopen
  obtain ⟨-, -, log, last, hlog, -, -, -, hlast, hsh, -, -⟩ := open_inv hopen
  have hnone : db.lastSnapshot = none := by
    rw [hlast]
    exact (congrArg Prod.snd (Except.ok.inj hlog)).symm
  have hempty : Dir.empty.HasRoom (blobBufCap + (3 * 1 * blobBufCap + 0)) := by
    intro w
    simp only [Dir.empty, Option.getD_none, List.length_nil]
    norm_num [blobBufCap, maxFileLen]
  obtain ⟨hroom, -⟩ := open_room hempty hopen
  obtain ⟨db₁, e, hrun, hsh₁, hlast₁, hroom₁⟩ :=
    twoPages_fails_full hz h (noise_ne_zero (by decide : (1 : UInt8) ≠ 0)) (noise_ne_zero (by decide : (2 : UInt8) ≠ 0))
      (by decide : (1 : UInt32) ≤ maxSnapshotId) (fun l hl => by rw [hnone] at hl; simp at hl) hu (by rw [hsh]; rfl)
      (by rw [hsh]; rfl) hroom
  have hrange := twoPages_inRange (noise 1) (noise 2) 1
  have hs := save_err hz h hrun hrange
  exact ⟨db, db₁, hopen, fun _ => .failed .nil hrange hrun, hs.handle, hs.setup, hsh₁, hlast₁, hroom₁⟩

/-- The next save of one page on such a handle returns Ok. -/
theorem FailedFirst.next {db db₁ : AppendOnlyDb} (h : FailedFirst db db₁) (page : Page) :
    ∃ schedule db₂, (onePage page 2).run Zstd.raw schedule db₁ = some (db₂, .ok ()) ∧ HasRoom db₂.blobFiles 0 := by
  refine save_completes Zstd.raw_small (onePage_valid page (by decide)) h.handle.blobs (fun l hl => ?_) h.room
  rw [h.last] at hl
  obtain rfl := Option.some.inj hl
  exact (by decide : (1 : UInt32) < 2)

/-- A handle on an empty directory that saved a page at address 0; the next save stored
a change to it and failed. -/
structure FailedSecond (db db₁ db₂ : AppendOnlyDb) (rec : ChunkRecord) : Prop where
  opened : AppendOnlyDb.open Dir.empty 1 512 true = .ok db
  attempt (ok : List SaveCall → AppendOnlyDb → SaveCall → Prop) (hok : ok [] db (onePage (noise 1) 1)) :
    Attempts Zstd.raw ok db [onePage (noise 1) 1] db₁
  failed : ∃ e, (twoPages (noise 2) (noise 2) 2).run Zstd.raw failSecond db₁ = some (db₂, .error e)
  base : rec.key = encodeKey 0 1
  full : rec.kind = .full
  handle : HandleOk Zstd.raw [⟨rec, noise 1⟩] db₂
  setup : SameSetup db db₂
  shadow : db₂.shadow 0 = some (encodeKey 0 1, noise 1)
  last : db₂.lastSnapshot = some 2
  room : HasRoom db₂.blobFiles (3 * 1 * blobBufCap + 0)

theorem failed_second : ∃ db db₁ db₂ rec, FailedSecond db db₁ db₂ rec := by
  have hz := Zstd.raw_small
  obtain ⟨db, hopen⟩ : ∃ db, AppendOnlyDb.open Dir.empty 1 512 true = .ok db :=
    open_completes (by decide : 1 ≤ 1 ∧ 1 ≤ 255) 512 true (.inl rfl)
  obtain ⟨h, -⟩ := open_empty (z := Zstd.raw) rfl (by simp [Dir.empty]) hopen
  obtain ⟨hu, ht⟩ := open_setup hopen
  obtain ⟨-, -, log, last, hlog, -, -, -, hlast, hsh, -, -⟩ := open_inv hopen
  have hnone : db.lastSnapshot = none := by
    rw [hlast]
    exact (congrArg Prod.snd (Except.ok.inj hlog)).symm
  have hempty : Dir.empty.HasRoom (3 * 1 * blobBufCap + (blobBufCap + (3 * 1 * blobBufCap + 0))) := by
    intro w
    simp only [Dir.empty, Option.getD_none, List.length_nil]
    norm_num [blobBufCap, maxFileLen]
  obtain ⟨hroom, -⟩ := open_room hempty hopen
  -- the base is saved
  obtain ⟨schedule, db₁, hrun, hroom₁⟩ := save_completes hz (onePage_valid (noise 1) (by decide : (1 : UInt32) ≤ maxSnapshotId))
    h.blobs (fun l hl => by rw [hnone] at hl; simp at hl) hroom
  have hsh₀ : ∀ pa, db.shadow pa = none := fun pa => by rw [hsh]; rfl
  have hplan : planOf Zstd.raw (db.accept 1) (onePageJob (noise 1)) = .full (Zstd.raw.compress (noise 1)) :=
    planOf_full rfl (noise_ne_zero (by decide : (1 : UInt8) ≠ 0)) (hsh₀ 0)
  obtain ⟨rec, hs, ⟨off, len, hrec, -⟩, hafter⟩ := onePage_saved h hrun fun job hjob key data hdelta => by
    rw [List.mem_singleton.1 hjob, hplan] at hdelta
    simp at hdelta
  rw [hplan] at hrec
  have hkey : rec.key = encodeKey 0 1 := by rw [hrec]; rfl
  have hshadow : db₁.shadow 0 = some (encodeKey 0 1, noise 1) := hafter.trans (shadowAfter_full hplan hu (hsh₀ 0))
  have hother : db₁.shadow 1 = none := by
    cases hone : db₁.shadow 1 with
    | none => rfl
    | some entry =>
      rcases hs.shadow 1 entry.1 entry.2 hone with hold | ⟨v, hv, -, hpa, -⟩
      · rw [hsh₀ 1] at hold
        simp at hold
      · rw [List.nil_append, List.mem_singleton] at hv
        subst hv
        change paOf rec.key = 1 at hpa
        rw [hkey] at hpa
        exact absurd hpa (by decide)
  -- the next save fails on its second page
  have ht₁ : pageWords ≤ db₁.deltaThreshold.toNat := by
    rw [hs.setup.deltaThreshold, ht]
    decide
  obtain ⟨db₂, e, hfail, hsh₂, hlast₂, hroom₂⟩ :=
    twoPages_fails_delta hz hs.handle (noise_ne_zero (by decide : (2 : UInt8) ≠ 0)) (noise_ne_zero (by decide : (2 : UInt8) ≠ 0))
      (by decide : (2 : UInt32) ≤ maxSnapshotId)
      (fun l hl => by
        rw [hs.last] at hl
        obtain rfl := Option.some.inj hl
        exact (by decide : (1 : UInt32) < 2))
      (hs.setup.useShadow.trans hu) ht₁ hshadow hother hroom₁
  have he := save_err hz hs.handle hfail (twoPages_inRange _ _ _)
  have hrange := (onePage_valid (noise 1) (by decide : (1 : UInt32) ≤ maxSnapshotId)).inRange
  exact ⟨db, db₁, db₂, rec, hopen, fun ok hok => .saved .nil hrange hok hrun, ⟨e, hfail⟩, hkey,
    by rw [hrec]; rfl, he.handle, hs.setup.trans he.setup, by rw [hsh₂]; exact hshadow, hlast₂, hroom₂⟩

/-- After the failed save, another change to the page is stored as a Delta against the
saved one, and both are loaded. -/
theorem deltas_resolve_failed : ∃ db db₁ db₂ db' dir' m base rec, AppendOnlyDb.open Dir.empty 1 512 true = .ok db ∧
    Attempts Zstd.raw BasesCommitted db [onePage (noise 1) 1] db₁ ∧
    (∃ e, (twoPages (noise 2) (noise 2) 2).run Zstd.raw failSecond db₁ = some (db₂, .error e)) ∧
    Attempts Zstd.raw BasesCommitted db [onePage (noise 1) 1, onePage (noise 3) 3] db' ∧ db'.close = .ok dir' ∧
    dir'.log = some (writeLogHeader m ++ encodeAll [base, rec]) ∧ rec.kind = .delta ∧ rec.baseKey = base.key ∧
    loadPage Zstd.raw dir' 0 1 = .ok (some (noise 1)) ∧ loadPage Zstd.raw dir' 0 3 = .ok (some (noise 3)) := by
  obtain ⟨db, db₁, db₂, base, h⟩ := failed_second
  obtain ⟨hu, ht⟩ := open_setup h.opened
  have hfirst : Attempts Zstd.raw BasesCommitted db [onePage (noise 1) 1] db₁ := by
    refine h.attempt _ fun pa page key base hdirty _ hsh => ?_
    obtain ⟨-, -, -, -, -, -, -, -, -, hnew, -, -⟩ := open_inv h.opened
    rw [hnew] at hsh
    simp [Shadow.new] at hsh
  obtain ⟨e, hfail⟩ := h.failed
  -- the next change is close to the page that was saved
  obtain ⟨schedule, db₃, hrun, hroom⟩ := save_completes Zstd.raw_small
    (onePage_valid (noise 3) (by decide : (3 : UInt32) ≤ maxSnapshotId)) h.handle.blobs (fun l hl => by
      rw [h.last] at hl
      obtain rfl := Option.some.inj hl
      exact (by decide : (2 : UInt32) < 3)) h.room
  have hrange := (onePage_valid (noise 3) (by decide : (3 : UInt32) ≤ maxSnapshotId)).inRange
  have hok : BasesCommitted [onePage (noise 1) 1] db₂ (onePage (noise 3) 3) := by
    intro pa page key base hdirty _ hsh _
    obtain ⟨rfl, -⟩ := (onePage_dirty _ _ _ _).1 hdirty
    rw [h.shadow] at hsh
    obtain ⟨rfl, -⟩ := Prod.mk.inj (Option.some.inj hsh)
    exact ⟨_, List.mem_singleton_self _, by decide⟩
  have hattempts : Attempts Zstd.raw BasesCommitted db ([onePage (noise 1) 1] ++ [onePage (noise 3) 3]) db₃ :=
    .saved (.failed hfirst (twoPages_inRange _ _ _) hfail) hrange hok hrun
  have ht₂ : pageWords ≤ (db₂.accept 3).deltaThreshold.toNat := by
    change pageWords ≤ db₂.deltaThreshold.toNat
    rw [h.setup.deltaThreshold, ht]
    decide
  have hplan : planOf Zstd.raw (db₂.accept 3) (onePageJob (noise 3)) = .delta (encodeKey 0 1) _ :=
    planOf_delta rfl (noise_ne_zero (by decide : (3 : UInt8) ≠ 0)) (h.setup.useShadow.trans hu) ht₂ h.shadow
  obtain ⟨rec, hs, ⟨off, len, hrec, -⟩, -⟩ := onePage_saved h.handle hrun fun job hjob key data hdelta page hsh => by
    rw [List.mem_singleton.1 hjob] at hsh ⊢
    obtain ⟨rfl, rfl⟩ := Prod.mk.inj (Option.some.inj (h.shadow.symm.trans hsh))
    exact ⟨_, List.mem_singleton_self _, h.base, (congrArg paOf h.base).trans (by decide), h.full, rfl⟩
  rw [hplan] at hrec
  obtain ⟨m, hm, -⟩ := hs.handle.bytes
  obtain ⟨dir', hclose⟩ := close_completes hs.handle.log hs.handle.blobs hroom
  obtain ⟨hl, -, -⟩ := close_inv hs.handle.log hs.handle.blobs hclose
  obtain ⟨-, hload⟩ := deltas_resolve Zstd.raw_small Zstd.raw_roundTrip .empty (by simp) h.opened hattempts
  obtain ⟨-, -, hpages⟩ := hload dir' hclose
  refine ⟨db, db₁, db₂, db₃, dir', m, base, rec, h.opened, hfirst, h.failed, hattempts, hclose, ?_, by rw [hrec]; rfl,
    by rw [hrec, h.base]; rfl, ?_, ?_⟩
  · rw [hl]
    exact congrArg some hm
  · exact hpages _ (by simp) 0 (noise 1) ((onePage_dirty _ _ _ _).2 ⟨rfl, rfl⟩)
  · exact hpages (onePage (noise 3) 3) (by simp) 0 (noise 3) ((onePage_dirty _ _ _ _).2 ⟨rfl, rfl⟩)

theorem floorSorted_singleton {rec : ChunkRecord} {key pa : UInt64} (hkey : rec.key = key) (hpa : paOf key = pa) :
    floorSorted [rec] key pa = some rec := by
  have hle : recordKey rec ≤ key.toNat := by
    unfold recordKey
    rw [hkey]
  unfold floorSorted
  rw [floor?_cons, if_pos hle]
  change (if paOf rec.key = pa then some rec else none) = some rec
  rw [hkey, if_pos hpa]

/-- **A Delta without its base** cannot be loaded. -/
theorem load_dangling {dir : Dir} {m : UInt32} {key base off : UInt64} {w : UInt8} {len : UInt32} {pa : UInt64} {s : UInt32}
    (hl : dir.log = some (writeLogHeader m ++ encodeAll [newDelta key w off len base])) (hi : dir.idx = none)
    (hkey : key = encodeKey pa s) (hpa : paOf key = pa) (hs : s ≤ maxSnapshotId) (hbase : base ≠ key) :
    loadPage z dir pa s = .error (.err ⟨.invalidData, "delta base chunk missing from index"⟩) := by
  set rec := newDelta key w off len base with hrec
  have hplain : ∀ r ∈ [rec], r.Plain := by
    intro r hr
    rw [List.mem_singleton.1 hr]
    exact newDelta_plain _ _ _ _ _
  have hbuild := buildLazyIndex_encode hplain m
  rw [index_of_strict (List.pairwise_singleton _ _)] at hbuild
  have hmiss : exactSorted [rec] base = none := by
    unfold exactSorted
    rw [List.find?_cons_of_neg (by simpa [hrec] using Ne.symm hbase)]
    rfl
  unfold loadPage
  rw [open_log hi hl, ok_bind]
  unfold PageStore.loadPage
  rw [if_neg (UInt32.not_lt.2 hs)]
  unfold PageStore.floor
  dsimp only
  rw [hbuild, ok_bind, floorSorted_singleton (show rec.key = encodeKey pa s from hkey) (hkey ▸ hpa), ok_bind]
  dsimp only
  unfold PageStore.resolveUncached PageStore.loadFull PageStore.exactLookup
  simp only [hrec, newDelta_kind, newDelta_baseKey]
  rw [hbuild, ok_bind, hmiss]
  rfl

/-- **Where the code breaks its promise.** The save of snapshot 1 fails on its second
page; its first page stays in the shadow, and the save of snapshot 2 is stored as a Delta
against it. -/
theorem dangling_delta : ∃ db db' dir rec, AppendOnlyDb.open Dir.empty 1 512 true = .ok db ∧
    Attempts Zstd.raw (fun _ _ _ => True) db [onePage (noise 3) 2] db' ∧ db'.close = .ok dir ∧
    dir.log = some (writeLogHeader 2 ++ encodeAll [rec]) ∧ rec.kind = .delta ∧ rec.baseKey = encodeKey 0 1 ∧
    (∀ base ∈ [rec], base.key ≠ rec.baseKey) ∧
    loadPage Zstd.raw dir 0 2 = .error (.err ⟨.invalidData, "delta base chunk missing from index"⟩) := by
  obtain ⟨db, db₁, h⟩ := failed_first
  obtain ⟨hu, ht⟩ := open_setup h.opened
  obtain ⟨-, -, -, -, -, hdir, -, -, -, -, -, -⟩ := open_inv h.opened
  obtain ⟨schedule, db₂, hrun, hroom⟩ := h.next (noise 3)
  obtain ⟨-, -, -, rec, p, hdone, hinv, rfl⟩ := onePage_run h.handle.blobs hrun
  have htask : p.tasks[0]? = some (.done rec) := by rw [hdone]; rfl
  obtain ⟨⟨off, len, hrec, -⟩, -⟩ := hinv.tasks 0 (onePageJob (noise 3)) _ rfl htask
  -- the page is close to the one the failed save left in the shadow
  have hu₁ : (db₁.accept 2).useShadow = true := h.setup.useShadow.trans hu
  have ht₁ : pageWords ≤ (db₁.accept 2).deltaThreshold.toNat := by
    change pageWords ≤ db₁.deltaThreshold.toNat
    rw [h.setup.deltaThreshold, ht]
    decide
  have hplan : planOf Zstd.raw (db₁.accept 2) (onePageJob (noise 3)) = .delta (encodeKey 0 1) _ :=
    planOf_delta rfl (noise_ne_zero (by decide : (3 : UInt8) ≠ 0)) hu₁ ht₁ h.shadow
  rw [hplan] at hrec
  -- so its record is the only one in the log
  obtain ⟨m, hm, -⟩ := h.handle.bytes
  have hlog₁ : LogOk (afterPass db₁ 2 p).logFile := h.handle.log
  obtain ⟨hlog₂, hbytes⟩ := commit_log hlog₁ hm 2 [rec]
  have hblobs₂ : ∀ w, BlobOk (((afterPass db₁ 2 p).commit 2 [rec]).blobFiles w) := hinv.blobs
  obtain ⟨dir, hclose⟩ := close_completes hlog₂ hblobs₂ hroom
  obtain ⟨hl, hi, -⟩ := close_inv hlog₂ hblobs₂ hclose
  have hdirlog : dir.log = some (writeLogHeader 2 ++ encodeAll [rec]) := by
    rw [hl, hbytes]
    rfl
  have hidx : dir.idx = none := by
    rw [hi]
    change db₁.dir.idx = none
    rw [h.setup.dir, hdir]
    rfl
  have hbase : encodeKey 0 1 ≠ encodeKey 0 2 := by decide
  refine ⟨db, _, dir, rec, h.opened, .saved (h.attempt _) (onePage_valid _ (by decide)).inRange trivial hrun, hclose,
    hdirlog, by rw [hrec]; rfl, by rw [hrec]; rfl, fun base hb => ?_, ?_⟩
  · rw [List.mem_singleton.1 hb, hrec]
    exact Ne.symm hbase
  · rw [hrec] at hdirlog
    exact load_dangling hdirlog hidx rfl (by decide) (by decide) hbase

end Failing
end Bxdb
