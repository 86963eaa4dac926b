import Bxdb.Proof.Inspect
import Bxdb.Proof.Lifecycle

/-!
# What the inspector shows of a database

* `inspect_database`: **until an export goes into the database, each record is shown with the
  page that was saved**, or its difference from the base page, and each file written holds a
  page that `load_page` returns.
* `inspect_finds`: **a version is found by typing its snapshot id and address.**
-/

namespace Bxdb

open Bytes SortedIndex Versioned ChunkRecord

/-! ## On a database -/

/-- What is shown is the page of the record's address and snapshot: all of it, or its
difference from the page of the base key. -/
def Depicts (W : Writes UInt64 ℕ Page) (r : ChunkRecord) : Beside → Prop
  | .noBlob => W (paOf r.key) (snapshotOf r.key).toNat Page.zero
  | .shown (.full bytes) => ∃ page, W (paOf r.key) (snapshotOf r.key).toNat page ∧ bytes = page.bytes
  | .shown (.delta patch) => ∃ page base, W (paOf r.key) (snapshotOf r.key).toNat page ∧
      W (paOf r.baseKey) (snapshotOf r.baseKey).toNat base ∧ patch = computeXorPatch page base
  | _ => False

section Database

variable {z : Zstd} {decodeAll : Bytes → Except String Bytes} {dir : Dir} {seen later : List Version}
  {a : Archive UInt64 ℕ Page} {es : List Command}

/-- A record's blob is read in full. -/
theorem readExactAt_holds {file data : Bytes} {off : UInt64} {len : UInt32} (h : HoldsAt file off len data)
    (hsmall : file.length ≤ maxFileLen) : readExactAt file off len = .ok data := by
  unfold readExactAt
  split
  · rename_i h0
    have hlen := h.len_eq
    rw [h0] at hlen
    rw [List.eq_nil_of_length_eq_zero hlen.symm]
  · rw [if_neg]
    · unfold range?
      rw [h.len_eq, if_pos ⟨Nat.le_add_right _ _, h.fits⟩, h.bytes]
    · have := h.fits
      unfold maxFileLen at hsmall
      omega

/-- **The inspector's decoder** undoes the writer's. -/
theorem decodeDelta_encode (patch : Patch) : decodeDelta (encodeDeltaPatch patch) = .ok patch := by
  have hentry : ∀ e : UInt16 × UInt64, (fromLe16 ((entryBytes e).take 2), fromLe64 (slice (entryBytes e) 2 10)) = e := by
    intro e
    have hx : slice (entryBytes e) 2 10 = toLe64 e.2 := by
      have := slice_append_right (toLe16 e.1) (toLe64 e.2)
      rwa [length_toLe16, length_toLe64] at this
    rw [entryBytes_idx, hx, fromLe64_toLe64]
  unfold decodeDelta
  rw [length_encodeDeltaPatch, Nat.mul_mod_left, if_neg (fun h => h rfl), chunksExact_encodeDeltaPatch, List.map_map]
  congr 1
  exact (List.map_congr_left fun e _ => hentry e).trans (List.map_id _)

theorem LifeOk.small (h : LifeOk z a seen later dir) {w : UInt8} {bs : Bytes} (hb : dir.blobs w = some bs) :
    bs.length ≤ maxFileLen := h.dirOk.small w bs hb

theorem LifeOk.fetch_held (h : LifeOk z a seen later dir) {r : ChunkRecord} {bs data : Bytes}
    (hb : dir.blobs r.workerId = some bs) (hdata : HoldsAt bs r.offset r.len data) : fetch dir r = .ok data := by
  unfold fetch
  rw [hb]
  exact readExactAt_holds hdata (h.small hb)

/-- **What the inspector makes of a stored version.** -/
theorem LifeOk.depicts (hdec : ∀ page, decodeAll (z.compress page) = .ok page.bytes) (h : LifeOk z a seen later dir)
    {v : Version} (hv : v ∈ seen) : Depicts a.read v.chunk (besideOf dir decodeAll v.chunk) := by
  have hread : a.read (paOf v.chunk.key) (snapshotOf v.chunk.key).toNat v.page := by
    rw [h.read]
    exact ⟨v, ⟨hv, rfl, rfl⟩, rfl⟩
  have hst := h.stored v hv
  cases hst with
  | zero hblob => exact hread
  | @full key w off len page bs hblob hdata =>
    have hfetch : fetch dir (newFull key w off len) = .ok (z.compress page) := h.fetch_held hblob hdata
    have hb : besideOf dir decodeAll (newFull key w off len) = .shown (.full page.bytes) := by
      unfold besideOf detailFor detailOf
      rw [hfetch]
      simp [hdec]
    rw [hb]
    exact ⟨page, hread, rfl⟩
  | @delta key w off len page bs base hbase hfull hpa hsnap hblob hdata =>
    have hfetch : fetch dir (newDelta key w off len base.key) = .ok (encodeDeltaPatch (computeXorPatch page base.page)) :=
      h.fetch_held hblob hdata
    have hb : besideOf dir decodeAll (newDelta key w off len base.key) =
        .shown (.delta (computeXorPatch page base.page)) := by
      unfold besideOf detailFor detailOf
      rw [hfetch]
      simp [decodeDelta_encode]
    -- the base is a version too, so the archive has its page
    have hbaseRead : a.read base.pa base.snap base.page := by
      rw [h.read]
      exact ⟨base, ⟨hbase, rfl, rfl⟩, rfl⟩
    rw [hb]
    exact ⟨page, base.page, hread, hbaseRead, rfl⟩

/-- **The records loaded** are those readers see. -/
theorem LifeOk.loadRecords (h : LifeOk z a seen later dir) :
    ∃ mode records maxSnap, Bxdb.loadRecords dir = .ok (mode, records, maxSnap) ∧ ∀ r, r ∈ records ↔ r ∈ chunks seen := by
  rcases h.index with ⟨-, hidx, rfl⟩ | ⟨-, hidx⟩
  · obtain ⟨m, hm, -⟩ := h.dirOk.log
    rw [List.append_nil] at hm
    exact ⟨_, _, _, loadRecords_log hidx hm (chunks_plain h.stored), fun r => (sortByKey_perm recordKey _).mem_iff⟩
  · have hheader : readAndVerifyHeader (indexFile (sortedChunks seen)) magicIdx =
        .ok (maxSnapshot (sortedChunks seen), encodeIndex (sortedChunks seen)) := readAndVerifyHeader_write rfl _ _
    unfold Bxdb.loadRecords
    rw [hidx]
    dsimp only
    rw [hheader, ok_bind, readEntries_index, ok_bind]
    exact ⟨_, _, _, rfl, mem_sortedChunks h.ordered⟩

theorem LifeOk.rangesFit (h : LifeOk z a seen later dir) {records : List ChunkRecord}
    (hrecords : ∀ r, r ∈ records ↔ r ∈ chunks seen) : RangesFit records := by
  intro r hr hk
  obtain ⟨v, hv, rfl⟩ := List.mem_map.1 ((hrecords r).1 hr)
  obtain ⟨bs, -, -, hend⟩ := (h.stored v hv).range hk
  exact hend

/-- **On a database the inspector shows what was saved**, never an error, as long as no export
went into the database's own files: for each record the page of its address and snapshot, or
its difference from the base page; and each file it writes holds a page that `load_page`
returns. Without such an export the database is as before. -/
theorem inspect_database (hz : z.RoundTrip) (hdec : ∀ page, decodeAll (z.compress page) = .ok page.bytes)
    (place : List Char → Option DbFile) (h : Lifecycle z es dir) (hne : es ≠ []) (snap : Option UInt32) (pa : Option UInt64)
    (is : List Input) :
    ∃ shots dir' app, inspect place decodeAll dir snap pa is = .ok (shots, dir', app) ∧
      ((∀ shot ∈ shots, ∀ e ∈ shot.2, place e.path = none) → dir' = dir) ∧
      ∀ pre shot post, shots = pre ++ shot :: post → (∀ s ∈ pre, ∀ e ∈ s.2, place e.path = none) →
        (∀ r b, shot.1.detail = some (r, b) → Depicts (archived es).read r b) ∧
        ∀ e ∈ shot.2, ∃ addr s page, loadPage z dir addr s = .ok (some page) ∧ e.Holds page.bytes := by
  obtain ⟨seen, later, h⟩ := lifecycle_archive h hne
  obtain ⟨mode, records, maxSnap, hload, hmem⟩ := h.loadRecords
  obtain ⟨shots, dir', app, hloop, hdir', hshots⟩ :=
    (appOk_start (· = dir) decodeAll mode records maxSnap snap pa).shows (h.rangesFit hmem) is
  refine ⟨shots, dir', app, ?_, fun hout => hdir'.trans (afterShots_outside hout), fun pre shot post heq hout => ?_⟩
  · unfold inspect
    rw [hload, ok_bind]
    exact hloop
  · obtain ⟨earlier, hpre, hshot⟩ := hshots pre shot post heq
    rw [afterShots_outside fun s hs => hout s (hpre.subset hs)] at hshot
    have hdepicts : ∀ r b, shot.1.detail = some (r, b) → Depicts (archived es).read r b := by
      intro r b hd
      obtain ⟨hr, rfl, -⟩ := hshot.screen.detail r b hd
      obtain ⟨v, hv, rfl⟩ := List.mem_map.1 ((hmem r).1 hr)
      exact h.depicts hdec hv
    refine ⟨hdepicts, fun e he => ?_⟩
    obtain ⟨r, d, hd, hholds⟩ := hshot.written e he
    obtain ⟨page, hread, rfl⟩ := hdepicts r _ hd
    have hmax := snapshotOf_le r.key
    obtain ⟨p, hp, hasOf⟩ := h.load hz (paOf r.key) hmax
    -- the page saved with this very snapshot is the one as of it
    have hfun : Functional (archived es).read := by
      rw [h.read]
      exact pagesOf_functional h.ordered.distinct
    have hown : AsOf (archived es).read (paOf r.key) (snapshotOf r.key).toNat (some page) :=
      asOf_some.2 ⟨_, hread, le_refl _, fun _ _ _ hle => hle⟩
    rw [hasOf.unique hfun hown] at hp
    exact ⟨_, _, page, hp, hholds⟩

end Database

/-- A frame of `Zstd.raw`, decoded whole. -/
def rawDecodeAll (blob : Bytes) : Except String Bytes :=
  match Zstd.raw.decompress pageSize blob with
  | some d => .ok d
  | none => .error "unknown frame"

theorem rawDecodeAll_compress (page : Page) : rawDecodeAll (Zstd.raw.compress page) = .ok page.bytes := by
  unfold rawDecodeAll
  rw [Zstd.raw_roundTrip page pageSize (le_refl _)]

/-! ## Exporting -/

section Exporting

variable {D : Dir → Prop} {dir : Dir} {decodeAll : Bytes → Except String Bytes} {loaded : List ChunkRecord}
  {app app' : App} {i : ℕ} {r : ChunkRecord} {d : Bytes}

theorem SameView.rows (hsame : SameView app app') (h : AppOk D decodeAll loaded app) (h' : AppOk D decodeAll loaded app') :
    app'.rows = app.rows := by
  unfold App.rows
  rw [h.records, h'.records, hsame.filterSnapshot, hsame.filterPa]

/-- Row `i`, a Full record, is selected, and its page is `d` in every directory there has been. -/
structure Selects (D : Dir → Prop) (decodeAll : Bytes → Except String Bytes) (loaded : List ChunkRecord) (app : App)
    (i : ℕ) (r : ChunkRecord) (d : Bytes) : Prop where
  ok : AppOk D decodeAll loaded app
  selected : app.selected = some i
  row : app.rows[i]? = some r
  full : r.kind = .full
  page : ∀ dir, D dir → detailFor dir decodeAll r = .full d
  unfiltered : app.filterInput = none

/-- Decoding and drawing leave the selection, with the page in detail. -/
theorem Selects.decoded (h : Selects D decodeAll loaded app i r d) (hdir : D dir) (hfit : RangesFit loaded) (height : ℕ) :
    ∃ app' screen, app.ensureDetail dir decodeAll = .ok app' ∧ app'.draw height = .ok screen ∧
      Selects D decodeAll loaded app' i r d ∧ app'.exportInput = app.exportInput ∧ app'.detail = some (i, .full d) := by
  obtain ⟨app', hensure, h', hfresh, hsame⟩ := h.ok.ensureDetail hdir
  obtain ⟨screen, -, hdraw, -⟩ := h'.draw hdir hfresh hfit height
  have hsel : app'.selected = some i := hsame.selected.trans h.selected
  have hrow : app'.rows[i]? = some r := by
    rw [hsame.rows h.ok h', h.row]
  refine ⟨app', screen, hensure, hdraw, ⟨h', hsel, hrow, h.full, h.page, hsame.filterInput.trans h.unfiltered⟩,
    hsame.exportInput, ?_⟩
  obtain ⟨d', hd⟩ := hfresh i hsel
  obtain ⟨r', dir', hr', hdir', rfl⟩ := h'.detail i d' hd
  obtain rfl : r = r' := Option.some.inj (hrow.symm.trans hr')
  rw [hd, h.page dir' hdir']

/-- A turn that changes the export prompt alone. -/
theorem Selects.withPrompt (h : Selects D decodeAll loaded app i r d) (path : Option (List Char)) (status : Option String) :
    Selects D decodeAll loaded { app with exportInput := path, exportStatus := status } i r d where
  ok := h.ok.withPrompts ⟨fun buf hb => absurd (h.unfiltered.symm.trans hb) (by simp),
    fun _ _ => ⟨i, r, h.selected, h.row, h.full⟩⟩
  selected := h.selected
  row := h.row
  full := h.full
  page := h.page
  unfiltered := h.unfiltered

/-- A key, pressed in a window of ten rows. -/
theorem Selects.turn (h : Selects D decodeAll loaded app i r d) (hdir : D dir) (hfit : RangesFit loaded) (code : KeyCode) :
    ∃ app' screen, Selects D decodeAll loaded app' i r d ∧ app'.exportInput = app.exportInput ∧
      app'.detail = some (i, .full d) ∧ ∀ t, app'.handle (press code).event .ok = .ok t →
        app.turn decodeAll dir (press code) = .ok (screen, t) := by
  obtain ⟨app', screen, hensure, hdraw, h', hexport, hd⟩ := h.decoded hdir hfit (press code).height
  refine ⟨app', screen, h', hexport, hd, fun t ht => ?_⟩
  have ht' : app'.handle (press code).event (press code).saved = .ok t := ht
  unfold App.turn
  rw [hensure, ok_bind, hdraw, ok_bind, ht', ok_bind]

/-- A key outside of the prompts that does not quit. -/
theorem handle_key (hfilter : app.filterInput = none) (hexport : app.exportInput = none) {code : KeyCode}
    {m : KeyModifiers} (hquit : App.quits code m = false) (saved : WriteResult) :
    app.handle (.key code m true) saved =
      (App.onKey { app with exportStatus := none } code m >>= fun app => .ok ⟨app, [], false⟩) := by
  unfold App.handle
  dsimp only
  rw [hfilter]
  dsimp only
  rw [hexport]
  dsimp only
  rw [hquit, if_neg Bool.false_ne_true]

/-- A key in the export prompt. -/
theorem handle_export (hfilter : app.filterInput = none) {path : List Char} (hexport : app.exportInput = some path)
    (code : KeyCode) (m : KeyModifiers) (saved : WriteResult) :
    app.handle (.key code m true) saved =
      .ok ⟨(app.onExportInput path saved code).1, (app.onExportInput path saved code).2, false⟩ := by
  unfold App.handle
  dsimp only
  rw [hfilter]
  dsimp only
  rw [hexport]

/-- **`e`** opens the prompt over a Full record. -/
theorem Selects.onKeyE (h : Selects D decodeAll loaded app i r d) : app.onKeyE = .ok { app with exportInput := some [] } := by
  unfold App.onKeyE
  split
  · rename_i hnone
    cases hnone.symm.trans h.selected
  · rename_i j hj
    obtain rfl : j = i := Option.some.inj (hj.symm.trans h.selected)
    rw [h.ok.recordAt h.row, ok_bind, if_pos h.full]

variable (place : List Char → Option DbFile)

/-- **`e`, a name and Enter** write the selected page. -/
theorem Selects.exports (h : Selects D decodeAll loaded app i r d) (hdir : D dir) (hfit : RangesFit loaded)
    (hclosed : app.exportInput = none) {c : Char} (hc : isControl c = false) : ∃ s₁ s₂ s₃ dir' app',
    eventLoop place decodeAll dir app [press (.char 'e'), press (.char c), press .enter] =
      .ok ([(s₁, []), (s₂, []), (s₃, [⟨[c], d, true⟩])], dir', app') := by
  obtain ⟨app₁, s₁, h₁, hexport₁, -, hturn₁⟩ := h.turn hdir hfit (.char 'e')
  have hhandle₁ : app₁.handle (press (.char 'e')).event .ok =
      .ok ⟨{ app₁ with exportInput := some [], exportStatus := none }, [], false⟩ := by
    have hkey := (h₁.withPrompt app₁.exportInput none).onKeyE
    rw [press, handle_key h₁.unfiltered (hexport₁.trans hclosed) (by decide)]
    change (App.onKeyE { app₁ with exportStatus := none } >>= _) = _
    rw [hkey, ok_bind]
  obtain ⟨app₂, s₂, h₂, hexport₂, -, hturn₂⟩ := (h₁.withPrompt (some []) none).turn hdir hfit (.char c)
  have hhandle₂ : app₂.handle (press (.char c)).event .ok = .ok ⟨{ app₂ with exportInput := some [c] }, [], false⟩ := by
    have hinput : app₂.onExportInput [] .ok (.char c) = ({ app₂ with exportInput := some [c] }, []) := by
      unfold App.onExportInput
      dsimp only
      rw [hc, if_neg Bool.false_ne_true, if_pos (by decide)]
      rfl
    rw [press, handle_export h₂.unfiltered hexport₂, hinput]
  obtain ⟨app₃, s₃, h₃, hexport₃, hdetail, hturn₃⟩ := (h₂.withPrompt (some [c]) app₂.exportStatus).turn hdir hfit .enter
  obtain ⟨app', hhandle₃⟩ : ∃ app', app₃.handle (press .enter).event .ok = .ok ⟨app', [⟨[c], d, true⟩], false⟩ := by
    have hwritten : (app₃.onExportInput [c] .ok .enter).2 = [⟨[c], d, true⟩] := by
      unfold App.onExportInput App.exportDetail
      dsimp only
      rw [if_neg (by simp), hdetail]
    rw [press, handle_export h₃.unfiltered hexport₃, hwritten]
    exact ⟨_, rfl⟩
  refine ⟨s₁, s₂, s₃, Dir.exported place dir ⟨[c], d, true⟩, app', ?_⟩
  unfold eventLoop
  rw [hturn₁ _ hhandle₁, ok_bind]
  unfold eventLoop
  dsimp only [List.foldl_nil]
  rw [if_neg Bool.false_ne_true, hturn₂ _ hhandle₂, ok_bind]
  unfold eventLoop
  dsimp only [List.foldl_nil]
  rw [if_neg Bool.false_ne_true, hturn₃ _ hhandle₃, ok_bind]
  rfl

end Exporting

/-- Readers see one save of one page: its record is Full. -/
theorem LifeOk.onePage {a : Archive UInt64 ℕ Page} {seen later : List Version} {dir : Dir} {e : Page × UInt32}
    (h : LifeOk Zstd.raw a seen later dir) (hread : a.read = savedBy (onePages [e])) (hne : e.1 ≠ Page.zero) {v : Version}
    (hv : v ∈ seen) : v.chunk.kind = .full ∧ detailFor dir rawDecodeAll v.chunk = .full e.1.bytes := by
  have hsaved : ∀ u ∈ seen, u.pa = 0 ∧ u.snap = e.2.toNat ∧ u.page = e.1 := by
    intro u hu
    have hu' : a.read u.pa u.snap u.page := by
      rw [h.read]
      exact ⟨u, ⟨hu, rfl, rfl⟩, rfl⟩
    rw [hread] at hu'
    obtain ⟨hpa, e', he', hs, hp⟩ := savedBy_onePage.1 hu'
    rw [List.mem_singleton.1 he'] at hs hp
    exact ⟨hpa, hs.symm, hp.symm⟩
  obtain ⟨-, hsnap, hpage⟩ := hsaved v hv
  have hst := h.stored v hv
  cases hst with
  | zero hblob => exact absurd hpage.symm hne
  | @full key w off len page bs hblob hdata =>
    have hfetch : fetch dir (newFull key w off len) = .ok (Zstd.raw.compress page) := h.fetch_held hblob hdata
    refine ⟨rfl, ?_⟩
    unfold detailFor detailOf
    rw [hfetch]
    unfold newFull
    dsimp only
    rw [rawDecodeAll_compress]
    exact congrArg (fun p : Page => Detail.full p.bytes) hpage
  | @delta key w off len page bs base hbase hfull hpa hlow hblob hdata =>
    -- there is no older version
    obtain ⟨-, hbs, -⟩ := hsaved base hbase
    change (snapshotOf key).toNat = _ at hsnap
    omega

/-- A database whose index lags behind its log: the page of the first save is shown, and goes
to a file outside. -/
theorem inspect_database_stale : ∃ dir shots dir' app,
    inspect (fun path => if path = ['b'] then some (.blob 0) else none) rawDecodeAll dir none none
      [press (.char 'e'), press (.char 'x'), press .enter] = .ok (shots, dir', app) ∧ dir' = dir ∧
    (∀ shot ∈ shots, ∀ r b, shot.1.detail = some (r, b) → Depicts (savedBy (onePages [(noise 1, 1)])) r b) ∧
    ∃ shot ∈ shots, shot.2 = [⟨['x'], (noise 1).bytes, true⟩] := by
  obtain ⟨dir, hlife⟩ := exists_stale
  obtain ⟨seen, later, h⟩ := lifecycle_archive hlife (by simp)
  obtain ⟨mode, records, maxSnap, hload, hmem⟩ := h.loadRecords
  have hread : (archived [.session (onePages [(noise 1, 1)]), .toBtree, .session (onePages [(noise 2, 4)])]).read =
      savedBy (onePages [(noise 1, 1)]) := bot_sup_eq _
  set place : List Char → Option DbFile := fun path => if path = ['b'] then some (.blob 0) else none
  obtain ⟨shots, dir', app, hrun, hsame, hshots⟩ := inspect_database Zstd.raw_roundTrip rawDecodeAll_compress place hlife
    (by simp) none none [press (.char 'e'), press (.char 'x'), press .enter]
  rw [hread] at hshots
  -- the record that is selected at the start
  obtain ⟨v, hv, -⟩ : pagesOf seen 0 1 (noise 1) := by
    rw [← h.read, hread]
    exact savedBy_onePage.2 ⟨rfl, _, List.mem_singleton_self _, rfl, rfl⟩
  obtain ⟨r, rest, rfl⟩ := List.exists_cons_of_ne_nil (List.ne_nil_of_mem ((hmem _).2 (List.mem_map_of_mem hv.1)))
  obtain ⟨u, hu, hr⟩ := List.mem_map.1 ((hmem r).1 List.mem_cons_self)
  obtain ⟨hfull, hpage⟩ := h.onePage hread (noise_ne_zero (by decide)) hu
  rw [hr] at hfull hpage
  have hselects : Selects (· = dir) rawDecodeAll (r :: rest)
      (App.new mode (r :: rest) (Stats.fromRecords (r :: rest)) maxSnap) 0 r (noise 1).bytes :=
    ⟨appOk_new _ _ mode _ maxSnap, rfl, rfl, hfull, fun d hd => by rw [hd]; exact hpage, rfl⟩
  obtain ⟨s₁, s₂, s₃, d, app', hloop⟩ := hselects.exports place rfl (h.rangesFit hmem) rfl (by decide : isControl 'x' = false)
  have hrun' := hrun
  unfold inspect at hrun'
  rw [hload, ok_bind] at hrun'
  obtain ⟨rfl, -⟩ := Prod.mk.inj (Except.ok.inj (hrun'.symm.trans hloop))
  have hout : ∀ shot ∈ [(s₁, []), (s₂, []), (s₃, [Export.mk ['x'] (noise 1).bytes true])], ∀ e ∈ shot.2,
      place e.path = none := by
    intro shot hshot e he
    simp only [List.mem_cons, List.not_mem_nil, or_false] at hshot
    rcases hshot with rfl | rfl | rfl
    · cases he
    · cases he
    · rw [List.mem_singleton.1 he]
      exact if_neg (by decide)
  refine ⟨dir, _, dir', app, hrun, hsame hout, fun shot hshot => ?_,
    (s₃, [⟨['x'], (noise 1).bytes, true⟩]), List.mem_of_mem_getLast? rfl, rfl⟩
  obtain ⟨pre, post, heq⟩ := List.append_of_mem hshot
  refine (hshots pre shot post heq fun s hs => hout s ?_).1
  rw [heq]
  exact List.mem_append_left _ hs

/-! ## Typing a filter -/

/-- Keys that are pressed, with any modifiers. -/
def Pressed (codes : List KeyCode) (is : List Input) : Prop :=
  List.Forall₂ (fun inp code => ∃ m, inp.event = .key code m true) is codes

/-- A snapshot id and an address as they are typed. -/
def filterText (s : UInt32) (pa : UInt64) : List Char :=
  Nat.toDigits 10 s.toNat ++ ' ' :: '0' :: 'x' :: Nat.toDigits 16 pa.toNat

/-- What the prompt takes. -/
def typable (c : Char) : Bool := isAsciiHexdigit c || c == 'x' || c == 'X' || c == ' '

theorem digitChar_facts : ∀ d < 16, typable d.digitChar = true ∧ isWhitespace d.digitChar = false ∧ d.digitChar ≠ 'x' ∧
    (d < 10 → isAsciiDigit d.digitChar = true) := by
  decide

theorem toDigits_facts {radix n : ℕ} (h1 : 1 < radix) (hr : radix ≤ 16) {c : Char} (hc : c ∈ Nat.toDigits radix n) :
    typable c = true ∧ isWhitespace c = false ∧ c ≠ 'x' ∧ (radix ≤ 10 → isAsciiDigit c = true) := by
  obtain ⟨d, hd, rfl⟩ := Numerals.mem_toDigits h1 hc
  obtain ⟨h1, h2, h3, h4⟩ := digitChar_facts d (by omega)
  exact ⟨h1, h2, h3, fun h10 => h4 (by omega)⟩

theorem parseToken_snapshot (s : UInt32) : parseToken (none, none) (Nat.toDigits 10 s.toNat) = (some s, none) := by
  have hmem : ∀ c ∈ Nat.toDigits 10 s.toNat, c ≠ 'x' ∧ isAsciiDigit c = true := by
    intro c hc
    obtain ⟨-, -, h3, h4⟩ := toDigits_facts (by omega) (by omega) hc
    exact ⟨h3, h4 (le_refl _)⟩
  have hplain : ¬ ((Nat.toDigits 10 s.toNat).take 2 = ['0', 'x'] ∨ (Nat.toDigits 10 s.toNat).take 2 = ['0', 'X']) := by
    rintro (h | h)
    · exact (hmem 'x' (List.mem_of_mem_take (by rw [h]; simp))).1 rfl
    · have := (hmem 'X' (List.mem_of_mem_take (by rw [h]; simp))).2
      cases this
  unfold parseToken
  rw [if_neg hplain, if_pos (List.all_eq_true.2 fun c hc => (hmem c hc).2),
    Numerals.parse_toDigits (by omega) (by omega) s.toNat_lt]
  dsimp only
  rw [UInt32.ofNat_toNat]

theorem parseToken_pa (found : Option UInt32) (pa : UInt64) :
    parseToken (found, none) ('0' :: 'x' :: Nat.toDigits 16 pa.toNat) = (found, some pa) := by
  unfold parseToken
  rw [if_pos (.inl rfl), show ('0' :: 'x' :: Nat.toDigits 16 pa.toNat).drop 2 = Nat.toDigits 16 pa.toNat from rfl,
    Numerals.parse_toDigits (by omega) (by omega) pa.toNat_lt]
  dsimp only
  rw [UInt64.ofNat_toNat]

/-- **A typed filter is read back.** -/
theorem parseFilterInput_text (s : UInt32) (pa : UInt64) : parseFilterInput (filterText s pa) = (some s, some pa) := by
  have hdec : ∀ c ∈ Nat.toDigits 10 s.toNat, isWhitespace c = false :=
    fun c hc => (toDigits_facts (by omega) (by omega) hc).2.1
  have hhex : ∀ c ∈ '0' :: 'x' :: Nat.toDigits 16 pa.toNat, isWhitespace c = false := by
    intro c hc
    rcases List.mem_cons.1 hc with rfl | hc
    · rfl
    · rcases List.mem_cons.1 hc with rfl | hc
      · rfl
      · exact (toDigits_facts (by omega) (by omega) hc).2.1
  have hsplit : splitWhitespace (filterText s pa) =
      [Nat.toDigits 10 s.toNat, '0' :: 'x' :: Nat.toDigits 16 pa.toNat] := by
    unfold splitWhitespace filterText
    rw [List.splitOnP_append_cons_of_forall_mem hdec ' ' rfl, List.splitOnP_eq_singleton hhex,
      List.filter_cons_of_pos (by simp [Nat.toDigits_ne_nil]), List.filter_cons_of_pos (by simp), List.filter_nil]
  unfold parseFilterInput
  rw [hsplit, List.foldl_cons, parseToken_snapshot, List.foldl_cons, parseToken_pa, List.foldl_nil]

theorem typable_filterText {s : UInt32} {pa : UInt64} {c : Char} (hc : c ∈ filterText s pa) : typable c = true := by
  rcases List.mem_append.1 hc with hc | hc
  · exact (toDigits_facts (by omega) (by omega) hc).1
  · simp only [List.mem_cons] at hc
    rcases hc with rfl | rfl | rfl | hc
    · rfl
    · rfl
    · rfl
    · exact (toDigits_facts (by omega) (by omega) hc).1

theorem length_filterText (s : UInt32) (pa : UInt64) : (filterText s pa).length ≤ 40 := by
  have h1 : (Nat.toDigits 10 s.toNat).length ≤ 10 :=
    Nat.toDigits_length 10 _ 10 (by omega) (s.toNat_lt.trans (by norm_num))
  have h2 : (Nat.toDigits 16 pa.toNat).length ≤ 16 :=
    Nat.toDigits_length 16 _ 16 (by omega) (pa.toNat_lt.trans_le (by norm_num))
  unfold filterText
  rw [List.length_append]
  simp only [List.length_cons]
  omega

theorem utf8Size_typable {c : Char} (h : typable c = true) : c.utf8Size = 1 := by
  have hle : c ≤ 'x' := by
    unfold typable isAsciiHexdigit isAsciiDigit at h
    simp only [Bool.or_eq_true, Bool.and_eq_true, decide_eq_true_eq, beq_iff_eq] at h
    rcases h with (((((h | h) | h) | rfl) | rfl) | rfl)
    · exact Char.le_trans h.2 (by decide)
    · exact Char.le_trans h.2 (by decide)
    · exact Char.le_trans h.2 (by decide)
    · decide
    · decide
    · decide
  have hval : c.val ≤ 127 := UInt32.le_trans (Char.le_def.1 hle) (by decide)
  exact if_pos hval

section Typing

variable {D : Dir → Prop} {dir : Dir} {place : List Char → Option DbFile} {decodeAll : Bytes → Except String Bytes}
  {loaded : List ChunkRecord} {app : App} {buf : List Char}

/-- The filter prompt holds `buf`, and no filter is set. -/
structure Typing (app : App) (buf : List Char) : Prop where
  input : app.filterInput = some buf
  closed : app.exportInput = none
  snapshot : app.filterSnapshot = none
  pa : app.filterPa = none

/-- **A key pressed in the prompt**, on the state that decoding leaves. -/
theorem AppOk.typed (h : AppOk D decodeAll loaded app) (hdir : D dir) (ht : Typing app buf) (hfit : RangesFit loaded)
    {inp : Input} {code : KeyCode} {m : KeyModifiers} (hev : inp.event = .key code m true) :
    ∃ screen app', app.turn decodeAll dir inp = .ok (screen, ⟨app'.onFilterInput buf code, [], false⟩) ∧
      AppOk D decodeAll loaded app' ∧ Typing app' buf := by
  obtain ⟨app', hensure, h', hfresh, hsame⟩ := h.ensureDetail hdir
  obtain ⟨screen, -, hdraw, -⟩ := h'.draw hdir hfresh hfit inp.height
  have hinput : app'.filterInput = some buf := hsame.filterInput.trans ht.input
  refine ⟨screen, app', ?_, h', ⟨hinput, hsame.exportInput.trans ht.closed, hsame.filterSnapshot.trans ht.snapshot,
    hsame.filterPa.trans ht.pa⟩⟩
  unfold App.turn App.handle
  rw [hensure, ok_bind, hdraw, ok_bind, hev]
  dsimp only
  rw [hinput]
  rfl

/-- A loop whose first turn goes on. -/
theorem eventLoop_cons {inp : Input} {is : List Input} {screen : Screen} {app' : App} {shots : List Shot} {dir' : Dir}
    {final : App} (hturn : app.turn decodeAll dir inp = .ok (screen, ⟨app', [], false⟩))
    (hloop : eventLoop place decodeAll dir app' is = .ok (shots, dir', final)) :
    eventLoop place decodeAll dir app (inp :: is) = .ok ((screen, []) :: shots, dir', final) := by
  rw [eventLoop, hturn, ok_bind]
  dsimp only [List.foldl_nil]
  rw [if_neg Bool.false_ne_true, hloop]
  rfl

theorem byteLen_typable {cs : List Char} (h : ∀ c ∈ cs, typable c = true) : byteLen cs = cs.length := by
  unfold byteLen
  rw [List.map_congr_left fun c hc => utf8Size_typable (h c hc)]
  simp

variable (place) in
/-- **Typing** what the prompt takes appends it. -/
theorem AppOk.types (hdir : D dir) (hfit : RangesFit loaded) (rest : List Input) :
    ∀ (cs : List Char) {app : App} {buf : List Char}
    {is : List Input}, AppOk D decodeAll loaded app → Typing app buf → (∀ c ∈ buf ++ cs, typable c = true) →
    (buf ++ cs).length ≤ 40 → Pressed (cs.map .char) is →
    ∃ app', AppOk D decodeAll loaded app' ∧ Typing app' (buf ++ cs) ∧ ∀ shots' dir' final,
      Bxdb.eventLoop place decodeAll dir app' rest = .ok (shots', dir', final) →
      ∃ shots, Bxdb.eventLoop place decodeAll dir app (is ++ rest) = .ok (shots, dir', final) := by
  intro cs
  induction cs with
  | nil =>
    rintro app buf - h ht - - ⟨⟩
    refine ⟨app, h, ?_, fun shots' dir' final hl => ⟨shots', hl⟩⟩
    rw [List.append_nil]
    exact ht
  | cons c cs ih =>
    rintro app buf - h ht hcs hlen (⟨⟩ | @⟨inp, -, is, -, ⟨m, hev⟩, hrest⟩)
    obtain ⟨screen, app₁, hturn, h₁, ht₁⟩ := h.typed hdir ht hfit hev
    have hc : typable c = true := hcs c (by simp)
    -- the prompt takes 40 bytes, and every character typed is one
    have hbuf : byteLen buf < 40 := by
      rw [byteLen_typable fun c' hc' => hcs c' (List.mem_append_left _ hc')]
      rw [List.length_append, List.length_cons] at hlen
      omega
    have hpush : app₁.onFilterInput buf (.char c) = { app₁ with filterInput := some (buf ++ [c]) } := by
      unfold typable at hc
      unfold App.onFilterInput
      dsimp only
      rw [if_pos hc, if_pos hbuf]
    have hok := h₁.onFilterInput ht₁.input (.char c)
    rw [hpush] at hturn hok
    have ht' : Typing { app₁ with filterInput := some (buf ++ [c]) } (buf ++ [c]) := ⟨rfl, ht₁.closed, ht₁.snapshot, ht₁.pa⟩
    obtain ⟨app', happ', htyped, hrun⟩ := ih hok ht' (by rw [List.append_assoc]; exact hcs)
      (by rw [List.append_assoc]; exact hlen) hrest
    rw [List.append_assoc] at htyped
    refine ⟨app', happ', htyped, fun shots' dir' final hl => ?_⟩
    obtain ⟨shots, hloop⟩ := hrun shots' dir' final hl
    exact ⟨_, eventLoop_cons hturn hloop⟩

theorem AppOk.recordAt_iff (h : AppOk D decodeAll loaded app) {i : ℕ} {r : ChunkRecord} :
    app.recordAt i = .ok r ↔ app.rows[i]? = some r := by
  refine ⟨fun hrec => ?_, h.recordAt⟩
  cases hr : app.rows[i]? with
  | some r' =>
    rw [h.recordAt hr] at hrec
    rw [Except.ok.inj hrec]
  | none =>
    -- past the end of the rows both look-ups panic
    have hlook := filtered_lookup (App.keeps app.filterSnapshot app.filterPa) app.records i
    rw [show app.records.filter (App.keeps app.filterSnapshot app.filterPa) = app.rows from rfl, hr] at hlook
    have hf := h.filtered
    unfold App.recordAt App.realIdx at hrec
    split at hf
    · rw [hf] at hrec
      dsimp only at hrec
      obtain ⟨j, hj, hrec⟩ := bind_eq_ok.1 hrec
      have hget : ∀ {α : Type} {xs : List α} {k : ℕ} {x : α}, indexed xs k = .ok x → xs[k]? = some x := by
        intro α xs k x hx
        unfold indexed at hx
        split at hx
        · rename_i y hy
          rw [hy, Except.ok.inj hx]
        · cases hx
      rw [hget hj, Option.bind_some, hget hrec] at hlook
      cases hlook
    · rename_i hunset
      rw [Bool.or_eq_true, not_or, Option.not_isSome_iff_eq_none, Option.not_isSome_iff_eq_none] at hunset
      rw [rows_unfiltered hunset.1 hunset.2] at hr
      rw [hf] at hrec
      dsimp only at hrec
      rw [ok_bind] at hrec
      unfold indexed at hrec
      rw [hr] at hrec
      cases hrec

end Typing

section Finds

variable {D : Dir → Prop} {dir : Dir} {place : List Char → Option DbFile} {decodeAll : Bytes → Except String Bytes}
  {mode : IndexMode} {records loaded : List ChunkRecord} {maxSnap : UInt32} {app : App}

/-- **`f`** opens the prompt when there is no filter. -/
theorem handle_f (hinput : app.filterInput = none) (hexport : app.exportInput = none) (hsnap : app.filterSnapshot = none)
    (hpa : app.filterPa = none) (m : KeyModifiers) (saved : WriteResult) :
    app.handle (.key (.char 'f') m true) saved =
      .ok ⟨{ app with exportStatus := none, filterInput := some [] }, [], false⟩ := by
  obtain ⟨mode, records, stats, maxSnapshot, selected, blobFiles, detailScroll, detail, filterSnapshot, filterPa,
    filteredIndices, filterInput, exportInput, exportStatus⟩ := app
  dsimp only at hinput hexport hsnap hpa
  subst hinput hexport hsnap hpa
  rfl

theorem AppOk.opensPrompt (h : AppOk D decodeAll loaded app) (hdir : D dir) (hfit : RangesFit loaded)
    (hinput : app.filterInput = none) (hexport : app.exportInput = none) (hsnap : app.filterSnapshot = none)
    (hpa : app.filterPa = none) {inp : Input}
    {m : KeyModifiers} (hev : inp.event = .key (.char 'f') m true) :
    ∃ screen app', app.turn decodeAll dir inp = .ok (screen, ⟨app', [], false⟩) ∧ AppOk D decodeAll loaded app' ∧
      Typing app' [] := by
  obtain ⟨app₁, hensure, h₁, hfresh, hsame⟩ := h.ensureDetail hdir
  obtain ⟨screen, -, hdraw, -⟩ := h₁.draw hdir hfresh hfit inp.height
  have hexport₁ : app₁.exportInput = none := hsame.exportInput.trans hexport
  have hsnap₁ : app₁.filterSnapshot = none := hsame.filterSnapshot.trans hsnap
  have hpa₁ : app₁.filterPa = none := hsame.filterPa.trans hpa
  refine ⟨screen, { app₁ with exportStatus := none, filterInput := some [] }, ?_,
    h₁.withPrompts ⟨fun _ _ => hexport₁, fun path hp => absurd (hexport₁.symm.trans hp) (by simp)⟩,
    ⟨rfl, hexport₁, hsnap₁, hpa₁⟩⟩
  unfold App.turn
  rw [hensure, ok_bind, hdraw, ok_bind, hev, handle_f (hsame.filterInput.trans hinput) hexport₁ hsnap₁ hpa₁]
  rfl

variable (place decodeAll) in
/-- **A version is found by typing it**: after `f`, a snapshot id, an address and Enter,
the rows are the records of that snapshot and address. -/
theorem inspect_finds (hload : loadRecords dir = .ok (mode, records, maxSnap)) (hfit : RangesFit records) (s : UInt32)
    (pa : UInt64) {is : List Input} (hkeys : Pressed (.char 'f' :: ((filterText s pa).map .char ++ [.enter])) is) :
    ∃ shots app, inspect place decodeAll dir none none is = .ok (shots, dir, app) ∧
      ∀ r, (∃ i, app.recordAt i = .ok r) ↔ r ∈ records ∧ snapshotOf r.key = s ∧ paOf r.key = pa := by
  -- the keys are `f`, the text and Enter
  obtain ⟨first, rest, ⟨m, hf⟩, hrest, rfl⟩ := List.forall₂_cons_right_iff.1 hkeys
  set n := ((filterText s pa).map KeyCode.char).length
  have htext : Pressed ((filterText s pa).map .char) (rest.take n) := List.forall₂_take_append _ _ _ hrest
  obtain ⟨last, tail, ⟨m', henter⟩, htail, hlast⟩ := List.forall₂_cons_right_iff.1 (List.forall₂_drop_append _ _ _ hrest)
  obtain rfl := List.forall₂_nil_right_iff.1 htail
  obtain ⟨screen₁, app₁, hturn₁, h₁, ht₁⟩ :=
    (appOk_new (· = dir) decodeAll mode records maxSnap).opensPrompt rfl hfit rfl rfl rfl rfl hf
  obtain ⟨app₂, h₂, ht₂, hrun⟩ := AppOk.types (D := (· = dir)) place rfl hfit [last] (filterText s pa) h₁ ht₁
    (fun c hc => typable_filterText hc)
    (length_filterText s pa) htext
  obtain ⟨screen₃, app₃, hturn₃, h₃, ht₃⟩ := h₂.typed rfl ht₂ hfit henter
  -- Enter parses the typed text back into the filter
  have happ := h₃.onFilterInput ht₃.input .enter
  have happly : app₃.onFilterInput ([] ++ filterText s pa) .enter =
      App.applyFilter { app₃ with filterInput := none } (some s) (some pa) := by
    have hne : filterText s pa ≠ [] := by simp [filterText]
    unfold App.onFilterInput
    rw [List.nil_append]
    dsimp only
    rw [if_neg hne, parseFilterInput_text]
    rfl
  rw [happly] at hturn₃ happ
  obtain ⟨shots, hloop⟩ := hrun _ _ _ (eventLoop_cons hturn₃ rfl)
  rw [← hlast, List.take_append_drop] at hloop
  refine ⟨(screen₁, []) :: shots, App.applyFilter { app₃ with filterInput := none } (some s) (some pa), ?_, fun r => ?_⟩
  · unfold inspect
    rw [hload, ok_bind]
    exact eventLoop_cons hturn₁ hloop
  · have hrows : (App.applyFilter { app₃ with filterInput := none } (some s) (some pa)).rows =
        records.filter (App.keeps (some s) (some pa)) := by
      rw [← h₃.records]
      rfl
    constructor
    · rintro ⟨i, hi⟩
      have hmem := List.mem_of_getElem? (happ.recordAt_iff.1 hi)
      rw [hrows] at hmem
      obtain ⟨hr, hk⟩ := List.mem_filter.1 hmem
      simp only [App.keeps, Option.all_some, Bool.and_eq_true, beq_iff_eq] at hk
      exact ⟨hr, hk⟩
    · rintro ⟨hr, hs, hp⟩
      have hmem : r ∈ (App.applyFilter { app₃ with filterInput := none } (some s) (some pa)).rows := by
        rw [hrows]
        refine List.mem_filter.2 ⟨hr, ?_⟩
        simp only [App.keeps, Option.all_some, Bool.and_eq_true, beq_iff_eq]
        exact ⟨hs, hp⟩
      obtain ⟨i, hi⟩ := List.getElem?_of_mem hmem
      exact ⟨i, happ.recordAt_iff.2 hi⟩

end Finds

/-- One of three records has the snapshot and the address. -/
theorem inspect_finds_three : ∃ shots app, inspect placeB decodeSmall threeDir none none
    ((KeyCode.char 'f' :: ((filterText 4 7).map .char ++ [.enter])).map press) = .ok (shots, threeDir, app) ∧
    ∀ r, (∃ i, app.recordAt i = .ok r) ↔ r = newDelta (encodeKey 7 4) 0 12 10 (encodeKey 7 3) := by
  have hkeys : ∀ codes : List KeyCode, Pressed codes (codes.map press) := by
    intro codes
    unfold Pressed
    rw [List.forall₂_map_left_iff, List.forall₂_same]
    exact fun code _ => ⟨_, rfl⟩
  obtain ⟨shots, app, hrun, hrows⟩ := inspect_finds placeB decodeSmall threeDir_records threeDir_fits 4 7 (hkeys _)
  refine ⟨shots, app, hrun, fun r => (hrows r).trans ⟨?_, ?_⟩⟩
  · rintro ⟨hr, hs, hpa⟩
    simp only [threeRecords, List.mem_cons, List.not_mem_nil, or_false] at hr
    rcases hr with rfl | rfl | rfl
    · exact absurd hs (by decide)
    · rfl
    · exact absurd hpa (by decide)
  · rintro rfl
    exact ⟨by simp [threeRecords], by decide, by decide⟩

end Bxdb
