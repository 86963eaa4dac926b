import Mathlib.Data.List.GetD
import Bxdb.Spec.Inspect
import Bxdb.Proof.Bulk

/-!
# The inspector over any events

* `AppOk`: the list is what the filter keeps, the selection lies in it, and the detail is
  that of its own row (`AppOk.turn`: one turn keeps this).
* `inspect_shows`: **whatever is pressed and exported, the loop does not panic, and each screen
  shows the selected record with its own blob**, as a directory of some turn up to then had it.
* `afterShots_outside`: exports outside the database change no directory.
-/

namespace Bxdb

open Bytes SortedIndex Versioned ChunkRecord

/-! ## The list -/

section List

variable {α : Type} {p : α → Bool}

/-- The indices a filter keeps, looked up, are what it keeps. -/
theorem filtered_lookup (p : α → Bool) (xs : List α) (i : ℕ) :
    (((xs.zipIdx.filter fun e => p e.1).map Prod.snd)[i]?.bind fun j => xs[j]?) = (xs.filter p)[i]? := by
  have hfst : (xs.zipIdx.filter fun e => p e.1).map Prod.fst = xs.filter p := by
    have h : (xs.zipIdx.map Prod.fst).filter p = (xs.zipIdx.filter (p ∘ Prod.fst)).map Prod.fst := List.filter_map
    rw [List.zipIdx_map_fst] at h
    exact h.symm
  have hmem : ∀ e ∈ xs.zipIdx.filter fun e => p e.1, xs[e.2]? = some e.1 :=
    fun e he => List.mem_zipIdx_iff_getElem?.1 (List.mem_filter.1 he).1
  rw [← hfst, List.getElem?_map, List.getElem?_map]
  cases he : (xs.zipIdx.filter fun e => p e.1)[i]? with
  | none => rfl
  | some e => exact hmem e (List.mem_of_getElem? he)

theorem length_filtered (p : α → Bool) (xs : List α) :
    ((xs.zipIdx.filter fun e => p e.1).map Prod.snd).length = (xs.filter p).length := by
  have h : (xs.zipIdx.map Prod.fst).filter p = (xs.zipIdx.filter (p ∘ Prod.fst)).map Prod.fst := List.filter_map
  rw [List.zipIdx_map_fst] at h
  rw [h, List.length_map, List.length_map]
  rfl

theorem indexed_of_some {xs : List α} {i : ℕ} {x : α} (h : xs[i]? = some x) : indexed xs i = .ok x := by
  unfold indexed
  rw [h]

end List

/-- The rows that are listed. -/
def App.rows (app : App) : List ChunkRecord := app.records.filter (App.keeps app.filterSnapshot app.filterPa)

/-- The blob of a record, as the inspector reads it. -/
def fetch (dir : Dir) (r : ChunkRecord) : Res Bytes :=
  match dir.blobs r.workerId with
  | none => ioErr .notFound "No such file or directory (os error 2)"
  | some file => readExactAt file r.offset r.len

/-- What the inspector makes of a record. -/
def detailFor (dir : Dir) (decodeAll : Bytes → Except String Bytes) (r : ChunkRecord) : Detail :=
  detailOf decodeAll r.kind (fetch dir r)

/-- The prompts are closed, or one of them is open, the export one over a Full record. -/
structure PromptsOk (app : App) : Prop where
  filter : ∀ buf, app.filterInput = some buf → app.exportInput = none
  exporting : ∀ path, app.exportInput = some path → ∃ i r, app.selected = some i ∧ app.rows[i]? = some r ∧ r.kind = .full

/-- **The invariant of the loop**, over the records that were loaded and the directories there
have been: `D` holds of each of them. -/
structure AppOk (D : Dir → Prop) (decodeAll : Bytes → Except String Bytes) (loaded : List ChunkRecord) (app : App) : Prop where
  records : app.records = loaded
  stats : app.stats = Stats.fromRecords loaded
  filtered : app.filteredIndices = if app.filterSnapshot.isSome || app.filterPa.isSome then
    some ((app.records.zipIdx.filter fun e => App.keeps app.filterSnapshot app.filterPa e.1).map Prod.snd) else none
  selected : ∀ i, app.selected = some i → i < app.rows.length
  unselected : app.selected = none → app.rows = []
  detail : ∀ i d, app.detail = some (i, d) → ∃ r dir, app.rows[i]? = some r ∧ D dir ∧ d = detailFor dir decodeAll r
  prompts : PromptsOk app

section Ok

variable {D D' : Dir → Prop} {dir : Dir} {place : List Char → Option DbFile} {decodeAll : Bytes → Except String Bytes}
  {loaded : List ChunkRecord} {app : App} {i : ℕ} {r : ChunkRecord}

/-- More directories. -/
theorem AppOk.mono (h : AppOk D decodeAll loaded app) (hD : ∀ dir, D dir → D' dir) : AppOk D' decodeAll loaded app where
  records := h.records
  stats := h.stats
  filtered := h.filtered
  selected := h.selected
  unselected := h.unselected
  detail i d hd := by
    obtain ⟨r, dir, hr, hdir, hdetail⟩ := h.detail i d hd
    exact ⟨r, dir, hr, hD dir hdir, hdetail⟩
  prompts := h.prompts

theorem keeps_none (r : ChunkRecord) : App.keeps none none r = true := rfl

/-- Without a filter the rows are the records. -/
theorem rows_unfiltered (hs : app.filterSnapshot = none) (hp : app.filterPa = none) : app.rows = app.records := by
  unfold App.rows
  rw [hs, hp]
  exact List.filter_eq_self.2 fun r _ => keeps_none r

theorem AppOk.activeCount (h : AppOk D decodeAll loaded app) : app.activeCount = app.rows.length := by
  have hf := h.filtered
  unfold App.activeCount
  split at hf
  · rw [hf]
    exact length_filtered _ _
  · rename_i hnone
    rw [hf]
    rw [Bool.or_eq_true, not_or, Option.not_isSome_iff_eq_none, Option.not_isSome_iff_eq_none] at hnone
    rw [rows_unfiltered hnone.1 hnone.2]

/-- **A row is its record.** -/
theorem AppOk.recordAt (h : AppOk D decodeAll loaded app) {i : ℕ} {r : ChunkRecord} (hr : app.rows[i]? = some r) :
    app.recordAt i = .ok r := by
  have hf := h.filtered
  unfold App.recordAt App.realIdx
  split at hf
  · have hlook := filtered_lookup (App.keeps app.filterSnapshot app.filterPa) app.records i
    rw [show app.records.filter (App.keeps app.filterSnapshot app.filterPa) = app.rows from rfl, hr] at hlook
    obtain ⟨j, hj, hrec⟩ := Option.bind_eq_some_iff.1 hlook
    rw [hf]
    dsimp only
    rw [indexed_of_some hj, ok_bind, indexed_of_some hrec]
  · rename_i hnone
    rw [Bool.or_eq_true, not_or, Option.not_isSome_iff_eq_none, Option.not_isSome_iff_eq_none] at hnone
    rw [rows_unfiltered hnone.1 hnone.2] at hr
    rw [hf]
    dsimp only
    rw [ok_bind, indexed_of_some hr]

/-- The selected record. -/
theorem AppOk.selectedRow (h : AppOk D decodeAll loaded app) {i : ℕ} (hi : app.selected = some i) :
    ∃ r, app.rows[i]? = some r ∧ app.recordAt i = .ok r := by
  have hlt := h.selected i hi
  exact ⟨app.rows[i], List.getElem?_eq_getElem hlt, h.recordAt (List.getElem?_eq_getElem hlt)⟩

/-! ## Decoding the selected record -/

/-- The detail is that of the selected row. -/
def Fresh (app : App) : Prop := ∀ i, app.selected = some i → ∃ d, app.detail = some (i, d)

theorem readBlob_ok (app : App) (dir : Dir) (r : ChunkRecord) :
    ∃ files, app.readBlob dir r.workerId r.offset r.len = ({ app with blobFiles := files }, fetch dir r) := by
  unfold App.readBlob fetch
  cases dir.blobs r.workerId with
  | none => exact ⟨app.blobFiles, rfl⟩
  | some file => exact ⟨_, rfl⟩

/-- The detail replaced by one that is right. -/
theorem AppOk.withDetail (h : AppOk D decodeAll loaded app) (hdir : D dir) (files : UInt8 → Bool) {i : ℕ}
    {r : ChunkRecord} (hr : app.rows[i]? = some r) :
    AppOk D decodeAll loaded { app with blobFiles := files, detail := some (i, detailFor dir decodeAll r) } where
  records := h.records
  stats := h.stats
  filtered := h.filtered
  selected := h.selected
  unselected := h.unselected
  detail j d hd := by
    obtain ⟨rfl, rfl⟩ := Prod.mk.inj (Option.some.inj hd)
    exact ⟨r, dir, hr, hdir, rfl⟩
  prompts := ⟨h.prompts.filter, h.prompts.exporting⟩

/-- What decoding leaves alone. -/
structure SameView (app app' : App) : Prop where
  selected : app'.selected = app.selected
  filterSnapshot : app'.filterSnapshot = app.filterSnapshot
  filterPa : app'.filterPa = app.filterPa
  filterInput : app'.filterInput = app.filterInput
  exportInput : app'.exportInput = app.exportInput

/-- **`ensure_detail`** does not panic, and leaves the detail of the selected row. -/
theorem AppOk.ensureDetail (h : AppOk D decodeAll loaded app) (hdir : D dir) :
    ∃ app', app.ensureDetail dir decodeAll = .ok app' ∧ AppOk D decodeAll loaded app' ∧ Fresh app' ∧
      SameView app app' := by
  unfold App.ensureDetail
  split
  · rename_i hsel
    exact ⟨app, rfl, h, fun i hi => absurd (hsel.symm.trans hi) (by simp), ⟨rfl, rfl, rfl, rfl, rfl⟩⟩
  · rename_i i hsel
    obtain ⟨r, hr, hrec⟩ := h.selectedRow hsel
    -- the detail computed now is the selected row's
    have hfresh : ∀ files : UInt8 → Bool, ∀ d : Detail,
        Fresh { app with blobFiles := files, detail := some (i, d) } := by
      intro files d j hj
      obtain rfl : i = j := Option.some.inj (hsel.symm.trans hj)
      exact ⟨d, rfl⟩
    split
    · rename_i hsame
      refine ⟨app, rfl, h, fun j hj => ?_, ⟨rfl, rfl, rfl, rfl, rfl⟩⟩
      obtain rfl : i = j := Option.some.inj (hsel.symm.trans hj)
      obtain ⟨⟨k, d⟩, hd, hk⟩ := Option.map_eq_some_iff.1 hsame
      exact ⟨d, by rw [hd, ← hk]⟩
    · rw [hrec, ok_bind]
      split
      · rename_i hzero
        have hd : detailFor dir decodeAll r = .zero := by
          unfold detailFor
          rw [hzero]
          rfl
        have hok := h.withDetail hdir app.blobFiles hr
        rw [hd] at hok
        exact ⟨_, rfl, hok, hfresh _ _, ⟨rfl, rfl, rfl, rfl, rfl⟩⟩
      · obtain ⟨files, hread⟩ := readBlob_ok app dir r
        rw [hread]
        exact ⟨_, rfl, h.withDetail hdir files hr, hfresh _ _, ⟨rfl, rfl, rfl, rfl, rfl⟩⟩

/-! ## Drawing -/

/-- The end of every blob range can be computed. -/
def RangesFit (records : List ChunkRecord) : Prop :=
  ∀ r ∈ records, r.kind ≠ .zero → r.offset.toNat + r.len.toNat < 2 ^ 64

/-- What is right beside a record. -/
def besideOf (dir : Dir) (decodeAll : Bytes → Except String Bytes) (r : ChunkRecord) : Beside :=
  if r.kind = .zero then .noBlob else .shown (detailFor dir decodeAll r)

/-- **A screen that shows what it should**: some of the rows a filter keeps, and the
highlighted one of them, if there is room for a row, with its own blob. -/
structure ScreenOk (dir : Dir) (decodeAll : Bytes → Except String Bytes) (loaded : List ChunkRecord) (s : Screen) :
    Prop where
  rows : ∃ snap pa, s.rows <:+: loaded.filter (App.keeps snap pa)
  detail : ∀ r b, s.detail = some (r, b) → r ∈ loaded ∧ b = besideOf dir decodeAll r ∧
    ∃ i, s.highlighted = some i ∧ (s.rows = [] ∨ s.rows[i]? = some r)
  empty : s.detail = none → s.rows = []

theorem beside_of (h : app.detail = some (i, detailFor dir decodeAll r)) :
    app.beside i r.kind = besideOf dir decodeAll r := by
  unfold App.beside besideOf
  rw [h]
  unfold detailFor
  cases hk : r.kind with
  | zero => rfl
  | full =>
    unfold detailOf
    cases fetch dir r with
    | error e => simp
    | ok b =>
      dsimp only
      cases decodeAll b with
      | error e => simp
      | ok d => simp
  | delta =>
    unfold detailOf
    cases fetch dir r with
    | error e => simp
    | ok b =>
      dsimp only
      cases decodeDelta b with
      | error e => simp
      | ok p => simp

/-- The rows drawn, from `start` on. -/
theorem AppOk.mapM_rows (h : AppOk D decodeAll loaded app) {start stop : ℕ} (hstop : stop ≤ app.rows.length) :
    ((List.range (stop - start)).map (start + ·)).mapM app.recordAt = .ok (slice app.rows start stop) := by
  rcases hrows : app.rows with - | ⟨r₀, rs⟩
  · have hzero : stop - start = 0 := by
      rw [hrows] at hstop
      simp only [List.length_nil] at hstop
      omega
    rw [hzero]
    simp [slice]
    rfl
  · rw [← hrows]
    have hall : ∀ j ∈ (List.range (stop - start)).map (start + ·), app.recordAt j = .ok (app.rows.getD j r₀) := by
      intro j hj
      obtain ⟨k, hk, rfl⟩ := List.mem_map.1 hj
      have hlt : start + k < app.rows.length := by
        have := List.mem_range.1 hk
        omega
      rw [List.getD_eq_getElem _ _ hlt]
      exact h.recordAt (List.getElem?_eq_getElem hlt)
    rw [mapM_ok hall]
    congr 1
    refine List.ext_getElem? fun k => ?_
    rw [List.map_map, List.getElem?_map]
    unfold slice
    by_cases hk : k < stop - start
    · rw [List.getElem?_range hk, List.getElem?_take_of_lt hk, List.getElem?_drop]
      rw [List.getElem?_eq_getElem (by omega)]
      simp only [Option.map_some, Function.comp_apply]
      rw [List.getD_eq_getElem _ _ (by omega)]
    · rw [List.getElem?_eq_none (by simpa using hk), List.getElem?_eq_none (by simp; omega)]
      rfl

/-- **The list** shows the selected row, when it has room for one. -/
theorem AppOk.drawList (h : AppOk D decodeAll loaded app) (height : ℕ) :
    ∃ rows hl, app.drawList height = .ok (rows, hl) ∧ rows <:+: app.rows ∧
      (app.selected = none → rows = []) ∧
      ∀ i, app.selected = some i → ∃ k, hl = some k ∧ (rows = [] ∨ rows[k]? = app.rows[i]?) := by
  unfold App.drawList
  rw [h.activeCount]
  dsimp only
  split
  · rename_i hnil
    refine ⟨[], none, rfl, List.nil_infix, fun _ => rfl, fun i hi => ?_⟩
    have := h.selected i hi
    omega
  · rename_i hne
    cases hsel : app.selected with
    | none =>
      rw [h.unselected hsel] at hne
      exact absurd rfl hne
    | some i =>
      have hi := h.selected i hsel
      rw [Option.getD_some]
      set visible := height - 2
      set start := if i < visible / 2 then 0 else min (i - visible / 2) (app.rows.length - visible) with hstart
      set stop := min (start + visible) app.rows.length with hstop
      -- the selected row is in the window
      have hle : start ≤ i := by
        rw [hstart]
        split <;> omega
      have hroom : visible = 0 ∨ i < stop := by
        rw [hstop, hstart]
        split <;> omega
      rw [h.mapM_rows (Nat.min_le_right _ _), ok_bind, if_neg (by omega)]
      refine ⟨_, _, rfl, ?_, by simp, fun j hj => ⟨_, rfl, ?_⟩⟩
      · exact (List.take_prefix _ _).isInfix.trans (List.drop_suffix _ _).isInfix
      · obtain rfl : i = j := Option.some.inj hj
        rcases hroom with h0 | hlt
        · have hz : stop - start = 0 := by omega
          refine .inl ?_
          unfold slice
          rw [hz, List.take_zero]
        · refine .inr ?_
          unfold slice
          rw [List.getElem?_take_of_lt (by omega), List.getElem?_drop]
          congr 1
          omega

theorem rows_subset (h : AppOk D decodeAll loaded app) {i : ℕ} {r : ChunkRecord} (hr : app.rows[i]? = some r) :
    r ∈ loaded := by
  have hmem : r ∈ app.records := (List.mem_filter.1 (List.mem_of_getElem? hr)).1
  rwa [h.records] at hmem

/-- **Drawing** does not panic, and shows what it should. -/
theorem AppOk.draw (h : AppOk D decodeAll loaded app) (hdir : D dir) (hfresh : Fresh app) (hfit : RangesFit loaded)
    (height : ℕ) : ∃ s dir', app.draw height = .ok s ∧ D dir' ∧ ScreenOk dir' decodeAll loaded s ∧
      ∀ i d, app.detail = some (i, d) → app.selected = some i → ∀ r, app.rows[i]? = some r → r.kind ≠ .zero →
        s.detail = some (r, .shown d) := by
  obtain ⟨rows, hl, hlist, hinfix, hnone, hrow⟩ := h.drawList height
  have hpart : ∃ snap pa, rows <:+: loaded.filter (App.keeps snap pa) := by
    rw [← h.records]
    exact ⟨_, _, hinfix⟩
  unfold App.draw
  rw [hlist, ok_bind]
  dsimp only
  unfold App.drawDetail
  cases hsel : app.selected with
  | none =>
    refine ⟨_, dir, rfl, hdir, ⟨hpart, fun r b hd => (by cases hd), fun _ => hnone hsel⟩, fun i d _ hi => (by cases hi)⟩
  | some i =>
    obtain ⟨r, hr, hrec⟩ := h.selectedRow hsel
    have hmem := rows_subset h hr
    obtain ⟨d, hd⟩ := hfresh i hsel
    obtain ⟨r', dir', hr', hdir', rfl⟩ := h.detail i d hd
    obtain rfl : r = r' := Option.some.inj (hr.symm.trans hr')
    dsimp only
    rw [hrec, ok_bind, if_neg (fun hover => absurd (hfit r hmem hover.1) (by omega)), ok_bind, beside_of hd]
    refine ⟨_, dir', rfl, hdir', ⟨hpart, fun r₁ b hd₁ => ?_, fun hnone => by cases hnone⟩, fun j d₁ hd₁ hj r₁ hr₁ hk => ?_⟩
    · obtain ⟨rfl, rfl⟩ := Prod.mk.inj (Option.some.inj hd₁)
      obtain ⟨k, hk, hrows⟩ := hrow i hsel
      exact ⟨hmem, rfl, k, hk, hrows.imp id fun h' => h'.trans hr⟩
    · obtain rfl : i = j := Option.some.inj hj
      obtain rfl : r = r₁ := Option.some.inj (hr.symm.trans hr₁)
      obtain ⟨-, rfl⟩ := Prod.mk.inj (Option.some.inj (hd.symm.trans hd₁))
      unfold besideOf
      rw [if_neg hk]

/-! ## Events -/

/-- Another row selected. -/
theorem AppOk.select (h : AppOk D decodeAll loaded app) (hexport : app.exportInput = none) (hi : i < app.rows.length)
    (n : UInt16) : AppOk D decodeAll loaded { app with selected := some i, detailScroll := n } where
  records := h.records
  stats := h.stats
  filtered := h.filtered
  selected j hj := by
    obtain rfl : i = j := Option.some.inj hj
    exact hi
  unselected hnone := by cases hnone
  detail := h.detail
  prompts := ⟨h.prompts.filter, fun path hp => absurd (hexport.symm.trans hp) (by simp)⟩

theorem AppOk.moveBy (h : AppOk D decodeAll loaded app) (hexport : app.exportInput = none) (delta : ℤ) :
    AppOk D decodeAll loaded (app.moveBy delta) := by
  unfold App.moveBy
  rw [h.activeCount]
  split
  · exact h
  · exact h.select hexport (by omega) 0

theorem AppOk.goTo (h : AppOk D decodeAll loaded app) (hexport : app.exportInput = none) (i : ℕ) :
    AppOk D decodeAll loaded (app.goTo i) := by
  unfold App.goTo
  rw [h.activeCount]
  split
  · exact h
  · exact h.select hexport (by omega) 0

/-- **A list filtered anew** starts at its first row. -/
theorem AppOk.refilter (h : AppOk D decodeAll loaded app) (hexport : app.exportInput = none) {snap : Option UInt32}
    {pa : Option UInt64} {indices : Option (List ℕ)} (hindices : indices = if snap.isSome || pa.isSome then
      some ((app.records.zipIdx.filter fun e => App.keeps snap pa e.1).map Prod.snd) else none) :
    AppOk D decodeAll loaded
      (App.selectFirst { app with filteredIndices := indices, filterSnapshot := snap, filterPa := pa }) := by
  have hcount : App.activeCount { app with filteredIndices := indices, filterSnapshot := snap, filterPa := pa } =
      (app.records.filter (App.keeps snap pa)).length := by
    unfold App.activeCount
    rw [hindices]
    split at hindices
    · rename_i hset
      rw [if_pos hset]
      exact length_filtered _ _
    · rename_i hunset
      rw [if_neg hunset]
      rw [Bool.or_eq_true, not_or, Option.not_isSome_iff_eq_none, Option.not_isSome_iff_eq_none] at hunset
      rw [hunset.1, hunset.2, List.filter_eq_self.2 fun r _ => keeps_none r]
  unfold App.selectFirst
  rw [hcount]
  refine ⟨h.records, h.stats, hindices, fun i hi => ?_, fun hnone => ?_, fun i d hd => (by cases hd),
    ⟨h.prompts.filter, fun path hp => absurd (hexport.symm.trans hp) (by simp)⟩⟩
  · change i < (app.records.filter (App.keeps snap pa)).length
    dsimp only at hi
    split at hi
    · rename_i hpos
      rw [← Option.some.inj hi]
      exact hpos
    · cases hi
  · change app.records.filter (App.keeps snap pa) = []
    dsimp only at hnone
    split at hnone
    · cases hnone
    · exact List.length_eq_zero_iff.1 (by omega)

theorem AppOk.applyFilter (h : AppOk D decodeAll loaded app) (hexport : app.exportInput = none) {snap : Option UInt32}
    {pa : Option UInt64} (hset : (snap.isSome || pa.isSome) = true) :
    AppOk D decodeAll loaded (app.applyFilter snap pa) :=
  h.refilter hexport (if_pos hset).symm

theorem AppOk.clearFilter (h : AppOk D decodeAll loaded app) (hexport : app.exportInput = none) :
    AppOk D decodeAll loaded app.clearFilter :=
  h.refilter hexport rfl

/-- A prompt's text and the status line belong to no other field. -/
theorem AppOk.withPrompts (h : AppOk D decodeAll loaded app) {filterInput exportInput : Option (List Char)}
    {exportStatus : Option String}
    (hp : PromptsOk { app with filterInput := filterInput, exportInput := exportInput, exportStatus := exportStatus }) :
    AppOk D decodeAll loaded
      { app with filterInput := filterInput, exportInput := exportInput, exportStatus := exportStatus } :=
  ⟨h.records, h.stats, h.filtered, h.selected, h.unselected, h.detail, hp⟩

theorem AppOk.withScroll (h : AppOk D decodeAll loaded app) (n : UInt16) :
    AppOk D decodeAll loaded { app with detailScroll := n } :=
  ⟨h.records, h.stats, h.filtered, h.selected, h.unselected, h.detail, ⟨h.prompts.filter, h.prompts.exporting⟩⟩

/-- **A key in the filter prompt.** -/
theorem AppOk.onFilterInput (h : AppOk D decodeAll loaded app) {buf : List Char} (hbuf : app.filterInput = some buf)
    (code : KeyCode) : AppOk D decodeAll loaded (app.onFilterInput buf code) := by
  have hexport := h.prompts.filter buf hbuf
  have hclosed : ∀ filterInput, AppOk D decodeAll loaded { app with filterInput := filterInput } := fun filterInput =>
    h.withPrompts ⟨fun _ _ => hexport, fun path hp => absurd (hexport.symm.trans hp) (by simp)⟩
  unfold App.onFilterInput
  cases code with
  | enter =>
    dsimp only
    split
    · exact (hclosed none).clearFilter hexport
    · split
      · rename_i hset
        exact (hclosed none).applyFilter hexport hset
      · exact hclosed none
  | char c =>
    dsimp only
    split
    · split
      · exact hclosed _
      · exact h
    · exact h
  | _ => first | exact h | exact hclosed _

/-- The file holds `d`, or a beginning of it where writing failed. -/
def Export.Holds (e : Export) (d : Bytes) : Prop := e.content <+: d ∧ (e.complete = true → e.content = d)

/-- What the export prompt writes is the page in detail. -/
theorem exportDetail_ok (app : App) (path : List Char) (saved : WriteResult) :
    ∃ status written, app.exportDetail path saved = ({ app with exportStatus := status }, written) ∧
      ∀ e ∈ written, ∃ i d, app.detail = some (i, .full d) ∧ e.Holds d := by
  unfold App.exportDetail
  split
  · rename_i i d hd
    cases saved with
    | ok =>
      refine ⟨_, _, rfl, fun e he => ?_⟩
      rw [List.mem_singleton.1 he]
      exact ⟨i, d, hd, List.prefix_refl d, fun _ => rfl⟩
    | error msg left =>
      refine ⟨_, _, rfl, fun e he => ?_⟩
      obtain ⟨n, -, rfl⟩ := Option.map_eq_some_iff.1 (Option.mem_toList.1 he)
      exact ⟨i, d, hd, List.take_prefix n d, nofun⟩
  · exact ⟨_, [], rfl, by simp⟩

/-- **A key in the export prompt.** -/
theorem AppOk.onExportInput (h : AppOk D decodeAll loaded app) {path : List Char} (hpath : app.exportInput = some path)
    (saved : WriteResult) (code : KeyCode) :
    AppOk D decodeAll loaded (app.onExportInput path saved code).1 ∧
      ∀ e ∈ (app.onExportInput path saved code).2, ∃ i d, app.detail = some (i, .full d) ∧ e.Holds d := by
  have hfilter : app.filterInput = none := by
    cases hf : app.filterInput with
    | none => rfl
    | some buf => exact absurd ((h.prompts.filter buf hf).symm.trans hpath) (by simp)
  have hopen : ∀ exportInput exportStatus,
      AppOk D decodeAll loaded { app with exportInput := exportInput, exportStatus := exportStatus } := fun _ _ =>
    h.withPrompts ⟨fun buf hb => absurd (hfilter.symm.trans hb) (by simp), fun _ _ => h.prompts.exporting path hpath⟩
  unfold App.onExportInput
  cases code with
  | enter =>
    dsimp only
    split
    · exact ⟨hopen none _, by simp⟩
    · obtain ⟨status, written, heq, hwritten⟩ :=
        exportDetail_ok { app with exportInput := none } path saved
      rw [heq]
      exact ⟨hopen none status, hwritten⟩
  | char c =>
    dsimp only
    split
    · exact ⟨h, by simp⟩
    · split
      · exact ⟨hopen _ _, by simp⟩
      · exact ⟨h, by simp⟩
  | esc => exact ⟨hopen none _, by simp⟩
  | backspace => exact ⟨hopen _ _, by simp⟩
  | _ => exact ⟨h, by simp⟩

/-- **A key outside of the prompts.** -/
theorem AppOk.onKey (h : AppOk D decodeAll loaded app) (hfilter : app.filterInput = none)
    (hexport : app.exportInput = none) (code : KeyCode) (m : KeyModifiers) :
    ∃ app', app.onKey code m = .ok app' ∧ AppOk D decodeAll loaded app' := by
  have hf : AppOk D decodeAll loaded app.onKeyF := by
    unfold App.onKeyF
    split
    · exact h.clearFilter hexport
    · exact h.withPrompts ⟨fun _ _ => hexport, fun path hp => absurd (hexport.symm.trans hp) (by simp)⟩
  have he : ∃ app', app.onKeyE = .ok app' ∧ AppOk D decodeAll loaded app' := by
    unfold App.onKeyE
    split
    · exact ⟨app, rfl, h⟩
    · rename_i i hi
      obtain ⟨r, hr, hrec⟩ := h.selectedRow hi
      rw [hrec, ok_bind]
      refine ⟨_, rfl, ?_⟩
      split
      · rename_i hk
        exact h.withPrompts ⟨fun buf hb => absurd (hfilter.symm.trans hb) (by simp), fun _ _ => ⟨i, r, hi, hr, hk⟩⟩
      · exact h
  -- the other keys only move the selection or scroll the detail
  unfold App.onKey
  split
  · exact ⟨_, rfl, hf⟩
  · exact he
  · exact ⟨_, rfl, h.moveBy hexport _⟩
  · exact ⟨_, rfl, h.moveBy hexport _⟩
  · refine ⟨_, rfl, ?_⟩
    split
    · exact h
    · exact h.moveBy hexport _
  · refine ⟨_, rfl, ?_⟩
    split
    · exact h
    · exact h.moveBy hexport _
  · exact ⟨_, rfl, h.moveBy hexport _⟩
  · exact ⟨_, rfl, h.moveBy hexport _⟩
  · exact ⟨_, rfl, h.goTo hexport _⟩
  · exact ⟨_, rfl, h.goTo hexport _⟩
  · exact ⟨_, rfl, h.goTo hexport _⟩
  · exact ⟨_, rfl, h.goTo hexport _⟩
  · exact ⟨_, rfl, h.withScroll _⟩
  · exact ⟨_, rfl, h.withScroll _⟩
  · refine ⟨_, rfl, ?_⟩
    split
    · exact h.withScroll _
    · exact h
  · refine ⟨_, rfl, ?_⟩
    split
    · exact h.withScroll _
    · exact h
  · exact ⟨_, rfl, h⟩

/-- **Any event** keeps the invariant, and writes at most the page in detail. -/
theorem AppOk.handle (h : AppOk D decodeAll loaded app) (ev : TermEvent) (saved : WriteResult) :
    ∃ t, app.handle ev saved = .ok t ∧ AppOk D decodeAll loaded t.app ∧
      ∀ e ∈ t.written, (∃ path, app.exportInput = some path) ∧ ∃ i d, app.detail = some (i, .full d) ∧ e.Holds d := by
  unfold App.handle
  split
  · exact ⟨_, rfl, h, by simp⟩
  · exact ⟨_, rfl, h, by simp⟩
  · rename_i code m
    split
    · rename_i buf hbuf
      exact ⟨_, rfl, h.onFilterInput hbuf code, by simp⟩
    · rename_i hfilter
      split
      · rename_i path hpath
        obtain ⟨hok, hwritten⟩ := h.onExportInput hpath saved code
        exact ⟨_, rfl, hok, fun e he => ⟨⟨path, hpath⟩, hwritten e he⟩⟩
      · rename_i hexport
        have h' : AppOk D decodeAll loaded { app with exportStatus := none } :=
          h.withPrompts ⟨h.prompts.filter, h.prompts.exporting⟩
        dsimp only
        split
        · exact ⟨_, rfl, h', by simp⟩
        · obtain ⟨app', hkey, hok⟩ := h'.onKey hfilter hexport code m
          rw [hkey, ok_bind]
          exact ⟨_, rfl, hok, by simp⟩

/-! ## The loop -/

/-- What a turn shows is right, and what it writes is on the screen. -/
structure ShotOk (dir : Dir) (decodeAll : Bytes → Except String Bytes) (loaded : List ChunkRecord) (shot : Shot) :
    Prop where
  screen : ScreenOk dir decodeAll loaded shot.1
  written : ∀ e ∈ shot.2, ∃ r d, shot.1.detail = some (r, .shown (.full d)) ∧ e.Holds d

/-- **One turn** does not panic and keeps the invariant. -/
theorem AppOk.turn (h : AppOk D decodeAll loaded app) (hdir : D dir) (hfit : RangesFit loaded) (inp : Input) :
    ∃ screen t dir', app.turn decodeAll dir inp = .ok (screen, t) ∧ AppOk D decodeAll loaded t.app ∧ D dir' ∧
      ShotOk dir' decodeAll loaded (screen, t.written) := by
  obtain ⟨app', hensure, h', hfresh, -⟩ := h.ensureDetail hdir
  obtain ⟨screen, dir', hdraw, hdir', hscreen, hshown⟩ := h'.draw hdir hfresh hfit inp.height
  obtain ⟨t, hhandle, ht, hwritten⟩ := h'.handle inp.event inp.saved
  refine ⟨screen, t, dir', ?_, ht, hdir', hscreen, fun e he => ?_⟩
  · unfold App.turn
    rw [hensure, ok_bind, hdraw, ok_bind, hhandle]
    rfl
  · -- the prompt is open over the selected record, whose detail is shown
    obtain ⟨⟨path, hpath⟩, j, d, hd, hholds⟩ := hwritten e he
    obtain ⟨i, r, hi, hr, hk⟩ := h'.prompts.exporting path hpath
    obtain ⟨d', hd'⟩ := hfresh i hi
    obtain ⟨rfl, rfl⟩ := Prod.mk.inj (Option.some.inj (hd'.symm.trans hd))
    exact ⟨r, d, hshown i _ hd' hi r hr (by rw [hk]; decide), hholds⟩

/-- The directory that the exports of some turns leave. -/
def afterShots (place : List Char → Option DbFile) (dir : Dir) (shots : List Shot) : Dir :=
  shots.foldl (fun dir shot => shot.2.foldl (Dir.exported place) dir) dir

/-- Exports outside the database leave it as it is. -/
theorem afterShots_outside {shots : List Shot} (h : ∀ shot ∈ shots, ∀ e ∈ shot.2, place e.path = none) :
    afterShots place dir shots = dir := by
  have hshot : ∀ es : List Export, (∀ e ∈ es, place e.path = none) → es.foldl (Dir.exported place) dir = dir := by
    intro es
    induction es with
    | nil => exact fun _ => rfl
    | cons e es ih =>
      intro hes
      have he : Dir.exported place dir e = dir := by
        unfold Dir.exported
        rw [hes e List.mem_cons_self]
      rw [List.foldl_cons, he]
      exact ih fun e' he' => hes e' (List.mem_cons_of_mem _ he')
  unfold afterShots
  induction shots with
  | nil => rfl
  | cons shot shots ih =>
    rw [List.foldl_cons, hshot shot.2 (h shot List.mem_cons_self)]
    exact ih fun s hs => h s (List.mem_cons_of_mem _ hs)

/-- **Right when it was drawn**: the shot shows a directory of some turn before it. -/
def ShownOf (place : List Char → Option DbFile) (dir : Dir) (decodeAll : Bytes → Except String Bytes)
    (loaded : List ChunkRecord) (shots : List Shot) : Prop :=
  ∀ pre shot post, shots = pre ++ shot :: post →
    ∃ earlier, earlier <+: pre ∧ ShotOk (afterShots place dir earlier) decodeAll loaded shot

/-- **The loop** over any input: each shot shows a directory there has been, before the loop or
up to that turn. -/
theorem AppOk.eventLoop (h : AppOk D decodeAll loaded app) (hdir : D dir) (hfit : RangesFit loaded) (is : List Input) :
    ∃ shots dir' app', Bxdb.eventLoop place decodeAll dir app is = .ok (shots, dir', app') ∧
      dir' = afterShots place dir shots ∧
      ∀ pre shot post, shots = pre ++ shot :: post → ∃ old, ShotOk old decodeAll loaded shot ∧
        (D old ∨ ∃ earlier, earlier <+: pre ∧ old = afterShots place dir earlier) := by
  induction is generalizing app dir D with
  | nil => exact ⟨[], dir, app, rfl, rfl, fun pre shot post heq => by simp at heq⟩
  | cons inp is ih =>
    obtain ⟨screen, t, old, hturn, ht, hold, hshot⟩ := h.turn hdir hfit inp
    unfold Bxdb.eventLoop
    rw [hturn, ok_bind]
    dsimp only
    split
    · refine ⟨_, _, _, rfl, rfl, fun pre shot post heq => ?_⟩
      obtain ⟨rfl, hfirst⟩ | ⟨pre, rfl, hlater⟩ := List.cons_eq_append_iff.1 heq
      · obtain ⟨rfl, -⟩ := List.cons.inj hfirst
        exact ⟨old, hshot, .inl hold⟩
      · simp at hlater
    · -- from here on there is one directory more
      set next := t.written.foldl (Dir.exported place) dir with hnext
      obtain ⟨shots, dir', app', hloop, hdir', hshots⟩ :=
        @ih (fun d => D d ∨ d = next) next t.app (ht.mono fun _ => .inl) (.inr rfl)
      rw [hloop, ok_bind]
      refine ⟨_, _, _, rfl, hdir', fun pre shot post heq => ?_⟩
      obtain ⟨rfl, hfirst⟩ | ⟨pre, rfl, hlater⟩ := List.cons_eq_append_iff.1 heq
      · obtain ⟨rfl, -⟩ := List.cons.inj hfirst
        exact ⟨old, hshot, .inl hold⟩
      · obtain ⟨old', hshot', (hD | rfl) | ⟨earlier, hpre, rfl⟩⟩ := hshots pre shot post hlater
        · exact ⟨old', hshot', .inl hD⟩
        · exact ⟨_, hshot', .inr ⟨[(screen, t.written)], ⟨pre, rfl⟩, rfl⟩⟩
        · exact ⟨_, hshot', .inr ⟨(screen, t.written) :: earlier, List.cons_prefix_cons.2 ⟨rfl, hpre⟩, rfl⟩⟩

/-- A loop that starts with what one directory gave. -/
theorem AppOk.shows (h : AppOk (· = dir) decodeAll loaded app) (hfit : RangesFit loaded) (is : List Input) :
    ∃ shots dir' app', Bxdb.eventLoop place decodeAll dir app is = .ok (shots, dir', app') ∧
      dir' = afterShots place dir shots ∧ ShownOf place dir decodeAll loaded shots := by
  obtain ⟨shots, dir', app', hloop, hdir', hshots⟩ := h.eventLoop rfl hfit is
  refine ⟨shots, dir', app', hloop, hdir', fun pre shot post heq => ?_⟩
  obtain ⟨old, hshot, rfl | ⟨earlier, hpre, rfl⟩⟩ := hshots pre shot post heq
  · exact ⟨[], List.nil_prefix, hshot⟩
  · exact ⟨earlier, hpre, hshot⟩

theorem appOk_new (D : Dir → Prop) (decodeAll : Bytes → Except String Bytes) (mode : IndexMode) (records : List ChunkRecord)
    (maxSnap : UInt32) : AppOk D decodeAll records (App.new mode records (Stats.fromRecords records) maxSnap) := by
  have hrows : (App.new mode records (Stats.fromRecords records) maxSnap).rows = records := rows_unfiltered rfl rfl
  refine ⟨rfl, rfl, rfl, fun i hi => ?_, fun hnone => ?_, fun i d hd => (by cases hd),
    ⟨fun buf hb => (by cases hb), fun path hp => (by cases hp)⟩⟩
  · rw [hrows]
    change (if records.isEmpty then none else some 0) = some i at hi
    cases records with
    | nil => cases hi
    | cons r rs =>
      rw [← Option.some.inj hi]
      exact Nat.succ_pos _
  · rw [hrows]
    change (if records.isEmpty then none else some 0) = none at hnone
    cases records with
    | nil => rfl
    | cons r rs => cases hnone

/-- The state the command line's filters leave. -/
theorem appOk_start (D : Dir → Prop) (decodeAll : Bytes → Except String Bytes) (mode : IndexMode) (records : List ChunkRecord)
    (maxSnap : UInt32) (snap : Option UInt32) (pa : Option UInt64) :
    AppOk D decodeAll records (if snap.isSome || pa.isSome then
      (App.new mode records (Stats.fromRecords records) maxSnap).applyFilter snap pa
      else App.new mode records (Stats.fromRecords records) maxSnap) := by
  have hnew := appOk_new D decodeAll mode records maxSnap
  split
  · rename_i hset
    exact hnew.applyFilter rfl hset
  · exact hnew

end Ok

section Main

variable {dir : Dir} {decodeAll : Bytes → Except String Bytes} {mode : IndexMode} {records : List ChunkRecord}
  {maxSnap : UInt32}

theorem loadRecords_log {m : UInt32} (hidx : dir.idx = none) (hlog : dir.log = some (writeLogHeader m ++ encodeAll records))
    (hplain : ∀ r ∈ records, r.Plain) : loadRecords dir = .ok (.appendOnly, sortByKey recordKey records, m) := by
  unfold loadRecords
  rw [hidx, hlog]
  dsimp only
  rw [readLogHeader, ok_bind, scan_encode hplain, ok_bind]

/-- **Whatever is pressed and exported**, to whatever path, the inspector does not panic, each
screen highlights the selected record and shows its own blob, as a directory of some turn up to
then had it, and what a turn writes is on its screen. -/
theorem inspect_shows (place : List Char → Option DbFile) (hload : loadRecords dir = .ok (mode, records, maxSnap))
    (hfit : RangesFit records) (snap : Option UInt32) (pa : Option UInt64) (is : List Input) :
    ∃ shots dir' app, inspect place decodeAll dir snap pa is = .ok (shots, dir', app) ∧
      dir' = afterShots place dir shots ∧ ShownOf place dir decodeAll records shots := by
  obtain ⟨shots, dir', app, hloop, hdir', hshots⟩ :=
    (appOk_start (· = dir) decodeAll mode records maxSnap snap pa).shows hfit is
  refine ⟨shots, dir', app, ?_, hdir', hshots⟩
  unfold inspect
  rw [hload, ok_bind]
  exact hloop

end Main

/-! ## Keys pressed over three records -/

/-- A frame of one raw block of three bytes. -/
def smallFrame (d : Bytes) : Bytes := [0x28, 0xB5, 0x2F, 0xFD, 0x20, 0x03, 0x19, 0x00, 0x00] ++ d

/-- The library on such frames. -/
def decodeSmall (blob : Bytes) : Except String Bytes :=
  if blob = smallFrame (blob.drop 9) ∧ (blob.drop 9).length = 3 then .ok (blob.drop 9)
  else .error "Unknown frame descriptor"

/-- Two versions of one address and one of another. -/
def threeRecords : List ChunkRecord :=
  [newFull (encodeKey 7 3) 0 0 12, newDelta (encodeKey 7 4) 0 12 10 (encodeKey 7 3), newFull (encodeKey 9 4) 1 0 12]

/-- Their log, and their blobs in two worker files. -/
def threeDir : Dir where
  log := some (writeLogHeader 4 ++ encodeAll threeRecords)
  idx := none
  blobs w :=
    if w = 0 then some (smallFrame [1, 2, 3] ++ [5, 0, 9, 0, 0, 0, 0, 0, 0, 0])
    else if w = 1 then some (smallFrame [4, 5, 6])
    else none

theorem threeDir_records : loadRecords threeDir = .ok (.appendOnly, threeRecords, 4) := by
  have hlog : threeDir.log = some (writeLogHeader 4 ++ encodeAll threeRecords) := rfl
  have hplain : ∀ r ∈ threeRecords, r.Plain := by
    intro r hr
    simp only [threeRecords, List.mem_cons, List.not_mem_nil, or_false] at hr
    rcases hr with rfl | rfl | rfl
    · exact fun _ => rfl
    · exact fun h => absurd rfl h
    · exact fun _ => rfl
  rw [loadRecords_log rfl hlog hplain, sortByKey_of_pairwise recordKey (by decide)]

theorem threeDir_fits : RangesFit threeRecords := by
  unfold RangesFit
  decide

/-- A key, pressed in a window of ten rows. -/
def press (code : KeyCode) : Input := ⟨12, .key code ⟨false, false, false, false⟩ true, .ok⟩

/-- The path `b` leads to the blobs of worker 0. -/
def placeB (path : List Char) : Option DbFile := if path = ['b'] then some (.blob 0) else none

/-- `f`, `4` and Enter; one row down, `e`, `b` and Enter; back up. -/
def threeKeys : List Input :=
  [press (.char 'f'), press (.char '4'), press .enter, press .down, press (.char 'e'), press (.char 'b'), press .enter,
    press .up, press .other]

/-- Snapshot 4 is listed, and the page of its second record goes over the blobs of its first
one, whose patch is gone when it is selected again. -/
theorem inspect_shows_three : ∃ shots dir' app,
    inspect placeB decodeSmall threeDir none none threeKeys = .ok (shots, dir', app) ∧
    ShownOf placeB threeDir decodeSmall threeRecords shots ∧
    shots.flatMap Prod.snd = [⟨['b'], [4, 5, 6], true⟩] ∧ dir'.blobs 0 = some [4, 5, 6] ∧
    (shots.map fun shot => shot.1.detail.map Prod.snd).getLast? =
      some (some (.shown (.err "blob read failed: failed to fill whole buffer"))) := by
  obtain ⟨shots, dir', app, hrun, -, hshots⟩ := inspect_shows placeB threeDir_records threeDir_fits none none threeKeys
  refine ⟨shots, dir', app, hrun, hshots, ?_⟩
  unfold inspect at hrun
  rw [threeDir_records, ok_bind] at hrun
  have hfiles : (eventLoop placeB decodeSmall threeDir (App.new .appendOnly threeRecords (Stats.fromRecords threeRecords) 4)
      threeKeys).map (fun run => (run.1.flatMap Prod.snd, run.2.1.blobs 0,
        (run.1.map fun shot => shot.1.detail.map Prod.snd).getLast?)) =
      .ok ([⟨['b'], [4, 5, 6], true⟩], some [4, 5, 6],
        some (some (.shown (.err "blob read failed: failed to fill whole buffer")))) := rfl
  have hsame := congrArg (Except.map fun run : List Shot × Dir × App => (run.1.flatMap Prod.snd, run.2.1.blobs 0,
    (run.1.map fun shot => shot.1.detail.map Prod.snd).getLast?)) hrun
  obtain ⟨h₁, h₂⟩ := Prod.mk.inj (Except.ok.inj (hsame.symm.trans hfiles))
  exact ⟨h₁, Prod.mk.inj h₂⟩

end Bxdb
