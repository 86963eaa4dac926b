import Bxdb.Spec.Convert
import Bxdb.Lib.Numerals

/-!
# The inspector (`bxdb-inspect`)

A list of all records, one of them selected, with its decoded blob beside it. Keys move the
selection, filter the list by snapshot and address, and export a Full page to a file. Each
turn of the loop decodes the selected record, draws, and handles one event.

Strings are lists of characters; what is drawn is the records in view, not their text.
An export may overwrite a file of the database itself, which later turns then read.
-/

namespace Bxdb

open Bytes SortedIndex

/-! ## Loading -/

/-- The records in the order they are listed, with the header's snapshot id. -/
def loadRecords (dir : Dir) : Res (IndexMode × List ChunkRecord × UInt32) :=
  match dir.idx, dir.log with
  | some idx, _ => do
    let (maxSnap, body) ← readAndVerifyHeader idx magicIdx
    let records ← readEntries body
    .ok (.btree, records, maxSnap)
  | none, some log => do
    let (maxSnap, body) ← readAndVerifyHeader log magicLog
    let records ← ChunkRecord.scan body
    .ok (.appendOnly, sortByKey recordKey records, maxSnap)
  | none, none => ioErr .notFound "neither index.bxdb nor chunks.log found in db dir"

structure Stats where
  total : ℕ
  full : ℕ
  delta : ℕ
  zero : ℕ
  fullBytes : ℕ
  deltaBytes : ℕ

def Stats.count (s : Stats) (r : ChunkRecord) : Stats :=
  match r.kind with
  | .full => { s with full := s.full + 1, fullBytes := s.fullBytes + r.len.toNat }
  | .delta => { s with delta := s.delta + 1, deltaBytes := s.deltaBytes + r.len.toNat }
  | .zero => { s with zero := s.zero + 1 }

def Stats.fromRecords (records : List ChunkRecord) : Stats := records.foldl Stats.count ⟨records.length, 0, 0, 0, 0, 0⟩

/-! ## Files -/

/-- A file of a database. -/
inductive DbFile
  | log
  | idx
  | blob (worker : UInt8)
  deriving DecidableEq

/-- One file written over. -/
def Dir.put (dir : Dir) (content : Bytes) : DbFile → Dir
  | .log => { dir with log := some content }
  | .idx => { dir with idx := some content }
  | .blob w => { dir with blobs := Function.update dir.blobs w (some content) }

/-- What `fs::write` comes to. One that fails may have opened the file and written its first
`left` bytes. -/
inductive WriteResult
  | ok
  | error (msg : String) (left : Option ℕ)

/-- A file that was written, or begun. -/
structure Export where
  path : List Char
  content : Bytes
  complete : Bool

/-- The directory after an export; `place` tells which of its files a path leads to, if any. -/
def Dir.exported (place : List Char → Option DbFile) (dir : Dir) (e : Export) : Dir :=
  match place e.path with
  | some file => dir.put e.content file
  | none => dir

/-! ## The state -/

inductive Detail
  | full (decompressed : Bytes)
  | delta (patch : Patch)
  | zero
  | err (msg : String)
  deriving DecidableEq

/-- `selected` is that of `list_state`; `blobFiles w` tells whether the file of worker `w` has
been opened. -/
structure App where
  mode : IndexMode
  records : List ChunkRecord
  stats : Stats
  maxSnapshot : UInt32
  selected : Option ℕ
  blobFiles : UInt8 → Bool
  detailScroll : UInt16
  detail : Option (ℕ × Detail)
  filterSnapshot : Option UInt32
  filterPa : Option UInt64
  filteredIndices : Option (List ℕ)
  filterInput : Option (List Char)
  exportInput : Option (List Char)
  exportStatus : Option String

/-- `xs[i]`, which panics outside the list. -/
def indexed {α : Type} (xs : List α) (i : ℕ) : Res α :=
  match xs[i]? with
  | some x => .ok x
  | none => panics "index out of bounds"

def decodeDelta (blob : Bytes) : Except String Patch :=
  if blob.length % 10 ≠ 0 then .error s!"length {blob.length} not a multiple of 10"
  else .ok ((chunksExact 10 blob).map fun c => (fromLe16 (c.take 2), fromLe64 (slice c 2 10)))

namespace App

def new (mode : IndexMode) (records : List ChunkRecord) (stats : Stats) (maxSnapshot : UInt32) : App where
  mode := mode
  records := records
  stats := stats
  maxSnapshot := maxSnapshot
  selected := if records.isEmpty then none else some 0
  blobFiles := fun _ => false
  detailScroll := 0
  detail := none
  filterSnapshot := none
  filterPa := none
  filteredIndices := none
  filterInput := none
  exportInput := none
  exportStatus := none

variable (app : App)

def activeCount : ℕ :=
  match app.filteredIndices with
  | some f => f.length
  | none => app.records.length

def realIdx (activeIdx : ℕ) : Res ℕ :=
  match app.filteredIndices with
  | some f => indexed f activeIdx
  | none => .ok activeIdx

def recordAt (activeIdx : ℕ) : Res ChunkRecord := do
  let i ← app.realIdx activeIdx
  indexed app.records i

def moveBy (delta : ℤ) : App :=
  if app.activeCount = 0 then app
  else
    let cur : ℤ := app.selected.getD 0
    let last : ℤ := app.activeCount - 1
    { app with selected := some (max 0 (min (cur + delta) last)).toNat, detailScroll := 0 }

def goTo (i : ℕ) : App :=
  if app.activeCount = 0 then app
  else { app with selected := some (min i (app.activeCount - 1)), detailScroll := 0 }

/-! ## Filters -/

/-- What the filter keeps. -/
def keeps (snap : Option UInt32) (pa : Option UInt64) (r : ChunkRecord) : Bool :=
  (snap.all fun s => snapshotOf r.key == s) && (pa.all fun p => paOf r.key == p)

/-- Back to the first record of the list, if any. -/
def selectFirst : App :=
  { app with detail := none, selected := if 0 < app.activeCount then some 0 else none, detailScroll := 0 }

def applyFilter (snap : Option UInt32) (pa : Option UInt64) : App :=
  let indices := (app.records.zipIdx.filter fun e => keeps snap pa e.1).map Prod.snd
  selectFirst { app with filteredIndices := some indices, filterSnapshot := snap, filterPa := pa }

def clearFilter : App := selectFirst { app with filteredIndices := none, filterSnapshot := none, filterPa := none }

end App

/-- `char::is_whitespace`. -/
def isWhitespace (c : Char) : Bool :=
  let n := c.toNat
  (9 ≤ n && n ≤ 13) || n == 0x20 || n == 0x85 || n == 0xA0 || n == 0x1680 || (0x2000 ≤ n && n ≤ 0x200A) ||
    n == 0x2028 || n == 0x2029 || n == 0x202F || n == 0x205F || n == 0x3000

def splitWhitespace (s : List Char) : List (List Char) := (s.splitOnP isWhitespace).filter fun t => !t.isEmpty

def isAsciiDigit (c : Char) : Bool := '0' ≤ c && c ≤ '9'

def isAsciiHexdigit (c : Char) : Bool := isAsciiDigit c || ('a' ≤ c && c ≤ 'f') || ('A' ≤ c && c ≤ 'F')

/-- A token of the filter prompt: an address, a snapshot id, or nothing the filter knows.
Of several of a kind the last one counts. -/
def parseToken (found : Option UInt32 × Option UInt64) (token : List Char) : Option UInt32 × Option UInt64 :=
  if token.take 2 = ['0', 'x'] ∨ token.take 2 = ['0', 'X'] then
    match Numerals.parse 16 (2 ^ 64) (token.drop 2) with
    | some p => (found.1, some (UInt64.ofNat p))
    | none => found
  else if token.all isAsciiDigit then
    match Numerals.parse 10 (2 ^ 32) token with
    | some s => (some (UInt32.ofNat s), found.2)
    | none => found
  else found

def parseFilterInput (s : List Char) : Option UInt32 × Option UInt64 := (splitWhitespace s).foldl parseToken (none, none)

/-! ## The selected record -/

section Detail

variable (dir : Dir) (decodeAll : Bytes → Except String Bytes)

/-- `read_exact_at`: nothing is read when nothing is asked for. -/
def readExactAt (file : Bytes) (offset : UInt64) (len : UInt32) : Res Bytes :=
  if len = 0 then .ok []
  else if 2 ^ 63 ≤ offset.toNat then ioErr .invalidInput "Invalid argument (os error 22)"
  else match range? file offset.toNat (offset.toNat + len.toNat) with
    | some bs => .ok bs
    | none => eofErr

/-- An open file is read as it is by now: `fs::write` opens the same file again. -/
def App.readBlob (app : App) (workerId : UInt8) (offset : UInt64) (len : UInt32) : App × Res Bytes :=
  match dir.blobs workerId with
  | none => (app, ioErr .notFound "No such file or directory (os error 2)")
  | some file =>
    ({ app with blobFiles := Function.update app.blobFiles workerId true }, readExactAt file offset len)

/-- The text of an error; a panic has none. -/
def Failure.text : Failure → String
  | .err e => e.msg
  | .panic msg => msg

/-- What is made of a blob that was read, or not. -/
def detailOf (kind : ChunkKind) (blob : Res Bytes) : Detail :=
  match kind with
  | .zero => .zero
  | .full =>
    match blob with
    | .ok b =>
      match decodeAll b with
      | .ok d => .full d
      | .error e => .err s!"zstd decode failed: {e}"
    | .error e => .err s!"blob read failed: {e.text}"
  | .delta =>
    match blob with
    | .ok b =>
      match decodeDelta b with
      | .ok p => .delta p
      | .error e => .err s!"bad delta blob: {e}"
    | .error e => .err s!"blob read failed: {e.text}"

def App.ensureDetail (app : App) : Res App :=
  match app.selected with
  | none => .ok app
  | some i =>
    if app.detail.map Prod.fst = some i then .ok app
    else do
      let rec ← app.recordAt i
      if rec.kind = .zero then .ok { app with detail := some (i, .zero) }
      else
        let (app', blob) := app.readBlob dir rec.workerId rec.offset rec.len
        .ok { app' with detail := some (i, detailOf decodeAll rec.kind blob) }

end Detail

/-! ## Drawing -/

/-- What is beside a record: nothing for a Zero, else its detail, or a promise of one. -/
inductive Beside
  | noBlob
  | shown (d : Detail)
  | loading
  deriving DecidableEq

/-- The records in view with the row that is highlighted, and the record in detail. -/
structure Screen where
  rows : List ChunkRecord
  highlighted : Option ℕ
  detail : Option (ChunkRecord × Beside)

namespace App

variable (app : App)

/-- `height` is that of the list with its two borders. The selected row is kept in the
middle of the window. -/
def drawList (height : ℕ) : Res (List ChunkRecord × Option ℕ) :=
  let total := app.activeCount
  if total = 0 then .ok ([], none)
  else
    let visible := height - 2
    let sel := app.selected.getD 0
    let start := if sel < visible / 2 then 0 else min (sel - visible / 2) (total - visible)
    let stop := min (start + visible) total
    do
      let rows ← ((List.range (stop - start)).map (start + ·)).mapM app.recordAt
      if sel < start then panics "attempt to subtract with overflow" else .ok (rows, some (sel - start))

/-- The detail is shown when it is that of the row, and of the record's kind or an error. -/
def beside (i : ℕ) (kind : ChunkKind) : Beside :=
  match kind, app.detail with
  | .zero, _ => .noBlob
  | .full, some (idx, .full d) => if idx = i then .shown (.full d) else .loading
  | .full, some (idx, .err m) => if idx = i then .shown (.err m) else .loading
  | .delta, some (idx, .delta p) => if idx = i then .shown (.delta p) else .loading
  | .delta, some (idx, .err m) => if idx = i then .shown (.err m) else .loading
  | _, _ => .loading

def drawDetail : Res (Option (ChunkRecord × Beside)) :=
  match app.selected with
  | none => .ok none
  | some i => do
    let rec ← app.recordAt i
    -- the end of the blob range
    if rec.kind ≠ .zero ∧ 2 ^ 64 ≤ rec.offset.toNat + rec.len.toNat then panics "attempt to add with overflow"
    else .ok (some (rec, app.beside i rec.kind))

def draw (height : ℕ) : Res Screen := do
  let (rows, highlighted) ← app.drawList height
  let detail ← app.drawDetail
  .ok ⟨rows, highlighted, detail⟩

end App

/-! ## Events -/

structure KeyModifiers where
  shift : Bool
  control : Bool
  alt : Bool
  other : Bool
  deriving DecidableEq

/-- `KeyModifiers::CONTROL`, alone. -/
def KeyModifiers.onlyControl : KeyModifiers := ⟨false, true, false, false⟩

inductive KeyCode
  | char (c : Char)
  | enter
  | esc
  | backspace
  | up
  | down
  | pageUp
  | pageDown
  | home
  | «end»
  | other
  deriving DecidableEq

/-- A key event, and whether it is a press. -/
inductive TermEvent
  | key (code : KeyCode) (modifiers : KeyModifiers) (press : Bool)
  | other

/-- How a turn ends. -/
structure Turn where
  app : App
  written : List Export
  quit : Bool

/-- `str::len`. -/
def byteLen (s : List Char) : ℕ := (s.map fun c => c.utf8Size).sum

/-- `char::is_control`. -/
def isControl (c : Char) : Bool := c.toNat < 0x20 || (0x7F ≤ c.toNat && c.toNat < 0xA0)

namespace App

variable (app : App)

def exportDetail (path : List Char) (saved : WriteResult) : App × List Export :=
  match app.detail with
  | some (_, .full d) =>
    match saved with
    | .ok => ({ app with exportStatus := some s!"Exported {d.length} bytes to {String.ofList path}" }, [⟨path, d, true⟩])
    | .error e left =>
      ({ app with exportStatus := some s!"Export error: {e}" }, (left.map fun n => ⟨path, d.take n, false⟩).toList)
  | _ => ({ app with exportStatus := some "Nothing to export (select a Full chunk)" }, [])

def onFilterInput (buf : List Char) : KeyCode → App
  | .esc => { app with filterInput := none }
  | .enter =>
    let app := { app with filterInput := none }
    if buf = [] then app.clearFilter
    else
      let (snap, pa) := parseFilterInput buf
      if snap.isSome || pa.isSome then app.applyFilter snap pa else app
  | .backspace => { app with filterInput := some buf.dropLast }
  | .char c =>
    if isAsciiHexdigit c || c == 'x' || c == 'X' || c == ' ' then
      if byteLen buf < 40 then { app with filterInput := some (buf ++ [c]) } else app
    else app
  | _ => app

def onExportInput (path : List Char) (saved : WriteResult) : KeyCode → App × List Export
  | .esc => ({ app with exportInput := none }, [])
  | .enter =>
    let app := { app with exportInput := none }
    if path = [] then (app, []) else app.exportDetail path saved
  | .backspace => ({ app with exportInput := some path.dropLast }, [])
  | .char c =>
    if isControl c then (app, [])
    else if byteLen path < 255 then ({ app with exportInput := some (path ++ [c]) }, []) else (app, [])
  | _ => (app, [])

def onKeyF : App :=
  if app.filterSnapshot.isSome || app.filterPa.isSome then app.clearFilter else { app with filterInput := some [] }

def onKeyE : Res App :=
  match app.selected with
  | none => .ok app
  | some i => do
    let rec ← app.recordAt i
    .ok (if rec.kind = .full then { app with exportInput := some [] } else app)

/-- `saturating_sub` and `saturating_add`. -/
def scrollUp (n : UInt16) : App := { app with detailScroll := app.detailScroll - min n app.detailScroll }

def scrollDown (n : UInt16) : App :=
  { app with detailScroll := app.detailScroll + min n (UInt16.ofNat 65535 - app.detailScroll) }

/-- A key outside of the prompts, after those that quit. -/
def onKey (code : KeyCode) (m : KeyModifiers) : Res App :=
  match code with
  | .char 'f' => .ok app.onKeyF
  | .char 'e' => app.onKeyE
  | .up => .ok (app.moveBy (-1))
  | .down => .ok (app.moveBy 1)
  | .char 'k' => .ok (if m.shift then app else app.moveBy (-1))
  | .char 'j' => .ok (if m.shift then app else app.moveBy 1)
  | .pageUp => .ok (app.moveBy (-10))
  | .pageDown => .ok (app.moveBy 10)
  | .home => .ok (app.goTo 0)
  | .char 'g' => .ok (app.goTo 0)
  | .end => .ok (app.goTo (2 ^ 64 - 1))
  | .char 'G' => .ok (app.goTo (2 ^ 64 - 1))
  | .char 'K' => .ok (app.scrollUp 1)
  | .char 'J' => .ok (app.scrollDown 1)
  | .char 'u' => .ok (if m = .onlyControl then app.scrollUp 10 else app)
  | .char 'd' => .ok (if m = .onlyControl then app.scrollDown 10 else app)
  | _ => .ok app

/-- Whether a key quits. -/
def quits (code : KeyCode) (m : KeyModifiers) : Bool :=
  match code with
  | .char 'q' => true
  | .esc => true
  | .char 'c' => m == .onlyControl
  | _ => false

def handle (ev : TermEvent) (saved : WriteResult) : Res Turn :=
  match ev with
  | .other => .ok ⟨app, [], false⟩
  | .key _ _ false => .ok ⟨app, [], false⟩
  | .key code m true =>
    match app.filterInput with
    | some buf => .ok ⟨app.onFilterInput buf code, [], false⟩
    | none =>
      match app.exportInput with
      | some path =>
        let (app, written) := app.onExportInput path saved code
        .ok ⟨app, written, false⟩
      | none =>
        let app := { app with exportStatus := none }
        if quits code m then .ok ⟨app, [], true⟩
        else do
          let app ← app.onKey code m
          .ok ⟨app, [], false⟩

end App

/-! ## The loop -/

section Loop

variable (place : List Char → Option DbFile) (decodeAll : Bytes → Except String Bytes)

/-- The list's height when a turn is drawn, the event it reads, and what writing a file
would come to. -/
structure Input where
  height : ℕ
  event : TermEvent
  saved : WriteResult

/-- One turn of the loop, with the screen it drew. -/
def App.turn (dir : Dir) (app : App) (i : Input) : Res (Screen × Turn) := do
  let app ← app.ensureDetail dir decodeAll
  let screen ← app.draw i.height
  let turn ← app.handle i.event i.saved
  .ok (screen, turn)

/-- What one turn drew, and the files it wrote. -/
abbrev Shot := Screen × List Export

/-- The loop over some input, and the directory it leaves. -/
def eventLoop (dir : Dir) (app : App) : List Input → Res (List Shot × Dir × App)
  | [] => .ok ([], dir, app)
  | i :: is => do
    let (screen, t) ← app.turn decodeAll dir i
    let dir := t.written.foldl (Dir.exported place) dir
    if t.quit then .ok ([(screen, t.written)], dir, t.app)
    else
      let (shots, dir, app) ← eventLoop dir t.app is
      .ok ((screen, t.written) :: shots, dir, app)

/-- `main`, with the filters of its command line. -/
def inspect (dir : Dir) (cliSnapshot : Option UInt32) (cliPa : Option UInt64) (is : List Input) :
    Res (List Shot × Dir × App) := do
  let (mode, records, maxSnap) ← loadRecords dir
  let app := App.new mode records (Stats.fromRecords records) maxSnap
  let app := if cliSnapshot.isSome || cliPa.isSome then app.applyFilter cliSnapshot cliPa else app
  eventLoop place decodeAll dir app is

end Loop

end Bxdb
