import Bxdb.Proof.CheckSound
import Bxdb.Proof.RawChain
import Bxdb.Proof.RoundTrip

/-!
# What a truncated export promises

An export that stops at a record it cannot resolve has flushed the snapshots below that
record's, and writes the id below it into `raw-meta`, or 0 when there is none below.

* `StopsAt.run`: the files of such a run, and the id it writes.
* `truncated_complete`: **the snapshots up to that id are complete just when the record is
  of a snapshot above 0**, in a log with distinct keys and a directory without files of
  these snapshots.
* `truncated_noise`: a stop in snapshot 0.
-/

namespace Bxdb

open Bytes SortedIndex Versioned ChunkRecord

/-- The order in which `convert-to-raw` expects the records. -/
def LogOrder (a b : ChunkRecord) : Prop :=
  snapshotOf a.key < snapshotOf b.key ∨ snapshotOf a.key = snapshotOf b.key ∧ paOf a.key ≤ paOf b.key

/-- **A log in order** that an export resolves up to `rec`, and not further. -/
structure StopsAt (z : Zstd) (dir : Dir) (memorySize : UInt64) (store : PageStore) (pre : List ChunkRecord)
    (rec : ChunkRecord) (post : List ChunkRecord) : Prop where
  positive : 0 < memorySize
  aligned : memorySize.toNat % pageSize = 0
  opened : PageStore.open dir = .ok store
  log : ∃ log, dir.log = some log ∧ headerSize ≤ log.length ∧ slice log 0 8 = magicLog ∧
    scan (log.drop headerSize) = .ok (pre ++ rec :: post)
  ordered : (pre ++ rec :: post).Pairwise LogOrder
  inside : ∀ r ∈ pre ++ rec :: post, (paOf r.key).toNat < memorySize.toNat / pageSize
  resolved : ∀ r ∈ pre, ∃ page, chunkPage z store r = .ok page
  damaged : ∃ e, chunkPage z store rec = .error (.err e)
  -- otherwise the warning about the record panics
  printed : rec.kind = .full → rec.offset.toNat + rec.len.toNat < 2 ^ 64

/-- Of two records with one key, the walk leaves the page of the later one. -/
def LastOf (records : List ChunkRecord) (rec : ChunkRecord) : Prop := FirstOf records.reverse rec

/-- Up to this snapshot the chain looks up what a floor query over the log finds. -/
def Complete (z : Zstd) (store : PageStore) (records : List ChunkRecord) (chain : Chain) (upTo : UInt32) : Prop :=
  ∀ pa s, s ≤ upTo → ∃ r, floorPage z store records pa s = .ok r ∧
    chain.lookup pa s.toNat = (r.getD Page.zero).bytes

variable {z : Zstd} {dir : Dir} {memorySize : UInt64} {store : PageStore} {pre post records : List ChunkRecord}
  {rec r : ChunkRecord}

/-! ## The run -/

/-- A record with its page, if it resolves. -/
def versionOf (z : Zstd) (store : PageStore) (r : ChunkRecord) : Version :=
  ⟨r, (chunkPage z store r).toOption.getD Page.zero⟩

theorem versionOf_page {page : Page} (h : chunkPage z store r = .ok page) : (versionOf z store r).page = page := by
  unfold versionOf
  rw [h]
  rfl

/-- The versions exported: of each key the last. -/
def exported (z : Zstd) (store : PageStore) (pre : List ChunkRecord) : List Version :=
  (pre.map (versionOf z store)).foldl latest []

theorem mem_exported {v : Version} : v ∈ exported z store pre ↔ ∃ r, LastOf pre r ∧ versionOf z store r = v := by
  unfold exported LastOf FirstOf
  have hkey : ∀ v : Version, ((fun u : Version => decide (recordKey u.chunk = recordKey v.chunk)) ∘ versionOf z store) =
      fun r => r.key == v.chunk.key := by
    intro v
    funext r
    rw [beq_eq_decide]
    exact decide_eq_decide.2 UInt64.toNat_inj
  rw [mem_foldl_supersede, ← List.map_reverse, List.find?_map, hkey, Option.map_eq_some_iff]
  constructor
  · rintro ⟨r, hr, rfl⟩
    exact ⟨r, hr, rfl⟩
  · rintro ⟨r, hr, rfl⟩
    exact ⟨r, hr, rfl⟩

theorem LogOrder.inOrder {a b : ChunkRecord} (h : LogOrder a b) : InOrder (versionOf z store a) (versionOf z store b) := by
  rcases h with h | ⟨h, hpa⟩
  · exact .inl (UInt32.lt_iff_toNat_lt.1 h)
  · exact .inr ⟨congrArg UInt32.toNat h, hpa⟩

theorem chunks_versionOf (pre : List ChunkRecord) : chunks (pre.map (versionOf z store)) = pre := by
  have hmap : chunks (pre.map (versionOf z store)) = pre.map fun r => (versionOf z store r).chunk := List.map_map
  rw [hmap]
  exact List.map_id pre

/-- The records before the stop, with their pages. -/
theorem StopsAt.versions (h : StopsAt z dir memorySize store pre rec post) :
    ∀ v ∈ pre.map (versionOf z store), v.chunk ∈ pre ∧ chunkPage z store v.chunk = .ok v.page := by
  intro v hv
  obtain ⟨r, hr, rfl⟩ := List.mem_map.1 hv
  obtain ⟨page, hpage⟩ := h.resolved r hr
  rw [versionOf_page hpage]
  exact ⟨hr, hpage⟩

/-- The walk does not meet a record out of order before the stop. -/
theorem StopsAt.inOrder (h : StopsAt z dir memorySize store pre rec post) :
    (pre.map (versionOf z store) ++ [versionOf z store rec]).Pairwise InOrder := by
  have hsub : pre ++ [rec] <+: pre ++ rec :: post := ⟨post, by rw [List.append_assoc, List.singleton_append]⟩
  have hmap : pre.map (versionOf z store) ++ [versionOf z store rec] = (pre ++ [rec]).map (versionOf z store) := by
    rw [List.map_append, List.map_singleton]
  rw [hmap, List.pairwise_map]
  exact (h.ordered.sublist hsub.sublist).imp LogOrder.inOrder

/-- **The files of a run that stops**, and the id it writes. -/
theorem StopsAt.run (h : StopsAt z dir memorySize store pre rec post) : ∃ out,
    convertToRaw z dir Chain.empty memorySize = .ok out ∧ out.truncated = true ∧
    out.rawMeta = rawMetaText (snapshotOf rec.key - min (snapshotOf rec.key) 1) ∧
    Layered out.chain.layer Page.zero.bytes fun pa t bytes =>
      bytesOf (exported z store pre) pa t bytes ∧ t < (snapshotOf rec.key).toNat := by
  obtain ⟨log, hl, hheader, hmagic, hscan⟩ := h.log
  obtain ⟨left, hscanned⟩ := scan_iff.1 hscan
  obtain ⟨hbytes, -, hplain⟩ := hscanned.exact
  obtain ⟨e, hdamaged⟩ := h.damaged
  have hvmem := h.versions
  have hordered := h.inOrder
  have hchunks : chunks (pre.map (versionOf z store)) = pre := chunks_versionOf pre
  set vs := pre.map (versionOf z store) with hvs
  have hbody : log.drop headerSize = encodeAll (chunks vs) ++ (rec.writeTo ++ (encodeAll post ++ left)) := by
    rw [hbytes, encodeAll_append, encodeAll_cons, hchunks, List.append_assoc, List.append_assoc]
  have hn : memorySize.toNat / pageSize * pageSize < 2 ^ 64 := by
    have hlt := memorySize.toNat_lt
    have hle := Nat.div_mul_le_self memorySize.toNat pageSize
    omega
  have hsize : memorySize.toNat / pageSize * pageSize = memorySize.toNat :=
    Nat.div_mul_cancel (Nat.dvd_of_mod_eq_zero h.aligned)
  have hstart := exported_start (memorySize.toNat / pageSize)
  rw [hsize] at hstart
  have hfuel : ∃ fuel, log.length + 1 = vs.length + (fuel + 1) := by
    have hle := length_le_encodeAll pre
    have hlen := congrArg List.length hbytes
    rw [List.length_drop, encodeAll_append, List.length_append, List.length_append] at hlen
    refine ⟨log.length - vs.length, ?_⟩
    rw [hvs, List.length_map]
    omega
  obtain ⟨fuel, hfuel⟩ := hfuel
  -- the walk comes to the damaged record
  obtain ⟨st, hwalk, hst, hbehind, -⟩ := Exported.walk hn (rec.writeTo ++ (encodeAll post ++ left)) (fuel + 1)
    (fun v hv => (hvmem v hv).2) (fun v hv => hplain _ (List.mem_append_left _ (hvmem v hv).1))
    (fun v hv => h.inside _ (List.mem_append_left _ (hvmem v hv).1)) hstart hordered
    (fun v _ => ahead_start memorySize v)
  have hrec : rec ∈ pre ++ rec :: post := List.mem_append_right _ List.mem_cons_self
  obtain ⟨st', hst', hcur, -, hconvert⟩ := @Exported.reach z store _ _ (versionOf z store rec) st hst hn
    (hbehind _ List.mem_cons_self) (h.inside rec hrec)
  have hstop : chunkPage z store (versionOf z store rec).chunk = .error (.err e) := hdamaged
  have hprinted : ¬ ((versionOf z store rec).chunk.kind = .full ∧
      2 ^ 64 ≤ (versionOf z store rec).chunk.offset.toNat + (versionOf z store rec).chunk.len.toNat) :=
    fun hc => Nat.not_lt.2 hc.2 (h.printed hc.1)
  rw [hstop] at hconvert
  dsimp only at hconvert
  rw [if_neg hprinted] at hconvert
  have hread : readFrom (rec.writeTo ++ (encodeAll post ++ left)) = .ok (some (rec, encodeAll post ++ left)) :=
    readFrom_writeTo (hplain rec hrec) _
  have hsame : st'.currentSnapId = snapshotOf rec.key := UInt32.toNat_inj.1 hcur
  refine ⟨⟨st'.chain, rawMetaText (st'.currentSnapId - min st'.currentSnapId 1), true⟩, ?_, rfl, by rw [hsame], ?_⟩
  · rw [convertToRaw_of_open h.positive h.aligned h.opened hl hheader hmagic, hbody, hfuel, hwalk,
      convertLoop_record hread]
    change ((convertRecord z store st (versionOf z store rec).chunk >>= _) >>= _) = _
    rw [hconvert]
    rfl
  · have hfiles := hst'.files
    rw [hsame] at hfiles
    exact hfiles

/-! ## Looking a page up below the stop -/

theorem StopsAt.snapshot_ge (h : StopsAt z dir memorySize store pre rec post) (hr : r ∈ rec :: post) :
    snapshotOf rec.key ≤ snapshotOf r.key := by
  rcases List.mem_cons.1 hr with rfl | hr
  · exact UInt32.le_refl _
  · have hbehind := (List.pairwise_cons.1 (List.pairwise_append.1 h.ordered).2.1).1 r hr
    rcases hbehind with hlt | ⟨heq, -⟩
    · exact UInt32.le_of_lt hlt
    · rw [heq]
      exact UInt32.le_refl _

/-- Below the stop, the last records of the log are the last ones before it. -/
theorem StopsAt.lastOf_iff (h : StopsAt z dir memorySize store pre rec post)
    (hlow : snapshotOf r.key < snapshotOf rec.key) : LastOf (pre ++ rec :: post) r ↔ LastOf pre r := by
  have hnone : (rec :: post).reverse.find? (fun b => b.key == r.key) = none := by
    rw [List.find?_eq_none]
    intro b hb hkey
    have hge := h.snapshot_ge (List.mem_reverse.1 hb)
    rw [beq_iff_eq.1 hkey] at hge
    exact UInt32.not_lt.2 hge hlow
  unfold LastOf FirstOf
  rw [List.reverse_append, List.find?_append, hnone, Option.none_or]

theorem exists_firstOf (hr : r ∈ records) : ∃ f, FirstOf records f ∧ f.key = r.key := by
  obtain ⟨f, hf⟩ : ∃ f, records.find? (fun b => b.key == r.key) = some f := by
    rw [← Option.isSome_iff_exists, List.find?_isSome]
    exact ⟨r, hr, beq_self_eq_true _⟩
  have hkey : f.key = r.key := by simpa using List.find?_some hf
  refine ⟨f, ?_, hkey⟩
  unfold FirstOf
  rw [hkey]
  exact hf

theorem exists_lastOf (hr : r ∈ records) : ∃ l, LastOf records l ∧ l.key = r.key :=
  exists_firstOf (List.mem_reverse.2 hr)

theorem LastOf.mem (h : LastOf records r) : r ∈ records := List.mem_reverse.1 (FirstOf.mem h)

variable {chain : Chain} {pa : UInt64} {s : UInt32}

/-- **Without an index** the floor query over the log is what a load returns. -/
theorem StopsAt.loadPage (h : StopsAt z dir memorySize store pre rec post) (hidx : dir.idx = none) (pa : UInt64)
    (hs : s ≤ maxSnapshotId) : loadPage z dir pa s = floorPage z store (pre ++ rec :: post) pa s := by
  obtain ⟨log, hl, -, -, hscan⟩ := h.log
  have hopen := h.opened
  unfold PageStore.open at hopen
  rw [hidx, hl] at hopen
  obtain ⟨_, hheader, hok⟩ := bind_eq_ok.1 hopen
  obtain rfl := Except.ok.inj hok
  unfold verifyLogHeader at hheader
  obtain ⟨⟨m, body⟩, hread, -⟩ := bind_eq_ok.1 hheader
  obtain rfl := readAndVerifyHeader_body hread
  have hbuild := lazyIndex_scan hread hscan
  refine loadPage_eq_floorPage h.opened (fun pa s => ?_) pa hs
  unfold PageStore.floor
  dsimp only
  rw [hbuild, ok_bind]

/-- The layers of a chain that stops at `rec`. -/
abbrev LayersBelow (z : Zstd) (store : PageStore) (pre : List ChunkRecord) (rec : ChunkRecord) (chain : Chain) : Prop :=
  Layered chain.layer Page.zero.bytes fun pa t bytes =>
    bytesOf (exported z store pre) pa t bytes ∧ t < (snapshotOf rec.key).toNat

theorem exported_iff {t : ℕ} {bytes : Bytes} : bytesOf (exported z store pre) pa t bytes ↔ ∃ r, LastOf pre r ∧
    paOf r.key = pa ∧ (snapshotOf r.key).toNat = t ∧ (versionOf z store r).page.bytes = bytes := by
  rw [bytesOf_iff]
  constructor
  · rintro ⟨v, hv, hpa, ht, hbytes⟩
    obtain ⟨r, hr, rfl⟩ := mem_exported.1 hv
    exact ⟨r, hr, hpa, ht, hbytes⟩
  · rintro ⟨r, hr, hpa, ht, hbytes⟩
    exact ⟨_, mem_exported.2 ⟨r, hr, rfl⟩, hpa, ht, hbytes⟩

/-- What was exported for an address has a first record in the log. -/
theorem exported_first (behind : List ChunkRecord) {t : ℕ} {bytes : Bytes}
    (hw : bytesOf (exported z store pre) pa t bytes) : ∃ f, recordsOf (index recordKey (pre ++ behind)) pa t f := by
  obtain ⟨r, hr, rfl, rfl, -⟩ := exported_iff.1 hw
  obtain ⟨f, hf, hkey⟩ := exists_firstOf (List.mem_append_left behind hr.mem)
  refine ⟨f, mem_index_firstOf.2 hf, ?_, ?_⟩
  · rw [hkey]
  · rw [hkey]

/-- **No record**, and the chain has zeros. -/
theorem LayersBelow.lookup_none (hlayers : LayersBelow z store pre rec chain) (hs : s ≤ maxSnapshotId)
    (hfloor : floorSorted (index recordKey (pre ++ rec :: post)) (encodeKey pa s) pa = none) :
    chain.lookup pa s.toNat = Page.zero.bytes := by
  have hasOf := floorSorted_asOf (index_strict recordKey (pre ++ rec :: post)) pa hs
  rw [hfloor] at hasOf
  refine lookback_getD hlayers (asOf_none.2 ?_)
  rintro t bytes ⟨hw, -⟩
  obtain ⟨f, hf⟩ := exported_first (rec :: post) hw
  exact asOf_none.1 hasOf t f hf

/-- **The record found**, and the chain has the page of the last one with its key. -/
theorem StopsAt.lookup_some (h : StopsAt z dir memorySize store pre rec post) (hlayers : LayersBelow z store pre rec chain)
    (hlow : s < snapshotOf rec.key) {f l : ChunkRecord}
    (hfloor : floorSorted (index recordKey (pre ++ rec :: post)) (encodeKey pa s) pa = some f)
    (hlast : LastOf (pre ++ rec :: post) l) (hkey : l.key = f.key) :
    ∃ page, chunkPage z store l = .ok page ∧ chain.lookup pa s.toNat = page.bytes := by
  have hlow' := UInt32.lt_iff_toNat_lt.1 hlow
  have hs : s ≤ maxSnapshotId := UInt32.le_trans (UInt32.le_of_lt hlow) (snapshotOf_le rec.key)
  have hasOf := floorSorted_asOf (index_strict recordKey (pre ++ rec :: post)) pa hs
  rw [hfloor] at hasOf
  obtain ⟨t, ⟨-, hpa, ht⟩, hle, hmax⟩ := asOf_some.1 hasOf
  rw [← hkey] at hpa ht
  have hbelow : snapshotOf l.key < snapshotOf rec.key := by
    rw [UInt32.lt_iff_toNat_lt]
    omega
  have hpre := (h.lastOf_iff hbelow).1 hlast
  obtain ⟨page, hpage⟩ := h.resolved l hpre.mem
  refine ⟨page, hpage, ?_⟩
  have hwrite : bytesOf (exported z store pre) pa t page.bytes := by
    refine exported_iff.2 ⟨l, hpre, hpa, ht, ?_⟩
    rw [versionOf_page hpage]
  have hlatest : AsOf (fun pa t bytes => bytesOf (exported z store pre) pa t bytes ∧ t < (snapshotOf rec.key).toNat)
      pa s.toNat (some page.bytes) := by
    refine asOf_some.2 ⟨t, ⟨hwrite, by omega⟩, hle, ?_⟩
    rintro t' bytes ⟨hw, -⟩ ht'
    obtain ⟨f', hf'⟩ := exported_first (rec :: post) hw
    exact hmax t' f' hf' ht'
  exact lookback_getD hlayers hlatest

/-! ## Complete, or not -/

/-- Below `s`, the first and the last record of a key have one page. -/
def KeysAgree (z : Zstd) (store : PageStore) (records : List ChunkRecord) (s : UInt32) : Prop :=
  ∀ f l, FirstOf records f → LastOf records l → l.key = f.key → snapshotOf f.key < s →
    chunkPage z store f = chunkPage z store l

/-- Every page of snapshot 0 is zero. -/
def StartsBlank (z : Zstd) (store : PageStore) (records : List ChunkRecord) : Prop :=
  ∀ f, FirstOf records f → snapshotOf f.key = 0 → chunkPage z store f = .ok Page.zero

/-- A floor query that finds a record. -/
theorem floorPage_some {f : ChunkRecord} {page : Page}
    (hfloor : floorSorted (index recordKey records) (encodeKey pa s) pa = some f) (h : chunkPage z store f = .ok page) :
    floorPage z store records pa s = .ok (some page) := by
  unfold floorPage
  rw [hfloor]
  dsimp only
  rw [chunkPage_iff.1 h, ok_bind]

/-- At its own key, the first record is found. -/
theorem Complete.own {upTo : UInt32} (h : Complete z store records chain upTo) {f : ChunkRecord} (hf : FirstOf records f)
    (hle : snapshotOf f.key ≤ upTo) : ∃ page, chunkPage z store f = .ok page ∧
      floorSorted (index recordKey records) (encodeKey (paOf f.key) (snapshotOf f.key)) (paOf f.key) = some f ∧
      chain.lookup (paOf f.key) (snapshotOf f.key).toNat = page.bytes := by
  have hfloor := floorSorted_own (mem_index_firstOf.2 hf)
  obtain ⟨r, hr, hlookup⟩ := h (paOf f.key) (snapshotOf f.key) hle
  unfold floorPage at hr
  rw [hfloor] at hr
  obtain ⟨page, hpage, heq⟩ := bind_eq_ok.1 hr
  obtain rfl := Except.ok.inj heq
  exact ⟨page, chunkPage_iff.2 hpage, hfloor, hlookup⟩

/-- **A stop above snapshot 0.** -/
theorem StopsAt.complete_above (h : StopsAt z dir memorySize store pre rec post) (hlayers : LayersBelow z store pre rec chain)
    {upTo : UInt32} (hup : upTo.toNat + 1 = (snapshotOf rec.key).toNat) :
    Complete z store (pre ++ rec :: post) chain upTo ↔ KeysAgree z store (pre ++ rec :: post) (snapshotOf rec.key) := by
  constructor
  · intro hcomplete f l hf hl hkey hlow
    have hlow' := UInt32.lt_iff_toNat_lt.1 hlow
    obtain ⟨page, hpage, hfloor, hlookup⟩ := hcomplete.own hf (UInt32.le_iff_toNat_le.2 (by omega))
    obtain ⟨page', hpage', hlookup'⟩ := h.lookup_some hlayers hlow hfloor hl hkey
    rw [hpage, hpage', page_eq_of_bytes (hlookup.symm.trans hlookup')]
  · intro hagree pa s hs
    have hs' := UInt32.le_iff_toNat_le.1 hs
    have hlow : s < snapshotOf rec.key := UInt32.lt_iff_toNat_lt.2 (by omega)
    have hmax : s ≤ maxSnapshotId := UInt32.le_trans (UInt32.le_of_lt hlow) (snapshotOf_le rec.key)
    have hasOf := floorSorted_asOf (index_strict recordKey (pre ++ rec :: post)) pa hmax
    cases hfloor : floorSorted (index recordKey (pre ++ rec :: post)) (encodeKey pa s) pa with
    | none =>
      refine ⟨none, ?_, hlayers.lookup_none hmax hfloor⟩
      unfold floorPage
      rw [hfloor]
    | some f =>
      rw [hfloor] at hasOf
      obtain ⟨t, ⟨hmem, -, rfl⟩, hle, -⟩ := asOf_some.1 hasOf
      have hf := mem_index_firstOf.1 hmem
      obtain ⟨l, hl, hkey⟩ := exists_lastOf hf.mem
      obtain ⟨page, hpage, hlookup⟩ := h.lookup_some hlayers hlow hfloor hl hkey
      have hlowf : snapshotOf f.key < snapshotOf rec.key := UInt32.lt_iff_toNat_lt.2 (by omega)
      rw [← hagree f l hf hl hkey hlowf] at hpage
      exact ⟨some page, floorPage_some hfloor hpage, hlookup⟩

/-- **A stop in snapshot 0**: nothing was flushed. -/
theorem complete_zero (hlayers : LayersBelow z store pre rec chain) (hzero : snapshotOf rec.key = 0) :
    Complete z store records chain 0 ↔ StartsBlank z store records := by
  have hlookup : ∀ pa, chain.lookup pa 0 = Page.zero.bytes := by
    intro pa
    refine lookback_getD hlayers (asOf_none.2 ?_)
    rintro t bytes ⟨-, hlt⟩
    rw [hzero] at hlt
    exact absurd hlt (Nat.not_lt_zero t)
  constructor
  · intro hcomplete f hf h0
    obtain ⟨page, hpage, -, hpages⟩ := hcomplete.own hf (by rw [h0]; exact UInt32.le_refl _)
    rw [h0] at hpages
    rw [hpage, page_eq_of_bytes (hpages.symm.trans (hlookup _))]
  · intro hblank pa s hs
    obtain rfl : s = 0 := UInt32.le_zero_iff.1 hs
    have hasOf := floorSorted_asOf (index_strict recordKey records) pa UInt32.zero_le
    cases hfloor : floorSorted (index recordKey records) (encodeKey pa 0) pa with
    | none =>
      refine ⟨none, ?_, hlookup pa⟩
      unfold floorPage
      rw [hfloor]
    | some f =>
      rw [hfloor] at hasOf
      obtain ⟨t, ⟨hmem, -, rfl⟩, hle, -⟩ := asOf_some.1 hasOf
      have h0 : snapshotOf f.key = 0 := UInt32.toNat_inj.1 (Nat.le_zero.1 hle)
      exact ⟨some Page.zero, floorPage_some hfloor (hblank f (mem_index_firstOf.1 hmem) h0), hlookup pa⟩

theorem keysAgree_of_nodup (hkeys : (records.map (·.key)).Nodup) {s : UInt32} : KeysAgree z store records s := by
  intro f l hf hl hkey _
  rw [List.inj_on_of_nodup_map hkeys hf.mem hl.mem hkey.symm]

/-- With distinct keys every record is the first of its key. -/
theorem firstOf_of_nodup (hkeys : (records.map (·.key)).Nodup) (hr : r ∈ records) : FirstOf records r := by
  obtain ⟨f, hf, hkey⟩ := exists_firstOf hr
  rwa [List.inj_on_of_nodup_map hkeys hf.mem hr hkey] at hf

/-- Above 0 the id written is the one below the stop. -/
theorem toNat_sub_min {s : UInt32} (hpos : 0 < s.toNat) : (s - min s 1).toNat + 1 = s.toNat := by
  have hone : (1 : UInt32).toNat = 1 := rfl
  have hle : 1 ≤ s := UInt32.le_iff_toNat_le.2 (by omega)
  have hmin : min s 1 = 1 := by
    show (if s ≤ 1 then s else 1) = 1
    split
    · rename_i hle'
      exact UInt32.le_antisymm hle' hle
    · rfl
  rw [hmin, UInt32.toNat_sub_of_le _ _ hle]
  omega

theorem toNat_advertised (s : UInt32) : (s - min s 1).toNat = s.toNat - 1 := by
  rcases Nat.eq_zero_or_pos s.toNat with h0 | hpos
  · obtain rfl : s = 0 := UInt32.toNat_inj.1 h0
    rfl
  · have := toNat_sub_min hpos
    omega

/-- Files of snapshots above the advertised one do not matter. -/
theorem complete_over {old : Chain} {upTo : UInt32} (hold : ∀ t ≤ upTo.toNat, old t = none) :
    Complete z store records (chain.over old) upTo ↔ Complete z store records chain upTo := by
  refine forall_congr' fun pa => forall_congr' fun s => imp_congr_right fun hs => ?_
  have hs' := UInt32.le_iff_toNat_le.1 hs
  rw [Chain.lookup_over fun t ht => hold t (ht.trans hs')]

/-- **Complete just when** the stop is above snapshot 0 and each key below it has one page, or in
snapshot 0 and all pages there are zero. -/
theorem StopsAt.complete_iff (h : StopsAt z dir memorySize store pre rec post) (hlayers : LayersBelow z store pre rec chain) :
    (Complete z store (pre ++ rec :: post) chain (snapshotOf rec.key - min (snapshotOf rec.key) 1) ↔
      0 < snapshotOf rec.key ∧ KeysAgree z store (pre ++ rec :: post) (snapshotOf rec.key) ∨
      snapshotOf rec.key = 0 ∧ StartsBlank z store (pre ++ rec :: post)) ∧
    (((pre ++ rec :: post).map (·.key)).Nodup →
      (Complete z store (pre ++ rec :: post) chain (snapshotOf rec.key - min (snapshotOf rec.key) 1) ↔
        0 < snapshotOf rec.key)) := by
  by_cases hzero : snapshotOf rec.key = 0
  · -- nothing was flushed, and 0 is advertised
    have hnot : ¬ 0 < snapshotOf rec.key := by
      rw [hzero]
      exact UInt32.lt_irrefl 0
    have hiff : Complete z store (pre ++ rec :: post) chain 0 ↔ StartsBlank z store (pre ++ rec :: post) :=
      complete_zero hlayers hzero
    have hup : snapshotOf rec.key - min (snapshotOf rec.key) 1 = 0 := by
      rw [hzero]
      rfl
    rw [hup, hiff]
    refine ⟨⟨fun hblank => .inr ⟨hzero, hblank⟩, ?_⟩, fun hkeys => ⟨fun hblank => ?_, fun hpos => absurd hpos hnot⟩⟩
    · rintro (⟨hpos, -⟩ | ⟨-, hblank⟩)
      · exact absurd hpos hnot
      · exact hblank
    · -- the damaged record itself is one that a query finds
      obtain ⟨e, hdamaged⟩ := h.damaged
      have hfirst := firstOf_of_nodup hkeys (List.mem_append_right pre (List.mem_cons_self (a := rec)))
      rw [hblank rec hfirst hzero] at hdamaged
      cases hdamaged
  · have hpos : 0 < (snapshotOf rec.key).toNat := by
      rcases Nat.eq_zero_or_pos (snapshotOf rec.key).toNat with h0 | h0
      · exact absurd (UInt32.toNat_inj.1 h0) hzero
      · exact h0
    have hpos' : 0 < snapshotOf rec.key := UInt32.lt_iff_toNat_lt.2 hpos
    rw [h.complete_above hlayers (toNat_sub_min hpos)]
    refine ⟨⟨fun hagree => .inl ⟨hpos', hagree⟩, ?_⟩, fun hkeys => iff_of_true (keysAgree_of_nodup hkeys) hpos'⟩
    rintro (⟨-, hagree⟩ | ⟨h0, -⟩)
    · exact hagree
    · exact absurd h0 hzero

/-- **What a truncated export promises**, in a directory that held no file of a snapshot up to
the one it advertises. These snapshots are complete just when the stop is above snapshot 0 and
each key below it has one page, or when the stop is in snapshot 0, of which nothing is
written, and all pages there are zero. With distinct keys: just when the stop is above
snapshot 0. -/
theorem truncated_complete (h : StopsAt z dir memorySize store pre rec post) (old : Chain)
    (hold : ∀ t ≤ (snapshotOf rec.key).toNat - 1, old t = none) : ∃ out upTo,
    convertToRaw z dir old memorySize = .ok out ∧ out.truncated = true ∧ out.rawMeta = rawMetaText upTo ∧
    (Complete z store (pre ++ rec :: post) out.chain upTo ↔
      0 < snapshotOf rec.key ∧ KeysAgree z store (pre ++ rec :: post) (snapshotOf rec.key) ∨
      snapshotOf rec.key = 0 ∧ StartsBlank z store (pre ++ rec :: post)) ∧
    (((pre ++ rec :: post).map (·.key)).Nodup →
      (Complete z store (pre ++ rec :: post) out.chain upTo ↔ 0 < snapshotOf rec.key)) := by
  obtain ⟨out, hrun, htruncated, hmeta, hlayers⟩ := h.run
  have hup := toNat_advertised (snapshotOf rec.key)
  refine ⟨{ out with chain := out.chain.over old }, _, ?_, htruncated, hmeta, ?_⟩
  · rw [convertToRaw_over, hrun]
    rfl
  · rw [complete_over fun t ht => hold t (hup ▸ ht)]
    exact h.complete_iff hlayers

/-! ## A blob cut short -/

/-- A record of snapshot `s` whose blob is gone. -/
def goneRecord (s : UInt32) : ChunkRecord := newFull (encodeKey 1 s) 1 0 9

def goneLog (s : UInt32) : Bytes := writeLogHeader s ++ encodeAll [newFull 0 0 0 4106, goneRecord s]

/-- A page of snapshot 0, and behind it the record. -/
def goneDir (s : UInt32) : Dir :=
  ⟨some (goneLog s), none, fun w => if w = 0 then some (Zstd.raw.compress (noise 1)) else if w = 1 then some [] else none⟩

def goneStore (s : UInt32) : PageStore := ⟨.appendOnly (goneLog s), (goneDir s).blobs⟩

theorem gone_first (s : UInt32) : chunkPage Zstd.raw (goneStore s) (newFull 0 0 0 4106) = .ok (noise 1) := by
  have hd : HoldsAt (Zstd.raw.compress (noise 1)) 0 4106 (Zstd.raw.compress (noise 1)) :=
    .whole (Zstd.raw_length (noise 1)).symm
  exact decompressBlobInto_full Zstd.raw_roundTrip rfl hd

theorem gone_plain (s : UInt32) : ∀ r ∈ [newFull 0 0 0 4106, goneRecord s], r.Plain := by
  intro r hr
  rcases List.mem_cons.1 hr with rfl | hr
  · exact fun _ => rfl
  · rw [List.mem_singleton.1 hr]
    exact fun _ => rfl

theorem gone_stops {s : UInt32} (hs : s ≤ maxSnapshotId) :
    StopsAt Zstd.raw (goneDir s) 8192 (goneStore s) [newFull 0 0 0 4106] (goneRecord s) [] := by
  have hkey : snapshotOf (goneRecord s).key = s ∧ paOf (goneRecord s).key = 1 :=
    ⟨snapshotOf_encodeKey hs, paOf_encodeKey (by decide)⟩
  constructor
  · decide
  · decide
  · exact open_log rfl rfl
  · have hlen : (writeLogHeader s).length = headerSize := length_writeLogHeader s
    refine ⟨_, rfl, ?_, magic_logHeader s _, ?_⟩
    · unfold goneLog
      rw [List.length_append, hlen]
      omega
    · unfold goneLog
      rw [List.drop_left' hlen]
      exact scan_encode (gone_plain s)
  · refine List.pairwise_pair.2 ?_
    unfold LogOrder
    rw [hkey.1, hkey.2]
    -- snapshot 0 is the first record's own
    rcases Nat.eq_zero_or_pos s.toNat with h0 | h0
    · exact .inr ⟨UInt32.toNat_inj.1 h0.symm, by decide⟩
    · exact .inl (UInt32.lt_iff_toNat_lt.2 h0)
  · intro r hr
    rcases List.mem_cons.1 hr with rfl | hr
    · decide
    · rw [List.mem_singleton.1 hr, hkey.2]
      decide
  · intro r hr
    rw [List.mem_singleton.1 hr]
    exact ⟨_, gone_first s⟩
  · exact ⟨_, rfl⟩
  · intro _
    exact (by decide : 0 + 9 < 2 ^ 64)

/-- **A stop in snapshot 0**: the chain has no file, `raw-meta` advertises snapshot 0, and a
load finds a page there. -/
theorem truncated_noise : ∃ out, convertToRaw Zstd.raw (goneDir 0) Chain.empty 8192 = .ok out ∧ out.truncated = true ∧
    out.rawMeta = rawMetaText 0 ∧ loadPage Zstd.raw (goneDir 0) 0 0 = .ok (some (noise 1)) ∧
    out.chain.lookup 0 0 = Page.zero.bytes ∧ noise 1 ≠ Page.zero := by
  have hstops := gone_stops (s := 0) UInt32.zero_le
  obtain ⟨out, hrun, htruncated, hmeta, hlayers⟩ := hstops.run
  refine ⟨out, hrun, htruncated, hmeta, ?_, ?_, noise_ne_zero (by decide)⟩
  · have hfirst : FirstOf [newFull 0 0 0 4106, goneRecord 0] (newFull 0 0 0 4106) := rfl
    have hfloor := floorSorted_own (mem_index_firstOf.2 hfirst)
    have hpa : paOf (newFull 0 0 0 4106).key = 0 := by decide
    have hsnap : snapshotOf (newFull 0 0 0 4106).key = 0 := by decide
    rw [hpa, hsnap] at hfloor
    rw [hstops.loadPage rfl 0 UInt32.zero_le]
    exact floorPage_some hfloor (gone_first 0)
  · refine lookback_getD hlayers (asOf_none.2 ?_)
    rintro t bytes ⟨-, hlt⟩
    exact absurd hlt (Nat.not_lt_zero t)

/-- **A stop above snapshot 0**, into a directory with the file of a snapshot behind it. -/
theorem truncated_above : ∃ out upTo,
    convertToRaw Zstd.raw (goneDir 1) (Function.update Chain.empty 7 (some [])) 8192 = .ok out ∧
    out.rawMeta = rawMetaText upTo ∧
    Complete Zstd.raw (goneStore 1) [newFull 0 0 0 4106, goneRecord 1] out.chain upTo := by
  have hstops := gone_stops (s := 1) (by decide)
  have hsnap : (snapshotOf (goneRecord 1).key).toNat = 1 := by decide
  obtain ⟨out, upTo, hrun, -, hmeta, -, hiff⟩ := truncated_complete hstops (Function.update Chain.empty 7 (some []))
    fun t ht => Function.update_of_ne (by omega) _ _
  exact ⟨out, upTo, hrun, hmeta, (hiff (by decide)).2 (by decide)⟩

end Bxdb
