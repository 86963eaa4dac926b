import Bxdb.Proof.IndexLookups
import Bxdb.Proof.DamagedIndex

/-!
# Where a read can panic

A damaged record is read with its fields as they are. What can panic is the look-up of a
worker file that is not there, and the end of a Delta's range; a Full record's range is
computed with a checked addition. Everything else fails with an error: the look-ups,
which stay inside the index, the decoding of the log, and the patch.

* `loadPage_never_panics`: **a load panics for no cache, no address and no snapshot exactly
  when the record `floor` finds is safe to read** (`Safe`).
* `missing_worker`: a Full record of a worker without a file, which panics.
-/

namespace Bxdb

open Bytes SortedIndex ChunkRecord

/-- The call panics. -/
def Panics {α : Type} (r : Res α) : Prop := ∃ msg, r = panics msg

section

variable {α β : Type}

@[simp] theorem not_panics_ok (a : α) : ¬ Panics (.ok a : Res α) := by
  rintro ⟨msg, h⟩
  cases h

@[simp] theorem not_panics_err (e : IoError) : ¬ Panics (.error (.err e) : Res α) := by
  rintro ⟨msg, h⟩
  cases h

@[simp] theorem not_panics_ioErr (kind : ErrorKind) (msg : String) : ¬ Panics (ioErr kind msg : Res α) :=
  not_panics_err _

@[simp] theorem panics_panics (msg : String) : Panics (panics msg : Res α) := ⟨msg, rfl⟩

/-- A sequence of two calls panics when the first does, or the second after it. -/
theorem panics_bind {x : Res α} {f : α → Res β} : Panics (x >>= f) ↔ Panics x ∨ ∃ a, x = .ok a ∧ Panics (f a) := by
  cases x with
  | ok a => simp
  | error e =>
    cases e with
    | err e => simp [bind, Except.bind]
    | panic msg =>
      have h : ∀ {γ : Type}, Panics (.error (.panic msg) : Res γ) := ⟨msg, rfl⟩
      exact ⟨fun _ => .inl h, fun _ => h⟩

/-- A sequence of two calls that do not panic does not panic. -/
theorem not_panics_bind {x : Res α} {f : α → Res β} (hx : ¬ Panics x) (hf : ∀ a, ¬ Panics (f a)) :
    ¬ Panics (x >>= f) := by
  rw [panics_bind]
  rintro (h | ⟨a, -, h⟩)
  · exact hx h
  · exact hf a h

end

/-! ## What never panics -/

theorem fromU8_not_panics (v : UInt8) : ¬ Panics (ChunkKind.fromU8 v) := by
  unfold ChunkKind.fromU8
  split_ifs <;> simp

theorem readFrom_not_panics (bs : Bytes) : ¬ Panics (readFrom bs) := by
  unfold readFrom
  split
  · simp
  · refine not_panics_bind (fromU8_not_panics _) fun kind => ?_
    split_ifs <;> simp [eofErr]

theorem readAll_not_panics : ∀ (fuel : ℕ) (bs : Bytes), ¬ Panics (readAll fuel bs) := by
  intro fuel
  induction fuel with
  | zero => intro bs; simp [readAll]
  | succ fuel ih =>
    intro bs
    have hread := readFrom_not_panics bs
    unfold readAll
    cases hr : readFrom bs with
    | error e =>
      rw [hr] at hread
      rintro ⟨msg, h⟩
      cases h
      exact hread ⟨msg, rfl⟩
    | ok out =>
      cases out with
      | none => simp
      | some p =>
        obtain ⟨r, rest⟩ := p
        have hrest := ih rest
        dsimp only
        cases ha : readAll fuel rest with
        | error e =>
          rw [ha] at hrest
          rintro ⟨msg, h⟩
          cases h
          exact hrest ⟨msg, rfl⟩
        | ok rs => simp

theorem readAndVerifyHeader_not_panics (bs magic : Bytes) : ¬ Panics (readAndVerifyHeader bs magic) := by
  unfold readAndVerifyHeader
  dsimp only
  split_ifs <;> simp [eofErr]

theorem buildLazyIndex_not_panics (log : Bytes) : ¬ Panics (buildLazyIndex log) := by
  unfold buildLazyIndex
  refine not_panics_bind (readAndVerifyHeader_not_panics _ _) fun p => ?_
  exact not_panics_bind (readAll_not_panics _ _) fun records => not_panics_ok _

theorem floor_not_panics (store : PageStore) (pa : UInt64) (s : UInt32) : ¬ Panics (store.floor pa s) := by
  unfold PageStore.floor
  dsimp only
  cases store.source with
  | btree mmap n => exact not_panics_ok _
  | appendOnly log => exact not_panics_bind (buildLazyIndex_not_panics log) fun idx => not_panics_ok _

theorem exactLookup_not_panics (store : PageStore) (key : UInt64) : ¬ Panics (store.exactLookup key) := by
  unfold PageStore.exactLookup
  cases store.source with
  | btree mmap n => exact not_panics_ok _
  | appendOnly log => exact not_panics_bind (buildLazyIndex_not_panics log) fun idx => not_panics_ok _

theorem applyDeltaPatchInPlace_not_panics (blob : Bytes) (out : Page) : ¬ Panics (applyDeltaPatchInPlace blob out) := by
  have hentry : ∀ (out : Page) (chunk : Bytes), ¬ Panics (applyEntry out chunk) := by
    intro out chunk
    unfold applyEntry
    dsimp only
    split <;> simp
  have hall : ∀ (chunks : List Bytes) (out : Page), ¬ Panics (chunks.foldlM applyEntry out : Res Page) := by
    intro chunks
    induction chunks with
    | nil => intro out; exact not_panics_ok out
    | cons chunk chunks ih =>
      intro out
      rw [List.foldlM_cons]
      exact not_panics_bind (hentry out chunk) ih
  unfold applyDeltaPatchInPlace applyDeltaXor
  split
  · simp
  · exact hall _ out

/-! ## What can panic -/

section

variable {z : Zstd} {store : PageStore} {rec : ChunkRecord} {cache : Option Memory.Mem}

/-- Reading a Full page panics without its worker's file, and only then. -/
theorem decompress_panics : Panics (store.decompressBlobInto z rec) ↔ store.blobs rec.workerId = none := by
  unfold PageStore.decompressBlobInto PageStore.blobMmap
  cases store.blobs rec.workerId with
  | none => simp [panics_bind]
  | some bytes =>
    rw [ok_bind]
    simp only [reduceCtorEq, iff_false]
    split
    · simp
    · split
      · simp
      · split
        · simp
        · split <;> simp

/-- The range of a Delta is added up unchecked. -/
theorem deltaBlob_panics : Panics (store.deltaBlob rec) ↔
    store.blobs rec.workerId = none ∨ 2 ^ 64 ≤ rec.offset.toNat + rec.len.toNat := by
  unfold PageStore.deltaBlob PageStore.blobMmap
  cases store.blobs rec.workerId with
  | none => simp [panics_bind]
  | some bytes =>
    rw [ok_bind]
    simp only [reduceCtorEq, false_or]
    split
    · rename_i hover
      exact ⟨fun _ => hover, fun _ => panics_panics _⟩
    · rename_i hover
      simp only [hover, iff_false]
      split <;> simp

theorem applyDelta_panics {base : Page} : Panics (BtreeDb.applyDelta store rec base) ↔
    store.blobs rec.workerId = none ∨ 2 ^ 64 ≤ rec.offset.toNat + rec.len.toNat := by
  unfold BtreeDb.applyDelta
  rw [panics_bind, deltaBlob_panics]
  constructor
  · rintro (h | ⟨blob, -, h⟩)
    · exact h
    · exact absurd h (applyDeltaPatchInPlace_not_panics blob base)
  · exact fun h => .inl h

theorem decompressAndPut_panics {key : UInt64} :
    Panics (BtreeDb.decompressAndPut z store cache key rec).2 ↔ store.blobs rec.workerId = none := by
  rw [← decompress_panics (z := z)]
  unfold BtreeDb.decompressAndPut
  cases store.decompressBlobInto z rec with
  | error e => rfl
  | ok page => simp

/-- A miss on the base's key, when the base is a Full record of a worker without a file. -/
theorem loadFullCached_panics {key : UInt64} : Panics (BtreeDb.loadFullCached z store cache key).2 ↔
    (BtreeDb.cacheGet cache key).2 = none ∧ ∃ base, store.exactLookup key = .ok (some base) ∧ base.kind = .full ∧
      store.blobs base.workerId = none := by
  unfold BtreeDb.loadFullCached
  generalize BtreeDb.cacheGet cache key = got
  obtain ⟨cache', hit⟩ := got
  cases hit with
  | some page => simp
  | none =>
    dsimp only
    have hnot := exactLookup_not_panics store key
    cases hl : store.exactLookup key with
    | error e =>
      rw [hl] at hnot
      constructor
      · rintro ⟨msg, h⟩
        exact absurd ⟨msg, congrArg Except.error (Except.error.inj h)⟩ hnot
      · rintro ⟨-, base, hb, -⟩
        cases hb
    | ok found =>
      cases found with
      | none => simp
      | some base =>
        dsimp only
        split
        · rename_i hkind
          simp [hkind]
        · rename_i hkind
          rw [decompressAndPut_panics]
          simp [not_not.1 hkind]

end

/-! ## Loads -/

/-- **Reading a record does not panic**: the worker's file is there when it is read from,
the file of a Delta's base too, and the range of a Delta whose base can be read ends
below 2⁶⁴. A page in the cache is not read from a file. -/
def Safe (z : Zstd) (store : PageStore) (cache : Option Memory.Mem) (rec : ChunkRecord) : Prop :=
  match rec.kind with
  | .zero => True
  | .full => (BtreeDb.cacheGet cache rec.key).2 = none → store.blobs rec.workerId ≠ none
  | .delta =>
    ((BtreeDb.cacheGet cache rec.baseKey).2 = none → ∀ base, store.exactLookup rec.baseKey = .ok (some base) →
      base.kind = .full → store.blobs base.workerId ≠ none) ∧
    ((∃ page, (BtreeDb.loadFullCached z store cache rec.baseKey).2 = .ok page) →
      store.blobs rec.workerId ≠ none ∧ rec.offset.toNat + rec.len.toNat < 2 ^ 64)

section

variable {z : Zstd} {dir : Dir} {store : PageStore} {rec : ChunkRecord} {cache : Option Memory.Mem}

theorem resolveCached_panics : Panics (BtreeDb.resolveCached z store cache rec).2 ↔ ¬ Safe z store cache rec := by
  unfold BtreeDb.resolveCached Safe
  cases rec.kind with
  | zero => simp
  | full =>
    dsimp only
    generalize BtreeDb.cacheGet cache rec.key = got
    obtain ⟨cache', hit⟩ := got
    cases hit with
    | some page => simp
    | none =>
      dsimp only
      rw [decompressAndPut_panics]
      simp
  | delta =>
    dsimp only
    have hfull : Panics (BtreeDb.loadFullCached z store cache rec.baseKey).2 ↔ _ := loadFullCached_panics
    generalize BtreeDb.loadFullCached z store cache rec.baseKey = loaded at hfull ⊢
    obtain ⟨cache', base⟩ := loaded
    cases base with
    | error e =>
      -- the base cannot be read, and the Delta's own range is not reached
      have heq : Panics (cache', (.error e : Res Page)).2 ↔ Panics (.error e : Res Page) := Iff.rfl
      rw [heq] at hfull
      dsimp only
      rw [hfull]
      constructor
      · rintro ⟨hmiss, base, hb, hk, hno⟩ hsafe
        exact hsafe.1 hmiss base hb hk hno
      · intro hsafe
        by_contra hc
        refine hsafe ⟨fun hmiss base hb hk hno => hc ⟨hmiss, base, hb, hk, hno⟩, ?_⟩
        rintro ⟨page, hp⟩
        cases hp
    | ok base =>
      have hno : ¬ Panics (cache', (.ok base : Res Page)).2 := not_panics_ok base
      rw [hfull] at hno
      dsimp only
      rw [applyDelta_panics]
      constructor
      · rintro h ⟨-, hsafe⟩
        obtain ⟨hfile, hend⟩ := hsafe ⟨base, rfl⟩
        rcases h with h | h
        · exact hfile h
        · omega
      · intro hsafe
        by_contra hc
        rw [not_or, not_le] at hc
        exact hsafe ⟨fun hmiss b hb hk hb' => hno ⟨hmiss, b, hb, hk, hb'⟩, fun _ => hc⟩

/-- **A load does not panic**: neither in the look-ups, whose reads all stay inside the
index, nor in reading the record. -/
structure NeverPanics (z : Zstd) (store : PageStore) (cache : Option Memory.Mem) (pa : UInt64) (s : UInt32) :
    Prop where
  load : ¬ Panics (BtreeDb.loadPage z store cache pa s).2
  floor : ∀ mmap n, store.source = .btree mmap n → ¬ Panics (floorMmapChecked mmap n (encodeKey pa s) pa)
  exact : ∀ mmap n key, store.source = .btree mmap n → ¬ Panics (exactMmapChecked mmap n key)

/-- The entries of an index that was opened are inside the file. -/
theorem open_entries {mmap : Bytes} {n : ℕ} (hopen : PageStore.open dir = .ok store)
    (hsrc : store.source = .btree mmap n) : headerSize + n * fixedRecordSize ≤ mmap.length := by
  unfold PageStore.open at hopen
  split at hopen
  · rename_i bytes hidx
    obtain ⟨_, hheader, h⟩ := bind_eq_ok.1 hopen
    have hlen : headerSize ≤ bytes.length := by
      unfold verifyIndexHeader at hheader
      split at hheader
      · cases hheader
      · omega
    dsimp only at h
    split at h
    · cases h
    · obtain rfl := Except.ok.inj h
      obtain ⟨rfl, rfl⟩ := IndexSource.btree.inj hsrc
      have := Nat.div_mul_le_self (bytes.length - headerSize) fixedRecordSize
      omega
  · obtain ⟨_, -, h⟩ := bind_eq_ok.1 hopen
    obtain rfl := Except.ok.inj h
    cases hsrc
  · cases hopen

/-- A panic is one at any type. -/
theorem panics_error {α β : Type} {e : Failure} : Panics (.error e : Res α) ↔ Panics (.error e : Res β) :=
  ⟨fun ⟨msg, h⟩ => ⟨msg, congrArg Except.error (Except.error.inj h)⟩,
    fun ⟨msg, h⟩ => ⟨msg, congrArg Except.error (Except.error.inj h)⟩⟩

/-- A load panics just when the record `floor` finds is not safe to read. -/
theorem loadPage_not_panics (cache : Option Memory.Mem) (pa : UInt64) (s : UInt32) :
    ¬ Panics (BtreeDb.loadPage z store cache pa s).2 ↔
      ∀ rec, s ≤ maxSnapshotId → store.floor pa s = .ok (some rec) → Safe z store cache rec := by
  unfold BtreeDb.loadPage
  by_cases hs : maxSnapshotId < s
  · rw [if_pos hs]
    simp only [not_panics_ioErr, not_false_eq_true, true_iff]
    exact fun rec hle => absurd hs (UInt32.not_lt.2 hle)
  · rw [if_neg hs]
    have hnot := floor_not_panics store pa s
    cases hf : store.floor pa s with
    | error e =>
      rw [hf] at hnot
      exact ⟨fun _ rec _ hrec => (nomatch hrec), fun _ hp => hnot (panics_error.1 hp)⟩
    | ok found =>
      cases found with
      | none => simp
      | some rec =>
        -- the answer for the one record is the answer for all
        have hone : (∀ rec', s ≤ maxSnapshotId → (.ok (some rec) : Res (Option ChunkRecord)) = .ok (some rec') →
            Safe z store cache rec') ↔ Safe z store cache rec := by
          constructor
          · exact fun h => h rec (UInt32.not_lt.1 hs) rfl
          · intro hsafe rec' _ hrec
            obtain rfl := Option.some.inj (Except.ok.inj hrec)
            exact hsafe
        have hsafe : Safe z store cache rec ↔ ¬ Panics (BtreeDb.resolveCached z store cache rec).2 := by
          rw [resolveCached_panics, not_not]
        rw [hone, hsafe]
        dsimp only
        generalize BtreeDb.resolveCached z store cache rec = r
        obtain ⟨cache', page⟩ := r
        cases page with
        | error e => exact not_congr panics_error
        | ok page => exact iff_of_true (not_panics_ok _) (not_panics_ok page)

/-- **Where a load panics**: for every content of the log or the index that a store opens,
every set of worker files and every cache, a load panics for no reason but the record
`floor` finds, and exactly when that is not safe to read. -/
theorem loadPage_never_panics (z : Zstd) (hopen : PageStore.open dir = .ok store) (cache : Option Memory.Mem)
    (pa : UInt64) (s : UInt32) : NeverPanics z store cache pa s ↔
      ∀ rec, s ≤ maxSnapshotId → store.floor pa s = .ok (some rec) → Safe z store cache rec := by
  constructor
  · exact fun h => (loadPage_not_panics cache pa s).1 h.load
  · intro h
    refine ⟨(loadPage_not_panics cache pa s).2 h, fun mmap n hsrc => ?_, fun mmap n key hsrc => ?_⟩
    · rw [floorMmapChecked_ok (open_entries hopen hsrc)]
      exact not_panics_ok _
    · rw [exactMmapChecked_ok (open_entries hopen hsrc)]
      exact not_panics_ok _

/-- A Delta and its base, whose worker's file is there. -/
theorem loadPage_never_panics_sound : NeverPanics Zstd.raw (sharedStore [sharedDelta, sharedFull]) none 0 0 ∧
    NeverPanics Zstd.raw (sharedStore [sharedDelta, sharedFull]) none 0 1 := by
  have hfile : (sharedStore [sharedDelta, sharedFull]).blobs 0 ≠ none := Option.some_ne_none _
  have hdelta : (sharedStore [sharedDelta, sharedFull]).floor 0 0 = .ok (some sharedDelta) := by decide +kernel
  have hfull : (sharedStore [sharedDelta, sharedFull]).floor 0 1 = .ok (some sharedFull) := by decide +kernel
  have hbase : (sharedStore [sharedDelta, sharedFull]).exactLookup 1 = .ok (some sharedFull) := by decide +kernel
  constructor
  · refine (loadPage_never_panics Zstd.raw open_shared.1 none 0 0).2 fun rec _ hf => ?_
    rw [hdelta] at hf
    obtain rfl := Option.some.inj (Except.ok.inj hf)
    refine ⟨fun _ base hb _ => ?_, fun _ => ⟨hfile, by decide⟩⟩
    obtain rfl := Option.some.inj (Except.ok.inj (hbase.symm.trans hb))
    exact hfile
  · refine (loadPage_never_panics Zstd.raw open_shared.1 none 0 1).2 fun rec _ hf => ?_
    rw [hfull] at hf
    obtain rfl := Option.some.inj (Except.ok.inj hf)
    exact fun _ => hfile

/-- An index with one Full record of worker 9, and no worker file. -/
def orphanDir : Dir := ⟨none, some (indexFile [newFull 0 9 0 4106]), fun _ => none⟩

/-- **A record of a worker whose file is missing stops the reader.** -/
theorem missing_worker : ¬ ∀ (z : Zstd) (dir : Dir) (store : PageStore) (cache : Option Memory.Mem) (pa : UInt64)
    (s : UInt32), PageStore.open dir = .ok store → NeverPanics z store cache pa s := by
  intro hall
  have hopen : PageStore.open orphanDir = .ok ⟨.btree (indexFile [newFull 0 9 0 4106]) 1, fun _ => none⟩ := rfl
  exact (hall Zstd.raw orphanDir _ none 0 0 hopen).load ⟨"worker blob not found", rfl⟩

end

end Bxdb
