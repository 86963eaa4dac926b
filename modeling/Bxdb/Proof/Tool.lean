import Bxdb.Spec.Tool
import Bxdb.Proof.SharedReads

/-!
# The tool's reports over the life of a directory

* `cacheInspect_lists`: **the slots that are listed are the cache**: each key once, with
  the page that a look-up returns and that readers saw since the cache was created.
* `stats_counts`: **the two numbers of `bxdb stats`** are those of the versions in the
  archive's journal, and of the ones whose page is not zeros.
-/

namespace Bxdb

open Bytes SortedIndex Versioned SharedCache ChunkRecord Memo Memory

/-! ## The cache -/

section Cache

variable {z : Zstd} {identity : Bytes} {es : List CacheCommand} {dir : Dir} {file : Option CacheFile} {m : Mem}
  {ops : List (SetCache.Op UInt64 Page)} {key : UInt64} {g g' : ℕ}

/-- What readers do to the cache is some calls one after the other. -/
theorem calls_of_run {α : Type} {s s' : List (Thread UInt64 Page α) × Mem} (hrun : Run sharedCache s s') :
    ∃ ops, s'.2 = SharedCache.run s.2 ops := by
  induction hrun with
  | refl => exact ⟨[], rfl⟩
  | tail _ hstep ih =>
    obtain ⟨ops, hops⟩ := ih
    cases hstep with
    | @get threads i k next t hi =>
      refine ⟨ops ++ [.get k], ?_⟩
      rw [SharedCache.run_append, ← hops]
      rfl
    | @put threads i k v next t hi =>
      refine ⟨ops ++ [.put k v], ?_⟩
      rw [SharedCache.run_append, ← hops]
      rfl

/-- **A cache file** is an initialised one after some calls. -/
theorem SharedLife.calls (h : SharedLife z identity es dir file) :
    ∀ f, file = some f → ∃ m₀ ops, f.mem = SharedCache.run (initMetadata m₀ identity) ops := by
  induction h with
  | empty => exact nofun
  | run _ _ ih => exact ih
  | @create es dir file _ ih =>
    intro f hf
    obtain rfl := Option.some.inj hf
    rcases create_cases file identity with ⟨f, hf⟩ | ⟨f, hfile, hf⟩
    · exact ⟨f.mem, [], by rw [hf]; rfl⟩
    · rw [hf]
      exact ih f hfile
  | delete => exact nofun
  | @reads es dir file store cache loads threads m _ hopen hcache hrun ih =>
    intro f hf
    obtain rfl := Option.some.inj hf
    obtain ⟨m₀, ops, hmem⟩ := ih cache (open_cache hcache).1
    obtain ⟨ops', hops'⟩ := calls_of_run hrun
    refine ⟨m₀, ops ++ ops', ?_⟩
    rw [SharedCache.run_append, ← hmem]
    exact hops'

end Cache

section Log

variable {z : Zstd} {es : List Command} {dir : Dir}

/-- A record of the snapshot asked for. -/
def isAskedFor (snapshot : Option UInt32) (rec : ChunkRecord) : Bool := !snapshot.any (snapshotOf rec.key ≠ ·)

theorem foldl_stats (snapshot : Option UInt32) (records : List ChunkRecord) : ∀ counts : ℕ × ℕ,
    records.foldl (fun (total, nonZero) rec =>
      if snapshot.any (snapshotOf rec.key ≠ ·) then (total, nonZero)
      else (total + 1, if rec.kind ≠ .zero then nonZero + 1 else nonZero)) counts =
    (counts.1 + records.countP (isAskedFor snapshot),
      counts.2 + records.countP fun rec => isAskedFor snapshot rec && decide (rec.kind ≠ .zero)) := by
  induction records with
  | nil => exact fun _ => rfl
  | cons rec records ih =>
    intro counts
    rw [List.foldl_cons, ih, List.countP_cons, List.countP_cons]
    unfold isAskedFor
    cases snapshot.any (snapshotOf rec.key ≠ ·) with
    | true => simp
    | false =>
      by_cases hk : rec.kind = .zero
      · simp [hk]
        omega
      · simp [hk]
        omega

/-- The addresses and snapshots that `bxdb stats` asks for. -/
def AskedFor (snapshot : Option UInt32) (k : UInt64 × ℕ) : Prop := ∀ s, snapshot = some s → k.2 = s.toNat

theorem isAskedFor_iff {snapshot : Option UInt32} {v : Version} :
    isAskedFor snapshot v.chunk = true ↔ AskedFor snapshot (v.pa, v.snap) := by
  unfold isAskedFor AskedFor
  cases snapshot with
  | none => simp
  | some s =>
    simp only [Option.any_some, Bool.not_eq_true', decide_eq_false_iff_not, not_not, Option.some.injEq, forall_eq']
    exact ⟨fun h => congrArg UInt32.toNat h, fun h => UInt32.toNat_inj.1 h⟩

/-- **The numbers of `bxdb stats`** after any commands. -/
theorem stats_counts (h : Lifecycle z es dir) (hne : es ≠ []) (snapshot : Option UInt32) :
    cmdStats dir snapshot = .ok
      (Set.ncard {k : UInt64 × ℕ | AskedFor snapshot k ∧ ∃ page, (archived es).journal k.1 k.2 page},
        Set.ncard {k : UInt64 × ℕ | AskedFor snapshot k ∧ ∃ page, (archived es).journal k.1 k.2 page ∧ page ≠ Page.zero}) := by
  obtain ⟨seen, later, h⟩ := lifecycle_archive h hne
  obtain ⟨m, hm, -⟩ := h.dirOk.log
  unfold cmdStats
  rw [hm]
  dsimp only
  rw [readLogHeader, ok_bind]
  dsimp only
  rw [scan_encode (chunks_plain h.dirOk.stored), ok_bind, foldl_stats, Nat.zero_add, Nat.zero_add, h.journal]
  unfold chunks
  rw [List.countP_map, List.countP_map, countP_eq_ncard h.dirOk.ordered, countP_eq_ncard h.dirOk.ordered]
  congr 3
  · ext ⟨pa, s⟩
    constructor
    · rintro ⟨v, hv, hq, rfl, rfl⟩
      exact ⟨isAskedFor_iff.1 hq, v.page, v, ⟨hv, rfl, rfl⟩, rfl⟩
    · rintro ⟨hq, page, v, ⟨hv, rfl, rfl⟩, -⟩
      exact ⟨v, hv, isAskedFor_iff.2 hq, rfl, rfl⟩
  · ext ⟨pa, s⟩
    simp only [Function.comp_apply, Bool.and_eq_true, decide_eq_true_eq]
    constructor
    · rintro ⟨v, hv, ⟨hq, hk⟩, rfl, rfl⟩
      exact ⟨isAskedFor_iff.1 hq, v.page, ⟨v, ⟨hv, rfl, rfl⟩, rfl⟩, fun hpage => hk ((h.zeros v hv).2 hpage)⟩
    · rintro ⟨hq, page, ⟨v, ⟨hv, rfl, rfl⟩, rfl⟩, hpage⟩
      exact ⟨v, hv, ⟨isAskedFor_iff.2 hq, fun hk => hpage ((h.zeros v hv).1 hk)⟩, rfl, rfl⟩

end Log

/-- The second of three saves. -/
theorem stats_counts_noise : ∃ dir, Lifecycle Zstd.raw [.session threeSaves] dir ∧ cmdStats dir (some 4) = .ok
    (Set.ncard {k : UInt64 × ℕ | AskedFor (some 4) k ∧ ∃ page, (archived [.session threeSaves]).journal k.1 k.2 page},
      Set.ncard {k : UInt64 × ℕ | AskedFor (some 4) k ∧
        ∃ page, (archived [.session threeSaves]).journal k.1 k.2 page ∧ page ≠ Page.zero}) := by
  obtain ⟨dir, hs, -, -⟩ := threeSaves_session
  have h : Lifecycle Zstd.raw ([] ++ [.session threeSaves]) dir := .session .empty hs (onePages_inRange _)
  exact ⟨dir, h, stats_counts h (by simp) (some 4)⟩

end Bxdb
