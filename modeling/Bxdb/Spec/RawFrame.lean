import Bxdb.Spec.Format

/-!
# A page that zstd cannot compress

zstd stores such a page in a frame with one raw block: ten bytes of headers, then the
page. `Zstd.raw` reads and writes exactly these frames.
-/

namespace Bxdb

/-- Magic number, a single segment of 4096 bytes, one last block, raw, of 4096 bytes. -/
def rawFrameHeader : Bytes := [0x28, 0xB5, 0x2F, 0xFD, 0x60, 0x00, 0x0F, 0x01, 0x80, 0x00]

/-- The library on pages without redundancy. -/
def Zstd.raw : Zstd where
  compress page := rawFrameHeader ++ page.bytes
  decompress cap frame :=
    if frame.take 10 = rawFrameHeader ∧ (frame.drop 10).length = pageSize ∧ pageSize ≤ cap then some (frame.drop 10)
    else none

theorem Zstd.raw_roundTrip : Zstd.raw.RoundTrip := by
  intro page cap hcap
  have htake : (rawFrameHeader ++ page.bytes).take 10 = rawFrameHeader := List.take_left' rfl
  have hdrop : (rawFrameHeader ++ page.bytes).drop 10 = page.bytes := List.drop_left' rfl
  unfold Zstd.raw
  dsimp only
  rw [htake, hdrop, if_pos ⟨rfl, page.size, hcap⟩]

theorem Zstd.raw_length (page : Page) : (Zstd.raw.compress page).length = 4106 := by
  unfold Zstd.raw
  rw [List.length_append, page.size]
  rfl

theorem Zstd.raw_small : Zstd.raw.Small := by
  intro page
  rw [Zstd.raw_length]
  decide

/-! ## Such pages -/

/-- Bytes without redundancy: the high bytes of a linear congruential sequence. -/
def noiseBytes : ℕ → UInt32 → Bytes
  | 0, _ => []
  | n + 1, x => (x >>> 24).toUInt8 :: noiseBytes n (x * 1664525 + 1013904223)

theorem length_noiseBytes (n : ℕ) (x : UInt32) : (noiseBytes n x).length = n := by
  induction n generalizing x with
  | zero => rfl
  | succ n ih => rw [noiseBytes, List.length_cons, ih]

/-- A page of such bytes, that starts with the byte `b`. -/
def noise (b : UInt8) : Page := ⟨noiseBytes pageSize (b.toUInt32 <<< 24), length_noiseBytes _ _⟩

theorem head_noise (b : UInt8) : (noise b).bytes.head? = some b := by
  have hb : (b.toUInt32 <<< 24 >>> 24).toUInt8 = b := by
    apply UInt8.toNat_inj.1
    have := b.toNat_lt
    simp only [UInt32.toNat_toUInt8, UInt32.toNat_shiftRight, UInt32.toNat_shiftLeft, UInt8.toNat_toUInt32,
      Nat.shiftRight_eq_div_pow, Nat.shiftLeft_eq, UInt32.reduceToNat, Nat.reduceMod, Nat.reducePow]
    omega
  change some (b.toUInt32 <<< 24 >>> 24).toUInt8 = some b
  rw [hb]

theorem noise_inj {a b : UInt8} (h : noise a = noise b) : a = b := by
  have := head_noise a
  rw [h, head_noise b] at this
  exact (Option.some.inj this).symm

theorem noise_ne_zero {b : UInt8} (hb : b ≠ 0) : noise b ≠ Page.zero := by
  intro h
  have := head_noise b
  rw [h] at this
  exact hb (Option.some.inj this).symm

end Bxdb
