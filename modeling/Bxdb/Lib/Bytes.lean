import Mathlib.Data.Nat.ModEq
import Mathlib.Data.List.Basic
import Mathlib.Tactic.Ring
import Mathlib.Tactic.NormNum

/-!
# Bytes: little-endian numbers, slices and fixed-size chunks

The byte-level vocabulary of a binary file format, over lists of bytes.

* `encode w n` and `decode`: a natural number as `w` little-endian bytes and
  back. `decode_encode` and `encode_decode` are the two round trips.
* `slice bs a b`: the bytes at `[a, b)`, and `range? bs a b`, which fails when
  the range is not inside `bs`. Appending keeps every range that was inside.
* `chunksExact n bs`: the whole chunks of `n` bytes, in order.
-/

namespace Bytes

/-! ## Little-endian numbers -/

/-- The `w` little-endian bytes of `n`; higher bits are dropped. -/
def encode : ℕ → ℕ → List UInt8
  | 0, _ => []
  | w + 1, n => UInt8.ofNat n :: encode w (n / 256)

/-- The number with the given little-endian bytes. -/
def decode : List UInt8 → ℕ
  | [] => 0
  | b :: bs => b.toNat + 256 * decode bs

@[simp] theorem length_encode (w n : ℕ) : (encode w n).length = w := by
  induction w generalizing n with
  | zero => rfl
  | succ w ih => simp [encode, ih]

theorem decode_encode (w n : ℕ) : decode (encode w n) = n % 256 ^ w := by
  induction w generalizing n with
  | zero => simp [encode, decode, Nat.mod_one]
  | succ w ih =>
    simp only [encode, decode, ih, UInt8.toNat_ofNat', show (2 : ℕ) ^ 8 = 256 from rfl]
    rw [pow_succ', @Nat.mod_mul 256]

/-- **A number that fits its width survives.** -/
theorem decode_encode_of_lt {w n : ℕ} (h : n < 256 ^ w) : decode (encode w n) = n := by
  rw [decode_encode, Nat.mod_eq_of_lt h]

theorem decode_lt (bs : List UInt8) : decode bs < 256 ^ bs.length := by
  induction bs with
  | nil => simp [decode]
  | cons b bs ih =>
    have hb := b.toNat_lt
    simp only [decode, List.length_cons, pow_succ]
    omega

/-- **Bytes are the encoding of their number.** -/
theorem encode_decode (bs : List UInt8) : encode bs.length (decode bs) = bs := by
  induction bs with
  | nil => rfl
  | cons b bs ih =>
    have hb : b.toNat < 256 := b.toNat_lt
    have hd : (b.toNat + 256 * decode bs) / 256 = decode bs := by omega
    have hm : UInt8.ofNat (b.toNat + 256 * decode bs) = b := by
      apply UInt8.toNat_inj.1
      rw [UInt8.toNat_ofNat']; omega
    simp only [decode, List.length_cons, encode, hd, hm, ih]

/-! ### Machine words -/

def toLe16 (x : UInt16) : List UInt8 := encode 2 x.toNat
def toLe32 (x : UInt32) : List UInt8 := encode 4 x.toNat
def toLe64 (x : UInt64) : List UInt8 := encode 8 x.toNat

def fromLe16 (bs : List UInt8) : UInt16 := UInt16.ofNat (decode bs)
def fromLe32 (bs : List UInt8) : UInt32 := UInt32.ofNat (decode bs)
def fromLe64 (bs : List UInt8) : UInt64 := UInt64.ofNat (decode bs)

@[simp] theorem length_toLe16 (x : UInt16) : (toLe16 x).length = 2 := length_encode _ _
@[simp] theorem length_toLe32 (x : UInt32) : (toLe32 x).length = 4 := length_encode _ _
@[simp] theorem length_toLe64 (x : UInt64) : (toLe64 x).length = 8 := length_encode _ _

@[simp] theorem fromLe16_toLe16 (x : UInt16) : fromLe16 (toLe16 x) = x := by
  rw [fromLe16, toLe16, decode_encode_of_lt (by simpa using x.toNat_lt), UInt16.ofNat_toNat]

@[simp] theorem fromLe32_toLe32 (x : UInt32) : fromLe32 (toLe32 x) = x := by
  rw [fromLe32, toLe32, decode_encode_of_lt (by simpa using x.toNat_lt), UInt32.ofNat_toNat]

@[simp] theorem fromLe64_toLe64 (x : UInt64) : fromLe64 (toLe64 x) = x := by
  rw [fromLe64, toLe64, decode_encode_of_lt (by simpa using x.toNat_lt), UInt64.ofNat_toNat]

/-- Eight bytes are the encoding of their word. -/
theorem toLe64_fromLe64 {bs : List UInt8} (h : bs.length = 8) : toLe64 (fromLe64 bs) = bs := by
  have hlt := decode_lt bs
  rw [h] at hlt
  rw [toLe64, fromLe64, UInt64.toNat_ofNat_of_lt' (by simpa [UInt64.size] using hlt), ← h, encode_decode]

/-- Four bytes are the encoding of their word. -/
theorem toLe32_fromLe32 {bs : List UInt8} (h : bs.length = 4) : toLe32 (fromLe32 bs) = bs := by
  have hlt := decode_lt bs
  rw [h] at hlt
  rw [toLe32, fromLe32, UInt32.toNat_ofNat_of_lt' (by simpa [UInt32.size] using hlt), ← h, encode_decode]

/-! ## Slices -/

variable {α : Type*}

/-- The elements at positions `[a, b)`. -/
def slice (bs : List α) (a b : ℕ) : List α := (bs.drop a).take (b - a)

/-- The elements at `[a, b)`, when that range lies inside the list. -/
def range? (bs : List α) (a b : ℕ) : Option (List α) :=
  if a ≤ b ∧ b ≤ bs.length then some (slice bs a b) else none

theorem length_slice {bs : List α} {a b : ℕ} (h : b ≤ bs.length) :
    (slice bs a b).length = b - a := by
  simp only [slice, List.length_take, List.length_drop]; omega

@[simp] theorem slice_self (bs : List α) (a : ℕ) : slice bs a a = [] := by simp [slice]

theorem range?_of_le {bs : List α} {a b : ℕ} (h : a ≤ b) (hb : b ≤ bs.length) :
    range? bs a b = some (slice bs a b) := if_pos ⟨h, hb⟩

theorem range?_eq_none {bs : List α} {a b : ℕ} (h : bs.length < b) : range? bs a b = none :=
  if_neg (by omega)

/-- Appending does not touch a range that was already inside. -/
theorem slice_append_left {bs cs : List α} {a b : ℕ} (h : b ≤ bs.length) :
    slice (bs ++ cs) a b = slice bs a b := by
  unfold slice
  rcases Nat.le_total a bs.length with ha | ha
  · rw [List.drop_append_of_le_length ha, List.take_append_of_le_length (by simp; omega)]
  · rw [show b - a = 0 by omega, List.take_zero, List.take_zero]

/-- A prefix agrees with the whole on every range inside it. -/
theorem slice_of_isPrefix {bs cs : List α} (hp : bs <+: cs) {a b : ℕ} (h : b ≤ bs.length) :
    slice cs a b = slice bs a b := by
  obtain ⟨t, rfl⟩ := hp
  exact slice_append_left h

/-- What was just appended is found at the old length. -/
theorem slice_append_right (bs d : List α) : slice (bs ++ d) bs.length (bs.length + d.length) = d := by
  simp [slice]

theorem length_of_range? {bs d : List α} {a b : ℕ} (h : range? bs a b = some d) : d.length = b - a := by
  unfold range? at h
  split at h
  · rename_i hab
    rw [← Option.some.inj h, length_slice hab.2]
  · simp at h

/-- A field is found between what precedes and what follows it. -/
theorem slice_mid (pre d post : List α) :
    slice (pre ++ (d ++ post)) pre.length (pre.length + d.length) = d := by
  simp [slice]

theorem getElem_slice {bs : List α} {a b k : ℕ} (h : k < (slice bs a b).length) :
    (slice bs a b)[k] = bs.get ⟨a + k, by simp [slice] at h; omega⟩ := by
  simp [slice]

theorem slice_append_add (bs cs : List α) (a b : ℕ) :
    slice (bs ++ cs) (bs.length + a) (bs.length + b) = slice cs a b := by
  unfold slice
  rw [List.drop_length_add_append, show bs.length + b - (bs.length + a) = b - a by omega]

theorem slice_zero (bs : List α) (b : ℕ) : slice bs 0 b = bs.take b := by simp [slice]

theorem slice_take {bs : List α} {a b n : ℕ} (h : b ≤ n) : slice (bs.take n) a b = slice bs a b := by
  unfold slice
  rw [List.drop_take, List.take_take, Nat.min_eq_left (by omega)]

/-- Neighbouring ranges make one. -/
theorem slice_append_slice (bs : List α) {a b c : ℕ} (hab : a ≤ b) (hbc : b ≤ c) :
    slice bs a b ++ slice bs b c = slice bs a c := by
  unfold slice
  have hdrop : bs.drop b = (bs.drop a).drop (b - a) := by
    rw [List.drop_drop]
    congr 1
    omega
  rw [hdrop, show c - a = (b - a) + (c - b) by omega, List.take_add]

/-- One element is the range that starts there. -/
theorem singleton_getD {bs : List α} {i : ℕ} (h : i < bs.length) (d : α) : [bs.getD i d] = slice bs i (i + 1) := by
  unfold slice
  rw [List.getD_eq_getElem?_getD, Nat.add_sub_cancel_left, List.take_one, List.head?_drop, List.getElem?_eq_getElem h]
  rfl

/-! ## Chunks of a fixed size -/

/-- The whole chunks of `n` elements, in order; a shorter rest is left out. -/
def chunksExact (n : ℕ) (bs : List α) : List (List α) :=
  (List.range (bs.length / n)).map fun i => slice bs (i * n) ((i + 1) * n)

theorem chunksExact_nil (n : ℕ) : chunksExact n ([] : List α) = [] := by simp [chunksExact]

theorem chunksExact_append {n : ℕ} (hn : 0 < n) {c bs : List α} (hc : c.length = n) :
    chunksExact n (c ++ bs) = c :: chunksExact n bs := by
  unfold chunksExact
  have hlen : (c ++ bs).length / n = bs.length / n + 1 := by
    rw [List.length_append, hc, Nat.add_comm, Nat.add_div_right _ hn]
  rw [hlen, List.range_succ_eq_map, List.map_cons, List.map_map]
  congr 1
  · rw [Nat.zero_mul, Nat.zero_add, Nat.one_mul, slice_zero, List.take_left' hc]
  · apply List.map_congr_left
    intro i _
    have h1 : (i + 1) * n = c.length + i * n := by rw [hc]; ring
    have h2 : (i + 1 + 1) * n = c.length + (i + 1) * n := by rw [hc]; ring
    simp only [Function.comp, Nat.succ_eq_add_one]
    rw [h2, h1, slice_append_add]

/-- The chunks of a concatenation of blocks of that size are the blocks. -/
theorem chunksExact_flatMap {β : Type*} {n : ℕ} (hn : 0 < n) {f : β → List α}
    (hf : ∀ b, (f b).length = n) (l : List β) : chunksExact n (l.flatMap f) = l.map f := by
  induction l with
  | nil => simp [chunksExact]
  | cons b l ih => rw [List.flatMap_cons, chunksExact_append hn (hf b), ih, List.map_cons]

/-- The `i`-th block of a concatenation of blocks of one size. -/
theorem slice_flatMap {β : Type*} {n : ℕ} {f : β → List α} (hf : ∀ b, (f b).length = n) :
    ∀ (l : List β) (i : ℕ) (h : i < l.length), slice (l.flatMap f) (i * n) (i * n + n) = f l[i] := by
  intro l
  induction l with
  | nil => intro i h; simp at h
  | cons b l ih =>
    intro i h
    cases i with
    | zero => simp [slice, List.take_left' (hf b)]
    | succ i =>
      have hi : i < l.length := by simpa using h
      rw [List.flatMap_cons, show (i + 1) * n = (f b).length + i * n by rw [hf]; ring,
        show (f b).length + i * n + n = (f b).length + (i * n + n) by ring, slice_append_add, ih i hi]
      rfl

end Bytes
