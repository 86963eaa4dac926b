import Bxdb.Lib.Bytes
import Mathlib.Data.List.Basic
import Mathlib.Order.Basic

/-!
# A buffered writer over a file

A file with a cursor (`RawFile`) and the standard buffered writer over it
(`BufWriter`): bytes are held back until they no longer fit, until a flush, or
until a seek. The operating system may stop taking bytes anywhere (`Fault`), and
stops at the file's limit; the write then fails.

The **logical stream** of a writer is the file followed by the held-back bytes.
For a writer at the end of its file, a call that succeeds adds exactly its data
to the stream (`writeAll_stream`), a failed call with less data than the capacity
adds nothing (`writeAll_stream_err`), and the file only grows (`writeAll_file`).
-/

namespace Buffered

/-- How many bytes the operating system takes before it reports an error, if it
reports one. -/
abbrev Fault := Option ℕ

/-! ## Files -/

/-- An open file: its bytes, the cursor, whether it was opened for appending, and
the length no write takes it past. -/
structure RawFile where
  bytes : List UInt8
  pos : ℕ
  append : Bool
  limit : Option ℕ

namespace RawFile

variable {f : RawFile} {d : List UInt8} {fault : Fault}

/-- `d` written over `bs` at position `p`. -/
def writeAt (bs : List UInt8) (p : ℕ) (d : List UInt8) : List UInt8 :=
  bs.take p ++ List.replicate (p - bs.length) 0 ++ d ++ bs.drop (p + d.length)

/-- Where the next write lands. -/
def cursor (f : RawFile) : ℕ := if f.append then f.bytes.length else f.pos

def put (f : RawFile) (d : List UInt8) : RawFile :=
  { f with bytes := writeAt f.bytes f.cursor d, pos := f.cursor + d.length }

/-- How many bytes of `d` the operating system takes. -/
def takes (fault : Fault) (f : RawFile) (d : List UInt8) : ℕ :=
  let room := match f.limit with
    | none => d.length
    | some m => m - f.cursor
  min d.length (min room (fault.getD d.length))

/-- `write_all` on the file itself, with the number of bytes taken; it succeeds
when that is all of them. -/
def writeAll (fault : Fault) (f : RawFile) (d : List UInt8) : RawFile × ℕ :=
  (f.put (d.take (f.takes fault d)), f.takes fault d)

def seek (f : RawFile) (p : ℕ) : RawFile := { f with pos := p }

/-- The file's next write lands at its end. -/
def Appends (f : RawFile) : Prop := f.cursor = f.bytes.length

/-- The file respects its limit. -/
def Within (f : RawFile) : Prop := ∀ m, f.limit = some m → f.bytes.length ≤ m

theorem appends_of_append (h : f.append = true) : f.Appends := by
  simp [Appends, cursor, h]

theorem writeAt_end (bs d : List UInt8) : writeAt bs bs.length d = bs ++ d := by
  simp [writeAt]

/-- Writing over bytes the file has keeps its length. -/
theorem length_writeAt {bs d : List UInt8} {p : ℕ} (h : p + d.length ≤ bs.length) :
    (writeAt bs p d).length = bs.length := by
  simp [writeAt]; omega

/-- A write inside the file replaces the middle. -/
theorem writeAt_inside {bs d : List UInt8} {p : ℕ} (h : p ≤ bs.length) :
    writeAt bs p d = bs.take p ++ (d ++ bs.drop (p + d.length)) := by
  unfold writeAt
  rw [Nat.sub_eq_zero_of_le h, List.replicate_zero, List.append_nil, List.append_assoc]

/-- What was written is read back. -/
theorem slice_writeAt_self {bs d : List UInt8} {p : ℕ} (h : p + d.length ≤ bs.length) :
    Bytes.slice (writeAt bs p d) p (p + d.length) = d := by
  have hpre : (bs.take p).length = p := List.length_take_of_le (by omega)
  have hmid := Bytes.slice_mid (bs.take p) d (bs.drop (p + d.length))
  rw [writeAt_inside (by omega)]
  rwa [hpre] at hmid

/-- What lies before or behind the write stays. -/
theorem slice_writeAt_disjoint {bs d : List UInt8} {p a b : ℕ} (h : p + d.length ≤ bs.length)
    (hd : b ≤ p ∨ p + d.length ≤ a ∧ a ≤ b) : Bytes.slice (writeAt bs p d) a b = Bytes.slice bs a b := by
  have hpre : (bs.take p).length = p := List.length_take_of_le (by omega)
  rw [writeAt_inside (by omega)]
  rcases hd with hb | ⟨ha, hab⟩
  · rw [Bytes.slice_append_left (by omega), Bytes.slice_take hb]
  · have hlen : (bs.take p ++ d).length = p + d.length := by rw [List.length_append, hpre]
    have hskip := Bytes.slice_append_add (bs.take p ++ d) (bs.drop (p + d.length)) (a - (p + d.length)) (b - (p + d.length))
    rw [hlen, Nat.add_sub_cancel' ha, Nat.add_sub_cancel' (ha.trans hab)] at hskip
    rw [← List.append_assoc, hskip]
    unfold Bytes.slice
    rw [List.drop_drop, Nat.add_sub_cancel' ha, Nat.sub_sub_sub_cancel_right (ha)]

theorem put_bytes (h : f.Appends) (d : List UInt8) : (f.put d).bytes = f.bytes ++ d := by
  simp only [put]; rw [h, writeAt_end]

@[simp] theorem seek_bytes (f : RawFile) (p : ℕ) : (f.seek p).bytes = f.bytes := rfl

@[simp] theorem seek_limit (f : RawFile) (p : ℕ) : (f.seek p).limit = f.limit := rfl

@[simp] theorem seek_append (f : RawFile) (p : ℕ) : (f.seek p).append = f.append := rfl

@[simp] theorem put_limit (f : RawFile) (d : List UInt8) : (f.put d).limit = f.limit := rfl

@[simp] theorem put_append (f : RawFile) (d : List UInt8) : (f.put d).append = f.append := rfl

theorem put_appends (h : f.Appends) (d : List UInt8) : (f.put d).Appends := by
  unfold Appends
  cases ha : f.append with
  | true => simp [cursor, ha]
  | false =>
    have hp : (f.put d).pos = f.cursor + d.length := rfl
    rw [put_bytes h, List.length_append, ← h, ← hp]
    simp [cursor, ha]

/-- Without an error and within the limit, every byte is taken. -/
theorem takes_room (h : f.Appends) {d : List UInt8} (hr : ∀ m, f.limit = some m → f.bytes.length + d.length ≤ m) :
    f.takes none d = d.length := by
  unfold takes
  cases hl : f.limit with
  | none => simp
  | some m =>
    have := hr m hl
    have hc : f.cursor = f.bytes.length := h
    simp only [Option.getD_none]
    omega

/-- Without an error and a limit, every byte is taken. -/
theorem takes_unlimited (h : f.limit = none) (d : List UInt8) : f.takes none d = d.length := by
  simp [takes, h]

theorem put_within (h : f.Appends) (hw : f.Within) (fault : Fault) (d : List UInt8) :
    (f.put (d.take (f.takes fault d))).Within := by
  intro m hm
  rw [put_limit] at hm
  have hlen := hw m hm
  have hk : f.takes fault d ≤ m - f.cursor := by
    simp only [takes, hm]
    exact Nat.le_trans (Nat.min_le_right _ _) (Nat.min_le_left _ _)
  have hc : f.cursor = f.bytes.length := h
  rw [put_bytes h, List.length_append, List.length_take]
  omega

end RawFile

/-! ## The buffered writer -/

/-- A writer that holds back up to `cap` bytes. -/
structure BufWriter where
  cap : ℕ
  file : RawFile
  buf : List UInt8

namespace BufWriter

variable {w w' : BufWriter} {d : List UInt8} {fault : Fault}

/-- A new writer over an open file, nothing held back. -/
def new (cap : ℕ) (file : RawFile) : BufWriter := ⟨cap, file, []⟩

def spareCapacity (w : BufWriter) : ℕ := w.cap - w.buf.length

/-- Write the held-back bytes out. On a failure the bytes that were written leave
the buffer and the rest stays. -/
def flushBuf (fault : Fault) (w : BufWriter) : BufWriter × Bool :=
  if w.buf.isEmpty then (w, true)
  else
    ({ w with file := (w.file.writeAll fault w.buf).1, buf := w.buf.drop (w.file.writeAll fault w.buf).2 },
      (w.file.writeAll fault w.buf).2 == w.buf.length)

/-- The end of `write_all`, once there is room or nothing is held back. -/
def writeRest (fault : Fault) (w : BufWriter) (d : List UInt8) : BufWriter × Bool :=
  if w.cap ≤ d.length then
    ({ w with file := (w.file.writeAll fault d).1 }, (w.file.writeAll fault d).2 == d.length)
  else ({ w with buf := w.buf ++ d }, true)

/-- `write_all`: copy when the data fits strictly; otherwise make room first, and
hand data of at least the capacity straight to the file. -/
def writeAll (fault : Fault) (w : BufWriter) (d : List UInt8) : BufWriter × Bool :=
  if d.length < w.spareCapacity then ({ w with buf := w.buf ++ d }, true)
  else if w.spareCapacity < d.length then
    if (w.flushBuf fault).2 then (w.flushBuf fault).1.writeRest fault d else ((w.flushBuf fault).1, false)
  else w.writeRest fault d

/-- `seek` flushes before it moves the cursor. -/
def seek (w : BufWriter) (p : ℕ) : BufWriter :=
  let w' := (w.flushBuf none).1
  { w' with file := w'.file.seek p }

def seekEnd (w : BufWriter) : BufWriter :=
  let w' := (w.flushBuf none).1
  { w' with file := w'.file.seek w'.file.bytes.length }

/-- The logical stream: the file followed by the held-back bytes. -/
def stream (w : BufWriter) : List UInt8 := w.file.bytes ++ w.buf

/-- The writer's file is written at its end and within its limit, and no more than
the capacity is held back. -/
structure Ok (w : BufWriter) : Prop where
  appends : w.file.Appends
  within : w.file.Within
  room : w.buf.length ≤ w.cap

theorem new_ok {cap : ℕ} {f : RawFile} (ha : f.Appends) (hw : f.Within) : (new cap f).Ok :=
  ⟨ha, hw, Nat.zero_le _⟩

@[simp] theorem new_stream (cap : ℕ) (f : RawFile) : (new cap f).stream = f.bytes := by
  simp [new, stream]

/-! ### Flushing -/

/-- **Flushing moves bytes from the buffer to the file**, whether it succeeds or not. -/
theorem flushBuf_stream (hw : w.Ok) (fault : Fault) : (w.flushBuf fault).1.stream = w.stream := by
  unfold flushBuf
  split
  · rfl
  · simp only [RawFile.writeAll, stream]
    rw [RawFile.put_bytes hw.appends, List.append_assoc, List.take_append_drop]

theorem flushBuf_ok (hw : w.Ok) (fault : Fault) : (w.flushBuf fault).1.Ok := by
  unfold flushBuf
  split
  · exact hw
  · refine ⟨RawFile.put_appends hw.appends _, RawFile.put_within hw.appends hw.within _ _, ?_⟩
    have := hw.room
    simp only [List.length_drop]; omega

theorem flushBuf_file (hw : w.Ok) (fault : Fault) :
    w.file.bytes <+: (w.flushBuf fault).1.file.bytes := by
  unfold flushBuf
  split
  · exact List.prefix_refl _
  · simp only [RawFile.writeAll]
    rw [RawFile.put_bytes hw.appends]; exact List.prefix_append _ _

/-- A flush that succeeds leaves nothing behind. -/
theorem flushBuf_buf (h : (w.flushBuf fault).2 = true) : (w.flushBuf fault).1.buf = [] := by
  unfold flushBuf at h ⊢
  split
  · rename_i he; simpa using he
  · rename_i he
    simp only [he, Bool.false_eq_true, if_false, beq_iff_eq] at h ⊢
    rw [h, List.drop_length]

/-- After a flush that succeeds the file is the whole stream. -/
theorem flushBuf_bytes (hw : w.Ok) (h : (w.flushBuf fault).2 = true) :
    (w.flushBuf fault).1.file.bytes = w.stream := by
  have hs := flushBuf_stream hw fault
  rw [stream, flushBuf_buf h, List.append_nil] at hs
  exact hs

@[simp] theorem flushBuf_cap (fault : Fault) (w : BufWriter) : (w.flushBuf fault).1.cap = w.cap := by
  unfold flushBuf; split <;> rfl

@[simp] theorem flushBuf_limit (fault : Fault) (w : BufWriter) :
    (w.flushBuf fault).1.file.limit = w.file.limit := by
  unfold flushBuf; split <;> rfl

@[simp] theorem flushBuf_append (fault : Fault) (w : BufWriter) :
    (w.flushBuf fault).1.file.append = w.file.append := by
  unfold flushBuf; split <;> rfl

/-- Without an error and a limit, a flush succeeds. -/
theorem flushBuf_unlimited (h : w.file.limit = none) : (w.flushBuf none).2 = true := by
  unfold flushBuf
  split
  · rfl
  · simp only [RawFile.writeAll]
    rw [RawFile.takes_unlimited h]; simp

/-! ### Writing -/

theorem writeRest_stream (hw : w.Ok) (hb : w.cap ≤ d.length → w.buf = [])
    (h : (w.writeRest fault d).2 = true) : (w.writeRest fault d).1.stream = w.stream ++ d := by
  unfold writeRest at h ⊢
  split
  · rename_i hc
    simp only [hc, if_true, RawFile.writeAll, beq_iff_eq] at h
    simp only [stream, RawFile.writeAll]
    rw [hb hc, List.append_nil, List.append_nil, RawFile.put_bytes hw.appends, h, List.take_length]
  · simp [stream]

/-- **A write that succeeds adds its data to the stream.** -/
theorem writeAll_stream (hw : w.Ok) (h : (w.writeAll fault d).2 = true) :
    (w.writeAll fault d).1.stream = w.stream ++ d := by
  unfold writeAll at h ⊢
  split
  · simp [stream]
  · rename_i h1
    rw [if_neg h1] at h
    split
    · rename_i h2
      simp only [h2, if_true] at h
      by_cases hf : (w.flushBuf fault).2 = true
      · rw [if_pos hf] at h ⊢
        rw [writeRest_stream (flushBuf_ok hw fault) (fun _ => flushBuf_buf hf) h,
          flushBuf_stream hw]
      · rw [if_neg hf] at h; simp at h
    · rename_i h2
      rw [if_neg h2] at h
      refine writeRest_stream hw (fun hc => ?_) h
      -- data of the capacity's length fits exactly only into an empty buffer
      have hr := hw.room
      unfold spareCapacity at h1 h2
      have : w.buf.length = 0 := by omega
      exact List.length_eq_zero_iff.1 this

/-- **A failed write of less than the capacity adds nothing to the stream.** -/
theorem writeAll_stream_err (hw : w.Ok) (hd : d.length < w.cap)
    (h : (w.writeAll fault d).2 = false) : (w.writeAll fault d).1.stream = w.stream := by
  have hrest : ∀ w₀ : BufWriter, w₀.cap = w.cap → (w₀.writeRest fault d).2 = true := by
    intro w₀ hc
    unfold writeRest; rw [if_neg (by omega)]
  unfold writeAll at h ⊢
  split
  · rename_i h1; simp [h1] at h
  · rename_i h1
    rw [if_neg h1] at h
    split
    · rename_i h2
      simp only [h2, if_true] at h
      by_cases hf : (w.flushBuf fault).2 = true
      · rw [if_pos hf, hrest _ (flushBuf_cap _ _)] at h; simp at h
      · rw [if_neg hf]; exact flushBuf_stream hw fault
    · rename_i h2
      rw [if_neg h2, hrest w rfl] at h; simp at h

theorem writeRest_ok (hw : w.Ok) (hb : d.length < w.cap → w.buf.length + d.length ≤ w.cap)
    (fault : Fault) : (w.writeRest fault d).1.Ok := by
  unfold writeRest
  split
  · exact ⟨RawFile.put_appends hw.appends _, RawFile.put_within hw.appends hw.within _ _, hw.room⟩
  · rename_i hc
    have := hb (Nat.lt_of_not_le hc)
    exact ⟨hw.appends, hw.within, by rw [List.length_append]; exact this⟩

theorem writeAll_ok (hw : w.Ok) (fault : Fault) (d : List UInt8) : (w.writeAll fault d).1.Ok := by
  unfold writeAll
  split
  · rename_i h1
    refine ⟨hw.appends, hw.within, ?_⟩
    show (w.buf ++ d).length ≤ w.cap
    unfold spareCapacity at h1
    rw [List.length_append]; omega
  · rename_i h1
    split
    · by_cases hf : (w.flushBuf fault).2 = true
      · rw [if_pos hf]
        refine writeRest_ok (flushBuf_ok hw fault) (fun hc => ?_) fault
        rw [flushBuf_cap] at hc
        rw [flushBuf_buf hf, flushBuf_cap, List.length_nil]; omega
      · rw [if_neg hf]; exact flushBuf_ok hw fault
    · rename_i h2
      refine writeRest_ok hw (fun hc => ?_) fault
      have hr := hw.room
      unfold spareCapacity at h1 h2
      omega

theorem writeRest_file (hw : w.Ok) (fault : Fault) (d : List UInt8) :
    w.file.bytes <+: (w.writeRest fault d).1.file.bytes := by
  unfold writeRest
  split
  · simp only [RawFile.writeAll]
    rw [RawFile.put_bytes hw.appends]; exact List.prefix_append _ _
  · exact List.prefix_refl _

/-- **The file only grows.** -/
theorem writeAll_file (hw : w.Ok) (fault : Fault) (d : List UInt8) :
    w.file.bytes <+: (w.writeAll fault d).1.file.bytes := by
  unfold writeAll
  split
  · exact List.prefix_refl _
  · split
    · by_cases hf : (w.flushBuf fault).2 = true
      · rw [if_pos hf]
        exact (flushBuf_file hw fault).trans (writeRest_file (flushBuf_ok hw fault) fault d)
      · rw [if_neg hf]; exact flushBuf_file hw fault
    · exact writeRest_file hw fault d

@[simp] theorem writeAll_cap (fault : Fault) (w : BufWriter) (d : List UInt8) :
    (w.writeAll fault d).1.cap = w.cap := by
  unfold writeAll writeRest
  split_ifs <;> simp

@[simp] theorem writeAll_limit (fault : Fault) (w : BufWriter) (d : List UInt8) :
    (w.writeAll fault d).1.file.limit = w.file.limit := by
  unfold writeAll writeRest
  split_ifs <;> simp [RawFile.writeAll]

@[simp] theorem writeAll_append (fault : Fault) (w : BufWriter) (d : List UInt8) :
    (w.writeAll fault d).1.file.append = w.file.append := by
  unfold writeAll writeRest
  split_ifs <;> simp [RawFile.writeAll]

/-- **Data below the capacity that is not empty leaves something held back.** -/
theorem writeAll_buf (hd : d.length < w.cap) (hne : d ≠ [])
    (h : (w.writeAll fault d).2 = true) : (w.writeAll fault d).1.buf ≠ [] := by
  have hc : ¬ w.cap ≤ d.length := by omega
  unfold writeAll writeRest at h ⊢
  simp only [flushBuf_cap, hc, if_false] at h ⊢
  split_ifs at h ⊢ <;> simp_all

/-- Nothing to write changes nothing. -/
theorem writeAll_nil (hc : 0 < w.cap) (fault : Fault) : (w.writeAll fault []).1 = w := by
  have hcap : ¬ w.cap ≤ ([] : List UInt8).length := Nat.not_le.2 hc
  unfold writeAll writeRest
  rw [if_neg hcap, List.append_nil]
  split
  · rfl
  · rw [if_neg (by simp)]

/-- Without an error and a limit, a write succeeds. -/
theorem writeAll_unlimited (h : w.file.limit = none) : (w.writeAll none d).2 = true := by
  have hrest : ∀ w₀ : BufWriter, w₀.file.limit = none → (w₀.writeRest none d).2 = true := by
    intro w₀ h₀
    unfold writeRest
    split
    · simp only [RawFile.writeAll]; rw [RawFile.takes_unlimited h₀]; simp
    · rfl
  unfold writeAll
  split
  · rfl
  · split
    · rw [if_pos (flushBuf_unlimited h)]
      exact hrest _ (by rw [flushBuf_limit]; exact h)
    · exact hrest w h

/-! ### Room -/

/-- **A flush within the limit succeeds.** -/
theorem flushBuf_room (hw : w.Ok) (hr : ∀ m, w.file.limit = some m → w.stream.length ≤ m) :
    (w.flushBuf none).2 = true := by
  unfold flushBuf
  split
  · rfl
  · have ht : w.file.takes none w.buf = w.buf.length :=
      RawFile.takes_room hw.appends fun m hm => by
        have := hr m hm
        rwa [stream, List.length_append] at this
    simp only [RawFile.writeAll, ht, beq_self_eq_true]

theorem writeRest_room (hw : w.Ok) (hb : w.cap ≤ d.length → w.buf = [])
    (hr : ∀ m, w.file.limit = some m → w.stream.length + d.length ≤ m) : (w.writeRest none d).2 = true := by
  unfold writeRest
  split
  · rename_i hc
    have ht : w.file.takes none d = d.length :=
      RawFile.takes_room hw.appends fun m hm => by
        have := hr m hm
        rw [stream, hb hc, List.append_nil] at this
        exact this
    simp only [RawFile.writeAll, ht, beq_self_eq_true]
  · rfl

/-- **A write within the limit succeeds.** -/
theorem writeAll_room (hw : w.Ok) (hr : ∀ m, w.file.limit = some m → w.stream.length + d.length ≤ m) :
    (w.writeAll none d).2 = true := by
  have hf : (w.flushBuf none).2 = true := flushBuf_room hw fun m hm => by
    have := hr m hm
    omega
  unfold writeAll
  split
  · rfl
  · rename_i h1
    split
    · refine writeRest_room (flushBuf_ok hw none) (fun _ => flushBuf_buf hf) fun m hm => ?_
      rw [flushBuf_limit] at hm
      rw [flushBuf_stream hw]
      exact hr m hm
    · rename_i h2
      refine writeRest_room hw (fun hc => ?_) hr
      -- data of the capacity's length fits exactly only into an empty buffer
      have hroom := hw.room
      unfold spareCapacity at h1 h2
      exact List.length_eq_zero_iff.1 (by omega)

/-! ### Writing in place -/

/-- Seek to a position, write less than the capacity there, seek to the end. -/
def overwrite (w : BufWriter) (p : ℕ) (d : List UInt8) : BufWriter := ((w.seek p).writeAll none d).1.seekEnd

/-- **Overwriting in place**: the stream goes to the file, the data over it, and
nothing is held back. -/
theorem overwrite_spec (hw : w.Ok) (hl : w.file.limit = none) (ha : w.file.append = false)
    (hd : d.length < w.cap) (hne : d ≠ []) (p : ℕ) :
    (w.overwrite p d).file.bytes = RawFile.writeAt w.stream p d ∧ (w.overwrite p d).buf = [] ∧
      (w.overwrite p d).cap = w.cap ∧ (w.overwrite p d).file.limit = none ∧
      (w.overwrite p d).file.append = false ∧ (w.overwrite p d).Ok := by
  have hf := flushBuf_unlimited hl
  have hbytes := flushBuf_bytes hw hf
  have hbuf := flushBuf_buf hf
  have hcap : (w.flushBuf none).1.cap = w.cap := flushBuf_cap _ _
  have hlim : (w.flushBuf none).1.file.limit = none := (flushBuf_limit _ _).trans hl
  have happ : (w.flushBuf none).1.file.append = false := (flushBuf_append _ _).trans ha
  have hseek : w.seek p = { (w.flushBuf none).1 with file := (w.flushBuf none).1.file.seek p } := rfl
  set w1 := (w.flushBuf none).1
  -- after the first seek the buffer is empty, so the data fits
  have hwrite : ((w.seek p).writeAll none d).1 = ⟨w1.cap, w1.file.seek p, d⟩ := by
    have hfits : d.length < w1.cap - ([] : List UInt8).length := by
      rw [hcap, List.length_nil]; omega
    rw [hseek]
    unfold writeAll spareCapacity
    simp only [hbuf, hfits, if_true, List.nil_append]
  have hempty : d.isEmpty = false := by simpa using hne
  have htakes : (w1.file.seek p).takes none d = d.length :=
    RawFile.takes_unlimited (by rw [RawFile.seek_limit]; exact hlim) d
  have hput : (w1.file.seek p).put d = ⟨RawFile.writeAt w.stream p d, p + d.length, false, none⟩ := by
    simp only [RawFile.put, RawFile.cursor, RawFile.seek, happ, Bool.false_eq_true, if_false, hbytes, hlim]
  have hflush : (BufWriter.flushBuf none ⟨w1.cap, w1.file.seek p, d⟩).1 =
      ⟨w1.cap, ⟨RawFile.writeAt w.stream p d, p + d.length, false, none⟩, []⟩ := by
    unfold flushBuf
    simp only [hempty, Bool.false_eq_true, if_false, RawFile.writeAll, htakes, List.take_length,
      List.drop_length, hput]
  have hend : w.overwrite p d = ⟨w1.cap, ⟨RawFile.writeAt w.stream p d,
      (RawFile.writeAt w.stream p d).length, false, none⟩, []⟩ := by
    unfold overwrite
    rw [hwrite]
    unfold seekEnd
    rw [hflush]
    rfl
  rw [hend]
  refine ⟨rfl, rfl, hcap, rfl, rfl, ⟨rfl, fun m hm => ?_, Nat.zero_le _⟩⟩
  simp at hm

end BufWriter

end Buffered
