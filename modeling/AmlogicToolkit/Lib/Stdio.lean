import AmlogicToolkit.Lib.Bytes

/-!
# Buffered streams

A stream of the C library on a regular file. What is written to it may stay in its buffer until the
stream is flushed, which a seek and the exit of the program do; truncating the file behind the
stream does not. The buffer empties from its front, so that a stream that has handed over less than
all of its bytes holds back a number of the last ones (`held`), and what the file holds at the end is
a function of that number at the one place where it matters (`Stream.ftruncate`).
-/

namespace Stdio

open Bytes

/-- A stream: the file, the position of the first byte in the buffer, and the buffer. -/
structure Stream where
  /-- What the file holds. -/
  disk : List UInt8
  /-- The position of the buffer in the file. -/
  pos : ℕ
  /-- The bytes written that are not in the file yet. -/
  pending : List UInt8
  deriving DecidableEq

namespace Stream

/-- A stream on an open file. -/
def ofFile (disk : List UInt8) : Stream := ⟨disk, 0, []⟩

/-- The position that the program sees. -/
def tell (s : Stream) : ℕ := s.pos + s.pending.length

/-- What the file holds when the buffer is written. -/
def image (s : Stream) : List UInt8 := overwrite 0 s.disk s.pos s.pending

/-- `fflush`, and what `exit` does: what is pending goes to disk. -/
def flush (s : Stream) : Stream := ⟨s.image, s.tell, []⟩

/-- `fseek` from the start of the file. -/
def fseek (s : Stream) (offset : ℕ) : Stream := { s.flush with pos := offset }

/-- `fread` of one item of `size` bytes: none when the item is empty or the file ends inside it. -/
def fread (s : Stream) (size : ℕ) : Option (List UInt8 × Stream) :=
  if 0 < size ∧ s.tell + size ≤ s.image.length then
    some (slice s.image s.tell size, { s.flush with pos := s.tell + size })
  else none

/-- `fwrite`: the data is pending until it is flushed, and the position moves behind it. -/
def fwrite (s : Stream) (data : List UInt8) : Stream := { s with pending := s.pending ++ data }

/-- `ftruncate` of the file behind the stream, while the stream holds back the last `held` bytes of
its buffer, or all of it when there are fewer. -/
def ftruncate (s : Stream) (held size : ℕ) : Stream :=
  let out := s.pending.length - held
  ⟨resize 0 size (overwrite 0 s.disk s.pos (s.pending.take out)), s.pos + out, s.pending.drop out⟩

/-- A stream just opened shows the file on disk. -/
@[simp] theorem image_ofFile (disk : List UInt8) : (ofFile disk).image = disk := rfl

/-- A stream just opened stands at the start of the file. -/
@[simp] theorem tell_ofFile (disk : List UInt8) : (ofFile disk).tell = 0 := rfl

/-- Flushing changes nothing of what the stream shows. -/
@[simp] theorem image_flush (s : Stream) : s.flush.image = s.image := rfl

/-- Seeking changes nothing of what the stream shows. -/
@[simp] theorem image_fseek (s : Stream) (offset : ℕ) : (s.fseek offset).image = s.image := rfl

/-- After a seek the stream stands at the offset. -/
@[simp] theorem tell_fseek (s : Stream) (offset : ℕ) : (s.fseek offset).tell = offset := rfl

/-- A write advances the stream by the length of its data. -/
@[simp]
theorem tell_fwrite (s : Stream) (data : List UInt8) :
    (s.fwrite data).tell = s.tell + data.length := by
  simp [tell, fwrite, Nat.add_assoc]

/-- A write shows at the position that the program sees. -/
@[simp]
theorem image_fwrite (s : Stream) (data : List UInt8) :
    (s.fwrite data).image = overwrite 0 s.image s.tell data :=
  (overwrite_append 0 s.disk s.pos s.pending data).symm

/-- Something is in the buffer after a write of something. -/
theorem pending_fwrite_ne_nil (s : Stream) {data : List UInt8} (h : data ≠ []) :
    (s.fwrite data).pending ≠ [] := by
  simp [fwrite, h]

/-- A read gives a slice of the file. -/
theorem fread_eq_some {s : Stream} {size : ℕ} (h0 : 0 < size)
    (h : s.tell + size ≤ s.image.length) :
    s.fread size = some (slice s.image s.tell size, { s.flush with pos := s.tell + size }) :=
  if_pos ⟨h0, h⟩

/-! ## Truncating -/

/-- **Below the size**, the file holds in the end what was written, whatever was held back. -/
theorem getD_image_ftruncate (s : Stream) (held : ℕ) {size i : ℕ} (h : i < size) :
    (s.ftruncate held size).image.getD i 0 = s.image.getD i 0 := by
  have hsplit := overwrite_append 0 s.disk s.pos (s.pending.take (s.pending.length - held))
    (s.pending.drop (s.pending.length - held))
  rw [List.take_append_drop, List.length_take, Nat.min_eq_left (Nat.sub_le _ _)] at hsplit
  rw [image, ftruncate, image, ← hsplit]
  simp only [getD_overwrite, getD_resize, if_pos h]

/-- **The size** that the file has in the end: what was held back is written behind the cut. -/
theorem length_image_ftruncate (s : Stream) (held size : ℕ) :
    (s.ftruncate held size).image.length =
      if held = 0 ∨ s.pending = [] then size else max size s.tell := by
  rw [image, ftruncate]
  by_cases h : held = 0 ∨ s.pending = []
  · have hnil : s.pending.drop (s.pending.length - held) = [] := by
      rcases h with rfl | h
      · simp
      · simp [h]
    rw [if_pos h, hnil, overwrite_nil, length_resize]
  · rw [not_or] at h
    have hpos : 0 < s.pending.length := List.length_pos_iff.mpr h.2
    have hne : s.pending.drop (s.pending.length - held) ≠ [] := fun hnil => by
      rw [List.drop_eq_nil_iff] at hnil
      omega
    rw [if_neg (not_or.mpr h), length_overwrite 0 _ _ hne, length_resize, List.length_drop, tell]
    dsimp only
    omega

end Stream

/-! ## What a file holds -/

/-- A file holds `data` at a position, when it is read as zero behind its end. -/
def Stored (file : List UInt8) (off : ℕ) (data : List UInt8) : Prop :=
  ∀ i < data.length, file.getD (off + i) 0 = data.getD i 0

section

variable {file data more : List UInt8} {off pos : ℕ}

/-- A file holds its own bytes. -/
theorem stored_slice (file : List UInt8) (off n : ℕ) : Stored file off (slice file off n) := by
  intro i hi
  rw [length_slice] at hi
  rw [getD_slice, if_pos (by omega)]

/-- Data inside a file that holds it is a slice of the file. -/
theorem Stored.slice_eq (h : Stored file off data) (hle : off + data.length ≤ file.length) :
    slice file off data.length = data := by
  refine ext_getD (z := 0) (length_slice_of_le hle) fun i hi => ?_
  rw [length_slice_of_le hle] at hi
  rw [getD_slice, if_pos hi, h i hi]

/-- What is held at a position is determined by its length. -/
theorem Stored.unique (h : Stored file off data) (h' : Stored file off more)
    (hlen : data.length = more.length) : data = more :=
  ext_getD (z := 0) hlen fun i hi => (h i hi).symm.trans (h' i (hlen ▸ hi))

/-- A write stores its data. -/
theorem stored_overwrite (file : List UInt8) (pos : ℕ) (data : List UInt8) :
    Stored (overwrite 0 file pos data) pos data := by
  intro i hi
  rw [getD_overwrite, if_pos (by omega), Nat.add_sub_cancel_left]

/-- A write elsewhere keeps what is held. -/
theorem Stored.overwrite (h : Stored file off data)
    (hd : off + data.length ≤ pos ∨ pos + more.length ≤ off) :
    Stored (overwrite 0 file pos more) off data := by
  intro i hi
  rw [getD_overwrite, if_neg (by omega), h i hi]

/-- Truncating behind the data keeps it. -/
theorem Stored.ftruncate {s : Stream} (h : Stored s.image off data) (held : ℕ) {size : ℕ}
    (hle : off + data.length ≤ size) : Stored (s.ftruncate held size).image off data := by
  intro i hi
  rw [s.getD_image_ftruncate held (by omega), h i hi]

end

end Stdio
