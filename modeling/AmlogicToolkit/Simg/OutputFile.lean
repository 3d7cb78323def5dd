import AmlogicToolkit.Simg.BackedBlock
import AmlogicToolkit.Simg.Crc32
import AmlogicToolkit.Simg.Format
import Mathlib.Data.PNat.Notation

/-!
# The output file

`output_file.c`: the low-level operations of an output file (`struct output_file_ops`, for a file
descriptor and for a callback), the chunk writers of the two formats over them
(`struct sparse_file_ops`), and reading with `read_all`. The compressed back end is in `Callbacks`.

A function that returns an `int` and changes the output file returns both. A buffer is the list of
the bytes that can be read at the pointer, next to the length that the call names: a call that names
more bytes than there are (a mapping that reaches past the end of the file) fails.

`block_size` is not zero where a writer divides by it: `sparse_count_chunks` and `output_file_init`
have divided by it before.
-/

namespace AmlogicToolkit.Simg

open Bytes

/-- `EINVAL`, as Linux numbers it. -/
def EINVAL : ℤ := 22

/-- `ENOMEM`, as Linux numbers it. -/
def ENOMEM : ℤ := 12

/-- `INT_MAX` of an `int` with 32 bits. -/
def INT_MAX : ℤ := 2 ^ 31 - 1

/-- The conversion to a 32-bit `int`. -/
def toInt (n : ℤ) : ℤ := if n % 2 ^ 32 < 2 ^ 31 then n % 2 ^ 32 else n % 2 ^ 32 - 2 ^ 32

/-- The conversion to a 64-bit `int64_t`. -/
def toInt64 (n : ℤ) : ℤ := if n % 2 ^ 64 < 2 ^ 63 then n % 2 ^ 64 else n % 2 ^ 64 - 2 ^ 64

/-- The conversion to `unsigned int` takes the remainder. -/
def toU32 (n : ℤ) : UInt32 := UInt32.ofNat (n % 2 ^ 32).toNat

/-- `DIV_ROUND_UP` on `unsigned int`: the sum in it can wrap around. -/
def divRoundUp (x y : UInt32) : UInt32 := (x + y - 1) / y

/-- `ALIGN` on `unsigned int`: a length rounded up to whole blocks, when the sum in it does not
wrap. -/
def align (x y : UInt32) : UInt32 := y * divRoundUp x y

/-! ## Files -/

/-- A file open for reading: its descriptor, its bytes and its position. -/
structure InFile where
  /-- The descriptor. -/
  fd : ℕ
  /-- The content. -/
  bytes : List UInt8
  /-- The file offset. -/
  pos : ℕ

/-- `read_all`: the bytes read and the file after it, or `none` at the end of the file
(`-EINVAL`). -/
def readAll (f : InFile) (len : ℕ) : Option (List UInt8 × InFile) :=
  if len = 0 ∨ f.pos + len ≤ f.bytes.length then
    some (slice f.bytes f.pos len, { f with pos := f.pos + len })
  else none

/-- A file open for writing: its bytes and its position. -/
structure RawFile where
  /-- The content. -/
  bytes : List UInt8
  /-- The file offset. -/
  pos : ℕ
  deriving DecidableEq

/-- What the writers read from: memory, the files that can be opened, and the bytes that a mapping
of a descriptor makes accessible (or its `errno`). -/
structure Env where
  /-- The byte at an address. -/
  mem : ℕ → UInt8
  /-- `open` for reading: a descriptor, or an `errno`. -/
  openFile : String → Except ℕ+ ℕ
  /-- `mmap64` of a descriptor at a page-aligned offset for a number of bytes. -/
  mmap : ℕ → ℤ → ℕ → Except ℕ+ (List UInt8)

/-- A page of memory, to which the offset of `mmap` is rounded down. -/
def PAGE_SIZE : ℕ := 4096

/-- The bytes that a mapping of a file makes accessible: those of the pages that hold a byte of the
file, zero after the end of the file. A mapping of no bytes fails with `EINVAL`. -/
def mapFile (bytes : List UInt8) (offset : ℤ) (size : ℕ) : Except ℕ+ (List UInt8) :=
  if size = 0 ∨ offset < 0 then .error 22
  else .ok (slice (padTo 0 ((bytes.length + PAGE_SIZE - 1) / PAGE_SIZE * PAGE_SIZE) bytes)
    offset.toNat size)

/-! ## Low-level operations -/

/-- `struct output_file_ops` over the state `σ` of a back end. -/
structure OutputFileOps (σ : Type) where
  /-- `skip`. -/
  skip : σ → ℤ → ℤ × σ
  /-- `pad`. -/
  pad : σ → ℤ → ℤ × σ
  /-- `write`. -/
  write : σ → List UInt8 → ℕ → ℤ × σ

/-- `file_skip`: `lseek64` from the current offset. -/
def fileSkip (f : RawFile) (cnt : ℤ) : ℤ × RawFile :=
  if (f.pos : ℤ) + cnt < 0 then (-1, f) else (0, { f with pos := ((f.pos : ℤ) + cnt).toNat })

/-- `file_pad`: `ftruncate64` cuts the file, or fills it up with zeros. -/
def filePad (f : RawFile) (len : ℤ) : ℤ × RawFile :=
  if len < 0 then (-EINVAL, f) else (0, { f with bytes := resize 0 len.toNat f.bytes })

/-- `file_write`: its loop writes all of `len` bytes, unless the buffer ends before. -/
def fileWrite (f : RawFile) (data : List UInt8) (len : ℕ) : ℤ × RawFile :=
  let written := data.take len
  (if data.length < len then -1 else 0,
    { bytes := overwrite 0 f.bytes f.pos written, pos := f.pos + written.length })

/-- `file_ops`: the operations on a file. -/
def file_ops : OutputFileOps RawFile := ⟨fileSkip, filePad, fileWrite⟩

section Callback

variable {σ : Type} (write : σ → Option (List UInt8) → ℤ → ℤ × σ)

/-- `callback_file_skip`, with as many passes of its loop as `fuel` allows. -/
def callbackFileSkip : ℕ → σ → ℤ → ℤ × σ
  | 0, s, _ => (0, s)
  | fuel + 1, s, off =>
    if off > 0 then
      -- A skip is a write without data.
      let to_write := min off INT_MAX
      let r := write s none to_write
      if r.1 < 0 then r else callbackFileSkip fuel r.2 (off - to_write)
    else (0, s)

/-- `callback_file_pad` returns -1 and calls nothing. -/
def callbackFilePad (s : σ) (_len : ℤ) : ℤ × σ := (-1, s)

/-- `callback_file_write`: the callback takes the length as an `int`. -/
def callbackFileWrite (s : σ) (data : List UInt8) (len : ℕ) : ℤ × σ := write s (some data) (toInt len)

/-- `callback_file_ops`. Each pass of the skip takes at least one byte off. -/
def callback_file_ops : OutputFileOps σ :=
  ⟨fun s off => callbackFileSkip write off.toNat s off, callbackFilePad, callbackFileWrite write⟩

end Callback

/-- `struct output_file`, with the state of its back end. -/
structure OutputFile (σ : Type) where
  /-- The position in the expanded image. -/
  cur_out_ptr : ℤ
  /-- The number of chunks written. -/
  chunk_cnt : UInt32
  /-- The running checksum. -/
  crc32 : UInt32
  /-- Whether `sparse_ops` is `sparse_file_ops` and not `normal_file_ops`. -/
  sparse : Bool
  /-- Whether a checksum is kept. -/
  use_crc : Bool
  /-- The block size in bytes. -/
  block_size : UInt32
  /-- The length of the expanded image. -/
  len : ℤ
  /-- The back end: `struct output_file_normal` or `struct output_file_callback`. -/
  dev : σ
  deriving DecidableEq

variable {σ : Type} (ops : OutputFileOps σ)

/-- `out->ops->write`: the device takes the first `len` bytes. -/
def OutputFile.write (out : OutputFile σ) (data : List UInt8) (len : ℕ) : ℤ × OutputFile σ :=
  let r := ops.write out.dev data len
  (r.1, { out with dev := r.2 })

/-- `out->ops->skip`: the device moves forward. -/
def OutputFile.skip (out : OutputFile σ) (cnt : ℤ) : ℤ × OutputFile σ :=
  let r := ops.skip out.dev cnt
  (r.1, { out with dev := r.2 })

/-- `out->ops->pad`: the device is brought to the length. -/
def OutputFile.pad (out : OutputFile σ) (len : ℤ) : ℤ × OutputFile σ :=
  let r := ops.pad out.dev len
  (r.1, { out with dev := r.2 })

/-! ## The sparse format -/

/-- `write_sparse_skip_chunk`: a gap of whole blocks is a DONT_CARE chunk, and any other is refused.
-/
def writeSparseSkipChunk (out : OutputFile σ) (skip_len : ℤ) : ℤ × OutputFile σ :=
  if skip_len % out.block_size.toNat ≠ 0 then (-1, out)
  else
    let chunk_header : ChunkHeader :=
      ⟨CHUNK_TYPE_DONT_CARE, 0, toU32 (skip_len / out.block_size.toNat), 12⟩
    let (ret, out) := out.write ops chunk_header.encode CHUNK_HEADER_LEN
    if ret < 0 then (-1, out)
    else (0, { out with
      cur_out_ptr := out.cur_out_ptr + skip_len
      chunk_cnt := out.chunk_cnt + 1 })

/-- `write_sparse_fill_chunk`. The checksum takes in one block of the fill word. -/
def writeSparseFillChunk (out : OutputFile σ) (len fill_val : UInt32) : ℤ × OutputFile σ :=
  let rnd_up_len := align len out.block_size
  let chunk_header : ChunkHeader := ⟨CHUNK_TYPE_FILL, 0, rnd_up_len / out.block_size, 12 + 4⟩
  let (ret, out) := out.write ops chunk_header.encode CHUNK_HEADER_LEN
  if ret < 0 then (-1, out)
  else
    let (ret, out) := out.write ops (le32 fill_val) 4
    if ret < 0 then (-1, out)
    else
      let crc32 := if out.use_crc then
          (fun crc => sparseCrc32 crc (le32 fill_val))^[out.block_size.toNat / 4] out.crc32
        else out.crc32
      (0, { out with
        cur_out_ptr := out.cur_out_ptr + toInt rnd_up_len.toNat
        chunk_cnt := out.chunk_cnt + 1
        crc32 })

/-- `write_sparse_data_chunk`. `rnd_up_len` and `zero_len` are `int`s; a negative `zero_len` is a
huge `size_t`, more than `zero_buf` holds. -/
def writeSparseDataChunk (out : OutputFile σ) (len : UInt32) (data : List UInt8) :
    ℤ × OutputFile σ :=
  let rnd_up_len := align len out.block_size
  let zero_len := toInt (rnd_up_len - len).toNat
  let zero_buf := List.replicate out.block_size.toNat 0
  let zero_size := (zero_len % 2 ^ 64).toNat
  let chunk_header : ChunkHeader := ⟨CHUNK_TYPE_RAW, 0, rnd_up_len / out.block_size, 12 + rnd_up_len⟩
  let (ret, out) := out.write ops chunk_header.encode CHUNK_HEADER_LEN
  if ret < 0 then (-1, out)
  else
    let (ret, out) := out.write ops data len.toNat
    if ret < 0 then (-1, out)
    else
      let (ret, out) := if zero_len ≠ 0 then out.write ops zero_buf zero_size else (ret, out)
      if ret < 0 then (-1, out)
      else
        let crc32 := if out.use_crc then
            let crc := sparseCrc32 out.crc32 (data.take len.toNat)
            if zero_len ≠ 0 then sparseCrc32 crc (zero_buf.take zero_size) else crc
          else out.crc32
        (0, { out with
          cur_out_ptr := out.cur_out_ptr + toInt rnd_up_len.toNat
          chunk_cnt := out.chunk_cnt + 1
          crc32 })

/-- `write_sparse_end_chunk`. The result of the second write is not looked at. -/
def writeSparseEndChunk (out : OutputFile σ) : ℤ × OutputFile σ :=
  if out.use_crc then
    let chunk_header : ChunkHeader := ⟨CHUNK_TYPE_CRC32, 0, 0, 12 + 4⟩
    let (ret, out) := out.write ops chunk_header.encode CHUNK_HEADER_LEN
    if ret < 0 then (ret, out)
    else
      let (_, out) := out.write ops (le32 out.crc32) 4
      -- `ret` is still that of the first write.
      if ret < 0 then (ret, out) else (0, { out with chunk_cnt := out.chunk_cnt + 1 })
  else (0, out)

/-! ## The normal format -/

/-- `write_normal_data_chunk`: the bytes are written, and the rest of the block is skipped. -/
def writeNormalDataChunk (out : OutputFile σ) (len : UInt32) (data : List UInt8) :
    ℤ × OutputFile σ :=
  let rnd_up_len := align len out.block_size
  let (ret, out) := out.write ops data len.toNat
  if ret < 0 then (ret, out)
  -- The bytes behind the data are skipped, not written.
  else if rnd_up_len > len then out.skip ops (rnd_up_len - len).toNat
  else (ret, out)

/-- `fill_buf` after the first loop of `write_normal_fill_chunk`. -/
def fillBuf (block_size fill_val : UInt32) : List UInt8 :=
  (List.replicate (block_size.toNat / 4) (le32 fill_val)).flatten ++
    List.replicate (block_size.toNat % 4) 0

/-- The second loop of `write_normal_fill_chunk`, with as many passes as `fuel` allows. -/
def writeFillLoop (fill_buf : List UInt8) : ℕ → OutputFile σ → UInt32 → ℤ × OutputFile σ
  | 0, out, _ => (0, out)
  | fuel + 1, out, len =>
    if len ≠ 0 then
      let write_len := min len out.block_size
      let (ret, out) := out.write ops fill_buf write_len.toNat
      if ret < 0 then (ret, out) else writeFillLoop fill_buf fuel out (len - write_len)
    else (0, out)

/-- `write_normal_fill_chunk`. Each pass of the loop takes at least one byte off. -/
def writeNormalFillChunk (out : OutputFile σ) (len fill_val : UInt32) : ℤ × OutputFile σ :=
  writeFillLoop ops (fillBuf out.block_size fill_val) len.toNat out len

/-- `write_normal_skip_chunk`: the gap is skipped. -/
def writeNormalSkipChunk (out : OutputFile σ) (len : ℤ) : ℤ × OutputFile σ := out.skip ops len

/-- `write_normal_end_chunk`: the file is brought to its length. -/
def writeNormalEndChunk (out : OutputFile σ) : ℤ × OutputFile σ := out.pad ops out.len

/-! ## The chunk writers through `sparse_ops` -/

/-- `write_data_chunk`: by the function of the format. -/
def writeDataChunk (out : OutputFile σ) (len : UInt32) (data : List UInt8) : ℤ × OutputFile σ :=
  if out.sparse then writeSparseDataChunk ops out len data else writeNormalDataChunk ops out len data

/-- `write_fill_chunk`: by the function of the format. -/
def writeFillChunk (out : OutputFile σ) (len fill_val : UInt32) : ℤ × OutputFile σ :=
  if out.sparse then writeSparseFillChunk ops out len fill_val
  else writeNormalFillChunk ops out len fill_val

/-- `write_skip_chunk`: by the function of the format. -/
def writeSkipChunk (out : OutputFile σ) (len : ℤ) : ℤ × OutputFile σ :=
  if out.sparse then writeSparseSkipChunk ops out len else writeNormalSkipChunk ops out len

/-- `write_fd_chunk`: the mapping starts at the page of `offset`. -/
def writeFdChunk (env : Env) (out : OutputFile σ) (len : UInt32) (fd : ℕ) (offset : ℤ) :
    ℤ × OutputFile σ :=
  let aligned_offset := offset - offset % 4096
  let aligned_diff := (offset % 4096).toNat
  match env.mmap fd aligned_offset (len.toNat + aligned_diff) with
  | .error errno => (-(errno : ℕ), out)
  | .ok data => writeDataChunk ops out len (data.drop aligned_diff)

/-- `write_file_chunk`: the file is opened, and its bytes are written as those of a descriptor. -/
def writeFileChunk (env : Env) (out : OutputFile σ) (len : UInt32) (file : String) (offset : ℤ) :
    ℤ × OutputFile σ :=
  match env.openFile file with
  | .error errno => (-(errno : ℕ), out)
  | .ok file_fd => writeFdChunk ops env out len file_fd offset

/-! ## Opening and closing -/

/-- `output_file_close`: the result of `write_end_chunk` is not looked at. -/
def outputFileClose (out : OutputFile σ) : OutputFile σ :=
  if out.sparse then (writeSparseEndChunk ops out).2 else (writeNormalEndChunk ops out).2

/-- `output_file_init` on a back end: the return value and the file. The buffers are allocated with
`block_size` as an `int`, so that a block size from `2^31` on is too large for `calloc`. -/
def outputFileInit (dev : σ) (block_size : UInt32) (len : ℤ) (sparse : Bool) (chunks : UInt32)
    (crc : Bool) : Except Fault (ℤ × OutputFile σ) :=
  let out : OutputFile σ :=
    { cur_out_ptr := 0, chunk_cnt := 0, crc32 := 0, sparse, use_crc := crc, block_size, len, dev }
  if 2 ^ 31 ≤ block_size.toNat then .ok (-ENOMEM, out)
  else if sparse then
    if block_size = 0 then .error .divByZero
    else
      let sparse_header : SparseHeader :=
        { magic := SPARSE_HEADER_MAGIC
          major_version := SPARSE_HEADER_MAJOR_VER
          minor_version := SPARSE_HEADER_MINOR_VER
          file_hdr_sz := 28
          chunk_hdr_sz := 12
          blk_sz := block_size
          total_blks := toU32 (len / block_size.toNat)
          total_chunks := if crc then chunks + 1 else chunks
          image_checksum := 0 }
      let (ret, out) := out.write ops sparse_header.encode SPARSE_HEADER_LEN
      if ret < 0 then .ok (ret, out) else .ok (0, out)
  else .ok (0, out)

/-- The buffers for a block size that does not fit into an `int` are not allocated. -/
theorem outputFileInit_large (dev : σ) {block_size : UInt32} (h : 2 ^ 31 ≤ block_size.toNat)
    (len : ℤ) (sparse : Bool) (chunks : UInt32) (crc : Bool) :
    outputFileInit ops dev block_size len sparse chunks crc =
      .ok (-ENOMEM, ⟨0, 0, 0, sparse, crc, block_size, len, dev⟩) :=
  if_pos h

/-- A file of the normal format has no header. -/
theorem outputFileInit_normal (dev : σ) {block_size : UInt32} (h : block_size.toNat < 2 ^ 31)
    (len : ℤ) (chunks : UInt32) (crc : Bool) :
    outputFileInit ops dev block_size len false chunks crc =
      .ok (0, ⟨0, 0, 0, false, crc, block_size, len, dev⟩) := by
  unfold outputFileInit
  rw [if_neg (Nat.not_le.mpr h), if_neg Bool.false_ne_true]

end AmlogicToolkit.Simg
