import AmlogicToolkit.Lib.Results
import AmlogicToolkit.Simg.OutputFile

/-!
# Sparse files

`sparse.c`: creating a sparse file, adding blocks to it, writing it in either format, and splitting
it into pieces. The `verbose` flag, which only chooses what is printed, is left out.
-/

namespace AmlogicToolkit.Simg

open Bytes

/-- `struct sparse_file`: the block size, the length, and the list of blocks. -/
structure SparseFile where
  /-- The block size in bytes. -/
  block_size : UInt32
  /-- The length of the expanded image. -/
  len : ℤ
  /-- The blocks. -/
  backed_block_list : BackedBlockList
  deriving DecidableEq

/-- `sparse_file_new`: a file without blocks. -/
def sparseFileNew (block_size : UInt32) (len : ℤ) : SparseFile :=
  ⟨block_size, len, backedBlockListNew block_size⟩

/-- The sparse file with the list that an addition leaves. -/
def SparseFile.withList (s : SparseFile) (r : Except Fault BackedBlockList) :
    Except Fault SparseFile := do
  return { s with backed_block_list := ← r }

/-- `sparse_file_add_data`: bytes in memory, from a block on. -/
def sparseFileAddData (s : SparseFile) (data : ℕ) (len block : UInt32) : Except Fault SparseFile :=
  s.withList (backedBlockAddData s.backed_block_list data len block)

/-- `sparse_file_add_fill`: a word repeated, from a block on. -/
def sparseFileAddFill (s : SparseFile) (fill_val len block : UInt32) : Except Fault SparseFile :=
  s.withList (backedBlockAddFill s.backed_block_list fill_val len block)

/-- `sparse_file_add_file`: bytes of a named file, from a block on. -/
def sparseFileAddFile (s : SparseFile) (filename : String) (file_offset : ℤ) (len block : UInt32) :
    Except Fault SparseFile :=
  s.withList (backedBlockAddFile s.backed_block_list filename file_offset len block)

/-- `sparse_file_add_fd`: bytes of an open file, from a block on. -/
def sparseFileAddFd (s : SparseFile) (fd : ℕ) (file_offset : ℤ) (len block : UInt32) :
    Except Fault SparseFile :=
  s.withList (backedBlockAddFd s.backed_block_list fd file_offset len block)

/-! ## Counting and writing -/

/-- The loop of `sparse_count_chunks`: `last_block` and `chunks` after it. -/
def countBlocks (block_size : UInt32) : List BackedBlock → UInt32 → UInt32 → UInt32 × UInt32
  | [], last_block, chunks => (last_block, chunks)
  | bb :: rest, last_block, chunks =>
    -- If there is a gap between chunks, add a skip chunk.
    let chunks := if bb.block > last_block then chunks + 1 else chunks
    countBlocks block_size rest (bb.block + divRoundUp bb.len block_size) (chunks + 1)

/-- `sparse_count_chunks`: the blocks, the gaps in front of them, and a gap at the end. -/
def sparseCountChunks (s : SparseFile) : Except Fault UInt32 :=
  if s.block_size = 0 then .error .divByZero
  else
    let (last_block, chunks) := countBlocks s.block_size s.backed_block_list.data_blocks 0 0
    -- A gap at the end is one more skip chunk.
    if (last_block.toNat : ℤ) < (s.len + s.block_size.toNat - 1) / s.block_size.toNat then
      .ok (chunks + 1)
    else .ok chunks

/-- Counting the chunks only fails on a block size of zero. -/
theorem sparseCountChunks_ok {s : SparseFile} (hbs : s.block_size ≠ 0) :
    ∃ chunks, sparseCountChunks s = .ok chunks := by
  unfold sparseCountChunks
  rw [if_neg hbs]
  dsimp only
  split <;> exact ⟨_, rfl⟩

section Write

variable {σ : Type} (ops : OutputFileOps σ) (env : Env)

/-- `sparse_file_write_block`: a block is written by the function of its type. -/
def sparseFileWriteBlock (out : OutputFile σ) (bb : BackedBlock) : ℤ × OutputFile σ :=
  match bb.source with
  | .data p => writeDataChunk ops out bb.len ((List.range bb.len.toNat).map fun k => env.mem (p + k))
  | .file filename offset => writeFileChunk ops env out bb.len filename offset
  | .fd fd offset => writeFdChunk ops env out bb.len fd offset
  | .fill v => writeFillChunk ops out bb.len v

/-- The loop of `write_all_blocks`: the return value, `last_block` and the file. The result of
`write_skip_chunk` is not looked at. -/
def writeBlocks (block_size : UInt32) :
    List BackedBlock → UInt32 → OutputFile σ → ℤ × UInt32 × OutputFile σ
  | [], last_block, out => (0, last_block, out)
  | bb :: rest, last_block, out =>
    let out := if bb.block > last_block then
        (writeSkipChunk ops out ((bb.block - last_block).toNat * block_size.toNat)).2
      else out
    let (ret, out) := sparseFileWriteBlock ops env out bb
    if ret ≠ 0 then (ret, last_block, out)
    else writeBlocks block_size rest (bb.block + divRoundUp bb.len block_size) out

/-- `write_all_blocks`: the blocks with their gaps, and a skip to the end, whose result is dropped.
-/
def writeAllBlocks (s : SparseFile) (out : OutputFile σ) : Except Fault (ℤ × OutputFile σ) :=
  let (ret, last_block, out) :=
    writeBlocks ops env s.block_size s.backed_block_list.data_blocks 0 out
  if ret ≠ 0 then .ok (ret, out)
  else
    let pad := s.len - last_block.toNat * s.block_size.toNat
    -- `assert(pad >= 0)` fails when the blocks end behind the length.
    if pad < 0 then .error .assertion
    else if pad > 0 then .ok (0, (writeSkipChunk ops out pad).2)
    else .ok (0, out)

/-- `sparse_file_write` on a back end, without compression: the return value and the back end after
it. -/
def sparseFileWrite (s : SparseFile) (dev : σ) (sparse crc : Bool) : Except Fault (ℤ × σ) := do
  let chunks ← sparseCountChunks s
  let (ret, out) ← outputFileInit ops dev s.block_size s.len sparse chunks crc
  -- `output_file_open_fd` returns `NULL`.
  if ret < 0 then return (-ENOMEM, out.dev)
  else
    let (ret, out) ← writeAllBlocks ops env s out
    return (ret, (outputFileClose ops out).dev)

section

variable {ops env} {s : SparseFile} {dev new : σ} {sparse crc : Bool} {chunks : UInt32} {ret : ℤ}
  {out out' : OutputFile σ}

/-- A file whose output is set up is written as its blocks are. -/
theorem sparseFileWrite_eq (hcount : sparseCountChunks s = .ok chunks)
    (hinit : outputFileInit ops dev s.block_size s.len sparse chunks crc = .ok (0, out))
    (hall : writeAllBlocks ops env s out = .ok (ret, out')) :
    sparseFileWrite ops env s dev sparse crc = .ok (ret, (outputFileClose ops out').dev) := by
  simp only [sparseFileWrite, hcount, hinit, hall, bind, Except.bind, lt_irrefl, if_false]
  rfl

/-- A file whose blocks do not fit into an `int` is not written. -/
theorem sparseFileWrite_unopened (hbs : s.block_size ≠ 0) (h : 2 ^ 31 ≤ s.block_size.toNat) :
    sparseFileWrite ops env s dev sparse crc = .ok (-ENOMEM, dev) := by
  obtain ⟨chunks, hcount⟩ := sparseCountChunks_ok hbs
  simp only [sparseFileWrite, hcount, outputFileInit_large ops dev h, bind, Except.bind]
  rw [if_pos (by decide)]
  rfl

/-- What a write that returns has done, when its output was set up. -/
theorem writeAllBlocks_of_write (hcount : sparseCountChunks s = .ok chunks)
    (hinit : outputFileInit ops dev s.block_size s.len sparse chunks crc = .ok (0, out))
    (h : sparseFileWrite ops env s dev sparse crc = .ok (ret, new)) :
    ∃ out', writeAllBlocks ops env s out = .ok (ret, out') ∧
      (outputFileClose ops out').dev = new := by
  unfold sparseFileWrite at h
  simp only [hcount, hinit, bind, Except.bind, lt_irrefl, if_false] at h
  obtain ⟨⟨ret', out'⟩, hall, h⟩ := Except.bind_ok_iff.mp h
  cases h
  exact ⟨out', hall, rfl⟩

/-- What a write that returns 0 has done. -/
theorem sparseFileWrite_done (h : sparseFileWrite ops env s dev sparse crc = .ok (0, new)) :
    s.block_size ≠ 0 ∧ s.block_size.toNat < 2 ^ 31 ∧ ∃ chunks ret out out',
      outputFileInit ops dev s.block_size s.len sparse chunks crc = .ok (ret, out) ∧ 0 ≤ ret ∧
      writeAllBlocks ops env s out = .ok (0, out') ∧ (outputFileClose ops out').dev = new := by
  have hbs : s.block_size ≠ 0 := by
    intro h0
    rw [sparseFileWrite, sparseCountChunks, if_pos h0] at h
    cases h
  refine ⟨hbs, ?_, ?_⟩
  · by_contra hlarge
    rw [sparseFileWrite_unopened hbs (not_lt.mp hlarge)] at h
    exact absurd (Prod.mk.inj (Except.ok.inj h)).1 (by decide)
  unfold sparseFileWrite at h
  obtain ⟨chunks, -, h⟩ := Except.bind_ok_iff.mp h
  obtain ⟨⟨ret, out⟩, hinit, h⟩ := Except.bind_ok_iff.mp h
  dsimp only at h
  split_ifs at h with hret
  · cases h
  · obtain ⟨⟨ret', out'⟩, hall, h⟩ := Except.bind_ok_iff.mp h
    cases h
    exact ⟨chunks, ret, out, out', hinit, not_lt.mp hret, hall, rfl⟩

end

end Write

/-! ## Splitting into pieces -/

/-- `out_counter_write`: the length, an `int`, is added to the count. -/
def outCounterWrite (count : ℤ) (_data : Option (List UInt8)) (len : ℤ) : ℤ × ℤ := (0, count + len)

/-- The operations of a callback file that counts. -/
def counter_ops : OutputFileOps ℤ := callback_file_ops outCounterWrite

/-- `sparse_file_len`: the file is written to a counter. -/
def sparseFileLen (env : Env) (s : SparseFile) (sparse crc : Bool) : Except Fault ℤ := do
  let chunks ← sparseCountChunks s
  let (ret, out) ← outputFileInit counter_ops 0 s.block_size s.len sparse chunks crc
  -- `output_file_open_callback` returns `NULL`.
  if ret < 0 then return -1
  else
    let (ret, out) ← writeAllBlocks counter_ops env s out
    let out := outputFileClose counter_ops out
    if ret < 0 then return -1 else return out.dev

/-- `overhead` of `move_chunks_up_to_len`: the sparse file header, the potential end skip chunk and
the checksum chunk. -/
def overhead : UInt32 := 28 + 2 * 12 + 4

/-- How the loop of `move_chunks_up_to_len` ends. -/
inductive MoveStop where
  /-- All blocks fit; the last one, if there is any. -/
  | all (last_bb : Option BackedBlock)
  /-- A block could not be measured. -/
  | failed
  /-- `bb` does not fit after `file_len` bytes, its header included; the block before it. -/
  | full (last_bb : Option BackedBlock) (bb : BackedBlock) (file_len : ℤ)

/-- The loop of `move_chunks_up_to_len`, with the counter as the output file `out`. -/
def scanBlocks (env : Env) (block_size : UInt32) (len : UInt32) :
    List BackedBlock → Option BackedBlock → UInt32 → ℤ → OutputFile ℤ → MoveStop
  | [], last_bb, _, _, _ => .all last_bb
  | bb :: rest, last_bb, last_block, file_len, out =>
    -- The gap in front of the block takes a header.
    let count : ℤ := if bb.block > last_block then 12 else 0
    let last_block := bb.block + divRoundUp bb.len block_size
    let (ret, out) := sparseFileWriteBlock counter_ops env { out with dev := count } bb
    if ret ≠ 0 then .failed
    else if file_len + out.dev > len.toNat then .full last_bb bb (file_len + 12)
    else scanBlocks env block_size len rest (some bb) last_block (file_len + out.dev) out

/-- Whether the block that does not fit is split: when it is the first one, or when more than an
eighth of the requested size is left. -/
def splits (len : UInt32) (last_bb : Option BackedBlock) (file_len : ℤ) : Bool :=
  last_bb.isNone || (len / 8).toNat < len.toNat - file_len

/-- `move_chunks_up_to_len`: whether it returns a block and not `NULL`, and the lists of `from` and
`to` after it. -/
def moveChunksUpToLen (env : Env) (src dst : SparseFile) (len : UInt32) :
    Except Fault (Bool × SparseFile × SparseFile) := do
  -- The difference wraps for a length below the overhead.
  let len := len - overhead
  let start := src.backed_block_list.data_blocks.head?.map BackedBlock.addr
  let (ret, out_counter) ← outputFileInit counter_ops 0 dst.block_size dst.len true 0 false
  if ret < 0 then return (false, src, dst)
  else
    let move (list : BackedBlockList) (last_bb : Option BackedBlock) :=
      let (f, t) := backedBlockListMove list dst.backed_block_list start
        (last_bb.map BackedBlock.addr)
      ({ src with backed_block_list := f }, { dst with backed_block_list := t })
    match scanBlocks env dst.block_size len src.backed_block_list.data_blocks none 0 0 out_counter with
    -- `goto out`: nothing is moved, and `NULL` is returned.
    | .failed => return (false, src, dst)
    | .all last_bb => return (false, move src.backed_block_list last_bb)
    | .full last_bb bb file_len =>
      if splits len last_bb file_len then
        let list := backedBlockSplit src.backed_block_list bb (toU32 (len.toNat - file_len))
        return (true, move list (some bb))
      else return (true, move src.backed_block_list last_bb)

/-- The loop of `sparse_file_resparse`, with as many passes as `fuel` allows: `in_s`, `tmp` and the
pieces in `out_s` after it, and `c`. -/
def resparseLoop (env : Env) (max_len : UInt32) (out_s_count : ℕ) :
    ℕ → SparseFile → SparseFile → List SparseFile → ℕ →
      Except Fault (SparseFile × SparseFile × List SparseFile × ℕ)
  | 0, _, _, _, _ => .error .diverges
  | fuel + 1, in_s, tmp, out_s, c => do
    let (more, in_s, s) ←
      moveChunksUpToLen env in_s (sparseFileNew in_s.block_size in_s.len) max_len
    let (tmp, out_s) :=
      -- Pieces for which the array has no room are put back together in `tmp`.
      if c < out_s_count then (tmp, out_s ++ [s])
      else
        ({ tmp with backed_block_list :=
            (backedBlockListMove s.backed_block_list tmp.backed_block_list none none).2 }, out_s)
    if more then resparseLoop env max_len out_s_count fuel in_s tmp out_s (c + 1)
    else return (in_s, tmp, out_s, c + 1)

/-- `sparse_file_resparse`, with at most `fuel` passes of its loop: `in_s` after it, the pieces put
in `out_s`, and the return value. -/
def sparseFileResparse (env : Env) (fuel : ℕ) (in_s : SparseFile) (max_len : UInt32)
    (out_s_count : ℕ) : Except Fault (SparseFile × List SparseFile × ℕ) := do
  let (in_s, tmp, out_s, c) ←
    resparseLoop env max_len out_s_count fuel in_s (sparseFileNew in_s.block_size in_s.len) [] 0
  let (_, list) := backedBlockListMove tmp.backed_block_list in_s.backed_block_list none none
  return ({ in_s with backed_block_list := list }, out_s, c)

end AmlogicToolkit.Simg
