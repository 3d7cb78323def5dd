import AmlogicToolkit.Simg.ChunkWriter

/-!
# Writing the sparse format

`sparse_file_write` in the sparse format, without a checksum: it writes the header and one chunk for
each gap and each block (`emitted`), and the chunk count in the header, which is counted in a pass of
its own, is their number (`sparseFileWrite_sparse`).
-/

namespace AmlogicToolkit.Simg

open Bytes Extents

/-! ## The chunks of a list -/

/-- The chunk that the writer makes of a block of whole blocks. -/
def blockChunk (file : List UInt8) (bs : UInt32) (bb : BackedBlock) : Chunk :=
  match bb.source with
  | .fill w => ⟨⟨CHUNK_TYPE_FILL, 0, bb.len / bs, 16⟩, le32 w⟩
  | source => ⟨⟨CHUNK_TYPE_RAW, 0, bb.len / bs, 12 + bb.len⟩, source.bytes file bb.len.toNat⟩

/-- The chunks of the blocks of a list, with those of the gaps in front of them. -/
def blockChunks (file : List UInt8) (bs : UInt32) : List BackedBlock → ℕ → List Chunk
  | [], _ => []
  | bb :: l, last =>
    gapChunk last bb.block.toNat ++ blockChunk file bs bb :: blockChunks file bs l (bb.next bs)

/-- The block behind the last one of a list, or the one in front when there is none. -/
def endBlock (bs : UInt32) : List BackedBlock → ℕ → ℕ
  | [], last => last
  | bb :: l, _ => endBlock bs l (bb.next bs)

/-- The chunks of an image of `n` blocks. -/
def emitted (file : List UInt8) (bs : UInt32) (n : ℕ) (l : List BackedBlock) : List Chunk :=
  blockChunks file bs l 0 ++ gapChunk (endBlock bs l 0) n

/-! ## Writing chunks -/

/-- An output file in the sparse format, without a checksum, at the end of what is written. -/
structure AtEnd (bs : UInt32) (out : OutputFile RawFile) : Prop where
  /-- The format is the sparse one. -/
  sparse : out.sparse = true
  /-- No checksum is kept. -/
  use_crc : out.use_crc = false
  /-- The block size. -/
  block_size : out.block_size = bs
  /-- The file offset is at the end of the file. -/
  pos : out.dev.pos = out.dev.bytes.length

/-- A result that is 0, with `data` written at the end of the file. -/
def Emits (bs : UInt32) (out : OutputFile RawFile) (data : List UInt8)
    (r : ℤ × OutputFile RawFile) : Prop :=
  r.1 = 0 ∧ AtEnd bs r.2 ∧ r.2.dev.bytes = out.dev.bytes ++ data

section

variable {bs : UInt32} {out : OutputFile RawFile}

/-- At the end, a write appends. -/
theorem AtEnd.put (h : AtEnd bs out) (data : List UInt8) :
    AtEnd bs (out.put data) ∧ (out.put data).dev.bytes = out.dev.bytes ++ data := by
  have hb : (out.put data).dev.bytes = out.dev.bytes ++ data := by
    simp only [OutputFile.put, h.pos, overwrite_length]
  refine ⟨⟨h.sparse, h.use_crc, h.block_size, ?_⟩, hb⟩
  rw [hb, List.length_append, ← h.pos]
  rfl

/-- An output file that stands at its end is one in the sparse format, without a checksum. -/
theorem AtEnd.sink (h : AtEnd bs out) : Sink bs false out := ⟨h.sparse, h.use_crc, h.block_size⟩

/-- What is written at the end is appended. -/
theorem Outputs.emits {data sum : List UInt8} {r : ℤ × OutputFile RawFile} (h : AtEnd bs out)
    (ho : Outputs bs false out data sum r) : Emits bs out data r := by
  obtain ⟨hput, hbytes⟩ := h.put data
  have hdev : r.2.dev = (out.put data).dev := ho.dev
  refine ⟨ho.ret, ⟨ho.sink.sparse, ho.sink.use_crc, ho.sink.block_size, ?_⟩, ?_⟩
  · rw [hdev]
    exact hput.pos
  · rw [hdev, hbytes]

/-- **One block** is written as its chunk. -/
theorem sparseFileWriteBlock_emits {file : List UInt8} {bb : BackedBlock} (h : AtEnd bs out)
    (hbs : bs ≠ 0) (hlt : bs.toNat < 2 ^ 31) (hw : Writable file bs bb) :
    Emits bs out (blockChunk file bs bb).encode
      (sparseFileWriteBlock file_ops (Env.ofFile file) out bb) := by
  have hdvd : bs.toNat ∣ bb.len.toNat := Dvd.intro_left _ hw.whole
  -- A block of whole blocks needs no padding.
  have hround : divRoundUp bb.len bs = bb.len / bs := by
    rw [← align_div hbs hw.fits, (align_eq hw.whole.symm hbs hw.fits).2]
  have hpad : padded bs.toNat bb.len.toNat = bb.len.toNat :=
    padded_eq (toNat_pos_of_ne_zero hbs) hdvd
  have hr := hw.readable
  unfold sparseFileWriteBlock blockChunk
  -- Memory and named files are not written here: a piece of the open file, or a fill.
  cases hsrc : bb.source with
  | data _ => rw [hsrc] at hr; exact hr.elim
  | file _ _ => rw [hsrc] at hr; exact hr.elim
  | fd fd o =>
    rw [hsrc] at hr
    obtain ⟨data, hmap, hdrop⟩ := @mapFile_drop _ _ bb.len.toNat
      (fun h0 => hw.nonempty (UInt32.toNat_inj.mp h0)) hr.1 hr.2
    have hslice : (slice file o.toNat bb.len.toNat).length = bb.len.toNat := length_slice_of_le hr.2
    have hout := writeDataChunk_outputs h.sink hbs hlt hw.fits hslice
    rw [hround, (align_eq hw.whole.symm hbs hw.fits).2, hpad, padTo_self hslice] at hout
    simp only [writeFdChunk, Env.ofFile, hmap, hdrop]
    exact hout.emits h
  | fill w =>
    have hout := writeFillChunk_outputs h.sink hbs hw.fits w
    rw [hround] at hout
    exact hout.emits h

end

/-! ## Writing a list -/

/-- **The loop over the blocks** writes their chunks and those of the gaps. -/
theorem writeBlocks_sparse {file : List UInt8} {bs : UInt32} (hbs : bs ≠ 0) (hlt : bs.toNat < 2 ^ 31)
    {n : ℕ} (hn : n < 2 ^ 32) {l : List BackedBlock} {last_block : UInt32}
    (h : Fits file bs n l last_block.toNat) {out : OutputFile RawFile} (hout : AtEnd bs out) :
    ∃ last_block' out', writeBlocks file_ops (Env.ofFile file) bs l last_block out =
        (0, last_block', out') ∧ last_block'.toNat = endBlock bs l last_block.toNat ∧
      AtEnd bs out' ∧
      out'.dev.bytes = out.dev.bytes ++ encodeChunks (blockChunks file bs l last_block.toNat) := by
  induction l generalizing last_block out with
  | nil => exact ⟨last_block, out, rfl, rfl, hout, (List.append_nil _).symm⟩
  | cons bb l ih =>
    have hnext := h.next_eq hbs hn
    obtain ⟨-, hout1, hbytes1⟩ := (gap_outputs hbs h.gap hout.sink).emits hout
    obtain ⟨hret, hout2, hbytes2⟩ :=
      sparseFileWriteBlock_emits hout1 hbs hlt (h.blocks bb List.mem_cons_self)
    have ht : Fits file bs n l (bb.block + divRoundUp bb.len bs).toNat := by
      rw [hnext]; exact h.tail hbs
    obtain ⟨last_block', out', heq, h1, h2, h3⟩ := ih ht hout2
    refine ⟨last_block', out', ?_, ?_, h2, ?_⟩
    · rw [writeBlocks]
      simp only [hret, ne_eq, not_true_eq_false, if_false]
      exact heq
    · rw [h1, hnext]; rfl
    · rw [h3, hbytes2, hbytes1, hnext]
      simp only [blockChunks, encodeChunks_append, encodeChunks_cons, List.append_assoc]

/-- The counting pass counts the chunks that the writing pass writes. -/
theorem countBlocks_eq {file : List UInt8} {bs : UInt32} (hbs : bs ≠ 0) {n : ℕ} (hn : n < 2 ^ 32)
    {l : List BackedBlock} {last_block chunks : UInt32} (h : Fits file bs n l last_block.toNat) :
    (countBlocks bs l last_block chunks).1.toNat = endBlock bs l last_block.toNat ∧
      (countBlocks bs l last_block chunks).2 =
        chunks + UInt32.ofNat (blockChunks file bs l last_block.toNat).length := by
  induction l generalizing last_block chunks with
  | nil => exact ⟨rfl, by simp [countBlocks, blockChunks]⟩
  | cons bb l ih =>
    have hnext := h.next_eq hbs hn
    have ht := h.tail hbs
    rw [← hnext] at ht
    obtain ⟨h1, h2⟩ := @ih _
      (chunks + UInt32.ofNat ((gapChunk last_block.toNat bb.block.toNat).length + 1)) ht
    rw [countBlocks_cons, h1, h2, hnext, blockChunks, List.length_append, List.length_cons,
      UInt32.add_assoc, ← UInt32.ofNat_add, Nat.add_right_comm]
    exact ⟨rfl, rfl⟩

/-- A sparse image of a list: its header and its chunks. -/
def sparseImage (file : List UInt8) (bs : UInt32) (n : ℕ) (l : List BackedBlock) : List UInt8 :=
  (writtenHeader bs n (emitted file bs n l).length).encode ++ encodeChunks (emitted file bs n l)

/-- Blocks that fit into an image end within it. -/
theorem endBlock_le {file : List UInt8} {bs : UInt32} (hbs : bs ≠ 0) {n last : ℕ}
    {l : List BackedBlock} (h : Fits file bs n l last) : endBlock bs l last ≤ n := by
  induction l generalizing last with
  | nil => exact h.last_le
  | cons bb l ih => exact ih (h.tail hbs)

section

variable {file : List UInt8} {s : SparseFile} {n : ℕ}

/-- The block size of a file that can be written is positive. -/
theorem SparseFile.Writable.block_size_toNat_pos (h : s.Writable file n) :
    0 < s.block_size.toNat :=
  toNat_pos_of_ne_zero h.block_size_pos

/-- The number of blocks of the image, as `sparse_count_chunks` computes it. -/
theorem SparseFile.Writable.round_up (h : s.Writable file n) :
    (s.len + s.block_size.toNat - 1) / s.block_size.toNat = (n : ℤ) := by
  have hpos := h.block_size_toNat_pos
  have hcast : s.len + (s.block_size.toNat : ℤ) - 1 =
      ((n * s.block_size.toNat + s.block_size.toNat - 1 : ℕ) : ℤ) := by
    rw [h.len]
    omega
  rw [hcast, ← Int.natCast_ediv, round_up_mul hpos]

/-- `sparse_count_chunks` counts the chunks that are written. -/
theorem sparseCountChunks_eq (h : s.Writable file n) :
    sparseCountChunks s = .ok (UInt32.ofNat (emitted file s.block_size n s.blocks).length) := by
  obtain ⟨h1, h2⟩ := @countBlocks_eq _ _ h.block_size_pos _ h.blocks_lt _ 0 0
    h.fits
  rw [UInt32.toNat_zero] at h1 h2
  rw [sparseCountChunks_end h.block_size_pos h.round_up rfl, h1, h2, UInt32.zero_add, emitted,
    List.length_append, UInt32.ofNat_add]

/-- `write_all_blocks` writes the chunks. -/
theorem writeAllBlocks_sparse (h : s.Writable file n) {out : OutputFile RawFile}
    (hout : AtEnd s.block_size out) :
    ∃ out', writeAllBlocks file_ops (Env.ofFile file) s out = .ok (0, out') ∧
      AtEnd s.block_size out' ∧ out'.dev.bytes = out.dev.bytes ++
        encodeChunks (emitted file s.block_size n s.blocks) := by
  have hbs := h.block_size_pos
  obtain ⟨last_block, out1, hwrite, hlast, hout1, hbytes1⟩ :=
    @writeBlocks_sparse _ _ hbs h.block_size_lt _ h.blocks_lt _ 0 h.fits _ hout
  rw [UInt32.toNat_zero] at hlast hbytes1
  have hle : last_block.toNat ≤ n := hlast ▸ endBlock_le hbs h.fits
  obtain ⟨out', hall, hend⟩ := writeAllBlocks_end hbs h.len hwrite hle hout1.sink
  obtain ⟨-, hout', hbytes'⟩ := hend.emits hout1
  refine ⟨out', hall, hout', ?_⟩
  rw [hbytes', hbytes1, emitted, encodeChunks_append, ← hlast, List.append_assoc]

/-- **Writing a sparse file** in the sparse format onto an empty file succeeds and leaves the sparse
image of its blocks. -/
theorem sparseFileWrite_sparse (h : s.Writable file n) :
    ∃ new, sparseFileWrite file_ops (Env.ofFile file) s ⟨[], 0⟩ true false = .ok (0, new) ∧
      new.bytes = sparseImage file s.block_size n s.blocks := by
  obtain ⟨out, hinit, hsink, -, hdev⟩ := outputFileInit_outputs ⟨[], 0⟩ h.block_size_pos
    h.block_size_lt (n * s.block_size.toNat) (emitted file s.block_size n s.blocks).length false
  rw [Nat.mul_div_cancel _ h.block_size_toNat_pos] at hdev
  have hbytes : out.dev.bytes =
      (writtenHeader s.block_size n (emitted file s.block_size n s.blocks).length).encode := by
    rw [hdev]
    exact List.nil_append _
  have hout : AtEnd s.block_size out :=
    ⟨hsink.sparse, hsink.use_crc, hsink.block_size, by rw [hbytes, hdev]; exact Nat.zero_add _⟩
  obtain ⟨out', hall, hout', hbytes'⟩ := writeAllBlocks_sparse h hout
  refine ⟨out'.dev, ?_, by rw [hbytes', hbytes, sparseImage]⟩
  rw [← h.len] at hinit
  rw [sparseFileWrite_eq (sparseCountChunks_eq h) hinit hall, outputFileClose, if_pos hout'.sparse,
    writeSparseEndChunk, if_neg (by rw [hout'.use_crc]; decide)]

end

end AmlogicToolkit.Simg
