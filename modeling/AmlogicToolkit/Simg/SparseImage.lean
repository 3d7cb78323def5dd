import AmlogicToolkit.Simg.Expand
import AmlogicToolkit.Simg.SparseWriter

/-!
# Reading a written image

The sparse image of a list of blocks is an image again (`sparseImage_image`): its records are the
chunks that were written, as many as its header announces. Its raw and fill chunks are copies of the
blocks of the list, one each (`sparseImage_copies`).
-/

namespace AmlogicToolkit.Simg

open Bytes Extents

/-! ## Chunks of the format -/

/-- A chunk of a known type, whose payload and total size are what its type asks for. -/
structure Chunk.Formed (bs : UInt32) (c : Chunk) : Prop where
  /-- The type is known. -/
  kind : c.header.kind ≠ .unknown
  /-- The payload. -/
  payload : c.header.payloadSize bs = c.payload.length
  /-- The total size. -/
  total_sz : c.header.total_sz.toNat = CHUNK_HEADER_LEN + c.payload.length

/-- A chunk of the format: its payload and its total size are what its type asks for, and it is not
empty. -/
structure Chunk.Ok (bs : UInt32) (c : Chunk) : Prop where
  /-- The type is known. -/
  kind : c.header.kind ≠ .unknown
  /-- The payload. -/
  payload : c.header.payloadSize bs = c.payload.length
  /-- The total size. -/
  total_sz : c.header.total_sz.toNat = CHUNK_HEADER_LEN + c.payload.length
  /-- The chunk stands for some blocks. -/
  blocks : c.header.blocks ≠ 0

/-- A chunk of the format is formed. -/
theorem Chunk.Ok.formed {bs : UInt32} {c : Chunk} (h : c.Ok bs) : c.Formed bs :=
  ⟨h.kind, h.payload, h.total_sz⟩

/-- The records of chunks that stand one after the other from a position on. -/
def layout : ℕ → List Chunk → List Record
  | _, [] => []
  | pos, c :: cs => ⟨pos, c.header⟩ :: layout (pos + c.encode.length) cs

/-- The blocks of a list of chunks. -/
def chunkBlocks (cs : List Chunk) : ℕ := (cs.map fun c => c.header.blocks.toNat).sum

/-- A chunk takes a header and its payload. -/
@[simp]
theorem Chunk.length_encode (c : Chunk) :
    c.encode.length = CHUNK_HEADER_LEN + c.payload.length := by simp [encode]

/-- The records of a layout have the blocks of its chunks. -/
theorem totalBlocks_layout (pos : ℕ) (cs : List Chunk) :
    totalBlocks (layout pos cs) = chunkBlocks cs := by
  induction cs generalizing pos with
  | nil => rfl
  | cons c cs ih =>
    have h1 : totalBlocks (layout pos (c :: cs)) = c.header.blocks.toNat +
      totalBlocks (layout (pos + c.encode.length) cs) := rfl
    have h2 : chunkBlocks (c :: cs) = c.header.blocks.toNat + chunkBlocks cs := rfl
    rw [h1, h2, ih]

/-- Two lists of chunks in a row have the blocks of both. -/
@[simp]
theorem chunkBlocks_append (cs ds : List Chunk) :
    chunkBlocks (cs ++ ds) = chunkBlocks cs + chunkBlocks ds := by simp [chunkBlocks]

/-- A list of chunks has the blocks of its first and those of the others. -/
@[simp]
theorem chunkBlocks_cons (c : Chunk) (cs : List Chunk) :
    chunkBlocks (c :: cs) = c.header.blocks.toNat + chunkBlocks cs := rfl

/-- No chunks have no blocks. -/
@[simp]
theorem chunkBlocks_nil : chunkBlocks [] = 0 := rfl

/-- Chunks that are not empty are at most as many as their blocks. -/
theorem length_le_chunkBlocks {cs : List Chunk} (h : ∀ c ∈ cs, c.header.blocks ≠ 0) :
    cs.length ≤ chunkBlocks cs := by
  induction cs with
  | nil => exact Nat.le_refl _
  | cons c cs ih =>
    have h1 := toNat_pos_of_ne_zero (h c List.mem_cons_self)
    have h2 := ih fun d hd => h d (List.mem_cons_of_mem _ hd)
    rw [chunkBlocks_cons, List.length_cons]
    omega

section

variable {W : List UInt8} {hdr : SparseHeader}

/-- The record where a chunk stands. -/
theorem recordAt_encode (pre post : List UInt8) (c : Chunk) :
    recordAt (pre ++ (c.encode ++ post)) pre.length = ⟨pre.length, c.header⟩ := by
  have hs : slice (pre ++ (c.encode ++ post)) pre.length CHUNK_HEADER_LEN = c.header.encode := by
    rw [← Nat.add_zero pre.length, slice_append_left, Chunk.encode, List.append_assoc,
      slice_append_right (by simp), ← ChunkHeader.length_encode c.header, slice_self]
  rw [recordAt, hs, ChunkHeader.decode_encode]

/-- The payload stands behind the header. -/
theorem slice_payload (pre post : List UInt8) (c : Chunk) :
    slice (pre ++ (c.encode ++ post)) (pre.length + CHUNK_HEADER_LEN) c.payload.length =
      c.payload := by
  have hpre : pre.length + CHUNK_HEADER_LEN = (pre ++ c.header.encode).length + 0 := by simp
  have hW : pre ++ (c.encode ++ post) = (pre ++ c.header.encode) ++ (c.payload ++ post) := by
    simp [Chunk.encode]
  rw [hpre, hW, slice_append_left, slice_append_right (by simp), slice_self]

/-- **The records of a list of chunks** between a prefix and a rest, and that they are of the
format. -/
theorem records_formed (hh : hdr.chunk_hdr_sz = 12) {cs : List Chunk}
    (hok : ∀ c ∈ cs, c.Formed hdr.blk_sz) {pre post : List UInt8}
    (hW : W = pre ++ (encodeChunks cs ++ post)) (k : ℕ) :
    records W hdr (cs.length + k) pre.length =
        layout pre.length cs ++ records W hdr k (pre ++ encodeChunks cs).length ∧
      ∀ r ∈ layout pre.length cs, r.Ok W hdr := by
  have h12 : hdr.chunk_hdr_sz.toNat = CHUNK_HEADER_LEN := by rw [hh]; rfl
  -- The induction is on the chunks, with what lies before them as the prefix.
  induction cs generalizing pre with
  | nil =>
    refine ⟨?_, fun _ h => nomatch h⟩
    rw [encodeChunks_nil, List.append_nil, List.length_nil, Nat.zero_add]
    rfl
  | cons c cs ih =>
    have hc := hok c List.mem_cons_self
    -- The header that is read at the prefix's end is the first chunk's, and its record ends where
    -- the next one starts.
    have hat : recordAt W pre.length = ⟨pre.length, c.header⟩ := by
      rw [hW, encodeChunks_cons, List.append_assoc, recordAt_encode]
    have hstop : (⟨pre.length, c.header⟩ : Record).stop hdr = (pre ++ c.encode).length := by
      rw [Record.stop, Record.payload, h12, hc.payload, List.length_append, Chunk.length_encode,
        Nat.add_assoc]
    have hW' : W = pre ++ c.encode ++ (encodeChunks cs ++ post) := by
      rw [hW, encodeChunks_cons]; simp only [List.append_assoc]
    obtain ⟨ih1, ih2⟩ := ih (fun d hd => hok d (List.mem_cons_of_mem _ hd)) hW'
    have hlen : W.length = (pre ++ c.encode).length + (encodeChunks cs ++ post).length := by
      rw [hW']; simp only [List.length_append]
    refine ⟨?_, fun r hr => ?_⟩
    · rw [List.length_cons, Nat.add_right_comm, records, hat, hstop, ih1, encodeChunks_cons,
        List.append_assoc, layout, @List.length_append _ pre]
      rfl
    · rcases List.mem_cons.mp hr with rfl | hr
      · refine ⟨?_, hc.kind, ?_, Or.inr ?_⟩
        · simp only [List.length_append, Chunk.length_encode] at hlen ⊢
          omega
        · rw [h12, hc.payload]
          exact hc.total_sz
        · rw [hstop, hlen]
          exact Nat.le_add_right _ _
      · rw [← List.length_append] at hr
        exact ih2 r hr

/-- A record of a list of chunks has the header of one of them. -/
theorem layout_header {pos : ℕ} {cs : List Chunk} {r : Record} (h : r ∈ layout pos cs) :
    ∃ c ∈ cs, r.header = c.header := by
  induction cs generalizing pos with
  | nil => cases h
  | cons c cs ih =>
    rcases List.mem_cons.mp h with rfl | h
    · exact ⟨c, List.mem_cons_self, rfl⟩
    · obtain ⟨d, hd, he⟩ := ih h
      exact ⟨d, List.mem_cons_of_mem _ hd, he⟩

/-- The records of a list of chunks that are not empty, at the end of a file. -/
theorem records_encode (hh : hdr.chunk_hdr_sz = 12) {cs : List Chunk}
    (hok : ∀ c ∈ cs, c.Ok hdr.blk_sz) {pre : List UInt8} (hW : W = pre ++ encodeChunks cs) :
    records W hdr cs.length pre.length = layout pre.length cs ∧
      ∀ r ∈ layout pre.length cs, r.Ok W hdr ∧ r.header.blocks ≠ 0 := by
  obtain ⟨h1, h2⟩ := @records_formed W hdr hh _ (fun c hc => (hok c hc).formed) pre []
    (by rw [hW, List.append_nil]) 0
  refine ⟨h1.trans (List.append_nil _), fun r hr => ⟨h2 r hr, ?_⟩⟩
  obtain ⟨c, hc, he⟩ := layout_header hr
  rw [he]
  exact (hok c hc).blocks

end

/-! ## The chunks that are written -/

section

variable {file : List UInt8} {bs : UInt32} {n last : ℕ} {l : List BackedBlock}

/-- A skip of some blocks is a chunk of the format, and has these blocks. -/
theorem skipChunk_ok (bs : UInt32) {n : ℕ} (h0 : n ≠ 0) (hn : n < 2 ^ 32) :
    (skipChunk n).Ok bs ∧ (skipChunk n).header.blocks.toNat = n := by
  have hblk : (skipChunk n).header.blocks.toNat = n := by
    change (UInt32.ofNat n).toNat = n
    rw [UInt32.toNat_ofNat', Nat.mod_eq_of_lt hn]
  refine ⟨⟨(fun h => nomatch h), rfl, rfl, fun h => h0 ?_⟩, hblk⟩
  rw [← hblk, h]
  rfl

/-- The chunk of a gap is one of the format, and reaches to the next block. -/
theorem gapChunk_ok (bs : UInt32) {last next : ℕ} (hn : next < 2 ^ 32) (h : last ≤ next) :
    (∀ c ∈ gapChunk last next, c.Ok bs) ∧ last + chunkBlocks (gapChunk last next) = next := by
  unfold gapChunk
  by_cases hlt : last < next
  · obtain ⟨h1, h2⟩ := skipChunk_ok bs (n := next - last) (by omega) (by omega)
    rw [if_pos hlt]
    refine ⟨fun c hc => List.mem_singleton.mp hc ▸ h1, ?_⟩
    rw [chunkBlocks_cons, h2, chunkBlocks_nil]
    omega
  · rw [if_neg hlt]
    exact ⟨fun _ hc => (nomatch hc), by rw [chunkBlocks_nil]; omega⟩

/-- The chunk of a block that can be read is a raw or a fill chunk. -/
theorem blockChunk_eq {bb : BackedBlock} (hw : Writable file bs bb) :
    (∃ g o, bb.source = .fd g o ∧ blockChunk file bs bb =
        ⟨⟨CHUNK_TYPE_RAW, 0, bb.len / bs, 12 + bb.len⟩, bb.source.bytes file bb.len.toNat⟩) ∨
      ∃ w, bb.source = .fill w ∧
        blockChunk file bs bb = ⟨⟨CHUNK_TYPE_FILL, 0, bb.len / bs, 16⟩, le32 w⟩ := by
  have hr := hw.readable
  unfold blockChunk
  cases hsrc : bb.source with
  | data _ => rw [hsrc] at hr; exact hr.elim
  | file _ _ => rw [hsrc] at hr; exact hr.elim
  | fd g o => exact Or.inl ⟨g, o, rfl, rfl⟩
  | fill w => exact Or.inr ⟨w, rfl, rfl⟩

/-- The chunk of a block of whole blocks has these blocks. -/
theorem blockChunk_blocks {bb : BackedBlock} (hw : Writable file bs bb) :
    (blockChunk file bs bb).header.blocks = bb.len / bs := by
  rcases blockChunk_eq hw with ⟨g, o, -, h⟩ | ⟨w, -, h⟩ <;> rw [h] <;> rfl

/-- The chunk of a block is one of the format when its size fits into 32 bits. -/
theorem blockChunk_ok {bb : BackedBlock} (hw : Writable file bs bb)
    (hlen : bb.len.toNat + 12 < 2 ^ 32) : (blockChunk file bs bb).Ok bs := by
  have hpos := Call.len_pos (c := ⟨bb.source, bb.len, bb.block⟩) hw.nonempty
  -- A block that is not empty covers at least one block of the image.
  have hblk : (blockChunk file bs bb).header.blocks ≠ 0 := by
    rw [blockChunk_blocks hw]
    intro h0
    have := congrArg UInt32.toNat h0
    rw [UInt32.toNat_div, UInt32.toNat_zero] at this
    have hwhole := hw.whole
    rw [this, Nat.zero_mul] at hwhole
    exact absurd hwhole.symm (Nat.ne_of_gt hpos)
  -- A piece of the file is its own payload, and a fill's payload is its word.
  rcases blockChunk_eq hw with ⟨g, o, hsrc, h⟩ | ⟨w, -, h⟩
  · have hr := hw.readable
    have hl : (bb.source.bytes file bb.len.toNat).length = bb.len.toNat := by
      rw [hsrc] at hr ⊢
      exact length_slice_of_le hr.2
    refine ⟨?_, ?_, ?_, hblk⟩
    · rw [h]
      exact fun hk : ChunkKind.raw = .unknown => nomatch hk
    · rw [h]
      change (bb.len / bs).toNat * bs.toNat = (bb.source.bytes file bb.len.toNat).length
      rw [hl, UInt32.toNat_div, hw.whole]
    · rw [h]
      change (12 + bb.len).toNat = 12 + (bb.source.bytes file bb.len.toNat).length
      rw [hl, UInt32.toNat_add]
      exact Nat.mod_eq_of_lt (by rw [Nat.add_comm]; exact hlen)
  · refine ⟨?_, ?_, ?_, hblk⟩ <;> rw [h]
    · exact fun hk : ChunkKind.fill = .unknown => nomatch hk
    all_goals rfl

/-- The chunks of a list of blocks are of the format, and reach up to the block behind the list. -/
theorem blockChunks_ok (hbs : bs ≠ 0) (h : Fits file bs n l last)
    (hlen : ∀ bb ∈ l, bb.len.toNat + 12 < 2 ^ 32) :
    (∀ c ∈ blockChunks file bs l last, c.Ok bs) ∧
      last + chunkBlocks (blockChunks file bs l last) = endBlock bs l last := by
  induction l generalizing last with
  | nil => exact ⟨fun _ hc => (nomatch hc), rfl⟩
  | cons bb l ih =>
    have hw := h.blocks bb List.mem_cons_self
    have htail := h.tail hbs
    obtain ⟨h1, h2⟩ := gapChunk_ok bs bb.block.toNat_lt (h.lower bb List.mem_cons_self)
    obtain ⟨ih1, ih2⟩ := ih htail fun b hb => hlen b (List.mem_cons_of_mem _ hb)
    have hc := blockChunk_ok hw (hlen bb List.mem_cons_self)
    refine ⟨fun c hcm => ?_, ?_⟩
    · rcases List.mem_append.mp hcm with hg | hcm
      · exact h1 c hg
      · rcases List.mem_cons.mp hcm with rfl | hcm
        · exact hc
        · exact ih1 c hcm
    · rw [blockChunks, chunkBlocks_append, chunkBlocks_cons, blockChunk_blocks hw, UInt32.toNat_div,
        endBlock, ← ih2, ← Nat.add_assoc, h2, ← Nat.add_assoc, BackedBlock.next]

/-- The chunks of an image are of the format, and have the blocks of the image. -/
theorem emitted_ok (hbs : bs ≠ 0) (hn : n < 2 ^ 32) (h : Fits file bs n l 0)
    (hlen : ∀ bb ∈ l, bb.len.toNat + 12 < 2 ^ 32) :
    (∀ c ∈ emitted file bs n l, c.Ok bs) ∧ chunkBlocks (emitted file bs n l) = n := by
  obtain ⟨h1, h2⟩ := blockChunks_ok hbs h hlen
  obtain ⟨h3, h4⟩ := gapChunk_ok bs hn (endBlock_le hbs h)
  refine ⟨fun c hc => ?_, ?_⟩
  · rcases List.mem_append.mp hc with hc | hc
    · exact h1 c hc
    · exact h3 c hc
  · rw [emitted, chunkBlocks_append]
    omega

end

/-! ## The written image -/

/-- A chunk of the image `W` is a copy of a block: they have the same region and the same bytes. -/
structure Copies (W file : List UInt8) (bs : UInt32) (e : Extent BlockSource) (bb : BackedBlock) :
    Prop where
  /-- They start at the same block. -/
  start : e.start = bb.block.toNat
  /-- They have the same length. -/
  len : e.len * bs.toNat = bb.len.toNat
  /-- They have the same bytes. -/
  bytes : e.src.bytes W bb.len.toNat = bb.source.bytes file bb.len.toNat

section

variable {file W : List UInt8} {bs : UInt32} {n last : ℕ} {l : List BackedBlock}

/-- A written image starts with the header of its blocks and chunks. -/
theorem fileHeader_sparseImage (file : List UInt8) (bs : UInt32) (n : ℕ) (l : List BackedBlock) :
    fileHeader (sparseImage file bs n l) =
      writtenHeader bs n (emitted file bs n l).length := by
  rw [fileHeader, sparseImage, slice_append_right (by simp), ← SparseHeader.length_encode
    (writtenHeader bs n (emitted file bs n l).length), slice_self, SparseHeader.decode_encode]

/-- What the written image needs: an image of `n` blocks with one more fits into 32 bits, and so
does every chunk with its header. -/
structure Encodable (file : List UInt8) (bs : UInt32) (n : ℕ) (l : List BackedBlock) : Prop where
  /-- The blocks can be written. -/
  fits : Fits file bs n l 0
  /-- The block size is not zero. -/
  pos : bs ≠ 0
  /-- It is a multiple of four. -/
  mod : bs.toNat % 4 = 0
  /-- It fits into an `int`. -/
  lt : bs.toNat < 2 ^ 31
  /-- The image with one more block fits into 32 bits. -/
  size : (n + 1) * bs.toNat ≤ 2 ^ 32
  /-- A chunk with its header does. -/
  chunk : ∀ bb ∈ l, bb.len.toNat + 12 < 2 ^ 32

/-- The block size of what can be encoded is positive. -/
theorem Encodable.toNat_pos (h : Encodable file bs n l) : 0 < bs.toNat :=
  toNat_pos_of_ne_zero h.pos

/-- The blocks of what can be encoded are fewer than `2^32`. -/
theorem Encodable.n_lt (h : Encodable file bs n l) : n < 2 ^ 32 := by
  have h1 := h.size
  have h2 := Nat.le_mul_of_pos_right n h.toNat_pos
  have h3 := h.toNat_pos
  rw [Nat.add_mul, Nat.one_mul] at h1
  omega

/-- There are at most as many chunks as blocks. -/
theorem Encodable.length_le (h : Encodable file bs n l) : (emitted file bs n l).length ≤ n := by
  obtain ⟨h1, h2⟩ := emitted_ok h.pos h.n_lt h.fits h.chunk
  have := length_le_chunkBlocks fun c hc => (h1 c hc).blocks
  omega

/-- The records of a written image are its chunks. -/
theorem fileRecords_sparseImage (h : Encodable file bs n l) :
    fileRecords (sparseImage file bs n l) = layout SPARSE_HEADER_LEN (emitted file bs n l) ∧
      ∀ r ∈ layout SPARSE_HEADER_LEN (emitted file bs n l),
        r.Ok (sparseImage file bs n l) (fileHeader (sparseImage file bs n l)) ∧
          r.header.blocks ≠ 0 := by
  have hcount : (UInt32.ofNat (emitted file bs n l).length).toNat =
      (emitted file bs n l).length := by
    rw [UInt32.toNat_ofNat', Nat.mod_eq_of_lt (Nat.lt_of_le_of_lt h.length_le h.n_lt)]
  have hW : sparseImage file bs n l = (writtenHeader bs n (emitted file bs n l).length).encode ++
    encodeChunks (emitted file bs n l) := rfl
  have hrec := @records_encode _ (writtenHeader bs n (emitted file bs n l).length) rfl _
    (emitted_ok h.pos h.n_lt h.fits h.chunk).1 _ hW
  rw [SparseHeader.length_encode] at hrec
  rw [fileRecords, fileHeader_sparseImage]
  have htotal : (writtenHeader bs n (emitted file bs n l).length).total_chunks.toNat =
    (emitted file bs n l).length := hcount
  rw [htotal]
  exact hrec

/-- **A written image is an image.** -/
theorem sparseImage_image (h : Encodable file bs n l) : Image (sparseImage file bs n l) := by
  obtain ⟨hrec, hok⟩ := fileRecords_sparseImage h
  have hblk : (UInt32.ofNat n).toNat = n := by rw [UInt32.toNat_ofNat', Nat.mod_eq_of_lt h.n_lt]
  have hhdr := fileHeader_sparseImage file bs n l
  -- The header's checks, the chunks', and the sizes, one after the other.
  refine ⟨⟨⟨?_, ?_, ?_, ?_, ?_⟩, ?_, ?_⟩, ?_, ?_, ?_, ?_, ?_⟩
  · rw [sparseImage, List.length_append, SparseHeader.length_encode]
    exact Nat.le_add_right _ _
  · rw [hhdr]; rfl
  · rw [hhdr]; rfl
  · rw [hhdr]; exact Nat.le_refl 28
  · rw [hhdr]; exact Nat.le_refl 12
  · rw [hrec]
    exact fun r hr => (hok r hr).1
  · rw [hrec, totalBlocks_layout, (emitted_ok h.pos h.n_lt h.fits h.chunk).2, hhdr]
    exact hblk.symm
  · rw [hhdr]; exact h.toNat_pos
  · rw [hhdr]; exact h.mod
  · rw [hhdr]; exact h.lt
  · rw [hrec]
    intro r hr hk h0
    refine (hok r hr).2 ?_
    unfold ChunkHeader.blocks
    rcases hk with hk | hk <;> rw [hk, h0]
  · rw [hhdr]
    change ((UInt32.ofNat n).toNat + 1) * bs.toNat ≤ 2 ^ 32
    rw [hblk]
    exact h.size

/-- A gap describes nothing: what is read behind it starts at the next block. -/
theorem chunks_gapChunk {hdr : SparseHeader} (fd pos : ℕ) {last next : ℕ} (hn : next < 2 ^ 32)
    (hle : last ≤ next) (cs : List Chunk) :
    chunks W hdr fd (layout pos (gapChunk last next ++ cs)) last =
      chunks W hdr fd (layout (pos + (encodeChunks (gapChunk last next)).length) cs) next := by
  unfold gapChunk
  by_cases hlt : last < next
  · obtain ⟨-, h2⟩ := skipChunk_ok 0 (n := next - last) (by omega) (by omega)
    rw [if_pos hlt, List.singleton_append, layout, chunks]
    have hsrc : (⟨pos, (skipChunk (next - last)).header⟩ : Record).source? W hdr fd = none := rfl
    rw [hsrc]
    simp only [Option.map_none, Option.toList_none, List.nil_append, h2, encodeChunks_cons,
      encodeChunks_nil, List.append_nil]
    rw [Nat.add_sub_cancel' hle]
  · have : last = next := by omega
    rw [if_neg hlt, this]
    simp

/-- **The chunk of a block**, wherever it is in the file, is a copy of the block. -/
theorem blockChunk_copies {hdr : SparseHeader} (hh : hdr.chunk_hdr_sz = 12) (fd : ℕ)
    {bb : BackedBlock} (hw : Writable file bs bb) {pre post : List UInt8}
    (hW : W = pre ++ ((blockChunk file bs bb).encode ++ post)) :
    ∃ source,
      (⟨pre.length, (blockChunk file bs bb).header⟩ : Record).source? W hdr fd = some source ∧
      Copies W file bs
        ⟨bb.block.toNat, (blockChunk file bs bb).header.chunk_sz.toNat, source⟩ bb := by
  have h12 : hdr.chunk_hdr_sz.toNat = CHUNK_HEADER_LEN := by rw [hh]; rfl
  have hpay := slice_payload pre post (blockChunk file bs bb)
  rw [← hW] at hpay
  have hlen (hck : (blockChunk file bs bb).header.chunk_sz = bb.len / bs) :
      (blockChunk file bs bb).header.chunk_sz.toNat * bs.toNat = bb.len.toNat := by
    rw [hck, UInt32.toNat_div, hw.whole]
  -- What follows the header is the payload: the block's bytes, or its word.
  rcases blockChunk_eq hw with ⟨g, o, hsrc, hc⟩ | ⟨w, hsrc, hc⟩
  · have hl : (blockChunk file bs bb).payload.length = bb.len.toNat := by
      have hr := hw.readable
      rw [hc, hsrc]
      rw [hsrc] at hr
      exact length_slice_of_le hr.2
    refine ⟨.fd fd (pre.length + CHUNK_HEADER_LEN : ℕ), by rw [hc, ← h12]; rfl, rfl,
      hlen (by rw [hc]), ?_⟩
    rw [hl] at hpay
    change slice W (pre.length + CHUNK_HEADER_LEN : ℕ) bb.len.toNat = _
    rw [hpay, hc]
  · have hword : (⟨pre.length, (blockChunk file bs bb).header⟩ : Record).word W hdr = w := by
      have hl : (blockChunk file bs bb).payload = le32 w := by rw [hc]
      rw [hl, length_le32] at hpay
      rw [Record.word, read32, Record.payload, h12, hpay, ofLe_le32]
    refine ⟨.fill w, by rw [← hword, hc]; rfl, rfl, hlen (by rw [hc]), ?_⟩
    rw [hsrc]
    rfl

/-- **The raw and fill chunks** of a list of chunks are copies of the blocks of the list. -/
theorem chunks_copies {hdr : SparseHeader} (hh : hdr.chunk_hdr_sz = 12) (fd : ℕ) (hbs : bs ≠ 0)
    (hn : n < 2 ^ 32) (h : Fits file bs n l last) {pre : List UInt8}
    (hW : W = pre ++ encodeChunks
      (blockChunks file bs l last ++ gapChunk (endBlock bs l last) n)) :
    List.Forall₂ (Copies W file bs)
      (chunks W hdr fd (layout pre.length
        (blockChunks file bs l last ++ gapChunk (endBlock bs l last) n)) last) l := by
  induction l generalizing last pre with
  | nil =>
    have hg := @chunks_gapChunk W hdr fd pre.length _ _ hn h.last_le []
    rw [List.append_nil] at hg
    simp only [blockChunks, endBlock, List.nil_append, hg]
    exact List.Forall₂.nil
  | cons bb l ih =>
    have hw := h.blocks bb List.mem_cons_self
    simp only [blockChunks, endBlock, List.append_assoc, List.cons_append] at hW ⊢
    rw [chunks_gapChunk fd pre.length bb.block.toNat_lt (h.lower bb List.mem_cons_self)]
    -- What is in front of the chunk of the first block, with the gap.
    rw [encodeChunks_append, encodeChunks_cons, ← List.append_assoc] at hW
    rw [← List.length_append]
    generalize pre ++ encodeChunks (gapChunk last bb.block.toNat) = pre' at hW ⊢
    obtain ⟨source, hs, hcopy⟩ := blockChunk_copies hh fd hw hW
    have hrest := ih (h.tail hbs) (hW.trans (List.append_assoc _ _ _).symm)
    rw [List.length_append] at hrest
    rw [layout, chunks, hs, blockChunk_blocks hw, UInt32.toNat_div]
    exact List.Forall₂.cons hcopy hrest

/-- **The chunks of a written image** are copies of the blocks that were written. -/
theorem sparseImage_copies (h : Encodable file bs n l) (fd : ℕ) :
    List.Forall₂ (Copies (sparseImage file bs n l) file bs)
      (fileChunks fd (sparseImage file bs n l)) l := by
  rw [fileChunks, (fileRecords_sparseImage h).1, fileHeader_sparseImage,
    ← SparseHeader.length_encode (writtenHeader bs n (emitted file bs n l).length)]
  exact chunks_copies rfl fd h.pos h.n_lt h.fits rfl

/-- A copy has the bytes of the block, at the positions of the block. -/
theorem Copies.byte {e : Extent BlockSource} {bb : BackedBlock} (h : Copies W file bs e bb)
    (hr : Readable W bb.len.toNat e.src) (hw : Writable file bs bb) (h4 : bs.toNat % 4 = 0) {k : ℕ}
    (hk : k < bb.len.toNat) : (e.src.label k).byte W (bb.block.toNat * bs.toNat + k) =
      (bb.source.label k).byte file (bb.block.toNat * bs.toNat + k) := by
  have hmod : ∀ m, m * bs.toNat % 4 = 0 := fun m => by
    rw [Nat.mul_mod, h4, Nat.mul_zero, Nat.zero_mod]
  have hlen4 : bb.len.toNat % 4 = 0 := by rw [← hw.whole]; exact hmod _
  rw [← BlockSource.getD_bytes hr hlen4 hk (hmod _), h.bytes,
    BlockSource.getD_bytes hw.readable hlen4 hk (hmod _)]

/-- In two lists that are related element by element, each element has a partner in the other. -/
theorem mem_of_forall₂ {α β : Type*} {R : α → β → Prop} {as : List α} {bs : List β}
    (h : List.Forall₂ R as bs) :
    (∀ a ∈ as, ∃ b ∈ bs, R a b) ∧ ∀ b ∈ bs, ∃ a ∈ as, R a b := by
  induction h with
  | nil => exact ⟨fun _ h => (nomatch h), fun _ h => nomatch h⟩
  | cons hab _ ih =>
    refine ⟨fun a ha => ?_, fun b hb => ?_⟩
    · rcases List.mem_cons.mp ha with rfl | ha
      · exact ⟨_, List.mem_cons_self, hab⟩
      · obtain ⟨b, hb, h⟩ := ih.1 a ha
        exact ⟨b, List.mem_cons_of_mem _ hb, h⟩
    · rcases List.mem_cons.mp hb with rfl | hb
      · exact ⟨_, List.mem_cons_self, hab⟩
      · obtain ⟨a, ha, h⟩ := ih.2 b hb
        exact ⟨a, List.mem_cons_of_mem _ ha, h⟩

/-- **A file that shows the import of a written image** shows the blocks that were written. -/
theorem Imported.shows {s : SparseFile} {fd : ℕ} (h : Encodable file bs n l)
    (hi : Imported fd (sparseImage file bs n l) s) {old new : List UInt8}
    (hs : Shows (sparseImage file bs n l) s.block_size s.blocks old new) :
    Shows file bs l old new := by
  have hbs : s.block_size = bs := by rw [hi.block_size, fileHeader_sparseImage]; rfl
  have himg := sparseImage_image h
  obtain ⟨hto, hfrom⟩ := mem_of_forall₂ (sparseImage_copies h fd)
  -- The payload of every chunk can be read.
  have hread : ∀ e ∈ fileChunks fd (sparseImage file bs n l),
      Readable (sparseImage file bs n l) (e.len * bs.toNat) e.src := by
    have := @chunks_readable _ _ fd _ himg.records himg.nonempty himg.blk_sz_pos 0
    rw [fileHeader_sparseImage] at this
    rw [fileChunks, fileHeader_sparseImage]
    exact this
  constructor
  · -- What a block holds is shown through its chunk.
    rintro p x ⟨_, hx, h1, h2, rfl⟩
    obtain ⟨bb, hbb, rfl⟩ := List.mem_map.mp hx
    obtain ⟨e, he, hc⟩ := hfrom bb hbb
    rw [BackedBlock.extent_start] at h1
    rw [BackedBlock.extent_stop] at h2
    have hb := hc.byte (hc.len ▸ hread e he) (h.fits.blocks bb hbb) h.mod
      (k := p - bb.block.toNat * bs.toNat) (by omega)
    rw [Nat.add_sub_cancel' h1] at hb
    change _ = (bb.source.label (p - bb.block.toNat * bs.toNat)).byte file p
    rw [← hb]
    refine hs.described p _ ((hi.describes p _).mpr
      ⟨_, List.mem_map_of_mem he, ?_, ?_, ?_⟩)
    · rw [hbs]
      simpa only [Extent.scale, hc.start] using h1
    · rw [hbs, Extent.scale_stop, Extent.stop, Nat.add_mul, hc.start, hc.len]
      exact h2
    · simp only [hbs, Extent.scale, hc.start]
  · -- Elsewhere no chunk says anything, so what was there stays.
    intro p hp
    refine hs.other p fun x hx => ?_
    obtain ⟨_, hx, h1, h2, -⟩ := (hi.describes p x).mp hx
    obtain ⟨e, he, rfl⟩ := List.mem_map.mp hx
    obtain ⟨bb, hbb, hc⟩ := hto e he
    rw [hbs] at h1 h2
    rw [Extent.scale_stop, Extent.stop, Nat.add_mul, hc.start, hc.len] at h2
    refine hp _ ⟨_, List.mem_map_of_mem hbb, ?_, h2, rfl⟩
    rw [BackedBlock.extent_start, ← hc.start]
    exact h1

end

end AmlogicToolkit.Simg
