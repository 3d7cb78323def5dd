import AmlogicToolkit.Simg.ChunkMap
import AmlogicToolkit.Simg.WholeBlocks
import Mathlib.Algebra.Order.BigOperators.Group.List

/-!
# Expanding a sparse image

`simg2img` on a well-formed image: the file that it writes is the concatenation of the contents of
the chunks (`simg2img_expands`). The importer makes a block list that describes the chunks
(`Image.import`), the writer puts the bytes of the list at their positions
(`sparseFileWrite_normal`), and the contents of the chunks, one after the other, are these bytes
(`expand_shows`).
-/

namespace AmlogicToolkit.Simg

open Bytes Extents

/-- A well-formed image that `simg2img` can expand: its blocks are whole words and fit into an
`int`, no raw or fill chunk is empty, and the image with one more block fits into 32 bits. -/
structure Image (file : List UInt8) : Prop extends WellFormed file where
  /-- The block size is not zero. -/
  blk_sz_pos : 0 < (fileHeader file).blk_sz.toNat
  /-- It is a multiple of four. -/
  blk_sz_mod : (fileHeader file).blk_sz.toNat % 4 = 0
  /-- It fits into an `int`. -/
  blk_sz_lt : (fileHeader file).blk_sz.toNat < 2 ^ 31
  /-- Raw and fill chunks have at least one block. -/
  nonempty : ∀ r ∈ fileRecords file,
    r.header.kind = .raw ∨ r.header.kind = .fill → r.header.chunk_sz ≠ 0
  /-- The image and one more block fit into 32 bits. -/
  size : ((fileHeader file).total_blks.toNat + 1) * (fileHeader file).blk_sz.toNat ≤ 2 ^ 32

instance (file : List UInt8) : Decidable (Image file) :=
  decidable_of_iff (WellFormed file ∧ 0 < (fileHeader file).blk_sz.toNat ∧
      (fileHeader file).blk_sz.toNat % 4 = 0 ∧ (fileHeader file).blk_sz.toNat < 2 ^ 31 ∧
      (∀ r ∈ fileRecords file,
        r.header.kind = .raw ∨ r.header.kind = .fill → r.header.chunk_sz ≠ 0) ∧
      ((fileHeader file).total_blks.toNat + 1) * (fileHeader file).blk_sz.toNat ≤ 2 ^ 32)
    ⟨fun h => ⟨h.1, h.2.1, h.2.2.1, h.2.2.2.1, h.2.2.2.2.1, h.2.2.2.2.2⟩,
      fun h => ⟨h.toWellFormed, h.blk_sz_pos, h.blk_sz_mod, h.blk_sz_lt, h.nonempty, h.size⟩⟩

section

variable (file : List UInt8) (hdr : SparseHeader)

/-- The content of a chunk in the expanded image. -/
def Record.content (r : Record) : List UInt8 :=
  match r.header.kind with
  | .raw => slice file (r.payload hdr) (r.header.chunk_sz.toNat * hdr.blk_sz.toNat)
  | .fill => cycle (r.header.chunk_sz.toNat * hdr.blk_sz.toNat / 4) (le32 (r.word file hdr))
  | .dontCare => List.replicate (r.header.chunk_sz.toNat * hdr.blk_sz.toNat) 0
  | .crc32 => []
  | .unknown => []

end

/-- The expanded image: the contents of the chunks, one after the other. -/
def expand (file : List UInt8) : List UInt8 :=
  (fileRecords file).flatMap (Record.content file (fileHeader file))

/-! ## The import of an image -/

section

variable {file : List UInt8} {hdr : SparseHeader} {fd : ℕ}

/-- The data size of a record of the format is that of its payload. -/
theorem Record.Ok.dataSize {r : Record} (h : r.Ok file hdr) :
    (r.dataSize hdr).toNat = r.header.payloadSize hdr.blk_sz := by
  have hhsz : (hdr.chunk_hdr_sz.toUInt32).toNat = hdr.chunk_hdr_sz.toNat := by simp
  have hle : hdr.chunk_hdr_sz.toUInt32 ≤ r.header.total_sz := by
    rw [UInt32.le_iff_toNat_le, hhsz, h.total_sz]; exact Nat.le_add_right _ _
  rw [Record.dataSize, UInt32.toNat_sub_of_le _ _ hle, hhsz, h.total_sz, Nat.add_sub_cancel_left]

/-- A record of the format is accepted, when its block count is not negative. -/
theorem Record.Ok.accepted {r : Record} (h : r.Ok file hdr) (hb : r.header.blocks.toNat < 2 ^ 31) :
    r.accepted file hdr := by
  have hdata := h.dataSize
  have hpay := h.payload
  have hkind := h.kind
  have hp := h.present
  simp only [Record.accepted, Record.taken, hb, hp, decide_true, Bool.true_and, Bool.and_true]
  unfold Record.stop at hpay
  unfold ChunkHeader.payloadSize at hdata hpay ⊢
  cases hk : r.header.kind <;> simp only [hk] at hdata hpay hkind ⊢
  · simp [hdata]
  · have h4 : r.dataSize hdr = 4 := UInt32.toNat_inj.mp hdata
    simp only [h4, BEq.rfl, Bool.true_and, decide_eq_true_eq]
    omega
  · have h0 : r.dataSize hdr = 0 := UInt32.toNat_inj.mp hdata
    simp [h0]
  · have h4 : r.dataSize hdr = 4 := UInt32.toNat_inj.mp hdata
    simp only [h4, BEq.rfl, Bool.true_and, decide_eq_true_eq]
    omega

/-- The chunks of records of the format can be read. -/
theorem chunks_readable {rs : List Record} (hok : ∀ r ∈ rs, r.Ok file hdr)
    (hne : ∀ r ∈ rs, r.header.kind = .raw ∨ r.header.kind = .fill → r.header.chunk_sz ≠ 0)
    (hbs : 0 < hdr.blk_sz.toNat) (b : ℕ) : ∀ e ∈ chunks file hdr fd rs b,
    Readable file (e.len * hdr.blk_sz.toNat) e.src := by
  induction rs generalizing b with
  | nil => exact fun _ h => nomatch h
  | cons r rs ih =>
    intro e he
    rcases mem_chunks_cons.mp he with ⟨hk, rfl⟩ | ⟨-, rfl⟩ | he
    · have hpay := (hok r List.mem_cons_self).payload
      have h0 := hne r List.mem_cons_self (Or.inl hk)
      have hpos : 0 < r.header.chunk_sz.toNat * hdr.blk_sz.toNat :=
        Nat.mul_pos (toNat_pos_of_ne_zero h0) hbs
      simp only [Record.stop, ChunkHeader.payloadSize, hk] at hpay
      refine ⟨Int.natCast_nonneg _, ?_⟩
      change r.payload hdr + r.header.chunk_sz.toNat * hdr.blk_sz.toNat ≤ file.length
      omega
    · trivial
    · exact ih (fun r hr => hok r (List.mem_cons_of_mem _ hr))
        (fun r hr => hne r (List.mem_cons_of_mem _ hr)) _ e he

end

/-- What the import of an image makes. -/
structure Imported (fd : ℕ) (file : List UInt8) (s : SparseFile) : Prop where
  /-- The importer returns the file. -/
  import_eq : sparseFileImport fd file false = .ok (some s)
  /-- It has the block size of the header. -/
  block_size : s.block_size = (fileHeader file).blk_sz
  /-- Its blocks describe the chunks. -/
  describes : ∀ p x, Describes s.block_size s.blocks p x ↔ Described BlockSource.label
    ((fileChunks fd file).map (Extent.scale s.block_size.toNat)) p x
  /-- It can be written. -/
  writable : s.Writable file (fileHeader file).total_blks.toNat
  /-- The list is valid. -/
  valid : s.Valid

/-- The import of an image gets to the end: no chunk has more blocks than the image. -/
theorem Image.finishes {file : List UInt8} (h : Image file) : Simg.finishes file := by
  have hpos := h.blk_sz_pos
  have hsize := h.size
  rw [Nat.add_mul, Nat.one_mul] at hsize
  have hblk : (fileHeader file).total_blks.toNat * 4 ≤ 2 ^ 32 := by
    have h4 : 4 ≤ (fileHeader file).blk_sz.toNat := by have := h.blk_sz_mod; omega
    have := Nat.mul_le_mul_left (fileHeader file).total_blks.toNat h4
    omega
  have hsum := h.total_blks
  have hacc : ∀ r ∈ fileRecords file, r.accepted file (fileHeader file) := by
    intro r hr
    refine (h.records r hr).accepted ?_
    have : r.header.blocks.toNat ≤ totalBlocks (fileRecords file) :=
      List.single_le_sum (fun _ _ => Nat.zero_le _) _ (List.mem_map_of_mem hr)
    omega
  simp only [Simg.finishes, Bool.and_eq_true, beq_iff_eq]
  refine ⟨List.all_eq_true.mpr hacc, UInt32.toNat_inj.mp ?_⟩
  rw [toNat_blockAfter, hsum, UInt32.toNat_zero, Nat.zero_add,
    Nat.mod_eq_of_lt (fileHeader file).total_blks.toNat_lt]

/-- The chunks of an image end inside it. -/
theorem Image.chunks_stop {file : List UInt8} (h : Image file) (fd : ℕ) :
    ∀ e ∈ fileChunks fd file, e.stop ≤ (fileHeader file).total_blks.toNat := by
  intro e he
  have := (chunks_bounds _ _ e he).2
  have hsum := h.total_blks
  omega

/-- The chunks of an image do not wrap. -/
theorem Image.exact {file : List UInt8} (h : Image file) (fd : ℕ) :
    Exact (fileHeader file).blk_sz (fileChunks fd file) := by
  have hpos := h.blk_sz_pos
  have hsize := h.size
  rw [Nat.add_mul, Nat.one_mul] at hsize
  intro e he
  have h1 := h.chunks_stop fd e he
  have h2 := (@fileChunks_ordered fd _ h.header h.nonempty).nonempty e he
  simp only [Extent.stop] at h1
  have hblk := Nat.le_mul_of_pos_right (fileHeader file).total_blks.toNat hpos
  have := Nat.mul_le_mul_right (fileHeader file).blk_sz.toNat
    (show e.len ≤ (fileHeader file).total_blks.toNat by omega)
  exact ⟨by omega, by omega⟩

/-- The calls that the import of an image makes: those of its chunks, which are of whole blocks and
describe the chunks. -/
theorem Image.calls {file : List UInt8} (h : Image file) (fd : ℕ) :
    WholeCalls file (fileHeader file).blk_sz (fileHeader file).total_blks.toNat
        ((fileChunks fd file).map (toCall (fileHeader file).blk_sz)) ∧
      (∀ p x, Requested (fileHeader file).blk_sz
          ((fileChunks fd file).map (toCall (fileHeader file).blk_sz)) p x ↔
        Described BlockSource.label
          ((fileChunks fd file).map (Extent.scale (fileHeader file).blk_sz.toNat)) p x) ∧
      ∀ s, addAll (sparseFileNew (fileHeader file).blk_sz
            ((fileHeader file).total_blks.toNat * (fileHeader file).blk_sz.toNat : ℕ))
          ((fileChunks fd file).map (toCall (fileHeader file).blk_sz)) = .ok s →
        sparseFileImport fd file false = .ok (some s) := by
  have hpos := h.blk_sz_pos
  have hbs : (fileHeader file).blk_sz ≠ 0 := ne_zero_of_toNat_pos hpos
  have hfin := h.finishes
  have hord := @fileChunks_ordered fd _ h.header h.nonempty
  have hend := h.chunks_stop fd
  have hx := h.exact fd
  have hread := @chunks_readable _ _ fd _ h.records h.nonempty hpos 0
  -- The length of a call does not wrap, for the blocks fit into the image.
  have hlen : ∀ e ∈ fileChunks fd file, (toCall (fileHeader file).blk_sz e).len.toNat =
      e.len * (fileHeader file).blk_sz.toNat := fun e he => by
    rw [toCall, UInt32.toNat_ofNat', Nat.mod_eq_of_lt (hx e he).2]
  refine ⟨⟨(hord.allowed hbs hx).nonempty, hord.increasing (starts_lt hord
      (Nat.le_of_lt (fileHeader file).total_blks.toNat_lt) hend), ?_, ?_, ?_⟩, fun p x => ?_,
    fun s heq => ?_⟩
  · refine List.forall_mem_map.mpr fun e he => ?_
    rw [hlen e he]
    exact Nat.dvd_mul_left _ _
  · refine List.forall_mem_map.mpr fun e he => ?_
    rw [toCall_extent (hx e he).1 (hx e he).2, Extent.scale_stop]
    exact Nat.mul_le_mul_right _ (hend e he)
  · refine List.forall_mem_map.mpr fun e he => ?_
    rw [hlen e he]
    exact hread e he
  · have hmap : (fileChunks fd file).map (Call.extent (fileHeader file).blk_sz ∘
        toCall (fileHeader file).blk_sz) =
          (fileChunks fd file).map (Extent.scale (fileHeader file).blk_sz.toNat) :=
      List.map_congr_left fun e he => toCall_extent (hx e he).1 (hx e he).2
    rw [Requested, List.map_map, hmap]
  · -- The import adds exactly these calls, in the order of the chunks.
    rw [sparseFileImport_eq, if_pos h.header, importedFile_eq hbs hfin, emptyFile,
      SparseHeader.imageLen_eq h.blk_sz_lt, heq]
    simp only [hfin, if_true]

/-- **An image is imported**, and its block list describes its chunks. -/
theorem Image.import {file : List UInt8} (h : Image file) (fd : ℕ) :
    ∃ s, Imported fd file s := by
  obtain ⟨hcalls, hdesc, himp⟩ := h.calls fd
  obtain ⟨s, heq, hv, hsz, hw, hf⟩ := addAll_writable (ne_zero_of_toNat_pos h.blk_sz_pos)
    h.blk_sz_mod h.blk_sz_lt h.size hcalls
  refine ⟨s, himp s heq, hsz, fun p x => ?_, hw, hv⟩
  rw [hf p x, hsz]
  exact hdesc p x

/-! ## The contents of the chunks -/

section

variable {file : List UInt8} {hdr : SparseHeader} {fd : ℕ}

/-- The content of a chunk is that of its source, and zeros for a chunk without one. -/
theorem Record.content_eq (r : Record) : r.content file hdr =
    match r.source? file hdr fd with
    | some source => source.bytes file (r.header.blocks.toNat * hdr.blk_sz.toNat)
    | none => List.replicate (r.header.blocks.toNat * hdr.blk_sz.toNat) 0 := by
  unfold Record.content Record.source? ChunkHeader.blocks
  cases r.header.kind <;> simp [BlockSource.bytes]

/-- A chunk with a source can be read. -/
theorem Record.Ok.readable {r : Record} (h : r.Ok file hdr) (hbs : 0 < hdr.blk_sz.toNat)
    (hne : r.header.kind = .raw ∨ r.header.kind = .fill → r.header.chunk_sz ≠ 0)
    {source : BlockSource} (hs : r.source? file hdr fd = some source) :
    Readable file (r.header.blocks.toNat * hdr.blk_sz.toNat) source := by
  have := @chunks_readable _ _ fd [r] (by simpa using h) (by simpa using hne) hbs 0
    ⟨0, r.header.chunk_sz.toNat, source⟩ (by simp [chunks, hs])
  rwa [Record.blocks_of_source hs]

/-- The content of a chunk is as long as its blocks. -/
theorem Record.Ok.length_content {r : Record} (h : r.Ok file hdr) (hbs : 0 < hdr.blk_sz.toNat)
    (h4 : hdr.blk_sz.toNat % 4 = 0)
    (hne : r.header.kind = .raw ∨ r.header.kind = .fill → r.header.chunk_sz ≠ 0) :
    (r.content file hdr).length = r.header.blocks.toNat * hdr.blk_sz.toNat := by
  rw [@Record.content_eq _ _ 0]
  cases hs : r.source? file hdr 0 with
  | none => exact List.length_replicate
  | some source =>
    exact BlockSource.length_bytes (h.readable hbs hne hs) (by rw [Nat.mul_mod, h4]; simp)

/-- The contents of accepted records are as many bytes as their blocks have. -/
theorem length_contents {rs : List Record} (hok : ∀ r ∈ rs, r.Ok file hdr)
    (hne : ∀ r ∈ rs, r.header.kind = .raw ∨ r.header.kind = .fill → r.header.chunk_sz ≠ 0)
    (hbs : 0 < hdr.blk_sz.toNat) (h4 : hdr.blk_sz.toNat % 4 = 0) :
    (rs.flatMap (Record.content file hdr)).length = totalBlocks rs * hdr.blk_sz.toNat := by
  induction rs with
  | nil => simp [totalBlocks]
  | cons r rs ih =>
    have hr := (hok r List.mem_cons_self).length_content hbs h4 (hne r List.mem_cons_self)
    have ih := ih (fun r hr => hok r (List.mem_cons_of_mem _ hr))
      fun r hr => hne r (List.mem_cons_of_mem _ hr)
    rw [List.flatMap_cons, List.length_append, hr, ih, ← Nat.add_mul]
    rfl

/-- The content of a chunk fills the chunk. -/
theorem Record.Ok.content_fills {r : Record} (hr : r.Ok file hdr)
    (hne : r.header.kind = .raw ∨ r.header.kind = .fill → r.header.chunk_sz ≠ 0)
    (hbs : 0 < hdr.blk_sz.toNat) (h4 : hdr.blk_sz.toNat % 4 = 0) (b : ℕ) :
    Fills BlockSource.label (fun p x => x.byte file p) 0
      (((r.source? file hdr fd).map fun source =>
        ⟨b, r.header.chunk_sz.toNat, source⟩).toList.map (Extent.scale hdr.blk_sz.toNat))
      (b * hdr.blk_sz.toNat) (r.content file hdr) := by
  rw [@Record.content_eq _ _ fd]
  cases hs : r.source? file hdr fd with
  | none => exact fills_replicate _ _
  | some source =>
    have hread := hr.readable hbs hne hs
    have hmod (n : ℕ) : n * hdr.blk_sz.toNat % 4 = 0 := by
      rw [Nat.mul_mod, h4, Nat.mul_zero, Nat.zero_mod]
    rw [← Record.blocks_of_source hs]
    exact Extent.fills (BlockSource.length_bytes hread (hmod _)) fun k hk =>
      BlockSource.getD_bytes hread (hmod _) hk (hmod b)

/-- **The contents of the chunks fill the chunks**: a position that a chunk describes holds the byte
of its label, and any other position holds zero. -/
theorem contents_fills {rs : List Record} (hok : ∀ r ∈ rs, r.Ok file hdr)
    (hne : ∀ r ∈ rs, r.header.kind = .raw ∨ r.header.kind = .fill → r.header.chunk_sz ≠ 0)
    (hbs : 0 < hdr.blk_sz.toNat) (h4 : hdr.blk_sz.toNat % 4 = 0) (b : ℕ) :
    Fills BlockSource.label (fun p x => x.byte file p) 0
      ((chunks file hdr fd rs b).map (Extent.scale hdr.blk_sz.toNat)) (b * hdr.blk_sz.toNat)
      (rs.flatMap (Record.content file hdr)) := by
  induction rs generalizing b with
  | nil => exact fills_nil _
  | cons r rs ih =>
    have hr := hok r List.mem_cons_self
    have hlen := hr.length_content hbs h4 (hne r List.mem_cons_self)
    have hrest := ih (fun r hr => hok r (List.mem_cons_of_mem _ hr))
      (fun r hr => hne r (List.mem_cons_of_mem _ hr)) (b + r.header.blocks.toNat)
    have hnext := Nat.add_mul b r.header.blocks.toNat hdr.blk_sz.toNat
    rw [hnext, ← hlen] at hrest
    rw [chunks, List.map_append, List.flatMap_cons]
    refine (hr.content_fills (hne r List.mem_cons_self) hbs h4 b).append hrest
      (fun e he => ?_) (fun f hf => ?_)
    · obtain ⟨e', he', rfl⟩ := List.mem_map.mp he
      obtain ⟨source, hs, rfl⟩ := Option.map_eq_some_iff.mp (Option.mem_toList.mp he')
      rw [hlen, ← hnext, Extent.scale_stop, Record.blocks_of_source hs]
      exact le_refl _
    · obtain ⟨f', hf', rfl⟩ := List.mem_map.mp hf
      rw [hlen, ← hnext]
      exact Nat.mul_le_mul_right _ (chunks_bounds _ _ f' hf').1

end

/-- The expanded image has the length that the header announces. -/
theorem Image.length_expand {file : List UInt8} (h : Image file) :
    (expand file).length =
      (fileHeader file).total_blks.toNat * (fileHeader file).blk_sz.toNat := by
  rw [expand, length_contents h.records h.nonempty h.blk_sz_pos h.blk_sz_mod, h.total_blks]

/-- A file that shows the import of an image over nothing, cut to its length, is the expanded
image. -/
theorem Imported.resize_eq {fd : ℕ} {file mid : List UInt8} {s : SparseFile}
    (h : Imported fd file s) (hi : Image file) (hs : Shows file s.block_size s.blocks [] mid) :
    resize 0 ((fileHeader file).total_blks.toNat * s.block_size.toNat) mid = expand file := by
  refine ext_getD (z := 0) (by rw [length_resize, hi.length_expand, h.block_size]) fun p hp => ?_
  rw [length_resize] at hp
  rw [getD_resize, if_pos hp]
  obtain ⟨h1, h2⟩ := @contents_fills _ _ fd _ hi.records hi.nonempty hi.blk_sz_pos
    hi.blk_sz_mod 0 p (by simp)
  rw [Nat.zero_mul, Nat.sub_zero, ← h.block_size] at h1 h2
  by_cases hx : ∃ x, Describes s.block_size s.blocks p x
  · obtain ⟨x, hx⟩ := hx
    rw [hs.described p x hx]
    exact (h1 x ((h.describes p x).mp hx)).symm
  · rw [hs.other p fun x hxx => hx ⟨x, hxx⟩]
    exact (h2 fun x hxx => hx ⟨x, (h.describes p x).mpr hxx⟩).symm

/-- **`simg2img` is correct on the whole format.** An image is imported, and writing it in the
normal format onto an empty file succeeds and leaves the expanded image, of the length that the
header announces. -/
theorem simg2img_expands {file : List UInt8} (h : Image file) (fd : ℕ) :
    ∃ s new, sparseFileImport fd file false = .ok (some s) ∧
      sparseFileWrite file_ops (Env.ofFile file) s ⟨[], 0⟩ false false = .ok (0, new) ∧
        new.bytes = expand file ∧ new.bytes.length =
          (fileHeader file).total_blks.toNat * (fileHeader file).blk_sz.toNat := by
  obtain ⟨s, hs⟩ := h.import fd
  obtain ⟨mid, new, heq, hshows, hnew⟩ := sparseFileWrite_normal hs.writable []
  have hexp := hs.resize_eq h hshows
  exact ⟨s, new, hs.import_eq, heq, hnew.trans hexp, by rw [hnew, hexp, h.length_expand]⟩

/-- An image of four blocks of four bytes: a raw chunk, two blocks of a fill word and a hole, with a
checksum that is not looked at, and chunk headers two bytes longer than they need be. -/
def sampleImage : List UInt8 :=
  SparseHeader.encode ⟨SPARSE_HEADER_MAGIC, 1, 0, 28, 14, 4, 4, 4, 0⟩ ++
    (ChunkHeader.encode ⟨CHUNK_TYPE_RAW, 0, 1, 18⟩ ++ [0, 0] ++ [1, 2, 3, 4]) ++
    (ChunkHeader.encode ⟨CHUNK_TYPE_FILL, 0, 2, 18⟩ ++ [0, 0] ++ [5, 6, 7, 8]) ++
    (ChunkHeader.encode ⟨CHUNK_TYPE_DONT_CARE, 0, 1, 14⟩ ++ [0, 0]) ++
    (ChunkHeader.encode ⟨CHUNK_TYPE_CRC32, 0, 0, 18⟩ ++ [0, 0] ++ [9, 9, 9, 9])

/-- The sample image is imported, and written as its expansion. -/
theorem simg2img_expands_sample :
    ∃ s new, sparseFileImport 0 sampleImage false = .ok (some s) ∧
      sparseFileWrite file_ops (Env.ofFile sampleImage) s ⟨[], 0⟩ false false = .ok (0, new) ∧
        new.bytes = expand sampleImage ∧ new.bytes.length =
          (fileHeader sampleImage).total_blks.toNat * (fileHeader sampleImage).blk_sz.toNat :=
  simg2img_expands (by decide +kernel) 0

example : expand sampleImage = [1, 2, 3, 4, 5, 6, 7, 8, 5, 6, 7, 8, 0, 0, 0, 0] := by
  decide +kernel

end AmlogicToolkit.Simg
