import AmlogicToolkit.Simg.ReadRaw
import AmlogicToolkit.Simg.SparseImage

/-!
# Raw to sparse and back

`img2simg` followed by `simg2img` on a raw file of whole blocks. The reader makes one call for each
block, a fill when all words of the block are equal, so that every position of the image has the byte
of the file (`rawCalls_requested`). The list that the calls leave is written as a sparse image, and
expanding it gives the file back (`img2simg_roundTrip`).
-/

namespace AmlogicToolkit.Simg

open Bytes Extents

/-! ## Reading a raw file -/

section

variable (file : List UInt8) (bs : UInt32)

/-- What block `k` of a raw file is filled from. -/
def rawSource (k : ℕ) : BlockSource :=
  let buf := slice file (k * bs.toNat) bs.toNat
  if isSparseBlock bs buf then .fill (read32 buf 0) else .fd 0 (k * bs.toNat : ℕ)

/-- The call that adds block `k` of a raw file. -/
def rawCall (k : ℕ) : Call := ⟨rawSource file bs k, bs, UInt32.ofNat k⟩

/-- The calls that add `m` blocks of a raw file from block `k` on. -/
def rawCalls (k m : ℕ) : List Call := (List.range' k m).map (rawCall file bs)

end

section

variable {file : List UInt8} {bs : UInt32}

/-- Block `k` has the bytes of the file. -/
theorem rawSource_bytes (h4 : bs.toNat % 4 = 0) {k : ℕ}
    (hk : k * bs.toNat + bs.toNat ≤ file.length) :
    Readable file bs.toNat (rawSource file bs k) ∧
      (rawSource file bs k).bytes file bs.toNat = slice file (k * bs.toNat) bs.toNat := by
  unfold rawSource
  by_cases h : isSparseBlock bs (slice file (k * bs.toNat) bs.toNat)
  · simp only [if_pos h]
    exact ⟨trivial, cycle_of_isSparseBlock h4 (length_slice_of_le hk) h⟩
  · simp only [if_neg h]
    exact ⟨⟨Int.natCast_nonneg _, hk⟩, rfl⟩

/-- On a raw file of whole blocks the calls are one for each block. -/
theorem normalCalls_eq_rawCalls (n : ℕ) :
    normalCalls 0 file bs (n * bs.toNat) 0 n = rawCalls file bs 0 n := by
  refine List.map_congr_left fun k hk => ?_
  have hk : k < n := by simpa using hk
  have hend : k * bs.toNat + bs.toNat ≤ n * bs.toNat := by
    rw [← Nat.succ_mul]
    exact Nat.mul_le_mul_right _ hk
  have hfull : blockLen bs (n * bs.toNat) k = bs.toNat := Nat.min_eq_left (by omega)
  rw [normalCall, rawCall, rawSource, hfull, UInt32.ofNat_toNat]
  simp only [true_and]

/-- The calls of a raw file are calls of whole blocks. -/
theorem rawCalls_whole (hbs : bs ≠ 0) (h4 : bs.toNat % 4 = 0) {n : ℕ} (hn : n < 2 ^ 32)
    (hfile : file.length = n * bs.toNat) : WholeCalls file bs n (rawCalls file bs 0 n) := by
  -- The block numbers do not wrap, as there are less than 2^32 of them.
  have hblk : ∀ k < n, (rawCall file bs k).block.toNat = k := fun k hk => by
    change (UInt32.ofNat k).toNat = k
    rw [UInt32.toNat_ofNat', Nat.mod_eq_of_lt (by omega)]
  have hend : ∀ k < n, k * bs.toNat + bs.toNat ≤ n * bs.toNat := fun k hk => by
    rw [← Nat.succ_mul]
    exact Nat.mul_le_mul_right _ hk
  have hmem : ∀ k ∈ List.range' 0 n, k < n := fun k hk => by simpa using hk
  refine ⟨?_, ?_, ?_, ?_, ?_⟩
  · -- No block is empty.
    exact List.forall_mem_map.mpr fun k _ => hbs
  · refine List.pairwise_map.mpr (List.Pairwise.imp_of_mem (fun {j k} hj hk hjk => ?_)
      List.pairwise_lt_range')
    have h1 := hblk j (hmem j hj)
    have h2 := hblk k (hmem k hk)
    refine ⟨UInt32.lt_iff_toNat_lt.mpr (by omega), ?_⟩
    rw [Before, Call.extent_stop, Call.extent_start, h1, h2]
    change j * bs.toNat + bs.toNat ≤ _
    rw [← Nat.succ_mul]
    exact Nat.mul_le_mul_right _ hjk
  · exact List.forall_mem_map.mpr fun k _ => Nat.dvd_refl _
  · -- No block ends behind the image.
    refine List.forall_mem_map.mpr fun k hk => ?_
    rw [Call.extent_stop, hblk k (hmem k hk)]
    exact hend k (hmem k hk)
  · refine List.forall_mem_map.mpr fun k hk => (rawSource_bytes h4 ?_).1
    rw [hfile]
    exact hend k (hmem k hk)

/-- **The calls of a raw file** put every byte of the file at its position. -/
theorem rawCalls_requested (hbs : bs ≠ 0) (h4 : bs.toNat % 4 = 0) {n : ℕ} (hn : n < 2 ^ 32)
    (hfile : file.length = n * bs.toNat) {p : ℕ} (hp : p < file.length) :
    ∃ x, Requested bs (rawCalls file bs 0 n) p x ∧ x.byte file p = file.getD p 0 := by
  have hpos : 0 < bs.toNat := toNat_pos_of_ne_zero hbs
  have hsplit := Nat.div_add_mod' p bs.toNat
  have hmod := Nat.mod_lt p hpos
  -- The byte is in the block its position divided by the block size gives.
  have hk : p / bs.toNat < n := (Nat.div_lt_iff_lt_mul hpos).mpr (hfile ▸ hp)
  have hend : p / bs.toNat * bs.toNat + bs.toNat ≤ file.length := by
    rw [hfile, ← Nat.succ_mul]
    exact Nat.mul_le_mul_right _ hk
  obtain ⟨hr, hb⟩ := rawSource_bytes h4 hend
  have hblk : (rawCall file bs (p / bs.toNat)).block.toNat = p / bs.toNat := by
    change (UInt32.ofNat _).toNat = _
    rw [UInt32.toNat_ofNat', Nat.mod_eq_of_lt (by omega)]
  have hmem : rawCall file bs (p / bs.toNat) ∈ rawCalls file bs 0 n :=
    List.mem_map_of_mem (by simpa using hk)
  refine ⟨_, ⟨_, List.mem_map_of_mem hmem, ?_, ?_, rfl⟩, ?_⟩
  · rw [Call.extent_start, hblk]
    omega
  · rw [Call.extent_stop, hblk]
    change p < p / bs.toNat * bs.toNat + bs.toNat
    omega
  · -- Its place in the block is the remainder.
    have hoff : p - (Call.extent bs (rawCall file bs (p / bs.toNat))).start = p % bs.toNat := by
      rw [Call.extent_start, hblk]
      omega
    have hbyte := @BlockSource.getD_bytes _ _ _ hr h4 (p / bs.toNat * bs.toNat) _ hmod
      (by rw [Nat.mul_mod, h4, Nat.mul_zero, Nat.zero_mod])
    rw [hsplit, hb, getD_slice, if_pos hmod, hsplit] at hbyte
    rw [hoff]
    exact hbyte.symm

end

/-! ## The round trip -/

/-- What a sparse file is on disk: a header and as many chunks of the format as it announces. -/
def ChunkFile (file : List UInt8) : Prop :=
  ∃ cs : List Chunk, file = (fileHeader file).encode ++ encodeChunks cs ∧
    (fileHeader file).total_chunks.toNat = cs.length ∧ ∀ c ∈ cs, c.Ok (fileHeader file).blk_sz

/-- The sparse image of blocks that can be encoded is a header and its chunks. -/
theorem sparseImage_chunkFile {file : List UInt8} {bs : UInt32} {n : ℕ} {l : List BackedBlock}
    (h : Encodable file bs n l) : ChunkFile (sparseImage file bs n l) := by
  refine ⟨emitted file bs n l, by rw [fileHeader_sparseImage]; rfl, ?_, ?_⟩
  · rw [fileHeader_sparseImage]
    change (UInt32.ofNat _).toNat = _
    rw [UInt32.toNat_ofNat', Nat.mod_eq_of_lt (Nat.lt_of_le_of_lt h.length_le h.n_lt)]
  · rw [fileHeader_sparseImage]
    exact (emitted_ok h.pos h.n_lt h.fits h.chunk).1

/-- A sparse file that can be written, and whose blocks leave room for their headers, can be written
as an image. -/
theorem SparseFile.Writable.encodable {file : List UInt8} {s : SparseFile} {n : ℕ}
    (h : s.Writable file n) (hsize : (n + 1) * s.block_size.toNat ≤ 2 ^ 32)
    (hroom : n * s.block_size.toNat + 12 < 2 ^ 32) : Encodable file s.block_size n s.blocks := by
  refine ⟨h.fits, h.block_size_pos, h.block_size_mod, h.block_size_lt, hsize, fun bb hbb => ?_⟩
  have := h.inside bb hbb
  rw [BackedBlock.extent_stop] at this
  omega

/-- `simg2img` of one file that is imported and written gives the bytes that were written. -/
theorem simg2img_single {file : List UInt8} {s : SparseFile} {new : RawFile}
    (h : sparseFileImport 0 file false = .ok (some s))
    (hw : sparseFileWrite file_ops (Env.ofFile file) s ⟨[], 0⟩ false false = .ok (0, new)) :
    simg2img [file] = .ok (some new.bytes) := by
  simp only [simg2img, simg2imgLoop, simg2imgFile, h, hw, bind, Except.bind, pure, Except.pure]
  rfl

/-- **Raw to sparse and back.** For a block size that `img2simg` admits and a file of whole blocks
that fits into 32 bits with one more, `img2simg` writes an image that is accepted, that has the
blocks of the file and announces its chunks, and that `simg2img` expands to the file. -/
theorem img2simg_roundTrip {file : List UInt8} {bs : UInt32} (hmin : 1024 ≤ bs.toNat)
    (h4 : bs.toNat % 4 = 0) (hlt : bs.toNat < 2 ^ 31) (hdvd : bs.toNat ∣ file.length)
    (hsize : file.length + bs.toNat ≤ 2 ^ 32) :
    ∃ image s, img2simg file bs = .ok (some image) ∧
      sparseFileImport 0 image false = .ok (some s) ∧
      (fileHeader image).total_blks.toNat = file.length / bs.toNat ∧ ChunkFile image ∧
      simg2img [image] = .ok (some file) := by
  obtain ⟨n, hn⟩ := hdvd
  rw [Nat.mul_comm] at hn
  have hpos : 0 < bs.toNat := by omega
  have hbs : bs ≠ 0 := ne_zero_of_toNat_pos hpos
  have hsize' : (n + 1) * bs.toNat ≤ 2 ^ 32 := by rw [Nat.add_mul, Nat.one_mul]; omega
  have hnlt : n < 2 ^ 32 := by
    have := Nat.le_mul_of_pos_right n hpos
    omega
  -- The reader.
  have hcalls := rawCalls_whole hbs h4 hnlt hn
  obtain ⟨s, heq, hv, rfl, hw, hf⟩ := addAll_writable hbs h4 hlt hsize' hcalls
  have hread : sparseFileRead (sparseFileNew s.block_size file.length) ⟨0, file, 0⟩ false false =
      .ok s := by
    rw [hn]
    refine (sparseFileReadNormal_eq hbs hn.ge).trans ?_
    rw [round_up_mul hpos, normalCalls_eq_rawCalls, heq]
    rfl
  -- The writer.
  have henc := hw.encodable hsize' (by omega)
  obtain ⟨new, hwrite, hnew⟩ := sparseFileWrite_sparse hw
  have himg : img2simg file s.block_size =
      .ok (some (sparseImage file s.block_size n s.blocks)) := by
    have hadm : ¬ (s.block_size < 1024 ∨ s.block_size % 4 ≠ 0) := by
      rw [UInt32.lt_iff_toNat_lt, ← UInt32.toNat_inj.ne, UInt32.toNat_mod]
      rintro (h | h)
      · exact absurd h (Nat.not_lt.mpr hmin)
      · exact h h4
    rw [img2simg, if_neg hadm, hread]
    simp only [nullOnError, bind, Except.bind, hwrite]
    rw [if_neg (by decide), hnew]
    rfl
  -- The expansion.
  obtain ⟨s', hi⟩ := (sparseImage_image henc).import 0
  obtain ⟨mid, new', hwrite', hshows, hnew'⟩ := sparseFileWrite_normal hi.writable []
  have hcopy := Imported.shows henc hi hshows
  have hblk : (fileHeader (sparseImage file s.block_size n s.blocks)).total_blks.toNat = n := by
    rw [fileHeader_sparseImage]
    change (UInt32.ofNat n).toNat = n
    rw [UInt32.toNat_ofNat', Nat.mod_eq_of_lt hnlt]
  have hbs' : s'.block_size = s.block_size := by
    rw [hi.block_size, fileHeader_sparseImage]
    rfl
  have hback : new'.bytes = file := by
    refine ext_getD (z := 0) (by rw [hnew', length_resize, hblk, hbs', hn]) fun p hp => ?_
    rw [hnew', length_resize, hblk, hbs'] at hp
    obtain ⟨x, hx, hbyte⟩ := rawCalls_requested hbs h4 hnlt hn (hn ▸ hp)
    rw [hnew', getD_resize, hblk, hbs', if_pos hp, hcopy.described p x ((hf p x).mpr hx), hbyte]
  refine ⟨_, s', himg, hi.import_eq, ?_, sparseImage_chunkFile henc, ?_⟩
  · rw [hblk, hn, Nat.mul_div_cancel _ hpos]
  · rw [simg2img_single hi.import_eq hwrite', hback]

/-- Two blocks of one byte go through `img2simg` and come back from `simg2img`. -/
theorem img2simg_roundTrip_two_blocks :
    ∃ image s, img2simg (List.replicate 2048 7) 1024 = .ok (some image) ∧
      sparseFileImport 0 image false = .ok (some s) ∧
      (fileHeader image).total_blks.toNat =
        (List.replicate 2048 (7 : UInt8)).length / (1024 : UInt32).toNat ∧ ChunkFile image ∧
      simg2img [image] = .ok (some (List.replicate 2048 7)) :=
  img2simg_roundTrip (by decide) (by decide) (by decide)
    ⟨2, by rw [List.length_replicate]; decide⟩ (by rw [List.length_replicate]; decide)

end AmlogicToolkit.Simg
