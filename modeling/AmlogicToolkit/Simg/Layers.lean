import AmlogicToolkit.Simg.Expand

/-!
# Several images, one over the other

`simg2img` with several inputs opens its output once and writes each image from the start of it, over
what the images in front have left. Holes are not written, so that the earlier images show through
the holes of the later ones; but each image sets the length of the file, and cuts off what is behind
its own end. A byte of the result is that of the last image that covers it, unless an image behind
that one does not reach it (`simg2img_layers`).
-/

namespace AmlogicToolkit.Simg

open Bytes Extents

/-- A raw or a fill chunk of the image lies at that position of the expanded image. -/
def Covers (file : List UInt8) (p : ℕ) : Prop :=
  p ∈ cells ((fileChunks 0 file).map (Extent.scale (fileHeader file).blk_sz.toNat))

instance (file : List UInt8) (p : ℕ) : Decidable (Covers file p) := by
  unfold Covers
  infer_instance

/-! ## One image -/

/-- What an image leaves of a file: it has the length of the image, the bytes of the chunks where
these are, and the old bytes elsewhere. -/
structure Overlays (file old new : List UInt8) : Prop where
  /-- The file gets the length of the image. -/
  length : new.length = (expand file).length
  /-- A position that is covered gets the byte of the image. -/
  covered : ∀ p, Covers file p → new.getD p 0 = (expand file).getD p 0
  /-- Any other position inside the image keeps its byte. -/
  other : ∀ p < (expand file).length, ¬ Covers file p → new.getD p 0 = old.getD p 0

section

variable {file : List UInt8}

/-- An image ends behind what it covers. -/
theorem Image.covers_lt (h : Image file) {p : ℕ} (hp : Covers file p) :
    p < (expand file).length := by
  obtain ⟨_, hmem, -, hlt⟩ := mem_cells.mp hp
  obtain ⟨e, he, rfl⟩ := List.mem_map.mp hmem
  rw [Extent.scale_stop] at hlt
  calc p < e.stop * (fileHeader file).blk_sz.toNat := hlt
    _ ≤ (fileHeader file).total_blks.toNat * (fileHeader file).blk_sz.toNat :=
      Nat.mul_le_mul_right _ (h.chunks_stop 0 e he)
    _ = (expand file).length := h.length_expand.symm

/-- **One pass of the loop**: the image is imported and written over the file. -/
theorem simg2imgFile_image (h : Image file) (old : RawFile) :
    ∃ new, simg2imgFile file old = .ok (some new) ∧ Overlays file old.bytes new.bytes := by
  obtain ⟨s, hs⟩ := h.import 0
  obtain ⟨mid, new, hwrite, hshows, hnew⟩ := sparseFileWrite_normal hs.writable old.bytes
  have hlen : (fileHeader file).total_blks.toNat * s.block_size.toNat = (expand file).length := by
    rw [hs.block_size, h.length_expand]
  rw [hlen] at hnew
  have hget {p : ℕ} (hp : p < (expand file).length) : new.bytes.getD p 0 = mid.getD p 0 := by
    rw [hnew, getD_resize, if_pos hp]
  have hdescribes (p : ℕ) : Covers file p ↔ ∃ x, Describes s.block_size s.blocks p x := by
    rw [Covers, mem_cells_iff_described BlockSource.label, ← hs.block_size]
    exact exists_congr fun x => (hs.describes p x).symm
  refine ⟨new, ?_, by rw [hnew, length_resize], fun p hp => ?_, fun p hlt hp => ?_⟩
  · simp only [simg2imgFile, hs.import_eq, bind, Except.bind, hwrite]
    rfl
  -- The writer and the meaning of the chunks put the same byte there.
  · obtain ⟨x, hx⟩ := (hdescribes p).mp hp
    have hfill := (@contents_fills _ _ 0 _ h.records h.nonempty h.blk_sz_pos h.blk_sz_mod 0 p
      (by simp)).1 x
    rw [Nat.zero_mul, Nat.sub_zero, ← hs.block_size] at hfill
    rw [hget (h.covers_lt hp), hshows.described p x hx]
    exact (hfill ((hs.describes p x).mp hx)).symm
  · rw [hget hlt, hshows.other p fun x hx => hp ((hdescribes p).mpr ⟨x, hx⟩)]

end

/-! ## The loop -/

/-- Of the images, `file` is the last one that covers the position, and those behind it are long
enough to keep what is there. -/
def ShowsThrough (files : List (List UInt8)) (file : List UInt8) (p : ℕ) : Prop :=
  ∃ before after, files = before ++ file :: after ∧ Covers file p ∧
    ∀ f ∈ after, p < (expand f).length ∧ ¬ Covers f p

/-- The file that the images have left so far. -/
structure Stacked (files : List (List UInt8)) (raw : List UInt8) : Prop where
  /-- It has the length of the last image. -/
  length : ∀ before file, files = before ++ [file] → raw.length = (expand file).length
  /-- A position holds the byte of the image that shows through. -/
  shown : ∀ p file, ShowsThrough files file p → raw.getD p 0 = (expand file).getD p 0
  /-- It holds zero where none does. -/
  other : ∀ p, (∀ file, ¬ ShowsThrough files file p) → raw.getD p 0 = 0

section

variable {files : List (List UInt8)} {file g : List UInt8}

/-- One more image covers the position, or lets through what did before. -/
theorem showsThrough_concat {p : ℕ} : ShowsThrough (files ++ [g]) file p ↔
    (file = g ∧ Covers g p) ∨ (ShowsThrough files file p ∧ p < (expand g).length ∧ ¬ Covers g p) := by
  constructor
  · rintro ⟨before, after, heq, hcov, hafter⟩
    -- The image is the new one when nothing is behind it.
    rcases List.eq_nil_or_concat' after with rfl | ⟨after, f, rfl⟩
    · obtain ⟨-, hg⟩ := List.append_inj' heq rfl
      obtain rfl : g = file := by simpa using hg
      exact .inl ⟨rfl, hcov⟩
    · rw [← List.cons_append, ← List.append_assoc] at heq
      obtain ⟨hfiles, hg⟩ := List.append_inj' heq rfl
      obtain rfl : g = f := by simpa using hg
      refine .inr ⟨⟨before, after, hfiles, hcov, fun f hf => ?_⟩, hafter g (by simp)⟩
      exact hafter f (List.mem_append_left _ hf)
  · rintro (⟨rfl, hcov⟩ | ⟨⟨before, after, rfl, hcov, hafter⟩, hg⟩)
    · exact ⟨files, [], rfl, hcov, fun _ h => nomatch h⟩
    · refine ⟨before, after ++ [g], by simp, hcov, fun f hf => ?_⟩
      rcases List.mem_append.mp hf with hf | hf
      · exact hafter f hf
      · rw [List.mem_singleton.mp hf]
        exact hg

/-- **The step of the loop**: one more image over the file. -/
theorem Stacked.concat {old new : List UInt8} (h : Stacked files old) (ho : Overlays g old new) :
    Stacked (files ++ [g]) new := by
  have hlt {p : ℕ} (hp : ¬ p < (expand g).length) : new.getD p 0 = 0 :=
    List.getD_eq_default _ _ (by rw [ho.length]; omega)
  refine ⟨fun before file heq => ?_, fun p file hp => ?_, fun p hp => ?_⟩
  · obtain ⟨-, hg⟩ := List.append_inj' heq rfl
    obtain rfl : g = file := by simpa using hg
    exact ho.length
  · obtain ⟨rfl, hcov⟩ | ⟨hfile, hin, hcov⟩ := showsThrough_concat.mp hp
    · exact ho.covered p hcov
    · rw [ho.other p hin hcov, h.shown p file hfile]
  · by_cases hin : p < (expand g).length
    · have hcov : ¬ Covers g p := fun hcov => hp g (showsThrough_concat.mpr (.inl ⟨rfl, hcov⟩))
      rw [ho.other p hin hcov]
      exact h.other p fun file hfile =>
        hp file (showsThrough_concat.mpr (.inr ⟨hfile, hin, hcov⟩))
    -- What is behind the end of the image is cut off.
    · exact hlt hin

/-- The loop of `simg2img` goes on over what the images in front have left. -/
theorem simg2imgLoop_stacked {before : List (List UInt8)} {old : RawFile}
    (h : ∀ file ∈ files, Image file) (hold : Stacked before old.bytes) :
    ∃ new, simg2imgLoop files old = .ok (some new) ∧ Stacked (before ++ files) new.bytes := by
  induction files generalizing before old with
  | nil => exact ⟨old, rfl, by rwa [List.append_nil]⟩
  | cons file files ih =>
    obtain ⟨mid, hfile, ho⟩ := simg2imgFile_image (h file List.mem_cons_self) old
    obtain ⟨new, hloop, hnew⟩ := ih (fun f hf => h f (List.mem_cons_of_mem _ hf)) (hold.concat ho)
    refine ⟨new, ?_, ?_⟩
    · rw [simg2imgLoop]
      simp only [hfile, bind, Except.bind, hloop]
    · rwa [List.append_assoc] at hnew

/-- **`simg2img` of several images** succeeds. The file has the length of the last image; a position
holds the byte of the last image that covers it, when none behind that one ends in front of it, and
zero otherwise. -/
theorem simg2img_layers (hne : files ≠ []) (h : ∀ file ∈ files, Image file) :
    ∃ raw, simg2img files = .ok (some raw) ∧
      raw.length = (expand (files.getLast hne)).length ∧
      ∀ p, (∀ file, ShowsThrough files file p → raw.getD p 0 = (expand file).getD p 0) ∧
        ((∀ file, ¬ ShowsThrough files file p) → raw.getD p 0 = 0) := by
  have hnil : Stacked [] [] :=
    ⟨fun _ _ h => by simp at h, fun _ _ ⟨_, _, h, _⟩ => by simp at h, fun _ _ => rfl⟩
  obtain ⟨new, hloop, hnew⟩ := @simg2imgLoop_stacked _ [] ⟨[], 0⟩ h hnil
  rw [List.nil_append] at hnew
  refine ⟨new.bytes, ?_, ?_, fun p => ⟨hnew.shown p, hnew.other p⟩⟩
  · simp only [simg2img, hloop, bind, Except.bind]
    rfl
  · exact hnew.length files.dropLast _ (List.dropLast_append_getLast hne).symm

end

/-- An image of three blocks of four bytes: a raw chunk between two holes. -/
def patchImage : List UInt8 :=
  SparseHeader.encode ⟨SPARSE_HEADER_MAGIC, 1, 0, 28, 12, 4, 3, 3, 0⟩ ++
    ChunkHeader.encode ⟨CHUNK_TYPE_DONT_CARE, 0, 1, 12⟩ ++
    (ChunkHeader.encode ⟨CHUNK_TYPE_RAW, 0, 1, 16⟩ ++ [9, 9, 9, 9]) ++
    ChunkHeader.encode ⟨CHUNK_TYPE_DONT_CARE, 0, 1, 12⟩

/-- The patch over the sample: the sample shows through the first hole, and its last block, which is
behind the end of the patch, is lost. -/
theorem simg2img_layers_patch :
    ∃ raw, simg2img [sampleImage, patchImage] = .ok (some raw) ∧ raw.length = 12 ∧
      raw.getD 0 0 = 1 ∧ raw.getD 4 0 = 9 := by
  have himages : ∀ file ∈ [sampleImage, patchImage], Image file := by decide +kernel
  obtain ⟨raw, heq, hlen, hshown⟩ := simg2img_layers (by simp) himages
  refine ⟨raw, heq, hlen.trans (by decide +kernel), ?_, ?_⟩
  · have hsample : ShowsThrough [sampleImage, patchImage] sampleImage 0 :=
      ⟨[], [patchImage], rfl, by decide +kernel, by decide +kernel⟩
    exact ((hshown 0).1 _ hsample).trans (by decide +kernel)
  · have hpatch : ShowsThrough [sampleImage, patchImage] patchImage 4 :=
      ⟨[sampleImage], [], rfl, by decide +kernel, fun _ h => nomatch h⟩
    exact ((hshown 4).1 _ hpatch).trans (by decide +kernel)

example : simg2img [sampleImage, patchImage] =
    .ok (some [1, 2, 3, 4, 9, 9, 9, 9, 5, 6, 7, 8]) := by decide +kernel

end AmlogicToolkit.Simg
