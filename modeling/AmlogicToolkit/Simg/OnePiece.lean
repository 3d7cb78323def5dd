import AmlogicToolkit.Simg.DryRun
import AmlogicToolkit.Simg.Resparse
import AmlogicToolkit.Simg.NormalForm

/-!
# Images that fit into one piece

`simg2simg` on an image that is not longer than the limit, with the header of the file and one of a
chunk to spare: neither call of `sparse_file_resparse` divides a block, and the only piece is the
normal form of the image (`simg2simg_normal`).
-/

namespace AmlogicToolkit.Simg

open Bytes Extents

/-! ## The size of an image -/

section

variable {file : List UInt8} {bs : UInt32} {n : ℕ} {l : List BackedBlock}

/-- The chunks of a list are as long as a pass of `sparse_file_resparse` counts. -/
theorem length_blockChunks (hbs : bs ≠ 0) (hn : n < 2 ^ 32) {last_block : UInt32}
    (h : Fits file bs n l last_block.toNat) :
    (encodeChunks (blockChunks file bs l last_block.toNat)).length = cost bs l last_block := by
  induction l generalizing last_block with
  | nil => rfl
  | cons bb l ih =>
    have hw := h.blocks bb List.mem_cons_self
    have hnext := h.next_eq hbs hn
    have hrest := ih (hnext ▸ h.tail hbs)
    -- A gap is a chunk without payload, and none at all when the blocks touch.
    have hgap : (encodeChunks (gapChunk last_block.toNat bb.block.toNat)).length =
        gapSize last_block bb := by
      unfold gapChunk gapSize
      by_cases hlt : last_block < bb.block
      · rw [if_pos (UInt32.lt_iff_toNat_lt.mp hlt), if_pos hlt]
        rfl
      · rw [if_neg fun h => hlt (UInt32.lt_iff_toNat_lt.mpr h), if_neg hlt]
        rfl
    have hchunk : (blockChunk file bs bb).encode.length = chunkSize bs bb := by
      have hpad : padded bs.toNat bb.len.toNat = bb.len.toNat :=
        padded_eq (toNat_pos_of_ne_zero hbs) (Dvd.intro_left _ hw.whole)
      rcases blockChunk_eq hw with ⟨g, o, hsrc, hc⟩ | ⟨w, hsrc, hc⟩
      · have hr := hw.readable
        rw [hsrc] at hr
        have hlen : (bb.source.bytes file bb.len.toNat).length = bb.len.toNat := by
          rw [hsrc]
          exact length_slice_of_le hr.2
        rw [hc, Chunk.length_encode, hlen, chunkSize, hsrc, hpad]
        rfl
      · rw [hc, Chunk.length_encode, length_le32, chunkSize, hsrc]
        rfl
    rw [blockChunks, encodeChunks_append, encodeChunks_cons, List.length_append,
      List.length_append, hgap, hchunk, cost, ← hrest, hnext, Nat.add_assoc]

/-- What a pass counts is not more than what is written. -/
theorem cost_le_length (h : Encodable file bs n l) :
    cost bs l 0 + SPARSE_HEADER_LEN ≤ (sparseImage file bs n l).length := by
  have hlen := @length_blockChunks _ _ _ _ h.pos h.n_lt 0 h.fits
  rw [UInt32.toNat_zero] at hlen
  rw [sparseImage, List.length_append, SparseHeader.length_encode, emitted, encodeChunks_append,
    List.length_append, hlen]
  omega

/-- An image that is short enough fits into one piece. -/
theorem cost_le_budget (h : Encodable file bs n l) {max_len : UInt32}
    (hmax : (sparseImage file bs n l).length + 28 ≤ max_len.toNat) :
    cost bs l 0 ≤ budget max_len := by
  have hcost := cost_le_length h
  have hoverhead : overhead.toNat = 56 := rfl
  rw [budget, UInt32.toNat_sub_of_le _ _ (UInt32.le_iff_toNat_le.mpr (by
    rw [hoverhead]
    change _ + 28 ≤ _ at hcost
    omega)), hoverhead]
  change _ + 28 ≤ _ at hcost
  omega

end

/-! ## One pass -/

section

variable {file : List UInt8} {s s' : SparseFile} {n : ℕ} {max_len : UInt32}

/-- What can be written does not depend on the addresses. -/
theorem SparseFile.Writable.congr (h : s.Writable file n) (hsize : s'.block_size = s.block_size)
    (hlen : s'.len = s.len) (hblocks : s'.blocks = s.blocks) : s'.Writable file n := by
  obtain ⟨h1, h2, h3, h4, h5, h6, h7, h8⟩ := h
  rw [← hsize] at h1 h2 h3 h4 h6 h7 h8
  rw [← hblocks] at h6 h7 h8
  exact ⟨h1, h2, h3, hlen.trans h4, h5, h6, h7, h8⟩

/-- A writable file of linked, short blocks that cost no more than one piece has. -/
structure FitsOne (file : List UInt8) (max_len : UInt32) (n : ℕ) (s : SparseFile) : Prop
    extends s.Writable file n where
  /-- Its nodes lie at addresses of their own. -/
  linked : Linked [] s
  /-- The blocks are below `2^31` bytes. -/
  short : ∀ bb ∈ s.blocks, bb.len.toNat < 2 ^ 31
  /-- They fit. -/
  cost_le : cost s.block_size s.blocks 0 ≤ budget max_len

/-- Every block of a file that fits one piece can be measured. -/
theorem FitsOne.scan_ne_failed (h : FitsOne file max_len n s) :
    scan (Env.ofFile file) s max_len ≠ .failed := scanBlocks_ne_failed h.blocks _ _ _ _ rfl

/-- **The pass** takes all blocks, and is the last one. -/
theorem FitsOne.pass (h : FitsOne file max_len n s) :
    ∃ mid p, moveChunksUpToLen (Env.ofFile file) s (sparseFileNew s.block_size s.len) max_len =
        .ok (false, mid, p) ∧ mid.blocks = [] ∧ p.blocks = s.blocks ∧ Left [] s mid p := by
  obtain ⟨⟨more, mid, p⟩, hm⟩ := @moveChunksUpToLen_ok (Env.ofFile file) max_len s h.block_size_pos
  obtain ⟨-, htakes, hleft⟩ := moveChunksUpToLen_takes h.linked hm
  have hpacks := htakes.packs h.linked h.block_size_pos h.block_size_lt
    (fun bb hbb => .inr (h.short bb hbb)) h.scan_ne_failed
  obtain ⟨rfl, hmid, hp⟩ := hpacks.of_fits h.cost_le
  exact ⟨mid, p, hm, hmid, hp, hleft⟩

/-- A file that fits one piece meets the conditions of the partition: no pass comes after the first.
-/
theorem FitsOne.plain (h : FitsOne file max_len n s) : Plain (Env.ofFile file) max_len s := by
  obtain ⟨mid, p, hpass, -⟩ := h.pass
  -- A run that goes on has not made a pass yet.
  have honly : ∀ ss mid' more, Run (Env.ofFile file) max_len s ss mid' more →
      more = true → mid' = s := by
    intro ss mid' more run
    induction run with
    | start => exact fun _ => rfl
    | step run pass ih =>
      intro hmore
      rw [ih rfl, hpass] at pass
      obtain ⟨rfl, -⟩ := Prod.mk.inj (Except.ok.inj pass)
      exact absurd hmore Bool.false_ne_true
  refine ⟨h.linked, h.block_size_lt, fun bb hbb => .inr (h.short bb hbb), fun ss mid' run => ?_⟩
  rw [honly ss mid' true run rfl]
  exact h.scan_ne_failed

/-- **The call that counts** leaves the blocks where they were, and finds one piece. -/
theorem FitsOne.first (h : FitsOne file max_len n s) (fuel : ℕ) :
    ∃ s', sparseFileResparse (Env.ofFile file) (fuel + 1) s max_len 0 = .ok (s', [], 1) ∧
      s'.blocks = s.blocks ∧ FitsOne file max_len n s' ∧ s'.block_size = s.block_size := by
  obtain ⟨mid, p, hpass, -, hp, hleft⟩ := h.pass
  -- The call that counts links the blocks of its pieces back into the list.
  have hin : ∀ bb ∈ s.blocks, (bb.extent s.block_size).stop ≤ 2 ^ 32 * s.block_size.toNat :=
    fun bb hbb => (h.inside bb hbb).trans (Nat.mul_le_mul_right _ (Nat.le_of_lt h.blocks_lt))
  have hplace : ∀ ss mid, Run (Env.ofFile file) max_len s ss mid true →
      SplitsInPlace (Env.ofFile file) max_len mid := fun ss mid run =>
    run.splitsInPlace h.linked h.disjoint fun ss mid run => run.keepsNumbers h.linked hin
  obtain ⟨hblocks, hsize, hlinked, -⟩ := dry_run_leaves h.plain
    (h.disjoint.order h.block_size_pos) hplace (Run.step .start hpass) rfl
  rw [List.nil_append, List.flatMap_singleton, hp] at hblocks
  refine ⟨_, ?_, hblocks, ?_, hsize⟩
  · simp only [sparseFileResparse, resparseLoop, hpass, bind, Except.bind, Nat.lt_irrefl, if_false,
      Bool.false_eq_true]
    rfl
  · have hw := h.toWritable.congr hsize hleft.len hblocks
    refine ⟨hw, hlinked, fun bb hbb => h.short bb (hblocks ▸ hbb), ?_⟩
    rw [hblocks, hsize]
    exact h.cost_le

/-- **The call that makes the pieces** makes one, of all blocks. -/
theorem FitsOne.second (h : FitsOne file max_len n s) (fuel : ℕ) :
    ∃ rest p, sparseFileResparse (Env.ofFile file) (fuel + 1) s max_len 1 = .ok (rest, [p], 1) ∧
      p.block_size = s.block_size ∧ p.blocks = s.blocks ∧ p.Writable file n := by
  obtain ⟨mid, p, hpass, -, hp, hleft⟩ := h.pass
  have hcall : ∃ rest, sparseFileResparse (Env.ofFile file) (fuel + 1) s max_len 1 =
      .ok (rest, [p], 1) := by
    simp only [sparseFileResparse, resparseLoop, hpass, bind, Except.bind, Nat.zero_lt_one, if_true,
      Bool.false_eq_true, if_false, List.nil_append]
    exact ⟨_, rfl⟩
  obtain ⟨rest, hrest⟩ := hcall
  exact ⟨rest, p, hrest, hleft.piece_block_size, hp,
    h.toWritable.congr hleft.piece_block_size hleft.piece_len hp⟩

/-- **`simg2simg` of a file that fits** writes its blocks as one piece. -/
theorem FitsOne.simg2simg_eq {max_size : ℤ} (h : FitsOne file (toU32 max_size) n s)
    (himp : sparseFileImport 0 file false = .ok (some s)) (fuel : ℕ) :
    simg2simg (fuel + 1) file max_size =
      .ok (some [sparseImage file s.block_size n s.blocks]) := by
  obtain ⟨s', hfirst, hblocks, h', hsize⟩ := h.first fuel
  obtain ⟨rest, p, hsecond, hpsize, hp, hw⟩ := h'.second fuel
  have hpieces := @writePieces_spec file s.block_size n [p]
    (List.forall_mem_singleton.mpr ⟨hpsize.trans hsize, hw⟩)
  rw [List.map_singleton, List.map_singleton, hp, hblocks] at hpieces
  unfold simg2simg
  simp only [himp, hfirst, hsecond, bind, Except.bind, Nat.lt_irrefl, if_false, hpieces]

/-- An imported image that is short enough fits. -/
theorem Imported.fitsOne (hs : Imported 0 file s) (h : Image file)
    (hsmall : (fileHeader file).total_blks.toNat * (fileHeader file).blk_sz.toNat < 2 ^ 31)
    (hmax : (rewritten file s).length + 28 ≤ max_len.toNat) :
    FitsOne file max_len (fileHeader file).total_blks.toNat s := by
  refine ⟨hs.writable, sparseFileImport_linked hs.import_eq, fun bb hbb => ?_,
    cost_le_budget (hs.encodable h (by omega)) hmax⟩
  have hinside := hs.writable.inside bb hbb
  rw [BackedBlock.extent_stop, hs.block_size] at hinside
  omega

end

/-- **`simg2simg` of an image that fits** makes one piece, the normal form of the image, and one piece
of that again, the same. -/
theorem simg2simg_normal {file : List UInt8} (h : Image file)
    (hsmall : (fileHeader file).total_blks.toNat * (fileHeader file).blk_sz.toNat < 2 ^ 31) :
    ∃ normal, rewrite file = .ok (some normal) ∧ expand normal = expand file ∧
      ∀ fuel max_size, normal.length + 28 ≤ (toU32 max_size).toNat →
        simg2simg (fuel + 1) file max_size = .ok (some [normal]) ∧
          simg2simg (fuel + 1) normal max_size = .ok (some [normal]) := by
  obtain ⟨s, hs⟩ := h.import 0
  obtain ⟨t, ht, himg, hbs, hblks, hexpand, hagain⟩ := hs.again h (by omega)
  refine ⟨_, hs.rewrite_eq, hexpand, fun fuel max_size hmax => ⟨?_, ?_⟩⟩
  · exact (hs.fitsOne h hsmall hmax).simg2simg_eq hs.import_eq fuel
  · rw [← hbs, ← hblks] at hsmall
    have hfits := ht.fitsOne himg hsmall (hagain.symm ▸ hmax)
    calc simg2simg (fuel + 1) (rewritten file s) max_size
        = .ok (some [rewritten (rewritten file s) t]) := hfits.simg2simg_eq ht.import_eq fuel
      _ = .ok (some [rewritten file s]) := by rw [hagain]

/-- The loose pieces fit into 128 bytes: their normal form has 72. -/
theorem loosePieces_one_piece : ∃ normal, rewrite loosePieces = .ok (some normal) ∧
    expand normal = expand loosePieces ∧ simg2simg 1 loosePieces 128 = .ok (some [normal]) ∧
      simg2simg 1 normal 128 = .ok (some [normal]) := by
  obtain ⟨normal, hrewrite, hexpand, hpieces⟩ :=
    @simg2simg_normal loosePieces (by decide +kernel) (by decide +kernel)
  have hlen : (rewrite loosePieces).map (Option.map List.length) = .ok (some 72) := by
    decide +kernel
  rw [hrewrite] at hlen
  have h72 : normal.length = 72 := Option.some.inj (Except.ok.inj hlen)
  have hlimit : (toU32 128).toNat = 128 := by decide
  exact ⟨normal, hrewrite, hexpand, hpieces 0 128 (by omega)⟩

end AmlogicToolkit.Simg
