import AmlogicToolkit.Simg.NeverAborts
import AmlogicToolkit.Simg.RoundTrip

/-!
# The normal form of an image

An image that is imported and written again in the sparse format is joined where its fill chunks go
on with each other, and loses its checksums and what its headers have behind their fields. What is
written expands to the same file, and is its own normal form: imported and written once more, it is
the same file, byte for byte (`rewrite_normal`).

The blocks of a list never merge with each other, since they have been merged when they could be
(`addAll_unmerged`). The chunks that are written for them do not merge either: raw chunks have a
header between their payloads, and fill chunks merge exactly when the blocks do. So the second import
has a block for each chunk (`addAll_separate`), and writes the same chunks.
-/

namespace AmlogicToolkit.Simg

open Bytes Extents

/-! ## Blocks that do not merge -/

/-- No block of the list merges with the next one. -/
def Unmerged (bs : UInt32) (l : List BackedBlock) : Prop :=
  l.IsChain fun a b => canMerge bs a b = false

/-- The call that a block stands for. -/
def BackedBlock.call (bb : BackedBlock) : Call := ⟨bb.source, bb.len, bb.block⟩

/-- The node that a call makes, at the address `addr`. -/
def Call.node (c : Call) (addr : ℕ) : BackedBlock := ⟨addr, c.block, c.len, c.source⟩

section

variable {bs : UInt32} {s s' : SparseFile} {calls : List Call} {c : Call} {len : ℤ}

/-- **The last call** of calls in order links its node behind the last block. -/
theorem addAll_last (hbs : bs ≠ 0) (hinc : Increasing bs (calls ++ [c]))
    (h : addAll (sparseFileNew bs len) calls = .ok s) (hc : c.add s = .ok s') :
    (s.blocks = [] → ∃ addr, s'.blocks = [c.node addr]) ∧
      ∀ pre bb, s.blocks = pre ++ [bb] →
        ∃ addr, s'.blocks = pre ++ linkBb bs bb (c.node addr) [] := by
  obtain ⟨h1, -, h3⟩ := List.pairwise_append.mp hinc
  obtain ⟨s, heq, hs, rfl, -, hend⟩ := addAll_increasing hbs len h1
  obtain rfl := Except.ok.inj (heq.symm.trans h)
  have hlast : ∀ d ∈ calls, d.block < c.block ∧ Before (d.extent s.block_size)
      (c.extent s.block_size) := fun d hd => h3 d hd c (by simp)
  have hlt : ∀ x ∈ s.blocks, x.block < c.block := by
    intro x hx
    obtain ⟨d, hd, hblk, -⟩ := hs.heads x hx
    exact hblk ▸ (hlast d hd).1
  have hbef := hend (c.extent s.block_size) fun d hd => (hlast d hd).2
  obtain ⟨t, hadd, -, -, -, hblocks⟩ := Call.add_spec hs.valid hbs
    (fun x hx => UInt32.ne_of_lt (hlt x hx)) fun x hx => (hbef x hx).apart
  obtain rfl := Except.ok.inj (hc.symm.trans hadd)
  refine ⟨fun hnil => ⟨s.backed_block_list.next_addr, by rw [hblocks, hnil]; rfl⟩,
    fun pre bb hl => ⟨s.backed_block_list.next_addr, ?_⟩⟩
  -- The new node is behind all blocks, so the search of the insertion ends at the last of them.
  have hsorted : Sorted s.blocks := hs.valid.list.sorted
  rw [hl] at hblocks hlt hsorted
  rw [hblocks]
  exact insertBb_last hsorted hlt

/-- **The blocks of calls in order** do not merge with each other. -/
theorem addAll_unmerged (hbs : bs ≠ 0) (hinc : Increasing bs calls)
    (h : addAll (sparseFileNew bs len) calls = .ok s) : Unmerged bs s.blocks := by
  induction calls using List.reverseRecOn generalizing s with
  | nil =>
    cases h
    exact List.isChain_nil
  | append_singleton calls c ih =>
    obtain ⟨s₀, h₀, hc⟩ := addAll_init h
    have hchain := ih (List.pairwise_append.mp hinc).1 h₀
    obtain ⟨hfirst, hnext⟩ := addAll_last hbs hinc h₀ hc
    rcases List.eq_nil_or_concat' s₀.blocks with hnil | ⟨pre, bb, hl⟩
    · obtain ⟨addr, hblocks⟩ := hfirst hnil
      rw [hblocks]
      exact List.isChain_singleton _
    · obtain ⟨addr, hblocks⟩ := hnext pre bb hl
      rw [Unmerged, hl] at hchain
      rw [Unmerged, hblocks, linkBb, absorbNext]
      by_cases hm : canMerge bs bb (c.node addr)
      -- A merge changes neither the block nor the source, which the block in front looks at.
      · rw [if_pos hm]
        rw [List.isChain_append] at hchain ⊢
        exact ⟨hchain.1, List.isChain_singleton _, fun x hx y hy =>
          by obtain rfl := Option.some.inj hy; exact hchain.2.2 x hx bb rfl⟩
      · rw [if_neg hm, List.isChain_append_cons_cons]
        exact ⟨hchain, by simpa using hm, List.isChain_singleton _⟩

/-- **Calls that do not merge** leave a block each. -/
theorem addAll_separate (hbs : bs ≠ 0) (hinc : Increasing bs calls)
    (hsep : calls.IsChain fun c d => canMerge bs (c.node 0) (d.node 0) = false)
    (h : addAll (sparseFileNew bs len) calls = .ok s) : s.blocks.map BackedBlock.call = calls := by
  induction calls using List.reverseRecOn generalizing s with
  | nil =>
    cases h
    rfl
  | append_singleton calls c ih =>
    obtain ⟨s₀, h₀, hc⟩ := addAll_init h
    have hmap := ih (List.pairwise_append.mp hinc).1 (List.isChain_append.mp hsep).1 h₀
    obtain ⟨hfirst, hnext⟩ := addAll_last hbs hinc h₀ hc
    rcases List.eq_nil_or_concat' s₀.blocks with hnil | ⟨pre, bb, hl⟩
    · obtain ⟨addr, hblocks⟩ := hfirst hnil
      rw [hnil] at hmap
      rw [hblocks, ← hmap]
      rfl
    · obtain ⟨addr, hblocks⟩ := hnext pre bb hl
      rw [hl, List.map_append, List.map_singleton] at hmap
      rw [← hmap, List.append_assoc, List.singleton_append, List.isChain_append_cons_cons] at hsep
      have hm : canMerge bs bb (c.node addr) = false := hsep.2.1
      rw [hblocks, linkBb, absorbNext, if_neg (by rw [hm]; exact Bool.false_ne_true), ← hmap]
      simp [BackedBlock.call, Call.node]

end

/-! ## The chunks of what is written -/

/-- The chunks of an image come in order. -/
theorem Image.inOrder {file : List UInt8} (h : Image file) :
    InOrder (fileHeader file).blk_sz (fileChunks 0 file) := by
  have hfin := h.finishes
  simp only [Simg.finishes, Bool.and_eq_true, beq_iff_eq] at hfin
  have hreached : reachedRecords file = fileRecords file := reached_eq hfin.1
  have hord := reachedChunks_inOrder h.header (ne_zero_of_toNat_pos h.blk_sz_pos)
    (by rw [hreached, h.total_blks]; exact UInt32.toNat_lt _)
  rwa [reachedChunks, hreached] at hord

/-- A chunk of the image `W` is the one of a block: a copy of it, and a fill when the block is. -/
structure Renders (W file : List UInt8) (bs : UInt32) (e : Extent BlockSource) (bb : BackedBlock) :
    Prop extends Copies W file bs e bb where
  /-- Both are fills of one word, or neither is a fill of that word. -/
  fill : ∀ w, e.src = .fill w ↔ bb.source = .fill w

section

variable {file W : List UInt8} {bs : UInt32} {n last : ℕ} {l l' : List BackedBlock}
  {es : List (Extent BlockSource)}

/-- Repetitions of words agree when the words do. -/
theorem cycle_le32_inj {k : ℕ} (hk : 0 < k) {v w : UInt32} (h : cycle k (le32 v) = cycle k (le32 w)) :
    v = w := by
  obtain ⟨k, rfl⟩ := Nat.exists_eq_succ_of_ne_zero (Nat.ne_of_gt hk)
  rw [cycle_succ, cycle_succ] at h
  have hword : le32 v = le32 w := List.append_inj_left h (by simp)
  rw [← ofLe_le32 v, hword, ofLe_le32]

/-- The chunk of a block, wherever it is in the file. -/
theorem blockChunk_renders {hdr : SparseHeader} (hh : hdr.chunk_hdr_sz = 12) (h4 : bs.toNat % 4 = 0)
    {bb : BackedBlock} (hw : Writable file bs bb) {pre post : List UInt8}
    (hW : W = pre ++ ((blockChunk file bs bb).encode ++ post)) :
    ∃ source,
      (⟨pre.length, (blockChunk file bs bb).header⟩ : Record).source? W hdr 0 = some source ∧
      Renders W file bs
        ⟨bb.block.toNat, (blockChunk file bs bb).header.chunk_sz.toNat, source⟩ bb := by
  obtain ⟨source, hs, hcopy⟩ := blockChunk_copies hh 0 hw hW
  refine ⟨source, hs, hcopy, fun w => ?_⟩
  rcases blockChunk_eq hw with ⟨g, o, hsrc, hc⟩ | ⟨v, hsrc, hc⟩
  · obtain ⟨o', ho⟩ : ∃ o', some (BlockSource.fd 0 o') = some source := ⟨_, by rw [← hs, hc]; rfl⟩
    simp [hsrc, ← Option.some.inj ho]
  -- The word that is read back is the one that was written, since the chunk is not empty.
  · obtain ⟨v', hv⟩ : ∃ v', some (BlockSource.fill v') = some source :=
      ⟨_, by rw [← hs, hc]; rfl⟩
    have hsource := Option.some.inj hv
    have hbytes := hcopy.bytes
    rw [← hsource, hsrc] at hbytes
    have hlen : 0 < bb.len.toNat := toNat_pos_of_ne_zero hw.nonempty
    have hlen4 : bb.len.toNat % 4 = 0 := by
      rw [← hw.whole, Nat.mul_mod, h4, Nat.mul_zero, Nat.zero_mod]
    rw [cycle_le32_inj (by omega) hbytes] at hsource
    simp [hsrc, ← hsource]

/-- The raw and fill chunks of a list of chunks are those of the blocks of the list. -/
theorem chunks_renders {hdr : SparseHeader} (hh : hdr.chunk_hdr_sz = 12) (hbs : bs ≠ 0)
    (h4 : bs.toNat % 4 = 0) (hn : n < 2 ^ 32) (h : Fits file bs n l last) {pre : List UInt8}
    (hW : W = pre ++ encodeChunks
      (blockChunks file bs l last ++ gapChunk (endBlock bs l last) n)) :
    List.Forall₂ (Renders W file bs)
      (chunks W hdr 0 (layout pre.length
        (blockChunks file bs l last ++ gapChunk (endBlock bs l last) n)) last) l := by
  induction l generalizing last pre with
  | nil =>
    have hg := @chunks_gapChunk W hdr 0 pre.length _ _ hn h.last_le []
    rw [List.append_nil] at hg
    simp only [blockChunks, endBlock, List.nil_append, hg]
    exact List.Forall₂.nil
  | cons bb l ih =>
    have hw := h.blocks bb List.mem_cons_self
    simp only [blockChunks, endBlock, List.append_assoc, List.cons_append] at hW ⊢
    rw [chunks_gapChunk 0 pre.length bb.block.toNat_lt (h.lower bb List.mem_cons_self)]
    rw [encodeChunks_append, encodeChunks_cons, ← List.append_assoc] at hW
    rw [← List.length_append]
    generalize pre ++ encodeChunks (gapChunk last bb.block.toNat) = pre' at hW ⊢
    obtain ⟨source, hs, hrender⟩ := blockChunk_renders hh h4 hw hW
    have hrest := ih (h.tail hbs) (hW.trans (List.append_assoc _ _ _).symm)
    rw [List.length_append] at hrest
    rw [layout, chunks, hs, blockChunk_blocks hw, UInt32.toNat_div]
    exact List.Forall₂.cons hrender hrest

/-- **The chunks of a written image** are those of the blocks that were written. -/
theorem sparseImage_renders (h : Encodable file bs n l) :
    List.Forall₂ (Renders (sparseImage file bs n l) file bs)
      (fileChunks 0 (sparseImage file bs n l)) l := by
  rw [fileChunks, (fileRecords_sparseImage h).1, fileHeader_sparseImage,
    ← SparseHeader.length_encode (writtenHeader bs n (emitted file bs n l).length)]
  exact chunks_renders rfl h.pos h.mod h.n_lt h.fits rfl

/-- The call of the chunk of a block has the region of the block. -/
theorem Renders.toCall {e : Extent BlockSource} {bb : BackedBlock} (h : Renders W file bs e bb) :
    (toCall bs e).block = bb.block ∧ (toCall bs e).len = bb.len := by
  constructor
  · rw [Simg.toCall, h.start, UInt32.ofNat_toNat]
  · rw [Simg.toCall, h.len, UInt32.ofNat_toNat]

/-- **The chunks of blocks that do not merge** do not merge either. -/
theorem separate_of_unmerged (hbs : bs ≠ 0) (h : List.Forall₂ (Renders W file bs) es l)
    (ho : InOrder bs es) (hu : Unmerged bs l) :
    (es.map (toCall bs)).IsChain fun c d => canMerge bs (c.node 0) (d.node 0) = false := by
  induction h with
  | nil => exact List.isChain_nil
  | @cons e a es l ha h ih =>
    cases h with
    | nil => exact List.isChain_singleton _
    | @cons f b es l hb h =>
      obtain ⟨hab, hl⟩ := List.isChain_cons_cons.mp hu
      refine List.isChain_cons_cons.mpr ⟨?_, ih ho.tail hl⟩
      obtain ⟨hblock, -⟩ := ha.toCall
      have hrun : canMerge bs ((toCall bs e).node 0) ((toCall bs f).node 0) = fillsOn bs e f :=
        canMerge_run hbs ho (by rw [Call.node, hblock, ha.start]) rfl rfl 0
      refine hrun.trans (Bool.eq_false_iff.mpr fun hfills => ?_)
      -- Only fills merge, and then the blocks would.
      obtain ⟨w, he, hf, hstop, -⟩ := fillsOn_spec hfills
      have hdiv : a.len.toNat / bs.toNat = e.len := by
        rw [← ha.len, Nat.mul_div_cancel _ (toNat_pos_of_ne_zero hbs)]
      -- The sum in `canMerge` does not wrap: it is the start of a chunk.
      have hlt : e.stop < 2 ^ 32 := by
        rw [hstop]
        exact ho.start f (by simp)
      have hnext : a.block + a.len / bs = b.block := by
        apply UInt32.toNat_inj.mp
        rw [UInt32.toNat_add, UInt32.toNat_div, hdiv, ← ha.start, ← hb.start, ← hstop]
        exact Nat.mod_eq_of_lt hlt
      have hmerge : canMerge bs a b = true := by
        simp [canMerge, sourcesMerge, (ha.fill w).mp he, (hb.fill w).mp hf, BlockSource.type, hnext]
      rw [hab] at hmerge
      exact Bool.false_ne_true hmerge

/-! ## The second import -/

/-- Lists with the same regions and the same chunks are written as the same chunks. -/
theorem blockChunks_congr (h : List.Forall₂ (fun a b : BackedBlock => a.block = b.block ∧
      a.len = b.len ∧ blockChunk W bs a = blockChunk file bs b) l' l) (last : ℕ) :
    blockChunks W bs l' last = blockChunks file bs l last ∧ endBlock bs l' last = endBlock bs l last := by
  induction h generalizing last with
  | nil => exact ⟨rfl, rfl⟩
  | cons hab h ih =>
    obtain ⟨hblock, hlen, hchunk⟩ := hab
    simp only [blockChunks, endBlock, BackedBlock.next, hblock, hlen, hchunk]
    exact ⟨by rw [(ih _).1], (ih _).2⟩

/-- A block that is made of the chunk of a block is written as the same chunk. -/
theorem Renders.blockChunk_eq {e : Extent BlockSource} {a b : BackedBlock}
    (h : Renders W file bs e b) (hw : Writable file bs b)
    (hsource : (∃ g o, e.src = .fd g o) ∨ ∃ w, e.src = .fill w) (ha : a.call = Simg.toCall bs e) :
    a.block = b.block ∧ a.len = b.len ∧ blockChunk W bs a = blockChunk file bs b := by
  obtain ⟨hblock, hlen⟩ := h.toCall
  rw [← ha] at hblock hlen
  have hl : a.len = b.len := hlen
  have hsrc : a.source = e.src := congrArg Call.source ha
  refine ⟨hblock, hl, ?_⟩
  rcases Simg.blockChunk_eq hw with ⟨g, o, hb, hc⟩ | ⟨w, hb, hc⟩
  -- The offset is another one, but the bytes there are those of the block.
  · obtain ⟨g', o', he⟩ : ∃ g o, e.src = .fd g o := by
      refine hsource.resolve_right fun ⟨w, hw⟩ => ?_
      cases hb.symm.trans ((h.fill w).mp hw)
    have hbytes := h.bytes
    rw [he] at hbytes hsrc
    rw [hc, ← hbytes, ← hl]
    simp only [blockChunk, hsrc]
  · rw [(h.fill w).mpr hb] at hsrc
    rw [hc, ← hl]
    simp only [blockChunk, hsrc]

/-- The blocks that are made of the chunks of a list are written as the list is. -/
theorem sparseImage_eq (h : List.Forall₂ (Renders W file bs) es l)
    (hsource : ∀ e ∈ es, (∃ g o, e.src = .fd g o) ∨ ∃ w, e.src = .fill w)
    (hw : ∀ b ∈ l, Writable file bs b) (hcalls : l'.map BackedBlock.call = es.map (toCall bs)) :
    sparseImage W bs n l' = sparseImage file bs n l := by
  have hblocks : List.Forall₂ (fun a b : BackedBlock => a.block = b.block ∧ a.len = b.len ∧
      blockChunk W bs a = blockChunk file bs b) l' l := by
    induction h generalizing l' with
    | nil =>
      rw [List.map_eq_nil_iff.mp hcalls]
      exact List.Forall₂.nil
    | cons hb h ih =>
      obtain ⟨a, l', rfl, ha, hl'⟩ := List.map_eq_cons_iff.mp hcalls
      exact List.Forall₂.cons
        (hb.blockChunk_eq (hw _ List.mem_cons_self) (hsource _ List.mem_cons_self) ha)
        (ih (fun e he => hsource e (List.mem_cons_of_mem _ he))
          (fun b hb => hw b (List.mem_cons_of_mem _ hb)) hl')
  obtain ⟨hchunks, hend⟩ := blockChunks_congr hblocks 0
  rw [sparseImage, sparseImage, emitted, emitted, hchunks, hend]

end

/-! ## Writing an image again -/

/-- An image that is imported and written again in the sparse format, as the only piece of
`simg2simg` is. -/
def rewrite (file : List UInt8) : Except Fault (Option (List UInt8)) := do
  match ← sparseFileImport 0 file false with
  | none => return none
  | some s =>
    let (ret, out) ← sparseFileWrite file_ops (Env.ofFile file) s ⟨[], 0⟩ true false
    if ret < 0 then return none else return some out.bytes

section

variable {file : List UInt8} {s : SparseFile}

/-- The import of an image, with the calls that it makes. -/
theorem Image.import_calls (h : Image file) : ∃ s, Imported 0 file s ∧
    addAll (sparseFileNew (fileHeader file).blk_sz
        ((fileHeader file).total_blks.toNat * (fileHeader file).blk_sz.toNat : ℕ))
      ((fileChunks 0 file).map (toCall (fileHeader file).blk_sz)) = .ok s ∧
    Increasing (fileHeader file).blk_sz
      ((fileChunks 0 file).map (toCall (fileHeader file).blk_sz)) := by
  obtain ⟨hcalls, -, himp⟩ := h.calls 0
  obtain ⟨s, hs⟩ := h.import 0
  obtain ⟨t, hadd, -⟩ := addAll_writable (ne_zero_of_toNat_pos h.blk_sz_pos) h.blk_sz_mod
    h.blk_sz_lt h.size hcalls
  obtain rfl := Option.some.inj (Except.ok.inj (hs.import_eq.symm.trans (himp t hadd)))
  exact ⟨s, hs, hadd, hcalls.increasing⟩

/-- What an imported image is written as. -/
def rewritten (file : List UInt8) (s : SparseFile) : List UInt8 :=
  sparseImage file s.block_size (fileHeader file).total_blks.toNat s.blocks

/-- An import is written as the chunks of its blocks. -/
theorem Imported.rewrite_eq (hs : Imported 0 file s) :
    rewrite file = .ok (some (rewritten file s)) := by
  obtain ⟨new, hwrite, hnew⟩ := sparseFileWrite_sparse hs.writable
  rw [rewrite]
  simp only [hs.import_eq, bind, Except.bind, hwrite, hnew]
  rfl

/-- There is room for the chunks. -/
theorem Imported.encodable (hs : Imported 0 file s) (h : Image file)
    (hroom : (fileHeader file).total_blks.toNat * (fileHeader file).blk_sz.toNat + 12 < 2 ^ 32) :
    Encodable file s.block_size (fileHeader file).total_blks.toNat s.blocks := by
  have hsize := h.size
  rw [← hs.block_size] at hsize hroom
  exact hs.writable.encodable hsize hroom

/-- **The second import**: an image that is written again is an image of as many blocks, expands to
the same file, and is written as it is. -/
theorem Imported.again (hs : Imported 0 file s) (h : Image file)
    (hroom : (fileHeader file).total_blks.toNat * (fileHeader file).blk_sz.toNat + 12 < 2 ^ 32) :
    ∃ t, Imported 0 (rewritten file s) t ∧ Image (rewritten file s) ∧
      (fileHeader (rewritten file s)).blk_sz = (fileHeader file).blk_sz ∧
      (fileHeader (rewritten file s)).total_blks = (fileHeader file).total_blks ∧
      expand (rewritten file s) = expand file ∧
      rewritten (rewritten file s) t = rewritten file s := by
  have henc := hs.encodable h hroom
  obtain ⟨s', hs', hadd, hinc⟩ := h.import_calls
  obtain rfl := Option.some.inj (Except.ok.inj (hs'.import_eq.symm.trans hs.import_eq))
  rw [← hs.block_size] at hadd hinc
  have himg : Image (rewritten file s') := sparseImage_image henc
  obtain ⟨t, ht, hadd', hinc'⟩ := himg.import_calls
  have hbs : (fileHeader (rewritten file s')).blk_sz = s'.block_size := by
    rw [rewritten, fileHeader_sparseImage]
    rfl
  have hblks : (fileHeader (rewritten file s')).total_blks = (fileHeader file).total_blks := by
    rw [rewritten, fileHeader_sparseImage]
    exact UInt32.ofNat_toNat
  refine ⟨t, ht, himg, hbs.trans hs.block_size, hblks, ?_, ?_⟩
  -- The expansions: both imports write the same file in the raw format.
  · obtain ⟨mid, -, -, hshows, -⟩ := sparseFileWrite_normal ht.writable []
    have hnew := ht.resize_eq himg hshows
    rw [ht.block_size, hbs, hblks] at hnew
    calc expand (rewritten file s') = resize 0 _ mid := hnew.symm
      _ = expand file := hs.resize_eq h (ht.shows henc hshows)
  -- The bytes: the blocks did not merge, so the chunks do not either.
  · have hord := himg.inOrder
    rw [hbs] at hadd' hinc' hord
    have hrenders := sparseImage_renders henc
    have hsep := separate_of_unmerged henc.pos hrenders hord (addAll_unmerged henc.pos hinc hadd)
    have hcalls := addAll_separate henc.pos hinc' hsep hadd'
    rw [rewritten, ht.block_size, hbs, hblks]
    exact sparseImage_eq hrenders hord.source henc.fits.blocks hcalls

/-- **The normal form of an image** expands to the same file, and writing it again does not change
it. -/
theorem rewrite_normal (h : Image file)
    (hroom : (fileHeader file).total_blks.toNat * (fileHeader file).blk_sz.toNat + 12 < 2 ^ 32) :
    ∃ normal, rewrite file = .ok (some normal) ∧ expand normal = expand file ∧
      rewrite normal = .ok (some normal) := by
  obtain ⟨s, hs⟩ := h.import 0
  obtain ⟨t, ht, -, -, -, hexpand, hagain⟩ := hs.again h hroom
  exact ⟨_, hs.rewrite_eq, hexpand, by rw [ht.rewrite_eq, hagain]⟩

end

/-- An image of four blocks of four bytes: two fill chunks of one word, each with two bytes behind
its header, a hole, and a checksum in front of the last block. -/
def loosePieces : List UInt8 :=
  SparseHeader.encode ⟨SPARSE_HEADER_MAGIC, 1, 0, 28, 14, 4, 4, 5, 0⟩ ++
    (ChunkHeader.encode ⟨CHUNK_TYPE_FILL, 0, 1, 18⟩ ++ [0, 0] ++ [5, 6, 7, 8]) ++
    (ChunkHeader.encode ⟨CHUNK_TYPE_FILL, 0, 1, 18⟩ ++ [0, 0] ++ [5, 6, 7, 8]) ++
    (ChunkHeader.encode ⟨CHUNK_TYPE_DONT_CARE, 0, 1, 14⟩ ++ [0, 0]) ++
    (ChunkHeader.encode ⟨CHUNK_TYPE_CRC32, 0, 0, 18⟩ ++ [0, 0] ++ [9, 9, 9, 9]) ++
    (ChunkHeader.encode ⟨CHUNK_TYPE_RAW, 0, 1, 18⟩ ++ [0, 0] ++ [1, 2, 3, 4])

/-- The pieces are put together, once. -/
theorem loosePieces_normal : ∃ normal, rewrite loosePieces = .ok (some normal) ∧
    expand normal = expand loosePieces ∧ rewrite normal = .ok (some normal) :=
  rewrite_normal (by decide +kernel) (by decide +kernel)

example : rewrite loosePieces = .ok (some
    (SparseHeader.encode ⟨SPARSE_HEADER_MAGIC, 1, 0, 28, 12, 4, 4, 3, 0⟩ ++
      (ChunkHeader.encode ⟨CHUNK_TYPE_FILL, 0, 2, 16⟩ ++ [5, 6, 7, 8]) ++
      ChunkHeader.encode ⟨CHUNK_TYPE_DONT_CARE, 0, 1, 12⟩ ++
      (ChunkHeader.encode ⟨CHUNK_TYPE_RAW, 0, 1, 16⟩ ++ [1, 2, 3, 4]))) := by decide +kernel

end AmlogicToolkit.Simg
