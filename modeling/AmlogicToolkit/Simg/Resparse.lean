import AmlogicToolkit.Simg.Runs
import AmlogicToolkit.Simg.RoundTrip
import Mathlib.Data.List.Perm.Basic

/-!
# Splitting an image and putting it together

`simg2simg` and `simg2img` on its pieces. The first call of `sparse_file_resparse` splits blocks and
puts all back in one list, the second one splits again and gives the pieces. As long as no step
splits a block at less than one block, both lists describe what the image did, and since no two
pieces overlap, writing the pieces one over the other in any order gives the expanded image
(`simg2simg_simg2img`). A step that splits at less than one block makes a block of no length, and a
piece with an empty chunk.
-/

namespace AmlogicToolkit.Simg

open Bytes Extents

/-! ## Runs -/

/-- The steps of a run of the loop, of as many as `fuel`, all split at one block or more. -/
def RunSplitsWhole (env : Env) (max_len : UInt32) : ℕ → SparseFile → Prop
  | 0, _ => True
  | fuel + 1, src => SplitsWhole env src max_len ∧
      ∀ src' s, moveChunksUpToLen env src (sparseFileNew src.block_size src.len) max_len =
        .ok (true, src', s) → RunSplitsWhole env max_len fuel src'

/-- What a step needs of the file that it takes nodes from, behind the nodes of `done`. -/
structure Source (file : List UInt8) (n : ℕ) (done : List BackedBlock) (src : SparseFile) :
    Prop where
  /-- The block size is not zero. -/
  pos : src.block_size ≠ 0
  /-- It fits into an `int`. -/
  lt : src.block_size.toNat < 2 ^ 31
  /-- Blocks are counted in 32 bits. -/
  n_lt : n < 2 ^ 32
  /-- The list has the block size of the file. -/
  list : src.backed_block_list.block_size = src.block_size
  /-- The nodes can be written. -/
  tidy : Tidy file src.block_size n (done ++ src.blocks) src.backed_block_list.next_addr

section

variable {file : List UInt8} {n fuel c count : ℕ} {max_len : UInt32} {done : List BackedBlock}
  {in_s tmp : SparseFile} {out_s : List SparseFile}

/-- The step, and what it leaves for the next one. -/
theorem Source.step (h : Source file n done in_s)
    (hw : SplitsWhole (Env.ofFile file) in_s max_len) :
    ∃ more src' s, moveChunksUpToLen (Env.ofFile file) in_s
      (sparseFileNew in_s.block_size in_s.len) max_len = .ok (more, src', s) ∧
        Stepped file n done in_s more src' s ∧ Source file n (done ++ s.blocks) src' := by
  obtain ⟨more, src', s, heq, hs⟩ := moveChunksUpToLen_spec h.pos h.lt h.n_lt h.tidy h.list hw
  refine ⟨more, src', s, heq, hs, ?_, ?_, h.n_lt, ?_, ?_⟩
  · rw [hs.block_size]; exact h.pos
  · rw [hs.block_size]; exact h.lt
  · rw [hs.list_block_size, hs.block_size]
  · rw [hs.block_size, List.append_assoc]
    exact hs.tidy

/-- When the limit leaves room for eight blocks of a small image, all runs split at one or more. -/
theorem Source.runSplitsWhole (h : Source file n done in_s) (h4 : 4 ≤ in_s.block_size.toNat)
    (hsmall : n * in_s.block_size.toNat < 2 ^ 31)
    (hmax : 8 * in_s.block_size.toNat ≤ (max_len - overhead).toNat) :
    RunSplitsWhole (Env.ofFile file) max_len fuel in_s := by
  induction fuel generalizing in_s done with
  | zero => trivial
  | succ fuel ih =>
    have hmem : ∀ c ∈ in_s.blocks, c ∈ done ++ in_s.blocks := fun c hc =>
      List.mem_append_right _ hc
    have hw := splitsWhole_of_large h.pos h4 (fun c hc => h.tidy.fits.blocks c (hmem c hc))
      (fun c hc => by
        have := h.tidy.fits.inside c (hmem c hc)
        rw [BackedBlock.extent_stop] at this
        omega) hmax
    obtain ⟨more, rest, piece, heq, hs, hsrc⟩ := h.step hw
    refine ⟨hw, fun src' s heq' => ?_⟩
    rw [heq] at heq'
    obtain ⟨-, rfl, rfl⟩ : more = true ∧ rest = src' ∧ piece = s := by simpa using heq'
    exact ih hsrc (hs.block_size ▸ h4) (hs.block_size ▸ hsmall) (hs.block_size ▸ hmax)

/-- The loop counts its passes. -/
theorem resparseLoop_count {env : Env}
    {r : SparseFile × SparseFile × List SparseFile × ℕ}
    (hr : resparseLoop env max_len count fuel in_s tmp out_s c = .ok r) : c < r.2.2.2 := by
  induction fuel generalizing in_s tmp out_s c with
  | zero => cases hr
  | succ fuel ih =>
    rw [resparseLoop] at hr
    obtain ⟨⟨more, src', s⟩, -, hr⟩ := Except.bind_ok_iff.mp hr
    cases more with
    | true => exact Nat.lt_of_succ_lt (ih hr)
    | false =>
      cases hr
      exact Nat.lt_succ_self c

/-- **The first run** takes all nodes to `tmp`. -/
theorem resparseLoop_first (h : Source file n tmp.blocks in_s)
    (hw : RunSplitsWhole (Env.ofFile file) max_len fuel in_s)
    {r : SparseFile × SparseFile × List SparseFile × ℕ}
    (hr : resparseLoop (Env.ofFile file) max_len 0 fuel in_s tmp [] c = .ok r) :
    r.1.blocks = [] ∧ r.1.block_size = in_s.block_size ∧ r.1.len = in_s.len ∧
      r.1.backed_block_list.block_size = in_s.block_size ∧
      Tidy file in_s.block_size n r.2.1.blocks r.1.backed_block_list.next_addr ∧
      SameMap in_s.block_size (tmp.blocks ++ in_s.blocks) r.2.1.blocks := by
  induction fuel generalizing in_s tmp c with
  | zero => cases hr
  | succ fuel ih =>
    obtain ⟨hw1, hw2⟩ := hw
    -- One pass moves the first blocks into a piece and leaves the rest.
    obtain ⟨more, src', s, heq, hs, hsrc⟩ := h.step hw1
    -- The blocks of the piece come behind those gathered so far.
    have hsort : Sorted (tmp.blocks ++ s.blocks) := by
      refine (hs.tidy.fits.sublist ?_).sorted
      rw [← List.append_assoc]
      exact List.sublist_append_left _ _
    have hmove := (@backedBlockListMove_all s.backed_block_list tmp.backed_block_list hsort).1
    rw [resparseLoop] at hr
    simp only [heq, bind, Except.bind, Nat.not_lt_zero, if_false] at hr
    generalize htmp : ({ tmp with backed_block_list := (backedBlockListMove s.backed_block_list
      tmp.backed_block_list none none).2 } : SparseFile) = tmp' at hr
    have htb : tmp'.blocks = tmp.blocks ++ s.blocks := by rw [← htmp]; exact hmove
    have hsame := hs.same
    rw [← List.append_assoc, ← htb] at hsame
    -- As long as blocks remain the loop goes on.
    cases more with
    | true =>
      simp only [if_true] at hr
      obtain ⟨h1, h2, h3, h4, h5, h6⟩ := ih (htb ▸ hsrc) (hw2 _ _ heq) hr
      rw [hs.block_size] at h2 h4 h5 h6
      exact ⟨h1, h2, h3.trans hs.len, h4, h5, hsame.trans h6⟩
    -- The last pass leaves nothing.
    | false =>
      simp only [Bool.false_eq_true, if_false] at hr
      cases hr
      have hnil := hs.empty rfl
      have htidy := hs.tidy
      rw [← List.append_assoc, ← htb, hnil, List.append_nil] at htidy
      rw [hnil, List.append_nil] at hsame
      exact ⟨hnil, hs.block_size, hs.len, hs.list_block_size, htidy, hsame⟩

/-- **The second run** puts all nodes in the pieces, when there are no more than asked for. -/
theorem resparseLoop_second (h : Source file n done in_s)
    (hw : RunSplitsWhole (Env.ofFile file) max_len fuel in_s)
    {r : SparseFile × SparseFile × List SparseFile × ℕ}
    (hr : resparseLoop (Env.ofFile file) max_len count fuel in_s tmp out_s c = .ok r)
    (hc : r.2.2.2 ≤ count) :
    ∃ pieces, r.2.2.1 = out_s ++ pieces ∧ pieces ≠ [] ∧
      (∀ s ∈ pieces, s.block_size = in_s.block_size ∧ s.len = in_s.len) ∧
      Fits file in_s.block_size n (done ++ pieces.flatMap SparseFile.blocks) 0 ∧
      SameMap in_s.block_size (done ++ in_s.blocks)
        (done ++ pieces.flatMap SparseFile.blocks) := by
  induction fuel generalizing in_s tmp out_s done c with
  | zero => cases hr
  | succ fuel ih =>
    have hlt := resparseLoop_count hr
    obtain ⟨hw1, hw2⟩ := hw
    obtain ⟨more, src', s, heq, hs, hsrc⟩ := h.step hw1
    rw [resparseLoop] at hr
    simp only [heq, bind, Except.bind, if_pos (Nat.lt_of_lt_of_le hlt hc)] at hr
    have hsame := hs.same
    cases more with
    | true =>
      simp only [if_true] at hr
      -- The piece of this pass, and those of the passes after it.
      obtain ⟨pieces, h1, -, h3, h4, h5⟩ := ih hsrc (hw2 _ _ heq) hr
      rw [hs.block_size, List.append_assoc] at h4 h5
      refine ⟨s :: pieces, by rw [h1, List.append_assoc]; rfl, List.cons_ne_nil _ _, fun q hq => ?_,
        h4, ?_⟩
      · rcases List.mem_cons.mp hq with rfl | hq
        · exact ⟨hs.piece_block_size, hs.piece_len⟩
        · obtain ⟨h6, h7⟩ := h3 q hq
          exact ⟨h6.trans hs.block_size, h7.trans hs.len⟩
      · rw [List.append_assoc] at h5
        exact hsame.trans h5
    | false =>
      simp only [Bool.false_eq_true, if_false] at hr
      cases hr
      -- The last pass leaves nothing.
      have hnil := hs.empty rfl
      have hfits := hs.tidy.fits
      rw [hnil, List.append_nil] at hfits hsame
      refine ⟨[s], rfl, List.cons_ne_nil _ _, fun q hq => ?_, ?_, ?_⟩
      · rw [List.mem_singleton.mp hq]
        exact ⟨hs.piece_block_size, hs.piece_len⟩
      · simpa using hfits
      · simpa using hsame

/-- **The first call** of `sparse_file_resparse` leaves a list that describes what it did. -/
theorem sparseFileResparse_first (h : Source file n [] in_s)
    (hw : RunSplitsWhole (Env.ofFile file) max_len fuel in_s)
    {r : SparseFile × List SparseFile × ℕ}
    (hr : sparseFileResparse (Env.ofFile file) fuel in_s max_len 0 = .ok r) :
    Source file n [] r.1 ∧ r.1.block_size = in_s.block_size ∧ r.1.len = in_s.len ∧
      SameMap in_s.block_size in_s.blocks r.1.blocks := by
  -- The pieces are gathered in one list, and the list is handed back at the end.
  obtain ⟨s, tmp, hl, hr⟩ := sparseFileResparse_ok hr
  obtain ⟨hnil, hbs, hlen, hlist, htidy, hsame⟩ :=
    @resparseLoop_first _ _ _ _ _ _ (sparseFileNew in_s.block_size in_s.len) h hw _ hl
  have hs : s.backed_block_list.data_blocks = [] := hnil
  obtain ⟨hmove, hnext⟩ := @backedBlockListMove_all tmp.backed_block_list
    s.backed_block_list (by rw [hs]; exact htidy.fits.sorted)
  rw [hs, List.nil_append] at hmove
  rw [hr]
  refine ⟨⟨?_, ?_, h.n_lt, ?_, ?_⟩, hbs, hlen, ?_⟩
  · exact hbs ▸ h.pos
  · exact hbs ▸ h.lt
  · exact (backedBlockListMove_block_size _ _).trans (hlist.trans hbs.symm)
  · -- It is the list the loop gathered, in the order of the blocks.
    refine ⟨?_, ?_, fun bb hbb => ?_⟩
    · simp only [SparseFile.blocks, List.nil_append, hmove]
      exact hbs ▸ htidy.fits
    · simp only [SparseFile.blocks, List.nil_append, hmove]
      exact htidy.nodup
    · simp only [SparseFile.blocks, List.nil_append, hmove] at hbb
      exact Nat.lt_of_lt_of_le (htidy.fresh bb hbb) hnext
  · simp only [SparseFile.blocks, hmove]
    exact hsame

/-- **The second call** gives pieces that describe together what the file did. -/
theorem sparseFileResparse_second (h : Source file n [] in_s)
    (hw : RunSplitsWhole (Env.ofFile file) max_len fuel in_s)
    {r : SparseFile × List SparseFile × ℕ}
    (hr : sparseFileResparse (Env.ofFile file) fuel in_s max_len count = .ok r)
    (hc : r.2.2 ≤ count) : r.2.1 ≠ [] ∧
      (∀ s ∈ r.2.1, s.block_size = in_s.block_size ∧ s.len = in_s.len) ∧
      Fits file in_s.block_size n (r.2.1.flatMap SparseFile.blocks) 0 ∧
      SameMap in_s.block_size in_s.blocks (r.2.1.flatMap SparseFile.blocks) := by
  obtain ⟨s, tmp, hl, -⟩ := sparseFileResparse_ok hr
  obtain ⟨pieces, hout, hne, hsize, hfits, hsame⟩ := resparseLoop_second h hw hl hc
  obtain rfl : r.2.1 = pieces := hout
  exact ⟨hne, hsize, by simpa using hfits, by simpa using hsame⟩

end

/-! ## Overlaying pieces -/

section

variable {file : List UInt8} {bs : UInt32} {n : ℕ} {l m : List BackedBlock}

/-- Setting the length of a file to that of the image keeps what it shows. -/
theorem Shows.resize {old mid : List UInt8} (h : Shows file bs l old mid)
    (hin : ∀ bb ∈ l, (bb.extent bs).stop ≤ n * bs.toNat) (hold : old.length ≤ n * bs.toNat) :
    Shows file bs l old (Bytes.resize 0 (n * bs.toNat) mid) := by
  constructor
  · rintro p x hx
    have hp : p < n * bs.toNat := by
      obtain ⟨e, he, -, h2, -⟩ := hx
      obtain ⟨bb, hbb, rfl⟩ := List.mem_map.mp he
      exact Nat.lt_of_lt_of_le h2 (hin bb hbb)
    rw [getD_resize, if_pos hp, h.described p x hx]
  · intro p hp
    rw [getD_resize]
    by_cases hlt : p < n * bs.toNat
    · rw [if_pos hlt, h.other p hp]
    · rw [if_neg hlt, List.getD_eq_default _ _ (by omega)]

/-- Two files of one length that show one map over nothing are equal. -/
theorem Shows.ext {a b : List UInt8} (h : Shows file bs l [] a) (h' : Shows file bs m [] b)
    (hmap : SameMap bs l m) (hlen : a.length = b.length) : a = b := by
  refine ext_getD (z := 0) hlen fun p _ => ?_
  by_cases hx : ∃ x, Describes bs l p x
  · obtain ⟨x, hx⟩ := hx
    rw [h.described p x hx, h'.described p x ((hmap p x).mp hx)]
  · rw [h.other p fun x hxx => hx ⟨x, hxx⟩, h'.other p fun x hxx => hx ⟨x, (hmap p x).mpr hxx⟩]

/-- **One piece**: `simg2img` imports it and writes its blocks over the file. -/
theorem simg2imgFile_piece (h : Encodable file bs n l) {old : RawFile}
    (hold : old.bytes.length ≤ n * bs.toNat) :
    ∃ new, simg2imgFile (sparseImage file bs n l) old = .ok (some new) ∧
      Shows file bs l old.bytes new.bytes ∧ new.bytes.length = n * bs.toNat := by
  obtain ⟨s, hi⟩ := (sparseImage_image h).import 0
  have hbs : s.block_size = bs := by rw [hi.block_size, fileHeader_sparseImage]; rfl
  have hblk : (fileHeader (sparseImage file bs n l)).total_blks.toNat = n := by
    rw [fileHeader_sparseImage]
    change (UInt32.ofNat n).toNat = n
    rw [UInt32.toNat_ofNat', Nat.mod_eq_of_lt h.n_lt]
  obtain ⟨mid, new, hwrite, hshows, hnew⟩ := sparseFileWrite_normal hi.writable old.bytes
  rw [hblk, hbs] at hnew
  refine ⟨new, ?_, ?_, by rw [hnew, length_resize]⟩
  · unfold simg2imgFile
    simp only [hi.import_eq, bind, Except.bind, hwrite]
    rfl
  · rw [hnew]
    exact (Imported.shows h hi hshows).resize h.fits.inside hold

/-- **The loop over pieces** that lie apart shows all of them. -/
theorem simg2imgLoop_pieces {ls : List (List BackedBlock)}
    (h : ∀ l ∈ ls, Encodable file bs n l) (hap : (extents bs ls.flatten).Pairwise Apart)
    {old : RawFile} (hold : old.bytes.length ≤ n * bs.toNat) :
    ∃ new, simg2imgLoop (ls.map (sparseImage file bs n)) old = .ok (some new) ∧
      Shows file bs ls.flatten old.bytes new.bytes ∧
        (ls ≠ [] → new.bytes.length = n * bs.toNat) := by
  induction ls generalizing old with
  | nil =>
    exact ⟨old, rfl, ⟨fun p x ⟨_, h, _⟩ => (nomatch h), fun _ _ => rfl⟩, fun h => absurd rfl h⟩
  | cons l ls ih =>
    -- The first piece is written over what is there, and the others over that.
    obtain ⟨mid, h1, h2, h3⟩ := simg2imgFile_piece (h l List.mem_cons_self) hold
    have hap' : (extents bs ls.flatten).Pairwise Apart := by
      rw [List.flatten_cons, extents, List.map_append] at hap
      exact (List.pairwise_append.mp hap).2.1
    obtain ⟨new, h4, h5, h6⟩ := ih (fun m hm => h m (List.mem_cons_of_mem _ hm)) hap'
      (Nat.le_of_eq h3)
    -- Pieces that are apart do not write over each other.
    refine ⟨new, ?_, ?_, fun _ => ?_⟩
    · rw [List.map_cons, simg2imgLoop]
      simp only [h1, bind, Except.bind, h4]
    · rw [List.flatten_cons]
      exact h2.append h5 hap
    · cases ls with
      | nil =>
        cases h4
        exact h3
      | cons m ls => exact h6 (List.cons_ne_nil _ _)

/-- The writing loop of `simg2simg` on pieces that can be written. -/
theorem writePieces_spec {pieces : List SparseFile}
    (h : ∀ s ∈ pieces, s.block_size = bs ∧ s.Writable file n) :
    writePieces (Env.ofFile file) pieces =
      .ok (some ((pieces.map SparseFile.blocks).map (sparseImage file bs n))) := by
  induction pieces with
  | nil => rfl
  | cons s pieces ih =>
    obtain ⟨rfl, hw⟩ := h s List.mem_cons_self
    obtain ⟨new, hwrite, hnew⟩ := sparseFileWrite_sparse hw
    rw [writePieces]
    simp only [bind, Except.bind, hwrite, ih fun q hq => h q (List.mem_cons_of_mem _ hq), hnew]
    rfl

end

/-! ## Splitting and putting together -/

/-- A well-formed image of less than `2^31` bytes: its blocks are whole words, and no raw or fill
chunk is empty. -/
structure SmallImage (file : List UInt8) : Prop extends WellFormed file where
  /-- The block size is not zero. -/
  blk_sz_pos : 0 < (fileHeader file).blk_sz.toNat
  /-- It is a multiple of four. -/
  blk_sz_mod : (fileHeader file).blk_sz.toNat % 4 = 0
  /-- Raw and fill chunks have at least one block. -/
  nonempty : ∀ r ∈ fileRecords file,
    r.header.kind = .raw ∨ r.header.kind = .fill → r.header.chunk_sz ≠ 0
  /-- The image is small. -/
  size : (fileHeader file).total_blks.toNat * (fileHeader file).blk_sz.toNat < 2 ^ 31

instance (file : List UInt8) : Decidable (SmallImage file) :=
  decidable_of_iff (WellFormed file ∧ 0 < (fileHeader file).blk_sz.toNat ∧
      (fileHeader file).blk_sz.toNat % 4 = 0 ∧
      (∀ r ∈ fileRecords file,
        r.header.kind = .raw ∨ r.header.kind = .fill → r.header.chunk_sz ≠ 0) ∧
      (fileHeader file).total_blks.toNat * (fileHeader file).blk_sz.toNat < 2 ^ 31)
    ⟨fun h => ⟨h.1, h.2.1, h.2.2.1, h.2.2.2.1, h.2.2.2.2⟩,
      fun h => ⟨h.toWellFormed, h.blk_sz_pos, h.blk_sz_mod, h.nonempty, h.size⟩⟩

/-- In neither call of `sparse_file_resparse` does a step split a block at less than one block. -/
def CleanSplits (fuel : ℕ) (file : List UInt8) (max_size : ℤ) : Prop :=
  ∀ s, sparseFileImport 0 file false = .ok (some s) →
    RunSplitsWhole (Env.ofFile file) (toU32 max_size) fuel s ∧
      ∀ r, sparseFileResparse (Env.ofFile file) fuel s (toU32 max_size) 0 = .ok r →
        RunSplitsWhole (Env.ofFile file) (toU32 max_size) fuel r.1

section

variable {file : List UInt8} {fuel : ℕ} {max_size : ℤ} {pieces order : List (List UInt8)}

/-- What `simg2simg` has done when it succeeds. -/
theorem simg2simg_some (h : simg2simg fuel file max_size = .ok (some pieces)) :
    ∃ s first second, sparseFileImport 0 file false = .ok (some s) ∧
      sparseFileResparse (Env.ofFile file) fuel s (toU32 max_size) 0 = .ok first ∧
      sparseFileResparse (Env.ofFile file) fuel first.1 (toU32 max_size) first.2.2 = .ok second ∧
      second.2.2 ≤ first.2.2 ∧ writePieces (Env.ofFile file) second.2.1 = .ok (some pieces) := by
  unfold simg2simg at h
  obtain ⟨o, hi, h⟩ := Except.bind_ok_iff.mp h
  cases o with
  | none => cases h
  | some s =>
    obtain ⟨first, h1, h⟩ := Except.bind_ok_iff.mp h
    obtain ⟨second, h2, h⟩ := Except.bind_ok_iff.mp h
    dsimp only at h
    split_ifs at h with hc
    exact ⟨s, first, second, hi, h1, h2, Nat.le_of_not_lt hc, h⟩

/-- When `simg2simg` succeeds, the blocks of the image fit into an `int`. -/
theorem simg2simg_blk_sz_lt (hbs : (fileHeader file).blk_sz ≠ 0)
    (h : simg2simg fuel file max_size = .ok (some pieces)) :
    (fileHeader file).blk_sz.toNat < 2 ^ 31 := by
  obtain ⟨s, first, second, himp, h1, h2, -, hw⟩ := simg2simg_some h
  by_contra hlarge
  obtain ⟨-, hfile, hfin, -⟩ := sparseFileImport_some himp
  rw [importedFile_eq hbs hfin] at hfile
  have hsize : s.block_size = (fileHeader file).blk_sz := (addAll_fields hfile).1
  rw [← hsize] at hlarge
  obtain ⟨-, hb1, -, hc1⟩ := sparseFileResparse_large (Nat.le_of_not_lt hlarge) h1
  obtain ⟨-, -, hout, -⟩ := sparseFileResparse_large (hb1 ▸ Nat.le_of_not_lt hlarge) h2
  rw [hout, hc1, List.take_succ_cons] at hw
  -- The only piece cannot be written.
  have hne : first.1.block_size ≠ 0 := by rwa [hb1, hsize]
  have hwrite : sparseFileWrite file_ops (Env.ofFile file)
      (sparseFileNew first.1.block_size first.1.len) ⟨[], 0⟩ true false = .ok (-ENOMEM, ⟨[], 0⟩) :=
    sparseFileWrite_unopened hne (hb1 ▸ Nat.le_of_not_lt hlarge)
  rw [writePieces] at hw
  simp only [hwrite, bind, Except.bind] at hw
  rw [if_pos (by decide)] at hw
  cases hw

/-- Such an image can be expanded. -/
theorem SmallImage.image (h : SmallImage file) (hlt : (fileHeader file).blk_sz.toNat < 2 ^ 31) :
    Image file := by
  refine ⟨h.toWellFormed, h.blk_sz_pos, h.blk_sz_mod, hlt, h.nonempty, ?_⟩
  have := h.size
  rw [Nat.add_mul, Nat.one_mul]
  omega

/-- The import of an image, as the first call of `sparse_file_resparse` takes it. -/
theorem Imported.source {s : SparseFile} {fd : ℕ} (h : Imported fd file s) :
    Source file (fileHeader file).total_blks.toNat [] s :=
  ⟨h.writable.block_size_pos, h.writable.block_size_lt, (fileHeader file).total_blks.toNat_lt,
    h.valid.block_size, ⟨h.writable.fits, h.valid.list.nodup, h.valid.list.fresh⟩⟩

/-- **When no block is split at less than one block**: whenever the limit leaves room for eight. -/
theorem SmallImage.cleanSplits (h : SmallImage file)
    (hmax : 8 * (fileHeader file).blk_sz.toNat ≤ (toU32 max_size - overhead).toNat) :
    CleanSplits fuel file max_size := by
  intro s himp
  have hlt := (toU32 max_size - overhead).toNat_lt
  obtain ⟨s', hi⟩ := (h.image (by omega)).import 0
  obtain rfl : s' = s := by
    rw [hi.import_eq] at himp
    exact Option.some.inj (Except.ok.inj himp)
  have h4 : 4 ≤ s'.block_size.toNat := by
    have h1 := h.blk_sz_pos
    have h2 := h.blk_sz_mod
    rw [hi.block_size]
    omega
  have hsmall := h.size
  rw [← hi.block_size] at hsmall hmax
  have hrun := @Source.runSplitsWhole _ _ fuel _ _ _ hi.source h4 hsmall hmax
  refine ⟨hrun, fun r hr => ?_⟩
  obtain ⟨hsrc, hbs, -, -⟩ := sparseFileResparse_first hi.source hrun hr
  exact hsrc.runSplitsWhole (hbs ▸ h4) (hbs ▸ hsmall) (hbs ▸ hmax)

/-- The pieces in another order are pieces of another order of the lists. -/
theorem perm_map {α β : Type*} {f : α → β} {l : List α} {m : List β} (h : m.Perm (l.map f)) :
    ∃ l' : List α, l'.Perm l ∧ m = l'.map f := by
  have : (Relation.Comp (· = List.map f ·) (·.Perm ·)) m l := by
    rw [List.eq_map_comp_perm]
    exact h
  obtain ⟨l', h1, h2⟩ := this
  exact ⟨l', h2, h1⟩

/-- **Splitting an image and putting it together.** When `simg2simg` succeeds on an image of less
than `2^31` bytes without splitting a block at less than one block, every piece is imported, and
`simg2img` makes the same file of the pieces, in any order, as of the image. -/
theorem simg2simg_simg2img (h : SmallImage file)
    (hrun : simg2simg fuel file max_size = .ok (some pieces))
    (hsplit : CleanSplits fuel file max_size) (hperm : order.Perm pieces) :
    (∀ piece ∈ pieces, ∃ s, sparseFileImport 0 piece false = .ok (some s)) ∧
      ∃ raw, simg2img order = .ok (some raw) ∧ simg2img [file] = .ok (some raw) := by
  have hpos := h.blk_sz_pos
  have hlt := simg2simg_blk_sz_lt (ne_zero_of_toNat_pos hpos) hrun
  obtain ⟨s, hi⟩ := (h.image hlt).import 0
  obtain ⟨s', first, second, himp, h1, h2, hc, hw⟩ := simg2simg_some hrun
  obtain rfl : s' = s := by
    rw [hi.import_eq] at himp
    exact (Option.some.inj (Except.ok.inj himp)).symm
  obtain ⟨hsplit1, hsplit2⟩ := hsplit s' himp
  have hn := (fileHeader file).total_blks.toNat_lt
  have hsize := h.size
  rw [← hi.block_size] at hsize hlt
  have hwr := hi.writable
  have hsrc := hi.source
  generalize (fileHeader file).total_blks.toNat = n at hn hsize hwr hsrc
  -- The two calls.
  obtain ⟨hsrc1, hbs1, hlen1, hsame1⟩ := sparseFileResparse_first hsrc hsplit1 h1
  obtain ⟨hne, hpieces, hfits, hsame2⟩ :=
    sparseFileResparse_second hsrc1 (hsplit2 first h1) h2 hc
  rw [hbs1] at hpieces hfits hsame2
  rw [List.flatMap_def] at hfits hsame2
  have hwrite : ∀ q ∈ second.2.1, q.block_size = s'.block_size ∧ q.Writable file n := fun q hq => by
    obtain ⟨hb, hl⟩ := hpieces q hq
    have hf := hfits.sublist (List.sublist_flatten_of_mem (List.mem_map_of_mem hq))
    rw [← hb] at hf
    exact ⟨hb, hb ▸ hwr.block_size_pos, hb ▸ hwr.block_size_mod, hb ▸ hlt,
      by rw [hl, hlen1, hwr.len, hb], hn, hf.blocks, hf.disjoint, hf.inside⟩
  have henc : ∀ l ∈ second.2.1.map SparseFile.blocks, Encodable file s'.block_size n l := by
    refine List.forall_mem_map.mpr fun q hq => ?_
    obtain ⟨hb, hq⟩ := hwrite q hq
    rw [← hb]
    refine hq.encodable ?_ ?_ <;> rw [hb]
    · rw [Nat.add_mul, Nat.one_mul]
      omega
    · omega
  -- The pieces in the order of the command line.
  rw [writePieces_spec hwrite] at hw
  obtain rfl := Option.some.inj (Except.ok.inj hw)
  obtain ⟨ls, hls, rfl⟩ := perm_map hperm
  have hflat := hls.flatten
  have hap : (extents s'.block_size ls.flatten).Pairwise Apart :=
    ((hflat.map _).pairwise_iff fun h => h.symm).mpr hfits.disjoint.apart
  obtain ⟨new, hnew, hshows, hlen⟩ := @simg2imgLoop_pieces _ _ _ _
    (fun l hl => henc l (hls.mem_iff.mp hl)) hap ⟨[], 0⟩ (Nat.zero_le _)
  obtain ⟨mid, new', horig, hshows', hnew'⟩ := sparseFileWrite_normal hwr []
  refine ⟨List.forall_mem_map.mpr fun l hl => ?_, new.bytes, ?_, ?_⟩
  · obtain ⟨q, hq⟩ := (sparseImage_image (henc l hl)).import 0
    exact ⟨q, hq.import_eq⟩
  · simp only [simg2img, hnew, bind, Except.bind]
    rfl
  · rw [simg2img_single hi.import_eq horig]
    have hmap : SameMap s'.block_size ls.flatten s'.blocks := fun p x =>
      (described_perm BlockSource.label (hflat.map _) p x).trans ((hsame1.trans hsame2) p x).symm
    rw [hshows.ext (hnew' ▸ hshows'.resize hwr.fits.inside (Nat.zero_le _)) hmap ?_]
    rw [hlen, hnew', length_resize]
    rintro rfl
    exact hne (List.map_eq_nil_iff.mp hls.symm.eq_nil)

end

/-- An image of one raw chunk, of nine blocks of 16 bytes. -/
def nineBlocks : List UInt8 :=
  SparseHeader.encode ⟨SPARSE_HEADER_MAGIC, 1, 0, 28, 12, 16, 9, 1, 0⟩ ++
    (ChunkHeader.encode ⟨CHUNK_TYPE_RAW, 0, 9, 156⟩ ++ List.replicate 144 7)

/-- The first seven blocks of this file. -/
def sevenBlocks : List UInt8 :=
  SparseHeader.encode ⟨SPARSE_HEADER_MAGIC, 1, 0, 28, 12, 16, 9, 2, 0⟩ ++
    (ChunkHeader.encode ⟨CHUNK_TYPE_RAW, 0, 7, 124⟩ ++ List.replicate 112 7) ++
    ChunkHeader.encode ⟨CHUNK_TYPE_DONT_CARE, 0, 2, 12⟩

/-- The last two blocks of this file. -/
def twoBlocks : List UInt8 :=
  SparseHeader.encode ⟨SPARSE_HEADER_MAGIC, 1, 0, 28, 12, 16, 9, 2, 0⟩ ++
    ChunkHeader.encode ⟨CHUNK_TYPE_DONT_CARE, 0, 7, 12⟩ ++
    (ChunkHeader.encode ⟨CHUNK_TYPE_RAW, 0, 2, 44⟩ ++ List.replicate 32 7)

/-- The image is split in two at a limit of 184 bytes, and put together from the last piece on. -/
theorem simg2simg_simg2img_nine_blocks :
    (∀ piece ∈ [sevenBlocks, twoBlocks], ∃ s, sparseFileImport 0 piece false = .ok (some s)) ∧
      ∃ raw, simg2img [twoBlocks, sevenBlocks] = .ok (some raw) ∧
        simg2img [nineBlocks] = .ok (some raw) := by
  have hsmall : SmallImage nineBlocks := by decide +kernel
  exact @simg2simg_simg2img _ 4 184 _ _ hsmall (by decide +kernel)
    (hsmall.cleanSplits (by decide +kernel)) (List.Perm.swap _ _ _)

/-- An image of two raw chunks, of one block and of two blocks of 24 bytes. -/
def threeBlocks : List UInt8 :=
  SparseHeader.encode ⟨SPARSE_HEADER_MAGIC, 1, 0, 28, 12, 24, 3, 2, 0⟩ ++
    (ChunkHeader.encode ⟨CHUNK_TYPE_RAW, 0, 1, 36⟩ ++ List.replicate 24 7) ++
    (ChunkHeader.encode ⟨CHUNK_TYPE_RAW, 0, 2, 60⟩ ++ List.replicate 48 9)

/-- The pieces of the image at a limit of 127 bytes. In the first call of `sparse_file_resparse` and
in the second one, 11 bytes are left for the second chunk, more than an eighth of the limit. -/
def emptySplits : List (List UInt8) :=
  [SparseHeader.encode ⟨SPARSE_HEADER_MAGIC, 1, 0, 28, 12, 24, 3, 4, 0⟩ ++
      (ChunkHeader.encode ⟨CHUNK_TYPE_RAW, 0, 1, 36⟩ ++ List.replicate 24 7) ++
      ChunkHeader.encode ⟨CHUNK_TYPE_RAW, 0, 0, 12⟩ ++
      ChunkHeader.encode ⟨CHUNK_TYPE_RAW, 0, 0, 12⟩ ++
      ChunkHeader.encode ⟨CHUNK_TYPE_DONT_CARE, 0, 2, 12⟩,
    SparseHeader.encode ⟨SPARSE_HEADER_MAGIC, 1, 0, 28, 12, 24, 3, 2, 0⟩ ++
      ChunkHeader.encode ⟨CHUNK_TYPE_DONT_CARE, 0, 1, 12⟩ ++
      (ChunkHeader.encode ⟨CHUNK_TYPE_RAW, 0, 2, 60⟩ ++ List.replicate 48 9),
    SparseHeader.encode ⟨SPARSE_HEADER_MAGIC, 1, 0, 28, 12, 24, 3, 1, 0⟩ ++
      ChunkHeader.encode ⟨CHUNK_TYPE_DONT_CARE, 0, 3, 12⟩]

/-- Split at less than one block, the second chunk leaves empty chunks in the first piece, and the
importer stops the program on them. -/
theorem empty_split_is_not_imported :
    SmallImage threeBlocks ∧ simg2simg 6 threeBlocks 127 = .ok (some emptySplits) ∧
      ∃ piece ∈ emptySplits, sparseFileImport 0 piece false = .error .assertion :=
  ⟨by decide +kernel, by decide +kernel, _, List.mem_cons_self, by decide +kernel⟩

end AmlogicToolkit.Simg
