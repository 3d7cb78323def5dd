import AmlogicToolkit.Simg.Split

/-!
# One step of the splitting loop

What one call of `move_chunks_up_to_len` can do to a list of any blocks, whatever the backing data
is (`Takes`): it takes the nodes up to the one that does not fit, and of that one the part that it
splits off (`moveChunksUpToLen_takes`). Over a list that can be written it leaves two lists, the
piece and the rest, which make up the list that it had (`moveChunksUpToLen_spec`).
-/

namespace AmlogicToolkit.Simg

open Bytes Extents

/-! ## What a step can do -/

/-- The nodes of `done` and of a file lie at addresses of their own, below the next one, and the list
of the file has its block size. -/
structure Linked (done : List BackedBlock) (s : SparseFile) : Prop where
  /-- No two nodes share an address. -/
  nodup : ((done ++ s.blocks).map BackedBlock.addr).Nodup
  /-- The addresses are below the next one. -/
  fresh : ∀ bb ∈ done ++ s.blocks, bb.addr < s.backed_block_list.next_addr
  /-- The list has the block size of the file. -/
  block_size : s.backed_block_list.block_size = s.block_size

/-- **What a step can do** to the blocks of a file: whether another step follows, the blocks that it
takes, and those that it leaves. -/
inductive Takes (env : Env) (max_len : UInt32) (src : SparseFile) :
    Bool → List BackedBlock → List BackedBlock → Prop
  /-- The counter cannot be opened. -/
  | refused (hbs : 2 ^ 31 ≤ src.block_size.toNat) : Takes env max_len src false [] src.blocks
  /-- A block cannot be measured. -/
  | failed (hscan : scan env src max_len = .failed) : Takes env max_len src false [] src.blocks
  /-- All blocks fit. -/
  | all (last_bb : Option BackedBlock) (hscan : scan env src max_len = .all last_bb) :
      Takes env max_len src false src.blocks []
  /-- The block that does not fit is split, and its first part is taken. -/
  | split {pre post rest : List BackedBlock} {bb a : BackedBlock} {size : ℤ}
      (hblocks : src.blocks = pre ++ bb :: post)
      (hscan : scan env src max_len = .full pre.getLast? bb size)
      (hsplits : splits (max_len - overhead) pre.getLast? size)
      (hbb : splitBb src.block_size src.backed_block_list.next_addr bb
        (toU32 ((max_len - overhead).toNat - size)) = a :: rest) :
      Takes env max_len src true (pre ++ [a]) (rest ++ post)
  /-- The block that does not fit is left. -/
  | whole {pre post : List BackedBlock} {bb : BackedBlock} {size : ℤ}
      (hblocks : src.blocks = pre ++ bb :: post) (hpre : pre ≠ [])
      (hscan : scan env src max_len = .full pre.getLast? bb size)
      (hsplits : ¬ splits (max_len - overhead) pre.getLast? size) :
      Takes env max_len src true pre (bb :: post)

section

variable {env : Env} {max_len : UInt32} {src src' s : SparseFile} {more : Bool}
  {done taken left : List BackedBlock}

/-- **How the scan ends**: at a block that cannot be measured, behind the last node, or at a node
that does not fit, with the node before it. -/
theorem scanBlocks_cases (env : Env) (bs len : UInt32) (l : List BackedBlock)
    (last_bb : Option BackedBlock) (last_block : UInt32) (file_len : ℤ) (out : OutputFile ℤ) :
    scanBlocks env bs len l last_bb last_block file_len out = .failed ∨
      scanBlocks env bs len l last_bb last_block file_len out = .all (l.getLast?.or last_bb) ∨
      ∃ pre bb post size, l = pre ++ bb :: post ∧
        scanBlocks env bs len l last_bb last_block file_len out =
          .full (pre.getLast?.or last_bb) bb size := by
  induction l generalizing last_bb last_block file_len out with
  | nil => exact Or.inr (Or.inl rfl)
  | cons c l ih =>
    unfold scanBlocks
    dsimp only
    generalize sparseFileWriteBlock counter_ops env _ c = r
    obtain ⟨ret, out'⟩ := r
    dsimp only
    split_ifs with hret hfull
    · exact Or.inl rfl
    · exact Or.inr (Or.inr ⟨[], c, l, _, rfl, rfl⟩)
    · rcases ih (some c) (c.block + divRoundUp c.len bs) (file_len + out'.dev) out' with
        h | h | ⟨pre, bb, post, size, h1, h2⟩
      · exact Or.inl h
      · exact Or.inr (Or.inl (by rw [h, getLast?_cons_or]))
      · exact Or.inr (Or.inr ⟨c :: pre, bb, post, size, by rw [h1]; rfl,
          by rw [h2, getLast?_cons_or]⟩)

/-- What a step leaves for the next one, behind the nodes of `done`. -/
structure Left (done : List BackedBlock) (src src' s : SparseFile) : Prop where
  /-- The addresses stay apart. -/
  linked : Linked (done ++ s.blocks) src'
  /-- The rest keeps the block size. -/
  block_size : src'.block_size = src.block_size
  /-- It keeps the length. -/
  len : src'.len = src.len
  /-- The piece has the block size. -/
  piece_block_size : s.block_size = src.block_size
  /-- It has the length. -/
  piece_len : s.len = src.len

/-- A step that takes nothing leaves the file and an empty piece. -/
theorem Left.nothing (h : Linked done src) :
    Left done src src (sparseFileNew src.block_size src.len) := by
  refine ⟨⟨?_, ?_, h.block_size⟩, rfl, rfl, rfl, rfl⟩
  · change ((done ++ [] ++ src.blocks).map BackedBlock.addr).Nodup
    rw [List.append_nil]
    exact h.nodup
  · change ∀ c ∈ done ++ [] ++ src.blocks, _
    rw [List.append_nil]
    exact h.fresh

/-! ## Moving the nodes -/

/-- The rest and the piece, when the nodes of a list are moved from the first node of the file on up
to node `last`. -/
def moveUpTo (src : SparseFile) (list : BackedBlockList) (last : Option ℕ) :
    SparseFile × SparseFile :=
  let dst := sparseFileNew src.block_size src.len
  let (f, t) := backedBlockListMove list dst.backed_block_list
    (src.blocks.head?.map BackedBlock.addr) last
  ({ src with backed_block_list := f }, { dst with backed_block_list := t })

/-- Moving the nodes up to one out of a list that is as good as that of the file. -/
theorem moveUpTo_left {list : BackedBlockList} {pre post : List BackedBlock} {x : BackedBlock}
    (hl : list.data_blocks = pre ++ x :: post) (hb : list.block_size = src.block_size)
    (hnd : ((done ++ (pre ++ x :: post)).map BackedBlock.addr).Nodup)
    (hfresh : ∀ c ∈ done ++ (pre ++ x :: post), c.addr < list.next_addr)
    (hhead : src.blocks.head?.map BackedBlock.addr = list.data_blocks.head?.map BackedBlock.addr) :
    ∃ src' s, moveUpTo src list (some x.addr) = (src', s) ∧ s.blocks = pre ++ [x] ∧
      src'.blocks = post ∧ Left done src src' s := by
  have hnd' : ((pre ++ x :: post).map BackedBlock.addr).Nodup :=
    hnd.sublist ((List.sublist_append_right _ _).map _)
  have hmove := @backedBlockListMove_front list
    (sparseFileNew src.block_size src.len).backed_block_list _ _ _ rfl hl hnd'
  rw [← hhead] at hmove
  have hcat : done ++ (pre ++ [x]) ++ post = done ++ (pre ++ x :: post) := by simp
  rw [← hcat] at hnd hfresh
  simp only [moveUpTo, hmove]
  exact ⟨_, _, rfl, rfl, rfl, ⟨hnd, hfresh, hb⟩, rfl, rfl, rfl, rfl⟩

/-- Moving the nodes up to one out of the list of the file. -/
theorem moveUpTo_own (h : Linked done src) {pre post : List BackedBlock} {x : BackedBlock}
    (hl : src.blocks = pre ++ x :: post) :
    ∃ src' s, moveUpTo src src.backed_block_list (some x.addr) = (src', s) ∧
      s.blocks = pre ++ [x] ∧ src'.blocks = post ∧ Left done src src' s :=
  moveUpTo_left hl h.block_size (hl ▸ h.nodup) (hl ▸ h.fresh) rfl

/-- Moving the nodes up to the first part of one that is split. -/
theorem moveUpTo_split (h : Linked done src) {pre post rest : List BackedBlock} {bb a : BackedBlock}
    {r : UInt32} (hl : src.blocks = pre ++ bb :: post)
    (hbb : splitBb src.block_size src.backed_block_list.next_addr bb r = a :: rest) :
    ∃ src' s, moveUpTo src (backedBlockSplit src.backed_block_list bb r) (some bb.addr) = (src', s) ∧
      s.blocks = pre ++ [a] ∧ src'.blocks = rest ++ post ∧ Left done src src' s := by
  obtain ⟨a', rest', heq, haddr, -⟩ :=
    splitBb_cons src.block_size src.backed_block_list.next_addr bb r
  obtain ⟨rfl, rfl⟩ := List.cons.inj (hbb.symm.trans heq)
  have hblocks := @backedBlockSplit_blocks pre post bb src.backed_block_list hl
    (h.nodup.sublist ((List.sublist_append_right _ _).map _)) r
  rw [h.block_size, hbb, List.cons_append] at hblocks
  have hnd := h.nodup
  have hfresh := h.fresh
  rw [hl, ← List.append_assoc] at hnd hfresh
  obtain ⟨hnd', hfresh'⟩ := nodup_split hbb hnd hfresh
  rw [List.append_assoc] at hnd' hfresh'
  rw [← haddr]
  refine moveUpTo_left hblocks h.block_size hnd' hfresh' ?_
  -- The first node stays the first one, also when it is the one that is split.
  rw [hblocks, hl]
  cases pre with
  | nil => simp [haddr]
  | cons c pre => rfl

/-- Without nodes nothing is moved. -/
theorem moveUpTo_nil (hnil : src.blocks = []) :
    moveUpTo src src.backed_block_list none = (src, sparseFileNew src.block_size src.len) := by
  have hl : src.backed_block_list.data_blocks = [] := hnil
  simp only [moveUpTo, hnil, List.head?_nil, Option.map_none]
  unfold backedBlockListMove cutSegment
  rw [hl]

/-! ## A step -/

/-- With a block size that does not fit into an `int`, a pass moves nothing and is the last one. -/
theorem moveChunksUpToLen_large (hlarge : 2 ^ 31 ≤ src.block_size.toNat) :
    moveChunksUpToLen env src (sparseFileNew src.block_size src.len) max_len =
      .ok (false, src, sparseFileNew src.block_size src.len) := by
  have hdst : (sparseFileNew src.block_size src.len).block_size = src.block_size := rfl
  have hlen : (sparseFileNew src.block_size src.len).len = src.len := rfl
  unfold moveChunksUpToLen
  simp only [hdst, hlen, outputFileInit_large _ _ hlarge, bind, Except.bind]
  rw [if_pos (by decide)]
  rfl

/-- The step, with the counter opened: what the scan says decides what is moved. -/
theorem moveChunksUpToLen_eq (hbs : src.block_size ≠ 0) (hlt : src.block_size.toNat < 2 ^ 31) :
    moveChunksUpToLen env src (sparseFileNew src.block_size src.len) max_len =
      match scan env src max_len with
      | .failed => .ok (false, src, sparseFileNew src.block_size src.len)
      | .all last_bb =>
        .ok (false, moveUpTo src src.backed_block_list (last_bb.map BackedBlock.addr))
      | .full last_bb bb file_len =>
        if splits (max_len - overhead) last_bb file_len then
          .ok (true, moveUpTo src (backedBlockSplit src.backed_block_list bb
            (toU32 ((max_len - overhead).toNat - file_len))) (some bb.addr))
        else .ok (true, moveUpTo src src.backed_block_list (last_bb.map BackedBlock.addr)) := by
  have hdst : (sparseFileNew src.block_size src.len).block_size = src.block_size := rfl
  have hlen : (sparseFileNew src.block_size src.len).len = src.len := rfl
  have hscan : scanBlocks env src.block_size (max_len - overhead) src.backed_block_list.data_blocks
      none 0 0 (counterFile src.block_size src.len) = scan env src max_len := rfl
  unfold moveChunksUpToLen
  simp only [hdst, hlen, outputFileInit_counter hbs hlt, hscan, bind, Except.bind,
    lt_self_iff_false, if_false]
  rfl

/-- A step goes through when the block size is not zero. -/
theorem moveChunksUpToLen_ok (hbs : src.block_size ≠ 0) :
    ∃ r, moveChunksUpToLen env src (sparseFileNew src.block_size src.len) max_len = .ok r := by
  by_cases hlarge : 2 ^ 31 ≤ src.block_size.toNat
  · exact ⟨_, moveChunksUpToLen_large hlarge⟩
  · rw [moveChunksUpToLen_eq hbs (Nat.not_le.mp hlarge)]
    split
    · exact ⟨_, rfl⟩
    · exact ⟨_, rfl⟩
    · split_ifs <;> exact ⟨_, rfl⟩

/-- A step does not go through when it is zero. -/
theorem moveChunksUpToLen_ne_zero {r : Bool × SparseFile × SparseFile}
    (hm : moveChunksUpToLen env src (sparseFileNew src.block_size src.len) max_len = .ok r) :
    src.block_size ≠ 0 := by
  intro h0
  have hdst : (sparseFileNew src.block_size src.len).block_size = 0 := h0
  simp only [moveChunksUpToLen, hdst, outputFileInit, bind, Except.bind] at hm
  cases hm

/-- **One step** takes nodes from the front of any linked list, and leaves the rest linked. -/
theorem moveChunksUpToLen_takes (h : Linked done src)
    (hm : moveChunksUpToLen env src (sparseFileNew src.block_size src.len) max_len =
      .ok (more, src', s)) :
    src.block_size ≠ 0 ∧ Takes env max_len src more s.blocks src'.blocks ∧
      Left done src src' s := by
  have hbs := moveChunksUpToLen_ne_zero hm
  refine ⟨hbs, ?_⟩
  by_cases hlarge : 2 ^ 31 ≤ src.block_size.toNat
  · -- The counter cannot be set up, and nothing is moved.
    rw [moveChunksUpToLen_large hlarge] at hm
    cases hm
    exact ⟨.refused hlarge, .nothing h⟩
  rw [moveChunksUpToLen_eq hbs (Nat.not_le.mp hlarge)] at hm
  rcases scanBlocks_cases env src.block_size (max_len - overhead) src.blocks none 0 0
    (counterFile src.block_size src.len) with hs | hs | ⟨pre, bb, post, size, hl, hs⟩
  · -- A block cannot be counted, and nothing is moved.
    change scan env src max_len = _ at hs
    simp only [hs] at hm
    cases hm
    exact ⟨.failed hs, .nothing h⟩
  · -- All nodes fit: they are moved up to the last one, when there is one.
    change scan env src max_len = _ at hs
    rw [Option.or_none] at hs
    simp only [hs] at hm
    rcases List.eq_nil_or_concat src.blocks with hnil | ⟨pre, x, hcat⟩
    · rw [hnil, List.getLast?_nil, Option.map_none, moveUpTo_nil hnil] at hm
      cases hm
      have ht := Takes.all src.blocks.getLast? hs
      rw [hnil] at ht
      refine ⟨?_, .nothing h⟩
      rw [hnil]
      exact ht
    · rw [List.concat_eq_append] at hcat
      have hlast : src.blocks.getLast? = some x := by rw [hcat]; simp
      obtain ⟨r, p, h1, h2, h3, hleft⟩ := moveUpTo_own h hcat
      rw [hlast, Option.map_some, h1] at hm
      cases hm
      rw [h2, h3, ← hcat]
      exact ⟨.all _ hs, hleft⟩
  · change scan env src max_len = _ at hs
    rw [Option.or_none] at hs
    simp only [hs] at hm
    -- A node does not fit: it is split, or left for the next pass.
    by_cases hsp : splits (max_len - overhead) pre.getLast? size
    · rw [if_pos hsp] at hm
      obtain ⟨a, rest, hbb, -, -⟩ := splitBb_cons src.block_size src.backed_block_list.next_addr
        bb (toU32 ((max_len - overhead).toNat - size))
      obtain ⟨r, p, h1, h2, h3, hleft⟩ := moveUpTo_split h hl hbb
      rw [h1] at hm
      cases hm
      rw [h2, h3]
      exact ⟨.split hl hs hsp hbb, hleft⟩
    · -- A node that is not split is not the first one: the nodes in front of it are moved.
      rw [if_neg hsp] at hm
      rcases List.eq_nil_or_concat pre with rfl | ⟨pre', x, hcat⟩
      · exact absurd rfl hsp
      · rw [List.concat_eq_append] at hcat
        have hlast : pre.getLast? = some x := by rw [hcat]; simp
        have hl' : src.blocks = pre' ++ x :: (bb :: post) := by rw [hl, hcat]; simp
        obtain ⟨r, p, h1, h2, h3, hleft⟩ := moveUpTo_own h hl'
        rw [hlast, Option.map_some, h1] at hm
        cases hm
        rw [h2, h3, ← hcat]
        exact ⟨.whole hl (by rw [hcat]; simp) hs hsp, hleft⟩

end

/-- A call of `sparse_file_resparse` that returns: its loop, and the list that it leaves. -/
theorem sparseFileResparse_ok {env : Env} {fuel count : ℕ} {max_len : UInt32} {in_s : SparseFile}
    {r : SparseFile × List SparseFile × ℕ}
    (hr : sparseFileResparse env fuel in_s max_len count = .ok r) :
    ∃ s tmp, resparseLoop env max_len count fuel in_s (sparseFileNew in_s.block_size in_s.len) [] 0 =
        .ok (s, tmp, r.2.1, r.2.2) ∧
      r.1 = { s with backed_block_list :=
        (backedBlockListMove tmp.backed_block_list s.backed_block_list none none).2 } := by
  obtain ⟨⟨s, tmp, out_s, c⟩, hloop, hr⟩ := Except.bind_ok_iff.mp hr
  cases hr
  exact ⟨s, tmp, hloop, rfl⟩

/-! ## A step on a list that can be written -/

/-- What a step leaves behind the nodes of `done`: the piece `s` and the rest `src'` make up the list
that there was, but for a split, and nothing is left when the loop ends. -/
structure Stepped (file : List UInt8) (n : ℕ) (done : List BackedBlock) (src : SparseFile)
    (more : Bool) (src' s : SparseFile) : Prop where
  /-- The lists can be written. -/
  tidy : Tidy file src.block_size n (done ++ (s.blocks ++ src'.blocks))
    src'.backed_block_list.next_addr
  /-- They describe what there was. -/
  same : SameMap src.block_size (done ++ src.blocks) (done ++ (s.blocks ++ src'.blocks))
  /-- Nothing is left at the end. -/
  empty : more = false → src'.blocks = []
  /-- The rest keeps the block size. -/
  block_size : src'.block_size = src.block_size
  /-- So does its list. -/
  list_block_size : src'.backed_block_list.block_size = src.block_size
  /-- It keeps the length. -/
  len : src'.len = src.len
  /-- The piece has the block size. -/
  piece_block_size : s.block_size = src.block_size
  /-- It has the length. -/
  piece_len : s.len = src.len

section

variable {file : List UInt8} {n : ℕ} {src : SparseFile} {done taken left : List BackedBlock}
  {max_len : UInt32} {more : Bool}

/-- What is taken and what is left make up the list that there was, but for a split. -/
theorem Takes.tidy (ht : Takes (Env.ofFile file) max_len src more taken left)
    (hbs : src.block_size ≠ 0) (hlt : src.block_size.toNat < 2 ^ 31) (hn : n < 2 ^ 32)
    (h : Tidy file src.block_size n (done ++ src.blocks) src.backed_block_list.next_addr)
    (hw : SplitsWhole (Env.ofFile file) src max_len) :
    Fits file src.block_size n (done ++ (taken ++ left)) 0 ∧
      SameMap src.block_size (done ++ src.blocks) (done ++ (taken ++ left)) ∧
      (more = false → left = []) := by
  cases ht with
  | refused hlarge => exact absurd hlt (Nat.not_lt.mpr hlarge)
  | failed hscan =>
    exact absurd hscan (scanBlocks_ne_failed
      (fun c hc => h.fits.blocks c (List.mem_append_right _ hc)) _ _ _ _ rfl)
  | all last_bb hscan =>
    rw [List.append_nil]
    exact ⟨h.fits, SameMap.refl _ _, fun _ => rfl⟩
  | @split pre post rest bb a size hblocks hscan hsplits hbb =>
    rw [hblocks, ← List.append_assoc] at h
    obtain ⟨a', rest', heq, -, htidy, hsame⟩ := h.split hbs hn (hw _ _ _ hscan hsplits)
    obtain ⟨rfl, rfl⟩ := List.cons.inj (heq.symm.trans hbb)
    have hcat : done ++ (pre ++ [a'] ++ (rest' ++ post)) = done ++ pre ++ a' :: (rest' ++ post) := by
      simp
    rw [hcat, hblocks, ← List.append_assoc]
    exact ⟨htidy.fits, hsame, fun h => nomatch h⟩
  | whole hblocks hpre hscan hsplits =>
    rw [← hblocks]
    exact ⟨h.fits, SameMap.refl _ _, fun h => nomatch h⟩

/-- **One step** cuts the list in a piece and the rest. -/
theorem moveChunksUpToLen_spec (hbs : src.block_size ≠ 0)
    (hlt : src.block_size.toNat < 2 ^ 31) (hn : n < 2 ^ 32)
    (h : Tidy file src.block_size n (done ++ src.blocks) src.backed_block_list.next_addr)
    (hlist : src.backed_block_list.block_size = src.block_size)
    (hw : SplitsWhole (Env.ofFile file) src max_len) :
    ∃ more src' s, moveChunksUpToLen (Env.ofFile file) src
      (sparseFileNew src.block_size src.len) max_len = .ok (more, src', s) ∧
        Stepped file n done src more src' s := by
  obtain ⟨⟨more, src', s⟩, hm⟩ := @moveChunksUpToLen_ok (Env.ofFile file) max_len src hbs
  obtain ⟨-, htakes, hleft⟩ := moveChunksUpToLen_takes ⟨h.nodup, h.fresh, hlist⟩ hm
  obtain ⟨hfits, hsame, hempty⟩ := htakes.tidy hbs hlt hn h hw
  obtain ⟨hnd, hfresh, hsize⟩ := hleft.linked
  rw [List.append_assoc] at hnd hfresh
  exact ⟨more, src', s, hm, ⟨hfits, hnd, hfresh⟩, hsame, hempty, hleft.block_size,
    hsize.trans hleft.block_size, hleft.len, hleft.piece_block_size, hleft.piece_len⟩

end

end AmlogicToolkit.Simg
