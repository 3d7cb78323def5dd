import AmlogicToolkit.Simg.Step

/-!
# Runs of the splitting loop

The loop of `sparse_file_resparse` on a list of any blocks, whatever the backing data is. Every
statement about it is derived from what one step can do (`Takes`), along its runs (`Run`). The loop
ends when a block cannot be measured as it ends when all blocks are moved (`resparse_moves_all_iff`),
and it does not end when the room for the first block is less than a block (`resparse_returns_iff`).
-/

namespace AmlogicToolkit.Simg

open Bytes Extents

/-! ## Runs -/

/-- **A run of the loop** of `sparse_file_resparse`: the pieces that its passes have made of a file,
the rest, and whether another pass follows. -/
inductive Run (env : Env) (max_len : UInt32) (in_s : SparseFile) :
    List SparseFile → SparseFile → Bool → Prop
  /-- Before the first pass. -/
  | start : Run env max_len in_s [] in_s true
  /-- One more pass. -/
  | step {ss : List SparseFile} {mid mid' s : SparseFile} {more : Bool}
      (run : Run env max_len in_s ss mid true)
      (pass : moveChunksUpToLen env mid (sparseFileNew mid.block_size mid.len) max_len =
        .ok (more, mid', s)) : Run env max_len in_s (ss ++ [s]) mid' more

/-- `tmp` when the loop has made some pieces: those that `out_s` has no room for. -/
def overflow (in_s : SparseFile) (count : ℕ) (ss : List SparseFile) : SparseFile :=
  (ss.drop count).foldl (fun tmp s => { tmp with backed_block_list :=
    (backedBlockListMove s.backed_block_list tmp.backed_block_list none none).2 })
      (sparseFileNew in_s.block_size in_s.len)

section

variable {env : Env} {max_len : UInt32} {in_s mid s : SparseFile} {ss : List SparseFile}
  {more : Bool} {count fuel c : ℕ} {tmp : SparseFile} {out_s : List SparseFile}

/-- A piece that there is room for goes to `out_s`, and any other to `tmp`. -/
theorem overflow_concat (in_s : SparseFile) (count : ℕ) (ss : List SparseFile) (s : SparseFile) :
    (overflow in_s count (ss ++ [s]), (ss ++ [s]).take count) =
      if ss.length < count then (overflow in_s count ss, ss.take count ++ [s])
      else ({ overflow in_s count ss with backed_block_list :=
        (backedBlockListMove s.backed_block_list (overflow in_s count ss).backed_block_list none
          none).2 }, ss.take count) := by
  unfold overflow
  split_ifs with h
  · have hle : (ss ++ [s]).length ≤ count := by
      rw [List.length_append]
      exact h
    rw [List.drop_of_length_le hle, List.drop_of_length_le (Nat.le_of_lt h),
      List.take_of_length_le hle, List.take_of_length_le (Nat.le_of_lt h)]
  · have hle := Nat.not_lt.mp h
    rw [List.drop_append_of_le_length hle, List.foldl_append, List.take_append_of_le_length hle]
    rfl

/-- **After the passes of a run** the loop goes on with its rest. -/
theorem resparseLoop_run (h : Run env max_len in_s ss mid true) (fuel : ℕ) :
    resparseLoop env max_len count (fuel + ss.length) in_s
        (sparseFileNew in_s.block_size in_s.len) [] 0 =
      resparseLoop env max_len count fuel mid (overflow in_s count ss) (ss.take count)
        ss.length := by
  generalize hb : true = b at h
  induction h generalizing fuel with
  | start =>
    have : overflow in_s count [] = sparseFileNew in_s.block_size in_s.len := by simp [overflow]
    rw [this, List.take_nil]
    rfl
  | @step ss mid mid' s more run pass ih =>
    have hlen : fuel + (ss ++ [s]).length = fuel + 1 + ss.length := by simp; omega
    have hcat := overflow_concat in_s count ss s
    subst hb
    rw [hlen, ih (fuel + 1) rfl, resparseLoop]
    simp only [pass, bind, Except.bind, if_true, ← hcat]
    simp

/-- **When the loop ends** it has made a run. -/
theorem run_of_resparseLoop (hrun : Run env max_len in_s ss mid true)
    {r : SparseFile × SparseFile × List SparseFile × ℕ}
    (h : resparseLoop env max_len count fuel mid (overflow in_s count ss) (ss.take count) ss.length =
      .ok r) :
    ∃ ts, Run env max_len in_s ts r.1 false ∧ r.2.1 = overflow in_s count ts ∧
      r.2.2.1 = ts.take count ∧ r.2.2.2 = ts.length := by
  induction fuel generalizing ss mid with
  | zero => cases h
  | succ fuel ih =>
    rw [resparseLoop] at h
    obtain ⟨⟨more, mid', s⟩, hm, h⟩ := Except.bind_ok_iff.mp h
    have hcat := overflow_concat in_s count ss s
    have hlen : ss.length + 1 = (ss ++ [s]).length := by simp
    simp only [← hcat, hlen] at h
    cases more with
    | true => exact ih (hrun.step hm) h
    | false =>
      cases h
      exact ⟨_, hrun.step hm, rfl, rfl, rfl⟩

/-- **What `sparse_file_resparse` returns**: the first pieces of its run, their number, and a list of
the blocks of the other pieces and of the rest. -/
theorem run_of_sparseFileResparse {r : SparseFile × List SparseFile × ℕ}
    (h : sparseFileResparse env fuel in_s max_len count = .ok r) :
    ∃ ts mid, Run env max_len in_s ts mid false ∧
      r = ({ mid with backed_block_list := (backedBlockListMove
        (overflow in_s count ts).backed_block_list mid.backed_block_list none none).2 },
          ts.take count, ts.length) := by
  obtain ⟨mid, tmp, hl, hr⟩ := sparseFileResparse_ok h
  have hstart : resparseLoop env max_len count fuel in_s (overflow in_s count [])
      (List.take count []) ([] : List SparseFile).length = .ok (mid, tmp, r.2.1, r.2.2) := by
    simpa [overflow] using hl
  obtain ⟨ts, hrun, h1, h2, h3⟩ := run_of_resparseLoop .start hstart
  dsimp only at hrun h1 h2 h3
  rw [h1] at hr
  exact ⟨ts, mid, hrun, by rw [← h2, ← h3, ← hr]⟩

/-- Splicing a segment in keeps all nodes. -/
theorem spliceBb_perm (start_block : UInt32) (segment rest : List BackedBlock) (bb : BackedBlock) :
    (spliceBb start_block segment bb rest).Perm (bb :: rest ++ segment) := by
  induction rest generalizing bb with
  | nil => exact List.Perm.refl _
  | cons c rest ih =>
    rw [spliceBb]
    split_ifs
    · exact List.Perm.cons bb List.perm_append_comm
    · exact List.Perm.cons bb (ih c)

/-- **Moving a whole list** keeps all nodes. -/
theorem backedBlockListMove_perm (src dst : BackedBlockList) :
    (backedBlockListMove src dst none none).2.data_blocks.Perm
      (dst.data_blocks ++ src.data_blocks) := by
  unfold backedBlockListMove cutSegment
  cases hsrc : src.data_blocks with
  | nil => rw [List.append_nil]
  | cons c tail =>
    cases hdst : dst.data_blocks with
    | nil => exact List.Perm.refl _
    | cons d rest => exact spliceBb_perm _ _ _ _

/-- Whatever their order is, the blocks in `out_s` and in `tmp` are those of the pieces. -/
theorem take_overflow_perm (in_s : SparseFile) (count : ℕ) (ss : List SparseFile) :
    ((ss.take count).flatMap SparseFile.blocks ++ (overflow in_s count ss).blocks).Perm
      (ss.flatMap SparseFile.blocks) := by
  have hfold : ∀ (ts : List SparseFile) (tmp : SparseFile), (ts.foldl (fun tmp s => { tmp with
      backed_block_list := (backedBlockListMove s.backed_block_list tmp.backed_block_list none
        none).2 }) tmp).blocks.Perm (tmp.blocks ++ ts.flatMap SparseFile.blocks) := by
    intro ts
    induction ts with
    | nil => exact fun tmp => by rw [List.flatMap_nil, List.append_nil]; exact List.Perm.refl _
    | cons s ts ih =>
      intro tmp
      rw [List.foldl_cons, List.flatMap_cons, ← List.append_assoc]
      exact (ih _).trans ((backedBlockListMove_perm _ _).append_right _)
  have hcat : (ss.take count).flatMap SparseFile.blocks ++
      (ss.drop count).flatMap SparseFile.blocks = ss.flatMap SparseFile.blocks := by
    rw [← List.flatMap_append, List.take_append_drop]
  rw [← hcat]
  exact (hfold _ (sparseFileNew in_s.block_size in_s.len)).append_left _

/-- A run whose counter cannot be set up is one pass that moves nothing. -/
theorem Run.of_large (hlarge : 2 ^ 31 ≤ in_s.block_size.toNat)
    (h : Run env max_len in_s ss mid more) :
    mid = in_s ∧ (more = true → ss = []) ∧
      (more = false → ss = [sparseFileNew in_s.block_size in_s.len]) := by
  induction h with
  | start => exact ⟨rfl, fun _ => rfl, fun h => Bool.noConfusion h⟩
  | step run pass ih =>
    obtain ⟨rfl, hnil, -⟩ := ih
    rw [moveChunksUpToLen_large hlarge] at pass
    cases pass
    rw [hnil rfl]
    exact ⟨rfl, fun h => Bool.noConfusion h, fun _ => rfl⟩

/-- What a call returns when the counter cannot be set up: one piece without blocks. -/
theorem sparseFileResparse_large {r : SparseFile × List SparseFile × ℕ}
    (hlarge : 2 ^ 31 ≤ in_s.block_size.toNat)
    (hr : sparseFileResparse env fuel in_s max_len count = .ok r) :
    r.1.blocks.Perm in_s.blocks ∧ r.1.block_size = in_s.block_size ∧
      r.2.1 = [sparseFileNew in_s.block_size in_s.len].take count ∧ r.2.2 = 1 := by
  obtain ⟨ts, mid, run, rfl⟩ := run_of_sparseFileResparse hr
  obtain ⟨rfl, -, hts⟩ := run.of_large hlarge
  rw [hts rfl]
  refine ⟨(backedBlockListMove_perm _ _).trans ?_, rfl, rfl, rfl⟩
  -- The one piece has no blocks, so no blocks are moved back from it.
  have hperm := take_overflow_perm mid count [sparseFileNew mid.block_size mid.len]
  have hnil : (overflow mid count [sparseFileNew mid.block_size mid.len]).blocks = [] :=
    (List.append_eq_nil_iff.mp (List.perm_nil.mp hperm)).2
  change (mid.blocks ++ (overflow mid count _).blocks).Perm mid.blocks
  rw [hnil, List.append_nil]

/-- **Runs keep** the addresses apart, the block size and the length. -/
theorem Run.linked (hl : Linked [] in_s) (h : Run env max_len in_s ss mid more) :
    Linked (ss.flatMap SparseFile.blocks) mid ∧ mid.block_size = in_s.block_size ∧
      mid.len = in_s.len ∧ ∀ s ∈ ss, s.block_size = in_s.block_size ∧ s.len = in_s.len := by
  induction h with
  | start => exact ⟨hl, rfl, rfl, fun _ h => (nomatch h)⟩
  | @step ss mid mid' s more run pass ih =>
    obtain ⟨h1, h2, h3, h4⟩ := ih
    obtain ⟨-, -, hleft⟩ := moveChunksUpToLen_takes h1 pass
    refine ⟨?_, hleft.block_size.trans h2, hleft.len.trans h3, fun q hq => ?_⟩
    · rw [List.flatMap_append, List.flatMap_singleton]
      exact hleft.linked
    · rcases List.mem_append.mp hq with hq | hq
      · exact h4 q hq
      · rw [List.mem_singleton.mp hq]
        exact ⟨hleft.piece_block_size.trans h2, hleft.piece_len.trans h3⟩

end

/-! ## Failures -/

/-- No pass of the loop fails to measure a block. -/
def Measures (env : Env) (max_len : UInt32) (in_s : SparseFile) : Prop :=
  ∀ ss mid, Run env max_len in_s ss mid true → scan env mid max_len ≠ .failed

/-- What `sparse_file_resparse` returns hides no failure: it is negative when a block could not be
measured, and when it is not negative all blocks have been moved to pieces. -/
def HidesNoFailure (env : Env) (max_len : UInt32) (in_s : SparseFile) (ret : ℤ) : Prop :=
  (¬ Measures env max_len in_s → ret < 0) ∧
    (0 ≤ ret → ∀ ss mid, Run env max_len in_s ss mid false → mid.blocks = [])

section

variable {env : Env} {max_len : UInt32} {in_s mid : SparseFile} {ss : List SparseFile}
  {more : Bool} {count fuel : ℕ} {left taken : List BackedBlock}

/-- A pass over a file without blocks leaves none. -/
theorem Takes.nil (h : Takes env max_len mid more taken left) (hnil : mid.blocks = []) :
    left = [] := by
  cases h with
  | refused => exact hnil
  | failed => exact hnil
  | all => rfl
  | split hblocks =>
    rw [hnil] at hblocks
    exact absurd hblocks.symm (by simp)
  | whole hblocks =>
    rw [hnil] at hblocks
    exact absurd hblocks.symm (by simp)

/-- A run over an empty file leaves it empty. -/
theorem Run.nil (hl : Linked [] in_s) (h : Run env max_len in_s ss mid more)
    (hnil : in_s.blocks = []) : mid.blocks = [] := by
  induction h with
  | start => exact hnil
  | step run pass ih =>
    obtain ⟨-, htakes, -⟩ := moveChunksUpToLen_takes (run.linked hl).1 pass
    exact htakes.nil ih

/-- **A failure is hidden** whenever there is one: `sparse_file_resparse` never returns a negative
value. It hides none exactly when every pass of its loop can measure the blocks that it looks at and
open its counter. -/
theorem resparse_hidesNoFailure_iff (hl : Linked [] in_s)
    {r : SparseFile × List SparseFile × ℕ}
    (hr : sparseFileResparse env fuel in_s max_len count = .ok r) :
    HidesNoFailure env max_len in_s r.2.2 ↔
      Measures env max_len in_s ∧ (in_s.block_size.toNat < 2 ^ 31 ∨ in_s.blocks = []) := by
  have hpos : ¬ (r.2.2 : ℤ) < 0 := Int.not_lt.mpr (Int.natCast_nonneg _)
  constructor
  · rintro ⟨hneg, hmoved⟩
    refine ⟨by_contra fun h => hpos (hneg h), ?_⟩
    obtain ⟨ts, mid, hrun, -⟩ := run_of_sparseFileResparse hr
    by_cases hlarge : 2 ^ 31 ≤ in_s.block_size.toNat
    · right
      obtain ⟨rfl, -⟩ := hrun.of_large hlarge
      exact hmoved (Int.natCast_nonneg _) ts mid hrun
    · exact Or.inl (Nat.not_le.mp hlarge)
  · rintro ⟨hmeas, hbs⟩
    refine ⟨fun h => absurd hmeas h, fun _ ss mid hrun => ?_⟩
    rcases hbs with hbs | hnil
    swap
    · exact hrun.nil hl hnil
    -- The last pass has moved all blocks that it had.
    generalize hfalse : false = b at hrun
    cases hrun with
    | start => cases hfalse
    | @step ss' mid' _ s _ run pass =>
      subst hfalse
      obtain ⟨hlink, hsize, -⟩ := run.linked hl
      obtain ⟨-, htakes, -⟩ := moveChunksUpToLen_takes hlink pass
      generalize hleft : mid.blocks = left at htakes
      generalize s.blocks = taken at htakes
      generalize hmore : false = b at htakes
      cases htakes with
      | refused hlarge =>
        rw [hsize] at hlarge
        exact absurd hlarge (Nat.not_le.mpr hbs)
      | failed hscan => exact absurd hscan (hmeas _ _ run)
      | all => rfl
      | split => cases hmore
      | whole => cases hmore

end

/-- A block of memory, and a block of a file behind it. -/
def missingFile : SparseFile :=
  ⟨4096, 8192, ⟨[⟨0, 0, 4096, .data 0⟩, ⟨1, 1, 4096, .file "gone" 0⟩], none, 4096, 2⟩⟩

/-- Nothing can be opened or mapped. -/
def nothingOpens : Env :=
  ⟨fun _ => 0, fun _ => .error ⟨2, by decide⟩, fun _ _ _ => .error ⟨9, by decide⟩⟩

/-- Every file can be opened, and every mapping is of zeros. -/
def zeros : Env := ⟨fun _ => 0, fun _ => .ok 3, fun _ _ size => .ok (List.replicate size 0)⟩

/-- A file with one block of memory. -/
def oneBlock : SparseFile := ⟨4096, 4096, ⟨[⟨0, 0, 4096, .data 0⟩], none, 4096, 1⟩⟩

/-- The sample file with one block is linked. -/
theorem oneBlock_linked : Linked [] oneBlock := ⟨by decide, by decide, rfl⟩

/-- Three blocks of memory and of a fill, with gaps, of which the first one is larger than a piece. -/
def threeParts : SparseFile :=
  ⟨4096, 32768, ⟨[⟨0, 0, 12288, .data 0⟩, ⟨1, 5, 4096, .fill 7⟩, ⟨2, 7, 4096, .data 0⟩],
    none, 4096, 3⟩⟩

/-- The sample file that takes three pieces is linked. -/
theorem threeParts_linked : Linked [] threeParts := ⟨by decide, by decide, rfl⟩

/-- The first block is split twice, and of the four pieces the last two are put back. -/
theorem resparse_hidesNoFailure_iff_parts :
    HidesNoFailure nothingOpens 8192 threeParts (4 : ℕ) ↔
      Measures nothingOpens 8192 threeParts ∧
        (threeParts.block_size.toNat < 2 ^ 31 ∨ threeParts.blocks = []) :=
  @resparse_hidesNoFailure_iff nothingOpens 8192 threeParts 2 9 threeParts_linked
    (⟨4096, 32768, ⟨[⟨4, 2, 4096, .data 8192⟩, ⟨1, 5, 4096, .fill 7⟩, ⟨2, 7, 0, .data 0⟩,
        ⟨5, 7, 4096, .data 0⟩], none, 4096, 6⟩⟩,
      [⟨4096, 32768, ⟨[⟨0, 0, 4096, .data 0⟩], none, 4096, 4⟩⟩,
        ⟨4096, 32768, ⟨[⟨3, 1, 4096, .data 4096⟩], none, 4096, 5⟩⟩], 4) (by decide +kernel)

/-- When the file cannot be opened, the result is one piece with no blocks. -/
theorem missing_file_is_hidden :
    scan nothingOpens missingFile 0x100000 = .failed ∧
      sparseFileResparse nothingOpens 1 missingFile 0x100000 1 =
        .ok (missingFile, [sparseFileNew 4096 8192], 1) ∧
      ¬ HidesNoFailure nothingOpens 0x100000 missingFile (1 : ℕ) := by
  have hscan : scan nothingOpens missingFile 0x100000 = .failed := rfl
  refine ⟨hscan, by decide +kernel, fun h => ?_⟩
  exact absurd (h.1 fun hm => hm [] _ .start hscan) (by decide)

/-! ## Termination -/

/-- The first block does not fit, and the room for it is less than a block. -/
def Stuck (env : Env) (max_len : UInt32) (src : SparseFile) : Prop :=
  src.block_size.toNat < 2 ^ 31 ∧ max_len - overhead - 12 < src.block_size ∧
    ∃ bb, scan env src max_len = .full none bb 12

section

variable {env : Env} {max_len : UInt32} {in_s src src' mid s : SparseFile} {ss : List SparseFile}
  {more : Bool} {count fuel c : ℕ} {tmp : SparseFile} {out_s : List SparseFile}
  {done left taken post : List BackedBlock} {bb : BackedBlock} {size : ℤ}

/-- A node that does not fit, with none before it, is the first one, and only its header is counted. -/
theorem scan_full_none (h : scan env src max_len = .full none bb size) :
    (∃ post, src.blocks = bb :: post) ∧ size = 12 := by
  unfold scan at h
  cases hl : src.blocks with
  | nil => rw [hl] at h; cases h
  | cons c l =>
    rw [hl] at h
    unfold scanBlocks at h
    dsimp only at h
    generalize sparseFileWriteBlock counter_ops env _ c = r at h
    obtain ⟨ret, out'⟩ := r
    dsimp only at h
    split_ifs at h with hret hfull
    · cases h
      exact ⟨⟨l, rfl⟩, rfl⟩
    · -- Behind the first node there is a node before every other one.
      rcases scanBlocks_cases env src.block_size (max_len - overhead) l (some c) _ _ _ with
        hs | hs | ⟨pre, bb', post, size', -, hs⟩ <;> rw [hs] at h
      · cases h
      · cases h
      · cases hp : pre.getLast? <;> rw [hp] at h <;> cases h

/-- The bytes of the parts of a node that is split, and those of its second part. -/
theorem splitBb_len {bs : UInt32} {addr : ℕ} {r : UInt32} {a : BackedBlock}
    {rest : List BackedBlock} (h : splitBb bs addr bb r = a :: rest) :
    a.len.toNat + totalLen rest = bb.len.toNat ∧ (∀ b ∈ rest, b.len ≠ 0) ∧
      (a.len = 0 → bb.len = 0 ∨ alignDown r bs = 0) := by
  obtain ⟨-, rfl, rfl⟩ | ⟨hcut, rfl, rfl⟩ := splitBb_cases h
  · exact ⟨rfl, fun _ h => (nomatch h), fun h => Or.inl h⟩
  · have hlt : (alignDown r bs).toNat < bb.len.toNat := UInt32.lt_iff_toNat_lt.mp hcut
    have hsub := UInt32.toNat_sub_of_le _ _ (UInt32.le_of_lt hcut)
    refine ⟨?_, fun b hb h0 => ?_, fun h => Or.inr h⟩
    · rw [totalLen_cons, totalLen_nil, hsub]
      change (alignDown r bs).toNat + _ = _
      omega
    · rw [List.mem_singleton.mp hb] at h0
      change bb.len - alignDown r bs = 0 at h0
      rw [h0, UInt32.toNat_zero] at hsub
      omega

/-- Blocks that are not empty have bytes. -/
theorem totalLen_pos {l : List BackedBlock} (hl : l ≠ []) (hne : ∀ c ∈ l, c.len ≠ 0) :
    0 < totalLen l := by
  obtain ⟨c, l', rfl⟩ := List.exists_cons_of_ne_nil hl
  have : 0 < c.len.toNat := toNat_pos_of_ne_zero (hne c List.mem_cons_self)
  rw [totalLen_cons]
  omega

/-- A pass leaves blocks that are not empty. -/
theorem Takes.nonempty (h : Takes env max_len src more taken left)
    (hne : ∀ c ∈ src.blocks, c.len ≠ 0) : ∀ c ∈ left, c.len ≠ 0 := by
  cases h with
  | refused => exact hne
  | failed => exact hne
  | all => exact fun _ h => (nomatch h)
  | @split pre post rest bb a size hblocks hscan hsplits hbb =>
    obtain ⟨-, hrest, -⟩ := splitBb_len hbb
    intro c hc
    rcases List.mem_append.mp hc with hc | hc
    · exact hrest c hc
    · exact hne c (by simp [hblocks, hc])
  | whole hblocks => exact fun c hc => hne c (by simp only [hblocks, List.mem_append, hc, or_true])

/-- A run over blocks that are not empty leaves none that is. -/
theorem Run.nonempty (hl : Linked [] in_s) (hne : ∀ c ∈ in_s.blocks, c.len ≠ 0)
    (h : Run env max_len in_s ss mid more) : ∀ c ∈ mid.blocks, c.len ≠ 0 := by
  induction h with
  | start => exact hne
  | step run pass ih =>
    exact (moveChunksUpToLen_takes (run.linked hl).1 pass).2.1.nonempty ih

/-- **A pass that is not stuck** leaves fewer bytes. -/
theorem Takes.shrinks (h : Takes env max_len src true taken left) (hbs : src.block_size ≠ 0)
    (hlt : src.block_size.toNat < 2 ^ 31) (hne : ∀ c ∈ src.blocks, c.len ≠ 0)
    (hstuck : ¬ Stuck env max_len src) : totalLen left < totalLen src.blocks := by
  generalize hmore : true = b at h
  cases h with
  | refused => cases hmore
  | failed => cases hmore
  | all => cases hmore
  | @split pre post rest bb a size hblocks hscan hsplits hbb =>
    obtain ⟨hsum, -, hzero⟩ := splitBb_len hbb
    rw [hblocks] at hne ⊢
    simp only [totalLen_append, totalLen_cons]
    by_cases hpre : pre = []
    · -- The first block is split at one block or more.
      subst hpre
      have hscan' : scan env src max_len = .full none bb size := hscan
      obtain ⟨-, rfl⟩ := scan_full_none hscan'
      have ha : a.len ≠ 0 := fun h0 => by
        rcases hzero h0 with h0 | h0
        · exact hne bb (by simp) h0
        · have h12 : toU32 (((max_len - overhead).toNat : ℤ) - 12) = max_len - overhead - 12 :=
            toU32_sub _ 12
          rw [h12, alignDown_eq_zero hbs] at h0
          exact hstuck ⟨hlt, h0, bb, hscan'⟩
      have := toNat_pos_of_ne_zero ha
      simp only [totalLen_nil]
      omega
    · -- Blocks before the one that is split have been moved.
      have := totalLen_pos hpre fun c hc => hne c (List.mem_append_left _ hc)
      omega
  -- A pass that splits nothing has moved at least one block.
  | @whole pre post bb size hblocks hpre =>
    rw [hblocks] at hne ⊢
    have := totalLen_pos hpre fun c hc => hne c (List.mem_append_left _ hc)
    rw [totalLen_append]
    omega

/-- Only the block, the length and the source of the first node matter for whether it fits. -/
theorem scan_first {post' : List BackedBlock} {bb' : BackedBlock} (hsrc : src.blocks = bb :: post)
    (hmid : mid.blocks = bb' :: post') (hbs : mid.block_size = src.block_size)
    (hlen : mid.len = src.len) (hblock : bb'.block = bb.block) (hbl : bb'.len = bb.len)
    (hsource : bb'.source = bb.source) (h : scan env src max_len = .full none bb size) :
    scan env mid max_len = .full none bb' 12 := by
  -- What is written for a block does not depend on the block's address.
  have hw : ∀ out : OutputFile ℤ, sparseFileWriteBlock counter_ops env out bb' =
      sparseFileWriteBlock counter_ops env out bb := fun out => by
    unfold sparseFileWriteBlock
    rw [hsource, hbl]
  have hfull := (scan_full_none h).2
  unfold scan at h ⊢
  rw [hsrc] at h
  rw [hmid, hbs, hlen]
  -- The gap before the first block is the same, and so is the size of the first block.
  unfold scanBlocks at h ⊢
  dsimp only at h ⊢
  rw [hblock, hbl, hw]
  generalize sparseFileWriteBlock counter_ops env _ bb = r at h ⊢
  obtain ⟨ret, out'⟩ := r
  dsimp only at h ⊢
  split_ifs at h ⊢ with hret hfits
  · rfl
  · rcases scanBlocks_cases env src.block_size (max_len - overhead) post (some bb) _ _ _ with
      hs | hs | ⟨pre, bb', post, size', -, hs⟩ <;> rw [hs] at h
    · cases h
    · cases h
    · cases hp : pre.getLast? <;> rw [hp] at h <;> cases h

/-- A source that is advanced by nothing stays where it is. -/
theorem BlockSource.advance_zero (source : BlockSource) : source.advance 0 = source := by
  cases source <;> simp [BlockSource.advance]

/-- **A pass that is stuck** is followed by one that is: it splits off a block of no bytes. -/
theorem Takes.stuck (h : Takes env max_len src more taken left)
    (hleft : src'.blocks = left) (hbs : src'.block_size = src.block_size)
    (hlen : src'.len = src.len) (hne : ∀ c ∈ src.blocks.head?, c.len ≠ 0)
    (hstuck : Stuck env max_len src) :
    more = true ∧ Stuck env max_len src' ∧ ∀ c ∈ src'.blocks.head?, c.len ≠ 0 := by
  obtain ⟨hlt, hroom, bb, hfull⟩ := hstuck
  obtain ⟨⟨post, hblocks⟩, -⟩ := scan_full_none hfull
  have hzero : src.block_size ≠ 0 := fun h0 => by
    rw [h0, UInt32.lt_iff_toNat_lt] at hroom
    exact Nat.not_lt_zero _ hroom
  cases h with
  | refused hlarge => exact absurd hlarge (Nat.not_le.mpr hlt)
  | failed hscan => rw [hfull] at hscan; cases hscan
  | all last hscan => rw [hfull] at hscan; cases hscan
  | whole hblocks' hpre hscan =>
    rw [hfull] at hscan
    obtain ⟨hlast, -⟩ := MoveStop.full.inj hscan
    exact absurd (List.getLast?_eq_none_iff.mp hlast.symm) hpre
  | @split pre post' rest bb' a size hblocks' hscan hsplits hbb =>
    rw [hfull] at hscan
    obtain ⟨hlast, rfl, rfl⟩ := MoveStop.full.inj hscan
    obtain rfl := List.getLast?_eq_none_iff.mp hlast.symm
    -- The first part has no bytes, and the second part is the block.
    have h12 : toU32 (((max_len - overhead).toNat : ℤ) - 12) = max_len - overhead - 12 :=
      toU32_sub _ 12
    have hdown := (alignDown_eq_zero hzero).mpr hroom
    have hbne : bb.len ≠ 0 := hne bb (by rw [hblocks]; rfl)
    have hparts := splitBb_cases hbb
    rw [h12, hdown] at hparts
    obtain ⟨h0, -⟩ | ⟨-, -, rfl⟩ := hparts
    · exact absurd (UInt32.le_zero_iff.mp h0) hbne
    rw [hblocks] at hblocks'
    obtain ⟨-, rfl⟩ := List.cons.inj hblocks'
    have hsrc' : src'.blocks = ⟨src.backed_block_list.next_addr, bb.block + 0 / src.block_size,
        bb.len - 0, bb.source.advance (0 : UInt32).toNat⟩ :: post := hleft
    have hdiv : bb.block + 0 / src.block_size = bb.block := by
      rw [UInt32.zero_div, UInt32.add_zero]
    refine ⟨rfl, ⟨hbs ▸ hlt, hbs ▸ hroom, _, scan_first hblocks hsrc' hbs hlen hdiv
      (UInt32.sub_zero _) (BlockSource.advance_zero _) hfull⟩, fun c hc => ?_⟩
    rw [hsrc'] at hc
    obtain rfl := Option.some.inj hc
    exact fun h0 => hbne ((UInt32.sub_zero _).symm.trans h0)

/-- A loop that is stuck does not end. -/
theorem resparseLoop_stuck (hl : Linked done src) (hne : ∀ c ∈ src.blocks.head?, c.len ≠ 0)
    (hstuck : Stuck env max_len src) :
    resparseLoop env max_len count fuel src tmp out_s c = .error .diverges := by
  induction fuel generalizing src done tmp out_s c with
  | zero => rfl
  | succ fuel ih =>
    have hbs : src.block_size ≠ 0 := fun h0 => by
      have := hstuck.2.1
      rw [h0, UInt32.lt_iff_toNat_lt] at this
      exact Nat.not_lt_zero _ this
    obtain ⟨⟨more, src', s⟩, hm⟩ := @moveChunksUpToLen_ok env max_len src hbs
    obtain ⟨-, htakes, hleft⟩ := moveChunksUpToLen_takes hl hm
    obtain ⟨rfl, hstuck', hne'⟩ := htakes.stuck rfl hleft.block_size hleft.len hne hstuck
    rw [resparseLoop]
    simp only [hm, bind, Except.bind, if_true]
    exact ih hleft.linked hne' hstuck'

/-- More passes than it takes do no harm. -/
theorem resparseLoop_mono {r : SparseFile × SparseFile × List SparseFile × ℕ}
    (h : resparseLoop env max_len count fuel src tmp out_s c = .ok r) (k : ℕ) :
    resparseLoop env max_len count (fuel + k) src tmp out_s c = .ok r := by
  induction fuel generalizing src tmp out_s c with
  | zero => cases h
  | succ fuel ih =>
    rw [Nat.add_right_comm]
    rw [resparseLoop] at h ⊢
    obtain ⟨⟨more, src', s⟩, hm, h⟩ := Except.bind_ok_iff.mp h
    refine Except.bind_ok_iff.mpr ⟨_, hm, ?_⟩
    cases more with
    | true => exact ih h
    | false => exact h

/-- **A loop that never gets stuck ends**: every pass leaves fewer bytes. -/
theorem resparseLoop_ends (hrun : Run env max_len in_s ss mid true) (hl : Linked [] in_s)
    (hbs : in_s.block_size ≠ 0) (hne : ∀ c ∈ mid.blocks, c.len ≠ 0)
    (hfree : ∀ ss mid, Run env max_len in_s ss mid true → ¬ Stuck env max_len mid) :
    ∃ fuel, ∀ tmp out_s c, ∃ r, resparseLoop env max_len count fuel mid tmp out_s c = .ok r := by
  generalize hn : totalLen mid.blocks = n
  -- The induction is on the bytes that remain.
  induction n using Nat.strong_induction_on generalizing ss mid with
  | _ n ih =>
    obtain ⟨hlink, hsize, -⟩ := hrun.linked hl
    obtain ⟨⟨more, mid', s⟩, hm⟩ := @moveChunksUpToLen_ok env max_len mid (hsize ▸ hbs)
    -- A pass always returns.
    obtain ⟨-, htakes, -⟩ := moveChunksUpToLen_takes hlink hm
    cases more with
    -- The last pass ends the loop.
    | false =>
      refine ⟨1, fun tmp out_s c => ?_⟩
      rw [resparseLoop]
      simp only [hm, bind, Except.bind]
      exact ⟨_, rfl⟩
    | true =>
      -- A pass that leaves blocks behind moves some of their bytes.
      have hlt : mid.block_size.toNat < 2 ^ 31 := by
        by_contra hlarge
        rw [moveChunksUpToLen_large (Nat.not_lt.mp hlarge)] at hm
        cases hm
      have hless := htakes.shrinks (hsize ▸ hbs) hlt hne (hfree _ _ hrun)
      obtain ⟨fuel, hfuel⟩ := ih _ (hn ▸ hless) (hrun.step hm) (htakes.nonempty hne) rfl
      refine ⟨fuel + 1, fun tmp out_s c => ?_⟩
      rw [resparseLoop]
      simp only [hm, bind, Except.bind, if_true]
      exact hfuel _ _ _

/-- **A call that returns** is not stuck at a block that is not empty. -/
theorem not_stuck_of_returns (hl : Linked [] in_s) {r : SparseFile × List SparseFile × ℕ}
    (hr : sparseFileResparse env fuel in_s max_len count = .ok r)
    (hrun : Run env max_len in_s ss mid true) (hne : ∀ c ∈ mid.blocks.head?, c.len ≠ 0) :
    ¬ Stuck env max_len mid := by
  intro hstuck
  obtain ⟨s, tmp, hq, -⟩ := sparseFileResparse_ok hr
  have hmono := resparseLoop_mono hq ss.length
  rw [resparseLoop_run hrun, resparseLoop_stuck (hrun.linked hl).1 hne hstuck] at hmono
  cases hmono

/-- **Termination.** On blocks that are not empty, the loop of `sparse_file_resparse` ends after
finitely many passes exactly when the block size is not zero and no pass finds a first block that
does not fit with less than a block of room for it. -/
theorem resparse_returns_iff (hl : Linked [] in_s) (hne : ∀ c ∈ in_s.blocks, c.len ≠ 0) :
    (∃ fuel r, sparseFileResparse env fuel in_s max_len count = .ok r) ↔
      in_s.block_size ≠ 0 ∧
        ∀ ss mid, Run env max_len in_s ss mid true → ¬ Stuck env max_len mid := by
  constructor
  · rintro ⟨fuel, r, hr⟩
    refine ⟨?_, fun ss mid hrun => not_stuck_of_returns hl hr hrun fun c hc =>
      hrun.nonempty hl hne c (List.mem_of_mem_head? hc)⟩
    obtain ⟨s, tmp, hq, -⟩ := sparseFileResparse_ok hr
    cases fuel with
    | zero => cases hq
    | succ fuel =>
      rw [resparseLoop] at hq
      obtain ⟨⟨more, src', s⟩, hm, -⟩ := Except.bind_ok_iff.mp hq
      exact (moveChunksUpToLen_takes hl hm).1
  · rintro ⟨hbs, hfree⟩
    obtain ⟨fuel, hfuel⟩ := @resparseLoop_ends env max_len in_s in_s [] count .start hl hbs hne hfree
    obtain ⟨⟨mid, tmp, out_s, c⟩, hr⟩ := hfuel (sparseFileNew in_s.block_size in_s.len) [] 0
    refine ⟨fuel, ({ mid with backed_block_list := (backedBlockListMove tmp.backed_block_list
      mid.backed_block_list none none).2 }, out_s, c), ?_⟩
    unfold sparseFileResparse
    simp only [hr, bind, Except.bind]
    rfl

/-- With room for a chunk header and a block the loop never gets stuck. -/
theorem not_stuck_of_room (h : src.block_size ≤ max_len - overhead - 12) :
    ¬ Stuck env max_len src := fun hstuck => UInt32.not_lt.mpr h hstuck.2.1

end

/-- Every piece of the three blocks has room for one of 4096 bytes. -/
theorem resparse_returns_iff_parts :
    ∃ fuel r, sparseFileResparse nothingOpens fuel threeParts 8192 2 = .ok r := by
  refine (resparse_returns_iff threeParts_linked (by decide)).mpr ⟨by decide, fun ss mid run => ?_⟩
  refine not_stuck_of_room ?_
  rw [(run.linked threeParts_linked).2.1]
  decide

/-- One block, with a limit of 4096 bytes: the loop splits off empty blocks for ever. -/
theorem small_limit_diverges :
    ¬ ∃ fuel r, sparseFileResparse nothingOpens fuel oneBlock 4096 1 = .ok r := by
  have hstuck : Stuck nothingOpens 4096 oneBlock :=
    ⟨by decide, by decide, ⟨0, 0, 4096, .data 0⟩, rfl⟩
  rintro ⟨fuel, r, h⟩
  unfold sparseFileResparse at h
  rw [resparseLoop_stuck oneBlock_linked (fun c hc => by
    obtain rfl := Option.some.inj hc
    decide) hstuck] at h
  cases h

end AmlogicToolkit.Simg
