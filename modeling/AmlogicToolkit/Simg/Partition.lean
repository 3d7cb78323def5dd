import AmlogicToolkit.Simg.Runs

/-!
# Splitting is a partition

As long as no block number wraps, the pieces in `out_s`, the pieces that have gone through `tmp` and
the rest make up, after every pass of the loop of `sparse_file_resparse`, the list that there was: in
order, without overlaps and with the same bytes. `backed_block_split` computes the number of the
second part in 32 bits; once it wraps, the last bytes of the block that was split are lost, and they
stay lost (`resparse_partitions_iff`).

A split of a node at a whole number of blocks, none included, makes two nodes that describe what it
did, and a list that starts behind another one is moved to its end.
-/

namespace AmlogicToolkit.Simg

open Bytes Extents

/-- A list is a partition of another one: its blocks are in non-decreasing order and do not overlap,
and it describes the same map. -/
structure Partitions (bs : UInt32) (l l' : List BackedBlock) : Prop where
  /-- The blocks are in order. -/
  order : l'.Pairwise fun a b => a.block ≤ b.block
  /-- No block ends after a later one starts. -/
  disjoint : Disjoint bs l'
  /-- The map is the same. -/
  same : SameMap bs l l'

/-- **A pass splits a block**: `bb`, in front of the blocks of `post`, does not fit, and is cut behind
its first `len` bytes. -/
def SplitsOff (env : Env) (max_len : UInt32) (src : SparseFile) (bb : BackedBlock)
    (post : List BackedBlock) (len : UInt32) : Prop :=
  src.block_size.toNat < 2 ^ 31 ∧ ∃ pre size, src.blocks = pre ++ bb :: post ∧
    scan env src max_len = .full pre.getLast? bb size ∧
    splits (max_len - overhead) pre.getLast? size ∧
    len = alignDown (toU32 ((max_len - overhead).toNat - size)) src.block_size ∧ len < bb.len

/-- **No block number wraps** in a pass: when it splits a block, the second part starts below block
`2^32`. -/
def KeepsNumbers (env : Env) (max_len : UInt32) (src : SparseFile) : Prop :=
  ∀ bb post len, SplitsOff env max_len src bb post len →
    bb.block.toNat + len.toNat / src.block_size.toNat < 2 ^ 32

section

variable {env : Env} {max_len bs : UInt32} {in_s src mid tmp : SparseFile} {ss : List SparseFile}
  {more : Bool} {count fuel : ℕ} {done taken left l : List BackedBlock}

/-- Blocks that do not overlap are in order. -/
theorem Disjoint.order (hbs : bs ≠ 0) (h : Disjoint bs l) :
    l.Pairwise fun a b => a.block ≤ b.block := by
  have hpos : 0 < bs.toNat := toNat_pos_of_ne_zero hbs
  refine h.imp fun {a b} hab => UInt32.le_iff_toNat_le.mpr ?_
  rw [Before, BackedBlock.extent_stop, BackedBlock.extent_start] at hab
  exact Nat.le_of_mul_le_mul_right ((Nat.le_add_right _ _).trans hab) hpos

/-- The two parts of a node that is split at whole blocks, when the number of the second one wraps:
the first part ends at the position where the second one should start, and the second one lies below
block `2^32`. -/
theorem stop_of_wrap {bb : BackedBlock} {m : UInt32} (hdvd : bs.toNat ∣ m.toNat)
    (hlt : m.toNat < bb.len.toNat) (hwrap : 2 ^ 32 ≤ bb.block.toNat + m.toNat / bs.toNat) :
    2 ^ 32 * bs.toNat ≤ bb.block.toNat * bs.toNat + m.toNat ∧
      (bb.block + m / bs).toNat * bs.toNat + (bb.len - m).toNat < 2 ^ 32 * bs.toNat := by
  have hpos : 0 < bs.toNat := Nat.pos_of_ne_zero fun h0 => by
    rw [h0, Nat.div_zero] at hwrap
    exact absurd bb.block.toNat_lt (Nat.not_lt.mpr hwrap)
  obtain ⟨q, hq⟩ := hdvd
  have hdiv : m.toNat / bs.toNat = q := by rw [hq, Nat.mul_div_cancel_left _ hpos]
  have hsub : (bb.len - m).toNat = bb.len.toNat - m.toNat :=
    UInt32.toNat_sub_of_le _ _ (UInt32.le_iff_toNat_le.mpr (Nat.le_of_lt hlt))
  have hlen := bb.len.toNat_lt
  have hblock := bb.block.toNat_lt
  have hone : 2 ^ 32 ≤ 2 ^ 32 * bs.toNat := Nat.le_mul_of_pos_right _ hpos
  have hmq : m.toNat = q * bs.toNat := by rw [hq, Nat.mul_comm]
  rw [hdiv] at hwrap
  have hnumber : (bb.block + m / bs).toNat = bb.block.toNat + q - 2 ^ 32 := by
    have hql : q ≤ m.toNat := hmq ▸ Nat.le_mul_of_pos_right _ hpos
    rw [UInt32.toNat_add, UInt32.toNat_div, hdiv]
    omega
  constructor
  · rw [hmq, ← Nat.add_mul]
    exact Nat.mul_le_mul_right _ hwrap
  -- The number has wrapped to less than `q`.
  · have hle : (bb.block + m / bs).toNat * bs.toNat ≤ q * bs.toNat :=
      Nat.mul_le_mul_right _ (by omega)
    rw [hsub]
    omega

/-- **Behind block `2^32`** a pass covers nothing that was not covered. -/
theorem Takes.cells_high (h : Takes env max_len src more taken left) (hbs : src.block_size ≠ 0) {p : ℕ}
    (hp : 2 ^ 32 * src.block_size.toNat ≤ p)
    (hmem : p ∈ cells (extents src.block_size (taken ++ left))) :
    p ∈ cells (extents src.block_size src.blocks) := by
  cases h with
  | refused => exact hmem
  | failed => exact hmem
  | all => rwa [List.append_nil] at hmem
  | whole hblocks => rwa [hblocks]
  | @split pre post rest bb a size hblocks hscan hsplits hbb =>
    rw [hblocks]
    rcases splitBb_cases hbb with ⟨-, rfl, rfl⟩ | ⟨hcut, rfl, rfl⟩
    · simpa using hmem
    · have hdvd := alignDown_dvd (toU32 ((max_len - overhead).toNat - size)) src.block_size
      have hlt := UInt32.lt_iff_toNat_lt.mp hcut
      generalize alignDown (toU32 ((max_len - overhead).toNat - size)) src.block_size = m at *
      rw [mem_cells] at hmem ⊢
      obtain ⟨e, he, h1, h2⟩ := hmem
      obtain ⟨c, hc, rfl⟩ := List.mem_map.mp he
      simp only [List.append_assoc, List.singleton_append, List.mem_append, List.mem_cons] at hc
      have hself : ∀ {d}, d ∈ pre ++ bb :: post → (d.extent src.block_size).start ≤ p →
          p < (d.extent src.block_size).stop →
          ∃ e ∈ extents src.block_size (pre ++ bb :: post), e.start ≤ p ∧ p < e.stop :=
        fun hd h3 h4 => ⟨_, List.mem_map_of_mem hd, h3, h4⟩
      rcases hc with hc | rfl | rfl | hc
      · exact hself (by simp [hc]) h1 h2
      · refine hself (d := bb) (by simp) h1 ?_
        simp only [BackedBlock.extent_stop] at h2 ⊢
        omega
      -- The second part goes on in the node, or lies below.
      · by_cases hwrap : bb.block.toNat + m.toNat / src.block_size.toNat < 2 ^ 32
        · obtain ⟨hcont, hjoin⟩ := continues_of_cut hbs hdvd hlt hwrap src.backed_block_list.next_addr
          obtain ⟨-, hstop⟩ := stop_cut hcont hjoin
          have hstart := hcont.stop_eq
          refine hself (d := bb) (by simp) ?_ (hstop ▸ h2)
          rw [← hstart] at h1
          simp only [Extent.stop, BackedBlock.extent_start] at h1 ⊢
          omega
        · obtain ⟨-, hbelow⟩ := stop_of_wrap hdvd hlt (Nat.not_lt.mp hwrap)
          simp only [BackedBlock.extent_stop] at h2
          omega
      · exact hself (by simp [hc]) h1 h2

/-- **A split whose second part wraps** loses a position behind block `2^32`. -/
theorem Takes.loses (h : Takes env max_len src more taken left)
    (hd : Disjoint src.block_size (done ++ src.blocks)) {bb : BackedBlock}
    {post : List BackedBlock} {m : UInt32} (hs : SplitsOff env max_len src bb post m)
    (hwrap : 2 ^ 32 ≤ bb.block.toNat + m.toNat / src.block_size.toNat) :
    ∃ p, 2 ^ 32 * src.block_size.toNat ≤ p ∧
      p ∈ cells (extents src.block_size (done ++ src.blocks)) ∧
      p ∉ cells (extents src.block_size (done ++ (taken ++ left))) := by
  obtain ⟨hlarge, pre, size, -, hscan, hsplits, hm, hlt⟩ := hs
  -- Only a pass that splits a block can lose bytes, and it is the block the scan stopped at.
  cases h with
  | refused hbs => exact absurd hlarge (Nat.not_lt.mpr hbs)
  | failed hfail => rw [hscan] at hfail; cases hfail
  | all last hall => rw [hscan] at hall; cases hall
  | whole hblocks hpre hscan' hnot =>
    rw [hscan] at hscan'
    obtain ⟨hlast, rfl, rfl⟩ := MoveStop.full.inj hscan'
    rw [hlast] at hsplits
    exact absurd hsplits hnot
  | @split pre' post' rest bb' a size' hblocks hscan' hsplits' hbb =>
    rw [hscan] at hscan'
    obtain ⟨-, rfl, rfl⟩ := MoveStop.full.inj hscan'
    have hdvd : src.block_size.toNat ∣ m.toNat := hm ▸ alignDown_dvd _ _
    have hlt' := UInt32.lt_iff_toNat_lt.mp hlt
    -- The byte right behind the first part is at block number 2^32 or above.
    obtain ⟨hhigh, hbelow⟩ := stop_of_wrap hdvd hlt' hwrap
    have hparts := splitBb_cases hbb
    rw [← hm] at hparts
    obtain ⟨hle, -⟩ | ⟨-, rfl, rfl⟩ := hparts
    · exact absurd hlt (UInt32.not_lt.mpr hle)
    -- The block held this byte before the pass.
    refine ⟨bb.block.toNat * src.block_size.toNat + m.toNat, hhigh, ?_, fun hmem => ?_⟩
    · refine mem_cells.mpr ⟨bb.extent src.block_size, List.mem_map_of_mem (by simp [hblocks]), ?_, ?_⟩
      · simp only [BackedBlock.extent_start]
        omega
      · simp only [BackedBlock.extent_stop]
        omega
    · -- Behind the pass nothing holds it: the blocks around the cut lie beside it, the first part
      -- ends before it, and the second part starts at a block number that has wrapped.
      obtain ⟨e, he, h1, h2⟩ := mem_cells.mp hmem
      obtain ⟨c, hc, rfl⟩ := List.mem_map.mp he
      simp only [BackedBlock.extent_start, BackedBlock.extent_stop] at h1 h2
      rw [hblocks, ← List.append_assoc] at hd
      obtain ⟨-, htail, hbefore⟩ := List.pairwise_append.mp hd
      have hin : ∀ d ∈ done ++ pre', Before (d.extent src.block_size) (bb.extent src.block_size) :=
        fun d hd => hbefore d hd bb List.mem_cons_self
      have hout := (List.pairwise_cons.mp htail).1
      simp only [Before, BackedBlock.extent_start, BackedBlock.extent_stop] at hin hout
      simp only [List.append_assoc, List.singleton_append, List.mem_append, List.mem_cons] at hc
      rcases hc with hc | hc | rfl | rfl | hc
      · have := hin c (by simp [hc])
        omega
      · have := hin c (by simp [hc])
        omega
      · dsimp only at h2
        omega
      · dsimp only at h2
        omega
      · have := hout c hc
        omega

/-- **What a pass takes and leaves**, when no number wraps: the blocks lie apart as before, and
describe the same map. -/
theorem Takes.partition (h : Takes env max_len src more taken left) (hbs : src.block_size ≠ 0)
    (hlarge : src.block_size.toNat < 2 ^ 31) (hkeeps : KeepsNumbers env max_len src) :
    (Disjoint src.block_size (done ++ src.blocks) →
        Disjoint src.block_size (done ++ (taken ++ left))) ∧
      SameMap src.block_size (done ++ src.blocks) (done ++ (taken ++ left)) := by
  cases h with
  | refused => exact ⟨id, SameMap.refl _ _⟩
  | failed => exact ⟨id, SameMap.refl _ _⟩
  | all => rw [List.append_nil]; exact ⟨id, SameMap.refl _ _⟩
  | whole hblocks => rw [hblocks]; exact ⟨id, SameMap.refl _ _⟩
  -- The two parts of the block take its place, and they continue each other.
  | @split pre post rest bb a size hblocks hscan hsplits hbb =>
    have hsrc : done ++ src.blocks = done ++ pre ++ bb :: post := by
      rw [hblocks, List.append_assoc]
    have hcat : done ++ (pre ++ [a] ++ (rest ++ post)) = done ++ pre ++ a :: (rest ++ post) := by
      simp
    rw [hsrc, hcat]
    rcases splitBb_cases hbb with ⟨-, rfl, rfl⟩ | ⟨hcut, rfl, rfl⟩
    · exact ⟨id, SameMap.refl _ _⟩
    · obtain ⟨hcont, hjoin⟩ := continues_of_cut hbs (alignDown_dvd _ _)
        (UInt32.lt_iff_toNat_lt.mp hcut)
        (hkeeps bb post _ ⟨hlarge, pre, size, hblocks, hscan, hsplits, rfl, hcut⟩)
        src.backed_block_list.next_addr
      exact ⟨disjoint_cut hcont hjoin, sameMap_cut hcont hjoin⟩

/-- **Along a run** in which no number wraps, the pieces and the rest are a partition of the list. -/
theorem Run.partition (hl : Linked [] in_s) (h : Run env max_len in_s ss mid more)
    (hkeeps : ∀ ss' mid', Run env max_len in_s ss' mid' true → ss'.length < ss.length →
      KeepsNumbers env max_len mid') :
    (Disjoint in_s.block_size in_s.blocks →
        Disjoint in_s.block_size (ss.flatMap SparseFile.blocks ++ mid.blocks)) ∧
      SameMap in_s.block_size in_s.blocks (ss.flatMap SparseFile.blocks ++ mid.blocks) := by
  induction h with
  | start => exact ⟨id, SameMap.refl _ _⟩
  | @step ss mid mid' s more run pass ih =>
    have hlength : (ss ++ [s]).length = ss.length + 1 := by simp
    rw [hlength] at hkeeps
    obtain ⟨h1, h2⟩ := ih fun ss' mid' hrun hlt => hkeeps ss' mid' hrun (Nat.lt_succ_of_lt hlt)
    obtain ⟨hlink, hsize, -⟩ := run.linked hl
    obtain ⟨hbs, htakes, -⟩ := moveChunksUpToLen_takes hlink pass
    rw [List.flatMap_append, List.flatMap_singleton, List.append_assoc]
    by_cases hlarge : 2 ^ 31 ≤ mid.block_size.toNat
    -- The counter cannot be set up, and nothing is moved.
    · rw [moveChunksUpToLen_large hlarge] at pass
      cases pass
      exact ⟨h1, h2⟩
    · rw [← hsize] at h1 h2 ⊢
      obtain ⟨h3, h4⟩ := @Takes.partition env max_len mid more (ss.flatMap SparseFile.blocks) _ _
        htakes hbs (Nat.not_le.mp hlarge) (hkeeps ss mid run (Nat.lt_succ_self _))
      exact ⟨fun hd => h3 (h1 hd), h2.trans h4⟩

/-- Runs of as many passes have come as far: the passes are determined by the file. -/
theorem Run.unique {ss' : List SparseFile} {mid' : SparseFile} {more' : Bool}
    (h : Run env max_len in_s ss mid more) (h' : Run env max_len in_s ss' mid' more')
    (hlen : ss'.length = ss.length) : ss' = ss ∧ mid' = mid ∧ more' = more := by
  induction h generalizing ss' mid' more' with
  | start =>
    cases h' with
    | start => exact ⟨rfl, rfl, rfl⟩
    | step => simp at hlen
  | step run pass ih =>
    cases h' with
    | start => simp at hlen
    | step run' pass' =>
      obtain ⟨rfl, rfl, -⟩ := ih run' (by simpa using hlen)
      rw [pass] at pass'
      cases pass'
      exact ⟨rfl, rfl, rfl⟩

/-- A run that has ended is longer than any that goes on. -/
theorem Run.shorter {ss' : List SparseFile} {mid' : SparseFile}
    (h : Run env max_len in_s ss mid false) (h' : Run env max_len in_s ss' mid' true) :
    ss'.length < ss.length := by
  generalize hb : true = b at h'
  induction h' with
  | start =>
    cases ss with
    | nil =>
      generalize hf : false = b at h
      generalize hn : [] = ss at h
      cases h with
      | start => cases hf
      | step => simp at hn
    | cons s ss => exact Nat.succ_pos _
  | @step ss' mid₁ mid' s more run pass ih =>
    subst hb
    have hlt := ih rfl
    have hlength : (ss' ++ [s]).length = ss'.length + 1 := by simp
    refine lt_of_le_of_ne (hlength ▸ hlt) fun heq => ?_
    obtain ⟨-, -, hmore⟩ := h.unique (run.step pass) heq
    cases hmore

/-- **What a wrap has lost** stays lost: after a pass in which a number has wrapped, some position is
covered by no block any more. -/
theorem Run.loses (hl : Linked [] in_s) (hd : Disjoint in_s.block_size in_s.blocks)
    (h : Run env max_len in_s ss mid more) {ss' : List SparseFile} {mid' : SparseFile}
    (hrun' : Run env max_len in_s ss' mid' true) (hlt : ss'.length < ss.length)
    (hnot : ¬ KeepsNumbers env max_len mid') :
    ∃ p, 2 ^ 32 * in_s.block_size.toNat ≤ p ∧
      p ∈ cells (extents in_s.block_size in_s.blocks) ∧
      p ∉ cells (extents in_s.block_size (ss.flatMap SparseFile.blocks ++ mid.blocks)) := by
  induction h generalizing ss' mid' with
  | start => simp at hlt
  | @step ss mid mid₂ s more run pass ih =>
    have hlength : (ss ++ [s]).length = ss.length + 1 := by simp
    obtain ⟨hlink, hsize, -⟩ := run.linked hl
    obtain ⟨hbs, htakes, -⟩ := moveChunksUpToLen_takes hlink pass
    rw [List.flatMap_append, List.flatMap_singleton, List.append_assoc]
    by_cases hearly : ∃ ss₀ mid₀, Run env max_len in_s ss₀ mid₀ true ∧ ss₀.length < ss.length ∧
        ¬ KeepsNumbers env max_len mid₀
    · obtain ⟨ss₀, mid₀, hrun₀, hlt₀, hnot₀⟩ := hearly
      obtain ⟨p, hp, hin, hout⟩ := ih hrun₀ hlt₀ hnot₀
      refine ⟨p, hp, hin, fun hmem => hout ?_⟩
      rw [extents, List.map_append, mem_cells_append] at hmem ⊢
      rw [← hsize] at hp hmem ⊢
      exact hmem.imp id (htakes.cells_high hbs hp)
    -- The pass is the first one in which a number wraps.
    · have hkeeps : ∀ ss₀ mid₀, Run env max_len in_s ss₀ mid₀ true → ss₀.length < ss.length →
          KeepsNumbers env max_len mid₀ := fun ss₀ mid₀ hrun₀ hlt₀ =>
        by_contra fun hnot₀ => hearly ⟨ss₀, mid₀, hrun₀, hlt₀, hnot₀⟩
      have hlast : ss'.length = ss.length := by
        by_contra hne
        exact hnot (hkeeps ss' mid' hrun' (by omega))
      obtain ⟨rfl, rfl, -⟩ := run.unique hrun' hlast
      obtain ⟨h1, h2⟩ := run.partition hl hkeeps
      rw [← hsize] at h1 h2 hd ⊢
      simp only [KeepsNumbers, not_forall, Nat.not_lt] at hnot
      obtain ⟨bb, post, m, hsplit, hwrap⟩ := hnot
      obtain ⟨p, hp, hin, hout⟩ := htakes.loses (h1 hd) hsplit hwrap
      refine ⟨p, hp, ?_, hout⟩
      obtain ⟨x, hx⟩ := (mem_cells_iff_described BlockSource.label).mp hin
      exact (mem_cells_iff_described BlockSource.label).mpr ⟨x, (h2 p x).mpr hx⟩

/-- **Moving pieces to `tmp`**, in order, puts their blocks one behind the other. -/
theorem foldl_move_blocks {ts : List SparseFile}
    (h : (tmp.blocks ++ ts.flatMap SparseFile.blocks).Pairwise fun a b => a.block ≤ b.block) :
    (ts.foldl (fun tmp s => { tmp with backed_block_list :=
      (backedBlockListMove s.backed_block_list tmp.backed_block_list none none).2 }) tmp).blocks =
        tmp.blocks ++ ts.flatMap SparseFile.blocks := by
  induction ts generalizing tmp with
  | nil => rw [List.flatMap_nil, List.append_nil]; rfl
  | cons s ts ih =>
    rw [List.flatMap_cons, ← List.append_assoc] at h
    have hmove := (@backedBlockListMove_append s.backed_block_list tmp.backed_block_list
      (h.sublist (List.sublist_append_left _ _))).1
    rw [List.foldl_cons, ih]
    · change (backedBlockListMove s.backed_block_list tmp.backed_block_list none none).2.data_blocks ++
        _ = _
      rw [hmove, List.flatMap_cons, ← List.append_assoc]
      rfl
    · change ((backedBlockListMove s.backed_block_list tmp.backed_block_list none
        none).2.data_blocks ++ _).Pairwise _
      rw [hmove]
      exact h

/-- The blocks in `out_s` and in `tmp` are those of all pieces. -/
theorem take_overflow_blocks
    (h : (ss.flatMap SparseFile.blocks).Pairwise fun a b => a.block ≤ b.block) :
    (ss.take count).flatMap SparseFile.blocks ++ (overflow in_s count ss).blocks =
      ss.flatMap SparseFile.blocks := by
  have hcat : (ss.take count).flatMap SparseFile.blocks ++
      (ss.drop count).flatMap SparseFile.blocks = ss.flatMap SparseFile.blocks := by
    rw [← List.flatMap_append, List.take_append_drop]
  have hdrop : ((ss.drop count).flatMap SparseFile.blocks).Pairwise fun a b => a.block ≤ b.block :=
    h.sublist (hcat ▸ List.sublist_append_right _ _)
  have hmove := @foldl_move_blocks (sparseFileNew in_s.block_size in_s.len) (ss.drop count) hdrop
  rw [overflow, hmove]
  exact hcat

/-- When the loop has ended, what is left and what went through `tmp` are put together in some order. -/
theorem returned_perm (in_s mid : SparseFile) (count : ℕ) (ts : List SparseFile) :
    ((ts.take count).flatMap SparseFile.blocks ++ (backedBlockListMove
      (overflow in_s count ts).backed_block_list mid.backed_block_list none none).2.data_blocks).Perm
        ((ts.take count).flatMap SparseFile.blocks ++ (overflow in_s count ts).blocks ++
          mid.blocks) := by
  rw [List.append_assoc]
  exact ((backedBlockListMove_perm _ _).trans List.perm_append_comm).append_left _

/-- A list that describes the same map covers the same positions. -/
theorem SameMap.cells {l' : List BackedBlock} (h : SameMap bs l l') {p : ℕ}
    (hp : p ∈ cells (extents bs l)) : p ∈ Extents.cells (extents bs l') := by
  obtain ⟨x, hx⟩ := (mem_cells_iff_described BlockSource.label).mp hp
  exact (mem_cells_iff_described BlockSource.label).mpr ⟨x, (h p x).mp hx⟩

/-- **A partition after each pass**, exactly when no number has wrapped: the blocks of `out_s`, of
`tmp` and of `in_s`. -/
theorem Run.partitions_iff (hl : Linked [] in_s) (hs : Sorted in_s.blocks)
    (hd : Disjoint in_s.block_size in_s.blocks) (h : Run env max_len in_s ss mid more) :
    Partitions in_s.block_size in_s.blocks ((ss.take count).flatMap SparseFile.blocks ++
        (overflow in_s count ss).blocks ++ mid.blocks) ↔
      ∀ ss' mid', Run env max_len in_s ss' mid' true → ss'.length < ss.length →
        KeepsNumbers env max_len mid' := by
  constructor
  · -- A pass that splits a block over block number 2^32 loses a byte for good.
    intro hpart ss' mid' hrun' hlt
    by_contra hnot
    obtain ⟨p, -, hin, hout⟩ := h.loses hl hd hrun' hlt hnot
    have hmem := hpart.same.cells hin
    have hperm := (take_overflow_perm in_s count ss).append_right mid.blocks
    rw [mem_cells] at hmem
    obtain ⟨e, he, h1⟩ := hmem
    exact hout (mem_cells.mpr ⟨e, (hperm.map _).mem_iff.mp he, h1⟩)
  · -- Where no pass does, the pieces, put together, are the blocks in their order.
    intro hkeeps
    obtain ⟨h1, h3⟩ := h.partition hl hkeeps
    have horder : (ss.flatMap SparseFile.blocks ++ mid.blocks).Pairwise
        fun a b => a.block ≤ b.block := by
      cases h with
      | start => exact hs.imp UInt32.le_of_lt
      | step run pass =>
        obtain ⟨hlink, hsize, -⟩ := run.linked hl
        exact (h1 hd).order (hsize ▸ (moveChunksUpToLen_takes hlink pass).1)
    rw [take_overflow_blocks (horder.sublist (List.sublist_append_left _ _))]
    exact ⟨horder, h1 hd, h3⟩

/-- **A call that keeps the map** has made no pass in which a number wraps. -/
theorem keepsNumbers_of_sameMap (hl : Linked [] in_s) (hd : Disjoint in_s.block_size in_s.blocks)
    {r : SparseFile × List SparseFile × ℕ}
    (hr : sparseFileResparse env fuel in_s max_len count = .ok r)
    (hsame : SameMap in_s.block_size in_s.blocks (r.2.1.flatMap SparseFile.blocks ++ r.1.blocks))
    {ss' : List SparseFile} {mid' : SparseFile} (hrun' : Run env max_len in_s ss' mid' true) :
    KeepsNumbers env max_len mid' := by
  obtain ⟨ts, mid, h, rfl⟩ := run_of_sparseFileResparse hr
  by_contra hnot
  obtain ⟨p, -, hin, hout⟩ := h.loses hl hd hrun' (h.shorter hrun') hnot
  obtain ⟨e, he, h1⟩ := mem_cells.mp (hsame.cells hin)
  have hall := ((returned_perm in_s mid count ts).trans
    ((take_overflow_perm in_s count ts).append_right _)).map (BackedBlock.extent in_s.block_size)
  exact hout (mem_cells.mpr ⟨e, hall.mem_iff.mp he, h1⟩)

/-- A pass takes and leaves no block that ends behind those that there were. -/
theorem Takes.inside (h : Takes env max_len src more taken left) (hbs : src.block_size ≠ 0)
    (hin : ∀ bb ∈ src.blocks,
      (bb.extent src.block_size).stop ≤ 2 ^ 32 * src.block_size.toNat) :
    ∀ bb ∈ taken ++ left, (bb.extent src.block_size).stop ≤ 2 ^ 32 * src.block_size.toNat := by
  cases h with
  | refused => exact hin
  | failed => exact hin
  | all => rwa [List.append_nil]
  | whole hblocks => rwa [hblocks] at hin
  -- Both parts end where the block that was split ends, or before.
  | @split pre post rest bb a size hblocks hscan hsplits hbb =>
    rw [hblocks] at hin
    have hcat : pre ++ [a] ++ (rest ++ post) = pre ++ a :: (rest ++ post) := by simp
    rw [hcat]
    rcases splitBb_cases hbb with ⟨-, rfl, rfl⟩ | ⟨hcut, rfl, rfl⟩
    · exact hin
    · have hbbin := hin bb (by simp)
      obtain ⟨hcont, hjoin⟩ := continues_of_split hbs hbbin (alignDown_dvd _ _)
        (UInt32.lt_iff_toNat_lt.mp hcut) src.backed_block_list.next_addr
      obtain ⟨hstop1, hstop2⟩ := stop_cut hcont hjoin
      intro c hc
      simp only [List.singleton_append, List.mem_append, List.mem_cons] at hc hin
      rcases hc with hc | rfl | rfl | hc
      · exact hin c (Or.inl hc)
      · exact hstop1.trans hbbin
      · exact hstop2.le.trans hbbin
      · exact hin c (Or.inr (Or.inr hc))

/-- **No number wraps** in any pass over blocks that end at block `2^32` or before. -/
theorem Run.keepsNumbers (hl : Linked [] in_s)
    (hin : ∀ bb ∈ in_s.blocks, (bb.extent in_s.block_size).stop ≤ 2 ^ 32 * in_s.block_size.toNat)
    (h : Run env max_len in_s ss mid true) : KeepsNumbers env max_len mid := by
  have key : ∀ {ss mid more}, Run env max_len in_s ss mid more → ∀ bb ∈ mid.blocks,
      (bb.extent in_s.block_size).stop ≤ 2 ^ 32 * in_s.block_size.toNat := by
    intro ss mid more h
    induction h with
    | start => exact hin
    | step run pass ih =>
      obtain ⟨hlink, hsize, -⟩ := run.linked hl
      obtain ⟨hbs, htakes, -⟩ := moveChunksUpToLen_takes hlink pass
      rw [← hsize] at ih ⊢
      exact fun bb hbb => htakes.inside hbs ih bb (List.mem_append_right _ hbb)
  have hmid := key h
  rw [← (h.linked hl).2.1] at hmid
  rintro bb post m ⟨-, pre, size, hblocks, -, -, hm, hlt⟩
  refine block_of_stop (hmid bb (by simp [hblocks])) ?_
  rw [Nat.div_mul_cancel (hm ▸ alignDown_dvd _ _)]
  exact UInt32.lt_iff_toNat_lt.mp hlt

/-- **Splitting is a partition** as long as no block number wraps. For a file of blocks in strictly
increasing order that do not overlap, and for any limit and number of pieces: after each pass of the
loop of `sparse_file_resparse` the blocks of `out_s`, of `tmp` and of `in_s`, in that order, are a
partition of the blocks of the file exactly when no pass so far has split a block whose second part
starts at block `2^32` or beyond; when it returns, the pieces and the rest describe without overlaps
what the file did exactly when none has. All pieces have the block size and the length of the file. -/
theorem resparse_partitions_iff (hl : Linked [] in_s) (hs : Sorted in_s.blocks)
    (hd : Disjoint in_s.block_size in_s.blocks) :
    (∀ ss mid more, Run env max_len in_s ss mid more →
      ((Partitions in_s.block_size in_s.blocks ((ss.take count).flatMap SparseFile.blocks ++
          (overflow in_s count ss).blocks ++ mid.blocks) ∧
        ∀ s ∈ ss.take count, s.block_size = in_s.block_size ∧ s.len = in_s.len) ↔
      ∀ ss' mid', Run env max_len in_s ss' mid' true → ss'.length < ss.length →
        KeepsNumbers env max_len mid')) ∧
    ∀ fuel r, sparseFileResparse env fuel in_s max_len count = .ok r →
      (((extents in_s.block_size (r.2.1.flatMap SparseFile.blocks ++ r.1.blocks)).Pairwise Apart ∧
        SameMap in_s.block_size in_s.blocks (r.2.1.flatMap SparseFile.blocks ++ r.1.blocks) ∧
        ∀ s ∈ r.2.1, s.block_size = in_s.block_size ∧ s.len = in_s.len) ↔
      ∀ ss mid, Run env max_len in_s ss mid true → KeepsNumbers env max_len mid) := by
  have hsizes : ∀ {ss mid more}, Run env max_len in_s ss mid more → ∀ s ∈ ss.take count,
      s.block_size = in_s.block_size ∧ s.len = in_s.len := fun h s hs =>
    (h.linked hl).2.2.2 s (List.mem_of_mem_take hs)
  refine ⟨fun ss mid more h => ?_, fun fuel r hr => ?_⟩
  · rw [← h.partitions_iff hl hs hd]
    exact and_iff_left (hsizes h)
  · obtain ⟨ts, mid, h, rfl⟩ := run_of_sparseFileResparse hr
    have hmap := (returned_perm in_s mid count ts).map (BackedBlock.extent in_s.block_size)
    constructor
    · rintro ⟨-, hsame, -⟩
      exact fun ss' mid' hrun' => keepsNumbers_of_sameMap hl hd hr hsame hrun'
    · intro hkeeps
      have hpart : Partitions in_s.block_size in_s.blocks ((ts.take count).flatMap
          SparseFile.blocks ++ (overflow in_s count ts).blocks ++ mid.blocks) :=
        (h.partitions_iff hl hs hd).mpr fun ss' mid' hrun' _ => hkeeps ss' mid' hrun'
      obtain ⟨-, h1, h2⟩ := hpart
      exact ⟨(hmap.pairwise_iff fun h => h.symm).mpr h1.apart,
        h2.trans fun p x => (described_perm BlockSource.label hmap p x).symm, hsizes h⟩

end

/-- Blocks of the four types, with a gap in front of the last one. -/
def fourTypes : SparseFile :=
  ⟨16, 256, ⟨[⟨0, 0, 40, .data 5⟩, ⟨1, 3, 32, .file "a" 7⟩, ⟨2, 5, 16, .fd 3 9⟩,
    ⟨3, 8, 64, .fill 1⟩], none, 16, 4⟩⟩

/-- The sample file with the four kinds of sources is linked. -/
theorem fourTypes_linked : Linked [] fourTypes := ⟨by decide, by decide, rfl⟩

/-- The four types, with room for one piece: no number wraps. -/
theorem resparse_partitions_iff_four :
    (∀ ss mid more, Run zeros 100 fourTypes ss mid more →
      Partitions 16 fourTypes.blocks ((ss.take 1).flatMap SparseFile.blocks ++
        (overflow fourTypes 1 ss).blocks ++ mid.blocks)) ∧
    ∀ fuel r, sparseFileResparse zeros fuel fourTypes 100 1 = .ok r →
      SameMap 16 fourTypes.blocks (r.2.1.flatMap SparseFile.blocks ++ r.1.blocks) := by
  obtain ⟨hpasses, hreturns⟩ := @resparse_partitions_iff zeros 100 fourTypes 1 fourTypes_linked
    (by unfold Sorted; decide) (by unfold Disjoint Before; decide)
  have hkeeps : ∀ ss mid, Run zeros 100 fourTypes ss mid true → KeepsNumbers zeros 100 mid :=
    fun _ _ h => h.keepsNumbers fourTypes_linked (by decide)
  exact ⟨fun ss mid more h => ((hpasses ss mid more h).mpr fun ss' mid' h' _ => hkeeps ss' mid' h').1,
    fun fuel r hr => ((hreturns fuel r hr).mpr hkeeps).2.1⟩

/-- A fill of four blocks of four bytes that starts two blocks below `2^32`. -/
def lastBlocks : SparseFile := ⟨4, 8, ⟨[⟨0, 4294967294, 16, .fill 7⟩], none, 4, 1⟩⟩

/-- It is split in the middle, and the second part gets block 0. -/
theorem split_at_last_block_wraps :
    Linked [] lastBlocks ∧ Sorted lastBlocks.blocks ∧ Disjoint 4 lastBlocks.blocks ∧
      (∀ bb ∈ lastBlocks.blocks, bb.len.toNat < 2 ^ 31) ∧
      ∃ s mid, Run zeros 76 lastBlocks [s] mid true ∧
        ¬ Partitions 4 lastBlocks.blocks ((List.take 1 [s]).flatMap SparseFile.blocks ++
          (overflow lastBlocks 1 [s]).blocks ++ mid.blocks) := by
  refine ⟨⟨by decide, by decide, rfl⟩, by unfold Sorted; decide, by unfold Disjoint Before; decide,
    by decide, ⟨4, 8, ⟨[⟨0, 4294967294, 8, .fill 7⟩], none, 4, 2⟩⟩,
    ⟨4, 8, ⟨[⟨1, 0, 8, .fill 7⟩], none, 4, 2⟩⟩, ?_, fun h => ?_⟩
  · have hpass : moveChunksUpToLen zeros lastBlocks (sparseFileNew 4 8) 76 =
        .ok (true, ⟨4, 8, ⟨[⟨1, 0, 8, .fill 7⟩], none, 4, 2⟩⟩,
          ⟨4, 8, ⟨[⟨0, 4294967294, 8, .fill 7⟩], none, 4, 2⟩⟩) := by decide +kernel
    exact Run.step .start hpass
  · exact absurd h.order (by decide)

end AmlogicToolkit.Simg
