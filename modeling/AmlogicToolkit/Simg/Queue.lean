import AmlogicToolkit.Simg.BlockMap
import Mathlib.Data.List.TakeWhile

/-!
# Queueing into a backed block list

`queueBb` on a list in strictly increasing block order, whose cached `last_used` is a node of the
list, is `insertBb`, which searches from the head: the cache is only an optimisation
(`queueBb_eq_insertBb`). `insertBb` puts the new block in its place and merges it with its two
neighbours where it can (`insertBb_cases`).
-/

namespace AmlogicToolkit.Simg

open Bytes Extents

/-! ## The invariant -/

/-- The invariant of a list: it is sorted, `last_used` is a node of it when it is not `NULL`, and
every node lies below the next address of the allocator, at an address of its own. -/
structure BackedBlockList.Valid (bbl : BackedBlockList) : Prop where
  /-- The blocks are in strictly increasing order. -/
  sorted : Sorted bbl.data_blocks
  /-- `last_used` does not dangle. -/
  last_used : ∀ a, bbl.last_used = some a → ∃ bb ∈ bbl.data_blocks, bb.addr = a
  /-- The allocator has not given out an address above. -/
  fresh : ∀ bb ∈ bbl.data_blocks, bb.addr < bbl.next_addr
  /-- No two nodes share an address. -/
  nodup : (bbl.data_blocks.map BackedBlock.addr).Nodup

/-- A fresh list is valid. -/
theorem backedBlockListNew_valid (bs : UInt32) : (backedBlockListNew bs).Valid :=
  ⟨List.Pairwise.nil, fun _ h => (nomatch h), fun _ h => (nomatch h), List.nodup_nil⟩

/-! ## Inserting -/

/-- The first merge of an insertion: the new block with the one after it. -/
def absorbNext (bs : UInt32) (new_bb : BackedBlock) :
    List BackedBlock → BackedBlock × List BackedBlock
  | [] => (new_bb, [])
  | nxt :: rest =>
    if canMerge bs new_bb nxt then (new_bb.extend nxt, rest) else (new_bb, nxt :: rest)

/-- The nodes from `bb` on after the new block is put behind it, with both merges. -/
def linkBb (bs : UInt32) (bb new_bb : BackedBlock) (rest : List BackedBlock) :
    List BackedBlock :=
  let r := absorbNext bs new_bb rest
  if canMerge bs bb r.1 then bb.extend r.1 :: r.2 else bb :: r.1 :: r.2

/-- The insertion of a block with a search from the head. -/
def insertBb (bs : UInt32) (new_bb : BackedBlock) : List BackedBlock → List BackedBlock
  | [] => [new_bb]
  | head :: tail =>
    if new_bb.block < head.block then new_bb :: head :: tail
    else
      let r := seekBb new_bb.block head tail
      r.1 ++ linkBb bs r.2.1 new_bb r.2.2

/-- A sorted list cut at a block number: `bb` is the last node below it, and the nodes of `rest` are
above it. -/
structure CutAt (l : List BackedBlock) (block : UInt32) (pre : List BackedBlock)
    (bb : BackedBlock) (rest : List BackedBlock) : Prop where
  /-- The parts make up the list. -/
  eq : l = pre ++ bb :: rest
  /-- `bb` is below. -/
  lt : bb.block < block
  /-- The nodes after it are above. -/
  gt : ∀ x ∈ rest, block < x.block

/-- The loop of `queue_bb` stops at the cut, when it starts below it. -/
theorem seekBb_cut {block : UInt32} {bb : BackedBlock} {l : List BackedBlock}
    (hs : Sorted (bb :: l)) (hlt : bb.block < block) (hne : ∀ x ∈ l, x.block ≠ block) :
    CutAt (bb :: l) block (seekBb block bb l).1 (seekBb block bb l).2.1
      (seekBb block bb l).2.2 := by
  induction l generalizing bb with
  | nil => exact ⟨rfl, hlt, fun _ h => (nomatch h)⟩
  | cons nxt rest ih =>
    have hs' : Sorted (nxt :: rest) := (List.pairwise_cons.mp hs).2
    unfold seekBb
    by_cases h : nxt.block < block
    · rw [if_pos h]
      obtain ⟨heq, hl, hg⟩ := ih hs' h fun x hx => hne x (List.mem_cons_of_mem _ hx)
      exact ⟨by simp only [List.cons_append]; rw [← heq], hl, hg⟩
    · rw [if_neg h]
      refine ⟨rfl, hlt, fun x hx => ?_⟩
      have hnb : block < nxt.block :=
        UInt32.lt_of_le_of_ne (UInt32.not_lt.mp h) (hne nxt List.mem_cons_self).symm
      rcases List.mem_cons.mp hx with rfl | hx
      · exact hnb
      · exact UInt32.lt_trans hnb ((List.pairwise_cons.mp hs').1 x hx)

/-- A sorted list has one cut at a block number. -/
theorem CutAt.unique {l pre pre' rest rest' : List BackedBlock} {block : UInt32}
    {bb bb' : BackedBlock} (h : CutAt l block pre bb rest) (h' : CutAt l block pre' bb' rest')
    (hs : Sorted l) : pre = pre' ∧ bb = bb' ∧ rest = rest' := by
  -- What lies before the block number is a prefix of the list, and the list is sorted.
  have key : ∀ {pre bb rest}, CutAt l block pre bb rest →
      l.takeWhile (fun x => x.block < block) = pre ++ [bb] ∧
        l.dropWhile (fun x => x.block < block) = rest := by
    intro pre bb rest h
    have hpre : ∀ x ∈ pre ++ [bb], (decide (x.block < block)) = true := by
      intro x hx
      rw [decide_eq_true_eq]
      rcases List.mem_append.mp hx with hx | hx
      · rw [h.eq] at hs
        exact UInt32.lt_trans ((List.pairwise_append.mp hs).2.2 x hx bb List.mem_cons_self) h.lt
      · rw [List.mem_singleton.mp hx]; exact h.lt
    have heq : l = (pre ++ [bb]) ++ rest := by rw [h.eq]; simp
    rw [heq, List.takeWhile_append_of_pos hpre, List.dropWhile_append_of_pos hpre]
    cases hr : rest with
    | nil => simp
    | cons x xs =>
      have hx : decide (x.block < block) = false := by
        rw [decide_eq_false_iff_not]
        exact UInt32.lt_asymm (h.gt x (by rw [hr]; exact List.mem_cons_self))
      simp [hx]
  obtain ⟨h1, h2⟩ := key h
  obtain ⟨h3, h4⟩ := key h'
  have h5 : pre ++ [bb] = pre' ++ [bb'] := h1.symm.trans h3
  obtain ⟨h6, h7⟩ := List.append_inj' h5 rfl
  exact ⟨h6, List.head_eq_of_cons_eq h7, h2.symm.trans h4⟩

/-- `mergeNext` is `absorbNext` on blocks in order. -/
theorem mergeNext_eq {bs : UInt32} (hbs : bs ≠ 0) {new_bb : BackedBlock} {rest : List BackedBlock}
    (hgt : ∀ x ∈ rest, new_bb.block < x.block) :
    mergeNext bs new_bb rest = .ok (absorbNext bs new_bb rest) := by
  cases rest with
  | nil => rfl
  | cons nxt rest =>
    simp only [mergeNext, absorbNext, mergeBb_eq hbs (hgt nxt List.mem_cons_self)]
    by_cases h : canMerge bs new_bb nxt <;> simp [h, bind, Except.bind, pure, Except.pure]

/-- A node keeps its block when it takes in the next one. -/
@[simp]
theorem absorbNext_block (bs : UInt32) (new_bb : BackedBlock) (rest : List BackedBlock) :
    (absorbNext bs new_bb rest).1.block = new_bb.block := by
  cases rest with
  | nil => rfl
  | cons nxt rest => simp only [absorbNext]; split_ifs <;> rfl

/-- A node keeps its address when it takes in the next one. -/
@[simp]
theorem absorbNext_addr (bs : UInt32) (new_bb : BackedBlock) (rest : List BackedBlock) :
    (absorbNext bs new_bb rest).1.addr = new_bb.addr := by
  cases rest with
  | nil => rfl
  | cons nxt rest => simp only [absorbNext]; split_ifs <;> rfl

/-- Wherever the search starts, it starts below the new block and reaches the cut. -/
theorem searchStart_cut {bbl : BackedBlockList} (hv : bbl.Valid) {head : BackedBlock}
    {tail : List BackedBlock} (hl : bbl.data_blocks = head :: tail) {block : UInt32}
    (hlt : head.block < block) :
    ∃ before start after, searchStart bbl.last_used block head tail = .ok (before, start, after) ∧
      head :: tail = before ++ start :: after ∧ start.block < block := by
  unfold searchStart
  cases hlu : bbl.last_used with
  | none => exact ⟨[], head, tail, rfl, rfl, hlt⟩
  | some lu =>
    -- The last node used is on the list, so the search for it finds it.
    obtain ⟨bb, hbb, haddr⟩ := hv.last_used lu hlu
    rw [hl] at hbb
    have hspan := List.takeWhile_append_dropWhile (p := fun x : BackedBlock => decide (x.addr ≠ lu))
      (l := head :: tail)
    have hdrop : (head :: tail).dropWhile (fun x => decide (x.addr ≠ lu)) ≠ [] := by
      rw [Ne, List.dropWhile_eq_nil_iff]
      intro h
      simpa [haddr] using h bb hbb
    simp only [List.span_eq_takeWhile_dropWhile]
    cases hd : (head :: tail).dropWhile (fun x => decide (x.addr ≠ lu)) with
    | nil => exact absurd hd hdrop
    | cons b after =>
      rw [hd] at hspan
      -- It is the start if it lies before the block, and else the search starts at the head.
      by_cases hb : block > b.block
      · refine ⟨_, b, after, ?_, hspan.symm, hb⟩
        simp [hb]
      · refine ⟨[], head, tail, ?_, rfl, hlt⟩
        simp [hb]

/-- **The cached insertion point is only an optimisation.** On a valid list, and for a block whose
number no node has, `queue_bb` gives the list that a search from the head gives, and a `last_used`
that is `NULL` or a node of it. -/
theorem queueBb_eq_insertBb {bbl : BackedBlockList} (hv : bbl.Valid) (hbs : bbl.block_size ≠ 0)
    {new_bb : BackedBlock} (hne : ∀ x ∈ bbl.data_blocks, x.block ≠ new_bb.block) :
    ∃ lu, queueBb bbl new_bb = .ok { bbl with
        data_blocks := insertBb bbl.block_size new_bb bbl.data_blocks
        last_used := lu } ∧
      ∀ a, lu = some a →
        ∃ bb ∈ insertBb bbl.block_size new_bb bbl.data_blocks, bb.addr = a := by
  unfold queueBb
  cases hl : bbl.data_blocks with
  | nil =>
    refine ⟨bbl.last_used, rfl, fun a ha => ?_⟩
    obtain ⟨bb, hbb, -⟩ := hv.last_used a ha
    rw [hl] at hbb
    cases hbb
  | cons head tail =>
    have hs : Sorted (head :: tail) := hl ▸ hv.sorted
    by_cases hh : head.block > new_bb.block
    · have hins : insertBb bbl.block_size new_bb (head :: tail) = new_bb :: head :: tail := by
        rw [insertBb, if_pos hh]
      refine ⟨bbl.last_used, ?_, fun a ha => ?_⟩
      · simp only [if_pos hh, hins]
      · obtain ⟨bb, hbb, haddr⟩ := hv.last_used a ha
        exact ⟨bb, by rw [hins]; exact List.mem_cons_of_mem _ (hl ▸ hbb), haddr⟩
    · have hhn : head.block < new_bb.block :=
        UInt32.lt_of_le_of_ne (UInt32.not_lt.mp hh) (hne head (by rw [hl]; exact List.mem_cons_self))
      obtain ⟨before, start, after, hst, hcat, hlt⟩ := searchStart_cut hv hl hhn
      have hs' : Sorted (start :: after) := (List.pairwise_append.mp (hcat ▸ hs)).2.1
      -- The cut that the search finds from its start is the cut from the head.
      have hcut := seekBb_cut hs' hlt fun x hx => hne x (by
        rw [hl, hcat]; exact List.mem_append_right _ (List.mem_cons_of_mem _ hx))
      have hcut' : CutAt (head :: tail) new_bb.block
          (before ++ (seekBb new_bb.block start after).1) (seekBb new_bb.block start after).2.1
          (seekBb new_bb.block start after).2.2 :=
        ⟨by rw [hcat, hcut.eq, List.append_assoc], hcut.lt, hcut.gt⟩
      have hcut0 := seekBb_cut hs hhn fun x hx => hne x (by
        rw [hl]; exact List.mem_cons_of_mem _ hx)
      obtain ⟨e1, e2, e3⟩ := hcut0.unique hcut' hs
      have hins : insertBb bbl.block_size new_bb (head :: tail) =
          before ++ ((seekBb new_bb.block start after).1 ++
            linkBb bbl.block_size (seekBb new_bb.block start after).2.1 new_bb
              (seekBb new_bb.block start after).2.2) := by
        rw [insertBb, if_neg hh]
        simp only [e1, e2, e3, List.append_assoc]
      simp only [if_neg hh, hins, hst]
      obtain ⟨⟨passed, bb, rest⟩, hr⟩ : ∃ r, seekBb new_bb.block start after = r := ⟨_, rfl⟩
      rw [hr] at hcut
      have hlt2 : bb.block < (absorbNext bbl.block_size new_bb rest).1.block := by
        rw [absorbNext_block]; exact hcut.lt
      simp only [hr, bind, Except.bind, mergeNext_eq hbs hcut.gt, mergeBb_eq hbs hlt2, linkBb]
      by_cases hm : canMerge bbl.block_size bb (absorbNext bbl.block_size new_bb rest).1
      · refine ⟨some bb.addr, by simp [hm, pure, Except.pure], ?_⟩
        rintro a ⟨⟩
        exact ⟨bb.extend (absorbNext bbl.block_size new_bb rest).1, by simp [hm], rfl⟩
      · refine ⟨some new_bb.addr, by simp [hm, pure, Except.pure], ?_⟩
        rintro a ⟨⟩
        exact ⟨(absorbNext bbl.block_size new_bb rest).1, by simp [hm], absorbNext_addr _ _ _⟩

/-- The loop of `queue_bb` stops in front of a node with the block. -/
theorem seekBb_eq {block : UInt32} {bb z : BackedBlock} {l : List BackedBlock}
    (hs : Sorted (bb :: l)) (hz : z ∈ l) (heq : z.block = block) :
    ∃ passed bb' rest, seekBb block bb l = (passed, bb', z :: rest) := by
  induction l generalizing bb with
  | nil => cases hz
  | cons nxt l ih =>
    have hs' := (List.pairwise_cons.mp hs).2
    rw [seekBb]
    rcases List.mem_cons.mp hz with rfl | hz
    · rw [if_neg (by rw [heq]; exact UInt32.lt_irrefl block)]
      exact ⟨_, _, _, rfl⟩
    · have hlt : nxt.block < block := heq ▸ (List.pairwise_cons.mp hs').1 z hz
      obtain ⟨passed, bb', rest, h⟩ := ih hs' hz
      rw [if_pos hlt, h]
      exact ⟨_, _, _, rfl⟩

/-- Merging two nodes of one block stops at `assert(a->block < b->block)`. -/
theorem mergeBb_eq_block {bs : UInt32} {a b : BackedBlock} (h : a.block = b.block) :
    mergeBb bs a b = .error .assertion := by
  rw [mergeBb, if_pos (by rw [h]; exact UInt32.lt_irrefl _)]

/-- The search for the block of the head starts there, wherever the last node was put. -/
theorem searchStart_head {bbl : BackedBlockList} (hv : bbl.Valid) {head : BackedBlock}
    {tail : List BackedBlock} (hl : bbl.data_blocks = head :: tail) :
    searchStart bbl.last_used head.block head tail = .ok ([], head, tail) := by
  unfold searchStart
  cases hlu : bbl.last_used with
  | none => rfl
  | some lu =>
    obtain ⟨bb, hbb, haddr⟩ := hv.last_used lu hlu
    rw [hl] at hbb
    simp only [List.span_eq_takeWhile_dropWhile]
    cases hd : (head :: tail).dropWhile (fun x => decide (x.addr ≠ lu)) with
    | nil =>
      rw [List.dropWhile_eq_nil_iff] at hd
      simpa [haddr] using hd bb hbb
    | cons b after =>
      have hs : Sorted (head :: tail) := hl ▸ hv.sorted
      have hb : b ∈ head :: tail := (List.dropWhile_sublist _).mem (hd ▸ List.mem_cons_self)
      have hnb : ¬ head.block > b.block := by
        rcases List.mem_cons.mp hb with rfl | hb
        · exact UInt32.lt_irrefl _
        · exact UInt32.lt_asymm ((List.pairwise_cons.mp hs).1 b hb)
      simp only [if_neg hnb]

/-- **The assertion of `merge_bb`.** On a valid list, queueing a block that some node has stops the
program. -/
theorem queueBb_clash {bbl : BackedBlockList} (hv : bbl.Valid) (hbs : bbl.block_size ≠ 0)
    {new_bb z : BackedBlock} (hz : z ∈ bbl.data_blocks) (heq : z.block = new_bb.block) :
    queueBb bbl new_bb = .error .assertion := by
  unfold queueBb
  cases hl : bbl.data_blocks with
  | nil => rw [hl] at hz; cases hz
  | cons head tail =>
    have hs : Sorted (head :: tail) := hl ▸ hv.sorted
    rw [hl] at hz
    -- The block cannot come before the head, as the list is sorted and holds its number.
    have habove := (List.pairwise_cons.mp hs).1
    have hhead : ¬ new_bb.block < head.block := by
      rw [← heq]
      rcases List.mem_cons.mp hz with rfl | hz
      · exact UInt32.lt_irrefl _
      · exact UInt32.lt_asymm (habove z hz)
    simp only [if_neg (show ¬ head.block > new_bb.block from hhead)]
    rcases List.mem_cons.mp hz with rfl | hz
    · -- The head has the block: the search starts and stops there.
      have hst := heq ▸ searchStart_head hv hl
      have hseek : seekBb new_bb.block z tail = ([], z, tail) := by
        cases tail with
        | nil => rfl
        | cons nxt rest =>
          rw [seekBb, if_neg (UInt32.lt_asymm (heq ▸ habove nxt List.mem_cons_self))]
      simp only [hst, hseek, bind, Except.bind, mergeNext_eq hbs fun x hx => heq ▸ habove x hx,
        mergeBb_eq_block (heq.trans (absorbNext_block _ _ _).symm)]
    · -- Otherwise the search walks on to the node that holds the number.
      have hlt : head.block < new_bb.block := heq ▸ habove z hz
      obtain ⟨before, start, after, hst, hcat, hlt'⟩ := searchStart_cut hv hl hlt
      have hza : z ∈ after := by
        have hm : z ∈ before ++ start :: after := hcat ▸ List.mem_cons_of_mem _ hz
        have hs' : Sorted (before ++ start :: after) := hcat ▸ hs
        rcases List.mem_append.mp hm with hm | hm
        · have := (List.pairwise_append.mp hs').2.2 z hm start List.mem_cons_self
          exact absurd (UInt32.lt_trans this hlt') (by rw [heq]; exact UInt32.lt_irrefl _)
        · rcases List.mem_cons.mp hm with rfl | hm
          · exact absurd hlt' (by rw [heq]; exact UInt32.lt_irrefl _)
          · exact hm
      have hs' : Sorted (start :: after) := (List.pairwise_append.mp (hcat ▸ hs)).2.1
      obtain ⟨passed, bb, rest, hseek⟩ := seekBb_eq hs' hza heq
      simp only [hst, hseek, bind, Except.bind, mergeNext, mergeBb_eq_block heq.symm]

/-- Where a block goes: in front of a list that starts above it, or behind the last node below
it. -/
theorem insertBb_cases {bs : UInt32} {new_bb : BackedBlock} {l : List BackedBlock} (hs : Sorted l)
    (hne : ∀ x ∈ l, x.block ≠ new_bb.block) :
    ((∀ x ∈ l, new_bb.block < x.block) ∧ insertBb bs new_bb l = new_bb :: l) ∨
      ∃ pre bb rest, CutAt l new_bb.block pre bb rest ∧
        insertBb bs new_bb l = pre ++ linkBb bs bb new_bb rest := by
  cases l with
  | nil => exact Or.inl ⟨fun _ h => (nomatch h), rfl⟩
  | cons head tail =>
    simp only [insertBb]
    by_cases h : new_bb.block < head.block
    · refine Or.inl ⟨fun x hx => ?_, if_pos h⟩
      rcases List.mem_cons.mp hx with rfl | hx
      · exact h
      · exact UInt32.lt_trans h ((List.pairwise_cons.mp hs).1 x hx)
    · simp only [if_neg h]
      have hlt : head.block < new_bb.block :=
        UInt32.lt_of_le_of_ne (UInt32.not_lt.mp h) (hne head List.mem_cons_self)
      exact Or.inr ⟨_, _, _, seekBb_cut hs hlt fun x hx => hne x (List.mem_cons_of_mem _ hx), rfl⟩

/-- A block above all nodes is linked behind the last one. -/
theorem insertBb_last {bs : UInt32} {new_bb bb : BackedBlock} {pre : List BackedBlock}
    (hs : Sorted (pre ++ [bb])) (hlt : ∀ x ∈ pre ++ [bb], x.block < new_bb.block) :
    insertBb bs new_bb (pre ++ [bb]) = pre ++ linkBb bs bb new_bb [] := by
  have hbb := hlt bb (by simp)
  rcases @insertBb_cases bs _ _ hs fun x hx => UInt32.ne_of_lt (hlt x hx) with
    ⟨h, -⟩ | ⟨pre', bb', rest', hcut, heq⟩
  · exact absurd (h bb (by simp)) (UInt32.lt_asymm hbb)
  · obtain ⟨rfl, rfl, rfl⟩ := hcut.unique ⟨rfl, hbb, fun _ h => (nomatch h)⟩ hs
    exact heq

/-- Linking a block is putting it in its place and merging neighbours. -/
theorem linkBb_merged {bs : UInt32} {pre rest : List BackedBlock} {bb new_bb : BackedBlock}
    (hs : Sorted (pre ++ bb :: new_bb :: rest)) (hd : Disjoint bs (pre ++ bb :: new_bb :: rest)) :
    Merged bs (pre ++ bb :: new_bb :: rest) (pre ++ linkBb bs bb new_bb rest) := by
  have hfirst : Merged bs (pre ++ bb :: new_bb :: rest)
      (pre ++ bb :: (absorbNext bs new_bb rest).1 :: (absorbNext bs new_bb rest).2) := by
    cases rest with
    | nil => exact Merged.refl hd
    | cons nxt rest =>
      simp only [absorbNext]
      by_cases h : canMerge bs new_bb nxt
      · simp only [if_pos h]
        have := @Merged.merge _ (pre ++ [bb]) rest _ _ (by simpa using hs)
          (by simpa using hd) h
        simpa using this
      · simp only [if_neg h]
        exact Merged.refl hd
  simp only [linkBb]
  split_ifs with h
  · exact hfirst.trans (Merged.merge (hfirst.sorted hs) hfirst.disjoint h)
  · exact hfirst

/-- Blocks in order that lie apart come one before the other. -/
theorem before_of_apart {bs : UInt32} (hbs : bs ≠ 0) {a b : BackedBlock} (hlt : a.block < b.block)
    (h : Apart (a.extent bs) (b.extent bs)) : Before (a.extent bs) (b.extent bs) := by
  have hpos : 0 < bs.toNat := toNat_pos_of_ne_zero hbs
  have hmul : a.block.toNat * bs.toNat < b.block.toNat * bs.toNat :=
    Nat.mul_lt_mul_of_pos_right (UInt32.lt_iff_toNat_lt.mp hlt) hpos
  rcases h with h | h
  · exact h
  · simp only [BackedBlock.extent_stop, BackedBlock.extent_start] at h
    omega

/-- **An insertion is the new block put in its place, and merges.** -/
theorem insertBb_merged {bs : UInt32} (hbs : bs ≠ 0) {new_bb : BackedBlock} {l : List BackedBlock}
    (hs : Sorted l) (hd : Disjoint bs l) (hne : ∀ x ∈ l, x.block ≠ new_bb.block)
    (hap : ∀ x ∈ l, Apart (x.extent bs) (new_bb.extent bs)) :
    ∃ placed, placed.Perm (new_bb :: l) ∧ Sorted placed ∧ Disjoint bs placed ∧
      Merged bs placed (insertBb bs new_bb l) := by
  rcases @insertBb_cases bs _ _ hs hne with ⟨hall, heq⟩ | ⟨pre, bb, rest, hcut, heq⟩
  · -- The block comes first: nothing is before it.
    have hs' : Sorted (new_bb :: l) := List.pairwise_cons.mpr ⟨hall, hs⟩
    have hd' : Disjoint bs (new_bb :: l) := List.pairwise_cons.mpr
      ⟨fun x hx => before_of_apart hbs (hall x hx) (Or.symm (hap x hx)), hd⟩
    exact ⟨_, List.Perm.refl _, hs', hd', by rw [heq]; exact Merged.refl hd'⟩
  · -- The block is linked in behind the nodes with smaller numbers.
    have hl := hcut.eq
    have hlow : ∀ x ∈ pre ++ [bb], x.block < new_bb.block := by
      intro x hx
      rcases List.mem_append.mp hx with hx | hx
      · exact UInt32.lt_trans ((List.pairwise_append.mp (hl ▸ hs)).2.2 x hx bb List.mem_cons_self)
          hcut.lt
      · rw [List.mem_singleton.mp hx]; exact hcut.lt
    have hsplit : l = (pre ++ [bb]) ++ rest := by rw [hl]; simp
    have hplaced : pre ++ bb :: new_bb :: rest = (pre ++ [bb]) ++ new_bb :: rest := by simp
    have hs' : Sorted (pre ++ bb :: new_bb :: rest) := by
      obtain ⟨h1, h2, h3⟩ := List.pairwise_append.mp (hsplit ▸ hs)
      rw [hplaced]
      refine List.pairwise_append.mpr ⟨h1, List.pairwise_cons.mpr ⟨hcut.gt, h2⟩, fun x hx y hy => ?_⟩
      rcases List.mem_cons.mp hy with rfl | hy
      · exact hlow x hx
      · exact h3 x hx y hy
    -- Blocks that are apart and sorted by number lie one behind the other.
    have hd' : Disjoint bs (pre ++ bb :: new_bb :: rest) := by
      obtain ⟨h1, h2, h3⟩ := List.pairwise_append.mp (hsplit ▸ hd)
      rw [hplaced]
      refine List.pairwise_append.mpr ⟨h1, List.pairwise_cons.mpr ⟨fun y hy => ?_, h2⟩,
        fun x hx y hy => ?_⟩
      · exact before_of_apart hbs (hcut.gt y hy)
          (Or.symm (hap y (by rw [hsplit]; exact List.mem_append_right _ hy)))
      · rcases List.mem_cons.mp hy with rfl | hy
        · exact before_of_apart hbs (hlow x hx)
            (hap x (by rw [hsplit]; exact List.mem_append_left _ hx))
        · exact h3 x hx y hy
    refine ⟨_, ?_, hs', hd', by rw [heq]; exact linkBb_merged hs' hd'⟩
    rw [hplaced, hsplit]
    exact List.perm_middle

/-! ## The nodes of any list -/

/-- Wherever the search starts, the parts make up the list. -/
theorem searchStart_cat {last_used : Option ℕ} {block : UInt32} {head start : BackedBlock}
    {tail before after : List BackedBlock}
    (h : searchStart last_used block head tail = .ok (before, start, after)) :
    before ++ start :: after = head :: tail := by
  unfold searchStart at h
  cases last_used with
  | none => cases h; rfl
  | some lu =>
    simp only [List.span_eq_takeWhile_dropWhile] at h
    have hcat := List.takeWhile_append_dropWhile (p := fun x : BackedBlock => decide (x.addr ≠ lu))
      (l := head :: tail)
    cases hd : (head :: tail).dropWhile (fun x => decide (x.addr ≠ lu)) with
    | nil => rw [hd] at h; cases h
    | cons b after' =>
      rw [hd] at h hcat
      dsimp only at h
      split_ifs at h
      · cases h
        exact hcat
      · cases h
        rfl

/-- Wherever the loop of `queue_bb` stops, the parts make up the list. -/
theorem seekBb_cat (block : UInt32) (bb : BackedBlock) (l : List BackedBlock) :
    (seekBb block bb l).1 ++ (seekBb block bb l).2.1 :: (seekBb block bb l).2.2 = bb :: l := by
  induction l generalizing bb with
  | nil => rfl
  | cons nxt rest ih =>
    unfold seekBb
    split_ifs
    · exact congrArg (bb :: ·) (ih nxt)
    · rfl

/-- Two blocks that are merged make the first one longer. -/
theorem mergeBb_some {bs : UInt32} {a b m : BackedBlock} (h : mergeBb bs a b = .ok (some m)) :
    m = a.extend b := by
  unfold mergeBb at h
  split_ifs at h <;> cases h
  rfl

/-- The first merge keeps the address of the new node, and takes no node but the next one away. -/
theorem mergeNext_addr {bs : UInt32} {new_bb bb : BackedBlock} {rest l : List BackedBlock}
    (h : mergeNext bs new_bb rest = .ok (bb, l)) : bb.addr = new_bb.addr ∧ l.Sublist rest := by
  cases rest with
  | nil => cases h; exact ⟨rfl, List.Sublist.refl _⟩
  | cons nxt rest =>
    rw [mergeNext] at h
    obtain ⟨o, hm, h⟩ := Except.bind_ok_iff.mp h
    cases o with
    | none => cases h; exact ⟨rfl, List.Sublist.refl _⟩
    | some m =>
      cases h
      exact ⟨by rw [mergeBb_some hm]; rfl, List.sublist_cons_self _ _⟩

/-- **Queueing** puts the new node among the nodes, and takes none of them anywhere else: the
addresses stay apart whatever the blocks are. -/
theorem queueBb_addrs {bbl bbl' : BackedBlockList} {new_bb : BackedBlock}
    (h : queueBb bbl new_bb = .ok bbl') :
    (∃ l : List BackedBlock, l.Perm (new_bb :: bbl.data_blocks) ∧
        (bbl'.data_blocks.map BackedBlock.addr).Sublist (l.map BackedBlock.addr)) ∧
      bbl'.block_size = bbl.block_size ∧ bbl'.next_addr = bbl.next_addr := by
  unfold queueBb at h
  cases hl : bbl.data_blocks with
  | nil =>
    rw [hl] at h
    cases h
    exact ⟨⟨[new_bb], List.Perm.refl _, List.Sublist.refl _⟩, rfl, rfl⟩
  | cons head tail =>
    rw [hl] at h
    dsimp only at h
    split_ifs at h
    · cases h
      exact ⟨⟨_, List.Perm.refl _, List.Sublist.refl _⟩, rfl, rfl⟩
    simp only [bind, Except.bind] at h
    split at h
    · cases h
    rename_i r hstart
    obtain ⟨before, start, after⟩ := r
    have hcat := searchStart_cat hstart
    have hseek := seekBb_cat new_bb.block start after
    dsimp only at h
    split at h
    · cases h
    rename_i r hnext
    obtain ⟨bb1, rest1⟩ := r
    dsimp only at h
    generalize seekBb new_bb.block start after = q at h hseek hnext
    obtain ⟨passed, bb, rest⟩ := q
    dsimp only at h hseek hnext
    obtain ⟨haddr, hsub⟩ := mergeNext_addr hnext
    have hrest := (hsub.map BackedBlock.addr)
    -- The list with the new node behind the one where the search stops.
    have hperm : (before ++ (passed ++ bb :: new_bb :: rest)).Perm (new_bb :: head :: tail) := by
      rw [← hcat, ← hseek]
      simpa using @List.perm_middle _ new_bb (before ++ passed ++ [bb]) rest
    split at h
    · cases h
    rename_i o hm
    cases o with
    | none =>
      cases h
      refine ⟨⟨_, hperm, ?_⟩, rfl, rfl⟩
      simp only [List.map_append, List.map_cons, haddr]
      exact (((hrest.cons_cons _).cons_cons _).append_left _).append_left _
    | some merged =>
      cases h
      refine ⟨⟨_, hperm, ?_⟩, rfl, rfl⟩
      have hmerged : merged.addr = bb.addr := by rw [mergeBb_some hm]; rfl
      simp only [List.map_append, List.map_cons, hmerged]
      exact (((hrest.cons _).cons_cons _).append_left _).append_left _

/-! ## Adding a block -/

/-- The node that an addition to the list allocates. -/
def BackedBlockList.node (bbl : BackedBlockList) (source : BlockSource) (len block : UInt32) :
    BackedBlock := ⟨bbl.next_addr, block, len, source⟩

/-- A valid list stays one when its next node is allocated. -/
theorem BackedBlockList.Valid.allocated {bbl : BackedBlockList} (h : bbl.Valid) :
    ({ bbl with next_addr := bbl.next_addr + 1 } : BackedBlockList).Valid :=
  ⟨h.sorted, h.last_used, fun bb hbb => Nat.lt_succ_of_lt (h.fresh bb hbb), h.nodup⟩

/-- **What an addition does.** A block apart from those of a valid list is inserted, the list stays
valid and its nodes stay apart. -/
theorem addBlock_spec {bbl : BackedBlockList} (hv : bbl.Valid) (hbs : bbl.block_size ≠ 0)
    (hd : Disjoint bbl.block_size bbl.data_blocks) {source : BlockSource} {len block : UInt32}
    (hne : ∀ x ∈ bbl.data_blocks, x.block ≠ block)
    (hap : ∀ x ∈ bbl.data_blocks,
      Apart (x.extent bbl.block_size) ((bbl.node source len block).extent bbl.block_size)) :
    ∃ bbl', addBlock bbl source len block = .ok bbl' ∧ bbl'.Valid ∧
      bbl'.block_size = bbl.block_size ∧ Disjoint bbl.block_size bbl'.data_blocks ∧
      bbl'.data_blocks = insertBb bbl.block_size (bbl.node source len block) bbl.data_blocks := by
  obtain ⟨lu, heq, hlu⟩ := @queueBb_eq_insertBb _ hv.allocated hbs (bbl.node source len block) hne
  obtain ⟨placed, hperm, hs, -, hm⟩ := insertBb_merged hbs hv.sorted hd hne hap
  have hsub : ∀ a ∈ (insertBb bbl.block_size (bbl.node source len block) bbl.data_blocks).map
      BackedBlock.addr, a = bbl.next_addr ∨ a ∈ bbl.data_blocks.map BackedBlock.addr := by
    intro a ha
    have := (hperm.map BackedBlock.addr).mem_iff.mp (hm.addrs.mem ha)
    simpa [BackedBlockList.node] using this
  refine ⟨_, heq, ⟨hm.sorted hs, hlu, fun bb hbb => ?_, ?_⟩, rfl, hm.disjoint, rfl⟩
  · rcases hsub bb.addr (List.mem_map_of_mem hbb) with h | h
    · exact h ▸ Nat.lt_succ_self _
    · obtain ⟨x, hx, hxa⟩ := List.mem_map.mp h
      exact Nat.lt_succ_of_lt (hxa ▸ hv.fresh x hx)
  · refine List.Nodup.sublist hm.addrs ((hperm.map BackedBlock.addr).nodup_iff.mpr ?_)
    rw [List.map_cons, List.nodup_cons]
    refine ⟨fun h => ?_, hv.nodup⟩
    obtain ⟨x, hx, hxa⟩ := List.mem_map.mp h
    exact Nat.lt_irrefl _ (hxa ▸ hv.fresh x hx)

/-- The nodes of an insertion have the blocks of the new node and of those that were there, in order. -/
theorem insertBb_sorted {bs : UInt32} {new_bb : BackedBlock} {l : List BackedBlock} (hs : Sorted l)
    (hne : ∀ x ∈ l, x.block ≠ new_bb.block) : Sorted (insertBb bs new_bb l) := by
  rcases @insertBb_cases bs _ _ hs hne with ⟨habove, heq⟩ | ⟨pre, bb, rest, hcut, heq⟩
  · rw [heq]
    exact List.pairwise_cons.mpr ⟨habove, hs⟩
  · obtain ⟨rfl, hbb, hrest⟩ := hcut
    have hplaced : Sorted (pre ++ bb :: new_bb :: rest) := by
      rw [Sorted, List.pairwise_append, List.pairwise_cons] at hs
      obtain ⟨hpre, ⟨hbelow, hafter⟩, hcross⟩ := hs
      rw [Sorted, List.pairwise_append, List.pairwise_cons, List.pairwise_cons]
      refine ⟨hpre, ⟨fun x hx => ?_, fun x hx => hrest x hx, hafter⟩, fun x hx y hy => ?_⟩
      · rcases List.mem_cons.mp hx with rfl | hx
        · exact hbb
        · exact hbelow x hx
      · have hxbb := hcross x hx bb List.mem_cons_self
        rcases List.mem_cons.mp hy with rfl | hy
        · exact hxbb
        · rcases List.mem_cons.mp hy with rfl | hy
          · exact UInt32.lt_trans hxbb hbb
          · exact hcross x hx y (List.mem_cons_of_mem _ hy)
    -- A merge drops the block of its second node, and keeps that of the first one.
    have hsub : ((linkBb bs bb new_bb rest).map BackedBlock.block).Sublist
        ((bb :: new_bb :: rest).map BackedBlock.block) := by
      have habsorb : ((absorbNext bs new_bb rest).2.map BackedBlock.block).Sublist
          (rest.map BackedBlock.block) := by
        cases rest with
        | nil => exact List.Sublist.refl _
        | cons nxt rest =>
          rw [absorbNext]
          split_ifs
          · exact List.sublist_cons_self _ _
          · exact List.Sublist.refl _
      unfold linkBb
      dsimp only
      split_ifs
      · exact (habsorb.cons _).cons_cons _
      · simp only [List.map_cons, absorbNext_block]
        exact (habsorb.cons_cons _).cons_cons _
    rw [heq]
    have hmap : ((pre ++ bb :: new_bb :: rest).map BackedBlock.block).Pairwise (· < ·) :=
      List.pairwise_map.mpr hplaced
    rw [List.map_append] at hmap
    have hmap' := hmap.sublist (hsub.append_left _)
    rw [← List.map_append] at hmap'
    exact List.pairwise_map.mp hmap'

/-- **An addition that goes through** leaves a valid list, whatever the region is: it stops the program
at a block that some node has. -/
theorem addBlock_valid {bbl bbl' : BackedBlockList} (hv : bbl.Valid) (hbs : bbl.block_size ≠ 0)
    {source : BlockSource} {len block : UInt32} (h : addBlock bbl source len block = .ok bbl') :
    bbl'.Valid ∧ bbl'.block_size = bbl.block_size := by
  -- A block number that is on the list already stops at an assertion.
  have hne : ∀ x ∈ bbl.data_blocks, x.block ≠ (bbl.node source len block).block := fun x hx heq => by
    have hclash : queueBb { bbl with next_addr := bbl.next_addr + 1 } (bbl.node source len block) =
        .error .assertion := queueBb_clash hv.allocated hbs hx heq
    rw [addBlock, show (⟨bbl.next_addr, block, len, source⟩ : BackedBlock) =
      bbl.node source len block from rfl, hclash] at h
    cases h
  obtain ⟨lu, heq, hlu⟩ := @queueBb_eq_insertBb _ hv.allocated hbs (bbl.node source len block) hne
  obtain ⟨⟨l, hperm, hsub⟩, -, -⟩ := queueBb_addrs heq
  obtain rfl := Except.ok.inj (h.symm.trans heq)
  -- The address of the new node has not been given out before.
  have hnodup : (l.map BackedBlock.addr).Nodup := by
    rw [(hperm.map BackedBlock.addr).nodup_iff, List.map_cons, List.nodup_cons]
    refine ⟨fun hmem => ?_, hv.nodup⟩
    obtain ⟨x, hx, hxa⟩ := List.mem_map.mp hmem
    exact Nat.lt_irrefl _ (hxa ▸ hv.fresh x hx)
  refine ⟨⟨insertBb_sorted hv.sorted hne, hlu, fun bb hbb => ?_, hnodup.sublist hsub⟩, rfl⟩
  obtain ⟨x, hx, hxa⟩ := List.mem_map.mp (hsub.mem (List.mem_map_of_mem hbb))
  rw [← hxa]
  rcases List.mem_cons.mp (hperm.mem_iff.mp hx) with rfl | hx
  · exact Nat.lt_succ_self _
  · exact Nat.lt_succ_of_lt (hv.fresh x hx)

end AmlogicToolkit.Simg
