import AmlogicToolkit.Simg.Adds
import AmlogicToolkit.Simg.Split

/-!
# The cached insertion point

Runs of additions and splits of one block list, beside the runs that forget `last_used` before each
operation and so search from the head every time. As long as the regions of the additions lie apart
and no split starts a node at block `2^32` or beyond, the two runs have the same nodes, in strictly
increasing order, and `last_used` is one of them (`run_tracks`). A split that starts a node beyond
that gives it a block number that has wrapped, below the one in front of it.
-/

namespace AmlogicToolkit.Simg

open Bytes Extents

/-- An operation on a block list. -/
inductive ListOp where
  /-- One of the four `backed_block_add_*`. -/
  | add (c : Call)
  /-- `backed_block_split` of the node at an address. -/
  | split (addr : ℕ) (max_len : UInt32)
  deriving DecidableEq

/-- `backed_block_add_data`, `_file`, `_fd` or `_fill`: the source says which one. -/
def Call.addTo (bbl : BackedBlockList) (c : Call) : Except Fault BackedBlockList :=
  match c.source with
  | .data data => backedBlockAddData bbl data c.len c.block
  | .file filename offset => backedBlockAddFile bbl filename offset c.len c.block
  | .fd fd offset => backedBlockAddFd bbl fd offset c.len c.block
  | .fill val => backedBlockAddFill bbl val c.len c.block

/-- One operation. `ALIGN_DOWN` divides by the block size. -/
def ListOp.run (bbl : BackedBlockList) : ListOp → Except Fault BackedBlockList
  | .add c => c.addTo bbl
  | .split addr max_len =>
    match bbl.data_blocks.find? (fun bb => bb.addr = addr) with
    | none => .error .useAfterFree
    | some bb =>
      if bbl.block_size = 0 then .error .divByZero else .ok (backedBlockSplit bbl bb max_len)

/-- A list after a sequence of operations on the empty one. -/
def runOps (bs : UInt32) (ops : List ListOp) : Except Fault BackedBlockList :=
  ops.foldlM ListOp.run (backedBlockListNew bs)

/-- The list without its cached insertion point. -/
def BackedBlockList.forget (bbl : BackedBlockList) : BackedBlockList :=
  { bbl with last_used := none }

/-- The same sequence where every search starts at the head. -/
def runFromHead (bs : UInt32) (ops : List ListOp) : Except Fault BackedBlockList :=
  ops.foldlM (fun bbl op => op.run bbl.forget) (backedBlockListNew bs)

/-- The additions of a sequence, without its splits. -/
def additions (ops : List ListOp) : List Call :=
  ops.filterMap fun
    | .add c => some c
    | .split _ _ => none

/-- Sequences of operations as the callers make them: the regions of the additions are not empty and
lie apart, and what is split is a node of the list, at one block or more. -/
structure Legal (bs : UInt32) (ops : List ListOp) : Prop where
  /-- The regions of the additions. -/
  allowed : Allowed bs (additions ops)
  /-- The nodes of the splits. -/
  node : ∀ pre addr max_len, pre ++ [.split addr max_len] <+: ops → ∀ bbl, runOps bs pre = .ok bbl →
    ∃ bb ∈ bbl.data_blocks, bb.addr = addr
  /-- The lengths of the splits. -/
  one_block : ∀ addr max_len, .split addr max_len ∈ ops → bs ≤ max_len

/-- What the cache must not change: a sequence runs through, `last_used` is `NULL` or a node of the
list, the list is in strictly increasing order, and its nodes are those that it has when every search
starts at the head. -/
def Cached (bs : UInt32) (ops : List ListOp) : Prop :=
  ∃ bbl, runOps bs ops = .ok bbl ∧
    (∀ a, bbl.last_used = some a → ∃ bb ∈ bbl.data_blocks, bb.addr = a) ∧
    Sorted bbl.data_blocks ∧
    ∃ bbl', runFromHead bs ops = .ok bbl' ∧ bbl'.data_blocks = bbl.data_blocks

/-- No split cuts a node so that its second part starts at block `2^32` or beyond. -/
def SplitsBelow (bs : UInt32) (ops : List ListOp) : Prop :=
  ∀ pre addr max_len, pre ++ [.split addr max_len] <+: ops → ∀ bbl, runOps bs pre = .ok bbl →
    ∀ bb ∈ bbl.data_blocks, bb.addr = addr → bs ≠ 0 ∧
      (max_len.toNat / bs.toNat * bs.toNat < bb.len.toNat →
        bb.block.toNat + max_len.toNat / bs.toNat < 2 ^ 32)

section

variable {bs : UInt32} {ops : List ListOp} {op : ListOp} {calls : List Call} {c : Call}
  {bbl : BackedBlockList}

/-! ## Sequences -/

/-- A sequence with one operation behind it is the sequence, then that operation. -/
theorem runOps_concat (bs : UInt32) (ops : List ListOp) (op : ListOp) :
    runOps bs (ops ++ [op]) = runOps bs ops >>= fun bbl => op.run bbl := by
  rw [runOps, List.foldlM_append]
  simp only [List.foldlM_cons, List.foldlM_nil, bind_pure]
  rfl

/-- A sequence that searches from the head, with one operation behind it, forgets the cache before
that operation. -/
theorem runFromHead_concat (bs : UInt32) (ops : List ListOp) (op : ListOp) :
    runFromHead bs (ops ++ [op]) = runFromHead bs ops >>= fun bbl => op.run bbl.forget := by
  rw [runFromHead, List.foldlM_append]
  simp only [List.foldlM_cons, List.foldlM_nil, bind_pure]
  rfl

/-- An addition is added at the end. -/
theorem additions_concat_add (ops : List ListOp) (c : Call) :
    additions (ops ++ [.add c]) = additions ops ++ [c] := by
  simp [additions]

/-- A split adds nothing. -/
theorem additions_concat_split (ops : List ListOp) (addr : ℕ) (max_len : UInt32) :
    additions (ops ++ [.split addr max_len]) = additions ops := by
  simp [additions]

/-- The first operations of a legal sequence are legal. -/
theorem Legal.mono {pre : List ListOp} (h : Legal bs ops) (hpre : pre <+: ops) : Legal bs pre := by
  have hsub : (additions pre).Sublist (additions ops) := hpre.sublist.filterMap _
  constructor
  · exact ⟨fun c hc => h.allowed.nonempty c (hsub.mem hc),
      h.allowed.apart.sublist (hsub.map _)⟩
  · intro pre' addr max_len hpre'
    exact h.node pre' addr max_len (hpre'.trans hpre)
  · intro addr max_len hmem
    exact h.one_block addr max_len (hpre.sublist.mem hmem)

/-- Splits that stay below block `2^32` do so in the first operations too. -/
theorem SplitsBelow.mono {pre : List ListOp} (h : SplitsBelow bs ops) (hpre : pre <+: ops) :
    SplitsBelow bs pre :=
  fun pre' addr max_len hpre' => h pre' addr max_len (hpre'.trans hpre)

/-- All calls add their source by one function. -/
theorem Call.addTo_eq (bbl : BackedBlockList) (c : Call) :
    c.addTo bbl = addBlock bbl c.source c.len c.block := by
  unfold Call.addTo
  split <;> rename_i h <;> rw [h] <;> rfl

/-- What is queued last has the address that the allocator gave. -/
theorem Call.addTo_fields {bbl' : BackedBlockList} (h : c.addTo bbl = .ok bbl') :
    bbl'.block_size = bbl.block_size ∧ bbl'.next_addr = bbl.next_addr + 1 := by
  rw [Call.addTo_eq] at h
  exact (queueBb_addrs h).2

/-- A split that runs through splits a node at the address. -/
theorem ListOp.run_split {bbl' : BackedBlockList} {addr : ℕ} {max_len : UInt32}
    (h : (ListOp.split addr max_len).run bbl = .ok bbl') :
    bbl.block_size ≠ 0 ∧ ∃ bb ∈ bbl.data_blocks, bb.addr = addr ∧
      bbl' = backedBlockSplit bbl bb max_len := by
  simp only [ListOp.run] at h
  split at h
  · cases h
  · rename_i bb hfind
    split_ifs at h with hbs
    cases h
    exact ⟨hbs, bb, List.mem_of_find?_eq_some hfind, by simpa using List.find?_some hfind, rfl⟩

/-- A split of a node of the list runs through, unless it divides by zero. -/
theorem ListOp.run_split_node {bb : BackedBlock} {addr : ℕ} (max_len : UInt32)
    (hbs : bbl.block_size ≠ 0) (hbb : bb ∈ bbl.data_blocks) (haddr : bb.addr = addr) :
    ∃ bbl', (ListOp.split addr max_len).run bbl = .ok bbl' := by
  simp only [ListOp.run]
  cases hfind : bbl.data_blocks.find? (fun bb => bb.addr = addr) with
  | none => simpa [haddr] using List.find?_eq_none.mp hfind bb hbb
  | some b => exact ⟨_, if_neg hbs⟩

/-- Every operation keeps the block size. -/
theorem runOps_block_size (h : runOps bs ops = .ok bbl) : bbl.block_size = bs := by
  induction ops using List.reverseRecOn generalizing bbl with
  | nil =>
    cases h
    rfl
  | append_singleton ops op ih =>
    rw [runOps_concat] at h
    cases hops : runOps bs ops with
    | error f =>
      rw [hops] at h
      cases h
    | ok mid =>
      rw [hops] at h
      change op.run mid = .ok bbl at h
      have hmid := ih hops
      cases op with
      | add c => exact (Call.addTo_fields h).1.trans hmid
      | split addr max_len =>
        obtain ⟨-, bb, -, -, rfl⟩ := ListOp.run_split h
        exact hmid

/-! ## The invariant -/

/-- What a sequence has made of a list: it is valid, its nodes lie apart, each starts inside the
region of an addition, and nothing is described that was not added. -/
structure Tracks (bs : UInt32) (bbl : BackedBlockList) (calls : List Call) : Prop where
  /-- The list is valid. -/
  valid : bbl.Valid
  /-- It has the block size. -/
  block_size : bbl.block_size = bs
  /-- No node ends after a later one starts. -/
  disjoint : Disjoint bs bbl.data_blocks
  /-- Every node starts inside a region. -/
  starts : ∀ y ∈ bbl.data_blocks, ∃ c ∈ calls,
    (c.extent bs).start ≤ (y.extent bs).start ∧ (y.extent bs).start < (c.extent bs).stop
  /-- Nothing is described but the regions. -/
  sub : ∀ p x, Describes bs bbl.data_blocks p x → Requested bs calls p x

/-- What a list holds does not change when `last_used` is forgotten. -/
theorem Tracks.forget (h : Tracks bs bbl calls) : Tracks bs bbl.forget calls :=
  ⟨⟨h.valid.sorted, fun _ ha => (nomatch ha), h.valid.fresh, h.valid.nodup⟩, h.block_size,
    h.disjoint, h.starts, h.sub⟩

/-- The nodes lie apart from a region that lies apart from the others, and start elsewhere. -/
theorem Tracks.apart (h : Tracks bs bbl calls) (ha : Allowed bs (calls ++ [c])) :
    (∀ y ∈ bbl.data_blocks, y.block ≠ c.block) ∧
      ∀ y ∈ bbl.data_blocks, Apart (y.extent bs) (c.extent bs) := by
  have hcpos := Call.len_pos (ha.nonempty c (by simp))
  constructor
  · -- A node starts in the region of an addition, where the new call does not start.
    intro y hy hblock
    obtain ⟨d, hd, hlow, hhigh⟩ := h.starts y hy
    have hdc := ha.last d hd
    simp only [Apart, BackedBlock.extent_start, Call.extent_start, Call.extent_stop, hblock]
      at hdc hlow hhigh
    omega
  · intro y hy
    by_cases hy0 : y.len.toNat = 0
    · -- An empty node lies where it starts, inside the region of another addition.
      obtain ⟨d, hd, hlow, hhigh⟩ := h.starts y hy
      have hdc := ha.last d hd
      simp only [Apart, BackedBlock.extent_start, BackedBlock.extent_stop, Call.extent_start,
        Call.extent_stop, hy0] at hdc hlow hhigh ⊢
      omega
    · -- Every byte of a node was added by some call.
      apply apart_of_disjoint (Nat.pos_of_ne_zero hy0) hcpos
      intro p h1 h2 h3 h4
      obtain ⟨e, he, h5, h6, -⟩ := h.sub p _ ⟨_, List.mem_map_of_mem hy, h1, h2, rfl⟩
      obtain ⟨d, hd, rfl⟩ := List.mem_map.mp he
      have hdc := ha.last d hd
      simp only [Apart] at hdc
      omega

/-- Where a list has a node and another region lies apart from it, the block size is not zero: all
regions of blocks of no bytes start at the same byte. -/
theorem Tracks.block_size_pos (h : Tracks bs bbl calls) (ha : Allowed bs (calls ++ [c]))
    (hne : bbl.data_blocks ≠ []) : bs ≠ 0 := by
  rintro rfl
  obtain ⟨y, hy⟩ := List.exists_mem_of_ne_nil _ hne
  obtain ⟨d, hd, -, hhigh⟩ := h.starts y hy
  have hdc := ha.last d hd
  have hcpos := Call.len_pos (ha.nonempty c (by simp))
  simp only [Apart, BackedBlock.extent_start, Call.extent_start, Call.extent_stop,
    UInt32.toNat_zero, Nat.mul_zero] at hdc hhigh
  omega

/-- What the first addition makes of an empty list. -/
theorem grows_nil (bs : UInt32) (c : Call) (addr : ℕ) :
    Grows bs [] c [⟨addr, c.block, c.len, c.source⟩] := by
  have hone : ∀ p x, Describes bs [⟨addr, c.block, c.len, c.source⟩] p x ↔
      (c.extent bs).Has BlockSource.label p x := by
    intro p x
    rw [Describes, extents, List.map_cons, described_cons]
    simp only [List.map_nil, described_nil, or_false]
    rfl
  have hnone : ∀ p x, ¬ Describes bs [] p x := described_nil BlockSource.label
  refine ⟨List.pairwise_singleton _ _, fun y hy => ?_, fun p x hx => Or.inr ((hone p x).mp hx), ?_,
    fun _ p x hx => (hone p x).mpr (hx.resolve_left (hnone p x))⟩
  · rw [List.mem_singleton.mp hy]
    exact Or.inl ⟨rfl, rfl⟩
  · simp

/-- What an addition makes of the list, wherever the search starts. -/
theorem Tracks.add_grows (h : Tracks bs bbl calls) (ha : Allowed bs (calls ++ [c])) :
    ∃ bbl', c.addTo bbl = .ok bbl' ∧ bbl'.Valid ∧
      bbl'.data_blocks = insertBb bs (bbl.node c.source c.len c.block) bbl.data_blocks ∧
      Grows bs bbl.data_blocks c bbl'.data_blocks := by
  obtain ⟨hblock, hap⟩ := h.apart ha
  rw [Call.addTo_eq]
  by_cases hnil : bbl.data_blocks = []
  · have hq : addBlock bbl c.source c.len c.block =
        .ok { bbl with data_blocks := [bbl.node c.source c.len c.block],
                       next_addr := bbl.next_addr + 1 } := by
      unfold addBlock queueBb
      simp only [hnil]
      rfl
    -- Without nodes there is nothing that `last_used` could name.
    have hnone : ∀ a, bbl.last_used ≠ some a := by
      intro a hlu
      obtain ⟨bb, hbb, -⟩ := h.valid.last_used a hlu
      rw [hnil] at hbb
      cases hbb
    rw [hnil]
    refine ⟨_, hq, ⟨List.pairwise_singleton _ _, fun a hlu => absurd hlu (hnone a), ?_,
      List.nodup_singleton _⟩, rfl, ?_⟩
    · intro bb hbb
      rw [List.mem_singleton.mp hbb]
      exact Nat.lt_succ_self _
    · exact grows_nil bs c bbl.next_addr
  · -- With nodes the block size is not zero, and the addition is the insertion.
    have hbs := h.block_size_pos ha hnil
    obtain rfl := h.block_size
    obtain ⟨bbl', heq, hv, -, -, hl⟩ := @addBlock_spec bbl h.valid hbs h.disjoint c.source c.len
      c.block hblock hap
    refine ⟨bbl', heq, hv, hl, ?_⟩
    rw [hl]
    exact insertBb_grows hbs h.valid.sorted h.disjoint hblock hap

/-- **An addition** keeps the invariant, and forgetting `last_used` before it changes nothing but
`last_used`. -/
theorem Tracks.add (h : Tracks bs bbl calls) (ha : Allowed bs (calls ++ [c])) :
    ∃ bbl' head, c.addTo bbl = .ok bbl' ∧ c.addTo bbl.forget = .ok head ∧
      head.forget = bbl'.forget ∧ Tracks bs bbl' (calls ++ [c]) := by
  obtain ⟨bbl', heq, hv, hl, hg⟩ := h.add_grows ha
  obtain ⟨head, heq', -, hl', -⟩ := h.forget.add_grows ha
  obtain ⟨hsize, hnext⟩ := Call.addTo_fields heq
  obtain ⟨hsize', hnext'⟩ := Call.addTo_fields heq'
  refine ⟨bbl', head, heq, heq', ?_, hv, hsize.trans h.block_size, hg.disjoint, ?_, ?_⟩
  · rw [BackedBlockList.forget, BackedBlockList.forget, hl, hl', hsize, hsize', hnext, hnext']
    rfl
  · intro y hy
    rcases hg.heads y hy with ⟨hblock, -⟩ | ⟨x, hx, hblock, -⟩
    · have hpos := Call.len_pos (ha.nonempty c (by simp))
      refine ⟨c, by simp, ?_, ?_⟩ <;>
        simp only [BackedBlock.extent_start, Call.extent_start, Call.extent_stop, hblock] <;> omega
    · obtain ⟨d, hd, hlow, hhigh⟩ := h.starts x hx
      rw [BackedBlock.extent_start, ← hblock] at hlow hhigh
      exact ⟨d, List.mem_append_left _ hd, hlow, hhigh⟩
  · intro p x hx
    rw [requested_concat]
    exact (hg.sub p x hx).imp (h.sub p x) id

/-- The two parts of a node in its place keep a list in strictly increasing order. -/
theorem sorted_cut {pre post : List BackedBlock} {bb a b : BackedBlock}
    (hs : Sorted (pre ++ bb :: post)) (ha : a.block = bb.block) (hab : a.block < b.block)
    (hb : ∀ y ∈ post, b.block < y.block) : Sorted (pre ++ a :: b :: post) := by
  obtain ⟨h1, h2, h3⟩ := List.pairwise_append.mp hs
  obtain ⟨h4, h5⟩ := List.pairwise_cons.mp h2
  refine List.pairwise_append.mpr ⟨h1, List.pairwise_cons.mpr ⟨fun y hy => ?_,
    List.pairwise_cons.mpr ⟨hb, h5⟩⟩, fun x hx y hy => ?_⟩
  · rcases List.mem_cons.mp hy with rfl | hy
    · exact hab
    · exact UInt32.lt_trans hab (hb y hy)
  · have hxa : x.block < a.block := ha ▸ h3 x hx bb List.mem_cons_self
    rcases List.mem_cons.mp hy with rfl | hy
    · exact hxa
    · rcases List.mem_cons.mp hy with rfl | hy
      · exact UInt32.lt_trans hxa hab
      · exact h3 x hx y (List.mem_cons_of_mem _ hy)

/-- **What a split leaves** of a node in its place, when it starts its second part below block
`2^32`: the list is in order and describes what it did, and the second part starts inside the node. -/
theorem splitBb_parts (hbs : bs ≠ 0) {bb a : BackedBlock} {rest pre post : List BackedBlock}
    {addr : ℕ} {max_len : UInt32} (hmax : bs ≤ max_len)
    (hbelow : max_len.toNat / bs.toNat * bs.toNat < bb.len.toNat →
      bb.block.toNat + max_len.toNat / bs.toNat < 2 ^ 32)
    (hsplit : splitBb bs addr bb max_len = a :: rest) (hs : Sorted (pre ++ bb :: post))
    (hd : Disjoint bs (pre ++ bb :: post)) :
    Sorted (pre ++ a :: (rest ++ post)) ∧ Disjoint bs (pre ++ a :: (rest ++ post)) ∧
      SameMap bs (pre ++ bb :: post) (pre ++ a :: (rest ++ post)) ∧
      ∀ y ∈ a :: rest, (bb.extent bs).start ≤ (y.extent bs).start ∧
        (y.block = bb.block ∨ (y.extent bs).start < (bb.extent bs).stop) := by
  have hpos := toNat_pos_of_ne_zero hbs
  rcases splitBb_cases hsplit with ⟨-, rfl, rfl⟩ | ⟨hcut, rfl, rfl⟩
  · refine ⟨hs, hd, SameMap.refl _ _, fun y hy => ?_⟩
    rw [List.mem_singleton.mp hy]
    exact ⟨Nat.le_refl _, Or.inl rfl⟩
  -- The first part ends at the last block that `max_len` holds.
  · have hdown := alignDown_toNat max_len bs
    have hlt := UInt32.lt_iff_toNat_lt.mp hcut
    obtain ⟨hdvd, h0⟩ := alignDown_spec hbs hmax
    have hquot : (alignDown max_len bs).toNat / bs.toNat = max_len.toNat / bs.toNat := by
      rw [hdown, Nat.mul_div_cancel_left _ hpos]
    have hquot0 : 0 < (alignDown max_len bs).toNat / bs.toNat :=
      Nat.div_pos (Nat.le_of_dvd h0 hdvd) hpos
    have hmul := Nat.div_mul_cancel hdvd
    have hblock := hbelow (by rw [Nat.mul_comm, ← hdown]; exact hlt)
    rw [← hquot] at hblock
    obtain ⟨hc, hj⟩ := continues_of_cut hbs hdvd hlt hblock addr
    have hnumber : (bb.block + alignDown max_len bs / bs).toNat =
        bb.block.toNat + (alignDown max_len bs).toNat / bs.toNat := by
      rw [UInt32.toNat_add, UInt32.toNat_div, Nat.mod_eq_of_lt hblock]
    refine ⟨sorted_cut hs rfl ?_ fun y hy => ?_, disjoint_cut hc hj hd, sameMap_cut hc hj,
      fun y hy => ?_⟩
    · rw [UInt32.lt_iff_toNat_lt, hnumber]
      exact Nat.lt_add_of_pos_right hquot0
    · -- The second part starts before the node ends, and so before the next node starts.
      have hbef : Before (bb.extent bs) (y.extent bs) :=
        (List.pairwise_cons.mp (List.pairwise_append.mp hd).2.1).1 y hy
      rw [Before, BackedBlock.extent_stop, BackedBlock.extent_start] at hbef
      rw [UInt32.lt_iff_toNat_lt, hnumber]
      refine Nat.lt_of_mul_lt_mul_right (a := bs.toNat) ?_
      rw [Nat.add_mul, hmul]
      omega
    · rcases List.mem_cons.mp hy with rfl | hy
      · exact ⟨Nat.le_refl _, Or.inl rfl⟩
      · rw [List.mem_singleton.mp hy]
        simp only [BackedBlock.extent_start, BackedBlock.extent_stop, hnumber, Nat.add_mul, hmul]
        exact ⟨by omega, Or.inr (by omega)⟩

/-- **A split** keeps the invariant, when it starts its second part below block `2^32`. -/
theorem Tracks.split (h : Tracks bs bbl calls) (hbs : bs ≠ 0) {bb : BackedBlock}
    (hbb : bb ∈ bbl.data_blocks) {max_len : UInt32} (hmax : bs ≤ max_len)
    (hbelow : max_len.toNat / bs.toNat * bs.toNat < bb.len.toNat →
      bb.block.toNat + max_len.toNat / bs.toNat < 2 ^ 32) :
    Tracks bs (backedBlockSplit bbl bb max_len) calls := by
  obtain ⟨pre, post, hl⟩ := List.append_of_mem hbb
  obtain rfl := h.block_size
  have hblocks := backedBlockSplit_blocks hl h.valid.nodup max_len
  obtain ⟨a, rest, hsplit, haddr, -⟩ := splitBb_cons bbl.block_size bbl.next_addr bb max_len
  obtain ⟨hnodup, hfresh⟩ := nodup_split hsplit (hl ▸ h.valid.nodup) (hl ▸ h.valid.fresh)
  rw [hsplit, List.cons_append] at hblocks
  -- The node keeps its address, so `last_used` stays a node of the list.
  have hlive : ∀ x, bbl.last_used = some x →
      ∃ y ∈ (backedBlockSplit bbl bb max_len).data_blocks, y.addr = x := by
    intro x hx
    obtain ⟨y, hy, hyx⟩ := h.valid.last_used x hx
    rw [hl, List.mem_append, List.mem_cons] at hy
    rw [hblocks]
    rcases hy with hy | rfl | hy
    · exact ⟨y, List.mem_append_left _ hy, hyx⟩
    · exact ⟨a, by simp, haddr.trans hyx⟩
    · exact ⟨y, by simp [hy], hyx⟩
  have hs := hl ▸ h.valid.sorted
  have hd := hl ▸ h.disjoint
  rw [← hblocks] at hnodup hfresh
  obtain ⟨hs', hd', hm, hparts⟩ := splitBb_parts hbs hmax hbelow hsplit hs hd
  have hmap : SameMap bbl.block_size bbl.data_blocks
      (backedBlockSplit bbl bb max_len).data_blocks := by
    rw [hblocks, hl]
    exact hm
  refine ⟨⟨hblocks ▸ hs', hlive, hfresh, hnodup⟩, rfl, hblocks ▸ hd', fun y hy => ?_,
    fun p x hx => h.sub p x ((hmap p x).mpr hx)⟩
  have hold : ∀ z ∈ bbl.data_blocks, y.block = z.block → ∃ c ∈ calls,
      (c.extent bbl.block_size).start ≤ (y.extent bbl.block_size).start ∧
        (y.extent bbl.block_size).start < (c.extent bbl.block_size).stop := by
    intro z hz hyz
    simpa only [BackedBlock.extent_start, hyz] using h.starts z hz
  rw [hblocks, List.mem_append, ← List.cons_append, List.mem_append] at hy
  rcases hy with hy | hy | hy
  · exact hold y (by rw [hl]; exact List.mem_append_left _ hy) rfl
  · obtain ⟨hlow, hblock | hhigh⟩ := hparts y hy
    · exact hold bb hbb hblock
    · -- The byte where the second part starts is one of the node.
      obtain ⟨e, he, h5, h6, -⟩ := h.sub _ _ ⟨_, List.mem_map_of_mem hbb, hlow, hhigh, rfl⟩
      obtain ⟨d, hd, rfl⟩ := List.mem_map.mp he
      exact ⟨d, hd, h5, h6⟩
  · exact hold y (by rw [hl]; simp [hy]) rfl

/-! ## Runs -/

/-- **A run** keeps the invariant, and forgetting `last_used` before every operation changes nothing
but `last_used`. -/
theorem run_tracks (h : Legal bs ops) (hbelow : SplitsBelow bs ops) :
    ∃ bbl head, runOps bs ops = .ok bbl ∧ runFromHead bs ops = .ok head ∧
      head.forget = bbl.forget ∧ Tracks bs bbl (additions ops) := by
  induction ops using List.reverseRecOn with
  | nil =>
    exact ⟨_, _, rfl, rfl, rfl, backedBlockListNew_valid bs, rfl, List.Pairwise.nil,
      fun _ hy => (nomatch hy), fun p x hx => absurd hx (described_nil _ p x)⟩
  | append_singleton ops op ih =>
    have hops : ops <+: ops ++ [op] := List.prefix_append ops [op]
    obtain ⟨bbl, head, hrun, hhead, hforget, ht⟩ := ih (h.mono hops) (hbelow.mono hops)
    rw [runOps_concat, runFromHead_concat, hrun, hhead]
    change ∃ bbl' head', op.run bbl = .ok bbl' ∧ op.run head.forget = .ok head' ∧ _
    rw [hforget]
    -- An addition and a split do the same to both lists, for the nodes are the same.
    cases op with
    | add c =>
      rw [additions_concat_add]
      obtain ⟨bbl', head', h1, h2, h3, h4⟩ := ht.add (additions_concat_add ops c ▸ h.allowed)
      exact ⟨bbl', head', h1, h2, h3, h4⟩
    | split addr max_len =>
      rw [additions_concat_split]
      have hpre : ops ++ [.split addr max_len] <+: ops ++ [.split addr max_len] :=
        List.prefix_refl _
      obtain ⟨bb, hbb, haddr⟩ := h.node ops addr max_len hpre bbl hrun
      have hbs : bs ≠ 0 := (hbelow ops addr max_len hpre bbl hrun bb hbb haddr).1
      have hbs' : bbl.block_size ≠ 0 := by rw [ht.block_size]; exact hbs
      obtain ⟨bbl', heq⟩ := ListOp.run_split_node max_len hbs' hbb haddr
      obtain ⟨-, b, hb, hba, rfl⟩ := ListOp.run_split heq
      obtain ⟨head', heq'⟩ := @ListOp.run_split_node bbl.forget bb addr max_len hbs' hbb haddr
      obtain ⟨-, b', hb', hba', rfl⟩ := ListOp.run_split heq'
      -- The split looks at the node only, not at `last_used`.
      have hsame : (backedBlockSplit bbl.forget b' max_len).forget =
          (backedBlockSplit bbl b max_len).forget := by
        unfold backedBlockSplit
        rw [hba, hba']
        rfl
      refine ⟨_, _, heq, heq', hsame, ?_⟩
      exact ht.split hbs hb (h.one_block addr max_len (by simp))
        (hbelow ops addr max_len hpre bbl hrun b hb hba).2

/-- Two runs to lists with the same nodes change nothing by their cache. -/
theorem Tracks.cached {head : BackedBlockList} (hrun : runOps bs ops = .ok bbl)
    (hhead : runFromHead bs ops = .ok head) (hforget : head.forget = bbl.forget)
    (h : Tracks bs bbl calls) : Cached bs ops := by
  have hnodes : head.forget.data_blocks = bbl.forget.data_blocks := by rw [hforget]
  exact ⟨bbl, hrun, h.valid.last_used, h.valid.sorted, head, hhead, hnodes⟩

/-- A split that starts its second part at block `2^32` or beyond gives it a number below that of the
first part. -/
theorem below_of_sorted {addr : ℕ} {max_len : UInt32} {bbl' : BackedBlockList}
    (h : (ListOp.split addr max_len).run bbl = .ok bbl') (hs : Sorted bbl'.data_blocks)
    {bb : BackedBlock} (hbb : bb ∈ bbl.data_blocks) (haddr : bb.addr = addr)
    (hcut : max_len.toNat / bbl.block_size.toNat * bbl.block_size.toNat < bb.len.toNat) :
    bb.block.toNat + max_len.toNat / bbl.block_size.toNat < 2 ^ 32 := by
  obtain ⟨hbs, b, -, hb, rfl⟩ := ListOp.run_split h
  have hdown := alignDown_toNat max_len bbl.block_size
  have hle : ¬ bb.len ≤ alignDown max_len bbl.block_size := by
    rw [UInt32.not_le, UInt32.lt_iff_toNat_lt, hdown, Nat.mul_comm]
    exact hcut
  -- Both parts of the node are in the list.
  have hsub : (splitBb bbl.block_size bbl.next_addr bb max_len).Sublist
      (backedBlockSplit bbl b max_len).data_blocks := by
    have hmem : splitBb bbl.block_size bbl.next_addr bb max_len ∈
        bbl.data_blocks.map fun x => if x.addr = b.addr then
          splitBb bbl.block_size bbl.next_addr x max_len else [x] :=
      List.mem_map.mpr ⟨bb, hbb, if_pos (haddr.trans hb.symm)⟩
    rw [backedBlockSplit, List.flatMap_def]
    exact List.sublist_flatten_of_mem hmem
  have hparts := hs.sublist hsub
  unfold splitBb at hparts
  dsimp only at hparts
  rw [if_neg hle] at hparts
  have hlt := (List.pairwise_cons.mp hparts).1 _ List.mem_cons_self
  have hquot : (alignDown max_len bbl.block_size / bbl.block_size).toNat =
      max_len.toNat / bbl.block_size.toNat := by
    rw [UInt32.toNat_div, hdown, Nat.mul_div_cancel_left _ (toNat_pos_of_ne_zero hbs)]
  rw [UInt32.lt_iff_toNat_lt, UInt32.toNat_add, hquot] at hlt
  have hmax : max_len.toNat / bbl.block_size.toNat ≤ max_len.toNat := Nat.div_le_self _ _
  have := max_len.toNat_lt
  have := bb.block.toNat_lt
  change bb.block.toNat < _ at hlt
  omega

/-- **Regions below block `2^32`** have no split that starts a node beyond it. -/
theorem splitsBelow_of_inside (hbs : bs ≠ 0) (h : Legal bs ops)
    (hin : ∀ c ∈ additions ops, (c.extent bs).stop ≤ 2 ^ 32 * bs.toNat) : SplitsBelow bs ops := by
  induction ops using List.reverseRecOn with
  | nil =>
    intro pre addr max_len hpre
    simp at hpre
  | append_singleton ops op ih =>
    have hinit : ∀ c ∈ additions ops, (c.extent bs).stop ≤ 2 ^ 32 * bs.toNat := by
      intro c hc
      apply hin c
      rw [additions, List.filterMap_append]
      exact List.mem_append_left _ hc
    have hops : ops <+: ops ++ [op] := List.prefix_append ops [op]
    have hbelow := ih (h.mono hops) hinit
    obtain ⟨bbl, -, hrun, -, -, ht⟩ := run_tracks (h.mono hops) hbelow
    intro pre addr max_len hpre bbl' hrun' bb hbb haddr
    rcases List.prefix_concat_iff.mp hpre with hlast | hpre
    · obtain ⟨rfl, -⟩ := List.append_inj' hlast rfl
      obtain rfl : bbl = bbl' := Except.ok.inj (hrun.symm.trans hrun')
      refine ⟨hbs, fun hcut => @block_of_stop bs bb ?_ _ hcut⟩
      -- The last byte of the node is one of a region.
      have hpos : 0 < bb.len.toNat := by omega
      have hdesc : Describes bs bbl.data_blocks ((bb.extent bs).stop - 1)
          (bb.source.label ((bb.extent bs).stop - 1 - (bb.extent bs).start)) := by
        refine ⟨_, List.mem_map_of_mem hbb, ?_, ?_, rfl⟩ <;>
          simp only [BackedBlock.extent_start, BackedBlock.extent_stop] <;> omega
      obtain ⟨e, he, -, hstop, -⟩ := ht.sub _ _ hdesc
      obtain ⟨c, hc, rfl⟩ := List.mem_map.mp he
      have hc' := hinit c hc
      omega
    · exact hbelow pre addr max_len hpre bbl' hrun' bb hbb haddr

/-- **The cached insertion point is only an optimisation** in every state of a run, exactly when no
split of the run starts a node at block `2^32` or beyond. The total length does not matter. -/
theorem cached_iff (h : Legal bs ops) :
    (∀ pre, pre <+: ops → Cached bs pre) ↔ SplitsBelow bs ops := by
  constructor
  · intro hcached pre addr max_len hpre bbl hrun bb hbb haddr
    obtain ⟨bbl', hrun', -, hs, -⟩ := hcached _ hpre
    rw [runOps_concat, hrun] at hrun'
    change (ListOp.split addr max_len).run bbl = .ok bbl' at hrun'
    obtain rfl := runOps_block_size hrun
    exact ⟨(ListOp.run_split hrun').1, below_of_sorted hrun' hs hbb haddr⟩
  · intro hbelow pre hpre
    obtain ⟨bbl, head, hrun, hhead, hforget, ht⟩ := run_tracks (h.mono hpre) (hbelow.mono hpre)
    exact ht.cached hrun hhead hforget

/-- One region that is split at once. -/
theorem legal_split_once {max_len : UInt32} (hlen : c.len ≠ 0) (hmax : bs ≤ max_len) :
    Legal bs [.add c, .split 0 max_len] := by
  constructor
  · exact ⟨by simpa [additions] using hlen, by simp [additions]⟩
  · intro pre addr max_len' hpre bbl hrun
    -- The split comes behind the one addition, which made the node with the address 0.
    rcases pre with _ | ⟨a, _ | ⟨b, pre⟩⟩
    · simp at hpre
    · simp only [List.cons_append, List.nil_append, List.cons_prefix_cons, ListOp.split.injEq,
        List.prefix_rfl, and_true] at hpre
      obtain ⟨rfl, rfl, -⟩ := hpre
      have hfirst : runOps bs [.add c] = .ok ⟨[⟨0, c.block, c.len, c.source⟩], none, bs, 1⟩ := by
        have hrun0 : runOps bs ([] ++ [.add c]) = c.addTo (backedBlockListNew bs) :=
          runOps_concat bs [] (.add c)
        rw [List.nil_append, Call.addTo_eq] at hrun0
        exact hrun0
      cases hfirst.symm.trans hrun
      exact ⟨_, List.mem_cons_self, rfl⟩
    · have := hpre.length_le
      simp at this
  · intro addr max_len' hmem
    simp only [List.mem_cons, reduceCtorEq, ListOp.split.injEq, List.not_mem_nil, or_false,
      false_or] at hmem
    exact hmem.2 ▸ hmax

/-- A fill of two blocks, split once, is a sequence that the cache does not change. -/
theorem cached_split_once :
    SplitsBelow 4096 [ListOp.add ⟨.fill 7, 8192, 5⟩, .split 0 4096] ∧
      ∀ pre, pre <+: [ListOp.add ⟨.fill 7, 8192, 5⟩, .split 0 4096] → Cached 4096 pre := by
  have hlegal : Legal 4096 [.add ⟨.fill 7, 8192, 5⟩, .split 0 4096] :=
    legal_split_once (by decide) (by decide)
  have hbelow := splitsBelow_of_inside (by decide) hlegal (by simp [additions])
  exact ⟨hbelow, (cached_iff hlegal).mpr hbelow⟩

/-- A fill of the last block and the one behind it, split in two: the second part is block 0. -/
theorem last_block_split_wraps :
    Legal 4096 [.add ⟨.fill 7, 8192, 0xffffffff⟩, .split 0 4096] ∧
      requestedLen (additions [.add ⟨.fill 7, 8192, 0xffffffff⟩, .split 0 4096]) < 2 ^ 32 ∧
      ¬ Cached 4096 [.add ⟨.fill 7, 8192, 0xffffffff⟩, .split 0 4096] := by
  refine ⟨legal_split_once (by decide) (by decide), by decide, ?_⟩
  rintro ⟨bbl, hrun, -, hs, -⟩
  have hwrap : runOps 4096 [.add ⟨.fill 7, 8192, 0xffffffff⟩, .split 0 4096] =
      .ok ⟨[⟨0, 0xffffffff, 4096, .fill 7⟩, ⟨1, 0, 4096, .fill 7⟩], none, 4096, 2⟩ := by rfl
  cases hwrap.symm.trans hrun
  exact absurd ((List.pairwise_cons.mp hs).1 _ List.mem_cons_self) (by decide)

end

end AmlogicToolkit.Simg
