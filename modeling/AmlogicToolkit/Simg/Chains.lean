import AmlogicToolkit.Simg.Adds

/-!
# Which calls are merged

A region follows another when it starts where the other stops and has what would come next: the
same fill word, or the next bytes of the same file or descriptor. Two such calls end up in one node
when the second comes later, and also when the first comes later, unless it is put in front of all
nodes: then the list is not searched and nothing is merged (`Joined`). The nodes of a list are
chains of joined calls, and the length of a node is 32 bits, so the list loses something exactly
when some chain is `2^32` bytes long or longer (`addAll_faithful_iff`).
-/

namespace AmlogicToolkit.Simg

open Bytes Extents

/-! ## Labels -/

/-- Two sources that agree at one place agree from there on. -/
theorem label_shift {s t : BlockSource} {i j : ℕ} (h : s.label i = t.label j) (k : ℕ) :
    s.label (i + k) = t.label (j + k) := by
  cases s <;> cases t <;> simp only [BlockSource.label, Label.data.injEq, Label.file.injEq,
    Label.fd.injEq, Label.fill.injEq, reduceCtorEq] at h ⊢
  all_goals first | omega | (refine ⟨h.1, ?_⟩; omega)

/-- Two sources that agree at one place are of one type. -/
theorem label_type {s t : BlockSource} {i j : ℕ} (h : s.label i = t.label j) : s.type = t.type := by
  cases s <;> cases t <;> simp only [BlockSource.label, reduceCtorEq] at h <;> rfl

/-- A node that may be merged with the next is not one of bytes in memory. -/
theorem type_ne_data_of_canMerge {bs : UInt32} {a b : BackedBlock} (h : canMerge bs a b) :
    a.source.type ≠ .data := by
  simp only [canMerge, Bool.and_eq_true] at h
  intro ha
  have hs := h.2
  unfold sourcesMerge at hs
  split at hs <;> rename_i h1 _ <;> simp_all [BlockSource.type]

/-- `merge_bb` merges a block with one that continues it, unless it is data. -/
theorem canMerge_of_continues {bs : UInt32} (hbs : bs ≠ 0) {a b : BackedBlock}
    (hty : a.source.type ≠ .data)
    (h : Continues BlockSource.label (a.extent bs) (b.extent bs)) : canMerge bs a b := by
  have hpos : 0 < bs.toNat := toNat_pos_of_ne_zero hbs
  have hstop := h.stop_eq
  have hlab : a.source.label a.len.toNat = b.source.label 0 := h.label_eq 0
  simp only [BackedBlock.extent_stop, BackedBlock.extent_start] at hstop
  -- The end of `a` in bytes is the start of `b`, and the division by the block size is exact there.
  have hblk : a.block.toNat + a.len.toNat / bs.toNat = b.block.toNat := by
    have h1 : (a.len.toNat + bs.toNat * a.block.toNat) / bs.toNat =
        a.len.toNat / bs.toNat + a.block.toNat := Nat.add_mul_div_left _ _ hpos
    have h2 : b.block.toNat * bs.toNat / bs.toNat = b.block.toNat := Nat.mul_div_cancel _ hpos
    rw [Nat.add_comm, ← h1, ← h2, ← hstop, Nat.mul_comm bs.toNat, Nat.add_comm]
  have hb := b.block.toNat_lt
  simp only [canMerge, Bool.and_eq_true, beq_iff_eq]
  refine ⟨⟨label_type hlab, ?_⟩, ?_⟩
  · apply UInt32.toNat_inj.mp
    rw [UInt32.toNat_add, UInt32.toNat_div, hblk, Nat.mod_eq_of_lt hb]
  · -- By the kinds of sources: equal labels are what `sources_merge` compares.
    unfold sourcesMerge
    cases ha : a.source <;> cases hb' : b.source <;>
      simp only [ha, hb', BlockSource.label, BlockSource.type, reduceCtorEq, Label.fill.injEq,
        Label.file.injEq, Label.fd.injEq, ne_eq, not_true_eq_false] at hlab hty ⊢
    · simp only [hlab.1, Bool.and_eq_true, beq_iff_eq, true_and]; omega
    · simp only [hlab.1, Bool.and_eq_true, beq_iff_eq, true_and]; omega
    · simp [hlab]

/-! ## Joined calls -/

/-- `Y` starts where `X` stops and goes on with what `X` describes. Data is never continued. -/
structure Call.Follows (bs : UInt32) (X Y : Call) : Prop where
  /-- `X` is not data. -/
  type_ne : X.source.type ≠ .data
  /-- The regions abut and the labels go on. -/
  continues : Continues BlockSource.label (X.extent bs) (Y.extent bs)

/-- `Y` follows `X`, and the two are merged: `Y` is called later, or `X` is called later and some
call before it has put a node in front of it. -/
def Joined (bs : UInt32) (calls : List Call) (X Y : Call) : Prop :=
  X.Follows bs Y ∧ ([X, Y].Sublist calls ∨
    [Y, X].Sublist calls ∧ ∃ Z, [Z, X].Sublist calls ∧ Z.block < X.block)

/-- No chain of joined calls is `2^32` bytes long. -/
def NoLongChain (bs : UInt32) (calls : List Call) : Prop :=
  ∀ chain : List Call, chain.IsChain (Joined bs calls) → requestedLen chain < 2 ^ 32

/-- Two elements stand in order in a list with one behind it when they do in the list, or the second
is that one. -/
theorem pair_sublist_concat {α : Type*} {l : List α} {a b c : α} :
    [a, b].Sublist (l ++ [c]) ↔ [a, b].Sublist l ∨ a ∈ l ∧ b = c := by
  constructor
  · intro h
    obtain ⟨l₁, l₂, heq, h1, h2⟩ := List.sublist_append_iff.mp h
    rcases List.sublist_singleton.mp h2 with rfl | rfl
    · rw [List.append_nil] at heq
      exact Or.inl (heq ▸ h1)
    · have hl : [a] ++ [b] = l₁ ++ [c] := heq
      obtain ⟨h3, h4⟩ := List.append_inj' hl rfl
      rw [← h3, List.singleton_sublist] at h1
      exact Or.inr ⟨h1, List.head_eq_of_cons_eq h4⟩
  · rintro (h | ⟨h, rfl⟩)
    · exact h.trans (List.sublist_append_left _ _)
    · exact (List.singleton_sublist.mpr h).append (List.Sublist.refl [b])

/-- Calls that are joined stay joined when more calls come. -/
theorem Joined.concat {bs : UInt32} {calls : List Call} {X Y : Call} (h : Joined bs calls X Y)
    (c : Call) : Joined bs (calls ++ [c]) X Y := by
  refine ⟨h.1, h.2.imp (fun h => h.trans (List.sublist_append_left _ _)) ?_⟩
  rintro ⟨h1, Z, h2, h3⟩
  exact ⟨h1.trans (List.sublist_append_left _ _), Z, h2.trans (List.sublist_append_left _ _), h3⟩

/-- Calls without a long chain have none without the last one either. -/
theorem NoLongChain.init {bs : UInt32} {calls : List Call} {c : Call}
    (h : NoLongChain bs (calls ++ [c])) : NoLongChain bs calls :=
  fun chain hc => h chain (hc.imp fun _ _ hj => hj.concat c)

/-- Joined calls are among the calls. -/
theorem Joined.mem {bs : UInt32} {calls : List Call} {X Y : Call} (h : Joined bs calls X Y) :
    X ∈ calls ∧ Y ∈ calls := by
  rcases h.2 with h | ⟨h, -⟩
  · exact ⟨h.mem (by simp), h.mem (by simp)⟩
  · exact ⟨h.mem (by simp), h.mem (by simp)⟩

/-- The calls of a chain that starts with one of the calls are all of them. -/
theorem chain_mem {bs : UInt32} {calls : List Call} {X : Call} {chain : List Call}
    (h : (X :: chain).IsChain (Joined bs calls)) (hX : X ∈ calls) : ∀ Z ∈ X :: chain, Z ∈ calls := by
  induction chain generalizing X with
  | nil =>
    intro Z hZ
    rw [List.mem_singleton.mp hZ]; exact hX
  | cons Y chain ih =>
    obtain ⟨hXY, hY⟩ := List.isChain_cons_cons.mp h
    intro Z hZ
    rcases List.mem_cons.mp hZ with rfl | hZ
    · exact hX
    · exact ih hY hXY.mem.2 Z hZ

/-- The last call of a chain stops where the chain does, and has what comes next. -/
theorem chain_last {bs : UInt32} {calls : List Call} {X : Call} {chain : List Call}
    (h : (X :: chain).IsChain (Joined bs calls)) : ∀ L ∈ (X :: chain).getLast?,
      (L.extent bs).stop = (X.extent bs).start + requestedLen (X :: chain) ∧
        ∀ k, X.source.label (requestedLen (X :: chain) + k) = L.source.label (L.len.toNat + k) := by
  induction chain generalizing X with
  | nil =>
    rintro L ⟨⟩
    simp [requestedLen]
  | cons Y chain ih =>
    obtain ⟨hXY, hY⟩ := List.isChain_cons_cons.mp h
    intro L hL
    rw [List.getLast?_cons_cons] at hL
    obtain ⟨h1, h2⟩ := ih hY L hL
    have hstop := hXY.1.continues.stop_eq
    have hsum : requestedLen (X :: Y :: chain) = X.len.toNat + requestedLen (Y :: chain) := by
      simp [requestedLen]
    refine ⟨?_, fun k => ?_⟩
    · rw [h1, hsum, ← hstop]
      simp only [Extent.stop, Call.extent_len]
      omega
    · have h3 : X.source.label (X.len.toNat + (requestedLen (Y :: chain) + k)) =
          Y.source.label (requestedLen (Y :: chain) + k) := hXY.1.continues.label_eq _
      rw [hsum, Nat.add_assoc, h3, h2]

/-! ## Without a long chain nothing is lost -/

/-- A chain of calls ends with one of the calls, at the end of its length. -/
theorem chain_end {bs : UInt32} {calls : List Call} {X : Call} {chain : List Call}
    (h : (X :: chain).IsChain (Joined bs calls)) (hX : X ∈ calls) : ∃ L ∈ calls,
      (L.extent bs).stop = (X.extent bs).start + requestedLen (X :: chain) ∧
        ∀ k, X.source.label (requestedLen (X :: chain) + k) = L.source.label (L.len.toNat + k) := by
  have hlast := List.getLast_mem_getLast? (List.cons_ne_nil X chain)
  exact ⟨_, chain_mem h hX _ (List.mem_of_mem_getLast? hlast), chain_last h _ hlast⟩

/-- A node is a chain of joined calls, at its exact length. -/
structure Spans (bs : UInt32) (calls : List Call) (y : BackedBlock) (X : Call)
    (chain : List Call) : Prop where
  /-- The calls are joined one to the next. -/
  joined : (X :: chain).IsChain (Joined bs calls)
  /-- The first call is one of the calls. -/
  mem : X ∈ calls
  /-- The node starts where the chain does. -/
  block : y.block = X.block
  /-- The node has the source of the first call. -/
  source : y.source = X.source
  /-- The length is that of the chain. -/
  len : y.len.toNat = requestedLen (X :: chain)

/-- A node that a chain of calls spans is spanned by it when a call is added. -/
theorem Spans.concat {bs : UInt32} {calls : List Call} {y : BackedBlock} {X : Call}
    {chain : List Call} (h : Spans bs calls y X chain) (c : Call) :
    Spans bs (calls ++ [c]) y X chain :=
  ⟨h.joined.imp fun _ _ hj => hj.concat c, List.mem_append_left _ h.mem, h.block, h.source, h.len⟩

/-- Merging two nodes whose chains are joined gives a node, when no chain is long. -/
theorem Spans.join {bs : UInt32} {calls : List Call} (hno : NoLongChain bs calls)
    {a b : BackedBlock} {X Y : Call} {ca cb : List Call} (ha : Spans bs calls a X ca)
    (hb : Spans bs calls b Y cb) (hj : ∀ L ∈ (X :: ca).getLast?, Joined bs calls L Y) :
    Spans bs calls (a.extend b) X (ca ++ Y :: cb) ∧
      (a.extend b).len.toNat = a.len.toNat + b.len.toNat := by
  have hchain : (X :: (ca ++ Y :: cb)).IsChain (Joined bs calls) := by
    rw [← List.cons_append, List.isChain_append]
    refine ⟨ha.joined, hb.joined, fun L hL Y' hY' => ?_⟩
    have : Y = Y' := by simpa using hY'
    exact this ▸ hj L hL
  have hsum : requestedLen (X :: (ca ++ Y :: cb)) = a.len.toNat + b.len.toNat := by
    rw [ha.len, hb.len]
    simp [requestedLen]
    omega
  have hlen : (a.extend b).len.toNat = a.len.toNat + b.len.toNat := by
    rw [BackedBlock.extend_len, Nat.mod_eq_of_lt (hsum ▸ hno _ hchain)]
  exact ⟨⟨hchain, ha.mem, ha.block, ha.source, hlen.trans hsum.symm⟩, hlen⟩

/-- When `merge_bb` merges two nodes, the chain of the second follows the last call of the first. -/
theorem Spans.follows {bs : UInt32} {calls calls' : List Call} {a b : BackedBlock} {X Y : Call}
    {ca cb : List Call} (ha : Spans bs calls a X ca) (hb : Spans bs calls' b Y cb)
    (hm : canMerge bs a b) (hlt : a.block < b.block) (hbef : Before (a.extent bs) (b.extent bs)) :
    ∀ L ∈ (X :: ca).getLast?, L.Follows bs Y := by
  intro L hL
  obtain ⟨h1, h2⟩ := chain_last ha.joined L hL
  have hc := continues_of_canMerge hm hlt hbef
  have hstop := hc.stop_eq
  have hlab : ∀ k, a.source.label (a.len.toNat + k) = b.source.label k := hc.label_eq
  simp only [BackedBlock.extent_stop, BackedBlock.extent_start, ha.block, ha.len, hb.block] at hstop
  refine ⟨?_, ?_, fun k => ?_⟩
  · have := label_type (h2 0)
    rw [← this, ← ha.source]
    exact type_ne_data_of_canMerge hm
  · rw [h1]; exact hstop
  · simp only [Call.extent, ← h2, ← ha.len, ← ha.source, hlab, hb.source]

/-- All nodes of a file are chains of joined calls. -/
def AllSpan (s : SparseFile) (calls : List Call) : Prop :=
  ∀ y ∈ s.blocks, ∃ X chain, Spans s.block_size calls y X chain

/-- A node keeps its source when it takes in the next one. -/
theorem absorbNext_source (bs : UInt32) (new_bb : BackedBlock) (rest : List BackedBlock) :
    (absorbNext bs new_bb rest).1.source = new_bb.source := by
  cases rest with
  | nil => rfl
  | cons nxt rest => simp only [absorbNext]; split_ifs <;> rfl

/-- The nodes left behind a node that took in the next one are of the same list. -/
theorem absorbNext_subset (bs : UInt32) (new_bb : BackedBlock) (rest : List BackedBlock) :
    ∀ y ∈ (absorbNext bs new_bb rest).2, y ∈ rest := by
  cases rest with
  | nil => exact fun _ h => h
  | cons nxt rest =>
    simp only [absorbNext]
    split_ifs
    · exact fun y hy => List.mem_cons_of_mem _ hy
    · exact fun y hy => hy

/-- The node of a call, as one of the nodes after the call. -/
theorem Spans.single (bs : UInt32) (calls : List Call) (addr : ℕ) (c : Call) :
    Spans bs (calls ++ [c]) ⟨addr, c.block, c.len, c.source⟩ c [] :=
  ⟨List.isChain_singleton _, by simp, rfl, rfl, by simp [requestedLen]⟩

/-- **The first merge** of an addition: the node of the call `c` with the node behind it, when there is
a call in front of `c`. -/
theorem Spans.absorbNext {bs : UInt32} {calls : List Call} {c Z : Call} {addr : ℕ}
    {rest : List BackedBlock} (hbs : bs ≠ 0) (hno : NoLongChain bs (calls ++ [c]))
    (hsp : ∀ y ∈ rest, ∃ Y chain, Spans bs calls y Y chain)
    (hap : ∀ y ∈ rest, Apart (y.extent bs) (c.extent bs)) (hgt : ∀ y ∈ rest, c.block < y.block)
    (hZ : Z ∈ calls) (hZc : Z.block < c.block) :
    ∃ chain, Spans bs (calls ++ [c])
        (absorbNext bs ⟨addr, c.block, c.len, c.source⟩ rest).1 c chain ∧
      (absorbNext bs ⟨addr, c.block, c.len, c.source⟩ rest).1.len.toNat +
        totalLen (absorbNext bs ⟨addr, c.block, c.len, c.source⟩ rest).2 =
          c.len.toNat + totalLen rest := by
  have hnew := Spans.single bs calls addr c
  cases rest with
  | nil => exact ⟨[], hnew, rfl⟩
  | cons nxt rest =>
    simp only [Simg.absorbNext]
    split_ifs with hm
    · have hlt : c.block < nxt.block := hgt nxt List.mem_cons_self
      obtain ⟨Y, cy, hY⟩ := hsp nxt List.mem_cons_self
      have hfol := hnew.follows hY hm hlt
        (before_of_apart hbs hlt (Or.symm (hap nxt List.mem_cons_self))) c rfl
      have hj : Joined bs (calls ++ [c]) c Y :=
        ⟨hfol, Or.inr ⟨pair_sublist_concat.mpr (Or.inr ⟨hY.mem, rfl⟩), Z,
          pair_sublist_concat.mpr (Or.inr ⟨hZ, rfl⟩), hZc⟩⟩
      obtain ⟨hs, hlen⟩ := hnew.join hno (hY.concat c) (by rintro L ⟨⟩; exact hj)
      exact ⟨_, hs, by rw [hlen, totalLen_cons, Nat.add_assoc]⟩
    · exact ⟨[], hnew, rfl⟩

/-- The step of the run: an addition joins chains, and no length is lost. -/
theorem AllSpan.add {s s' : SparseFile} {calls : List Call} {c : Call} (h : Holds s calls)
    (hsp : AllSpan s calls) (hbs : s.block_size ≠ 0) (ha : Allowed s.block_size (calls ++ [c]))
    (hno : NoLongChain s.block_size (calls ++ [c])) (hsize : s'.block_size = s.block_size)
    {addr : ℕ} (hl : s'.blocks = insertBb s.block_size ⟨addr, c.block, c.len, c.source⟩ s.blocks) :
    AllSpan s' (calls ++ [c]) ∧ totalLen s'.blocks = totalLen s.blocks + c.len.toNat := by
  unfold AllSpan
  rw [hsize, hl]
  clear hl hsize
  have hap := h.apart ha
  have hold : ∀ y ∈ s.blocks, ∃ X chain, Spans s.block_size (calls ++ [c]) y X chain :=
    fun y hy => (hsp y hy).imp fun X => Exists.imp fun chain hs => hs.concat c
  have hne := h.block_ne ha
  -- The new node stands in front of all, or behind some node `bb`.
  rcases @insertBb_cases s.block_size ⟨addr, c.block, c.len, c.source⟩ _
    h.valid.list.sorted hne with ⟨-, heq⟩ | ⟨pre, bb, rest, hcut, heq⟩
  · have heq' : insertBb s.block_size ⟨addr, c.block, c.len, c.source⟩ s.blocks =
        ⟨addr, c.block, c.len, c.source⟩ :: s.blocks := heq
    rw [heq']
    exact ⟨List.forall_mem_cons.mpr ⟨⟨c, [], Spans.single _ _ _ _⟩, hold⟩,
      by rw [totalLen_cons, Nat.add_comm]⟩
  · have heq' : insertBb s.block_size ⟨addr, c.block, c.len, c.source⟩ s.blocks =
        pre ++ linkBb s.block_size bb ⟨addr, c.block, c.len, c.source⟩ rest := heq
    have hl : s.blocks = pre ++ bb :: rest := hcut.eq
    unfold AllSpan at hsp
    rw [heq', hl]
    rw [hl] at hold hap hsp
    obtain ⟨hpre, hbb, hrest⟩ := List.forall_mem_append.mp hold |>.imp_right
      List.forall_mem_cons.mp
    obtain ⟨Xb, cb, hXb⟩ := hsp bb (by simp)
    have hbehind : ∀ y ∈ rest, y ∈ pre ++ bb :: rest := fun y hy => by simp [hy]
    obtain ⟨chain, hs, hlen⟩ := @Spans.absorbNext s.block_size calls c Xb addr rest hbs hno
      (fun y hy => hsp y (hbehind y hy)) (fun y hy => hap y (hbehind y hy)) hcut.gt hXb.mem
      (hXb.block ▸ hcut.lt)
    have hrest' := fun y hy => hrest y
      (absorbNext_subset s.block_size ⟨addr, c.block, c.len, c.source⟩ rest y hy)
    simp only [linkBb]
    split_ifs with hm
    · -- The second merge: `bb` with what the first one has left.
      have hblk := absorbNext_block s.block_size ⟨addr, c.block, c.len, c.source⟩ rest
      have hbef : Before (bb.extent s.block_size) ((absorbNext s.block_size
          ⟨addr, c.block, c.len, c.source⟩ rest).1.extent s.block_size) := by
        have hb := before_of_apart (b := ⟨addr, c.block, c.len, c.source⟩) hbs hcut.lt
          (hap bb (by simp))
        simp only [Before, BackedBlock.extent_start, hblk] at hb ⊢
        exact hb
      have hfol := hXb.follows hs hm (hblk ▸ hcut.lt) hbef
      have hj : ∀ L ∈ (Xb :: cb).getLast?, Joined s.block_size (calls ++ [c]) L c := by
        intro L hL
        have hLmem : L ∈ calls :=
          chain_mem hXb.joined hXb.mem L (List.mem_of_mem_getLast? hL)
        exact ⟨hfol L hL, Or.inl (pair_sublist_concat.mpr (Or.inr ⟨hLmem, rfl⟩))⟩
      obtain ⟨hs', hlen'⟩ := (hXb.concat c).join hno hs hj
      refine ⟨List.forall_mem_append.mpr ⟨hpre, List.forall_mem_cons.mpr ⟨⟨_, _, hs'⟩, hrest'⟩⟩, ?_⟩
      simp only [totalLen_append, totalLen_cons, hlen']
      omega
    · refine ⟨List.forall_mem_append.mpr ⟨hpre, List.forall_mem_cons.mpr
        ⟨hbb, List.forall_mem_cons.mpr ⟨⟨_, _, hs⟩, hrest'⟩⟩⟩, ?_⟩
      simp only [totalLen_append, totalLen_cons]
      omega

/-! ## Where nothing is lost no chain is long -/

/-- Where nothing is lost, some node describes a given byte of a call. -/
theorem Faithful.node_at {s : SparseFile} {calls : List Call} (hf : Faithful s calls) {X : Call}
    (hX : X ∈ calls) {p : ℕ} (h1 : (X.extent s.block_size).start ≤ p)
    (h2 : p < (X.extent s.block_size).stop) :
    ∃ y ∈ s.blocks, (y.extent s.block_size).start ≤ p ∧ p < (y.extent s.block_size).stop ∧
      y.source.label (p - (y.extent s.block_size).start) =
        X.source.label (p - (X.extent s.block_size).start) := by
  obtain ⟨e, he, h3, h4, h5⟩ := (hf p _).mpr ⟨_, List.mem_map_of_mem hX, h1, h2, rfl⟩
  obtain ⟨y, hy, rfl⟩ := List.mem_map.mp he
  exact ⟨y, hy, h3, h4, h5⟩

/-- No node starts where a joined call does: the call is inside the node of the one before it. -/
def Absorbed (s : SparseFile) (calls : List Call) : Prop :=
  ∀ X Y, Joined s.block_size calls X Y → ∀ y ∈ s.blocks, y.block ≠ Y.block

/-- The start of a block is below that of another one exactly when its number is. -/
theorem start_lt_iff {bs : UInt32} (hbs : bs ≠ 0) (a b : UInt32) :
    a.toNat * bs.toNat < b.toNat * bs.toNat ↔ a < b := by
  have hpos : 0 < bs.toNat := toNat_pos_of_ne_zero hbs
  rw [Nat.mul_lt_mul_right hpos, UInt32.lt_iff_toNat_lt]

/-- Blocks that start at the same byte are the same block. -/
theorem start_inj {bs : UInt32} (hbs : bs ≠ 0) {a b : UInt32}
    (h : a.toNat * bs.toNat = b.toNat * bs.toNat) : a = b := by
  have hpos : 0 < bs.toNat := toNat_pos_of_ne_zero hbs
  exact UInt32.toNat_inj.mp (Nat.eq_of_mul_eq_mul_right hpos h)

/-- The nodes in front of the cut are below the block. -/
theorem CutAt.low {l pre rest : List BackedBlock} {block : UInt32} {bb : BackedBlock}
    (h : CutAt l block pre bb rest) (hs : Sorted l) : ∀ x ∈ pre, x.block < block := by
  intro x hx
  rw [h.eq] at hs
  exact UInt32.lt_trans ((List.pairwise_append.mp hs).2.2 x hx bb List.mem_cons_self) h.lt

section Step

variable {s : SparseFile} {calls : List Call} {c : Call} {addr : ℕ}

/-- A call that comes after the one that it follows is merged into the node in front of it. -/
theorem absorbed_behind (h : Holds s calls) (hf : Faithful s calls) (hbs : s.block_size ≠ 0)
    (ha : Allowed s.block_size (calls ++ [c])) {X : Call} (hX : X ∈ calls)
    (hXc : X.Follows s.block_size c) :
    ∀ y ∈ insertBb s.block_size ⟨addr, c.block, c.len, c.source⟩ s.blocks, y.block ≠ c.block := by
  have hap := h.apart ha
  have hne := h.block_ne ha
  have hXpos := Call.len_pos (ha.nonempty X (List.mem_append_left _ hX))
  have hXstop : X.block.toNat * s.block_size.toNat + X.len.toNat =
      c.block.toNat * s.block_size.toNat := hXc.continues.stop_eq
  have hXlab : ∀ k, X.source.label (X.len.toNat + k) = c.source.label k := hXc.continues.label_eq
  -- The node with the last byte of `X`.
  obtain ⟨y, hy, hy1, hy2, hylab⟩ := hf.node_at hX
    (p := c.block.toNat * s.block_size.toNat - 1) (by rw [Call.extent_start]; omega)
    (by rw [Call.extent_stop]; omega)
  simp only [BackedBlock.extent_start, BackedBlock.extent_stop, Call.extent_start] at hy1 hy2 hylab
  have hyc : y.block < c.block := (start_lt_iff hbs _ _).mp (by omega)
  rcases @insertBb_cases s.block_size ⟨addr, c.block, c.len, c.source⟩ _
    h.valid.list.sorted hne with ⟨hall, -⟩ | ⟨pre, bb, rest, hcut, heq⟩
  · exact absurd (hall y hy) (UInt32.lt_asymm hyc)
  have hl : s.blocks = pre ++ bb :: rest := hcut.eq
  have hd : Disjoint s.block_size (pre ++ bb :: rest) := hl ▸ h.valid.disjoint
  have hbb := (start_lt_iff hbs _ _).mpr hcut.lt
  have hybb : y = bb := by
    rw [hl] at hy
    rcases List.mem_append.mp hy with hy | hy
    · have hb := (List.pairwise_append.mp hd).2.2 y hy bb List.mem_cons_self
      simp only [Before, BackedBlock.extent_stop, BackedBlock.extent_start] at hb
      simp only at hbb
      omega
    rcases List.mem_cons.mp hy with rfl | hy
    · rfl
    · exact absurd (hcut.gt y hy) (UInt32.lt_asymm hyc)
  subst hybb
  have hbef := before_of_apart (b := ⟨addr, c.block, c.len, c.source⟩) hbs hcut.lt
    (hap y (by rw [hl]; simp))
  simp only [Before, BackedBlock.extent_stop, BackedBlock.extent_start] at hbef
  have hm : canMerge s.block_size y
      (absorbNext s.block_size ⟨addr, c.block, c.len, c.source⟩ rest).1 := by
    refine canMerge_of_continues hbs (label_type hylab ▸ hXc.type_ne) ⟨?_, fun k => ?_⟩
    · simp only [BackedBlock.extent_stop, BackedBlock.extent_start, absorbNext_block]
      omega
    · have hk := label_shift hylab (k + 1)
      simp only [BackedBlock.extent, absorbNext_source]
      rw [← hXlab k]
      convert hk using 2 <;> omega
  have heq' : insertBb s.block_size ⟨addr, c.block, c.len, c.source⟩ s.blocks =
      pre ++ linkBb s.block_size y ⟨addr, c.block, c.len, c.source⟩ rest := heq
  rw [heq']
  simp only [linkBb, if_pos hm]
  intro z hz
  rcases List.mem_append.mp hz with hz | hz
  · exact UInt32.ne_of_lt (hcut.low h.valid.list.sorted z hz)
  rcases List.mem_cons.mp hz with rfl | hz
  · exact UInt32.ne_of_lt hyc
  · exact (UInt32.ne_of_lt (hcut.gt z (absorbNext_subset _ _ _ z hz))).symm

/-- When a call ends where one of the calls before it starts, a node starts there. -/
theorem Faithful.node_ahead (hf : Faithful s calls) (h : Holds s calls) (hbs : s.block_size ≠ 0)
    (ha : Allowed s.block_size (calls ++ [c])) {Y : Call} (hY : Y ∈ calls)
    (hcY : c.Follows s.block_size Y) :
    ∃ y ∈ s.blocks, y.block = Y.block ∧ c.block < y.block ∧
      ∀ k, y.source.label k = Y.source.label k := by
  have hcpos := Call.len_pos (ha.nonempty c (by simp))
  have hYpos := Call.len_pos (ha.nonempty Y (List.mem_append_left _ hY))
  have hcstop : c.block.toNat * s.block_size.toNat + c.len.toNat =
      Y.block.toNat * s.block_size.toNat := hcY.continues.stop_eq
  -- The node with the first byte of `Y` starts there.
  obtain ⟨y, hy, hy1, hy2, hylab⟩ := hf.node_at hY (p := Y.block.toNat * s.block_size.toNat)
    (by rw [Call.extent_start]) (by rw [Call.extent_stop]; omega)
  simp only [BackedBlock.extent_start, BackedBlock.extent_stop, Call.extent_start] at hy1 hy2 hylab
  have hyap := h.apart ha y hy
  simp only [Apart, BackedBlock.extent_start, BackedBlock.extent_stop, Call.extent_start,
    Call.extent_stop] at hyap
  have hystart : y.block.toNat * s.block_size.toNat = Y.block.toNat * s.block_size.toNat := by omega
  refine ⟨y, hy, start_inj hbs hystart, (start_lt_iff hbs _ _).mp (by omega), fun k => ?_⟩
  have hk := label_shift hylab k
  rwa [hystart, Nat.sub_self, Nat.zero_add] at hk

/-- No node is between a block and the node that starts where the block ends. -/
theorem CutAt.head_eq {l pre rest : List BackedBlock} {bs : UInt32} {bb nxt y : BackedBlock}
    (hcut : CutAt l c.block pre bb (nxt :: rest)) (hbs : bs ≠ 0) (hs : Sorted l)
    (hd : Disjoint bs l) (hap : Apart (nxt.extent bs) (c.extent bs))
    (hstop : (c.extent bs).stop = (y.extent bs).start) (hy : y ∈ nxt :: rest) : y = nxt := by
  rw [hcut.eq] at hs hd
  have hdr := (List.pairwise_cons.mp (List.pairwise_append.mp hd).2.1).2
  have hsr := (List.pairwise_cons.mp (List.pairwise_append.mp hs).2.1).2
  rcases List.mem_cons.mp hy with h | hy'
  · exact h
  · have hb : Before _ _ := (List.pairwise_cons.mp hdr).1 y hy'
    have hlt := (start_lt_iff hbs _ _).mpr ((List.pairwise_cons.mp hsr).1 y hy')
    have hcn := (start_lt_iff hbs _ _).mpr (hcut.gt nxt List.mem_cons_self)
    simp only [Before, Apart, BackedBlock.extent_start, BackedBlock.extent_stop,
      Call.extent_start, Call.extent_stop] at hb hap hstop
    omega

/-- A call that comes before the one that it follows takes in the node of that call, when it is not
put in front of all nodes. -/
theorem absorbed_ahead (h : Holds s calls) (hf : Faithful s calls) (hbs : s.block_size ≠ 0)
    (ha : Allowed s.block_size (calls ++ [c])) {Y Z : Call} (hY : Y ∈ calls)
    (hcY : c.Follows s.block_size Y) (hZ : Z ∈ calls) (hZc : Z.block < c.block) :
    ∀ y ∈ insertBb s.block_size ⟨addr, c.block, c.len, c.source⟩ s.blocks, y.block ≠ Y.block := by
  obtain ⟨y, hy, hyblk, hcy, hylab⟩ := hf.node_ahead h hbs ha hY hcY
  have hlow : ∀ z : BackedBlock, z.block ≤ c.block → z.block ≠ Y.block := fun z hz =>
    UInt32.ne_of_lt (UInt32.lt_of_le_of_lt hz (hyblk ▸ hcy))
  rcases @insertBb_cases s.block_size ⟨addr, c.block, c.len, c.source⟩ _
    h.valid.list.sorted (h.block_ne ha) with ⟨hall, -⟩ | ⟨pre, bb, rest, hcut, heq⟩
  · -- The node with the first byte of `Z` is below `c`.
    have hZpos := Call.len_pos (ha.nonempty Z (List.mem_append_left _ hZ))
    obtain ⟨z, hz, hz1, -, -⟩ := hf.node_at hZ (p := Z.block.toNat * s.block_size.toNat)
      (by rw [Call.extent_start]) (by rw [Call.extent_stop]; omega)
    have hcz := (start_lt_iff hbs _ _).mpr (hall z hz)
    have hZc' := (start_lt_iff hbs _ _).mpr hZc
    simp only [BackedBlock.extent_start] at hz1 hcz
    omega
  have hl : s.blocks = pre ++ bb :: rest := hcut.eq
  have hpre := hcut.low h.valid.list.sorted
  -- The node of `Y` is behind the cut, and the first one there.
  have hyrest : y ∈ rest := by
    rw [hl] at hy
    rcases List.mem_append.mp hy with hy | hy
    · exact absurd (hpre y hy) (UInt32.lt_asymm hcy)
    rcases List.mem_cons.mp hy with rfl | hy
    · exact absurd hcut.lt (UInt32.lt_asymm hcy)
    · exact hy
  cases rest with
  | nil => cases hyrest
  | cons nxt rest =>
    have hstop : (c.extent s.block_size).stop = (y.extent s.block_size).start := by
      rw [BackedBlock.extent_start, hyblk]
      exact hcY.continues.stop_eq
    obtain rfl := CutAt.head_eq (c := c) hcut hbs h.valid.list.sorted h.valid.disjoint
      (h.apart ha nxt (by rw [hl]; simp)) hstop hyrest
    -- So it is merged into the node of `c`.
    have hm : canMerge s.block_size ⟨addr, c.block, c.len, c.source⟩ y :=
      canMerge_of_continues hbs hcY.type_ne ⟨hstop, fun k =>
        (hcY.continues.label_eq k).trans (hylab k).symm⟩
    have heq' : insertBb s.block_size ⟨addr, c.block, c.len, c.source⟩ s.blocks =
        pre ++ linkBb s.block_size bb ⟨addr, c.block, c.len, c.source⟩ (y :: rest) := heq
    rw [heq']
    simp only [linkBb, absorbNext, if_pos hm]
    have hsr : Sorted (y :: rest) := by
      have hs : Sorted (pre ++ bb :: y :: rest) := hl ▸ h.valid.list.sorted
      exact (List.pairwise_cons.mp (List.pairwise_append.mp hs).2.1).2
    have hrest : ∀ z ∈ rest, z.block ≠ Y.block := fun z hz =>
      (UInt32.ne_of_lt (hyblk ▸ (List.pairwise_cons.mp hsr).1 z hz)).symm
    have hbb : bb.block ≠ Y.block := hlow bb (UInt32.le_of_lt hcut.lt)
    refine List.forall_mem_append.mpr ⟨fun z hz => hlow z (UInt32.le_of_lt (hpre z hz)), ?_⟩
    split_ifs
    · exact List.forall_mem_cons.mpr ⟨hbb, hrest⟩
    · exact List.forall_mem_cons.mpr ⟨hbb, List.forall_mem_cons.mpr
        ⟨hlow _ (UInt32.le_refl _), hrest⟩⟩

/-- The step of the run: a call that is joined to one before it is absorbed. -/
theorem Absorbed.add {s' : SparseFile} (h : Holds s calls) (hab : Absorbed s calls)
    (hf : Faithful s calls) (hbs : s.block_size ≠ 0) (ha : Allowed s.block_size (calls ++ [c]))
    (hsize : s'.block_size = s.block_size)
    (hl : s'.blocks = insertBb s.block_size ⟨addr, c.block, c.len, c.source⟩ s.blocks)
    (hg : Grows s.block_size s.blocks c s'.blocks) : Absorbed s' (calls ++ [c]) := by
  intro X Y hXY
  rw [hsize] at hXY
  -- Two calls that were joined before have no node between them, and get none.
  have hold : Joined s.block_size calls X Y → ∀ y ∈ s'.blocks, y.block ≠ Y.block := by
    intro hj y hy
    rcases hg.heads y hy with ⟨hyc, -⟩ | ⟨x, hx, hyx, -⟩
    · rw [hyc]; exact (ha.block_ne Y hj.mem.2).symm
    · rw [hyx]; exact hab X Y hj x hx
  have hc : c ∉ calls := fun hc => ha.block_ne c hc rfl
  obtain ⟨hfol, hord⟩ := hXY
  rcases hord with h1 | ⟨h1, Z, h2, h3⟩
  · -- The second of the two calls is the new one.
    rcases pair_sublist_concat.mp h1 with h1 | ⟨hX, rfl⟩
    · exact hold ⟨hfol, Or.inl h1⟩
    · rw [hl]; exact absorbed_behind h hf hbs ha hX hfol
  · rcases pair_sublist_concat.mp h1 with hYX | ⟨hY, rfl⟩
    · rcases pair_sublist_concat.mp h2 with h2 | ⟨-, rfl⟩
      · exact hold ⟨hfol, Or.inr ⟨hYX, Z, h2, h3⟩⟩
      · exact absurd (hYX.mem (List.mem_cons_of_mem _ List.mem_cons_self)) hc
    · -- The new call stands between them only if it is the second.
      rcases pair_sublist_concat.mp h2 with h2 | ⟨hZ, -⟩
      · exact absurd (h2.mem (by simp)) hc
      · rw [hl]; exact absorbed_ahead h hf hbs ha hY hfol hZ h3

end Step

/-- Two calls with a common position are one. -/
theorem Allowed.eq_of_common {bs : UInt32} {calls : List Call} (ha : Allowed bs calls)
    {V W : Call} (hV : V ∈ calls) (hW : W ∈ calls) {p : ℕ} (h1 : (V.extent bs).start ≤ p)
    (h2 : p < (V.extent bs).stop) (h3 : (W.extent bs).start ≤ p) (h4 : p < (W.extent bs).stop) :
    V.extent bs = W.extent bs := by
  by_contra hne
  have := ha.apart.forall (List.mem_map_of_mem hV) (List.mem_map_of_mem hW) hne
  simp only [Apart] at this
  omega

/-- A node that starts where `y` stops, at a byte of a call, starts where that call does. -/
theorem Faithful.node_behind {s : SparseFile} {calls : List Call} (hf : Faithful s calls)
    (h : Holds s calls) (hbs : s.block_size ≠ 0) (ha : Allowed s.block_size calls)
    {y : BackedBlock} (hy : y ∈ s.blocks) {W : Call} (hW : W ∈ calls)
    (h1 : (W.extent s.block_size).start ≤ (y.extent s.block_size).stop)
    (h2 : (y.extent s.block_size).stop < (W.extent s.block_size).stop)
    (h3 : (y.extent s.block_size).start < (y.extent s.block_size).stop) :
    ∃ z ∈ s.blocks, z.block = W.block ∧
      (W.extent s.block_size).start = (y.extent s.block_size).stop := by
  have hd : Disjoint s.block_size s.blocks := h.valid.disjoint
  obtain ⟨z, hz, hz1, hz2, -⟩ := hf.node_at hW h1 h2
  have hyz : Apart (y.extent s.block_size) (z.extent s.block_size) := by
    have hne : y.extent s.block_size ≠ z.extent s.block_size := fun he => by
      rw [he] at hz2 ; omega
    exact hd.apart.forall (List.mem_map_of_mem hy) (List.mem_map_of_mem hz) hne
  -- The node starts with a call `V`, and the byte is in both calls.
  obtain ⟨V, hV, hzV, -⟩ := h.heads z hz
  have hzV' : (z.extent s.block_size).start = (V.extent s.block_size).start := by
    rw [BackedBlock.extent_start, hzV, Call.extent_start]
  have hVpos := Call.len_pos (ha.nonempty V hV)
  have hVstop : (V.extent s.block_size).stop = (V.extent s.block_size).start + V.len.toNat := rfl
  have hstart : (V.extent s.block_size).start = (y.extent s.block_size).stop := by
    simp only [Apart] at hyz
    omega
  have hVW : (V.extent s.block_size).start = (W.extent s.block_size).start :=
    congrArg Extent.start (ha.eq_of_common hV hW hstart.le (by omega) h1 h2)
  exact ⟨z, hz, hzV.trans (start_inj hbs hVW), hVW.symm.trans hstart⟩

/-- A node that holds the first byte of a chain holds all of it. -/
theorem chain_inside {s : SparseFile} {calls : List Call} (h : Holds s calls)
    (hf : Faithful s calls) (hab : Absorbed s calls) (hbs : s.block_size ≠ 0)
    (ha : Allowed s.block_size calls) {X : Call} {chain : List Call}
    (hc : (X :: chain).IsChain (Joined s.block_size calls)) (hX : X ∈ calls) :
    ∀ y ∈ s.blocks, (y.extent s.block_size).start ≤ (X.extent s.block_size).start →
      (X.extent s.block_size).start < (y.extent s.block_size).stop →
      (X.extent s.block_size).start + requestedLen (X :: chain) ≤
        (y.extent s.block_size).stop := by
  induction chain generalizing X with
  | nil =>
    -- A node that starts at the call and ends inside it would leave bytes without a node.
    intro y hy h1 h2
    by_contra hlt
    have hX' : (X.extent s.block_size).start + requestedLen [X] =
        (X.extent s.block_size).stop := by simp [requestedLen]
    rw [hX'] at hlt
    obtain ⟨z, -, -, hzX⟩ := hf.node_behind h hbs ha hy hX (by omega) (by omega) (by omega)
    omega
  | cons Y chain ih =>
    obtain ⟨hXY, hY⟩ := List.isChain_cons_cons.mp hc
    intro y hy h1 h2
    have hYmem := hXY.mem.2
    have hYpos := Call.len_pos (ha.nonempty Y hYmem)
    have hstop := hXY.1.continues.stop_eq
    -- The whole call lies in the node, and the next call starts in it, because it was absorbed.
    have hXin : (X.extent s.block_size).stop ≤ (y.extent s.block_size).stop := by
      by_contra hlt
      obtain ⟨z, -, -, hzX⟩ := hf.node_behind h hbs ha hy hX (by omega) (by omega) (by omega)
      omega
    have hYin : (Y.extent s.block_size).start < (y.extent s.block_size).stop := by
      by_contra hge
      obtain ⟨z, hz, hzY, -⟩ := hf.node_behind h hbs ha hy hYmem (by omega)
        (by rw [Call.extent_stop]; rw [Call.extent_start] at hstop hge; omega) (by omega)
      exact hab X Y hXY z hz hzY
    have hsum : requestedLen (X :: Y :: chain) = X.len.toNat + requestedLen (Y :: chain) := by
      simp [requestedLen]
    have := ih hY hYmem y hy (by simp only [Extent.stop] at hstop; omega) hYin
    simp only [Extent.stop, Call.extent_len] at hstop this ⊢
    omega

/-! ## The exact condition -/

/-- What is promised of a sequence of calls: it does not stop the program, and the list that it
leaves describes the bytes of the calls, no more and no fewer. -/
def LosesNothing (bs : UInt32) (len : ℤ) (calls : List Call) : Prop :=
  ∃ s, addAll (sparseFileNew bs len) calls = .ok s ∧
    ∀ p x, Describes bs s.blocks p x ↔ Requested bs calls p x

/-- The two invariants along a run of allowed calls. -/
theorem addAll_run {bs : UInt32} (hbs : bs ≠ 0) (len : ℤ) {calls : List Call}
    (ha : Allowed bs calls) : ∃ s, addAll (sparseFileNew bs len) calls = .ok s ∧ Holds s calls ∧
      s.block_size = bs ∧ (Faithful s calls → Absorbed s calls) ∧
      (NoLongChain bs calls → AllSpan s calls ∧ totalLen s.blocks = requestedLen calls) := by
  induction calls using List.reverseRecOn with
  | nil =>
    refine ⟨_, rfl, sparseFileNew_holds bs len, rfl, fun _ => ?_, fun _ => ⟨?_, rfl⟩⟩
    · exact fun X Y _ y hy => nomatch hy
    · exact fun y hy => nomatch hy
  | append_singleton calls c ih =>
    obtain ⟨s, heq, hs, rfl, hab, hsp⟩ := ih ha.init
    have hne := hs.block_ne ha
    obtain ⟨s', heq', hs', hsize, -, hl, hg⟩ := hs.add hbs hne (hs.apart ha)
    refine ⟨s', (addAll_concat_ok heq c).trans heq', hs', hsize, fun hf => ?_, fun hno => ?_⟩
    · -- What is not lost now was not lost before.
      have htot := (hs'.faithful_iff (by rw [hsize]; exact ha.apart)).mp hf
      rw [requestedLen_concat] at htot
      have h1 := hs.total_le
      have h2 := hg.total_le
      have hf' := (hs.faithful_iff ha.init.apart).mpr (by omega)
      exact (hab hf').add hs hf' hbs ha hsize hl hg
    · obtain ⟨hsp', htot⟩ := hsp hno.init
      obtain ⟨h1, h2⟩ := hsp'.add hs hbs ha hno hsize hl
      exact ⟨h1, by rw [h2, htot, requestedLen_concat]⟩

/-- **The list loses nothing exactly when no chain of joined calls is `2^32` bytes long**, for block
sizes that are not zero. -/
theorem addAll_faithful_iff {bs : UInt32} (hbs : bs ≠ 0) (len : ℤ) {calls : List Call}
    (ha : Allowed bs calls) : LosesNothing bs len calls ↔ NoLongChain bs calls := by
  obtain ⟨s, heq, hs, rfl, hab, hsp⟩ := addAll_run hbs len ha
  have hiff := hs.faithful_iff ha.apart
  constructor
  · -- A long chain would lie in one node, whose length is below 4 GiB.
    rintro ⟨s', heq', hf⟩ chain hchain
    rw [heq] at heq'
    cases heq'
    cases chain with
    | nil => simp [requestedLen]
    | cons X chain =>
      by_cases hX : X ∈ calls
      · have hXpos := Call.len_pos (ha.nonempty X hX)
        obtain ⟨y, hy, h1, h2, -⟩ := Faithful.node_at hf hX (p := (X.extent s.block_size).start)
          (Nat.le_refl _) (by rw [Call.extent_stop, Call.extent_start]; omega)
        have := chain_inside hs hf (hab hf) hbs ha hchain hX y hy h1 h2
        have hlen := y.len.toNat_lt
        simp only [BackedBlock.extent_stop, BackedBlock.extent_start] at h1 this
        omega
      · -- A call that is not one of the list is a chain of its own.
        cases chain with
        | nil => simpa [requestedLen] using X.len.toNat_lt
        | cons Y chain => exact absurd (List.isChain_cons_cons.mp hchain).1.mem.1 hX
  · intro hno
    exact ⟨s, heq, hiff.mpr (hsp hno).2⟩

/-- With a block size of zero all regions start at the same byte, so that only one call is
allowed. -/
theorem Allowed.length_le {calls : List Call} (ha : Allowed 0 calls) : calls.length ≤ 1 := by
  match calls, ha with
  | [], _ => simp
  | [_], _ => simp
  | X :: Y :: rest, ha =>
    have hX := Call.len_pos (ha.nonempty X (by simp))
    have hY := Call.len_pos (ha.nonempty Y (by simp))
    have hap := (List.pairwise_cons.mp ha.apart).1 (Y.extent 0) (by simp)
    simp only [Apart, Call.extent_stop, Call.extent_start, UInt32.toNat_zero, Nat.mul_zero] at hap
    omega

/-- **For every block size and every sequence of allowed calls**, in any order, the list describes
the union of the calls exactly when no chain of joined calls is `2^32` bytes long. -/
theorem losesNothing_iff (bs : UInt32) (len : ℤ) (calls : List Call) (ha : Allowed bs calls) :
    LosesNothing bs len calls ↔ NoLongChain bs calls := by
  by_cases hbs : bs = 0
  · subst hbs
    have hle := ha.length_le
    refine ⟨fun _ chain hc => ?_, fun _ => ?_⟩
    · rcases chain with _ | ⟨X, _ | ⟨Y, chain⟩⟩
      · simp [requestedLen]
      · simpa [requestedLen] using X.len.toNat_lt
      · have hXY := (List.isChain_cons_cons.mp hc).1
        rcases hXY.2 with h | ⟨h, -⟩
        · have := h.length_le; simp only [List.length_cons, List.length_nil] at this; omega
        · have := h.length_le; simp only [List.length_cons, List.length_nil] at this; omega
    · rcases calls with _ | ⟨c, _ | ⟨d, calls⟩⟩
      · exact ⟨_, rfl, fun p x => Iff.rfl⟩
      · refine ⟨_, by simp only [addAll, List.foldlM_cons, List.foldlM_nil, Call.add_eq]; rfl,
          fun p x => Iff.rfl⟩
      · simp only [List.length_cons] at hle
        omega
  · exact addAll_faithful_iff hbs len ha

/-- Two fills of one word, the second of which goes on where the first stops. -/
theorem losesNothing_two_fills :
    LosesNothing 4096 16384 [⟨.fill 7, 8192, 2⟩, ⟨.fill 7, 8192, 0⟩] ↔
      NoLongChain 4096 [⟨.fill 7, 8192, 2⟩, ⟨.fill 7, 8192, 0⟩] :=
  losesNothing_iff 4096 16384 _ ⟨by decide, by simp [Apart, Call.extent, Extent.stop]⟩

/-- Two fills of `2^31` bytes that go on: the merged node has no byte. -/
theorem two_fills_vanish :
    Allowed 4096 [⟨.fill 7, 0x80000000, 0⟩, ⟨.fill 7, 0x80000000, 0x80000⟩] ∧
      ¬ LosesNothing 4096 0x100000000
        [⟨.fill 7, 0x80000000, 0⟩, ⟨.fill 7, 0x80000000, 0x80000⟩] := by
  refine ⟨⟨by decide, by simp [Apart, Call.extent, Extent.stop]⟩, ?_⟩
  rintro ⟨s, hs, hf⟩
  have hs' : addAll (sparseFileNew 4096 0x100000000)
      [⟨.fill 7, 0x80000000, 0⟩, ⟨.fill 7, 0x80000000, 0x80000⟩] =
        .ok ⟨4096, 0x100000000, ⟨[⟨0, 0, 0, .fill 7⟩], some 0, 4096, 2⟩⟩ := by rfl
  cases hs.symm.trans hs'
  have h0 := (hf 0 (.fill 7)).mpr (by simp [Requested, Call.extent, Extent.Has, Extent.stop,
    BlockSource.label])
  simp [SparseFile.blocks, Describes, extents, Extent.Has, BackedBlock.extent, Extent.stop] at h0

/-- Where nothing is lost, the order of the calls does not matter. -/
theorem LosesNothing.perm {bs : UInt32} {len : ℤ} {calls calls' : List Call}
    (hperm : calls.Perm calls') (h : LosesNothing bs len calls) (h' : LosesNothing bs len calls') :
    ∃ s s', addAll (sparseFileNew bs len) calls = .ok s ∧
      addAll (sparseFileNew bs len) calls' = .ok s' ∧
        ∀ p x, Describes bs s.blocks p x ↔ Describes bs s'.blocks p x := by
  obtain ⟨s, hs, hf⟩ := h
  obtain ⟨s', hs', hf'⟩ := h'
  refine ⟨s, s', hs, hs', fun p x => ?_⟩
  rw [hf, hf', Requested, described_perm _ (hperm.map (Call.extent bs))]
  rfl

end AmlogicToolkit.Simg
