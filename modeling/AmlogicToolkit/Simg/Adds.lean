import AmlogicToolkit.Simg.Queue
import AmlogicToolkit.Simg.Sparse

/-!
# Sequences of additions

A call of one of the four `sparse_file_add_*` functions, and what a sequence of calls leaves in the
block list. One addition grows the map of the list by at most the region of the call, and by all of
it when the total length grows by the length of the call (`Grows`). A call whose region lies apart
from those before it never stops the program (`Holds.add`), and the list that a sequence of such
calls leaves describes their union exactly when no length is lost (`Holds.faithful_iff`).
-/

namespace AmlogicToolkit.Simg

open Bytes Extents

/-- The arguments of a call of `sparse_file_add_data`, `_fill`, `_file` or `_fd`. -/
structure Call where
  /-- What is added: the source says which function is called. -/
  source : BlockSource
  /-- The length in bytes. -/
  len : UInt32
  /-- The first block. -/
  block : UInt32
  deriving DecidableEq

/-- The call adds its source by the function of that kind. -/
def Call.add (s : SparseFile) (c : Call) : Except Fault SparseFile :=
  match c.source with
  | .data data => sparseFileAddData s data c.len c.block
  | .file filename offset => sparseFileAddFile s filename offset c.len c.block
  | .fd fd offset => sparseFileAddFd s fd offset c.len c.block
  | .fill val => sparseFileAddFill s val c.len c.block

/-- A sequence of calls, up to the first that returns an error. -/
def addAll (s : SparseFile) (calls : List Call) : Except Fault SparseFile := calls.foldlM Call.add s

/-- All four functions queue a node. -/
theorem Call.add_eq (s : SparseFile) (c : Call) :
    c.add s = s.withList (addBlock s.backed_block_list c.source c.len c.block) := by
  unfold Call.add
  split <;> rename_i h <;> rw [h] <;> rfl

/-- A call that goes through changes the list only. -/
theorem Call.add_ok {s s' : SparseFile} {c : Call} (h : c.add s = .ok s') :
    ∃ l, addBlock s.backed_block_list c.source c.len c.block = .ok l ∧
      s' = { s with backed_block_list := l } := by
  rw [Call.add_eq] at h
  obtain ⟨l, hl, h⟩ := Except.bind_ok_iff.mp h
  cases h
  exact ⟨l, hl, rfl⟩

/-- A call changes neither the block size nor the length. -/
theorem Call.add_fields {s s' : SparseFile} {c : Call} (h : c.add s = .ok s') :
    s'.block_size = s.block_size ∧ s'.len = s.len := by
  obtain ⟨l, -, rfl⟩ := Call.add_ok h
  exact ⟨rfl, rfl⟩

/-- A list of calls is its first call, then the others. -/
theorem addAll_cons (s : SparseFile) (c : Call) (calls : List Call) :
    addAll s (c :: calls) = c.add s >>= fun s' => addAll s' calls := List.foldlM_cons

/-- A list of calls with one behind it is the list, then that call. -/
theorem addAll_concat (s : SparseFile) (calls : List Call) (c : Call) :
    addAll s (calls ++ [c]) = addAll s calls >>= fun s' => c.add s' := by
  rw [addAll, List.foldlM_append]
  simp only [List.foldlM_cons, List.foldlM_nil, bind_pure]
  rfl

/-- Behind a sequence that went through, only the last call is left to make. -/
theorem addAll_concat_ok {s s' : SparseFile} {calls : List Call} (h : addAll s calls = .ok s')
    (c : Call) : addAll s (calls ++ [c]) = c.add s' := by
  rw [addAll_concat, h]
  rfl

/-- A sequence that leaves a file has left one in front of its last call. -/
theorem addAll_init {s s' : SparseFile} {calls : List Call} {c : Call}
    (h : addAll s (calls ++ [c]) = .ok s') :
    ∃ s0, addAll s calls = .ok s0 ∧ c.add s0 = .ok s' := by
  rw [addAll_concat] at h
  exact Except.bind_ok_iff.mp h

/-- A call does not look at the length. -/
theorem Call.add_withLen {s s' : SparseFile} {c : Call} (h : c.add s = .ok s') (len : ℤ) :
    c.add { s with len := len } = .ok { s' with len := len } := by
  obtain ⟨l, hl, rfl⟩ := Call.add_ok h
  rw [Call.add_eq, hl]
  rfl

/-- Neither does a sequence of calls change the block size or the length. -/
theorem addAll_fields {s s' : SparseFile} {calls : List Call} (h : addAll s calls = .ok s') :
    s'.block_size = s.block_size ∧ s'.len = s.len := by
  induction calls generalizing s with
  | nil => cases h; exact ⟨rfl, rfl⟩
  | cons c calls ih =>
    rw [addAll_cons] at h
    obtain ⟨s1, hc, h⟩ := Except.bind_ok_iff.mp h
    obtain ⟨h1, h2⟩ := Call.add_fields hc
    obtain ⟨h3, h4⟩ := ih h
    exact ⟨h3.trans h1, h4.trans h2⟩

/-- Nor does a sequence of calls look at the length. -/
theorem addAll_withLen {s s' : SparseFile} {calls : List Call} (h : addAll s calls = .ok s')
    (len : ℤ) : addAll { s with len := len } calls = .ok { s' with len := len } := by
  induction calls generalizing s with
  | nil => cases h; rfl
  | cons c calls ih =>
    rw [addAll_cons] at h ⊢
    obtain ⟨s1, hc, h⟩ := Except.bind_ok_iff.mp h
    rw [Call.add_withLen hc len]
    exact ih h

/-- The region of a call, as an extent of byte positions. -/
def Call.extent (bs : UInt32) (c : Call) : Extent BlockSource :=
  ⟨c.block.toNat * bs.toNat, c.len.toNat, c.source⟩

/-- The extent of a call starts at its block. -/
@[simp]
theorem Call.extent_start (bs : UInt32) (c : Call) :
    (c.extent bs).start = c.block.toNat * bs.toNat := rfl

/-- The extent of a call is as long as the call says. -/
@[simp]
theorem Call.extent_len (bs : UInt32) (c : Call) : (c.extent bs).len = c.len.toNat := rfl

/-- The extent of a call ends behind its last byte. -/
@[simp]
theorem Call.extent_stop (bs : UInt32) (c : Call) :
    (c.extent bs).stop = c.block.toNat * bs.toNat + c.len.toNat := rfl

/-- The map that a list of calls describes. -/
def Requested (bs : UInt32) (calls : List Call) (p : ℕ) (x : Label) : Prop :=
  Described BlockSource.label (calls.map (Call.extent bs)) p x

/-- The total length of a list of calls, as an exact sum. -/
def requestedLen (calls : List Call) : ℕ := (calls.map fun c => c.len.toNat).sum

/-- The extents of the calls are together as long as what is requested. -/
theorem total_calls (bs : UInt32) (calls : List Call) :
    total (calls.map (Call.extent bs)) = requestedLen calls := by
  simp [total, requestedLen, Function.comp_def]

/-- One call more requests its own length more. -/
theorem requestedLen_concat (calls : List Call) (c : Call) :
    requestedLen (calls ++ [c]) = requestedLen calls + c.len.toNat := by
  simp [requestedLen]

/-! ## One addition -/

/-- What an addition makes of a list. -/
structure Grows (bs : UInt32) (l : List BackedBlock) (c : Call) (l' : List BackedBlock) : Prop where
  /-- No block ends after a later one starts. -/
  disjoint : Disjoint bs l'
  /-- Every node starts where the call or a node before it starts, with its source. -/
  heads : ∀ y ∈ l', (y.block = c.block ∧ y.source = c.source) ∨
    ∃ x ∈ l, y.block = x.block ∧ y.source = x.source
  /-- Nothing is described but the call and what was described before. -/
  sub : ∀ p x, Describes bs l' p x → Describes bs l p x ∨ (c.extent bs).Has BlockSource.label p x
  /-- The length grows by at most the length of the call. -/
  total_le : totalLen l' ≤ totalLen l + c.len.toNat
  /-- Where it grows by that much, the call and all before it are described. -/
  full : totalLen l' = totalLen l + c.len.toNat → ∀ p x,
    Describes bs l p x ∨ (c.extent bs).Has BlockSource.label p x → Describes bs l' p x

/-- An insertion grows a list. -/
theorem insertBb_grows {bs : UInt32} (hbs : bs ≠ 0) {l : List BackedBlock} (hs : Sorted l)
    (hd : Disjoint bs l) {c : Call} {addr : ℕ} (hne : ∀ x ∈ l, x.block ≠ c.block)
    (hap : ∀ x ∈ l, Apart (x.extent bs) (c.extent bs)) :
    Grows bs l c (insertBb bs ⟨addr, c.block, c.len, c.source⟩ l) := by
  obtain ⟨placed, hperm, -, -, hm⟩ :=
    @insertBb_merged _ hbs ⟨addr, c.block, c.len, c.source⟩ _ hs hd hne hap
  -- Before anything is merged, the list describes what it did and the new region.
  have hdesc : ∀ p x, Describes bs placed p x ↔
      Describes bs l p x ∨ (c.extent bs).Has BlockSource.label p x := by
    intro p x
    rw [Describes, extents, described_perm _ (hperm.map (BackedBlock.extent bs)), List.map_cons,
      described_cons, or_comm]
    rfl
  have htot : totalLen placed = totalLen l + c.len.toNat := by
    rw [totalLen, (hperm.map fun bb => bb.len.toNat).sum_eq]
    exact Nat.add_comm _ _
  refine ⟨hm.disjoint, fun y hy => ?_, fun p x hx => (hdesc p x).mp (hm.sub p x hx),
    htot ▸ hm.total_le, fun ht p x hx => hm.full (ht.trans htot.symm) p x ((hdesc p x).mpr hx)⟩
  -- Merging keeps the heads, so each node is the new one or one of the old ones.
  have hmem : y.head ∈ (⟨addr, c.block, c.len, c.source⟩ :: l).map BackedBlock.head :=
    (hperm.map BackedBlock.head).mem_iff.mp (hm.heads.mem (List.mem_map_of_mem hy))
  obtain ⟨x, hx, hxy⟩ := List.mem_map.mp hmem
  simp only [BackedBlock.head, Prod.mk.injEq] at hxy
  rcases List.mem_cons.mp hx with rfl | hx
  · exact Or.inl ⟨hxy.2.1.symm, hxy.2.2.symm⟩
  · exact Or.inr ⟨x, hx, hxy.2.1.symm, hxy.2.2.symm⟩

/-- A file whose list is valid, with blocks that lie apart and of the file's block size. -/
structure SparseFile.Valid (s : SparseFile) : Prop where
  /-- The list is valid. -/
  list : s.backed_block_list.Valid
  /-- The list has the block size of the file. -/
  block_size : s.backed_block_list.block_size = s.block_size
  /-- No block ends after a later one starts. -/
  disjoint : Disjoint s.block_size s.backed_block_list.data_blocks

/-- A fresh file is valid. -/
theorem sparseFileNew_valid (bs : UInt32) (len : ℤ) : (sparseFileNew bs len).Valid :=
  ⟨backedBlockListNew_valid bs, rfl, List.Pairwise.nil⟩

/-- The blocks of a sparse file. -/
def SparseFile.blocks (s : SparseFile) : List BackedBlock := s.backed_block_list.data_blocks

/-- **One call.** A call whose region lies apart from the blocks of a valid file inserts a node. -/
theorem Call.add_spec {s : SparseFile} (hv : s.Valid) (hbs : s.block_size ≠ 0) {c : Call}
    (hne : ∀ x ∈ s.blocks, x.block ≠ c.block)
    (hap : ∀ x ∈ s.blocks, Apart (x.extent s.block_size) (c.extent s.block_size)) :
    ∃ s', c.add s = .ok s' ∧ s'.Valid ∧ s'.block_size = s.block_size ∧ s'.len = s.len ∧
      s'.blocks = insertBb s.block_size
        ⟨s.backed_block_list.next_addr, c.block, c.len, c.source⟩ s.blocks := by
  have hbs' : s.backed_block_list.block_size ≠ 0 := by rw [hv.block_size]; exact hbs
  obtain ⟨bbl', heq, hv', hsize, hd', hl'⟩ := @addBlock_spec _ hv.list hbs'
    (by rw [hv.block_size]; exact hv.disjoint) c.source c.len _ hne
    (by rw [hv.block_size]; exact hap)
  rw [hv.block_size] at hsize hd' hl'
  refine ⟨{ s with backed_block_list := bbl' }, ?_, ⟨hv', hsize, hd'⟩, rfl, rfl, hl'⟩
  rw [Call.add_eq, heq]
  rfl

/-- A call at a block that no node has inserts a node, wherever its region ends. -/
theorem Call.add_insert {s : SparseFile} (hv : s.Valid) (hbs : s.block_size ≠ 0) {c : Call}
    (hne : ∀ x ∈ s.blocks, x.block ≠ c.block) :
    ∃ s', c.add s = .ok s' ∧ s'.block_size = s.block_size ∧ s'.len = s.len ∧
      s'.blocks = insertBb s.block_size
        ⟨s.backed_block_list.next_addr, c.block, c.len, c.source⟩ s.blocks := by
  have hbs' : s.backed_block_list.block_size ≠ 0 := by rw [hv.block_size]; exact hbs
  obtain ⟨lu, heq, -⟩ := @queueBb_eq_insertBb _ hv.list.allocated hbs'
    ⟨s.backed_block_list.next_addr, c.block, c.len, c.source⟩ hne
  rw [Call.add_eq, addBlock, heq]
  exact ⟨_, rfl, rfl, rfl, by rw [← hv.block_size]; rfl⟩

/-- A call at a block that a node has runs into the assertion of `merge_bb`. -/
theorem Call.add_clash {s : SparseFile} (hv : s.Valid) (hbs : s.block_size ≠ 0) {c : Call}
    {x : BackedBlock} (hx : x ∈ s.blocks) (heq : x.block = c.block) :
    c.add s = .error .assertion := by
  have hbs' : s.backed_block_list.block_size ≠ 0 := by rw [hv.block_size]; exact hbs
  have hclash := @queueBb_clash _ hv.list.allocated hbs'
    ⟨s.backed_block_list.next_addr, c.block, c.len, c.source⟩ x hx heq
  rw [Call.add_eq, addBlock, hclash]
  rfl

/-! ## Sequences -/

/-- What a sequence of calls has made of a file: the blocks describe the calls, but for the lengths
that merges have lost. -/
structure Holds (s : SparseFile) (calls : List Call) : Prop where
  /-- The file is valid. -/
  valid : s.Valid
  /-- Every node starts where a call starts, with its source. -/
  heads : ∀ y ∈ s.blocks, ∃ c ∈ calls, y.block = c.block ∧ y.source = c.source
  /-- Nothing is described but the calls. -/
  sub : ∀ p x, Describes s.block_size s.blocks p x → Requested s.block_size calls p x
  /-- The length is at most the sum of the lengths of the calls. -/
  total_le : totalLen s.blocks ≤ requestedLen calls
  /-- Where no length is lost, all calls are described. -/
  full : totalLen s.blocks = requestedLen calls → ∀ p x,
    Requested s.block_size calls p x → Describes s.block_size s.blocks p x

/-- A fresh file holds the empty list of calls. -/
theorem sparseFileNew_holds (bs : UInt32) (len : ℤ) : Holds (sparseFileNew bs len) [] :=
  ⟨sparseFileNew_valid bs len, fun _ h => (nomatch h), fun _ _ h => h, Nat.le_refl _,
    fun _ _ _ h => h⟩

/-- One call more requests its own bytes more. -/
theorem requested_concat (bs : UInt32) (calls : List Call) (c : Call) (p : ℕ) (x : Label) :
    Requested bs (calls ++ [c]) p x ↔
      Requested bs calls p x ∨ (c.extent bs).Has BlockSource.label p x := by
  simp [Requested]

/-- The step of a run of calls. -/
theorem Holds.add {s : SparseFile} {calls : List Call} (h : Holds s calls) (hbs : s.block_size ≠ 0)
    {c : Call} (hne : ∀ x ∈ s.blocks, x.block ≠ c.block)
    (hap : ∀ x ∈ s.blocks, Apart (x.extent s.block_size) (c.extent s.block_size)) :
    ∃ s', c.add s = .ok s' ∧ Holds s' (calls ++ [c]) ∧ s'.block_size = s.block_size ∧
      s'.len = s.len ∧ s'.blocks = insertBb s.block_size
        ⟨s.backed_block_list.next_addr, c.block, c.len, c.source⟩ s.blocks ∧
      Grows s.block_size s.blocks c s'.blocks := by
  obtain ⟨s', heq, hv', hsize, hlen, hl'⟩ := Call.add_spec h.valid hbs hne hap
  have hg := @insertBb_grows _ hbs _ h.valid.list.sorted h.valid.disjoint _
    s.backed_block_list.next_addr hne hap
  have hg' : Grows s.block_size s.blocks c s'.blocks := by rw [hl']; exact hg
  have h1 := h.total_le
  have h2 := hg'.total_le
  refine ⟨s', heq, ⟨hv', fun y hy => ?_, fun p x hx => ?_, ?_, fun ht p x hx => ?_⟩, hsize, hlen, hl',
    hg'⟩
  · -- Each node starts where a call does: the last call, or the one of the node it came from.
    rcases hg'.heads y hy with hc | ⟨z, hz, hzy⟩
    · exact ⟨c, by simp, hc⟩
    · obtain ⟨d, hd, hdz⟩ := h.heads z hz
      exact ⟨d, List.mem_append_left _ hd, hzy.1.trans hdz.1, hzy.2.trans hdz.2⟩
  · rw [hsize] at hx ⊢
    rw [requested_concat]
    exact (hg'.sub p x hx).imp (h.sub p x) id
  · rw [requestedLen_concat]; omega
  · rw [requestedLen_concat] at ht
    rw [hsize] at hx ⊢
    rw [requested_concat] at hx
    exact hg'.full (by omega) p x (hx.imp (h.full (by omega) p x) id)

/-- The calls that `sparse.h` allows: no region is empty, and no two share a byte. -/
structure Allowed (bs : UInt32) (calls : List Call) : Prop where
  /-- No region is empty. -/
  nonempty : ∀ c ∈ calls, c.len ≠ 0
  /-- No two regions share a byte. -/
  apart : (calls.map (Call.extent bs)).Pairwise Apart

/-- Two extents that are not empty and share no position lie apart. -/
theorem apart_of_disjoint {e f : Extent BlockSource} (he : 0 < e.len) (hf : 0 < f.len)
    (h : ∀ p, e.start ≤ p → p < e.stop → f.start ≤ p → p < f.stop → False) : Apart e f := by
  by_contra hne
  simp only [Apart, Extent.stop, not_or, not_le] at h hne
  exact h (max e.start f.start) (by omega) (by omega) (by omega) (by omega)

/-- Calls that are allowed stay so without the last one. -/
theorem Allowed.init {bs : UInt32} {calls : List Call} {c : Call} (h : Allowed bs (calls ++ [c])) :
    Allowed bs calls := by
  refine ⟨fun d hd => h.nonempty d (List.mem_append_left _ hd), ?_⟩
  have := h.apart
  rw [List.map_append, List.pairwise_append] at this
  exact this.1

/-- The last of the allowed calls shares no byte with an earlier one. -/
theorem Allowed.last {bs : UInt32} {calls : List Call} {c : Call} (h : Allowed bs (calls ++ [c])) :
    ∀ d ∈ calls, Apart (d.extent bs) (c.extent bs) := by
  intro d hd
  have := h.apart
  rw [List.map_append, List.pairwise_append] at this
  exact this.2.2 _ (List.mem_map_of_mem hd) _ (by simp)

/-- A length that is not zero is positive. -/
theorem Call.len_pos {c : Call} (h : c.len ≠ 0) : 0 < c.len.toNat :=
  toNat_pos_of_ne_zero h

/-- Regions that lie apart and are not empty start at different blocks. -/
theorem Allowed.block_ne {bs : UInt32} {calls : List Call} {c : Call}
    (h : Allowed bs (calls ++ [c])) : ∀ d ∈ calls, d.block ≠ c.block := by
  intro d hd heq
  have hap := h.last d hd
  have h1 := Call.len_pos (h.nonempty d (List.mem_append_left _ hd))
  have h2 := Call.len_pos (h.nonempty c (by simp))
  simp only [Apart, Call.extent_stop, Call.extent_start, heq] at hap
  omega

/-- The nodes that a sequence of calls has left start at other blocks than the next call. -/
theorem Holds.block_ne {s : SparseFile} {calls : List Call} (h : Holds s calls) {c : Call}
    (ha : Allowed s.block_size (calls ++ [c])) : ∀ x ∈ s.blocks, x.block ≠ c.block := by
  intro x hx
  obtain ⟨d, hd, hblk, -⟩ := h.heads x hx
  exact hblk ▸ ha.block_ne d hd

/-- The nodes that a sequence of calls has left lie apart from the region of the next call. -/
theorem Holds.apart {s : SparseFile} {calls : List Call} (h : Holds s calls) {c : Call}
    (ha : Allowed s.block_size (calls ++ [c])) :
    ∀ x ∈ s.blocks, Apart (x.extent s.block_size) (c.extent s.block_size) := by
  intro x hx
  obtain ⟨d, hd, hblk, -⟩ := h.heads x hx
  have hdc := ha.last d hd
  have hdpos := Call.len_pos (ha.nonempty d (List.mem_append_left _ hd))
  have hcpos := Call.len_pos (ha.nonempty c (by simp))
  by_cases hx0 : x.len.toNat = 0
  · -- An empty node lies where a call starts.
    simp only [Apart, Call.extent_stop, Call.extent_start, BackedBlock.extent_stop,
      BackedBlock.extent_start, hblk] at hdc ⊢
    omega
  · refine apart_of_disjoint (Nat.pos_of_ne_zero hx0) hcpos fun p h1 h2 h3 h4 => ?_
    obtain ⟨e, he, h5, h6, -⟩ := h.sub p _ ⟨_, List.mem_map_of_mem hx, h1, h2, rfl⟩
    obtain ⟨d', hd', rfl⟩ := List.mem_map.mp he
    have := ha.last d' hd'
    simp only [Apart] at this
    omega

/-- Calls in increasing order: each starts at a later block than those before it, and not before they
end. A region may be empty. -/
def Increasing (bs : UInt32) (calls : List Call) : Prop :=
  calls.Pairwise fun c d => c.block < d.block ∧ Before (c.extent bs) (d.extent bs)

/-- Calls in increasing order share no bytes. -/
theorem Increasing.apart {bs : UInt32} {calls : List Call} (h : Increasing bs calls) :
    (calls.map (Call.extent bs)).Pairwise Apart :=
  List.pairwise_map.mpr (h.imp fun hcd => hcd.2.apart)

/-- Calls in increasing order never stop the program, and leave nodes that end where a call does or
before. -/
theorem addAll_increasing {bs : UInt32} (hbs : bs ≠ 0) (len : ℤ) {calls : List Call}
    (hinc : Increasing bs calls) : ∃ s, addAll (sparseFileNew bs len) calls = .ok s ∧
      Holds s calls ∧ s.block_size = bs ∧ s.len = len ∧
        ∀ d, (∀ c ∈ calls, Before (c.extent bs) (d : Extent BlockSource)) →
          ∀ x ∈ s.blocks, Before (x.extent bs) d := by
  induction calls using List.reverseRecOn with
  | nil => exact ⟨_, rfl, sparseFileNew_holds bs len, rfl, rfl, fun _ _ _ h => nomatch h⟩
  | append_singleton calls c ih =>
    obtain ⟨h1, -, h3⟩ := List.pairwise_append.mp hinc
    obtain ⟨s, heq, hs, rfl, hlen, hend⟩ := ih h1
    have hlast : ∀ d ∈ calls, d.block < c.block ∧ Before (d.extent s.block_size)
        (c.extent s.block_size) := fun d hd => h3 d hd c (by simp)
    have hbef := hend (c.extent s.block_size) fun d hd => (hlast d hd).2
    have hne : ∀ x ∈ s.blocks, x.block ≠ c.block := by
      intro x hx
      obtain ⟨d, hd, hblk, -⟩ := hs.heads x hx
      exact UInt32.ne_of_lt (hblk ▸ (hlast d hd).1)
    obtain ⟨s', heq', hs', hsize, hlen', -, hg⟩ := hs.add hbs hne fun x hx => (hbef x hx).apart
    refine ⟨s', (addAll_concat_ok heq c).trans heq', hs', hsize, hlen'.trans hlen,
      fun d hd x hx => ?_⟩
    -- A node that is not empty ends with a byte of a call, and an empty one where a call starts.
    by_cases hx0 : x.len.toNat = 0
    · obtain ⟨e, he, hblk, -⟩ := hs'.heads x hx
      have := hd e he
      simp only [Before, BackedBlock.extent_stop, Call.extent_stop, hblk] at this ⊢
      omega
    · have hmem : Describes s.block_size s'.blocks
          (x.block.toNat * s.block_size.toNat + x.len.toNat - 1)
          (x.source.label (x.block.toNat * s.block_size.toNat + x.len.toNat - 1 -
            x.block.toNat * s.block_size.toNat)) :=
        ⟨_, List.mem_map_of_mem hx, by rw [BackedBlock.extent_start]; omega,
          by rw [BackedBlock.extent_stop]; omega, rfl⟩
      rw [← hsize] at hmem
      obtain ⟨e, he, h5, h6, -⟩ := hs'.sub _ _ hmem
      obtain ⟨e', he', rfl⟩ := List.mem_map.mp he
      have := hd e' he'
      rw [hsize] at h6
      simp only [Before, BackedBlock.extent_stop] at this ⊢
      omega

/-- The blocks of a file describe exactly a list of calls. -/
def Faithful (s : SparseFile) (calls : List Call) : Prop :=
  ∀ p x, Describes s.block_size s.blocks p x ↔ Requested s.block_size calls p x

/-- **Nothing is lost exactly when no length is lost.** -/
theorem Holds.faithful_iff {s : SparseFile} {calls : List Call} (h : Holds s calls)
    (hap : (calls.map (Call.extent s.block_size)).Pairwise Apart) :
    Faithful s calls ↔ totalLen s.blocks = requestedLen calls := by
  refine ⟨fun hf => ?_, fun ht p x => ⟨h.sub p x, h.full ht p x⟩⟩
  have hd : Disjoint s.block_size s.blocks := h.valid.disjoint
  -- Both sides cover the same positions, and neither covers one twice.
  calc totalLen s.blocks = (cells (extents s.block_size s.blocks)).card := by
        rw [card_cells hd.apart, total_extents]
    _ = (cells (calls.map (Call.extent s.block_size))).card := by
        rw [cells_congr BlockSource.label hf]
    _ = requestedLen calls := by rw [card_cells hap, total_calls]

end AmlogicToolkit.Simg
