import AmlogicToolkit.Lib.Extents
import AmlogicToolkit.Simg.Words

/-!
# What a block list describes

A list of blocks describes a map from byte positions to labels: where a byte comes from, or which
fill word covers it. A merge of two neighbours adds their lengths in 32 bits. It never adds to the
map, and it keeps the map when the total length stays the same, which is when the sum does not wrap
(`Merged`).
-/

namespace AmlogicToolkit.Simg

open Extents

/-! ## What a list describes -/

/-- Where a byte of the image comes from. -/
inductive Label where
  /-- The byte at an address. -/
  | data (addr : ℕ)
  /-- The byte at an offset of a named file. -/
  | file (filename : String) (offset : ℤ)
  /-- The byte at an offset of a descriptor. -/
  | fd (fd : ℕ) (offset : ℤ)
  /-- A byte of a fill word. -/
  | fill (val : UInt32)
  deriving DecidableEq

/-- The label of the `k`-th byte of a source. -/
def BlockSource.label : BlockSource → ℕ → Label
  | .data p, k => .data (p + k)
  | .file f o, k => .file f (o + k)
  | .fd f o, k => .fd f (o + k)
  | .fill v, _ => .fill v

/-- A block as an extent of byte positions. -/
def BackedBlock.extent (block_size : UInt32) (bb : BackedBlock) : Extent BlockSource :=
  ⟨bb.block.toNat * block_size.toNat, bb.len.toNat, bb.source⟩

/-- The extent of a node starts at its block. -/
@[simp]
theorem BackedBlock.extent_start (bs : UInt32) (bb : BackedBlock) :
    (bb.extent bs).start = bb.block.toNat * bs.toNat := rfl

/-- The extent of a node is as long as the node. -/
@[simp]
theorem BackedBlock.extent_len (bs : UInt32) (bb : BackedBlock) :
    (bb.extent bs).len = bb.len.toNat := rfl

/-- The extent of a node ends behind its last byte. -/
@[simp]
theorem BackedBlock.extent_stop (bs : UInt32) (bb : BackedBlock) :
    (bb.extent bs).stop = bb.block.toNat * bs.toNat + bb.len.toNat := rfl

/-- The extents of a list of blocks. -/
def extents (bs : UInt32) (l : List BackedBlock) : List (Extent BlockSource) :=
  l.map (BackedBlock.extent bs)

/-- The map that a list of blocks describes. -/
def Describes (bs : UInt32) (l : List BackedBlock) (p : ℕ) (x : Label) : Prop :=
  Described BlockSource.label (extents bs l) p x

/-- The total length of a list of blocks, as an exact sum. -/
def totalLen (l : List BackedBlock) : ℕ := (l.map fun bb => bb.len.toNat).sum

/-- The extents of a list are together as long as its nodes. -/
theorem total_extents (bs : UInt32) (l : List BackedBlock) : total (extents bs l) = totalLen l := by
  simp [total, extents, totalLen, Function.comp_def]

/-- The length of a list is that of its first node and that of the others. -/
@[simp]
theorem totalLen_cons (bb : BackedBlock) (l : List BackedBlock) :
    totalLen (bb :: l) = bb.len.toNat + totalLen l := by
  simp [totalLen]

/-- The length of two lists in a row is the sum of theirs. -/
@[simp]
theorem totalLen_append (l m : List BackedBlock) :
    totalLen (l ++ m) = totalLen l + totalLen m := by
  simp [totalLen]

/-- The empty list has no length. -/
@[simp]
theorem totalLen_nil : totalLen [] = 0 := rfl

/-- The blocks are in strictly increasing order. -/
def Sorted (l : List BackedBlock) : Prop := l.Pairwise fun a b => a.block < b.block

/-- No block ends after a later one starts. -/
def Disjoint (bs : UInt32) (l : List BackedBlock) : Prop :=
  l.Pairwise fun a b => Before (a.extent bs) (b.extent bs)

/-- The extents of disjoint nodes stand one before the other. -/
theorem Disjoint.extents {bs : UInt32} {l : List BackedBlock} (h : Disjoint bs l) :
    (extents bs l).Pairwise Before := by
  rw [Simg.extents, List.pairwise_map]; exact h

/-- The extents of disjoint nodes share no position. -/
theorem Disjoint.apart {bs : UInt32} {l : List BackedBlock} (h : Disjoint bs l) :
    (Simg.extents bs l).Pairwise Apart := h.extents.imp Before.apart

/-! ## Merging -/

/-- The conditions of `merge_bb` after its assertion. -/
def canMerge (bs : UInt32) (a b : BackedBlock) : Bool :=
  a.source.type == b.source.type && a.block + a.len / bs == b.block && sourcesMerge a b

/-- On blocks in order, `merge_bb` merges when it can, and neither stops the program. -/
theorem mergeBb_eq {bs : UInt32} (hbs : bs ≠ 0) {a b : BackedBlock} (h : a.block < b.block) :
    mergeBb bs a b = .ok (if canMerge bs a b then some (a.extend b) else none) := by
  unfold mergeBb canMerge
  rw [if_neg (not_not.mpr h)]
  by_cases h1 : a.source.type = b.source.type
  · rw [if_neg (not_not.mpr h1), if_neg hbs]
    by_cases h2 : a.block + a.len / bs = b.block
    · rw [if_neg (not_not.mpr h2)]
      by_cases h3 : sourcesMerge a b <;> simp [h1, h2, h3]
    · simp [h2]
  · simp [h1]

/-- A block that may be merged into one before it abuts it, when the two do not overlap: the
division rounds down, and the sum of the block numbers does not wrap past a larger one. -/
theorem continues_of_canMerge {bs : UInt32} {a b : BackedBlock} (h : canMerge bs a b)
    (hlt : a.block < b.block) (hb : Before (a.extent bs) (b.extent bs)) :
    Continues BlockSource.label (a.extent bs) (b.extent bs) := by
  simp only [canMerge, Bool.and_eq_true, beq_iff_eq] at h
  obtain ⟨⟨-, hblk⟩, hsrc⟩ := h
  -- The code adds in 32 bits, so the sum may have wrapped.
  have hblk' : b.block.toNat = (a.block.toNat + a.len.toNat / bs.toNat) % 2 ^ 32 := by
    rw [← hblk, UInt32.toNat_add, UInt32.toNat_div]
  have hlt' : a.block.toNat < b.block.toNat := UInt32.lt_iff_toNat_lt.mp hlt
  have hdiv : a.len.toNat / bs.toNat ≤ a.len.toNat := Nat.div_le_self _ _
  have hmul : a.len.toNat / bs.toNat * bs.toNat ≤ a.len.toNat := Nat.div_mul_le_self _ _
  have hlen := a.len.toNat_lt
  have hblka := a.block.toNat_lt
  generalize a.len.toNat / bs.toNat = q at hblk' hdiv hmul
  -- It has not: a wrapped sum would be below the block of `a`.
  have hexact : b.block.toNat = a.block.toNat + q := by omega
  refine ⟨?_, fun k => ?_⟩
  · simp only [Before, BackedBlock.extent_stop, BackedBlock.extent_start] at hb ⊢
    rw [hexact, Nat.add_mul] at hb ⊢
    omega
  · -- By the three kinds that merge: the source of `b` goes on where that of `a` ends.
    simp only [BackedBlock.extent]
    unfold sourcesMerge at hsrc
    split at hsrc <;> rename_i ha hb'
    · rw [ha, hb']
      simp only [beq_iff_eq] at hsrc
      simp only [BlockSource.label, hsrc]
    · rw [ha, hb']
      simp only [Bool.and_eq_true, beq_iff_eq] at hsrc
      simp only [BlockSource.label, hsrc.1, ← hsrc.2]
      congr 1
      omega
    · rw [ha, hb']
      simp only [Bool.and_eq_true, beq_iff_eq] at hsrc
      simp only [BlockSource.label, hsrc.1, ← hsrc.2]
      congr 1
      omega
    · cases hsrc

/-- A merge adds the lengths in 32 bits. -/
theorem BackedBlock.extend_len (a b : BackedBlock) :
    (a.extend b).len.toNat = (a.len.toNat + b.len.toNat) % 2 ^ 32 := UInt32.toNat_add _ _

/-- A node extended without a wrap covers both extents. -/
theorem BackedBlock.extend_extent {bs : UInt32} {a b : BackedBlock}
    (h : (a.extend b).len.toNat = a.len.toNat + b.len.toNat) :
    (a.extend b).extent bs = (a.extent bs).join (b.extent bs) := by
  simp only [extent, Extent.join, h]
  rfl

/-- The merged block is at most as long as the two together. -/
theorem BackedBlock.extend_len_le (a b : BackedBlock) :
    (a.extend b).len.toNat ≤ a.len.toNat + b.len.toNat := by
  rw [extend_len]; exact Nat.mod_le _ _

/-- What the merged block describes is described by one of the two. -/
theorem BackedBlock.extend_has {bs : UInt32} {a b : BackedBlock}
    (h : Continues BlockSource.label (a.extent bs) (b.extent bs)) {p : ℕ} {x : Label}
    (hx : ((a.extend b).extent bs).Has BlockSource.label p x) :
    (a.extent bs).Has BlockSource.label p x ∨ (b.extent bs).Has BlockSource.label p x := by
  rw [← has_join BlockSource.label h]
  exact hx.of_cut BlockSource.label rfl rfl (a.extend_len_le b)

/-! ## Lists with merged neighbours -/

/-- What a merge keeps of a node: its address, its block and its source. -/
def BackedBlock.head (bb : BackedBlock) : ℕ × UInt32 × BlockSource := (bb.addr, bb.block, bb.source)

/-- `l'` is `l` with some neighbours merged. -/
structure Merged (bs : UInt32) (l l' : List BackedBlock) : Prop where
  /-- Every node of `l'` was one of `l`, in the same order. -/
  heads : (l'.map BackedBlock.head).Sublist (l.map BackedBlock.head)
  /-- No block of `l'` ends after a later one starts. -/
  disjoint : Disjoint bs l'
  /-- Nothing is described that was not. -/
  sub : ∀ p x, Describes bs l' p x → Describes bs l p x
  /-- No length is added. -/
  total_le : totalLen l' ≤ totalLen l
  /-- Where no length is lost, everything is still described. -/
  full : totalLen l' = totalLen l → ∀ p x, Describes bs l p x → Describes bs l' p x

/-- A disjoint list is itself with no neighbours merged. -/
theorem Merged.refl {bs : UInt32} {l : List BackedBlock} (h : Disjoint bs l) : Merged bs l l :=
  ⟨List.Sublist.refl _, h, fun _ _ => id, Nat.le_refl _, fun _ _ _ => id⟩

/-- Merging in two steps is merging. -/
theorem Merged.trans {bs : UInt32} {l m n : List BackedBlock} (h : Merged bs l m)
    (h' : Merged bs m n) : Merged bs l n where
  heads := h'.heads.trans h.heads
  disjoint := h'.disjoint
  sub p x hx := h.sub p x (h'.sub p x hx)
  total_le := h'.total_le.trans h.total_le
  full ht p x hx := by
    have h1 := h.total_le
    have h2 := h'.total_le
    exact h'.full (by omega) p x (h.full (by omega) p x hx)

/-- The blocks of a list are those of its heads. -/
theorem Merged.blocks {bs : UInt32} {l l' : List BackedBlock} (h : Merged bs l l') :
    (l'.map BackedBlock.block).Sublist (l.map BackedBlock.block) := by
  have := h.heads.map (fun t => t.2.1)
  simpa [Function.comp_def, BackedBlock.head] using this

/-- The addresses of a list are those of its heads. -/
theorem Merged.addrs {bs : UInt32} {l l' : List BackedBlock} (h : Merged bs l l') :
    (l'.map BackedBlock.addr).Sublist (l.map BackedBlock.addr) := by
  have := h.heads.map Prod.fst
  simpa [Function.comp_def, BackedBlock.head] using this

/-- A list is sorted when its block numbers increase. -/
theorem sorted_iff_blocks (l : List BackedBlock) :
    Sorted l ↔ (l.map BackedBlock.block).Pairwise (· < ·) := List.pairwise_map.symm

/-- The merged list is as sorted. -/
theorem Merged.sorted {bs : UInt32} {l l' : List BackedBlock} (h : Merged bs l l')
    (hs : Sorted l) : Sorted l' := by
  rw [sorted_iff_blocks] at hs ⊢
  exact hs.sublist h.blocks

/-- Merging two neighbours that may be merged gives a merged list. -/
theorem Merged.merge {bs : UInt32} {pre post : List BackedBlock} {a b : BackedBlock}
    (hs : Sorted (pre ++ a :: b :: post)) (hd : Disjoint bs (pre ++ a :: b :: post))
    (hm : canMerge bs a b) : Merged bs (pre ++ a :: b :: post) (pre ++ a.extend b :: post) := by
  obtain ⟨hpre, htail, hcross⟩ := List.pairwise_append.mp hd
  obtain ⟨ha, hb⟩ := List.pairwise_cons.mp htail
  have hab : Before (a.extent bs) (b.extent bs) := ha b List.mem_cons_self
  have hlt : a.block < b.block :=
    (List.pairwise_cons.mp (List.pairwise_append.mp hs).2.1).1 b List.mem_cons_self
  have hc := continues_of_canMerge hm hlt hab
  have hlen := a.extend_len_le b
  constructor
  · simp only [List.map_append, List.map_cons]
    exact (List.Sublist.refl _).append (((List.Sublist.refl _).cons _).cons_cons a.head)
  · refine List.pairwise_append.mpr ⟨hpre, List.pairwise_cons.mpr
      ⟨fun c hcm => ?_, (List.pairwise_cons.mp hb).2⟩, fun c hcm d hdm => ?_⟩
    · -- The merged block ends no later than `b`.
      have hbc : Before (b.extent bs) (c.extent bs) := (List.pairwise_cons.mp hb).1 c hcm
      have hstop := hc.stop_eq
      simp only [Before, BackedBlock.extent_stop, BackedBlock.extent_start] at hbc hstop ⊢
      simp only [BackedBlock.extend] at hlen ⊢
      omega
    · rcases List.mem_cons.mp hdm with rfl | hdm
      · exact hcross c hcm a List.mem_cons_self
      · exact hcross c hcm d (List.mem_cons_of_mem _ (List.mem_cons_of_mem _ hdm))
  · intro p x hx
    simp only [Describes, extents, List.map_append, List.map_cons, described_append,
      described_cons] at hx ⊢
    rcases hx with hx | hx | hx
    · exact Or.inl hx
    · rcases BackedBlock.extend_has hc hx with hx | hx
      · exact Or.inr (Or.inl hx)
      · exact Or.inr (Or.inr (Or.inl hx))
    · exact Or.inr (Or.inr (Or.inr hx))
  · simp only [totalLen_append, totalLen_cons]
    omega
  · -- When no length is lost, the merged block covers both.
    intro ht p x hx
    simp only [totalLen_append, totalLen_cons] at ht
    have hj := @BackedBlock.extend_extent bs a b (by omega)
    simp only [Describes, extents, List.map_append, List.map_cons, described_append, hj,
      described_join BlockSource.label hc] at hx ⊢
    exact hx

end AmlogicToolkit.Simg
