import AmlogicToolkit.Simg.Chains
import AmlogicToolkit.Simg.NormalWriter
import Mathlib.Algebra.BigOperators.Ring.List

/-!
# Additions of whole blocks

Calls that add whole blocks of an image below `2^32` bytes, in order, from sources that can be read.
They lose nothing, and the sparse file that they leave can be written (`addAll_writable`): a node
into which some of them are merged is read from where the first is read, and the last one shows that
the source does not end before.
-/

namespace AmlogicToolkit.Simg

open Bytes Extents

/-- Calls of whole blocks inside an image of `n` blocks. -/
structure WholeCalls (file : List UInt8) (bs : UInt32) (n : ℕ) (calls : List Call) : Prop where
  /-- No call is empty. -/
  nonempty : ∀ c ∈ calls, c.len ≠ 0
  /-- The calls come one after the other. -/
  increasing : Increasing bs calls
  /-- All are whole blocks. -/
  whole : ∀ c ∈ calls, bs.toNat ∣ c.len.toNat
  /-- All end inside the image. -/
  inside : ∀ c ∈ calls, (c.extent bs).stop ≤ n * bs.toNat
  /-- All can be read. -/
  readable : ∀ c ∈ calls, Readable file c.len.toNat c.source

section

variable {file : List UInt8} {bs : UInt32} {n : ℕ} {calls : List Call}

/-- Calls of whole blocks, one after the other, are allowed. -/
theorem WholeCalls.allowed (h : WholeCalls file bs n calls) : Allowed bs calls :=
  ⟨h.nonempty, h.increasing.apart⟩

/-- Calls that end below `2^32` have no long chain. -/
theorem noLongChain_of_stop (h : ∀ c ∈ calls, (c.extent bs).stop < 2 ^ 32) :
    NoLongChain bs calls := by
  intro chain hchain
  cases chain with
  | nil => simp [requestedLen]
  | cons X chain =>
    cases chain with
    | nil =>
      have := X.len.toNat_lt
      simpa [requestedLen] using this
    | cons Y chain =>
      have hX := (List.isChain_cons_cons.mp hchain).1.mem.1
      obtain ⟨L, hL, hstop, -⟩ := chain_end hchain hX
      have hlt := h L hL
      omega

/-- A node that spans calls that can be read can be read. -/
theorem Spans.readable {y : BackedBlock} {X : Call} {chain : List Call}
    (h : Spans bs calls y X chain) (hr : ∀ c ∈ calls, Readable file c.len.toNat c.source) :
    Readable file y.len.toNat y.source := by
  obtain ⟨L, hL, -, hlabels⟩ := chain_end h.joined h.mem
  have hlast := hr L hL
  have hfirst := hr X h.mem
  have hlab := hlabels 0
  rw [h.source, h.len]
  cases hX : X.source with
  | data p => rw [hX] at hfirst; exact hfirst
  | file f o => rw [hX] at hfirst; exact hfirst
  | fill w => trivial
  | fd g o =>
    rw [hX] at hfirst hlab
    cases hLs : L.source <;> rw [hLs] at hlab hlast <;>
      simp only [BlockSource.label, reduceCtorEq, Label.fd.injEq] at hlab
    simp only [Readable, requestedLen] at hfirst hlast hlab ⊢
    omega

/-- A node that spans whole blocks is whole blocks. -/
theorem Spans.whole {y : BackedBlock} {X : Call} {chain : List Call}
    (h : Spans bs calls y X chain) (hw : ∀ c ∈ calls, bs.toNat ∣ c.len.toNat) :
    bs.toNat ∣ y.len.toNat := by
  rw [h.len]
  refine List.dvd_sum fun m hm => ?_
  obtain ⟨c, hcm, rfl⟩ := List.mem_map.mp hm
  exact hw c (chain_mem h.joined h.mem c hcm)

/-- **Calls of whole blocks** below `2^32` bytes never stop the program. The blocks that they leave
describe exactly the calls, and can be written. -/
theorem addAll_writable (hbs : bs ≠ 0) (h4 : bs.toNat % 4 = 0) (hlt : bs.toNat < 2 ^ 31)
    (hsize : (n + 1) * bs.toNat ≤ 2 ^ 32) (h : WholeCalls file bs n calls) :
    ∃ s, addAll (sparseFileNew bs (n * bs.toNat : ℕ)) calls = .ok s ∧ s.Valid ∧
      s.block_size = bs ∧ s.Writable file n ∧ Faithful s calls := by
  have hpos : 0 < bs.toNat := toNat_pos_of_ne_zero hbs
  rw [Nat.add_mul, Nat.one_mul] at hsize
  have hn : n < 2 ^ 32 := by
    have := Nat.le_mul_of_pos_right n hpos
    omega
  -- No chain of calls is long enough for the sum of its lengths to wrap.
  have hno : NoLongChain bs calls := noLongChain_of_stop fun c hc => by
    have := h.inside c hc
    omega
  -- All calls are accepted, and the file shows what they asked for.
  obtain ⟨s, heq, hs, rfl, -, hspan⟩ := addAll_run hbs (n * bs.toNat : ℕ) h.allowed
  obtain ⟨s', heq', -, -, hlen, hbefore⟩ := addAll_increasing hbs (n * s.block_size.toNat : ℕ)
    h.increasing
  cases heq.symm.trans heq'
  obtain ⟨hsp, htot⟩ := hspan hno
  -- No block ends behind the image, as no call does.
  have hstop : ∀ y ∈ s.blocks, (y.extent s.block_size).stop ≤ n * s.block_size.toNat :=
    hbefore ⟨n * s.block_size.toNat, 0, .fill 0⟩ h.inside
  refine ⟨s, heq, hs.valid, rfl,
    ⟨hbs, h4, hlt, hlen, hn, fun y hy => ?_, hs.valid.disjoint, hstop⟩,
    (hs.faithful_iff h.allowed.apart).mpr htot⟩
  -- Every block of the file is a chain of calls that were merged.
  obtain ⟨X, chain, hc⟩ := hsp y hy
  have hX := Call.len_pos (h.nonempty X hc.mem)
  have hylen : y.len.toNat = X.len.toNat + requestedLen chain := hc.len
  have hend := hstop y hy
  rw [BackedBlock.extent_stop] at hend
  exact ⟨ne_zero_of_toNat_pos (by omega), Nat.div_mul_cancel (hc.whole h.whole),
    hc.readable h.readable, by omega⟩

end

end AmlogicToolkit.Simg
