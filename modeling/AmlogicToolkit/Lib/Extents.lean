import Mathlib.Data.List.Chain
import Mathlib.Data.List.GetD
import Mathlib.Order.Interval.Finset.Nat
import Mathlib.Algebra.GroupWithZero.Nat
import Mathlib.Algebra.BigOperators.Group.List.Basic
import Mathlib.Data.Finset.Union

/-!
# Extents

An extent is an interval of positions with a source, and a labelling says what a source puts at its
`k`-th position. A list of extents describes a partial map from positions to labels, as the
relation that some extent puts the label at the position. Joining two abutting extents whose labels
continue each other does not change the map, and the number of positions that a list covers is at
most the sum of its lengths, with equality when its extents lie apart. Values laid out one after the
other fill a list of extents (`Fills`) when each of their parts fills its part of the list.
-/

namespace Extents

/-- An interval of `len` positions from `start`, with a source. -/
structure Extent (σ : Type*) where
  /-- The first position. -/
  start : ℕ
  /-- The number of positions. -/
  len : ℕ
  /-- What the extent is filled from. -/
  src : σ
  deriving DecidableEq

variable {σ Λ : Type*}

/-- The position after the last one. -/
def Extent.stop (e : Extent σ) : ℕ := e.start + e.len

/-- `e` ends before `f` starts, or where it starts. -/
def Before (e f : Extent σ) : Prop := e.stop ≤ f.start

/-- `e` and `f` share no position. -/
def Apart (e f : Extent σ) : Prop := e.stop ≤ f.start ∨ f.stop ≤ e.start

instance : Std.Symm (Apart (σ := σ)) where
  symm _ _ := Or.symm

/-- An extent that ends before another begins shares no position with it. -/
theorem Before.apart {e f : Extent σ} (h : Before e f) : Apart e f := Or.inl h

section Labels

variable (lab : σ → ℕ → Λ)

/-- `e` puts the label `x` at position `p`. -/
def Extent.Has (e : Extent σ) (p : ℕ) (x : Λ) : Prop :=
  e.start ≤ p ∧ p < e.stop ∧ lab e.src (p - e.start) = x

/-- The map that a list of extents describes: some extent puts `x` at `p`. -/
def Described (es : List (Extent σ)) (p : ℕ) (x : Λ) : Prop := ∃ e ∈ es, e.Has lab p x

/-- No extents describe no position. -/
@[simp]
theorem described_nil (p : ℕ) (x : Λ) : ¬ Described lab ([] : List (Extent σ)) p x := by
  simp [Described]

/-- A position is described by the first extent or by the others. -/
@[simp]
theorem described_cons (e : Extent σ) (es : List (Extent σ)) (p : ℕ) (x : Λ) :
    Described lab (e :: es) p x ↔ e.Has lab p x ∨ Described lab es p x := by
  simp [Described]

/-- A position is described by one of two lists in a row when it is by one of them. -/
@[simp]
theorem described_append (es fs : List (Extent σ)) (p : ℕ) (x : Λ) :
    Described lab (es ++ fs) p x ↔ Described lab es p x ∨ Described lab fs p x := by
  simp only [Described, List.mem_append, or_and_right, exists_or]

/-- The order of the extents does not matter. -/
theorem described_perm {es fs : List (Extent σ)} (h : es.Perm fs) (p : ℕ) (x : Λ) :
    Described lab es p x ↔ Described lab fs p x := by
  simp only [Described, h.mem_iff]

/-- `f` starts where `e` ends, and its labels continue those of `e`. -/
structure Continues (e f : Extent σ) : Prop where
  /-- They abut. -/
  stop_eq : e.stop = f.start
  /-- The label of `e`'s source that would follow is the first label of `f`, and so on. -/
  label_eq : ∀ k, lab e.src (e.len + k) = lab f.src k

/-- `e` and `f` as one extent with the source of `e`. -/
def Extent.join (e f : Extent σ) : Extent σ := ⟨e.start, e.len + f.len, e.src⟩

/-- Joining an extent with one that continues it keeps both maps. -/
theorem has_join {e f : Extent σ} (h : Continues lab e f) (p : ℕ) (x : Λ) :
    (e.join f).Has lab p x ↔ e.Has lab p x ∨ f.Has lab p x := by
  have hs : e.start + e.len = f.start := h.stop_eq
  have key : f.start ≤ p → lab e.src (p - e.start) = lab f.src (p - f.start) := by
    intro hp
    have hk : p - e.start = e.len + (p - f.start) := by omega
    rw [hk, h.label_eq]
  simp only [Extent.Has, Extent.join, Extent.stop]
  constructor
  · rintro ⟨h1, h2, h3⟩
    by_cases hp : p < f.start
    · exact Or.inl ⟨h1, by omega, h3⟩
    · exact Or.inr ⟨by omega, by omega, by rw [← key (by omega)]; exact h3⟩
  · rintro (⟨h1, h2, h3⟩ | ⟨h1, h2, h3⟩)
    · exact ⟨h1, by omega, h3⟩
    · exact ⟨by omega, by omega, by rw [key h1]; exact h3⟩

/-- Joining two extents that continue each other changes nothing that they describe. -/
theorem described_join {e f : Extent σ} (h : Continues lab e f) (es : List (Extent σ)) (p : ℕ)
    (x : Λ) : Described lab (e.join f :: es) p x ↔ Described lab (e :: f :: es) p x := by
  simp only [described_cons, has_join lab h, or_assoc]

/-- A list in order stays in order when an extent of it is cut in two. -/
theorem pairwise_before_cut {e f : Extent σ} (h : Continues lab e f) {pre post : List (Extent σ)}
    (hp : (pre ++ e.join f :: post).Pairwise Before) :
    (pre ++ e :: f :: post).Pairwise Before := by
  have hs : e.start + e.len = f.start := h.stop_eq
  -- The joined extent ends where the second one does.
  have hstop : (e.join f).stop = f.stop := by
    simp only [Extent.join, Extent.stop]
    omega
  have hle : e.stop ≤ f.stop := by
    simp only [Extent.stop]
    omega
  obtain ⟨hpre, htail, hcross⟩ := List.pairwise_append.mp hp
  obtain ⟨hjoin, hpost⟩ := List.pairwise_cons.mp htail
  -- What stood before or behind the join stands so to both halves.
  refine List.pairwise_append.mpr ⟨hpre, List.pairwise_cons.mpr ⟨fun c hc => ?_,
    List.pairwise_cons.mpr ⟨fun c hc => ?_, hpost⟩⟩, fun c hc d hd => ?_⟩
  · rcases List.mem_cons.mp hc with rfl | hc
    · exact Nat.le_of_eq h.stop_eq
    · have := hjoin c hc
      rw [Before, hstop] at this
      exact hle.trans this
  · have := hjoin c hc
    rwa [Before, hstop] at this
  · have hce : Before c (e.join f) := hcross c hc _ List.mem_cons_self
    rcases List.mem_cons.mp hd with rfl | hd
    · exact hce
    · rcases List.mem_cons.mp hd with rfl | hd
      · exact Nat.le_trans hce (Nat.le.intro hs)
      · exact hcross c hc d (List.mem_cons_of_mem _ hd)

/-- An extent that is cut short puts nothing new anywhere. -/
theorem Extent.Has.of_cut {e f : Extent σ} {p : ℕ} {x : Λ} (h : e.Has lab p x)
    (hstart : e.start = f.start) (hsrc : e.src = f.src) (hlen : e.len ≤ f.len) : f.Has lab p x := by
  obtain ⟨h1, h2, h3⟩ := h
  simp only [stop] at h2
  exact ⟨by omega, by simp only [stop]; omega, by rw [← hsrc, ← hstart]; exact h3⟩

/-- In a list of extents that lie apart, a position has at most one label. -/
theorem described_unique {es : List (Extent σ)} (h : es.Pairwise Apart) {p : ℕ} {x y : Λ}
    (hx : Described lab es p x) (hy : Described lab es p y) : x = y := by
  obtain ⟨e, he, h1, h2, h3⟩ := hx
  obtain ⟨f, hf, h4, h5, h6⟩ := hy
  have hef : e = f := by
    by_contra hne
    have hap : Apart e f := h.forall he hf hne
    simp only [Apart, Extent.stop] at hap h2 h5
    omega
  subst hef
  exact h3.symm.trans h6

end Labels

/-! ## Units -/

/-- An extent in a unit that is `k` times smaller. -/
def Extent.scale (k : ℕ) (e : Extent σ) : Extent σ := ⟨e.start * k, e.len * k, e.src⟩

/-- The end of a scaled extent is the scaled end. -/
@[simp]
theorem Extent.scale_stop (k : ℕ) (e : Extent σ) : (e.scale k).stop = e.stop * k :=
  (Nat.add_mul _ _ _).symm

/-- Scaling keeps the order of two extents. -/
theorem Before.scale {e f : Extent σ} (h : Before e f) (k : ℕ) : Before (e.scale k) (f.scale k) := by
  rw [Before, Extent.scale_stop]
  exact Nat.mul_le_mul_right k h

/-! ## Covered positions -/

/-- The positions of an extent, as a finite set. -/
def Extent.cells (e : Extent σ) : Finset ℕ := Finset.Ico e.start e.stop

/-- The positions of the extents of a list. -/
def cells : List (Extent σ) → Finset ℕ
  | [] => ∅
  | e :: es => e.cells ∪ cells es

/-- The sum of the lengths of a list of extents. -/
def total (es : List (Extent σ)) : ℕ := (es.map Extent.len).sum

/-- An extent has as many positions as it is long. -/
@[simp]
theorem Extent.card_cells (e : Extent σ) : e.cells.card = e.len := by
  simp [Extent.cells, Extent.stop]

/-- A position of a list of extents lies in one of them. -/
theorem mem_cells {es : List (Extent σ)} {p : ℕ} :
    p ∈ cells es ↔ ∃ e ∈ es, e.start ≤ p ∧ p < e.stop := by
  induction es with
  | nil => simp [cells]
  | cons e es ih => simp [cells, ih, Extent.cells]

/-- A position of two lists in a row is one of the first or of the second. -/
theorem mem_cells_append {es fs : List (Extent σ)} {p : ℕ} :
    p ∈ cells (es ++ fs) ↔ p ∈ cells es ∨ p ∈ cells fs := by
  simp only [mem_cells, List.mem_append, or_and_right, exists_or]

/-- The positions that a list covers are those that its map is defined at. -/
theorem mem_cells_iff_described (lab : σ → ℕ → Λ) {es : List (Extent σ)} {p : ℕ} :
    p ∈ cells es ↔ ∃ x, Described lab es p x := by
  rw [mem_cells]
  constructor
  · rintro ⟨e, he, h1, h2⟩
    exact ⟨lab e.src (p - e.start), e, he, h1, h2, rfl⟩
  · rintro ⟨x, e, he, h1, h2, -⟩
    exact ⟨e, he, h1, h2⟩

/-- A position is covered when its first position in a smaller unit is. -/
theorem mem_cells_scale {es : List (Extent σ)} {k : ℕ} (hk : 0 < k) {p : ℕ} :
    p * k ∈ cells (es.map (Extent.scale k)) ↔ p ∈ cells es := by
  simp only [mem_cells, List.mem_map]
  constructor
  · rintro ⟨-, ⟨e, he, rfl⟩, h1, h2⟩
    rw [Extent.scale_stop] at h2
    exact ⟨e, he, Nat.le_of_mul_le_mul_right h1 hk, Nat.lt_of_mul_lt_mul_right h2⟩
  · rintro ⟨e, he, h1, h2⟩
    refine ⟨_, ⟨e, he, rfl⟩, Nat.mul_le_mul_right k h1, ?_⟩
    rw [Extent.scale_stop]
    exact Nat.mul_lt_mul_of_pos_right h2 hk

/-- Two lists that describe one map cover the same positions. -/
theorem cells_congr (lab : σ → ℕ → Λ) {es fs : List (Extent σ)}
    (h : ∀ p x, Described lab es p x ↔ Described lab fs p x) : cells es = cells fs := by
  ext p
  simp only [mem_cells_iff_described lab, h]

/-- A list of extents that lie apart covers exactly as many. -/
theorem card_cells {es : List (Extent σ)} (h : es.Pairwise Apart) :
    (cells es).card = total es := by
  induction es with
  | nil => simp [cells, total]
  | cons e es ih =>
    obtain ⟨he, hes⟩ := List.pairwise_cons.mp h
    have hd : Disjoint e.cells (cells es) := by
      rw [Finset.disjoint_left]
      intro p hp hq
      obtain ⟨f, hf, h1, h2⟩ := mem_cells.mp hq
      have hap := he f hf
      simp only [Extent.cells, Finset.mem_Ico, Extent.stop] at hp h2
      simp only [Apart, Extent.stop] at hap
      omega
    calc (cells (e :: es)).card = e.cells.card + (cells es).card := Finset.card_union_of_disjoint hd
      _ = e.len + total es := by rw [Extent.card_cells, ih hes]
      _ = total (e :: es) := by simp [total]

/-! ## Values laid out -/

section Fills

variable {β : Type*} (lab : σ → ℕ → Λ) (val : ℕ → Λ → β) (z : β)

/-- The values `l` from position `base` on **fill** the extents: a position with a label has the value
of the label there, and a position without one has `z`. -/
def Fills (es : List (Extent σ)) (base : ℕ) (l : List β) : Prop :=
  ∀ p, base ≤ p → (∀ x, Described lab es p x → l.getD (p - base) z = val p x) ∧
    ((∀ x, ¬ Described lab es p x) → l.getD (p - base) z = z)

variable {lab val z}

/-- No extents are filled with `z`. -/
theorem fills_replicate (base n : ℕ) : Fills lab val z [] base (List.replicate n z) := by
  refine fun p _ => ⟨fun x hx => absurd hx (described_nil lab p x), fun _ => ?_⟩
  by_cases h : p - base < n
  · exact List.getD_replicate z h
  · exact List.getD_eq_default _ _ (by rw [List.length_replicate]; exact Nat.not_lt.mp h)

/-- The empty list is filled by no extents. -/
theorem fills_nil (base : ℕ) : Fills lab val z [] base [] := fills_replicate base 0

/-- **One extent** is filled with the values of its labels. -/
theorem Extent.fills {e : Extent σ} {l : List β} (hlen : l.length = e.len)
    (h : ∀ k < e.len, l.getD k z = val (e.start + k) (lab e.src k)) :
    Fills lab val z [e] e.start l := by
  intro p hp
  have hhas (x : Λ) : Described lab [e] p x ↔ e.Has lab p x := by
    rw [described_cons, or_iff_left (described_nil lab p x)]
  refine ⟨fun x hx => ?_, fun hno => List.getD_eq_default _ _ ?_⟩
  · obtain ⟨-, hlt, rfl⟩ := (hhas x).mp hx
    rw [h _ (Nat.sub_lt_left_of_lt_add hp hlt), Nat.add_sub_cancel' hp]
  · by_contra hlt
    refine hno _ ((hhas _).mpr ⟨hp, ?_, rfl⟩)
    rw [Extent.stop]
    omega

/-- **One part after the other**: the values of the second are behind the extents of the first, and its
extents are behind the values of the first. -/
theorem Fills.append {es fs : List (Extent σ)} {base : ℕ} {l m : List β}
    (h1 : Fills lab val z es base l) (h2 : Fills lab val z fs (base + l.length) m)
    (hes : ∀ e ∈ es, e.stop ≤ base + l.length) (hfs : ∀ f ∈ fs, base + l.length ≤ f.start) :
    Fills lab val z (es ++ fs) base (l ++ m) := by
  intro p hp
  have hleft {x : Λ} (hx : Described lab es p x) : p < base + l.length := by
    obtain ⟨e, he, -, hlt, -⟩ := hx
    exact hlt.trans_le (hes e he)
  have hright {x : Λ} (hx : Described lab fs p x) : base + l.length ≤ p := by
    obtain ⟨f, hf, hle, -⟩ := hx
    exact (hfs f hf).trans hle
  simp only [described_append]
  by_cases hin : p < base + l.length
  · obtain ⟨hval, hzero⟩ := h1 p hp
    rw [List.getD_append _ _ _ _ (Nat.sub_lt_left_of_lt_add hp hin)]
    refine ⟨fun x hx => hval x (hx.resolve_right fun hf => ?_), fun hno => hzero fun x hx => ?_⟩
    · exact absurd hin (Nat.not_lt.mpr (hright hf))
    · exact hno x (Or.inl hx)
  · have hge := Nat.not_lt.mp hin
    obtain ⟨hval, hzero⟩ := h2 p hge
    rw [List.getD_append_right _ _ _ _ (Nat.le_sub_of_add_le' hge), Nat.sub_sub]
    refine ⟨fun x hx => hval x (hx.resolve_left fun he => hin (hleft he)), fun hno => ?_⟩
    exact hzero fun x hx => hno x (Or.inr hx)

end Fills

end Extents
