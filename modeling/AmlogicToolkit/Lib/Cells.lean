import AmlogicToolkit.Lib.Links

/-!
# Cells that come and go

Allocating, overwriting and freeing the cells of a linked list. Each change of a list is a theorem
about the memory after the stores that make it: a cell put in front (`IsList.push`), put behind
another one (`IsList.insert`), a cell cut in two (`IsList.divide`), and two neighbours joined
(`IsList.join`).

`Reshapes h h' l l'` says that the memory `h'` has the cells `l'` in place of the cells `l` of `h`:
other cells are as they were, no other address is taken, and what is not kept is freed. So a
computation that reshapes loses no cell and frees none that it does not own.
-/

namespace Links

section

variable {β : Type} {addr : β → ℕ} {h h' h'' : Memory β} {l l' l'' pre post : List β}
  {p q : Option ℕ} {a : ℕ} {b x y z : β} {c : Cell β}

/-- The memory with a cell at `a`, new or in place of the one there. -/
def Memory.set (h : Memory β) (a : ℕ) (c : Cell β) : Memory β := fun b =>
  if b = a then some c else h b

/-- The memory without the cell at `a`. -/
def Memory.free (h : Memory β) (a : ℕ) : Memory β := fun b => if b = a then none else h b

/-- A cell that was set is found at its address. -/
@[simp]
theorem Memory.set_self (h : Memory β) (a : ℕ) (c : Cell β) : h.set a c a = some c := if_pos rfl

/-- Setting a cell leaves every other address alone. -/
theorem Memory.set_of_ne (h : Memory β) {a b : ℕ} (c : Cell β) (hne : b ≠ a) :
    h.set a c b = h b := if_neg hne

/-- Nothing is found at an address that was freed. -/
@[simp]
theorem Memory.free_self (h : Memory β) (a : ℕ) : h.free a a = none := if_pos rfl

/-- Freeing an address leaves every other one alone. -/
theorem Memory.free_of_ne (h : Memory β) {a b : ℕ} (hne : b ≠ a) : h.free a b = h b := if_neg hne

/-- A store to a link leaves what the cells hold. -/
theorem Memory.link_val (h : Memory β) (a : ℕ) (q : Option ℕ) (e : ℕ) :
    (h.link a q e).map Cell.val = (h e).map Cell.val := by
  by_cases he : e = a
  · rw [he, Memory.link_self, Option.map_map]
    rfl
  · rw [Memory.link_of_ne _ _ he]

/-- A store of the link that is there. -/
theorem Memory.link_eq_self (hc : h a = some c) : h.link a c.next = h := by
  funext e
  by_cases he : e = a
  · rw [he, Memory.link_self, hc]
    rfl
  · exact h.link_of_ne _ he

/-! ## Lists -/

/-- **Pushing.** A cell linked to the first one of a list starts the list. -/
theorem IsList.push (hl : IsList addr h p l) (hb : h (addr b) = some ⟨b, q⟩)
    (hnew : ∀ d ∈ l, addr d ≠ addr b) :
    IsList addr (h.link (addr b) p) (some (addr b)) (b :: l) := by
  refine ⟨rfl, ?_, hl.2.frame hnew⟩
  rw [Memory.link_self, hb, ← hl.1]
  rfl

/-- **Inserting**: a cell is put behind one of a list by two stores to links. -/
theorem IsList.insert (hl : IsList addr h p (pre ++ x :: post)) (hb : h (addr b) = some ⟨b, q⟩)
    (hnew : ∀ d ∈ pre ++ x :: post, addr d ≠ addr b) :
    IsList addr ((h.link (addr b) (entry addr none post)).link (addr x) (some (addr b))) p
      (pre ++ x :: b :: post) := by
  refine ⟨hl.1.trans (entry_append_cons.trans entry_append_cons.symm), ?_⟩
  refine @Linked.splice _ _ _ [] none x b pre post q hl.2 ⟨hb, trivial⟩ hl.others
    (List.forall_mem_nil _) fun d hd e he => ?_
  rw [List.mem_singleton.mp hd]
  exact (hnew e he).symm

/-- **Dividing.** A cell overwritten, and linked to a new one that is linked to what was behind. -/
theorem IsList.divide (hl : IsList addr h p (pre ++ x :: post)) (hz : addr z = addr x)
    (hnew : ∀ d ∈ pre ++ x :: post, addr d ≠ addr y) :
    IsList addr ((h.set (addr y) ⟨y, entry addr none post⟩).set (addr x) ⟨z, some (addr y)⟩) p
      (pre ++ z :: y :: post) := by
  have hx := hl.others
  obtain ⟨hp, hlink⟩ := hl
  obtain ⟨hpre, -, hpost⟩ := linked_append.mp hlink
  have hentry : entry addr (some (addr x)) pre = entry addr (some (addr z)) pre := by rw [hz]
  have hkeep : ∀ d ∈ pre ++ post, ((h.set (addr y) ⟨y, entry addr none post⟩).set (addr x)
      ⟨z, some (addr y)⟩) (addr d) = h (addr d) := by
    intro d hd
    have hmem : d ∈ pre ++ x :: post := ((List.sublist_cons_self x post).append_left pre).subset hd
    rw [Memory.set_of_ne _ _ (hx d hd), Memory.set_of_ne _ _ (hnew d hmem)]
  refine ⟨hp.trans (entry_append_cons.trans (hentry.trans entry_append_cons.symm)), ?_⟩
  refine linked_append.mpr ⟨?_, ?_, ?_, hpost.congr fun d hd => hkeep d (List.mem_append_right _ hd)⟩
  · rw [show entry addr none (z :: y :: post) = some (addr x) from congrArg some hz]
    exact hpre.congr fun d hd => hkeep d (List.mem_append_left _ hd)
  · rw [hz, Memory.set_self]
    rfl
  · rw [Memory.set_of_ne _ _ (hnew x (List.mem_append_right _ List.mem_cons_self)).symm,
      Memory.set_self]

/-- **Joining.** A cell overwritten and linked past the next one, which is freed. -/
theorem IsList.join (hl : IsList addr h p (pre ++ x :: y :: post)) (hz : addr z = addr x) :
    IsList addr ((h.set (addr x) ⟨z, entry addr none post⟩).free (addr y)) p (pre ++ z :: post) := by
  have hx := hl.others
  have hy : ∀ d ∈ pre ++ x :: post, addr d ≠ addr y := by
    have hcat : pre ++ x :: y :: post = (pre ++ [x]) ++ y :: post := by simp
    rw [hcat] at hl
    intro d hd
    exact hl.others d (by simpa using hd)
  obtain ⟨hp, hlink⟩ := hl
  obtain ⟨hpre, -, -, hpost⟩ := linked_append.mp hlink
  have hentry : entry addr (some (addr x)) pre = entry addr (some (addr z)) pre := by rw [hz]
  -- Only the two cells have changed, and all other addresses are apart from theirs.
  have hkeep : ∀ d ∈ pre ++ post, ((h.set (addr x) ⟨z, entry addr none post⟩).free (addr y))
      (addr d) = h (addr d) := by
    intro d hd
    have hsub := (List.sublist_cons_self x post).append_left pre
    have hsub' := (List.sublist_cons_self y post).append_left pre
    rw [Memory.free_of_ne _ (hy d (hsub.subset hd)), Memory.set_of_ne _ _ (hx d (hsub'.subset hd))]
  refine ⟨hp.trans (entry_append_cons.trans (hentry.trans entry_append_cons.symm)), ?_⟩
  -- The list is cut at the joined cell: the part before it, the cell, and the part behind.
  refine linked_append.mpr ⟨?_, ?_, hpost.congr fun d hd => hkeep d (List.mem_append_right _ hd)⟩
  · rw [show entry addr none (z :: post) = some (addr x) from congrArg some hz]
    exact hpre.congr fun d hd => hkeep d (List.mem_append_left _ hd)
  · have hxy := hy x (List.mem_append_right _ List.mem_cons_self)
    rw [hz, Memory.free_of_ne _ hxy, Memory.set_self]

/-- **Popping.** What is left of a list when its first cell is freed. -/
theorem IsList.pop (hl : IsList addr h p (b :: l)) :
    IsList addr (h.free (addr b)) (entry addr none l) l :=
  ⟨rfl, hl.2.2.congr fun _ hd => h.free_of_ne (@IsList.others _ _ _ [] l b p hl _ hd)⟩

/-! ## What becomes of the cells -/

/-- The cells `l` have become the cells `l'`. -/
structure Reshapes (addr : β → ℕ) (h h' : Memory β) (l l' : List β) : Prop where
  /-- Other cells are as they were. -/
  frame : ∀ a, (∀ b ∈ l, addr b ≠ a) → h' a = h a
  /-- No other address is taken. -/
  within : ∀ b ∈ l', ∃ d ∈ l, addr d = addr b
  /-- What is not kept is freed. -/
  freed : ∀ d ∈ l, (∃ b ∈ l', addr b = addr d) ∨ h' (addr d) = none

/-- Two changes of the links, one after the other, are one change. -/
theorem Reshapes.trans (hr : Reshapes addr h h' l l') (hr' : Reshapes addr h' h'' l' l'') :
    Reshapes addr h h'' l l'' := by
  have hout : ∀ a, (∀ b ∈ l, addr b ≠ a) → ∀ b ∈ l', addr b ≠ a := by
    intro a ha b hb
    obtain ⟨d, hd, heq⟩ := hr.within b hb
    exact heq ▸ ha d hd
  refine ⟨fun a ha => (hr'.frame a (hout a ha)).trans (hr.frame a ha), fun b hb => ?_,
    fun d hd => ?_⟩
  · obtain ⟨d, hd, heq⟩ := hr'.within b hb
    obtain ⟨e, he, heq'⟩ := hr.within d hd
    exact ⟨e, he, heq'.trans heq⟩
  · by_cases hkept : ∃ b ∈ l', addr b = addr d
    · obtain ⟨b, hb, heq⟩ := hkept
      rw [← heq]
      exact hr'.freed b hb
    · refine Or.inr ?_
      rw [hr'.frame _ fun b hb heq => hkept ⟨b, hb, heq⟩]
      exact (hr.freed d hd).resolve_left hkept

/-- Stores that keep the addresses of a list. -/
theorem reshapes_of_frame (hframe : ∀ a, (∀ b ∈ l, addr b ≠ a) → h' a = h a)
    (hsame : ∀ a, a ∈ l'.map addr ↔ a ∈ l.map addr) : Reshapes addr h h' l l' := by
  refine ⟨hframe, fun b hb => ?_, fun d hd => Or.inl ?_⟩
  · exact List.mem_map.mp ((hsame _).mp (List.mem_map_of_mem hb))
  · exact List.mem_map.mp ((hsame _).mpr (List.mem_map_of_mem hd))

/-- Freeing the first cell of a list leaves the others as they were. -/
theorem pop_reshapes : Reshapes addr h (h.free (addr b)) (b :: l) l := by
  refine ⟨fun a ha => h.free_of_ne (ha b List.mem_cons_self).symm, fun d hd => ?_, fun d hd => ?_⟩
  · exact ⟨d, List.mem_cons_of_mem _ hd, rfl⟩
  · rcases List.mem_cons.mp hd with rfl | hd
    · exact Or.inr (h.free_self _)
    · exact Or.inl ⟨d, hd, rfl⟩

/-- Joining two neighbours frees the second one. -/
theorem join_reshapes (hz : addr z = addr x) :
    Reshapes addr h ((h.set (addr x) c).free (addr y)) (pre ++ x :: y :: post)
      (pre ++ z :: post) := by
  refine ⟨fun a ha => ?_, fun b hb => ?_, fun d hd => ?_⟩
  · rw [Memory.free_of_ne _ (ha y (by simp)).symm, Memory.set_of_ne _ _ (ha x (by simp)).symm]
  · rcases List.mem_append.mp hb with hb | hb
    · exact ⟨b, List.mem_append_left _ hb, rfl⟩
    · rcases List.mem_cons.mp hb with rfl | hb
      · exact ⟨x, by simp, hz.symm⟩
      · exact ⟨b, by simp [hb], rfl⟩
  · simp only [List.mem_append, List.mem_cons] at hd
    rcases hd with hd | rfl | rfl | hd
    · exact Or.inl ⟨d, by simp [hd], rfl⟩
    · exact Or.inl ⟨z, by simp, hz⟩
    · exact Or.inr (Memory.free_self _ _)
    · exact Or.inl ⟨d, by simp [hd], rfl⟩

end

end Links
