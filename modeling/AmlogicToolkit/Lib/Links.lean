import Mathlib.Data.List.Basic
import Mathlib.Data.Nat.Notation

/-!
# Singly linked lists in memory

A memory has a cell or nothing at each address, and a cell has a value and the address of the next
cell, or `none` for a null pointer. Values know their address (`addr`). `Linked h l q` says that the
cells of `l` are linked one after another and the last one to `q`, and `IsList h p l` that `l` is the
whole list that starts at `p`.

* Links of a concatenation are those of both parts, with the seam (`linked_append`).
* A store to the link of a cell leaves the links of all others (`Linked.frame`), and moves the end of
  the part that it is the last cell of (`Linked.relink`).
* A list has no cell twice, so that it has no cycle (`IsList.nodup`), and a pointer starts one list
  only (`IsList.unique`).
* A loop over a list stops at the first cell that its test holds for (`seek_eq`).
-/

namespace Links

/-- What lies at an address: a value and the address of the next cell. -/
structure Cell (β : Type) where
  /-- What the cell holds. -/
  val : β
  /-- Where the next cell lies. -/
  next : Option ℕ

/-- A memory: the cell at an address, if there is one. -/
abbrev Memory (β : Type) := ℕ → Option (Cell β)

/-- The ways in which an access or a loop can go wrong. -/
class Faulty (ε : Type) where
  /-- An access at an address without a cell. -/
  dangling : ε
  /-- A loop that has not ended. -/
  diverges : ε

section

variable {β ε : Type} [Faulty ε]

/-- The cell at an address, or a fault where there is none. -/
def load (h : Memory β) (a : ℕ) : Except ε (Cell β) :=
  match h a with
  | some c => .ok c
  | none => .error Faulty.dangling

/-- The memory with another link in the cell at `a`. -/
def Memory.link (h : Memory β) (a : ℕ) (q : Option ℕ) : Memory β := fun b =>
  if b = a then (h b).map fun c => { c with next := q } else h b

/-- The store of a link, to a cell that there must be. -/
def store (h : Memory β) (a : ℕ) (q : Option ℕ) : Except ε (Memory β) :=
  match h a with
  | some _ => .ok (h.link a q)
  | none => .error Faulty.dangling

/-- The loop over the cells from `p` on that stops at the first one with `stop`, or at a null
pointer, with at most as many passes as `fuel`. -/
def seek (h : Memory β) (stop : Cell β → Except ε Bool) : ℕ → Option ℕ → Except ε (Option ℕ)
  | _, none => .ok none
  | 0, some _ => .error Faulty.diverges
  | fuel + 1, some a => do
    let c ← load h a
    if ← stop c then return some a else seek h stop fuel c.next

/-- Reading an address that holds a cell returns the cell. -/
theorem load_eq {h : Memory β} {a : ℕ} {c : Cell β} (hc : h a = some c) :
    load h a = (.ok c : Except ε (Cell β)) := by
  rw [load, hc]

/-- Writing the link of an address that holds a cell sets the link. -/
theorem store_eq {h : Memory β} {a : ℕ} {c : Cell β} (hc : h a = some c) (q : Option ℕ) :
    store h a q = (.ok (h.link a q) : Except ε (Memory β)) := by
  rw [store, hc]

/-- After a link is set, its cell has it. -/
@[simp]
theorem Memory.link_self (h : Memory β) (a : ℕ) (q : Option ℕ) :
    h.link a q a = (h a).map fun c => { c with next := q } := if_pos rfl

/-- Setting the link of one cell leaves every other address alone. -/
theorem Memory.link_of_ne (h : Memory β) {a b : ℕ} (q : Option ℕ) (hne : b ≠ a) :
    h.link a q b = h b := if_neg hne

end

/-! ## Linked cells -/

section

variable {β : Type} (addr : β → ℕ)

/-- The pointer to the first of the cells `l`, or the pointer `q` behind them. -/
def entry (q : Option ℕ) : List β → Option ℕ
  | [] => q
  | b :: _ => some (addr b)

/-- The cells `l` are linked one after another, and the last one to `q`. -/
def Linked (h : Memory β) : List β → Option ℕ → Prop
  | [], _ => True
  | b :: l, q => h (addr b) = some ⟨b, entry addr q l⟩ ∧ Linked h l q

/-- `l` is the list that starts at `p`. -/
def IsList (h : Memory β) (p : Option ℕ) (l : List β) : Prop :=
  p = entry addr none l ∧ Linked addr h l none

end

section

variable {β : Type} {addr : β → ℕ} {h : Memory β} {l m : List β} {b c : β} {p q : Option ℕ}

/-- The entry of two lists in a row is the entry of the first, with that of the second behind it. -/
theorem entry_append : entry addr q (l ++ m) = entry addr (entry addr q m) l := by
  cases l <;> rfl

/-- What stands behind a node does not matter for the entry of a list that contains it. -/
theorem entry_append_cons : entry addr q (l ++ b :: m) = entry addr (some (addr b)) l := entry_append

/-- A list that has a first node is entered at that node. -/
theorem entry_of_head (hb : l.head? = some b) : entry addr q l = some (addr b) := by
  obtain ⟨m, rfl⟩ := List.head?_eq_some_iff.mp hb
  rfl

/-- The pointer to cells before `b` or to `b` is that of one of them. -/
theorem exists_entry (addr : β → ℕ) (l : List β) (b : β) :
    ∃ c ∈ l ++ [b], entry addr (some (addr b)) l = some (addr c) := by
  cases l with
  | nil => exact ⟨b, List.mem_singleton_self b, rfl⟩
  | cons c l => exact ⟨c, List.mem_cons_self, rfl⟩

/-- Two lists in a row are linked when both are, and the first ends where the second is entered. -/
theorem linked_append :
    Linked addr h (l ++ m) q ↔ Linked addr h l (entry addr q m) ∧ Linked addr h m q := by
  induction l with
  | nil => exact ⟨fun hm => ⟨trivial, hm⟩, fun hm => hm.2⟩
  | cons b l ih =>
    rw [List.cons_append, Linked, Linked, ih, entry_append, and_assoc]

/-- What the cell of a value on the way is. -/
theorem Linked.cell (hl : Linked addr h (l ++ b :: m) q) :
    h (addr b) = some ⟨b, entry addr q m⟩ := (linked_append.mp hl).2.1

/-- Every node of a linked list has a cell at its address. -/
theorem Linked.exists_cell (hl : Linked addr h l q) (hb : b ∈ l) :
    ∃ n, h (addr b) = some ⟨b, n⟩ := by
  obtain ⟨pre, post, rfl⟩ := List.mem_iff_append.mp hb
  exact ⟨_, hl.cell⟩

/-- The cell at an address has one value. -/
theorem Linked.eq_of_addr {p : Option ℕ} (hl : Linked addr h l q) (hm : Linked addr h m p)
    (hb : b ∈ l) (hc : c ∈ m) (heq : addr b = addr c) : b = c := by
  obtain ⟨n, hn⟩ := hl.exists_cell hb
  obtain ⟨n', hn'⟩ := hm.exists_cell hc
  rw [heq, hn'] at hn
  exact (congrArg Cell.val (Option.some.inj hn)).symm

/-- Links are in the cells that they link. -/
theorem Linked.congr {h' : Memory β} (hl : Linked addr h l q)
    (heq : ∀ b ∈ l, h' (addr b) = h (addr b)) : Linked addr h' l q := by
  induction l with
  | nil => trivial
  | cons b l ih =>
    obtain ⟨hb, hl⟩ := hl
    exact ⟨(heq b List.mem_cons_self).trans hb, ih hl fun c hc => heq c (List.mem_cons_of_mem _ hc)⟩

/-- **Frame**: a store to the link of another cell leaves a list linked. -/
theorem Linked.frame {a : ℕ} {r : Option ℕ} (hl : Linked addr h l q) (ha : ∀ b ∈ l, addr b ≠ a) :
    Linked addr (h.link a r) l q :=
  hl.congr fun b hb => h.link_of_ne r (ha b hb)

/-- **Relinking.** A store to the link of the last cell. -/
theorem Linked.relink {r : Option ℕ} (hl : Linked addr h (l ++ [b]) q)
    (hb : ∀ c ∈ l, addr c ≠ addr b) : Linked addr (h.link (addr b) r) (l ++ [b]) r := by
  obtain ⟨hl, hlast, -⟩ := linked_append.mp hl
  refine linked_append.mpr ⟨hl.frame hb, ?_, trivial⟩
  rw [Memory.link_self, hlast]
  rfl

/-- **Cutting.** The link of a cell moved past the cells `m` behind it. -/
theorem Linked.cut {x : β} {pre post : List β} (hl : Linked addr h (pre ++ x :: (m ++ post)) q)
    (hx : ∀ c ∈ pre ++ post, addr c ≠ addr x) :
    Linked addr (h.link (addr x) (entry addr q post)) (pre ++ x :: post) q := by
  obtain ⟨hpre, hcell, hrest⟩ := linked_append.mp hl
  obtain ⟨-, hpost⟩ := linked_append.mp hrest
  refine linked_append.mpr ⟨hpre.frame fun c hc => hx c (List.mem_append_left _ hc), ?_,
    hpost.frame fun c hc => hx c (List.mem_append_right _ hc)⟩
  rw [Memory.link_self, hcell]
  rfl

/-- **Splicing**: a linked list is put behind a cell of another by two stores to links. -/
theorem Linked.splice {x e : β} {pre post : List β} {r : Option ℕ}
    (hl : Linked addr h (pre ++ x :: post) q) (hm : Linked addr h (m ++ [e]) r)
    (hx : ∀ c ∈ pre ++ post, addr c ≠ addr x) (he : ∀ c ∈ m, addr c ≠ addr e)
    (hsep : ∀ b ∈ m ++ [e], ∀ d ∈ pre ++ x :: post, addr b ≠ addr d) :
    Linked addr ((h.link (addr e) (entry addr q post)).link (addr x) (entry addr none (m ++ [e])))
      (pre ++ x :: (m ++ [e] ++ post)) q := by
  have hmem : e ∈ m ++ [e] := List.mem_append_right _ (List.mem_singleton_self e)
  have hxmem : x ∈ pre ++ x :: post := List.mem_append_right _ List.mem_cons_self
  obtain ⟨hpre, hcell, hpost⟩ := linked_append.mp hl
  have hout : ∀ c ∈ pre ++ post, addr c ≠ addr e := by
    intro c hc
    refine (hsep e hmem c ?_).symm
    exact (List.mem_append.mp hc).elim (List.mem_append_left _)
      fun hc => List.mem_append_right _ (List.mem_cons_of_mem _ hc)
  have hkeep : ∀ k : List β, ∀ r', (∀ c ∈ k, c ∈ pre ++ post) → Linked addr h k r' →
      Linked addr ((h.link (addr e) (entry addr q post)).link (addr x)
        (entry addr none (m ++ [e]))) k r' := fun k r' hk hlk =>
    (hlk.frame fun c hc => hout c (hk c hc)).frame fun c hc => hx c (hk c hc)
  have hentry : entry addr q (m ++ [e] ++ post) = entry addr none (m ++ [e]) := by
    cases m <;> rfl
  refine linked_append.mpr ⟨hkeep pre _ (fun c => List.mem_append_left _) hpre, ?_,
    linked_append.mpr ⟨?_, hkeep post _ (fun c => List.mem_append_right _) hpost⟩⟩
  · rw [Memory.link_self, Memory.link_of_ne _ _ (hsep e hmem x hxmem).symm, hcell, hentry]
    rfl
  · exact (hm.relink he).frame fun c hc => hsep c hc x hxmem

/-! ## Lists -/

/-- A pointer starts one list only. -/
theorem IsList.unique (hl : IsList addr h p l) (hm : IsList addr h p m) : l = m := by
  induction l generalizing p m with
  | nil =>
    cases m with
    | nil => rfl
    | cons c m => exact absurd (hl.1.symm.trans hm.1) (by simp [entry])
  | cons b l ih =>
    obtain ⟨hp, hb, hl⟩ := hl
    cases m with
    | nil => exact absurd (hp.symm.trans hm.1) (by simp [entry])
    | cons c m =>
      obtain ⟨hp', hc, hm⟩ := hm
      have haddr : addr b = addr c := Option.some.inj (hp.symm.trans hp')
      rw [haddr, hc] at hb
      obtain ⟨hval, hnext⟩ := Cell.mk.inj (Option.some.inj hb)
      rw [hval, ih ⟨rfl, hl⟩ ⟨hnext.symm, hm⟩]

/-- What follows a cell of a list is the list that starts there. -/
theorem IsList.suffix (hl : IsList addr h p (l ++ m)) : IsList addr h (entry addr none m) m :=
  ⟨rfl, (linked_append.mp hl.2).2⟩

/-- **A list has no cycle**: its cells lie at different addresses. -/
theorem IsList.nodup (hl : IsList addr h p l) : (l.map addr).Nodup := by
  induction l generalizing p with
  | nil => exact List.nodup_nil
  | cons b l ih =>
    rw [List.map_cons, List.nodup_cons]
    refine ⟨fun hmem => ?_, ih ⟨rfl, hl.2.2⟩⟩
    obtain ⟨c, hc, heq⟩ := List.mem_map.mp hmem
    obtain ⟨pre, post, rfl⟩ := List.mem_iff_append.mp hc
    -- The rest from the second cell on would be the whole list.
    have hrest : IsList addr h (some (addr b)) (c :: post) := by
      rw [← heq]
      exact (show IsList addr h p ((b :: pre) ++ c :: post) from hl).suffix
    have hall : IsList addr h (some (addr b)) (b :: (pre ++ c :: post)) := ⟨rfl, hl.2⟩
    have hlen := congrArg List.length (hrest.unique hall)
    simp only [List.length_cons, List.length_append] at hlen
    omega

/-- Nodes of the two halves of one list have different addresses. -/
theorem IsList.addr_ne (hl : IsList addr h p (l ++ m)) (hb : b ∈ l) (hc : c ∈ m) :
    addr b ≠ addr c := by
  have hnd := hl.nodup
  rw [List.map_append] at hnd
  exact (List.nodup_append.mp hnd).2.2 _ (List.mem_map_of_mem hb) _ (List.mem_map_of_mem hc)

/-- No other node of a list has the address of a given one. -/
theorem IsList.others (hl : IsList addr h p (l ++ b :: m)) : ∀ c ∈ l ++ m, addr c ≠ addr b := by
  intro c hc
  rcases List.mem_append.mp hc with hc | hc
  · exact hl.addr_ne hc List.mem_cons_self
  · rw [List.append_cons] at hl
    exact (hl.addr_ne (List.mem_append_right _ (List.mem_singleton_self b)) hc).symm

/-! ## Loops -/

variable {ε : Type} [Faulty ε] {stop : Cell β → Except ε Bool} {fuel : ℕ}

/-- One pass of the loop stops at the first node, or goes on behind it with one unit of fuel less.
-/
theorem seek_cons {r : Bool} (hb : h (addr b) = some ⟨b, q⟩) (hr : stop ⟨b, q⟩ = .ok r) :
    seek h stop (fuel + 1) (some (addr b)) =
      if r then .ok (some (addr b)) else seek h stop fuel q := by
  rw [seek, load_eq hb]
  change (stop ⟨b, q⟩ >>= fun r => if r = true then pure (some (addr b)) else seek h stop fuel q) = _
  rw [hr]
  rfl

/-- **A loop over linked cells** stops at the first one that its test holds for. The cells that it
passes are linked to one of those up to there, but the first. -/
theorem seek_eq (hl : Linked addr h (l ++ b :: m) q) (hfuel : l.length < fuel)
    (hpass : ∀ c ∈ l, ∀ d ∈ (l ++ [b]).tail, stop ⟨c, some (addr d)⟩ = .ok false)
    (hstop : stop ⟨b, entry addr q m⟩ = .ok true) :
    seek h stop fuel (entry addr (some (addr b)) l) = .ok (some (addr b)) := by
  induction l generalizing fuel with
  | nil =>
    obtain ⟨fuel, rfl⟩ := Nat.exists_eq_add_one_of_ne_zero (Nat.ne_of_gt hfuel)
    exact (seek_cons hl.1 hstop).trans (if_pos rfl)
  | cons c l ih =>
    obtain ⟨fuel, rfl⟩ := Nat.exists_eq_add_one_of_ne_zero (Nat.ne_of_gt (Nat.zero_lt_of_lt hfuel))
    rw [List.cons_append, Linked, entry_append] at hl
    obtain ⟨hc, hl⟩ := hl
    obtain ⟨d, hd, hnext⟩ := exists_entry addr l b
    have htest : stop ⟨c, entry addr (some (addr b)) l⟩ = .ok false := by
      rw [hnext]
      exact hpass c List.mem_cons_self d hd
    refine (seek_cons hc htest).trans ((if_neg Bool.false_ne_true).trans ?_)
    refine ih hl (Nat.lt_of_succ_lt_succ hfuel) fun d hd d' hd' => ?_
    exact hpass d (List.mem_cons_of_mem _ hd) d' (List.mem_of_mem_tail hd')

end

end Links
