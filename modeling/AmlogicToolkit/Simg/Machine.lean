import AmlogicToolkit.Simg.Memory

/-!
# A program and its block lists

A program that calls the functions of `backed_block.c` on any number of lists in one memory
(`Machine.step`), beside the lists of nodes that the other modules work with (`Lists.step`).

* Every call does in memory what it does to the lists (`Machine.step_simulates`), so that no call
  uses a node or a name that has been freed, and every loop ends.
* Every node is one of exactly one list, and when all lists are destroyed nothing is left
  (`Machine.Reaches.ledger`).
* The one contract that `backed_block_split` does not keep by itself is that of names: a list in which
  a node that has a file has been divided can not be destroyed (`Machine.Reaches.split_destroy`).
-/

namespace AmlogicToolkit.Simg

open Links

/-- A program that has block lists: its memory, and where its lists start, by their numbers. -/
structure Machine where
  /-- The memory. -/
  heap : Heap
  /-- The lists. -/
  lists : ℕ → Option ListHead

/-- A program that has no list yet. -/
def Machine.empty : Machine := ⟨⟨fun _ => none, fun _ => 0, ∅⟩, fun _ => none⟩

/-- The calls that a program makes, with the addresses that the allocator gives. -/
inductive ListCall where
  /-- `backed_block_list_new`. -/
  | new (i : ℕ) (block_size : UInt32)
  /-- One of the four `backed_block_add_*`. -/
  | add (i a name : ℕ) (source : BlockSource) (len block : UInt32)
  /-- `backed_block_split`. -/
  | split (i bb a : ℕ) (max_len : UInt32)
  /-- `backed_block_list_move`. -/
  | move (i j : ℕ) (start stop : Option ℕ)
  /-- `backed_block_list_destroy`. -/
  | destroy (i : ℕ)

/-- A call, with at most `fuel` passes of each loop. A list that there is not is a use of freed
memory. -/
def Machine.step (m : Machine) (fuel : ℕ) : ListCall → Except Fault Machine
  | .new i block_size =>
    .ok { m with lists := Function.update m.lists i (some ⟨none, none, block_size⟩) }
  | .add i a name source len block =>
    match m.lists i with
    | none => .error .useAfterFree
    | some bbl => do
      let (heap, bbl) ← InMemory.addBlock fuel m.heap bbl a name source len block
      return ⟨heap, Function.update m.lists i (some bbl)⟩
  | .split i bb a max_len =>
    match m.lists i with
    | none => .error .useAfterFree
    | some bbl => do
      let heap ← InMemory.backedBlockSplit m.heap bbl bb a max_len
      return ⟨heap, Function.update m.lists i (some bbl)⟩
  | .move i j start stop =>
    match m.lists i, m.lists j with
    | some src, some dst => do
      let (nodes, src, dst) ← InMemory.backedBlockListMove fuel m.heap.nodes src dst start stop
      return ⟨{ m.heap with nodes },
        Function.update (Function.update m.lists i (some src)) j (some dst)⟩
    | _, _ => .error .useAfterFree
  | .destroy i =>
    match m.lists i with
    | none => .error .useAfterFree
    | some bbl => do
      let heap ← InMemory.destroyBlocks fuel m.heap bbl.data_blocks
      return ⟨heap, Function.update m.lists i none⟩

/-- The lists of a program, as lists of nodes. -/
abbrev Lists := ℕ → Option BackedBlockList

/-- What a call does to the lists of nodes. -/
def Lists.step (ls : Lists) : ListCall → Except Fault Lists
  | .new i block_size => .ok (Function.update ls i (some (backedBlockListNew block_size)))
  | .add i a _ source len block =>
    match ls i with
    | none => .error .useAfterFree
    | some bbl => do
      let bbl ← addBlock { bbl with next_addr := a } source len block
      return Function.update ls i (some bbl)
  | .split i bb a max_len =>
    match ls i with
    | none => .error .useAfterFree
    | some bbl =>
      if bbl.block_size = 0 then .error .divByZero
      else match bbl.data_blocks.find? fun x => x.addr = bb with
        | none => .error .useAfterFree
        | some x =>
          .ok (Function.update ls i (some (backedBlockSplit { bbl with next_addr := a } x max_len)))
  | .move i j start stop =>
    match ls i, ls j with
    | some src, some dst =>
      let (src, dst) := backedBlockListMove src dst start stop
      .ok (Function.update (Function.update ls i (some src)) j (some dst))
    | _, _ => .error .useAfterFree
  | .destroy i =>
    match ls i with
    | none => .error .useAfterFree
    | some _ => .ok (Function.update ls i none)

/-! ## The contract of the calls -/

/-- `x` is a node of the list with the number `i`. -/
def Machine.IsNode (m : Machine) (i : ℕ) (x : BackedBlock) : Prop :=
  ∃ head ∈ m.lists i, ∃ l, IsList BackedBlock.addr m.heap.nodes head.data_blocks l ∧ x ∈ l

/-- What the callers and the allocator promise: lists exist, new nodes and names lie where nothing
lies, a node to split is one of the list, and `start` and `stop` are the ends of a segment of it. No
node that has a file is divided. -/
def ListCall.Legal (m : Machine) : ListCall → Prop
  | .new i _ => m.lists i = none
  | .add i a name source _ _ =>
    m.lists i ≠ none ∧ m.heap.nodes a = none ∧ (source.type = .file → name ∉ m.heap.names)
  | .split i bb a max_len =>
    m.heap.nodes a = none ∧ ∃ x, m.IsNode i x ∧ x.addr = bb ∧
      (x.source.type = .file → ∀ head ∈ m.lists i, x.len ≤ alignDown max_len head.block_size)
  | .move i j start stop =>
    i ≠ j ∧ m.lists j ≠ none ∧ ∃ src ∈ m.lists i, ∃ before segment after,
      IsList BackedBlock.addr m.heap.nodes src.data_blocks (before ++ (segment ++ after)) ∧
        Selects before segment after start stop
  | .destroy i => m.lists i ≠ none

/-- The call returns with `m'`: its loops end after some number of passes. -/
def Machine.Returns (m : Machine) (c : ListCall) (m' : Machine) : Prop :=
  ∃ n, ∀ fuel ≥ n, m.step fuel c = .ok m'

/-- The calls of a program that keeps the contract, and where they have brought it. -/
inductive Machine.Reaches : List ListCall → Machine → Prop
  | empty : Reaches [] Machine.empty
  | call {calls : List ListCall} {m m' : Machine} {c : ListCall} (h : Reaches calls m)
      (hlegal : c.Legal m) (hreturns : m.Returns c m') : Reaches (calls ++ [c]) m'

/-! ## The lists are those in memory -/

/-- The node at `a` is one of the list with the number `i`. -/
def Lists.Owns (ls : Lists) (i a : ℕ) : Prop := ∃ bbl ∈ ls i, ∃ b ∈ bbl.data_blocks, b.addr = a

/-- The lists of nodes are those of the program. -/
structure Rep (m : Machine) (ls : Lists) : Prop where
  /-- Every list is in memory. -/
  lists : ∀ i, Option.Rel (Represents m.heap.nodes) (m.lists i) (ls i)
  /-- No `last_used` dangles. -/
  alive : ∀ i, ∀ bbl ∈ ls i, bbl.CacheAlive
  /-- No node is one of two lists. -/
  apart : ∀ i j a, ls.Owns i a → ls.Owns j a → i = j
  /-- Every node is one of a list. -/
  owned : ∀ a, m.heap.nodes a ≠ none → ∃ i, ls.Owns i a
  /-- Every node that has a file has a name of its own, and there are no other names. -/
  names : m.heap.NamesOk

section

variable {m m' : Machine} {ls ls' : Lists} {i j a : ℕ} {h' : Heap} {l₀ l' : List BackedBlock}
  {bbl : BackedBlockList} {head : ListHead}

/-- A machine without lists represents none. -/
theorem rep_empty : Rep Machine.empty fun _ => none := by
  refine ⟨fun i => .none, fun i bbl h => ?_, fun i j a h => ?_, fun a h => absurd rfl h, ?_⟩
  · exact nomatch h
  · obtain ⟨bbl, hbbl, -⟩ := h
    exact nomatch hbbl
  · have hfiles : Machine.empty.heap.fileNodes = ∅ := by
      ext b
      simp [Heap.fileNodes, Machine.empty]
    unfold Heap.NamesOk
    rw [hfiles]
    exact Set.bijOn_empty_iff_right.mpr (Finset.coe_empty : ((∅ : Finset ℕ) : Set ℕ) = ∅)

/-- The list that there is for a list in memory. -/
theorem Rep.list_of_head (hrep : Rep m ls) (hhead : m.lists i = some head) :
    ∃ bbl, ls i = some bbl ∧ Represents m.heap.nodes head bbl := by
  have hrel := hrep.lists i
  rw [hhead] at hrel
  cases hls : ls i with
  | none =>
    rw [hls] at hrel
    exact nomatch hrel
  | some bbl =>
    rw [hls] at hrel
    cases hrel with
    | some h => exact ⟨bbl, rfl, h⟩

/-- A list that is represented has a head in memory that represents it. -/
theorem Rep.head_of_list (hrep : Rep m ls) (hls : ls i = some bbl) :
    ∃ head, m.lists i = some head ∧ Represents m.heap.nodes head bbl := by
  have hrel := hrep.lists i
  rw [hls] at hrel
  cases hhead : m.lists i with
  | none =>
    rw [hhead] at hrel
    exact nomatch hrel
  | some head =>
    rw [hhead] at hrel
    cases hrel with
    | some h => exact ⟨head, rfl, h⟩

/-- There is a node at an address that a list owns. -/
theorem Rep.live (hrep : Rep m ls) (hown : ls.Owns i a) : m.heap.nodes a ≠ none := by
  obtain ⟨bbl, hls, b, hb, rfl⟩ := hown
  obtain ⟨head, -, hr⟩ := hrep.head_of_list hls
  obtain ⟨n, hcell⟩ := hr.nodes.2.exists_cell hb
  rw [hcell]
  exact nofun

/-- **Frame.** When cells of some lists, and new ones, have become cells of these lists, the other
lists are as they were. -/
theorem Rep.change (hrep : Rep m ls) {s : Set ℕ} {heads : ℕ → Option ListHead}
    (hr : Reshapes BackedBlock.addr m.heap.nodes h'.nodes l₀ l')
    (hbefore : ∀ a, (∃ b ∈ l₀, b.addr = a) → m.heap.nodes a = none ∨ ∃ i ∈ s, ls.Owns i a)
    (hall : ∀ i ∈ s, ∀ a, ls.Owns i a → ∃ b ∈ l₀, b.addr = a)
    (hkeep : ∀ i ∉ s, heads i = m.lists i ∧ ls' i = ls i)
    (hlists : ∀ i ∈ s, Option.Rel (Represents h'.nodes) (heads i) (ls' i))
    (halive : ∀ i ∈ s, ∀ bbl ∈ ls' i, bbl.CacheAlive)
    (hafter : ∀ a, (∃ b ∈ l', b.addr = a) ↔ ∃ i ∈ s, ls'.Owns i a)
    (hapart : ∀ i ∈ s, ∀ j ∈ s, ∀ a, ls'.Owns i a → ls'.Owns j a → i = j)
    (hn : h'.NamesOk) : Rep ⟨h', heads⟩ ls' := by
  have hsame : ∀ j ∉ s, ∀ a, ls'.Owns j a ↔ ls.Owns j a := by
    intro j hj a
    unfold Lists.Owns
    rw [(hkeep j hj).2]
  -- The cells that change belong to no other list.
  have hother : ∀ j ∉ s, ∀ a, ls.Owns j a → ∀ b ∈ l₀, b.addr ≠ a := by
    intro j hj a hown b hb heq
    rcases hbefore a ⟨b, hb, heq⟩ with hnone | ⟨i, hi, hown'⟩
    · exact hrep.live hown hnone
    · exact hj (hrep.apart j i a hown hown' ▸ hi)
  refine ⟨fun i => ?_, fun i bbl hbbl => ?_, fun i j a hi hj => ?_, fun a ha => ?_, hn⟩
  · by_cases hi : i ∈ s
    · exact hlists i hi
    · change Option.Rel _ (heads i) _
      rw [(hkeep i hi).1, (hkeep i hi).2]
      have hrel := hrep.lists i
      cases hls : ls i with
      | none =>
        rw [hls] at hrel
        cases hhead : m.lists i with
        | none => exact .none
        | some head => exact nomatch hhead ▸ hrel
      | some bbl =>
        obtain ⟨head, hhead, hrb⟩ := hrep.head_of_list hls
        rw [hhead]
        refine .some ⟨⟨hrb.nodes.1, hrb.nodes.2.congr fun b hb => ?_⟩, hrb.last_used, hrb.block_size⟩
        exact hr.frame _ (hother i hi _ ⟨bbl, hls, b, hb, rfl⟩)
  · by_cases hi : i ∈ s
    · exact halive i hi bbl hbbl
    · exact hrep.alive i bbl ((hkeep i hi).2 ▸ hbbl)
  · -- A cell of the changed lists was one of them before, or is new.
    have hone : ∀ i ∈ s, ∀ j ∉ s, ls'.Owns i a → ls'.Owns j a → False := by
      intro i hi j hj hown hown'
      obtain ⟨b, hb, haddr⟩ := (hafter a).mpr ⟨i, hi, hown⟩
      obtain ⟨d, hd, heq⟩ := hr.within b hb
      exact hother j hj a ((hsame j hj a).mp hown') d hd (heq.trans haddr)
    by_cases his : i ∈ s
    · by_cases hjs : j ∈ s
      · exact hapart i his j hjs a hi hj
      · exact (hone i his j hjs hi hj).elim
    · by_cases hjs : j ∈ s
      · exact (hone j hjs i his hj hi).elim
      · exact hrep.apart i j a ((hsame i his a).mp hi) ((hsame j hjs a).mp hj)
  · by_cases hin : ∃ b ∈ l₀, b.addr = a
    · obtain ⟨d, hd, rfl⟩ := hin
      obtain ⟨i, -, hown⟩ := (hafter _).mp ((hr.freed d hd).resolve_right ha)
      exact ⟨i, hown⟩
    · have hsame' : h'.nodes a = m.heap.nodes a :=
        hr.frame a fun b hb heq => hin ⟨b, hb, heq⟩
      obtain ⟨i, hown⟩ := hrep.owned a (hsame' ▸ ha)
      have hi : i ∉ s := fun hi => hin (hall i hi a hown)
      exact ⟨i, (hsame i hi a).mpr hown⟩

/-- A list owns the addresses of its nodes. -/
theorem Lists.owns_some (hls : ls i = some bbl) :
    ls.Owns i a ↔ ∃ b ∈ bbl.data_blocks, b.addr = a := by
  refine ⟨fun ⟨c, hc, hown⟩ => ?_, fun hown => ⟨bbl, hls, hown⟩⟩
  rw [hls] at hc
  exact Option.some.inj hc ▸ hown

/-- A list that does not exist owns nothing. -/
theorem Lists.owns_none (hls : ls i = none) : ¬ ls.Owns i a := by
  intro ⟨c, hc, _⟩
  rw [hls] at hc
  exact nomatch hc

/-- A call that changes one list. -/
theorem Rep.change_one (hrep : Rep m ls) {o : Option BackedBlockList} {head : Option ListHead}
    (hr : Reshapes BackedBlock.addr m.heap.nodes h'.nodes l₀ l')
    (hbefore : ∀ a, (∃ b ∈ l₀, b.addr = a) → m.heap.nodes a = none ∨ ls.Owns i a)
    (hall : ∀ a, ls.Owns i a → ∃ b ∈ l₀, b.addr = a)
    (hlist : Option.Rel (Represents h'.nodes) head o) (halive : ∀ bbl ∈ o, bbl.CacheAlive)
    (hafter : ∀ a, (∃ b ∈ l', b.addr = a) ↔ Lists.Owns (Function.update ls i o) i a)
    (hn : h'.NamesOk) : Rep ⟨h', Function.update m.lists i head⟩ (Function.update ls i o) := by
  have hself : Function.update ls i o i = o := Function.update_self i o ls
  refine hrep.change (s := {i}) hr (fun a ha => ?_) (fun j hj a => ?_) (fun j hj => ?_)
    (fun j hj => ?_) (fun j hj => ?_) (fun a => ?_) (fun j hj k hk _ _ _ => ?_) hn
  · exact (hbefore a ha).imp_right fun hown => ⟨i, rfl, hown⟩
  · rw [Set.mem_singleton_iff.mp hj]
    exact hall a
  · exact ⟨Function.update_of_ne hj _ _, Function.update_of_ne hj _ _⟩
  · rw [Set.mem_singleton_iff.mp hj, hself, Function.update_self]
    exact hlist
  · rw [Set.mem_singleton_iff.mp hj, hself]
    exact halive
  · rw [hafter a]
    exact ⟨fun hown => ⟨i, rfl, hown⟩, fun ⟨j, hj, hown⟩ => Set.mem_singleton_iff.mp hj ▸ hown⟩
  · exact (Set.mem_singleton_iff.mp hj).trans (Set.mem_singleton_iff.mp hk).symm

/-- A call that changes one list, and may take a new node. -/
theorem Rep.stands (hrep : Rep m ls) (hls : ls i = some bbl) {bbl' : BackedBlockList}
    {r : Heap × ListHead} {b : BackedBlock} (hfree : m.heap.nodes b.addr = none)
    (hst : Stands m.heap.nodes (b :: bbl.data_blocks) r bbl') :
    Rep ⟨r.1, Function.update m.lists i (some r.2)⟩ (Function.update ls i (some bbl')) := by
  refine hrep.change_one hst.reshapes (fun a ⟨d, hd, haddr⟩ => ?_) (fun a hown => ?_)
    (.some hst.represents) (fun c hc => Option.some.inj hc ▸ hst.alive)
    (fun a => (Lists.owns_some (Function.update_self _ _ _)).symm) hst.names
  · rcases List.mem_cons.mp hd with rfl | hd
    · exact Or.inl (haddr ▸ hfree)
    · exact Or.inr ((Lists.owns_some hls).mpr ⟨d, hd, haddr⟩)
  · obtain ⟨d, hd, haddr⟩ := (Lists.owns_some hls).mp hown
    exact ⟨d, List.mem_cons_of_mem _ hd, haddr⟩

/-! ## One call -/

/-- `backed_block_list_new` makes an empty list where there was none, and represents it. -/
theorem step_new (hrep : Rep m ls) (block_size : UInt32) (hnone : m.lists i = none) :
    Rep ⟨m.heap, Function.update m.lists i (some ⟨none, none, block_size⟩)⟩
      (Function.update ls i (some (backedBlockListNew block_size))) := by
  have hls : ls i = none := by
    cases hls : ls i with
    | none => rfl
    | some bbl =>
      obtain ⟨head, hhead, -⟩ := hrep.head_of_list hls
      rw [hnone] at hhead
      exact nomatch hhead
  have hsame : Reshapes BackedBlock.addr m.heap.nodes m.heap.nodes [] [] :=
    reshapes_of_frame (fun _ _ => rfl) fun _ => Iff.rfl
  refine hrep.change_one hsame
    (fun a ha => ?_) (fun a hown => (Lists.owns_none hls hown).elim)
    (.some ⟨⟨rfl, trivial⟩, rfl, rfl⟩) (fun bbl hbbl lu hlu => ?_)
    (fun a => (@Lists.owns_some _ i a (backedBlockListNew block_size)
      (Function.update_self _ _ _)).symm) hrep.names
  · obtain ⟨b, hb, -⟩ := ha
    exact nomatch hb
  · rw [← Option.some.inj hbbl] at hlu
    exact nomatch hlu

/-- `backed_block_add_*` in memory simulates the addition to the list of nodes. -/
theorem step_add (hrep : Rep m ls) {name : ℕ} {source : BlockSource} {len block : UInt32}
    (hlegal : (ListCall.add i a name source len block).Legal m) :
    ∃ n, Except.Simulates Stops n (fun fuel => m.step fuel (.add i a name source len block))
      (ls.step (.add i a name source len block)) Rep := by
  obtain ⟨hlist, hfree, hname⟩ := hlegal
  obtain ⟨head, hhead⟩ := Option.ne_none_iff_exists'.mp hlist
  obtain ⟨bbl, hls, hr⟩ := hrep.list_of_head hhead
  have hadd := addBlock_simulates hr hrep.names (hrep.alive i bbl hls) hfree hname len block
  simp only [Machine.step, hhead, Lists.step, hls]
  exact ⟨_, hadd.bind fun r bbl' _ hst => Except.simulates_ok (hrep.stands hls hfree hst)⟩

/-- `backed_block_split` in memory simulates the split of the node. -/
theorem step_split (hrep : Rep m ls) {bb : ℕ} {max_len : UInt32}
    (hlegal : (ListCall.split i bb a max_len).Legal m) :
    ∃ n, Except.Simulates Stops n (fun fuel => m.step fuel (.split i bb a max_len))
      (ls.step (.split i bb a max_len)) Rep := by
  obtain ⟨hfree, x, ⟨head, hhead, l, hl, hx⟩, rfl, hfile⟩ := hlegal
  obtain ⟨bbl, hls, hr⟩ := hrep.list_of_head hhead
  obtain rfl := hl.unique hr.nodes
  -- The address names one node of the list, for addresses are apart.
  have hfind : bbl.data_blocks.find? (fun y => y.addr = x.addr) = some x := by
    cases hfind : bbl.data_blocks.find? (fun y => y.addr = x.addr) with
    | none => simpa using List.find?_eq_none.mp hfind x hx
    | some y =>
      have haddr : y.addr = x.addr := by simpa using List.find?_some hfind
      exact congrArg some (hl.2.eq_of_addr hl.2 (List.mem_of_find?_eq_some hfind) hx haddr)
  simp only [Machine.step, show m.lists i = some head from hhead, Lists.step, hls, hfind]
  split_ifs with hbs
  · have hrun : InMemory.backedBlockSplit m.heap head x.addr a max_len = .error .divByZero := by
      unfold InMemory.backedBlockSplit
      rw [if_pos (hr.block_size.trans hbs)]
    rw [hrun]
    exact ⟨0, Except.simulates_error (Or.inr rfl)⟩
  · -- A node with a file is not divided, so its name stays with one node.
    have hkeep : x.source.type = .file → x.len ≤ alignDown max_len bbl.block_size :=
      fun h => hr.block_size ▸ hfile h head hhead
    obtain ⟨h', hrun, hst⟩ :=
      backedBlockSplit_spec hr hrep.names (hrep.alive i bbl hls) hfree hx hbs hkeep
    rw [hrun]
    exact ⟨0, Except.simulates_ok (hrep.stands hls hfree hst)⟩

/-- `backed_block_list_destroy` in memory returns, and the list is gone. -/
theorem step_destroy (hrep : Rep m ls) (hlist : m.lists i ≠ none) :
    ls.step (.destroy i) = .ok (Function.update ls i none) ∧
      ∃ m', m.Returns (.destroy i) m' ∧ Rep m' (Function.update ls i none) := by
  obtain ⟨head, hhead⟩ := Option.ne_none_iff_exists'.mp hlist
  obtain ⟨bbl, hls, hr⟩ := hrep.list_of_head hhead
  obtain ⟨h', hrun, hn, hreshapes⟩ := destroyBlocks_spec hr.nodes hrep.names
  refine ⟨by simp only [Lists.step, hls], ⟨h', Function.update m.lists i none⟩,
    ⟨bbl.data_blocks.length, fun fuel hfuel => ?_⟩, ?_⟩
  · simp only [Machine.step, hhead, hrun fuel hfuel]
    rfl
  · refine hrep.change_one hreshapes (fun a ha => Or.inr ((Lists.owns_some hls).mpr ha))
      (fun a => (Lists.owns_some hls).mp) .none (fun c hc => ?_) (fun a => ⟨fun ha => ?_, fun ha => ?_⟩)
      hn
    · exact nomatch hc
    · obtain ⟨b, hb, -⟩ := ha
      exact nomatch hb
    · exact (Lists.owns_none (Function.update_self _ _ _) ha).elim

/-- Moving a segment loses no node and leaves no `last_used` behind. -/
theorem backedBlockListMove_keeps {src dst : BackedBlockList} {start stop : Option ℕ}
    {before segment after : List BackedBlock}
    (heq : src.data_blocks = before ++ (segment ++ after))
    (hnd : (src.data_blocks.map BackedBlock.addr).Nodup)
    (hsel : Selects before segment after start stop) (hsrc : src.CacheAlive)
    (hdst : dst.CacheAlive) :
    ((backedBlockListMove src dst start stop).1.data_blocks ++
        (backedBlockListMove src dst start stop).2.data_blocks).Perm
      (src.data_blocks ++ dst.data_blocks) ∧
      (backedBlockListMove src dst start stop).1.CacheAlive ∧
      (backedBlockListMove src dst start stop).2.CacheAlive := by
  by_cases hne : segment = []
  · subst hne
    obtain ⟨rfl, rfl, rfl, rfl⟩ := hsel.of_empty
    have hsame : backedBlockListMove src dst none none = (src, dst) := by
      unfold backedBlockListMove
      rw [heq]
      rfl
    rw [hsame]
    exact ⟨List.Perm.refl _, hsrc, hdst⟩
  · rw [heq] at hnd
    rw [backedBlockListMove_eq heq hnd hsel hne, heq]
    refine ⟨?_, (fun _ h => nomatch h), (fun _ h => nomatch h)⟩
    refine ((putInto_perm segment dst.data_blocks).append_left _).trans ?_
    refine List.perm_iff_count.mpr fun b => ?_
    simp only [List.count_append]
    omega

/-- Links that a call changes are those of nodes that stay. -/
theorem Heap.NamesOk.relink {h : Heap} {nodes : Memory BackedBlock} {l : List BackedBlock}
    (hn : h.NamesOk) (hbefore : ∀ b ∈ l, ∃ q, h.nodes b.addr = some ⟨b, q⟩)
    (hafter : ∀ b ∈ l, ∃ q, nodes b.addr = some ⟨b, q⟩)
    (hframe : ∀ a, (∀ b ∈ l, b.addr ≠ a) → nodes a = h.nodes a) : Heap.NamesOk { h with nodes } := by
  refine hn.congr fun a => congrArg _ ?_
  by_cases hin : ∃ b ∈ l, b.addr = a
  · obtain ⟨b, hb, rfl⟩ := hin
    obtain ⟨q, hq⟩ := hbefore b hb
    obtain ⟨q', hq'⟩ := hafter b hb
    rw [hq, hq']
    rfl
  · rw [hframe a fun b hb heq => hin ⟨b, hb, heq⟩]

/-- `backed_block_list_move` in memory simulates the move between two lists. -/
theorem step_move (hrep : Rep m ls) {start stop : Option ℕ}
    (hlegal : (ListCall.move i j start stop).Legal m) :
    ∃ n, Except.Simulates Stops n (fun fuel => m.step fuel (.move i j start stop))
      (ls.step (.move i j start stop)) Rep := by
  obtain ⟨hne, hlist, head, hhead, before, segment, after, hl, hsel⟩ := hlegal
  obtain ⟨head', hhead'⟩ := Option.ne_none_iff_exists'.mp hlist
  obtain ⟨src, hls, hr⟩ := hrep.list_of_head hhead
  obtain ⟨dst, hls', hr'⟩ := hrep.list_of_head hhead'
  have heq := hr.nodes.unique hl
  have hsep : ∀ b ∈ src.data_blocks, ∀ d ∈ dst.data_blocks, b.addr ≠ d.addr := fun b hb d hd h =>
    hne (hrep.apart i j b.addr ⟨src, hls, b, hb, rfl⟩ ⟨dst, hls', d, hd, h.symm⟩)
  -- The move in memory, and what it does to the nodes as lists.
  obtain ⟨nodes, head₁, head₂, hrun, hrep₁, hrep₂, hframe⟩ := represents_move hr hr' heq hsel hsep
  obtain ⟨hperm, halive₁, halive₂⟩ := backedBlockListMove_keeps heq hr.nodes.nodup hsel
    (hrep.alive i src hls) (hrep.alive j dst hls')
  simp only [Machine.step, show m.lists i = some head from hhead, hhead', Lists.step, hls, hls']
  generalize backedBlockListMove src dst start stop = r at hrep₁ hrep₂ hperm halive₁ halive₂
  obtain ⟨src₁, dst₁⟩ := r
  dsimp only at hrep₁ hrep₂ hperm halive₁ halive₂ ⊢
  refine ⟨src.data_blocks.length + dst.data_blocks.length, ⟨{ m.heap with nodes },
    Function.update (Function.update m.lists i (some head₁)) j (some head₂)⟩, fun fuel hfuel => ?_, ?_⟩
  · change (InMemory.backedBlockListMove fuel m.heap.nodes head head' start stop >>= _) = _
    rw [hrun fuel hfuel]
    rfl
  -- No node has come or gone, so what lies outside both lists is untouched.
  have hmem : ∀ b, b ∈ src₁.data_blocks ++ dst₁.data_blocks ↔
      b ∈ src.data_blocks ++ dst.data_blocks := fun b => hperm.mem_iff
  have hframe' : ∀ a, (∀ b ∈ src.data_blocks ++ dst.data_blocks, b.addr ≠ a) →
      nodes a = m.heap.nodes a := fun a ha =>
    hframe a (fun b hb => ha b (List.mem_append_left _ hb)) fun b hb =>
      ha b (List.mem_append_right _ hb)
  have hnames : Heap.NamesOk { m.heap with nodes } := by
    refine hrep.names.relink (fun b hb => ?_) (fun b hb => ?_) hframe'
    · rcases List.mem_append.mp hb with hb | hb
      · exact hr.nodes.2.exists_cell hb
      · exact hr'.nodes.2.exists_cell hb
    · rcases List.mem_append.mp ((hmem b).mpr hb) with hb | hb
      · exact hrep₁.nodes.2.exists_cell hb
      · exact hrep₂.nodes.2.exists_cell hb
  have hi : ∀ {β : Type} (f : ℕ → β) (x y : β),
      Function.update (Function.update f i x) j y i = x := fun f x y => by
    rw [Function.update_of_ne hne, Function.update_self]
  have hown₁ : ∀ a, Lists.Owns (Function.update (Function.update ls i (some src₁)) j (some dst₁)) i a ↔
      ∃ b ∈ src₁.data_blocks, b.addr = a := fun a => Lists.owns_some (hi ls _ _)
  have hown₂ : ∀ a, Lists.Owns (Function.update (Function.update ls i (some src₁)) j (some dst₁)) j a ↔
      ∃ b ∈ dst₁.data_blocks, b.addr = a := fun a => Lists.owns_some (Function.update_self _ _ _)
  -- The two lists shared no node, and share none now.
  have hapart : ∀ a, (∃ b ∈ src₁.data_blocks, b.addr = a) →
      ¬ ∃ b ∈ dst₁.data_blocks, b.addr = a := by
    have hnd : ((src.data_blocks ++ dst.data_blocks).map BackedBlock.addr).Nodup := by
      rw [List.map_append]
      refine List.nodup_append.mpr ⟨hr.nodes.nodup, hr'.nodes.nodup, fun x hx y hy => ?_⟩
      obtain ⟨b, hb, rfl⟩ := List.mem_map.mp hx
      obtain ⟨d, hd, rfl⟩ := List.mem_map.mp hy
      exact hsep b hb d hd
    have hnd' := (hperm.map BackedBlock.addr).nodup_iff.mpr hnd
    rw [List.map_append] at hnd'
    intro a ⟨b, hb, hba⟩ ⟨d, hd, hda⟩
    exact (List.nodup_append.mp hnd').2.2 _ (List.mem_map_of_mem hb) _ (List.mem_map_of_mem hd)
      (hba.trans hda.symm)
  refine hrep.change (s := {i, j})
    (reshapes_of_frame hframe' fun a => (hperm.map BackedBlock.addr).mem_iff)
    (fun a ⟨b, hb, haddr⟩ => Or.inr ?_) ?_ ?_ ?_ ?_ (fun a => ?_) ?_ hnames
  · rcases List.mem_append.mp hb with hb | hb
    · exact ⟨i, by simp, src, hls, b, hb, haddr⟩
    · exact ⟨j, by simp, dst, hls', b, hb, haddr⟩
  · rintro k (rfl | rfl) a hown
    · obtain ⟨b, hb, haddr⟩ := (Lists.owns_some hls).mp hown
      exact ⟨b, List.mem_append_left _ hb, haddr⟩
    · obtain ⟨b, hb, haddr⟩ := (Lists.owns_some hls').mp hown
      exact ⟨b, List.mem_append_right _ hb, haddr⟩
  · intro k hk
    obtain ⟨hki, hkj⟩ := not_or.mp hk
    constructor <;> rw [Function.update_of_ne hkj, Function.update_of_ne hki]
  · rintro k (rfl | rfl)
    · rw [hi, hi]
      exact .some hrep₁
    · rw [Function.update_self, Function.update_self]
      exact .some hrep₂
  · rintro k (rfl | rfl) c hc
    · rw [hi] at hc
      exact Option.some.inj hc ▸ halive₁
    · rw [Function.update_self] at hc
      exact Option.some.inj hc ▸ halive₂
  · constructor
    · rintro ⟨b, hb, haddr⟩
      rcases List.mem_append.mp hb with hb | hb
      · exact ⟨i, by simp, (hown₁ a).mpr ⟨b, hb, haddr⟩⟩
      · exact ⟨j, by simp, (hown₂ a).mpr ⟨b, hb, haddr⟩⟩
    · rintro ⟨k, rfl | rfl, hown⟩
      · obtain ⟨b, hb, haddr⟩ := (hown₁ a).mp hown
        exact ⟨b, List.mem_append_left _ hb, haddr⟩
      · obtain ⟨b, hb, haddr⟩ := (hown₂ a).mp hown
        exact ⟨b, List.mem_append_right _ hb, haddr⟩
  · rintro k (rfl | rfl) k' (rfl | rfl) a hk hk'
    · rfl
    · exact (hapart a ((hown₁ a).mp hk) ((hown₂ a).mp hk')).elim
    · exact (hapart a ((hown₁ a).mp hk') ((hown₂ a).mp hk)).elim
    · rfl

/-- **One call.** With enough fuel, a call that keeps the contract does in memory what it does to the
lists of nodes. -/
theorem Machine.step_simulates (hrep : Rep m ls) {c : ListCall} (hlegal : c.Legal m) :
    ∃ n, Except.Simulates Stops n (fun fuel => m.step fuel c) (ls.step c) Rep := by
  cases c with
  | new i block_size => exact ⟨0, Except.simulates_ok (step_new hrep block_size hlegal)⟩
  | add i a name source len block => exact step_add hrep hlegal
  | split i bb a max_len => exact step_split hrep hlegal
  | move i j start stop => exact step_move hrep hlegal
  | destroy i =>
    obtain ⟨hstep, m', ⟨n, hret⟩, hrep'⟩ := step_destroy hrep hlegal
    rw [hstep]
    exact ⟨n, m', hret, hrep'⟩

/-! ## Runs -/

variable {calls : List ListCall}

/-- The calls of a run, on the lists of nodes. -/
def Lists.run (calls : List ListCall) : Except Fault Lists :=
  calls.foldlM Lists.step fun _ => none

/-- **The lists are those in memory**, after any calls that keep the contract. -/
theorem Machine.Reaches.represented (h : Machine.Reaches calls m) :
    ∃ ls, Lists.run calls = .ok ls ∧ Rep m ls := by
  induction h with
  | empty => exact ⟨_, rfl, rep_empty⟩
  | @call calls m m' c h hlegal hreturns ih =>
    obtain ⟨ls, hrun, hrep⟩ := ih
    obtain ⟨n, hsim⟩ := Machine.step_simulates hrep hlegal
    obtain ⟨n', hret⟩ := hreturns
    -- The run of the calls is extended by the last one.
    have hrun' : Lists.run (calls ++ [c]) = ls.step c := by
      unfold Lists.run at hrun ⊢
      rw [List.foldlM_append, hrun]
      exact bind_pure (ls.step c)
    rw [hrun']
    cases hstep : ls.step c with
    | error e =>
      rw [hstep] at hsim
      -- A call that returns cannot be one whose simulation stops.
      have := (hret _ (Nat.le_max_right n n')).symm.trans (hsim.2 _ (Nat.le_max_left n n'))
      exact nomatch this
    | ok ls' =>
      rw [hstep] at hsim
      obtain ⟨m'', hret', hrep'⟩ := hsim
      have heq := (hret _ (Nat.le_max_right n n')).symm.trans (hret' _ (Nat.le_max_left n n'))
      exact ⟨ls', rfl, Except.ok.inj heq ▸ hrep'⟩

/-- **Calls in memory**: from every machine that is reached, a legal call simulates the call on the
lists of nodes. -/
theorem Machine.Reaches.simulates (h : Machine.Reaches calls m) {c : ListCall}
    (hlegal : c.Legal m) :
    ∃ ls, Lists.run calls = .ok ls ∧ Rep m ls ∧
      ∃ n, Except.Simulates Stops n (fun fuel => m.step fuel c) (ls.step c) Rep := by
  obtain ⟨ls, hrun, hrep⟩ := h.represented
  exact ⟨ls, hrun, hrep, Machine.step_simulates hrep hlegal⟩

/-- A node that has a file. -/
def fileBlock : BackedBlock := ⟨5, 3, 8192, .file "system" 0⟩

/-- The calls that make a list with this node. -/
def fileCalls : List ListCall :=
  [.new 0 4096, .add 0 fileBlock.addr 7 fileBlock.source fileBlock.len fileBlock.block]

/-- A program that has added a block of a named file to a list. -/
def fileMachine : Machine :=
  ⟨⟨Memory.set (fun _ => none) 5 ⟨fileBlock, none⟩, Function.update (fun _ => 0) 5 7, insert 7 ∅⟩,
    Function.update (Function.update (fun _ => none) 0 (some ⟨none, none, 4096⟩)) 0
      (some ⟨some 5, none, 4096⟩)⟩

/-- The sample machine is reached by its calls. -/
theorem fileMachine_reached : Machine.Reaches fileCalls fileMachine := by
  have hnew : Machine.Reaches [.new 0 4096]
      ⟨Machine.empty.heap, Function.update (fun _ => none) 0 (some ⟨none, none, 4096⟩)⟩ :=
    .call .empty rfl ⟨0, fun _ _ => rfl⟩
  exact .call hnew ⟨nofun, rfl, fun _ => Finset.notMem_empty _⟩ ⟨0, fun _ _ => rfl⟩

/-- Another part of the file is added to the list. -/
theorem fileMachine_simulates :
    ∃ ls, Lists.run fileCalls = .ok ls ∧ Rep fileMachine ls ∧
      ∃ n, Except.Simulates Stops n
        (fun fuel => fileMachine.step fuel (.add 0 6 8 (.file "system" 8192) 4096 5))
        (ls.step (.add 0 6 8 (.file "system" 8192) 4096 5)) Rep :=
  fileMachine_reached.simulates ⟨nofun, rfl, fun _ => by decide⟩

/-- **The ledger.** Every node is one of exactly one list, every node that has a file has an allocated
name of its own and there are no other names; and nothing is left when there are no lists. -/
theorem Machine.Reaches.ledger (h : Machine.Reaches calls m) :
    (∀ a, m.heap.nodes a ≠ none → ∃! i, ∃ x, m.IsNode i x ∧ x.addr = a) ∧
      Set.BijOn m.heap.filename m.heap.fileNodes m.heap.names ∧
      ((∀ i, m.lists i = none) → (∀ a, m.heap.nodes a = none) ∧ m.heap.names = ∅) := by
  obtain ⟨ls, -, hrep⟩ := h.represented
  -- Owning an address is being a node of the list there.
  have hown : ∀ i a, ls.Owns i a ↔ ∃ x, m.IsNode i x ∧ x.addr = a := by
    intro i a
    constructor
    · rintro ⟨bbl, hls, b, hb, haddr⟩
      obtain ⟨head, hhead, hr⟩ := hrep.head_of_list hls
      exact ⟨b, ⟨head, hhead, _, hr.nodes, hb⟩, haddr⟩
    · rintro ⟨x, ⟨head, hhead, l, hl, hx⟩, haddr⟩
      obtain ⟨bbl, hls, hr⟩ := hrep.list_of_head hhead
      obtain rfl := hl.unique hr.nodes
      exact ⟨bbl, hls, x, hx, haddr⟩
  have hempty : (∀ i, m.lists i = none) → ∀ a, m.heap.nodes a = none := by
    intro hnone a
    by_contra ha
    obtain ⟨i, hi⟩ := hrep.owned a ha
    obtain ⟨x, ⟨head, hhead, -⟩, -⟩ := (hown i a).mp hi
    rw [hnone i] at hhead
    exact nomatch hhead
  -- Every node is owned by one list, and the names are those of its nodes.
  refine ⟨fun a ha => ?_, hrep.names, fun hnone => ⟨hempty hnone, ?_⟩⟩
  · obtain ⟨i, hi⟩ := hrep.owned a ha
    exact ⟨i, (hown i a).mp hi, fun j hj => hrep.apart j i a ((hown j a).mpr hj) hi⟩
  · refine Finset.eq_empty_of_forall_notMem fun name hname => ?_
    obtain ⟨a, ⟨c, hc, -⟩, -⟩ := hrep.names.surjOn hname
    rw [hempty hnone a] at hc
    exact nomatch hc

/-- The sample machine owns every node and every name of a file once. -/
theorem fileMachine_ledger :
    (∀ a, fileMachine.heap.nodes a ≠ none → ∃! i, ∃ x, fileMachine.IsNode i x ∧ x.addr = a) ∧
      Set.BijOn fileMachine.heap.filename fileMachine.heap.fileNodes fileMachine.heap.names ∧
      ((∀ i, fileMachine.lists i = none) →
        (∀ a, fileMachine.heap.nodes a = none) ∧ fileMachine.heap.names = ∅) :=
  fileMachine_reached.ledger

/-- A node that has a file and its second half have one name between them. -/
theorem fileNames_divided {f : ℕ → ℕ} {pre post : List BackedBlock} {z y : BackedBlock}
    (hz : z.source.type = .file) (hy : y.source.type = .file) (heq : f z.addr = f y.addr) :
    ¬ (fileNames f (pre ++ z :: y :: post)).Nodup := by
  have hnames : fileNames f (pre ++ z :: y :: post) =
      fileNames f pre ++ f z.addr :: f y.addr :: fileNames f post := by
    simp [fileNames, hz, hy]
  rw [hnames, heq]
  intro hnd
  exact (List.nodup_cons.mp (List.nodup_append.mp hnd).2.1).1 List.mem_cons_self

/-- A list whose nodes do not all have names of their own can not be destroyed. -/
theorem step_destroy_error (hhead : m.lists i = some head) {l : List BackedBlock}
    (hl : IsList BackedBlock.addr m.heap.nodes head.data_blocks l)
    (hnd : ¬ (fileNames m.heap.filename l).Nodup) :
    ∃ n, ∀ fuel ≥ n, m.step fuel (.destroy i) = .error .useAfterFree := by
  refine ⟨l.length, fun fuel hfuel => ?_⟩
  have hdestroy := destroyBlocks_error hl (fun hok => hnd hok.1) hfuel
  simp only [Machine.step, hhead, hdestroy]
  rfl

/-- **Splitting and destroying.** A list in which a node has been split can be destroyed exactly when
no node that has a file was divided: the copy of the node has the pointer to its name, so that the
name is freed twice. -/
theorem Machine.Reaches.split_destroy (h : Machine.Reaches calls m) {x : BackedBlock}
    (hhead : m.lists i = some head) (hx : m.IsNode i x) (hfree : m.heap.nodes a = none)
    (hbs : head.block_size ≠ 0) (max_len : UInt32) :
    ∃ m', m.Returns (.split i x.addr a max_len) m' ∧
      ((∃ m'', m'.Returns (.destroy i) m'') ↔
        (x.source.type = .file → x.len ≤ alignDown max_len head.block_size)) ∧
      (x.source.type = .file → ¬ x.len ≤ alignDown max_len head.block_size →
        ∃ n, ∀ fuel ≥ n, m'.step fuel (.destroy i) = .error .useAfterFree) := by
  obtain ⟨ls, -, hrep⟩ := h.represented
  obtain ⟨bbl, hls, hr⟩ := hrep.list_of_head hhead
  obtain ⟨head', hhead', l, hl, hxl⟩ := hx
  obtain rfl : head = head' := Option.some.inj (hhead.symm.trans hhead')
  obtain rfl := hl.unique hr.nodes
  have hself : Function.update m.lists i (some head) i = some head := Function.update_self _ _ _
  -- The split itself returns in both cases.
  have hreturns : ∀ h', InMemory.backedBlockSplit m.heap head x.addr a max_len = .ok h' →
      m.Returns (.split i x.addr a max_len) ⟨h', Function.update m.lists i (some head)⟩ := by
    intro h' hrun
    refine ⟨0, fun fuel _ => ?_⟩
    simp only [Machine.step, hhead, hrun]
    rfl
  -- A node that is not divided, or has no file, keeps the names apart.
  by_cases hkeep : x.source.type = .file → x.len ≤ alignDown max_len head.block_size
  · have hkeep' : x.source.type = .file → x.len ≤ alignDown max_len bbl.block_size :=
      hr.block_size ▸ hkeep
    obtain ⟨h', hrun, hst⟩ := backedBlockSplit_spec hr hrep.names (hrep.alive i bbl hls) hfree hxl
      (hr.block_size ▸ hbs) hkeep'
    obtain ⟨-, m'', hret, -⟩ := step_destroy (i := i) (hrep.stands hls hfree hst)
      (by change Function.update m.lists i (some head) i ≠ none; rw [hself]; exact nofun)
    exact ⟨_, hreturns h' hrun, ⟨fun _ => hkeep, fun _ => ⟨m'', hret⟩⟩,
      fun hfile hlen => (hlen (hkeep hfile)).elim⟩
  · obtain ⟨hfile, hlen⟩ := Classical.not_imp.mp hkeep
    obtain ⟨pre, post, hcat⟩ := List.mem_iff_append.mp hxl
    rw [hcat] at hl
    have hnew : ∀ d ∈ pre ++ x :: post, d.addr ≠ a := fun d hd heq =>
      hrep.live ⟨bbl, hls, d, hcat ▸ hd, heq⟩ hfree
    obtain ⟨y, z, -, hz, rfl, hzs, hys, hrun⟩ :=
      backedBlockSplit_divides (a := a) hl.2.cell hbs hlen
    have hxy : x.addr ≠ y.addr := hnew x (List.mem_append_right _ List.mem_cons_self)
    -- Both halves have the name now, so the list frees it twice.
    have hname : Function.update m.heap.filename y.addr (m.heap.filename x.addr) z.addr =
        Function.update m.heap.filename y.addr (m.heap.filename x.addr) y.addr := by
      rw [hz, Function.update_of_ne hxy, Function.update_self]
    have hnever : ∀ m' : Machine,
        (∃ n, ∀ fuel ≥ n, m'.step fuel (.destroy i) = .error .useAfterFree) →
          ¬ ∃ m'', m'.Returns (.destroy i) m'' := by
      intro m' ⟨n, herror⟩ ⟨m'', n', hret⟩
      have := (hret _ (Nat.le_max_right n n')).symm.trans (herror _ (Nat.le_max_left n n'))
      exact nomatch this
    have herror := fun h' (hl' : IsList BackedBlock.addr h'.nodes head.data_blocks _)
      (hnd : ¬ (fileNames h'.filename (pre ++ z :: y :: post)).Nodup) =>
        step_destroy_error (m := ⟨h', Function.update m.lists i (some head)⟩) hself hl' hnd
    have hfails := herror ⟨_, Function.update m.heap.filename y.addr (m.heap.filename x.addr),
      m.heap.names⟩ (hl.divide hz hnew)
      (fileNames_divided (by rw [hzs]; exact hfile) (hys.trans hfile) hname)
    exact ⟨_, hreturns _ hrun, iff_of_false (hnever _ hfails) hkeep, fun _ _ => hfails⟩

/-- A file of two blocks, divided after the first one. -/
theorem fileMachine_split_destroy :
    ∃ m', fileMachine.Returns (.split 0 fileBlock.addr 6 4096) m' ∧
      ((∃ m'', m'.Returns (.destroy 0) m'') ↔
        (fileBlock.source.type = .file → fileBlock.len ≤ alignDown 4096 4096)) ∧
      (fileBlock.source.type = .file → ¬ fileBlock.len ≤ alignDown 4096 4096 →
        ∃ n, ∀ fuel ≥ n, m'.step fuel (.destroy 0) = .error .useAfterFree) :=
  have hhead : fileMachine.lists 0 = some ⟨some 5, none, 4096⟩ := rfl
  have hnode : fileMachine.IsNode 0 fileBlock :=
    ⟨_, hhead, [fileBlock], ⟨rfl, rfl, trivial⟩, List.mem_singleton_self _⟩
  fileMachine_reached.split_destroy hhead hnode rfl (by decide) 4096

end

end AmlogicToolkit.Simg
