import AmlogicToolkit.Lib.Cells
import AmlogicToolkit.Lib.Simulation
import AmlogicToolkit.Simg.Move
import AmlogicToolkit.Simg.Split
import Mathlib.Data.Finset.Basic
import Mathlib.Data.Set.Function

/-!
# Block lists in memory

The functions of `backed_block.c` that allocate, merge, split and free nodes, on the nodes in memory.
A node that has a file has a name that `strdup` has made and that is freed with the node. Addresses
come from the caller of a function, so that the allocator may give any address at which nothing lies.
Allocations succeed.

Each function does to the nodes what its namesake does to the list of nodes (`queueBb_simulates`,
`backedBlockSplit_spec`, `destroyBlocks_spec`): it uses none that has been freed, loses none and
leaves those of other lists as they are.
-/

namespace AmlogicToolkit.Simg

open Links

/-- The memory of the block lists. The text of a name never changes, so that it is kept with the
node; what can go wrong is that the name has been freed. -/
structure Heap where
  /-- The nodes. -/
  nodes : Memory BackedBlock
  /-- `file.filename` of the nodes that have a file. -/
  filename : ℕ → ℕ
  /-- The names that are allocated. -/
  names : Finset ℕ

namespace InMemory

/-- A read of the name of the node at `a`. -/
def readName (h : Heap) (a : ℕ) : Except Fault Unit :=
  if h.filename a ∈ h.names then .ok () else .error .useAfterFree

/-- `backed_block_destroy`: the name is freed where the block has one, then the node. -/
def backedBlockDestroy (h : Heap) (a : ℕ) : Except Fault Heap := do
  let bb ← load h.nodes a
  if bb.val.source.type = .file then
    readName h a
    return { h with nodes := h.nodes.free a, names := h.names.erase (h.filename a) }
  else return { h with nodes := h.nodes.free a }

/-- What `strcmp` in `merge_bb` reads, for two blocks of one type. -/
def compareNames (h : Heap) (type : BackedBlockType) (a b : ℕ) : Except Fault Unit :=
  if type = .file then do
    readName h a
    readName h b
  else .ok ()

/-- `merge_bb`: whether it merges `b` into `a`, and the memory after it. -/
def mergeBb (block_size : UInt32) (h : Heap) : Option ℕ → Option ℕ → Except Fault (Bool × Heap)
  | some a, some b => do
    let x ← load h.nodes a
    let y ← load h.nodes b
    if ¬ x.val.block < y.val.block then .error .assertion
    else if x.val.source.type ≠ y.val.source.type then return (false, h)
    else if block_size = 0 then .error .divByZero
    else if x.val.block + x.val.len / block_size ≠ y.val.block then return (false, h)
    else
      compareNames h x.val.source.type a b
      if sourcesMerge x.val y.val then
        let h := { h with nodes := h.nodes.set a ⟨x.val.extend y.val, y.next⟩ }
        return (true, ← backedBlockDestroy h b)
      else return (false, h)
  | _, _ => .ok (false, h)

/-- Where the search of `queue_bb` starts, for a list that starts at `head`. -/
def searchStart (h : Heap) (last_used : Option ℕ) (head new_bb : ℕ) : Except Fault ℕ :=
  match last_used with
  | none => .ok head
  | some lu => do
    let x ← load h.nodes new_bb
    let y ← load h.nodes lu
    return if x.val.block > y.val.block then lu else head

/-- Whether the loop of `queue_bb` ends at a node: `!(bb->next && bb->next->block < new_bb->block)`. -/
def comesBehind (h : Memory BackedBlock) (new_bb : ℕ) (bb : Cell BackedBlock) : Except Fault Bool :=
  match bb.next with
  | none => .ok true
  | some next => do
    let next ← load h next
    let x ← load h new_bb
    return ¬ next.val.block < x.val.block

/-- What `queue_bb` does to the links, to put `new_bb` behind `bb`. -/
def insertBehind (h : Memory BackedBlock) (bb new_bb : ℕ) : Except Fault (Memory BackedBlock) := do
  let cell ← load h bb
  let h ← if cell.next = none then .ok h else store h new_bb cell.next
  store h bb (some new_bb)

/-- `queue_bb`, with at most `fuel` passes of its loop. -/
def queueBb (fuel : ℕ) (h : Heap) (bbl : ListHead) (new_bb : ℕ) :
    Except Fault (Heap × ListHead) :=
  match bbl.data_blocks with
  | none => .ok (h, { bbl with data_blocks := some new_bb })
  | some head => do
    let first ← load h.nodes head
    let x ← load h.nodes new_bb
    if first.val.block > x.val.block then
      let nodes ← store h.nodes new_bb (some head)
      return ({ h with nodes }, { bbl with data_blocks := some new_bb })
    else
      let start ← searchStart h bbl.last_used head new_bb
      match ← seek h.nodes (comesBehind h.nodes new_bb) fuel (some start) with
      -- The loop never passes the last node.
      | none => return (h, { bbl with last_used := some new_bb })
      | some bb =>
        let nodes ← insertBehind h.nodes bb new_bb
        let x ← load nodes new_bb
        let (_, h) ← mergeBb bbl.block_size { h with nodes } (some new_bb) x.next
        let (merged, h) ← mergeBb bbl.block_size h (some bb) (some new_bb)
        return (h, { bbl with last_used := some (if merged then bb else new_bb) })

/-- What the four `backed_block_add_*` share, with the node at `a` and its name, if it has a file,
at `name`. -/
def addBlock (fuel : ℕ) (h : Heap) (bbl : ListHead) (a name : ℕ) (source : BlockSource)
    (len block : UInt32) : Except Fault (Heap × ListHead) :=
  let h := { h with nodes := h.nodes.set a ⟨⟨a, block, len, source⟩, none⟩ }
  let h := if source.type = .file then
      { h with filename := Function.update h.filename a name, names := insert name h.names }
    else h
  queueBb fuel h bbl a

/-- `backed_block_split` of the node at `bb`, with the new node at `a`. `*new_bb = *bb` copies the
pointer to the name, and no name is made. -/
def backedBlockSplit (h : Heap) (bbl : ListHead) (bb a : ℕ) (max_len : UInt32) : Except Fault Heap :=
  if bbl.block_size = 0 then .error .divByZero
  else do
    let max_len := alignDown max_len bbl.block_size
    let x ← load h.nodes bb
    if x.val.len ≤ max_len then return h
    else
      let new_bb : BackedBlock :=
        { addr := a, block := x.val.block + max_len / bbl.block_size, len := x.val.len - max_len,
          source := x.val.source.advance max_len.toNat }
      return { h with
        nodes := (h.nodes.set a ⟨new_bb, x.next⟩).set bb ⟨{ x.val with len := max_len }, some a⟩
        filename := Function.update h.filename a (h.filename bb) }

/-- The loop of `backed_block_list_destroy`, with at most `fuel` passes. -/
def destroyBlocks : ℕ → Heap → Option ℕ → Except Fault Heap
  | _, h, none => .ok h
  | 0, _, some _ => .error .diverges
  | fuel + 1, h, some bb => do
    let next := (← load h.nodes bb).next
    destroyBlocks fuel (← backedBlockDestroy h bb) next

end InMemory

/-! ## Names -/

section

variable {h h' : Heap} {a b : ℕ} {c : Cell BackedBlock} {p : Option ℕ}
  {l l₀ pre post rest : List BackedBlock} {x y z : BackedBlock} {h₀ : Memory BackedBlock}

/-- The nodes that have a file. -/
def Heap.fileNodes (h : Heap) : Set ℕ := {a | ∃ c, h.nodes a = some c ∧ c.val.source.type = .file}

/-- Every node that has a file has a name of its own, which is allocated, and every allocated name is
that of a node. -/
def Heap.NamesOk (h : Heap) : Prop := Set.BijOn h.filename h.fileNodes h.names

/-- Only the nodes that have a file matter. -/
theorem Heap.NamesOk.of_files (hn : h.NamesOk) (hfiles : h'.fileNodes = h.fileNodes)
    (hname : Set.EqOn h.filename h'.filename h.fileNodes) (hnames : h'.names = h.names) :
    h'.NamesOk := by
  unfold Heap.NamesOk
  rw [hfiles, hnames]
  exact Set.BijOn.congr hn hname

/-- Links and lengths do not matter. -/
theorem Heap.NamesOk.congr {nodes : Memory BackedBlock} (hn : h.NamesOk)
    (htype : ∀ a, ((nodes a).map Cell.val).map (fun b => b.source.type) =
      ((h.nodes a).map Cell.val).map fun b => b.source.type) :
    Heap.NamesOk { h with nodes } := by
  refine hn.of_files (Set.ext fun a => ?_) (fun _ _ => rfl) rfl
  have hiff : ∀ o : Option (Cell BackedBlock), (∃ c, o = some c ∧ c.val.source.type = .file) ↔
      (o.map Cell.val).map (fun b => b.source.type) = some .file := fun o => by
    rw [Option.map_map, Option.map_eq_some_iff]
    rfl
  exact (hiff _).trans ((iff_of_eq (congrArg (· = some _) (htype a))).trans (hiff _).symm)

/-- A store to a link leaves the names of the files as they are. -/
theorem Heap.NamesOk.link (hn : h.NamesOk) (a : ℕ) (q : Option ℕ) :
    Heap.NamesOk { h with nodes := h.nodes.link a q } :=
  hn.congr fun b => congrArg _ (h.nodes.link_val a q b)

/-- A node that is overwritten by one of the same type leaves the names as they are. -/
theorem Heap.NamesOk.set {d : Cell BackedBlock} (hn : h.NamesOk) (hc : h.nodes a = some c)
    (htype : d.val.source.type = c.val.source.type) :
    Heap.NamesOk { h with nodes := h.nodes.set a d } := by
  refine hn.congr fun b => ?_
  by_cases hb : b = a
  · rw [hb, Memory.set_self, hc]
    exact congrArg some htype
  · rw [Memory.set_of_ne _ _ hb]

/-- The name of a node that has a file may be read. -/
theorem Heap.NamesOk.readName (hn : h.NamesOk) (hc : h.nodes a = some c)
    (hfile : c.val.source.type = .file) : InMemory.readName h a = .ok () :=
  if_pos (hn.mapsTo ⟨c, hc, hfile⟩)

/-- **Freeing a node** frees its name, if it has one, and no other. -/
theorem backedBlockDestroy_spec (hn : h.NamesOk) (hc : h.nodes a = some c) :
    ∃ h', InMemory.backedBlockDestroy h a = .ok h' ∧ h'.nodes = h.nodes.free a ∧ h'.NamesOk := by
  -- What is left are the other nodes with files.
  have hfree : ∀ names, Heap.fileNodes ⟨h.nodes.free a, h.filename, names⟩ = h.fileNodes \ {a} := by
    intro names
    ext b
    by_cases hb : b = a
    · simp [Heap.fileNodes, hb]
    · simp [Heap.fileNodes, hb, Memory.free_of_ne]
  unfold InMemory.backedBlockDestroy
  rw [load_eq hc]
  change ∃ h', (if c.val.source.type = .file then
      InMemory.readName h a >>= fun _ => pure _ else pure _) = Except.ok h' ∧ _
  -- A node with a file frees its name, which is one of those that are there.
  by_cases hfile : c.val.source.type = .file
  · rw [if_pos hfile, hn.readName hc hfile]
    refine ⟨_, rfl, rfl, ?_⟩
    unfold Heap.NamesOk
    rw [hfree, Finset.coe_erase]
    exact hn.sdiff_singleton ⟨c, hc, hfile⟩
  · rw [if_neg hfile]
    refine ⟨_, rfl, rfl, ?_⟩
    unfold Heap.NamesOk
    rw [hfree, Set.sdiff_singleton_eq_self]
    · exact hn
    · rintro ⟨d, hd, hfile'⟩
      rw [hc] at hd
      exact hfile (Option.some.inj hd ▸ hfile')

/-! ## Merging -/

/-- How the functions of a list stop the program: never through a pointer. -/
def Stops (e : Fault) : Prop := e = .assertion ∨ e = .divByZero

/-- The list `l` at `p` is what has become of the cells `l₀` of the memory `h₀`. -/
structure Became (h₀ : Memory BackedBlock) (l₀ : List BackedBlock) (h : Heap) (p : Option ℕ)
    (l : List BackedBlock) : Prop where
  /-- The nodes are linked. -/
  nodes : IsList BackedBlock.addr h.nodes p l
  /-- The names are theirs. -/
  names : h.NamesOk
  /-- No node is lost, and none but these has changed. -/
  reshapes : Reshapes BackedBlock.addr h₀ h.nodes l₀ l

/-- The nodes that `merge_bb` leaves of two nodes, in front of others. -/
def mergedInto (x y : BackedBlock) (post : List BackedBlock) : Option BackedBlock → List BackedBlock
  | none => x :: y :: post
  | some z => z :: post

/-- **`merge_bb` in memory** merges the nodes that it merges in the list, and frees the second one. -/
theorem mergeBb_simulates (block_size : UInt32) (hb : Became h₀ l₀ h p (pre ++ x :: y :: post))
    (n : ℕ) :
    Except.Simulates Stops n
      (fun _ => InMemory.mergeBb block_size h (some x.addr) (some y.addr)) (mergeBb block_size x y)
      fun r o => r.1 = o.isSome ∧ (∀ z ∈ o, z.addr = x.addr) ∧
        Became h₀ l₀ r.2 p (pre ++ mergedInto x y post o) := by
  have hx := hb.nodes.2.cell
  have hy : h.nodes y.addr = some ⟨y, entry BackedBlock.addr none post⟩ := by
    have hlist := hb.nodes.2
    rw [List.append_cons] at hlist
    exact hlist.cell
  -- Both nodes are there, so the code gets to the comparison of their blocks.
  have hrun : InMemory.mergeBb block_size h (some x.addr) (some y.addr) =
      if ¬ x.block < y.block then .error .assertion
      else if x.source.type ≠ y.source.type then .ok (false, h)
      else if block_size = 0 then .error .divByZero
      else if x.block + x.len / block_size ≠ y.block then .ok (false, h)
      else do
        InMemory.compareNames h x.source.type x.addr y.addr
        if sourcesMerge x y then
          let h := { h with
            nodes := h.nodes.set x.addr ⟨x.extend y, entry BackedBlock.addr none post⟩ }
          return (true, ← InMemory.backedBlockDestroy h y.addr)
        else return (false, h) := by
    unfold InMemory.mergeBb
    change (load h.nodes x.addr >>= _) = _
    rw [load_eq hx]
    change (load h.nodes y.addr >>= _) = _
    rw [load_eq hy]
    rfl
  have hkeep : Except.Simulates Stops n (fun _ => .ok (false, h))
      (.ok none : Except Fault (Option BackedBlock)) fun r o => r.1 = o.isSome ∧
        (∀ z ∈ o, z.addr = x.addr) ∧ Became h₀ l₀ r.2 p (pre ++ mergedInto x y post o) :=
    Except.simulates_ok ⟨rfl, nofun, hb⟩
  -- Names are compared only for nodes of files, whose names are both there.
  have hnames : x.source.type = y.source.type →
      InMemory.compareNames h x.source.type x.addr y.addr = .ok () := by
    intro htype
    unfold InMemory.compareNames
    split_ifs with hfile
    · rw [hb.names.readName hx hfile]
      exact hb.names.readName hy (htype.symm.trans hfile)
    · rfl
  rw [hrun, mergeBb]
  split_ifs with hlt htype hbs hadj hmerge
  · exact hkeep
  · exact Except.simulates_error (Or.inr rfl)
  · exact hkeep
  · -- The first node becomes the longer one, and the second one is freed.
    rw [hnames (not_not.mp htype)]
    have hset : Heap.NamesOk { h with
        nodes := h.nodes.set x.addr ⟨x.extend y, entry BackedBlock.addr none post⟩ } :=
      hb.names.set hx rfl
    have hne : y.addr ≠ x.addr :=
      hb.nodes.others y (List.mem_append_right _ List.mem_cons_self)
    obtain ⟨h', hdestroy, hnodes, hnames'⟩ :=
      backedBlockDestroy_spec hset ((Memory.set_of_ne _ _ hne).trans hy)
    change Except.Simulates Stops n (fun _ => InMemory.backedBlockDestroy _ y.addr >>= _) _ _
    rw [hdestroy]
    refine Except.simulates_ok ⟨rfl, fun z hz => by rw [← Option.some.inj hz]; rfl, ?_, hnames', ?_⟩
    · rw [hnodes]
      exact hb.nodes.join rfl
    · rw [hnodes]
      exact hb.reshapes.trans (join_reshapes rfl)
  · rw [hnames (not_not.mp htype)]
    exact hkeep
  · exact Except.simulates_error (Or.inl rfl)

/-- The first merge of `queue_bb` in memory simulates that of the nodes, and leaves the rest of the
list. -/
theorem mergeNext_simulates (block_size : UInt32) (hb : Became h₀ l₀ h p (pre ++ x :: rest))
    (n : ℕ) :
    Except.Simulates Stops n
      (fun _ => InMemory.mergeBb block_size h (some x.addr) (entry BackedBlock.addr none rest))
      (mergeNext block_size x rest)
      fun r o => o.1.addr = x.addr ∧ Became h₀ l₀ r.2 p (pre ++ o.1 :: o.2) := by
  cases rest with
  | nil => exact Except.simulates_ok ⟨rfl, hb⟩
  | cons y post =>
    have hmerge := mergeBb_simulates block_size hb n
    have hbind : mergeNext block_size x (y :: post) = mergeBb block_size x y >>= fun o =>
        .ok (o.elim (x, y :: post) fun z => (z, post)) := by
      rw [mergeNext]
      exact congrArg _ (funext fun o => by cases o <;> rfl)
    rw [hbind]
    refine (hmerge.bind (k := fun _ => .ok) fun r o _ hr => ?_).congr (Nat.le_refl n)
      fun _ _ => (bind_pure _).symm
    obtain ⟨-, haddr, hb'⟩ := hr
    cases o with
    | none => exact Except.simulates_ok ⟨rfl, hb'⟩
    | some z => exact Except.simulates_ok ⟨haddr z rfl, hb'⟩

/-! ## Queueing -/

/-- `last_used` is null or a node of the list. -/
def BackedBlockList.CacheAlive (bbl : BackedBlockList) : Prop :=
  ∀ lu, bbl.last_used = some lu → ∃ bb ∈ bbl.data_blocks, bb.addr = lu

/-- Where the search starts, in memory and in the list. -/
theorem searchStart_eq {last_used : Option ℕ} {head : BackedBlock} {tail : List BackedBlock}
    (hl : IsList BackedBlock.addr h.nodes p (head :: tail)) (hx : h.nodes x.addr = some c)
    (hc : c.val = x) (hlu : ∀ lu, last_used = some lu → ∃ bb ∈ head :: tail, bb.addr = lu) :
    ∃ before start after, searchStart last_used x.block head tail = .ok (before, start, after) ∧
      InMemory.searchStart h last_used head.addr x.addr = .ok start.addr := by
  cases last_used with
  | none => exact ⟨[], head, tail, rfl, rfl⟩
  | some lu =>
    obtain ⟨bb, hbb, rfl⟩ := hlu lu rfl
    obtain ⟨pre, post, hcat⟩ := List.mem_iff_append.mp hbb
    -- The search along the addresses ends at the node that `last_used` names.
    have hspan : (head :: tail).span (fun c => decide (c.addr ≠ bb.addr)) = (pre, bb :: post) := by
      rw [hcat] at hl ⊢
      exact span_addr fun d hd => hl.others d (List.mem_append_left _ hd)
    have hcell := (hcat ▸ hl.2).cell
    have hrun : InMemory.searchStart h (some bb.addr) head.addr x.addr =
        .ok (if x.block > bb.block then bb.addr else head.addr) := by
      unfold InMemory.searchStart
      change (load h.nodes x.addr >>= fun x => load h.nodes bb.addr >>= fun y => pure _) = _
      rw [load_eq hx, load_eq hcell, ← hc]
      rfl
    rw [hrun]
    simp only [searchStart, hspan]
    split_ifs
    · exact ⟨pre, bb, post, rfl, rfl⟩
    · exact ⟨[], head, tail, rfl, rfl⟩

/-- The loop of `queue_bb` stops where the search in the list does. -/
theorem seek_comesBehind {start : BackedBlock} {after : List BackedBlock} {fuel : ℕ}
    {nodes : Memory BackedBlock} (hl : Linked BackedBlock.addr nodes (start :: after) none)
    (hx : nodes x.addr = some c) (hc : c.val = x) (hfuel : after.length < fuel) :
    seek nodes (InMemory.comesBehind nodes x.addr) fuel (some start.addr) =
      .ok (some (seekBb x.block start after).2.1.addr) := by
  induction after generalizing start fuel with
  | nil =>
    obtain ⟨fuel, rfl⟩ := Nat.exists_eq_add_one_of_ne_zero (Nat.ne_of_gt hfuel)
    exact (seek_cons hl.1 rfl).trans (if_pos rfl)
  | cons next after ih =>
    obtain ⟨fuel, rfl⟩ := Nat.exists_eq_add_one_of_ne_zero (Nat.ne_of_gt (Nat.zero_lt_of_lt hfuel))
    have htest : InMemory.comesBehind nodes x.addr ⟨start, some next.addr⟩ =
        .ok (decide (¬ next.block < x.block)) := by
      unfold InMemory.comesBehind
      change (load nodes next.addr >>= fun next => load nodes x.addr >>= fun x => pure _) = _
      rw [load_eq hl.2.1, load_eq hx, ← hc]
      rfl
    refine (seek_cons hl.1 htest).trans ?_
    rw [seekBb]
    by_cases hlt : next.block < x.block
    · rw [if_pos hlt, decide_eq_false (not_not.mpr hlt)]
      exact ih hl.2 (Nat.lt_of_succ_lt_succ hfuel)
    · rw [if_neg hlt, decide_eq_true hlt]
      rfl

/-- **Inserting a node** in memory puts it behind the one that is named, and stores to no other
cell. -/
theorem insertBehind_spec {nodes : Memory BackedBlock}
    (hl : IsList BackedBlock.addr nodes p (pre ++ y :: rest)) (hx : nodes x.addr = some ⟨x, none⟩)
    (hnew : ∀ d ∈ pre ++ y :: rest, d.addr ≠ x.addr) :
    ∃ nodes', InMemory.insertBehind nodes y.addr x.addr = .ok nodes' ∧
      IsList BackedBlock.addr nodes' p (pre ++ y :: x :: rest) ∧
      (∀ a, (nodes' a).map Cell.val = (nodes a).map Cell.val) ∧
      ∀ a, y.addr ≠ a → x.addr ≠ a → nodes' a = nodes a := by
  have hy := hl.2.cell
  have hne : y.addr ≠ x.addr := hnew y (List.mem_append_right _ List.mem_cons_self)
  refine ⟨_, ?_, hl.insert hx hnew, fun a => ?_, fun a hya hxa => ?_⟩
  · have hyx := (Memory.link_of_ne nodes (entry BackedBlock.addr none rest) hne).trans hy
    unfold InMemory.insertBehind
    rw [load_eq hy]
    cases rest with
    | nil =>
      rw [show nodes.link x.addr (entry BackedBlock.addr none []) = nodes from
        Memory.link_eq_self hx]
      exact store_eq hy _
    | cons d rest =>
      change (store nodes x.addr (some d.addr) >>= fun h => store h y.addr (some x.addr)) = _
      rw [store_eq hx]
      exact store_eq hyx _
  · rw [Memory.link_val, Memory.link_val]
  · rw [Memory.link_of_ne _ _ hya.symm, Memory.link_of_ne _ _ hxa.symm]

/-- A list after a call, where the memory was `h₀` and the cells that the call may change `l₀`. -/
structure Stands (h₀ : Memory BackedBlock) (l₀ : List BackedBlock) (r : Heap × ListHead)
    (bbl : BackedBlockList) : Prop where
  /-- The list is in memory. -/
  represents : Represents r.1.nodes r.2 bbl
  /-- The names belong to the nodes. -/
  names : r.1.NamesOk
  /-- No node is lost, and none but these has changed. -/
  reshapes : Reshapes BackedBlock.addr h₀ r.1.nodes l₀ bbl.data_blocks
  /-- `last_used` does not dangle. -/
  alive : bbl.CacheAlive

/-- **`queue_bb` in memory** puts a new node where it goes in the list, with the same merges. -/
theorem queueBb_simulates {head : ListHead} {bbl : BackedBlockList}
    (hrep : Represents h.nodes head bbl) (hn : h.NamesOk) (halive : bbl.CacheAlive)
    (hx : h.nodes x.addr = some ⟨x, none⟩) (hnew : ∀ d ∈ bbl.data_blocks, d.addr ≠ x.addr)
    (hframe : ∀ a, (∀ b ∈ x :: bbl.data_blocks, b.addr ≠ a) → h.nodes a = h₀ a) :
    Except.Simulates Stops (bbl.data_blocks.length + 1)
      (fun fuel => InMemory.queueBb fuel h head x.addr) (queueBb bbl x)
      (Stands h₀ (x :: bbl.data_blocks)) := by
  obtain ⟨l, last_used, block_size, next_addr⟩ := bbl
  obtain ⟨p, last_used', block_size'⟩ := head
  obtain ⟨hl, rfl, rfl⟩ := hrep
  dsimp only at hl hnew hframe ⊢
  cases l with
  | nil =>
    obtain rfl : p = none := hl.1
    refine Except.simulates_ok ⟨⟨⟨rfl, hx, trivial⟩, rfl, rfl⟩, hn, ?_, fun lu hlu => ?_⟩
    · exact reshapes_of_frame hframe fun a => Iff.rfl
    · obtain ⟨bb, hbb, -⟩ := halive lu hlu
      exact nomatch hbb
  | cons first tail =>
    obtain rfl : p = some first.addr := hl.1
    have hrun : ∀ fuel, InMemory.queueBb fuel h ⟨some first.addr, last_used', block_size'⟩ x.addr =
        if first.block > x.block then do
          let nodes ← store h.nodes x.addr (some first.addr)
          return ({ h with nodes }, ⟨some x.addr, last_used', block_size'⟩)
        else do
          let start ← InMemory.searchStart h last_used' first.addr x.addr
          match ← seek h.nodes (InMemory.comesBehind h.nodes x.addr) fuel (some start) with
          | none => return (h, ⟨some first.addr, some x.addr, block_size'⟩)
          | some bb =>
            let nodes ← InMemory.insertBehind h.nodes bb x.addr
            let new ← load nodes x.addr
            let (_, h) ← InMemory.mergeBb block_size' { h with nodes } (some x.addr) new.next
            let (merged, h) ← InMemory.mergeBb block_size' h (some bb) (some x.addr)
            return (h, ⟨some first.addr, some (if merged then bb else x.addr), block_size'⟩) := by
      intro fuel
      unfold InMemory.queueBb
      change (load h.nodes first.addr >>= _) = _
      rw [load_eq hl.2.1]
      change (load h.nodes x.addr >>= _) = _
      rw [load_eq hx]
      rfl
    simp only [hrun, queueBb]
    split_ifs with hfirst
    · -- The new node becomes the first one.
      rw [store_eq hx]
      refine Except.simulates_ok ⟨⟨hl.push hx hnew, rfl, rfl⟩, hn.link _ _, ?_, fun lu hlu => ?_⟩
      · refine reshapes_of_frame (fun a ha => ?_) fun a => Iff.rfl
        exact (Memory.link_of_ne _ _ (ha x List.mem_cons_self).symm).trans (hframe a ha)
      · obtain ⟨bb, hbb, haddr⟩ := halive lu hlu
        exact ⟨bb, List.mem_cons_of_mem _ hbb, haddr⟩
    · obtain ⟨before, start, after, hstart, hstart'⟩ := searchStart_eq hl hx rfl halive
      have hcat := searchStart_cat hstart
      have hseek := seekBb_cat x.block start after
      have hlink : Linked BackedBlock.addr h.nodes (start :: after) none :=
        (linked_append.mp (hcat ▸ hl.2)).2
      have hstop := fun fuel hfuel => @seek_comesBehind _ x start after fuel _ hlink hx rfl hfuel
      rw [hstart, hstart']
      change Except.Simulates Stops _ (fun fuel => seek h.nodes _ fuel (some start.addr) >>= _)
        (mergeNext block_size' x (seekBb x.block start after).2.2 >>= _) _
      generalize seekBb x.block start after = q at hseek hstop
      obtain ⟨passed, bb, rest⟩ := q
      dsimp only at hseek hstop ⊢
      have hall : first :: tail = before ++ passed ++ bb :: rest := by
        rw [← hcat, ← hseek, List.append_assoc]
      have hlen : after.length < (before ++ passed ++ bb :: rest).length + 1 := by
        rw [← hall, ← hcat, List.length_append, List.length_cons]
        omega
      rw [hall] at hl hnew hframe ⊢
      -- The new node is behind `bb`, and merges with its neighbours.
      obtain ⟨nodes, hinsert, hl', hval, hother⟩ := insertBehind_spec hl hx hnew
      have hcell := (linked_append.mp hl'.2).2.2.1
      have hbecame : Became h₀ (x :: (before ++ passed ++ bb :: rest)) { h with nodes }
          (some first.addr) ((before ++ passed ++ [bb]) ++ x :: rest) := by
        rw [← List.append_cons]
        refine ⟨hl', hn.congr fun a => congrArg _ (hval a), ?_⟩
        refine reshapes_of_frame (fun a ha => ?_) fun a => ?_
        · exact (hother a (ha bb (by simp)) (ha x List.mem_cons_self)).trans (hframe a ha)
        · simp only [List.map_append, List.map_cons, List.mem_append, List.mem_cons]
          tauto
      refine ((mergeNext_simulates block_size' hbecame _).bind (k := fun _ r =>
        InMemory.mergeBb block_size' r.2 (some bb.addr) (some x.addr) >>= fun r =>
          pure (r.2, ⟨some first.addr, some (if r.1 then bb.addr else x.addr), block_size'⟩))
        fun r o _ hr => ?_).congr (Nat.le_refl _) fun fuel hfuel => ?_
      · obtain ⟨x', rest'⟩ := o
        obtain ⟨haddr, hb⟩ := hr
        dsimp only at haddr hb ⊢
        rw [← List.append_cons] at hb
        rw [← haddr]
        refine (mergeBb_simulates block_size' hb _).bind fun r o _ hr => ?_
        obtain ⟨hmerged, hbb, hb⟩ := hr
        rw [List.append_assoc before passed (mergedInto bb x' rest' o)] at hb
        rw [hmerged]
        cases o with
        | none =>
          refine Except.simulates_ok ⟨⟨?_, rfl, rfl⟩, hb.names, ?_, fun lu hlu => ?_⟩
          · exact hb.nodes
          · exact hb.reshapes
          · exact ⟨x', by simp, Option.some.inj hlu⟩
        | some z =>
          refine Except.simulates_ok ⟨⟨?_, rfl, rfl⟩, hb.names, ?_, fun lu hlu => ?_⟩
          · exact hb.nodes
          · exact hb.reshapes
          · exact ⟨z, by simp, (hbb z rfl).trans (Option.some.inj hlu)⟩
      · rw [hstop fuel (Nat.lt_of_lt_of_le hlen hfuel)]
        change (InMemory.insertBehind h.nodes bb.addr x.addr >>= _) = _
        rw [hinsert]
        change (load nodes x.addr >>= _) = _
        rw [load_eq hcell]
        rfl

/-! ## Adding -/

/-- **A new node** has a name of its own. -/
theorem Heap.NamesOk.allocate (hn : h.NamesOk) (hfree : h.nodes a = none) {name : ℕ}
    (hname : c.val.source.type = .file → name ∉ h.names) :
    Heap.NamesOk (if c.val.source.type = .file then
      ⟨h.nodes.set a c, Function.update h.filename a name, insert name h.names⟩
      else { h with nodes := h.nodes.set a c }) := by
  have hout : a ∉ h.fileNodes := by
    rintro ⟨d, hd, -⟩
    rw [hfree] at hd
    exact nomatch hd
  split_ifs with hfile
  · -- The new node is one more with a file, under a name that is not in use.
    have hfiles : Heap.fileNodes ⟨h.nodes.set a c, Function.update h.filename a name,
        insert name h.names⟩ = insert a h.fileNodes := by
      ext b
      by_cases hb : b = a
      · simp [Heap.fileNodes, hb, hfile]
      · simp [Heap.fileNodes, hb, Memory.set_of_ne]
    have hupd : Function.update h.filename a name a = name := Function.update_self _ _ _
    have hkeep : Set.BijOn (Function.update h.filename a name) h.fileNodes h.names :=
      Set.BijOn.congr hn fun b hb =>
        (Function.update_of_ne (fun heq : b = a => hout (heq ▸ hb)) _ _).symm
    have hins := hkeep.insert (a := a) (by rw [hupd]; exact hname hfile)
    rw [hupd] at hins
    unfold Heap.NamesOk
    rw [hfiles, Finset.coe_insert]
    exact hins
  · -- A node without a file adds no name.
    refine hn.of_files (Set.ext fun b => ?_) (fun _ _ => rfl) rfl
    by_cases hb : b = a
    · simp [Heap.fileNodes, hb, hfile, hfree]
    · simp [Heap.fileNodes, hb, Memory.set_of_ne]

/-- **Adding a block**, with the node at an address where nothing lies. -/
theorem addBlock_simulates {head : ListHead} {bbl : BackedBlockList} {name : ℕ}
    {source : BlockSource} (hrep : Represents h.nodes head bbl) (hn : h.NamesOk)
    (halive : bbl.CacheAlive) (hfree : h.nodes a = none)
    (hname : source.type = .file → name ∉ h.names) (len block : UInt32) :
    Except.Simulates Stops (bbl.data_blocks.length + 1)
      (fun fuel => InMemory.addBlock fuel h head a name source len block)
      (addBlock { bbl with next_addr := a } source len block)
      (Stands h.nodes (⟨a, block, len, source⟩ :: bbl.data_blocks)) := by
  -- The address is free, so no node has it.
  have hnew : ∀ d ∈ bbl.data_blocks, d.addr ≠ a := by
    intro d hd heq
    obtain ⟨n, hcell⟩ := hrep.nodes.2.exists_cell hd
    rw [heq, hfree] at hcell
    exact nomatch hcell
  have hrun : ∀ fuel, InMemory.addBlock fuel h head a name source len block =
      InMemory.queueBb fuel (if source.type = .file then
        ⟨h.nodes.set a ⟨⟨a, block, len, source⟩, none⟩, Function.update h.filename a name,
          insert name h.names⟩
        else { h with nodes := h.nodes.set a ⟨⟨a, block, len, source⟩, none⟩ }) head a :=
    fun fuel => rfl
  have hnames := hn.allocate (c := ⟨⟨a, block, len, source⟩, none⟩) hfree hname
  generalize hh : (if source.type = .file then
        (⟨h.nodes.set a ⟨⟨a, block, len, source⟩, none⟩, Function.update h.filename a name,
          insert name h.names⟩ : Heap)
        else { h with nodes := h.nodes.set a ⟨⟨a, block, len, source⟩, none⟩ }) = h' at hrun hnames
  have hnodes : h'.nodes = h.nodes.set a ⟨⟨a, block, len, source⟩, none⟩ := by
    rw [← hh]
    split_ifs <;> rfl
  simp only [hrun]
  refine @queueBb_simulates h' ⟨a, block, len, source⟩ h.nodes head
    { bbl with next_addr := a + 1 } ⟨⟨hrep.nodes.1, ?_⟩, hrep.last_used, hrep.block_size⟩ hnames
    halive ?_ hnew fun e he => ?_
  · refine hrep.nodes.2.congr fun d hd => ?_
    rw [hnodes, Memory.set_of_ne _ _ (hnew d hd)]
  · rw [hnodes, Memory.set_self]
  · rw [hnodes, Memory.set_of_ne _ _ (he _ List.mem_cons_self).symm]

/-! ## Splitting -/

/-- `backed_block_split` in memory, of a node that is longer than `max_len`. -/
theorem backedBlockSplit_divides {head : ListHead} {max_len : UInt32} {q : Option ℕ}
    (hx : h.nodes x.addr = some ⟨x, q⟩) (hbs : head.block_size ≠ 0)
    (hlen : ¬ x.len ≤ alignDown max_len head.block_size) :
    ∃ y z, splitBb head.block_size a x max_len = [z, y] ∧ z.addr = x.addr ∧ y.addr = a ∧
      z.source = x.source ∧ y.source.type = x.source.type ∧
      InMemory.backedBlockSplit h head x.addr a max_len = .ok { h with
        nodes := (h.nodes.set y.addr ⟨y, q⟩).set x.addr ⟨z, some y.addr⟩
        filename := Function.update h.filename y.addr (h.filename x.addr) } := by
  refine ⟨⟨a, x.block + alignDown max_len head.block_size / head.block_size,
    x.len - alignDown max_len head.block_size,
    x.source.advance (alignDown max_len head.block_size).toNat⟩,
    { x with len := alignDown max_len head.block_size }, if_neg hlen, rfl, rfl, rfl, ?_, ?_⟩
  · cases hs : x.source <;> rfl
  · unfold InMemory.backedBlockSplit
    rw [if_neg hbs]
    change (load h.nodes x.addr >>= _) = _
    rw [load_eq hx]
    exact if_neg hlen

/-- A list whose nodes are replaced where they lie. -/
theorem Stands.of_kept {head : ListHead} {bbl bbl' : BackedBlockList}
    (hrep : Represents h.nodes head bbl) (halive : bbl.CacheAlive)
    (hlu : bbl'.last_used = bbl.last_used) (hbs : bbl'.block_size = bbl.block_size)
    (hblocks : bbl'.data_blocks = l) (hl : IsList BackedBlock.addr h'.nodes head.data_blocks l)
    (hn : h'.NamesOk) (hr : Reshapes BackedBlock.addr h₀ h'.nodes l₀ l)
    (hkept : ∀ d ∈ bbl.data_blocks, ∃ e ∈ l, e.addr = d.addr) : Stands h₀ l₀ (h', head) bbl' := by
  subst hblocks
  refine ⟨⟨hl, hrep.last_used.trans hlu.symm, hrep.block_size.trans hbs.symm⟩, hn, hr,
    fun lu h => ?_⟩
  obtain ⟨d, hd, rfl⟩ := halive lu (hlu.symm.trans h)
  exact hkept d hd

/-- **Splitting a node** that has no file, or is not longer than `max_len`. -/
theorem backedBlockSplit_spec {head : ListHead} {bbl : BackedBlockList} {max_len : UInt32}
    (hrep : Represents h.nodes head bbl) (hn : h.NamesOk) (halive : bbl.CacheAlive)
    (hfree : h.nodes a = none) (hx : x ∈ bbl.data_blocks) (hbs : bbl.block_size ≠ 0)
    (hfile : x.source.type = .file → x.len ≤ alignDown max_len bbl.block_size) :
    ∃ h', InMemory.backedBlockSplit h head x.addr a max_len = .ok h' ∧
      Stands h.nodes (⟨a, 0, 0, .fill 0⟩ :: bbl.data_blocks) (h', head)
        (backedBlockSplit { bbl with next_addr := a } x max_len) := by
  obtain ⟨pre, post, hcat⟩ := List.mem_iff_append.mp hx
  have hl := hrep.nodes
  have hblocks := @backedBlockSplit_blocks _ _ _ { bbl with next_addr := a } hcat hl.nodup max_len
  have hnew : ∀ d ∈ bbl.data_blocks, d.addr ≠ a := by
    intro d hd heq
    obtain ⟨n, hcell⟩ := hl.2.exists_cell hd
    rw [heq, hfree] at hcell
    exact nomatch hcell
  have hbs' : head.block_size ≠ 0 := hrep.block_size ▸ hbs
  have hcell := (hcat ▸ hl.2).cell
  dsimp only at hblocks
  -- A node that fits is left as it is.
  by_cases hlen : x.len ≤ alignDown max_len bbl.block_size
  · have hrun : InMemory.backedBlockSplit h head x.addr a max_len = .ok h := by
      unfold InMemory.backedBlockSplit
      rw [if_neg hbs', hrep.block_size]
      change (load h.nodes x.addr >>= _) = _
      rw [load_eq hcell]
      exact if_pos hlen
    have hsame : pre ++ (splitBb bbl.block_size a x max_len ++ post) = bbl.data_blocks := by
      rw [splitBb, if_pos hlen, hcat]
      rfl
    refine ⟨h, hrun, Stands.of_kept hrep halive rfl rfl (hblocks.trans hsame) hl hn ?_
      fun d hd => ⟨d, hd, rfl⟩⟩
    refine ⟨fun _ _ => rfl, fun d hd => ⟨d, List.mem_cons_of_mem _ hd, rfl⟩, fun d hd => ?_⟩
    rcases List.mem_cons.mp hd with rfl | hd
    · exact Or.inr hfree
    · exact Or.inl ⟨d, hd, rfl⟩
  · rw [← hrep.block_size] at hlen
    obtain ⟨y, z, hparts, hz, rfl, hzs, hys, hrun⟩ := backedBlockSplit_divides (a := a) hcell hbs' hlen
    rw [hrep.block_size] at hparts
    rw [hparts] at hblocks
    rw [hcat] at hl hnew
    -- A node that is divided has no file, by the hypothesis.
    have hnotfile : x.source.type ≠ .file := fun h => hlen (hrep.block_size ▸ hfile h)
    have hxy : x.addr ≠ y.addr := hnew x (List.mem_append_right _ List.mem_cons_self)
    refine ⟨_, hrun, Stands.of_kept hrep halive rfl rfl hblocks (hl.divide hz hnew) ?_ ?_ ?_⟩
    · -- No node with a file has come or gone.
      refine hn.of_files (Set.ext fun b => ?_) (fun b hb => ?_) rfl
      · by_cases hbx : b = x.addr
        · simp [Heap.fileNodes, hbx, hcell, hzs]
        · by_cases hby : b = y.addr
          · simp [Heap.fileNodes, hby, Memory.set_of_ne, hxy.symm, hys, hnotfile, hfree]
          · simp [Heap.fileNodes, Memory.set_of_ne, hbx, hby]
      · refine (Function.update_of_ne (fun heq => ?_) _ _).symm
        obtain ⟨c, hc, -⟩ := hb
        rw [heq, hfree] at hc
        exact nomatch hc
    · rw [hcat]
      refine ⟨fun b hb => ?_, fun d hd => ?_, fun d hd => Or.inl ?_⟩
      · exact (Memory.set_of_ne _ _ (hb x (by simp)).symm).trans
          (Memory.set_of_ne _ _ (hb _ List.mem_cons_self).symm)
      · simp only [List.mem_append, List.mem_cons] at hd
        rcases hd with hd | (rfl | rfl | hd) | hd
        · exact ⟨d, by simp [hd], rfl⟩
        · exact ⟨x, by simp, hz.symm⟩
        · exact ⟨_, List.mem_cons_self, rfl⟩
        · exact nomatch hd
        · exact ⟨d, by simp [hd], rfl⟩
      · simp only [List.mem_append, List.mem_cons] at hd
        rcases hd with rfl | hd | rfl | hd
        · exact ⟨y, by simp, rfl⟩
        · exact ⟨d, by simp [hd], rfl⟩
        · exact ⟨z, by simp, hz⟩
        · exact ⟨d, by simp [hd], rfl⟩
    · rw [hcat]
      intro d hd
      simp only [List.mem_append, List.mem_cons] at hd
      rcases hd with hd | rfl | hd
      · exact ⟨d, by simp [hd], rfl⟩
      · exact ⟨z, by simp, hz⟩
      · exact ⟨d, by simp [hd], rfl⟩

/-! ## Freeing -/

/-- **Freeing a list** frees every node and its name. -/
theorem destroyBlocks_spec (hl : IsList BackedBlock.addr h.nodes p l) (hn : h.NamesOk) :
    ∃ h', (∀ fuel ≥ l.length, InMemory.destroyBlocks fuel h p = .ok h') ∧ h'.NamesOk ∧
      Reshapes BackedBlock.addr h.nodes h'.nodes l [] := by
  induction l generalizing h p with
  | nil =>
    obtain rfl : p = none := hl.1
    exact ⟨h, fun fuel _ => by rw [InMemory.destroyBlocks], hn,
      reshapes_of_frame (fun _ _ => rfl) fun _ => Iff.rfl⟩
  | cons b l ih =>
    obtain rfl : p = some b.addr := hl.1
    obtain ⟨h', hdestroy, hnodes, hn'⟩ := backedBlockDestroy_spec hn hl.2.1
    obtain ⟨h'', hrun, hn'', hr⟩ := ih (hnodes ▸ hl.pop) hn'
    refine ⟨h'', fun fuel hfuel => ?_, hn'', (hnodes ▸ pop_reshapes).trans hr⟩
    obtain ⟨fuel, rfl⟩ := Nat.exists_eq_add_one_of_ne_zero (Nat.ne_of_gt
      (Nat.lt_of_lt_of_le (Nat.zero_lt_succ _) hfuel))
    rw [InMemory.destroyBlocks, load_eq hl.2.1]
    change (InMemory.backedBlockDestroy h b.addr >>= _) = _
    rw [hdestroy]
    exact hrun fuel (Nat.le_of_succ_le_succ hfuel)

/-- The names of the nodes that have a file. -/
def fileNames (filename : ℕ → ℕ) (l : List BackedBlock) : List ℕ :=
  (l.filter fun b => b.source.type = .file).map fun b => filename b.addr

/-- **Freeing a list whose nodes do not have names of their own** reads or frees a name that has
been freed. -/
theorem destroyBlocks_error (hl : IsList BackedBlock.addr h.nodes p l)
    (hn : ¬ ((fileNames h.filename l).Nodup ∧ ∀ name ∈ fileNames h.filename l, name ∈ h.names))
    {fuel : ℕ} (hfuel : l.length ≤ fuel) :
    InMemory.destroyBlocks fuel h p = .error .useAfterFree := by
  induction l generalizing h p fuel with
  | nil => exact absurd ⟨List.nodup_nil, List.forall_mem_nil _⟩ hn
  | cons b l ih =>
    obtain rfl : p = some b.addr := hl.1
    obtain ⟨fuel, rfl⟩ := Nat.exists_eq_add_one_of_ne_zero (Nat.ne_of_gt
      (Nat.lt_of_lt_of_le (Nat.zero_lt_succ _) hfuel))
    have hrest : l.length ≤ fuel := Nat.le_of_succ_le_succ hfuel
    rw [InMemory.destroyBlocks, load_eq hl.2.1]
    change (InMemory.backedBlockDestroy h b.addr >>= _) = _
    unfold InMemory.backedBlockDestroy
    rw [load_eq hl.2.1]
    change ((if b.source.type = .file then InMemory.readName h b.addr >>= fun _ => pure _
      else pure _) >>= _) = _
    -- The name is freed when it is there, and the first one that is not stops the call.
    by_cases hfile : b.source.type = .file
    · rw [if_pos hfile, InMemory.readName]
      split_ifs with hmem
      · refine ih hl.pop (fun hok => hn ?_) hrest
        have hnames : fileNames h.filename (b :: l) =
            h.filename b.addr :: fileNames h.filename l := by
          simp [fileNames, hfile]
        rw [hnames]
        refine ⟨List.nodup_cons.mpr ⟨fun h' => ?_, hok.1⟩, List.forall_mem_cons.mpr
          ⟨hmem, fun name h' => Finset.mem_of_mem_erase (hok.2 name h')⟩⟩
        exact Finset.ne_of_mem_erase (hok.2 _ h') rfl
      · rfl
    · rw [if_neg hfile]
      have hnames : fileNames h.filename (b :: l) = fileNames h.filename l := by
        simp [fileNames, hfile]
      exact ih hl.pop (hnames ▸ hn) hrest

end

end AmlogicToolkit.Simg
