import AmlogicToolkit.Lib.Links
import AmlogicToolkit.Simg.BlockMap

/-!
# Moving a segment

`backed_block_list_move` on the nodes in memory (`InMemory.backedBlockListMove`). It does on the
links what `backedBlockListMove` does on the lists of nodes (`represents_move`). The head of the
list that the segment goes to is never compared, so that the list stays in order exactly when the
segment does not belong in front of it (`movesInOrder_iff`).
-/

namespace AmlogicToolkit.Simg

open Links

instance : Faulty Fault := ⟨.useAfterFree, .diverges⟩

/-- `struct backed_block_list` as it lies in memory, with the address of its first node. -/
structure ListHead where
  /-- `data_blocks`. -/
  data_blocks : Option ℕ
  /-- `last_used`. -/
  last_used : Option ℕ
  /-- `block_size`. -/
  block_size : UInt32

namespace InMemory

variable (fuel : ℕ) (h : Memory BackedBlock)

/-- `end`, or the last node from `start` on when it is null:
`for (end = start; end && end->next; end = end->next) ;`. -/
def segmentEnd (start stop : Option ℕ) : Except Fault (Option ℕ) :=
  if stop = none then seek h (fun bb => .ok bb.next.isNone) fuel start else .ok stop

/-- What `backed_block_list_move` does to `from`: the link to `start` goes to `end->next`. -/
def takeSegment (src : ListHead) (start stop : ℕ) : Except Fault (Memory BackedBlock × ListHead) := do
  if src.data_blocks = some start then
    let last ← load h stop
    return (h, { src with data_blocks := last.next })
  else
    match ← seek h (fun bb => .ok (bb.next == some start)) fuel src.data_blocks with
    | none => return (h, src)
    | some bb =>
      let last ← load h stop
      let h ← store h bb last.next
      return (h, src)

/-- Whether the segment goes behind a node: `!bb->next || bb->next->block > start->block`. -/
def goesBehind (start : ℕ) (bb : Cell BackedBlock) : Except Fault Bool :=
  match bb.next with
  | none => .ok true
  | some next => do
    let next ← load h next
    let first ← load h start
    return next.val.block > first.val.block

/-- What `backed_block_list_move` does to `to`: the segment goes behind the first node that it can
go behind. -/
def putSegment (dst : ListHead) (start stop : ℕ) : Except Fault (Memory BackedBlock × ListHead) := do
  if dst.data_blocks = none then
    let h ← store h stop none
    return (h, { dst with data_blocks := some start })
  else
    match ← seek h (goesBehind h start) fuel dst.data_blocks with
    | none => return (h, dst)
    | some bb =>
      let cell ← load h bb
      let h ← store h stop cell.next
      let h ← store h bb (some start)
      return (h, dst)

/-- `backed_block_list_move`, with at most `fuel` passes of each loop: the memory and the two lists
after it, `from` first. -/
def backedBlockListMove (src dst : ListHead) (start stop : Option ℕ) :
    Except Fault (Memory BackedBlock × ListHead × ListHead) := do
  let start := if start = none then src.data_blocks else start
  let stop ← segmentEnd fuel h start stop
  match start, stop with
  | some start, some stop =>
    let (h, src) ← takeSegment fuel h { src with last_used := none } start stop
    let (h, dst) ← putSegment fuel h { dst with last_used := none } start stop
    return (h, src, dst)
  | _, _ => return (h, src, dst)

end InMemory

/-! ## The links -/

section

variable {h : Memory BackedBlock} {src dst : ListHead} {s e : BackedBlock} {q : Option ℕ}
  {before segment after l m : List BackedBlock}

/-- Values of linked cells are all that the test reads, besides the link of the node. -/
theorem goesBehind_eq {next : BackedBlock} (hs : ∃ n, h s.addr = some ⟨s, n⟩)
    (hnext : ∃ n, h next.addr = some ⟨next, n⟩) (bb : BackedBlock) :
    InMemory.goesBehind h s.addr ⟨bb, some next.addr⟩ = .ok (decide (next.block > s.block)) := by
  obtain ⟨n, hs⟩ := hs
  obtain ⟨n', hnext⟩ := hnext
  rw [InMemory.goesBehind]
  change (load h next.addr >>= fun c => load h s.addr >>= fun d => pure _) = _
  rw [load_eq hnext, load_eq hs]
  rfl

/-- Where `backed_block_list_move` puts a segment: behind the first node, if there is one, and those
after it that do not start behind the segment's start. -/
structure PutAt (start_block : UInt32) (pre post : List BackedBlock) : Prop where
  /-- Only an empty list is not entered. -/
  entered : pre = [] → post = []
  /-- The nodes after the first one that are passed. -/
  passed : ∀ d ∈ pre.tail, ¬ d.block > start_block
  /-- The node that is in the way. -/
  stops : ∀ d ∈ post.head?, d.block > start_block

/-- A segment is put in at one place behind the first node, the one of its first block. -/
theorem spliceBb_cut (start_block : UInt32) (segment : List BackedBlock) (bb : BackedBlock)
    (rest : List BackedBlock) :
    ∃ l post, rest = l ++ post ∧ PutAt start_block (bb :: l) post ∧
      spliceBb start_block segment bb rest = bb :: l ++ (segment ++ post) := by
  induction rest generalizing bb with
  | nil =>
    refine ⟨[], [], rfl, ⟨fun _ => rfl, List.forall_mem_nil _, fun d hd => nomatch hd⟩, ?_⟩
    rw [spliceBb, List.append_nil]
    rfl
  | cons next rest ih =>
    by_cases hnext : next.block > start_block
    · refine ⟨[], next :: rest, rfl, ⟨nofun, List.forall_mem_nil _, fun d hd => ?_⟩, ?_⟩
      · rw [← Option.some.inj hd]
        exact hnext
      · rw [spliceBb, if_pos hnext]
        rfl
    · obtain ⟨l, post, rfl, hput, heq⟩ := ih next
      refine ⟨next :: l, post, rfl, ⟨nofun, ?_, hput.stops⟩, ?_⟩
      · exact List.forall_mem_cons.mpr ⟨hnext, hput.passed⟩
      · change (if _ then _ else _) = _
        rw [if_neg hnext, heq]
        rfl

/-- The nodes of `to` after a segment has been put into it. -/
def putInto (segment : List BackedBlock) : List BackedBlock → List BackedBlock
  | [] => segment
  | bb :: rest => spliceBb ((segment.head?.map BackedBlock.block).getD 0) segment bb rest

/-- A segment is put into a list at the one place of its first block. -/
theorem putInto_cut (hs : segment.head? = some s) (l : List BackedBlock) :
    ∃ pre post, l = pre ++ post ∧ PutAt s.block pre post ∧
      putInto segment l = pre ++ (segment ++ post) := by
  cases l with
  | nil =>
    exact ⟨[], [], rfl, ⟨fun _ => rfl, List.forall_mem_nil _, fun d hd => nomatch hd⟩,
      (List.append_nil segment).symm⟩
  | cons bb rest =>
    obtain ⟨l, post, rfl, hput, heq⟩ := spliceBb_cut s.block segment bb rest
    refine ⟨bb :: l, post, rfl, hput, ?_⟩
    rw [putInto, hs]
    exact heq

/-- The loop that looks for the node in front of `start`. -/
theorem seek_before {x : BackedBlock} {fuel a : ℕ}
    (hl : Linked BackedBlock.addr h (l ++ x :: m) q) (hnext : entry BackedBlock.addr q m = some a)
    (hother : ∀ c ∈ l ++ [x], c.addr ≠ a) (hfuel : l.length < fuel) :
    seek h (fun bb => .ok (bb.next == some a)) fuel (entry BackedBlock.addr (some x.addr) l) =
      (.ok (some x.addr) : Except Fault (Option ℕ)) := by
  refine seek_eq hl hfuel (fun c _ d hd => congrArg _ ?_) ?_
  · exact beq_false_of_ne fun heq => hother d (List.mem_of_mem_tail hd) (Option.some.inj heq)
  · rw [hnext]
    exact congrArg _ (beq_self_eq_true _)

/-- The loop that looks for the node that the segment goes behind. -/
theorem seek_behind {x : BackedBlock} {fuel : ℕ} (hl : Linked BackedBlock.addr h (l ++ x :: m) none)
    (hs : ∃ n, h s.addr = some ⟨s, n⟩) (hput : PutAt s.block (l ++ [x]) m)
    (hfuel : l.length < fuel) :
    seek h (InMemory.goesBehind h s.addr) fuel (entry BackedBlock.addr (some x.addr) l) =
      .ok (some x.addr) := by
  refine seek_eq hl hfuel (fun c _ d hd => ?_) ?_
  · have hmem : d ∈ l ++ x :: m := by
      rw [List.append_cons]
      exact List.mem_append_left _ (List.mem_of_mem_tail hd)
    refine (goesBehind_eq hs (hl.exists_cell hmem) c).trans ?_
    exact congrArg _ (decide_eq_false (hput.passed d hd))
  · cases m with
    | nil => rfl
    | cons d m =>
      have hmem : d ∈ l ++ x :: d :: m :=
        List.mem_append_right _ (List.mem_cons_of_mem _ List.mem_cons_self)
      refine (goesBehind_eq hs (hl.exists_cell hmem) x).trans ?_
      exact congrArg _ (decide_eq_true (hput.stops d rfl))

/-- **Taking the segment** out of a list: what is before it is linked to what is after it. -/
theorem takeSegment_spec (src : ListHead)
    (hsrc : IsList BackedBlock.addr h src.data_blocks (before ++ (segment ++ after)))
    (hs : segment.head? = some s) (he : segment.getLast? = some e) :
    ∃ h' p, (∀ fuel, before.length ≤ fuel →
        InMemory.takeSegment fuel h src s.addr e.addr = .ok (h', { src with data_blocks := p })) ∧
      IsList BackedBlock.addr h' p (before ++ after) ∧
      ∀ a, (∀ b ∈ before, b.addr ≠ a) → h' a = h a := by
  have hentry : entry BackedBlock.addr none (segment ++ after) = some s.addr := by
    rw [entry_append, entry_of_head hs]
  have hlast : load h e.addr = (.ok ⟨e, entry BackedBlock.addr none after⟩ : Except Fault _) := by
    obtain ⟨l, rfl⟩ := List.getLast?_eq_some_iff.mp he
    have hcell := hsrc.2
    rw [List.append_assoc, ← List.append_assoc] at hcell
    exact load_eq hcell.cell
  cases before using List.reverseRecOn with
  | nil =>
    refine ⟨h, _, fun fuel _ => ?_, hsrc.suffix.suffix, fun a _ => rfl⟩
    rw [InMemory.takeSegment, if_pos (hsrc.1.trans hentry), hlast]
    rfl
  | append_singleton init x =>
    -- The nodes before the segment are not its first one.
    have hother : ∀ c ∈ init ++ [x], c.addr ≠ s.addr := fun c hc =>
      hsrc.addr_ne hc (List.mem_append_left _ (List.mem_of_mem_head? hs))
    rw [← List.append_cons] at hsrc ⊢
    have hp : src.data_blocks = entry BackedBlock.addr (some x.addr) init :=
      hsrc.1.trans entry_append_cons
    have hne : src.data_blocks ≠ some s.addr := by
      obtain ⟨c, hc, heq⟩ := exists_entry BackedBlock.addr init x
      rw [hp, heq]
      exact fun h => hother c hc (Option.some.inj h)
    have hkeep : ∀ c ∈ init ++ after, c.addr ≠ x.addr := fun c hc =>
      hsrc.others c ((List.Sublist.append_left (List.sublist_append_right _ _) _).subset hc)
    refine ⟨h.link x.addr (entry BackedBlock.addr none after), src.data_blocks, fun fuel hfuel => ?_,
      ⟨hp.trans entry_append_cons.symm, hsrc.2.cut hkeep⟩, fun a ha => ?_⟩
    · rw [List.length_append] at hfuel
      have hseek := seek_before hsrc.2 hentry hother hfuel
      rw [← hp] at hseek
      rw [InMemory.takeSegment, if_neg hne, hseek]
      change (load h e.addr >>= fun last => store h x.addr last.next >>= fun h => pure (h, src)) = _
      rw [hlast]
      change (store h x.addr (entry BackedBlock.addr none after) >>= fun h => pure (h, src)) = _
      rw [store_eq hsrc.2.cell]
      rfl
    · exact h.link_of_ne _ (ha x (List.mem_append_right _ (List.mem_singleton_self x))).symm

/-- **Putting the segment into a list** in memory ends with enough fuel, at the place of its first
block. -/
theorem putSegment_spec (dst : ListHead) (hdst : IsList BackedBlock.addr h dst.data_blocks l)
    (hseg : Linked BackedBlock.addr h segment q) (hs : segment.head? = some s)
    (he : segment.getLast? = some e) (hnd : (segment.map BackedBlock.addr).Nodup)
    (hsep : ∀ b ∈ segment, ∀ d ∈ l, b.addr ≠ d.addr) :
    ∃ h' p, (∀ fuel, l.length ≤ fuel →
        InMemory.putSegment fuel h dst s.addr e.addr = .ok (h', { dst with data_blocks := p })) ∧
      IsList BackedBlock.addr h' p (putInto segment l) ∧
      ∀ a, (∀ b ∈ segment, b.addr ≠ a) → (∀ d ∈ l, d.addr ≠ a) → h' a = h a := by
  obtain ⟨pre, post, rfl, hput, heq⟩ := putInto_cut hs l
  have hstart := hseg.exists_cell (List.mem_of_mem_head? hs)
  have hee := List.mem_of_getLast? he
  obtain ⟨n, hcell⟩ := hseg.exists_cell hee
  have hentry : entry BackedBlock.addr none segment = some s.addr := entry_of_head hs
  rw [heq]
  obtain ⟨m, rfl⟩ := List.getLast?_eq_some_iff.mp he
  have hm : ∀ c ∈ m, c.addr ≠ e.addr := by
    rw [List.map_append] at hnd
    exact fun c hc => (List.nodup_append.mp hnd).2.2 _ (List.mem_map_of_mem hc) _
      (List.mem_singleton_self _)
  cases pre using List.reverseRecOn with
  | nil =>
    -- In an empty list, the segment is all there is.
    obtain rfl := hput.entered rfl
    have hnull : dst.data_blocks = none := hdst.1
    rw [List.nil_append, List.append_nil]
    refine ⟨h.link e.addr none, some s.addr, fun fuel _ => ?_, ⟨hentry.symm, hseg.relink hm⟩,
      fun a ha _ => h.link_of_ne _ (ha e hee).symm⟩
    rw [InMemory.putSegment, if_pos hnull]
    rw [store_eq hcell]
    rfl
  | append_singleton init x =>
    simp only [← List.append_cons init] at hdst hsep ⊢
    -- The segment is linked between `x` and the nodes behind it.
    have hx : x ∈ init ++ x :: post := List.mem_append_right _ List.mem_cons_self
    have hp : dst.data_blocks = entry BackedBlock.addr (some x.addr) init :=
      hdst.1.trans entry_append_cons
    have hne : dst.data_blocks ≠ none := by
      obtain ⟨c, -, heq⟩ := exists_entry BackedBlock.addr init x
      rw [hp, heq]
      exact nofun
    refine ⟨(h.link e.addr (entry BackedBlock.addr none post)).link x.addr (some s.addr),
      dst.data_blocks, fun fuel hfuel => ?_, ⟨hp.trans entry_append_cons.symm, ?_⟩, fun a ha hd => ?_⟩
    · have hxe : x.addr ≠ e.addr := (hsep e hee x hx).symm
      have hlt : init.length < fuel := by
        rw [List.length_append, List.length_cons] at hfuel
        omega
      have hseek := seek_behind hdst.2 hstart hput hlt
      rw [← hp] at hseek
      rw [InMemory.putSegment, if_neg hne, hseek]
      change (load h x.addr >>= fun cell => store h e.addr cell.next >>= fun h =>
        store h x.addr (some s.addr) >>= fun h => pure (h, dst)) = _
      rw [load_eq hdst.2.cell]
      change (store h e.addr (entry BackedBlock.addr none post) >>= fun h =>
        store h x.addr (some s.addr) >>= fun h => pure (h, dst)) = _
      rw [store_eq hcell]
      change (store _ x.addr (some s.addr) >>= fun h => pure (h, dst)) = _
      rw [store_eq ((Memory.link_of_ne _ _ hxe).trans hdst.2.cell)]
      rfl
    · rw [← hentry]
      exact hdst.2.splice hseg hdst.others hm hsep
    · rw [Memory.link_of_ne _ _ (hd x hx).symm, Memory.link_of_ne _ _ (ha e hee).symm]

/-- `start` and `stop` are the ends of a segment: the addresses of its first and its last node, or
null pointers for the head and for the end of the list. -/
structure Selects (before segment after : List BackedBlock) (start stop : Option ℕ) : Prop where
  /-- Where the segment starts. -/
  start_eq : start = none ∧ before = [] ∨ ∃ s ∈ segment.head?, start = some s.addr
  /-- Where it ends. -/
  stop_eq : stop = none ∧ after = [] ∨ ∃ e ∈ segment.getLast?, stop = some e.addr

variable {ds : List BackedBlock} {start stop : Option ℕ}

/-- An empty segment is a whole list without nodes, between null pointers. -/
theorem Selects.of_empty (hsel : Selects before [] after start stop) :
    before = [] ∧ after = [] ∧ start = none ∧ stop = none := by
  obtain ⟨rfl, rfl⟩ : start = none ∧ before = [] :=
    hsel.start_eq.resolve_right fun ⟨_, hs, _⟩ => nomatch hs
  obtain ⟨rfl, rfl⟩ : stop = none ∧ after = [] :=
    hsel.stop_eq.resolve_right fun ⟨_, he, _⟩ => nomatch he
  exact ⟨rfl, rfl, rfl, rfl⟩

/-- Without nodes there is nothing to move. -/
theorem move_empty (hsrc : src.data_blocks = none) (dst : ListHead) (fuel : ℕ) :
    InMemory.backedBlockListMove fuel h src dst none none = .ok (h, src, dst) := by
  rw [InMemory.backedBlockListMove, if_pos rfl, InMemory.segmentEnd, if_pos rfl, hsrc]
  cases fuel <;> rfl

/-- The ends that `backed_block_list_move` works with, where null pointers are given. -/
theorem move_ends (hsrc : IsList BackedBlock.addr h src.data_blocks (before ++ (segment ++ after)))
    (hsel : Selects before segment after start stop) (hs : segment.head? = some s)
    (he : segment.getLast? = some e) {fuel : ℕ} (hfuel : segment.length ≤ fuel) :
    InMemory.backedBlockListMove fuel h src dst start stop = (do
      let (h, src) ← InMemory.takeSegment fuel h { src with last_used := none } s.addr e.addr
      let (h, dst) ← InMemory.putSegment fuel h { dst with last_used := none } s.addr e.addr
      return (h, src, dst)) := by
  have hstart : (if start = none then src.data_blocks else start) = some s.addr := by
    rcases hsel.start_eq with ⟨rfl, rfl⟩ | ⟨s', hs', rfl⟩
    · rw [if_pos rfl, hsrc.1, List.nil_append, entry_append, entry_of_head hs]
    · rw [if_neg nofun, Option.some.inj (hs.symm.trans hs')]
  have hstop : InMemory.segmentEnd fuel h (some s.addr) stop = .ok (some e.addr) := by
    rcases hsel.stop_eq with ⟨rfl, rfl⟩ | ⟨e', he', rfl⟩
    · obtain ⟨m, rfl⟩ := List.getLast?_eq_some_iff.mp he
      have hlink := (linked_append.mp hsrc.2).2
      rw [List.append_nil] at hlink
      have hp : entry BackedBlock.addr (some e.addr) m = some s.addr :=
        (@entry_append_cons _ _ m [] e none).symm.trans (entry_of_head hs)
      rw [InMemory.segmentEnd, if_pos rfl, ← hp]
      refine seek_eq hlink ?_ (fun c _ d _ => rfl) rfl
      rwa [List.length_append] at hfuel
    · rw [InMemory.segmentEnd, if_neg nofun, Option.some.inj (he.symm.trans he')]
  rw [InMemory.backedBlockListMove, hstart, hstop]
  rfl

/-- **Moving a segment in memory** leaves the rest of the source list, and the segment at its place
in the other. -/
theorem move_links (hsrc : IsList BackedBlock.addr h src.data_blocks (before ++ (segment ++ after)))
    (hdst : IsList BackedBlock.addr h dst.data_blocks ds)
    (hsel : Selects before segment after start stop) (hne : segment ≠ [])
    (hsep : ∀ b ∈ before ++ (segment ++ after), ∀ d ∈ ds, b.addr ≠ d.addr) :
    ∃ h' p p', (∀ fuel, before.length + segment.length + ds.length ≤ fuel →
        InMemory.backedBlockListMove fuel h src dst start stop = .ok (h',
          { src with data_blocks := p, last_used := none },
          { dst with data_blocks := p', last_used := none })) ∧
      IsList BackedBlock.addr h' p (before ++ after) ∧
      IsList BackedBlock.addr h' p' (putInto segment ds) ∧
      ∀ a, (∀ b ∈ before ++ (segment ++ after), b.addr ≠ a) → (∀ d ∈ ds, d.addr ≠ a) →
        h' a = h a := by
  obtain ⟨s, hs⟩ := Option.ne_none_iff_exists'.mp (mt List.head?_eq_none_iff.mp hne)
  obtain ⟨e, he⟩ := Option.ne_none_iff_exists'.mp (mt List.getLast?_eq_none_iff.mp hne)
  have hseg := (linked_append.mp (linked_append.mp hsrc.2).2).1
  have hnd : (segment.map BackedBlock.addr).Nodup := by
    have hall := hsrc.suffix.nodup
    rw [List.map_append] at hall
    exact (List.nodup_append.mp hall).1
  obtain ⟨h₁, p, htake, hfrom, hframe⟩ :=
    takeSegment_spec { src with last_used := none } hsrc hs he
  -- Neither the segment nor the other list is before the segment.
  have hseg₁ : Linked BackedBlock.addr h₁ segment (entry BackedBlock.addr none after) :=
    hseg.congr fun b hb => hframe _ fun c hc => hsrc.addr_ne hc (List.mem_append_left _ hb)
  have hdst₁ : IsList BackedBlock.addr h₁ dst.data_blocks ds := by
    refine ⟨hdst.1, hdst.2.congr fun d hd => hframe _ fun c hc => ?_⟩
    exact hsep c (List.mem_append_left _ hc) d hd
  have hsep₁ : ∀ b ∈ segment, ∀ d ∈ ds, b.addr ≠ d.addr := fun b hb =>
    hsep b (List.mem_append_right _ (List.mem_append_left _ hb))
  obtain ⟨h₂, p', hput, hto, hframe'⟩ :=
    putSegment_spec { dst with last_used := none } hdst₁ hseg₁ hs he hnd hsep₁
  refine ⟨h₂, p, p', fun fuel hfuel => ?_, ⟨hfrom.1, hfrom.2.congr fun b hb => ?_⟩, hto,
    fun a ha hd => ?_⟩
  · rw [move_ends hsrc hsel hs he (by omega), htake fuel (by omega)]
    change (InMemory.putSegment fuel h₁ _ s.addr e.addr >>= fun r => _) = _
    rw [hput fuel (by omega)]
    rfl
  · refine hframe' _ (fun c hc => ?_) fun d hd => ?_
    · rcases List.mem_append.mp hb with hb | hb
      · exact (hsrc.addr_ne hb (List.mem_append_left _ hc)).symm
      · exact hsrc.suffix.addr_ne hc hb
    · have hmem : b ∈ before ++ (segment ++ after) :=
        ((List.sublist_append_right _ _).append_left _).subset hb
      exact (hsep b hmem d hd).symm
  · rw [hframe' a (fun b hb => ha b (List.mem_append_right _ (List.mem_append_left _ hb))) hd,
      hframe a fun b hb => ha b (List.mem_append_left _ hb)]

/-! ## The lists -/

/-- A search by address stops at the first node that has it. -/
theorem span_addr (hl : ∀ c ∈ l, c.addr ≠ s.addr) :
    (l ++ s :: m).span (fun c => decide (c.addr ≠ s.addr)) = (l, s :: m) := by
  have hpos : ∀ c ∈ l, decide (c.addr ≠ s.addr) = true := fun c hc => decide_eq_true (hl c hc)
  have hneg : decide (s.addr ≠ s.addr) = false := decide_eq_false (not_not.mpr rfl)
  rw [List.span_eq_takeWhile_dropWhile, List.takeWhile_append_of_pos hpos,
    List.dropWhile_append_of_pos hpos, List.takeWhile_cons, List.dropWhile_cons, hneg]
  simp

/-- The segment that its ends select. -/
theorem cutSegment_eq (hnd : ((before ++ (segment ++ after)).map BackedBlock.addr).Nodup)
    (hsel : Selects before segment after start stop) (hs : segment.head? = some s)
    (he : segment.getLast? = some e) :
    cutSegment (before ++ (segment ++ after)) start stop = some (before, segment, after) := by
  rw [List.map_append, List.map_append] at hnd
  obtain ⟨-, hnodup, hapart⟩ := List.nodup_append.mp hnd
  obtain ⟨t, ht⟩ := List.head?_eq_some_iff.mp hs
  obtain ⟨m, hm⟩ := List.getLast?_eq_some_iff.mp he
  unfold cutSegment
  split
  rename_i before' tail heq
  -- `start` names the first node of the segment, or is NULL for the head.
  obtain ⟨rfl, rfl⟩ : before' = before ∧ tail = segment ++ after := by
    rw [← Prod.mk.injEq, ← heq]
    rcases hsel.start_eq with ⟨rfl, rfl⟩ | ⟨s', hs', rfl⟩
    · rfl
    · obtain rfl := Option.some.inj (hs.symm.trans hs')
      rw [ht, List.cons_append]
      refine span_addr fun c hc => hapart _ (List.mem_map_of_mem hc) _ ?_
      rw [ht]
      exact List.mem_append_left _ List.mem_cons_self
  split
  · rename_i hnil
    rw [ht] at hnil
    exact nomatch hnil
  · -- `stop` names the last one, or is NULL for all that is left.
    rcases hsel.stop_eq with ⟨rfl, rfl⟩ | ⟨e', he', rfl⟩
    · rw [List.append_nil]
    · obtain rfl := Option.some.inj (he.symm.trans he')
      have hspan : (segment ++ after).span (fun c => decide (c.addr ≠ e.addr)) =
          (m, e :: after) := by
        rw [hm, List.append_assoc]
        refine span_addr fun c hc => ?_
        rw [hm, List.map_append] at hnodup
        exact (List.nodup_append.mp (List.nodup_append.mp hnodup).1).2.2 _ (List.mem_map_of_mem hc)
          _ (List.mem_singleton_self _)
      simp only [hspan]
      rw [← hm]

/-- What `backed_block_list_move` does to the lists. -/
theorem backedBlockListMove_eq {from_list : BackedBlockList}
    (heq : from_list.data_blocks = before ++ (segment ++ after))
    (hnd : ((before ++ (segment ++ after)).map BackedBlock.addr).Nodup)
    (hsel : Selects before segment after start stop) (hne : segment ≠ []) (to_list : BackedBlockList) :
    backedBlockListMove from_list to_list start stop =
      ({ from_list with data_blocks := before ++ after, last_used := none },
        { to_list with
          data_blocks := putInto segment to_list.data_blocks, last_used := none
          next_addr := max to_list.next_addr from_list.next_addr }) := by
  obtain ⟨s, hs⟩ := Option.ne_none_iff_exists'.mp (mt List.head?_eq_none_iff.mp hne)
  obtain ⟨e, he⟩ := Option.ne_none_iff_exists'.mp (mt List.getLast?_eq_none_iff.mp hne)
  unfold backedBlockListMove
  rw [heq, cutSegment_eq hnd hsel hs he]
  cases to_list.data_blocks <;> rfl

/-- **Moving the nodes up to one** into an empty list. -/
theorem backedBlockListMove_front {src dst : BackedBlockList} {pre post : List BackedBlock}
    {bb : BackedBlock} (hdst : dst.data_blocks = []) (hsrc : src.data_blocks = pre ++ bb :: post)
    (hnd : ((pre ++ bb :: post).map BackedBlock.addr).Nodup) :
    backedBlockListMove src dst (src.data_blocks.head?.map BackedBlock.addr) (some bb.addr) =
      ({ src with data_blocks := post, last_used := none },
        { dst with data_blocks := pre ++ [bb], last_used := none,
                   next_addr := max dst.next_addr src.next_addr }) := by
  rw [List.append_cons] at hsrc hnd
  obtain ⟨s, t, hcons⟩ : ∃ s t, pre ++ [bb] = s :: t := by
    cases pre <;> exact ⟨_, _, rfl⟩
  have hsel : Selects [] (pre ++ [bb]) post (src.data_blocks.head?.map BackedBlock.addr)
      (some bb.addr) := by
    refine ⟨Or.inr ⟨s, by rw [hcons]; rfl, by rw [hsrc, hcons]; rfl⟩, Or.inr ⟨bb, ?_, rfl⟩⟩
    exact List.getLast?_concat
  rw [@backedBlockListMove_eq [] (pre ++ [bb]) post _ _ src hsrc hnd hsel (by simp) dst, hdst]
  rfl

/-- Nodes that all start behind a list are spliced in at its end. -/
theorem spliceBb_end {start_block : UInt32} {segment rest : List BackedBlock} {bb : BackedBlock}
    (h : ∀ c ∈ rest, c.block ≤ start_block) :
    spliceBb start_block segment bb rest = bb :: rest ++ segment := by
  induction rest generalizing bb with
  | nil => rfl
  | cons c rest ih =>
    rw [spliceBb, if_neg (UInt32.not_lt.mpr (h c List.mem_cons_self)),
      ih fun d hd => h d (List.mem_cons_of_mem _ hd)]
    rfl

/-- **Moving a whole list** behind another one, when no block of it is below one of the other. -/
theorem backedBlockListMove_append {src dst : BackedBlockList}
    (hs : (dst.data_blocks ++ src.data_blocks).Pairwise fun a b => a.block ≤ b.block) :
    (backedBlockListMove src dst none none).2.data_blocks = dst.data_blocks ++ src.data_blocks ∧
      dst.next_addr ≤ (backedBlockListMove src dst none none).2.next_addr := by
  unfold backedBlockListMove cutSegment
  cases hsrc : src.data_blocks with
  | nil =>
    rw [List.append_nil]
    exact ⟨rfl, Nat.le_refl _⟩
  | cons c tail =>
    cases hdst : dst.data_blocks with
    | nil => exact ⟨rfl, Nat.le_max_left _ _⟩
    | cons d rest =>
      refine ⟨spliceBb_end fun e he => ?_, Nat.le_max_left _ _⟩
      rw [hsrc, hdst] at hs
      exact (List.pairwise_append.mp hs).2.2 e (List.mem_cons_of_mem _ he) c List.mem_cons_self

/-- The list is put behind another one when all are in strictly increasing order. -/
theorem backedBlockListMove_all {src dst : BackedBlockList}
    (hs : Sorted (dst.data_blocks ++ src.data_blocks)) :
    (backedBlockListMove src dst none none).2.data_blocks = dst.data_blocks ++ src.data_blocks ∧
      dst.next_addr ≤ (backedBlockListMove src dst none none).2.next_addr :=
  backedBlockListMove_append (hs.imp UInt32.le_of_lt)

/-- Moving a list leaves the block size of the other one. -/
theorem backedBlockListMove_block_size (src dst : BackedBlockList) :
    (backedBlockListMove src dst none none).2.block_size = dst.block_size := by
  unfold backedBlockListMove
  split <;> rfl

/-- A list of nodes in memory. -/
structure Represents (h : Memory BackedBlock) (head : ListHead) (bbl : BackedBlockList) : Prop where
  /-- Its nodes are linked from `data_blocks` on. -/
  nodes : IsList BackedBlock.addr h head.data_blocks bbl.data_blocks
  /-- `last_used`. -/
  last_used : head.last_used = bbl.last_used
  /-- `block_size`. -/
  block_size : head.block_size = bbl.block_size

/-- **The lists are those in memory.** What `backed_block_list_move` does to the links is what
`backedBlockListMove` does to the lists of nodes, for lists that share no node. -/
theorem represents_move {from_list to_list : BackedBlockList} (hsrc : Represents h src from_list)
    (hdst : Represents h dst to_list) (heq : from_list.data_blocks = before ++ (segment ++ after))
    (hsel : Selects before segment after start stop)
    (hsep : ∀ b ∈ from_list.data_blocks, ∀ d ∈ to_list.data_blocks, b.addr ≠ d.addr) :
    ∃ h' src' dst', (∀ fuel, from_list.data_blocks.length + to_list.data_blocks.length ≤ fuel →
        InMemory.backedBlockListMove fuel h src dst start stop = .ok (h', src', dst')) ∧
      Represents h' src' (backedBlockListMove from_list to_list start stop).1 ∧
      Represents h' dst' (backedBlockListMove from_list to_list start stop).2 ∧
      ∀ a, (∀ b ∈ from_list.data_blocks, b.addr ≠ a) → (∀ d ∈ to_list.data_blocks, d.addr ≠ a) →
        h' a = h a := by
  have hnodes := hsrc.nodes
  rw [heq] at hnodes hsep ⊢
  by_cases hne : segment = []
  · subst hne
    obtain ⟨rfl, rfl, rfl, rfl⟩ := hsel.of_empty
    have hsame : backedBlockListMove from_list to_list none none = (from_list, to_list) := by
      unfold backedBlockListMove
      rw [heq]
      rfl
    rw [hsame]
    exact ⟨h, src, dst, fun fuel _ => move_empty hnodes.1 dst fuel, hsrc, hdst, fun _ _ _ => rfl⟩
  · obtain ⟨h', p, p', hrun, hfrom, hto, hframe⟩ := move_links hnodes hdst.nodes hsel hne hsep
    rw [backedBlockListMove_eq heq hnodes.nodup hsel hne]
    refine ⟨h', _, _, fun fuel hfuel => hrun fuel ?_, ⟨hfrom, rfl, hsrc.block_size⟩,
      ⟨hto, rfl, hdst.block_size⟩, hframe⟩
    rw [List.length_append, List.length_append] at hfuel
    omega

/-! ## The order -/

/-- Putting in an empty segment changes nothing. -/
theorem putInto_nil (l : List BackedBlock) : putInto [] l = l := by
  cases l with
  | nil => rfl
  | cons bb rest =>
    obtain ⟨l, post, rfl, -, heq⟩ := spliceBb_cut 0 [] bb rest
    exact heq

/-- No node is lost and none is doubled. -/
theorem putInto_perm (segment l : List BackedBlock) : (putInto segment l).Perm (l ++ segment) := by
  cases hs : segment.head? with
  | none =>
    rw [List.head?_eq_none_iff.mp hs, putInto_nil, List.append_nil]
  | some s =>
    obtain ⟨pre, post, rfl, -, heq⟩ := putInto_cut hs l
    rw [heq, List.append_assoc]
    exact List.perm_append_comm.append_left pre

/-- The first node of a list in order is the lowest. -/
theorem Sorted.head_le (h : Sorted l) {s : BackedBlock} (hs : s ∈ l.head?) :
    ∀ b ∈ l, s.block ≤ b.block := by
  obtain ⟨t, rfl⟩ := List.head?_eq_some_iff.mp hs
  exact List.forall_mem_cons.mpr ⟨UInt32.le_refl _, fun b hb =>
    UInt32.le_of_lt ((List.pairwise_cons.mp h).1 b hb)⟩

/-- The last node of a list in order is the highest. -/
theorem Sorted.le_getLast (h : Sorted l) {e : BackedBlock} (he : e ∈ l.getLast?) :
    ∀ b ∈ l, b.block ≤ e.block := by
  obtain ⟨m, rfl⟩ := List.getLast?_eq_some_iff.mp he
  refine List.forall_mem_append.mpr ⟨fun b hb => UInt32.le_of_lt ?_, ?_⟩
  · exact (List.pairwise_append.mp h).2.2 b hb e (List.mem_singleton_self e)
  · exact List.forall_mem_singleton.mpr (UInt32.le_refl _)

/-- **The order after the move.** A list without a block between those of the segment stays in order
exactly when the segment does not go in front of its first node. -/
theorem putInto_sorted_iff (hseg : Sorted segment) (hl : Sorted l)
    (hne : ∀ b ∈ segment, ∀ d ∈ l, b.block ≠ d.block)
    (hgap : ∀ s ∈ segment.head?, ∀ e ∈ segment.getLast?, ∀ d ∈ l,
      ¬ (s.block < d.block ∧ d.block < e.block)) :
    Sorted (putInto segment l) ↔ ∀ d ∈ l.head?, ∀ s ∈ segment.head?, d.block < s.block := by
  cases hs : segment.head? with
  | none =>
    rw [List.head?_eq_none_iff.mp hs, putInto_nil]
    exact ⟨fun _ _ _ _ hs => (nomatch hs), fun _ => hl⟩
  | some s =>
    obtain ⟨e, he⟩ := Option.ne_none_iff_exists'.mp
      (mt List.getLast?_eq_none_iff.mp (List.ne_nil_of_mem (List.mem_of_mem_head? hs)))
    obtain ⟨pre, post, rfl, hput, heq⟩ := putInto_cut hs l
    obtain ⟨hpre, hpost, hacross⟩ := List.pairwise_append.mp hl
    rw [heq]
    constructor
    · intro hsorted d hd s' hs'
      obtain rfl := Option.some.inj hs'
      have hmem : d ∈ pre := by
        cases pre with
        | nil => rw [hput.entered rfl] at hd; exact nomatch hd
        | cons c pre => rw [← Option.some.inj hd]; exact List.mem_cons_self
      exact (List.pairwise_append.mp hsorted).2.2 d hmem s
        (List.mem_append_left _ (List.mem_of_mem_head? hs))
    · intro hhead
      -- What is passed starts before the segment, and so does the first node.
      have hbefore : ∀ c ∈ pre, c.block < s.block := by
        intro c hc
        cases pre with
        | nil => exact nomatch hc
        | cons d pre =>
          rcases List.mem_cons.mp hc with rfl | htail
          · exact hhead c rfl s rfl
          · refine UInt32.lt_of_le_of_ne (UInt32.not_lt.mp (hput.passed c htail)) fun hc' => ?_
            exact hne s (List.mem_of_mem_head? hs) c (List.mem_append_left _ hc) hc'.symm
      -- What is in the way starts behind its start, and hence behind its end.
      have hafter : ∀ c ∈ post, e.block < c.block := by
        intro c hc
        have hstart : s.block < c.block := by
          cases post with
          | nil => exact nomatch hc
          | cons d post =>
            have hd : s.block < d.block := hput.stops d rfl
            rcases List.mem_cons.mp hc with rfl | htail
            · exact hd
            · exact UInt32.lt_trans hd ((List.pairwise_cons.mp hpost).1 c htail)
        have hmem : c ∈ pre ++ post := List.mem_append_right _ hc
        have hge : e.block ≤ c.block :=
          UInt32.not_lt.mp fun hlt => hgap s hs e he c hmem ⟨hstart, hlt⟩
        exact UInt32.lt_of_le_of_ne hge (hne e (List.mem_of_getLast? he) c hmem)
      refine List.pairwise_append.mpr ⟨hpre, List.pairwise_append.mpr ⟨hseg, hpost, ?_⟩, ?_⟩
      · exact fun b hb c hc => UInt32.lt_of_le_of_lt (hseg.le_getLast he b hb) (hafter c hc)
      · intro c hc b hb
        rcases List.mem_append.mp hb with hb | hb
        · exact UInt32.lt_of_lt_of_le (hbefore c hc) (hseg.head_le hs b hb)
        · exact hacross c hc b hb

/-! ## The promise -/

/-- What is promised of a move of `segment`: it ends, `kept` is left of `from`, and `to` is in
strictly increasing order and has its old nodes and those of the segment, each once. -/
def MovesInOrder (h : Memory BackedBlock) (src dst : ListHead) (start stop : Option ℕ)
    (kept segment ds : List BackedBlock) : Prop :=
  ∃ h' src' dst' moved,
    (∃ n, ∀ fuel ≥ n, InMemory.backedBlockListMove fuel h src dst start stop = .ok (h', src', dst')) ∧
      IsList BackedBlock.addr h' src'.data_blocks kept ∧
      IsList BackedBlock.addr h' dst'.data_blocks moved ∧ Sorted moved ∧
      moved.Perm (ds ++ segment) ∧ ((kept ++ moved).map BackedBlock.addr).Nodup

/-- Lists without a common block share no node. -/
theorem addr_ne_of_block {p p' : Option ℕ} (hl : IsList BackedBlock.addr h p l)
    (hm : IsList BackedBlock.addr h p' m) (hne : ∀ b ∈ l, ∀ d ∈ m, b.block ≠ d.block) :
    ∀ b ∈ l, ∀ d ∈ m, b.addr ≠ d.addr := fun b hb d hd heq =>
  hne b hb d hd (congrArg BackedBlock.block (hl.2.eq_of_addr hm.2 hb hd heq))

/-- Of what is promised, only the order can fail. -/
theorem movesInOrder_iff_sorted
    (hsrc : IsList BackedBlock.addr h src.data_blocks (before ++ (segment ++ after)))
    (hdst : IsList BackedBlock.addr h dst.data_blocks ds)
    (hsel : Selects before segment after start stop)
    (hsep : ∀ b ∈ before ++ (segment ++ after), ∀ d ∈ ds, b.addr ≠ d.addr) :
    MovesInOrder h src dst start stop (before ++ after) segment ds ↔
      Sorted (putInto segment ds) := by
  have hmoved : ∃ h' src' dst',
      (∀ fuel, before.length + segment.length + ds.length ≤ fuel →
        InMemory.backedBlockListMove fuel h src dst start stop = .ok (h', src', dst')) ∧
      IsList BackedBlock.addr h' src'.data_blocks (before ++ after) ∧
      IsList BackedBlock.addr h' dst'.data_blocks (putInto segment ds) := by
    by_cases hne : segment = []
    · subst hne
      obtain ⟨rfl, rfl, rfl, rfl⟩ := hsel.of_empty
      rw [putInto_nil]
      exact ⟨h, src, dst, fun fuel _ => move_empty hsrc.1 dst fuel, hsrc, hdst⟩
    · obtain ⟨h', p, p', hrun, hfrom, hto, -⟩ := move_links hsrc hdst hsel hne hsep
      exact ⟨h', _, _, hrun, hfrom, hto⟩
  obtain ⟨h', src', dst', hrun, hfrom, hto⟩ := hmoved
  constructor
  · rintro ⟨h'', src'', dst'', moved, ⟨n, hn⟩, -, hmoved, hsorted, -, -⟩
    -- The run is the same one, and so is the list that it leaves.
    have hsame := (hrun _ (Nat.le_add_right _ n)).symm.trans (hn _ (Nat.le_add_left _ _))
    obtain ⟨rfl, rfl, rfl⟩ : h' = h'' ∧ src' = src'' ∧ dst' = dst'' := by simpa using hsame
    rw [hto.unique hmoved]
    exact hsorted
  · intro hsorted
    refine ⟨h', src', dst', putInto segment ds, ⟨_, hrun⟩, hfrom, hto, hsorted,
      putInto_perm segment ds, ?_⟩
    have hall : ((before ++ (segment ++ after) ++ ds).map BackedBlock.addr).Nodup := by
      rw [List.map_append]
      refine List.nodup_append.mpr ⟨hsrc.nodup, hdst.nodup, fun a ha b hb => ?_⟩
      obtain ⟨c, hc, rfl⟩ := List.mem_map.mp ha
      obtain ⟨d, hd, rfl⟩ := List.mem_map.mp hb
      exact hsep c hc d hd
    refine (List.Perm.map _ ?_).nodup_iff.mp hall
    have hswap : (before ++ (segment ++ after) ++ ds).Perm (before ++ after ++ (ds ++ segment)) := by
      simp only [List.append_assoc]
      rw [← List.append_assoc after]
      exact List.perm_append_comm.append_left before
    exact hswap.trans ((putInto_perm segment ds).symm.append_left _)

/-- **Moving a segment keeps both lists in order** exactly when there is nothing to move or the list
that it goes to is empty or starts before it: the head of that list is not compared, so that the
segment is never put in front of it. -/
theorem movesInOrder_iff
    (hsrc : IsList BackedBlock.addr h src.data_blocks (before ++ (segment ++ after)))
    (hdst : IsList BackedBlock.addr h dst.data_blocks ds)
    (hs : Sorted (before ++ (segment ++ after))) (hd : Sorted ds)
    (hne : ∀ b ∈ before ++ (segment ++ after), ∀ d ∈ ds, b.block ≠ d.block)
    (hsel : Selects before segment after start stop)
    (hgap : ∀ s ∈ segment.head?, ∀ e ∈ segment.getLast?, ∀ d ∈ ds,
      ¬ (s.block < d.block ∧ d.block < e.block)) :
    MovesInOrder h src dst start stop (before ++ after) segment ds ↔
      ∀ d ∈ ds.head?, ∀ s ∈ segment.head?, d.block < s.block := by
  have hseg : Sorted segment :=
    (List.pairwise_append.mp (List.pairwise_append.mp hs).2.1).1
  rw [movesInOrder_iff_sorted hsrc hdst hsel (addr_ne_of_block hsrc hdst hne)]
  exact putInto_sorted_iff hseg hd
    (fun b hb => hne b (List.mem_append_right _ (List.mem_append_left _ hb))) hgap

end

/-! ## Two lists -/

/-- Two nodes, each alone in its list. -/
def loneNodes (a b : BackedBlock) : Memory BackedBlock := fun p =>
  if p = a.addr then some ⟨a, none⟩ else if p = b.addr then some ⟨b, none⟩ else none

/-- The head of a list that starts with a node. -/
def headOf (a : BackedBlock) : ListHead := ⟨some a.addr, none, 4096⟩

/-- The first of two lone nodes is a list of its own. -/
theorem loneNodes_fst (a b : BackedBlock) :
    IsList BackedBlock.addr (loneNodes a b) (headOf a).data_blocks [a] :=
  ⟨rfl, if_pos rfl, trivial⟩

/-- The second of two lone nodes is a list of its own when its address is another one. -/
theorem loneNodes_snd {a b : BackedBlock} (hne : b.addr ≠ a.addr) :
    IsList BackedBlock.addr (loneNodes a b) (headOf b).data_blocks [b] :=
  ⟨rfl, (if_neg hne).trans (if_pos rfl), trivial⟩

/-- A block of zeros, number 5, and one at the number 3. -/
def block5 : BackedBlock := ⟨0, 5, 4096, .fill 0⟩

@[inherit_doc block5]
def block3 : BackedBlock := ⟨1, 3, 4096, .fill 0⟩

/-- Cells in a row of which each is linked to the next one, over other memory. -/
def layOut : List BackedBlock → Memory BackedBlock → Memory BackedBlock
  | [], h => h
  | b :: rest, h => fun p =>
    if p = b.addr then some ⟨b, entry BackedBlock.addr none rest⟩ else layOut rest h p

/-- A list of the blocks 1, 5, 6 and 9, and one of the blocks 3 and 8. -/
def sixNodes : Memory BackedBlock :=
  layOut [⟨0, 1, 4096, .fill 0⟩, ⟨1, 5, 4096, .fill 0⟩, ⟨2, 6, 4096, .fill 1⟩, ⟨3, 9, 4096, .fill 0⟩]
    (layOut [⟨4, 3, 4096, .fill 0⟩, ⟨5, 8, 4096, .fill 0⟩] fun _ => none)

/-- The blocks 5 and 6 moved out of the middle of the first list into the middle of the second. -/
theorem movesInOrder_middle : MovesInOrder sixNodes ⟨some 0, none, 4096⟩ ⟨some 4, none, 4096⟩
    (some 1) (some 2) ([⟨0, 1, 4096, .fill 0⟩] ++ [⟨3, 9, 4096, .fill 0⟩])
    [⟨1, 5, 4096, .fill 0⟩, ⟨2, 6, 4096, .fill 1⟩]
    [⟨4, 3, 4096, .fill 0⟩, ⟨5, 8, 4096, .fill 0⟩] := by
  have hsrc : IsList BackedBlock.addr sixNodes (some 0) ([⟨0, 1, 4096, .fill 0⟩] ++
      ([⟨1, 5, 4096, .fill 0⟩, ⟨2, 6, 4096, .fill 1⟩] ++ [⟨3, 9, 4096, .fill 0⟩])) :=
    ⟨rfl, rfl, rfl, rfl, rfl, trivial⟩
  have hdst : IsList BackedBlock.addr sixNodes (some 4)
      [⟨4, 3, 4096, .fill 0⟩, ⟨5, 8, 4096, .fill 0⟩] := ⟨rfl, rfl, rfl, trivial⟩
  have hsel : Selects [⟨0, 1, 4096, .fill 0⟩] [⟨1, 5, 4096, .fill 0⟩, ⟨2, 6, 4096, .fill 1⟩]
      [⟨3, 9, 4096, .fill 0⟩] (some 1) (some 2) := ⟨.inr ⟨_, rfl, rfl⟩, .inr ⟨_, rfl, rfl⟩⟩
  exact (movesInOrder_iff hsrc hdst (by unfold Sorted; decide) (by unfold Sorted; decide)
    (by decide) hsel (by decide)).mpr (by decide)

/-- Block 3 is moved behind block 5, too: whole lists without a common block, and the one that block 3
goes to is out of order. -/
theorem head_is_not_compared :
    IsList BackedBlock.addr (loneNodes block3 block5) (headOf block3).data_blocks [block3] ∧
      IsList BackedBlock.addr (loneNodes block3 block5) (headOf block5).data_blocks [block5] ∧
      Sorted [block3] ∧ Sorted [block5] ∧ block3.block ≠ block5.block ∧
      Selects [] [block3] [] none none ∧
      ¬ MovesInOrder (loneNodes block3 block5) (headOf block3) (headOf block5) none none []
        [block3] [block5] := by
  have hsel : Selects [] [block3] [] none none := ⟨.inl ⟨rfl, rfl⟩, .inl ⟨rfl, rfl⟩⟩
  have hsrc := loneNodes_fst block3 block5
  have hdst := @loneNodes_snd block3 block5 (by decide)
  refine ⟨hsrc, hdst, List.pairwise_singleton _ _, List.pairwise_singleton _ _, by decide, hsel, ?_⟩
  refine fun hmoves => absurd ((movesInOrder_iff_sorted hsrc hdst hsel (by decide)).mp hmoves) ?_
  exact fun hsorted => absurd ((List.pairwise_cons.mp hsorted).1 block3 List.mem_cons_self) (by decide)

end AmlogicToolkit.Simg
