import AmlogicToolkit.Lib.Results
import Mathlib.Data.Nat.Notation
import Mathlib.Data.Int.Notation

/-!
# The backed block list

The linked list of `backed_block.c`. A node is a `BackedBlock` with the address that `calloc` gave
it, and a list is its nodes in the order of their links. `last_used` is an address, so that it can
dangle: a search that starts at an address no node has is a `useAfterFree`. Lengths and block
numbers are `unsigned int`, hence `UInt32`, and file offsets are `int64_t`, taken as integers.

A C function that can stop the program is a function into `Except Fault`. Allocations succeed.
-/

namespace AmlogicToolkit.Simg

/-- How the program can stop without returning. -/
inductive Fault where
  /-- An `assert` that does not hold. -/
  | assertion
  /-- A division or a remainder by zero. -/
  | divByZero
  /-- An access through a pointer to a node that is not in the list. -/
  | useAfterFree
  /-- An access outside an array. -/
  | outOfBounds
  /-- A loop that does not end. -/
  | diverges
  deriving DecidableEq, Repr

/-- `enum backed_block_type`: what a block is made from. -/
inductive BackedBlockType where
  /-- `BACKED_BLOCK_DATA`. -/
  | data
  /-- `BACKED_BLOCK_FILE`. -/
  | file
  /-- `BACKED_BLOCK_FD`. -/
  | fd
  /-- `BACKED_BLOCK_FILL`. -/
  | fill
  deriving DecidableEq

/-- The type of a block with the member of its union: a pointer, a file name or a descriptor with
an offset, or a fill word. -/
inductive BlockSource where
  /-- `data.data`. -/
  | data (data : ℕ)
  /-- `file.filename` and `file.offset`. -/
  | file (filename : String) (offset : ℤ)
  /-- `fd.fd` and `fd.offset`. -/
  | fd (fd : ℕ) (offset : ℤ)
  /-- `fill.val`. -/
  | fill (val : UInt32)
  deriving DecidableEq

/-- The type of a block is the constructor of its source. -/
def BlockSource.type : BlockSource → BackedBlockType
  | .data _ => .data
  | .file _ _ => .file
  | .fd _ _ => .fd
  | .fill _ => .fill

/-- The source `n` bytes further on, as `backed_block_split` moves it. -/
def BlockSource.advance (n : ℕ) : BlockSource → BlockSource
  | .data p => .data (p + n)
  | .file f o => .file f (o + n)
  | .fd f o => .fd f (o + n)
  | .fill v => .fill v

/-- `struct backed_block`: a node of the list, with its address. -/
structure BackedBlock where
  /-- Where the node lies. -/
  addr : ℕ
  /-- The first block. -/
  block : UInt32
  /-- The length in bytes. -/
  len : UInt32
  /-- The type and its data. -/
  source : BlockSource
  deriving DecidableEq

/-- `struct backed_block_list`: the nodes in their order, and the address that `last_used` holds. -/
structure BackedBlockList where
  /-- The nodes from `data_blocks` on. -/
  data_blocks : List BackedBlock
  /-- The node that was added last, or `NULL`. -/
  last_used : Option ℕ
  /-- The block size in bytes. -/
  block_size : UInt32
  /-- The allocator: the next address that it gives. -/
  next_addr : ℕ
  deriving DecidableEq

/-- `backed_block_list_new`: a list without nodes. -/
def backedBlockListNew (block_size : UInt32) : BackedBlockList := ⟨[], none, block_size, 0⟩

/-! ## Merging -/

/-- The comparison of the sources in `merge_bb`, for two blocks of one type: data is never merged,
fills are when their words agree, and file and descriptor blocks when the second goes on where the
first stops. -/
def sourcesMerge (a b : BackedBlock) : Bool :=
  match a.source, b.source with
  | .fill v, .fill w => v == w
  | .file f o, .file g p => f == g && o + a.len.toNat == p
  | .fd f o, .fd g p => f == g && o + a.len.toNat == p
  | _, _ => false

/-- `b` merged into `a`: `a->len += b->len`. -/
def BackedBlock.extend (a b : BackedBlock) : BackedBlock := { a with len := a.len + b.len }

/-- `merge_bb` on two blocks that exist: the merged block, or `none` for `-EINVAL`. -/
def mergeBb (block_size : UInt32) (a b : BackedBlock) : Except Fault (Option BackedBlock) :=
  if ¬ a.block < b.block then .error .assertion
  -- Blocks are of different types.
  else if a.source.type ≠ b.source.type then .ok none
  else if block_size = 0 then .error .divByZero
  -- The division rounds down.
  else if a.block + a.len / block_size ≠ b.block then .ok none
  else if sourcesMerge a b then .ok (some (a.extend b)) else .ok none

/-! ## Queueing -/

/-- Where the search of `queue_bb` starts: the nodes before the start, the start, and the nodes
after it. It starts at `last_used` when that block is below the new one, and else at the head. -/
def searchStart (last_used : Option ℕ) (block : UInt32) (head : BackedBlock)
    (tail : List BackedBlock) : Except Fault (List BackedBlock × BackedBlock × List BackedBlock) :=
  match last_used with
  | none => .ok ([], head, tail)
  | some lu =>
    match (head :: tail).span (fun bb => bb.addr ≠ lu) with
    -- The node that was added last is not in the list any more.
    | (_, []) => .error .useAfterFree
    | (before, bb :: after) =>
      if block > bb.block then .ok (before, bb, after) else .ok ([], head, tail)

/-- `for (; bb->next && bb->next->block < new_bb->block; bb = bb->next)`: the nodes passed over, the
node where the loop stops, and the nodes after it. -/
def seekBb (block : UInt32) (bb : BackedBlock) :
    List BackedBlock → List BackedBlock × BackedBlock × List BackedBlock
  | [] => ([], bb, [])
  | nxt :: rest =>
    if nxt.block < block then
      let r := seekBb block nxt rest
      (bb :: r.1, r.2)
    else ([], bb, nxt :: rest)

/-- The first merge of `queue_bb`, of the new block with the one after it. -/
def mergeNext (block_size : UInt32) (new_bb : BackedBlock) :
    List BackedBlock → Except Fault (BackedBlock × List BackedBlock)
  | [] => .ok (new_bb, [])
  | nxt :: rest => do
    match ← mergeBb block_size new_bb nxt with
    | some merged => return (merged, rest)
    | none => return (new_bb, nxt :: rest)

/-- `queue_bb`: a node is put in by its block number, then merged with its neighbours. -/
def queueBb (bbl : BackedBlockList) (new_bb : BackedBlock) : Except Fault BackedBlockList :=
  match bbl.data_blocks with
  -- The first two branches leave `last_used` as it is.
  | [] => .ok { bbl with data_blocks := [new_bb] }
  | head :: tail =>
    if head.block > new_bb.block then
      .ok { bbl with data_blocks := new_bb :: head :: tail }
    else do
      let (before, start, after) ← searchStart bbl.last_used new_bb.block head tail
      let (passed, bb, rest) := seekBb new_bb.block start after
      let (new_bb, rest) ← mergeNext bbl.block_size new_bb rest
      match ← mergeBb bbl.block_size bb new_bb with
      | some merged =>
        -- `new_bb` is destroyed, so `last_used` becomes the retained block.
        return { bbl with
          data_blocks := before ++ (passed ++ merged :: rest)
          last_used := some bb.addr }
      | none =>
        return { bbl with
          data_blocks := before ++ (passed ++ bb :: new_bb :: rest)
          last_used := some new_bb.addr }

/-- What the four `backed_block_add_*` share: a node from the allocator, filled in and queued. -/
def addBlock (bbl : BackedBlockList) (source : BlockSource) (len block : UInt32) :
    Except Fault BackedBlockList :=
  queueBb { bbl with next_addr := bbl.next_addr + 1 } ⟨bbl.next_addr, block, len, source⟩

/-- `backed_block_add_fill`: a node that repeats one word. -/
def backedBlockAddFill (bbl : BackedBlockList) (fill_val len block : UInt32) :
    Except Fault BackedBlockList :=
  addBlock bbl (.fill fill_val) len block

/-- `backed_block_add_data`: a node for bytes in memory. -/
def backedBlockAddData (bbl : BackedBlockList) (data : ℕ) (len block : UInt32) :
    Except Fault BackedBlockList :=
  addBlock bbl (.data data) len block

/-- `backed_block_add_file`: a node for bytes of a named file. -/
def backedBlockAddFile (bbl : BackedBlockList) (filename : String) (offset : ℤ)
    (len block : UInt32) : Except Fault BackedBlockList :=
  addBlock bbl (.file filename offset) len block

/-- `backed_block_add_fd`: a node for bytes of an open file. -/
def backedBlockAddFd (bbl : BackedBlockList) (fd : ℕ) (offset : ℤ) (len block : UInt32) :
    Except Fault BackedBlockList :=
  addBlock bbl (.fd fd offset) len block

/-! ## Splitting and moving -/

/-- `ALIGN_DOWN`: a length rounded down to whole blocks. -/
def alignDown (x y : UInt32) : UInt32 := y * (x / y)

/-- What `backed_block_split` leaves of a node: the node itself when it is short enough, and else
its first `max_len` bytes and a new node at `addr` with the rest. -/
def splitBb (block_size : UInt32) (addr : ℕ) (bb : BackedBlock) (max_len : UInt32) :
    List BackedBlock :=
  let max_len := alignDown max_len block_size
  if bb.len ≤ max_len then [bb]
  else
    [{ bb with len := max_len },
      { addr, block := bb.block + max_len / block_size, len := bb.len - max_len,
        source := bb.source.advance max_len.toNat }]

/-- `backed_block_split` of the node `bb`: what is behind `max_len`, rounded down, goes to a node
behind it. -/
def backedBlockSplit (bbl : BackedBlockList) (bb : BackedBlock) (max_len : UInt32) :
    BackedBlockList :=
  { bbl with
    data_blocks := bbl.data_blocks.flatMap fun b =>
      if b.addr = bb.addr then splitBb bbl.block_size bbl.next_addr b max_len else [b]
    next_addr := bbl.next_addr + 1 }

/-- The splice of `backed_block_list_move` into a list that is not empty: after the first node that
has no next node or whose next node's block is above `start->block`. The head is never compared. -/
def spliceBb (start_block : UInt32) (segment : List BackedBlock) (bb : BackedBlock) :
    List BackedBlock → List BackedBlock
  | [] => bb :: segment
  | nxt :: rest =>
    if nxt.block > start_block then bb :: (segment ++ nxt :: rest)
    else bb :: spliceBb start_block segment nxt rest

/-- The nodes before the segment `start..end`, the segment and the nodes after it. `NULL` stands for
the head and for the last node. `none` where the source has a null `start` or `end`. The callers
pass a `start` in the list and an `end` at or after it. -/
def cutSegment (nodes : List BackedBlock) (start stop : Option ℕ) :
    Option (List BackedBlock × List BackedBlock × List BackedBlock) :=
  let (before, tail) := match start with
    | none => ([], nodes)
    | some a => nodes.span (fun bb => bb.addr ≠ a)
  match tail with
  | [] => none
  | _ :: _ =>
    match stop with
    | none => some (before, tail, [])
    | some a =>
      match tail.span (fun bb => bb.addr ≠ a) with
      | (_, []) => none
      | (segment, last :: after) => some (before, segment ++ [last], after)

/-- `backed_block_list_move`: the two lists after it, `from` first. -/
def backedBlockListMove (src dst : BackedBlockList) (start stop : Option ℕ) :
    BackedBlockList × BackedBlockList :=
  match cutSegment src.data_blocks start stop with
  | none => (src, dst)
  | some (before, segment, after) =>
    let start_block := (segment.head?.map BackedBlock.block).getD 0
    ({ src with data_blocks := before ++ after, last_used := none },
      { dst with
        data_blocks := match dst.data_blocks with
          | [] => segment
          | bb :: rest => spliceBb start_block segment bb rest
        last_used := none
        -- Both lists take their nodes from one allocator.
        next_addr := max dst.next_addr src.next_addr })

end AmlogicToolkit.Simg
