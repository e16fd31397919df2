import Dp4c.Cstr
import Mathlib.Logic.Function.Basic

/-! # The page allocator (arena.c)

Addresses are numbers. `blocks` is the memory of the `PageBlock` structs by
their addresses; a client's arena is named by a number, and `arenas` gives the
structs of all of them, zero-initialised, with `pageblock_storage` among them.
`readWrite` is the protection of the pages, by page number.

`mprotect` and the pages of `mmap` are the system's: a call on pages of the
reserved range succeeds. -/
namespace Dp4c.Memory

open Dp4c.Lib

/-- `struct PageBlock`. -/
structure PageBlock where
  nextBlock : Option Nat := none
  prevBlock : Option Nat := none
  memoryBegin : Nat := 0
  memoryEnd : Nat := 0
deriving DecidableEq

/-- `struct Arena`; null pointers of `void*` are address 0. -/
structure Arena where
  ownedPages : Option Nat := none
  memoryAvail : Nat := 0
  memoryLimit : Nat := 0
deriving DecidableEq

inductive ArenaRef where
  | pageblockStorage
  | client (n : Nat)
deriving DecidableEq

/-- `sizeof(struct PageBlock)`. -/
def sizeofPageBlock : Nat := 32

structure State where
  pageSize : Nat
  totalPageCount : Nat
  pageMemoryStart : Nat
  blockFreelistHead : Option Nat
  recycledBlockStructs : Option Nat
  arenas : ArenaRef → Arena
  blocks : Nat → PageBlock
  readWrite : Nat → Bool

abbrev ArenaM := Prog Exit State

/-- A `uint32_t` read as an `int`. -/
def intOfUint32 (x : UInt32) : Int := x.toBitVec.toInt

/-! ## Memory -/

def deref (p : Nat) : ArenaM PageBlock := Prog.reads fun s => s.blocks p

def store (p : Nat) (f : PageBlock → PageBlock) : ArenaM Unit :=
  Prog.modify fun s => { s with blocks := Function.update s.blocks p (f (s.blocks p)) }

def setArena (a : ArenaRef) (f : Arena → Arena) : ArenaM Unit :=
  Prog.modify fun s => { s with arenas := Function.update s.arenas a (f (s.arenas a)) }

/-- The protection of the pages after a change on `[memoryBegin, memoryEnd)`. -/
def protect (s : State) (memoryBegin memoryEnd : Nat) (prot : Bool) (page : Nat) : Bool :=
  if memoryBegin ≤ page * s.pageSize ∧ page * s.pageSize < memoryEnd then prot
  else s.readWrite page

/-- `mprotect` on `[memoryBegin, memoryEnd)`; a length that is negative as a
difference is no range of pages. -/
def mprotect (memoryBegin memoryEnd : Nat) (prot : Bool) : ArenaM Unit := do
  Prog.check (memoryBegin ≤ memoryEnd) (.perror "mprotect")
  Prog.modify fun s => { s with readWrite := protect s memoryBegin memoryEnd prot }

/-- The bound on the nodes of a list: the bytes of the reserved range. -/
def listFuel : ArenaM Nat := Prog.reads fun s => s.totalPageCount * s.pageSize + 1

/-! ## Lists of blocks -/

/-- The loop of `find_block_first_fit`. -/
def findFit (requestedMemoryAmount : Int) : Nat → Option Nat → ArenaM (Option Nat)
  | 0, _ => Prog.exit .outOfFuel
  | _ + 1, none => pure none
  | fuel + 1, some p => do
    let b ← deref p
    if (b.memoryEnd : Int) - b.memoryBegin ≥ requestedMemoryAmount then pure (some p)
    else findFit requestedMemoryAmount fuel b.nextBlock

def findBlockFirstFit (requestedMemoryAmount : Int) : ArenaM (Option Nat) := do
  findFit requestedMemoryAmount (← listFuel) (← Prog.reads (·.blockFreelistHead))

def recycleBlockStruct (block : Nat) : ArenaM Unit := do
  let head ← Prog.reads (·.recycledBlockStructs)
  store block fun _ => { nextBlock := head }
  Prog.modify fun s => { s with recycledBlockStructs := some block }

/-- The search of `block_insert_and_coalesce` for the left neighbour. -/
def findLeftNeighbour (memoryBegin : Nat) : Nat → Option Nat → ArenaM (Option Nat)
  | 0, _ => Prog.exit .outOfFuel
  | _ + 1, none => pure none
  | fuel + 1, some p => do
    let b ← deref p
    if b.memoryBegin ≤ memoryBegin then pure (some p)
    else findLeftNeighbour memoryBegin fuel b.nextBlock

/-- `if (p) p->prev_block = q`. -/
def setPrev (p q : Option Nat) : ArenaM Unit :=
  match p with
  | some p => store p fun b => { b with prevBlock := q }
  | none => pure ()

/-- Inserts the new block and returns the right neighbour and the list. -/
def insertBlock (blockList newBlock : Nat) : Option Nat → ArenaM (Option Nat × Nat)
  | some leftNeighbour => do
    let rightNeighbour := (← deref leftNeighbour).nextBlock
    store leftNeighbour fun b => { b with nextBlock := some newBlock }
    store newBlock fun b => { b with prevBlock := some leftNeighbour }
    store newBlock fun b => { b with nextBlock := rightNeighbour }
    setPrev rightNeighbour (some newBlock)
    pure (rightNeighbour, blockList)
  | none => do
    store newBlock fun b => { b with nextBlock := some blockList }
    store blockList fun b => { b with prevBlock := some newBlock }
    pure ((← deref newBlock).nextBlock, newBlock)

/-- `STITCH_LEFT | STITCH_RIGHT`. -/
def stitchBoth (leftNeighbour rightNeighbour : Nat) : ArenaM Unit := do
  let right ← deref rightNeighbour
  store leftNeighbour fun b => { b with memoryEnd := right.memoryEnd }
  store leftNeighbour fun b => { b with nextBlock := right.nextBlock }
  setPrev right.nextBlock (some leftNeighbour)
  recycleBlockStruct rightNeighbour

/-- `STITCH_LEFT`. -/
def stitchLeft (leftNeighbour newBlock : Nat) (rightNeighbour : Option Nat) : ArenaM Unit := do
  let new ← deref newBlock
  store leftNeighbour fun b => { b with memoryEnd := new.memoryEnd }
  store leftNeighbour fun b => { b with nextBlock := rightNeighbour }
  setPrev rightNeighbour (some leftNeighbour)

/-- `STITCH_RIGHT`; the list the branch leaves in `merged_list`. -/
def stitchRight (leftNeighbour : Option Nat) (newBlock rightNeighbour mergedList : Nat) :
    ArenaM Nat := do
  let new ← deref newBlock
  store rightNeighbour fun b => { b with memoryBegin := new.memoryBegin }
  store rightNeighbour fun b => { b with prevBlock := leftNeighbour }
  match leftNeighbour with
  | some leftNeighbour => do
    store leftNeighbour fun b => { b with nextBlock := some rightNeighbour }
    pure mergedList
  | none => pure rightNeighbour

/-- The neighbour on the left, if it ends where the new block begins. -/
def touchesLeft (leftNeighbour : Option Nat) (newBlock : Nat) : ArenaM (Option Nat) :=
  match leftNeighbour with
  | none => pure none
  | some l => do
    let left ← deref l
    let new ← deref newBlock
    pure (if left.memoryEnd = new.memoryBegin then some l else none)

/-- The neighbour on the right, if it begins where the new block ends. -/
def touchesRight (rightNeighbour : Option Nat) (newBlock : Nat) : ArenaM (Option Nat) :=
  match rightNeighbour with
  | none => pure none
  | some r => do
    let right ← deref r
    let new ← deref newBlock
    pure (if right.memoryBegin = new.memoryEnd then some r else none)

/-- The second half of `block_insert_and_coalesce`: by `stitch_type`. -/
def coalesce (leftNeighbour rightNeighbour : Option Nat) (newBlock mergedList : Nat) :
    ArenaM Nat := do
  match ← touchesLeft leftNeighbour newBlock, ← touchesRight rightNeighbour newBlock with
  | some l, some r => do
    stitchBoth l r
    recycleBlockStruct newBlock
    pure mergedList
  | some l, none => do
    stitchLeft l newBlock rightNeighbour
    recycleBlockStruct newBlock
    pure mergedList
  | none, some r => do
    let mergedList ← stitchRight leftNeighbour newBlock r mergedList
    recycleBlockStruct newBlock
    pure mergedList
  | none, none => pure mergedList

def blockInsertAndCoalesce (blockList : Option Nat) (newBlock : Nat) : ArenaM Nat :=
  match blockList with
  | none => pure newBlock
  | some blockList => do
    let new ← deref newBlock
    let leftNeighbour ← findLeftNeighbour new.memoryBegin (← listFuel) (some blockList)
    let (rightNeighbour, mergedList) ← insertBlock blockList newBlock leftNeighbour
    coalesce leftNeighbour rightNeighbour newBlock mergedList

/-! ## Arenas -/

/-- A recycled struct, or one of `push`. -/
def takeBlockStruct (push : ArenaM Nat) : ArenaM Nat := do
  match ← Prog.reads (·.recycledBlockStructs) with
  | some block => do
    let b ← deref block
    Prog.modify fun s => { s with recycledBlockStructs := b.nextBlock }
    pure block
  | none => push

/-- `get_new_block_struct`, given the push on `pageblock_storage`. -/
def getNewBlockStruct (push : ArenaM Nat) : ArenaM Nat := do
  let block ← takeBlockStruct push
  store block fun _ => {}
  pure block

/-- `(size + page_size - 1) & ~(page_size - 1)`, as an `int`. -/
def sizeInPageMultiples (pageSize : Nat) (size : UInt32) : Int :=
  intOfUint32 ((size + pageSize.toUInt32 - 1) &&& ~~~(pageSize.toUInt32 - 1))

/-- Cuts the pages for a request off the front of a free block. -/
def carve (freeBlock : Nat) (size : UInt32) : ArenaM (Nat × Nat) := do
  let sizeInPageMultiples := sizeInPageMultiples (← Prog.reads (·.pageSize)) size
  let b ← deref freeBlock
  let length : Int := (b.memoryEnd : Int) - b.memoryBegin
  if sizeInPageMultiples < length then do
    let allocMemoryEnd := (b.memoryBegin + sizeInPageMultiples).toNat
    store freeBlock fun b => { b with memoryBegin := allocMemoryEnd }
    pure (b.memoryBegin, allocMemoryEnd)
  else if sizeInPageMultiples = length then do
    let allocMemoryEnd := b.memoryEnd
    store freeBlock fun b => { b with memoryBegin := allocMemoryEnd }
    pure (b.memoryBegin, allocMemoryEnd)
  else Prog.exit (.assertion "0")

/-- The refill of `arena_push`: new pages for the arena; its `memory_avail`. -/
def refill (push : ArenaM Nat) (arena : ArenaRef) (size : UInt32) : ArenaM Nat := do
  let freeBlock ← Prog.lift .outOfMemory (← findBlockFirstFit (intOfUint32 size))
  let (allocMemoryBegin, allocMemoryEnd) ← carve freeBlock size
  mprotect allocMemoryBegin allocMemoryEnd true
  setArena arena fun a =>
    { a with memoryAvail := allocMemoryBegin, memoryLimit := allocMemoryEnd }
  let allocBlock ← getNewBlockStruct push
  store allocBlock fun b => { b with memoryBegin := allocMemoryBegin }
  store allocBlock fun b => { b with memoryEnd := allocMemoryEnd }
  let ownedPages ← blockInsertAndCoalesce
    (← Prog.reads fun s => (s.arenas arena).ownedPages) allocBlock
  setArena arena fun a => { a with ownedPages := some ownedPages }
  Prog.reads fun s => (s.arenas arena).memoryAvail

/-- The memory an `arena_push` hands out starts here. -/
def clientMemory (push : ArenaM Nat) (arena : ArenaRef) (size : UInt32) : ArenaM Nat := do
  let a ← Prog.reads fun s => s.arenas arena
  if a.memoryAvail + size.toNat ≥ a.memoryLimit then refill push arena size
  else pure a.memoryAvail

/-- `arena_push`, entered at most `depth` deep. -/
def arenaPushDepth : Nat → ArenaRef → UInt32 → ArenaM Nat
  | 0, _, _ => Prog.exit .outOfFuel
  | depth + 1, arena, size => do
    Prog.check (size > 0) (.assertion "size > 0")
    let memory ← clientMemory (arenaPushDepth depth .pageblockStorage sizeofPageBlock.toUInt32)
      arena size
    setArena arena fun a => { a with memoryAvail := memory + size.toNat }
    pure memory

/-- `arena_push`. It re-enters itself at most twice. -/
def arenaPush (arena : ArenaRef) (size : UInt32) : ArenaM Nat := arenaPushDepth 3 arena size

/-- The loop of `arena_delete`. -/
def freePages : Nat → Option Nat → ArenaM Unit
  | 0, _ => Prog.exit .outOfFuel
  | _ + 1, none => pure ()
  | fuel + 1, some p => do
    let b ← deref p
    mprotect b.memoryBegin b.memoryEnd false
    let nextBlock := (← deref p).nextBlock
    let head ← blockInsertAndCoalesce (← Prog.reads (·.blockFreelistHead)) p
    Prog.modify fun s => { s with blockFreelistHead := some head }
    freePages fuel nextBlock

def arenaDelete (arena : ArenaRef) : ArenaM Unit := do
  freePages (← listFuel) (← Prog.reads fun s => (s.arenas arena).ownedPages)
  setArena arena fun _ => {}

/-- `init_memory`, given what `getpagesize` and `mmap` return. -/
def initMemory (pageSize start memoryAmount : Nat) : State :=
  let totalPageCount := memoryAmount / pageSize
  let firstBlock : PageBlock := { memoryBegin := start, memoryEnd := start + pageSize }
  let freeBlock : PageBlock :=
    { memoryBegin := start + pageSize,
      memoryEnd := start + pageSize + (totalPageCount - 1) * pageSize }
  { pageSize := pageSize
    totalPageCount := totalPageCount
    pageMemoryStart := start
    blockFreelistHead := some (start + sizeofPageBlock)
    recycledBlockStructs := none
    arenas := fun a => match a with
      | .pageblockStorage =>
        { ownedPages := some start, memoryAvail := start + 2 * sizeofPageBlock,
          memoryLimit := start + pageSize }
      | .client _ => {}
    blocks := fun p =>
      if p = start then firstBlock else if p = start + sizeofPageBlock then freeBlock else {}
    readWrite := fun page => start ≤ page * pageSize && page * pageSize < start + pageSize }

end Dp4c.Memory
