import Dp4c.Hash
import Dp4c.Memory.Arena
import Dp4c.UnboundedArray
import Dp4c.Token

/-! # The symbol table (symtable.c)

The file-scope variables are the fields of `State`. Entries live in
`storage`, in the order `arena_push` handed them out; an entry's address is
its index there, `next_entry` a link between addresses. The symbols of one
namespace of an entry are consed in front and cut off at the front only, so
an `id_*` chain is the list of its symbols.

Allocations succeed. A growth lists the chains in an array of pointers on
`temp_storage`, an empty arena, so what it asks for comes in whole pages. A
pointer that is written behind these pages ends the run. -/
namespace Dp4c.Symtable

open Dp4c.Lib

inductive SymbolKind where
  | none | keyword | type | ident
deriving DecidableEq, Repr

/-- `struct Symbol`, with the `token_klass` of `struct Symbol_Keyword`. A node
of the syntax tree is named by its id. -/
structure Symbol where
  identKind : SymbolKind
  name : Cstr
  scopeLevel : Nat
  ast : Option Nat := none
  tokenKlass : TokenClass := .none
deriving DecidableEq

structure SymtableEntry where
  name : Cstr
  idKw : List Symbol := []
  idType : List Symbol := []
  idIdent : List Symbol := []
  nextEntry : Option Nat := none
deriving DecidableEq

structure State where
  symtable : UnboundedArray (Option Nat) := UnboundedArray.arrayInit 8
  capacityLog2 : Nat := 5
  capacity : Nat := 0
  entryCount : Nat := 0
  scopeLevel : Nat := 0
  storage : List SymtableEntry := []

abbrev SymM := Prog Exit State

/-! ## Memory -/

def deref (p : Nat) : SymM SymtableEntry := fun s =>
  match s.storage[p]? with
  | some entry => .ok (entry, s)
  | none => .error .fault

def update (p : Nat) (f : SymtableEntry → SymtableEntry) : SymM Unit :=
  Prog.modify fun s => { s with storage := s.storage.modify p f }

def slotGet (i : Nat) : SymM (Option Nat) := fun s =>
  match s.symtable.arrayGet i with
  | .ok entry => .ok (entry, s)
  | .error e => .error e

def slotSet (i : Nat) (entry : Option Nat) : SymM Unit := fun s =>
  match s.symtable.arraySet i entry with
  | .ok array => .ok ((), { s with symtable := array })
  | .error e => .error e

def slotAppend (entry : Option Nat) : SymM Unit := fun s =>
  match s.symtable.arrayAppend entry with
  | .ok array => .ok ((), { s with symtable := array })
  | .error e => .error e

/-! ## Scopes -/

def pushScope : SymM Nat := do
  Prog.modify fun s => { s with scopeLevel := s.scopeLevel + 1 }
  Prog.reads (·.scopeLevel)

/-- `scope_delete_symbol`, given the file-scope `scope_level`: what the chain
`symbol` is replaced by. -/
def scopeDeleteSymbol (scopeLevel : Nat) : List Symbol → Except Exit (List Symbol)
  | [] => .ok []
  | symbol :: nextInScope =>
    if symbol.scopeLevel > scopeLevel - 1 then
      match nextInScope with
      | [] => .ok []
      | next :: _ =>
        if next.scopeLevel ≤ scopeLevel then .ok nextInScope
        else .error (.assertion "next_in_scope->scope_level <= scope_level")
    else .ok []

/-- One round of the inner loop of `pop_scope`. -/
def popEntry (scopeLevel : Nat) (symbol : SymtableEntry) : Except Exit SymtableEntry := do
  let idKw ← scopeDeleteSymbol scopeLevel symbol.idKw
  let idType ← scopeDeleteSymbol scopeLevel symbol.idType
  let idIdent ← scopeDeleteSymbol scopeLevel symbol.idIdent
  return { symbol with idKw := idKw, idType := idType, idIdent := idIdent }

def popChain : Nat → Option Nat → SymM Unit
  | 0, _ => Prog.exit .outOfFuel
  | _ + 1, none => pure ()
  | fuel + 1, some p => do
    let symbol ← deref p
    let symbol ← Prog.ofExcept (popEntry (← Prog.reads (·.scopeLevel)) symbol)
    update p fun _ => symbol
    popChain fuel symbol.nextEntry

def popScope : SymM Unit := do
  let s ← Prog.state
  Prog.check (s.scopeLevel > 0) (.assertion "scope_level > 0")
  Prog.forRange (fun i _ => do popChain (s.storage.length + 1) (← slotGet i)) 0 s.capacity ()
  Prog.modify fun s => { s with scopeLevel := s.scopeLevel - 1 }

/-! ## Entries -/

/-- The search of `get_symtable_entry` along one chain. -/
def findEntry (name : Cstr) : Nat → Option Nat → SymM (Option Nat)
  | 0, _ => Prog.exit .outOfFuel
  | _ + 1, none => pure none
  | fuel + 1, some p => do
    let entry ← deref p
    let found ← Prog.lift .fault (cstrMatch entry.name name)
    if found then pure (some p) else findEntry name fuel entry.nextEntry

/-- `getpagesize()`. -/
def pageSize : Nat := 4096

/-- `sizeof(*entries_array)`. -/
def sizeofPointer : Nat := 8

/-- The bytes of the pages that `arena_push(&temp_storage, size)` gets. -/
def tempPages (size : Nat) : Nat :=
  (Memory.sizeInPageMultiples pageSize size.toUInt32).toNat

/-- Moves one chain to the end of the temporary array, unlinking its nodes. The
array has `room` bytes. -/
def flattenChain (room : Nat) : Nat → Option Nat → List Nat → SymM (List Nat)
  | 0, _, _ => Prog.exit .outOfFuel
  | _ + 1, none, entriesArray => pure entriesArray
  | fuel + 1, some p, entriesArray => do
    Prog.check (sizeofPointer * (entriesArray.length + 1) ≤ room) .fault
    let entry ← deref p
    update p fun entry => { entry with nextEntry := none }
    flattenChain room fuel entry.nextEntry (entriesArray ++ [p])

/-- Puts entry `p` in front of the chain at index `h`. -/
def linkEntry (p h : Nat) : SymM Unit := do
  let head ← slotGet h
  update p fun entry => { entry with nextEntry := head }
  slotSet h (some p)

/-- The body of `if (entry_count >= capacity)`. -/
def growTable : SymM Unit := do
  let s ← Prog.state
  let room := tempPages s.capacity
  let entriesArray ← Prog.forRange
    (fun i entriesArray => do
      flattenChain room (s.storage.length + 1) (← slotGet i) entriesArray) 0 s.capacity []
  Prog.check (entriesArray.length = s.entryCount) (.assertion "j == entry_count")
  let m := s.capacityLog2 + 1
  let capacity := (1 <<< m) - 1
  Prog.modify fun s => { s with capacityLog2 := m, capacity := capacity }
  Prog.forRange (fun _ _ => slotAppend none) s.entryCount (capacity - s.entryCount) ()
  Prog.forRange (fun i _ => slotSet i none) 0 capacity ()
  Prog.forRange (fun i _ => do
    let p ← Prog.lift .fault entriesArray[i]?
    let entry ← deref p
    linkEntry p (hashString entry.name m)) 0 s.entryCount ()

/-- Grows the table when it is full. -/
def ensureCapacity : SymM Unit := do
  let s ← Prog.state
  if s.entryCount ≥ s.capacity then growTable else pure ()

/-- The allocation at the end of `get_symtable_entry`. -/
def addEntry (name : Cstr) : SymM Nat := do
  let s ← Prog.state
  let p := s.storage.length
  Prog.modify fun s => { s with storage := s.storage ++ [{ name := name }] }
  linkEntry p (hashString name s.capacityLog2)
  Prog.modify fun s => { s with entryCount := s.entryCount + 1 }
  pure p

def getSymtableEntry (name : Cstr) : SymM Nat := do
  let s ← Prog.state
  let found ← findEntry name (s.storage.length + 1) (← slotGet (hashString name s.capacityLog2))
  match found with
  | some entry => pure entry
  | none => do
    ensureCapacity
    addEntry name

/-- The first symbol of a chain was declared in the scope that is open. -/
def declaredAt (scopeLevel : Nat) (chain : List Symbol) : Bool :=
  match chain with
  | [] => false
  | symbol :: _ => symbol.scopeLevel ≥ scopeLevel

def nameIsDeclared (name : Cstr) (kind : SymbolKind) : SymM Bool := do
  let symbol ← deref (← getSymtableEntry name)
  let scopeLevel ← Prog.reads (·.scopeLevel)
  match kind with
  | .keyword => pure (declaredAt scopeLevel symbol.idKw)
  | .type => pure (declaredAt scopeLevel symbol.idType)
  | .ident => pure (declaredAt scopeLevel symbol.idIdent)
  | .none => Prog.exit (.assertion "0")

def newType (name : Cstr) (ast : Option Nat) : SymM Symbol := do
  let symbol ← getSymtableEntry name
  let scopeLevel ← Prog.reads (·.scopeLevel)
  let idType : Symbol := { identKind := .type, name := name, scopeLevel := scopeLevel, ast := ast }
  update symbol fun symbol => { symbol with idType := idType :: symbol.idType }
  pure idType

def newIdent (name : Cstr) (ast : Option Nat) : SymM Symbol := do
  let symbol ← getSymtableEntry name
  let scopeLevel ← Prog.reads (·.scopeLevel)
  let idIdent : Symbol :=
    { identKind := .ident, name := name, scopeLevel := scopeLevel, ast := ast }
  update symbol fun symbol => { symbol with idIdent := idIdent :: symbol.idIdent }
  pure idIdent

def addKeyword (name : Cstr) (tokenKlass : TokenClass) : SymM Symbol := do
  let symbol ← getSymtableEntry name
  let entry ← deref symbol
  Prog.check (entry.idKw = []) (.assertion "symbol->id_kw == 0")
  let scopeLevel ← Prog.reads (·.scopeLevel)
  let idKw : Symbol :=
    { identKind := .keyword, name := name, scopeLevel := scopeLevel, tokenKlass := tokenKlass }
  update symbol fun symbol => { symbol with idKw := [idKw] }
  pure idKw

/-- The arguments of the calls in `add_all_keywords`, in order. -/
def keywords : List (String × TokenClass) :=
  [("action", .action), ("actions", .actions), ("entries", .entries), ("enum", .enum),
   ("in", .inKw), ("package", .package), ("select", .select), ("switch", .switch),
   ("tuple", .tuple), ("control", .control), ("error", .error), ("header", .header),
   ("inout", .inOut), ("parser", .parser), ("state", .state), ("table", .table), ("key", .key),
   ("typedef", .typedef), ("type", .type), ("default", .default), ("extern", .externKw),
   ("header_union", .headerUnion), ("out", .out), ("transition", .transition), ("else", .elseKw),
   ("exit", .exit), ("if", .ifKw), ("match_kind", .matchKind), ("return", .returnKw),
   ("struct", .struct), ("apply", .apply), ("const", .const), ("bool", .bool), ("true", .true),
   ("false", .false), ("void", .void), ("int", .int), ("bit", .bit), ("varbit", .varbit),
   ("string", .string)]

def addKeywords (kws : List (String × TokenClass)) : SymM Unit :=
  forM kws fun kw => do
    let _ ← addKeyword (Cstr.ofString kw.1) kw.2

def addAllKeywords : SymM Unit := addKeywords keywords

/-- `symtable_init`: `array_init` and the null slots, then the keywords. -/
def symtableInit : SymM Unit := do
  Prog.modify fun s =>
    { s with symtable := UnboundedArray.arrayInit 8, capacity := (1 <<< s.capacityLog2) - 1 }
  let s ← Prog.state
  Prog.forRange (fun _ _ => slotAppend none) s.entryCount (s.capacity - s.entryCount) ()
  addAllKeywords

def symtableFlush : SymM Unit := do
  Prog.modify fun s => { s with storage := [], entryCount := 0, scopeLevel := 0 }
  symtableInit

end Dp4c.Symtable
