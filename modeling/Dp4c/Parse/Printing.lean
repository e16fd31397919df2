import Dp4c.Parse.ProgramLoads
import Dp4c.Parse.Run
import Dp4c.PrintAst

/-! # Printing what was parsed

The printer trusts the tags of the attributes. The parser sets one that is wrong: the name it
makes of `error` in an expression holds a string that is tagged as a node, and the printer
takes the string for a node. -/
namespace Dp4c.Parse

open Dp4c.Lib

variable {a n : Ast}

/-- The nodes of a well-typed tree are well typed. -/
theorem WellTyped.mem_nodes (h : WellTyped a) : n ∈ a.nodes → WellTyped n ∧ n ≠ .null := by
  induction h with
  | null => exact fun h => absurd h List.not_mem_nil
  | @node kind id lineNr attrs htyped hfull hchildren ih =>
    intro hn
    rw [Ast.nodes] at hn
    rcases List.mem_cons.mp hn with rfl | hn
    · exact ⟨.node htyped hfull hchildren, Ast.noConfusion⟩
    · rw [attrsNodes_eq, linksNodes_eq] at hn
      obtain ⟨a, ha, hna⟩ := List.mem_flatMap.mp hn
      obtain ⟨e, he, hae⟩ := List.mem_flatMap.mp ha
      exact ih e he a hae hna

/-- The links of these slots lead to nodes. -/
def Slot.leadsToNodes : Slot → Bool
  | .list kinds => !kinds .none
  | .ast _ | .string | .errorString | .integer | .operator => true

theorem schema_leadsToNodes :
    ∀ kind, (schema kind).all (fun entry => entry.2.leadsToNodes) = true := by decide

theorem Typed.null_notMem {kind : AstKind} {attrs : List (Attribute Ast)} (h : Typed kind attrs)
    {e : Attribute Ast} (he : e ∈ attrs) {links : List Ast} {linkCount : Int}
    (hlist : e.value = .list links linkCount) : .null ∉ links := by
  obtain ⟨attr, type, value⟩ := e
  obtain rfl : value = .list links linkCount := hlist
  obtain ⟨slot, hslot, hfits⟩ := h.fits _ he
  have hleads : slot.leadsToNodes = true := by
    rw [List.lookup_eq_some_iff] at hslot
    obtain ⟨l, r, hschema, -⟩ := hslot
    have hall := schema_leadsToNodes kind
    rw [hschema, List.all_append, List.all_cons, Bool.and_eq_true, Bool.and_eq_true] at hall
    exact hall.2.1
  intro hnull
  cases slot with
  | list kinds =>
    cases type <;> try cases hfits
    have hkind : kinds .none = true := hfits .null hnull
    rw [Slot.leadsToNodes, hkind] at hleads
    cases hleads
  | _ => cases type <;> cases hfits

/-- A well-typed node without flaws. -/
theorem WellTyped.printable (h : WellTyped n) (hnode : n ≠ .null) (hflaws : n.flaws = 0) :
    n.Printable := by
  cases h with
  | null => exact absurd rfl hnode
  | @node kind id lineNr attrs htyped _ _ =>
    obtain ⟨htags, hkind⟩ := Nat.add_eq_zero_iff.mp hflaws
    refine ⟨fun hnone => ?_, fun e he => ?_, fun e he links linkCount => htyped.null_notMem he⟩
    · rw [if_pos hnone] at hkind
      cases hkind
    · simpa using List.countP_eq_zero.mp htags e he

variable {memory : Memory} {rounds : Nat} {tokens : List Token}
  {scopes : Symtable.Scopes} {s : State}

/-- **A program is a tree** of nodes that are as the schema says: none of them hangs in two
places, and each has an id of its own that was given out in the run. -/
theorem run_tree (h : run rounds tokens scopes memory = .ok (a, s)) :
    a.kind = .p4Program ∧ (∀ n ∈ a.nodes, WellTyped n ∧ n ≠ .null ∧ n.id < s.nodeId) ∧
      (a.nodes.map Ast.id).Nodup := by
  have hfinished := run_finished rounds tokens scopes memory
  rw [h] at hfinished
  cases hfinished with
  | returned _ _ _ hprogram =>
    refine ⟨hprogram.kind_eq, fun n hn => ?_, (run_load h).1⟩
    obtain ⟨hwell, hnode⟩ := hprogram.wellTyped.mem_nodes hn
    exact ⟨hwell, hnode, run_ids h n hn⟩

/-- The nodes of a program have no flaws if the parser kept no name that is the keyword
`error`. -/
theorem printable_of_kept (h : run rounds tokens scopes memory = .ok (a, s))
    (hkept : namesKept false s.trace = 0) : ∀ n ∈ a.nodes, n.Printable := by
  rw [← (run_load h).2] at hkept
  have hfinished := run_finished rounds tokens scopes memory
  rw [h] at hfinished
  cases hfinished with
  | returned _ _ _ hprogram =>
    intro n hn
    obtain ⟨hwell, hnode⟩ := hprogram.wellTyped.mem_nodes hn
    exact hwell.printable hnode (List.sum_eq_zero_iff_forall_eq_nat.mp hkept _
      (List.mem_map_of_mem hn))

/-- Where the printer comes to an end of a program with the right tags, no such name was kept. -/
theorem kept_of_printed {fuel : Nat} {out : List Block}
    (h : run rounds tokens scopes memory = .ok (a, s))
    (htagged : ∀ n ∈ a.nodes, ∀ e ∈ n.attrs, e.Tagged) (hprint : printAst fuel a = .ok out) :
    namesKept false s.trace = 0 := by
  have hkinds := kind_of_printAst fuel a hprint htagged
  rw [← (run_load h).2]
  refine List.sum_eq_zero fun flaws hmem => ?_
  obtain ⟨n, hn, rfl⟩ := List.mem_map.mp hmem
  rw [Ast.flaws, if_neg (hkinds n hn), Nat.add_zero, List.countP_eq_zero]
  exact fun e he => by simpa using htagged n hn e he

/-- All attributes are tagged with the type of their value, and the printer prints each node
once. -/
def Printed (a : Ast) : Prop := (∀ n ∈ a.nodes, ∀ e ∈ n.attrs, e.Tagged) ∧ PrintsOnce a

/-- **A program prints** unless it kept a name that is the keyword `error`. -/
theorem printed_iff (h : run rounds tokens scopes memory = .ok (a, s)) :
    Printed a ↔ namesKept false s.trace = 0 := by
  constructor
  · rintro ⟨htagged, -, fuel, out, hprint, -⟩
    exact kept_of_printed h htagged hprint
  · intro hkept
    have hprintable := printable_of_kept h hkept
    refine ⟨fun n hn => (hprintable n hn).tagged, (run_load h).1, a.nodes.length + 1, ?_⟩
    exact printAst_perm _ a (Nat.lt_succ_self _) hprintable

/-- The tags are right, and a recursion of the printer, not deeper than there are nodes, prints
each of them once. -/
structure Prints (a : Ast) : Prop where
  tagged : ∀ n ∈ a.nodes, ∀ e ∈ n.attrs, e.Tagged
  printed : ∃ out, printAst (a.nodes.length + 1) a = .ok out ∧
    (out.map Except.ok).Perm (a.nodes.map printNode)

/-- The printer can trust the tags unless the parser took `error` for a name and kept it. -/
theorem prints_iff (h : run rounds tokens scopes memory = .ok (a, s)) :
    Prints a ↔ namesKept false s.trace = 0 := by
  constructor
  · rintro ⟨htagged, out, hprint, -⟩
    exact kept_of_printed h htagged hprint
  · intro hkept
    have hprintable := printable_of_kept h hkept
    exact ⟨fun n hn => (hprintable n hn).tagged, printAst_perm _ a (Nat.lt_succ_self _) hprintable⟩

/-- `const bool b = true;` -/
def constTrue : List Token :=
  classesOnly [.startOfInput, .const, .bool, .identifier, .equal, .true, .semicolon, .endOfInput]

theorem run_tree_constTrue : ∃ a s, run 0 constTrue {} (fun _ _ => 0) = .ok (a, s) ∧
    a.kind = .p4Program ∧ (∀ n ∈ a.nodes, WellTyped n ∧ n ≠ .null ∧ n.id < s.nodeId) ∧
      (a.nodes.map Ast.id).Nodup := by
  have hrun : ((run 0 constTrue {} fun _ _ => 0).toOption.map fun r => r.2.nodeId) = some 6 := by
    decide +kernel
  obtain ⟨⟨a, s⟩, hok, -⟩ := ok_of_toOption hrun
  exact ⟨a, s, hok, run_tree hok⟩

theorem printed_constTrue : ∃ a s, run 0 constTrue {} (fun _ _ => 0) = .ok (a, s) ∧ Printed a := by
  have hrun : ((run 0 constTrue {} fun _ _ => 0).toOption.map fun r => namesKept false r.2.trace) =
      some 0 := by decide +kernel
  obtain ⟨⟨a, s⟩, hok, hkept⟩ := ok_of_toOption hrun
  exact ⟨a, s, hok, (printed_iff hok).mpr hkept⟩

theorem prints_constTrue : ∃ a s, run 0 constTrue {} (fun _ _ => 0) = .ok (a, s) ∧ Prints a := by
  have hrun : ((run 0 constTrue {} fun _ _ => 0).toOption.map fun r => namesKept false r.2.trace) =
      some 0 := by decide +kernel
  obtain ⟨⟨a, s⟩, hok, hkept⟩ := ok_of_toOption hrun
  exact ⟨a, s, hok, (prints_iff hok).mpr hkept⟩

/-- `const bool b = error.x;` -/
def constError : List Token :=
  classesOnly [.startOfInput, .const, .bool, .identifier, .equal, .error, .dotPrefix, .identifier,
    .semicolon, .endOfInput]

theorem prints_fails : ∃ a s, run 0 constError {} (fun _ _ => 0) = .ok (a, s) ∧ ¬ Prints a := by
  have hrun : ((run 0 constError {} fun _ _ => 0).toOption.map fun r => namesKept false r.2.trace) =
      some 1 := by decide +kernel
  obtain ⟨⟨a, s⟩, hok, hkept⟩ := ok_of_toOption hrun
  refine ⟨a, s, hok, fun h => ?_⟩
  obtain ⟨out, hprint, -⟩ := h.printed
  have hnone := kept_of_printed hok h.tagged hprint
  rw [show namesKept false s.trace = 1 from hkept] at hnone
  cases hnone

end Dp4c.Parse
