import Dp4c.BuildSymtable.Walk
import Dp4c.Parse.Independence

/-! # The declared names are words

Every name among the items of a tree is a string of the tree. For a tree of the parser it is
a word of the input. -/
namespace Dp4c.BuildSymtable

open Dp4c.Lib Dp4c.Symtable
open Dp4c.Parse (Is WellTyped schema Fine)

variable {p : Cstr → Prop} {a b : Ast} {attr : AttrName} {links : List Ast} {items rest : List Item}

/-! ## Legible trees -/

theorem Fine.entry (h : Fine p a) {value : Value Ast} (hv : a.getattr attr = some value) :
    ∃ type, Parse.FineEntry p ⟨attr, type, value⟩ ∧ ∀ b ∈ value.children, Fine p b := by
  cases a with
  | null => cases hv
  | node kind id lineNr attrs =>
    obtain ⟨e, hfind, rfl⟩ := Option.map_eq_some_iff.mp hv
    obtain ⟨hentry, hfine⟩ := Parse.fine_node_iff.mp h e (List.mem_of_find?_eq_some hfind)
    have hname := List.find?_some hfind
    rw [decide_eq_true_eq] at hname
    exact ⟨e.type, hname ▸ hentry, hfine⟩

theorem wellTyped_entry (h : WellTyped a) {value : Value Ast} (hv : a.getattr attr = some value)
    (hb : b ∈ value.children) : WellTyped b := by
  cases h with
  | null => cases hv
  | @node kind id lineNr attrs _ _ hchildren =>
    obtain ⟨e, hfind, rfl⟩ := Option.map_eq_some_iff.mp hv
    exact hchildren e (List.mem_of_find?_eq_some hfind) b hb

/-- A well-typed tree whose strings are words. -/
structure Legible (p : Cstr → Prop) (a : Ast) : Prop where
  wellTyped : WellTyped a
  fine : Fine p a

/-- What an attribute of a node says. -/
theorem Legible.entry (h : Legible p a) {value : Value Ast} (hv : a.getattr attr = some value) :
    ∃ type, Parse.FineEntry p ⟨attr, type, value⟩ ∧ ∀ b ∈ value.children, Legible p b := by
  obtain ⟨type, hentry, hfine⟩ := Fine.entry h.fine hv
  exact ⟨type, hentry, fun b hb => ⟨wellTyped_entry h.wellTyped hv hb, hfine b hb⟩⟩

theorem Legible.attrAst (h : Legible p a) (attr : AttrName) : Legible p (attrAst a attr) := by
  unfold BuildSymtable.attrAst
  split
  · rename_i b hv
    obtain ⟨type, -, hchildren⟩ := h.entry hv
    exact hchildren b (List.mem_singleton_self b)
  · exact ⟨.null, Parse.fine_null p⟩

theorem Legible.attrList (h : Legible p a) (hl : attrList a attr = some links) (hb : b ∈ links) :
    Legible p b := by
  unfold BuildSymtable.attrList at hl
  split at hl
  · rename_i hv
    obtain rfl := Option.some.inj hl
    obtain ⟨type, -, hchildren⟩ := h.entry hv
    exact hchildren b hb
  · cases hl

/-- The declared name is a word. -/
theorem Legible.declaredName (h : Legible p a) (hname : HasName a) : p (declaredName a) := by
  obtain ⟨-, his⟩ := getAst_eq h.wellTyped .name hname.slot
  obtain ⟨s, hs⟩ := name_string (his (.inl hname.req))
  unfold BuildSymtable.declaredName attrString
  rw [hs]
  obtain ⟨type, hentry, -⟩ := (h.attrAst .name).entry hs
  exact hentry.word s rfl

/-! ## The names of items -/

def Spelt (p : Cstr → Prop) (items : List Item) : Prop := ∀ name ∈ namesIn items, p name

namespace Spelt

theorem nil : Spelt p [] := fun _ h => absurd h List.not_mem_nil

theorem append (h : Spelt p items) (hrest : Spelt p rest) : Spelt p (items ++ rest) := by
  intro name hname
  rw [namesIn_append] at hname
  exact (List.mem_append.mp hname).elim (h name) (hrest name)

theorem singleton {item : Item} (h : ∀ name ∈ item.names, p name) : Spelt p [item] := by
  intro name hname
  rw [namesIn, namesIn, List.append_nil] at hname
  exact h name hname

theorem scope (h : Spelt p items) : Spelt p [.scope items] := singleton h

theorem unlisted : Spelt p [.unlisted] := singleton fun _ h => absurd h List.not_mem_nil

theorem declare {ns : Space} (h : Legible p a) (hname : HasName a) : Spelt p [declareItem ns a] :=
  singleton fun _ h' => List.mem_singleton.mp h' ▸ h.declaredName hname

theorem proto (h : Legible p a) (hname : HasName a) : Spelt p [protoItem a] :=
  singleton fun _ h' => List.mem_singleton.mp h' ▸ h.declaredName hname

theorem flatMap {f : Ast → List Item} : ∀ {links : List Ast}, (∀ b ∈ links, Spelt p (f b)) →
    Spelt p (links.flatMap f)
  | [], _ => nil
  | b :: links, h => by
    rw [List.flatMap_cons]
    exact (h b (List.mem_cons_self ..)).append (flatMap fun c hc => h c (List.mem_cons_of_mem _ hc))

theorem map {f : Ast → Item} (h : ∀ b ∈ links, Spelt p [f b]) : Spelt p (links.map f) := by
  rw [List.map_eq_flatMap]
  exact flatMap h

theorem scopeOver {f : List Ast → List Item} {links : Option (List Ast)}
    (h : ∀ l, links = some l → Spelt p (f l)) : Spelt p (scopeOver f links) := by
  cases links with
  | none => exact nil
  | some l => exact scope (h l rfl)

end Spelt

/-! ## The items of a tree -/

theorem localItems_spelt {a : Ast} (h : Legible p a) : Spelt p (localItems a) := by
  cases a with
  | null => exact .unlisted
  | node kind id lineNr attrs =>
    rw [localItems]
    split
    · rename_i hkind
      refine .declare h (hasName h.wellTyped ?_)
      rcases hkind with rfl | rfl | rfl | rfl <;> rfl
    split
    · rw [blockItems_eq kind id lineNr]
      refine .scope (.flatMap fun b hb => ?_)
      cases hl : attrList (.node kind id lineNr attrs) .stmtList with
      | none => rw [hl] at hb; exact absurd hb List.not_mem_nil
      | some links =>
        rw [hl] at hb
        have hlt := nodes_attrList hl hb
        exact localItems_spelt (h.attrList hl hb)
    split
    · exact .nil
    · exact .unlisted
termination_by a.nodes.length

theorem applyItems_spelt (h : Legible p a) : Spelt p (applyItems a) := by
  cases a with
  | null => exact .nil
  | node kind id lineNr attrs =>
    rw [applyItems, blockItems_eq kind id lineNr]
    refine .scope (.flatMap fun b hb => ?_)
    cases hl : attrList (.node kind id lineNr attrs) .stmtList with
    | none => rw [hl] at hb; exact absurd hb List.not_mem_nil
    | some links =>
      rw [hl] at hb
      exact localItems_spelt (h.attrList hl hb)

theorem elementItem_spelt (h : Legible p a) : Spelt p [elementItem a] := by
  unfold elementItem
  split
  · rename_i hkind
    refine .declare h (hasName h.wellTyped ?_)
    rcases hkind with hkind | hkind | hkind <;> rw [hkind] <;> rfl
  · exact .unlisted

theorem controlItems_spelt (h : Legible p a) (hkind : a.kind = .control) :
    Spelt p (controlItems a) := by
  have hslot : (schema a.kind).lookup .typeDecl = some (.ast (Parse.isKind .controlType)) := by
    rw [hkind]
    rfl
  have hreq : AttrName.typeDecl ∈ Parse.required a.kind := by
    rw [hkind]
    exact List.mem_singleton_self _
  have htype := (getAst_eq h.wellTyped .typeDecl hslot).2 (.inl hreq)
  have hnamed : named (attrAst a .typeDecl).kind = true := by
    rw [eq_of_beq htype.kind]
    rfl
  refine Spelt.append (.declare (h.attrAst .typeDecl) (hasName htype.wellTyped hnamed))
    (.scope (.append (.scopeOver fun l hl => ?_) (applyItems_spelt (h.attrAst .applyStmt))))
  rw [linksItems_eq]
  exact .flatMap fun b hb => localItems_spelt (h.attrList hl hb)

theorem parserItems_spelt (h : Legible p a) (hkind : a.kind = .parser) :
    Spelt p (parserItems a) := by
  have hslot : (schema a.kind).lookup .typeDecl = some (.ast (Parse.isKind .parserType)) := by
    rw [hkind]
    rfl
  have hreq : AttrName.typeDecl ∈ Parse.required a.kind := by
    rw [hkind]
    exact List.mem_singleton_self _
  have htype := (getAst_eq h.wellTyped .typeDecl hslot).2 (.inl hreq)
  have hnamed : named (attrAst a .typeDecl).kind = true := by
    rw [eq_of_beq htype.kind]
    rfl
  refine Spelt.append (.declare (h.attrAst .typeDecl) (hasName htype.wellTyped hnamed))
    (.scope (.scopeOver fun l hl => .map fun b hb => elementItem_spelt (h.attrList hl hb)))

theorem externItems_spelt (h : Legible p a) (hkind : a.kind = .externDecl) :
    Spelt p (externItems a) := by
  have hslot : (schema a.kind).lookup .methodProtos =
      some (.list (Parse.isKind .functionProto)) := by
    rw [hkind]
    rfl
  have hproto := (getList_eq h.wellTyped .methodProtos hslot).2
  refine Spelt.append (.declare h (hasName h.wellTyped (by rw [hkind]; rfl)))
    (.scopeOver fun l hl => .map fun b hb => .proto (h.attrList hl hb) ?_)
  refine hasName (h.attrList hl hb).wellTyped ?_
  rw [eq_of_beq (hproto l hl b hb).kind]
  rfl

theorem structItems_spelt (h : Legible p a) (hkind : a.kind = .structDecl ∨ a.kind = .headerDecl) :
    Spelt p (structItems a) := by
  have hslot : (schema a.kind).lookup .fields = some (.list (Parse.isKind .structField)) := by
    rcases hkind with hkind | hkind <;> rw [hkind] <;> rfl
  have hfield := (getList_eq h.wellTyped .fields hslot).2
  have hnamed : named a.kind = true := by rcases hkind with hkind | hkind <;> rw [hkind] <;> rfl
  refine Spelt.append (.declare h (hasName h.wellTyped hnamed))
    (.scopeOver fun l hl => .map fun b hb => .declare (h.attrList hl hb) ?_)
  refine hasName (h.attrList hl hb).wellTyped ?_
  rw [eq_of_beq (hfield l hl b hb).kind]
  rfl

theorem declItems_spelt (h : Legible p a) : Spelt p (declItems a) := by
  unfold declItems
  split
  case h_1 hkind => exact controlItems_spelt h hkind
  case h_2 hkind => exact externItems_spelt h hkind
  case h_3 hkind => exact structItems_spelt h (.inl hkind)
  case h_4 hkind => exact structItems_spelt h (.inr hkind)
  case h_5 hkind => exact .declare h (hasName h.wellTyped (by rw [hkind]; rfl))
  case h_6 hkind => exact parserItems_spelt h hkind
  case h_7 hkind => exact .declare h (hasName h.wellTyped (by rw [hkind]; rfl))
  case h_8 hkind =>
    split
    · exact .declare h (hasName h.wellTyped (by rw [hkind]; rfl))
    · exact .nil
  case h_9 hkind => exact .proto h (hasName h.wellTyped (by rw [hkind]; rfl))
  case h_10 hkind => exact .declare h (hasName h.wellTyped (by rw [hkind]; rfl))
  case h_11 => exact .nil

theorem programItems_spelt (h : Legible p a) : Spelt p (programItems a) := by
  refine .flatMap fun b hb => ?_
  cases hl : attrList a .declList with
  | none => rw [hl] at hb; exact absurd hb List.not_mem_nil
  | some links =>
    rw [hl] at hb
    exact declItems_spelt (h.attrList hl hb)

end Dp4c.BuildSymtable
