import Dp4c.BuildSymtable.Items
import Dp4c.BuildSymtable.Pass
import Dp4c.Parse.Schema

/-! # The declarations of a tree

The items that the pass finds in a tree, read off the tree without the table: which names it
declares in which order, and where its scopes are. -/
namespace Dp4c.BuildSymtable

open Dp4c.Lib Dp4c.Symtable Dp4c.Parse

/-! ## Attributes -/

def attrAst (ast : Ast) (attr : AttrName) : Ast :=
  match ast.getattr attr with
  | some (.ast a) => a
  | _ => .null

def attrList (ast : Ast) (attr : AttrName) : Option (List Ast) :=
  match ast.getattr attr with
  | some (.list links _) => some links
  | _ => none

def attrString (ast : Ast) (attr : AttrName) : Cstr :=
  match ast.getattr attr with
  | some (.string s) => s
  | _ => Cstr.ofString ""

def attrBool (ast : Ast) (attr : AttrName) : Bool :=
  match ast.getattr attr with
  | some (.bool b) => b
  | _ => false

/-! ## Items -/

def declaredName (decl : Ast) : Cstr := attrString (attrAst decl .name) .name

def declareItem (ns : Space) (decl : Ast) : Item :=
  .declare ns (declaredName decl) decl.id (attrAst decl .name).lineNr

def protoItem (functionProto : Ast) : Item := .proto (declaredName functionProto) functionProto.id

/-- A scope for a list that may be missing. -/
def scopeOver (f : List Ast → List Item) : Option (List Ast) → List Item
  | none => []
  | some links => [.scope (f links)]

mutual

/-- The items of a declaration or a statement in a control or a block. -/
def localItems : Ast → List Item
  | .null => [.unlisted]
  | .node kind id lineNr attrs =>
    if kind = .instantiation ∨ kind = .actionDecl ∨ kind = .varDecl ∨ kind = .tableDecl then
      [declareItem .ident (.node kind id lineNr attrs)]
    else if kind = .blockStmt then [.scope (blockItems attrs)]
    else if kind = .methodCallStmt ∨ kind = .assignmentStmt ∨ kind = .ifStmt ∨
        kind = .switchStmt ∨ kind = .directApplic then []
    else [.unlisted]

/-- The items of a block with these attributes. -/
def blockItems : List (Attribute Ast) → List Item
  | [] => []
  | ⟨attr, _, value⟩ :: attrs => if attr = .stmtList then valueItems value else blockItems attrs

def valueItems : Value Ast → List Item
  | .list links _ => linksItems links
  | .ast _ | .nullList | .string _ | .int _ | .bool _ | .flags _ | .direction _ | .baseType _
  | .operator _ => []

def linksItems : List Ast → List Item
  | [] => []
  | ast :: links => localItems ast ++ linksItems links

end

def applyItems : Ast → List Item
  | .null => []
  | .node _ _ _ attrs => [.scope (blockItems attrs)]

def controlItems (controlDecl : Ast) : List Item :=
  [declareItem .type (attrAst controlDecl .typeDecl),
    .scope (scopeOver linksItems (attrList controlDecl .localDecls) ++
      applyItems (attrAst controlDecl .applyStmt))]

def elementItem (element : Ast) : Item :=
  if element.kind = .constDecl ∨ element.kind = .instantiation ∨ element.kind = .varDecl then
    declareItem .ident element
  else .unlisted

def parserItems (parserDecl : Ast) : List Item :=
  [declareItem .type (attrAst parserDecl .typeDecl),
    .scope (scopeOver (List.map elementItem) (attrList parserDecl .localElements))]

def externItems (externDecl : Ast) : List Item :=
  declareItem .type externDecl ::
    scopeOver (List.map protoItem) (attrList externDecl .methodProtos)

def structItems (structDecl : Ast) : List Item :=
  declareItem .type structDecl ::
    scopeOver (List.map (declareItem .ident)) (attrList structDecl .fields)

/-- The items of a declaration of the program. -/
def declItems (decl : Ast) : List Item :=
  match decl.kind with
  | .control => controlItems decl
  | .externDecl => externItems decl
  | .structDecl | .headerDecl => structItems decl
  | .package => [declareItem .type decl]
  | .parser => parserItems decl
  | .instantiation => [declareItem .ident decl]
  | .typeDecl => if attrBool decl .isTypedef then [declareItem .type decl] else []
  | .functionProto => [protoItem decl]
  | .constDecl => [declareItem .ident decl]
  | _ => []

def programItems (ast : Ast) : List Item :=
  ((attrList ast .declList).getD []).flatMap declItems

theorem linksItems_eq (links : List Ast) : linksItems links = links.flatMap localItems := by
  induction links with
  | nil => rfl
  | cons ast links ih => rw [linksItems, List.flatMap_cons, ih]

theorem blockItems_eq (kind : AstKind) (id lineNr : Nat) (attrs : List (Attribute Ast)) :
    blockItems attrs = ((attrList (.node kind id lineNr attrs) .stmtList).getD []).flatMap
      localItems := by
  unfold attrList Ast.getattr Ast.attrs
  induction attrs with
  | nil => rfl
  | cons e attrs ih =>
    obtain ⟨attr, type, value⟩ := e
    rw [blockItems, List.find?_cons]
    by_cases h : attr = .stmtList
    · rw [if_pos h, decide_eq_true h]
      cases value with
      | list links linkCount => exact linksItems_eq links
      | _ => rfl
    · rw [if_neg h, decide_eq_false h]
      exact ih

/-! ## Reading well-typed trees -/

variable {a : Ast} {kinds : AstKind → Bool} {attr : AttrName}

theorem ne_null (h : Is kinds a) (hnone : kinds .none = false) : a ≠ .null := by
  rintro rfl
  rw [show kinds .none = true from h.kind] at hnone
  cases hnone

theorem getattr_eq (hnode : a ≠ .null) : getattr a attr = pure (a.getattr attr) := by
  cases a with
  | null => exact absurd rfl hnode
  | node kind id lineNr attrs => rfl

theorem getattr_fits (h : WellTyped a) {value : Value Ast} (hv : a.getattr attr = some value)
    {slot : Slot} (hslot : (schema a.kind).lookup attr = some slot) :
    (∃ type, slot.Fits type value) ∧ ∀ b ∈ value.children, WellTyped b := by
  cases h with
  | null => cases hv
  | @node kind id lineNr attrs htyped _ hchildren =>
    obtain ⟨e, hfind, rfl⟩ := Option.map_eq_some_iff.mp hv
    have he : e ∈ attrs := List.mem_of_find?_eq_some hfind
    have hname := List.find?_some hfind
    rw [decide_eq_true_eq] at hname
    obtain ⟨slot', hslot', hfits⟩ := htyped.fits e he
    rw [hname] at hslot'
    obtain rfl := Option.some.inj (hslot'.symm.trans hslot)
    exact ⟨⟨e.type, hfits⟩, hchildren e he⟩

theorem getattr_required (h : WellTyped a) (hreq : attr ∈ required a.kind) :
    ∃ value, a.getattr attr = some value := by
  cases h with
  | null => cases hreq
  | @node kind id lineNr attrs _ hfull _ =>
    obtain ⟨e, he, hname⟩ := List.mem_map.mp (hfull attr hreq)
    have hfound : (attrs.find? (·.name = attr)).isSome :=
      List.find?_isSome.mpr ⟨e, he, decide_eq_true hname⟩
    obtain ⟨d, hd⟩ := Option.isSome_iff_exists.mp hfound
    refine ⟨d.value, ?_⟩
    unfold Ast.getattr Ast.attrs
    rw [hd, Option.map_some]

theorem ne_null_of_schema {slot : Slot} (hslot : (schema a.kind).lookup attr = some slot) :
    a ≠ .null := by
  rintro rfl
  cases hslot

/-- Reading an attribute that leads to a node. -/
theorem getAst_eq (h : WellTyped a) (attr : AttrName)
    (hslot : (schema a.kind).lookup attr = some (.ast kinds)) :
    getAst a attr = pure (attrAst a attr) ∧
      (attr ∈ required a.kind ∨ attrAst a attr ≠ .null → Is kinds (attrAst a attr)) := by
  unfold getAst attrAst
  rw [getattr_eq (ne_null_of_schema hslot), pure_bind]
  cases hv : a.getattr attr with
  | none =>
    refine ⟨rfl, fun hreq => ?_⟩
    rcases hreq with hreq | hnull
    · obtain ⟨value, hvalue⟩ := getattr_required h hreq
      rw [hvalue] at hv
      cases hv
    · exact absurd rfl hnull
  | some value =>
    obtain ⟨⟨type, hfits⟩, hchildren⟩ := getattr_fits h hv hslot
    cases value with
    | ast b =>
      refine ⟨rfl, fun _ => ⟨hchildren b (List.mem_singleton_self b), ?_⟩⟩
      cases type <;> first | exact hfits | cases hfits
    | _ => cases type <;> cases hfits

/-- Reading an attribute that leads to a list. -/
theorem getList_eq (h : WellTyped a) (attr : AttrName)
    (hslot : (schema a.kind).lookup attr = some (.list kinds)) :
    getList a attr = pure (attrList a attr) ∧
      ∀ links, attrList a attr = some links → ∀ b ∈ links, Is kinds b := by
  unfold getList attrList
  rw [getattr_eq (ne_null_of_schema hslot), pure_bind]
  cases hv : a.getattr attr with
  | none => exact ⟨rfl, fun _ h => by cases h⟩
  | some value =>
    obtain ⟨⟨type, hfits⟩, hchildren⟩ := getattr_fits h hv hslot
    cases value with
    | nullList => exact ⟨rfl, fun _ h => by cases h⟩
    | list links linkCount =>
      refine ⟨rfl, fun links' hlinks b hb => ⟨?_, ?_⟩⟩
      · obtain rfl := Option.some.inj hlinks
        exact hchildren b hb
      · obtain rfl := Option.some.inj hlinks
        cases type <;> first | exact hfits b hb | cases hfits
    | _ => cases type <;> cases hfits

/-- A name has its characters. -/
theorem name_string (h : Is (isKind .name) a) : ∃ s, a.getattr .name = some (.string s) := by
  have hkind : a.kind = .name := eq_of_beq h.kind
  have hreq : AttrName.name ∈ required a.kind := by rw [hkind]; exact List.mem_singleton_self _
  have hslot : (schema a.kind).lookup .name = some .errorString := by rw [hkind]; rfl
  obtain ⟨value, hv⟩ := getattr_required h.wellTyped hreq
  obtain ⟨⟨type, hfits⟩, -⟩ := getattr_fits h.wellTyped hv hslot
  cases value with
  | string s => exact ⟨s, hv⟩
  | _ => cases type <;> cases hfits

/-- Reading the characters of a name. -/
theorem getString_eq (h : Is (isKind .name) a) : getString a .name = pure (attrString a .name) := by
  obtain ⟨s, hs⟩ := name_string h
  unfold getString attrString
  rw [getattr_eq (ne_null h rfl), pure_bind, hs]

theorem nameOf_eq (h : WellTyped a) (hreq : AttrName.name ∈ required a.kind)
    (hslot : (schema a.kind).lookup .name = some nameSlot) :
    nameOf a = pure (attrAst a .name, declaredName a) := by
  obtain ⟨hget, his⟩ := getAst_eq h .name hslot
  unfold nameOf declaredName
  rw [hget, pure_bind, getString_eq (his (.inl hreq)), pure_bind]

end Dp4c.BuildSymtable
