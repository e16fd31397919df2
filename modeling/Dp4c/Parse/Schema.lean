import Dp4c.Parse.Machine
import Mathlib.Data.List.Perm.Subperm

/-! # What the nodes of a tree hold

`schema` says for every kind of node which attributes it may have and what they hold;
`required` which ones it cannot lack. A tree is well typed if all of its nodes keep to
it. One entry is there for a defect: the attribute `name` of an `Ast_Name` may be tagged
as a node although it holds a string. -/
namespace Dp4c.Parse

/-! ## Sets of kinds -/

def isKind (kind : AstKind) : AstKind → Bool := fun k => k == kind

def isTypeKind (k : AstKind) : Bool :=
  k == .baseType || k == .name || k == .specdType || k == .headerStack || k == .tuple

/-- What `build_typeName` makes. -/
def isTypeNameKind (k : AstKind) : Bool := k == .name || k == .specdType || k == .headerStack

def isTypeArgKind (k : AstKind) : Bool := k == .dontcare || isTypeKind k

def isExprKind (k : AstKind) : Bool :=
  k == .int || k == .bool || k == .stringLiteral || k == .name || k == .specdType ||
    k == .headerStack || k == .expressionListExpr || k == .castExpr || k == .unaryExpr ||
    k == .binaryExpr || k == .kvPair || k == .memberSelectExpr || k == .indexedArrayExpr ||
    k == .functionCallExpr || k == .typeArgsExpr

/-- An expression or the null pointer. -/
def isOptExprKind (k : AstKind) : Bool := k == .none || isExprKind k

def isArgKind (k : AstKind) : Bool := k == .argument || k == .dontcare || isExprKind k

def isSimpleKeysetKind (k : AstKind) : Bool := k == .default || k == .dontcare || isExprKind k

def isKeysetKind (k : AstKind) : Bool := k == .tupleKeyset || isSimpleKeysetKind k

def isStmtKind (k : AstKind) : Bool :=
  k == .directApplic || k == .methodCallStmt || k == .assignmentStmt || k == .ifStmt ||
    k == .emptyStmt || k == .blockStmt || k == .exitStmt || k == .returnStmt || k == .switchStmt

def isLocalElementKind (k : AstKind) : Bool :=
  k == .constDecl || k == .instantiation || k == .varDecl

def isStmtOrDeclKind (k : AstKind) : Bool := isLocalElementKind k || isStmtKind k

def isControlLocalKind (k : AstKind) : Bool :=
  k == .actionDecl || k == .tableDecl || isLocalElementKind k

def isLvalueExprKind (k : AstKind) : Bool := k == .name || k == .arrayIndex

def isPropKind (k : AstKind) : Bool :=
  k == .tablePropKey || k == .tablePropActions || k == .tablePropEntries ||
    k == .tablePropSingleEntry

def isDerivedKind (k : AstKind) : Bool :=
  k == .headerDecl || k == .headerUnionDecl || k == .structDecl || k == .enumDecl

def isTransKind (k : AstKind) : Bool := k == .name || k == .selectExpr

def isLabelKind (k : AstKind) : Bool := k == .switchLabel || k == .default

def isDeclKind (k : AstKind) : Bool :=
  k == .constDecl || k == .externDecl || k == .functionProto || k == .actionDecl ||
    isDerivedKind k ||
    k == .typeDecl || k == .parser || k == .control || k == .package || k == .error ||
    k == .matchKind || k == .instantiation || k == .functionDecl

def allKinds : List AstKind :=
  [.none, .name, .baseType, .constDecl, .externDecl, .functionProto, .actionDecl, .headerDecl,
    .headerUnionDecl, .structDecl, .enumDecl, .typeDecl, .parser, .control, .package,
    .instantiation, .error, .matchKind, .functionDecl, .dontcare, .intTypeSize, .int, .bool,
    .stringLiteral, .tuple, .tupleKeyset, .headerStack, .specdType, .structField, .specdId,
    .parserType, .argument, .varDecl, .directApplic, .arrayIndex, .parameter, .lvalue,
    .assignmentStmt, .methodCallStmt, .emptyStmt, .default, .selectExpr, .selectCase,
    .parserState, .controlType, .keyElement, .actionRef, .tableEntry, .tablePropKey,
    .tablePropActions, .tablePropEntries, .tablePropSingleEntry, .tableDecl, .ifStmt, .exitStmt,
    .returnStmt, .switchLabel, .switchCase, .switchStmt, .blockStmt, .expressionListExpr,
    .castExpr, .unaryExpr, .binaryExpr, .kvPair, .memberSelectExpr, .indexedArrayExpr,
    .functionCallExpr, .typeArgsExpr, .p4Program]

theorem mem_allKinds (k : AstKind) : k ∈ allKinds := by cases k <;> decide

instance {P : AstKind → Prop} [DecidablePred P] : Decidable (∀ k, P k) :=
  decidable_of_iff (∀ k ∈ allKinds, P k) ⟨fun h k => h k (mem_allKinds k), fun h k _ => h k⟩

/-! ## Attributes -/

/-- What an attribute holds; `kinds` are those of the nodes it leads to, with `none` for
the null pointer. -/
inductive Slot where
  | ast (kinds : AstKind → Bool)
  | list (kinds : AstKind → Bool)
  | string
  /-- A string, or a string tagged as a node. -/
  | errorString
  | integer
  | operator

/-- The tag and the value are those of the slot. -/
def Slot.Fits : Slot → AstAttributeType → Value Ast → Prop
  | .ast kinds, .ast, .ast a => kinds a.kind = true
  | .list _, .astList, .nullList => True
  | .list kinds, .astList, .list links _ => ∀ a ∈ links, kinds a.kind = true
  | .string, .string, .string _ => True
  | .errorString, .string, .string _ => True
  | .errorString, .ast, .string _ => True
  | .integer, .integer, .int _ => True
  | .integer, .integer, .bool _ => True
  | .integer, .integer, .flags _ => True
  | .integer, .integer, .direction _ => True
  | .integer, .integer, .baseType _ => True
  | .operator, .exprOperator, .operator _ => True
  | _, _, _ => False

def nameSlot : Slot := .ast (isKind .name)
def exprSlot : Slot := .ast isExprKind
def optExprSlot : Slot := .ast isOptExprKind
def typeSlot : Slot := .ast isTypeKind
def blockSlot : Slot := .ast (isKind .blockStmt)
def namesSlot : Slot := .list (isKind .name)
def paramsSlot : Slot := .list (isKind .parameter)
def argsSlot : Slot := .list isArgKind

def schema : AstKind → List (AttrName × Slot)
  | .name => [(.name, .errorString), (.isDotprefixed, .integer)]
  | .baseType => [(.baseType, .integer), (.size, .ast (isKind .intTypeSize))]
  | .constDecl => [(.typeRef, typeSlot), (.name, nameSlot), (.expr, exprSlot)]
  | .externDecl =>
    [(.name, nameSlot), (.typeParams, namesSlot), (.methodProtos, .list (isKind .functionProto))]
  | .functionProto =>
    [(.returnType, typeSlot), (.name, nameSlot), (.typeParams, namesSlot), (.params, paramsSlot)]
  | .actionDecl => [(.name, nameSlot), (.params, paramsSlot), (.stmt, blockSlot)]
  | .headerDecl | .headerUnionDecl | .structDecl =>
    [(.name, nameSlot), (.fields, .list (isKind .structField))]
  | .enumDecl =>
    [(.typeSize, .ast (isKind .int)), (.name, nameSlot), (.idList, .list (isKind .specdId))]
  | .typeDecl =>
    [(.isTypedef, .integer), (.typeRef, .ast fun k => isTypeKind k || isDerivedKind k),
      (.name, nameSlot)]
  | .parser =>
    [(.typeDecl, .ast (isKind .parserType)), (.ctorParams, paramsSlot),
      (.localElements, .list isLocalElementKind), (.states, .list (isKind .parserState))]
  | .control =>
    [(.typeDecl, .ast (isKind .controlType)), (.ctorParams, paramsSlot),
      (.localDecls, .list isControlLocalKind), (.applyStmt, blockSlot)]
  | .package | .parserType | .controlType =>
    [(.name, nameSlot), (.typeParams, namesSlot), (.params, paramsSlot)]
  | .instantiation => [(.typeRef, typeSlot), (.args, argsSlot), (.name, nameSlot)]
  | .error | .matchKind => [(.idList, namesSlot)]
  | .functionDecl => [(.proto, .ast (isKind .functionProto)), (.stmt, blockSlot)]
  | .intTypeSize => [(.size, exprSlot)]
  | .int => [(.flags, .integer), (.width, .integer), (.value, .integer)]
  | .bool => [(.value, .integer)]
  | .stringLiteral => [(.value, .string)]
  | .tuple => [(.typeArgs, .list isTypeArgKind)]
  | .tupleKeyset => [(.exprList, .list isSimpleKeysetKind)]
  | .headerStack => [(.stackExpr, exprSlot), (.name, .ast isTypeKind), (.isDotprefixed, .integer)]
  | .specdType =>
    [(.typeArgs, .list isTypeArgKind), (.name, nameSlot), (.isDotprefixed, .integer)]
  | .structField => [(.type, typeSlot), (.name, nameSlot)]
  | .specdId | .argument | .tablePropSingleEntry => [(.name, nameSlot), (.initExpr, exprSlot)]
  | .varDecl => [(.type, typeSlot), (.name, nameSlot), (.initExpr, optExprSlot)]
  | .directApplic => [(.name, typeSlot), (.args, argsSlot)]
  | .arrayIndex => [(.index, exprSlot), (.colonIndex, exprSlot)]
  | .parameter =>
    [(.direction, .integer), (.type, typeSlot), (.name, nameSlot), (.initExpr, exprSlot)]
  | .lvalue => [(.name, nameSlot), (.expr, .list isLvalueExprKind)]
  | .assignmentStmt => [(.lvalue, .ast (isKind .lvalue)), (.expr, exprSlot)]
  | .methodCallStmt =>
    [(.lvalue, .ast (isKind .lvalue)), (.typeArgs, .list isTypeArgKind), (.args, argsSlot)]
  | .selectExpr => [(.exprList, .list isExprKind), (.caseList, .list (isKind .selectCase))]
  | .selectCase => [(.keyset, .ast isKeysetKind), (.name, nameSlot)]
  | .parserState =>
    [(.name, nameSlot), (.stmtList, .list isStmtOrDeclKind), (.transStmt, .ast isTransKind)]
  | .keyElement => [(.expr, exprSlot), (.name, nameSlot)]
  | .actionRef => [(.name, nameSlot), (.args, argsSlot)]
  | .tableEntry => [(.keyset, .ast isKeysetKind), (.action, .ast (isKind .actionRef))]
  | .tablePropKey => [(.keyelemList, .list (isKind .keyElement))]
  | .tablePropActions => [(.actionList, .list (isKind .actionRef))]
  | .tablePropEntries => [(.isConst, .integer), (.entries, .list (isKind .tableEntry))]
  | .tableDecl => [(.name, nameSlot), (.propList, .list isPropKind)]
  | .ifStmt => [(.condExpr, exprSlot), (.stmt, .ast isStmtKind), (.elseStmt, .ast isStmtKind)]
  | .returnStmt => [(.expr, exprSlot)]
  | .switchLabel => [(.name, nameSlot)]
  | .switchCase => [(.label, .ast isLabelKind), (.stmt, blockSlot)]
  | .switchStmt => [(.expr, exprSlot), (.switchCases, .list (isKind .switchCase))]
  | .blockStmt => [(.stmtList, .list isStmtOrDeclKind)]
  | .expressionListExpr => [(.exprList, .list isExprKind)]
  | .castExpr => [(.toType, typeSlot), (.expr, exprSlot)]
  | .unaryExpr => [(.op, .operator), (.expr, exprSlot)]
  | .binaryExpr => [(.leftOperand, exprSlot), (.rightOperand, exprSlot), (.op, .operator)]
  | .kvPair => [(.name, exprSlot), (.expr, exprSlot)]
  | .memberSelectExpr => [(.expr, exprSlot), (.memberName, nameSlot)]
  | .indexedArrayExpr => [(.expr, exprSlot), (.indexExpr, .ast (isKind .arrayIndex))]
  | .functionCallExpr => [(.expr, exprSlot), (.args, argsSlot)]
  | .typeArgsExpr => [(.expr, exprSlot), (.typeArgs, .list isTypeArgKind)]
  | .p4Program => [(.declList, .list isDeclKind)]
  | _ => []

/-- The attributes that the symbol-table pass reads off a node without asking. -/
def required : AstKind → List AttrName
  | .name => [.name]
  | .constDecl | .externDecl | .functionProto | .actionDecl | .headerDecl | .headerUnionDecl
  | .structDecl | .package | .parserType | .controlType | .instantiation | .structField
  | .varDecl | .tableDecl => [.name]
  | .typeDecl => [.isTypedef, .name]
  | .parser | .control => [.typeDecl]
  | .p4Program => [.declList]
  | _ => []

/-- The attributes of a node keep to the schema; some may still be missing. -/
structure Typed (kind : AstKind) (attrs : List (Attribute Ast)) : Prop where
  nodup : (attrs.map (·.name)).Nodup
  fits : ∀ e ∈ attrs, ∃ slot, (schema kind).lookup e.name = some slot ∧ slot.Fits e.type e.value

/-- All nodes of a tree keep to the schema. -/
inductive WellTyped : Ast → Prop
  | null : WellTyped .null
  | node {kind : AstKind} {id lineNr : Nat} {attrs : List (Attribute Ast)} :
    Typed kind attrs → (∀ attr ∈ required kind, attr ∈ attrs.map (·.name)) →
    (∀ e ∈ attrs, ∀ a ∈ e.value.children, WellTyped a) → WellTyped (.node kind id lineNr attrs)

/-- A well-typed tree of one of these kinds. -/
structure Is (kinds : AstKind → Bool) (a : Ast) : Prop where
  wellTyped : WellTyped a
  kind : kinds a.kind = true

/-- The links of a list are such trees. -/
def ListOf (kinds : AstKind → Bool) (list : Option AstList) : Prop :=
  ∀ l, list = some l → ∀ a ∈ l.links, Is kinds a

variable {kind : AstKind} {kinds kinds' : AstKind → Bool} {attr : AttrName} {names : List AttrName}
  {attrs : List (Attribute Ast)} {type : AstAttributeType} {value : Value Ast} {a : Ast}

theorem Is.mono (h : Is kinds a) (hsub : ∀ k, kinds k = true → kinds' k = true) : Is kinds' a :=
  ⟨h.wellTyped, hsub _ h.kind⟩

theorem ListOf.none : ListOf kinds none := fun _ h => nomatch h

/-! ## Values -/

/-- The schema allows this value. -/
structure Holds (kind : AstKind) (attr : AttrName) (type : AstAttributeType) (value : Value Ast) :
    Prop where
  fits : ∃ slot, (schema kind).lookup attr = some slot ∧ slot.Fits type value
  children : ∀ a ∈ value.children, WellTyped a

theorem Holds.ast (hslot : (schema kind).lookup attr = some (.ast kinds)) (h : Is kinds a) :
    Holds kind attr .ast (.ast a) := by
  refine ⟨⟨_, hslot, h.kind⟩, fun b hb => ?_⟩
  rw [List.mem_singleton.mp hb]
  exact h.wellTyped

theorem Holds.list {l : Option AstList} (hslot : (schema kind).lookup attr = some (.list kinds))
    (h : ListOf kinds l) : Holds kind attr .astList (listValue l) := by
  cases l with
  | none => exact ⟨⟨_, hslot, trivial⟩, fun _ hb => nomatch hb⟩
  | some l => exact ⟨⟨_, hslot, fun b hb => (h l rfl b hb).kind⟩, fun b hb =>
      (h l rfl b hb).wellTyped⟩

theorem Holds.plain {slot : Slot} (hslot : (schema kind).lookup attr = some slot)
    (hfits : slot.Fits type value) (hchildren : value.children = []) :
    Holds kind attr type value :=
  ⟨⟨slot, hslot, hfits⟩, fun _ hb => by rw [hchildren] at hb; cases hb⟩

/-! ## Nodes under construction -/

/-- A node of this kind with the attributes of these names. -/
inductive Part (kind : AstKind) (names : List AttrName) : Ast → Prop
  | mk {id lineNr : Nat} {attrs : List (Attribute Ast)} : attrs.map (·.name) = names →
    Typed kind attrs → (∀ e ∈ attrs, ∀ a ∈ e.value.children, WellTyped a) →
    Part kind names (.node kind id lineNr attrs)

/-- The names after one more attribute was set. -/
def addName (attr : AttrName) (names : List AttrName) : List AttrName :=
  if attr ∈ names then names else names ++ [attr]

theorem mem_addName (attr : AttrName) (names : List AttrName) (other : AttrName) :
    other ∈ addName attr names ↔ other = attr ∨ other ∈ names := by
  unfold addName
  split
  · exact ⟨.inr, fun h => h.elim (fun h => h ▸ ‹_›) id⟩
  · simp [or_comm]

theorem Part.new (kind : AstKind) (id lineNr : Nat) : Part kind [] (.node kind id lineNr []) :=
  .mk rfl ⟨List.nodup_nil, fun _ h => nomatch h⟩ fun _ h => nomatch h

theorem Part.finish (h : Part kind names a) (hfull : (required kind).all (names.contains ·) = true)
    (hk : kinds kind = true) : Is kinds a := by
  obtain ⟨rfl, htyped, hchildren⟩ := h
  refine ⟨.node htyped (fun attr hattr => ?_) hchildren, hk⟩
  exact List.contains_iff_mem.mp (List.all_eq_true.mp hfull attr hattr)

theorem setEntry_names (e : Attribute Ast) : ∀ attrs : List (Attribute Ast),
    (setEntry e attrs).map (·.name) = addName e.name (attrs.map (·.name))
  | [] => rfl
  | d :: attrs => by
    have ih := setEntry_names e attrs
    unfold setEntry
    by_cases hd : d.name = e.name
    · rw [if_pos hd]
      simp [addName, hd]
    · rw [if_neg hd, List.map_cons, ih]
      by_cases hmem : e.name ∈ attrs.map (·.name)
      · have hmem' : e.name ∈ (d :: attrs).map (·.name) := List.mem_cons_of_mem _ hmem
        rw [addName, addName, if_pos hmem, if_pos hmem']
        rfl
      · have hmem' : e.name ∉ (d :: attrs).map (·.name) := by
          rw [List.map_cons, List.mem_cons, not_or]
          exact ⟨Ne.symm hd, hmem⟩
        rw [addName, addName, if_neg hmem, if_neg hmem']
        rfl

theorem mem_setEntry {e x : Attribute Ast} : ∀ {attrs : List (Attribute Ast)},
    x ∈ setEntry e attrs → x = e ∨ x ∈ attrs
  | [], h => .inl (List.mem_singleton.mp h)
  | d :: attrs, h => by
    unfold setEntry at h
    split at h
    · exact (List.mem_cons.mp h).imp_right (List.mem_cons_of_mem _)
    · rcases List.mem_cons.mp h with rfl | h
      · exact .inr List.mem_cons_self
      · exact (mem_setEntry h).imp_right (List.mem_cons_of_mem _)

theorem nodup_addName (h : names.Nodup) : (addName attr names).Nodup := by
  unfold addName
  split
  · exact h
  · rename_i hmem
    rw [List.nodup_append]
    refine ⟨h, by simp, fun a ha b hb hab => hmem ?_⟩
    rw [List.mem_singleton.mp hb] at hab
    exact hab ▸ ha

theorem Typed.set (h : Typed kind attrs) (hv : Holds kind attr type value) :
    Typed kind (setEntry ⟨attr, type, value⟩ attrs) := by
  constructor
  · rw [setEntry_names]
    exact nodup_addName h.nodup
  · intro e he
    rcases mem_setEntry he with rfl | he
    · exact hv.fits
    · exact h.fits e he

/-- No kind of node has so many attributes that the table could be full. -/
theorem Typed.length_lt (h : Typed kind attrs) : attrs.length < astAttrtableCapacity := by
  have hle : (attrs.map (·.name)).length ≤ ((schema kind).map (·.1)).length := by
    refine (h.nodup.subperm fun attr hattr => ?_).length_le
    obtain ⟨e, he, rfl⟩ := List.mem_map.mp hattr
    obtain ⟨slot, hslot, -⟩ := h.fits e he
    rw [List.lookup_eq_some_iff] at hslot
    obtain ⟨l, r, hl, -⟩ := hslot
    rw [hl]
    simp
  rw [List.length_map, List.length_map] at hle
  have hlt : (schema kind).length < astAttrtableCapacity := by cases kind <;> decide
  omega

theorem setEntry_children (hv : Holds kind attr type value)
    (h : ∀ e ∈ attrs, ∀ a ∈ e.value.children, WellTyped a) :
    ∀ e ∈ setEntry ⟨attr, type, value⟩ attrs, ∀ a ∈ e.value.children, WellTyped a := by
  intro e he
  rcases mem_setEntry he with rfl | he
  · exact hv.children
  · exact h e he

/-- Setting an attribute that the schema allows succeeds. -/
theorem Part.astSetattr (h : Part kind names a) (hv : Holds kind attr type value) :
    ∃ b, astSetattr a attr type value = pure b ∧ Part kind (addName attr names) b := by
  obtain @⟨id, lineNr, attrs, rfl, htyped, hchildren⟩ := h
  exact ⟨_, if_pos (.inl htyped.length_lt),
    .mk (setEntry_names _ attrs) (htyped.set hv) (setEntry_children hv hchildren)⟩

theorem Is.astSetattr (h : Is kinds a) (hnone : kinds .none = false)
    (hv : ∀ k, kinds k = true → Holds k attr type value) :
    ∃ b, astSetattr a attr type value = pure b ∧ Is kinds b := by
  obtain ⟨htree, hk⟩ := h
  cases htree with
  | null => rw [Ast.kind, hnone] at hk; cases hk
  | @node kind id lineNr attrs htyped hfull hchildren =>
    have hv := hv kind hk
    refine ⟨_, if_pos (.inl htyped.length_lt), ?_, hk⟩
    refine .node (htyped.set hv) (fun x hx => ?_) (setEntry_children hv hchildren)
    rw [setEntry_names, mem_addName]
    exact .inr (hfull x hx)

end Dp4c.Parse
