import Dp4c.AstNodes
import Dp4c.AttrTable

/-! # The printer (print_ast.c)

`print_ast` prints a node as a block and then the nodes that its attributes lead to. It
trusts the tag of an attribute: a value of another type would be read as what it is not, and
that is a `fault` here. The blocks come one after the other, since a block is closed before
the next one is opened. -/
namespace Dp4c

open AttrTable (bucketOf)
open Dp4c.Lib

/-! ## Names -/

def AttrName.text : AttrName → String
  | .action => "action" | .actionList => "action_list" | .applyStmt => "apply_stmt"
  | .args => "args" | .baseType => "base_type" | .caseList => "case_list"
  | .colonIndex => "colon_index" | .condExpr => "cond_expr" | .ctorParams => "ctor_params"
  | .declList => "decl_list" | .direction => "direction" | .elseStmt => "else_stmt"
  | .entries => "entries" | .expr => "expr" | .exprList => "expr_list" | .fields => "fields"
  | .flags => "flags" | .idList => "id_list" | .index => "index" | .indexExpr => "index_expr"
  | .initExpr => "init_expr" | .isConst => "is_const" | .isDotprefixed => "is_dotprefixed"
  | .isTypedef => "is_typedef" | .keyelemList => "keyelem_list" | .keyset => "keyset"
  | .label => "label" | .leftOperand => "left_operand" | .localDecls => "local_decls"
  | .localElements => "local_elements" | .lvalue => "lvalue" | .memberName => "member_name"
  | .methodProtos => "method_protos" | .name => "name" | .op => "op" | .params => "params"
  | .propList => "prop_list" | .proto => "proto" | .returnType => "return_type"
  | .rightOperand => "right_operand" | .size => "size" | .stackExpr => "stack_expr"
  | .states => "states" | .stmt => "stmt" | .stmtList => "stmt_list"
  | .switchCases => "switch_cases" | .toType => "to_type" | .transStmt => "trans_stmt"
  | .type => "type" | .typeArgs => "type_args" | .typeDecl => "type_decl"
  | .typeParams => "type_params" | .typeRef => "type_ref" | .typeSize => "type_size"
  | .value => "value" | .width => "width"

/-- `ast_kind_to_string`; its default asserts. -/
def astKindToString : AstKind → Except Exit String
  | .none => .error (.assertion "0")
  | .name => .ok "Ast_Name" | .baseType => .ok "Ast_BaseType" | .constDecl => .ok "Ast_ConstDecl"
  | .externDecl => .ok "Ast_ExternDecl" | .functionProto => .ok "Ast_FunctionProto"
  | .actionDecl => .ok "Ast_ActionDecl" | .headerDecl => .ok "Ast_HeaderDecl"
  | .headerUnionDecl => .ok "Ast_HeaderUnionDecl" | .structDecl => .ok "Ast_StructDecl"
  | .enumDecl => .ok "Ast_EnumDecl" | .typeDecl => .ok "Ast_TypeDecl" | .parser => .ok "Ast_Parser"
  | .control => .ok "Ast_Control" | .package => .ok "Ast_Package"
  | .instantiation => .ok "Ast_Instantiation" | .error => .ok "Ast_Error"
  | .matchKind => .ok "Ast_MatchKind" | .functionDecl => .ok "Ast_FunctionDecl"
  | .dontcare => .ok "Ast_Dontcare" | .intTypeSize => .ok "Ast_IntTypeSize" | .int => .ok "Ast_Int"
  | .bool => .ok "Ast_Bool" | .stringLiteral => .ok "Ast_StringLiteral" | .tuple => .ok "Ast_Tuple"
  | .tupleKeyset => .ok "Ast_TupleKeyset" | .headerStack => .ok "Ast_HeaderStack"
  | .specdType => .ok "Ast_SpecdType" | .structField => .ok "Ast_StructField"
  | .specdId => .ok "Ast_SpecdId" | .parserType => .ok "Ast_ParserType"
  | .argument => .ok "Ast_Argument" | .varDecl => .ok "Ast_VarDecl"
  | .directApplic => .ok "Ast_DirectApplic" | .arrayIndex => .ok "Ast_ArrayIndex"
  | .parameter => .ok "Ast_Parameter" | .lvalue => .ok "Ast_Lvalue"
  | .assignmentStmt => .ok "Ast_AssignmentStmt" | .methodCallStmt => .ok "Ast_MethodCallStmt"
  | .emptyStmt => .ok "Ast_EmptyStmt" | .default => .ok "Ast_Default"
  | .selectExpr => .ok "Ast_SelectExpr" | .selectCase => .ok "Ast_SelectCase"
  | .parserState => .ok "Ast_ParserState" | .controlType => .ok "Ast_ControlType"
  | .keyElement => .ok "Ast_KeyElement" | .actionRef => .ok "Ast_ActionRef"
  | .tableEntry => .ok "Ast_TableEntry" | .tablePropKey => .ok "Ast_TableProp_Key"
  | .tablePropActions => .ok "Ast_TableProp_Actions"
  | .tablePropEntries => .ok "Ast_TableProp_Entries"
  | .tablePropSingleEntry => .ok "Ast_TableProp_SingleEntry" | .tableDecl => .ok "Ast_TableDecl"
  | .ifStmt => .ok "Ast_IfStmt" | .exitStmt => .ok "Ast_ExitStmt"
  | .returnStmt => .ok "Ast_ReturnStmt" | .switchLabel => .ok "Ast_SwitchLabel"
  | .switchCase => .ok "Ast_SwitchCase" | .switchStmt => .ok "Ast_SwitchStmt"
  | .blockStmt => .ok "Ast_BlockStmt" | .expressionListExpr => .ok "Ast_ExpressionListExpr"
  | .castExpr => .ok "Ast_CastExpr" | .unaryExpr => .ok "Ast_UnaryExpr"
  | .binaryExpr => .ok "Ast_BinaryExpr" | .kvPair => .ok "Ast_KvPair"
  | .memberSelectExpr => .ok "Ast_MemberSelectExpr" | .indexedArrayExpr =>
      .ok "Ast_IndexedArrayExpr"
  | .functionCallExpr => .ok "Ast_FunctionCallExpr" | .typeArgsExpr => .ok "Ast_TypeArgsExpr"
  | .p4Program => .ok "Ast_P4Program"

def exprOperatorToString : AstExprOperator → String
  | .none => "Ast_Op_None" | .add => "AstExprOp_Add" | .sub => "AstExprOp_Sub"
  | .mul => "AstExprOp_Mul" | .div => "AstExprOp_Div" | .and => "AstExprOp_And"
  | .or => "AstExprOp_Or" | .equal => "AstExprOp_Equal" | .notEqual => "AstExprOp_NotEqual"
  | .less => "AstExprOp_Less" | .greater => "AstExprOp_Greater"
  | .lessEqual => "AstExprOp_LessEqual" | .greaterEqual => "AstExprOp_GreaterEqual"
  | .bitAnd => "AstExprOp_BitAnd" | .bitOr => "AstExprOp_BitOr" | .bitXor => "AstExprOp_BitXor"
  | .bitShiftLeft => "AstExprOp_BitShiftLeft" | .bitShiftRight => "AstExprOp_BitShiftRight"
  | .logNot => "AstExprOp_LogNot" | .bitNot => "AstExprOp_BitNot" | .minus => "AstExprOp_Minus"
  | .mask => "AstExprOp_Mask"

/-- `*(int*)` of an integer attribute; the enumerations count from zero. -/
def Value.asInt : Value Ast → Option Int
  | .int n => some (BitVec.ofInt 32 n).toInt
  | .bool b => some (if b then 1 else 0)
  | .flags f => some ((if f.hasWidth then 1 else 0) + if f.isSigned then 2 else 0)
  | .direction d => some (match d with | .none => 0 | .in => 1 | .out => 2 | .inOut => 3)
  | .baseType b => some (match b with
    | .none => 0 | .bool => 1 | .error => 2 | .int => 3 | .bit => 4 | .varbit => 5 | .string => 6)
  | .ast _ | .nullList | .list .. | .string _ | .operator _ => none

/-! ## Printing -/

/-- What `print_prop` prints behind the name of a property. -/
inductive PropValue where
  | integer (i : Int)
  | string (s : Cstr)
  | id (id : Nat)
  | idList (ids : List Nat)
deriving DecidableEq

/-- What stands between the braces of `ast_start` and `ast_end`. -/
structure Block where
  id : Nat
  kind : String
  lineNr : Nat
  props : List (String × PropValue)
deriving DecidableEq

/-- The index of an attribute's bucket. -/
def Attribute.bucket (e : Attribute Ast) : Nat := bucketOf (Cstr.ofString e.name.text)

/-- The attributes in the order of the iterator: bucket by bucket, in each of them the one
added last first. -/
def iterated (attrs : List (Attribute Ast)) : List (Attribute Ast) :=
  (List.range astAttrtableCapacity).flatMap fun i => (attrs.filter (·.bucket = i)).reverse

/-- `link->ast->id`. -/
def linkId : Ast → Except Exit Nat
  | .null => .error .fault
  | .node _ id _ _ => .ok id

/-- The properties printed for an attribute. -/
def printAttr (e : Attribute Ast) : Except Exit (List (String × PropValue)) :=
  match e.type with
  | .none => .ok []
  | .integer =>
    match e.value.asInt with
    | some i => .ok [(e.name.text, .integer i)]
    | none => .error .fault
  | .string =>
    match e.value with
    | .string s => .ok [(e.name.text, .string s)]
    | _ => .error .fault
  | .ast =>
    match e.value with
    | .ast .null => .ok []
    | .ast (.node _ id _ _) => .ok [(e.name.text, .id id)]
    | _ => .error .fault
  | .astList =>
    match e.value with
    | .nullList => .ok [(e.name.text, .idList [])]
    | .list links _ => do return [(e.name.text, .idList (← links.mapM linkId))]
    | _ => .error .fault
  | .exprOperator =>
    match e.value with
    | .operator op => .ok [(e.name.text, .string (Cstr.ofString (exprOperatorToString op)))]
    | _ => .error .fault

/-- The first of the two loops, with the properties in front of it. -/
def printBlock (kind : AstKind) (id lineNr : Nat) (attrs : List (Attribute Ast)) :
    Except Exit Block := do
  let kindText ← astKindToString kind
  let props ← (iterated attrs).mapM printAttr
  return { id := id, kind := kindText, lineNr := lineNr, props := props.flatten }

/-- The nodes an attribute leads to, as its tag says. -/
def taggedNodes (e : Attribute Ast) : Except Exit (List Ast) :=
  match e.type with
  | .ast =>
    match e.value with
    | .ast a => .ok [a]
    | _ => .error .fault
  | .astList =>
    match e.value with
    | .nullList => .ok []
    | .list links _ => .ok links
    | _ => .error .fault
  | .none | .integer | .string | .exprOperator => .ok []

/-- `print_ast`, with recursion of depth `fuel` at most. -/
def printAst : Nat → Ast → Except Exit (List Block)
  | 0, _ => .error .outOfFuel
  | _ + 1, .null => .ok []
  | fuel + 1, .node kind id lineNr attrs => do
    let block ← printBlock kind id lineNr attrs
    let children ← (iterated attrs).mapM taggedNodes
    let rest ← children.flatten.mapM (printAst fuel)
    return block :: rest.flatten

/-! ## What is printed -/

/-- The block of a node. -/
def printNode : Ast → Except Exit Block
  | .null => .error .fault
  | .node kind id lineNr attrs => printBlock kind id lineNr attrs

/-- The printer comes to an end, and prints each node that the tree leads to just once. -/
def PrintsOnce (a : Ast) : Prop :=
  (a.nodes.map Ast.id).Nodup ∧
    ∃ fuel out, printAst fuel a = .ok out ∧ (out.map Except.ok).Perm (a.nodes.map printNode)

/-- A node the printer can read: it has a kind, its tags are right, its lists have no null
links. -/
structure Ast.Printable (a : Ast) : Prop where
  kind : a.kind ≠ .none
  tagged : ∀ e ∈ a.attrs, e.Tagged
  links : ∀ e ∈ a.attrs, ∀ links linkCount, e.value = .list links linkCount → .null ∉ links

theorem linksNodes_eq (l : List Ast) : linksNodes l = l.flatMap Ast.nodes := by
  induction l with
  | nil => rfl
  | cons a l ih => rw [linksNodes, ih, List.flatMap_cons]

theorem attrsNodes_eq (attrs : List (Attribute Ast)) :
    attrsNodes attrs = linksNodes (attrs.flatMap (·.value.children)) := by
  induction attrs with
  | nil => rfl
  | cons e attrs ih =>
    obtain ⟨attr, type, value⟩ := e
    rw [attrsNodes, ih, List.flatMap_cons, linksNodes_append]
    cases value <;> simp [valueNodes, Value.children, linksNodes]

/-- The iterator comes by each attribute once. -/
theorem iterated_perm (attrs : List (Attribute Ast)) : (iterated attrs).Perm attrs := by
  have hbelow : ∀ n, ((List.range n).flatMap fun i => (attrs.filter (·.bucket = i)).reverse).Perm
      (attrs.filter (·.bucket < n)) := by
    intro n
    induction n with
    | zero => simp
    | succ n ih =>
      rw [List.range_succ, List.flatMap_append, List.flatMap_singleton]
      have hsplit := List.filter_append_perm (fun e : Attribute Ast => decide (e.bucket < n))
        (attrs.filter (·.bucket < n + 1))
      rw [List.filter_filter, List.filter_filter] at hsplit
      have hbelow : ∀ e ∈ attrs, (decide (e.bucket < n) && decide (e.bucket < n + 1)) =
          decide (e.bucket < n) := fun e _ => by
        rw [Bool.eq_iff_iff, Bool.and_eq_true, decide_eq_true_iff, decide_eq_true_iff]
        omega
      have hat : ∀ e ∈ attrs, (!decide (e.bucket < n) && decide (e.bucket < n + 1)) =
          decide (e.bucket = n) := fun e _ => by
        rw [Bool.eq_iff_iff, Bool.and_eq_true, Bool.not_eq_true', decide_eq_false_iff_not,
          decide_eq_true_iff, decide_eq_true_iff]
        omega
      rw [List.filter_congr hbelow, List.filter_congr hat] at hsplit
      exact (ih.append (List.reverse_perm _)).trans hsplit
  have hall : attrs.filter (·.bucket < astAttrtableCapacity) = attrs :=
    List.filter_eq_self.mpr fun e _ => decide_eq_true (AttrTable.bucketOf_lt _)
  exact (hbelow _).trans (.of_eq hall)

theorem mem_iterated {attrs : List (Attribute Ast)} {e : Attribute Ast} :
    e ∈ iterated attrs ↔ e ∈ attrs := (iterated_perm attrs).mem_iff

theorem valueNodes_children {e : Attribute Ast} {attrs : List (Attribute Ast)} (he : e ∈ attrs)
    {a : Ast} (ha : a ∈ e.value.children) : a.nodes.length ≤ (attrsNodes attrs).length := by
  rw [attrsNodes_eq, linksNodes_eq]
  exact List.Sublist.length_le (List.sublist_flatten_of_mem
    (List.mem_map.mpr ⟨a, List.mem_flatMap.mpr ⟨e, he, ha⟩, rfl⟩))

theorem Attribute.Tagged.taggedNodes {e : Attribute Ast} (h : e.Tagged) :
    taggedNodes e = .ok e.value.children := by
  obtain ⟨attr, type, value⟩ := e
  unfold Attribute.Tagged at h
  cases type <;> cases value <;> first | rfl | cases h

theorem mapM_linkId {links : List Ast} (h : .null ∉ links) :
    ∃ ids, links.mapM linkId = .ok ids := by
  induction links with
  | nil => exact ⟨[], rfl⟩
  | cons a links ih =>
    rw [List.mem_cons, not_or] at h
    obtain ⟨ids, hids⟩ := ih h.2
    cases a with
    | null => exact absurd rfl h.1
    | node kind id lineNr attrs =>
      exact ⟨id :: ids, mapM_ok_iff.mpr (.cons rfl (mapM_ok_iff.mp hids))⟩

theorem Attribute.Tagged.printAttr {e : Attribute Ast} (h : e.Tagged)
    (hlinks : ∀ links linkCount, e.value = .list links linkCount → .null ∉ links) :
    ∃ props, printAttr e = .ok props := by
  obtain ⟨attr, type, value⟩ := e
  unfold Attribute.Tagged at h
  cases value with
  | ast a =>
    cases type <;> try cases h
    cases a <;> exact ⟨_, rfl⟩
  | list links linkCount =>
    cases type <;> try cases h
    obtain ⟨ids, hids⟩ := mapM_linkId (hlinks links linkCount rfl)
    refine ⟨[(attr.text, .idList ids)], ?_⟩
    simp only [Dp4c.printAttr, hids]
    rfl
  | _ =>
    cases type <;> try cases h
    all_goals
      unfold Dp4c.printAttr
      exact ⟨_, rfl⟩

theorem astKindToString_ok {kind : AstKind} (h : kind ≠ .none) :
    ∃ text, astKindToString kind = .ok text := by
  cases kind with
  | none => exact absurd rfl h
  | _ => exact ⟨_, rfl⟩

theorem printBlock_ok {kind : AstKind} {id lineNr : Nat} {attrs : List (Attribute Ast)}
    (h : (Ast.node kind id lineNr attrs).Printable) :
    ∃ block, printBlock kind id lineNr attrs = .ok block := by
  obtain ⟨text, htext⟩ : ∃ text, astKindToString kind = .ok text := astKindToString_ok h.kind
  obtain ⟨props, hprops, -⟩ := exists_mapM (P := fun _ _ => True) (f := printAttr)
    (l := iterated attrs) fun e he => by
      have he := mem_iterated.mp he
      obtain ⟨props, hprops⟩ := (h.tagged e he).printAttr (h.links e he)
      exact ⟨props, hprops, trivial⟩
  exact ⟨_, by rw [printBlock, htext, hprops]; rfl⟩

/-- The children in the order of the iterator. -/
def iteratedNodes (attrs : List (Attribute Ast)) : List Ast :=
  (iterated attrs).flatMap (·.value.children)

theorem iteratedNodes_perm (attrs : List (Attribute Ast)) :
    ((iteratedNodes attrs).flatMap Ast.nodes).Perm (attrsNodes attrs) := by
  rw [attrsNodes_eq, linksNodes_eq]
  exact ((iterated_perm attrs).flatMap_right _).flatMap_right _

theorem mapM_taggedNodes {attrs : List (Attribute Ast)} (h : ∀ e ∈ attrs, e.Tagged) :
    (iterated attrs).mapM taggedNodes = .ok ((iterated attrs).map (·.value.children)) := by
  rw [mapM_ok_iff, List.forall₂_map_right_iff, List.forall₂_same]
  exact fun e he => (h e (mem_iterated.mp he)).taggedNodes

/-- The blocks of a list of trees. -/
theorem blocks_perm {l : List Ast} {r : List (List Block)}
    (h : List.Forall₂ (fun a out => (out.map Except.ok).Perm (a.nodes.map printNode)) l r) :
    (r.flatten.map Except.ok).Perm ((l.flatMap Ast.nodes).map printNode) := by
  induction h with
  | nil => exact .nil
  | cons hout _ ih =>
    rw [List.flatten_cons, List.map_append, List.flatMap_cons, List.map_append]
    exact hout.append ih

/-- A printed tree is the blocks of its nodes. -/
theorem printAst_perm : ∀ (fuel : Nat) (a : Ast), a.nodes.length < fuel →
    (∀ n ∈ a.nodes, n.Printable) →
    ∃ out, printAst fuel a = .ok out ∧ (out.map Except.ok).Perm (a.nodes.map printNode)
  | 0, _, hfuel, _ => absurd hfuel (Nat.not_lt_zero _)
  | _ + 1, .null, _, _ => ⟨[], rfl, .nil⟩
  | fuel + 1, .node kind id lineNr attrs, hfuel, hprint => by
    rw [Ast.nodes] at hfuel hprint
    obtain ⟨hself, hattrs⟩ := List.forall_mem_cons.mp hprint
    obtain ⟨block, hblock⟩ := printBlock_ok hself
    have hnodes := iteratedNodes_perm attrs
    have htagged := mapM_taggedNodes hself.tagged
    obtain ⟨rest, hrest, hall⟩ := exists_mapM (l := iteratedNodes attrs) (f := printAst fuel)
      (P := fun a out => (out.map Except.ok).Perm (a.nodes.map printNode)) fun a ha => by
        have hsub : ∀ n ∈ a.nodes, n ∈ attrsNodes attrs := fun n hn =>
          hnodes.mem_iff.mp (List.mem_flatMap.mpr ⟨a, ha, hn⟩)
        obtain ⟨e, he, hae⟩ := List.mem_flatMap.mp ha
        have hlen := valueNodes_children (mem_iterated.mp he) hae
        rw [List.length_cons] at hfuel
        exact printAst_perm fuel a (by omega) fun n hn => hattrs n (hsub n hn)
    refine ⟨block :: rest.flatten, ?_, ?_⟩
    · rw [iteratedNodes, List.flatMap_def] at hrest
      rw [Ast.attrs] at htagged
      rw [printAst, hblock, htagged]
      show ((((iterated attrs).map (·.value.children)).flatten.mapM (printAst fuel)) >>= _) = _
      rw [hrest]
      rfl
    · rw [Ast.nodes, List.map_cons, List.map_cons, printNode, hblock]
      exact ((blocks_perm hall).trans (hnodes.map _)).cons _

/-- What was printed has a kind. -/
theorem kind_of_printAst : ∀ (fuel : Nat) (a : Ast) {out : List Block},
    printAst fuel a = .ok out → (∀ n ∈ a.nodes, ∀ e ∈ n.attrs, e.Tagged) →
    ∀ n ∈ a.nodes, n.kind ≠ .none
  | 0, _, _, h, _ => by cases h
  | _ + 1, .null, _, _, _ => List.forall_mem_nil _
  | fuel + 1, .node kind id lineNr attrs, out, h, htagged => by
    rw [Ast.nodes] at htagged ⊢
    obtain ⟨hself, hattrs⟩ := List.forall_mem_cons.mp htagged
    obtain ⟨block, hblock, h⟩ := except_bind_ok h
    obtain ⟨text, htext, -⟩ := except_bind_ok hblock
    refine List.forall_mem_cons.mpr ⟨?_, fun n hn => ?_⟩
    · rintro rfl
      cases htext
    have htagged := mapM_taggedNodes hself
    obtain ⟨children, hchildren, h⟩ := except_bind_ok h
    obtain rfl := Except.ok.inj (htagged.symm.trans hchildren)
    obtain ⟨rest, hrest, -⟩ := except_bind_ok h
    rw [← List.flatMap_def] at hrest
    have hnodes := iteratedNodes_perm attrs
    obtain ⟨a, ha, hna⟩ := List.mem_flatMap.mp (hnodes.mem_iff.mpr hn)
    obtain ⟨i, hi, rfl⟩ := List.mem_iff_getElem.mp ha
    have hall := mapM_ok_iff.mp hrest
    have hprinted := hall.get hi (by rw [← hall.length_eq]; exact hi)
    refine kind_of_printAst fuel _ hprinted (fun m hm => hattrs m ?_) n hna
    exact hnodes.mem_iff.mp (List.mem_flatMap.mpr ⟨_, ha, hm⟩)

end Dp4c
