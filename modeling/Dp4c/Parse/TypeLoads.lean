import Dp4c.Parse.Loads

/-! # Where the nodes of types and expressions go -/
namespace Dp4c.Parse

open Dp4c.Lib Dp4c.Lib.Prog

variable {fwd : Forward} {p : Call → Bool} [Plain p]

/-! ## Names and literals -/

theorem buildNonTypeName_keeps (isType : Bool) :
    Keeps p 0 (buildNonTypeName isType) (Named [.name]) := by
  refine .require (.reads fun token => .node (by decide) fun a ha => ?_)
  refine .setData ha (by decide) rfl rfl fun a ha => ?_
  exact .quiet (.registerType _ _ _) fun _ => .next (.pure ha)

theorem buildName_keeps (isType : Bool) : Keeps p 0 (buildName isType) (Named [.name]) := by
  refine .require (.ifToken (buildNonTypeName_keeps isType) (.ifToken ?_ (.stop _)))
  refine .reads fun token => .node (by decide) fun a ha => ?_
  exact .setData ha (by decide) rfl rfl fun a ha => .next (.pure ha)

theorem buildTypeParameterList_keeps (fuel : Nat) :
    Keeps p 0 (buildTypeParameterList fuel) Any :=
  .require (commaList_keeps (buildName_keeps true).any fuel)

theorem buildOptTypeParameters_keeps (fuel : Nat) :
    Keeps p 0 (buildOptTypeParameters fuel) Any := by
  refine optList_keeps (.next (.require (.bindNew (buildTypeParameterList_keeps fuel) ?_)))
  exact fun params _ => .expect (.pure trivial)

theorem buildInteger_keeps : Keeps p 0 buildInteger Any := by
  refine .ifToken (.reads fun token => .node (by decide) fun a ha => ?_) .null
  refine .setData ha (by decide) rfl rfl fun a ha => .setData ha (by decide) rfl rfl fun a ha => ?_
  exact .setData ha (by decide) rfl rfl fun a _ => .next (.pure trivial)

theorem buildBoolean_keeps : Keeps p 0 buildBoolean Any := by
  refine .ifToken (.node (by decide) fun a ha => ?_) .null
  refine .setBare ha (by decide) rfl rfl fun a _ ha => .bind (R := Any) ?_ fun _ _ =>
    .next (.pure trivial)
  exact .ifToken (.setMore ha rfl rfl) (.pure trivial)

theorem buildStringLiteral_keeps : Keeps p 0 buildStringLiteral Any := by
  refine .ifToken (.reads fun token => .node (by decide) fun a ha => ?_) .null
  exact .setData ha (by decide) rfl rfl fun a _ => .next (.pure trivial)

theorem buildDirection_quiet : Quiet p buildDirection := by
  refine .ifToken (.bind ?_ fun dir => .bind .nextToken fun _ => .pure dir) (.pure _)
  exact .ifToken (.pure _) (.ifToken (.pure _) (.ifToken (.pure _) (.stop _)))

theorem buildDotPrefix_quiet : Quiet p buildDotPrefix :=
  .ifToken (.bind .nextToken fun _ => .pure _) (.pure _)

section

variable (h : fwd.KeepsTypes p)
include h

theorem buildTypeArg_keeps : Keeps p 0 (buildTypeArg fwd) Any := by
  refine .require (.ifToken ?_ (.ifToken h.typeRef (.ifToken ?_ (.stop _))))
  · exact .node (by decide) fun a _ => .next (.pure trivial)
  · exact (buildNonTypeName_keeps false).any

/-! ## Prototypes -/

theorem buildParameter_keeps : Keeps p 0 (buildParameter fwd) Any := by
  refine .node (by decide) fun a ha => .quiet buildDirection_quiet fun dir => ?_
  refine .setData ha (by decide) rfl rfl fun a ha => .require (.bindNew h.typeRef fun type _ => ?_)
  refine .setAst ha (by decide) fun a ha => .require (.bindNew (buildName_keeps false) ?_)
  refine fun name _ => .setAst ha (by decide) fun a ha => .ifToken (.next (.require ?_))
    (.pure trivial)
  exact .bindNew (h.expression 1) fun e _ => .setAstLast ha (by decide) fun _ _ => trivial

theorem buildParameterList_keeps : Keeps p 0 (buildParameterList fwd) Any :=
  optList_keeps (commaList_keeps (buildParameter_keeps h) fwd.fuel)

theorem buildTypeOrVoid_keeps (isType : Bool) : Keeps p 0 (buildTypeOrVoid fwd isType) Any := by
  refine .require (.ifToken h.typeRef (.ifToken ?_ (.ifToken ?_ (.stop _))))
  · refine .reads fun token => .node (by decide) fun a ha => ?_
    exact .setData ha (by decide) rfl rfl fun a _ => .next (.pure trivial)
  · refine .reads fun token => .node (by decide) fun a ha => ?_
    refine .setData ha (by decide) rfl rfl fun a _ => ?_
    exact .quiet (.registerType _ _ _) fun _ => .next (.pure trivial)

variable {names : List AttrName} {text : String} {a : Ast}

theorem setParams_keeps (ha : Named names a) (hnew : .params ∉ names) :
    Keeps p (load a + 0) (setParams fwd a text) (Named (names ++ [.params])) := by
  refine .expect (.bindNew (buildParameterList_keeps h) fun params _ => ?_)
  exact .setList ha hnew fun a ha => .expect (.pure ha)

theorem setSignature_keeps (isType : Bool) (ha : Named names a) (hname : .name ∉ names)
    (htypes : .typeParams ∉ names ++ [.name])
      (hparams : .params ∉ names ++ [.name] ++ [.typeParams]) :
    Keeps p (load a + 0) (setSignature fwd a isType text) Any := by
  refine .require (.bindNew (buildName_keeps isType) fun name _ => .setAst ha hname fun a ha => ?_)
  refine .bindNew (buildOptTypeParameters_keeps fwd.fuel) fun types _ => ?_
  exact .setList ha htypes fun a ha => (setParams_keeps h ha hparams).any

theorem buildFunctionPrototype_keeps (typeRef : Ast) :
    Keeps p (load typeRef + 0) (buildFunctionPrototype fwd typeRef) Any := by
  refine .requireOr (.node (by decide) fun a ha => ?_)
  refine .givenOr (buildTypeOrVoid_keeps h true) fun type => .setAst ha (by decide) fun a ha => ?_
  exact setSignature_keeps h false ha (by decide) (by decide) (by decide)

/-- Without a type that was read before. -/
theorem newFunctionPrototype_keeps : Keeps p 0 (buildFunctionPrototype fwd .null) Any :=
  buildFunctionPrototype_keeps h .null

theorem buildMethodPrototype_keeps : Keeps p 0 (buildMethodPrototype fwd) Any := by
  have hproto : Keeps p 0
      (ifToken tokenIsTypeOrVoid (buildFunctionPrototype fwd .null) (error "type was expected"))
      Any :=
    .ifToken (newFunctionPrototype_keeps h) (.error _)
  refine .require (.bindNew (R := Any) (.ifToken (.ifPeek ?_ hproto) hproto) fun a _ => ?_)
  · refine .node (by decide) fun a ha => .bindNew (buildName_keeps false) fun name _ => ?_
    exact .setAst ha (by decide) fun a ha => (setParams_keeps h ha (by decide)).any
  · exact .expect (.pure trivial)

theorem buildMethodPrototypes_keeps : Keeps p 0 (buildMethodPrototypes fwd) Any :=
  optList_keeps (whileList_keeps (buildMethodPrototype_keeps h) fwd.fuel)

theorem buildExternFunction_keeps : Keeps p 0 (buildExternFunction fwd) Any :=
  .bindNew (newFunctionPrototype_keeps h) fun _ _ => .expect (.pure trivial)

theorem buildExternObject_keeps (ha : Named [] a) :
    Keeps p (load a + 0) (buildExternObject fwd a) Any := by
  refine .bindNew (buildNonTypeName_keeps true) fun name _ => .setAst ha (by decide) fun a ha => ?_
  refine .bindNew (buildOptTypeParameters_keeps fwd.fuel) fun types _ => ?_
  refine .setList ha (by decide) fun a ha => .expect (.bindNew (buildMethodPrototypes_keeps h) ?_)
  exact fun protos _ => .setList ha (by decide) fun a _ => .expect (.pure trivial)

/-- In front of a prototype the node of the declaration is given up. -/
theorem buildExternDeclaration_keeps : Keeps p 0 (buildExternDeclaration fwd) Any := by
  refine .ifToken (.next (.node (by decide) fun a ha => ?_)) .null
  have hfunction : Keeps p (load a + 0) (buildExternFunction fwd) Any :=
    .drop ha (buildExternFunction_keeps h)
  have hobject := buildExternObject_keeps h ha
  exact .ifToken (.ifPeek hfunction hobject) (.ifToken hfunction (.ifToken hobject (.error _)))

/-! ## Types -/

theorem buildIntegerTypeSize_keeps : Keeps p 0 (buildIntegerTypeSize fwd) Any := by
  refine .node (by decide) fun a ha => .ifToken ?_ (.ifToken ?_ (.error _))
  · exact .bindNew buildInteger_keeps fun i _ => .setAstLast ha (by decide) fun _ _ => trivial
  · exact .bindNew (h.expression 1) fun e _ => .setAstLast ha (by decide) fun _ _ => trivial

omit h in
theorem buildPlainType_keeps (ha : Named [] a) (value : AstBaseTypeKind) :
    Keeps p (load a + 0) (buildPlainType a value) (Named [.baseType]) :=
  .setData ha (by decide) rfl rfl fun _ ha => .next (.pure ha)

theorem buildSizedType_keeps (ha : Named [] a) (value : AstBaseTypeKind) :
    Keeps p (load a + 0) (buildSizedType fwd a value) Any := by
  refine .bind (buildPlainType_keeps ha value) fun a ha => .ifToken (.next ?_) (.pure trivial)
  refine .bindNew (buildIntegerTypeSize_keeps h) fun size _ => ?_
  exact .setAst ha (by decide) fun a _ => .expect (.pure trivial)

theorem buildBaseType_keeps : Keeps p 0 (buildBaseType fwd) Any := by
  refine .require (.node (by decide) fun a ha => ?_)
  have hplain (value : AstBaseTypeKind) := (buildPlainType_keeps (p := p) ha value).any
  have hsized := buildSizedType_keeps h ha
  refine .ifToken (hplain _) (.ifToken (hplain _) (.ifToken (hsized _) (.ifToken (hsized _) ?_)))
  exact .ifToken (hsized _) (.ifToken (hplain _) (.stop _))

theorem buildTypeArgumentList_keeps : Keeps p 0 (buildTypeArgumentList fwd) Any :=
  optList_keeps (commaList_keeps (buildTypeArg_keeps h) fwd.fuel)

theorem buildTupleType_keeps : Keeps p 0 (buildTupleType fwd) Any := by
  refine .expect (.node (by decide) fun a ha =>
    .expect (.bindNew (buildTypeArgumentList_keeps h) ?_))
  exact fun args _ => .setList ha (by decide) fun a _ => .expect (.pure trivial)

theorem buildHeaderStackType_keeps : Keeps p 0 (buildHeaderStackType fwd) (Named [.stackExpr]) := by
  refine .expect (.node (by decide) fun a ha => .require (.bindNew (h.expression 1) fun e _ => ?_))
  exact .setAst ha (by decide) fun a ha => .expect (.pure ha)

theorem buildSpecializedType_keeps : Keeps p 0 (buildSpecializedType fwd) (Named [.typeArgs]) := by
  refine .expect (.node (by decide) fun a ha => .bindNew (buildTypeArgumentList_keeps h) ?_)
  exact fun args _ => .setList ha (by decide) fun a ha => .expect (.pure ha)

omit h in
theorem buildPrefixedType_keeps : Keeps p 0 buildPrefixedType (Bare .isDotprefixed) := by
  refine .quiet buildDotPrefix_quiet fun dot => .require (.reads fun token => ?_)
  refine .node (by decide) fun a ha => .setData ha (by decide) rfl rfl fun a ha => ?_
  exact .setBare ha (by decide) rfl rfl fun a _ ha => .next (.pure ha)

theorem buildTypeName_keeps : Keeps p 0 (buildTypeName fwd) (Bare .isDotprefixed) := by
  refine .require (.bindNew buildPrefixedType_keeps fun name hname => ?_)
  refine .bind (R := Bare .isDotprefixed) (.ifToken ?_ (.pure hname)) fun name hname => ?_
  · refine .bindNew (buildSpecializedType_keeps h) fun a ha => ?_
    exact .giveAstLast ha (by decide) fun _ hb => hb.bare (by decide)
  · refine .ifToken (.bindNew (buildHeaderStackType_keeps h) fun a ha => ?_) (.pure hname)
    exact .giveAstLast ha (by decide) fun _ hb => hb.bare (by decide)

theorem buildTypeRef_keeps : Keeps p 0 (buildTypeRef fwd) Any := by
  refine .require (.ifToken (buildBaseType_keeps h) (.ifToken (buildTypeName_keeps h).any ?_))
  exact .ifToken (buildTupleType_keeps h) (.stop _)

/-! ## Structs, headers and enumerations -/

theorem buildStructField_keeps : Keeps p 0 (buildStructField fwd) Any := by
  refine .node (by decide) fun a ha => .require (.bindNew (buildTypeRef_keeps h) fun type _ => ?_)
  refine .setAst ha (by decide) fun a ha => .require (.bindNew (buildName_keeps false) ?_)
  exact fun name _ => .setAst ha (by decide) fun a _ => .expect (.pure trivial)

theorem buildStructFieldList_keeps : Keeps p 0 (buildStructFieldList fwd) Any :=
  optList_keeps (whileList_keeps (buildStructField_keeps h) fwd.fuel)

theorem buildFieldsDeclaration_keeps {klass : TokenClass} {kind : AstKind} (hkind : kind ≠ .none) :
    Keeps p 0 (buildFieldsDeclaration fwd klass kind text) Any := by
  refine .expect (.node hkind fun a ha =>
    .require (.bindNew (buildName_keeps true) fun name _ => ?_))
  refine .setAst ha (by decide) fun a ha => .expect (.bindNew (buildStructFieldList_keeps h) ?_)
  exact fun fields _ => .setList ha (by decide) fun a _ => .expect (.pure trivial)

omit [Plain p] in
theorem buildInitializer_keeps : Keeps p 0 (buildInitializer fwd) Any := h.expression 1

theorem buildOptInitializer_keeps : Keeps p 0 (buildOptInitializer fwd) Any :=
  .ifToken (.next (buildInitializer_keeps h)) .null

theorem buildSpecifiedIdentifier_keeps : Keeps p 0 (buildSpecifiedIdentifier fwd) Any := by
  refine .require (.node (by decide) fun a ha => .bindNew (buildName_keeps false) fun name _ => ?_)
  refine .setAst ha (by decide) fun a ha => .ifToken (.next (.require ?_)) (.pure trivial)
  exact .bindNew (buildInitializer_keeps h) fun e _ => .setAstLast ha (by decide) fun _ _ => trivial

theorem buildSpecifiedIdentifierList_keeps : Keeps p 0 (buildSpecifiedIdentifierList fwd) Any :=
  optList_keeps (commaList_keeps (buildSpecifiedIdentifier_keeps h) fwd.fuel)

omit h in
theorem buildEnumSize_keeps (ha : Named [] a) :
    Keeps p (load a + 0) (buildEnumSize a) fun b => Named [] b ∨ Named [.typeSize] b := by
  refine .ifToken (.next (.expect (.require (.bindNew buildInteger_keeps fun i _ => ?_))))
    (.pure (.inl ha))
  exact .setAst ha (by decide) fun a ha => .expect (.pure (.inr ha))

theorem buildEnumDeclaration_keeps : Keeps p 0 (buildEnumDeclaration fwd) Any := by
  refine .expect (.node (by decide) fun a ha => .bind (buildEnumSize_keeps ha) fun a ha => ?_)
  obtain ⟨names, ha, hname, hids⟩ : ∃ names, Named names a ∧ .name ∉ names ∧
      .idList ∉ names ++ [.name] := by
    rcases ha with ha | ha
    · exact ⟨_, ha, by decide, by decide⟩
    · exact ⟨_, ha, by decide, by decide⟩
  refine .require (.bindNew (buildName_keeps true) fun name _ => .setAst ha hname fun a ha => ?_)
  refine .expect (.require (.bindNew (buildSpecifiedIdentifierList_keeps h) fun ids _ => ?_))
  exact .setList ha hids fun a _ => .expect (.pure trivial)

theorem buildDerivedTypeDeclaration_keeps : Keeps p 0 (buildDerivedTypeDeclaration fwd) Any := by
  refine .require (.ifToken ?_ (.ifToken ?_ (.ifToken ?_ (.ifToken ?_ (.stop _)))))
  · exact buildFieldsDeclaration_keeps h (by decide)
  · exact buildFieldsDeclaration_keeps h (by decide)
  · exact buildFieldsDeclaration_keeps h (by decide)
  · exact buildEnumDeclaration_keeps h

/-! ## Arguments and indices -/

theorem buildArgument_keeps : Keeps p 0 (buildArgument fwd) Any := by
  refine .require (.ifToken (h.expression 1) (.ifToken ?_ (.ifToken ?_ (.stop _))))
  · refine .node (by decide) fun a ha => .bindNew (buildName_keeps false) fun name _ => ?_
    refine .setAst ha (by decide) fun a ha => .expect (.require (.bindNew (h.expression 1) ?_))
    exact fun e _ => .setAstLast ha (by decide) fun _ _ => trivial
  · exact .node (by decide) fun a _ => .next (.pure trivial)

theorem buildArgumentList_keeps : Keeps p 0 (buildArgumentList fwd) Any :=
  optList_keeps (commaList_keeps (buildArgument_keeps h) fwd.fuel)

theorem buildArrayIndex_keeps : Keeps p 0 (buildArrayIndex fwd) Any := by
  refine .node (by decide) fun a ha => .require (.bindNew (h.expression 1) fun e _ => ?_)
  refine .setAst ha (by decide) fun a ha => .ifToken (.next (.require ?_)) (.pure trivial)
  exact .bindNew (h.expression 1) fun e _ => .setAstLast ha (by decide) fun _ _ => trivial

theorem buildExpressionList_keeps : Keeps p 0 (buildExpressionList fwd) Any :=
  optList_keeps (commaList_keeps (h.expression 1) fwd.fuel)

theorem buildRealTypeArg_keeps : Keeps p 0 (buildRealTypeArg fwd) Any :=
  .ifToken (.next (Keeps.new (by decide)).any) (.ifToken (buildTypeRef_keeps h) (.error _))

theorem buildRealTypeArgumentList_keeps : Keeps p 0 (buildRealTypeArgumentList fwd) Any :=
  optList_keeps (commaList_keeps (buildRealTypeArg_keeps h) fwd.fuel)

/-! ## Primaries -/

theorem buildDottedName_keeps : Keeps p 0 (buildDottedName fwd) Any := by
  refine .next (.ifToken ?_ (.ifToken ?_ .unexpected))
  · exact .bindNew (buildNonTypeName_keeps false) fun a ha => .setMore (ha.bare (by decide)) rfl rfl
  · exact .bindNew (buildTypeName_keeps h) fun a ha => .setMore ha rfl rfl

theorem buildBracedList_keeps : Keeps p 0 (buildBracedList fwd) Any := by
  refine .next (.node (by decide) fun a ha => .bindNew (buildExpressionList_keeps h) ?_)
  exact fun exprs _ => .setList ha (by decide) fun a _ => .expect (.pure trivial)

theorem buildParenthesized_keeps : Keeps p 0 (buildParenthesized fwd) Any := by
  refine .next (.ifToken (.node (by decide) fun a ha => ?_) (.ifToken ?_ (.error _)))
  · refine .bindNew (buildTypeRef_keeps h) fun type _ => .setAst ha (by decide) fun a ha => ?_
    refine .expect (.bindNew (h.expression 1) fun e _ => ?_)
    exact .setAstLast ha (by decide) fun _ _ => trivial
  · exact .bindNew (h.expression 1) fun e _ => .expect (.pure trivial)

theorem buildUnary_keeps (op : AstExprOperator) : Keeps p 0 (buildUnary fwd op) Any := by
  refine .next (.node (by decide) fun a ha => .setData ha (by decide) rfl rfl fun a ha => ?_)
  exact .bindNew (h.expression 1) fun e _ => .setAstLast ha (by decide) fun _ _ => trivial

omit h in
/-- The name has a flaw, and the trace says so. -/
theorem buildErrorName_keeps : Keeps p 0 buildErrorName Any := by
  have hnote : ∀ {f : Unit → Parser Ast}, Keeps p ((0, 1) + 0) (f ()) Any →
      Keeps p 0 (note .errorName >>= f) Any := fun {f} hf s => by
    rw [wp_bind, Parse.note, wp_modify]
    refine wp_mono (hf _) (fun a t ⟨htrace, _, hcounts⟩ => ?_) fun e he => ?_
    · refine ⟨(Grows.cons (Plain.calls _ rfl) rfl).trans htrace, trivial, fun F hs =>
        hcounts F ⟨?_, ?_⟩⟩
      · simpa using hs.ids
      · have hflaws : (0 + F).2 = s.kept := hs.flaws
        simp only [zero_add, add_zero, Prod.snd_add] at hflaws ⊢
        rw [hflaws]
        rfl
    · exact (Grows.cons (Plain.calls _ rfl) rfl).trans he
  refine hnote (.next (.node (by decide) fun a ha => .reads fun token => ?_))
  obtain @⟨kind, id, lineNr, attrs, hkind, hnames⟩ := ha
  obtain rfl := List.map_eq_nil_iff.mp hnames
  refine .of_eq (.pure trivial) ?_
  have hload : ∀ attrs, load (Ast.node kind id lineNr attrs) = _ := loadOf_attrs kind id lineNr
  rw [hload, hload]
  simp [hkind, Attribute.load, Attribute.Tagged, AstAttributeType.Tags, setEntry,
    valueNodes, loadOf]

theorem buildExpressionPrimary_keeps : Keeps p 0 (buildExpressionPrimary fwd) Any := by
  refine .require (.ifToken buildInteger_keeps (.ifToken buildBoolean_keeps ?_))
  refine .ifToken buildBoolean_keeps (.ifToken buildStringLiteral_keeps ?_)
  refine .ifToken (buildDottedName_keeps h) (.ifToken (buildNonTypeName_keeps false).any ?_)
  refine .ifToken (buildBracedList_keeps h) (.ifToken (buildParenthesized_keeps h) ?_)
  refine .ifToken (buildUnary_keeps h _) (.ifToken (buildUnary_keeps h _) ?_)
  refine .ifToken (buildUnary_keeps h _) (.ifToken (buildTypeName_keeps h).any ?_)
  exact .ifToken buildErrorName_keeps (.stop _)

/-! ## Operators -/

variable (expr : Ast)

omit h in
theorem buildMemberSelect_keeps : Keeps p (load expr + 0) (buildMemberSelect expr) Any := by
  refine .next (.node (by decide) fun a ha => .giveAst ha (by decide) fun a ha => ?_)
  refine .require (.bindNew (buildName_keeps false) fun name _ => ?_)
  exact .setAstLast ha (by decide) fun _ _ => trivial

theorem buildIndexedArray_keeps : Keeps p (load expr + 0) (buildIndexedArray fwd expr) Any := by
  refine .next (.node (by decide) fun a ha => .giveAst ha (by decide) fun a ha => ?_)
  refine .bindNew (buildArrayIndex_keeps h) fun index _ => ?_
  exact .setAst ha (by decide) fun a _ => .expect (.pure trivial)

theorem buildFunctionCall_keeps : Keeps p (load expr + 0) (buildFunctionCall fwd expr) Any := by
  refine .next (.node (by decide) fun a ha => .giveAst ha (by decide) fun a ha => ?_)
  refine .bindNew (buildArgumentList_keeps h) fun args _ => ?_
  exact .setList ha (by decide) fun a _ => .expect (.pure trivial)

theorem buildTypeArgs_keeps : Keeps p (load expr + 0) (buildTypeArgs fwd expr) Any := by
  refine .next (.node (by decide) fun a ha => .giveAst ha (by decide) fun a ha => ?_)
  refine .bindNew (buildRealTypeArgumentList_keeps h) fun args _ => ?_
  exact .setList ha (by decide) fun a _ => .expect (.pure trivial)

theorem buildKvPair_keeps : Keeps p (load expr + 0) (buildKvPair fwd expr) Any := by
  refine .next (.node (by decide) fun a ha => .giveAst ha (by decide) fun a ha => ?_)
  exact .bindNew (h.expression 1) fun e _ => .setAstLast ha (by decide) fun _ _ => trivial

theorem buildBinary_keeps (priority : Nat) :
    Keeps p (load expr + 0) (buildBinary fwd expr priority) Any := by
  refine .node (by decide) fun a ha => .giveAst ha (by decide) fun a ha => .reads fun token => ?_
  refine .setData ha (by decide) rfl rfl fun a ha =>
    .next (.bindNew (h.expression (priority + 1)) ?_)
  exact fun e _ => .setAstLast ha (by decide) fun _ _ => trivial

omit [Plain p] h in
theorem atPriority_keeps {L : Load} {threshold : Nat} {x : Nat → Parser Ast} {done : Parser Ast}
    (hx : ∀ priority, Keeps p L (x priority) Any) (hdone : Keeps p L done Any) :
    Keeps p L (atPriority threshold x done) Any := fun s => by
  unfold wp atPriority
  cases getOperatorPriority s.token.klass with
  | none => exact Grows.refl _
  | some priority =>
    by_cases h : priority ≥ threshold
    · simp only [if_pos h]
      exact hx priority s
    · simp only [if_neg h]
      exact hdone s

theorem operatorLoop_keeps (threshold : Nat) : ∀ (fuel : Nat) (expr : Ast),
    Keeps p (load expr + 0) (operatorLoop fwd threshold fuel expr) Any
  | 0, _ => .stop _
  | fuel + 1, expr => by
    have hloop : ∀ {x : Parser Ast}, Keeps p (load expr + 0) x Any →
        Keeps p (load expr + 0) (x >>= operatorLoop fwd threshold fuel) Any := fun hx =>
      .bind hx fun a _ => operatorLoop_keeps threshold fuel a
    have hbinary : Keeps p (load expr + 0)
        (ifToken (is .equal) (buildKvPair fwd expr >>= operatorLoop fwd threshold fuel) <|
          ifToken tokenIsBinaryOperator
            (atPriority threshold
              (fun priority => buildBinary fwd expr priority >>= operatorLoop fwd threshold fuel)
              (pure expr))
            assertFalse) Any := by
      refine .ifToken (hloop (buildKvPair_keeps h expr)) (.ifToken ?_ (.stop _))
      exact atPriority_keeps (fun priority => hloop (buildBinary_keeps h expr priority))
        (.pure trivial)
    refine .ifToken (.ifToken (hloop (buildMemberSelect_keeps expr)) ?_) (.pure trivial)
    refine .ifToken (hloop (buildIndexedArray_keeps h expr)) ?_
    refine .ifToken (hloop (buildFunctionCall_keeps h expr)) (.ifToken ?_ hbinary)
    exact .ifPeek (hloop (buildTypeArgs_keeps h expr)) hbinary

theorem buildExpression_keeps (threshold : Nat) : Keeps p 0 (buildExpression fwd threshold) Any :=
  .require (.bindNew (buildExpressionPrimary_keeps h) fun expr _ =>
    operatorLoop_keeps h threshold fwd.fuel expr)

end

end Dp4c.Parse
