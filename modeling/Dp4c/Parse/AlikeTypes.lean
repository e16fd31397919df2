import Dp4c.Parse.Alike

/-! # Types and expressions, in runs that look alike -/
namespace Dp4c.Parse

open Dp4c.Lib Dp4c.Lib.Prog

variable {L : Likeness} {fwd fwd' : Forward} {n m : Nat}

/-! ## Names and literals -/

theorem buildNonTypeName_alike (isType : Bool) :
    Alike L L.Tree (buildNonTypeName isType) (buildNonTypeName isType) := by
  refine .require (.token fun token hword => .newNode fun a ha => ?_)
  exact .bind (.setString ha hword rfl) fun a ha => .registerType (.next (.pure ha))

theorem buildName_alike (isType : Bool) :
    Alike L L.Tree (buildName isType) (buildName isType) := by
  refine .require (.ifToken (buildNonTypeName_alike isType) (.ifToken ?_ (.stop _)))
  refine .token fun token hword => .newNode fun a ha => ?_
  exact .bind (.setString ha hword rfl) fun a ha => .next (.pure ha)

theorem buildTypeParameterList_alike (hfuel : L.Fuels n m) :
    Alike L L.OptTrees (buildTypeParameterList n) (buildTypeParameterList m) :=
  .require (.commaList (buildName_alike true) hfuel)

theorem buildOptTypeParameters_alike (hfuel : L.Fuels n m) :
    Alike L L.OptTrees (buildOptTypeParameters n) (buildOptTypeParameters m) := by
  refine .optList (.next (.require
    (.bind (buildTypeParameterList_alike hfuel) fun params hp => ?_)))
  exact .expect (.pure hp)

theorem buildInteger_alike : Alike L L.Tree buildInteger buildInteger := by
  refine .ifToken (.token fun token _ => .newNode fun a ha => ?_) (.pure (fine_null _))
  refine .bind (.setData ha rfl rfl) fun a ha => .bind (.setData ha rfl rfl) fun a ha => ?_
  exact .bind (.setData ha rfl rfl) fun a ha => .next (.pure ha)

theorem buildBoolean_alike : Alike L L.Tree buildBoolean buildBoolean := by
  refine .ifToken (.newNode fun a ha => .bind (.setData ha rfl rfl) fun a ha => ?_)
    (.pure (fine_null _))
  exact .bind (.ifToken (.setData ha rfl rfl) (.pure ha)) fun a ha => .next (.pure ha)

theorem buildStringLiteral_alike : Alike L L.Tree buildStringLiteral buildStringLiteral := by
  refine .ifToken (.token fun token hword => .newNode fun a ha => ?_) (.pure (fine_null _))
  exact .bind (.setString ha hword rfl) fun a ha => .next (.pure ha)

theorem buildDirection_alike : Alike L Whatever buildDirection buildDirection := by
  refine .ifToken (.bind (R := Whatever) ?_ fun dir _ => .next (.pure trivial)) (.pure trivial)
  exact .ifToken (.pure trivial) (.ifToken (.pure trivial) (.ifToken (.pure trivial) (.stop _)))

theorem buildDotPrefix_alike : Alike L Whatever buildDotPrefix buildDotPrefix :=
  .ifToken (.next (.pure trivial)) (.pure trivial)

section

variable (h : Forward.Alike L fwd fwd')
include h

theorem buildTypeArg_alike : Alike L L.Tree (buildTypeArg fwd) (buildTypeArg fwd') := by
  refine .require (.ifToken (.newNode fun a ha => .next (.pure ha)) (.ifToken h.typeRef ?_))
  exact .ifToken (buildNonTypeName_alike false) (.stop _)

/-! ## Prototypes -/

theorem buildParameter_alike : Alike L L.Tree (buildParameter fwd) (buildParameter fwd') := by
  refine .newNode fun a ha => .bind buildDirection_alike fun dir _ => ?_
  refine .bind (.setData ha rfl rfl) fun a ha => .require (.bind h.typeRef fun type htype => ?_)
  refine .bind (.setAst ha htype rfl) fun a ha => .require (.bind (buildName_alike false) ?_)
  refine fun name hname => .bind (.setAst ha hname rfl) fun a ha => .ifToken ?_ (.pure ha)
  exact .next (.require (.bind (h.expression 1) fun e he => .setAst ha he rfl))

theorem buildParameterList_alike :
    Alike L L.OptTrees (buildParameterList fwd) (buildParameterList fwd') :=
  .optList (.commaList (buildParameter_alike h) h.fuel)

theorem buildTypeOrVoid_alike (isType : Bool) :
    Alike L L.Tree (buildTypeOrVoid fwd isType) (buildTypeOrVoid fwd' isType) := by
  refine .require (.ifToken h.typeRef (.ifToken ?_ (.ifToken ?_ (.stop _))))
  · refine .token fun token hword => .newNode fun a ha => ?_
    exact .bind (.setString ha hword rfl) fun a ha => .next (.pure ha)
  · refine .token fun token hword => .newNode fun a ha => ?_
    exact .bind (.setString ha hword rfl) fun a ha => .registerType (.next (.pure ha))

variable {text : String} {a : Ast}

theorem setParams_alike (ha : L.Tree a) :
    Alike L L.Tree (setParams fwd a text) (setParams fwd' a text) := by
  refine .expect (.bind (buildParameterList_alike h) fun params hp => ?_)
  exact .bind (.setList ha hp rfl) fun a ha => .expect (.pure ha)

theorem setSignature_alike (isType : Bool) (ha : L.Tree a) :
    Alike L L.Tree (setSignature fwd a isType text) (setSignature fwd' a isType text) := by
  refine .require (.bind (buildName_alike isType) fun name hname => ?_)
  refine .bind (.setAst ha hname rfl) fun a ha => .bind (buildOptTypeParameters_alike h.fuel) ?_
  exact fun types ht => .bind (.setList ha ht rfl) fun a ha => setParams_alike h ha

theorem buildFunctionPrototype_alike (ha : L.Tree a) :
    Alike L L.Tree (buildFunctionPrototype fwd a) (buildFunctionPrototype fwd' a) := by
  refine .requireOr (.newNode fun b hb => .givenOr ha (buildTypeOrVoid_alike h true) ?_)
  exact fun type htype => .bind (.setAst hb htype rfl) fun b hb => setSignature_alike h false hb

theorem buildMethodPrototype_alike :
    Alike L L.Tree (buildMethodPrototype fwd) (buildMethodPrototype fwd') := by
  have hproto : Alike L L.Tree
      (ifToken tokenIsTypeOrVoid (buildFunctionPrototype fwd .null) (error "type was expected"))
      (ifToken tokenIsTypeOrVoid (buildFunctionPrototype fwd' .null) (error "type was expected")) :=
    .ifToken (buildFunctionPrototype_alike h (fine_null _)) (.error _)
  refine .require (.bind (.ifToken (.ifPeek ?_ hproto) hproto) fun a ha => .expect (.pure ha))
  refine .newNode fun a ha => .bind (buildName_alike false) fun name hname => ?_
  exact .bind (.setAst ha hname rfl) fun a ha => setParams_alike h ha

theorem buildMethodPrototypes_alike :
    Alike L L.OptTrees (buildMethodPrototypes fwd) (buildMethodPrototypes fwd') :=
  .optList (.whileList (buildMethodPrototype_alike h) h.fuel)

theorem buildExternFunction_alike :
    Alike L L.Tree (buildExternFunction fwd) (buildExternFunction fwd') :=
  .bind (buildFunctionPrototype_alike h (fine_null _)) fun _ ha => .expect (.pure ha)

theorem buildExternObject_alike (ha : L.Tree a) :
    Alike L L.Tree (buildExternObject fwd a) (buildExternObject fwd' a) := by
  refine .bind (buildNonTypeName_alike true) fun name hname => .bind (.setAst ha hname rfl) ?_
  refine fun a ha => .bind (buildOptTypeParameters_alike h.fuel) fun types ht => ?_
  refine .bind (.setList ha ht rfl) fun a ha => .expect (.bind (buildMethodPrototypes_alike h) ?_)
  exact fun protos hp => .bind (.setList ha hp rfl) fun a ha => .expect (.pure ha)

theorem buildExternDeclaration_alike :
    Alike L L.Tree (buildExternDeclaration fwd) (buildExternDeclaration fwd') := by
  refine .ifToken (.next (.newNode fun a ha => .ifToken ?_ ?_)) (.pure (fine_null _))
  · exact .ifPeek (buildExternFunction_alike h) (buildExternObject_alike h ha)
  · exact .ifToken (buildExternFunction_alike h)
      (.ifToken (buildExternObject_alike h ha) (.error _))

/-! ## Types -/

theorem buildIntegerTypeSize_alike :
    Alike L L.Tree (buildIntegerTypeSize fwd) (buildIntegerTypeSize fwd') := by
  refine .newNode fun a ha => .ifToken ?_ (.ifToken ?_ (.error _))
  · exact .bind buildInteger_alike fun i hi => .setAst ha hi rfl
  · exact .bind (h.expression 1) fun e he => .setAst ha he rfl

omit h in
theorem buildPlainType_alike (ha : L.Tree a) (value : AstBaseTypeKind) :
    Alike L L.Tree (buildPlainType a value) (buildPlainType a value) :=
  .bind (.setData ha rfl rfl) fun _ ha => .next (.pure ha)

theorem buildSizedType_alike (ha : L.Tree a) (value : AstBaseTypeKind) :
    Alike L L.Tree (buildSizedType fwd a value) (buildSizedType fwd' a value) := by
  refine .bind (buildPlainType_alike ha value) fun a ha => .ifToken (.next ?_) (.pure ha)
  refine .bind (buildIntegerTypeSize_alike h) fun size hsize => .bind (.setAst ha hsize rfl) ?_
  exact fun a ha => .expect (.pure ha)

theorem buildBaseType_alike : Alike L L.Tree (buildBaseType fwd) (buildBaseType fwd') := by
  refine .require (.newNode fun a ha => ?_)
  have hplain (value : AstBaseTypeKind) := buildPlainType_alike (L := L) ha value
  have hsized := buildSizedType_alike h ha
  refine .ifToken (hplain _) (.ifToken (hplain _) (.ifToken (hsized _) (.ifToken (hsized _) ?_)))
  exact .ifToken (hsized _) (.ifToken (hplain _) (.stop _))

theorem buildTypeArgumentList_alike :
    Alike L L.OptTrees (buildTypeArgumentList fwd) (buildTypeArgumentList fwd') :=
  .optList (.commaList (buildTypeArg_alike h) h.fuel)

theorem buildTupleType_alike : Alike L L.Tree (buildTupleType fwd) (buildTupleType fwd') := by
  refine .expect (.newNode fun a ha => .expect (.bind (buildTypeArgumentList_alike h) ?_))
  exact fun args hargs => .bind (.setList ha hargs rfl) fun a ha => .expect (.pure ha)

theorem buildHeaderStackType_alike :
    Alike L L.Tree (buildHeaderStackType fwd) (buildHeaderStackType fwd') := by
  refine .expect (.newNode fun a ha => .require (.bind (h.expression 1) fun e he => ?_))
  exact .bind (.setAst ha he rfl) fun a ha => .expect (.pure ha)

theorem buildSpecializedType_alike :
    Alike L L.Tree (buildSpecializedType fwd) (buildSpecializedType fwd') := by
  refine .expect (.newNode fun a ha => .bind (buildTypeArgumentList_alike h) fun args hargs => ?_)
  exact .bind (.setList ha hargs rfl) fun a ha => .expect (.pure ha)

omit h in
theorem buildPrefixedType_alike : Alike L L.Tree buildPrefixedType buildPrefixedType := by
  refine .bind buildDotPrefix_alike fun dot _ => .require (.token fun token hword => ?_)
  refine .newNode fun a ha => .bind (.setString ha hword rfl) fun a ha => ?_
  exact .bind (.setData ha rfl rfl) fun a ha => .next (.pure ha)

theorem buildTypeName_alike : Alike L L.Tree (buildTypeName fwd) (buildTypeName fwd') := by
  refine .require (.bind buildPrefixedType_alike fun name hname =>
    .bind (.ifToken ?_ (.pure hname)) ?_)
  · exact .bind (buildSpecializedType_alike h) fun a ha => .setAst ha hname rfl
  · refine fun name hname => .ifToken (.bind (buildHeaderStackType_alike h) ?_) (.pure hname)
    exact fun a ha => .setAst ha hname rfl

theorem buildTypeRef_alike : Alike L L.Tree (buildTypeRef fwd) (buildTypeRef fwd') := by
  refine .require (.ifToken (buildBaseType_alike h) (.ifToken (buildTypeName_alike h) ?_))
  exact .ifToken (buildTupleType_alike h) (.stop _)

/-! ## Structs, headers and enumerations -/

theorem buildStructField_alike : Alike L L.Tree (buildStructField fwd) (buildStructField fwd') := by
  refine .newNode fun a ha => .require (.bind (buildTypeRef_alike h) fun type htype => ?_)
  refine .bind (.setAst ha htype rfl) fun a ha => .require (.bind (buildName_alike false) ?_)
  exact fun name hname => .bind (.setAst ha hname rfl) fun a ha => .expect (.pure ha)

theorem buildStructFieldList_alike :
    Alike L L.OptTrees (buildStructFieldList fwd) (buildStructFieldList fwd') :=
  .optList (.whileList (buildStructField_alike h) h.fuel)

theorem buildFieldsDeclaration_alike {klass : TokenClass} {kind : AstKind} :
    Alike L L.Tree (buildFieldsDeclaration fwd klass kind text)
      (buildFieldsDeclaration fwd' klass kind text) := by
  refine .expect (.newNode fun a ha => .require (.bind (buildName_alike true) fun name hname => ?_))
  refine .bind (.setAst ha hname rfl) fun a ha => .expect (.bind (buildStructFieldList_alike h) ?_)
  exact fun fields hf => .bind (.setList ha hf rfl) fun a ha => .expect (.pure ha)

theorem buildInitializer_alike : Alike L L.Tree (buildInitializer fwd) (buildInitializer fwd') :=
  h.expression 1

theorem buildOptInitializer_alike :
    Alike L L.Tree (buildOptInitializer fwd) (buildOptInitializer fwd') :=
  .ifToken (.next (buildInitializer_alike h)) (.pure (fine_null _))

theorem buildSpecifiedIdentifier_alike :
    Alike L L.Tree (buildSpecifiedIdentifier fwd) (buildSpecifiedIdentifier fwd') := by
  refine .require (.newNode fun a ha => .bind (buildName_alike false) fun name hname => ?_)
  refine .bind (.setAst ha hname rfl) fun a ha => .ifToken (.next (.require ?_)) (.pure ha)
  exact .bind (buildInitializer_alike h) fun e he => .setAst ha he rfl

theorem buildSpecifiedIdentifierList_alike :
    Alike L L.OptTrees (buildSpecifiedIdentifierList fwd) (buildSpecifiedIdentifierList fwd') :=
  .optList (.commaList (buildSpecifiedIdentifier_alike h) h.fuel)

omit h in
theorem buildEnumSize_alike (ha : L.Tree a) :
    Alike L L.Tree (buildEnumSize a) (buildEnumSize a) := by
  refine .ifToken (.next (.expect (.require (.bind buildInteger_alike fun i hi => ?_)))) (.pure ha)
  exact .bind (.setAst ha hi rfl) fun a ha => .expect (.pure ha)

theorem buildEnumDeclaration_alike :
    Alike L L.Tree (buildEnumDeclaration fwd) (buildEnumDeclaration fwd') := by
  refine .expect (.newNode fun a ha => .bind (buildEnumSize_alike ha) fun a ha => .require ?_)
  refine .bind (buildName_alike true) fun name hname => .bind (.setAst ha hname rfl) fun a ha => ?_
  refine .expect (.require (.bind (buildSpecifiedIdentifierList_alike h) fun ids hids => ?_))
  exact .bind (.setList ha hids rfl) fun a ha => .expect (.pure ha)

theorem buildDerivedTypeDeclaration_alike :
    Alike L L.Tree (buildDerivedTypeDeclaration fwd) (buildDerivedTypeDeclaration fwd') := by
  refine .require (.ifToken ?_ (.ifToken ?_ (.ifToken ?_ (.ifToken ?_ (.stop _)))))
  · exact buildFieldsDeclaration_alike h
  · exact buildFieldsDeclaration_alike h
  · exact buildFieldsDeclaration_alike h
  · exact buildEnumDeclaration_alike h

/-! ## Arguments and indices -/

theorem buildArgument_alike : Alike L L.Tree (buildArgument fwd) (buildArgument fwd') := by
  refine .require (.ifToken (h.expression 1) (.ifToken ?_ (.ifToken ?_ (.stop _))))
  · refine .newNode fun a ha => .bind (buildName_alike false) fun name hname => ?_
    refine .bind (.setAst ha hname rfl) fun a ha => .expect (.require ?_)
    exact .bind (h.expression 1) fun e he => .setAst ha he rfl
  · exact .newNode fun a ha => .next (.pure ha)

theorem buildArgumentList_alike :
    Alike L L.OptTrees (buildArgumentList fwd) (buildArgumentList fwd') :=
  .optList (.commaList (buildArgument_alike h) h.fuel)

theorem buildArrayIndex_alike : Alike L L.Tree (buildArrayIndex fwd) (buildArrayIndex fwd') := by
  refine .newNode fun a ha => .require (.bind (h.expression 1) fun e he => ?_)
  refine .bind (.setAst ha he rfl) fun a ha => .ifToken (.next (.require ?_)) (.pure ha)
  exact .bind (h.expression 1) fun e he => .setAst ha he rfl

theorem buildExpressionList_alike :
    Alike L L.OptTrees (buildExpressionList fwd) (buildExpressionList fwd') :=
  .optList (.commaList (h.expression 1) h.fuel)

theorem buildRealTypeArg_alike : Alike L L.Tree (buildRealTypeArg fwd) (buildRealTypeArg fwd') :=
  .ifToken (.next .new) (.ifToken (buildTypeRef_alike h) (.error _))

theorem buildRealTypeArgumentList_alike :
    Alike L L.OptTrees (buildRealTypeArgumentList fwd) (buildRealTypeArgumentList fwd') :=
  .optList (.commaList (buildRealTypeArg_alike h) h.fuel)

/-! ## Primaries -/

theorem buildDottedName_alike : Alike L L.Tree (buildDottedName fwd) (buildDottedName fwd') := by
  refine .next (.ifToken ?_ (.ifToken ?_ .unexpected))
  · exact .bind (buildNonTypeName_alike false) fun a ha => .setData ha rfl rfl
  · exact .bind (buildTypeName_alike h) fun a ha => .setData ha rfl rfl

theorem buildBracedList_alike : Alike L L.Tree (buildBracedList fwd) (buildBracedList fwd') := by
  refine .next (.newNode fun a ha => .bind (buildExpressionList_alike h) fun exprs hexprs => ?_)
  exact .bind (.setList ha hexprs rfl) fun a ha => .expect (.pure ha)

theorem buildParenthesized_alike :
    Alike L L.Tree (buildParenthesized fwd) (buildParenthesized fwd') := by
  refine .next (.ifToken (.newNode fun a ha => ?_) (.ifToken ?_ (.error _)))
  · refine .bind (buildTypeRef_alike h) fun type htype => .bind (.setAst ha htype rfl) ?_
    exact fun a ha => .expect (.bind (h.expression 1) fun e he => .setAst ha he rfl)
  · exact .bind (h.expression 1) fun e he => .expect (.pure he)

theorem buildUnary_alike (op : AstExprOperator) :
    Alike L L.Tree (buildUnary fwd op) (buildUnary fwd' op) := by
  refine .next (.newNode fun a ha => .bind (.setData ha rfl rfl) fun a ha => ?_)
  exact .bind (h.expression 1) fun e he => .setAst ha he rfl

omit h in
theorem buildErrorName_alike : Alike L L.Tree buildErrorName buildErrorName :=
  .note (.next (.newNode fun _ ha => .token fun _ hword => .setString ha hword rfl))

theorem buildExpressionPrimary_alike :
    Alike L L.Tree (buildExpressionPrimary fwd) (buildExpressionPrimary fwd') := by
  refine .require (.ifToken buildInteger_alike (.ifToken buildBoolean_alike ?_))
  refine .ifToken buildBoolean_alike (.ifToken buildStringLiteral_alike ?_)
  refine .ifToken (buildDottedName_alike h) (.ifToken (buildNonTypeName_alike false) ?_)
  refine .ifToken (buildBracedList_alike h) (.ifToken (buildParenthesized_alike h) ?_)
  refine .ifToken (buildUnary_alike h _) (.ifToken (buildUnary_alike h _) ?_)
  refine .ifToken (buildUnary_alike h _) (.ifToken (buildTypeName_alike h) ?_)
  exact .ifToken buildErrorName_alike (.stop _)

/-! ## Operators -/

variable {expr : Ast} (hexpr : L.Tree expr)
include hexpr

omit h in
theorem buildMemberSelect_alike : Alike L L.Tree (buildMemberSelect expr)
    (buildMemberSelect expr) := by
  refine .next (.newNode fun a ha => .bind (.setAst ha hexpr rfl) fun a ha => ?_)
  exact .require (.bind (buildName_alike false) fun name hname => .setAst ha hname rfl)

theorem buildIndexedArray_alike :
    Alike L L.Tree (buildIndexedArray fwd expr) (buildIndexedArray fwd' expr) := by
  refine .next (.newNode fun a ha => .bind (.setAst ha hexpr rfl) fun a ha => ?_)
  refine .bind (buildArrayIndex_alike h) fun index hindex => .bind (.setAst ha hindex rfl) ?_
  exact fun a ha => .expect (.pure ha)

theorem buildFunctionCall_alike :
    Alike L L.Tree (buildFunctionCall fwd expr) (buildFunctionCall fwd' expr) := by
  refine .next (.newNode fun a ha => .bind (.setAst ha hexpr rfl) fun a ha => ?_)
  refine .bind (buildArgumentList_alike h) fun args hargs => .bind (.setList ha hargs rfl) ?_
  exact fun a ha => .expect (.pure ha)

theorem buildTypeArgs_alike : Alike L L.Tree (buildTypeArgs fwd expr)
    (buildTypeArgs fwd' expr) := by
  refine .next (.newNode fun a ha => .bind (.setAst ha hexpr rfl) fun a ha => ?_)
  refine .bind (buildRealTypeArgumentList_alike h) fun args hargs =>
    .bind (.setList ha hargs rfl) ?_
  exact fun a ha => .expect (.pure ha)

theorem buildKvPair_alike : Alike L L.Tree (buildKvPair fwd expr) (buildKvPair fwd' expr) := by
  refine .next (.newNode fun a ha => .bind (.setAst ha hexpr rfl) fun a ha => ?_)
  exact .bind (h.expression 1) fun e he => .setAst ha he rfl

theorem buildBinary_alike (priority : Nat) :
    Alike L L.Tree (buildBinary fwd expr priority) (buildBinary fwd' expr priority) := by
  refine .newNode fun a ha => .bind (.setAst ha hexpr rfl) fun a ha => .token fun token _ => ?_
  refine .bind (.setData ha rfl rfl) fun a ha => .next (.bind (h.expression (priority + 1)) ?_)
  exact fun e he => .setAst ha he rfl

omit h hexpr in
theorem atPriority_alike {threshold : Nat} {x x' : Nat → Parser Ast} {done : Parser Ast}
    (hx : ∀ priority, Alike L L.Tree (x priority) (x' priority))
    (hdone : Alike L L.Tree done done) :
    Alike L L.Tree (atPriority threshold x done) (atPriority threshold x' done) := by
  -- what is done with the operator of this class
  have hchosen (klass : TokenClass) : ∃ y y', (∀ s : State, s.token.klass = klass →
      atPriority threshold x done s = y s ∧ atPriority threshold x' done s = y' s) ∧
        Alike L L.Tree y y' := by
    unfold atPriority
    cases hpriority : getOperatorPriority klass with
    | none =>
      refine ⟨assertFalse, assertFalse, fun s hs => ?_, Alike.stop _⟩
      rw [hs, hpriority]
      exact ⟨rfl, rfl⟩
    | some priority =>
      by_cases hle : priority ≥ threshold
      · refine ⟨x priority, x' priority, fun s hs => ?_, hx priority⟩
        rw [hs, hpriority]
        exact ⟨if_pos hle, if_pos hle⟩
      · refine ⟨done, done, fun s hs => ?_, hdone⟩
        rw [hs, hpriority]
        exact ⟨if_neg hle, if_neg hle⟩
  refine InStep.choose (fun s t hst => ?_) fun t _ => ?_
  · obtain ⟨y, y', hy, halike⟩ := hchosen t.token.klass
    exact ⟨y, y', (hy s (Token.Content.klass (L.token hst))).1, (hy t rfl).2, halike⟩
  · obtain ⟨y, y', hy, halike⟩ := hchosen t.token.klass
    exact ⟨y', (hy t rfl).2, halike.goes⟩

omit hexpr in
/-- A round of the loop, where the rest of it is alike. -/
theorem operatorLoop_round {threshold : Nat} (hexpr : L.Tree expr)
    (hrest : ∀ a, L.Tree a → Alike L L.Tree (operatorLoop fwd threshold n a)
      (operatorLoop fwd' threshold m a)) :
    Alike L L.Tree (operatorLoop fwd threshold (n + 1) expr)
      (operatorLoop fwd' threshold (m + 1) expr) := by
  have hloop : ∀ {x x' : Parser Ast}, Alike L L.Tree x x' →
      Alike L L.Tree (x >>= operatorLoop fwd threshold n) (x' >>= operatorLoop fwd' threshold m) :=
    fun hx => .bind hx hrest
  have hbinary : Alike L L.Tree
      (ifToken (is .equal) (buildKvPair fwd expr >>= operatorLoop fwd threshold n) <|
        ifToken tokenIsBinaryOperator
          (atPriority threshold
            (fun priority => buildBinary fwd expr priority >>= operatorLoop fwd threshold n)
            (pure expr))
          assertFalse)
      (ifToken (is .equal) (buildKvPair fwd' expr >>= operatorLoop fwd' threshold m) <|
        ifToken tokenIsBinaryOperator
          (atPriority threshold
            (fun priority => buildBinary fwd' expr priority >>= operatorLoop fwd' threshold m)
            (pure expr))
          assertFalse) := by
    refine .ifToken (hloop (buildKvPair_alike h hexpr)) (.ifToken ?_ (.stop _))
    exact atPriority_alike (fun priority => hloop (buildBinary_alike h hexpr priority))
      (.pure hexpr)
  refine .ifToken (.ifToken (hloop (buildMemberSelect_alike hexpr)) ?_) (.pure hexpr)
  refine .ifToken (hloop (buildIndexedArray_alike h hexpr)) ?_
  refine .ifToken (hloop (buildFunctionCall_alike h hexpr)) (.ifToken ?_ hbinary)
  exact .ifPeek (hloop (buildTypeArgs_alike h hexpr)) hbinary

theorem operatorLoop_alike (threshold : Nat) (hfuel : L.Fuels n m) :
    Alike L L.Tree (operatorLoop fwd threshold n expr) (operatorLoop fwd' threshold m expr) := by
  induction m generalizing n expr with
  | zero =>
    obtain rfl : n = 0 := hfuel.elim id fun h => Nat.le_zero.mp h.1
    exact .stop _
  | succ m ih =>
    cases n with
    | zero => exact .ended hfuel (operatorLoop_round h hexpr fun _ ha => ih ha (.inl rfl)).goes
    | succ n => exact operatorLoop_round h hexpr fun _ ha => ih ha hfuel.pred

omit hexpr in
theorem buildExpression_alike (threshold : Nat) :
    Alike L L.Tree (buildExpression fwd threshold) (buildExpression fwd' threshold) :=
  .require (.bind (buildExpressionPrimary_alike h) fun _ hexpr =>
    operatorLoop_alike h hexpr threshold h.fuel)

end

end Dp4c.Parse
