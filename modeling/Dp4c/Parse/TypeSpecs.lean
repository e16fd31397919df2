import Dp4c.Parse.Advance

/-! # Contracts of the functions for names, prototypes and types -/
namespace Dp4c.Parse

open Dp4c.Lib Dp4c.Lib.Prog

/-- At a semicolon, where `build_parserStatement` stays. -/
structure Halting (memory : Memory) (s : State) : Prop where
  klass : s.token.klass = .semicolon
  inBounds : s.tokenAt < s.tokens.length
  within : ∀ step ∈ s.trace, step.Within s.tokens
  listed : ∀ step ∈ s.trace, ¬ step.Unlisted
  accepted : ∀ step ∈ s.trace, ¬ step.Refused memory

/-- The contracts of the functions that are declared before they are defined. -/
structure Forward.Fits (memory : Memory) (n : Nat) (fwd : Forward) : Prop where
  fuel : n ≤ fwd.fuel
  expression (threshold : Nat) : Spec memory (n + 1) any 1 (fwd.expression threshold)
    (Is isExprKind)
  typeRef : Spec memory (n + 1) any 1 fwd.typeRef (Is isTypeKind)
  blockStatement : Spec memory (n + 1) any 1 fwd.blockStatement (Is (isKind .blockStmt))
  statement : Spec memory n any 1 (fwd.statement .null) (Is isStmtKind)
  parserStatement : Spec memory (n + 1) (fun k => !is .semicolon k) 1 fwd.parserStatement
    (Is isStmtOrDeclKind)
  halts : ∀ s, Halting memory s → 2 * s.left < n + 1 → wp fwd.parserStatement s
    (fun _ t =>
      Halting memory t ∧ t.left = s.left ∧ Later 0 s t ∧ ∃ step ∈ t.trace, step.Stuck)
    fun _ => False

variable {memory : Memory} {n : Nat} {fwd : Forward} {a : Ast} {kinds : AstKind → Bool}

/-! ## Names and literals -/

theorem buildNonTypeName_spec {isType : Bool} :
    Spec memory n any 1 (buildNonTypeName isType) (Is (isKind .name)) := by
  refine .require (.reads fun token => .node fun a ha => ?_)
  refine .set ha (.plain rfl trivial rfl) fun a ha => .registerType ?_
  exact .next rfl (.pure (ha.finish rfl rfl))

theorem buildName_spec {isType : Bool} :
    Spec memory n any 1 (buildName isType) (Is (isKind .name)) := by
  refine .require (.ifToken buildNonTypeName_spec.at (.ifToken ?_ (.never (by decide))))
  refine .reads fun token => .node fun a ha => .set ha (.plain rfl trivial rfl) fun a ha => ?_
  exact .next rfl (.pure (ha.finish rfl rfl))

theorem buildTypeParameterList_spec {fuel : Nat} (hfuel : n ≤ fuel + 1) :
    Spec memory n any 1 (buildTypeParameterList fuel) (ListOf (isKind .name)) :=
  .require (commaList_spec buildName_spec hfuel)

theorem buildOptTypeParameters_spec {fuel : Nat} (hfuel : n ≤ fuel + 1) :
    Spec memory n any 0 (buildOptTypeParameters fuel) (ListOf (isKind .name)) := by
  refine .ifToken (.next rfl (.require ?_)) (.pure .none)
  refine .bind (buildTypeParameterList_spec hfuel) fun params hparams => ?_
  exact .expect (by decide) (.pure hparams)

theorem buildInteger_spec : Spec memory n (is .integer) 1 buildInteger (Is (isKind .int)) := by
  refine .ifToken (.reads fun token => .node fun a ha => ?_) (.never (by decide))
  refine .set ha (.plain rfl trivial rfl) fun a ha =>
    .set ha (.plain rfl trivial rfl) fun a ha => ?_
  exact .set ha (.plain rfl trivial rfl) fun a ha => .next rfl (.pure (ha.finish rfl rfl))

theorem buildBoolean_spec :
    Spec memory n (fun k => k == .true || k == .false) 1 buildBoolean (Is (isKind .bool)) := by
  refine .ifToken (.node fun a ha => ?_) (.never (by decide))
  refine .set ha (.plain rfl trivial rfl) fun a ha => ?_
  have hvalue : ∀ s, ∃ b t, ifToken (is .true) (astSetattr a .value .integer (.int 1)) (pure a) s =
      .ok (b, t) ∧ Same s t ∧ Part .bool [.value] b := fun s => by
    obtain ⟨b, hb, hpart⟩ := ha.astSetattr 
      (.plain rfl trivial rfl : Holds .bool .value .integer (.int 1))
    cases hk : is .true s.token.klass with
    | true => exact ⟨b, s, by rw [ifToken_pos hk, hb]; rfl, ⟨rfl, rfl, rfl⟩, hpart⟩
    | false => exact ⟨a, s, ifToken_neg hk, ⟨rfl, rfl, rfl⟩, ha⟩
  exact .quiet (fun s _ => hvalue s) fun a ha => .next rfl (.pure (ha.finish rfl rfl))

theorem buildStringLiteral_spec :
    Spec memory n (is .stringLiteral) 1 buildStringLiteral (Is (isKind .stringLiteral)) := by
  refine .ifToken (.reads fun token => .node fun a ha => ?_) (.never (by decide))
  exact .set ha (.plain rfl trivial rfl) fun a ha => .next rfl (.pure (ha.finish rfl rfl))

theorem buildDirection_spec : Spec memory n any 0 buildDirection fun _ => True := by
  refine .ifToken (.quiet (Q := fun _ => True) (fun s hs => ?_) fun dir _ => ?_) (.pure trivial)
  · cases hin : is .inKw s.token.klass with
    | true => exact ⟨_, s, ifToken_pos hin, ⟨rfl, rfl, rfl⟩, trivial⟩
    | false =>
      cases hout : is .out s.token.klass with
      | true => exact ⟨_, s, (ifToken_neg hin).trans (ifToken_pos hout), ⟨rfl, rfl, rfl⟩, trivial⟩
      | false =>
        have hinOut : is .inOut s.token.klass = true := by
          have hall : ∀ k, tokenIsDirection k = true → is .inKw k = false → is .out k = false →
              is .inOut k = true := by decide
          exact hall _ hs hin hout
        exact ⟨_, s, ((ifToken_neg hin).trans (ifToken_neg hout)).trans (ifToken_pos hinOut),
          ⟨rfl, rfl, rfl⟩, trivial⟩
  · exact .next rfl (.pure trivial)

section

variable (h : fwd.Fits memory n)
include h

theorem buildTypeArg_spec : Spec memory (n + 1) any 1 (buildTypeArg fwd) (Is isTypeArgKind) := by
  refine .require (.ifToken (.node fun a ha => ?_) (.ifToken ?_ (.ifToken ?_ (.never (by decide)))))
  · exact .next rfl (.pure (ha.finish rfl rfl))
  · exact (h.typeRef.imp fun a ha => ha.mono (by decide)).at
  · exact (buildNonTypeName_spec.imp fun a ha => ha.mono (by decide)).at

/-! ## Prototypes -/

theorem buildParameter_spec :
    Spec memory (n + 1) any 1 (buildParameter fwd) (Is (isKind .parameter)) := by
  refine .node fun a ha => .bind buildDirection_spec fun dir _ => ?_
  refine .set ha (.plain rfl trivial rfl) fun a ha => .require ?_
  refine .bind h.typeRef fun type htype => .set ha (.ast rfl htype) fun a ha => .require ?_
  refine .bind buildName_spec fun name hname => .set ha (.ast rfl hname) fun a ha => ?_
  refine .ifToken (.next rfl (.require ?_)) (.pure (ha.finish rfl rfl))
  refine .bind (h.expression 1) fun e he => ?_
  exact .setLast ha (.ast rfl he) fun a ha => ha.finish rfl rfl

theorem buildParameterList_spec :
    Spec memory (n + 1) any 0 (buildParameterList fwd) (ListOf (isKind .parameter)) :=
  optList_spec (commaList_spec (buildParameter_spec h) (Nat.succ_le_succ h.fuel))

theorem buildTypeOrVoid_spec {isType : Bool} :
    Spec memory (n + 1) any 1 (buildTypeOrVoid fwd isType) (Is isTypeKind) := by
  refine .require (.ifToken h.typeRef.at (.ifToken ?_ (.ifToken ?_ (.never (by decide)))))
  · refine .reads fun token => .node fun a ha => .set ha (.plain rfl trivial rfl) fun a ha => ?_
    exact .next rfl (.pure (ha.finish rfl rfl))
  · refine .reads fun token => .node fun a ha => .set ha (.plain rfl trivial rfl) fun a ha => ?_
    exact .registerType (.next rfl (.pure (ha.finish rfl rfl)))

variable {kind : AstKind} {names : List AttrName} {text : String}

theorem setParams_spec (ha : Part kind names a)
    (hparams : (schema kind).lookup .params = some paramsSlot) :
    Spec memory (n + 1) any 1 (setParams fwd a text) (Part kind (addName .params names)) := by
  refine .expect (by decide) (.bind (buildParameterList_spec h) fun params hp => ?_)
  exact .set ha (.list hparams hp) fun a ha => .expect (by decide) (.pure ha)

theorem setSignature_spec {isType : Bool} (ha : Part kind names a)
    (hname : (schema kind).lookup .name = some nameSlot)
    (htypes : (schema kind).lookup .typeParams = some namesSlot)
    (hparams : (schema kind).lookup .params = some paramsSlot) :
    Spec memory (n + 1) any 1 (setSignature fwd a isType text)
      (Part kind (addName .params (addName .typeParams (addName .name names)))) := by
  refine .require (.bind buildName_spec fun name hn => .set ha (.ast hname hn) fun a ha => ?_)
  refine .bind (buildOptTypeParameters_spec (Nat.succ_le_succ h.fuel)) fun types ht => ?_
  exact .set ha (.list htypes ht) fun a ha => (setParams_spec h ha hparams).rest

theorem buildFunctionPrototype_spec (ha : a = .null ∨ Is isTypeKind a) :
    Spec memory (n + 1) any 1 (buildFunctionPrototype fwd a) (Is (isKind .functionProto)) := by
  refine .requireOr (.node fun b hb => .givenOr ha (buildTypeOrVoid_spec h) fun type ht => ?_)
  refine .set hb (.ast rfl ht) fun b hb => ?_
  exact (setSignature_spec h hb rfl rfl rfl).imp fun b hb => hb.finish rfl rfl

theorem buildMethodPrototype_spec :
    Spec memory (n + 1) any 1 (buildMethodPrototype fwd) (Is (isKind .functionProto)) := by
  have hproto : Spec memory (n + 1) any 1
      (ifToken tokenIsTypeOrVoid (buildFunctionPrototype fwd .null) (error "type was expected"))
      (Is (isKind .functionProto)) :=
    .ifToken (buildFunctionPrototype_spec h (.inl rfl)).at .error
  have hconstructor : Spec memory (n + 1) any 1
      (do
        let proto ← newAstNode .functionProto
        let proto ← astSetattr proto .name .ast (.ast (← buildName false))
        setParams fwd proto "`(` as expected") (Is (isKind .functionProto)) := by
    refine .node fun a ha => .bind buildName_spec fun name hn =>
      .set ha (.ast rfl hn) fun a ha => ?_
    exact (setParams_spec h ha rfl).rest.imp fun a ha => ha.finish rfl rfl
  refine .require (.bind (.ifToken (.ifPeek rfl hconstructor.at hproto.at) hproto.at)
    fun a ha => ?_)
  exact .expect (by decide) (.pure ha)

theorem buildMethodPrototypes_spec :
    Spec memory (n + 1) any 0 (buildMethodPrototypes fwd) (ListOf (isKind .functionProto)) :=
  optList_spec (whileList_spec (buildMethodPrototype_spec h).at
    (Nat.succ_le_succ h.fuel) (by decide))

theorem buildExternFunction_spec :
    Spec memory (n + 1) any 1 (buildExternFunction fwd) (Is isDeclKind) := by
  refine .bind (buildFunctionPrototype_spec h (.inl rfl)) fun a ha => ?_
  exact .expect (by decide) (.pure (ha.mono (by decide)))

theorem buildExternObject_spec (ha : Part .externDecl [] a) :
    Spec memory (n + 1) any 1 (buildExternObject fwd a) (Is isDeclKind) := by
  refine .bind buildNonTypeName_spec fun name hn => .set ha (.ast rfl hn) fun a ha => ?_
  refine .bind (buildOptTypeParameters_spec (Nat.succ_le_succ h.fuel)) fun types ht => ?_
  refine .set ha (.list rfl ht) fun a ha => .expect (by decide) ?_
  refine .bind (buildMethodPrototypes_spec h) fun protos hp => .set ha (.list rfl hp) fun a ha => ?_
  exact .expect (by decide) (.pure (ha.finish rfl rfl))

theorem buildExternDeclaration_spec :
    Spec memory (n + 1) (is .externKw) 1 (buildExternDeclaration fwd) (Is isDeclKind) := by
  refine .ifToken (.next rfl (.node fun a ha => ?_)) (.never (by decide))
  have hobject := buildExternObject_spec h ha
  have hfunction := buildExternFunction_spec h
  refine .ifToken (.ifPeek rfl hfunction.rest hobject.rest) (.ifToken hfunction.rest ?_)
  exact .ifToken hobject.rest .error

/-! ## Types -/

theorem buildIntegerTypeSize_spec :
    Spec memory (n + 1) any 1 (buildIntegerTypeSize fwd) (Is (isKind .intTypeSize)) := by
  refine .node fun a ha => .ifToken ?_ (.ifToken ?_ .error)
  · refine .bindFrom (buildInteger_spec.mono (Nat.le_refl _) (by decide)
      (Nat.le_refl _) fun _ h => h)
      fun i hi => ?_
    exact .setLast ha (.ast rfl (hi.mono (by decide))) fun a ha => ha.finish rfl rfl
  · refine .bind (h.expression 1) fun e he => ?_
    exact .setLast ha (.ast rfl he) fun a ha => ha.finish rfl rfl

omit h in
theorem buildPlainType_spec {m : Nat} {p : TokenClass → Bool} {value : AstBaseTypeKind}
    (hp : p .endOfInput = false) (ha : Part .baseType [] a) :
    Spec memory m p 1 (buildPlainType a value) (Part .baseType [.baseType]) :=
  .set ha (.plain rfl trivial rfl) fun _ ha => .next hp (.pure ha)

theorem buildSizedType_spec {p : TokenClass → Bool} {value : AstBaseTypeKind}
    (hp : p .endOfInput = false) (ha : Part .baseType [] a) :
    Spec memory (n + 2) p 1 (buildSizedType fwd a value) (Is isTypeKind) := by
  refine .enter (buildPlainType_spec hp ha) fun a ha => ?_
  refine .ifToken (.next rfl ?_) (.pure (ha.finish rfl rfl))
  refine .bind (buildIntegerTypeSize_spec h) fun size hs => .set ha (.ast rfl hs) fun a ha => ?_
  exact .expect (by decide) (.pure (ha.finish rfl rfl))

theorem buildBaseType_spec : Spec memory (n + 2) any 1 (buildBaseType fwd) (Is isTypeKind) := by
  refine .require (.node fun a ha => ?_)
  have hplain : ∀ {p : TokenClass → Bool} {value : AstBaseTypeKind}, p .endOfInput = false →
      Spec memory (n + 2) p 1 (buildPlainType a value) (Is isTypeKind) := fun hp =>
    (buildPlainType_spec hp ha).imp fun a ha => ha.finish rfl rfl
  refine .ifToken (hplain rfl) (.ifToken (hplain rfl) (.ifToken (buildSizedType_spec h rfl ha) ?_))
  refine .ifToken (buildSizedType_spec h rfl ha) (.ifToken (buildSizedType_spec h rfl ha) ?_)
  exact .ifToken (hplain rfl) (.never (by decide))

theorem buildTypeArgumentList_spec :
    Spec memory (n + 1) any 0 (buildTypeArgumentList fwd) (ListOf isTypeArgKind) :=
  optList_spec (commaList_spec (buildTypeArg_spec h) (Nat.succ_le_succ h.fuel))

theorem buildTupleType_spec : Spec memory (n + 2) any 1 (buildTupleType fwd) (Is isTypeKind) := by
  refine .expectEnter (by decide) (.node fun a ha => .expect (by decide) ?_)
  refine .bind (buildTypeArgumentList_spec h) fun args hargs =>
    .set ha (.list rfl hargs) fun a ha => ?_
  exact .expect (by decide) (.pure (ha.finish rfl rfl))

theorem buildHeaderStackType_spec :
    Spec memory (n + 1) any 1 (buildHeaderStackType fwd) (Is (isKind .headerStack)) := by
  refine .expect (by decide) (.node fun a ha => .require (.bind (h.expression 1) fun e he => ?_))
  exact .set ha (.ast rfl he) fun a ha => .expect (by decide) (.pure (ha.finish rfl rfl))

theorem buildSpecializedType_spec :
    Spec memory (n + 1) any 1 (buildSpecializedType fwd) (Is (isKind .specdType)) := by
  refine .expect (by decide) (.node fun a ha =>
    .bind (buildTypeArgumentList_spec h) fun args ht => ?_)
  exact .set ha (.list rfl ht) fun a ha => .expect (by decide) (.pure (ha.finish rfl rfl))

omit h in
theorem buildDotPrefix_spec {m : Nat} : Spec memory m any 0 buildDotPrefix fun _ => True :=
  .ifToken (.next rfl (.pure trivial)) (.pure trivial)

omit h in
theorem buildPrefixedType_spec {m : Nat} :
    Spec memory m any 1 buildPrefixedType (Is (isKind .name)) := by
  refine .bind buildDotPrefix_spec fun dot _ => .require (.reads fun token => .node fun a ha => ?_)
  refine .set ha (.plain rfl trivial rfl) fun a ha =>
    .set ha (.plain rfl trivial rfl) fun a ha => ?_
  exact .next rfl (.pure (ha.finish rfl rfl))

theorem buildTypeName_spec : Spec memory (n + 2) any 1 (buildTypeName fwd) (Is isTypeNameKind) := by
  refine .require (.enter buildPrefixedType_spec.at fun name hname => ?_)
  have hspecd : Spec memory (n + 1) any 0
      (ifToken (is .angleOpen)
        (do astSetattr (← buildSpecializedType fwd) .name .ast (.ast name)) (pure name))
      (Is isTypeNameKind) := by
    refine .ifToken (.bind (buildSpecializedType_spec h) fun a ha => ?_)
      (.pure (hname.mono (by decide)))
    refine (Spec.setMore ha rfl fun k hk => ?_).imp fun a ha => ha.mono (by decide)
    rw [isKind, beq_iff_eq] at hk
    exact hk ▸ .ast rfl hname
  refine .bind hspecd fun name hname => ?_
  refine .ifToken (.bind (buildHeaderStackType_spec h) fun a ha => ?_) (.pure hname)
  refine (Spec.setMore ha rfl fun k hk => ?_).imp fun a ha => ha.mono (by decide)
  rw [isKind, beq_iff_eq] at hk
  exact hk ▸ .ast rfl (hname.mono (by decide))

theorem buildTypeRef_spec : Spec memory (n + 2) any 1 (buildTypeRef fwd) (Is isTypeKind) := by
  refine .require (.ifToken (buildBaseType_spec h).at
    (.ifToken ?_ (.ifToken ?_ (.never (by decide)))))
  · exact ((buildTypeName_spec h).imp fun a ha => ha.mono (by decide)).at
  · exact (buildTupleType_spec h).at

/-- `build_typeRef` after a token was consumed. -/
theorem typeRef_spec : Spec memory (n + 1) any 1 (buildTypeRef fwd) (Is isTypeKind) :=
  (buildTypeRef_spec h).fewer (Nat.le_succ _)

/-! ## Structs, headers and enumerations -/

theorem buildStructField_spec :
    Spec memory (n + 1) any 1 (buildStructField fwd) (Is (isKind .structField)) := by
  refine .node fun a ha => .require (.bind (typeRef_spec h) fun type ht => ?_)
  refine .set ha (.ast rfl ht) fun a ha => .require (.bind buildName_spec fun name hn => ?_)
  exact .set ha (.ast rfl hn) fun a ha => .expect (by decide) (.pure (ha.finish rfl rfl))

theorem buildStructFieldList_spec :
    Spec memory (n + 1) any 0 (buildStructFieldList fwd) (ListOf (isKind .structField)) :=
  optList_spec (whileList_spec (buildStructField_spec h).at (Nat.succ_le_succ h.fuel) (by decide))

theorem buildFieldsDeclaration_spec {klass : TokenClass} {kind : AstKind} {text : String}
    (hk : kind = .headerDecl ∨ kind = .headerUnionDecl ∨ kind = .structDecl)
    (hklass : klass ≠ .endOfInput) :
    Spec memory (n + 1) any 1 (buildFieldsDeclaration fwd klass kind text) (Is isDerivedKind) := by
  have hname : (schema kind).lookup .name = some nameSlot := by rcases hk with rfl |
      rfl | rfl <;> rfl
  have hfields : (schema kind).lookup .fields = some (.list (isKind .structField)) := by
    rcases hk with rfl | rfl | rfl <;> rfl
  refine .expect hklass (.node fun a ha => .require (.bind buildName_spec fun name hn => ?_))
  refine .set ha (.ast hname hn) fun a ha => .expect (by decide) ?_
  refine .bind (buildStructFieldList_spec h) fun fields hf =>
    .set ha (.list hfields hf) fun a ha => ?_
  refine .expect (by decide) (.pure ?_)
  rcases hk with rfl | rfl | rfl <;> exact ha.finish rfl rfl

theorem buildInitializer_spec : Spec memory (n + 1) any 1 (buildInitializer fwd) (Is isExprKind) :=
  h.expression 1

theorem buildOptInitializer_spec :
    Spec memory (n + 1) any 0 (buildOptInitializer fwd) (Is isOptExprKind) := by
  refine .ifToken (.next rfl ?_) (.pure ⟨.null, rfl⟩)
  exact (buildInitializer_spec h).rest.imp fun a ha => ha.mono (by decide)

theorem buildSpecifiedIdentifier_spec :
    Spec memory (n + 1) any 1 (buildSpecifiedIdentifier fwd) (Is (isKind .specdId)) := by
  refine .require (.node fun a ha => .bind buildName_spec fun name hn => ?_)
  refine .set ha (.ast rfl hn) fun a ha => ?_
  refine .ifToken (.next rfl (.require ?_)) (.pure (ha.finish rfl rfl))
  refine .bind (buildInitializer_spec h) fun e he => ?_
  exact .setLast ha (.ast rfl he) fun a ha => ha.finish rfl rfl

theorem buildSpecifiedIdentifierList_spec :
    Spec memory (n + 1) any 0 (buildSpecifiedIdentifierList fwd) (ListOf (isKind .specdId)) :=
  optList_spec (commaList_spec (buildSpecifiedIdentifier_spec h) (Nat.succ_le_succ h.fuel))

theorem buildEnumDeclaration_spec :
    Spec memory (n + 1) any 1 (buildEnumDeclaration fwd) (Is isDerivedKind) := by
  have hrest : ∀ {names : List AttrName} {a : Ast}, Part .enumDecl names a →
      Spec memory (n + 1) any 0
        (do
          require tokenIsName "name was expected"
          let decl ← astSetattr a .name .ast (.ast (← buildName true))
          expect .braceOpen "`\x7b` was expected"
          require tokenIsSpecifiedIdentifier "name was expected"
          let decl ← astSetattr decl .idList .astList
              (listValue (← buildSpecifiedIdentifierList fwd))
          expect .braceClose "`\x7d` was expected"
          return decl) (Is isDerivedKind) := by
    intro names a ha
    refine .require (.bind buildName_spec fun name hn => .set ha (.ast rfl hn) fun a ha => ?_)
    refine .expect (by decide) (.require
      (.bind (buildSpecifiedIdentifierList_spec h) fun ids hi => ?_))
    exact .set ha (.list rfl hi) fun a ha => .expect (by decide) (.pure (ha.finish rfl rfl))
  refine .expect (by decide) (.node fun a ha => ?_)
  have hsize : Spec memory (n + 1) any 0 (buildEnumSize a)
      (fun b => Part .enumDecl [] b ∨ Part .enumDecl [.typeSize] b) := by
    refine .ifToken (.next rfl (.expect (by decide) (.require ?_))) (.pure (.inl ha))
    refine .bindFrom (buildInteger_spec.mono (Nat.le_refl _) (by decide)
      (Nat.le_refl _) fun _ h => h)
      fun i hi => ?_
    refine .set ha (.ast rfl hi) fun a ha => .expect (by decide) (.pure (.inr ha))
  exact .bind hsize fun b hb => hb.elim hrest hrest

theorem buildDerivedTypeDeclaration_spec :
    Spec memory (n + 1) any 1 (buildDerivedTypeDeclaration fwd) (Is isDerivedKind) := by
  refine .require (.ifToken ?_ (.ifToken ?_ (.ifToken ?_ (.ifToken ?_ (.never (by decide))))))
  · exact (buildFieldsDeclaration_spec h (.inl rfl) (by decide)).at
  · exact (buildFieldsDeclaration_spec h (.inr (.inl rfl)) (by decide)).at
  · exact (buildFieldsDeclaration_spec h (.inr (.inr rfl)) (by decide)).at
  · exact (buildEnumDeclaration_spec h).at

end

end Dp4c.Parse
