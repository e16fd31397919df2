import Dp4c.Parse.DeclarationSpecs

/-! # The contract of the parser

The contracts of the declarations, from these those of the functions with recursion, and what
a round of each loop consumes. -/
namespace Dp4c.Parse

open Dp4c.Lib Dp4c.Lib.Prog

variable {memory : Memory} {n : Nat} {fwd : Forward} {a : Ast} {s : State}
  {p : TokenClass → Bool}

section

variable (h : fwd.Fits memory n)
include h

theorem buildTypedefDeclaration_spec :
    Spec memory (n + 1) any 1 (buildTypedefDeclaration fwd) (Is isDeclKind) := by
  have hkeyword : Spec memory (n + 1) (fun k => any k && (k == .typedef || k == .type)) 1
      buildTypedefKeyword fun _ => True :=
    .ifToken (.next rfl (.pure trivial)) (.ifToken (.next rfl (.pure trivial)) (.never (by decide)))
  refine .require (.bindFrom hkeyword fun isTypedef _ => ?_)
  refine Spec.fewer (m := n + 1) ?_ (Nat.sub_le _ _)
  refine .require (.node fun a ha => .set ha (.plain rfl trivial rfl) fun a ha => ?_)
  have htype : Spec memory (n + 1)
      (fun k => any k && (tokenIsTypeRef k || tokenIsDerivedTypeDeclaration k))
      1 (ifToken tokenIsTypeRef (buildTypeRef fwd) <|
        ifToken tokenIsDerivedTypeDeclaration (buildDerivedTypeDeclaration fwd) assertFalse)
      (Is fun k => isTypeKind k || isDerivedKind k) := by
    refine .ifToken ((typeRef_spec h).widen (by decide) (by decide))
      (.ifToken ?_ (.never (by decide)))
    exact (buildDerivedTypeDeclaration_spec h).widen (by decide) (by decide)
  refine .bindFrom htype fun type ht => Spec.fewer (m := n + 1) ?_ (Nat.sub_le _ _)
  refine .set ha (.ast rfl ht) fun a ha => .require (.bind buildName_spec fun name hn => ?_)
  exact .set ha (.ast rfl hn) fun a ha => .expect (by decide) (.pure (ha.finish rfl rfl))

theorem buildTypeDeclaration_spec :
    Spec memory (n + 1) any 1 (buildTypeDeclaration fwd memory) (Is isDeclKind) := by
  refine .require (.ifToken ((buildDerivedTypeDeclaration_spec h).widen (by decide) (by decide)) ?_)
  refine .ifToken (buildTypedefDeclaration_spec h).at ?_
  refine .ifToken ((buildParserDeclaration_spec h).widen (by decide) (by decide)) ?_
  refine .ifToken ((buildControlDeclaration_spec h).widen (by decide) (by decide)) ?_
  refine .ifToken (.bind (buildSignatureType_spec h (.inr (.inr rfl)) (by decide)) fun a ha => ?_)
    (.never (by decide))
  exact .expect (by decide) (.pure (ha.mono (by decide)))

theorem buildIdentifierList_spec :
    Spec memory (n + 1) any 1 (buildIdentifierList fwd) (ListOf (isKind .name)) :=
  .require (commaList_spec buildName_spec (Nat.succ_le_succ h.fuel))

theorem buildIdentifiersDeclaration_spec {klass : TokenClass} {kind : AstKind} {text : String}
    (hk : kind = .error ∨ kind = .matchKind) (hklass : klass ≠ .endOfInput) :
    Spec memory (n + 1) any 1 (buildIdentifiersDeclaration fwd klass kind text)
        (Is isDeclKind) := by
  have hslot : (schema kind).lookup .idList = some namesSlot := by rcases hk with rfl | rfl <;> rfl
  refine .expect hklass (.node fun a ha => .expect (by decide) (.require ?_))
  refine .bind (buildIdentifierList_spec h) fun ids hi => .set ha (.list hslot hi) fun a ha => ?_
  refine .expect (by decide) (.pure ?_)
  rcases hk with rfl | rfl <;> exact ha.finish rfl rfl

theorem buildFunctionDeclaration_spec (ha : Is isTypeKind a) :
    Spec memory (n + 1) any 1 (buildFunctionDeclaration fwd a) (Is isDeclKind) := by
  refine .require (.node fun b hb => (Spec.bind (buildFunctionPrototype_spec h (.inr ha)) ?_).at)
  refine fun proto hp => .set hb (.ast rfl hp) fun b hb => .require ?_
  refine .bindFrom h.blockStatement.at fun stmt hs => ?_
  exact .setLast hb (.ast rfl hs) fun b hb => hb.finish rfl rfl

theorem buildDeclaration_spec :
    Spec memory (n + 1) any 1 (buildDeclaration fwd memory) (Is isDeclKind) := by
  have hconst := (buildConstantDeclaration_spec h).fewer (Nat.le_succ (n + 1))
  refine .require (.ifToken (hconst.widen (by decide) (by decide)) ?_)
  refine .ifToken ((buildExternDeclaration_spec h).widen (by decide) (by decide)) ?_
  refine .ifToken ((buildActionDeclaration_spec h).widen (by decide) (by decide)) ?_
  refine .ifToken (buildTypeDeclaration_spec h).at ?_
  refine .ifToken (buildIdentifiersDeclaration_spec h (.inl rfl) (by decide)).at ?_
  refine .ifToken (buildIdentifiersDeclaration_spec h (.inr rfl) (by decide)).at ?_
  refine .ifToken (.bind (typeRef_spec h) fun type ht => ?_) (.ifToken ?_ (.never (by decide)))
  · refine .ifToken ((buildInstantiation_spec h (.inr ht)).imp ?_).rest (.ifToken ?_ .unexpected)
    · exact fun a ha => ha.mono (by decide)
    · exact (buildFunctionDeclaration_spec h ht).rest
  · exact .bind (typeRef_spec h) fun type ht => (buildFunctionDeclaration_spec h ht).rest

theorem declarationLoop_spec : ∀ {fuel k : Nat} {list : AstList}, k ≤ n + 1 → k ≤ fuel + 1 →
    Growing isDeclKind list →
    Spec memory k any 0 (declarationLoop fwd memory fuel list) (Growing isDeclKind)
  | 0, _, _, _, hk, _ => .exhausted hk
  | fuel + 1, k, list, hn, hk, hl => by
    unfold declarationLoop
    refine .ifToken (.ifToken ?_ (.ifToken ?_ (.never (by decide)))) (.pure hl)
    · refine .bindFrom ((buildDeclaration_spec h).fewer hn).at fun a ha =>
        .append hl ha fun list hl => ?_
      exact declarationLoop_spec (by omega) (by omega) hl
    · exact .bindFrom (nextToken_spec rfl) fun _ _ => declarationLoop_spec (by omega) (by omega) hl

theorem buildP4program_spec :
    Spec memory (n + 1) any 0 (buildP4program fwd memory) (Is (isKind .p4Program)) := by
  refine .node fun a ha => .newAstList fun list (hl : Growing isDeclKind list) => ?_
  refine .bind (declarationLoop_spec h (Nat.le_refl _) (Nat.succ_le_succ h.fuel) hl)
    fun list hl => ?_
  refine .set ha (.list rfl hl.listOf) fun a ha => .ifToken (.pure (ha.finish rfl rfl)) .unexpected

end

/-! ## The forward declarations -/

theorem forward_fits : ∀ n, (forward n).Fits memory n
  | 0 =>
    { fuel := Nat.le_refl _
      expression := fun _ => .exhausted (Nat.le_refl _)
      typeRef := .exhausted (Nat.le_refl _)
      blockStatement := .exhausted (Nat.le_refl _)
      statement := .exhausted (Nat.zero_le _)
      parserStatement := .exhausted (Nat.le_refl _)
      halts := fun s hs hl => by
        have := Nat.sub_pos_of_lt hs.inBounds
        unfold State.left at hl
        omega }
  | n + 1 =>
    have h := forward_fits n
    { fuel := Nat.le_refl _
      expression := fun _ => buildExpression_spec h
      typeRef := buildTypeRef_spec h
      blockStatement := buildBlockStatement_spec h
      statement := buildStatement_spec h (.inl rfl)
      parserStatement := buildParserStatement_spec h
      halts := fun _ hs _ => buildParserStatement_halts hs }

/-! ## The rounds of the loops -/

/-- A loop of build_ast.c: the tokens at which it goes round, and a round. -/
structure Loop where
  goesOn : TokenClass → Bool
  round : Parser Ast

/-- The loop of a list with commas. -/
def Loop.comma (item : Parser Ast) : Loop := ⟨is .comma, do nextToken; item⟩

/-- The loops that build lists. -/
def listLoops (fwd : Forward) (memory : Memory) : List Loop :=
  [.comma (buildName true), .comma (buildName false), .comma (buildParameter fwd),
    .comma (buildTypeArg fwd), .comma (buildSpecifiedIdentifier fwd), .comma (buildArgument fwd),
    .comma (fwd.expression 1), .comma (buildRealTypeArg fwd),
    .comma (buildSimpleKeysetExpression fwd),
    ⟨tokenIsMethodPrototype, buildMethodPrototype fwd⟩,
    ⟨tokenIsStructField, buildStructField fwd⟩,
    ⟨goesOnLvalue, buildLvalueExpr fwd⟩,
    ⟨tokenIsParserStatement, fwd.parserStatement⟩,
    ⟨tokenIsSwitchLabel, buildSwitchCase fwd⟩,
    ⟨tokenIsStatementOrDeclaration, buildStatementOrDecl fwd⟩,
    ⟨tokenIsSelectCase, buildSelectCase fwd memory⟩,
    ⟨is .state, buildParserState fwd memory⟩,
    ⟨tokenIsParserLocalElement, buildParserLocalElement fwd⟩,
    ⟨tokenIsExpression, buildKeyElement fwd⟩,
    ⟨tokenIsActionRef, buildActionItem fwd⟩,
    ⟨tokenIsKeysetExpression, buildEntry fwd memory⟩,
    ⟨tokenIsTableProperty, buildTableProperty fwd memory⟩,
    ⟨tokenIsControlLocalDeclaration, buildControlLocalDeclaration fwd memory⟩,
    ⟨tokenIsDeclaration, buildDeclaration fwd memory⟩,
    ⟨is .semicolon, do nextToken; return .null⟩]

/-- The loop over the operators behind `expr`. -/
def operatorLoops (fwd : Forward) (expr : Ast) (priority : Nat) : List Loop :=
  [⟨is .dotPrefix, buildMemberSelect expr⟩,
    ⟨is .bracketOpen, buildIndexedArray fwd expr⟩,
    ⟨is .parenthOpen, buildFunctionCall fwd expr⟩,
    ⟨is .angleOpen, buildTypeArgs fwd expr⟩,
    ⟨is .equal, buildKvPair fwd expr⟩,
    ⟨tokenIsBinaryOperator, buildBinary fwd expr priority⟩]

/-- A round that comes back has consumed a token, or called `build_parserStatement` at a
semicolon. -/
def Loop.Consumes (loop : Loop) (s : State) : Prop :=
  wp loop.round s (fun _ t => s.tokenAt < t.tokenAt ∨ ∃ step ∈ t.trace, step.Stuck) fun _ => True

theorem Spec.consumes {loop : Loop} {P : Ast → Prop} (h : Spec memory n p 1 loop.round P)
    (hp : ∀ k, loop.goesOn k = true → p k = true) (hs : Inv memory s)
    (hgo : loop.goesOn s.token.klass = true) (hl : 2 * s.left < n) : loop.Consumes s :=
  wp_mono (h s hs (hp _ hgo) hl) (fun _ _ ht => .inl ht.2.1.tokenAt) fun _ _ => trivial

theorem Spec.comma {item : Parser Ast} {P : Ast → Prop} (h : Spec memory n any 1 item P) :
    Spec memory n (is .comma) 1 (Loop.comma item).round P :=
  .bindFrom (nextToken_spec rfl) fun _ _ => h.mono (Nat.sub_le _ _) (fun _ h => h)
    (Nat.zero_le _) fun _ h => h

section

variable (h : fwd.Fits memory n) (hs : Inv memory s) (hl : 2 * s.left < n + 1)
include h hs hl

theorem parserStatement_consumes :
    (⟨tokenIsParserStatement, fwd.parserStatement⟩ : Loop).Consumes s := by
  by_cases hsemi : s.token.klass = .semicolon
  · have hhalting : Halting memory s :=
      ⟨hsemi, hs.inBounds, hs.within, hs.orderly.listed, hs.orderly.accepted⟩
    exact wp_mono (h.halts s hhalting hl) (fun _ _ ht => .inr ht.2.2.2) fun _ h => h.elim
  · refine wp_mono (h.parserStatement s hs ?_ hl) (fun _ _ ht => .inl ht.2.1.tokenAt)
      fun _ _ => trivial
    simpa [is] using hsemi

theorem listLoops_consume : ∀ loop ∈ listLoops fwd memory, loop.goesOn s.token.klass = true →
    loop.Consumes s := by
  have hcomma : ∀ {item : Parser Ast} {P : Ast → Prop}, Spec memory (n + 1) any 1 item P →
      (Loop.comma item).goesOn s.token.klass = true → (Loop.comma item).Consumes s :=
    fun hitem hgo => hitem.comma.consumes (fun _ h => h) hs hgo hl
  have hwhile : ∀ {c : TokenClass → Bool} {item : Parser Ast} {P : Ast → Prop},
      Spec memory (n + 1) any 1 item P → c s.token.klass = true → Loop.Consumes ⟨c, item⟩ s :=
    fun hitem hgo => hitem.consumes (fun _ _ => rfl) hs hgo hl
  have hsemicolon : Spec memory (n + 1) (is .semicolon) 1 (do nextToken; return Ast.null)
      fun _ => True := .next rfl (.pure trivial)
  simp only [listLoops, List.forall_mem_cons]
  exact ⟨hcomma buildName_spec, hcomma buildName_spec, hcomma (buildParameter_spec h),
    hcomma (buildTypeArg_spec h), hcomma (buildSpecifiedIdentifier_spec h),
    hcomma (buildArgument_spec h), hcomma (h.expression 1), hcomma (buildRealTypeArg_spec h),
    hcomma (buildSimpleKeysetExpression_spec h), hwhile (buildMethodPrototype_spec h),
    hwhile (buildStructField_spec h), hwhile (buildLvalueExpr_spec h),
    fun _ => parserStatement_consumes h hs hl, hwhile (buildSwitchCase_spec h),
    fun hgo => (buildStatementOrDecl_spec h).consumes (fun _ h => h) hs hgo hl,
    hwhile (buildSelectCase_spec h), hwhile (buildParserState_spec h),
    hwhile (buildParserLocalElement_spec h), hwhile (buildKeyElement_spec h),
    hwhile (buildActionItem_spec h), hwhile (buildEntry_spec h), hwhile (buildTableProperty_spec h),
    hwhile (buildControlLocalDeclaration_spec h), hwhile (buildDeclaration_spec h),
    fun hgo => hsemicolon.consumes (fun _ h => h) hs hgo hl, fun _ hnil => nomatch hnil⟩

theorem operatorLoops_consume {expr : Ast} (hexpr : Is isExprKind expr) (priority : Nat) :
    ∀ loop ∈ operatorLoops fwd expr priority, loop.goesOn s.token.klass = true →
      loop.Consumes s := by
  have hround : ∀ {c : TokenClass → Bool} {item : Parser Ast}, Spec memory (n + 1) c 1 item
      (Is isExprKind) → c s.token.klass = true → Loop.Consumes ⟨c, item⟩ s :=
    fun hitem hgo => hitem.consumes (fun _ h => h) hs hgo hl
  simp only [operatorLoops, List.forall_mem_cons]
  exact ⟨hround (buildMemberSelect_spec hexpr rfl), hround (buildIndexedArray_spec h hexpr rfl),
    hround (buildFunctionCall_spec h hexpr rfl), hround (buildTypeArgs_spec h hexpr rfl),
    hround (buildKvPair_spec h hexpr rfl), hround (buildBinary_spec h hexpr rfl),
    fun _ hnil => nomatch hnil⟩

end

end Dp4c.Parse
