import Dp4c.Parse.AlikeStatements

/-! # Programs in runs that look alike

The two runs may have different memories: only the list of a tuple keyset shows what the
memory held. -/
namespace Dp4c.Parse

open Dp4c.Lib Dp4c.Lib.Prog

variable {L : Likeness} {fwd fwd' : Forward} {a : Ast} {n m : Nat}

/-! ## Lists in memory -/

theorem astListInit_alike (c : Correspondence) (bytes : Nat → UInt8) :
    Alike c c.Trees (astListInit bytes) (astListInit bytes) := by
  unfold astListInit
  split
  · split
    · exact InStep.pure rfl fun _ ha => by cases ha
    · exact ⟨fun _ _ hst => .inl (c.exits_of_states hst _), fun _ _ _ h => h⟩
  · exact ⟨fun _ _ hst => .inl (c.exits_of_states hst _), fun _ _ _ h => h⟩

/-- The list of a tuple keyset, where both runs find the same in memory. -/
theorem newTupleList_alike (c : Correspondence)
    (hnote : Alike c (fun _ => True) (note .tupleKeyset) (note .tupleKeyset))
    (hmemory : ∀ s t, c.states s t → c.memory s.tokenAt = c.memory' t.tokenAt) :
    Alike c c.Trees (newTupleList c.memory) (newTupleList c.memory') := by
  have hat : InStep c.pairing (fun i j => c.memory i = c.memory' j) (fun _ => True)
      (Prog.reads (·.tokenAt)) (Prog.reads (·.tokenAt)) :=
    InStep.reads hmemory fun _ _ => trivial
  have hlist := InStep.bind hat
    (f := fun i => astListInit (memset 8 (c.memory i)))
    (g := fun j => astListInit (memset 8 (c.memory' j)))
    (fun i j hij _ => by rw [hij]; exact astListInit_alike c _)
    fun j _ => (astListInit_alike c _).goes
  exact InStep.bind hnote (fun _ _ _ _ => hlist) fun _ _ => hlist.goes

section

variable (h : Forward.Alike L fwd fwd')
include h

/-! ## Parsers -/

theorem buildSimpleKeysetExpression_alike :
    Alike L L.Tree (buildSimpleKeysetExpression fwd) (buildSimpleKeysetExpression fwd') :=
  .ifToken (h.expression 1) (.ifToken (.next .new) (.ifToken (.next .new) (.error _)))

theorem buildTupleKeysetExpression_alike : Alike L L.Tree
    (buildTupleKeysetExpression fwd L.memory) (buildTupleKeysetExpression fwd' L.memory') := by
  refine .require (.newNode fun a ha => .next (.bind L.tuple fun list hl => ?_))
  refine .bind (buildSimpleKeysetExpression_alike h) fun b hb => .append hl hb fun list hl => ?_
  refine .bind (.commaLoop (buildSimpleKeysetExpression_alike h) h.fuel hl) fun list hl => ?_
  refine .bind (.setList ha (fun l h => ?_) rfl) fun a ha => .expect (.pure ha)
  cases h
  exact hl

theorem buildKeysetExpression_alike : Alike L L.Tree
    (buildKeysetExpression fwd L.memory) (buildKeysetExpression fwd' L.memory') :=
  .ifToken (buildTupleKeysetExpression_alike h)
    (.ifToken (buildSimpleKeysetExpression_alike h) (.error _))

theorem buildSelectCase_alike :
    Alike L L.Tree (buildSelectCase fwd L.memory) (buildSelectCase fwd' L.memory') := by
  refine .require (.newNode fun a ha => .bind (buildKeysetExpression_alike h) fun keyset hk => ?_)
  refine .bind (.setAst ha hk rfl) fun a ha => .expect (.require (.bind (buildName_alike false) ?_))
  exact fun name hname => .bind (.setAst ha hname rfl) fun a ha => .expect (.pure ha)

theorem buildSelectCaseList_alike :
    Alike L L.OptTrees (buildSelectCaseList fwd L.memory) (buildSelectCaseList fwd' L.memory') :=
  .optList (.whileList (buildSelectCase_alike h) h.fuel)

theorem buildSelectExpression_alike : Alike L L.Tree
    (buildSelectExpression fwd L.memory) (buildSelectExpression fwd' L.memory') := by
  refine .expect (.newNode fun a ha =>
    .expect (.bind (buildExpressionList_alike h) fun exprs he => ?_))
  refine .bind (.setList ha he rfl) fun a ha => .expect (.expect ?_)
  refine .bind (buildSelectCaseList_alike h) fun cases hc => .bind (.setList ha hc rfl) ?_
  exact fun a ha => .expect (.pure ha)

theorem buildStateExpression_alike : Alike L L.Tree
    (buildStateExpression fwd L.memory) (buildStateExpression fwd' L.memory') :=
  .ifToken (.bind (buildName_alike false) fun _ ha => .expect (.pure ha))
    (.ifToken (buildSelectExpression_alike h) (.error _))

theorem buildTransitionStatement_alike : Alike L L.Tree
    (buildTransitionStatement fwd L.memory) (buildTransitionStatement fwd' L.memory') :=
  .expect (buildStateExpression_alike h)

theorem buildParserState_alike :
    Alike L L.Tree (buildParserState fwd L.memory) (buildParserState fwd' L.memory') := by
  refine .expect (.newNode fun a ha => .bind (buildName_alike false) fun name hname => ?_)
  refine .bind (.setAst ha hname rfl) fun a ha => .expect (.bind (buildParserStatements_alike h) ?_)
  refine fun stmts hs => .bind (.setList ha hs rfl) fun a ha => ?_
  refine .bind (buildTransitionStatement_alike h) fun trans ht => .bind (.setAst ha ht rfl) ?_
  exact fun a ha => .expect (.pure ha)

theorem buildParserStates_alike :
    Alike L L.OptTrees (buildParserStates fwd L.memory) (buildParserStates fwd' L.memory') :=
  .require (.whileList (buildParserState_alike h) h.fuel)

theorem buildParserLocalElement_alike :
    Alike L L.Tree (buildParserLocalElement fwd) (buildParserLocalElement fwd') := by
  refine .require (.ifToken (buildConstantDeclaration_alike h) (.ifToken ?_ (.stop _)))
  exact .bind (buildTypeRef_alike h) fun type ht => buildAfterType_alike h ht .unexpected

theorem buildParserLocalElements_alike :
    Alike L L.OptTrees (buildParserLocalElements fwd) (buildParserLocalElements fwd') :=
  .optList (.whileList (buildParserLocalElement_alike h) h.fuel)

theorem buildSignatureType_alike {klass : TokenClass} {kind : AstKind} {text : String} :
    Alike L L.Tree (buildSignatureType fwd klass kind text)
        (buildSignatureType fwd' klass kind text) :=
  .expect (.newNode fun _ ha => setSignature_alike h true ha)

theorem buildParserDeclaration_alike : Alike L L.Tree
    (buildParserDeclaration fwd L.memory) (buildParserDeclaration fwd' L.memory') := by
  refine .require (.newNode fun a ha => .bind (buildSignatureType_alike h) fun type ht => ?_)
  refine .bind (.setAst ha ht rfl) fun a ha => .ifToken (.next (.pure ha)) ?_
  refine .bind (buildOptConstructorParameters_alike h) fun params hp =>
    .bind (.setList ha hp rfl) ?_
  refine fun a ha => .expect (.bind (buildParserLocalElements_alike h) fun locals hl => ?_)
  refine .bind (.setList ha hl rfl) fun a ha =>
    .bind (buildParserStates_alike h) fun states hs => ?_
  exact .bind (.setList ha hs rfl) fun a ha => .expect (.pure ha)

/-! ## Controls -/

theorem buildActionDeclaration_alike :
    Alike L L.Tree (buildActionDeclaration fwd) (buildActionDeclaration fwd') := by
  refine .expect (.newNode fun a ha =>
    .require (.bind (buildName_alike false) fun name hname => ?_))
  refine .bind (.setAst ha hname rfl) fun a ha => .expect (.bind (buildParameterList_alike h) ?_)
  refine fun params hp => .bind (.setList ha hp rfl) fun a ha => .expect (.require ?_)
  exact .bind h.blockStatement fun stmt hs => .setAst ha hs rfl

theorem buildKeyElement_alike : Alike L L.Tree (buildKeyElement fwd) (buildKeyElement fwd') := by
  refine .require (.newNode fun a ha => .bind (h.expression 1) fun e he => ?_)
  refine .bind (.setAst ha he rfl) fun a ha => .expect (.bind (buildName_alike false) ?_)
  exact fun name hname => .bind (.setAst ha hname rfl) fun a ha => .expect (.pure ha)

theorem buildKeyElementList_alike :
    Alike L L.OptTrees (buildKeyElementList fwd) (buildKeyElementList fwd') :=
  .optList (.whileList (buildKeyElement_alike h) h.fuel)

theorem buildActionRef_alike : Alike L L.Tree (buildActionRef fwd) (buildActionRef fwd') := by
  refine .require (.newNode fun a ha => .bind buildPrefixedNonTypeName_alike fun name hname => ?_)
  refine .bind (.setAst ha hname rfl) fun a ha => .ifToken (.next ?_) (.pure ha)
  refine .bind (buildArgumentList_alike h) fun args hargs => .bind (.setList ha hargs rfl) ?_
  exact fun a ha => .expect (.pure ha)

theorem buildActionItem_alike : Alike L L.Tree (buildActionItem fwd) (buildActionItem fwd') :=
  .bind (buildActionRef_alike h) fun _ ha => .expect (.pure ha)

theorem buildActionList_alike :
    Alike L L.OptTrees (buildActionList fwd) (buildActionList fwd') :=
  .optList (.whileList (buildActionItem_alike h) h.fuel)

theorem buildEntry_alike :
    Alike L L.Tree (buildEntry fwd L.memory) (buildEntry fwd' L.memory') := by
  refine .require (.newNode fun a ha => .bind (buildKeysetExpression_alike h) fun keyset hk => ?_)
  refine .bind (.setAst ha hk rfl) fun a ha => .expect (.bind (buildActionRef_alike h) ?_)
  exact fun action hr => .bind (.setAst ha hr rfl) fun a ha => .expect (.pure ha)

theorem buildEntriesList_alike :
    Alike L L.OptTrees (buildEntriesList fwd L.memory) (buildEntriesList fwd' L.memory') :=
  .require (.whileList (buildEntry_alike h) h.fuel)

omit h in
theorem buildBracedProperty_alike {attr : AttrName} {list list' : Parser (Option AstList)}
    (ha : L.Tree a) (hattr : isPlain attr = true) (hlist : Alike L L.OptTrees list list') :
    Alike L L.Tree (buildBracedProperty a attr list) (buildBracedProperty a attr list') := by
  refine .expect (.expect (.bind hlist fun l hl => .bind (.setList ha hl hattr) fun a ha => ?_))
  exact .expect (.pure ha)

theorem buildPropertyKind_alike (isConst : Bool) : Alike L L.Tree
    (buildPropertyKind fwd L.memory isConst) (buildPropertyKind fwd' L.memory' isConst) := by
  refine .note (.ifToken (.next (.newNode fun a ha => ?_))
    (.ifToken (.next (.newNode fun a ha => ?_)) ?_))
  · exact buildBracedProperty_alike ha rfl (buildKeyElementList_alike h)
  · exact buildBracedProperty_alike ha rfl (buildActionList_alike h)
  refine .ifToken (.next (.newNode fun a ha => .bind (.setData ha rfl rfl) fun a ha => ?_)) ?_
  · exact buildBracedProperty_alike ha rfl (buildEntriesList_alike h)
  refine .ifToken (.newNode fun a ha => .bind (buildName_alike false) fun name hname => ?_)
    (.stop _)
  refine .bind (.setAst ha hname rfl) fun a ha => .expect (.bind (buildInitializer_alike h) ?_)
  exact fun e he => .bind (.setAst ha he rfl) fun a ha => .expect (.pure ha)

theorem buildTableProperty_alike :
    Alike L L.Tree (buildTableProperty fwd L.memory) (buildTableProperty fwd' L.memory') :=
  .require (.bind (R := Whatever) (.ifToken (.next (.pure trivial)) (.pure trivial))
    fun isConst _ => buildPropertyKind_alike h isConst)

theorem buildTablePropertyList_alike : Alike L L.OptTrees
    (buildTablePropertyList fwd L.memory) (buildTablePropertyList fwd' L.memory') :=
  .require (.whileList (buildTableProperty_alike h) h.fuel)

theorem buildTableDeclaration_alike :
    Alike L L.Tree (buildTableDeclaration fwd L.memory) (buildTableDeclaration fwd' L.memory') := by
  refine .expect (.newNode fun a ha => .bind (buildName_alike false) fun name hname => ?_)
  refine .bind (.setAst ha hname rfl) fun a ha =>
    .expect (.bind (buildTablePropertyList_alike h) ?_)
  exact fun props hp => .bind (.setList ha hp rfl) fun a ha => .expect (.pure ha)

theorem buildControlLocalDeclaration_alike : Alike L L.Tree
    (buildControlLocalDeclaration fwd L.memory) (buildControlLocalDeclaration fwd' L.memory') := by
  refine .ifToken (buildConstantDeclaration_alike h) (.ifToken (buildActionDeclaration_alike h) ?_)
  refine .ifToken (buildTableDeclaration_alike h) (.ifToken ?_ (.error _))
  exact .bind (buildTypeRef_alike h) fun type ht => buildAfterType_alike h ht .unexpected

theorem buildControlLocalDeclarations_alike : Alike L L.OptTrees
    (buildControlLocalDeclarations fwd L.memory) (buildControlLocalDeclarations fwd' L.memory') :=
  .optList (.whileList (buildControlLocalDeclaration_alike h) h.fuel)

theorem buildControlDeclaration_alike : Alike L L.Tree
    (buildControlDeclaration fwd L.memory) (buildControlDeclaration fwd' L.memory') := by
  refine .require (.newNode fun a ha => .bind (buildSignatureType_alike h) fun type ht => ?_)
  refine .bind (.setAst ha ht rfl) fun a ha => .ifToken (.next (.pure ha)) ?_
  refine .bind (buildOptConstructorParameters_alike h) fun params hp =>
    .bind (.setList ha hp rfl) ?_
  refine fun a ha => .expect (.bind (buildControlLocalDeclarations_alike h) fun locals hl => ?_)
  refine .bind (.setList ha hl rfl) fun a ha => .expect (.bind h.blockStatement fun stmt hs => ?_)
  exact .bind (.setAst ha hs rfl) fun a ha => .expect (.pure ha)

/-! ## Declarations and the program -/

theorem buildTypedefDeclaration_alike :
    Alike L L.Tree (buildTypedefDeclaration fwd) (buildTypedefDeclaration fwd') := by
  have hkeyword : Alike L Whatever buildTypedefKeyword buildTypedefKeyword :=
    .ifToken (.next (.pure trivial)) (.ifToken (.next (.pure trivial)) (.stop _))
  refine .require (.bind hkeyword fun isTypedef _ => .require (.newNode fun a ha => ?_))
  have hentry : FineEntry L.word ⟨.isTypedef, .integer, .bool isTypedef⟩ :=
    { word := fun _ h => by cases h
      typedef := fun _ => ⟨isTypedef, rfl⟩
      decls := fun h => by cases h }
  refine .bind (.set ha hentry fun _ h => by cases h) fun a ha => ?_
  refine .bind (R := L.Tree) ?_ fun type ht => ?_
  · exact .ifToken (buildTypeRef_alike h) (.ifToken (buildDerivedTypeDeclaration_alike h) (.stop _))
  · refine .bind (.setAst ha ht rfl) fun a ha => .require (.bind (buildName_alike true) ?_)
    exact fun name hname => .bind (.setAst ha hname rfl) fun a ha => .expect (.pure ha)

theorem buildTypeDeclaration_alike :
    Alike L L.Tree (buildTypeDeclaration fwd L.memory) (buildTypeDeclaration fwd' L.memory') := by
  refine .require (.ifToken (buildDerivedTypeDeclaration_alike h) ?_)
  refine .ifToken (buildTypedefDeclaration_alike h) (.ifToken (buildParserDeclaration_alike h) ?_)
  refine .ifToken (buildControlDeclaration_alike h) (.ifToken ?_ (.stop _))
  exact .bind (buildSignatureType_alike h) fun a ha => .expect (.pure ha)

theorem buildIdentifiersDeclaration_alike {klass : TokenClass} {kind : AstKind} {text : String} :
    Alike L L.Tree (buildIdentifiersDeclaration fwd klass kind text)
      (buildIdentifiersDeclaration fwd' klass kind text) := by
  refine .expect (.newNode fun a ha =>
    .expect (.require (.bind (R := L.OptTrees) ?_ fun ids hi => ?_)))
  · exact .require (.commaList (buildName_alike false) h.fuel)
  · exact .bind (.setList ha hi rfl) fun a ha => .expect (.pure ha)

theorem buildFunctionDeclaration_alike (ha : L.Tree a) :
    Alike L L.Tree (buildFunctionDeclaration fwd a) (buildFunctionDeclaration fwd' a) := by
  refine .require (.newNode fun b hb =>
    .bind (buildFunctionPrototype_alike h ha) fun proto hp => ?_)
  refine .bind (.setAst hb hp rfl) fun b hb => .require (.bind h.blockStatement fun stmt hs => ?_)
  exact .setAst hb hs rfl

theorem buildDeclaration_alike :
    Alike L L.Tree (buildDeclaration fwd L.memory) (buildDeclaration fwd' L.memory') := by
  refine .require (.ifToken (buildConstantDeclaration_alike h) ?_)
  refine .ifToken (buildExternDeclaration_alike h) (.ifToken (buildActionDeclaration_alike h) ?_)
  refine .ifToken (buildTypeDeclaration_alike h) ?_
  refine .ifToken (buildIdentifiersDeclaration_alike h) ?_
  refine .ifToken (buildIdentifiersDeclaration_alike h) (.ifToken ?_ (.ifToken ?_ (.stop _)))
  · refine .bind (buildTypeRef_alike h) fun type ht => .ifToken (buildInstantiation_alike h ht) ?_
    exact .ifToken (buildFunctionDeclaration_alike h ht) .unexpected
  · exact .bind (buildTypeRef_alike h) fun type ht => buildFunctionDeclaration_alike h ht

theorem declarationLoop_alike (hfuel : L.Fuels n m) {decls : AstList} (hd : L.Trees decls) :
    Alike L L.Trees (declarationLoop fwd L.memory n decls)
      (declarationLoop fwd' L.memory' m decls) := by
  induction m generalizing n decls with
  | zero =>
    obtain rfl : n = 0 := hfuel.elim id fun h => Nat.le_zero.mp h.1
    exact .stop _
  | succ m ih =>
    have hround (n : Nat) (hfuel : L.Fuels n m) : Alike L L.Trees
        (declarationLoop fwd L.memory (n + 1) decls)
        (declarationLoop fwd' L.memory' (m + 1) decls) := by
      refine .ifToken (.ifToken (.bind (buildDeclaration_alike h) fun a ha => ?_) ?_) (.pure hd)
      · exact .append hd ha fun decls hd => ih hfuel hd
      · exact .ifToken (.next (ih hfuel hd)) (ih hfuel hd)
    cases n with
    | zero => exact .ended hfuel (hround m (.inl rfl)).goes
    | succ n => exact hround n hfuel.pred

theorem buildP4program_alike :
    Alike L L.Tree (buildP4program fwd L.memory) (buildP4program fwd' L.memory') := by
  refine .newNode fun a ha => .emptyList ?_
  refine .bind (declarationLoop_alike h h.fuel fun _ h => by cases h) fun decls hd => ?_
  have hentry : FineEntry L.word ⟨.declList, .astList, listValue (some decls)⟩ :=
    { word := fun _ h => by cases h
      typedef := fun h => by cases h
      decls := fun _ => ⟨_, _, rfl⟩ }
  exact .bind (.set ha hentry hd) fun a ha => .ifToken (.pure ha) .unexpected

end

theorem forward_alike (hfuel : L.Fuels n m) : Forward.Alike L (forward n) (forward m) := by
  induction m generalizing n with
  | zero =>
    obtain rfl : n = 0 := hfuel.elim id fun h => Nat.le_zero.mp h.1
    exact
      { fuel := .inl rfl
        expression := fun _ => .stop _
        typeRef := .stop _
        blockStatement := .stop _
        statement := .stop _
        parserStatement := .stop _ }
  | succ m ih =>
    cases n with
    | zero =>
      have h := ih (.inl rfl)
      exact
        { fuel := hfuel
          expression := fun n => .ended hfuel (buildExpression_alike h n).goes
          typeRef := .ended hfuel (buildTypeRef_alike h).goes
          blockStatement := .ended hfuel (buildBlockStatement_alike h).goes
          statement := .ended hfuel (buildStatement_alike h (fine_null _)).goes
          parserStatement := .ended hfuel (buildParserStatement_alike h).goes }
    | succ n =>
      have h := ih hfuel.pred
      exact
        { fuel := hfuel
          expression := buildExpression_alike h
          typeRef := buildTypeRef_alike h
          blockStatement := buildBlockStatement_alike h
          statement := buildStatement_alike h (fine_null _)
          parserStatement := buildParserStatement_alike h }

theorem buildAstProgram_alike (hfuel : L.Fuels n m) :
    Alike L L.Tree (buildAstProgram n L.memory) (buildAstProgram m L.memory') :=
  .next (buildP4program_alike (forward_alike hfuel))

end Dp4c.Parse
