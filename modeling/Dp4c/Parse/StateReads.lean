import Dp4c.Parse.StatementReads
import Dp4c.Parse.Program

/-! # Reading parser states

The statements of a parser state with its transition. `build_parserStatement` leaves the
semicolon of an empty statement where it is, and the loop over the statements finds it
again and again. -/
namespace Dp4c.Parse

open Dp4c.Lib Dp4c.Lib.Prog Filter

variable {α : Type} {text : TokenClass → Cstr} {n fuel : Nat} {fwd : Forward} {ts us : List Tok}
  {a : Ast} {s : State} {k : Tok} {pieces : List Piece} {memory : Memory}

/-! ## Applications and declarations -/

def directApplicTree (name : Ast) (args : List Ast) : Ast :=
  .node .directApplic 0 0 [⟨.name, .ast, .ast name⟩, ⟨.args, .astList, optTreesValue args⟩]

def constDeclTree (type name e : Ast) : Ast :=
  .node .constDecl 0 0 [⟨.typeRef, .ast, .ast type⟩, ⟨.name, .ast, .ast name⟩,
    ⟨.expr, .ast, .ast e⟩]

def varDeclTree (type name init : Ast) : Ast :=
  .node .varDecl 0 0 [⟨.type, .ast, .ast type⟩, ⟨.name, .ast, .ast name⟩,
    ⟨.initExpr, .ast, .ast init⟩]

/-- `'.' APPLY '(' ... ')' ';'`. -/
def applyTokens (text : TokenClass → Cstr) (args : List Piece) : List Tok :=
  punct text .dotPrefix :: punct text .apply ::
    (parens text (commaTokens text args) ++ [punct text .semicolon])

theorem buildDirectApplication_settles (text : TokenClass → Cstr) (k : Tok) (us : List Tok)
    {kind : AstKind} {attrs : List (Attribute Ast)} {b : Bool}
    (ha : IsTree (.node kind 0 0 attrs) a)
    (hargs : TakesAll tokenIsArgument (buildArgument fwd) endsArgument fwd.fuel pieces b) :
    (b = true → Reads (buildDirectApplication fwd a) (applyTokens text pieces ++ k :: us) (k :: us)
      (IsTree (directApplicTree (.node kind 0 0 attrs) (pieces.map Piece.tree)))) ∧
    (b = false → Rejects (buildDirectApplication fwd a) (applyTokens text pieces ++ k :: us)) := by
  have htext : applyTokens text pieces ++ k :: us = punct text .dotPrefix :: punct text .apply ::
      punct text .parenthOpen :: (commaTokens text pieces ++ punct text .parenthClose ::
        punct text .semicolon :: k :: us) := by
    simp [applyTokens, parens]
  have hvalue := ha.value
  obtain ⟨id, lineNr, attrs', rfl, -⟩ := Ast.erase_node ha
  rw [htext]
  refine ⟨fun hb => ?_, fun hb => ?_⟩
  all_goals
    refine .bind (R := fun _ => True) (.pure trivial) fun _ _ => .node fun b hb' => ?_
    refine .bind (R := fun b => b = .node kind id lineNr attrs') (.pure rfl) fun c hc => ?_
    subst hc
    refine .set hb' hvalue rfl fun b hb' => .expect rfl (.expect rfl (.expectTo rfl (by simp) ?_))
  · refine .bind (buildArgumentList_reads _ _ hargs hb) fun list hl => ?_
    exact .set hb' hl rfl fun b hb => .expect rfl (.expect rfl (.pure hb))
  · exact .missed (buildArgumentList_misses _ _ hargs hb) fun list => .set fun b => .expect rfl

/-- `{ '=' <initializer> }`. -/
def initTokens (text : TokenClass → Cstr) : Option (Expression (is .semicolon)) → List Tok
  | none => []
  | some e => punct text .equal :: e.tokens

def initTree : Option (Expression (is .semicolon)) → Ast
  | none => .null
  | some e => e.tree

/-- What is made of an initializer. -/
def InitTaken (n : Nat) (init : Option (Expression (is .semicolon))) : Prop :=
  ∀ e ∈ init, Takes ((forward n).expression 1) (is .semicolon) e.toPiece e.read

theorem init_taken (init : Option (Expression (is .semicolon))) :
    ∀ᶠ n in atTop, InitTaken n init := by
  cases init with
  | none => exact .of_forall fun n e he => nomatch he
  | some e =>
    filter_upwards [e.taken] with n hn e' he'
    exact Option.some.inj he' ▸ hn

theorem buildOptInitializer_settles (text : TokenClass → Cstr) (us : List Tok)
    {init : Option (Expression (is .semicolon))} (h : InitTaken n init) :
    (init.all Expression.read = true → Reads (buildOptInitializer (forward n))
      (initTokens text init ++ punct text .semicolon :: us) (punct text .semicolon :: us)
      (IsTree (initTree init))) ∧
    (init.all Expression.read = false → Misses (buildOptInitializer (forward n)) (is .semicolon)
      (initTokens text init ++ punct text .semicolon :: us)) := by
  cases init with
  | none => exact ⟨fun _ => .ifNeg rfl (.pure rfl), fun hb => nomatch hb⟩
  | some e => exact ⟨fun hb => .ifPos rfl (.nextTo (by simp) ((h e rfl).accepts hb _ us rfl)),
      fun hb => .ifPos rfl (.nextTo (by simp) ((h e rfl).strays hb (punct text .semicolon) us rfl))⟩

theorem buildVariableDeclaration_settles {kind : AstKind} {attrs : List (Attribute Ast)}
    {init : Option (Expression (is .semicolon))} (ha : IsTree (.node kind 0 0 attrs) a)
    (name : Name) (h : InitTaken n init) :
    (init.all Expression.read = true → Reads (buildVariableDeclaration (forward n) a)
      (name.val :: (initTokens text init ++ punct text .semicolon :: k :: us)) (k :: us)
      (IsTree
        (varDeclTree (.node kind 0 0 attrs) (nameTree name.val.lexeme) (initTree init)))) ∧
    (init.all Expression.read = false → Rejects (buildVariableDeclaration (forward n) a)
      (name.val :: (initTokens text init ++ punct text .semicolon :: k :: us))) := by
  have hvalue := ha.value
  obtain ⟨id, lineNr, attrs', rfl, -⟩ := Ast.erase_node ha
  obtain ⟨k', us', hne⟩ := List.exists_cons_of_ne_nil
    (show initTokens text init ++ punct text .semicolon :: k :: us ≠ [] by simp)
  have hinit := buildOptInitializer_settles text (k :: us) h
  rw [hne] at hinit ⊢
  refine ⟨fun hread => ?_, fun hread => ?_⟩
  all_goals
    refine .bind (R := fun _ => True) (.pure trivial) fun _ _ => .node fun b hb => ?_
    refine .bind (R := fun b => b = .node kind id lineNr attrs') (.pure rfl) fun c hc => ?_
    subst hc
    refine .set hb hvalue rfl fun b hb => .require name.2 ?_
    refine .bind (buildName_reads name.2) fun c hc => .set hb hc.value rfl fun b hb => ?_
  · refine .bind (hinit.1 hread) fun e he => ?_
    exact .set hb he.value rfl fun b hb => .expect rfl (.pure hb)
  · exact .missed (hinit.2 hread) fun e => .set fun b => .expect rfl

/-- `CONST <typeRef> <name> '=' <initializer> ';'`. -/
def constPiece (text : TokenClass → Cstr) (type : TypeRef) (name : Name)
    (value : Expression (is .semicolon)) : Piece :=
  ⟨punct text .const :: ((type.piece text).tokens ++
      name.val :: punct text .equal :: (value.tokens ++ [punct text .semicolon])),
    constDeclTree (type.piece text).tree (nameTree name.val.lexeme) value.tree⟩

/-- What comes behind the `=` of a constant, where its type is read. -/
theorem buildConstantDeclaration_value {r : TypeRef} {value : Expression (is .semicolon)}
    {name : Name} {Q : Ast → State → Prop} {E : Stop → Prop}
    (htype : Accepts (buildTypeRef fwd) endsType (r.piece text))
    (h : ∀ a, IsTree (.node .constDecl 0 0 [⟨.typeRef, .ast, .ast (r.piece text).tree⟩,
        ⟨.name, .ast, .ast (nameTree name.val.lexeme)⟩]) a →
      Reading
        (do
          let a ← astSetattr a .expr .ast (.ast (← fwd.expression 1))
          expect .semicolon "`;` expected"
          return a) (value.tokens ++ punct text .semicolon :: us) Q E) :
    Reading (buildConstantDeclaration fwd) ((constPiece text r name value).tokens ++ us) Q E := by
  have htext : (constPiece text r name value).tokens ++ us = punct text .const ::
      ((r.piece text).tokens ++ name.val :: punct text .equal ::
        (value.tokens ++ punct text .semicolon :: us)) := by simp [constPiece]
  have htypeRef := htype name.val
    (punct text .equal :: (value.tokens ++ punct text .semicolon :: us)) (endsType_of_name name.2)
  obtain ⟨t, ts, htokens, ht⟩ := r.starts text
  obtain ⟨t', ts', hvalue, ht'⟩ := value.starts
  rw [htext]
  rw [htokens] at htypeRef ⊢
  rw [hvalue] at h htypeRef ⊢
  refine .expectTo rfl (by simp) (.node fun a ha => .require (k := t) ht ?_)
  refine .bind htypeRef fun c hc => .set ha hc.value rfl fun a ha => .require name.2 ?_
  refine .bind (buildName_reads name.2) fun c hc => .set ha hc.value rfl fun a ha => ?_
  exact .expect rfl (.require (k := t') ht' (h a ha))

theorem buildConstantDeclaration_settles {r : TypeRef} {b : Bool}
    {value : Expression (is .semicolon)} (name : Name)
    (h : Settles (buildTypeRef fwd) endsType (r.piece text) b)
    (hvalue : Takes (fwd.expression 1) (is .semicolon) value.toPiece value.read) :
    Settles (buildConstantDeclaration fwd) (fun _ => true) (constPiece text r name value)
      (b && value.read) := by
  refine ⟨fun hb k us _ => ?_, fun hb k us _ => ?_⟩
  · obtain ⟨hb, hread⟩ := Bool.and_eq_true_iff.mp hb
    refine buildConstantDeclaration_value (h.accepts hb) fun a ha => ?_
    exact .bind (hvalue.accepts hread _ _ rfl) fun c hc => .set ha hc.value rfl fun a ha =>
      .expect rfl (.pure ha)
  cases hb' : b with
  | true =>
    rw [hb', Bool.true_and] at hb
    refine buildConstantDeclaration_value (h.accepts hb') fun a ha => ?_
    exact .missed (hvalue.strays hb (punct text .semicolon) _ rfl) fun e => .set fun a =>
      .expect rfl
  | false =>
    have htext : (constPiece text r name value).tokens ++ k :: us = punct text .const ::
        ((r.piece text).tokens ++ name.val :: punct text .equal ::
          (value.tokens ++ punct text .semicolon :: k :: us)) := by simp [constPiece]
    have htype := h.declines hb' name.val
      (punct text .equal :: (value.tokens ++ punct text .semicolon :: k :: us))
        (endsType_of_name name.2)
    obtain ⟨t, ts, htokens, ht⟩ := r.starts text
    rw [htext]
    rw [htokens] at htype ⊢
    exact .expectTo rfl (by simp) (.node fun a ha => .require (k := t) ht (.stuck htype))

/-- `<typeRef> <name> <optInitializer> ';'`. -/
def varPiece (text : TokenClass → Cstr) (type : TypeRef) (name : Name)
    (init : Option (Expression (is .semicolon))) : Piece :=
  ⟨(type.piece text).tokens ++ name.val :: (initTokens text init ++ [punct text .semicolon]),
    varDeclTree (type.piece text).tree (nameTree name.val.lexeme) (initTree init)⟩

/-- `<typeName> '.' APPLY '(' <argumentList> ')' ';'`. -/
def applyPiece (text : TokenClass → Cstr) (name : TypeName) (args : List Piece) : Piece :=
  ⟨name.tokens text ++ applyTokens text args, directApplicTree name.tree (args.map Piece.tree)⟩

/-- What starts with a type. -/
theorem buildParserStatement_type {Q : Ast → State → Prop} {E : Stop → Prop}
    (hk : tokenIsTypeRef k.klass = true)
    (h : Reading (do
      let typeRef ← buildTypeRef fwd
      ifToken tokenIsName (buildVariableDeclaration fwd typeRef)
        (buildDirectApplication fwd typeRef)) (k :: us) Q E) :
    Reading (buildParserStatement fwd) (k :: us) Q E := .note (.ifPos hk h)

theorem variable_settles {r : TypeRef} {b : Bool} {init : Option (Expression (is .semicolon))}
    (name : Name) (h : Settles (buildTypeRef (forward n)) endsType (r.piece text) b)
    (hinit : InitTaken n init) :
    Settles (buildParserStatement (forward n)) (fun _ => true) (varPiece text r name init)
      (b && init.all Expression.read) := by
  have htext : ∀ us, (varPiece text r name init).tokens ++ us = (r.piece text).tokens ++
      name.val :: (initTokens text init ++ punct text .semicolon :: us) :=
        fun us => by simp [varPiece]
  obtain ⟨t, ts, htokens, ht⟩ := r.starts text
  obtain ⟨kind, attrs, hnode⟩ := r.tree_node text
  -- the declaration behind a type that is read
  have hdecl : ∀ {Q : Ast → State → Prop} {E : Stop → Prop} {k : Tok} {us : List Tok}, b = true →
      (∀ a, IsTree (.node kind 0 0 attrs) a → Reading (buildVariableDeclaration (forward n) a)
        (name.val :: (initTokens text init ++ punct text .semicolon :: k :: us)) Q E) →
      Reading (buildParserStatement (forward n))
        ((varPiece text r name init).tokens ++ k :: us) Q E := by
    intro Q E k us hb hrest
    have htype := h.accepts hb name.val (initTokens text init ++ punct text .semicolon :: k :: us)
      (endsType_of_name name.2)
    rw [htext]
    rw [hnode, htokens] at htype
    rw [htokens]
    exact buildParserStatement_type ht (.bind htype fun a ha => .ifPos name.2 (hrest a ha))
  refine ⟨fun hread k us _ => ?_, fun hread k us _ => ?_⟩
  · obtain ⟨hb, hread⟩ := Bool.and_eq_true_iff.mp hread
    refine hdecl hb fun a ha => ?_
    rw [varPiece, hnode]
    exact (buildVariableDeclaration_settles ha name hinit).1 hread
  cases hb : b with
  | true =>
    rw [hb, Bool.true_and] at hread
    exact hdecl hb fun a ha => (buildVariableDeclaration_settles ha name hinit).2 hread
  | false =>
    have htype := h.declines hb name.val (initTokens text init ++ punct text .semicolon :: k :: us)
      (endsType_of_name name.2)
    rw [htext]
    rw [htokens] at htype ⊢
    exact buildParserStatement_type ht (.stuck htype)

theorem apply_settled (name : TypeName) {b : Bool}
    (hargs : TakesAll tokenIsArgument (buildArgument fwd) endsArgument fwd.fuel pieces b) :
    Settles (buildParserStatement fwd) (fun _ => true) (applyPiece text name pieces) b := by
  have htext : ∀ us, (applyPiece text name pieces).tokens ++ us = name.tokens text ++
      punct text .dotPrefix :: punct text .apply ::
        (parens text (commaTokens text pieces) ++ punct text .semicolon :: us) := fun us => by
    simp [applyPiece, applyTokens]
  obtain ⟨t, ts, htokens, hname, -⟩ := name.starts text
  have hall : ∀ k, tokenIsTypeName k = true → tokenIsTypeRef k = true := by decide
  refine ⟨fun hb k us _ => ?_, fun hb k us _ => ?_⟩
  all_goals
    have htype := name_accepted fwd text name (punct text .dotPrefix)
      (punct text .apply ::
        (parens text (commaTokens text pieces) ++ punct text .semicolon :: k :: us)) rfl
    have happly := fun (a : Ast) (ha : IsTree (.node .name 0 0
        [⟨.name, .string, .string name.name.lexeme⟩, ⟨.isDotprefixed, .integer, .bool name.dot⟩])
          a) => buildDirectApplication_settles text k us ha hargs
    rw [applyTokens, List.cons_append, List.cons_append, List.append_assoc] at happly
    rw [htext]
    dsimp only at htype
    rw [htokens] at htype ⊢
    refine buildParserStatement_type (hall _ hname) (.bind htype fun a ha => .ifNeg rfl ?_)
  · exact (happly a ha).1 hb
  · exact (happly a ha).2 hb

/-! ## Statements -/

/-- `<parserStatement>`. -/
inductive ParserStmt where
  | assignmentOrMethodCall (stmt : AssignmentOrMethodCall)
  | directApplication (name : TypeName) (args : List Argument)
  | block (stmts : List ParserStmt)
  | constantDeclaration (type : TypeRef) (name : Name) (value : Expression (is .semicolon))
  | variableDeclaration (type : TypeRef) (name : Name) (init : Option (Expression (is .semicolon)))
  | empty

mutual

def ParserStmt.piece (text : TokenClass → Cstr) : ParserStmt → Piece
  | .assignmentOrMethodCall stmt => stmt.piece text
  | .directApplication name args => applyPiece text name (args.map Argument.toPiece)
  | .block stmts => blockPiece text (stmtPieces text stmts)
  | .constantDeclaration type name value => constPiece text type name value
  | .variableDeclaration type name init => varPiece text type name init
  | .empty => ⟨[punct text .semicolon], .node .emptyStmt 0 0 []⟩

def stmtPieces (text : TokenClass → Cstr) : List ParserStmt → List Piece
  | [] => []
  | stmt :: stmts => stmt.piece text :: stmtPieces text stmts

end

mutual

/-- No statement in it is empty, no lvalue starts with a dot, and the types and the expressions
are read. -/
def ParserStmt.plain : ParserStmt → Bool
  | .assignmentOrMethodCall stmt => stmt.plain
  | .directApplication _ args => args.all Argument.read
  | .block stmts => stmtsPlain stmts
  | .constantDeclaration type _ value => type.readable && value.read
  | .variableDeclaration type _ init => type.readable && init.all Expression.read
  | .empty => false

def stmtsPlain : List ParserStmt → Bool
  | [] => true
  | stmt :: stmts => stmt.plain && stmtsPlain stmts

end

theorem stmtPieces_eq (text : TokenClass → Cstr) : ∀ stmts,
    stmtPieces text stmts = stmts.map (·.piece text)
  | [] => rfl
  | stmt :: stmts => by rw [stmtPieces, stmtPieces_eq text stmts, List.map_cons]

theorem stmtsPlain_eq : ∀ stmts, stmtsPlain stmts = stmts.all ParserStmt.plain
  | [] => rfl
  | stmt :: stmts => by rw [stmtsPlain, stmtsPlain_eq stmts, List.all_cons]

theorem ParserStmt.starts (text : TokenClass → Cstr) (stmt : ParserStmt) :
    (stmt.piece text).Starts tokenIsParserStatement := by
  have htype : ∀ k, tokenIsTypeRef k = true → tokenIsParserStatement k = true := by decide
  have hname : ∀ k, tokenIsTypeName k = true → tokenIsParserStatement k = true := by decide
  have hlvalue : ∀ k, tokenIsLvalue k = true → tokenIsParserStatement k = true := by decide
  cases stmt with
  | assignmentOrMethodCall stmt =>
    obtain ⟨t, ts, htokens, ht⟩ := stmt.lvalue.starts_lvalue text
    exact ⟨t, ts ++ stmt.tail text,
      by rw [ParserStmt.piece, AssignmentOrMethodCall.piece, htokens]; rfl,
      hlvalue _ ht⟩
  | directApplication name args =>
    obtain ⟨t, ts, htokens, ht, -⟩ := name.starts text
    exact ⟨t, ts ++ applyTokens text (args.map Argument.toPiece),
      by rw [ParserStmt.piece, applyPiece, htokens]; rfl, hname _ ht⟩
  | block stmts => exact ⟨_, _, rfl, rfl⟩
  | constantDeclaration type name value => exact ⟨_, _, rfl, rfl⟩
  | variableDeclaration type name init =>
    obtain ⟨t, ts, htokens, ht⟩ := type.starts text
    exact ⟨t, _, by rw [ParserStmt.piece, varPiece, htokens]; rfl, htype _ ht⟩
  | empty => exact ⟨_, _, rfl, rfl⟩

/-- What `build_parserStatements` makes of statements. -/
theorem buildParserStatements_settles (text : TokenClass → Cstr) (us : List Tok)
    {stmts : List ParserStmt} (hfuel : stmts.length < fwd.fuel)
    (h : ∀ stmt ∈ stmts, Passes tokenIsParserStatement fwd.parserStatement (stmt.piece text)
      stmt.plain)
    (hk : tokenIsParserStatement k.klass = false) :
    (stmtsPlain stmts = true → Reads (buildParserStatements fwd)
      ((stmtPieces text stmts).flatMap Piece.tokens ++ k :: us) (k :: us)
      (IsOptList ((stmtPieces text stmts).map Piece.tree))) ∧
    (stmtsPlain stmts = false → Rejects (buildParserStatements fwd)
      ((stmtPieces text stmts).flatMap Piece.tokens ++ k :: us)) := by
  rw [stmtsPlain_eq, stmtPieces_eq]
  exact optWhileList_settles us hfuel h hk

theorem block_settles {stmts : List ParserStmt} (hfuel : stmts.length < fwd.fuel)
    (h : ∀ stmt ∈ stmts, Passes tokenIsParserStatement fwd.parserStatement (stmt.piece text)
      stmt.plain) :
    Settles (buildParserStatement fwd) (fun _ => true) (blockPiece text (stmtPieces text stmts))
      (stmtsPlain stmts) := by
  refine ⟨fun hb k us _ => ?_, fun hb k us _ => ?_⟩
  all_goals
    have hstmts := buildParserStatements_settles _ (k :: us)
        (k := punct text .braceClose) hfuel h rfl
    rw [blockPiece_append]
    refine .note (.ifNeg rfl (.ifNeg rfl (.ifPos rfl (.require rfl (.node fun a ha => ?_)))))
    refine .nextTo (by simp) ?_
  · refine .bind (hstmts.1 hb) fun list hl => .set ha hl rfl fun a ha => ?_
    exact .expect rfl (.pure ha)
  · exact .stuck (hstmts.2 hb)

mutual

/-- What the parser makes of a statement of a parser state. -/
theorem ParserStmt.passes (text : TokenClass → Cstr) : ∀ stmt : ParserStmt, ∀ᶠ n in atTop,
    Passes tokenIsParserStatement (buildParserStatement (forward n)) (stmt.piece text) stmt.plain
  | .assignmentOrMethodCall stmt =>
    (stmt.dispatched text fun n => buildParserStatement_dispatches (forward n)).mono fun _ hn =>
      hn.passes ((ParserStmt.assignmentOrMethodCall stmt).starts text)
  | .directApplication name args => by
    filter_upwards [eventually_ge_atTop args.length,
      eventually_forall_mem fun x (_ : x ∈ args) => x.taken] with n hn hargs
    exact (apply_settled name (buildArgumentList_takes hn hargs)).passes
      ((ParserStmt.directApplication name args).starts text)
  | .block stmts => by
    filter_upwards [stmts_pass text stmts, eventually_gt_atTop stmts.length] with n hstmts hn
    exact (block_settles ((fuel_forward n).symm ▸ hn) hstmts).passes
      ((ParserStmt.block stmts).starts text)
  | .constantDeclaration type name value => by
    filter_upwards [type.settles text, value.taken] with n htype hvalue
    have h := buildConstantDeclaration_settles name htype hvalue
    refine Settles.passes ((ParserStmt.constantDeclaration type name value).starts text)
      ⟨fun hb k us hk => ?_, fun hb k us hk => ?_⟩
    · exact .note (.ifNeg rfl (.ifNeg rfl (.ifNeg rfl (.ifPos rfl (h.accepts hb k us hk)))))
    · exact .note (.ifNeg rfl (.ifNeg rfl (.ifNeg rfl (.ifPos rfl (h.declines hb k us hk)))))
  | .variableDeclaration type name init => by
    filter_upwards [type.settles text, init_taken init] with n htype hinit
    exact (variable_settles name htype hinit).passes
      ((ParserStmt.variableDeclaration type name init).starts text)
  | .empty => .of_forall fun n => ⟨⟨_, _, rfl, rfl⟩, fun hb => (nomatch hb), fun _ => .of_stays rfl
      fun us =>
      .note (.ifNeg rfl (.ifNeg rfl (.ifNeg rfl (.ifNeg rfl (.ifPos rfl
        (newAstNode_reads.mono (fun _ _ h => h.1) fun _ _ => trivial))))))⟩

theorem stmts_pass (text : TokenClass → Cstr) : ∀ stmts : List ParserStmt, ∀ᶠ n in atTop,
    ∀ stmt ∈ stmts, Passes tokenIsParserStatement (forward n).parserStatement (stmt.piece text)
      stmt.plain
  | [] => .of_forall fun _ _ h => nomatch h
  | stmt :: stmts => by
    have hstmt := eventually_succ (p := fun n =>
      Passes tokenIsParserStatement (forward n).parserStatement (stmt.piece text) stmt.plain)
    filter_upwards [hstmt.mp (stmt.passes text), stmts_pass text stmts] with n hn hrest
    exact List.forall_mem_cons.mpr ⟨hn, hrest⟩

end

/-! ## Transitions -/

/-- `<keysetExpression>`. -/
inductive Keyset where
  | expression (e : Expression (is .colon))
  | default
  | dontcare
  | tuple (elements : List Piece)

def tupleKeysetTree (elements : List Ast) : Ast :=
  .node .tupleKeyset 0 0 [⟨.exprList, .astList, treesValue elements⟩]

def Keyset.piece (text : TokenClass → Cstr) : Keyset → Piece
  | .expression e => e.toPiece
  | .default => ⟨[punct text .default], .node .default 0 0 []⟩
  | .dontcare => ⟨[punct text .dontcare], .node .dontcare 0 0 []⟩
  | .tuple elements =>
    ⟨parens text (commaTokens text elements), tupleKeysetTree (elements.map Piece.tree)⟩

/-- The keyset does not start with a parenthesis, and its expression is read. -/
def Keyset.plain : Keyset → Bool
  | .expression e => (e.tokens.head?.all fun t => !is .parenthOpen t.klass) && e.read
  | .default | .dontcare => true
  | .tuple _ => false

/-- `<selectCase>`. -/
structure SelectCase where
  keyset : Keyset
  name : Name

def SelectCase.piece (text : TokenClass → Cstr) (x : SelectCase) : Piece :=
  ⟨(x.keyset.piece text).tokens ++ [punct text .colon, x.name.val, punct text .semicolon],
    .node .selectCase 0 0 [⟨.keyset, .ast, .ast (x.keyset.piece text).tree⟩,
      ⟨.name, .ast, .ast (nameTree x.name.val.lexeme)⟩]⟩

/-- `TRANSITION <stateExpression>`. -/
inductive Transition where
  | toState (name : Name)
  | select (exprs : List (Expression endsArgument)) (cases : List SelectCase)

def selectTree (exprs cases : List Ast) : Ast :=
  .node .selectExpr 0 0 [⟨.exprList, .astList, optTreesValue exprs⟩,
    ⟨.caseList, .astList, optTreesValue cases⟩]

def Transition.piece (text : TokenClass → Cstr) : Transition → Piece
  | .toState name =>
    ⟨[punct text .transition, name.val, punct text .semicolon], nameTree name.val.lexeme⟩
  | .select exprs cases =>
    ⟨punct text .transition :: punct text .select ::
        (parens text (commaTokens text (exprs.map Expression.toPiece)) ++ punct text .braceOpen ::
          ((cases.map (·.piece text)).flatMap Piece.tokens ++ [punct text .braceClose])),
      selectTree (exprs.map (·.tree)) ((cases.map (·.piece text)).map Piece.tree)⟩

/-- Its expressions are read, and no keyset in it starts with a parenthesis. -/
def Transition.plain : Transition → Bool
  | .toState _ => true
  | .select exprs cases => exprs.all Expression.read && cases.all (·.keyset.plain)

/-- Memory that does not look like a cleared list. -/
def usedMemory : Memory := fun _ _ => 255

theorem word_used : word (memset 8 fun _ => 255) 24 8 ≠ 0 := by
  rw [word]
  show 255 + 256 * _ ≠ 0
  omega

/-- What is made of a piece: over memory that held anything it is read if `b` is true, and over
used memory it is not read otherwise. -/
structure SettlesOver (x : Memory → Parser Ast) (p : Piece) (b : Bool) : Prop where
  accepts : b = true → ∀ memory, Accepts (x memory) (fun _ => true) p
  declines : b = false → Declines (x usedMemory) (fun _ => true) p

theorem newTupleList_rejects : Rejects (newTupleList usedMemory) ts :=
  .note fun _ _ => by
    show wp (astListInit (memset 8 fun _ => 255)) _ _ _
    unfold astListInit
    rw [if_neg word_used]
    trivial

/-- The list of a tuple keyset is made right behind the parenthesis. -/
theorem keyset_rejects (hk : k.klass = .parenthOpen) (hus : us ≠ []) :
    Rejects (buildKeysetExpression fwd usedMemory) (k :: us) := by
  have hc : is .parenthOpen k.klass = true := beq_iff_eq.mpr hk
  exact .ifPos hc (.require hc (.node fun a ha => .nextTo hus (.stuck newTupleList_rejects)))

theorem simpleKeyset_of_expression {k : TokenClass} (h : tokenIsExpression k = true) :
    tokenIsSimpleKeysetExpression k = true ∧ tokenIsSelectCase k = true := by
  have hall : ∀ k, tokenIsExpression k = true → tokenIsSimpleKeysetExpression k = true ∧
      tokenIsSelectCase k = true := by decide
  exact hall k h

theorem keyset_accepted (text : TokenClass → Cstr) {x : Keyset} (hplain : x.plain = true) :
    ∀ᶠ n in atTop, ∀ memory,
      Accepts (buildKeysetExpression (forward n) memory) (is .colon) (x.piece text) := by
  cases x with
  | expression e =>
    obtain ⟨t, ts, htokens, ht⟩ := e.starts
    obtain ⟨hparenth, hread⟩ := Bool.and_eq_true_iff.mp hplain
    rw [htokens] at hparenth
    filter_upwards [e.taken] with n hn memory k us hk
    have hreads := hn.accepts hread k us hk
    show Reads _ (e.tokens ++ k :: us) (k :: us) (IsTree e.tree)
    rw [htokens] at hreads ⊢
    exact .ifNeg (by simpa using hparenth)
      (.ifPos (simpleKeyset_of_expression ht).1 (.ifPos ht hreads))
  | default =>
    refine .of_forall fun n memory k us _ => ?_
    exact .ifNeg rfl (.ifPos rfl (.ifNeg rfl (.ifPos rfl (.next newAstNode_reads))))
  | dontcare =>
    refine .of_forall fun n memory k us _ => ?_
    exact .ifNeg rfl (.ifPos rfl (.ifNeg rfl (.ifNeg rfl (.ifPos rfl (.next newAstNode_reads)))))
  | tuple elements => cases hplain

theorem Keyset.starts (text : TokenClass → Cstr) (x : Keyset) :
    (x.piece text).Starts tokenIsSelectCase := by
  cases x with
  | expression e =>
    obtain ⟨t, ts, htokens, ht⟩ := e.starts
    exact ⟨t, ts, htokens, (simpleKeyset_of_expression ht).2⟩
  | default => exact ⟨_, _, rfl, rfl⟩
  | dontcare => exact ⟨_, _, rfl, rfl⟩
  | tuple elements => exact ⟨_, _, rfl, rfl⟩

/-- A keyset that starts with a parenthesis, or whose expression is not come past. -/
theorem keyset_strays (text : TokenClass → Cstr) {x : Keyset} (hplain : x.plain = false) :
    ∀ᶠ n in atTop,
      Strays (buildKeysetExpression (forward n) usedMemory) (is .colon) (x.piece text) := by
  cases x with
  | expression e =>
    obtain ⟨t, ts, htokens, ht⟩ := e.starts
    filter_upwards [e.taken] with n hn k us hk
    show Misses _ _ (e.tokens ++ k :: us)
    cases hparenth : is .parenthOpen t.klass with
    | true =>
      rw [htokens]
      exact (keyset_rejects (beq_iff_eq.mp hparenth) (by simp)).misses
    | false =>
      have hread : e.read = false := by simpa [Keyset.plain, htokens, hparenth] using hplain
      have hmisses := hn.strays hread k us hk
      rw [htokens] at hmisses ⊢
      exact .ifNeg hparenth (.ifPos (simpleKeyset_of_expression ht).1 (.ifPos ht hmisses))
  | default => cases hplain
  | dontcare => cases hplain
  | tuple elements => exact .of_forall fun n k us _ => (keyset_rejects rfl (by simp)).misses

theorem SelectCase.starts (text : TokenClass → Cstr) (x : SelectCase) :
    (x.piece text).Starts tokenIsSelectCase := by
  obtain ⟨t, ts, htokens, ht⟩ := x.keyset.starts text
  exact ⟨t, ts ++ _, by rw [SelectCase.piece, htokens]; rfl, ht⟩

theorem selectCase_append (x : SelectCase) : (x.piece text).tokens ++ us =
    (x.keyset.piece text).tokens ++ punct text .colon :: x.name.val :: punct
    text .semicolon :: us := by
  simp [SelectCase.piece]

/-- What the parser makes of a case. -/
theorem SelectCase.settles (text : TokenClass → Cstr) (x : SelectCase) : ∀ᶠ n in atTop,
    SettlesOver (buildSelectCase (forward n)) (x.piece text) x.keyset.plain := by
  obtain ⟨t, ts, htokens, ht⟩ := x.keyset.starts text
  cases hplain : x.keyset.plain with
  | true =>
    filter_upwards [keyset_accepted text hplain] with n hn
    refine ⟨fun _ memory k us _ => ?_, fun hb => by cases hb⟩
    have hkeyset := hn memory (punct text .colon)
      (x.name.val :: punct text .semicolon :: k :: us) rfl
    rw [selectCase_append]
    rw [htokens] at hkeyset ⊢
    refine .require (k := t) ht (.node fun a ha => .bind hkeyset fun b hb => ?_)
    refine .set ha hb.value rfl fun a ha => .expect rfl (.require x.name.2 ?_)
    refine .bind (buildName_reads x.name.2) fun b hb => .set ha hb.value rfl fun a ha => ?_
    exact .expect rfl (.pure ha)
  | false =>
    filter_upwards [keyset_strays text hplain] with n hn
    refine ⟨fun hb => (by cases hb), fun _ k us _ => ?_⟩
    have hkeyset := hn (punct text .colon) (x.name.val :: punct text .semicolon :: k :: us) rfl
    rw [selectCase_append]
    rw [htokens] at hkeyset ⊢
    exact .require (k := t) ht (.node fun a ha =>
      .missed hkeyset fun b => .set fun a => .expect rfl)

/-- The keyset expressions of a transition in braces. -/
def caseTokens (text : TokenClass → Cstr) (cases : List SelectCase) : List Tok :=
  (cases.map (·.piece text)).flatMap Piece.tokens

theorem selectCaseList_settles (text : TokenClass → Cstr) (us : List Tok) {cases : List SelectCase}
    (hfuel : cases.length < fwd.fuel)
    (h : ∀ x ∈ cases, SettlesOver (buildSelectCase fwd) (x.piece text) x.keyset.plain) :
    (cases.all (·.keyset.plain) = true → ∀ memory, Reads (buildSelectCaseList fwd memory)
      (caseTokens text cases ++ punct text .braceClose :: us) (punct text .braceClose :: us)
      (IsOptList ((cases.map (·.piece text)).map Piece.tree))) ∧
    (cases.all (·.keyset.plain) = false → Rejects (buildSelectCaseList fwd usedMemory)
      (caseTokens text cases ++ punct text .braceClose :: us)) := by
  refine ⟨fun hb memory => ?_, ?_⟩
  · refine optWhileList_reads (fun _ => true) (fun _ _ => rfl) rfl rfl
      (by rwa [List.length_map]) fun p hp => ?_
    obtain ⟨x, hx, rfl⟩ := List.mem_map.mp hp
    exact ⟨(h x hx).accepts (List.all_eq_true.mp hb x hx) memory, x.starts text⟩
  · refine (optWhileList_settles us hfuel (fun x hx => ?_) rfl).2
    exact Settles.passes (x.starts text)
      ⟨fun hb => (h x hx).accepts hb usedMemory, (h x hx).declines⟩

theorem select_append (exprs : List (Expression endsArgument)) (cases : List SelectCase) :
    ((Transition.select exprs cases).piece text).tokens ++ us =
      punct text .transition :: punct text .select :: punct text .parenthOpen ::
        (commaTokens text (exprs.map Expression.toPiece) ++ punct text .parenthClose ::
          punct text .braceOpen :: (caseTokens text cases ++ punct text .braceClose :: us)) := by
  simp [Transition.piece, parens, caseTokens]

/-- The expressions of a transition. -/
theorem expressions_taken {exprs : List (Expression endsArgument)} (hlen : exprs.length ≤ n)
    (h : ∀ e ∈ exprs, Takes ((forward n).expression 1) endsArgument e.toPiece e.read) :
    TakesAll tokenIsExpression ((forward n).expression 1) endsArgument (forward n).fuel
      (exprs.map Expression.toPiece) (exprs.all Expression.read) :=
  takesAll Expression.starts ((fuel_forward n).symm ▸ hlen) h

/-- What comes before the expressions. -/
theorem select_exprs {exprs : List (Expression endsArgument)} {cases : List SelectCase}
    {Q : Ast → State → Prop} {E : Stop → Prop}
    (h : ∀ a, IsTree (.node .selectExpr 0 0 []) a →
      Reading
        (do
          let a ← astSetattr a .exprList .astList (listValue (← buildExpressionList fwd))
          expect .parenthClose "`)` was expected"
          expect .braceOpen "`\x7b` was expected"
          let a ← astSetattr a .caseList .astList (listValue (← buildSelectCaseList fwd memory))
          expect .braceClose "`\x7d` was expected"
          return a)
        (commaTokens text (exprs.map Expression.toPiece) ++ punct text .parenthClose ::
          punct text .braceOpen :: (caseTokens text cases ++ punct text .braceClose :: us)) Q E) :
    Reading (buildTransitionStatement fwd memory)
      (((Transition.select exprs cases).piece text).tokens ++ us) Q E := by
  rw [select_append]
  refine .expect rfl (.ifNeg rfl (.ifPos rfl (.expect rfl (.node fun a ha => ?_))))
  exact .expectTo rfl (by simp) (h a ha)

/-- What comes before the cases. -/
theorem select_cases {exprs : List (Expression endsArgument)} {cases : List SelectCase} {b : Bool}
    {Q : Ast → State → Prop} {E : Stop → Prop}
    (hexprs : TakesAll tokenIsExpression (fwd.expression 1) endsArgument fwd.fuel
      (exprs.map Expression.toPiece) b) (hb : b = true)
    (h : ∀ a, IsTree (.node .selectExpr 0 0
        [⟨.exprList, .astList, optTreesValue (exprs.map (·.tree))⟩]) a →
      Reading
        (do
          let a ← astSetattr a .caseList .astList (listValue (← buildSelectCaseList fwd memory))
          expect .braceClose "`\x7d` was expected"
          return a) (caseTokens text cases ++ punct text .braceClose :: us) Q E) :
    Reading (buildTransitionStatement fwd memory)
      (((Transition.select exprs cases).piece text).tokens ++ us) Q E := by
  have hlist : Reads (buildExpressionList fwd)
      (commaTokens text (exprs.map Expression.toPiece) ++ punct text .parenthClose ::
        (punct text .braceOpen :: (caseTokens text cases ++ punct text .braceClose :: us)))
      (punct text .parenthClose ::
        (punct text .braceOpen :: (caseTokens text cases ++ punct text .braceClose :: us)))
      (IsOptList ((exprs.map Expression.toPiece).map Piece.tree)) :=
    hexprs.reads hb rfl rfl (show TokenClass.parenthClose ≠ .comma by decide) rfl
  rw [List.map_map] at hlist
  refine select_exprs fun a ha => .bind hlist fun list hl => .set ha hl rfl fun a ha => ?_
  exact .expect rfl (.expectTo rfl (by simp) (h a ha))

/-- Expressions that are not come past. -/
theorem select_stuck {exprs : List (Expression endsArgument)} {cases : List SelectCase} {b : Bool}
    (hexprs : TakesAll tokenIsExpression (fwd.expression 1) endsArgument fwd.fuel
      (exprs.map Expression.toPiece) b) (hb : b = false) :
    Rejects (buildTransitionStatement fwd memory)
      (((Transition.select exprs cases).piece text).tokens ++ us) :=
  have hlist : Misses (buildExpressionList fwd) endsArgument
      (commaTokens text (exprs.map Expression.toPiece) ++ punct text .parenthClose ::
        punct text .braceOpen :: (caseTokens text cases ++ punct text .braceClose :: us)) :=
    hexprs.misses hb rfl rfl
  select_exprs fun _ _ => .missed hlist fun _ => .set fun _ => .expect rfl

/-- What the parser makes of a transition. -/
theorem Transition.settles (text : TokenClass → Cstr) (x : Transition) : ∀ᶠ n in atTop,
    SettlesOver (buildTransitionStatement (forward n)) (x.piece text) x.plain := by
  cases x with
  | toState name =>
    refine .of_forall fun n => ⟨fun _ memory k us _ => ?_, fun h => nomatch h⟩
    refine .expect rfl (.ifPos name.2 (.bind (buildName_reads name.2) fun a ha => ?_))
    exact .expect rfl (.pure ha)
  | select exprs cases =>
    filter_upwards [eventually_forall_mem fun x (_ : x ∈ cases) => x.settles text,
      eventually_forall_mem fun x (_ : x ∈ exprs) => x.taken, eventually_ge_atTop exprs.length,
      eventually_gt_atTop cases.length] with n hcases hexprs hlen hn
    have hlist := fun us => selectCaseList_settles text us ((fuel_forward n).symm ▸ hn) hcases
    have htaken := expressions_taken hlen hexprs
    refine ⟨fun hplain memory k us _ => ?_, fun hplain k us _ => ?_⟩
    · obtain ⟨hexprs, hcases⟩ := Bool.and_eq_true_iff.mp hplain
      refine select_cases htaken hexprs fun a ha => ?_
      exact .bind ((hlist (k :: us)).1 hcases memory) fun list hl => .set ha hl rfl fun a ha =>
        .expect rfl (.pure ha)
    · cases hexprs : exprs.all Expression.read with
      | false => exact select_stuck htaken hexprs
      | true =>
        rw [Transition.plain, hexprs, Bool.true_and] at hplain
        exact select_cases htaken hexprs fun a ha => .stuck ((hlist (k :: us)).2 hplain)

/-! ## States -/

/-- `<parserState>`; its transition is optional. -/
structure ParserState where
  name : Name
  stmts : List ParserStmt
  transition : Option Transition

def ParserState.piece (text : TokenClass → Cstr) (x : ParserState) : Piece :=
  ⟨punct text .state :: x.name.val :: punct text .braceOpen ::
      ((stmtPieces text x.stmts).flatMap Piece.tokens ++
        (((x.transition.map (·.piece text)).map Piece.tokens).getD [] ++ [punct text .braceClose])),
    .node .parserState 0 0 [⟨.name, .ast, .ast (nameTree x.name.val.lexeme)⟩,
      ⟨.stmtList, .astList, optTreesValue ((stmtPieces text x.stmts).map Piece.tree)⟩,
      ⟨.transStmt, .ast, .ast (((x.transition.map (·.piece text)).map Piece.tree).getD .null)⟩]⟩

/-- There is a transition, and neither it nor the statements go wrong. -/
def ParserState.plain (x : ParserState) : Bool :=
  stmtsPlain x.stmts && x.transition.any Transition.plain

/-- What comes after the statements. -/
theorem parserState_stmts {x : ParserState} {Q : Ast → State → Prop} {E : Stop → Prop}
    (hstmts : Reads (buildParserStatements fwd)
      ((stmtPieces text x.stmts).flatMap Piece.tokens ++ ts) ts
      (IsOptList ((stmtPieces text x.stmts).map Piece.tree)))
    (h : ∀ a, IsTree (.node .parserState 0 0 [⟨.name, .ast, .ast (nameTree x.name.val.lexeme)⟩,
        ⟨.stmtList, .astList, optTreesValue ((stmtPieces text x.stmts).map Piece.tree)⟩]) a →
      Reading
        (do
          let a ← astSetattr a .transStmt .ast (.ast (← buildTransitionStatement fwd memory))
          expect .braceClose "`\x7d` was expected"
          return a) ts Q E) (hts : ts ≠ []) :
    Reading (buildParserState fwd memory)
      (punct text .state :: x.name.val :: punct text .braceOpen ::
      ((stmtPieces text x.stmts).flatMap Piece.tokens ++ ts)) Q E := by
  refine .expect rfl (.node fun a ha => .bind (buildName_reads x.name.2) fun b hb => ?_)
  refine .set ha hb.value rfl fun a ha => .expectTo rfl (by simp [hts]) ?_
  exact .bind hstmts fun list hl => .set ha hl rfl h

/-- The statements that stop the parser stop it in front of everything. -/
theorem parserState_rejects {x : ParserState} (hts : ts ≠ [])
    (hstmts : Rejects (buildParserStatements fwd)
      ((stmtPieces text x.stmts).flatMap Piece.tokens ++ ts)) :
    Rejects (buildParserState fwd memory)
      (punct text .state :: x.name.val :: punct text .braceOpen ::
      ((stmtPieces text x.stmts).flatMap Piece.tokens ++ ts)) := by
  refine .expect rfl (.node fun a ha => .bind (buildName_reads x.name.2) fun b hb => ?_)
  exact .set ha hb.value rfl fun a ha => .expectTo rfl (by simp [hts]) (.stuck hstmts)

/-- The text of a state behind its statements. -/
theorem parserState_append (text : TokenClass → Cstr) (us : List Tok) (x : ParserState) : ∃ k us',
    ((x.transition.map (·.piece text)).map Piece.tokens).getD [] ++ punct text .braceClose :: us =
      k :: us' ∧ tokenIsParserStatement k.klass = false := by
  cases hx : x.transition with
  | none => exact ⟨_, us, rfl, rfl⟩
  | some transition =>
    cases transition with
    | toState name => exact ⟨_, _, rfl, rfl⟩
    | select exprs cases => exact ⟨_, _, rfl, rfl⟩

/-- What the parser makes of a parser state. -/
theorem ParserState.settles (text : TokenClass → Cstr) (x : ParserState) : ∀ᶠ n in atTop,
    SettlesOver (buildParserState (forward n)) (x.piece text) x.plain := by
  have htransition : ∀ᶠ n in atTop, ∀ transition ∈ x.transition,
      SettlesOver (buildTransitionStatement (forward n)) (transition.piece text)
        transition.plain := by
    cases x.transition with
    | none => exact .of_forall fun _ _ h => nomatch h
    | some transition =>
      exact (transition.settles text).mono fun n hn y hy => Option.some.inj hy ▸ hn
  have htext : ∀ us, (x.piece text).tokens ++ us = punct text .state :: x.name.val ::
      punct text .braceOpen :: ((stmtPieces text x.stmts).flatMap Piece.tokens ++
        (((x.transition.map (·.piece text)).map Piece.tokens).getD [] ++
          punct text .braceClose :: us)) := fun us => by simp [ParserState.piece]
  filter_upwards [stmts_pass text x.stmts, eventually_gt_atTop x.stmts.length, htransition] with
    n hstmts hn htransition
  have hfuel : x.stmts.length < (forward n).fuel := (fuel_forward n).symm ▸ hn
  refine ⟨fun hplain memory k us _ => ?_, fun hplain k us _ => ?_⟩
  · obtain ⟨k', us', hne, hk'⟩ := parserState_append text (k :: us) x
    obtain ⟨hstmtsPlain, hany⟩ := Bool.and_eq_true_iff.mp hplain
    have hread := (buildParserStatements_settles text us' hfuel hstmts hk').1 hstmtsPlain
    obtain ⟨transition, hsome, hplain⟩ := (Option.any_eq_true ..).mp hany
    rw [htext]
    rw [← hne] at hread
    refine parserState_stmts hread (fun a ha => ?_) (by simp)
    have haccepts := (htransition transition hsome).accepts hplain memory (punct text .braceClose)
      (k :: us) rfl
    rw [hsome]
    refine .bind haccepts fun b hb => .set ha hb.value rfl fun a ha => .expect rfl (.pure ?_)
    rw [ParserState.piece, hsome]
    exact ha
  · obtain ⟨k', us', hne, hk'⟩ := parserState_append text (k :: us) x
    have hsettles := buildParserStatements_settles text us' hfuel hstmts hk'
    rw [htext]
    rw [← hne] at hsettles
    cases hstmtsPlain : stmtsPlain x.stmts with
    | false => exact parserState_rejects (by simp) (hsettles.2 hstmtsPlain)
    | true =>
      refine parserState_stmts (hsettles.1 hstmtsPlain) (fun a ha => .stuck ?_) (by simp)
      cases hsome : x.transition with
      | none => exact .stuck (.ifNeg rfl .error)
      | some transition =>
        refine (htransition transition hsome).declines ?_ _ _ rfl
        unfold ParserState.plain at hplain
        rwa [hstmtsPlain, hsome, Bool.true_and] at hplain

/-- **A parser state is read**, whatever the memory held, exactly if it has a transition and
neither an empty statement, an lvalue with a dot in front nor a keyset that starts with a
parenthesis, and the types and the expressions in it are read. -/
theorem parserState_read_iff (text : TokenClass → Cstr) (x : ParserState) {k : Tok} (us : List Tok)
    {s : State} (hs : Sees s ((x.piece text).tokens ++ k :: us)) :
    (∀ memory, Returns (fun n => buildParserState (forward n) memory) s (k :: us)
      (IsTree (x.piece text).tree)) ↔ x.plain = true := by
  constructor
  · intro hreturns
    by_contra hnot
    refine not_returns ((x.settles text).mono fun n hn => ?_) hs (hreturns usedMemory)
    exact hn.declines (by simpa using hnot) k us rfl
  · exact fun hplain memory => .of_reads ((x.settles text).mono fun n hn =>
      hn.accepts hplain memory k us rfl) hs

/-- `state a { ... }` with these statements and this transition. -/
def someState (stmts : List ParserStmt) (transition : Transition) : ParserState where
  name := someWord
  stmts := stmts
  transition := some transition

/-- A state with a block, declarations with values, an application and a `select`. -/
def plainState : ParserState :=
  someState
    [.block [.assignmentOrMethodCall (plainAssignment false)],
      .constantDeclaration plainType someWord (sumTimes.expression noText _ noOperator_semicolon),
      .variableDeclaration plainType someWord
        (some (sumTimes.expression noText _ noOperator_semicolon)),
      .directApplication someTypeName
        [(sumTimes.expression noText _ noOperator_endsArgument).argument]]
    (.select [sumTimes.expression noText _ noOperator_endsArgument]
      [⟨.expression (.atom ⟨{ klass := .identifier }, isAtom_identifier⟩ _ noOperator_colon),
          someWord⟩,
        ⟨.default, someWord⟩])

theorem parserState_read_one :
    Returns (fun n => buildParserState (forward n) usedMemory)
      (stateAt ((plainState.piece noText).tokens ++ [punct noText .braceClose]))
      [punct noText .braceClose] (IsTree (plainState.piece noText).tree) :=
  (parserState_read_iff noText plainState [] (sees_stateAt (by decide))).mpr rfl usedMemory

/-- `state a { ; transition a; }`, over cleared memory. -/
theorem parserState_read_fails :
    ¬ Returns (fun n => buildParserState (forward n) fun _ _ => 0)
      (stateAt (((someState [.empty] (.toState someWord)).piece noText).tokens ++
        [punct noText .braceClose]))
      [punct noText .braceClose]
      (IsTree ((someState [.empty] (.toState someWord)).piece noText).tree) := by
  have hrejects : ∀ᶠ n in atTop, Rejects (buildParserState (forward n) fun _ _ => 0)
      (((someState [.empty] (.toState someWord)).piece noText).tokens ++
        [punct noText .braceClose]) := by
    filter_upwards [stmts_pass noText [.empty], eventually_gt_atTop 1] with n hn hlt
    refine parserState_rejects (x := someState [.empty] (.toState someWord)) (by simp) ?_
    exact (buildParserStatements_settles _ _ ((fuel_forward n).symm ▸ hlt) hn rfl).2 rfl
  exact not_returns hrejects (sees_stateAt (by decide))

end Dp4c.Parse
