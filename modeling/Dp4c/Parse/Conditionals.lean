import Dp4c.Parse.StatementReads

/-! # Reading conditional statements

Trees of statements that are printed without braces of their own. An `else` belongs to the
nearest `if`: where the statement under an `if` ends in one without `else`, it is printed
in front of no `else`. -/
namespace Dp4c.Parse

open Dp4c.Lib Dp4c.Lib.Prog Filter

variable {text : TokenClass → Cstr} {n fuel : Nat} {fwd : Forward} {ts us : List Tok} {a : Ast}
  {s : State} {k : Tok}

/-- An integer, a boolean, a string or a name that is no type. -/
abbrev AtomTok := { t : Tok // isAtom t.klass = true }

/-- Statements over atoms. -/
inductive Stmt where
  | assignment (name : NonTypeName) (value : AtomTok)
  | exit
  | return (value : Option AtomTok)
  | empty
  | block (stmts : List Stmt)
  | ifThen (cond : AtomTok) (stmt : Stmt)
  | ifElse (cond : AtomTok) (stmt elseStmt : Stmt)

/-- An atom in front of a token that is no operator. -/
def atomExpression (value : AtomTok) (klass : TokenClass) (h : tokenIsExprOperator klass = false) :
    Expression (is klass) := .atom value _ fun k hk => by rwa [beq_iff_eq.mp hk]

theorem atom_accepted (value : AtomTok) {klass : TokenClass}
    (h : tokenIsExprOperator klass = false) : ∀ᶠ n in atTop, Accepts ((forward n).expression 1)
      (is klass) ⟨[value.val], atomTree value.val⟩ :=
  (atomExpression value klass h).taken.mono fun _ hn => hn.accepts rfl

/-- The assignment as the grammar has it. -/
def assignmentOf (name : NonTypeName) (value : AtomTok) : AssignmentOrMethodCall :=
  .assignment ⟨false, name, []⟩ (atomExpression value .semicolon rfl)

def ifTree (cond stmt : Ast) : Ast :=
  .node .ifStmt 0 0 [⟨.condExpr, .ast, .ast cond⟩, ⟨.stmt, .ast, .ast stmt⟩]

def ifElseTree (cond stmt elseStmt : Ast) : Ast :=
  .node .ifStmt 0 0 [⟨.condExpr, .ast, .ast cond⟩, ⟨.stmt, .ast, .ast stmt⟩,
    ⟨.elseStmt, .ast, .ast elseStmt⟩]

def returnTree : Option AtomTok → Ast
  | none => .node .returnStmt 0 0 []
  | some value => .node .returnStmt 0 0 [⟨.expr, .ast, .ast (atomTree value.val)⟩]

/-- `IF '(' <expression> ')'`. -/
def ifTokens (text : TokenClass → Cstr) (cond : AtomTok) : List Tok :=
  [punct text .ifKw, punct text .parenthOpen, cond.val, punct text .parenthClose]

mutual

/-- The tokens and the tree of a statement. -/
def Stmt.piece (text : TokenClass → Cstr) : Stmt → Piece
  | .assignment name value => (assignmentOf name value).piece text
  | .exit => ⟨[punct text .exit, punct text .semicolon], .node .exitStmt 0 0 []⟩
  | .return value =>
    ⟨punct text .returnKw :: (value.toList.map Subtype.val ++ [punct text .semicolon]),
      returnTree value⟩
  | .empty => ⟨[punct text .semicolon], .node .emptyStmt 0 0 []⟩
  | .block stmts => blockPiece text (listPieces text stmts)
  | .ifThen cond stmt =>
    ⟨ifTokens text cond ++ (stmt.piece text).tokens, ifTree (atomTree cond.val)
      (stmt.piece text).tree⟩
  | .ifElse cond stmt elseStmt =>
    ⟨ifTokens text cond ++ ((stmt.piece text).tokens ++
        punct text .elseKw :: (elseStmt.piece text).tokens),
      ifElseTree (atomTree cond.val) (stmt.piece text).tree (elseStmt.piece text).tree⟩

def listPieces (text : TokenClass → Cstr) : List Stmt → List Piece
  | [] => []
  | stmt :: stmts => stmt.piece text :: listPieces text stmts

end

/-- The statement ends in an `if` without `else`. -/
def Stmt.endsOpen : Stmt → Bool
  | .ifThen _ _ => true
  | .ifElse _ _ elseStmt => elseStmt.endsOpen
  | _ => false

mutual

/-- No statement in front of an `else` ends in an `if` without one. -/
def Stmt.unambiguous : Stmt → Bool
  | .ifElse _ stmt elseStmt => !stmt.endsOpen && stmt.unambiguous && elseStmt.unambiguous
  | .ifThen _ stmt => stmt.unambiguous
  | .block stmts => listUnambiguous stmts
  | .assignment _ _ | .exit | .return _ | .empty => true

def listUnambiguous : List Stmt → Bool
  | [] => true
  | stmt :: stmts => stmt.unambiguous && listUnambiguous stmts

end

/-- What may follow a statement: an `else` only where it does not end open. -/
def Stmt.follow (stmt : Stmt) (k : TokenClass) : Bool := !(stmt.endsOpen && is .elseKw k)

theorem listPieces_eq (text : TokenClass → Cstr) : ∀ stmts,
    listPieces text stmts = stmts.map (·.piece text)
  | [] => rfl
  | stmt :: stmts => by rw [listPieces, listPieces_eq text stmts, List.map_cons]

/-- A token that starts one of these statements, among others that may stand in a block. -/
def startsStmt (k : TokenClass) : Bool := tokenIsStatement k && !tokenIsTypeRef k

theorem Stmt.starts (text : TokenClass → Cstr) (stmt : Stmt) :
    (stmt.piece text).Starts startsStmt := by
  have hname : ∀ k, tokenIsNonTypeName k = true → startsStmt k = true := by decide
  cases stmt with
  | assignment name value => exact ⟨_, _, rfl, hname _ name.2⟩
  | exit => exact ⟨_, _, rfl, rfl⟩
  | «return» value => exact ⟨_, _, rfl, rfl⟩
  | empty => exact ⟨_, _, rfl, rfl⟩
  | block stmts => exact ⟨_, _, rfl, rfl⟩
  | ifThen cond stmt => exact ⟨_, _, rfl, rfl⟩
  | ifElse cond stmt elseStmt => exact ⟨_, _, rfl, rfl⟩

/-! ## Single statements -/

theorem exit_accepted : Accepts (buildPlainStatement fwd) (fun _ => true)
    ⟨[punct text .exit, punct text .semicolon], .node .exitStmt 0 0 []⟩ := fun _ _ _ =>
  .ifNeg rfl (.ifNeg rfl (.ifNeg rfl (.ifNeg rfl (.ifNeg rfl (.ifPos rfl
    (.expect rfl (.node fun _ ha => .expect rfl (.pure ha))))))))

theorem empty_accepted : Accepts (buildPlainStatement fwd) (fun _ => true)
    ⟨[punct text .semicolon], .node .emptyStmt 0 0 []⟩ := fun _ _ _ =>
  .ifNeg rfl (.ifNeg rfl (.ifNeg rfl (.ifPos rfl (.next newAstNode_reads))))

theorem buildPlainStatement_return {Q : Ast → State → Prop} {E : Stop → Prop}
    (h : Reading (buildReturnStatement fwd) (punct text .returnKw :: us) Q E) :
    Reading (buildPlainStatement fwd) (punct text .returnKw :: us) Q E :=
  .ifNeg rfl (.ifNeg rfl (.ifNeg rfl (.ifNeg rfl (.ifNeg rfl (.ifNeg rfl (.ifPos rfl h))))))

theorem return_accepted (text : TokenClass → Cstr) (value : Option AtomTok) : ∀ᶠ n in atTop,
    Accepts (buildPlainStatement (forward n)) (fun _ => true) ((Stmt.return value).piece text) := by
  cases value with
  | none =>
    refine .of_forall fun n k us _ => buildPlainStatement_return ?_
    exact .expect rfl (.node fun a ha => .bind (.ifNeg rfl (.pure ha)) fun a ha =>
      .expect rfl (.pure ha))
  | some value =>
    have hatom := atom_accepted value (show tokenIsExprOperator .semicolon = false from rfl)
    filter_upwards [hatom] with n hn k us _
    refine buildPlainStatement_return (.expect rfl (.node fun a ha => ?_))
    have hvalue : Reads (do astSetattr a .expr .ast (.ast (← (forward n).expression 1)))
        (value.val :: punct text .semicolon :: k :: us) (punct text .semicolon :: k :: us)
        (IsTree (returnTree (some value))) :=
      .bind (hn (punct text .semicolon) (k :: us) rfl) fun b hb => .setLast ha hb.value rfl rfl
    exact .bind (.ifPos (expression_of_isAtom value.2) hvalue) fun a ha => .expect rfl (.pure ha)

/-- The condition of an `if`, and what comes after it. -/
theorem if_reads {cond : AtomTok} {p : Piece} {P : Ast → Prop}
    (hcond : Accepts (fwd.expression 1) (is .parenthClose) ⟨[cond.val], atomTree cond.val⟩)
    (hstart : p.Starts startsStmt)
      (hstmt : Reads (fwd.statement .null) (p.tokens ++ ts) ts (IsTree p.tree))
    (hrest : ∀ a, IsTree (ifTree (atomTree cond.val) p.tree) a → Reads
      (ifToken (is .elseKw)
        (do
          nextToken
          require tokenIsStatement "statement was expected"
          astSetattr a .elseStmt .ast (.ast (← fwd.statement .null)))
        (pure a)) ts us P) :
    Reads (buildPlainStatement fwd) (ifTokens text cond ++ (p.tokens ++ ts)) us P := by
  have hall : ∀ k, startsStmt k = true → tokenIsStatement k = true := by decide
  obtain ⟨t, ts', htokens, ht⟩ := hstart
  have hread := hcond (punct text .parenthClose) (p.tokens ++ ts) rfl
  rw [htokens] at hread hstmt ⊢
  refine .ifNeg rfl (.ifNeg rfl (.ifPos rfl (.expect rfl (.node fun a ha => ?_))))
  refine .expect rfl (.require (expression_of_isAtom cond.2) (.bind hread fun b hb => ?_))
  refine .set ha hb.value rfl fun a ha => .expect rfl (.require (k := t) (hall _ ht) ?_)
  exact .bind hstmt fun b hb => .set ha hb.value rfl fun a ha => hrest a ha

/-- A statement without `else` at its end, in front of none. -/
theorem ifThen_accepted {cond : AtomTok} {p : Piece}
    (hcond : Accepts (fwd.expression 1) (is .parenthClose) ⟨[cond.val], atomTree cond.val⟩)
    (hstart : p.Starts startsStmt)
    (hstmt : Accepts (fwd.statement .null) (fun k => !is .elseKw k) p) :
    Accepts (buildPlainStatement fwd) (fun k => !is .elseKw k)
      ⟨ifTokens text cond ++ p.tokens, ifTree (atomTree cond.val) p.tree⟩ := fun k us hk => by
  rw [List.append_assoc]
  exact if_reads hcond hstart (hstmt k us hk) fun a ha => .ifNeg (by simpa using hk) (.pure ha)

/-- The `else` in sight belongs to this `if`: the statement in front of it has taken none. -/
theorem ifElse_accepted {cond : AtomTok} {p q : Piece} {follow : TokenClass → Bool}
    (hcond : Accepts (fwd.expression 1) (is .parenthClose) ⟨[cond.val], atomTree cond.val⟩)
    (hp : p.Starts startsStmt) (hq : q.Starts startsStmt)
    (hstmt : Accepts (fwd.statement .null) (is .elseKw) p)
    (helse : Accepts (fwd.statement .null) follow q) :
    Accepts (buildPlainStatement fwd) follow
      ⟨ifTokens text cond ++ (p.tokens ++ punct text .elseKw :: q.tokens),
        ifElseTree (atomTree cond.val) p.tree q.tree⟩ := fun k us hk => by
  have hall : ∀ k, startsStmt k = true → tokenIsStatement k = true := by decide
  obtain ⟨t, ts, htokens, ht⟩ := hq
  have hread := helse k us hk
  rw [List.append_assoc, List.append_assoc, List.cons_append]
  refine if_reads hcond hp (hstmt (punct text .elseKw) (q.tokens ++ k :: us) rfl) fun a ha => ?_
  rw [htokens] at hread ⊢
  refine .ifPos rfl (.next (.require (k := t) (hall _ ht) (.bind hread fun b hb => ?_)))
  exact .setLast ha hb.value rfl rfl

/-! ## Blocks and nesting -/

theorem buildStatementOrDecl_statement {Q : Ast → State → Prop} {E : Stop → Prop}
    (hk : startsStmt k.klass = true) (h : Reading (buildPlainStatement fwd) (k :: us) Q E) :
    Reading (buildStatementOrDecl fwd) (k :: us) Q E := by
  have hall : ∀ k, startsStmt k = true → tokenIsStatementOrDeclaration k = true ∧
      tokenIsTypeRef k = false ∧ tokenIsStatement k = true := by decide
  obtain ⟨hdecl, htype, hstatement⟩ := hall _ hk
  exact .ifPos hdecl (.ifNeg htype (.ifPos hstatement h))

/-- The statements of a block, each in front of anything but an `else`. -/
theorem block_accepted {stmts : List Stmt} (hfuel : stmts.length < fwd.fuel)
    (h : ∀ stmt ∈ stmts, Accepts (buildPlainStatement fwd) (fun k => !is .elseKw k)
      (stmt.piece text)) :
    Accepts (buildBlockStatement fwd) (fun _ => true)
        (blockPiece text (listPieces text stmts)) := by
  intro k us _
  have hnot : ∀ k, tokenIsStatementOrDeclaration k = true → (!is .elseKw k) = true := by decide
  have hstart : ∀ k, startsStmt k = true → tokenIsStatementOrDeclaration k = true := by decide
  have hlist : Reads (buildStatementOrDeclList fwd)
      ((listPieces text stmts).flatMap Piece.tokens ++ punct text .braceClose :: k :: us)
      (punct text .braceClose :: k :: us) (IsOptList ((listPieces text stmts).map Piece.tree)) := by
    rw [listPieces_eq]
    refine optWhileList_reads (fun k => !is .elseKw k) hnot rfl rfl
      (by rwa [List.length_map]) fun p hp => ?_
    obtain ⟨stmt, hstmt, rfl⟩ := List.mem_map.mp hp
    obtain ⟨t, ts, htokens, ht⟩ := stmt.starts text
    refine ⟨fun k us hk => ?_, t, ts, htokens, hstart _ ht⟩
    have hread := h stmt hstmt k us hk
    rw [htokens] at hread ⊢
    exact buildStatementOrDecl_statement ht hread
  rw [blockPiece_append]
  refine .require rfl (.node fun a ha => .nextTo (by simp) (.bind hlist fun list hl => ?_))
  exact .set ha hl rfl fun a ha => .expect rfl (.pure ha)

theorem Accepts.follow {x : Parser Ast} {follow follow' : TokenClass → Bool} {p : Piece}
    (h : Accepts x follow p) (hfollow : ∀ k, follow' k = true → follow k = true) :
    Accepts x follow' p := fun k us hk => h k us (hfollow _ hk)

mutual

/-- A statement is read in front of everything that does not belong to it. -/
theorem Stmt.accepted (text : TokenClass → Cstr) : ∀ stmt : Stmt, stmt.unambiguous = true →
    ∀ᶠ n in atTop, Accepts (buildPlainStatement (forward n)) stmt.follow (stmt.piece text)
  | .assignment name value, _ =>
    ((assignmentOf name value).dispatched text fun n => buildStatement_dispatches (forward n)).mono
      fun _ hn => (hn.accepts rfl).follow fun _ _ => rfl
  | .exit, _ => .of_forall fun _ => exit_accepted.follow fun _ _ => rfl
  | .return value, _ => (return_accepted text value).mono fun _ hn => hn.follow fun _ _ => rfl
  | .empty, _ => .of_forall fun _ => empty_accepted.follow fun _ _ => rfl
  | .block stmts, h => by
    have hblock := eventually_succ (p := fun n => Accepts (forward n).blockStatement
      (fun _ => true) (blockPiece text (listPieces text stmts)))
    refine (hblock.mp ?_).mono fun n hn k us hk => .ifNeg rfl (.ifNeg rfl (.ifNeg rfl (.ifNeg rfl
      (.ifPos rfl (hn k us rfl)))))
    filter_upwards [list_accepted text stmts h, eventually_gt_atTop stmts.length] with n hn hlt
    exact block_accepted ((fuel_forward n).symm ▸ hlt) hn
  | .ifThen cond stmt, h => by
    have hstmt := eventually_succ (p := fun n => Accepts ((forward n).statement .null) stmt.follow
      (stmt.piece text))
    filter_upwards [hstmt.mp (stmt.accepted text h),
      atom_accepted cond (show tokenIsExprOperator .parenthClose = false from rfl)]
      with n hn hcond
    refine (ifThen_accepted hcond (stmt.starts text) (hn.follow fun k hk => ?_)).follow
      fun k hk => hk
    rw [Stmt.follow, Bool.not_and, hk, Bool.or_true]
  | .ifElse cond stmt elseStmt, h => by
    unfold Stmt.unambiguous at h
    obtain ⟨h, helse⟩ := Bool.and_eq_true_iff.mp h
    obtain ⟨hclosed, hthen⟩ := Bool.and_eq_true_iff.mp h
    have hstmt := eventually_succ (p := fun n => Accepts ((forward n).statement .null) stmt.follow
      (stmt.piece text))
    have helseStmt := eventually_succ (p := fun n => Accepts ((forward n).statement .null)
      elseStmt.follow (elseStmt.piece text))
    have hatom := atom_accepted cond (show tokenIsExprOperator .parenthClose = false from rfl)
    filter_upwards [hstmt.mp (stmt.accepted text hthen),
      helseStmt.mp (elseStmt.accepted text helse), hatom] with n hn hn' hcond
    refine ifElse_accepted hcond (stmt.starts text) (elseStmt.starts text)
      (hn.follow fun k _ => ?_) hn'
    rw [Stmt.follow, Bool.not_and, hclosed, Bool.true_or]

theorem list_accepted (text : TokenClass → Cstr) : ∀ stmts : List Stmt,
    listUnambiguous stmts = true →
    ∀ᶠ n in atTop, ∀ stmt ∈ stmts,
      Accepts (buildPlainStatement (forward n)) (fun k => !is .elseKw k) (stmt.piece text)
  | [], _ => .of_forall fun _ _ h => nomatch h
  | stmt :: stmts, h => by
    unfold listUnambiguous at h
    obtain ⟨hstmt, hrest⟩ := Bool.and_eq_true_iff.mp h
    filter_upwards [stmt.accepted text hstmt, list_accepted text stmts hrest] with n hn hn'
    refine List.forall_mem_cons.mpr ⟨hn.follow fun k hk => ?_, hn'⟩
    rw [Stmt.follow, Bool.not_and, hk, Bool.or_true]

end

end Dp4c.Parse
