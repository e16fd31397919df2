import Dp4c.Parse.Casts

/-! # Reading assignments and calls

Where `build_expression` or `build_argument` does not come past an expression or an argument
in them, they are not read either. -/
namespace Dp4c.Parse

open Dp4c.Lib Dp4c.Lib.Prog Filter

variable {α : Type} {text : TokenClass → Cstr} {n fuel : Nat} {fwd : Forward} {ts us : List Tok}
  {a : Ast} {s : State} {k : Tok} {pieces : List Piece}

/-- A name. -/
abbrev Name := { t : Tok // tokenIsName t.klass = true }

/-- A name that is no name of a type. -/
abbrev NonTypeName := { t : Tok // tokenIsNonTypeName t.klass = true }

/-- An argument of a call, in front of a comma or a parenthesis: either `build_argument` reads
it, all of it, or it does not come past it. -/
structure Argument extends Piece where
  read : Bool
  starts : toPiece.Starts tokenIsArgument
  taken : ∀ᶠ n in atTop, Takes (buildArgument (forward n)) endsArgument toPiece read

/-- An argument that is an expression. -/
def Expression.argument (e : Expression endsArgument) : Argument where
  toPiece := e.toPiece
  read := e.read
  starts := by
    obtain ⟨t, ts, htokens, ht⟩ := e.starts
    exact ⟨t, ts, htokens, isArgument_of_isExpression ht⟩
  taken := by
    obtain ⟨t, ts, htokens, ht⟩ := e.starts
    refine e.taken.mono fun n hn => ⟨fun hb k us hk => ?_, fun hb k us hk => ?_⟩
    · have hreads := hn.accepts hb k us hk
      rw [htokens] at hreads ⊢
      exact .require (k := t) (isArgument_of_isExpression ht) (.ifPos ht hreads)
    · have hmisses := hn.strays hb k us hk
      rw [htokens] at hmisses ⊢
      exact .require (k := t) (isArgument_of_isExpression ht) (.ifPos ht hmisses)

theorem TypeRef.tree_node (text : TokenClass → Cstr) (r : TypeRef) :
    ∃ kind attrs, (r.piece text).tree = .node kind 0 0 attrs := by
  cases r with
  | base klass => exact ⟨_, _, rfl⟩
  | sized klass size => exact ⟨_, _, rfl⟩
  | sizedBy klass size => cases klass; exact ⟨_, _, rfl⟩
  | name n => exact ⟨_, _, rfl⟩
  | specialized n args => exact ⟨_, _, rfl⟩
  | stack n size => exact ⟨_, _, rfl⟩
  | specializedStack n args size => exact ⟨_, _, rfl⟩
  | tuple args => exact ⟨_, _, rfl⟩

theorem endsType_of_name {k : TokenClass} (h : tokenIsName k = true) : endsType k = true := by
  have hall : ∀ k, tokenIsName k = true → endsType k = true := by decide
  exact hall k h

theorem fuel_forward (n : Nat) : (forward n).fuel = n := by cases n <;> rfl

/-! ## Lvalues -/

/-- What follows the name of an lvalue. -/
inductive Access where
  | member (name : Name)
  | index (index : Expression endsIndex)
  | slice (index : Expression endsIndex) (colonIndex : Expression (is .bracketClose))

/-- A name with its dot. -/
def dottedTree (dot : Bool) (lexeme : Cstr) : Ast :=
  .node .name 0 0 [⟨.name, .string, .string lexeme⟩, ⟨.isDotprefixed, .integer, .bool dot⟩]

def Access.piece (text : TokenClass → Cstr) : Access → Piece
  | .member name => ⟨[punct text .dotPrefix, name.val], dottedTree true name.val.lexeme⟩
  | .index i => ⟨brackets text i.tokens, indexTree i.tree⟩
  | .slice i j =>
    ⟨brackets text (i.tokens ++ punct text .colon :: j.tokens), sliceTree i.tree j.tree⟩

/-- The expressions in it are read. -/
def Access.read : Access → Bool
  | .member _ => true
  | .index i => i.read
  | .slice i j => i.read && j.read

/-- `<lvalue>`. -/
structure Lvalue where
  dot : Bool
  name : NonTypeName
  accesses : List Access

/-- Its accesses are read. -/
def Lvalue.read (l : Lvalue) : Bool := l.accesses.all Access.read

def dotTokens (text : TokenClass → Cstr) (dot : Bool) : List Tok :=
  if dot then [punct text .dotPrefix] else []

def Lvalue.piece (text : TokenClass → Cstr) (l : Lvalue) : Piece :=
  ⟨dotTokens text l.dot ++ l.name.val :: (l.accesses.map (·.piece text)).flatMap Piece.tokens,
    .node .lvalue 0 0 (⟨.name, .ast, .ast (dottedTree l.dot l.name.val.lexeme)⟩ ::
      match (l.accesses.map (·.piece text)).map Piece.tree with
      | [] => []
      | trees => [⟨.expr, .astList, treesValue trees⟩])⟩

theorem buildPrefixedNonTypeName_reads (text : TokenClass → Cstr) (dot : Bool) (name : NonTypeName)
    (hus : us ≠ []) :
    Reads buildPrefixedNonTypeName (dotTokens text dot ++ name.val :: us) us
      (IsTree (dottedTree dot name.val.lexeme)) := by
  obtain ⟨k, us, rfl⟩ := List.exists_cons_of_ne_nil hus
  have hdot : Reads buildDotPrefix (dotTokens text dot ++ name.val :: k :: us) (name.val :: k :: us)
      fun d => d = dot := by
    cases dot with
    | true => exact .ifPos rfl (.next (.pure rfl))
    | false =>
      have hall : ∀ k, tokenIsNonTypeName k = true → is .dotPrefix k = false := by decide
      exact .ifNeg (hall _ name.2) (.pure rfl)
  refine .bind hdot fun d hd => .bind (buildNonTypeName_reads name.2) fun a ha => ?_
  subst hd
  exact .setLast ha rfl rfl rfl

/-- An index in brackets, by what `build_arrayIndex` makes of it. -/
theorem brackets_settled {p : Piece} {b : Bool}
    (h : Takes (buildArrayIndex fwd) (is .bracketClose) p b) :
    Settles (buildLvalueExpr fwd) (fun _ => true) ⟨brackets text p.tokens, p.tree⟩ b := by
  refine ⟨fun hb k us _ => ?_, fun hb k us _ => ?_⟩
  all_goals
    rw [brackets_append]
    refine .ifNeg rfl (.ifPos rfl (.nextTo (by simp) ?_))
  · exact .bind (h.accepts hb _ _ rfl) fun a ha => .expect rfl (.pure ha)
  · exact .missed (h.strays hb (punct text .bracketClose) _ rfl) fun a => .expect rfl

theorem index_taken (i : Expression endsIndex)
    (h : Takes (fwd.expression 1) endsIndex i.toPiece i.read) :
    Takes (buildArrayIndex fwd) (is .bracketClose) ⟨i.tokens, indexTree i.tree⟩ i.read := by
  have hends : ∀ k, is .bracketClose k = true → k ≠ .colon ∧ endsIndex k = true := by decide
  refine ⟨fun hb k us hk => ?_, fun hb k us hk => ?_⟩
  · exact buildArrayIndex_index i.starts (hends _ hk).1 (h.accepts hb k us (hends _ hk).2)
  · exact buildArrayIndex_misses i.starts (h.strays hb k us (hends _ hk).2)

theorem slice_taken (text : TokenClass → Cstr) (i : Expression endsIndex)
    (j : Expression (is .bracketClose))
    (hi : Takes (fwd.expression 1) endsIndex i.toPiece i.read)
    (hj : Takes (fwd.expression 1) (is .bracketClose) j.toPiece j.read) :
    Takes (buildArrayIndex fwd) (is .bracketClose)
      ⟨i.tokens ++ punct text .colon :: j.tokens, sliceTree i.tree j.tree⟩ (i.read && j.read) := by
  refine ⟨fun hb k us hk => ?_, fun hb k us hk => ?_⟩
  all_goals rw [List.append_assoc, List.cons_append]
  · obtain ⟨hreadi, hreadj⟩ := Bool.and_eq_true_iff.mp hb
    exact buildArrayIndex_slice i.starts j.starts (hi.accepts hreadi _ _ rfl)
      (hj.accepts hreadj k us hk)
  · cases hreadi : i.read with
    | false => exact buildArrayIndex_misses i.starts (hi.strays hreadi (punct text .colon) _ rfl)
    | true =>
      rw [hreadi, Bool.true_and] at hb
      exact buildArrayIndex_sliceMisses i.starts j.starts (hi.accepts hreadi _ _ rfl)
        (hj.strays hb k us hk)

/-- What is made of an access of an lvalue, whatever follows it. -/
theorem Access.settles (text : TokenClass → Cstr) (x : Access) : ∀ᶠ n in atTop,
    Settles (buildLvalueExpr (forward n)) (fun _ => true) (x.piece text) x.read := by
  cases x with
  | member name =>
    refine .of_forall fun n => settles_of_accepts fun k us _ => .ifPos rfl (.next ?_)
    exact .bind (buildName_reads name.2) fun a ha => .setLast ha rfl rfl rfl
  | index i => exact i.taken.mono fun n hi => brackets_settled (index_taken i hi)
  | slice i j =>
    filter_upwards [i.taken, j.taken] with n hi hj
    exact brackets_settled (slice_taken text i j hi hj)

theorem Access.starts (text : TokenClass → Cstr) (x : Access) :
    (x.piece text).Starts goesOnLvalue := by
  cases x with
  | member name => exact ⟨_, _, rfl, rfl⟩
  | index i => exact ⟨_, _, rfl, rfl⟩
  | slice i j => exact ⟨_, _, rfl, rfl⟩

/-- What is made of the accesses of an lvalue. -/
def AccessesPass (fwd : Forward) (text : TokenClass → Cstr) (l : Lvalue) : Prop :=
  l.accesses.length < fwd.fuel ∧
    ∀ x ∈ l.accesses, Passes goesOnLvalue (buildLvalueExpr fwd) (x.piece text) x.read

theorem accesses_pass (text : TokenClass → Cstr) (l : Lvalue) :
    ∀ᶠ n in atTop, AccessesPass (forward n) text l := by
  filter_upwards [eventually_gt_atTop l.accesses.length,
    eventually_forall_mem fun x (_ : x ∈ l.accesses) => x.settles text] with n hn haccesses
  exact ⟨(fuel_forward n).symm ▸ hn, fun x hx => (haccesses x hx).passes (x.starts text)⟩

theorem Lvalue.starts (text : TokenClass → Cstr) (l : Lvalue) :
    ∃ t ts, (l.piece text).tokens = t :: ts ∧
      if l.dot then t.klass = .dotPrefix else tokenIsNonTypeName t.klass = true := by
  obtain ⟨dot, name, accesses⟩ := l
  cases dot with
  | true => exact ⟨_, _, rfl, rfl⟩
  | false => exact ⟨_, _, rfl, name.2⟩

theorem lvalue_of_nonTypeName {k : TokenClass} (h : tokenIsNonTypeName k = true) :
    tokenIsLvalue k = true := by
  have hall : ∀ k, tokenIsNonTypeName k = true → tokenIsLvalue k = true := by decide
  exact hall k h

theorem Lvalue.starts_lvalue (text : TokenClass → Cstr) (l : Lvalue) :
    ∃ t ts, (l.piece text).tokens = t :: ts ∧ tokenIsLvalue t.klass = true := by
  obtain ⟨t, ts, htokens, ht⟩ := l.starts text
  refine ⟨t, ts, htokens, ?_⟩
  split at ht
  · rw [ht]
    rfl
  · exact lvalue_of_nonTypeName ht

/-- What comes behind the name of an lvalue. -/
theorem buildLvalue_name {Q : Ast → State → Prop} {E : Stop → Prop} (l : Lvalue)
    (h : ∀ a, IsTree (.node .lvalue 0 0
        [⟨.name, .ast, .ast (dottedTree l.dot l.name.val.lexeme)⟩]) a →
      Reading
        (ifToken goesOnLvalue
          (do
            let lvalueExpr ← whileList goesOnLvalue (buildLvalueExpr fwd) fwd.fuel
            astSetattr a .expr .astList (listValue lvalueExpr))
          (pure a))
        ((l.accesses.map (·.piece text)).flatMap Piece.tokens ++ k :: us) Q E) :
    Reading (buildLvalue fwd) ((l.piece text).tokens ++ k :: us) Q E := by
  obtain ⟨t, ts, htokens, ht⟩ := l.starts_lvalue text
  have hname := buildPrefixedNonTypeName_reads text l.dot l.name
    (show (l.accesses.map (·.piece text)).flatMap Piece.tokens ++ k :: us ≠ [] by simp)
  have htext : (l.piece text).tokens ++ k :: us = dotTokens text l.dot ++ l.name.val ::
      ((l.accesses.map (·.piece text)).flatMap Piece.tokens ++ k :: us) := by
    rw [Lvalue.piece, List.append_assoc, List.cons_append]
  rw [← htext, htokens] at hname
  rw [htokens]
  exact .require (k := t) ht (.node fun a ha => .bind hname fun name hn =>
    .set ha hn.value rfl fun a ha => h a ha)

theorem buildLvalue_settles {l : Lvalue} (h : AccessesPass fwd text l) :
    Settles (buildLvalue fwd) (fun k => !goesOnLvalue k) (l.piece text) l.read := by
  obtain ⟨hfuel, hpass⟩ := h
  cases haccesses : l.accesses with
  | nil =>
    have hread : l.read = true := by
      rw [Lvalue.read, haccesses]
      rfl
    rw [hread]
    refine settles_of_accepts fun k us hk => buildLvalue_name l fun a ha => ?_
    rw [Lvalue.piece, haccesses]
    exact .ifNeg (by simpa using hk) (.pure ha)
  | cons x rest =>
    obtain ⟨t, ts, hx, ht⟩ := x.starts text
    refine ⟨fun hb k us hk => ?_, fun hb k us hk => ?_⟩
    all_goals
      have hlist := whileList_settles us (by simp [haccesses]) hfuel hpass
        (show goesOnLvalue k.klass = false by simpa using hk)
      refine buildLvalue_name l fun a ha => ?_
      rw [Lvalue.read, haccesses] at hb
      rw [haccesses, List.map_cons, List.flatMap_cons, hx] at hlist
      rw [haccesses, List.map_cons, List.flatMap_cons, hx]
    · rw [Lvalue.piece, haccesses]
      exact .ifPos ht (.bind (hlist.1 hb) fun list hl => .setLast ha hl rfl rfl)
    · exact .ifPos ht (.stuck (hlist.2 hb))

/-! ## Arguments -/

/-- What arguments of a call come to. -/
theorem buildArgumentList_takes {args : List Argument} (hn : args.length ≤ n)
    (h : ∀ x ∈ args, Takes (buildArgument (forward n)) endsArgument x.toPiece x.read) :
    TakesAll tokenIsArgument (buildArgument (forward n)) endsArgument (forward n).fuel
      (args.map Argument.toPiece) (args.all Argument.read) :=
  takesAll Argument.starts ((fuel_forward n).symm ▸ hn) h

variable {b : Bool}

theorem buildArgumentList_reads (text : TokenClass → Cstr) (us : List Tok)
    (h : TakesAll tokenIsArgument (buildArgument fwd) endsArgument fwd.fuel pieces b)
    (hb : b = true) :
    Reads (buildArgumentList fwd) (commaTokens text pieces ++ punct text .parenthClose :: us)
      (punct text .parenthClose :: us) (IsOptList (pieces.map Piece.tree)) :=
  h.reads hb rfl rfl (show TokenClass.parenthClose ≠ .comma by decide) rfl

theorem buildArgumentList_misses (text : TokenClass → Cstr) (us : List Tok)
    (h : TakesAll tokenIsArgument (buildArgument fwd) endsArgument fwd.fuel pieces b)
    (hb : b = false) :
    Misses (buildArgumentList fwd) endsArgument
      (commaTokens text pieces ++ punct text .parenthClose :: us) := h.misses hb rfl rfl

/-! ## Assignments and calls -/

/-- `<assignmentOrMethodCallStatement>`. -/
inductive AssignmentOrMethodCall where
  | assignment (lvalue : Lvalue) (expr : Expression (is .semicolon))
  | methodCall (lvalue : Lvalue) (typeArgs : Option (List TypeArg)) (args : List Argument)

def AssignmentOrMethodCall.lvalue : AssignmentOrMethodCall → Lvalue
  | .assignment l _ => l
  | .methodCall l _ _ => l

/-- What is behind the lvalue is read: the expression, or the type arguments and the arguments. -/
def AssignmentOrMethodCall.tailRead : AssignmentOrMethodCall → Bool
  | .assignment _ e => e.read
  | .methodCall _ typeArgs args => argsReadable (typeArgs.getD []) && args.all Argument.read

def AssignmentOrMethodCall.read (x : AssignmentOrMethodCall) : Bool := x.lvalue.read && x.tailRead

/-- There is no dot in front, and everything in it is read. -/
def AssignmentOrMethodCall.plain (x : AssignmentOrMethodCall) : Bool := !x.lvalue.dot && x.read

def typeArgTokens (text : TokenClass → Cstr) : Option (List TypeArg) → List Tok
  | none => []
  | some args => angled text (argPieces text args)

def assignmentTree (lvalue expr : Ast) : Ast :=
  .node .assignmentStmt 0 0 [⟨.lvalue, .ast, .ast lvalue⟩, ⟨.expr, .ast, .ast expr⟩]

def methodCallTree (lvalue : Ast) (typeArgs args : List Ast) : Ast :=
  .node .methodCallStmt 0 0 [⟨.lvalue, .ast, .ast lvalue⟩,
    ⟨.typeArgs, .astList, optTreesValue typeArgs⟩, ⟨.args, .astList, optTreesValue args⟩]

/-- What follows the lvalue. -/
def AssignmentOrMethodCall.tail (text : TokenClass → Cstr) : AssignmentOrMethodCall → List Tok
  | .assignment _ e => punct text .equal :: (e.tokens ++ [punct text .semicolon])
  | .methodCall _ typeArgs args => typeArgTokens text typeArgs ++
      (parens text (commaTokens text (args.map Argument.toPiece)) ++ [punct text .semicolon])

def AssignmentOrMethodCall.tree (text : TokenClass → Cstr) : AssignmentOrMethodCall → Ast
  | .assignment l e => assignmentTree (l.piece text).tree e.tree
  | .methodCall l typeArgs args => methodCallTree (l.piece text).tree
      ((argPieces text (typeArgs.getD [])).map Piece.tree) (args.map (·.tree))

def AssignmentOrMethodCall.piece (text : TokenClass → Cstr) (x : AssignmentOrMethodCall) : Piece :=
  ⟨(x.lvalue.piece text).tokens ++ x.tail text, x.tree text⟩

theorem buildOptTypeArguments_settles (text : TokenClass → Cstr) (typeArgs : Option (List TypeArg))
    (us : List Tok) (h : TakesArgs fwd (argPieces text (typeArgs.getD [])) b) :
    (b = true → Reads (buildOptTypeArguments fwd)
      (typeArgTokens text typeArgs ++ punct text .parenthOpen :: us)
      (punct text .parenthOpen :: us)
      (IsOptList ((argPieces text (typeArgs.getD [])).map Piece.tree))) ∧
    (b = false → Rejects (buildOptTypeArguments fwd)
      (typeArgTokens text typeArgs ++ punct text .parenthOpen :: us)) := by
  cases typeArgs with
  | none =>
    refine ⟨fun _ => .ifNeg rfl (.pure rfl), fun hb => ?_⟩
    obtain ⟨-, p, hp, -⟩ := h.strays hb
    cases hp
  | some args =>
    rw [typeArgTokens, angled_append]
    refine ⟨fun hb => ?_, fun hb => ?_⟩
    · refine .ifPos rfl (.nextTo (by simp) ?_)
      exact .bind (buildTypeArgumentList_reads h hb) fun list hl => .expect rfl (.pure hl)
    · refine .ifPos rfl (.nextTo (by simp) ?_)
      exact .missed (buildTypeArgumentList_misses h hb) fun list => .expect rfl

/-- What comes after the lvalue goes on with it no more. -/
theorem AssignmentOrMethodCall.tail_head (text : TokenClass → Cstr) (x : AssignmentOrMethodCall) :
    ∃ t ts, x.tail text = t :: ts ∧ goesOnLvalue t.klass = false := by
  cases x with
  | assignment l e => exact ⟨_, _, rfl, rfl⟩
  | methodCall l typeArgs args =>
    cases typeArgs with
    | none => exact ⟨_, _, rfl, rfl⟩
    | some typeArgs => exact ⟨_, _, rfl, rfl⟩

/-- What is done after the lvalue. -/
def afterLvalue (fwd : Forward) (lvalue : Ast) : Parser Ast := do
  let typeArgs ← buildOptTypeArguments fwd
  let stmt ← ifToken (is .parenthOpen)
    (do
      nextToken
      let callStmt ← newAstNode .methodCallStmt
      let callStmt ← astSetattr callStmt .lvalue .ast (.ast lvalue)
      let callStmt ← astSetattr callStmt .typeArgs .astList (listValue typeArgs)
      let callStmt ← astSetattr callStmt .args .astList (listValue (← buildArgumentList fwd))
      expect .parenthClose "`)` was expected"
      return callStmt) <|
    ifToken (is .equal)
      (do
        note .assignment
        nextToken
        let assgnStmt ← newAstNode .assignmentStmt
        let assgnStmt ← astSetattr assgnStmt .lvalue .ast (.ast lvalue)
        astSetattr assgnStmt .expr .ast (.ast (← fwd.expression 1)))
      (error "assignment or function call was expected")
  expect .semicolon "`;` expected"
  return stmt

theorem buildAssignmentOrMethodCallStatement_lvalue {x : AssignmentOrMethodCall}
    {Q : Ast → State → Prop} {E : Stop → Prop} (h : AccessesPass fwd text x.lvalue)
    (hread : x.lvalue.read = true)
    (hrest : ∀ lvalue, IsTree (x.lvalue.piece text).tree lvalue →
      Reading (afterLvalue fwd lvalue) (x.tail text ++ us) Q E) :
    Reading (buildAssignmentOrMethodCallStatement fwd) ((x.piece text).tokens ++ us) Q E := by
  obtain ⟨t, ts, htokens, ht⟩ := x.lvalue.starts_lvalue text
  obtain ⟨t', ts', htail, ht'⟩ := x.tail_head text
  have hlvalue := (buildLvalue_settles h).accepts hread t' (ts' ++ us) (by simp [ht'])
  rw [AssignmentOrMethodCall.piece, List.append_assoc, htail, List.cons_append]
  rw [htail] at hrest
  rw [htokens] at hlvalue ⊢
  exact .require (k := t) ht (.bind hlvalue fun lvalue hl => .note (hrest lvalue hl))

theorem buildAssignmentOrMethodCallStatement_stuck {x : AssignmentOrMethodCall}
    (h : AccessesPass fwd text x.lvalue) (hread : x.lvalue.read = false) :
    Rejects (buildAssignmentOrMethodCallStatement fwd) ((x.piece text).tokens ++ us) := by
  obtain ⟨t, ts, htokens, ht⟩ := x.lvalue.starts_lvalue text
  obtain ⟨t', ts', htail, ht'⟩ := x.tail_head text
  have hlvalue := (buildLvalue_settles h).declines hread t' (ts' ++ us) (by simp [ht'])
  rw [AssignmentOrMethodCall.piece, List.append_assoc, htail, List.cons_append]
  rw [htokens] at hlvalue ⊢
  exact .require (k := t) ht (.stuck hlvalue)

/-- What comes of an assignment once its lvalue is read. -/
theorem assignment_settled {l : Lvalue} {e : Expression (is .semicolon)}
    (h : AccessesPass fwd text l) (hl : l.read = true)
    (he : Takes (fwd.expression 1) (is .semicolon) e.toPiece e.read) :
    Settles (buildAssignmentOrMethodCallStatement fwd) (fun _ => true)
      ((AssignmentOrMethodCall.assignment l e).piece text) e.read := by
  have htail : ∀ us, (AssignmentOrMethodCall.assignment l e).tail text ++ us =
      punct text .equal :: (e.tokens ++ punct text .semicolon :: us) := fun us => by
    simp [AssignmentOrMethodCall.tail]
  refine ⟨fun hb k us _ => ?_, fun hb k us _ => ?_⟩
  all_goals
    refine buildAssignmentOrMethodCallStatement_lvalue h hl fun lvalue hlvalue => ?_
    rw [htail]
    refine .bind (.ifNeg rfl (.pure (P := fun list => list = none) rfl)) fun typeArgs _ => ?_
  · have hexpr := he.accepts hb (punct text .semicolon) (k :: us) rfl
    refine .bind (R := IsTree (assignmentTree (l.piece text).tree e.tree))
      (.ifNeg rfl (.ifPos rfl ?_))
      fun a ha => show Reading _ (punct text .semicolon :: k :: us) _ _ from .expect rfl (.pure ha)
    refine .note (.nextTo (by simp) (.node fun a ha => .set ha hlvalue.value rfl fun a ha => ?_))
    exact .bind hexpr fun b hb => .setLast ha hb.value rfl rfl
  · have hexpr := he.strays hb (punct text .semicolon) (k :: us) rfl
    have hstmt : Misses
        (do
          note .assignment
          nextToken
          let assgnStmt ← newAstNode .assignmentStmt
          let assgnStmt ← astSetattr assgnStmt .lvalue .ast (.ast lvalue)
          astSetattr assgnStmt .expr .ast (.ast (← fwd.expression 1)))
        (is .semicolon) (punct text .equal :: (e.tokens ++ punct text .semicolon :: k :: us)) := by
      refine .note (.nextTo (by simp) (.node fun a ha => .set ha hlvalue.value rfl fun a ha => ?_))
      exact .missedSet hexpr
    exact .missed (.ifNeg rfl (.ifPos rfl hstmt)) fun a => .expect rfl

/-- What comes of a call once its lvalue is read. -/
theorem methodCall_settled {l : Lvalue} {typeArgs : Option (List TypeArg)} {args : List Argument}
    {b c : Bool} (h : AccessesPass fwd text l) (hl : l.read = true)
    (htypeArgs : TakesArgs fwd (argPieces text (typeArgs.getD [])) b)
    (hargs : TakesAll tokenIsArgument (buildArgument fwd) endsArgument fwd.fuel
      (args.map Argument.toPiece) c) :
    Settles (buildAssignmentOrMethodCallStatement fwd) (fun _ => true)
      ((AssignmentOrMethodCall.methodCall l typeArgs args).piece text) (b && c) := by
  have htail : ∀ us, (AssignmentOrMethodCall.methodCall l typeArgs args).tail text ++ us =
      typeArgTokens text typeArgs ++ punct text .parenthOpen ::
        (commaTokens text (args.map Argument.toPiece) ++
          punct text .parenthClose :: punct text .semicolon :: us) := fun us => by
    simp [AssignmentOrMethodCall.tail, parens]
  refine ⟨fun hb k us _ => ?_, fun hb k us _ => ?_⟩
  all_goals
    refine buildAssignmentOrMethodCallStatement_lvalue h hl fun lvalue hlvalue => ?_
    rw [htail]
    have hopt := buildOptTypeArguments_settles text typeArgs
      (commaTokens text (args.map Argument.toPiece) ++
        punct text .parenthClose :: punct text .semicolon :: k :: us) htypeArgs
  · obtain ⟨hb, hc⟩ := Bool.and_eq_true_iff.mp hb
    have hlist := buildArgumentList_reads text (punct text .semicolon :: k :: us) hargs hc
    rw [List.map_map] at hlist
    refine .bind (hopt.1 hb) fun list hl => ?_
    refine .bind (R := IsTree ((AssignmentOrMethodCall.methodCall l typeArgs args).tree text))
      (.ifPos rfl ?_)
      fun a ha => show Reading _ (punct text .semicolon :: k :: us) _ _ from .expect rfl (.pure ha)
    refine .nextTo (by simp) (.node fun a ha => .set ha hlvalue.value rfl fun a ha => ?_)
    refine .set ha hl rfl fun a ha => .bind hlist fun list' hl' => ?_
    exact .set ha hl' rfl fun a ha => .expect rfl (.pure ha)
  cases hb' : b with
  | false => exact .stuck (hopt.2 hb')
  | true =>
    rw [hb', Bool.true_and] at hb
    have hlist := buildArgumentList_misses text (punct text .semicolon :: k :: us) hargs hb
    refine .bind (hopt.1 hb') fun list hl => .stuck (.ifPos rfl ?_)
    refine .nextTo (by simp) (.node fun a ha => .set ha hlvalue.value rfl fun a ha => ?_)
    exact .set ha hl rfl fun a ha => .missed hlist fun list' => .set fun a => .expect rfl

/-- **Assignments and calls** are read, dot or no dot, if everything in them is. -/
theorem AssignmentOrMethodCall.settles (text : TokenClass → Cstr) (x : AssignmentOrMethodCall) :
    ∀ᶠ n in atTop, Settles (buildAssignmentOrMethodCallStatement (forward n)) (fun _ => true)
      (x.piece text) x.read := by
  have htail : ∀ᶠ n in atTop, x.lvalue.read = true →
      Settles (buildAssignmentOrMethodCallStatement (forward n)) (fun _ => true)
        (x.piece text) x.tailRead := by
    cases x with
    | assignment l e =>
      filter_upwards [accesses_pass text l, e.taken] with n hpass he hl
      exact assignment_settled hpass hl he
    | methodCall l typeArgs args =>
      have htaken := eventually_forall_mem fun x (_ : x ∈ args) => x.taken
      filter_upwards [accesses_pass text l, args_settle text (typeArgs.getD []),
        eventually_ge_atTop (typeArgs.getD []).length, eventually_ge_atTop args.length, htaken]
        with n hpass htypeArgs hn hlen hargs hl
      exact methodCall_settled hpass hl (takesArgs text hn htypeArgs)
        (buildArgumentList_takes hlen hargs)
  filter_upwards [accesses_pass text x.lvalue, htail] with n hpass htail
  unfold AssignmentOrMethodCall.read
  cases hl : x.lvalue.read with
  | true => exact htail hl
  | false => exact ⟨fun hb => (nomatch hb), fun _ k us _ =>
      buildAssignmentOrMethodCallStatement_stuck hpass hl⟩

/-! ## Blocks -/

def blockTree (stmts : List Ast) : Ast :=
  .node .blockStmt 0 0 [⟨.stmtList, .astList, optTreesValue stmts⟩]

/-- Statements in braces. -/
def blockPiece (text : TokenClass → Cstr) (stmts : List Piece) : Piece :=
  ⟨punct text .braceOpen :: (stmts.flatMap Piece.tokens ++ [punct text .braceClose]),
    blockTree (stmts.map Piece.tree)⟩

theorem blockPiece_append (stmts : List Piece) : (blockPiece text stmts).tokens ++ us =
    punct text .braceOpen :: (stmts.flatMap Piece.tokens ++ punct text .braceClose :: us) := by
  simp [blockPiece]

/-! ## Where a statement is allowed -/

theorem of_nonTypeName {k : TokenClass} (h : tokenIsNonTypeName k = true) :
    tokenIsTypeRef k = false ∧ tokenIsTypeName k = false ∧
      tokenIsAssignmentOrMethodCallStatement k = true := by
  have hall : ∀ k, tokenIsNonTypeName k = true → tokenIsTypeRef k = false ∧
      tokenIsTypeName k = false ∧ tokenIsAssignmentOrMethodCallStatement k = true := by decide
  exact hall k h

/-- No type is a dot with a name that is no name of a type. -/
theorem buildTypeName_rejects (hk : tokenIsNonTypeName k.klass = true) :
    Rejects (buildTypeName fwd) (punct text .dotPrefix :: k :: us) := by
  have hall : ∀ k, tokenIsNonTypeName k = true → is .typeIdentifier k = false := by decide
  refine .require rfl (.stuck (.bind (R := fun b => b = true) (.ifPos rfl (.next (.pure rfl))) ?_))
  exact fun b _ => .requireNot (hall _ hk)

/-- A way to a statement: with a dot in front no statement comes of it, with the name of an
lvalue an assignment or a call. -/
structure Dispatches (x : Parser Ast) (fwd : Forward) : Prop where
  dot : ∀ {text : TokenClass → Cstr} {k : Tok} {us}, tokenIsNonTypeName k.klass = true →
    Rejects x (punct text .dotPrefix :: k :: us)
  name : ∀ {k : Tok} {us} {Q : Ast → State → Prop} {E : Stop → Prop},
    tokenIsNonTypeName k.klass = true →
    Reading (buildAssignmentOrMethodCallStatement fwd) (k :: us) Q E → Reading x (k :: us) Q E

theorem buildStatement_dispatches (fwd : Forward) : Dispatches (buildStatement fwd .null) fwd where
  dot hk := .ifPos rfl (.require rfl (.node fun _ _ => .stuck (buildTypeName_rejects hk)))
  name hk h := .ifNeg (of_nonTypeName hk).2.1 (.ifPos (of_nonTypeName hk).2.2 h)

theorem buildTypeRef_rejects (hk : tokenIsNonTypeName k.klass = true) :
    Rejects (buildTypeRef fwd) (punct text .dotPrefix :: k :: us) :=
  .require rfl (.ifNeg rfl (.ifPos rfl (buildTypeName_rejects hk)))

theorem buildStatementOrDecl_dispatches (fwd : Forward) :
    Dispatches (buildStatementOrDecl fwd) fwd where
  dot hk := .ifPos rfl (.ifPos rfl (.stuck (buildTypeRef_rejects hk)))
  name hk h := by
    have hall : ∀ k, tokenIsNonTypeName k = true → tokenIsStatementOrDeclaration k = true ∧
        tokenIsStatement k = true := by decide
    exact .ifPos (hall _ hk).1 (.ifNeg (of_nonTypeName hk).1 (.ifPos (hall _ hk).2
      ((buildStatement_dispatches fwd).name hk h)))

theorem buildParserStatement_dispatches (fwd : Forward) :
    Dispatches (buildParserStatement fwd) fwd where
  dot hk := .note (.ifPos rfl (.stuck (buildTypeRef_rejects hk)))
  name hk h := .note (.ifNeg (of_nonTypeName hk).1 (.ifPos (of_nonTypeName hk).2.2 h))

/-- What a way to a statement makes of an assignment or a call. -/
theorem AssignmentOrMethodCall.dispatched (text : TokenClass → Cstr) (x : AssignmentOrMethodCall)
    {y : Nat → Parser Ast} (hy : ∀ n, Dispatches (y n) (forward n)) : ∀ᶠ n in atTop,
    Settles (y n) (fun _ => true) (x.piece text) x.plain := by
  filter_upwards [x.settles text] with n hn
  obtain ⟨t, ts, htokens, ht⟩ := x.lvalue.starts text
  unfold AssignmentOrMethodCall.plain
  cases hdot : x.lvalue.dot with
  | true =>
    refine ⟨fun hb => (nomatch hb), fun _ k us _ => ?_⟩
    have htokens' : (x.lvalue.piece text).tokens = punct text .dotPrefix :: x.lvalue.name.val ::
        (x.lvalue.accesses.map (·.piece text)).flatMap Piece.tokens := by
      rw [Lvalue.piece, hdot]
      rfl
    rw [AssignmentOrMethodCall.piece, htokens']
    exact (hy n).dot x.lvalue.name.2
  | false =>
    rw [hdot] at ht
    have hpiece : (x.piece text).tokens = t :: (ts ++ x.tail text) := by
      rw [AssignmentOrMethodCall.piece, htokens, List.cons_append]
    refine ⟨fun hb k us hk => ?_, fun hb k us hk => ?_⟩
    · have hreads := hn.accepts hb k us hk
      rw [hpiece] at hreads ⊢
      exact (hy n).name ht hreads
    · have hrejects := hn.declines hb k us hk
      rw [hpiece] at hrejects ⊢
      exact (hy n).name ht hrejects

/-- **An assignment or a call is read as a statement**, all of it, exactly if there is no dot
in front of it and everything in it is read. -/
theorem assignmentOrMethodCall_read_iff (text : TokenClass → Cstr) (x : AssignmentOrMethodCall)
    {k : Tok} (us : List Tok) {s : State} (hs : Sees s ((x.piece text).tokens ++ k :: us)) :
    (Returns (fun n => buildStatement (forward n) .null) s (k :: us) (IsTree (x.piece text).tree) ↔
      x.plain = true) ∧
    (Returns (fun n => buildStatementOrDecl (forward n)) s (k :: us) (IsTree (x.piece text).tree) ↔
      x.plain = true) :=
  ⟨settles_returns_iff (x.dispatched text fun n => buildStatement_dispatches (forward n)) rfl hs,
    settles_returns_iff (x.dispatched text fun n => buildStatementOrDecl_dispatches (forward n)) rfl
      hs⟩

def someWord : Name := ⟨{ klass := .identifier }, rfl⟩

/-- `a[i:(1 + 2) * 3].b = (1 + 2) * 3;` or the same with a dot in front. -/
def plainAssignment (dot : Bool) : AssignmentOrMethodCall :=
  .assignment ⟨dot, ⟨{ klass := .identifier }, rfl⟩,
      [.slice (.atom ⟨{ klass := .identifier }, isAtom_identifier⟩ _ noOperator_endsIndex)
        (sumTimes.expression noText _ noOperator_bracketClose), .member someWord]⟩
    (sumTimes.expression noText _ noOperator_semicolon)

theorem assignmentOrMethodCall_read_one :
    Returns (fun n => buildStatement (forward n) .null)
      (stateAt (((plainAssignment false).piece noText).tokens ++ [punct noText .braceClose]))
      [punct noText .braceClose] (IsTree ((plainAssignment false).piece noText).tree) :=
  (assignmentOrMethodCall_read_iff noText (plainAssignment false) []
    (sees_stateAt (by decide))).1.mpr rfl

/-- `a = (t.a);` -/
example : ¬ Returns (fun n => buildStatement (forward n) .null)
    (stateAt (((AssignmentOrMethodCall.assignment ⟨false, ⟨{ klass := .identifier }, rfl⟩, []⟩
      (parenthesizedMember _)).piece noText).tokens ++ [punct noText .braceClose]))
    [punct noText .braceClose]
    (IsTree ((AssignmentOrMethodCall.assignment ⟨false, ⟨{ klass := .identifier }, rfl⟩, []⟩
      (parenthesizedMember _)).piece noText).tree) := fun h =>
  nomatch (settles_returns_iff (AssignmentOrMethodCall.dispatched noText _ fun n =>
    buildStatement_dispatches (forward n)) rfl (sees_stateAt (by decide))).mp h

theorem assignmentOrMethodCall_read_fails :
    ¬ Returns (fun n => buildStatement (forward n) .null)
      (stateAt (((plainAssignment true).piece noText).tokens ++ [punct noText .braceClose]))
      [punct noText .braceClose] (IsTree ((plainAssignment true).piece noText).tree) :=
  not_returns (.of_forall fun n => (buildStatement_dispatches (forward n)).dot rfl)
    (sees_stateAt (by decide))

end Dp4c.Parse
