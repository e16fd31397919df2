import Dp4c.Parse.Reading

/-! # Reading names, atoms and operators

The trees here have no ids and lines. `Leads` says that the loop over operators comes
from the start of a text to its end with the tree of the text in hand; every operator
makes such a text longer. -/
namespace Dp4c.Parse

open Dp4c.Lib Dp4c.Lib.Prog

variable {α : Type} {fwd : Forward} {t k : Tok} {ts us : List Tok} {token : Token} {P : α → Prop}
  {Q : Ast → State → Prop} {E : Stop → Prop} {tree : Ast} {a : Ast} {text : TokenClass → Cstr}

/-! ## Names and literals -/

def nameTree (lexeme : Cstr) : Ast := .node .name 0 0 [⟨.name, .string, .string lexeme⟩]

def integerTree (i : IntegerPayload) : Ast :=
  .node .int 0 0 [⟨.flags, .integer, .flags i.flags⟩, ⟨.width, .integer, .int i.width⟩,
    ⟨.value, .integer, .int i.value⟩]

def booleanTree (value : Int) : Ast := .node .bool 0 0 [⟨.value, .integer, .int value⟩]

def stringTree (lexeme : Cstr) : Ast := .node .stringLiteral 0 0 [⟨.value, .string, .string lexeme⟩]

theorem lexeme_value (h : tokOf token = t) : eraseValue (.string token.lexeme) = .string t.lexeme :=
  congrArg (fun t : Tok => Value.string t.lexeme) h

theorem Reading.registerNot {Q : α → State → Prop} {f : Unit → Parser α} {name : Cstr}
    (hf : Reading (f ()) ts Q E) : Reading (registerType false name a >>= f) ts Q E := hf

theorem buildNonTypeName_reads (h : tokenIsNonTypeName t.klass = true) :
    Reads (buildNonTypeName false) (t :: k :: us) (k :: us) (IsTree (nameTree t.lexeme)) := by
  refine .require h (.token fun token htok => .node fun a ha => ?_)
  refine .set ha (lexeme_value htok) rfl fun a ha => .registerNot (.next (.pure ha))

theorem buildName_reads (h : tokenIsName t.klass = true) :
    Reads (buildName false) (t :: k :: us) (k :: us) (IsTree (nameTree t.lexeme)) := by
  refine .require h ?_
  cases hn : tokenIsNonTypeName t.klass with
  | true => exact .ifPos hn (buildNonTypeName_reads hn)
  | false =>
    have htype : ∀ k, tokenIsName k = true → tokenIsNonTypeName k = false →
        is .typeIdentifier k = true := by decide
    refine .ifNeg hn (.ifPos (htype _ h hn) (.token fun token htok => .node fun a ha => ?_))
    exact .set ha (lexeme_value htok) rfl fun a ha => .next (.pure ha)

/-- The same for a text that goes on somehow. -/
theorem buildName_readsTo (h : tokenIsName t.klass = true) (hne : ts ≠ []) :
    Reads (buildName false) (t :: ts) ts (IsTree (nameTree t.lexeme)) := by
  obtain ⟨k, us, rfl⟩ := List.exists_cons_of_ne_nil hne
  exact buildName_reads h

theorem buildInteger_reads (h : t.klass = .integer) :
    Reads buildInteger (t :: k :: us) (k :: us) (IsTree (integerTree t.i)) := by
  refine .ifPos (beq_iff_eq.mpr h) (.token fun token htok => .node fun a ha => ?_)
  have hi : token.i = t.i := congrArg Tok.i htok
  rw [hi]
  refine .set ha rfl rfl fun a ha => .set ha rfl rfl fun a ha => .set ha rfl rfl fun a ha => ?_
  exact .next (.pure ha)

theorem buildBoolean_reads (h : t.klass = .true ∨ t.klass = .false) :
    Reads buildBoolean (t :: k :: us) (k :: us)
      (IsTree (booleanTree (if t.klass = .true then 1 else 0))) := by
  have hc : (t.klass == .true || t.klass == .false) = true := by
    rcases h with h | h <;> rw [h] <;> rfl
  refine .ifPos hc (.node fun a ha => .set ha rfl rfl fun a ha => ?_)
  rcases h with h | h
  · refine .bind (.ifPos (beq_iff_eq.mpr h) (astSetattr_reads ha rfl rfl)) fun a ha => ?_
    rw [if_pos h]
    exact .next (.pure ha)
  · have hne : t.klass ≠ .true := by rw [h]; decide
    refine .bind (.ifNeg (beq_false_of_ne hne) (.pure ha)) fun a ha => ?_
    rw [if_neg hne]
    exact .next (.pure ha)

theorem buildStringLiteral_reads (h : t.klass = .stringLiteral) :
    Reads buildStringLiteral (t :: k :: us) (k :: us) (IsTree (stringTree t.lexeme)) := by
  refine .ifPos (beq_iff_eq.mpr h) (.token fun token htok => .node fun a ha => ?_)
  exact .set ha (lexeme_value htok) rfl fun a ha => .next (.pure ha)

/-- Integers, booleans, strings and names that are no types. -/
def isAtom (k : TokenClass) : Bool :=
  k == .integer || k == .true || k == .false || k == .stringLiteral || tokenIsNonTypeName k

theorem isAtom_identifier : isAtom .identifier = true := rfl

/-- The tree of an atom. -/
def atomTree (t : Tok) : Ast :=
  match t.klass with
  | .integer => integerTree t.i
  | .true => booleanTree 1
  | .false => booleanTree 0
  | .stringLiteral => stringTree t.lexeme
  | _ => nameTree t.lexeme

theorem buildExpressionPrimary_atom (h : isAtom t.klass = true) :
    Reads (buildExpressionPrimary fwd) (t :: k :: us) (k :: us) (IsTree (atomTree t)) := by
  have hexpr : ∀ k, isAtom k = true → tokenIsExpression k = true := by decide
  refine .require (hexpr _ h) ?_
  obtain ⟨klass, lexeme, i⟩ := t
  by_cases hint : klass = .integer
  · subst hint
    exact .ifPos rfl (buildInteger_reads rfl)
  refine .ifNeg (beq_false_of_ne hint) ?_
  by_cases htrue : klass = .true
  · subst htrue
    exact .ifPos rfl (buildBoolean_reads (.inl rfl))
  refine .ifNeg (beq_false_of_ne htrue) ?_
  by_cases hfalse : klass = .false
  · subst hfalse
    exact .ifPos rfl (buildBoolean_reads (.inr rfl))
  refine .ifNeg (beq_false_of_ne hfalse) ?_
  by_cases hstring : klass = .stringLiteral
  · subst hstring
    exact .ifPos rfl (buildStringLiteral_reads rfl)
  refine .ifNeg (beq_false_of_ne hstring) ?_
  have hname : tokenIsNonTypeName klass = true := by
    simpa [isAtom, hint, htrue, hfalse, hstring] using h
  have hdot : ∀ k, tokenIsNonTypeName k = true → is .dotPrefix k = false := by decide
  have htree : atomTree ⟨klass, lexeme, i⟩ = nameTree lexeme := by
    revert hname hint htrue hfalse hstring
    cases klass <;> intros <;> first | rfl | contradiction
  rw [htree]
  exact .ifNeg (hdot _ hname) (.ifPos hname (buildNonTypeName_reads hname))

/-- An expression, in front of a token of `follow`: either `build_expression(1)` reads it, all
of it, or it does not come past it. Every expression of the grammar starts with a token for
one. -/
structure Expression (follow : TokenClass → Bool) extends Piece where
  read : Bool
  starts : toPiece.Starts tokenIsExpression
  taken : ∀ᶠ n in Filter.atTop, Takes ((forward n).expression 1) follow toPiece read

/-- It is read exactly if `build_expression(1)` returns behind it, with its tree. -/
theorem Expression.returns_iff {follow : TokenClass → Bool} (e : Expression follow) {s : State}
    (hk : follow k.klass = true) (hs : Sees s (e.tokens ++ k :: us)) :
    Returns (fun n => (forward n).expression 1) s (k :: us) (IsTree e.tree) ↔ e.read = true :=
  takes_returns_iff e.taken hk hs

/-! ## Where an expression ends -/

/-- The loop over operators ends here. -/
def Stops (threshold : Nat) : List Tok → Prop
  | [] => False
  | k :: us => tokenIsExprOperator k.klass = false ∨
    (∃ p, getOperatorPriority k.klass = some p ∧ p < threshold) ∧
      (k.klass = .angleOpen → ∃ k' us', us = k' :: us' ∧ tokenIsRealTypeArg k'.klass = false)

variable {n threshold priority fuel rounds : Nat}

theorem Stops.mono {m : Nat} (h : Stops threshold ts) (hle : threshold ≤ m) : Stops m ts := by
  cases ts with
  | nil => exact h
  | cons k us =>
    rcases h with h | ⟨⟨p, hp, hlt⟩, hangle⟩
    · exact .inl h
    · exact .inr ⟨⟨p, hp, by omega⟩, hangle⟩

theorem Stops.cons (h : Stops threshold ts) : ∃ k us, ts = k :: us := by
  cases ts with
  | nil => exact h.elim
  | cons k us => exact ⟨k, us, rfl⟩

theorem stops_of_not (h : tokenIsExprOperator k.klass = false) : Stops threshold (k :: us) := .inl h

/-- A token with a priority is a binary operator and none of the other operators. -/
theorem binary_of_priority {k : TokenClass} (h : getOperatorPriority k = some priority) :
    tokenIsExprOperator k = true ∧ is .dotPrefix k = false ∧ is .bracketOpen k = false ∧
      is .parenthOpen k = false ∧ is .equal k = false ∧ tokenIsBinaryOperator k = true := by
  have hall : ∀ k, (getOperatorPriority k).isSome = true → tokenIsExprOperator k = true ∧
      is .dotPrefix k = false ∧ is .bracketOpen k = false ∧ is .parenthOpen k = false ∧
      is .equal k = false ∧ tokenIsBinaryOperator k = true := by decide
  exact hall k (by rw [h]; rfl)

/-- The branch of the binary operators. -/
theorem operatorLoop_binary {p : Nat} {x : Parser Ast} (hp : getOperatorPriority k.klass = some p)
    (hangle : k.klass = .angleOpen → ∃ k' us', us = k' :: us' ∧ tokenIsRealTypeArg k'.klass = false)
    (hx : ∀ s, Sees s (k :: us) → atPriority threshold
      (fun priority => do operatorLoop fwd threshold fuel (← buildBinary fwd a priority))
        (Pure.pure a) s =
        x s)
    (h : Reading x (k :: us) Q E) :
    Reading (operatorLoop fwd threshold (fuel + 1) a) (k :: us) Q E := by
  obtain ⟨hop, hdot, hbracket, hparenth, hequal, hbinary⟩ := binary_of_priority hp
  have hbranch : Reading
      (ifToken (is .equal) (do operatorLoop fwd threshold fuel (← buildKvPair fwd a)) <|
        ifToken tokenIsBinaryOperator
          (atPriority threshold
            (fun priority => do operatorLoop fwd threshold fuel (← buildBinary fwd a priority))
            (Pure.pure a))
          assertFalse) (k :: us) Q E :=
    .ifNeg hequal (.ifPos hbinary fun s hs => (wp_congr (hx s hs)).mpr (h s hs))
  unfold operatorLoop
  refine .ifPos hop (.ifNeg hdot (.ifNeg hbracket (.ifNeg hparenth ?_)))
  by_cases hk : k.klass = .angleOpen
  · obtain ⟨k', us', rfl, hk'⟩ := hangle hk
    exact .ifPos (beq_iff_eq.mpr hk) (.peekNeg hk' hbranch)
  · exact .ifNeg (beq_false_of_ne hk) hbranch

theorem operatorLoop_stop (ha : IsTree tree a) (h : Stops threshold ts) :
    Reads (operatorLoop fwd threshold (fuel + 1) a) ts ts (IsTree tree) := by
  obtain ⟨k, us, rfl⟩ := h.cons
  rcases h with h | ⟨⟨p, hp, hlt⟩, hangle⟩
  · unfold operatorLoop
    exact .ifNeg h (.pure ha)
  · refine operatorLoop_binary hp hangle (x := Pure.pure a) (fun s hs => ?_) (.pure ha)
    simp only [atPriority, hs.klass, hp, if_neg (Nat.not_le_of_lt hlt)]

/-- Where the loop can end. -/
def EndsAt (threshold : Nat) (_ : Ast) (t : State) : Prop :=
  tokenIsExprOperator t.token.klass = false ∨
    ∃ p, getOperatorPriority t.token.klass = some p ∧ p < threshold

/-- What a program does first is not looked at. -/
theorem ends_bind {α β : Type} {w : Parser β} {f : β → Parser α} {Q : α → State → Prop}
    (hf : ∀ b t, wp (f b) t Q fun _ => True) (s : State) : wp (w >>= f) s Q fun _ => True := by
  rw [wp_bind]
  unfold wp
  cases w s with
  | ok r => exact hf r.1 r.2
  | error e => trivial

theorem operatorLoop_ends (fwd : Forward) (threshold : Nat) : ∀ (fuel : Nat) (a : Ast) (s : State),
    wp (operatorLoop fwd threshold fuel a) s (EndsAt threshold) fun _ => True
  | 0, _, _ => trivial
  | fuel + 1, a, s => by
    have hloop : ∀ (w : Parser Ast) s, wp (do operatorLoop fwd threshold fuel (← w)) s
        (EndsAt threshold) fun _ => True := fun _ =>
          ends_bind (operatorLoop_ends fwd threshold fuel)
    have hif : ∀ {c : TokenClass → Bool} {x y : Parser Ast} {s : State},
        (c s.token.klass = true → wp x s (EndsAt threshold) fun _ => True) →
        (c s.token.klass = false → wp y s (EndsAt threshold) fun _ => True) →
        wp (ifToken c x y) s (EndsAt threshold) fun _ => True := fun {c _ _ s} hx hy => by
      cases hc : c s.token.klass with
      | true => exact (wp_congr (ifToken_pos hc)).mpr (hx hc)
      | false => exact (wp_congr (ifToken_neg hc)).mpr (hy hc)
    have hbinary : ∀ s, wp
        (ifToken (is .equal) (do operatorLoop fwd threshold fuel (← buildKvPair fwd a)) <|
          ifToken tokenIsBinaryOperator
            (atPriority threshold
              (fun priority => do operatorLoop fwd threshold fuel (← buildBinary fwd a priority))
              (pure a))
            assertFalse) s (EndsAt threshold) fun _ => True := by
      refine fun s => hif (fun _ => hloop _ s) fun _ => hif (fun _ => ?_) fun _ => trivial
      cases hp : getOperatorPriority s.token.klass with
      | none =>
        exact (wp_congr (y := assertFalse) (t := s) (by simp only [atPriority, hp])).mpr trivial
      | some p =>
        by_cases hle : threshold ≤ p
        · refine (wp_congr (t := s) ?_).mpr (hloop (buildBinary fwd a p) s)
          simp only [atPriority, hp, ge_iff_le, if_pos hle]
        · refine (wp_congr (y := pure a) (t := s) ?_).mpr (.inr ⟨p, hp, Nat.lt_of_not_le hle⟩)
          simp only [atPriority, hp, ge_iff_le, if_neg hle]
    unfold operatorLoop
    refine hif (fun _ => ?_) fun hc => .inl hc
    refine hif (fun _ => hloop _ s) fun _ => hif (fun _ => hloop _ s) fun _ => ?_
    refine hif (fun _ => hloop _ s) fun _ => hif (fun _ => ?_) fun _ => hbinary s
    refine ends_bind (fun token t => ?_) s
    split
    · exact hloop _ t
    · exact hbinary t

/-- **An expression ends** in front of a token that is no operator of its level. -/
theorem buildExpression_ends (fwd : Forward) (threshold : Nat) (s : State) :
    wp (buildExpression fwd threshold) s (EndsAt threshold) fun _ => True :=
  ends_bind (fun _ => ends_bind fun a => operatorLoop_ends fwd threshold fwd.fuel a) s

theorem forward_expression_ends (n threshold : Nat) (s : State) :
    wp ((forward n).expression threshold) s (EndsAt threshold) fun _ => True := by
  cases n with
  | zero => trivial
  | succ n => exact buildExpression_ends (forward n) threshold s

/-! ## Longer and longer texts -/

/-- The loop comes from the start of `ts` to its end, in so many rounds. -/
def Leads (n rounds threshold : Nat) (ts : List Tok) (tree : Ast) (us : List Tok) : Prop :=
  ∀ fuel (Q : Ast → State → Prop) (E : Stop → Prop),
    (∀ a, IsTree tree a → Reading (operatorLoop (forward n) threshold fuel a) us Q E) →
    Reading
      (do operatorLoop (forward n) threshold (fuel + rounds) (← buildExpressionPrimary (forward n)))
      (ts ++ us) Q E

theorem Leads.atom (h : isAtom t.klass = true) (hus : us ≠ []) :
    Leads n 0 threshold [t] (atomTree t) us := fun fuel Q E hf => by
  obtain ⟨k, us, rfl⟩ := List.exists_cons_of_ne_nil hus
  exact .bind (buildExpressionPrimary_atom h) hf

/-- One more round of the loop. -/
theorem Leads.round (ts' : List Tok) {tree' : Ast}
    (h : Leads n rounds threshold ts tree (ts' ++ us))
    (hstep : ∀ fuel a (Q : Ast → State → Prop) (E : Stop → Prop), IsTree tree a →
      (∀ b, IsTree tree' b → Reading (operatorLoop (forward n) threshold fuel b) us Q E) →
      Reading (operatorLoop (forward n) threshold (fuel + 1) a) (ts' ++ us) Q E) :
    Leads n (rounds + 1) threshold (ts ++ ts') tree' us := fun fuel Q E hf => by
  rw [List.append_assoc, show fuel + (rounds + 1) = fuel + 1 + rounds by omega]
  exact h (fuel + 1) Q E fun a ha => hstep fuel a Q E ha hf

/-- The whole expression. -/
theorem Leads.expression (rounds : Nat) (h : Leads n rounds threshold ts tree us)
    (hrounds : rounds < n)
    (hstart : ∃ t ts', ts = t :: ts' ∧ tokenIsExpression t.klass = true)
      (hstop : Stops threshold us) :
    Reads ((forward (n + 1)).expression threshold) (ts ++ us) us (IsTree tree) := by
  obtain ⟨t, ts', rfl, ht⟩ := hstart
  refine .require (k := t) ht ?_
  have hn : (forward n).fuel = n - (rounds + 1) + 1 + rounds := by
    have : (forward n).fuel = n := by cases n <;> rfl
    omega
  rw [hn]
  exact h _ _ _ fun a ha => operatorLoop_stop ha hstop

/-- A text in parentheses. -/
theorem Leads.parenthesized (hts : ∃ t ts', ts = t :: ts' ∧ tokenIsExpression t.klass = true ∧
      tokenIsTypeRef t.klass = false) (hus : us ≠ [])
    (h : Reads ((forward n).expression 1) (ts ++ punct text .parenthClose :: us)
      (punct text .parenthClose :: us) (IsTree tree)) :
    Leads n 0 threshold (punct text .parenthOpen :: ts ++ [punct text .parenthClose]) tree us :=
  fun fuel Q E hf => by
    obtain ⟨k, us, rfl⟩ := List.exists_cons_of_ne_nil hus
    obtain ⟨t, ts', rfl, ht, hnot⟩ := hts
    have hprimary : Reads (buildExpressionPrimary (forward n))
        (punct text .parenthOpen :: (t :: ts' ++ punct text .parenthClose :: k :: us)) (k :: us)
        (IsTree tree) := by
      refine .require rfl (.ifNeg rfl (.ifNeg rfl (.ifNeg rfl (.ifNeg rfl (.ifNeg rfl ?_)))))
      refine .ifNeg rfl (.ifNeg rfl (.ifPos rfl (.next (.ifNeg hnot (.ifPos ht ?_)))))
      exact .bind h fun a ha => .expect rfl (.pure ha)
    have htext : punct text .parenthOpen :: (t :: ts') ++ [punct text .parenthClose] ++ k :: us =
        punct text .parenthOpen :: (t :: ts' ++ punct text .parenthClose :: k :: us) := by simp
    rw [htext]
    exact .bind hprimary hf

theorem expression_of_isAtom {k : TokenClass} (h : isAtom k = true) :
    tokenIsExpression k = true := by
  have hall : ∀ k, isAtom k = true → tokenIsExpression k = true := by decide
  exact hall k h

/-- Tokens that end expressions are no operators. -/
theorem noOperator_semicolon : ∀ k, is .semicolon k = true → tokenIsExprOperator k = false := by
  decide

theorem noOperator_colon : ∀ k, is .colon k = true → tokenIsExprOperator k = false := by decide

theorem noOperator_bracketClose :
    ∀ k, is .bracketClose k = true → tokenIsExprOperator k = false := by decide

/-- An atom is an expression in front of everything that is no operator. -/
def Expression.atom (t : { t : Tok // isAtom t.klass = true }) (follow : TokenClass → Bool)
    (hfollow : ∀ k, follow k = true → tokenIsExprOperator k = false) : Expression follow where
  tokens := [t]
  tree := atomTree t
  read := true
  starts := ⟨t, [], rfl, expression_of_isAtom t.2⟩
  taken := by
    refine eventually_succ.mp ((Filter.eventually_gt_atTop 0).mono fun n hn => ⟨fun _ k us hk => ?_,
      fun hb => nomatch hb⟩)
    exact (Leads.atom t.2 (by simp)).expression _ hn ⟨t, [], rfl, expression_of_isAtom t.2⟩
      (stops_of_not (hfollow _ hk))

/-! ## Operators -/

def memberTree (e name : Ast) : Ast :=
  .node .memberSelectExpr 0 0 [⟨.expr, .ast, .ast e⟩, ⟨.memberName, .ast, .ast name⟩]

def indexTree (index : Ast) : Ast := .node .arrayIndex 0 0 [⟨.index, .ast, .ast index⟩]

def sliceTree (index colonIndex : Ast) : Ast :=
  .node .arrayIndex 0 0 [⟨.index, .ast, .ast index⟩, ⟨.colonIndex, .ast, .ast colonIndex⟩]

def indexedTree (e index : Ast) : Ast :=
  .node .indexedArrayExpr 0 0 [⟨.expr, .ast, .ast e⟩, ⟨.indexExpr, .ast, .ast index⟩]

def callTree (e : Ast) (args : List Ast) : Ast :=
  .node .functionCallExpr 0 0 [⟨.expr, .ast, .ast e⟩, ⟨.args, .astList, optTreesValue args⟩]

def binaryTree (op : TokenClass) (left right : Ast) : Ast :=
  .node .binaryExpr 0 0 [⟨.leftOperand, .ast, .ast left⟩,
    ⟨.op, .exprOperator, .operator (tokenToBinop op)⟩, ⟨.rightOperand, .ast, .ast right⟩]

def unaryTree (op : AstExprOperator) (e : Ast) : Ast :=
  .node .unaryExpr 0 0 [⟨.op, .exprOperator, .operator op⟩, ⟨.expr, .ast, .ast e⟩]

def castTree (type e : Ast) : Ast :=
  .node .castExpr 0 0 [⟨.toType, .ast, .ast type⟩, ⟨.expr, .ast, .ast e⟩]

theorem Leads.member {name : Tok} (hname : tokenIsName name.klass = true) (hus : us ≠ [])
    (h : Leads n rounds threshold ts tree (punct text .dotPrefix :: name :: us)) :
    Leads n (rounds + 1) threshold (ts ++ [punct text .dotPrefix, name])
      (memberTree tree (nameTree name.lexeme)) us := by
  obtain ⟨k, us, rfl⟩ := List.exists_cons_of_ne_nil hus
  refine .round [punct text .dotPrefix, name] h fun fuel a Q E ha hf => ?_
  have hselect : Reads (buildMemberSelect a) (punct text .dotPrefix :: name :: k :: us) (k :: us)
      (IsTree (memberTree tree (nameTree name.lexeme))) := by
    refine .next (.node fun b hb => .set hb ha.value rfl fun b hb => .require hname ?_)
    exact .bind (buildName_reads hname) fun c hc => .setLast hb hc.value rfl rfl
  unfold operatorLoop
  exact .ifPos rfl (.ifPos rfl (.bind hselect hf))

/-- What follows an index in brackets. -/
def endsIndex (k : TokenClass) : Bool := k == .colon || k == .bracketClose

theorem noOperator_endsIndex : ∀ k, endsIndex k = true → tokenIsExprOperator k = false := by
  decide

theorem buildArrayIndex_index {ts : List Tok} {index : Ast} (hts : ∃ t ts', ts = t :: ts' ∧
      tokenIsExpression t.klass = true) (hk : k.klass ≠ .colon)
    (h : Reads (fwd.expression 1) (ts ++ k :: us) (k :: us) (IsTree index)) :
    Reads (buildArrayIndex fwd) (ts ++ k :: us) (k :: us) (IsTree (indexTree index)) := by
  obtain ⟨t, ts', rfl, ht⟩ := hts
  refine .node fun a ha => .require (k := t) ht (.bind h fun e he => ?_)
  refine .set ha he.value rfl fun a ha => .ifNeg (beq_false_of_ne hk) (.pure ha)

theorem buildArrayIndex_slice {ts ts' : List Tok} {index colonIndex : Ast}
    (hts : ∃ t us, ts = t :: us ∧ tokenIsExpression t.klass = true)
    (hts' : ∃ t us, ts' = t :: us ∧ tokenIsExpression t.klass = true)
    (h : Reads (fwd.expression 1) (ts ++ punct text .colon :: (ts' ++ k :: us))
      (punct text .colon :: (ts' ++ k :: us)) (IsTree index))
    (h' : Reads (fwd.expression 1) (ts' ++ k :: us) (k :: us) (IsTree colonIndex)) :
    Reads (buildArrayIndex fwd) (ts ++ punct text .colon :: (ts' ++ k :: us)) (k :: us)
      (IsTree (sliceTree index colonIndex)) := by
  obtain ⟨t, us, rfl, ht⟩ := hts
  obtain ⟨t', us', rfl, ht'⟩ := hts'
  refine .node fun a ha => .require (k := t) ht (.bind h fun e he => ?_)
  refine .set ha he.value rfl fun a ha => .ifPos rfl (.next (.require (k := t') ht' ?_))
  exact .bind h' fun e he => .setLast ha he.value rfl rfl

/-- An index that is not come past. -/
theorem buildArrayIndex_misses {ts : List Tok} (hts : ∃ t ts', ts = t :: ts' ∧
      tokenIsExpression t.klass = true)
    (h : Misses (fwd.expression 1) endsIndex (ts ++ us)) :
    Misses (buildArrayIndex fwd) (is .bracketClose) (ts ++ us) := by
  obtain ⟨t, ts', rfl, ht⟩ := hts
  have hends : ∀ k, endsIndex k = false → is .colon k = false ∧ is .bracketClose k = false := by
    decide
  refine .node fun a ha => .require (k := t) ht fun s hs => ?_
  rw [wp_bind]
  refine wp_mono (h s hs) (fun e u hu => ?_) fun _ he => he
  rw [wp_bind]
  refine wp_mono (astSetattr_keeps u) (fun b v hv => ?_) fun _ he => he
  subst hv
  refine (wp_congr (ifToken_neg (hends _ hu).1)).mpr ?_
  exact (hends _ hu).2

/-- A slice whose second index is not come past. -/
theorem buildArrayIndex_sliceMisses {ts ts' : List Tok} {index : Ast}
    (hts : ∃ t us, ts = t :: us ∧ tokenIsExpression t.klass = true)
    (hts' : ∃ t us, ts' = t :: us ∧ tokenIsExpression t.klass = true)
    (h : Reads (fwd.expression 1) (ts ++ punct text .colon :: (ts' ++ us))
      (punct text .colon :: (ts' ++ us)) (IsTree index))
    (h' : Misses (fwd.expression 1) (is .bracketClose) (ts' ++ us)) :
    Misses (buildArrayIndex fwd) (is .bracketClose)
      (ts ++ punct text .colon :: (ts' ++ us)) := by
  obtain ⟨t, ts, rfl, ht⟩ := hts
  obtain ⟨t', ts', rfl, ht'⟩ := hts'
  refine .node fun a ha => .require (k := t) ht (.bind h fun e he => ?_)
  refine .set ha he.value rfl fun a ha => .ifPos rfl (.next (.require (k := t') ht' ?_))
  exact .missedSet h'

/-- An index or a slice in brackets, by what `build_arrayIndex` makes of it. -/
theorem Leads.indexed {ts' : List Tok} {index : Ast} (hus : us ≠ [])
    (h : Leads n rounds threshold ts tree
      (punct text .bracketOpen :: ts' ++ [punct text .bracketClose] ++ us))
    (hindex : Reads (buildArrayIndex (forward n)) (ts' ++ punct text .bracketClose :: us)
      (punct text .bracketClose :: us) (IsTree index)) :
    Leads n (rounds + 1) threshold
      (ts ++ (punct text .bracketOpen :: ts' ++ [punct text .bracketClose]))
      (indexedTree tree index) us := by
  obtain ⟨k, us, rfl⟩ := List.exists_cons_of_ne_nil hus
  refine .round _ h fun fuel a Q E ha hf => ?_
  have htext : punct text .bracketOpen :: ts' ++ [punct text .bracketClose] ++ k :: us =
      punct text .bracketOpen :: (ts' ++ punct text .bracketClose :: k :: us) := by simp
  have hselect : Reads (buildIndexedArray (forward n) a)
      (punct text .bracketOpen :: (ts' ++ punct text .bracketClose :: k :: us)) (k :: us)
      (IsTree (indexedTree tree index)) := by
    obtain ⟨t, us', hne⟩ := List.exists_cons_of_ne_nil
      (show ts' ++ punct text .bracketClose :: k :: us ≠ [] by simp)
    unfold buildIndexedArray
    rw [hne]
    refine .next (.node fun b hb => .set hb ha.value rfl fun b hb => ?_)
    rw [← hne]
    refine .bind hindex fun c hc => .set hb hc.value rfl fun b hb => .expect rfl (.pure hb)
  rw [htext]
  unfold operatorLoop
  exact .ifPos rfl (.ifNeg rfl (.ifPos rfl (.bind hselect hf)))

theorem Leads.call {ts' : List Tok} {args : List Ast} (hus : us ≠ [])
    (h : Leads n rounds threshold ts tree
      (punct text .parenthOpen :: ts' ++ [punct text .parenthClose] ++ us))
    (hargs : Reads (buildArgumentList (forward n)) (ts' ++ punct text .parenthClose :: us)
      (punct text .parenthClose :: us) (IsOptList args)) :
    Leads n (rounds + 1) threshold
      (ts ++ (punct text .parenthOpen :: ts' ++ [punct text .parenthClose]))
      (callTree tree args) us := by
  obtain ⟨k, us, rfl⟩ := List.exists_cons_of_ne_nil hus
  refine .round _ h fun fuel a Q E ha hf => ?_
  have htext : punct text .parenthOpen :: ts' ++ [punct text .parenthClose] ++ k :: us =
      punct text .parenthOpen :: (ts' ++ punct text .parenthClose :: k :: us) := by simp
  have hcall : Reads (buildFunctionCall (forward n) a)
      (punct text .parenthOpen :: (ts' ++ punct text .parenthClose :: k :: us)) (k :: us)
      (IsTree (callTree tree args)) := by
    obtain ⟨t, us', hne⟩ := List.exists_cons_of_ne_nil
      (show ts' ++ punct text .parenthClose :: k :: us ≠ [] by simp)
    unfold buildFunctionCall
    rw [hne]
    refine .next (.node fun b hb => .set hb ha.value rfl fun b hb => ?_)
    rw [← hne]
    exact .bind hargs fun l hl => .set hb hl rfl fun b hb => .expect rfl (.pure hb)
  rw [htext]
  unfold operatorLoop
  exact .ifPos rfl (.ifNeg rfl (.ifNeg rfl (.ifPos rfl (.bind hcall hf))))

theorem Leads.binary {op : TokenClass} {ts' : List Tok} {right : Ast}
    (hp : getOperatorPriority op = some priority) (hle : threshold ≤ priority)
    (hts' : ∃ t us, ts' = t :: us ∧ tokenIsRealTypeArg t.klass = false)
    (h : Leads n rounds threshold ts tree (punct text op :: ts' ++ us))
    (hright : Reads ((forward n).expression (priority + 1)) (ts' ++ us) us (IsTree right)) :
    Leads n (rounds + 1) threshold (ts ++ punct text op :: ts') (binaryTree op tree right) us := by
  refine .round _ h fun fuel a Q E ha hf => ?_
  obtain ⟨t, us', rfl, ht⟩ := hts'
  have hbinary : Reads (buildBinary (forward n) a priority) (punct text op :: (t :: us') ++ us) us
      (IsTree (binaryTree op tree right)) := by
    refine .node fun b hb => .set hb ha.value rfl fun b hb => .token fun token htok => ?_
    have hk : token.klass = op := congrArg Tok.klass htok
    refine .set hb (by rw [hk]; rfl : eraseValue _ = .operator (tokenToBinop op)) rfl
      fun b hb => .next ?_
    exact .bind hright fun c hc => .setLast hb hc.value rfl rfl
  refine operatorLoop_binary (p := priority)
    (x := do operatorLoop (forward n) threshold fuel (← buildBinary (forward n) a priority)) hp
    (fun _ => ⟨t, us' ++ us, rfl, ht⟩) (fun s hs => ?_) (.bind hbinary hf)
  have hk : s.token.klass = op := hs.klass
  simp only [atPriority, hk, hp, if_pos hle]

end Dp4c.Parse
