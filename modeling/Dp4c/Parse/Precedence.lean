import Dp4c.Parse.TypeReads

/-! # Printed expressions

Trees of expressions, printed with parentheses where the priorities of the operators and
their association to the left ask for them. What is printed is read back, but for casts to
types that are not. -/
namespace Dp4c.Parse

open Dp4c.Lib Dp4c.Lib.Prog Filter

/-! ## Trees -/

/-- The binary operators of `token_to_binop`. -/
abbrev Binop := { k : TokenClass // (getOperatorPriority k).isSome = true }

def Binop.priority (op : Binop) : Nat := (getOperatorPriority op.val).get op.2

/-- The operators in front of an expression. -/
def prefixOp : TokenClass → Option AstExprOperator
  | .exclamation => some .logNot
  | .tilda => some .bitNot
  | .unaryMinus => some .minus
  | _ => none

abbrev PrefixOp := { k : TokenClass // (prefixOp k).isSome = true }

def PrefixOp.operator (op : PrefixOp) : AstExprOperator := (prefixOp op.val).get op.2

inductive Expr where
  | atom (token : { t : Tok // isAtom t.klass = true })
  | binary (op : Binop) (left right : Expr)
  | member (e : Expr) (name : { t : Tok // tokenIsName t.klass = true })
  | index (e index : Expr)
  | slice (e index colonIndex : Expr)
  | call (e : Expr) (args : List Expr)
  | unary (op : PrefixOp) (e : Expr)
  | cast (type : TypeRef) (e : Expr)

/-- The priority at the root; only binary operators have one. -/
def Expr.level : Expr → Nat
  | .binary op _ _ => op.priority
  | _ => 6

/-- `'(' ... ')'` -/
def parens (text : TokenClass → Cstr) (ts : List Tok) : List Tok :=
  punct text .parenthOpen :: ts ++ [punct text .parenthClose]

def wrap (text : TokenClass → Cstr) (b : Bool) (ts : List Tok) : List Tok :=
  if b then parens text ts else ts

def brackets (text : TokenClass → Cstr) (ts : List Tok) : List Tok :=
  punct text .bracketOpen :: ts ++ [punct text .bracketClose]

mutual

/-- The printed tokens and the tree. -/
def Expr.piece (text : TokenClass → Cstr) : Expr → Piece
  | .atom t => ⟨[t], atomTree t⟩
  | .binary op l r =>
    ⟨wrap text (l.level < op.priority) (l.piece text).tokens ++
        punct text op :: wrap text (r.level < op.priority + 1) (r.piece text).tokens,
      binaryTree op (l.piece text).tree (r.piece text).tree⟩
  | .member e name =>
    ⟨wrap text (e.level < 6) (e.piece text).tokens ++ [punct text .dotPrefix, name],
      memberTree (e.piece text).tree (nameTree name.val.lexeme)⟩
  | .index e i =>
    ⟨wrap text (e.level < 6) (e.piece text).tokens ++ brackets text (i.piece text).tokens,
      indexedTree (e.piece text).tree (indexTree (i.piece text).tree)⟩
  | .slice e i j =>
    ⟨wrap text (e.level < 6) (e.piece text).tokens ++
        brackets text ((i.piece text).tokens ++ punct text .colon :: (j.piece text).tokens),
      indexedTree (e.piece text).tree (sliceTree (i.piece text).tree (j.piece text).tree)⟩
  | .call e args =>
    ⟨wrap text (e.level < 6) (e.piece text).tokens ++
        parens text (commaTokens text (exprPieces text args)),
      callTree (e.piece text).tree ((exprPieces text args).map Piece.tree)⟩
  | .unary op e =>
    ⟨parens text (punct text op :: parens text (e.piece text).tokens),
      unaryTree op.operator (e.piece text).tree⟩
  | .cast type e =>
    ⟨parens text (parens text (type.piece text).tokens ++ parens text (e.piece text).tokens),
      castTree (type.piece text).tree (e.piece text).tree⟩

def exprPieces (text : TokenClass → Cstr) : List Expr → List Piece
  | [] => []
  | e :: rest => e.piece text :: exprPieces text rest

end

mutual

/-- The types of its casts are read. -/
def Expr.plain : Expr → Bool
  | .atom _ => true
  | .binary _ l r => l.plain && r.plain
  | .member e _ => e.plain
  | .index e i => e.plain && i.plain
  | .slice e i j => e.plain && (i.plain && j.plain)
  | .call e args => e.plain && allPlain args
  | .unary _ e => e.plain
  | .cast type e => type.readable && e.plain

def allPlain : List Expr → Bool
  | [] => true
  | e :: rest => e.plain && allPlain rest

end

/-- The rounds of the loop over operators at the top of the text. -/
def Expr.rounds : Expr → Nat
  | .atom _ | .unary _ _ | .cast _ _ => 0
  | .binary op l _ => (if l.level < op.priority then 0 else l.rounds) + 1
  | .member e _ | .index e _ | .slice e _ _ | .call e _ => (if e.level < 6 then 0 else e.rounds) + 1

def Expr.roundsIn (b : Bool) (e : Expr) : Nat := if b then 0 else e.rounds

variable {text : TokenClass → Cstr} {n threshold fuel rounds : Nat} {b : Bool} {e l r i j : Expr}
  {ts us ts' : List Tok} {tree : Ast} {t k : Tok}

theorem Binop.hasPriority (op : Binop) : getOperatorPriority op.val = some op.priority := by
  rw [Binop.priority, Option.some_get]

theorem Binop.priority_range (op : Binop) : 1 ≤ op.priority ∧ op.priority < 6 := by
  have hall : ∀ k p, getOperatorPriority k = some p → 1 ≤ p ∧ p < 6 := by
    intro k p hp
    have hk : ∀ k, (getOperatorPriority k).all fun p => 1 ≤ p ∧ p < 6 := by decide
    have := hk k
    rw [hp] at this
    simpa using this
  exact hall _ _ op.hasPriority

theorem Expr.level_pos (e : Expr) : 1 ≤ e.level := by
  cases e <;> first | exact (Binop.priority_range _).1 | exact Nat.one_le_of_lt (Nat.lt_succ_self 5)

/-- An expression starts with a token that starts no type. -/
def StartsExpr (ts : List Tok) : Prop := ∃ t us, ts = t :: us ∧ tokenIsExpression t.klass = true ∧
  tokenIsTypeRef t.klass = false ∧ tokenIsRealTypeArg t.klass = false

theorem StartsExpr.append (h : StartsExpr ts) (us : List Tok) : StartsExpr (ts ++ us) := by
  obtain ⟨t, ts', rfl, ht⟩ := h
  exact ⟨t, ts' ++ us, rfl, ht⟩

theorem startsExpr_parens (text : TokenClass → Cstr) (ts : List Tok) :
    StartsExpr (parens text ts) :=
  ⟨_, _, rfl, rfl, rfl, rfl⟩

theorem StartsExpr.wrap (h : StartsExpr ts) (text : TokenClass → Cstr) (b : Bool) :
    StartsExpr (wrap text b ts) := by
  cases b with
  | true => exact startsExpr_parens text ts
  | false => exact h

theorem Expr.starts (text : TokenClass → Cstr) (e : Expr) : StartsExpr (e.piece text).tokens := by
  induction e using Expr.rec (motive_2 := fun _ => True) with
  | atom t =>
    have hall : ∀ k, isAtom k = true → tokenIsExpression k = true ∧ tokenIsTypeRef k = false ∧
        tokenIsRealTypeArg k = false := by decide
    exact ⟨_, _, rfl, hall _ t.2⟩
  | binary op l r hl hr => exact (hl.wrap _ _).append _
  | member e name he => exact (he.wrap _ _).append _
  | index e i he hi => exact (he.wrap _ _).append _
  | slice e i j he hi hj => exact (he.wrap _ _).append _
  | call e args he hargs => exact (he.wrap _ _).append _
  | unary op e he => exact startsExpr_parens _ _
  | cast type e he => exact startsExpr_parens _ _
  | nil => trivial
  | cons e rest he hrest => trivial

/-! ## Prefixes -/

/-- What starts with a prefix operator. -/
theorem buildExpressionPrimary_unary {op : PrefixOp} {Q : Ast → State → Prop} {E : Stop → Prop}
    (h : Reading (buildUnary (forward n) op.operator) (punct text op :: us) Q E) :
    Reading (buildExpressionPrimary (forward n)) (punct text op :: us) Q E := by
  obtain ⟨op, hop⟩ := op
  have hcases : ∀ k, (prefixOp k).isSome = true →
      k = .exclamation ∨ k = .tilda ∨ k = .unaryMinus := by decide
  rcases hcases op hop with rfl | rfl | rfl
  · refine .require rfl (.ifNeg rfl (.ifNeg rfl (.ifNeg rfl (.ifNeg rfl (.ifNeg rfl ?_)))))
    exact .ifNeg rfl (.ifNeg rfl (.ifNeg rfl (.ifPos rfl h)))
  · refine .require rfl (.ifNeg rfl (.ifNeg rfl (.ifNeg rfl (.ifNeg rfl (.ifNeg rfl ?_)))))
    exact .ifNeg rfl (.ifNeg rfl (.ifNeg rfl (.ifNeg rfl (.ifPos rfl h))))
  · refine .require rfl (.ifNeg rfl (.ifNeg rfl (.ifNeg rfl (.ifNeg rfl (.ifNeg rfl ?_)))))
    exact .ifNeg rfl (.ifNeg rfl (.ifNeg rfl (.ifNeg rfl (.ifNeg rfl (.ifPos rfl h)))))

theorem PrefixOp.starts (op : PrefixOp) : tokenIsExpression op.val = true ∧
    tokenIsTypeRef op.val = false ∧ tokenIsRealTypeArg op.val = false := by
  have hall : ∀ k, (prefixOp k).isSome = true → tokenIsExpression k = true ∧
      tokenIsTypeRef k = false ∧ tokenIsRealTypeArg k = false := by decide
  exact hall _ op.2

theorem Leads.unary {op : PrefixOp}
    (h : Reads ((forward n).expression 1) (ts ++ us) us (IsTree tree))
    (hne : ts ++ us ≠ []) :
    Leads n 0 threshold (punct text op :: ts) (unaryTree op.operator tree) us :=
  fun fuel Q E hf => by
    have hunary : Reads (buildUnary (forward n) op.operator) (punct text op :: (ts ++ us)) us
        (IsTree (unaryTree op.operator tree)) :=
      .nextTo hne (.node fun a ha => .set ha rfl rfl fun a ha => .bind h fun c hc =>
        .setLast ha hc.value rfl rfl)
    exact .bind (buildExpressionPrimary_unary hunary) hf

/-- What starts with a parenthesis. -/
theorem buildExpressionPrimary_parenthesis {Q : Ast → State → Prop} {E : Stop → Prop}
    (h : Reading (buildParenthesized (forward n)) (punct text .parenthOpen :: us) Q E) :
    Reading (buildExpressionPrimary (forward n)) (punct text .parenthOpen :: us) Q E := by
  refine .require rfl (.ifNeg rfl (.ifNeg rfl (.ifNeg rfl (.ifNeg rfl (.ifNeg rfl ?_)))))
  exact .ifNeg rfl (.ifNeg rfl (.ifPos rfl h))

theorem parens_append (ts us : List Tok) : parens text ts ++ us =
    punct text .parenthOpen :: (ts ++ punct text .parenthClose :: us) := by simp [parens]

theorem brackets_append (ts us : List Tok) : brackets text ts ++ us =
    punct text .bracketOpen :: (ts ++ punct text .bracketClose :: us) := by simp [brackets]

theorem Leads.cast {type : TypeRef} (htype : Settles (buildTypeRef (forward n)) endsType
      (type.piece text) type.readable) (hu : type.readable = true)
    (h : Reads ((forward n).expression 1) (ts ++ us) us (IsTree tree)) (hne : ts ++ us ≠ []) :
    Leads n 0 threshold (parens text (type.piece text).tokens ++ ts)
      (castTree (type.piece text).tree tree) us := fun fuel Q E hf => by
  obtain ⟨t, ts', htokens, ht⟩ := type.starts text
  have hread := htype.accepts hu (punct text .parenthClose) (ts ++ us) rfl
  rw [List.append_assoc, parens_append]
  refine .bind (buildExpressionPrimary_parenthesis ?_) hf
  rw [htokens] at hread ⊢
  refine .nextTo (by simp) (.ifPos ht (.node fun a ha => .bind hread fun c hc => ?_))
  refine .set ha hc.value rfl fun a ha => .expectTo rfl hne ?_
  exact .bind h fun c hc => .setLast ha hc.value rfl rfl

theorem cast_rejects (threshold fuel : Nat) {type : TypeRef}
    (htype : Settles (buildTypeRef (forward n)) endsType
      (type.piece text) type.readable)
    (h : type.readable = false ∨ Rejects ((forward n).expression 1) (ts ++ us))
    (hne : ts ++ us ≠ []) :
    Rejects (do operatorLoop (forward n) threshold fuel (← buildExpressionPrimary (forward n)))
      (parens text (type.piece text).tokens ++ ts ++ us) := by
  obtain ⟨t, ts', htokens, ht⟩ := type.starts text
  rw [List.append_assoc, parens_append]
  refine .stuck (buildExpressionPrimary_parenthesis ?_)
  cases hu : type.readable with
  | false =>
    have hread := htype.declines hu (punct text .parenthClose) (ts ++ us) rfl
    rw [htokens] at hread ⊢
    exact .nextTo (by simp) (.ifPos ht (.node fun a ha => .stuck hread))
  | true =>
    have hread := htype.accepts hu (punct text .parenthClose) (ts ++ us) rfl
    rw [htokens] at hread ⊢
    refine .nextTo (by simp) (.ifPos ht (.node fun a ha => .bind hread fun c hc => ?_))
    refine .set ha hc.value rfl fun a ha => .expectTo rfl hne (.stuck ?_)
    exact h.resolve_left (by simp [hu])

/-! ## What the parser makes of a printed expression -/

/-- The text can stand here: inside of a text of this threshold, in front of a token that does
not go on with its last operand. -/
def Fits (b : Bool) (e : Expr) (threshold : Nat) (us : List Tok) : Prop :=
  us ≠ [] ∧ (b = false → threshold ≤ e.level ∧ (e.level < 6 → Stops (e.level + 1) us))

/-- The loop over operators, started at the text, does not return. -/
def LoopRejects (n fuel threshold : Nat) (ts : List Tok) : Prop :=
  Rejects (do operatorLoop (forward n) threshold fuel (← buildExpressionPrimary (forward n))) ts

/-- The expression as a part of a larger one, in parentheses for `b`. -/
structure Operand (text : TokenClass → Cstr) (n : Nat) (b : Bool) (e : Expr) : Prop where
  leads : e.plain = true → ∀ threshold us, Fits b e threshold us →
    Leads n (e.roundsIn b) threshold (wrap text b (e.piece text).tokens) (e.piece text).tree us
  refuses : e.plain = false → ∀ threshold us fuel, Fits b e threshold us →
    LoopRejects n (fuel + e.roundsIn b) threshold (wrap text b (e.piece text).tokens ++ us)

/-- The expression where one of this threshold is read. -/
structure Whole (text : TokenClass → Cstr) (n : Nat) (b : Bool) (e : Expr) : Prop where
  reads : e.plain = true → ∀ threshold us, (b = false → threshold ≤ e.level) → Stops threshold us →
    Reads ((forward n).expression threshold) (wrap text b (e.piece text).tokens ++ us) us
      (IsTree (e.piece text).tree)
  rejects : e.plain = false → ∀ threshold us, (b = false → threshold ≤ e.level) →
    Stops threshold us →
    Rejects ((forward n).expression threshold) (wrap text b (e.piece text).tokens ++ us)

theorem Operand.whole (h : Operand text n b e) (hn : e.rounds < n) : Whole text (n + 1) b e := by
  have hrounds : e.roundsIn b < n := by
    unfold Expr.roundsIn
    split
    · omega
    · exact hn
  have hfuel : (forward n).fuel = n := by cases n <;> rfl
  have hfits : ∀ threshold us, (b = false → threshold ≤ e.level) → Stops threshold us →
      Fits b e threshold us := fun threshold us hle hstops => by
    obtain ⟨k, us', rfl⟩ := hstops.cons
    exact ⟨by simp, fun hb => ⟨hle hb, fun _ => hstops.mono (Nat.le_succ_of_le (hle hb))⟩⟩
  obtain ⟨t, ts, htokens, ht, -⟩ := (e.starts text).wrap text b
  refine ⟨fun hp threshold us hle hstops => ?_, fun hp threshold us hle hstops => ?_⟩
  · exact (h.leads hp threshold us (hfits _ _ hle hstops)).expression _ hrounds ⟨t, ts, htokens, ht⟩
      hstops
  · have hrefuses := h.refuses hp threshold us (n - e.roundsIn b) (hfits _ _ hle hstops)
    rw [show n - e.roundsIn b + e.roundsIn b = n by omega] at hrefuses
    unfold LoopRejects at hrefuses
    rw [htokens] at hrefuses ⊢
    refine .require (k := t) ht ?_
    rw [hfuel]
    exact hrefuses

theorem parens_leads (hts : StartsExpr ts) (hus : us ≠ [])
    (h : Reads ((forward n).expression 1) (ts ++ punct text .parenthClose :: us)
      (punct text .parenthClose :: us) (IsTree tree)) :
    Leads n 0 threshold (parens text ts) tree us := by
  obtain ⟨t, ts', rfl, ht, hnot, -⟩ := hts
  exact .parenthesized ⟨t, ts', rfl, ht, hnot⟩ hus h

theorem parens_rejects (hts : StartsExpr ts)
    (h : Rejects ((forward n).expression 1) (ts ++ punct text .parenthClose :: us)) :
    LoopRejects n fuel threshold (parens text ts ++ us) := by
  obtain ⟨t, ts', rfl, ht, hnot, -⟩ := hts
  rw [parens_append]
  exact .stuck (buildExpressionPrimary_parenthesis (.nextTo (by simp)
    (.ifNeg hnot (.ifPos ht (.stuck h)))))

theorem stops_close (us : List Tok) : Stops threshold (punct text .parenthClose :: us) :=
  stops_of_not rfl

/-- In parentheses, an expression is an operand of every operator. -/
theorem Whole.operand (h : Whole text n false e) : Operand text n true e :=
  ⟨fun hp _ us hfits => parens_leads (e.starts text) hfits.1
      (h.reads hp 1 _ (fun _ => e.level_pos) (stops_close us)),
    fun hp _ us _ _ => parens_rejects (e.starts text)
      (h.rejects hp 1 _ (fun _ => e.level_pos) (stops_close us))⟩

theorem whole_of_operand (h : ∀ᶠ n in atTop, Operand text n b e) :
    ∀ᶠ n in atTop, Whole text n b e := by
  refine (eventually_succ (p := fun n => Whole text n b e)).mp ?_
  filter_upwards [h, eventually_gt_atTop e.rounds] with n hn hrounds
  exact hn.whole hrounds

/-- With and without parentheses, as an operand and as a whole. -/
def Parsed (text : TokenClass → Cstr) (n : Nat) (e : Expr) : Prop :=
  ∀ b, Operand text n b e ∧ Whole text n b e

theorem parsed_of_operand (h : ∀ᶠ n in atTop, Operand text n false e) :
    ∀ᶠ n in atTop, Parsed text n e := by
  have hwhole := whole_of_operand h
  have hwrapped : ∀ᶠ n in atTop, Operand text n true e := hwhole.mono fun n hn => hn.operand
  filter_upwards [h, hwhole, hwrapped, whole_of_operand hwrapped] with n h₁ h₂ h₃ h₄ b
  cases b with
  | true => exact ⟨h₃, h₄⟩
  | false => exact ⟨h₁, h₂⟩

/-! ## One constructor after the other -/

theorem fits_afterwards (hus : us ≠ []) (hle : threshold ≤ 6) : Fits (e.level < 6) e threshold us :=
  ⟨hus, fun hb => by
    have hlevel : ¬ e.level < 6 := of_decide_eq_false hb
    exact ⟨by omega, fun h => absurd h hlevel⟩⟩

theorem Operand.refusesLeft (h : Operand text n b e) (hp : e.plain = false)
    (hfits : Fits b e threshold (ts' ++ us)) :
    LoopRejects n (fuel + (e.roundsIn b + 1)) threshold
      (wrap text b (e.piece text).tokens ++ ts' ++ us) := by
  rw [List.append_assoc, show fuel + (e.roundsIn b + 1) = fuel + 1 + e.roundsIn b by omega]
  exact h.refuses hp threshold _ _ hfits

theorem Operand.refusesStep (h : Operand text n b e) (hp : e.plain = true)
    (hfits : Fits b e threshold (ts' ++ us))
    (hstep : ∀ a, IsTree (e.piece text).tree a →
      Rejects (operatorLoop (forward n) threshold (fuel + 1) a) (ts' ++ us)) :
    LoopRejects n (fuel + (e.roundsIn b + 1)) threshold
      (wrap text b (e.piece text).tokens ++ ts' ++ us) := by
  rw [List.append_assoc, show fuel + (e.roundsIn b + 1) = fuel + 1 + e.roundsIn b by omega]
  exact h.leads hp threshold _ hfits (fuel + 1) _ _ hstep

/-- A whole expression in front of a token that is no operator. -/
theorem Parsed.reads (us : List Tok) (h : Parsed text n e) (hp : e.plain = true)
    (hk : tokenIsExprOperator k.klass = false) :
    Reads ((forward n).expression 1) ((e.piece text).tokens ++ k :: us) (k :: us)
      (IsTree (e.piece text).tree) :=
  (h false).2.reads hp 1 _ (fun _ => e.level_pos) (stops_of_not hk)

theorem Parsed.rejects (us : List Tok) (h : Parsed text n e) (hp : e.plain = false)
    (hk : tokenIsExprOperator k.klass = false) :
    Rejects ((forward n).expression 1) ((e.piece text).tokens ++ k :: us) :=
  (h false).2.rejects hp 1 _ (fun _ => e.level_pos) (stops_of_not hk)

theorem StartsExpr.expression (h : StartsExpr ts) :
    ∃ t us, ts = t :: us ∧ tokenIsExpression t.klass = true := by
  obtain ⟨t, us, hts, ht, -⟩ := h
  exact ⟨t, us, hts, ht⟩

theorem atom_operand (t : { t : Tok // isAtom t.klass = true }) : Operand text n false (.atom t) :=
  ⟨fun _ _ _ hfits => .atom t.2 hfits.1, fun hp => nomatch hp⟩

theorem member_operand {name : { t : Tok // tokenIsName t.klass = true }} (he : Parsed text n e) :
    Operand text n false (.member e name) := by
  have hrounds : (Expr.member e name).rounds = e.roundsIn (e.level < 6) + 1 := by
    simp [Expr.rounds, Expr.roundsIn]
  refine ⟨fun hp threshold us hfits => ?_, fun hp threshold us fuel hfits => ?_⟩
  · have hleft := (he (e.level < 6)).1.leads hp threshold (punct text .dotPrefix :: name :: us)
      (fits_afterwards (by simp) (hfits.2 rfl).1)
    rw [Expr.roundsIn, if_neg Bool.noConfusion, hrounds]
    exact .member name.2 hfits.1 hleft
  · rw [Expr.roundsIn, if_neg Bool.noConfusion, hrounds]
    exact (he _).1.refusesLeft hp (fits_afterwards (by simp) (hfits.2 rfl).1)

/-- The step of the loop into a bracket. -/
theorem operatorLoop_bracket_rejects {a : Ast}
    (h : Rejects (buildArrayIndex (forward n)) (ts ++ punct text .bracketClose :: us))
    (ha : IsTree tree a) :
    Rejects (operatorLoop (forward n) threshold (fuel + 1) a) (brackets text ts ++ us) := by
  rw [brackets_append]
  unfold operatorLoop
  refine .ifPos rfl (.ifNeg rfl (.ifPos rfl (.stuck (.nextTo (by simp) ?_))))
  exact .node fun b hb => .set hb ha.value rfl fun b hb => .stuck h

theorem index_operand (he : Parsed text n e) (hi : Parsed text n i) :
    Operand text n false (.index e i) := by
  have hrounds : (Expr.index e i).rounds = e.roundsIn (e.level < 6) + 1 := by
    simp [Expr.rounds, Expr.roundsIn]
  refine ⟨fun hp threshold us hfits => ?_, fun hp threshold us fuel hfits => ?_⟩
  all_goals rw [Expr.roundsIn, if_neg Bool.noConfusion, hrounds]
  · obtain ⟨hpe, hpi⟩ := Bool.and_eq_true_iff.mp hp
    have hleft := (he (e.level < 6)).1.leads hpe threshold
        (brackets text (i.piece text).tokens ++ us)
      (fits_afterwards (by simp [brackets]) (hfits.2 rfl).1)
    refine .indexed hfits.1 hleft ?_
    exact buildArrayIndex_index (i.starts text).expression
      (show TokenClass.bracketClose ≠ .colon by decide) (hi.reads _ hpi rfl)
  · have hfit : Fits (e.level < 6) e threshold (brackets text (i.piece text).tokens ++ us) :=
      fits_afterwards (by simp [brackets]) (hfits.2 rfl).1
    cases hpe : e.plain with
    | false => exact (he _).1.refusesLeft hpe hfit
    | true =>
      have hpi : i.plain = false := by simpa [Expr.plain, hpe] using hp
      refine (he _).1.refusesStep hpe hfit fun a ha => operatorLoop_bracket_rejects ?_ ha
      have hrejects := hi.rejects us (k := punct text .bracketClose) hpi rfl
      obtain ⟨t, ts, htokens, ht⟩ := (i.starts text).expression
      rw [htokens] at hrejects ⊢
      exact .node fun a ha => .require (k := t) ht (.stuck hrejects)

theorem slice_operand (he : Parsed text n e) (hi : Parsed text n i) (hj : Parsed text n j) :
    Operand text n false (.slice e i j) := by
  have hrounds : (Expr.slice e i j).rounds = e.roundsIn (e.level < 6) + 1 := by
    simp [Expr.rounds, Expr.roundsIn]
  obtain ⟨t, ts, htokens, ht⟩ := (i.starts text).expression
  obtain ⟨t', ts', htokens', ht'⟩ := (j.starts text).expression
  refine ⟨fun hp threshold us hfits => ?_, fun hp threshold us fuel hfits => ?_⟩
  all_goals rw [Expr.roundsIn, if_neg Bool.noConfusion, hrounds]
  · obtain ⟨hpe, hpij⟩ := Bool.and_eq_true_iff.mp hp
    obtain ⟨hpi, hpj⟩ := Bool.and_eq_true_iff.mp hpij
    have hleft := (he (e.level < 6)).1.leads hpe threshold
      (brackets text ((i.piece text).tokens ++ punct text .colon :: (j.piece text).tokens) ++ us)
      (fits_afterwards (by simp [brackets]) (hfits.2 rfl).1)
    refine .indexed hfits.1 hleft ?_
    rw [List.append_assoc, List.cons_append]
    exact buildArrayIndex_slice ⟨t, ts, htokens, ht⟩ ⟨t', ts', htokens', ht'⟩ (hi.reads _ hpi rfl)
      (hj.reads _ hpj rfl)
  · have hfit : Fits (e.level < 6) e threshold
        (brackets text ((i.piece text).tokens ++ punct
        text .colon :: (j.piece text).tokens) ++ us) :=
      fits_afterwards (by simp [brackets]) (hfits.2 rfl).1
    cases hpe : e.plain with
    | false => exact (he _).1.refusesLeft hpe hfit
    | true =>
      refine (he _).1.refusesStep hpe hfit fun a ha => operatorLoop_bracket_rejects ?_ ha
      rw [List.append_assoc, List.cons_append]
      cases hpi : i.plain with
      | false =>
        have hrejects := hi.rejects ((j.piece text).tokens ++ punct text .bracketClose :: us)
            (k := punct text .colon) hpi rfl
        rw [htokens] at hrejects ⊢
        exact .node fun a ha => .require (k := t) ht (.stuck hrejects)
      | true =>
        have hpj : j.plain = false := by simpa [Expr.plain, hpe, hpi] using hp
        have hreads := hi.reads ((j.piece text).tokens ++ punct text .bracketClose :: us)
            (k := punct text .colon) hpi rfl
        have hrejects := hj.rejects us (k := punct text .bracketClose) hpj rfl
        rw [htokens, htokens'] at hreads
        rw [htokens'] at hrejects
        rw [htokens, htokens']
        refine .node fun a ha => .require (k := t) ht (.bind hreads fun c hc => ?_)
        refine .set ha hc.value rfl fun a ha => .ifPos rfl (.nextTo (by simp) ?_)
        exact .require (k := t') ht' (.stuck hrejects)

theorem binary_operand {op : Binop} (hl : Parsed text n l) (hr : Parsed text n r) :
    Operand text n false (.binary op l r) := by
  have hrounds : (Expr.binary op l r).rounds = l.roundsIn (l.level < op.priority) + 1 := by
    simp [Expr.rounds, Expr.roundsIn]
  have hright : StartsExpr (wrap text (r.level < op.priority + 1) (r.piece text).tokens) :=
    (r.starts text).wrap _ _
  -- the left operand in front of the operator
  have hfit : ∀ threshold us, Fits false (.binary op l r) threshold us →
      Fits (l.level < op.priority) l threshold
        (punct text op :: wrap text (r.level < op.priority + 1) (r.piece text).tokens ++ us) := by
    intro threshold us hfits
    refine ⟨by simp, fun hb => ?_⟩
    have hlevel : ¬ l.level < op.priority := of_decide_eq_false hb
    have hle : threshold ≤ op.priority := (hfits.2 rfl).1
    refine ⟨by omega, fun _ => .inr ⟨⟨_, op.hasPriority, by omega⟩, fun _ => ?_⟩⟩
    obtain ⟨t, ts, hts, -, -, ht⟩ := hright.append us
    exact ⟨t, ts, hts, ht⟩
  have hstops : ∀ threshold us, Fits false (.binary op l r) threshold us →
      Stops (op.priority + 1) us := fun threshold us hfits =>
    (hfits.2 rfl).2 op.priority_range.2
  have hlevel : (decide (r.level < op.priority + 1)) = false →
      op.priority + 1 ≤ r.level := fun hb =>
    Nat.le_of_not_lt (of_decide_eq_false hb)
  refine ⟨fun hp threshold us hfits => ?_, fun hp threshold us fuel hfits => ?_⟩
  all_goals rw [Expr.roundsIn, if_neg Bool.noConfusion, hrounds]
  · obtain ⟨hpl, hpr⟩ := Bool.and_eq_true_iff.mp hp
    obtain ⟨t, ts, hts, -, -, ht⟩ := hright
    exact .binary op.hasPriority (hfits.2 rfl).1 ⟨t, ts, hts, ht⟩
      ((hl _).1.leads hpl threshold _ (hfit _ _ hfits))
      ((hr _).2.reads hpr _ us hlevel (hstops _ _ hfits))
  · cases hpl : l.plain with
    | false => exact (hl _).1.refusesLeft hpl (hfit _ _ hfits)
    | true =>
      have hpr : r.plain = false := by simpa [Expr.plain, hpl] using hp
      refine (hl _).1.refusesStep hpl (hfit _ _ hfits) fun a ha => ?_
      have hrejects := (hr (r.level < op.priority + 1)).2.rejects hpr _ us hlevel (hstops _ _ hfits)
      obtain ⟨t, ts, hts, -, -, ht⟩ := hright
      rw [hts] at hrejects ⊢
      refine operatorLoop_binary (p := op.priority)
        (x := do operatorLoop (forward n) threshold fuel (← buildBinary (forward n) a op.priority))
        op.hasPriority (fun _ => ⟨t, ts ++ us, rfl, ht⟩) (fun s hs => ?_) (.stuck ?_)
      · have hk : s.token.klass = op.val := hs.klass
        have hle : threshold ≤ op.priority := (hfits.2 rfl).1
        simp only [atPriority, hk, op.hasPriority, ge_iff_le, if_pos hle]
      · refine .node fun b hb => .set hb ha.value rfl fun b hb => .token fun token htok => ?_
        exact .set hb rfl rfl fun b hb => .nextTo (by simp) (.stuck hrejects)

theorem exprPieces_eq (text : TokenClass → Cstr) :
    ∀ args, exprPieces text args = args.map (·.piece text)
  | [] => rfl
  | a :: args => by rw [exprPieces, exprPieces_eq text args, List.map_cons]

theorem allPlain_eq : ∀ args, allPlain args = args.all Expr.plain
  | [] => rfl
  | a :: args => by rw [allPlain, allPlain_eq args, List.all_cons]

/-- What follows an argument. -/
def endsArgument (k : TokenClass) : Bool := k == .comma || k == .parenthClose

theorem noOperator_endsArgument :
    ∀ k, endsArgument k = true → tokenIsExprOperator k = false := by decide

theorem isArgument_of_isExpression {k : TokenClass} (h : tokenIsExpression k = true) :
    tokenIsArgument k = true := by
  have hall : ∀ k, tokenIsExpression k = true → tokenIsArgument k = true := by decide
  exact hall k h

/-- An argument that is an expression. -/
theorem Parsed.argument (h : Parsed text n e) :
    Settles (buildArgument (forward n)) endsArgument (e.piece text) e.plain := by
  obtain ⟨t, ts, htokens, ht⟩ := (e.starts text).expression
  refine ⟨fun hp k us hk => ?_, fun hp k us hk => ?_⟩
  · have hreads := h.reads us hp (noOperator_endsArgument _ hk)
    rw [htokens] at hreads ⊢
    exact .require (k := t) (isArgument_of_isExpression ht) (.ifPos ht hreads)
  · have hrejects := h.rejects us hp (noOperator_endsArgument _ hk)
    rw [htokens] at hrejects ⊢
    exact .require (k := t) (isArgument_of_isExpression ht) (.ifPos ht hrejects)

/-- What the arguments of a call come to. -/
theorem arguments_taken {args : List Expr} (hargs : ∀ a ∈ args, Parsed text n a)
    (hn : args.length ≤ n) :
    TakesAll tokenIsArgument (buildArgument (forward n)) endsArgument (forward n).fuel
      (exprPieces text args) (allPlain args) := by
  have hfuel : (forward n).fuel = n := by cases n <;> rfl
  rw [exprPieces_eq, allPlain_eq]
  refine takesAll (fun a => ?_) (hfuel.symm ▸ hn) fun a ha => (hargs a ha).argument.takes
  obtain ⟨t, ts, htokens, ht⟩ := (a.starts text).expression
  exact ⟨t, ts, htokens, isArgument_of_isExpression ht⟩

theorem call_operand {args : List Expr} (he : Parsed text n e) (hargs : ∀ a ∈ args, Parsed text n a)
    (hn : args.length ≤ n) : Operand text n false (.call e args) := by
  have hrounds : (Expr.call e args).rounds = e.roundsIn (e.level < 6) + 1 := by
    simp [Expr.rounds, Expr.roundsIn]
  have hfit : ∀ {threshold us}, Fits false (.call e args) threshold us →
      Fits (e.level < 6) e threshold
      (parens text (commaTokens text (exprPieces text args)) ++ us) := fun hfits =>
    fits_afterwards (by simp [parens]) (hfits.2 rfl).1
  refine ⟨fun hp threshold us hfits => ?_, fun hp threshold us fuel hfits => ?_⟩
  all_goals rw [Expr.roundsIn, if_neg Bool.noConfusion, hrounds]
  · obtain ⟨hpe, hpargs⟩ := Bool.and_eq_true_iff.mp hp
    have hleft := (he (e.level < 6)).1.leads hpe threshold _ (hfit hfits)
    refine .call hfits.1 hleft ?_
    exact (arguments_taken hargs hn).reads hpargs rfl rfl
      (show TokenClass.parenthClose ≠ .comma by decide) rfl
  · cases hpe : e.plain with
    | false => exact (he _).1.refusesLeft hpe (hfit hfits)
    | true =>
      have hpargs : allPlain args = false := by simpa [Expr.plain, hpe] using hp
      refine (he _).1.refusesStep hpe (hfit hfits) fun a ha => ?_
      rw [parens_append]
      unfold operatorLoop
      refine .ifPos rfl (.ifNeg rfl (.ifNeg rfl (.ifPos rfl (.stuck (.nextTo (by simp) ?_)))))
      refine .node fun b hb => .set hb ha.value rfl fun b hb => ?_
      exact .missed ((arguments_taken hargs hn).misses hpargs rfl rfl) fun list =>
        .set fun b => .expect rfl

/-- The text of a prefix form, which stands in parentheses. -/
structure Inner (text : TokenClass → Cstr) (n : Nat) (plain : Bool) (p : Piece) : Prop where
  reads : plain = true → ∀ us, Reads ((forward n).expression 1)
    (p.tokens ++ punct text .parenthClose :: us)
    (punct text .parenthClose :: us) (IsTree p.tree)
  rejects : plain = false →
    ∀ us, Rejects ((forward n).expression 1) (p.tokens ++ punct text .parenthClose :: us)

theorem unary_inner (op : PrefixOp) (h : ∀ᶠ n in atTop, Parsed text n e) : ∀ᶠ n in atTop,
    Inner text n e.plain ⟨punct text op :: parens text (e.piece text).tokens,
      unaryTree op.operator (e.piece text).tree⟩ := by
  refine (eventually_succ (p := fun n => Inner text n e.plain _)).mp ?_
  filter_upwards [h, eventually_gt_atTop 0] with n he hn
  refine ⟨fun hp us => ?_, fun hp us => ?_⟩
  · have hreads := (he true).2.reads hp 1 (punct text .parenthClose :: us) (fun hb => by cases hb)
      (stops_close us)
    refine Leads.expression 0 (.unary hreads (by simp)) hn ?_ (stops_close us)
    exact ⟨_, _, rfl, op.starts.1⟩
  · have hrejects := (he true).2.rejects hp 1 (punct text .parenthClose :: us)
        (fun hb => by cases hb)
      (stops_close us)
    refine .require op.starts.1 (.stuck (buildExpressionPrimary_unary (.nextTo (by simp) ?_)))
    exact .node fun a ha => .set ha rfl rfl fun a ha => .stuck hrejects

theorem cast_inner {type : TypeRef} (h : ∀ᶠ n in atTop, Parsed text n e) : ∀ᶠ n in atTop,
    Inner text n (type.readable && e.plain)
      ⟨parens text (type.piece text).tokens ++ parens text (e.piece text).tokens,
        castTree (type.piece text).tree (e.piece text).tree⟩ := by
  refine (eventually_succ (p := fun n => Inner text n _ _)).mp ?_
  filter_upwards [h, type.settles text, eventually_gt_atTop 0] with n he htype hn
  have hfuel : (forward n).fuel = n := by cases n <;> rfl
  refine ⟨fun hp us => ?_, fun hp us => ?_⟩
  · obtain ⟨hu, hpe⟩ := Bool.and_eq_true_iff.mp hp
    have hreads := (he true).2.reads hpe 1 (punct text .parenthClose :: us) (fun hb => by cases hb)
      (stops_close us)
    refine Leads.expression 0 (.cast htype hu hreads (by simp)) hn ?_ (stops_close us)
    exact ⟨_, _, rfl, rfl⟩
  · have hinner : type.readable = false ∨ Rejects ((forward n).expression 1)
        (parens text (e.piece text).tokens ++ punct text .parenthClose :: us) := by
      cases hu : type.readable with
      | false => exact .inl rfl
      | true =>
        have hpe : e.plain = false := by simpa [hu] using hp
        exact .inr ((he true).2.rejects hpe 1 (punct text .parenthClose :: us)
          (fun hb => by cases hb)
          (stops_close us))
    have hrejects := cast_rejects 1 n htype hinner (by simp)
    have hcons : parens text (type.piece text).tokens ++ parens text (e.piece text).tokens ++
        punct text .parenthClose :: us = punct text .parenthOpen :: ((type.piece text).tokens ++
          [punct text .parenthClose] ++ parens text (e.piece text).tokens ++
            punct text .parenthClose :: us) := by simp [parens]
    rw [hcons] at hrejects ⊢
    refine .require rfl ?_
    rw [hfuel]
    exact hrejects

theorem Inner.operand {p : Piece} (h : Inner text n e.plain p)
    (hpiece : e.piece text = ⟨parens text p.tokens, p.tree⟩) (hrounds : e.rounds = 0)
    (hts : StartsExpr p.tokens) : Operand text n false e := by
  refine ⟨fun hp threshold us hfits => ?_, fun hp threshold us fuel hfits => ?_⟩
  all_goals rw [hpiece]
  · rw [Expr.roundsIn, if_neg Bool.noConfusion, hrounds]
    exact parens_leads hts hfits.1 (h.reads hp us)
  · exact parens_rejects hts (h.rejects hp us)

/-! ## All expressions -/

mutual

/-- What the parser makes of a printed expression, in every place where one can stand. -/
theorem Expr.parsed (text : TokenClass → Cstr) : ∀ e : Expr, ∀ᶠ n in atTop, Parsed text n e
  | .atom t => parsed_of_operand (.of_forall fun _ => atom_operand t)
  | .binary op l r => parsed_of_operand <| by
    filter_upwards [l.parsed text, r.parsed text] with n hl hr
    exact binary_operand hl hr
  | .member e name => parsed_of_operand ((e.parsed text).mono fun _ he => member_operand he)
  | .index e i => parsed_of_operand <| by
    filter_upwards [e.parsed text, i.parsed text] with n he hi
    exact index_operand he hi
  | .slice e i j => parsed_of_operand <| by
    filter_upwards [e.parsed text, i.parsed text, j.parsed text] with n he hi hj
    exact slice_operand he hi hj
  | .call e args => parsed_of_operand <| by
    filter_upwards [e.parsed text, exprs_parsed text args, eventually_ge_atTop args.length] with
      n he hargs hn
    exact call_operand he hargs hn
  | .unary op e => parsed_of_operand <| (unary_inner op (e.parsed text)).mono fun _ hn =>
    Inner.operand (e := .unary op e) hn rfl rfl ⟨_, _, rfl, op.starts⟩
  | .cast type e => parsed_of_operand <| (cast_inner (e.parsed text)).mono fun _ hn =>
    Inner.operand (e := .cast type e) hn rfl rfl ((startsExpr_parens text _).append _)

theorem exprs_parsed (text : TokenClass → Cstr) : ∀ args : List Expr, ∀ᶠ n in atTop,
    ∀ e ∈ args, Parsed text n e
  | [] => .of_forall fun _ _ h => nomatch h
  | e :: args => by
    filter_upwards [e.parsed text, exprs_parsed text args] with n he hargs
    exact List.forall_mem_cons.mpr ⟨he, hargs⟩

end

/-- A token that the text of an expression may stand in front of. -/
def endsExpression (k : TokenClass) : Bool := k == .parenthClose || k == .semicolon || k == .comma

theorem expression_parsed (text : TokenClass → Cstr) (e : Expr) :
    ∀ᶠ n in atTop, Parsed text (n + 1) e :=
  (eventually_succ (p := fun n => Parsed text n e)).mpr (e.parsed text)

theorem noOperator_endsExpression :
    ∀ k, endsExpression k = true → tokenIsExprOperator k = false := by decide

/-- A printed expression as a piece of a larger text. -/
def Expr.expression (text : TokenClass → Cstr) (e : Expr) (follow : TokenClass → Bool)
    (hfollow : ∀ k, follow k = true → tokenIsExprOperator k = false) : Expression follow where
  toPiece := e.piece text
  read := e.plain
  starts := (e.starts text).expression
  taken := (e.parsed text).mono fun _ he => ⟨fun hp _ us hk => he.reads us hp (hfollow _ hk),
    fun hp _ us hk => (he.rejects us hp (hfollow _ hk)).misses⟩

/-- **A printed expression is read back**, all of it and nothing else, exactly if the types of
its casts are read. -/
theorem expression_read_iff (text : TokenClass → Cstr) (e : Expr) {k : Tok} (us : List Tok)
    {s : State} (hk : endsExpression k.klass = true)
    (hs : Sees s ((e.piece text).tokens ++ k :: us)) :
    Returns (fun n => buildExpression (forward n) 1) s (k :: us) (IsTree (e.piece text).tree) ↔
      e.plain = true := by
  have htaken := (e.expression text endsExpression noOperator_endsExpression).taken
  exact takes_returns_iff ((eventually_succ (p := fun n =>
    Takes ((forward n).expression 1) endsExpression (e.piece text) e.plain)).mpr htaken) hk hs

/-- `(1 + 2) * 3` -/
def sumTimes : Expr :=
  let number (value : Int) : Expr := .atom ⟨{ klass := .integer, i := { value := value } }, rfl⟩
  .binary ⟨.star, rfl⟩ (.binary ⟨.plus, rfl⟩ (number 1) (number 2)) (number 3)

theorem expression_read_one : Returns (fun n => buildExpression (forward n) 1)
    (stateAt ((sumTimes.piece noText).tokens ++ [punct noText .semicolon]))
    [punct noText .semicolon] (IsTree (sumTimes.piece noText).tree) :=
  (expression_read_iff noText sumTimes [] rfl (sees_stateAt (by decide))).mpr rfl

/-- `((bit<(8)>)(x))` -/
def parenthesizedCast : Expr :=
  .cast parenthesizedType (.atom ⟨{ klass := .identifier }, isAtom_identifier⟩)

theorem expression_read_fails : ¬ Returns (fun n => buildExpression (forward n) 1)
    (stateAt ((parenthesizedCast.piece noText).tokens ++ [punct noText .semicolon]))
    [punct noText .semicolon] (IsTree (parenthesizedCast.piece noText).tree) :=
  not_returns ((expression_parsed noText parenthesizedCast).mono fun n hn =>
    hn.rejects _ (n := n + 1) rfl rfl) (sees_stateAt (by decide))

end Dp4c.Parse
