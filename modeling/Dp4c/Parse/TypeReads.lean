import Dp4c.Parse.ExpressionReads

/-! # Reading types

The types of the grammar with their tokens and trees. Where the size of a stack is not read
by `build_expression`, neither is the type. -/
namespace Dp4c.Parse

open Dp4c.Lib Dp4c.Lib.Prog Filter

/-! ## The types of the grammar -/

/-- A name of a type, with or without a dot in front of it. -/
structure TypeName where
  dot : Bool
  name : Tok
  isType : name.klass = .typeIdentifier

/-- The base types that may have a size. -/
def isSized (k : TokenClass) : Bool := k == .int || k == .bit || k == .varbit

mutual

/-- `<typeRef>`. -/
inductive TypeRef where
  | base (klass : { k : TokenClass // tokenIsBaseType k = true })
  | sized (klass : { k : TokenClass // isSized k = true })
      (size : { t : Tok // t.klass = .integer })
  | sizedBy (klass : { k : TokenClass // isSized k = true }) (size : Piece)
  | name (name : TypeName)
  | specialized (name : TypeName) (args : List TypeArg)
  | stack (name : TypeName) (size : Expression (is .bracketClose))
  | specializedStack (name : TypeName) (args : List TypeArg) (size : Expression (is .bracketClose))
  | tuple (args : List TypeArg)

/-- `<typeArg>`. -/
inductive TypeArg where
  | dontcare
  | type (type : TypeRef)
  | name (name : { t : Tok // tokenIsNonTypeName t.klass = true })

end

/-! ## Trees -/

def baseKind : TokenClass → AstBaseTypeKind
  | .bool => .bool
  | .error => .error
  | .int => .int
  | .bit => .bit
  | .varbit => .varbit
  | .string => .string
  | _ => .none

def baseTree (klass : TokenClass) : Ast :=
  .node .baseType 0 0 [⟨.baseType, .integer, .baseType (baseKind klass)⟩]

def sizedTree (klass : TokenClass) (size : Ast) : Ast :=
  .node .baseType 0 0 [⟨.baseType, .integer, .baseType (baseKind klass)⟩,
    ⟨.size, .ast, .ast (.node .intTypeSize 0 0 [⟨.size, .ast, .ast size⟩])⟩]

def TypeName.tree (n : TypeName) : Ast :=
  .node .name 0 0 [⟨.name, .string, .string n.name.lexeme⟩, ⟨.isDotprefixed, .integer, .bool n.dot⟩]

def specializedTree (name : Ast) (args : List Ast) : Ast :=
  .node .specdType 0 0 [⟨.typeArgs, .astList, optTreesValue args⟩, ⟨.name, .ast, .ast name⟩]

def stackTree (name size : Ast) : Ast :=
  .node .headerStack 0 0 [⟨.stackExpr, .ast, .ast size⟩, ⟨.name, .ast, .ast name⟩]

def tupleTree (args : List Ast) : Ast :=
  .node .tuple 0 0 [⟨.typeArgs, .astList, optTreesValue args⟩]

def dontcareTree : Ast := .node .dontcare 0 0 []

/-! ## Tokens -/

def TypeName.tokens (text : TokenClass → Cstr) (n : TypeName) : List Tok :=
  if n.dot then [punct text .dotPrefix, n.name] else [n.name]

/-- `'<' ... '>'`. -/
def angled (text : TokenClass → Cstr) (pieces : List Piece) : List Tok :=
  punct text .angleOpen :: (commaTokens text pieces ++ [punct text .angleClose])

/-- `'[' ... ']'`. -/
def bracketed (text : TokenClass → Cstr) (p : Piece) : List Tok :=
  punct text .bracketOpen :: (p.tokens ++ [punct text .bracketClose])

mutual

/-- The tokens and the tree of a type. -/
def TypeRef.piece (text : TokenClass → Cstr) : TypeRef → Piece
  | .base klass => ⟨[punct text klass], baseTree klass⟩
  | .sized klass size =>
    ⟨[punct text klass, punct text .angleOpen, size, punct text .angleClose],
      sizedTree klass (integerTree size.val.i)⟩
  | .sizedBy klass size =>
    ⟨punct text klass :: punct text .angleOpen :: punct text .parenthOpen ::
        (size.tokens ++ [punct text .parenthClose, punct text .angleClose]),
      sizedTree klass size.tree⟩
  | .name n => ⟨n.tokens text, n.tree⟩
  | .specialized n args =>
    ⟨n.tokens text ++ angled text (argPieces text args),
      specializedTree n.tree ((argPieces text args).map Piece.tree)⟩
  | .stack n size => ⟨n.tokens text ++ bracketed text size.toPiece, stackTree n.tree size.tree⟩
  | .specializedStack n args size =>
    ⟨n.tokens text ++ (angled text (argPieces text args) ++ bracketed text size.toPiece),
      stackTree (specializedTree n.tree ((argPieces text args).map Piece.tree)) size.tree⟩
  | .tuple args =>
    ⟨punct text .tuple :: angled text (argPieces text args),
      tupleTree ((argPieces text args).map Piece.tree)⟩

def TypeArg.piece (text : TokenClass → Cstr) : TypeArg → Piece
  | .dontcare => ⟨[punct text .dontcare], dontcareTree⟩
  | .type t => t.piece text
  | .name n => ⟨[n], nameTree n.val.lexeme⟩

def argPieces (text : TokenClass → Cstr) : List TypeArg → List Piece
  | [] => []
  | a :: args => a.piece text :: argPieces text args

end

mutual

/-- No base type in it has a size in parentheses, and the sizes of its stacks are read. -/
def TypeRef.readable : TypeRef → Bool
  | .base _ | .sized _ _ | .name _ => true
  | .sizedBy _ _ => false
  | .specialized _ args | .tuple args => argsReadable args
  | .stack _ size => size.read
  | .specializedStack _ args size => argsReadable args && size.read

def TypeArg.readable : TypeArg → Bool
  | .dontcare | .name _ => true
  | .type t => t.readable

def argsReadable : List TypeArg → Bool
  | [] => true
  | a :: args => a.readable && argsReadable args

end

/-! ## Base types -/

variable {fwd : Forward} {t k : Tok} {ts us : List Tok} {a : Ast} {text : TokenClass → Cstr}
  {value : AstBaseTypeKind} {n : Nat}

/-- A token that does not go on with a type. -/
def endsType (k : TokenClass) : Bool := !(k == .angleOpen || k == .bracketOpen)

/-- A token that ends a type argument. -/
def endsArg (k : TokenClass) : Bool := k == .comma || k == .angleClose

theorem buildPlainType_reads (ha : IsTree (.node .baseType 0 0 []) a) (hus : us ≠ []) :
    Reads (buildPlainType a value) (t :: us) us
      (IsTree (.node .baseType 0 0 [⟨.baseType, .integer, .baseType value⟩])) :=
  .set ha rfl rfl fun _ hb => .nextTo hus (.pure hb)

theorem buildSizedType_base (ha : IsTree (.node .baseType 0 0 []) a) (hk : k.klass ≠ .angleOpen) :
    Reads (buildSizedType fwd a value) (t :: k :: us) (k :: us)
      (IsTree (.node .baseType 0 0 [⟨.baseType, .integer, .baseType value⟩])) :=
  .bind (buildPlainType_reads ha (by simp)) fun _ hb => .ifNeg (beq_false_of_ne hk) (.pure hb)

theorem buildSizedType_sized {size : Tok} (ha : IsTree (.node .baseType 0 0 []) a)
    (hsize : size.klass = .integer) :
    Reads (buildSizedType fwd a value)
      (t :: punct text .angleOpen :: size :: punct text .angleClose :: k :: us) (k :: us)
      (IsTree (.node .baseType 0 0 [⟨.baseType, .integer, .baseType value⟩,
        ⟨.size, .ast, .ast (.node .intTypeSize 0 0
            [⟨.size, .ast, .ast (integerTree size.i)⟩])⟩])) := by
  have hinteger : Reads (buildIntegerTypeSize fwd) (size :: punct text .angleClose :: k :: us)
      (punct text .angleClose :: k :: us)
      (IsTree (.node .intTypeSize 0 0 [⟨.size, .ast, .ast (integerTree size.i)⟩])) := by
    refine .node fun b hb => .ifPos (beq_iff_eq.mpr hsize) ?_
    exact .bind (buildInteger_reads hsize) fun c hc => .setLast hb hc.value rfl rfl
  refine .bind (buildPlainType_reads ha (by simp)) fun b hb => .ifPos rfl (.next ?_)
  exact .bind hinteger fun c hc => .set hb hc.value rfl fun b hb => .expect rfl (.pure hb)

/-- The closing `>` is taken for an operator. -/
theorem buildSizedType_rejects (ha : IsTree (.node .baseType 0 0 []) a) (n : Nat) :
    Rejects (buildSizedType (forward n) a value)
      (t :: punct text .angleOpen :: punct text .parenthOpen :: us) := by
  refine .bind (buildPlainType_reads ha (by simp)) fun b hb => .ifPos rfl (.next ?_)
  have hsize : Reading (buildIntegerTypeSize (forward n)) (punct text .parenthOpen :: us)
      (fun _ t => t.token.klass ≠ .angleClose) fun _ => True := by
    refine .node fun b hb => .ifNeg rfl (.ifPos rfl fun s hs => ?_)
    rw [wp_bind]
    refine wp_mono (forward_expression_ends n 1 s) (fun e t ht => ?_) fun _ _ => trivial
    have hne : t.token.klass ≠ .angleClose := fun h => by
      rcases ht with ht | ⟨p, hp, hlt⟩
      · rw [h] at ht
        cases ht
      · have hclose : getOperatorPriority .angleClose = some 2 := rfl
        rw [h, hclose, Option.some.injEq] at hp
        omega
    exact wp_mono (astSetattr_keeps t) (fun _ u hu => hu ▸ hne) fun _ he => he
  intro s hs
  rw [wp_bind]
  refine wp_mono (hsize s hs) (fun c u hu => ?_) fun _ he => he
  rw [wp_bind]
  refine wp_mono (astSetattr_keeps u) (fun d v hv => ?_) fun _ he => he
  subst hv
  rw [wp_bind]
  exact wp_of_error (expect_other hu) trivial

/-- The branches of `build_baseType`. -/
theorem buildBaseType_cases {Q : Ast → State → Prop} {E : Stop → Prop}
    (h : tokenIsBaseType t.klass = true)
    (hplain : ∀ a, isSized t.klass = false → IsTree (.node .baseType 0 0 []) a →
      Reading (buildPlainType a (baseKind t.klass)) (t :: us) Q E)
    (hsized : ∀ a, isSized t.klass = true → IsTree (.node .baseType 0 0 []) a →
      Reading (buildSizedType fwd a (baseKind t.klass)) (t :: us) Q E) :
    Reading (buildBaseType fwd) (t :: us) Q E := by
  obtain ⟨klass, lexeme, i⟩ := t
  have hcases : ∀ k, tokenIsBaseType k = true →
      k = .bool ∨ k = .error ∨ k = .int ∨ k = .bit ∨ k = .varbit ∨ k = .string := by decide
  refine .require h (.node fun a ha => ?_)
  rcases hcases klass h with rfl | rfl | rfl | rfl | rfl | rfl
  · exact .ifPos rfl (hplain a rfl ha)
  · exact .ifNeg rfl (.ifPos rfl (hplain a rfl ha))
  · exact .ifNeg rfl (.ifNeg rfl (.ifPos rfl (hsized a rfl ha)))
  · exact .ifNeg rfl (.ifNeg rfl (.ifNeg rfl (.ifPos rfl (hsized a rfl ha))))
  · exact .ifNeg rfl (.ifNeg rfl (.ifNeg rfl (.ifNeg rfl (.ifPos rfl (hsized a rfl ha)))))
  · exact .ifNeg rfl (.ifNeg rfl (.ifNeg rfl
      (.ifNeg rfl (.ifNeg rfl (.ifPos rfl (hplain a rfl ha))))))

theorem isBase_of_isSized {k : TokenClass} (h : isSized k = true) : tokenIsBaseType k = true := by
  have hall : ∀ k, isSized k = true → tokenIsBaseType k = true := by decide
  exact hall k h

theorem buildTypeRef_base {Q : Ast → State → Prop} {E : Stop → Prop}
    (h : tokenIsBaseType t.klass = true) (hbase : Reading (buildBaseType fwd) (t :: us) Q E) :
    Reading (buildTypeRef fwd) (t :: us) Q E := by
  have hall : ∀ k, tokenIsBaseType k = true → tokenIsTypeRef k = true := by decide
  exact .require (hall _ h) (.ifPos h hbase)

/-! ## Names -/

theorem buildPrefixedType_reads (text : TokenClass → Cstr) (n : TypeName) (hus : us ≠ []) :
    Reads buildPrefixedType (n.tokens text ++ us) us (IsTree n.tree) := by
  obtain ⟨dot, name, hname⟩ := n
  have hrest : Reads
      (do
        require (is .typeIdentifier) "type was expected"
        let lexeme := (← Prog.reads (·.token)).lexeme
        let a ← astSetattr (← newAstNode .name) .name .string (.string lexeme)
        let a ← astSetattr a .isDotprefixed .integer (.bool dot)
        nextToken
        return a) (name :: us) us (IsTree (TypeName.tree ⟨dot, name, hname⟩)) := by
    refine .require (beq_iff_eq.mpr hname) (.token fun token htok => .node fun a ha => ?_)
    refine .set ha (lexeme_value htok) rfl fun a ha => .set ha rfl rfl fun a ha => ?_
    exact .nextTo hus (.pure ha)
  cases dot with
  | true =>
    refine .bind (R := fun b => b = true) (.ifPos rfl (.next (.pure rfl))) fun b hb => ?_
    subst hb
    exact hrest
  | false =>
    refine .bind (R := fun b => b = false) (.ifNeg ?_ (.pure rfl)) fun b hb => ?_
    · rw [hname]
      rfl
    · subst hb
      exact hrest

/-- A type starts with a token for one. -/
theorem TypeName.starts (text : TokenClass → Cstr) (n : TypeName) :
    ∃ t ts, n.tokens text = t :: ts ∧
    tokenIsTypeName t.klass = true ∧ tokenIsBaseType t.klass = false := by
  obtain ⟨dot, name, hname⟩ := n
  cases dot with
  | true => exact ⟨_, _, rfl, rfl, rfl⟩
  | false => exact ⟨name, [], rfl, by rw [hname]; exact ⟨rfl, rfl⟩⟩

/-- What follows the name of a type. -/
def typeNameTail (fwd : Forward) (a : Ast) : Parser Ast := do
  let name ← ifToken (is .angleOpen)
    (do astSetattr (← buildSpecializedType fwd) .name .ast (.ast a)) (pure a)
  ifToken (is .bracketOpen)
    (do astSetattr (← buildHeaderStackType fwd) .name .ast (.ast name)) (pure name)

theorem buildTypeName_reads (text : TokenClass → Cstr) {Q : Ast → State → Prop} {E : Stop → Prop}
    (n : TypeName) (hus : us ≠ [])
    (h : ∀ a, IsTree n.tree a → Reading (typeNameTail fwd a) us Q E) :
    Reading (buildTypeName fwd) (n.tokens text ++ us) Q E := by
  obtain ⟨t, ts, hn, hname, -⟩ := n.starts text
  have hprefixed := buildPrefixedType_reads text n hus
  rw [hn] at hprefixed ⊢
  exact .require hname (.bind hprefixed h)

theorem buildTypeRef_name {Q : Ast → State → Prop} {E : Stop → Prop} (n : TypeName) (hus : us ≠ [])
    (h : ∀ a, IsTree n.tree a → Reading (typeNameTail fwd a) us Q E) :
    Reading (buildTypeRef fwd) (n.tokens text ++ us) Q E := by
  obtain ⟨t, ts, hn, hname, hbase⟩ := n.starts text
  have hall : ∀ k, tokenIsTypeName k = true → tokenIsTypeRef k = true := by decide
  have htypeName := buildTypeName_reads text n hus h
  rw [hn] at htypeName ⊢
  exact .require (hall _ hname) (.ifNeg hbase (.ifPos hname htypeName))

theorem typeNameTail_none (hk : k.klass ≠ .angleOpen ∧ k.klass ≠ .bracketOpen) {tree : Ast}
    (ha : IsTree tree a) : Reads (typeNameTail fwd a) (k :: us) (k :: us) (IsTree tree) :=
  .bind (.ifNeg (beq_false_of_ne hk.1) (.pure ha)) fun _ hb =>
    .ifNeg (beq_false_of_ne hk.2) (.pure hb)

/-! ## Arguments -/

variable {pieces : List Piece}

/-- What the arguments of a type come to. -/
abbrev TakesArgs (fwd : Forward) (pieces : List Piece) (b : Bool) : Prop :=
  TakesAll tokenIsTypeArg (buildTypeArg fwd) endsArg fwd.fuel pieces b

variable {b : Bool}

theorem buildTypeArgumentList_reads (h : TakesArgs fwd pieces b) (hb : b = true) :
    Reads (buildTypeArgumentList fwd) (commaTokens text pieces ++ punct text .angleClose :: us)
      (punct text .angleClose :: us) (IsOptList (pieces.map Piece.tree)) :=
  h.reads hb rfl rfl (show TokenClass.angleClose ≠ .comma by decide) rfl

theorem buildTypeArgumentList_misses (h : TakesArgs fwd pieces b) (hb : b = false) :
    Misses (buildTypeArgumentList fwd) endsArg
      (commaTokens text pieces ++ punct text .angleClose :: us) :=
  h.misses hb rfl rfl

theorem angled_append (pieces : List Piece) : angled text pieces ++ us =
    punct text .angleOpen :: (commaTokens text pieces ++ punct text .angleClose :: us) := by
  simp [angled]

theorem bracketed_append (p : Piece) : bracketed text p ++ us =
    punct text .bracketOpen :: (p.tokens ++ punct text .bracketClose :: us) := by
  simp [bracketed]

theorem buildSpecializedType_reads (text : TokenClass → Cstr) (us : List Tok)
    (h : TakesArgs fwd pieces b) (hb : b = true) (hus : us ≠ []) :
    Reads (buildSpecializedType fwd) (angled text pieces ++ us) us
      (IsTree (.node .specdType 0 0
        [⟨.typeArgs, .astList, optTreesValue (pieces.map Piece.tree)⟩])) := by
  rw [angled_append]
  refine .expectTo rfl (by simp) (.node fun a ha => ?_)
  refine .bind (buildTypeArgumentList_reads h hb) fun l hl => ?_
  exact .set ha hl rfl fun a ha => .expectTo rfl hus (.pure ha)

theorem buildSpecializedType_rejects (text : TokenClass → Cstr) (us : List Tok)
    (h : TakesArgs fwd pieces b) (hb : b = false) :
    Rejects (buildSpecializedType fwd) (angled text pieces ++ us) := by
  rw [angled_append]
  refine .expectTo rfl (by simp) (.node fun a ha => ?_)
  exact .missed (buildTypeArgumentList_misses h hb) fun l => .set fun a => .expect rfl

theorem buildTupleType_reads (h : TakesArgs fwd pieces b) (hb : b = true) (hus : us ≠ []) :
    Reads (buildTypeRef fwd) (punct text .tuple :: (angled text pieces ++ us)) us
      (IsTree (tupleTree (pieces.map Piece.tree))) := by
  rw [angled_append]
  refine .require rfl (.ifNeg rfl (.ifNeg rfl (.ifPos rfl ?_)))
  refine .expect rfl (.node fun a ha => .expectTo rfl (by simp) ?_)
  refine .bind (buildTypeArgumentList_reads h hb) fun l hl => ?_
  exact .set ha hl rfl fun a ha => .expectTo rfl hus (.pure ha)

theorem buildTupleType_rejects (h : TakesArgs fwd pieces b) (hb : b = false) :
    Rejects (buildTypeRef fwd) (punct text .tuple :: (angled text pieces ++ us)) := by
  rw [angled_append]
  refine .require rfl (.ifNeg rfl (.ifNeg rfl (.ifPos rfl ?_)))
  refine .expect rfl (.node fun a ha => .expectTo rfl (by simp) ?_)
  exact .missed (buildTypeArgumentList_misses h hb) fun l => .set fun a => .expect rfl

/-- A text that starts no expression is read by no expression. -/
theorem Reading.starts {x : Parser α} {Q : α → State → Prop} {E : Stop → Prop} {threshold : Nat}
    {P : Ast → Prop} (h : Reads ((forward n).expression threshold) (t :: ts) us P)
    (hx : tokenIsExpression t.klass = true → Reading x (t :: ts) Q E) :
    Reading x (t :: ts) Q E := by
  cases ht : tokenIsExpression t.klass with
  | true => exact hx ht
  | false =>
    cases n with
    | zero => exact fun s hs => (h s hs).elim
    | succ n => exact fun s hs => (h.not_rejects (.requireNot ht) hs).elim

theorem buildHeaderStackType_reads (text : TokenClass → Cstr) (us : List Tok)
    {size : Expression (is .bracketClose)}
    (h : Accepts ((forward n).expression 1) (is .bracketClose) size.toPiece) (hus : us ≠ []) :
    Reads (buildHeaderStackType (forward n)) (bracketed text size.toPiece ++ us) us
      (IsTree (.node .headerStack 0 0 [⟨.stackExpr, .ast, .ast size.tree⟩])) := by
  have hsize := h (punct text .bracketClose) us rfl
  obtain ⟨t, ts, htokens, ht⟩ := size.starts
  rw [bracketed_append]
  rw [htokens] at hsize ⊢
  refine .expectTo rfl (by simp) (.node fun a ha => .require (k := t) ht ?_)
  refine .bind hsize fun e he => .set ha he.value rfl fun a ha => ?_
  exact .expectTo rfl hus (.pure ha)

theorem buildHeaderStackType_rejects (text : TokenClass → Cstr) (us : List Tok)
    {size : Expression (is .bracketClose)}
    (h : Strays ((forward n).expression 1) (is .bracketClose) size.toPiece) :
    Rejects (buildHeaderStackType (forward n)) (bracketed text size.toPiece ++ us) := by
  have hsize := h (punct text .bracketClose) us rfl
  obtain ⟨t, ts, htokens, ht⟩ := size.starts
  rw [bracketed_append]
  rw [htokens] at hsize ⊢
  refine .expectTo rfl (by simp) (.node fun a ha => .require (k := t) ht ?_)
  exact .missed hsize fun e => .set fun a => .expect rfl

/-! ## All types -/

theorem argPieces_eq (text : TokenClass → Cstr) :
    ∀ args, argPieces text args = args.map (·.piece text)
  | [] => rfl
  | a :: args => by rw [argPieces, argPieces_eq text args, List.map_cons]

theorem argsReadable_eq : ∀ args, argsReadable args = args.all TypeArg.readable
  | [] => rfl
  | a :: args => by rw [argsReadable, argsReadable_eq args, List.all_cons]

theorem TypeRef.starts (text : TokenClass → Cstr) (r : TypeRef) :
    ∃ t ts, (r.piece text).tokens = t :: ts ∧ tokenIsTypeRef t.klass = true := by
  have hbase : ∀ k, tokenIsBaseType k = true → tokenIsTypeRef k = true := by decide
  have hname : ∀ k, tokenIsTypeName k = true → tokenIsTypeRef k = true := by decide
  cases r with
  | base klass => exact ⟨_, _, rfl, hbase _ klass.2⟩
  | sized klass size => exact ⟨_, _, rfl, hbase _ (isBase_of_isSized klass.2)⟩
  | sizedBy klass size => exact ⟨_, _, rfl, hbase _ (isBase_of_isSized klass.2)⟩
  | name n =>
    obtain ⟨t, ts, htokens, ht, -⟩ := n.starts text
    exact ⟨t, ts, htokens, hname _ ht⟩
  | specialized n args =>
    obtain ⟨t, ts, htokens, ht, -⟩ := n.starts text
    exact ⟨t, ts ++ _, by rw [TypeRef.piece, htokens]; rfl, hname _ ht⟩
  | stack n size =>
    obtain ⟨t, ts, htokens, ht, -⟩ := n.starts text
    exact ⟨t, ts ++ _, by rw [TypeRef.piece, htokens]; rfl, hname _ ht⟩
  | specializedStack n args size =>
    obtain ⟨t, ts, htokens, ht, -⟩ := n.starts text
    exact ⟨t, ts ++ _, by rw [TypeRef.piece, htokens]; rfl, hname _ ht⟩
  | tuple args => exact ⟨_, _, rfl, rfl⟩

theorem TypeArg.starts (text : TokenClass → Cstr) (r : TypeArg) :
    ∃ t ts, (r.piece text).tokens = t :: ts ∧ tokenIsTypeArg t.klass = true := by
  cases r with
  | dontcare => exact ⟨_, _, rfl, rfl⟩
  | type r =>
    obtain ⟨t, ts, htokens, ht⟩ := r.starts text
    have hall : ∀ k, tokenIsTypeRef k = true → tokenIsTypeArg k = true := by decide
    exact ⟨t, ts, htokens, hall _ ht⟩
  | name n =>
    have hall : ∀ k, tokenIsNonTypeName k = true → tokenIsTypeArg k = true := by decide
    exact ⟨_, _, rfl, hall _ n.2⟩

theorem takesArgs (text : TokenClass → Cstr) {args : List TypeArg} (hn : args.length ≤ n)
    (h : ∀ a ∈ args, Settles (buildTypeArg (forward n)) endsArg (a.piece text) a.readable) :
    TakesArgs (forward n) (argPieces text args) (argsReadable args) := by
  have hfuel : (forward n).fuel = n := by cases n <;> rfl
  rw [argPieces_eq, argsReadable_eq]
  exact takesAll (TypeArg.starts text) (hfuel.symm ▸ hn) fun a ha => (h a ha).takes

theorem ne_of_endsType {k : TokenClass} (h : endsType k = true) :
    k ≠ .angleOpen ∧ k ≠ .bracketOpen := by
  have hall : ∀ k, endsType k = true → k ≠ .angleOpen ∧ k ≠ .bracketOpen := by decide
  exact hall k h

theorem settles_of_accepts {x : Parser Ast} {follow : TokenClass → Bool} {p : Piece}
    (h : Accepts x follow p) : Settles x follow p true := ⟨fun _ => h, fun hb => by cases hb⟩

theorem base_accepted {klass : TokenClass} (h : tokenIsBaseType klass = true) :
    Accepts (buildTypeRef fwd) endsType ⟨[punct text klass], baseTree klass⟩ := fun k us hk =>
  buildTypeRef_base h (buildBaseType_cases h (fun _ _ ha => buildPlainType_reads ha (by simp))
    fun _ _ ha => buildSizedType_base ha (ne_of_endsType hk).1)

theorem sized_accepted {klass : TokenClass} {size : Tok} (h : isSized klass = true)
    (hsize : size.klass = .integer) :
    Accepts (buildTypeRef fwd) endsType
      ⟨[punct text klass, punct text .angleOpen, size, punct text .angleClose],
        sizedTree klass (integerTree size.i)⟩ := fun k us _ =>
  buildTypeRef_base (isBase_of_isSized h) (buildBaseType_cases (isBase_of_isSized h)
    (fun _ hnot _ => absurd (h.symm.trans hnot) (by decide))
    fun _ _ ha => buildSizedType_sized ha hsize)

theorem sizedBy_declined {klass : TokenClass} {size : Piece} (h : isSized klass = true) :
    Declines (buildTypeRef (forward n)) endsType
      ⟨punct text klass :: punct text .angleOpen :: punct text .parenthOpen ::
        (size.tokens ++ [punct text .parenthClose, punct text .angleClose]),
        sizedTree klass size.tree⟩ := fun k us _ =>
  buildTypeRef_base (isBase_of_isSized h) (buildBaseType_cases (isBase_of_isSized h)
    (fun _ hnot _ => absurd (h.symm.trans hnot) (by decide))
    fun _ _ ha => buildSizedType_rejects ha n)

theorem name_accepted (fwd : Forward) (text : TokenClass → Cstr) (m : TypeName) :
    Accepts (buildTypeRef fwd) endsType ⟨m.tokens text, m.tree⟩ := fun k us hk =>
  buildTypeRef_name m (by simp) fun _ ha => typeNameTail_none (ne_of_endsType hk) ha

theorem stack_settled (m : TypeName) (size : Expression (is .bracketClose))
    (h : Takes ((forward n).expression 1) (is .bracketClose) size.toPiece size.read) :
    Settles (buildTypeRef (forward n)) endsType
      ⟨m.tokens text ++ bracketed text size.toPiece, stackTree m.tree size.tree⟩ size.read := by
  refine ⟨fun hb k us _ => ?_, fun hb k us _ => ?_⟩
  all_goals
    rw [List.append_assoc]
    refine buildTypeRef_name m (by simp [bracketed]) fun a ha => ?_
  · have hstack := buildHeaderStackType_reads text (k :: us) (h.accepts hb) (by simp)
    rw [bracketed_append] at hstack ⊢
    refine .bind (.ifNeg rfl (.pure ha)) fun a ha => .ifPos rfl (.bind hstack fun b hb => ?_)
    exact .setLast hb ha.value rfl rfl
  · have hstack := buildHeaderStackType_rejects text (k :: us) (h.strays hb)
    rw [bracketed_append] at hstack ⊢
    exact .bind (.ifNeg rfl (.pure ha)) fun a ha => .ifPos rfl (.stuck hstack)

theorem specialized_settled (m : TypeName) (h : TakesArgs fwd pieces b) :
    Settles (buildTypeRef fwd) endsType
      ⟨m.tokens text ++ angled text pieces, specializedTree m.tree (pieces.map Piece.tree)⟩ b := by
  refine ⟨fun hb k us hk => ?_, fun hb k us _ => ?_⟩
  all_goals
    rw [List.append_assoc]
    refine buildTypeRef_name m (by simp [angled]) fun a ha => ?_
  · have hspecialized := buildSpecializedType_reads text (k :: us) h hb (by simp)
    rw [angled_append] at hspecialized ⊢
    refine .bind (.ifPos rfl (.bind hspecialized fun b hb => .setLast hb ha.value rfl rfl))
      fun a ha => ?_
    exact .ifNeg (beq_false_of_ne (ne_of_endsType hk).2) (.pure ha)
  · have hspecialized := buildSpecializedType_rejects text (k :: us) h hb
    rw [angled_append] at hspecialized ⊢
    exact .stuck (.ifPos rfl (.stuck hspecialized))

theorem specializedStack_settled (m : TypeName) (size : Expression (is .bracketClose))
    (h : TakesArgs (forward n) pieces b)
    (hsize : Takes ((forward n).expression 1) (is .bracketClose) size.toPiece size.read) :
    Settles (buildTypeRef (forward n)) endsType
      ⟨m.tokens text ++ (angled text pieces ++ bracketed text size.toPiece),
        stackTree (specializedTree m.tree (pieces.map Piece.tree)) size.tree⟩
      (b && size.read) := by
  -- the arguments are read in front of the bracket
  have hargs : ∀ {Q : Ast → State → Prop} {E : Stop → Prop} {k : Tok} {us : List Tok}, b = true →
      (∀ a, IsTree (specializedTree m.tree (pieces.map Piece.tree)) a →
        Reading (ifToken (is .bracketOpen)
          (do astSetattr (← buildHeaderStackType (forward n)) .name .ast (.ast a)) (pure a))
          (bracketed text size.toPiece ++ k :: us) Q E) →
      Reading (buildTypeRef (forward n))
        (m.tokens text ++ (angled text pieces ++ bracketed text size.toPiece) ++ k :: us) Q E := by
    intro Q E k us hb hstack
    have hspecialized := buildSpecializedType_reads text (bracketed text size.toPiece ++ k :: us)
      h hb (by simp)
    rw [List.append_assoc, List.append_assoc]
    refine buildTypeRef_name m (by simp [angled]) fun a ha => ?_
    rw [angled_append] at hspecialized ⊢
    exact .bind (.ifPos rfl (.bind hspecialized fun b hb => .setLast hb ha.value rfl rfl)) hstack
  refine ⟨fun hread k us hk => ?_, fun hread k us _ => ?_⟩
  · obtain ⟨hb, hread⟩ := Bool.and_eq_true_iff.mp hread
    have hstack := buildHeaderStackType_reads text (k :: us) (hsize.accepts hread) (by simp)
    refine hargs hb fun a ha => ?_
    rw [bracketed_append] at hstack ⊢
    exact .ifPos rfl (.bind hstack fun b hb => .setLast hb ha.value rfl rfl)
  cases hb : b with
  | false =>
    have hspecialized := buildSpecializedType_rejects text (bracketed text size.toPiece ++ k :: us)
      h hb
    rw [List.append_assoc, List.append_assoc]
    refine buildTypeRef_name m (by simp [angled]) fun a ha => ?_
    rw [angled_append] at hspecialized ⊢
    exact .stuck (.ifPos rfl (.stuck hspecialized))
  | true =>
    rw [hb, Bool.true_and] at hread
    have hstack := buildHeaderStackType_rejects text (k :: us) (hsize.strays hread)
    refine hargs hb fun a _ => ?_
    rw [bracketed_append] at hstack ⊢
    exact .ifPos rfl (.stuck hstack)

mutual

/-- What the parser makes of a type: it reads it unless a size in it goes wrong. -/
theorem TypeRef.settles (text : TokenClass → Cstr) : ∀ r : TypeRef, ∀ᶠ n in atTop,
    Settles (buildTypeRef (forward n)) endsType (r.piece text) r.readable
  | .base klass => .of_forall fun _ => settles_of_accepts (base_accepted klass.2)
  | .sized klass size => .of_forall fun _ => settles_of_accepts (sized_accepted klass.2 size.2)
  | .sizedBy klass size => .of_forall fun _ =>
      ⟨fun h => (nomatch h), fun _ => sizedBy_declined klass.2⟩
  | .name m => .of_forall fun _ => settles_of_accepts (name_accepted _ _ m)
  | .specialized m args => by
    filter_upwards [args_settle text args, eventually_ge_atTop args.length] with n hargs hn
    exact specialized_settled m (takesArgs _ hn hargs)
  | .stack m size => by
    filter_upwards [size.taken] with n hsize
    exact stack_settled m size hsize
  | .specializedStack m args size => by
    filter_upwards [args_settle text args, eventually_ge_atTop args.length, size.taken] with
      n hargs hn hsize
    exact specializedStack_settled m size (takesArgs _ hn hargs) hsize
  | .tuple args => by
    filter_upwards [args_settle text args, eventually_ge_atTop args.length] with n hargs hn
    have h := takesArgs text hn hargs
    exact ⟨fun hb k us _ => buildTupleType_reads h hb (by simp),
      fun hb k us _ => buildTupleType_rejects h hb⟩

theorem TypeArg.settles (text : TokenClass → Cstr) : ∀ r : TypeArg, ∀ᶠ n in atTop,
    Settles (buildTypeArg (forward n)) endsArg (r.piece text) r.readable
  | .dontcare => .of_forall fun _ => settles_of_accepts fun k us _ =>
    .require rfl (.ifPos rfl (.node fun _ ha => .next (.pure ha)))
  | .name m => .of_forall fun _ => settles_of_accepts fun k us _ => by
    have hall : ∀ k, tokenIsNonTypeName k = true → tokenIsTypeArg k = true ∧
        is .dontcare k = false ∧ tokenIsTypeRef k = false := by decide
    obtain ⟨harg, hdontcare, href⟩ := hall _ m.2
    exact .require harg (.ifNeg hdontcare (.ifNeg href (.ifPos m.2 (buildNonTypeName_reads m.2))))
  | .type r => by
    have hr := (eventually_succ (p := fun n =>
      Settles (forward n).typeRef endsType (r.piece text) r.readable)).mp (r.settles text)
    filter_upwards [hr] with n hn
    obtain ⟨t, ts, htokens, ht⟩ := r.starts text
    have hall : ∀ k, tokenIsTypeRef k = true → tokenIsTypeArg k = true ∧
        is .dontcare k = false := by
      decide
    have hends : ∀ k, endsArg k = true → endsType k = true := by decide
    obtain ⟨harg, hdontcare⟩ := hall _ ht
    refine ⟨fun hb k us hk => ?_, fun hb k us hk => ?_⟩
    · have h := hn.accepts hb k us (hends _ hk)
      rw [TypeArg.piece]
      rw [htokens] at h ⊢
      exact .require harg (.ifNeg hdontcare (.ifPos ht h))
    · have h := hn.declines hb k us (hends _ hk)
      rw [TypeArg.piece]
      rw [htokens] at h ⊢
      exact .require harg (.ifNeg hdontcare (.ifPos ht h))

theorem args_settle (text : TokenClass → Cstr) : ∀ args : List TypeArg, ∀ᶠ n in atTop,
    ∀ a ∈ args, Settles (buildTypeArg (forward n)) endsArg (a.piece text) a.readable
  | [] => .of_forall fun _ _ h => nomatch h
  | a :: args => by
    filter_upwards [a.settles text, args_settle text args] with n ha hargs
    exact List.forall_mem_cons.mpr ⟨ha, hargs⟩

end

/-- **A type in front of a name** is read, all of it, with its tree, exactly if no base type in
it has a size in parentheses and `build_expression` reads the sizes of its stacks. -/
theorem typeRef_read_iff (text : TokenClass → Cstr) (r : TypeRef) {name : Tok} (us : List Tok)
    {s : State} (hname : tokenIsName name.klass = true)
    (hs : Sees s ((r.piece text).tokens ++ name :: us)) :
    Returns (fun n => buildTypeRef (forward n)) s (name :: us) (IsTree (r.piece text).tree) ↔
      r.readable = true := by
  have hends : ∀ k, tokenIsName k = true → endsType k = true := by decide
  exact settles_returns_iff (r.settles text) (hends _ hname) hs

/-- The name of a declared type. -/
def someTypeName : TypeName := ⟨false, { klass := .typeIdentifier }, rfl⟩

/-- `t<bit<8>, tuple<t[n]>, _> x;` -/
def plainType : TypeRef :=
  .specialized someTypeName
    [.type (.sized ⟨.bit, rfl⟩ ⟨{ klass := .integer, i := { value := 8 } }, rfl⟩),
      .type (.tuple [.type (.stack someTypeName
        (.atom ⟨{ klass := .identifier }, isAtom_identifier⟩ _ noOperator_bracketClose))]),
      .dontcare]

theorem typeRef_read_one : Returns (fun n => buildTypeRef (forward n))
    (stateAt ((plainType.piece noText).tokens ++
      [{ klass := .identifier }, punct noText .semicolon]))
    [{ klass := .identifier }, punct noText .semicolon] (IsTree (plainType.piece noText).tree) :=
  (typeRef_read_iff noText plainType [punct noText .semicolon] rfl
    (sees_stateAt (by decide))).mpr rfl

/-- `bit<(8)> x;` -/
def parenthesizedType : TypeRef :=
  .sizedBy ⟨.bit, rfl⟩ ⟨[{ klass := .integer, i := { value := 8 } }], integerTree { value := 8 }⟩

theorem typeRef_read_fails : ¬ Returns (fun n => buildTypeRef (forward n))
    (stateAt ((parenthesizedType.piece noText).tokens ++
      [{ klass := .identifier }, punct noText .semicolon]))
    [{ klass := .identifier }, punct noText .semicolon]
    (IsTree (parenthesizedType.piece noText).tree) :=
  not_returns (.of_forall fun _ => sizedBy_declined rfl _ [punct noText .semicolon] rfl)
    (sees_stateAt (by decide))

end Dp4c.Parse
