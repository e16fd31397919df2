import Dp4c.Parse.Chains

/-! # Expressions in parentheses

Behind an opening parenthesis a token that can start a type is taken for the start of a
cast. An expression with such a first token is therefore not read in parentheses; every
other one is, and comes out as it does without them. -/
namespace Dp4c.Parse

open Dp4c.Lib Dp4c.Lib.Prog Filter

variable {text : TokenClass → Cstr} {n fuel threshold : Nat} {fwd : Forward} {ts us : List Tok}
  {tree a b : Ast} {s t u : State} {k : Tok}

/-! ## The type behind the parenthesis -/

/-- The loop over operators does nothing at a closing parenthesis. -/
theorem operatorLoop_close (hs : s.token.klass = .parenthClose)
    (h : operatorLoop fwd threshold fuel a s = .ok (b, t)) : t = s := by
  cases fuel with
  | zero => cases h
  | succ fuel =>
    unfold operatorLoop at h
    rw [ifToken_neg (by rw [hs]; rfl)] at h
    exact (congrArg Prod.snd (Except.ok.inj h)).symm

/-- What a state after the type behind a parenthesis can be: the parenthesis is not closed
there, or it is the one behind the whole expression. -/
def Closes (us : List Tok) (t : State) : Prop :=
  t.token.klass ≠ .parenthClose ∨ Sees t us

theorem closes_of_loop (h : operatorLoop fwd threshold fuel a s = .ok (b, t)) (ht : Sees t us) :
    Closes us s := by
  by_cases hs : s.token.klass = .parenthClose
  · exact .inr (operatorLoop_close hs h ▸ ht)
  · exact .inl hs

/-- The value of an attribute does not decide whether it can be set. -/
theorem astSetattr_value {attr : AttrName} {type : AstAttributeType} {v : Value Ast}
    (v' : Value Ast)
    (h : astSetattr a attr type v s = .ok (b, t)) :
    s = t ∧ ∃ b', astSetattr a attr type v' s = .ok (b', t) := by
  unfold astSetattr at h ⊢
  cases a with
  | null => cases h
  | node kind id lineNr attrs =>
    by_cases hroom : attrs.length < astAttrtableCapacity ∨ attr ∈ attrs.map (·.name)
    · simp only [if_pos hroom] at h ⊢
      obtain rfl := congrArg Prod.snd (Except.ok.inj h)
      exact ⟨rfl, _, rfl⟩
    · simp only [if_neg hroom] at h
      cases h

/-- Behind the name of a type, the same is read whatever the name is. -/
theorem typeNameTail_state {x : Parser Ast} {name : Ast} (name' : Ast) {c : TokenClass → Bool}
    (h : ifToken c (do astSetattr (← x) .name .ast (.ast name)) (pure name) s = .ok (b, t)) :
    ∃ b', ifToken c (do astSetattr (← x) .name .ast (.ast name')) (pure name') s = .ok (b', t) := by
  cases hc : c s.token.klass with
  | true =>
    rw [ifToken_pos hc] at h ⊢
    obtain ⟨d, u, hx, hset⟩ := bind_ok h
    obtain ⟨rfl, b', hb'⟩ := astSetattr_value (.ast name') hset
    exact ⟨b', (bind_of_ok hx _).trans hb'⟩
  | false =>
    rw [ifToken_neg hc] at h ⊢
    obtain rfl := congrArg Prod.snd (Except.ok.inj h)
    exact ⟨name', rfl⟩

theorem require_pos {α : Type} {c : TokenClass → Bool} {what : String} {f : Unit → Parser α}
    (h : c s.token.klass = true) : (require c what >>= f) s = f () s :=
  bind_of_ok (ifToken_pos h) f

theorem require_neg {α : Type} {c : TokenClass → Bool} (what : String) {f : Unit → Parser α}
    (h : c s.token.klass = false) : ∃ e, (require c what >>= f) s = .error e :=
  ⟨_, bind_of_error (ifToken_neg h) f⟩

/-- Behind the dot, the name of a type is read the same way with and without the dot. -/
theorem buildPrefixedType_state (hs : s.token.klass = .dotPrefix)
    (hnext : nextToken s = .ok ((), t))
    (ht : t.token.klass = .typeIdentifier) (h : buildPrefixedType t = .ok (a, u)) :
    ∃ b, buildPrefixedType s = .ok (b, u) := by
  have hdot : buildDotPrefix s = .ok (true, t) := by
    unfold buildDotPrefix
    rw [ifToken_pos (by rw [hs]; rfl), bind_of_ok hnext]
    rfl
  have hnone : buildDotPrefix t = .ok (false, t) := by
    unfold buildDotPrefix
    rw [ifToken_neg (by rw [ht]; rfl)]
    rfl
  unfold buildPrefixedType at h ⊢
  rw [bind_of_ok hnone] at h
  rw [bind_of_ok hdot]
  rw [require_pos (by rw [ht]; rfl)] at h ⊢
  obtain ⟨token, v, hreads, h⟩ := bind_ok h
  obtain ⟨node, v', hnode, h⟩ := bind_ok h
  obtain ⟨name, v'', hname, h⟩ := bind_ok h
  obtain ⟨name', v₃, hset, h⟩ := bind_ok h
  obtain ⟨rfl, b, hb⟩ := astSetattr_value (.bool true) hset
  obtain ⟨_, v₄, hnext', h⟩ := bind_ok h
  obtain rfl := congrArg Prod.snd (Except.ok.inj h)
  refine ⟨b, ?_⟩
  rw [bind_of_ok hreads, bind_of_ok hnode, bind_of_ok hname, bind_of_ok hb, bind_of_ok hnext']
  rfl

theorem buildTypeName_state (hs : s.token.klass = .dotPrefix) (hnext : nextToken s = .ok ((), t))
    (ht : t.token.klass = .typeIdentifier) (h : buildTypeName fwd t = .ok (a, u)) :
    ∃ b, buildTypeName fwd s = .ok (b, u) := by
  unfold buildTypeName at h ⊢
  rw [require_pos (by rw [ht]; rfl)] at h
  rw [require_pos (by rw [hs]; rfl)]
  obtain ⟨name, v, hname, h⟩ := bind_ok h
  obtain ⟨specialized, v', hspecialized, h⟩ := bind_ok h
  obtain ⟨name', hname'⟩ := buildPrefixedType_state hs hnext ht hname
  obtain ⟨specialized', hspecialized'⟩ := typeNameTail_state name' hspecialized
  obtain ⟨b, hb⟩ := typeNameTail_state specialized' h
  exact ⟨b, by rw [bind_of_ok hname', bind_of_ok hspecialized', hb]⟩

/-- Where a whole expression is read, reading a type instead leads to no closing parenthesis
but that behind the expression. -/
theorem buildTypeRef_closes (hs : Sees s (k :: ts)) (hts : ts ≠ [])
    (hk : tokenIsTypeRef k.klass = true)
    (hread : buildExpression fwd 1 s = .ok (a, t)) (ht : Sees t us) :
    wp (buildTypeRef fwd) s (fun _ u => Closes us u) fun _ => True := by
  have hklass := hs.klass
  cases hexpr : tokenIsExpression k.klass with
  | false =>
    obtain ⟨e, he⟩ := require_neg "an expression was expected"
      (f := fun _ => do operatorLoop fwd 1 fwd.fuel (← buildExpressionPrimary fwd)) (hklass ▸ hexpr)
    rw [show buildExpression fwd 1 s = _ from he] at hread
    cases hread
  | true =>
  unfold buildExpression at hread
  rw [require_pos (hklass ▸ hexpr)] at hread
  obtain ⟨primary, v, hprimary, hloop⟩ := bind_ok hread
  have hcloses := closes_of_loop hloop ht
  have hcases : ∀ k, tokenIsTypeRef k = true → tokenIsExpression k = true →
      k = .typeIdentifier ∨ k = .dotPrefix ∨ k = .error := by decide
  have hnames : ∀ k, k = .typeIdentifier ∨ k = .dotPrefix → s.token.klass = k →
      buildTypeRef fwd s = buildTypeName fwd s := by
    intro k hk hsk
    unfold buildTypeRef
    rcases hk with rfl | rfl <;>
      rw [require_pos (by rw [hsk]; rfl), ifToken_neg (by rw [hsk]; rfl),
        ifToken_pos (by rw [hsk]; rfl)]
  rcases hcases _ hk hexpr with hk | hk | hk
  · -- the name of a type is read by the same function
    rw [hk] at hklass
    unfold buildExpressionPrimary at hprimary
    rw [require_pos (by rw [hklass]; rfl)] at hprimary
    repeat rw [ifToken_neg (by rw [hklass]; rfl)] at hprimary
    rw [ifToken_pos (by rw [hklass]; rfl)] at hprimary
    exact wp_of_ok ((hnames _ (.inl rfl) hklass).trans hprimary) hcloses
  · rw [hk] at hklass
    unfold buildExpressionPrimary at hprimary
    rw [require_pos (by rw [hklass]; rfl)] at hprimary
    repeat rw [ifToken_neg (by rw [hklass]; rfl)] at hprimary
    rw [ifToken_pos (by rw [hklass]; rfl)] at hprimary
    unfold buildDottedName at hprimary
    obtain ⟨_, w, hnext, hname⟩ := bind_ok hprimary
    by_cases hw : w.token.klass = .typeIdentifier
    · rw [ifToken_neg (by rw [hw]; rfl), ifToken_pos (by rw [hw]; rfl)] at hname
      obtain ⟨name, v', htype, hset⟩ := bind_ok hname
      obtain ⟨rfl, -⟩ := astSetattr_value .nullList hset
      obtain ⟨b, hb⟩ := buildTypeName_state hklass hnext hw htype
      exact wp_of_ok ((hnames _ (.inr rfl) hklass).trans hb) hcloses
    · -- no type follows the dot
      have hdot : buildDotPrefix s = .ok (true, w) := by
        unfold buildDotPrefix
        rw [ifToken_pos (by rw [hklass]; rfl), bind_of_ok hnext]
        rfl
      have herror : ∃ e, buildPrefixedType s = .error e := by
        unfold buildPrefixedType
        rw [bind_of_ok hdot]
        exact require_neg _ (beq_false_of_ne hw)
      obtain ⟨e, he⟩ := herror
      refine wp_of_error (e := e) ?_ trivial
      rw [hnames _ (.inr rfl) hklass]
      unfold buildTypeName
      rw [require_pos (by rw [hklass]; rfl)]
      exact bind_of_error he _
  · obtain ⟨k', ts', rfl⟩ := List.exists_cons_of_ne_nil hts
    -- the name `error` and the type `error` are one token
    have hname : Reads buildErrorName (k :: k' :: ts') (k' :: ts') fun _ => True :=
      .note (.next (.node fun a ha => .token fun token _ =>
        (astSetattr_reads ha rfl rfl).imp fun _ _ => trivial))
    have htype : Reads (buildTypeRef fwd) (k :: k' :: ts') (k' :: ts') fun _ => True := by
      refine buildTypeRef_base (by rw [hk]; rfl) (buildBaseType_cases (by rw [hk]; rfl) ?_ ?_)
      · exact fun _ _ ha => (buildPlainType_reads ha (by simp)).imp fun _ _ => trivial
      · exact fun _ hsized _ => absurd hsized (by rw [hk]; decide)
    rw [hk] at hklass
    unfold buildExpressionPrimary at hprimary
    rw [require_pos (by rw [hklass]; rfl)] at hprimary
    repeat rw [ifToken_neg (by rw [hklass]; rfl)] at hprimary
    rw [ifToken_pos (by rw [hklass]; rfl)] at hprimary
    have hv : Sees v (k' :: ts') := (wp_ok (hname s hs) hprimary).1
    refine wp_mono (htype s hs) (fun _ w hw => ?_) fun _ he => he.elim
    rcases hcloses with hne | hsees
    · exact .inl (by rw [hw.1.klass, ← hv.klass]; exact hne)
    · exact .inr (hsees.ahead ▸ hv.ahead.symm ▸ hw.1)

/-! ## Expressions in parentheses -/

/-- The text is an expression with this tree, up to a closing parenthesis. -/
def IsExpression (text : TokenClass → Cstr) (e : Piece) : Prop :=
  ∀ᶠ n in atTop, ∀ us, Reads (buildExpression (forward n) 1)
    (e.tokens ++ punct text .parenthClose :: us) (punct text .parenthClose :: us) (IsTree e.tree)

theorem semicolon_rejects (n : Nat) (us : List Tok) :
    Rejects ((forward n).expression 1) (punct text .semicolon :: us) := by
  cases n with
  | zero => exact fun _ _ => trivial
  | succ n => exact .requireNot rfl

/-- Where the expression starts like a type, it is read as a cast and fails. -/
theorem parenthesized_rejects {e : Piece} (hts : e.tokens = k :: ts)
    (hk : tokenIsTypeRef k.klass = true)
    (hread : Reads (buildExpression (forward n) 1)
      (e.tokens ++ punct text .parenthClose :: punct text .semicolon :: us)
      (punct text .parenthClose :: punct text .semicolon :: us) (IsTree e.tree)) :
    Rejects (buildExpression (forward n) 1)
      (parens text e.tokens ++ punct text .semicolon :: us) := by
  rw [parens_append, hts]
  rw [hts] at hread
  refine .require rfl (.stuck (buildExpressionPrimary_parenthesis (.nextTo (by simp) ?_)))
  refine .ifPos hk (.node fun cast hcast => fun s hs => ?_)
  obtain ⟨a, t, ha, ht, -⟩ := wp_returns (hread s hs)
  rw [wp_bind]
  refine wp_mono (buildTypeRef_closes hs (by simp) hk ha ht) (fun type u hu => ?_) fun _ he => he
  rw [wp_bind]
  refine wp_mono (astSetattr_keeps u) (fun b v hv => ?_) fun _ he => he
  subst hv
  rcases hu with hne | hsees
  · rw [wp_bind]
    exact wp_of_error (expect_other hne) trivial
  · exact Reading.expect (E := fun _ => True) rfl (.stuck (semicolon_rejects n us)) v hsees

theorem parenthesized_reads {e : Piece} (hn : 0 < n)
    (hstart : ∀ t ∈ e.tokens.head?, tokenIsTypeRef t.klass = false)
    (hread : Reads ((forward n).expression 1)
      (e.tokens ++ punct text .parenthClose :: punct text .semicolon :: us)
      (punct text .parenthClose :: punct text .semicolon :: us) (IsTree e.tree)) :
    Reads (buildExpression (forward n) 1)
      (parens text e.tokens ++ punct text .semicolon :: us) (punct text .semicolon :: us)
      (IsTree e.tree) := by
  have hprimary : Reads (buildParenthesized (forward n)) (punct text .parenthOpen ::
      (e.tokens ++ punct text .parenthClose :: punct text .semicolon :: us))
      (punct text .semicolon :: us) (IsTree e.tree) := by
    refine .nextTo (by simp) ?_
    cases htokens : e.tokens with
    | nil =>
      rw [htokens] at hread
      exact .starts hread fun h => nomatch h
    | cons t ts =>
      rw [htokens] at hread hstart
      refine .ifNeg (hstart t rfl) (.starts hread fun ht => .ifPos ht ?_)
      exact .bind hread fun a ha => .expect rfl (.pure ha)
  have hfuel : (forward n).fuel = n - 1 + 1 := by
    have : (forward n).fuel = n := by cases n <;> rfl
    omega
  rw [parens_append]
  refine .require rfl (.bind (buildExpressionPrimary_parenthesis hprimary) fun a ha => ?_)
  rw [hfuel]
  exact operatorLoop_stop ha (stops_of_not rfl)

/-- **An expression in parentheses** is the same expression, unless its first token can start a
type. -/
theorem parenthesized_iff (text : TokenClass → Cstr) (e : Piece) (us : List Tok) {s : State}
    (he : IsExpression text e)
    (hs : Sees s (parens text e.tokens ++ punct text .semicolon :: us)) :
    Returns (fun n => buildExpression (forward n) 1) s (punct text .semicolon :: us)
      (IsTree e.tree) ↔ ∀ t ∈ e.tokens.head?, tokenIsTypeRef t.klass = false := by
  constructor
  · intro hreturns t ht
    by_contra htype
    obtain ⟨ts, hts⟩ : ∃ ts, e.tokens = t :: ts := by
      cases htokens : e.tokens with
      | nil => rw [htokens] at ht; cases ht
      | cons t' ts =>
        rw [htokens] at ht
        obtain rfl := Option.some.inj ht
        exact ⟨ts, rfl⟩
    refine not_returns (he.mono fun n hn => ?_) hs hreturns
    exact parenthesized_rejects hts (by simpa using htype) (hn _)
  · intro hstart
    have hexpression := (eventually_succ (p := fun n => ∀ us, Reads ((forward n).expression 1)
      (e.tokens ++ punct text .parenthClose :: us) (punct text .parenthClose :: us)
      (IsTree e.tree))).mp he
    refine .of_reads ?_ hs
    filter_upwards [hexpression, eventually_gt_atTop 0] with n hn hpos
    exact parenthesized_reads hpos hstart (hn _)

/-- `(a);` -/
theorem parenthesized_one : Returns (fun n => buildExpression (forward n) 1)
    (stateAt (parens noText [{ klass := .identifier }] ++ [punct noText .semicolon]))
    [punct noText .semicolon] (IsTree (atomTree { klass := .identifier })) :=
  (parenthesized_iff noText ⟨[{ klass := .identifier }], atomTree { klass := .identifier }⟩ []
    ((expression_parsed noText (.atom ⟨{ klass := .identifier }, rfl⟩)).mono fun n hn us =>
      hn.reads _ (n := n + 1) rfl rfl)
    (sees_stateAt (by decide))).mpr fun t ht => by
      obtain rfl := Option.some.inj ht
      rfl

/-- `t.a`, an expression that starts with the name of a type. -/
def typeMember : Piece :=
  ⟨[{ klass := .typeIdentifier }, punct noText .dotPrefix, { klass := .identifier }],
    memberTree (someTypeName.tree)
      (nameTree ({ klass := .identifier } : Tok).lexeme)⟩

theorem typeMember_isExpression : IsExpression noText typeMember := by
  filter_upwards [eventually_gt_atTop 1] with n hn us
  have hname : Leads n 0 1 [{ klass := .typeIdentifier }]
      (someTypeName.tree)
      (punct noText .dotPrefix :: { klass := .identifier } :: punct
      noText .parenthClose :: us) := by
    refine fun fuel Q E hf => .bind ?_ hf
    refine .require rfl (.ifNeg rfl (.ifNeg rfl (.ifNeg rfl (.ifNeg rfl (.ifNeg rfl ?_)))))
    refine .ifNeg rfl (.ifNeg rfl (.ifNeg rfl
      (.ifNeg rfl (.ifNeg rfl (.ifNeg rfl (.ifPos rfl ?_))))))
    exact buildTypeName_reads noText someTypeName (by simp)
      fun a ha => typeNameTail_none ⟨by decide, by decide⟩ ha
  exact (hname.member rfl (by simp)).expression _ hn ⟨_, _, rfl, rfl⟩ (stops_of_not rfl)

/-- `(t.a);` -/
theorem parenthesized_fails : IsExpression noText typeMember ∧
    ¬ Returns (fun n => buildExpression (forward n) 1)
      (stateAt (parens noText typeMember.tokens ++ [punct noText .semicolon]))
      [punct noText .semicolon] (IsTree typeMember.tree) :=
  ⟨typeMember_isExpression, not_returns (typeMember_isExpression.mono fun _ hn =>
    parenthesized_rejects rfl rfl (hn _)) (sees_stateAt (by decide))⟩

/-- `(t.a)` as a piece of a larger text: no parenthesis closes the type. -/
def parenthesizedMember (follow : TokenClass → Bool) : Expression follow where
  tokens := parens noText typeMember.tokens
  tree := typeMember.tree
  read := false
  starts := ⟨_, _, rfl, rfl⟩
  taken := by
    refine eventually_succ.mp (.of_forall fun n => ⟨fun hb => (nomatch hb), fun _ k us _ => ?_⟩)
    have htype := name_accepted (forward n) noText someTypeName (punct noText .dotPrefix)
      ({ klass := .identifier } :: punct noText .parenthClose :: k :: us) rfl
    refine Reading.misses (.require rfl (.stuck (buildExpressionPrimary_parenthesis ?_)))
    refine .nextTo (by simp [typeMember]) (.ifPos rfl (.node fun a ha => ?_))
    refine .bind htype fun c hc => .set ha hc.value rfl fun a ha => ?_
    exact .stuck (.ifNeg rfl .error)

end Dp4c.Parse
