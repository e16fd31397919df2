import Dp4c.Parse.StatementReads
import Dp4c.Parse.Program

/-! # Reading function declarations

The type parameters of a function become names of types where they are read: what follows
is seen with other classes. -/
namespace Dp4c.Parse

open Dp4c.Lib Dp4c.Lib.Prog Filter

variable {text : TokenClass → Cstr} {n fuel : Nat} {fwd : Forward} {ts us : List Tok} {a : Ast}
  {s : State} {t k : Tok} {memory : Memory} {names : List Tok}

/-! ## Type parameters -/

/-- The token once these names were read as names of types; what is one already is not
declared again. -/
def retypeAll (names : List Tok) (t : Tok) : Tok :=
  if t.klass = .identifier ∧ ∃ name ∈ names, name.klass ≠ .typeIdentifier ∧
    name.lexeme = t.lexeme then
    { t with klass := .typeIdentifier }
  else t

theorem retypeAll_lexeme (names : List Tok) (t : Tok) : (retypeAll names t).lexeme = t.lexeme := by
  unfold retypeAll
  split <;> rfl

theorem retypeAll_other (names : List Tok) (h : t.klass ≠ .identifier) : retypeAll names t = t :=
  if_neg fun h' => h h'.1

theorem retypeAll_name (names : List Tok) (h : tokenIsName t.klass = true) :
    tokenIsName (retypeAll names t).klass = true := by
  unfold retypeAll
  split
  · rfl
  · exact h

theorem retypeAll_nil (t : Tok) : retypeAll [] t = t :=
  if_neg fun h => by
    obtain ⟨-, _, hmem, -⟩ := h
    cases hmem

/-- A name that is no type yet. -/
theorem retypeAll_new (ht : t.klass ≠ .typeIdentifier) : retypeAll [t] = retype t.lexeme := by
  funext tok
  unfold retypeAll retype
  refine if_congr (and_congr_right fun _ => ⟨fun h => ?_, fun h => ?_⟩) rfl rfl
  · obtain ⟨name, hmem, -, hlexeme⟩ := h
    rw [← hlexeme, List.mem_singleton.mp hmem]
  · exact ⟨t, List.mem_singleton_self t, ht, h.symm⟩

/-- A name that is one already. -/
theorem retypeAll_old (ht : t.klass = .typeIdentifier) (tok : Tok) : retypeAll [t] tok = tok := by
  refine if_neg fun h => ?_
  obtain ⟨-, _, hmem, hne, -⟩ := h
  exact hne (List.mem_singleton.mp hmem ▸ ht)

/-- One name after the other. -/
theorem retypeAll_cons (t : Tok) (names : List Tok) (tok : Tok) :
    retypeAll (names.map (retypeAll [t])) (retypeAll [t] tok) = retypeAll (t :: names) tok := by
  by_cases hid : tok.klass = .identifier
  swap
  · rw [retypeAll_other _ hid, retypeAll_other _ hid, retypeAll_other _ hid]
  by_cases ht : t.klass ≠ .typeIdentifier ∧ t.lexeme = tok.lexeme
  · have hone : retypeAll [t] tok = { tok with klass := .typeIdentifier } :=
      if_pos ⟨hid, t, List.mem_singleton_self t, ht⟩
    rw [hone, retypeAll_other _ (show TokenClass.typeIdentifier ≠ .identifier by decide)]
    exact (if_pos ⟨hid, t, List.mem_cons_self, ht⟩).symm
  · have hone : ∀ name : Tok, name.lexeme = tok.lexeme → retypeAll [t] name = name :=
        fun name hname =>
      if_neg fun h => by
        obtain ⟨-, _, hmem, h⟩ := h
        exact ht (hname ▸ List.mem_singleton.mp hmem ▸ h)
    rw [hone tok rfl]
    refine if_congr (and_congr_right fun _ => ⟨fun h => ?_, fun h => ?_⟩) rfl rfl
    · obtain ⟨_, hmem, hclass, hlexeme⟩ := h
      obtain ⟨name, hname, rfl⟩ := List.mem_map.mp hmem
      rw [retypeAll_lexeme] at hlexeme
      rw [hone name hlexeme] at hclass
      exact ⟨name, List.mem_cons_of_mem _ hname, hclass, hlexeme⟩
    · obtain ⟨name, hmem, hclass, hlexeme⟩ := h
      rcases List.mem_cons.mp hmem with rfl | hname
      · exact absurd ⟨hclass, hlexeme⟩ ht
      · exact ⟨name, List.mem_map.mpr ⟨name, hname, hone name hlexeme⟩, hclass, hlexeme⟩

/-- A name of a type parameter is read and declared. -/
theorem buildName_new (ht : tokenIsName t.klass = true) :
    Reads (buildName true) (t :: k :: us) ((k :: us).map (retypeAll [t]))
      (IsTree (nameTree t.lexeme)) := by
  refine .require ht ?_
  cases hn : tokenIsNonTypeName t.klass with
  | true =>
    have hnot : ∀ k, tokenIsNonTypeName k = true → k ≠ .typeIdentifier := by decide
    rw [retypeAll_new (hnot _ hn)]
    refine .ifPos hn (.require hn (.token fun token htok => .node fun a ha => ?_))
    refine .set ha (lexeme_value htok) rfl fun a ha => ?_
    have hregister : Reads (registerType true token.lexeme a) (t :: k :: us)
        (t :: (k :: us).map (retype t.lexeme)) fun _ => True := fun s hs => by
      obtain ⟨u, hu, hsees⟩ := hs.newType token.lexeme a
      have hlexeme : token.lexeme = t.lexeme := congrArg Tok.lexeme htok
      exact wp_of_ok hu ⟨hlexeme ▸ hsees, trivial⟩
    exact .bind hregister fun _ _ => .next (.pure ha)
  | false =>
    have htype : ∀ k, tokenIsName k = true → tokenIsNonTypeName k = false →
        k = .typeIdentifier := by decide
    have hclass := htype _ ht hn
    rw [List.map_congr_left fun tok _ => retypeAll_old hclass tok, List.map_id']
    refine .ifNeg hn (.ifPos (beq_iff_eq.mpr hclass)
      (.token fun token htok => .node fun a ha => ?_))
    exact .set ha (lexeme_value htok) rfl fun a ha => .next (.pure ha)

theorem buildName_newTo {ts : List Tok} (ht : tokenIsName t.klass = true) (hne : ts ≠ []) :
    Reads (buildName true) (t :: ts) (ts.map (retypeAll [t])) (IsTree (nameTree t.lexeme)) := by
  obtain ⟨k, us, rfl⟩ := List.exists_cons_of_ne_nil hne
  exact buildName_new ht

def namePiece (t : Tok) : Piece := ⟨[t], nameTree t.lexeme⟩

theorem map_punct {klass : TokenClass} (h : klass ≠ .identifier) :
    retypeAll names (punct text klass) = punct text klass := retypeAll_other names h

/-- Names behind commas after a declaration. -/
theorem commaTail_retype (t : Tok) (names rest : List Tok) :
    (commaTail text (names.map namePiece) ++ punct text .angleClose :: rest).map (retypeAll [t]) =
      commaTail text ((names.map (retypeAll [t])).map namePiece) ++
        punct text .angleClose :: rest.map (retypeAll [t]) := by
  have hcomma : retypeAll [t] (punct text .comma) = punct text .comma := map_punct (by decide)
  have hclose : retypeAll [t] (punct text .angleClose) = punct text .angleClose :=
      map_punct (by decide)
  have htail : (commaTail text (names.map namePiece)).map (retypeAll [t]) =
      commaTail text ((names.map (retypeAll [t])).map namePiece) := by
    induction names with
    | nil => rfl
    | cons name names ih =>
      simp only [commaTail, namePiece, List.map_cons, List.flatMap_cons,
        List.map_append, List.map_nil,
        hcomma] at ih ⊢
      rw [ih]
  rw [List.map_append, List.map_cons, htail, hclose]

theorem retypeAll_names {t : Tok} (h : ∀ name ∈ names, tokenIsName name.klass = true) :
    ∀ name ∈ names.map (retypeAll [t]), tokenIsName name.klass = true := fun name hmem => by
  obtain ⟨name', hname', rfl⟩ := List.mem_map.mp hmem
  exact retypeAll_name [t] (h name' hname')

theorem nameTrees_retype (t : Tok) (names : List Tok) :
    (names.map (retypeAll [t])).map (fun name => nameTree name.lexeme) =
      names.map fun name => nameTree name.lexeme := by
  rw [List.map_map]
  exact List.map_congr_left fun name _ => congrArg nameTree (retypeAll_lexeme [t] name)

theorem rest_retype (t : Tok) (names rest : List Tok) :
    (rest.map (retypeAll [t])).map (retypeAll (names.map (retypeAll [t]))) =
      rest.map (retypeAll (t :: names)) := by
  rw [List.map_map]
  exact List.map_congr_left fun tok _ => retypeAll_cons t names tok

theorem typeParamLoop_reads : ∀ {names : List Tok} {fuel : Nat} {list : AstList} {trees : List Ast}
    {rest : List Tok}, names.length < fuel → (∀ t ∈ names, tokenIsName t.klass = true) →
    Collects trees list →
    Reads (commaLoop (buildName true) fuel list)
      (commaTail text (names.map namePiece) ++ punct text .angleClose :: rest)
      (punct text .angleClose :: rest.map (retypeAll names))
      (Collects (trees ++ names.map fun t => nameTree t.lexeme))
  | _, 0, _, _, _, hfuel, _, _ => absurd hfuel (Nat.not_lt_zero _)
  | [], fuel + 1, list, trees, rest, _, _, hl => by
    rw [List.map_congr_left fun tok _ => retypeAll_nil tok, List.map_id',
      List.map_nil, List.map_nil,
      List.append_nil]
    unfold commaLoop
    exact .ifNeg rfl (.pure hl)
  | t :: names, fuel + 1, list, trees, rest, hfuel, hnames, hl => by
    have hrest : ∀ list, Collects (trees ++ [nameTree t.lexeme]) list →
        Reads (commaLoop (buildName true) fuel list)
          (commaTail text ((names.map (retypeAll [t])).map namePiece) ++
            punct text .angleClose :: rest.map (retypeAll [t]))
          (punct text .angleClose ::
            (rest.map (retypeAll [t])).map (retypeAll (names.map (retypeAll [t]))))
          (Collects ((trees ++ [nameTree t.lexeme]) ++
            (names.map (retypeAll [t])).map fun name => nameTree name.lexeme)) := fun list hl =>
      typeParamLoop_reads (by simpa using hfuel)
        (retypeAll_names fun name hmem => hnames name (List.mem_cons_of_mem _ hmem)) hl
    have hname := buildName_newTo (hnames t List.mem_cons_self)
      (show commaTail text (names.map namePiece) ++ punct text .angleClose :: rest ≠ [] by simp)
    have htext : commaTail text ((t :: names).map namePiece) ++ punct text .angleClose :: rest =
        punct text .comma :: t :: (commaTail text (names.map namePiece) ++
          punct text .angleClose :: rest) := by simp [commaTail, namePiece]
    rw [commaTail_retype] at hname
    unfold commaLoop
    rw [htext, ← rest_retype, List.map_cons, ← nameTrees_retype t names]
    rw [List.append_cons trees]
    refine .ifPos rfl (.next (.bind hname fun a ha => .append hl ha fun list hl => hrest list hl))

/-- `<optTypeParameters>`. -/
def typeParamTokens (text : TokenClass → Cstr) : List Tok → List Tok
  | [] => []
  | names => angled text (names.map namePiece)

theorem typeParamList_reads (text : TokenClass → Cstr) (rest : List Tok)
    (hfuel : names.length ≤ fuel) (hne : names ≠ [])
    (hnames : ∀ t ∈ names, tokenIsName t.klass = true) :
    Reads (buildTypeParameterList fuel)
      (commaTokens text (names.map namePiece) ++ punct text .angleClose :: rest)
      (punct text .angleClose :: rest.map (retypeAll names))
      (IsOptList (names.map fun t => nameTree t.lexeme)) := by
  obtain ⟨t, names, rfl⟩ := List.exists_cons_of_ne_nil hne
  have hname := buildName_newTo (hnames t List.mem_cons_self)
    (show commaTail text (names.map namePiece) ++ punct text .angleClose :: rest ≠ [] by simp)
  rw [commaTail_retype] at hname
  have hloop : ∀ list, Collects ([] ++ [nameTree t.lexeme]) list →
      Reads (commaLoop (buildName true) fuel list)
        (commaTail text ((names.map (retypeAll [t])).map namePiece) ++
          punct text .angleClose :: rest.map (retypeAll [t]))
        (punct text .angleClose ::
          (rest.map (retypeAll [t])).map (retypeAll (names.map (retypeAll [t]))))
        (Collects (([] ++ [nameTree t.lexeme]) ++
          (names.map (retypeAll [t])).map fun name => nameTree name.lexeme)) := fun list hl =>
    typeParamLoop_reads (by rw [List.length_map]; exact hfuel)
      (retypeAll_names fun name hmem => hnames name (List.mem_cons_of_mem _ hmem)) hl
  rw [rest_retype, nameTrees_retype] at hloop
  unfold buildTypeParameterList commaList
  refine .require (k := t) (hnames t List.mem_cons_self) (.newAstList fun list hl => ?_)
  refine .bind hname fun a ha => .append hl ha fun list hl => ?_
  exact .bind (hloop list hl) fun list hl => .pure hl.value

theorem buildOptTypeParameters_reads (text : TokenClass → Cstr) (names : List Tok) (rest : List Tok)
    (hfuel : names.length ≤ fuel)
    (hnames : ∀ t ∈ names, tokenIsName t.klass = true) :
    Reads (buildOptTypeParameters fuel)
      (typeParamTokens text names ++ punct text .parenthOpen :: rest)
      (punct text .parenthOpen :: rest.map (retypeAll names))
      (IsOptList (names.map fun t => nameTree t.lexeme)) := by
  cases names with
  | nil =>
    rw [List.map_congr_left fun tok _ => retypeAll_nil tok, List.map_id']
    exact .ifNeg rfl (.pure rfl)
  | cons t names =>
    have hlist := typeParamList_reads text (punct text .parenthOpen :: rest) hfuel
      (by simp) hnames
    have hparenth : retypeAll (t :: names) (punct text .parenthOpen) = punct text .parenthOpen :=
      map_punct (by decide)
    rw [List.map_cons (a := punct text .parenthOpen), hparenth] at hlist
    show Reads _ (angled text ((t :: names).map namePiece) ++ punct text .parenthOpen :: rest) _ _
    rw [angled_append]
    refine .ifPos rfl (.next (.require (k := t) (hnames t List.mem_cons_self) ?_))
    exact .bind hlist fun list hl => .expect rfl (.pure hl)

/-! ## Parameters -/

/-- `<parameter>`. -/
structure Parameter where
  direction : Option { k : TokenClass // tokenIsDirection k = true }
  type : TypeRef
  name : Name
  init : Option (Expression endsArgument)

/-- Its type and its default value are read. -/
def Parameter.read (x : Parameter) : Bool := x.type.readable && x.init.all Expression.read

def directionOf : TokenClass → AstParamDirection
  | .inKw => .in
  | .out => .out
  | .inOut => .inOut
  | _ => .none

def Parameter.tree (text : TokenClass → Cstr) (x : Parameter) : Ast :=
  .node .parameter 0 0
    ([⟨.direction, .integer, .direction (x.direction.elim .none fun k => directionOf k.val)⟩,
      ⟨.type, .ast, .ast (x.type.piece text).tree⟩,
        ⟨.name, .ast, .ast (nameTree x.name.val.lexeme)⟩] ++
      match x.init with
      | none => []
      | some e => [⟨.initExpr, .ast, .ast e.tree⟩])

def directionTokens (text : TokenClass → Cstr) :
    Option { k : TokenClass // tokenIsDirection k = true } → List Tok
  | none => []
  | some k => [punct text k.val]

def defaultTokens (text : TokenClass → Cstr) : Option (Expression endsArgument) → List Tok
  | none => []
  | some e => punct text .equal :: e.tokens

def Parameter.piece (text : TokenClass → Cstr) (x : Parameter) : Piece :=
  ⟨directionTokens text x.direction ++
    ((x.type.piece text).tokens ++ x.name.val :: defaultTokens text x.init), x.tree text⟩

theorem Parameter.starts (text : TokenClass → Cstr) (x : Parameter) :
    (x.piece text).Starts tokenIsParameter := by
  have hdirection : ∀ k, tokenIsDirection k = true → tokenIsParameter k = true := by decide
  have htype : ∀ k, tokenIsTypeRef k = true → tokenIsParameter k = true := by decide
  obtain ⟨direction, type, name, init⟩ := x
  cases direction with
  | some k => exact ⟨_, _, rfl, hdirection _ k.2⟩
  | none =>
    obtain ⟨t, ts, htokens, ht⟩ := type.starts text
    exact ⟨t, ts ++ _, by rw [Parameter.piece, directionTokens, htokens]; rfl, htype _ ht⟩

theorem buildDirection_reads {direction : Option { k : TokenClass // tokenIsDirection k = true }}
    (ht : tokenIsTypeRef t.klass = true) :
    Reads buildDirection (directionTokens text direction ++ t :: us) (t :: us)
      fun d => d = direction.elim .none fun k => directionOf k.val := by
  cases direction with
  | none =>
    have hall : ∀ k, tokenIsTypeRef k = true → tokenIsDirection k = false := by decide
    exact .ifNeg (hall _ ht) (.pure rfl)
  | some k =>
    have hcases : ∀ k, tokenIsDirection k = true → k = .inKw ∨ k = .out ∨ k = .inOut := by decide
    obtain ⟨k, hk⟩ := k
    refine .ifPos hk ?_
    rcases hcases k hk with rfl | rfl | rfl
    · exact .bind (.ifPos rfl (.pure rfl)) fun d hd => .next (.pure hd.symm)
    · exact .bind (.ifNeg rfl (.ifPos rfl (.pure rfl))) fun d hd => .next (.pure hd.symm)
    · exact .bind (.ifNeg rfl (.ifNeg rfl (.ifPos rfl (.pure rfl)))) fun d hd =>
        .next (.pure hd.symm)

/-- The default value behind the name of a parameter. -/
def buildDefault (fwd : Forward) (param : Ast) : Parser Ast :=
  ifToken (is .equal)
    (do
      nextToken
      require tokenIsExpression "expression was expected"
      astSetattr param .initExpr .ast (.ast (← fwd.expression 1)))
    (pure param)

theorem default_settles {x : Parameter} (hk : endsArgument k.klass = true)
    (hinit : ∀ e ∈ x.init, Takes (fwd.expression 1) endsArgument e.toPiece e.read)
    (ha : IsTree (Parameter.tree text { x with init := none }) a) :
    (x.init.all Expression.read = true → Reads (buildDefault fwd a)
      (defaultTokens text x.init ++ k :: us) (k :: us) (IsTree (x.tree text))) ∧
    (x.init.all Expression.read = false → Misses (buildDefault fwd a) endsArgument
      (defaultTokens text x.init ++ k :: us)) := by
  obtain ⟨direction, type, name, init⟩ := x
  cases init with
  | none =>
    have hall : ∀ k, endsArgument k = true → is .equal k = false := by decide
    exact ⟨fun _ => .ifNeg (hall _ hk) (.pure ha), fun hb => nomatch hb⟩
  | some e =>
    have hexpr := hinit e rfl
    obtain ⟨t, ts, htokens, ht⟩ := e.starts
    refine ⟨fun hb => ?_, fun hb => ?_⟩
    · have hreads := hexpr.accepts hb k us hk
      show Reads _ (punct text .equal :: (e.tokens ++ k :: us)) _ _
      rw [htokens] at hreads ⊢
      refine .ifPos rfl (.next (.require (k := t) ht (.bind hreads fun c hc => ?_)))
      exact .setLast ha hc.value rfl rfl
    · have hmisses := hexpr.strays hb k us hk
      show Misses _ _ (punct text .equal :: (e.tokens ++ k :: us))
      rw [htokens] at hmisses ⊢
      exact .ifPos rfl (.next (.require (k := t) ht (.missedSet hmisses)))

/-- What comes behind the name of a parameter, where its type is read. -/
theorem buildParameter_default {x : Parameter} {Q : Ast → State → Prop} {E : Stop → Prop}
    (htype : Accepts fwd.typeRef endsType (x.type.piece text))
    (h : ∀ a, IsTree (Parameter.tree text { x with init := none }) a →
      Reading (buildDefault fwd a) (defaultTokens text x.init ++ k :: us) Q E) :
    Reading (buildParameter fwd) ((x.piece text).tokens ++ k :: us) Q E := by
  obtain ⟨t, ts, htokens, ht⟩ := x.type.starts text
  have htext : (x.piece text).tokens ++ k :: us = directionTokens text x.direction ++
      ((x.type.piece text).tokens ++ x.name.val :: (defaultTokens text x.init ++ k :: us)) := by
    simp [Parameter.piece]
  have htypeRef := htype x.name.val (defaultTokens text x.init ++ k :: us)
    (endsType_of_name x.name.2)
  have hname := buildName_readsTo x.name.2
    (show defaultTokens text x.init ++ k :: us ≠ [] by simp)
  rw [htext]
  rw [htokens] at htypeRef ⊢
  refine .node fun a ha => .bind (buildDirection_reads ht) fun d hd => ?_
  subst hd
  refine .set ha rfl rfl fun a ha => .require (k := t) ht ?_
  refine .bind htypeRef fun c hc => .set ha hc.value rfl fun a ha => .require x.name.2 ?_
  exact .bind hname fun c hc => .set ha hc.value rfl fun a ha => h a ha

theorem buildParameter_stuck {x : Parameter}
    (htype : Declines fwd.typeRef endsType (x.type.piece text)) :
    Rejects (buildParameter fwd) ((x.piece text).tokens ++ us) := by
  obtain ⟨t, ts, htokens, ht⟩ := x.type.starts text
  have htext : (x.piece text).tokens ++ us = directionTokens text x.direction ++
      ((x.type.piece text).tokens ++ x.name.val :: (defaultTokens text x.init ++ us)) := by
    simp [Parameter.piece]
  have htypeRef := htype x.name.val (defaultTokens text x.init ++ us) (endsType_of_name x.name.2)
  rw [htext]
  rw [htokens] at htypeRef ⊢
  refine .node fun a ha => .bind (buildDirection_reads ht) fun d hd => ?_
  subst hd
  exact .set ha rfl rfl fun a ha => .require (k := t) ht (.stuck htypeRef)

/-- What `build_parameter` makes of a parameter. -/
theorem Parameter.taken (text : TokenClass → Cstr) (x : Parameter) : ∀ᶠ n in atTop,
    Takes (buildParameter (forward n)) endsArgument (x.piece text) x.read := by
  have htype := eventually_succ (p := fun n =>
    Settles (forward n).typeRef endsType (x.type.piece text) x.type.readable)
  have hinit : ∀ᶠ n in atTop, ∀ e ∈ x.init,
      Takes ((forward n).expression 1) endsArgument e.toPiece e.read := by
    cases x.init with
    | none => exact .of_forall fun n e he => nomatch he
    | some e => exact e.taken.mono fun n hn e' he' => Option.some.inj he' ▸ hn
  filter_upwards [htype.mp (x.type.settles text), hinit] with n htype hinit
  unfold Parameter.read
  refine ⟨fun hb k us hk => ?_, fun hb k us hk => ?_⟩
  · obtain ⟨hreadable, hread⟩ := Bool.and_eq_true_iff.mp hb
    exact buildParameter_default (htype.accepts hreadable) fun a ha =>
      (default_settles hk hinit ha).1 hread
  · cases hreadable : x.type.readable with
    | false => exact (buildParameter_stuck (htype.declines hreadable)).misses
    | true =>
      rw [hreadable, Bool.true_and] at hb
      exact buildParameter_default (htype.accepts hreadable) fun a ha =>
        (default_settles hk hinit ha).2 hb

/-- What `build_parameterList` makes of parameters. -/
theorem parameters_taken (text : TokenClass → Cstr) {params : List Parameter}
    (hlen : params.length ≤ n)
    (h : ∀ x ∈ params, Takes (buildParameter (forward n)) endsArgument (x.piece text) x.read) :
    TakesAll tokenIsParameter (buildParameter (forward n)) endsArgument (forward n).fuel
      (params.map (·.piece text)) (params.all Parameter.read) :=
  takesAll (Parameter.starts text) ((fuel_forward n).symm ▸ hlen) h

/-! ## Function declarations -/

/-- `<typeOrVoid>`. -/
inductive ReturnType where
  | type (type : TypeRef)
  | void
  | typeVariable (name : { t : Tok // t.klass = .identifier })

def ReturnType.piece (text : TokenClass → Cstr) : ReturnType → Piece
  | .type r => r.piece text
  | .void => ⟨[punct text .void], nameTree (text .void)⟩
  | .typeVariable name => ⟨[name.val], nameTree name.val.lexeme⟩

/-- `<functionDeclaration>`, with a body that `build_blockStatement` reads. -/
structure FunctionDecl where
  returnType : ReturnType
  name : Name
  typeParams : List Name
  params : List Parameter
  body : Piece
  accepted : ∀ᶠ n in atTop, Accepts (buildBlockStatement (forward n)) (fun _ => true) body

def FunctionDecl.typeParamToks (x : FunctionDecl) : List Tok := x.typeParams.map Subtype.val

/-- The tokens up to the parenthesis, as they are seen at the start. -/
def FunctionDecl.head (text : TokenClass → Cstr) (x : FunctionDecl) : List Tok :=
  (x.returnType.piece text).tokens ++ x.name.val :: typeParamTokens text x.typeParamToks

/-- The tokens behind it, as they are seen once the type parameters are types. -/
def FunctionDecl.tail (text : TokenClass → Cstr) (x : FunctionDecl) : List Tok :=
  commaTokens text (x.params.map (·.piece text)) ++ punct text .parenthClose :: x.body.tokens

def functionProtoTree (returnType name : Ast) (typeParams params : List Ast) : Ast :=
  .node .functionProto 0 0 [⟨.returnType, .ast, .ast returnType⟩, ⟨.name, .ast, .ast name⟩,
    ⟨.typeParams, .astList, optTreesValue typeParams⟩, ⟨.params, .astList, optTreesValue params⟩]

def FunctionDecl.tree (text : TokenClass → Cstr) (x : FunctionDecl) : Ast :=
  .node .functionDecl 0 0
    [⟨.proto, .ast, .ast (functionProtoTree (x.returnType.piece text).tree
      (nameTree x.name.val.lexeme)
      (x.typeParamToks.map fun t => nameTree t.lexeme) (x.params.map (·.tree text)))⟩,
      ⟨.stmt, .ast, .ast x.body.tree⟩]

/-- A type that a declaration can start with: one that is read and is not `error`. -/
def ReturnType.plain : ReturnType → Bool
  | .type (.base klass) => !is .error klass.val
  | .type r => r.readable
  | .void | .typeVariable _ => false

/-- The return type, the name and the parameters are such that the function is read. -/
def FunctionDecl.plain (x : FunctionDecl) : Bool :=
  x.returnType.plain && tokenIsTypeOrVoid x.name.val.klass &&
    x.params.all Parameter.read

/-- What comes before the parameters. -/
theorem buildFunctionPrototype_params {x : FunctionDecl} {rest : List Tok} {kind : AstKind}
    {attrs : List (Attribute Ast)} {Q : Ast → State → Prop} {E : Stop → Prop}
    (ha : IsTree (.node kind 0 0 attrs) a) (hfuel : x.typeParams.length ≤ fwd.fuel)
    (hrest : rest.map (retypeAll x.typeParamToks) = x.tail text ++ k :: us)
    (h : ∀ b, IsTree (.node .functionProto 0 0 [⟨.returnType, .ast, .ast (.node kind 0 0 attrs)⟩,
        ⟨.name, .ast, .ast (nameTree x.name.val.lexeme)⟩,
        ⟨.typeParams, .astList, optTreesValue (x.typeParamToks.map fun t => nameTree t.lexeme)⟩])
          b →
      Reading
        (do
          let node ← astSetattr b .params .astList (listValue (← buildParameterList fwd))
          expect .parenthClose "`)` was expected"
          return node) (x.tail text ++ k :: us) Q E) :
    Reading (buildFunctionPrototype fwd a)
      (x.name.val :: (typeParamTokens text x.typeParamToks ++ punct text .parenthOpen :: rest)) Q
      E := by
  have hvalue := ha.value
  obtain ⟨id, lineNr, attrs', rfl, -⟩ := Ast.erase_node ha
  have htypeParams := buildOptTypeParameters_reads text x.typeParamToks rest
    (show x.typeParamToks.length ≤ fwd.fuel by rwa [FunctionDecl.typeParamToks, List.length_map])
    fun t ht => by
      obtain ⟨name, -, rfl⟩ := List.mem_map.mp ht
      exact name.2
  rw [hrest] at htypeParams
  have hname := buildName_readsTo x.name.2
    (show typeParamTokens text x.typeParamToks ++ punct text .parenthOpen :: rest ≠ [] by simp)
  refine .bind (R := fun _ => True) (.pure trivial) fun _ _ => .node fun b hb => ?_
  refine .bind (R := fun b => b = .node kind id lineNr attrs') (.pure rfl) fun c hc => ?_
  subst hc
  refine .set hb hvalue rfl fun b hb => .require (k := x.name.val) x.name.2
    (.bind hname fun c hc => ?_)
  refine .set hb hc.value rfl fun b hb => .bind htypeParams fun list hl =>
    .set hb hl rfl fun b hb => ?_
  exact .expectTo rfl (by simp) (h b hb)

/-- What comes behind the return type. -/
theorem buildFunctionDeclaration_settles (text : TokenClass → Cstr) {x : FunctionDecl}
    {rest : List Tok} {kind : AstKind} {attrs : List (Attribute Ast)} {b : Bool}
    (htree : (x.returnType.piece text).tree = .node kind 0 0 attrs)
    (ha : IsTree (.node kind 0 0 attrs) a) (hname : tokenIsTypeOrVoid x.name.val.klass = true)
    (htypeParams : x.typeParams.length ≤ fwd.fuel)
    (hrest : rest.map (retypeAll x.typeParamToks) = x.tail text ++ k :: us)
    (hparams : TakesAll tokenIsParameter (buildParameter fwd) endsArgument fwd.fuel
      (x.params.map (·.piece text)) b)
    (hbody : Accepts fwd.blockStatement (fun _ => true) x.body)
    (hbrace : ∀ t ts, is .braceOpen t.klass = false → Rejects fwd.blockStatement (t :: ts)) :
    (b = true → Reads (buildFunctionDeclaration fwd a)
      (x.name.val :: (typeParamTokens text x.typeParamToks ++ punct text .parenthOpen :: rest))
      (k :: us) (IsTree (x.tree text))) ∧
    (b = false → Rejects (buildFunctionDeclaration fwd a)
      (x.name.val ::
        (typeParamTokens text x.typeParamToks ++ punct text .parenthOpen :: rest))) := by
  have htail : x.tail text ++ k :: us = commaTokens text (x.params.map (·.piece text)) ++
      punct text .parenthClose :: (x.body.tokens ++ k :: us) := by simp [FunctionDecl.tail]
  refine ⟨fun hb => ?_, fun hb => ?_⟩
  · have hlist : Reads (buildParameterList fwd)
        (commaTokens text (x.params.map (·.piece text)) ++
          punct text .parenthClose :: (x.body.tokens ++ k :: us))
        (punct text .parenthClose :: (x.body.tokens ++ k :: us))
        (IsOptList ((x.params.map (·.piece text)).map Piece.tree)) :=
      hparams.reads hb rfl rfl (show TokenClass.parenthClose ≠ .comma by decide) rfl
    rw [List.map_map] at hlist
    have hproto : Reads (buildFunctionPrototype fwd a)
        (x.name.val :: (typeParamTokens text x.typeParamToks ++ punct text .parenthOpen :: rest))
        (x.body.tokens ++ k :: us) (IsTree (functionProtoTree (x.returnType.piece text).tree
          (nameTree x.name.val.lexeme) (x.typeParamToks.map fun t => nameTree t.lexeme)
          (x.params.map (·.tree text)))) := by
      refine buildFunctionPrototype_params ha htypeParams hrest fun b hb' => ?_
      rw [htail]
      refine .bind hlist fun list hl => .set hb' hl rfl fun b hb' => ?_
      refine .expectTo rfl (by simp) (.pure ?_)
      rw [htree]
      exact hb'
    have hread := hbody k us rfl
    obtain ⟨t, ts, hne⟩ := List.exists_cons_of_ne_nil (show x.body.tokens ++ k :: us ≠ [] by simp)
    rw [hne] at hread hproto
    refine .require (k := x.name.val) hname (.node fun b hb => .bind hproto fun c hc => ?_)
    refine .set hb hc.value rfl fun b hb => .given hread fun hnot => ?_
    cases hbrace' : is .braceOpen t.klass with
    | true => exact .require hbrace' (.bind hread fun c hc => .setLast hb hc.value rfl rfl)
    | false => exact absurd (hbrace t ts hbrace') hnot
  · have hlist : Misses (buildParameterList fwd) endsArgument
        (commaTokens text (x.params.map (·.piece text)) ++
          punct text .parenthClose :: (x.body.tokens ++ k :: us)) := hparams.misses hb rfl rfl
    refine .require (k := x.name.val) hname (.node fun b hb' => .stuck ?_)
    refine buildFunctionPrototype_params ha htypeParams hrest fun b hb' => ?_
    rw [htail]
    exact .missed hlist fun list => .set fun b => .expect rfl

/-! ## Where a declaration starts -/

/-- The branch of the types. -/
theorem buildDeclaration_type {Q : Ast → State → Prop} {E : Stop → Prop}
    (ht : tokenIsTypeRef t.klass = true) (hne : is .error t.klass = false)
    (h : Reading
      (do
        let typeRef ← buildTypeRef fwd
        ifToken (is .parenthOpen) (buildInstantiation fwd typeRef) <|
          ifToken tokenIsName (buildFunctionDeclaration fwd typeRef) unexpected) (t :: us) Q E) :
    Reading (buildDeclaration fwd memory) (t :: us) Q E := by
  have hall : ∀ k, tokenIsTypeRef k = true → tokenIsDeclaration k = true ∧ is .const k = false ∧
      is .externKw k = false ∧ is .action k = false ∧ tokenIsTypeDeclaration k = false ∧
      is .matchKind k = false := by decide
  obtain ⟨hdecl, hconst, hextern, haction, htypeDecl, hmatchKind⟩ := hall _ ht
  exact .require hdecl (.ifNeg hconst (.ifNeg hextern (.ifNeg haction (.ifNeg htypeDecl
    (.ifNeg hne (.ifNeg hmatchKind (.ifPos ht h)))))))

/-- `error` starts a declaration of errors. -/
theorem buildDeclaration_error (ht : t.klass = .error) (hk : is .braceOpen k.klass = false) :
    Rejects (buildDeclaration fwd memory) (t :: k :: us) := by
  obtain ⟨klass, lexeme, i⟩ := t
  obtain rfl : klass = .error := ht
  refine .require rfl (.ifNeg rfl (.ifNeg rfl (.ifNeg rfl (.ifNeg rfl (.ifPos rfl ?_)))))
  exact .expect rfl (.node fun a ha => .stuck (.ifNeg hk .error))

/-- `void` and a name that is no type go to `build_typeRef`. -/
theorem buildDeclaration_other (ht : t.klass = .void ∨ t.klass = .identifier) :
    Rejects (buildDeclaration fwd memory) (t :: us) := by
  obtain ⟨klass, lexeme, i⟩ := t
  rcases ht with rfl | rfl
  all_goals
    refine .require rfl (.ifNeg rfl (.ifNeg rfl (.ifNeg rfl (.ifNeg rfl (.ifNeg rfl (.ifNeg rfl
      (.ifNeg rfl (.ifPos rfl (.stuck (.requireNot rfl))))))))))

/-- A type is the type `error` or starts with another token. -/
theorem TypeRef.starts_other (text : TokenClass → Cstr) (r : TypeRef) :
    (∃ h, r = .base ⟨.error, h⟩) ∨ (ReturnType.type r).plain = r.readable ∧
      ∃ t ts, (r.piece text).tokens = t :: ts ∧ tokenIsTypeRef t.klass = true ∧
        is .error t.klass = false := by
  have hname : ∀ k, tokenIsTypeName k = true → tokenIsTypeRef k = true ∧ is .error k = false := by
    decide
  have hsized : ∀ k, isSized k = true → tokenIsTypeRef k = true ∧ is .error k = false := by decide
  have hbase : ∀ k, tokenIsBaseType k = true → tokenIsTypeRef k = true := by decide
  cases r with
  | base klass =>
    obtain ⟨klass, hklass⟩ := klass
    by_cases h : klass = .error
    · subst h
      exact .inl ⟨hklass, rfl⟩
    · have hne : is .error klass = false := beq_false_of_ne h
      refine .inr ⟨?_, _, _, rfl, hbase _ hklass, hne⟩
      show (!is .error klass) = true
      rw [hne]
      rfl
  | sized klass size => exact .inr ⟨rfl, _, _, rfl, hsized _ klass.2⟩
  | sizedBy klass size => exact .inr ⟨rfl, _, _, rfl, hsized _ klass.2⟩
  | name n =>
    obtain ⟨t, ts, htokens, ht, -⟩ := n.starts text
    exact .inr ⟨rfl, t, ts, htokens, hname _ ht⟩
  | specialized n args =>
    obtain ⟨t, ts, htokens, ht, -⟩ := n.starts text
    exact .inr ⟨rfl, t, ts ++ _, by rw [TypeRef.piece, htokens]; rfl, hname _ ht⟩
  | stack n size =>
    obtain ⟨t, ts, htokens, ht, -⟩ := n.starts text
    exact .inr ⟨rfl, t, ts ++ _, by rw [TypeRef.piece, htokens]; rfl, hname _ ht⟩
  | specializedStack n args size =>
    obtain ⟨t, ts, htokens, ht, -⟩ := n.starts text
    exact .inr ⟨rfl, t, ts ++ _, by rw [TypeRef.piece, htokens]; rfl, hname _ ht⟩
  | tuple args => exact .inr ⟨rfl, _, _, rfl, rfl, rfl⟩

theorem blockStatement_rejects (n : Nat) (h : is .braceOpen t.klass = false) :
    Rejects (forward n).blockStatement (t :: ts) := by
  cases n with
  | zero => exact fun _ _ => trivial
  | succ n => exact .requireNot h

/-- What `build_declaration` makes of a function, over memory that held anything. -/
theorem FunctionDecl.settles (text : TokenClass → Cstr) (x : FunctionDecl) {rest : List Tok}
    (hrest : rest.map (retypeAll x.typeParamToks) = x.tail text ++ k :: us) :
      ∀ᶠ n in atTop, ∀ memory,
    (x.plain = true → Reads (buildDeclaration (forward n) memory)
      (x.head text ++ punct text .parenthOpen :: rest) (k :: us) (IsTree (x.tree text))) ∧
    (x.plain = false → Rejects (buildDeclaration (forward n) memory)
      (x.head text ++ punct text .parenthOpen :: rest)) := by
  have hnames : ∀ k, tokenIsName k = true → is .braceOpen k = false ∧
      is .parenthOpen k = false := by
    decide
  have htext : x.head text ++ punct text .parenthOpen :: rest = (x.returnType.piece text).tokens ++
      x.name.val :: (typeParamTokens text x.typeParamToks ++ punct text .parenthOpen :: rest) := by
    simp [FunctionDecl.head]
  have hplain : x.plain = (x.returnType.plain && tokenIsTypeOrVoid x.name.val.klass &&
    x.params.all Parameter.read) := rfl
  rw [htext, hplain]
  cases htype : x.returnType with
  | void => exact .of_forall fun n memory =>
      ⟨fun h => (nomatch h), fun _ => buildDeclaration_other (.inl rfl)⟩
  | typeVariable name =>
    exact .of_forall fun n memory =>
      ⟨fun h => (nomatch h), fun _ => buildDeclaration_other (.inr name.2)⟩
  | type r =>
    rcases r.starts_other text with ⟨h, rfl⟩ | ⟨hr, t, ts, htokens, ht, hne⟩
    · exact .of_forall fun n memory =>
        ⟨fun h => (nomatch h), fun _ => buildDeclaration_error rfl (hnames _ x.name.2).1⟩
    have hbody := eventually_succ (p := fun n => Accepts (forward n).blockStatement
        (fun _ => true) x.body)
    obtain ⟨kind, attrs, hnode⟩ := r.tree_node text
    filter_upwards [r.settles text, hbody.mp x.accepted,
      eventually_forall_mem fun param (_ : param ∈ x.params) => param.taken text,
      eventually_ge_atTop x.typeParams.length, eventually_ge_atTop x.params.length] with
      n hsettles hbody hparams htypeParams hlen memory
    have hdecl := fun (a : Ast) (ha : IsTree (.node kind 0 0 attrs) a) hname =>
      buildFunctionDeclaration_settles text (by rw [htype]; exact hnode) ha hname
        ((fuel_forward n).symm ▸ htypeParams) hrest (parameters_taken text hlen hparams) hbody
        fun _ _ => blockStatement_rejects n
    rw [hr]
    cases hb : r.readable with
    | false =>
      have htypeRef := hsettles.declines hb x.name.val
        (typeParamTokens text x.typeParamToks ++ punct text .parenthOpen :: rest)
        (endsType_of_name x.name.2)
      refine ⟨fun h => (nomatch h), fun _ => ?_⟩
      show Rejects _ ((r.piece text).tokens ++ _)
      rw [htokens] at htypeRef ⊢
      exact buildDeclaration_type ht hne (.stuck htypeRef)
    | true =>
      have htypeRef := hsettles.accepts hb x.name.val
        (typeParamTokens text x.typeParamToks ++ punct text .parenthOpen :: rest)
        (endsType_of_name x.name.2)
      have hbranch : ∀ {Q : Ast → State → Prop} {E : Stop → Prop},
          (∀ a, IsTree (.node kind 0 0 attrs) a → Reading (buildFunctionDeclaration (forward n) a)
            (x.name.val :: (typeParamTokens text x.typeParamToks ++ punct
              text .parenthOpen :: rest))
            Q E) → Reading (buildDeclaration (forward n) memory) ((r.piece text).tokens ++
              x.name.val :: (typeParamTokens text x.typeParamToks ++ punct
                text .parenthOpen :: rest))
            Q E := fun h => by
        rw [hnode] at htypeRef
        rw [htokens] at htypeRef ⊢
        exact buildDeclaration_type ht hne (.bind htypeRef fun a ha =>
          .ifNeg (hnames _ x.name.2).2 (.ifPos x.name.2 (h a ha)))
      rw [Bool.true_and]
      cases hname : tokenIsTypeOrVoid x.name.val.klass with
      | false =>
        exact ⟨fun h => (nomatch h), fun _ => hbranch fun a ha => .requireNot hname⟩
      | true =>
        rw [Bool.true_and]
        exact ⟨fun hall => hbranch fun a ha => (hdecl a ha hname).1 hall,
          fun hall => hbranch fun a ha => (hdecl a ha hname).2 hall⟩

/-- **A function is read** exactly if its return type is one that a declaration can start with,
its name is an identifier and the types and the default values of its parameters are read. -/
theorem functionDeclaration_read_iff (text : TokenClass → Cstr) (x : FunctionDecl) {k : Tok}
    (us rest : List Tok) {s : State} (memory : Memory)
    (hrest : rest.map (retypeAll x.typeParamToks) = x.tail text ++ k :: us)
    (hs : Sees s (x.head text ++ punct text .parenthOpen :: rest)) :
    Returns (fun n => buildDeclaration (forward n) memory) s (k :: us) (IsTree (x.tree text)) ↔
      x.plain = true := by
  constructor
  · intro hreturns
    by_contra hnot
    exact not_returns ((x.settles text hrest).mono fun n hn => (hn memory).2 (by simpa using hnot))
      hs
      hreturns
  · exact fun hplain => .of_reads ((x.settles text hrest).mono fun n hn => (hn memory).1 hplain) hs

/-- `{}` -/
def emptyBody : Piece := ⟨[punct noText .braceOpen, punct noText .braceClose], blockTree []⟩

theorem emptyBody_accepted : ∀ᶠ n in atTop,
    Accepts (buildBlockStatement (forward n)) (fun _ => true) emptyBody :=
  .of_forall fun _ _ _ _ => .require rfl (.node fun _ ha => .next
    (.bind (.ifNeg rfl (.pure (P := IsOptList []) rfl)) fun _ hl =>
      .set ha hl rfl fun _ ha => .expect rfl (.pure ha)))

/-- `... f<t>(t x = (1 + 2) * 3) {}`, with the `t` of the parameter as a type. -/
def genericFunction (returnType : ReturnType) : FunctionDecl where
  returnType := returnType
  name := someWord
  typeParams := [⟨{ klass := .identifier, lexeme := ⟨[116], by decide⟩ }, rfl⟩]
  params := [{
    direction := none
    type := .name ⟨false, { klass := .typeIdentifier, lexeme := ⟨[116], by decide⟩ }, rfl⟩
    name := someWord
    init := some (sumTimes.expression noText _ noOperator_endsArgument) }]
  body := emptyBody
  accepted := emptyBody_accepted

/-- What follows its parenthesis, with the `t` of the parameter as an identifier. -/
def genericRest : List Tok :=
  { klass := .identifier, lexeme := ⟨[116], by decide⟩ } :: { klass := .identifier } ::
    punct noText .equal :: ((sumTimes.piece noText).tokens ++
      [punct noText .parenthClose, punct noText .braceOpen, punct noText .braceClose,
        punct noText .endOfInput])

theorem functionDeclaration_read_one :
    Returns (fun n => buildDeclaration (forward n) fun _ _ => 0)
      (stateAt ((genericFunction (.type (.base ⟨.bool, rfl⟩))).head noText ++
        punct noText .parenthOpen :: genericRest))
      [punct noText .endOfInput] (IsTree
          ((genericFunction (.type (.base ⟨.bool, rfl⟩))).tree noText)) :=
  (functionDeclaration_read_iff noText (genericFunction (.type (.base ⟨.bool, rfl⟩))) [] genericRest
    (fun _ _ => 0) (by decide) (sees_stateAt (by decide))).mpr rfl

/-- `void f<t>(t x = (1 + 2) * 3) {}` -/
theorem functionDeclaration_read_fails :
    ¬ Returns (fun n => buildDeclaration (forward n) fun _ _ => 0)
      (stateAt ((genericFunction .void).head noText ++ punct noText .parenthOpen :: genericRest))
      [punct noText .endOfInput] (IsTree ((genericFunction .void).tree noText)) :=
  not_returns (.of_forall fun _ => buildDeclaration_other (.inl rfl)) (sees_stateAt (by decide))

end Dp4c.Parse
