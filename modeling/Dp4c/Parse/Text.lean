import Dp4c.Parse.Advance

/-! # The tokens ahead

What a function of the parser does is decided by the tokens from the current one on,
comments left out, each with the class `next_token` will give it. `Sees s ts` says that
these are `ts`. -/
namespace Dp4c.Parse

open Dp4c.Lib Dp4c.Lib.Prog Dp4c.Symtable

/-- What the parser looks at in a token, besides its line. -/
structure Tok where
  klass : TokenClass
  lexeme : Cstr := ⟨[], Cstr.noNul_nil⟩
  i : IntegerPayload := {}
deriving DecidableEq

def tokOf (token : Token) : Tok := ⟨token.klass, token.lexeme, token.i⟩

/-- The token with the class `next_token` gives it. -/
def classify (scopes : Scopes) (t : Tok) : Tok :=
  if t.klass = .identifier then { t with klass := wordKlass (scopes.lookup t.lexeme) } else t

/-- The tokens behind the current one. -/
def State.behind (s : State) : List Tok :=
  ((s.tokens.drop (s.tokenAt + 1)).filter (·.klass ≠ .comment)).map
    fun token => classify s.scopes (tokOf token)

/-- The keywords have classes of their own. -/
def Regular (scopes : Scopes) : Prop :=
  ∀ name symbol, (scopes.lookup name).idKw.head?.filter (·.identKind = .keyword) = some symbol →
    symbol.tokenKlass ≠ .identifier ∧ symbol.tokenKlass ≠ .comment

/-- The tokens from the current one on are `ts`. -/
structure Sees (s : State) (ts : List Tok) : Prop where
  inBounds : s.tokenAt < s.tokens.length
  ahead : tokOf s.token :: s.behind = ts
  keywords : Regular s.scopes

variable {s t : State} {scopes : Scopes} {tok tok' : Tok} {ts : List Tok}

theorem Sees.token (h : Sees s (tok :: ts)) : tokOf s.token = tok := (List.cons.inj h.ahead).1

theorem Sees.klass (h : Sees s (tok :: ts)) : s.token.klass = tok.klass :=
    congrArg Tok.klass h.token

theorem Sees.behind (h : Sees s (tok :: ts)) : s.behind = ts := (List.cons.inj h.ahead).2

/-! ## Classes -/

theorem classify_congr {scopes' : Scopes} (h : ∀ name, scopes'.lookup name = scopes.lookup name) :
    classify scopes' = classify scopes := by
  funext t
  unfold classify
  rw [h]

theorem classify_classify (scopes : Scopes) (t : Tok) :
    classify scopes (classify scopes t) = classify scopes t := by
  unfold classify
  by_cases h : t.klass = .identifier
  · rw [if_pos h]
    by_cases hword : wordKlass (scopes.lookup t.lexeme) = .identifier
    · rw [if_pos hword]
    · rw [if_neg hword]
  · rw [if_neg h, if_neg h]

theorem Regular.wordKlass_ne (h : Regular scopes) (name : Cstr) :
    wordKlass (scopes.lookup name) ≠ .comment := by
  unfold wordKlass
  split
  · rename_i hkw
    exact (h name _ hkw).2
  · split <;> exact fun h => nomatch h

theorem Regular.classify_ne {t : Tok} (h : Regular scopes) (ht : t.klass ≠ .comment) :
    (classify scopes t).klass ≠ .comment := by
  unfold classify
  split
  · exact h.wordKlass_ne _
  · exact ht

theorem Regular.congr {scopes' : Scopes} (h : Regular scopes)
    (hlookup : ∀ name, scopes'.lookup name = scopes.lookup name) : Regular scopes' :=
  fun name symbol => hlookup name ▸ h name symbol

theorem reclassify_token (hs : s.tokenAt < s.tokens.length) :
    tokOf (reclassify s).token = classify s.scopes (tokOf s.token) := by
  unfold reclassify classify
  by_cases h : s.token.klass = .identifier
  · rw [if_pos h, if_pos (show (tokOf s.token).klass = .identifier from h)]
    simp only [State.token, List.getD_eq_getElem?_getD, List.getElem?_set_self hs,
      Option.getD_some, Scopes.lookup_enter]
    rfl
  · rw [if_neg h, if_neg (show (tokOf s.token).klass ≠ .identifier from h)]

theorem reclassify_lookup (s : State) (name : Cstr) :
    (reclassify s).scopes.lookup name = s.scopes.lookup name := by
  unfold reclassify
  split
  · exact Scopes.lookup_enter _ _ _
  · rfl

theorem reclassify_drop (s : State) {i : Nat} (h : s.tokenAt < i) :
    (reclassify s).tokens.drop i = s.tokens.drop i := by
  unfold reclassify
  split
  · exact List.drop_set_of_lt h
  · rfl

/-! ## Comments -/

/-- Comments are left out. -/
theorem dropComments (tokens : List Token) (j : Nat) : ∀ n i : Nat, j - i = n → i ≤ j →
    (∀ k, i ≤ k → k < j → (tokens.getD k {}).klass = .comment) →
    (tokens.drop i).filter (·.klass ≠ .comment) = (tokens.drop j).filter (·.klass ≠ .comment)
  | 0, i, hn, hle, _ => by rw [show i = j by omega]
  | n + 1, i, hn, hle, hcomments => by
    have hrest := dropComments tokens j n (i + 1) (by omega) (by omega)
      fun k hk => hcomments k (by omega)
    have hi := hcomments i (Nat.le_refl _) (by omega)
    have hlt : i < tokens.length := by
      by_contra hge
      rw [List.getD_eq_getElem?_getD, List.getElem?_eq_none (by omega)] at hi
      cases hi
    have hget : tokens[i].klass = .comment := by
      rw [← hi, List.getD_eq_getElem?_getD, List.getElem?_eq_getElem hlt, Option.getD_some]
    rw [List.drop_eq_getElem_cons hlt, List.filter_cons_of_neg (by simp [hget]), hrest]

/-- The tokens behind the current one, from the first that is no comment on. -/
theorem behind_of_comments {j : Nat} (hlt : s.tokenAt < j) (hj : j < s.tokens.length)
    (hcomments : ∀ k, s.tokenAt < k → k < j → (s.tokens.getD k {}).klass = .comment)
    (hstop : (s.tokens.getD j {}).klass ≠ .comment) :
    s.behind = classify s.scopes (tokOf (s.tokens.getD j {})) ::
      ((s.tokens.drop (j + 1)).filter (·.klass ≠ .comment)).map
        fun token => classify s.scopes (tokOf token) := by
  have hget : s.tokens.getD j {} = s.tokens[j] := by
    rw [List.getD_eq_getElem?_getD, List.getElem?_eq_getElem hj, Option.getD_some]
  rw [hget] at hstop ⊢
  unfold State.behind
  rw [dropComments _ _ _ _ rfl hlt fun k hk => hcomments k hk, List.drop_eq_getElem_cons hj,
    List.filter_cons_of_pos (by simpa using hstop), List.map_cons]

/-- Nothing is behind the last token that is no comment. -/
theorem behind_of_end (hs : s.tokenAt < s.tokens.length)
    (hcomments : ∀ k, s.tokenAt < k → k < s.tokens.length → (s.tokens.getD k {}).klass = .comment) :
    s.behind = [] := by
  unfold State.behind
  rw [dropComments _ _ _ _ rfl hs fun k hk => hcomments k hk, List.drop_length]
  rfl

/-! ## `next_token` and `peek_token` -/

/-- What `next_token` finds. -/
theorem Sees.next_run (h : Sees s (tok :: tok' :: ts)) : ∃ u, nextToken s = .ok ((), u) ∧
    Sees u (tok' :: ts) ∧ u.prevTokenAt = s.tokenAt ∧ u.tokens.length = s.tokens.length ∧
    (∀ k ≤ s.tokenAt, u.tokens[k]? = s.tokens[k]?) ∧
    (∀ name, u.scopes.lookup name = s.scopes.lookup name) ∧ s.tokenAt < u.tokenAt ∧
    (∀ k, s.tokenAt < k → k < u.tokenAt → (u.tokens.getD k {}).klass = .comment) := by
  have hbehind := h.behind
  rcases nextToken_run h.inBounds with ⟨j, hlt, hj, hcomments, hstop, hnext⟩ | ⟨_, hcomments⟩
  · refine ⟨_, hnext, ?_⟩
    generalize hv : ({ s with
      trace := ⟨.nextToken, s.tokenAt, s.token.klass⟩ :: s.trace, tokenAt := j,
      prevTokenAt := s.tokenAt } : State) = v
    have htokens : v.tokens = s.tokens := by rw [← hv]
    have hat : v.tokenAt = j := by rw [← hv]
    have hscopes : v.scopes = s.scopes := by rw [← hv]
    have hprev : v.prevTokenAt = s.tokenAt := by rw [← hv]
    have hvtoken : v.token = s.tokens.getD j {} := by rw [← hv]; rfl
    have hvlt : v.tokenAt < v.tokens.length := by rw [hat, htokens]; exact hj
    obtain ⟨hlen, hat', hprev', -⟩ := reclassify_same v
    have hlookup : ∀ name, (reclassify v).scopes.lookup name = s.scopes.lookup name :=
        fun name => by
      rw [reclassify_lookup, hscopes]
    rw [behind_of_comments hlt hj hcomments hstop, List.cons.injEq] at hbehind
    have hsame : ∀ k, k ≠ j → (reclassify v).tokens[k]? = s.tokens[k]? := fun k hk => by
      rw [reclassify_get v (.inl (hat ▸ hk)), htokens]
    refine ⟨⟨?_, ?_, h.keywords.congr hlookup⟩, hprev'.trans hprev, ?_, ?_, hlookup, ?_, ?_⟩
    · rw [hat', hlen]
      exact hvlt
    · rw [reclassify_token hvlt, hscopes, hvtoken, hbehind.1, ← hbehind.2]
      unfold State.behind
      rw [hat', classify_congr hlookup, reclassify_drop v (Nat.lt_succ_self _), htokens, hat]
    · rw [hlen, htokens]
    · exact fun k hk => hsame k (by omega)
    · rw [hat', hat]
      exact hlt
    · intro k hk hkj
      rw [hat', hat] at hkj
      have := hcomments k hk hkj
      rwa [List.getD_eq_getElem?_getD, hsame k (by omega), ← List.getD_eq_getElem?_getD]
  · rw [behind_of_end h.inBounds hcomments] at hbehind
    cases hbehind

theorem Sees.next (h : Sees s (tok :: tok' :: ts)) :
    ∃ u, nextToken s = .ok ((), u) ∧ Sees u (tok' :: ts) := by
  obtain ⟨u, hu, hsees, -⟩ := h.next_run
  exact ⟨u, hu, hsees⟩

/-- Nothing that is not looked at here changes what is seen. -/
theorem Sees.same (h : Sees s ts) (hst : Same s t) (hscopes : t.scopes = s.scopes) : Sees t ts := by
  obtain ⟨hb, ha, hk⟩ := h
  refine ⟨?_, ?_, hscopes ▸ hk⟩
  · rw [hst.tokens, hst.tokenAt]
    exact hb
  · rw [hst.token]
    unfold State.behind at ha ⊢
    rw [hst.tokens, hst.tokenAt, hscopes]
    exact ha

/-- A step is noted. -/
theorem Sees.note (h : Sees s ts) (call : Call) :
    ∃ u, note call s = .ok ((), u) ∧ Sees u ts ∧ u.tokens = s.tokens ∧ u.tokenAt = s.tokenAt :=
  ⟨_, rfl, ⟨h.inBounds, h.ahead, h.keywords⟩, rfl, rfl⟩

theorem Sees.peek (h : Sees s (tok :: tok' :: ts)) :
    ∃ token u, peekToken s = .ok (token, u) ∧ tokOf token = tok' ∧ Sees u (tok :: tok' :: ts) := by
  obtain ⟨v, hv, hsees, htokens, hat⟩ := h.note .peekToken
  obtain ⟨u, hu, hu', hprev, hlen, hbefore, hlookup, hlt, hcomments⟩ := hsees.next_run
  rw [htokens] at hlen hbefore
  rw [hat] at hprev hbefore hlt hcomments
  refine ⟨u.token, { u with tokenAt := u.prevTokenAt }, ?_, hu'.token, ?_⟩
  · unfold peekToken
    rw [bind_of_ok hv, bind_of_ok hu]
    rfl
  have hvscopes : v.scopes = s.scopes := (congrArg (fun r => r.2.scopes) (Except.ok.inj hv)).symm
  have htoken : (u.tokens.getD s.tokenAt {}) = s.token := by
    unfold State.token
    rw [List.getD_eq_getElem?_getD, hbefore _ (Nat.le_refl _), ← List.getD_eq_getElem?_getD]
  have hget : u.tokens.getD u.tokenAt {} = u.token := rfl
  have hmem : tok' ∈ s.behind := h.behind ▸ List.mem_cons_self
  unfold State.behind at hmem
  obtain ⟨token, hfilter, rfl⟩ := List.mem_map.mp hmem
  have hne : u.token.klass ≠ .comment := by
    rw [hu'.klass]
    exact h.keywords.classify_ne (t := tokOf token)
      (of_decide_eq_true (List.mem_filter.mp hfilter).2)
  refine ⟨?_, ?_, hu'.keywords⟩
  · show u.prevTokenAt < u.tokens.length
    rw [hprev, hlen]
    exact h.inBounds
  · have hat' : ({ u with tokenAt := u.prevTokenAt } : State).tokenAt = s.tokenAt := hprev
    rw [behind_of_comments (s := { u with tokenAt := u.prevTokenAt }) (j := u.tokenAt)
      (by rw [hat']; exact hlt) hu'.inBounds (by rw [hat']; exact hcomments) hne]
    show tokOf (u.tokens.getD u.prevTokenAt {}) :: classify u.scopes (tokOf u.token) :: u.behind = _
    -- the token was classified already
    rw [hprev, htoken, h.token, hu'.token, hu'.behind,
      classify_congr fun name => (hlookup name).trans (by rw [hvscopes]), classify_classify]

/-! ## Names of types -/

/-- The token once `name` is a type. -/
def retype (name : Cstr) (t : Tok) : Tok :=
  if t.klass = .identifier ∧ t.lexeme = name then { t with klass := .typeIdentifier } else t

theorem lookup_newType (scopes : Scopes) (name : Cstr) (ast : Option Nat) (name' : Cstr) :
    (scopes.newType name ast).lookup name' =
      if name = name' then { scopes.lookup name with idType :=
        { identKind := .type, name := name, scopeLevel := scopes.scopeLevel, ast := ast } ::
          (scopes.lookup name).idType }
      else scopes.lookup name' := Scopes.lookup_bind ..

theorem Regular.newType (h : Regular scopes) (name : Cstr) (ast : Option Nat) :
    Regular (scopes.newType name ast) := fun name' symbol => by
  rw [lookup_newType]
  split
  · exact h name symbol
  · exact h name' symbol

theorem classify_newType (h : Regular scopes) (name : Cstr) (ast : Option Nat) (t : Tok) :
    classify (scopes.newType name ast) t = retype name (classify scopes t) := by
  unfold classify
  by_cases ht : t.klass = .identifier
  · rw [if_pos ht, if_pos ht, lookup_newType]
    unfold retype
    by_cases hname : name = t.lexeme
    · subst hname
      simp only [if_true, wordKlass, and_true]
      cases hkw : (scopes.lookup t.lexeme).idKw.head?.filter (·.identKind = .keyword) with
      | some symbol => exact (if_neg (h _ _ hkw).1).symm
      | none =>
        cases (scopes.lookup t.lexeme).idType.head?.filter (·.identKind = .type) with
        | some symbol => rfl
        | none => rfl
    · rw [if_neg hname, if_neg fun h => hname h.2.symm]
  · rw [if_neg ht, if_neg ht, retype, if_neg fun h => ht h.1]

theorem Sees.newType (h : Sees s (tok :: ts)) (name : Cstr) (ast : Ast) :
    ∃ u, newType name ast s = .ok ((), u) ∧ Sees u (tok :: ts.map (retype name)) := by
  refine ⟨_, rfl, h.inBounds, ?_, h.keywords.newType name ast.id⟩
  show tokOf s.token :: _ = _
  rw [h.token, ← h.behind]
  congr 1
  unfold State.behind
  rw [List.map_map]
  exact List.map_congr_left fun token _ => classify_newType h.keywords name _ _

/-! ## Every text is seen somewhere -/

/-- A state at the first of these tokens. -/
def stateAt (ts : List Tok) : State :=
  { tokens := ts.map fun t => { klass := t.klass, lexeme := t.lexeme, i := t.i }, scopes := {} }

theorem sees_stateAt (h : ∀ t ∈ tok :: ts, t.klass ≠ .comment) :
    Sees (stateAt (tok :: ts)) (tok :: ts) := by
  refine ⟨by simp [stateAt], ?_, fun name symbol hs => by cases hs⟩
  have hclassify : ∀ t : Tok, classify {} t = t := fun t => by
    unfold classify
    split
    · rename_i ht
      rw [show wordKlass (({} : Scopes).lookup t.lexeme) = .identifier from rfl, ← ht]
    · rfl
  have hfilter : (ts.map fun t =>
      ({ klass := t.klass, lexeme := t.lexeme, i := t.i } : Token)).filter
      (·.klass ≠ .comment) = ts.map fun t =>
      { klass := t.klass, lexeme := t.lexeme, i := t.i } := by
    rw [List.filter_eq_self]
    intro token htoken
    obtain ⟨t, ht, rfl⟩ := List.mem_map.mp htoken
    simpa using h t (List.mem_cons_of_mem _ ht)
  show tok :: _ = tok :: ts
  congr 1
  unfold State.behind stateAt
  rw [List.map_cons, List.drop_one, List.tail_cons, hfilter, List.map_map]
  exact (List.map_congr_left fun t _ => hclassify t).trans (List.map_id ts)

end Dp4c.Parse
