import Dp4c.Parse.Advance
import Dp4c.Symtable.Operations

/-! # Reading a token again

`peek_token` runs `next_token` and takes the position back, but the class that
`next_token` writes into the array and the entry it makes in the symbol table stay. Reading
the token again finds it classified already, or classifies it as before. -/
namespace Dp4c.Parse

open Dp4c.Lib Dp4c.Lib.Prog Dp4c.Symtable

variable {s t u : State} {i j : Nat}

/-! ## The symbol table of a parse -/

/-- The tables a parse makes of the one of `symtable_init`: it looks names up and declares
types. -/
inductive ParserTable : Scopes → Prop where
  | init {t : Scopes} (h : Scopes.init = .ok t) : ParserTable t
  | enter {t : Scopes} (h : ParserTable t) (name : Cstr) : ParserTable (t.enter name)
  | newType {t : Scopes} (h : ParserTable t) (name : Cstr) (ast : Option Nat) :
      ParserTable (t.newType name ast)

/-- The keyword symbols of a table have classes of this list. -/
def KeywordsIn (classes : List TokenClass) (t : Scopes) : Prop :=
  ∀ name, ∀ k ∈ (t.lookup name).idKw, k.tokenKlass ∈ classes

theorem keywordsIn_addKeywords {classes : List TokenClass} :
    ∀ {kws : List (String × TokenClass)} {t t' : Scopes}, (∀ kw ∈ kws, kw.2 ∈ classes) →
      KeywordsIn classes t → t.addKeywords kws = .ok t' → KeywordsIn classes t'
  | [], _, _, _, ht, h => by
    obtain rfl := Except.ok.inj h
    exact ht
  | (word, klass) :: kws, t, t', hkws, ht, h => by
    unfold Scopes.addKeywords at h
    obtain ⟨t₁, h₁, h⟩ := except_bind_ok h
    refine keywordsIn_addKeywords (fun kw hkw => hkws kw (List.mem_cons_of_mem _ hkw)) ?_ h
    unfold Scopes.addKeyword at h₁
    split at h₁
    · obtain rfl := Except.ok.inj h₁
      intro name k hk
      have hchain : k ∈ ((t.bind .kw (Cstr.ofString word) _).lookup name).chain .kw := hk
      rw [Scopes.chain_bind] at hchain
      split at hchain
      · rcases List.mem_cons.mp hchain with rfl | hold
        · exact hkws (word, klass) List.mem_cons_self
        · exact ht name k hold
      · exact ht name k hchain
    · cases h₁

/-- The keywords of the table keep the classes of `add_all_keywords`. -/
theorem ParserTable.keywordsIn {t : Scopes} (h : ParserTable t) :
    KeywordsIn (keywords.map (·.2)) t := by
  induction h with
  | init h =>
    refine keywordsIn_addKeywords (fun kw hkw => List.mem_map_of_mem hkw) ?_ h
    exact fun name k hk => absurd hk List.not_mem_nil
  | @enter t _ name ih =>
    intro name' k hk
    rw [Scopes.lookup_enter] at hk
    exact ih name' k hk
  | @newType t _ name ast ih =>
    intro name' k hk
    have hchain : k ∈ ((t.newType name ast).lookup name').chain .kw := hk
    rw [Scopes.newType, Scopes.chain_bind, if_neg (by simp)] at hchain
    exact ih name' k hchain

/-- The class `next_token` gives to a token. -/
def readKlass (scopes : Scopes) (token : Token) : TokenClass :=
  if token.klass = .identifier then wordKlass (scopes.lookup token.lexeme) else token.klass

/-- No word is read as a comment. -/
theorem ParserTable.wordKlass_ne {t : Scopes} (h : ParserTable t) (name : Cstr) :
    wordKlass (t.lookup name) ≠ .comment := by
  unfold wordKlass
  split
  · rename_i idKw hkw
    have hmem : idKw ∈ (t.lookup name).idKw :=
      List.mem_of_mem_head? (Option.filter_eq_some_iff.mp hkw).1
    intro hc
    have hin := h.keywordsIn name idKw hmem
    rw [hc] at hin
    exact absurd hin (by decide)
  · split <;> exact fun hc => nomatch hc

/-! ## Where the next token is -/

/-- The token at `j` is the first one after the current token that is no comment. -/
structure NextAt (s : State) (j : Nat) : Prop where
  after : s.tokenAt < j
  inBounds : j < s.tokens.length
  comments : ∀ k, s.tokenAt < k → k < j → (s.tokens.getD k {}).klass = .comment
  token : (s.tokens.getD j {}).klass ≠ .comment

theorem NextAt.unique (h : NextAt s i) (h' : NextAt s j) : i = j := by
  rcases Nat.lt_trichotomy i j with hlt | heq | hlt
  · exact absurd (h'.comments i h.after hlt) h.token
  · exact heq
  · exact absurd (h.comments j h'.after hlt) h'.token

/-- `next_token` goes to the next token. -/
theorem NextAt.nextToken (h : NextAt s j) :
    nextToken s = .ok ((), reclassify { s with
      trace := ⟨.nextToken, s.tokenAt, s.token.klass⟩ :: s.trace, tokenAt := j,
      prevTokenAt := s.tokenAt }) := by
  have hin : s.tokenAt < s.tokens.length := Nat.lt_trans h.after h.inBounds
  rcases nextToken_run hin with ⟨i, hlt, hi, hcomments, hstop, hrun⟩ | ⟨-, hcomments⟩
  · obtain rfl := h.unique ⟨hlt, hi, hcomments, hstop⟩
    exact hrun
  · exact absurd (hcomments j h.after h.inBounds) h.token

/-- `peek_token` reads the next token and goes back. -/
theorem NextAt.peekToken (h : NextAt s j) : ∃ t, peekToken s = .ok (t.token, { t with
      tokenAt := s.tokenAt }) ∧ t = reclassify { s with
        trace := ⟨.nextToken, s.tokenAt, s.token.klass⟩ :: ⟨.peekToken, s.tokenAt, s.token.klass⟩ ::
          s.trace,
        tokenAt := j, prevTokenAt := s.tokenAt } := by
  let s' : State := { s with trace := ⟨.peekToken, s.tokenAt, s.token.klass⟩ :: s.trace }
  have hnext : NextAt s' j := ⟨h.after, h.inBounds, h.comments, h.token⟩
  refine ⟨_, ?_, rfl⟩
  unfold Parse.peekToken
  have hnote : note .peekToken s = .ok ((), s') := rfl
  rw [bind_of_ok hnote, bind_of_ok hnext.nextToken]
  generalize hu : ({ s' with
    trace := ⟨.nextToken, s'.tokenAt, s'.token.klass⟩ :: s'.trace, tokenAt := j,
    prevTokenAt := s'.tokenAt } : State) = u
  have hprev : (reclassify u).prevTokenAt = s.tokenAt := by
    rw [(reclassify_same u).2.2.1, ← hu]
  show Except.ok ((reclassify u).token,
    { reclassify u with tokenAt := (reclassify u).prevTokenAt }) =
    _
  rw [hprev, ← hu]
  rfl

/-! ## Classes -/

/-- The token at `j` has its class. -/
def Settled (s : State) (j : Nat) (token : Token) : Prop :=
  s.tokens[j]? = some token ∧ readKlass s.scopes token = token.klass

theorem State.token_of {token : Token} (h : s.tokens[s.tokenAt]? = some token) :
    s.token = token := by
  rw [State.token, List.getD_eq_getElem?_getD, h, Option.getD_some]

theorem reclassify_identifier (h : s.token.klass = .identifier) : reclassify s = { s with
    tokens := s.tokens.set s.tokenAt
      { s.token with klass := wordKlass (s.scopes.lookup s.token.lexeme) },
    scopes := s.scopes.enter s.token.lexeme } := by
  unfold reclassify
  rw [if_pos h]
  simp only [Scopes.lookup_enter]

theorem reclassify_other (h : s.token.klass ≠ .identifier) : reclassify s = s := if_neg h

/-- The class `next_token` writes is the one it reads from then on. -/
theorem reclassify_settled {token : Token} (h : s.tokens[s.tokenAt]? = some token) :
    Settled (reclassify s) s.tokenAt { token with klass := readKlass s.scopes token } ∧
      ∀ name, (reclassify s).scopes.lookup name = s.scopes.lookup name := by
  have hlt := (List.getElem?_eq_some_iff.mp h).1
  have htoken := State.token_of h
  unfold Settled readKlass
  by_cases hid : token.klass = .identifier
  · rw [reclassify_identifier (by rw [htoken]; exact hid), if_pos hid, htoken]
    refine ⟨⟨List.getElem?_set_self hlt, ?_⟩, fun name => Scopes.lookup_enter ..⟩
    split
    · exact congrArg wordKlass (Scopes.lookup_enter ..)
    · rfl
  · rw [reclassify_other (by rw [htoken]; exact hid), if_neg hid]
    exact ⟨⟨h, if_neg hid⟩, fun _ => rfl⟩

/-- A token that has its class keeps it, and the array stays as it is. -/
theorem Settled.stays {token : Token} (h : Settled s s.tokenAt token) :
    (reclassify s).tokens = s.tokens ∧ (reclassify s).token = token := by
  obtain ⟨hget, hklass⟩ := h
  have htoken := State.token_of hget
  have htokens : (reclassify s).tokens = s.tokens := by
    by_cases hid : token.klass = .identifier
    · rw [readKlass, if_pos hid] at hklass
      rw [reclassify_identifier (by rw [htoken]; exact hid), htoken, hklass]
      refine List.ext_getElem? fun k => ?_
      rw [List.getElem?_set]
      split
      · rename_i hk
        rw [← hk, if_pos (List.getElem?_eq_some_iff.mp hget).1, hget]
      · rfl
    · rw [reclassify_other (by rw [htoken]; exact hid)]
  refine ⟨htokens, State.token_of ?_⟩
  rw [htokens, (reclassify_same s).2.1, hget]

/-! ## Reading again -/

/-- A state of a parse in which a token follows. -/
structure Standing (s : State) : Prop where
  inBounds : s.tokenAt < s.tokens.length
  ends : EndsInput s.tokens
  notEnd : s.token.klass ≠ .endOfInput
  table : ParserTable s.scopes

theorem Standing.nextAt (h : Standing s) : ∃ j, NextAt s j := by
  rcases nextToken_run h.inBounds with ⟨j, hlt, hj, hcomments, hstop, -⟩ | ⟨-, hcomments⟩
  · exact ⟨j, hlt, hj, hcomments, hstop⟩
  · exact absurd h.ends (not_endsInput h.inBounds (.inl h.notEnd) hcomments)

/-- The same tokens, position and bindings: the parser may have done anything in between but
move on or declare a type. -/
structure Unmoved (s t : State) : Prop where
  tokens : t.tokens = s.tokens
  tokenAt : t.tokenAt = s.tokenAt
  lookup : ∀ name, t.scopes.lookup name = s.scopes.lookup name

theorem Unmoved.trans (h : Unmoved s t) (h' : Unmoved t u) : Unmoved s u :=
  ⟨h'.tokens.trans h.tokens, h'.tokenAt.trans h.tokenAt,
    fun name => (h'.lookup name).trans (h.lookup name)⟩

theorem Unmoved.nextAt (h : Unmoved s t) (hj : NextAt s j) : NextAt t j :=
  ⟨h.tokenAt ▸ hj.after, h.tokens ▸ hj.inBounds,
    fun k hk hkj => by rw [h.tokens]; exact hj.comments k (h.tokenAt ▸ hk) hkj,
    by rw [h.tokens]; exact hj.token⟩

theorem Unmoved.settled {token : Token} (h : Unmoved s t) (hj : Settled s j token) :
    Settled t j token := by
  refine ⟨by rw [h.tokens]; exact hj.1, ?_⟩
  rw [← hj.2]
  unfold readKlass
  rw [h.lookup]

/-- `n` calls of `peek_token`. -/
def peeks : Nat → Parser (List Token)
  | 0 => pure []
  | n + 1 => do
    let token ← peekToken
    let tokens ← peeks n
    return token :: tokens

/-- A step back to the token that is read makes no difference. -/
theorem Settled.read {token : Token} (h : Settled s j token) (trace : List Step) :
    (reclassify { s with trace := trace, tokenAt := j, prevTokenAt := s.tokenAt }).tokens =
        s.tokens ∧
      (reclassify { s with trace := trace, tokenAt := j, prevTokenAt := s.tokenAt }).token = token ∧
      ∀ name, (reclassify { s with
        trace := trace, tokenAt := j, prevTokenAt := s.tokenAt }).scopes.lookup name =
          s.scopes.lookup name := by
  generalize hu : ({ s with trace := trace, tokenAt := j, prevTokenAt := s.tokenAt } : State) = u
  have hsettled : Settled u u.tokenAt token := by
    rw [← hu]
    exact h
  obtain ⟨htokens, htoken⟩ := hsettled.stays
  refine ⟨htokens.trans (by rw [← hu]), htoken, fun name => ?_⟩
  rw [(reclassify_settled hsettled.1).2 name, ← hu]

/-- A token that has its class is read with it, by looking ahead any number of times and then
by going on. -/
theorem Settled.peeks {token : Token} : ∀ (n : Nat) {s : State}, NextAt s j → Settled s j token →
    ∃ t u, peeks n s = .ok (List.replicate n token, t) ∧ Unmoved s t ∧ nextToken t = .ok ((), u) ∧
      u.tokenAt = j ∧ u.token = token ∧ u.tokens = s.tokens
  | 0, s, hs, h => by
    obtain ⟨htokens, htoken, -⟩ := h.read (⟨.nextToken, s.tokenAt, s.token.klass⟩ :: s.trace)
    exact ⟨s, _, rfl, ⟨rfl, rfl, fun _ => rfl⟩, hs.nextToken, (reclassify_same _).2.1, htoken,
      htokens⟩
  | n + 1, s, hs, h => by
    obtain ⟨t, hpeek, ht⟩ := hs.peekToken
    obtain ⟨htokens, htoken, hlookup⟩ := h.read _
    rw [← ht] at htokens htoken hlookup
    have hsame : Unmoved s { t with tokenAt := s.tokenAt } := ⟨htokens, rfl, hlookup⟩
    obtain ⟨v, w, hpeeks, hv, hnext, hat, hw, hwt⟩ :=
      Settled.peeks n (hsame.nextAt hs) (hsame.settled h)
    refine ⟨v, w, ?_, hsame.trans hv, hnext, hat, hw, hwt.trans htokens⟩
    unfold Parse.peeks
    rw [bind_of_ok hpeek, bind_of_ok hpeeks, htoken]
    rfl

end Dp4c.Parse
