import Dp4c.Lex.Gaps

/-! # Comments in the gaps of a text

A block comment between two tokens is one token more. The token in front of it sees a slash in
the place of a blank, the token behind it a comment in front. -/
namespace Dp4c.Lex

open Dp4c.Lib Dp4c.Lib.Prog

variable {memory memory' : Nat → Nat → UInt8} {prev prev' : TokenClass} {line line' p p' : Nat}
  {l r r' s body u v : List UInt8} {token token' a b : Token} {tokens tokens' pre post : List Token}

/-! ## A comment in the blanks -/

def blockComment (body : List UInt8) : List UInt8 := 47 :: 42 :: (body ++ [42, 47])

/-- The comment ends behind this body. -/
structure IsBody (body : List UInt8) : Prop where
  noNul : 0 ∉ body
  ends : blockEnd (body ++ [42, 47]) = some (body.length + 2)

theorem shape_blockComment (h : IsBody body) (v : List UInt8) :
    shape (blockComment body ++ v) = .blockComment (blockComment body).length := by
  show Shape.upTo _ (blockEnd (body ++ [42, 47] ++ v)) = _
  rw [blockEnd_append v h.ends, blockComment, List.length_cons, List.length_cons,
    List.length_append]
  rfl

theorem skipBlanks_append (hu : ∀ c ∈ u, isBlank c = true) (v : List UInt8) :
    skipBlanks (u ++ v) = skipBlanks v :=
  List.dropWhile_append_of_pos hu

theorem skipBlanks_comment (hu : ∀ c ∈ u, isBlank c = true) (body v : List UInt8) :
    skipBlanks (u ++ (blockComment body ++ v)) = blockComment body ++ v :=
  skipBlanks_append hu _

theorem nextShape_comment (hbody : IsBody body) (hu : ∀ c ∈ u, isBlank c = true) :
    nextShape (u ++ (blockComment body ++ v)) = .blockComment (blockComment body).length :=
  (congrArg shape (skipBlanks_comment hu body v)).trans (shape_blockComment hbody v)

theorem afterToken_comment (hbody : IsBody body) (hu : ∀ c ∈ u, isBlank c = true) :
    afterToken (u ++ (blockComment body ++ v)) = v := by
  rw [afterToken, nextShape_comment hbody hu, skipBlanks_comment hu]
  exact List.drop_left

theorem unaryMinus_inv (hnul : 0 ∉ s) (h : (shape s).klass prev = .unaryMinus) :
    shape s = .minus ∧ prev = .parenthOpen := by
  cases hsh : shape s with
  | minus =>
    rw [hsh, Shape.klass] at h
    exact ⟨rfl, by_contra fun hprev => by rw [if_neg hprev] at h; cases h⟩
  | plain klass n =>
    have hmem := (shape_fits hnul).plain hsh
    rw [hsh] at h
    obtain rfl : klass = .unaryMinus := h
    exact absurd hmem (by decide)
  | _ => rw [hsh] at h; cases h

/-- The rest is read to its end whatever the memory holds, and it says what the tokens say
exactly on a condition. -/
structure SpeaksIf (prev : TokenClass) (r' : List UInt8) (tokens : List Token) (P : Prop) :
    Prop where
  ends : ∀ memory line' p' e, ¬ Aborts memory prev line' p' r' e
  speaks : ∀ memory line' p' tokens', Lexed memory prev line' p' r' tokens' → EndMarked tokens' →
    (speech tokens' = speech tokens ↔ P)

theorem Lexed.head (h : Lexed memory prev line p r (b :: post)) :
    TokenAt memory prev line p r b := by
  cases h <;> assumption

/-- **Behind the comment** the tokens are the same, but for a unary minus sign. -/
theorem Lexed.behind_comment (h : Lexed memory prev line p r (b :: post)) (hsound : AllSound r)
    (hnul : 0 ∉ r) (hmark : EndMarked (b :: post)) (hbody : IsBody body) (hr : r = u ++ v)
    (hu : ∀ c ∈ u, isBlank c = true) (prev' : TokenClass) :
    SpeaksIf prev' (u ++ (blockComment body ++ v)) (b :: post) (b.klass ≠ .unaryMinus) := by
  have hshape := nextShape_comment (v := v) hbody hu
  have hafter := afterToken_comment (v := v) hbody hu
  have heq : skipBlanks v = skipBlanks r := by rw [hr, skipBlanks_append hu]
  constructor
  · intro memory' line' p' e haborts
    cases haborts with
    | fails hfails => rw [hshape] at hfails; exact hfails
    | unknown _ hunk => cases hshape.symm.trans hunk
    | next _ _ _ hrest => exact h.not_aborts hsound hnul heq (hafter ▸ hrest)
  intro memory' line' p' tokens' h' hmark'
  cases h' with
  | last _ hend => cases hshape.symm.trans hend
  | @next _ _ _ _ comment tokens' hat' _ _ hrest' =>
    have hcomment : comment.klass = .comment := hat'.klass.trans (by rw [hshape]; rfl)
    have hmark' := hmark'.tail hrest'
    rw [hafter, hcomment] at hrest'
    rw [speech_comment hcomment]
    constructor
    · intro hspeech hunary
      obtain ⟨hminus, -⟩ := unaryMinus_inv (skipBlanks_noNul hnul) (h.head.klass.symm.trans hunary)
      have hminus' : nextShape v = .minus := (congrArg shape heq).trans hminus
      have hfirst : ∃ first rest, tokens' = first :: rest ∧ first.klass = .minus := by
        cases hrest' with
        | last hat hend => cases hminus'.symm.trans hend
        | next hat => exact ⟨_, _, rfl, hat.klass.trans (by rw [hminus']; rfl)⟩
      obtain ⟨first, rest, rfl, hfirst⟩ := hfirst
      rw [speech_cons (by rw [hfirst]; decide), speech_cons (by rw [hunary]; decide)] at hspeech
      have hklass := congrArg Prod.fst (List.cons.inj hspeech).1
      rw [said, said, hfirst, hunary] at hklass
      cases hklass
    · intro hunary
      refine h.speech_eq hsound hnul hmark heq hrest' hmark' fun hminus => ?_
      refine iff_of_false (by decide) fun hprev => hunary ?_
      rw [h.head.klass, hminus, hprev]
      rfl

/-! ## The tokens in front of the comment -/

/-- A token `l` at the front of two rests. In the second a comment stands behind `u`, which is
where a gap of the first begins if it is empty. -/
structure Opened (body r r' l u v : List UInt8) : Prop where
  rest : skipBlanks r = l ++ (u ++ v)
  rest' : skipBlanks r' = l ++ (u ++ (blockComment body ++ v))
  length : l.length = (nextShape r).len
  pos : l ≠ []
  gap : u = [] → ∃ x t, v = x :: t ∧ isBlank x = true
  noSlash : u = [] → l ≠ [47]

namespace Opened

theorem shape_eq (h : Opened body r r' l u v) : nextShape r' = nextShape r := by
  have hlen := h.length
  rw [nextShape, nextShape, h.rest']
  rw [nextShape, h.rest] at hlen
  rw [h.rest]
  cases u with
  | nil =>
    obtain ⟨x, t, rfl, hx⟩ := h.gap rfl
    exact shape_stands (.inr ⟨hx, rfl⟩) h.pos (.inr (h.noSlash rfl)) hlen.symm _
  | cons z u => exact shape_stands (.inl rfl) h.pos (.inl rfl) hlen.symm _

theorem text (h : Opened body r r' l u v) : (skipBlanks r).take (nextShape r).len = l := by
  rw [h.rest, ← h.length, List.take_left]

theorem text' (h : Opened body r r' l u v) : (skipBlanks r').take (nextShape r).len = l := by
  rw [h.rest', ← h.length, List.take_left]

theorem after (h : Opened body r r' l u v) : afterToken r = u ++ v := by
  rw [afterToken, h.rest, ← h.length, List.drop_left]

theorem after' (h : Opened body r r' l u v) : afterToken r' = u ++ (blockComment body ++ v) := by
  rw [afterToken, h.shape_eq, h.rest', ← h.length, List.drop_left]

theorem getD_text (l m : List UInt8) : (l ++ m).getD l.length 0 = m.getD 0 0 := by
  rw [List.getD_append_right _ _ _ _ (Nat.le_refl _), Nat.sub_self]

theorem next (h : Opened body r r' l u v) :
    (skipBlanks r).getD (nextShape r).len 0 = (u ++ v).getD 0 0 := by
  rw [h.rest, ← h.length, getD_text]

theorem next' (h : Opened body r r' l u v) :
    (skipBlanks r').getD (nextShape r).len 0 = (u ++ (blockComment body ++ v)).getD 0 0 := by
  rw [h.rest', ← h.length, getD_text]

/-- The token sees no difference, unless its last character is a backslash. -/
theorem same (h : Opened body r r' l u v) (hplain : u = [] → 92 ∉ l) :
    SameFront (skipBlanks r) (skipBlanks r') := by
  refine ⟨h.shape_eq, h.text'.trans h.text.symm, ?_⟩
  cases u with
  | nil => exact .inr (h.text.symm ▸ hplain rfl)
  | cons z u => exact .inl (h.next'.trans h.next.symm)

/-- Such a token in front of a gap is a string. -/
theorem string (h : Opened body r r' l u v) (htight : Tight (skipBlanks r) (nextShape r))
    (hu : u = []) (hback : 92 ∈ l) :
    l.getLast? = some 92 ∧ ∃ k, nextShape r = .stringLiteral k := by
  obtain ⟨m, c, htake, hm⟩ := htight.last
  rw [h.text] at htake
  obtain ⟨x, t, rfl, hx⟩ := h.gap hu
  constructor
  · rw [htake, List.mem_append, List.mem_singleton] at hback
    rw [htake, List.getLast?_concat, hback.resolve_left hm]
  · refine htight.string (h.text.symm ▸ hback) ?_
    rw [h.next, hu]
    exact hx

/-- A string that ends with a backslash takes in the character behind it. -/
theorem lexeme_ne (h : Opened body r r' l u v) (hnul : 0 ∉ r) (hu : u = [])
    (hlast : l.getLast? = some 92) (htight : Tight (skipBlanks r) (nextShape r))
    (htext : (nextShape r).isText = true) (hat : TokenAt memory prev line p r token)
    (hat' : TokenAt memory' prev' line' p' r' token') : token'.lexeme ≠ token.lexeme := by
  obtain ⟨m, c, htake, hm⟩ := htight.last
  have hl := h.text
  obtain rfl : c = 92 := by
    rw [h.text.symm.trans htake, List.getLast?_concat] at hlast
    exact Option.some.inj hlast
  obtain ⟨x, t, rfl, hx⟩ := h.gap hu
  have hspelled := (hat.string htext).tight (htight.length _)
  have hspelled' := hat'.string (h.shape_eq.symm ▸ htext)
  rw [h.shape_eq, h.text', ← hl] at hspelled'
  rw [hspelled, hspelled'.tight (htight.length _), h.next, h.next', hu, htake,
    decode_concat _ _ hm, decode_concat _ _ hm]
  have hnul' : 0 ∉ m := fun hmem => skipBlanks_noNul hnul (by
    rw [h.rest, ← hl, htake]
    exact List.mem_append_left _ (List.mem_append_left _ hmem))
  have hblank : x ≠ 0 ∧ escapeChar x = x ∧ x ≠ 47 := by
    revert hx
    exact byte_cases (P := fun x => isBlank x = true → x ≠ 0 ∧ escapeChar x = x ∧ x ≠ 47)
      (by decide +kernel) x
  have hnul'' {c : UInt8} (hc : c ≠ 0) : 0 ∉ m ++ [c] := by
    rw [List.mem_append, List.mem_singleton]
    exact not_or.mpr ⟨hnul', hc.symm⟩
  intro heq
  have hbytes : (cstrOf (m ++ [escapeChar 47])).bytes = (cstrOf (m ++ [escapeChar x])).bytes :=
    congrArg Cstr.bytes heq
  rw [hblank.2.1, cstrOf_bytes (hnul'' (by decide)), cstrOf_bytes (hnul'' hblank.1)] at hbytes
  exact hblank.2.2 (List.singleton_inj.mp (List.append_cancel_left hbytes)).symm

/-- A token in front of a gap says the same, unless it is a string that ends with a backslash and
the comment stands directly behind it. -/
theorem said_iff (h : Opened body r r' l u v) (hsound : Sound (skipBlanks r)) (hnul : 0 ∉ r)
    (hend : nextShape r ≠ .endOfInput) (hunk : nextShape r ≠ .unknown)
    (hat : TokenAt memory prev line p r token) (hat' : TokenAt memory' prev line' p' r' token') :
    (token.klass ≠ .comment → said token' = said token) ↔
      (u = [] → token.klass = .stringLiteral → l.getLast? ≠ some 92) := by
  have hklass : token'.klass = token.klass := by rw [hat'.klass, hat.klass, h.shape_eq]
  have htext := isText_of_goesOn hend hunk hat.shape
  constructor
  · intro hsaid hu hstring hlast
    have hcomment : token.klass ≠ .comment := by rw [hstring]; decide
    refine h.lexeme_ne hnul hu hlast (hat.tight hsound hnul hend hunk hcomment) htext hat hat' ?_
    exact congrArg (·.2.1) (hsaid hcomment)
  · intro hplain hcomment
    have htight := hat.tight hsound hnul hend hunk hcomment
    have hsame : SameFront (skipBlanks r) (skipBlanks r') := h.same fun hu hback => by
      obtain ⟨hlast, k, hshape⟩ := h.string htight hu hback
      refine hplain hu ?_ hlast
      rw [hat.klass, hshape]
      rfl
    obtain ⟨hlexeme, hi⟩ := hat.same hsound hat' hsame htight htext
    rw [said, said, hklass, hlexeme, hi]

theorem not_fails (h : Opened body r r' l u v) (hsound : Sound (skipBlanks r)) (hnul : 0 ∉ r)
    (hend : nextShape r ≠ .endOfInput) (hunk : nextShape r ≠ .unknown)
    (hat : TokenAt memory prev line p r token) {e : Exit} :
    ¬ Fails memory' (skipBlanks r') (nextShape r') e := by
  refine hat.not_fails hsound h.shape_eq fun n hn => h.same fun hu hback => ?_
  have hcomment : token.klass ≠ .comment := by
    rw [hat.klass, hn]
    exact TokenClass.noConfusion
  obtain ⟨-, k, hshape⟩ := h.string (hat.tight hsound hnul hend hunk hcomment) hu hback
  cases hn.symm.trans hshape

/-- A token that is read over memory without digits is at a sound front, also without the
comment. -/
theorem sound (h : Opened body r r' l u v) (hat : TokenAt memory prev line p r token)
    (hat' : TokenAt (fun _ _ => 33) prev' line' p' r' token') : Sound (skipBlanks r) := by
  refine ⟨hat.shape, fun n hn _ => ?_⟩
  have hn' : nextShape r' = .number n := h.shape_eq.trans hn
  have hloose := hat'.sound.2 n hn' (hat'.starts hn')
  have hlen : l.length = n.body + n.bodyLen := by rw [h.length, nextShape, hn]; rfl
  unfold Number.loose at hloose ⊢
  by_cases hlong : 2 ≤ n.bodyLen
  · rwa [h.rest', List.getD_append _ _ _ _ (by omega),
      ← List.getD_append l (u ++ v) 0 n.body (by omega), ← h.rest] at hloose
  · rw [decide_eq_false hlong, Bool.and_false]

end Opened

/-- The text up to the comment starts with the blanks and goes on with the token. -/
theorem skipBlanks_front (hr : r = u ++ v) (hlt : blanks r < u.length) (w : List UInt8) :
    skipBlanks (u ++ w) = u.drop (blanks r) ++ w := by
  have hfront : ∀ c ∈ u.take (blanks r), isBlank c = true := by
    have htake : u.take (blanks r) = r.takeWhile isBlank := by
      rw [← take_blanks, hr, List.take_append_of_le_length (Nat.le_of_lt (hr ▸ hlt))]
    rw [htake]
    exact fun c => List.mem_takeWhile_imp
  have hskip : skipBlanks r = u.drop (blanks r) ++ v := by
    rw [← drop_blanks]
    nth_rewrite 2 [hr]
    exact List.drop_append_of_le_length hlt.le
  obtain ⟨c, m, hdrop⟩ : ∃ c m, u.drop (blanks r) = c :: m := ⟨_, _, drop_eq_cons hlt⟩
  have hhead : isBlank c = false := by
    have hnot := List.head?_dropWhile_not isBlank r
    rw [show r.dropWhile isBlank = skipBlanks r from rfl, hskip, hdrop] at hnot
    exact hnot
  nth_rewrite 1 [← List.take_append_drop (blanks r) u]
  rw [List.append_assoc, skipBlanks_append hfront, hdrop]
  exact List.dropWhile_cons_of_neg (by rw [hhead]; decide)

/-- A token that stops at the comment or before. -/
theorem TokenAt.opened (hat : TokenAt memory prev line p r token) (hnul : 0 ∉ r)
    (hend : nextShape r ≠ .endOfInput) (hunk : nextShape r ≠ .unknown) (hr : r = u ++ v)
    (hstop : token.stop ≤ p + u.length)
    (hgap : token.stop = p + u.length → ∃ x t, v = x :: t ∧ isBlank x = true)
    (hslash : token.klass = .slash → token.stop ≠ p + u.length) (body : List UInt8) :
    ∃ l w, Opened body r (u ++ (blockComment body ++ v)) l w v ∧
      token.stop + w.length = p + u.length ∧ ∃ front, u = front ++ (l ++ w) := by
  have hfits := shape_fits (skipBlanks_noNul hnul)
  have hpos : 0 < (nextShape r).len := hfits.pos hend hat.shape
  have hstop' := hat.stop hunk
  have hlt : blanks r < u.length := by omega
  have hskip := skipBlanks_front hr hlt
  set n := (nextShape r).len with hn
  set m := u.drop (blanks r) with hm
  have hmlen : m.length = u.length - blanks r := by rw [hm, List.length_drop]
  have hlen : (m.take n).length = n := by rw [List.length_take]; omega
  have hrest : skipBlanks r = m.take n ++ (m.drop n ++ v) := by
    rw [← List.append_assoc, List.take_append_drop]
    nth_rewrite 1 [hr]
    exact hskip v
  have hdrop : token.stop + (m.drop n).length = p + u.length := by
    rw [List.length_drop]
    omega
  have hnil (h : m.drop n = []) : token.stop = p + u.length := by
    rw [h, List.length_nil, Nat.add_zero] at hdrop
    exact hdrop
  refine ⟨m.take n, m.drop n, ⟨hrest, ?_, hlen, ?_, fun h => hgap (hnil h), fun h hl => ?_⟩, hdrop,
    u.take (blanks r), ?_⟩
  · rw [hskip, ← List.append_assoc (m.take n), List.take_append_drop]
  · exact List.ne_nil_of_length_pos (hpos.trans_eq hlen.symm)
  · refine hslash ?_ (hnil h)
    rw [hl] at hlen hrest
    have hshape : nextShape r = .plain .slash 1 := by
      rw [nextShape, hrest] at hn ⊢
      exact slash_plain (hn.symm.trans hlen.symm)
    rw [hat.klass, hshape]
    rfl
  · rw [List.take_append_drop, List.take_append_drop]

theorem blank_of_le (h : u.length ≤ blanks (u ++ v)) : ∀ c ∈ u, isBlank c = true := by
  intro c hc
  have htake := take_blanks (u ++ v)
  rw [List.take_append, List.take_of_length_le h] at htake
  exact List.mem_takeWhile_imp (htake ▸ List.mem_append_left _ hc)

theorem singleton_ne (pre : List Token) : [token] ≠ pre ++ a :: b :: post := fun h => by
  have hlen := congrArg List.length h
  simp only [List.length_append, List.length_cons, List.length_nil] at hlen
  omega

/-- A token that is followed by another one is not empty. -/
theorem Lexed.lt_stop (h : Lexed memory prev line p r tokens) : ∀ {pre : List Token},
    tokens = pre ++ a :: b :: post → 0 ∉ r → p < a.stop := by
  induction h with
  | last =>
    intro pre htokens
    exact absurd htokens (singleton_ne pre)
  | @next prev line p r token tokens hat hend hunk hrest ih =>
    intro pre htokens hnul
    have hnul' := skipBlanks_noNul hnul
    have hstop := hat.stop hunk
    cases pre with
    | nil =>
      obtain ⟨rfl, rfl⟩ := List.cons.inj htokens
      have hpos : 0 < (nextShape r).len := (shape_fits hnul').pos hend hat.shape
      omega
    | cons first pre =>
      obtain ⟨rfl, hsplit⟩ := List.cons.inj htokens
      have hlt := ih hsplit (afterToken_noNul hnul)
      omega

/-- The comment stands behind the token and before the end of its gap. -/
theorem TokenAt.opened_here (hat : TokenAt memory prev line p r token)
    (hrest : Lexed memory token.klass token.lineNr token.stop (afterToken r) (b :: post))
    (hnul : 0 ∉ r) (hend : nextShape r ≠ .endOfInput) (hunk : nextShape r ≠ .unknown)
    (hr : r = u ++ v) (hstop : token.stop ≤ p + u.length) (hstart : p + u.length ≤ b.start)
    (hgap : token.stop < b.start) (hslash : token.klass = .slash → token.stop ≠ p + u.length)
    (body : List UInt8) :
    ∃ l w, Opened body r (u ++ (blockComment body ++ v)) l w v ∧ (∀ c ∈ w, isBlank c = true) ∧
      (w = [] ↔ token.stop = p + u.length) ∧ (w = [] → u.getLast? = l.getLast?) := by
  have hb : b.start = token.stop + blanks (afterToken r) := hrest.head.start
  have hv (heq : token.stop = p + u.length) : ∃ x t, v = x :: t ∧ isBlank x = true := by
    have hafter : afterToken r = v := by
      have hdrop : afterToken r = r.drop (0 + blanks r + (nextShape r).len) :=
        afterToken_eq List.drop_zero.symm
      have hlen := hat.stop hunk
      rw [hdrop, show 0 + blanks r + (nextShape r).len = u.length by omega, hr, List.drop_left]
    rw [hafter] at hb
    cases v with
    | nil =>
      have hzero : blanks [] = 0 := rfl
      omega
    | cons x t =>
      refine ⟨x, t, rfl, by_contra fun hx => ?_⟩
      have hzero : blanks (x :: t) = 0 := by rw [blanks, List.takeWhile_cons_of_neg hx]; rfl
      omega
  obtain ⟨l, w, hopened, hlen, front, hfront⟩ := hat.opened hnul hend hunk hr hstop hv hslash body
  rw [hopened.after] at hb
  refine ⟨l, w, hopened, blank_of_le (v := v) (by omega), ?_, fun hw => ?_⟩
  · rw [← List.length_eq_zero_iff]
    omega
  · rw [hfront, hw, List.append_nil, List.getLast?_append_of_ne_nil _ hopened.pos]

/-- The comment stands behind a later token. -/
theorem TokenAt.opened_before (hat : TokenAt memory prev line p r token) (hnul : 0 ∉ r)
    (hend : nextShape r ≠ .endOfInput) (hunk : nextShape r ≠ .unknown) (hr : r = u ++ v)
    (hlt : token.stop < p + u.length) (body : List UInt8) :
    ∃ l w, Opened body r (u ++ (blockComment body ++ v)) l w v ∧ w ≠ [] ∧
      token.stop + w.length = p + u.length ∧ u.getLast? = w.getLast? := by
  obtain ⟨l, w, hopened, hlen, front, hfront⟩ := hat.opened (v := v) hnul hend hunk hr hlt.le
    (fun heq => by omega) (fun _ heq => by omega) body
  have hw : w ≠ [] := List.ne_nil_of_length_pos (by omega)
  refine ⟨l, w, hopened, hw, hlen, ?_⟩
  rw [hfront, ← List.append_assoc, List.getLast?_append_of_ne_nil _ hw]

/-- The comment in front of a token, or behind it, is one of the rest behind that token. -/
theorem Opened.speaksIf {P : Prop} (h : Opened body r r' l u v) (hsound : Sound (skipBlanks r))
    (hnul : 0 ∉ r) (hend : nextShape r ≠ .endOfInput) (hunk : nextShape r ≠ .unknown)
    (hat : TokenAt memory prev line p r token)
    (hrest : SpeaksIf token.klass (u ++ (blockComment body ++ v)) tokens P) :
    SpeaksIf prev r' (token :: tokens)
      ((u = [] → token.klass = .stringLiteral → l.getLast? ≠ some 92) ∧ P) := by
  have hklass {memory' : Nat → Nat → UInt8} {line' p' : Nat} {token' : Token}
      (hat' : TokenAt memory' prev line' p' r' token') : token'.klass = token.klass := by
    rw [hat'.klass, hat.klass, h.shape_eq]
  constructor
  · intro memory' line' p' e haborts
    cases haborts with
    | fails hfails => exact h.not_fails hsound hnul hend hunk hat hfails
    | unknown _ hunk' => exact hunk (h.shape_eq.symm.trans hunk')
    | next hat' _ _ hrest' =>
      rw [h.after', hklass hat'] at hrest'
      exact hrest.ends _ _ _ _ hrest'
  · intro memory' line' p' tokens' h' hmark'
    cases h' with
    | last _ hend' => exact absurd (h.shape_eq.symm.trans hend') hend
    | @next _ _ _ _ token' tokens' hat' _ _ hrest' =>
      have hmark' := hmark'.tail hrest'
      rw [h.after', hklass hat'] at hrest'
      rw [speech_iff (hklass hat'), h.said_iff hsound hnul hend hunk hat hat',
        hrest.speaks _ _ _ _ hrest' hmark']

theorem SpeaksIf.congr {P Q : Prop} (h : SpeaksIf prev r' tokens P) (hPQ : P ↔ Q) :
    SpeaksIf prev r' tokens Q := propext hPQ ▸ h

/-- The fronts behind the comment are those without it. -/
theorem Lexed.sound_behind (h : Lexed (fun _ _ => 33) prev line p
      (u ++ (blockComment body ++ v)) tokens) (hbody : IsBody body)
    (hu : ∀ c ∈ u, isBlank c = true) (fuel : Nat) : ∀ s ∈ frontsFrom fuel (u ++ v), Sound s := by
  intro s hs
  rw [frontsFrom_congr (skipBlanks_append hu v)] at hs
  by_contra hunsound
  cases h with
  | last _ hend => cases (nextShape_comment hbody hu).symm.trans hend
  | next _ _ _ hrest =>
    rw [afterToken_comment hbody hu] at hrest
    exact (unsound_aborts hs hunsound).1 _ _ _ _ hrest

/-- Where the text with the comment is read over memory without digits all fronts of the text
are sound. -/
theorem Lexed.sound_commented (hbody : IsBody body) (h : Lexed memory prev line p r tokens) :
    ∀ {pre : List Token} {u : List UInt8} {prev' : TokenClass} {line' p' : Nat}
      {tokens' : List Token}, tokens = pre ++ a :: b :: post → 0 ∉ r → r = u ++ v →
      a.stop ≤ p + u.length → p + u.length ≤ b.start → a.stop < b.start →
      (a.klass = .slash → a.stop ≠ p + u.length) →
      Lexed (fun _ _ => 33) prev' line' p' (u ++ (blockComment body ++ v)) tokens' →
      ∀ fuel, ∀ s ∈ frontsFrom fuel r, Sound s := by
  induction h with
  | last =>
    intro pre _ _ _ _ _ htokens
    exact absurd htokens (singleton_ne pre)
  | @next prev line p r token tokens hat hend hunk hrest ih =>
    intro pre u prev' line' p' tokens' htokens hnul hr hstop hstart hgap hslash h' fuel
    have hnul' := afterToken_noNul hnul
    have hstep {l w : List UInt8} (hopened : Opened body r (u ++ (blockComment body ++ v)) l w v)
        (hafter : ∀ {prev' line' p' tokens'},
          Lexed (fun _ _ => 33) prev' line' p' (w ++ (blockComment body ++ v)) tokens' →
          ∀ fuel, ∀ s ∈ frontsFrom fuel (afterToken r), Sound s) :
        ∀ s ∈ frontsFrom fuel r, Sound s := by
      cases h' with
      | last _ hend' => exact absurd (hopened.shape_eq.symm.trans hend') hend
      | next hat' _ _ hrest' =>
        rw [hopened.after'] at hrest'
        cases fuel with
        | zero => intro s hs; cases hs
        | succ fuel =>
          rw [frontsFrom_next (hat.goesOn hend hunk), List.forall_mem_cons]
          exact ⟨hopened.sound hat hat', hafter hrest' fuel⟩
    cases pre with
    | nil =>
      obtain ⟨rfl, rfl⟩ := List.cons.inj htokens
      obtain ⟨l, w, hopened, hblank, -⟩ :=
        hat.opened_here hrest hnul hend hunk hr hstop hstart hgap hslash body
      exact hstep hopened fun hrest' => hopened.after ▸ hrest'.sound_behind hbody hblank
    | cons first pre =>
      obtain ⟨rfl, hsplit⟩ := List.cons.inj htokens
      have hlt := hrest.lt_stop hsplit hnul'
      obtain ⟨l, w, hopened, -, hlen, -⟩ :=
        hat.opened_before (v := v) hnul hend hunk hr (by omega) body
      exact hstep hopened fun hrest' => ih hsplit hnul' hopened.after (by omega) (by omega) hgap
        (hlen ▸ hslash) hrest'

/-- **The tokens with a comment in a gap** say the same, unless a unary minus sign is behind the
gap, or the comment stands directly behind a string that ends with a backslash. -/
theorem Lexed.commented (hbody : IsBody body)
    (h : Lexed memory prev line p r tokens) : ∀ {pre : List Token} {u : List UInt8},
      tokens = pre ++ a :: b :: post → AllSound r → 0 ∉ r → EndMarked tokens → r = u ++ v →
      a.stop ≤ p + u.length → p + u.length ≤ b.start → a.stop < b.start →
      (a.klass = .slash → a.stop ≠ p + u.length) →
      SpeaksIf prev (u ++ (blockComment body ++ v)) tokens
        ((a.stop = p + u.length → a.klass = .stringLiteral → u.getLast? ≠ some 92) ∧
          b.klass ≠ .unaryMinus) := by
  induction h with
  | last =>
    intro pre u htokens
    exact absurd htokens (singleton_ne pre)
  | @next prev line p r token tokens hat hend hunk hrest ih =>
    intro pre u htokens hsound hnul hmark hr hstop hstart hgap hslash
    have hnul' := afterToken_noNul hnul
    have hmark' := hmark.tail hrest
    have hsound' := hsound.tail hnul hat hend hunk
    cases pre with
    | nil =>
      obtain ⟨rfl, rfl⟩ := List.cons.inj htokens
      obtain ⟨l, w, hopened, hblank, hnil, hlast⟩ :=
        hat.opened_here hrest hnul hend hunk hr hstop hstart hgap hslash body
      have hbehind := hrest.behind_comment hsound' hnul' hmark' hbody hopened.after hblank
        token.klass
      refine (hopened.speaksIf hsound.head hnul hend hunk hat hbehind).congr
        (and_congr_left fun _ => ?_)
      rw [← hnil]
      exact forall_congr' fun hw => by rw [hlast hw]
    | cons first pre =>
      obtain ⟨rfl, hsplit⟩ := List.cons.inj htokens
      have hlt := hrest.lt_stop hsplit hnul'
      obtain ⟨l, w, hopened, hw, hlen, hlast⟩ :=
        hat.opened_before (v := v) hnul hend hunk hr (by omega) body
      have hcommented := ih hsplit hsound' hnul' hmark' hopened.after (by omega) (by omega) hgap
        (hlen ▸ hslash)
      refine (hopened.speaksIf hsound.head hnul hend hunk hat hcommented).congr ?_
      rw [hlen, hlast]
      exact and_iff_right fun hnil => absurd hnil hw

/-! ## A comment behind a slash -/

theorem slash_inv (hnul : 0 ∉ s) (h : (shape s).klass prev = .slash) :
    shape s = .plain .slash 1 ∧ ∃ t, s = 47 :: t := by
  cases hsh : shape s with
  | minus =>
    rw [hsh, Shape.klass] at h
    split at h <;> cases h
  | plain klass n =>
    have hle := (shape_fits hnul).le
    have hform := shape_formAt hnul klass n hsh
    rw [hsh] at h hle
    obtain rfl : klass = .slash := h
    cases hform with
    | operator hop =>
      have htake : s.take n = [47] := by simpa [operators] using hop
      have hlen : n = 1 := by
        have hlen := congrArg List.length htake
        rw [List.length_take, List.length_singleton] at hlen
        change n ≤ s.length at hle
        omega
      subst hlen
      refine ⟨rfl, s.drop 1, ?_⟩
      rw [← List.singleton_append, ← htake, List.take_append_drop]
  | _ => rw [hsh] at h; cases h

/-- **Behind a slash** a comment is read as a line comment, and the slash is lost. -/
theorem Lexed.slash_commented (h : Lexed memory prev line p r tokens) :
    ∀ {pre : List Token} {u : List UInt8} {line' p' : Nat} {tokens' : List Token},
      tokens = pre ++ a :: b :: post → 0 ∉ r → r = u ++ v → a.klass = .slash →
      a.stop = p + u.length →
      Lexed memory' prev line' p' (u ++ (blockComment [10, 59] ++ v)) tokens' →
      speech tokens' ≠ speech tokens := by
  induction h with
  | last =>
    intro pre _ _ _ _ htokens
    exact absurd htokens (singleton_ne pre)
  | @next prev line p r token tokens hat hend hunk hrest ih =>
    intro pre u line' p' tokens' htokens hnul hr hslash hstop h' hspeech
    have hnul' := afterToken_noNul hnul
    cases pre with
    | nil =>
      obtain ⟨rfl, rfl⟩ := List.cons.inj htokens
      obtain ⟨hshape, t, hs⟩ := slash_inv (skipBlanks_noNul hnul) (hat.klass.symm.trans hslash)
      have hlen := hat.stop hunk
      rw [show (nextShape r).len = 1 from congrArg Shape.len hshape] at hlen
      have hlt : blanks r < u.length := by omega
      have hdrop : u.drop (blanks r) = [47] := by
        have hfront := skipBlanks_front hr hlt v
        have hone : (u.drop (blanks r)).length = 1 := by rw [List.length_drop]; omega
        obtain ⟨c, hc⟩ := List.length_eq_one_iff.mp hone
        rw [← hr, hs, hc] at hfront
        rw [hc, (List.cons.inj hfront).1]
      have hskip : skipBlanks (u ++ (blockComment [10, 59] ++ v)) =
          47 :: 47 :: 42 :: 10 :: 59 :: 42 :: 47 :: v := by
        rw [skipBlanks_front hr hlt, hdrop]
        rfl
      have hline : nextShape (u ++ (blockComment [10, 59] ++ v)) = .lineComment 4 := by
        rw [nextShape, hskip]
        rfl
      have hafter : afterToken (u ++ (blockComment [10, 59] ++ v)) = 59 :: 42 :: 47 :: v := by
        rw [afterToken, hline, hskip]
        rfl
      have hsemicolon : nextShape (59 :: 42 :: 47 :: v) = .plain .semicolon 1 := rfl
      cases h' with
      | last _ hend' => cases hline.symm.trans hend'
      | @next _ _ _ _ comment tokens' hat' _ _ hrest' =>
        have hcomment : comment.klass = .comment := hat'.klass.trans (by rw [hline]; rfl)
        rw [hafter] at hrest'
        rw [speech_comment hcomment] at hspeech
        cases hrest' with
        | last _ hend' => cases hsemicolon.symm.trans hend'
        | @next _ _ _ _ first _ hat'' =>
          have hfirst : first.klass = .semicolon := hat''.klass.trans (by rw [hsemicolon]; rfl)
          rw [speech_cons (by rw [hfirst]; decide), speech_cons (by rw [hslash]; decide)] at hspeech
          have hklass := congrArg Prod.fst (List.cons.inj hspeech).1
          rw [said, said, hfirst, hslash] at hklass
          cases hklass
    | cons first pre =>
      obtain ⟨rfl, hsplit⟩ := List.cons.inj htokens
      have hlt := hrest.lt_stop hsplit hnul'
      obtain ⟨l, w, hopened, -, hlen, -⟩ :=
        hat.opened_before (v := v) hnul hend hunk hr (by omega) [10, 59]
      cases h' with
      | last _ hend' => exact hend (hopened.shape_eq.symm.trans hend')
      | @next _ _ _ _ token' _ hat' _ _ hrest' =>
        have hklass : token'.klass = token.klass := by rw [hat'.klass, hat.klass, hopened.shape_eq]
        rw [hopened.after', hklass] at hrest'
        exact ih hsplit hnul' hopened.after hslash (by omega) hrest'
          ((speech_iff hklass).mp hspeech).2

/-! ## All gaps -/

variable {text : List UInt8} {q : Nat}

/-- The text with a block comment at a position. -/
def withComment (text body : List UInt8) (q : Nat) : List UInt8 :=
  text.take q ++ (blockComment body ++ text.drop q)

/-- Where the first text is read the second is, and but for comments their tokens have the same
classes, lexemes and values, whatever the memory holds. -/
def Invisible (text text' : List UInt8) : Prop :=
  ∀ memory memory' tokens, tokenize text memory = .ok tokens →
    ∃ tokens', tokenize text' memory' = .ok tokens' ∧ speech tokens' = speech tokens

theorem isBody_nil : IsBody [] := ⟨List.not_mem_nil, rfl⟩

theorem withComment_noNul (hnul : 0 ∉ text) (hbody : IsBody body) (q : Nat) :
    0 ∉ withComment text body q := by
  simp only [withComment, blockComment, List.mem_append, List.mem_cons, not_or]
  exact ⟨fun h => hnul (List.mem_of_mem_take h), ⟨by decide, by decide, hbody.noNul, by decide⟩,
    fun h => hnul (List.mem_of_mem_drop h)⟩

theorem tokenize_marked (hnul : 0 ∉ text) (h : tokenize text memory = .ok tokens) :
    EndMarked tokens := fun last hlast => by
  obtain ⟨last', hlast', hlexeme⟩ := tokenize_last hnul h
  obtain rfl := Option.some.inj (hlast'.symm.trans hlast)
  exact hlexeme

theorem Lexed.start_le (h : Lexed memory prev line p r tokens) : ∀ {pre : List Token},
    tokens = pre ++ b :: post → 0 ∉ r → b.start ≤ p + r.length := by
  induction h with
  | @last prev line p r token hat =>
    intro pre htokens _
    have hadd := blanks_add r
    cases pre with
    | nil =>
      obtain ⟨rfl, -⟩ := List.cons.inj htokens
      rw [hat.start]
      omega
    | cons _ pre => cases pre <;> cases (List.cons.inj htokens).2
  | @next prev line p r token tokens hat hend hunk hrest ih =>
    intro pre htokens hnul
    have hadd := blanks_add r
    cases pre with
    | nil =>
      obtain ⟨rfl, -⟩ := List.cons.inj htokens
      rw [hat.start]
      omega
    | cons first pre =>
      obtain ⟨rfl, hsplit⟩ := List.cons.inj htokens
      have hnul' := skipBlanks_noNul hnul
      have hle := ih hsplit (afterToken_noNul hnul)
      have hfit : (nextShape r).len ≤ (skipBlanks r).length := (shape_fits hnul').le
      rw [hat.stop hunk, afterToken, List.length_drop] at hle
      omega

/-- A place in the blanks between two tokens of a run. -/
structure Gap (memory : Nat → Nat → UInt8) (text : List UInt8) (a b : Token) (q : Nat) : Prop where
  run : ∃ pre post, tokenize text memory = .ok (pre ++ a :: b :: post)
  stop : a.stop ≤ q
  start : q ≤ b.start
  blanks : a.stop < b.start

namespace Gap

/-- The two tokens are the start of the input and the first token, or two others. -/
theorem lexed (h : Gap memory text a b q) (hnul : 0 ∉ text) : ∃ rest,
    tokenize text memory = .ok ({ klass := .startOfInput } :: rest) ∧
    Lexed memory .startOfInput 1 0 text rest ∧ EndMarked rest ∧
    (a = { klass := .startOfInput } ∧ (∃ post, rest = b :: post) ∨
      ∃ pre post, rest = pre ++ a :: b :: post) := by
  obtain ⟨pre, post, hrun⟩ := h.run
  obtain ⟨rest, hrest, hlexed⟩ := tokenize_ok hnul hrun
  have hmark := tokenize_marked hnul hrun
  rw [hrest] at hrun hmark
  refine ⟨rest, hrun, hlexed, hmark.tail hlexed, ?_⟩
  cases pre with
  | nil =>
    obtain ⟨rfl, rfl⟩ := List.cons.inj hrest
    exact .inl ⟨rfl, post, rfl⟩
  | cons first pre =>
    obtain ⟨rfl, rfl⟩ := List.cons.inj hrest
    exact .inr ⟨pre, post, rfl⟩

theorem length_take (h : Gap memory text a b q) (hnul : 0 ∉ text) : (text.take q).length = q := by
  obtain ⟨rest, -, hlexed, -, hsplit⟩ := h.lexed hnul
  have hle : b.start ≤ 0 + text.length := by
    rcases hsplit with ⟨-, post, hrest⟩ | ⟨pre, post, hrest⟩
    · exact hlexed.start_le (hrest.trans (List.nil_append _).symm) hnul
    · rw [List.append_cons] at hrest
      exact hlexed.start_le hrest hnul
  have hstart := h.start
  rw [List.length_take]
  omega

/-- In front of the first token there are only blanks. -/
theorem leading (h : Gap memory text a b q) (hnul : 0 ∉ text)
    (hlexed : Lexed memory .startOfInput 1 0 text (b :: post)) :
    ∀ c ∈ text.take q, isBlank c = true := by
  have hb : b.start = 0 + Lex.blanks text := hlexed.head.start
  refine blank_of_le (v := text.drop q) ?_
  have hstart := h.start
  rw [h.length_take hnul, List.take_append_drop]
  omega

theorem speaks {rest : List Token} (h : Gap memory text a b q) (hnul : 0 ∉ text)
    (hrun : tokenize text memory = .ok ({ klass := .startOfInput } :: rest))
    (hsound : ∀ s ∈ fronts text, Sound s) (hslash : a.stop = q → a.klass ≠ .slash)
    (hbody : IsBody body) :
    SpeaksIf .startOfInput (withComment text body q) rest
      ((a.stop = q → a.klass = .stringLiteral → (text.take q).getLast? ≠ some 92) ∧
        b.klass ≠ .unaryMinus) := by
  obtain ⟨rest', hrun', hlexed, hmark, hsplit⟩ := h.lexed hnul
  obtain rfl := (List.cons.inj (Except.ok.inj (hrun.symm.trans hrun'))).2
  have htext : text = text.take q ++ text.drop q := (List.take_append_drop q text).symm
  have hlen := h.length_take hnul
  have hall : AllSound text := ⟨_, Nat.lt_succ_self _, hsound⟩
  rcases hsplit with ⟨rfl, post, rfl⟩ | ⟨pre, post, hrest⟩
  · refine (hlexed.behind_comment hall hnul hmark hbody htext (h.leading hnul hlexed) _).congr ?_
    exact (and_iff_right fun _ hstring => by cases hstring).symm
  · have hcommented := hlexed.commented (u := text.take q) hbody hrest hall hnul hmark htext
      (by rw [hlen, Nat.zero_add]; exact h.stop) (by rw [hlen, Nat.zero_add]; exact h.start)
      h.blanks (by rw [hlen, Nat.zero_add]; exact fun hklass hstop => hslash hstop hklass)
    rwa [hlen, Nat.zero_add] at hcommented

theorem sound (h : Gap memory text a b q) (hnul : 0 ∉ text) (hslash : a.stop = q → a.klass ≠ .slash)
    (hbody : IsBody body) {rest' : List Token}
    (hlexed' : Lexed (fun _ _ => 33) .startOfInput 1 0 (withComment text body q) rest') :
    ∀ s ∈ fronts text, Sound s := by
  obtain ⟨rest, -, hlexed, -, hsplit⟩ := h.lexed hnul
  have htext : text = text.take q ++ text.drop q := (List.take_append_drop q text).symm
  have hlen := h.length_take hnul
  rcases hsplit with ⟨rfl, post, rfl⟩ | ⟨pre, post, hrest⟩
  · have hbehind := hlexed'.sound_behind hbody (h.leading hnul hlexed) (text.length + 1)
    rwa [← htext] at hbehind
  · exact hlexed.sound_commented (u := text.take q) hbody hrest hnul htext
      (by rw [hlen, Nat.zero_add]; exact h.stop) (by rw [hlen, Nat.zero_add]; exact h.start)
      h.blanks (by rw [hlen, Nat.zero_add]; exact fun hklass hstop => hslash hstop hklass) hlexed' _

/-- A slash directly in front of the comment is lost. -/
theorem slash (h : Gap memory text a b q) (hnul : 0 ∉ text) {rest rest' : List Token}
    (hrun : tokenize text memory = .ok ({ klass := .startOfInput } :: rest))
    (hlexed' : Lexed memory' .startOfInput 1 0 (withComment text [10, 59] q) rest')
    (hspeech : speech rest' = speech rest) (hstop : a.stop = q) : a.klass ≠ .slash := by
  intro hslash
  obtain ⟨rest'', hrun', hlexed, -, hsplit⟩ := h.lexed hnul
  obtain rfl := (List.cons.inj (Except.ok.inj (hrun.symm.trans hrun'))).2
  rcases hsplit with ⟨rfl, -⟩ | ⟨pre, post, hrest⟩
  · cases hslash
  · refine hlexed.slash_commented (u := text.take q) hrest hnul
      (List.take_append_drop q text).symm hslash ?_ hlexed' hspeech
    rw [h.length_take hnul, hstop, Nat.zero_add]

end Gap

/-- **The comments in a gap are invisible** exactly if no number of the text ends with a byte of
the memory, no unary minus sign is behind the gap, and the place is neither directly behind a
slash nor directly behind a string that ends with a backslash. -/
theorem invisible_iff (hnul : 0 ∉ text) (h : Gap memory text a b q) :
    (∀ body, IsBody body → Invisible text (withComment text body q)) ↔
      (∀ s ∈ fronts text, Sound s) ∧ b.klass ≠ .unaryMinus ∧
        (a.stop = q → a.klass ≠ .slash ∧
          (a.klass = .stringLiteral → (text.take q).getLast? ≠ some 92)) := by
  obtain ⟨rest, hrun, hlexed, hmark, -⟩ := h.lexed hnul
  have hstart (tokens : List Token) : speech ({ klass := .startOfInput } :: tokens) =
      said { klass := .startOfInput } :: speech tokens := speech_cons (by decide)
  constructor
  · intro hinv
    have hread {body : List UInt8} (hbody : IsBody body) (memory' : Nat → Nat → UInt8) : ∃ rest',
        Lexed memory' .startOfInput 1 0 (withComment text body q) rest' ∧ EndMarked rest' ∧
        speech rest' = speech rest := by
      have hnul' := withComment_noNul hnul hbody q
      obtain ⟨tokens', hrun', hspeech⟩ := hinv body hbody memory memory' _ hrun
      obtain ⟨rest', rfl, hlexed'⟩ := tokenize_ok hnul' hrun'
      rw [hstart, hstart] at hspeech
      exact ⟨rest', hlexed', (tokenize_marked hnul' hrun').tail hlexed',
        (List.cons.inj hspeech).2⟩
    have hslash : a.stop = q → a.klass ≠ .slash := by
      have hbody : IsBody [10, 59] := ⟨by decide, rfl⟩
      obtain ⟨rest', hlexed', -, hspeech⟩ := hread hbody memory
      exact h.slash hnul hrun hlexed' hspeech
    obtain ⟨rest', hlexed', hmark', hspeech⟩ := hread isBody_nil fun _ _ => 33
    have hsound := h.sound hnul hslash isBody_nil hlexed'
    obtain ⟨hstring, hminus⟩ := ((h.speaks hnul hrun hsound hslash isBody_nil).speaks _ _ _ _
      hlexed' hmark').mp hspeech
    exact ⟨hsound, hminus, fun hstop => ⟨hslash hstop, hstring hstop⟩⟩
  · rintro ⟨hsound, hminus, hplace⟩ body hbody memory₁ memory₂ tokens₁ hrun₁
    have hspeaks := h.speaks hnul hrun hsound (fun hstop => (hplace hstop).1) hbody
    have hnul' := withComment_noNul hnul hbody q
    cases hrun₂ : tokenize (withComment text body q) memory₂ with
    | error e => exact absurd (tokenize_error hnul' hrun₂) (hspeaks.ends _ _ _ _)
    | ok tokens₂ =>
      refine ⟨tokens₂, rfl, ?_⟩
      obtain ⟨rest₁, rfl, hlexed₁⟩ := tokenize_ok hnul hrun₁
      obtain ⟨rest₂, rfl, hlexed₂⟩ := tokenize_ok hnul' hrun₂
      have hmark₁ := (tokenize_marked hnul hrun₁).tail hlexed₁
      have hmark₂ := (tokenize_marked hnul' hrun₂).tail hlexed₂
      have hsame := hlexed.speech_eq ⟨_, Nat.lt_succ_self _, hsound⟩ hnul hmark rfl hlexed₁ hmark₁
        fun _ => Iff.rfl
      rw [hstart, hstart, hsame, (hspeaks.speaks _ _ _ _ hlexed₂ hmark₂).mpr
        ⟨fun hstop => (hplace hstop).2, hminus⟩]

/-- The class of a token and its place. -/
def place (token : Token) : TokenClass × Nat × Nat := (token.klass, token.start, token.stop)

theorem gap_of_places {l₁ l₂ : List (TokenClass × Nat × Nat)} {x y : TokenClass × Nat × Nat}
    (h : (tokenize text memory).toOption.map (·.map place) = some (l₁ ++ x :: y :: l₂))
    (hstop : x.2.2 ≤ q) (hstart : q ≤ y.2.1) (hblanks : x.2.2 < y.2.1) :
    ∃ a b, place a = x ∧ place b = y ∧ Gap memory text a b q := by
  obtain ⟨tokens, hrun, hplaces⟩ := ok_of_toOption h
  obtain ⟨pre, behind, rfl, -, hfront⟩ := List.map_eq_append_iff.mp hplaces
  obtain ⟨a, behind, rfl, rfl, hnext⟩ := List.map_eq_cons_iff.mp hfront
  obtain ⟨b, post, rfl, rfl, -⟩ := List.map_eq_cons_iff.mp hnext
  exact ⟨a, b, rfl, rfl, ⟨⟨pre, post, hrun⟩, hstop, hstart, hblanks⟩⟩

/-- Any comment behind the name of `(a - 1)`. -/
theorem invisible_name : ∃ a b, Gap (fun _ _ => 0) [40, 97, 32, 45, 32, 49, 41] a b 2 ∧
    ∀ body, IsBody body → Invisible [40, 97, 32, 45, 32, 49, 41]
      (withComment [40, 97, 32, 45, 32, 49, 41] body 2) := by
  have hplaces : (tokenize [40, 97, 32, 45, 32, 49, 41] fun _ _ => 0).toOption.map
      (·.map place) = some ([(.startOfInput, 0, 0), (.parenthOpen, 0, 1)] ++ (.identifier, 1, 2) ::
        (.minus, 3, 4) :: [(.integer, 5, 6), (.parenthClose, 6, 7), (.endOfInput, 7, 7)]) := by
    decide +kernel
  obtain ⟨a, b, ha, hb, hgap⟩ := gap_of_places (q := 2) hplaces (by decide) (by decide) (by decide)
  have hklass : a.klass = .identifier := congrArg Prod.fst ha
  have hklass' : b.klass = .minus := congrArg Prod.fst hb
  refine ⟨a, b, hgap, (invisible_iff (by decide) hgap).mpr ⟨fun s hs => ?_, ?_, fun _ => ⟨?_, ?_⟩⟩⟩
  · have hfronts : fronts [40, 97, 32, 45, 32, 49, 41] = [[40, 97, 32, 45, 32, 49, 41],
        [97, 32, 45, 32, 49, 41], [45, 32, 49, 41], [49, 41], [41], []] := by decide +kernel
    rw [hfronts] at hs
    simp only [List.mem_cons, List.not_mem_nil, or_false] at hs
    rcases hs with rfl | rfl | rfl | rfl | rfl | rfl
    case inr.inr.inr.inl =>
      refine ⟨by decide +kernel, fun n hn _ => ?_⟩
      cases hn
      rfl
    all_goals exact ⟨by decide, nofun⟩
  · rw [hklass']
    decide
  · rw [hklass]
    decide
  · rw [hklass]
    exact fun h => by cases h

/-- A comment behind the parenthesis of `( -1` makes another operator of the sign. -/
theorem invisible_fails : ¬ ∀ (text body : List UInt8) (memory : Nat → Nat → UInt8) (a b : Token)
    (q : Nat), 0 ∉ text → IsBody body → Gap memory text a b q →
      Invisible text (withComment text body q) := by
  intro h
  have hplaces : (tokenize [40, 32, 45, 49] fun _ _ => 0).toOption.map (·.map place) =
      some ([(.startOfInput, 0, 0)] ++ (.parenthOpen, 0, 1) :: (.unaryMinus, 2, 3) ::
        [(.integer, 3, 4), (.endOfInput, 4, 4)]) := by decide +kernel
  have hsigns (text : List UInt8) {l : List TokenClass}
      (hl : (tokenize text fun _ _ => 0).toOption.map
        (fun tokens => (speech tokens).map (·.1)) = some l) :=
    ok_of_toOption hl
  obtain ⟨a, b, -, -, hgap⟩ := gap_of_places (q := 1) hplaces (by decide) (by decide) (by decide)
  obtain ⟨tokens, hrun, hklasses⟩ := hsigns [40, 32, 45, 49]
    (l := [.startOfInput, .parenthOpen, .unaryMinus, .integer, .endOfInput]) (by decide +kernel)
  obtain ⟨tokens', hrun', hklasses'⟩ := hsigns (withComment [40, 32, 45, 49] [] 1)
    (l := [.startOfInput, .parenthOpen, .minus, .integer, .endOfInput]) (by decide +kernel)
  obtain ⟨tokens'', hrun'', hspeech⟩ :=
    h _ [] _ a b 1 (by decide) isBody_nil hgap (fun _ _ => 0) (fun _ _ => 0) tokens hrun
  obtain rfl := Except.ok.inj (hrun'.symm.trans hrun'')
  rw [hspeech, hklasses] at hklasses'
  cases hklasses'

end Dp4c.Lex
