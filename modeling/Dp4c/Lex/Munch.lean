import Dp4c.Lex.Lines

/-! # Maximal munch

On a text without a quote the tokens are the longest forms, one after the other,
as long as no backslash stands outside of the comments. -/
namespace Dp4c.Lex

open Dp4c.Lib Dp4c.Lib.Prog

/-- The class of a token that has the form of a class. -/
def munchedClass (prev klass : TokenClass) : TokenClass :=
  if klass = .minus ∧ prev = .parenthOpen then .unaryMinus else klass

/-- The tokens from a position on are the longest forms. The minus sign is unary
after a parenthesis. -/
inductive Munched (text : List UInt8) : TokenClass → Nat → List Token → Prop
  | last {prev : TokenClass} {p : Nat} {token : Token} : p ≤ token.start →
      BlankBetween text p token.start → token.start = text.length →
      token.klass = .endOfInput → Munched text prev p [token]
  | next {prev klass : TokenClass} {p : Nat} {token : Token} {tokens : List Token} :
      p ≤ token.start → BlankBetween text p token.start →
      Munch (text.drop token.start) klass (token.stop - token.start) → token.start < token.stop →
      token.klass = munchedClass prev klass →
      Munched text token.klass token.stop tokens → Munched text prev p (token :: tokens)

/-- Where a character stands. -/
inductive Region where
  | code | blockComment | lineComment

/-- The characters of a text outside of its comments. -/
def uncommented : Region → List UInt8 → List UInt8
  | _, [] => []
  | .code, [c] => [c]
  | .code, c :: c' :: r =>
    if c = 47 ∧ c' = 42 then uncommented .blockComment r
    else if c = 47 ∧ c' = 47 then uncommented .lineComment r
    else c :: uncommented .code (c' :: r)
  | .blockComment, [_] => []
  | .blockComment, c :: c' :: r =>
    if c = 42 ∧ c' = 47 then uncommented .code r else uncommented .blockComment (c' :: r)
  | .lineComment, c :: r =>
    if isNewline c then uncommented .code r else uncommented .lineComment r

variable {memory : Nat → Nat → UInt8} {prev klass : TokenClass} {line p : Nat}
  {r s t text : List UInt8} {n : Nat} {token : Token} {tokens : List Token} {c : UInt8}

/-! ## Outside of the comments -/

theorem uncommented_blockComment : ∀ {t : List UInt8} {n : Nat}, blockEnd t = some n →
    uncommented .blockComment t = uncommented .code (t.drop n)
  | c :: c' :: t, n, h => by
    rw [blockEnd] at h
    rw [uncommented]
    split at h
    · rename_i hc
      obtain rfl := Option.some.inj h
      rw [if_pos hc]
      rfl
    · rename_i hc
      obtain ⟨m, hm, rfl⟩ := Option.map_eq_some_iff.mp h
      rw [if_neg hc, uncommented_blockComment hm]
      rfl

theorem uncommented_lineComment : ∀ {t : List UInt8} {n : Nat}, endAt isNewline t = some n →
    uncommented .lineComment t = uncommented .code (t.drop n)
  | c :: t, n, h => by
    rw [uncommented]
    cases hc : isNewline c with
    | true =>
      rw [endAt_cons_pos hc] at h
      obtain rfl := Option.some.inj h
      rfl
    | false =>
      rw [endAt_cons_neg hc] at h
      obtain ⟨m, hm, rfl⟩ := Option.map_eq_some_iff.mp h
      exact uncommented_lineComment hm

theorem uncommented_cons (hc : c = 47 → (c :: t).getD 1 0 ≠ 42 ∧ (c :: t).getD 1 0 ≠ 47) :
    uncommented .code (c :: t) = c :: uncommented .code t := by
  cases t with
  | nil => rfl
  | cons d t =>
    rw [uncommented, if_neg fun h => (hc h.1).1 h.2, if_neg fun h => (hc h.1).2 h.2]

theorem uncommented_pass : ∀ {l : List UInt8} (t : List UInt8), 47 ∉ l →
    uncommented .code (l ++ t) = l ++ uncommented .code t
  | [], _, _ => rfl
  | c :: l, t, h => by
    rw [List.mem_cons, not_or] at h
    rw [List.cons_append, uncommented_cons fun hc => absurd hc.symm h.1, uncommented_pass t h.2]
    rfl

theorem isBlank_plain (c : UInt8) : isBlank c = true → c ≠ 47 ∧ c ≠ 92 :=
  byte_cases (P := fun c => isBlank c = true → c ≠ 47 ∧ c ≠ 92) (by decide +kernel) c

/-- The blanks before a token are outside of the comments. -/
theorem uncommented_blanks (r : List UInt8) :
    uncommented .code r = r.takeWhile isBlank ++ uncommented .code (skipBlanks r) := by
  have hsplit := List.takeWhile_append_dropWhile (p := isBlank) (l := r)
  have hpass := uncommented_pass (l := r.takeWhile isBlank) (skipBlanks r) fun h =>
    (isBlank_plain 47 (List.mem_takeWhile_imp h)).1 rfl
  calc uncommented .code r
      = uncommented .code (r.takeWhile isBlank ++ r.dropWhile isBlank) := by rw [hsplit]
    _ = r.takeWhile isBlank ++ uncommented .code (skipBlanks r) := hpass

theorem backslash_blanks (r : List UInt8) :
    92 ∈ uncommented .code r ↔ 92 ∈ uncommented .code (skipBlanks r) := by
  rw [uncommented_blanks, List.mem_append]
  refine or_iff_right fun h => ?_
  exact (isBlank_plain 92 (List.mem_takeWhile_imp h)).2 rfl

/-! ## One token -/

/-- Where the token has a form, it is the longest. -/
theorem munch_of_form (hnul : 0 ∉ s) (hstuck : shape s ≠ .stuck)
    (hform : Form klass (s.take (shape s).len)) : Munch s klass (shape s).len := by
  refine ⟨(shape_fits hnul).le, hform, fun {klass' m} hm hform' => ?_⟩
  have hsplit : s.take m ++ s.drop m = s := List.take_append_drop m s
  have hle := form_le (t := s.drop m) hform' (by rwa [hsplit]) (by rwa [hsplit])
  rwa [hsplit, List.length_take, Nat.min_eq_left hm] at hle

/-- What follows the operator of a division is no comment. -/
theorem slash_next (h : shape (47 :: t) = .plain klass n) :
    (47 :: t).getD 1 0 ≠ 42 ∧ (47 :: t).getD 1 0 ≠ 47 := by
  have hslash : slashShape (47 :: t) = .plain klass n := h
  have hupTo : ∀ {make : Nat → Shape} {o : Option Nat}, (∀ m, make m ≠ .plain klass n) →
      Shape.upTo make o ≠ .plain klass n := by
    intro make o hmake
    cases o with
    | none => exact Shape.noConfusion
    | some m => exact hmake m
  unfold slashShape at hslash
  split at hslash
  · exact absurd hslash (hupTo fun _ => Shape.noConfusion)
  · rename_i h42
    split at hslash
    · exact absurd hslash (hupTo fun _ => Shape.noConfusion)
    · rename_i h47
      exact ⟨h42, h47⟩

/-- A token that is no comment is outside of the comments. -/
theorem uncommented_token (hnul : 0 ∉ s) (hquote : 34 ∉ s) (hgo : goesOn s = true)
    (hcomment : (shape s).klass prev ≠ .comment) :
    uncommented .code s = s.take (shape s).len ++ uncommented .code (s.drop (shape s).len) := by
  have hpass : 47 ∉ s.take (shape s).len →
      uncommented .code s = s.take (shape s).len ++ uncommented .code (s.drop (shape s).len) :=
    fun h => by rw [← uncommented_pass _ h, List.take_append_drop]
  unfold goesOn at hgo
  cases hsh : shape s with
  | endOfInput => rw [hsh] at hgo; cases hgo
  | unknown => rw [hsh] at hgo; cases hgo
  | stuck => rw [hsh] at hgo; cases hgo
  | blockComment => rw [hsh] at hcomment; exact absurd rfl hcomment
  | lineComment => rw [hsh] at hcomment; exact absurd rfl hcomment
  | stringLiteral =>
    obtain ⟨t, m, rfl, -⟩ := string_inv hsh
    exact absurd (List.mem_cons_self ..) hquote
  | minus =>
    obtain ⟨t, rfl⟩ := minus_inv hsh
    rw [hsh] at hpass
    exact hpass (by show 47 ∉ [45]; decide)
  | number n =>
    obtain ⟨hof, hdigit⟩ := shape_number hsh
    rw [hsh] at hgo hpass
    refine hpass fun h47 => ?_
    rcases hof.chars hdigit hgo 47 h47 with h | h
    · cases h
    · cases h
  | plain klass n =>
    have hform := (shape_formAt hnul klass n hsh).visible fun hk => by
      rw [hsh] at hcomment
      exact hcomment hk
    rw [hsh] at hpass
    by_cases h47 : 47 ∈ s.take n
    · have htake := hform.2 h47
      have hle : n ≤ s.length := by
        have hfit := (shape_fits hnul).le
        rwa [hsh] at hfit
      have hn : n = 1 := by
        have hlen := congrArg List.length htake
        rw [List.length_take, Nat.min_eq_left hle] at hlen
        exact hlen
      subst hn
      obtain ⟨t, rfl⟩ : ∃ t, s = 47 :: t := by
        cases s with
        | nil => cases htake
        | cons c t => exact ⟨t, by rw [(List.cons.inj htake).1]⟩
      exact uncommented_cons fun _ => slash_next hsh
    · exact hpass h47

/-- A comment is left out. -/
theorem uncommented_comment (hnul : 0 ∉ s) (hcomment : (shape s).klass prev = .comment) :
    uncommented .code s = uncommented .code (s.drop (shape s).len) := by
  cases hsh : shape s with
  | blockComment =>
    obtain ⟨t, m, rfl, hm, rfl⟩ := blockComment_inv hsh
    rw [uncommented, if_pos ⟨rfl, rfl⟩, uncommented_blockComment hm]
    rfl
  | lineComment =>
    obtain ⟨t, m, rfl, hm, rfl⟩ := lineComment_inv hsh
    rw [uncommented, if_neg (by decide), if_pos ⟨rfl, rfl⟩, uncommented_lineComment hm]
    rfl
  | plain klass n =>
    have hmem := (shape_fits hnul).plain hsh
    rw [hsh] at hcomment
    obtain rfl : klass = .comment := hcomment
    exact absurd hmem (by decide)
  | minus =>
    rw [hsh, Shape.klass] at hcomment
    split at hcomment <;> cases hcomment
  | _ => rw [hsh] at hcomment; cases hcomment

/-- A token whose characters have no backslash has the form of its class. -/
theorem token_form (hnul : 0 ∉ s) (hquote : 34 ∉ s) (hgo : goesOn s = true)
    (hback : (shape s).klass prev ≠ .comment → 92 ∉ s.take (shape s).len) :
    ∃ klass, Form klass (s.take (shape s).len) ∧
        (shape s).klass prev = munchedClass prev klass := by
  unfold goesOn at hgo
  cases hsh : shape s with
  | endOfInput => rw [hsh] at hgo; cases hgo
  | unknown => rw [hsh] at hgo; cases hgo
  | stuck => rw [hsh] at hgo; cases hgo
  | blockComment =>
    obtain ⟨t, m, rfl, hm, rfl⟩ := blockComment_inv hsh
    exact ⟨.comment, form_blockComment hm, rfl⟩
  | lineComment =>
    obtain ⟨t, m, rfl, hm, rfl⟩ := lineComment_inv hsh
    exact ⟨.comment, form_lineComment hm, rfl⟩
  | stringLiteral =>
    obtain ⟨t, m, rfl, -⟩ := string_inv hsh
    exact absurd (List.mem_cons_self ..) hquote
  | minus =>
    obtain ⟨t, rfl⟩ := minus_inv hsh
    refine ⟨.minus, .operator (l := [45]) (by decide), ?_⟩
    by_cases hprev : prev = .parenthOpen <;> simp [Shape.klass, munchedClass, hprev]
  | plain klass n =>
    refine ⟨klass, shape_formAt hnul klass n hsh, ?_⟩
    have hmem := (shape_fits hnul).plain hsh
    have hne : klass ≠ .minus := by
      rintro rfl
      exact absurd hmem (by decide)
    rw [munchedClass, if_neg fun h => hne h.1]
    rfl
  | number n =>
    obtain ⟨hof, hdigit⟩ := shape_number hsh
    have hplain : 92 ∉ s.take (n.body + n.bodyLen) := by
      have h := hback (by rw [hsh]; exact TokenClass.noConfusion)
      rwa [hsh] at h
    refine ⟨.integer, .integer (hof.form hdigit ?_), rfl⟩
    obtain ⟨l, hl, -, -⟩ := hof.digits_eq hdigit
    have h92 : s.getD n.body 0 ≠ 92 := by
      intro h92
      rw [take_body, hl, h92] at hplain
      exact hplain (List.mem_append_right _ (List.mem_cons_self ..))
    have hstarts : n.starts s = true := by
      rw [hsh] at hgo
      exact hgo
    rw [Number.starts, Number.first, hl] at hstarts
    unfold Number.plainStart
    cases l with
    | nil => rwa [decode, if_neg h92] at hstarts
    | cons d l => rwa [decode, if_neg h92] at hstarts

/-- **A token is the longest form** exactly if there is no backslash in it,
comments apart. -/
theorem munch_token_iff (prev : TokenClass) (hnul : 0 ∉ s) (hquote : 34 ∉ s)
    (hgo : goesOn s = true) :
    (∃ klass, Munch s klass (shape s).len ∧ (shape s).klass prev = munchedClass prev klass) ↔
      ((shape s).klass prev ≠ .comment → 92 ∉ s.take (shape s).len) := by
  constructor
  · rintro ⟨klass, hmunch, hklass⟩ hcomment h92
    have hne : klass ≠ .comment := by
      rintro rfl
      exact hcomment hklass
    have hvisible := (hmunch.form.visible hne).1 92 h92
    cases hvisible
  · intro hback
    obtain ⟨klass, hform, hklass⟩ := token_form hnul hquote hgo hback
    have hstuck : shape s ≠ .stuck := fun hst => by
      rw [goesOn, hst] at hgo
      cases hgo
    exact ⟨klass, munch_of_form hnul hstuck hform, hklass⟩

/-- What a token and the text after it have outside of the comments. -/
theorem backslash_token (prev : TokenClass) (hnul : 0 ∉ s) (hquote : 34 ∉ s)
    (hgo : goesOn s = true) :
    92 ∉ uncommented .code s ↔ ((shape s).klass prev ≠ .comment → 92 ∉ s.take (shape s).len) ∧
      92 ∉ uncommented .code (s.drop (shape s).len) := by
  by_cases hcomment : (shape s).klass prev = .comment
  · rw [uncommented_comment hnul hcomment]
    exact ⟨fun h => ⟨fun hne => absurd hcomment hne, h⟩, fun h => h.2⟩
  · rw [uncommented_token hnul hquote hgo hcomment, List.mem_append, not_or]
    exact and_congr_left fun _ => ⟨fun h _ => h, fun h => h hcomment⟩

/-! ## All tokens -/

theorem Lexed.munched (h : Lexed memory prev line p r tokens) : 0 ∉ r → 34 ∉ r →
    r = text.drop p → p ≤ text.length →
    (Munched text prev p tokens ↔ 92 ∉ uncommented .code r) := by
  have hsub : ∀ {r : List UInt8} {c : UInt8}, c ∉ r → c ∉ skipBlanks r := fun hc h =>
    hc ((List.dropWhile_sublist isBlank).mem h)
  induction h with
  | @last prev line p r token hat hend =>
    intro hnul hquote hr hp
    have hnil : skipBlanks r = [] := (shape_fits (skipBlanks_noNul hnul)).ends hend
    have hadd := blanks_add r
    have hlen : r.length = text.length - p := by rw [hr, List.length_drop]
    rw [hnil, List.length_nil] at hadd
    rw [backslash_blanks, hnil]
    refine ⟨fun _ h => ?_, fun _ => .last ?_ ?_ ?_ ?_⟩
    · cases h
    · rw [hat.start]
      exact Nat.le_add_right _ _
    · rw [hat.start]
      exact blankBetween_blanks hr
    · rw [hat.start]
      omega
    · rw [hat.klass, hend]
      rfl
  | @next prev line p r token tokens hat hend hunk _ ih =>
    intro hnul hquote hr hp
    have hnul' := skipBlanks_noNul hnul
    have hquote' := hsub hquote
    have hgo := hat.goesOn hend hunk
    have hfit := shape_fits hnul'
    have hpos := hfit.pos hend hat.shape
    have hle := hfit.le
    have hadd := blanks_add r
    have hlen : r.length = text.length - p := by rw [hr, List.length_drop]
    have hstart := hat.start
    have hstop := hat.stop hunk
    have hshape : (shape (skipBlanks r)).len = (nextShape r).len := rfl
    have hafter : afterToken r = text.drop token.stop := by rw [hstop, afterToken_eq hr]
    have hskip : text.drop token.start = skipBlanks r := by
      rw [hstart, ← List.drop_drop, ← hr, drop_blanks]
    have hsize : token.stop - token.start = (shape (skipBlanks r)).len := by omega
    have hrest := ih (afterToken_noNul hnul) (fun h => hquote' ((List.drop_sublist _ _).mem h))
      hafter (by omega)
    have htoken := munch_token_iff prev hnul' hquote' hgo
    rw [backslash_blanks, backslash_token prev hnul' hquote' hgo, ← htoken]
    have hclass : token.klass = (shape (skipBlanks r)).klass prev := hat.klass
    constructor
    · intro hmunched
      cases hmunched with
      | last _ _ _ hklass =>
        rw [hclass] at hklass
        exact absurd ((klass_endOfInput hnul' hat.shape).mp hklass) hend
      | next _ _ hmunch _ hklass hnext =>
        rw [hskip, hsize] at hmunch
        exact ⟨⟨_, hmunch, hclass.symm.trans hklass⟩, hrest.mp hnext⟩
    · rintro ⟨⟨klass, hmunch, hklass⟩, hnext⟩
      have hblank : BlankBetween text p token.start := by
        rw [hstart]
        exact blankBetween_blanks hr
      have hlongest : Munch (text.drop token.start) klass (token.stop - token.start) := by
        rwa [hskip, hsize]
      exact .next (by omega) hblank hlongest (by omega) (hclass.trans hklass) (hrest.mpr hnext)

/-- **The tokens of a text without quotes are the maximal munch** exactly if
there is no backslash outside of its comments. -/
theorem munched_iff (hnul : 0 ∉ text) (hquote : 34 ∉ text) {first : Token}
    (h : tokenize text memory = .ok (first :: tokens)) :
    Munched text first.klass 0 tokens ↔ 92 ∉ uncommented .code text := by
  obtain ⟨rest, hrest, hlexed⟩ := tokenize_ok hnul h
  obtain ⟨rfl, rfl⟩ := List.cons.inj hrest
  exact hlexed.munched hnul hquote rfl (Nat.zero_le _)

/-- The text `a;`. -/
theorem munched_one : ∃ first tokens, tokenize [97, 59] (fun _ _ => 0) = .ok (first :: tokens) ∧
    Munched [97, 59] first.klass 0 tokens := by
  have houtline : outline [97, 59] = some [(.startOfInput, 0, 0), (.identifier, 1, 0),
      (.semicolon, 1, 1), (.endOfInput, 1, 2)] := by decide +kernel
  obtain ⟨tokens, hrun, hmap⟩ := outline_tokens houtline
  obtain ⟨first, tokens, rfl, -, -⟩ := List.map_eq_cons_iff.mp hmap
  exact ⟨first, tokens, hrun, (munched_iff (by decide) (by decide) hrun).mpr (by decide)⟩

/-- The text `0x\5;` is accepted, and its first token has no form. -/
theorem munched_fails : ¬ ∀ (text : List UInt8) (memory : Nat → Nat → UInt8) (first : Token)
    (tokens : List Token), 0 ∉ text → 34 ∉ text → tokenize text memory = .ok (first :: tokens) →
    Munched text first.klass 0 tokens := by
  intro h
  have houtline : outline [48, 120, 92, 53, 59] = some [(.startOfInput, 0, 0), (.integer, 1, 0),
      (.semicolon, 1, 4), (.endOfInput, 1, 5)] := by decide +kernel
  obtain ⟨tokens, hrun, hmap⟩ := outline_tokens houtline
  obtain ⟨first, rest, rfl, -, -⟩ := List.map_eq_cons_iff.mp hmap
  obtain ⟨rest', hrest, hlexed⟩ := tokenize_ok (by decide) hrun
  obtain ⟨rfl, rfl⟩ := List.cons.inj hrest
  have hplain := (hlexed.munched (by decide) (by decide) rfl (Nat.zero_le _)).mp
    (h _ _ _ _ (by decide) (by decide) hrun)
  exact hplain (by decide)

end Dp4c.Lex
