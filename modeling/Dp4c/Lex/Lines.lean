import Dp4c.Lex.Forms

/-! # Line numbers

The analyzer counts a line comment's line break apart from what follows it, and
leaves out the line breaks of string literals. -/
namespace Dp4c.Lex

open Dp4c.Lib Dp4c.Lib.Prog

/-- The length of the run after a line break in which every character makes a
pair with the one before. -/
def alternating (c : UInt8) : List UInt8 → Nat
  | [] => 0
  | d :: l => if isPair c d then alternating d l + 1 else 0

/-- A line comment whose line break is counted twice: the run after it that
alternates is odd. -/
def doubled (r : List UInt8) : Nat :=
  match shape r with
  | .lineComment n => alternating (r.getD (n - 1) 0) (r.drop n) % 2
  | _ => 0

/-- The line breaks in a string literal. -/
def missed (r : List UInt8) : Nat :=
  match shape r with
  | .stringLiteral n => breaks (r.take n)
  | _ => 0

variable {memory : Nat → Nat → UInt8} {prev : TokenClass} {line p : Nat} {r s text : List UInt8}
  {token : Token} {tokens : List Token} {c : UInt8}

/-! ## Counting in parts -/

theorem breaks_alternating : ∀ {l : List UInt8} {c : UInt8}, isNewline c = true →
    breaks (c :: l) + alternating c l % 2 = breaks l + 1
  | [], c, hc => by simp [breaks, alternating, hc]
  | d :: l, c, hc => by
    cases hp : isPair c d with
    | true =>
      have ih := breaks_alternating (l := l) (isPair_newline hc hp)
      rw [breaks_cons_pair hc hp, alternating, if_pos hp]
      omega
    | false =>
      rw [breaks_cons_single (l := d :: l) hc hp, alternating,
        if_neg (by rw [hp]; exact Bool.false_ne_true)]

theorem newline_blank (c : UInt8) : isNewline c = true → isBlank c = true :=
  byte_cases (P := fun c => isNewline c = true → isBlank c = true) (by decide +kernel) c

/-- The alternating run is made of blanks. -/
theorem alternating_blanks : ∀ {l : List UInt8} {c : UInt8}, isNewline c = true →
    alternating c (l.takeWhile isBlank) = alternating c l
  | [], _, _ => rfl
  | d :: l, c, hc => by
    cases hp : isPair c d with
    | true =>
      have hd := isPair_newline hc hp
      rw [List.takeWhile_cons_of_pos (newline_blank d hd), alternating, alternating,
        alternating_blanks hd]
    | false =>
      have hno : ¬ isPair c d = true := by rw [hp]; exact Bool.false_ne_true
      rw [alternating, if_neg hno]
      by_cases hd : isBlank d = true
      · rw [List.takeWhile_cons_of_pos hd, alternating, if_neg hno]
      · rw [List.takeWhile_cons_of_neg hd]
        rfl

theorem breaks_skip : ∀ {l : List UInt8} (l' : List UInt8), (∀ c ∈ l, isNewline c = false) →
    breaks (l ++ l') = breaks l'
  | [], _, _ => rfl
  | c :: l, l', h => by
    rw [List.cons_append, breaks_cons_of_not (h c (List.mem_cons_self ..)),
      breaks_skip l' fun d hd => h d (List.mem_cons_of_mem _ hd)]

theorem breaks_concat (hc : isNewline c = false) : ∀ l : List UInt8, breaks (l ++ [c]) = breaks l
  | [] => by rw [List.nil_append, breaks_cons_of_not hc]
  | [d] => by
    cases hd : isNewline d with
    | true =>
      have hp : isPair d c = false := by
        by_contra hp
        rw [isPair_newline hd (by simpa using hp)] at hc
        cases hc
      rw [List.singleton_append, breaks_cons_single (l := [c]) hd hp, breaks_cons_of_not hc]
      simp [breaks, hd]
    | false => rw [List.singleton_append, breaks_cons_of_not hd, breaks_cons_of_not hc,
        breaks_cons_of_not hd]
  | d :: d' :: l => by
    cases hd : isNewline d with
    | true =>
      cases hp : isPair d d' with
      | true =>
        rw [List.cons_append, List.cons_append, breaks_cons_pair hd hp, breaks_cons_pair hd hp,
          breaks_concat hc l]
      | false =>
        rw [List.cons_append, breaks_cons_single (l := d' :: l ++ [c]) hd hp,
          breaks_cons_single (l := d' :: l) hd hp, breaks_concat hc (d' :: l)]
    | false =>
      rw [List.cons_append, breaks_cons_of_not hd, breaks_cons_of_not hd,
        breaks_concat hc (d' :: l)]

/-- Line breaks are counted apart before and after any other character. -/
theorem breaks_split (hc : isNewline c = false) (l l' : List UInt8) :
    breaks (l ++ c :: l') = breaks l + breaks (c :: l') := by
  rw [breaks_append hc, breaks_concat hc, breaks_cons_of_not hc]

/-! ## One token -/

theorem blockEnd_split : ∀ {l : List UInt8} {n : Nat}, blockEnd l = some n →
    ∃ a, l.take n = a ++ [42, 47]
  | c :: c' :: l, n, h => by
    rw [blockEnd] at h
    split at h
    · rename_i hc
      obtain rfl := Option.some.inj h
      exact ⟨[], by rw [hc.1, hc.2]; rfl⟩
    · obtain ⟨m, hm, rfl⟩ := Option.map_eq_some_iff.mp h
      obtain ⟨a, ha⟩ := blockEnd_split hm
      exact ⟨c :: a, by rw [List.take_succ_cons, ha]; rfl⟩

/-- The line breaks of a token and of the blanks after it. -/
theorem token_breaks (hat : TokenAt memory prev line p r token) (hend : nextShape r ≠ .endOfInput)
    (hunk : nextShape r ≠ .unknown) (hnul : 0 ∉ r) :
    (nextShape r).lines (skipBlanks r) + breaks ((afterToken r).takeWhile isBlank) +
        missed (skipBlanks r) =
      breaks ((skipBlanks r).take (nextShape r).len ++ (afterToken r).takeWhile isBlank) +
        doubled (skipBlanks r) := by
  have hnul' := skipBlanks_noNul hnul
  have hstarts := fun n => hat.starts (n := n)
  have hstuck := hat.shape
  rw [afterToken, nextShape] at *
  generalize skipBlanks r = s at *
  have hplain : (∀ c ∈ s.take (shape s).len, isNewline c = false) →
      breaks ((s.drop (shape s).len).takeWhile isBlank) =
        breaks (s.take (shape s).len ++ (s.drop (shape s).len).takeWhile isBlank) :=
    fun h => (breaks_skip _ h).symm
  have hvisible : ∀ {c : UInt8}, isVisible c = true → isNewline c = false := by
    intro c hc
    rw [isVisible, Bool.and_eq_true, Bool.and_eq_true, Bool.and_eq_true] at hc
    simpa using hc.1.1.1
  unfold missed doubled
  cases hsh : shape s with
  | endOfInput => exact absurd hsh hend
  | unknown => exact absurd hsh hunk
  | stuck => exact absurd hsh hstuck
  | plain klass n =>
    have hform := (shape_formAt hnul' klass n hsh).visible fun hk => by
      have hmem := (shape_fits hnul').plain hsh
      rw [hk] at hmem
      exact absurd hmem (by decide)
    rw [hsh] at hplain
    have hbreaks := hplain fun c hc => hvisible (hform.1 c hc)
    simpa only [Shape.lines, Shape.len, Nat.zero_add, Nat.add_zero] using hbreaks
  | minus =>
    obtain ⟨t, rfl⟩ := minus_inv hsh
    rw [hsh] at hplain
    have hbreaks := hplain fun c hc => by
      obtain rfl := List.mem_singleton.mp hc
      rfl
    simpa only [Shape.lines, Shape.len, Nat.zero_add, Nat.add_zero] using hbreaks
  | number n =>
    obtain ⟨hof, hdigit⟩ := shape_number hsh
    have hchars := hof.chars hdigit (hstarts n hsh)
    rw [hsh] at hplain
    have hbreaks := hplain fun c hc => by
      rcases hchars c hc with hc | rfl
      · exact hvisible (wordChar_visible c hc).1
      · rfl
    simpa only [Shape.lines, Shape.len, Nat.zero_add, Nat.add_zero] using hbreaks
  | blockComment n =>
    obtain ⟨t, m, rfl, hm, rfl⟩ := blockComment_inv hsh
    obtain ⟨a, ha⟩ := blockEnd_split hm
    have htake : (47 :: 42 :: t).take (m + 2) = (47 :: 42 :: (a ++ [42])) ++ [47] := by
      rw [List.take_succ_cons, List.take_succ_cons, ha]
      simp
    simp only [Shape.lines, Shape.len, Nat.add_zero]
    rw [htake, List.append_assoc, List.singleton_append]
    exact (breaks_append (c := 47) rfl _ _).symm
  | lineComment n =>
    obtain ⟨t, m, rfl, hm, rfl⟩ := lineComment_inv hsh
    obtain ⟨a, d, b, rfl, rfl, hd, ha⟩ := endAt_split hm
    have htake : (47 :: 47 :: (a ++ d :: b)).take (a.length + 1 + 2) = (47 :: 47 :: a) ++ [d] := by
      rw [List.take_succ_cons, List.take_succ_cons, take_split]
      rfl
    have hdrop : (47 :: 47 :: (a ++ d :: b)).drop (a.length + 1 + 2) = b := by
      rw [List.drop_succ_cons, List.drop_succ_cons, drop_split]
    have hget : (47 :: 47 :: (a ++ d :: b)).getD (a.length + 1 + 2 - 1) 0 = d := by
      rw [← headD_drop, show a.length + 1 + 2 - 1 = a.length + 2 from rfl, List.drop_succ_cons,
        List.drop_succ_cons, List.drop_left]
      rfl
    have hskip := breaks_skip (l := 47 :: 47 :: a) (d :: b.takeWhile isBlank) fun c hc => by
      simp only [List.mem_cons] at hc
      rcases hc with rfl | rfl | hc
      · rfl
      · rfl
      · exact ha c hc
    have halt := breaks_alternating (l := b.takeWhile isBlank) hd
    rw [alternating_blanks hd] at halt
    simp only [Shape.lines, Shape.len]
    rw [htake, hdrop, hget, List.append_assoc, List.singleton_append, hskip]
    omega
  | stringLiteral n =>
    obtain ⟨t, m, rfl, hm, rfl⟩ := string_inv hsh
    obtain ⟨a, d, b, rfl, rfl, hd, ha⟩ := endAt_split hm
    have hdnl : isNewline d = false := by
      rw [isStringEnd, Bool.or_eq_true, beq_iff_eq, beq_iff_eq] at hd
      rcases hd with rfl | rfl <;> rfl
    have htake : (34 :: (a ++ d :: b)).take (a.length + 1 + 1) = (34 :: a) ++ [d] := by
      rw [List.take_succ_cons, take_split]
      rfl
    simp only [Shape.lines, Shape.len, Nat.add_zero, Nat.zero_add]
    rw [htake, List.append_assoc, List.singleton_append, Nat.add_comm]
    exact (breaks_append hdnl _ _).symm

/-! ## All tokens -/

theorem skipBlanks_head (r : List UInt8) {c : UInt8} (h : (skipBlanks r).head? = some c) :
    isNewline c = false := by
  have hblank : isBlank c = false := by
    have hnot := List.head?_dropWhile_not isBlank r
    rw [show r.dropWhile isBlank = skipBlanks r from rfl, h] at hnot
    simpa using hnot
  by_contra hnl
  rw [newline_blank c (by simpa using hnl)] at hblank
  cases hblank

/-- Up to the next token the text goes on with the token and the blanks. -/
theorem take_next (hr : r = text.drop p) :
    text.take (p + blanks r + (nextShape r).len + blanks (afterToken r)) =
      text.take (p + blanks r) ++
        ((skipBlanks r).take (nextShape r).len ++ (afterToken r).takeWhile isBlank) := by
  have hskip : text.drop (p + blanks r) = skipBlanks r := by
    rw [← List.drop_drop, ← hr, drop_blanks]
  have hrest : (skipBlanks r).take ((nextShape r).len + blanks (afterToken r)) =
      (skipBlanks r).take (nextShape r).len ++ (afterToken r).takeWhile isBlank := by
    rw [List.take_add, ← take_blanks]
    rfl
  rw [Nat.add_assoc (p + blanks r), List.take_add, hskip, hrest]

theorem breaks_next (hr : r = text.drop p) (hlen : 0 < (nextShape r).len) (hs : skipBlanks r ≠ []) :
    breaks (text.take (p + blanks r + (nextShape r).len + blanks (afterToken r))) =
      breaks (text.take (p + blanks r)) +
        breaks ((skipBlanks r).take (nextShape r).len ++ (afterToken r).takeWhile isBlank) := by
  obtain ⟨c, l, hc⟩ := List.exists_cons_of_ne_nil hs
  obtain ⟨n, hn⟩ : ∃ n, (nextShape r).len = n + 1 := ⟨(nextShape r).len - 1, by omega⟩
  have hnl := skipBlanks_head r (c := c) (by rw [hc]; rfl)
  rw [take_next hr, hc, hn, List.take_succ_cons, List.cons_append, breaks_split hnl]

/-- The counter is right but for the breaks counted twice and those missed. -/
theorem Lexed.lineNr (h : Lexed memory prev line p r tokens) : ∀ {fuel twice never : Nat},
    0 ∉ r → r = text.drop p → r.length < fuel →
    line + breaks (r.takeWhile isBlank) + never = 1 + breaks (text.take (p + blanks r)) + twice →
    ∀ k token, tokens[k]? = some token → token.klass ≠ .comment →
      token.lineNr + (never + (((frontsFrom fuel r).take k).map missed).sum) =
        1 + breaks (text.take token.start) +
          (twice + (((frontsFrom fuel r).take k).map doubled).sum) := by
  have hfirst : ∀ {prev line p r token} {twice never : Nat}, TokenAt memory prev line p r token →
      line + breaks (r.takeWhile isBlank) + never = 1 + breaks (text.take (p + blanks r)) + twice →
      token.klass ≠ .comment →
      token.lineNr + never = 1 + breaks (text.take token.start) + twice := by
    intro prev line p r token twice never hat hinv hk
    have hlines : (nextShape r).lines (skipBlanks r) = 0 := by
      rw [hat.klass] at hk
      cases hsh : nextShape r <;> rw [hsh] at hk <;> first | rfl | exact absurd rfl hk
    rw [hat.lineNr, hlines, hat.start]
    exact hinv
  induction h with
  | @last prev line p r token hat hend =>
    intro fuel twice never _ _ _ hinv k token' hk hklass
    cases k with
    | zero =>
      obtain rfl := Option.some.inj hk
      exact hfirst hat hinv hklass
    | succ k => cases hk
  | @next prev line p r token tokens hat hend hunk _ ih =>
    intro fuel twice never hnul hr hfuel hinv k token' hk hklass
    obtain ⟨fuel, rfl⟩ : ∃ m, fuel = m + 1 := ⟨fuel - 1, by omega⟩
    cases k with
    | zero =>
      obtain rfl := Option.some.inj hk
      exact hfirst hat hinv hklass
    | succ k =>
      have hnul' := skipBlanks_noNul hnul
      have hlt := afterToken_lt hnul hend hat.shape
      have hstop := hat.stop hunk
      have hafter : afterToken r = text.drop token.stop := by rw [hstop, afterToken_eq hr]
      have hs : skipBlanks r ≠ [] := fun hnil => hend (by rw [nextShape, hnil]; rfl)
      have hbreaks := breaks_next hr ((shape_fits hnul').pos hend hat.shape) hs
      have htoken := token_breaks hat hend hunk hnul
      have hline := hat.lineNr
      rw [← hstop] at hbreaks
      have hinv' : token.lineNr + breaks ((afterToken r).takeWhile isBlank) +
          (never + missed (skipBlanks r)) =
          1 + breaks (text.take (token.stop + blanks (afterToken r))) +
            (twice + doubled (skipBlanks r)) := by omega
      have hfuel' : (afterToken r).length < fuel := by omega
      have hrest := ih (afterToken_noNul hnul) hafter hfuel' hinv' k token' hk hklass
      rw [frontsFrom_next (hat.goesOn hend hunk), List.take_succ_cons, List.map_cons, List.map_cons,
        List.sum_cons, List.sum_cons]
      omega

/-- **The line number of a token** is the number of line breaks before it
exactly if as many of them were counted twice as were missed. -/
theorem lineNr_iff (hnul : 0 ∉ text) {first : Token}
    (h : tokenize text memory = .ok (first :: tokens)) {k : Nat} (hk : tokens[k]? = some token)
    (hklass : token.klass ≠ .comment) :
    token.lineNr = 1 + breaks (text.take token.start) ↔
      (((fronts text).take k).map doubled).sum = (((fronts text).take k).map missed).sum := by
  obtain ⟨rest, hrest, hlexed⟩ := tokenize_ok hnul h
  obtain rfl := (List.cons.inj hrest).2
  have hstart : 1 + breaks (text.takeWhile isBlank) + 0 =
      1 + breaks (text.take (0 + blanks text)) + 0 := by
    rw [Nat.zero_add, take_blanks]
  have hline := hlexed.lineNr hnul rfl (show text.length < text.length + 1 by omega)
      hstart k token hk
    hklass
  unfold fronts
  omega

/-- The semicolon on the second line. -/
theorem lineNr_two : ∃ first token rest,
    tokenize [10, 59] (fun _ _ => 0) = .ok (first :: token :: rest) ∧
      token.lineNr = 1 + breaks ([10, 59].take token.start) := by
  obtain ⟨first, token, rest, hrun, hklass⟩ : ∃ first token rest,
      tokenize [10, 59] (fun _ _ => 0) = .ok (first :: token :: rest) ∧ token.klass ≠ .comment :=
    ⟨_, _, _, rfl, by decide⟩
  exact ⟨first, token, rest, hrun, (lineNr_iff (by decide) hrun (k := 0) rfl hklass).mpr rfl⟩

/-- A semicolon after a string literal with a line break. -/
theorem lineNr_fails : ¬ ∀ (text : List UInt8) (memory : Nat → Nat → UInt8) (first : Token)
    (tokens : List Token) (k : Nat) (token : Token), 0 ∉ text →
    tokenize text memory = .ok (first :: tokens) → tokens[k]? = some token →
    token.klass ≠ .comment → token.lineNr = 1 + breaks (text.take token.start) := by
  intro h
  have houtline : outline [34, 10, 34, 59] = some [(.startOfInput, 0, 0), (.stringLiteral, 1, 0),
      (.semicolon, 1, 3), (.endOfInput, 1, 4)] := by decide +kernel
  obtain ⟨tokens, hrun, hmap⟩ := outline_tokens houtline
  obtain ⟨first, tokens, rfl, -, hmap⟩ := List.map_eq_cons_iff.mp hmap
  obtain ⟨string, tokens, rfl, -, hmap⟩ := List.map_eq_cons_iff.mp hmap
  obtain ⟨token, tokens, rfl, htoken, -⟩ := List.map_eq_cons_iff.mp hmap
  obtain ⟨hklass, hline, hstart⟩ : token.klass = .semicolon ∧ token.lineNr = 1 ∧
      token.start = 3 := by
    simpa using htoken
  have hright := h _ _ _ _ 1 token (by decide) hrun rfl (by rw [hklass]; decide)
  rw [hline, hstart] at hright
  exact absurd hright (by decide)

end Dp4c.Lex
