import Dp4c.Lex.Spans

/-! # No lexeme is empty

The symbol table takes no empty name. The tokens of a text have lexemes of one character at
least, also the one at its end. -/
namespace Dp4c.Lex

open Dp4c.Lib Dp4c.Lib.Prog

variable {memory : Nat → Nat → UInt8} {prev : TokenClass} {line p fuel : Nat}
  {r text : List UInt8} {token : Token} {tokens : List Token} {s t : State}

/-! ## Tokens made of text -/

theorem decode_headD (next : UInt8) : ∀ {l : List UInt8}, l.headD 0 ≠ 0 → l.headD 0 ≠ 92 →
    ∃ rest, decode next l = l.headD 0 :: rest
  | [], hzero, _ => absurd rfl hzero
  | [c], _, hback => ⟨[], by rw [decode]; exact if_neg hback⟩
  | c :: c' :: l, _, hback => ⟨decode next (c' :: l), by rw [decode]; exact if_neg hback⟩

/-- Neither an escape nor the junk behind it can make an empty string of a lexeme. -/
theorem Spelled.ne_nil {next : UInt8} {l : List UInt8} {string : Cstr}
    (h : Spelled memory next l string) (hzero : l.headD 0 ≠ 0) (hback : l.headD 0 ≠ 92) :
    string.bytes ≠ [] := by
  obtain ⟨junk, -, -, rfl⟩ := h
  obtain ⟨rest, hrest⟩ := decode_headD next hzero hback
  rw [hrest]
  show (l.headD 0 :: (rest ++ junk)).takeWhile (· ≠ 0) ≠ []
  rw [List.takeWhile_cons_of_pos (by simpa using hzero)]
  exact List.cons_ne_nil _ _

/-- A token of text starts with no backslash. -/
theorem headD_of_isText (h : (shape r).isText = true) : r.headD 0 ≠ 92 := by
  intro hback
  unfold shape at h
  rw [hback] at h
  cases h

theorem TokenAt.lexeme_ne_nil (h : TokenAt memory prev line p r token) (hnul : 0 ∉ r)
    (htext : (nextShape r).isText = true) : token.lexeme.bytes ≠ [] := by
  have hnul' := skipBlanks_noNul hnul
  have hfit := shape_fits hnul'
  have hend : nextShape r ≠ .endOfInput := fun he => by
    rw [he] at htext
    cases htext
  have hpos : 0 < (nextShape r).len := hfit.pos hend h.shape
  have hzero : (skipBlanks r).headD 0 ≠ 0 := fun he => by
    obtain hnil := eq_nil_of_headD hnul' he
    exact hend (by rw [nextShape, hnil]; rfl)
  have hhead : ((skipBlanks r).take (nextShape r).len).headD 0 = (skipBlanks r).headD 0 := by
    cases hr : skipBlanks r with
    | nil => rw [List.take_nil]
    | cons c l =>
      obtain ⟨n, hn⟩ := Nat.exists_eq_add_of_lt hpos
      rw [hn, Nat.zero_add, List.take_succ_cons]
      rfl
  refine (h.string htext).ne_nil (by rw [hhead]; exact hzero) ?_
  rw [hhead]
  exact headD_of_isText htext

/-! ## The end of the input -/

/-- The token at the end of the input has a lexeme of its own. -/
def Marked (token : Token) : Prop :=
  token.klass = .endOfInput → token.lexeme = Cstr.ofString "<end-of-input>"

theorem wp_nextToken_end {E : Exit → Prop} (h : At s p r 0) (hend : skipBlanks r = []) :
    wp nextToken s (fun token _ => token.lexeme = Cstr.ofString "<end-of-input>") E := by
  unfold nextToken
  simp only [wp_bind, wp_reads]
  refine wp_blanks (Nat.le_refl _) h (by rw [h.size]; omega) fun u fuel' hu _ _ hf => ?_
  obtain ⟨fuel, rfl⟩ : ∃ n, fuel' = n + 1 := ⟨fuel' - 1, by omega⟩
  have hnil : r.dropWhile isBlank = [] := hend
  rw [hnil] at hu ⊢
  rw [show dispatch (([] : List UInt8).headD 0) = .s2 from rfl, wp_stateLoop (by decide)]
  unfold step finishAs
  simp only [wp_bind]
  rw [wp_charLookahead hu hu.le]
  simp only [wp_reads, wp_pure]
  rw [wp_done]

theorem wp_nextToken_marked (h : At s p r 0)
    (hprev : ∃ last, s.tokens.getLast? = some last ∧ last.klass = prev) :
    wp nextToken s (fun token t => Marked token ∧ (∃ q r', At t q r' 0) ∧ t.tokens = s.tokens)
      fun _ => True := by
  refine wp_mono (wp_and_run (wp_nextToken_at h hprev)) ?_ fun _ _ => trivial
  rintro token t ⟨hrun, hat, -, hafter, htokens, -⟩
  refine ⟨fun hklass => ?_, ⟨_, _, hafter⟩, htokens⟩
  have hnul := skipBlanks_noNul h.noNul
  have hshape : shape (skipBlanks r) = .endOfInput :=
    (klass_endOfInput hnul hat.shape).mp (hat.klass ▸ hklass)
  have hnil := (shape_fits hnul).ends hshape
  have hend := wp_nextToken_end (E := fun _ => False) h hnil
  have hlexeme := wp_ok hend hrun
  exact hlexeme

/-- The last token of a run is marked. -/
theorem wp_tokenizeLoop_marked : ∀ {fuel : Nat} {token : Token} {t : State} {q : Nat}
    {r : List UInt8}, At t q r 0 → t.tokens.getLast? = some token → Marked token →
    wp (tokenizeLoop fuel token) t
      (fun _ u => ∃ last, u.tokens.getLast? = some last ∧
        last.lexeme = Cstr.ofString "<end-of-input>") fun _ => True
  | 0, _, _, _, _, _, _, _ => trivial
  | fuel + 1, token, t, q, r, h, hlast, hmarked => by
    unfold tokenizeLoop
    by_cases hend : token.klass = .endOfInput
    · rw [if_pos hend]
      exact ⟨token, hlast, hmarked hend⟩
    rw [if_neg hend]
    split
    · trivial
    split
    · trivial
    rw [wp_bind]
    refine wp_mono (wp_nextToken_marked h ⟨token, hlast, rfl⟩) ?_ fun _ h => h
    rintro token' u ⟨hmarked', ⟨q', r', hu⟩, htokens⟩
    unfold appendToken
    rw [wp_bind, wp_modify]
    exact wp_tokenizeLoop_marked (hu.congr rfl rfl rfl) (List.getLast?_concat ..) hmarked'

theorem tokenize_last (hnul : 0 ∉ text) (h : tokenize text memory = .ok tokens) :
    ∃ last, tokens.getLast? = some last ∧ last.lexeme = Cstr.ofString "<end-of-input>" := by
  have hrun : wp lexTokenize (initial text memory) (fun _ u => ∃ last,
      u.tokens.getLast? = some last ∧ last.lexeme = Cstr.ofString "<end-of-input>")
      fun _ => True := by
    unfold lexTokenize textFuel
    rw [wp_bind, wp_modify, wp_bind]
    refine wp_mono (wp_nextToken_marked (initial_at text memory hnul)
      ⟨{ klass := .startOfInput }, rfl, rfl⟩) ?_ fun _ h => h
    rintro token t ⟨hmarked, ⟨q, r, ht⟩, -⟩
    unfold appendToken
    rw [wp_bind, wp_modify, wp_bind, wp_reads]
    exact wp_tokenizeLoop_marked (ht.congr rfl rfl rfl) (List.getLast?_concat ..) hmarked
  unfold tokenize at h
  cases hok : lexTokenize (initial text memory) with
  | error e => rw [hok] at h; cases h
  | ok result =>
    rw [hok] at h
    obtain rfl := Except.ok.inj h
    exact wp_ok hrun hok

/-! ## All tokens -/

theorem Lexed.lexeme_ne_nil (h : Lexed memory prev line p r tokens) : 0 ∉ r →
    (∀ last, tokens.getLast? = some last → last.lexeme.bytes ≠ []) →
    ∀ token ∈ tokens, token.lexeme.bytes ≠ [] := by
  induction h with
  | @last prev line p r token hat hend =>
    intro _ hlast token' hmem
    obtain rfl := List.mem_singleton.mp hmem
    exact hlast _ rfl
  | @next prev line p r token tokens hat hend hunknown hrest ih =>
    intro hnul hlast token' hmem
    rcases List.mem_cons.mp hmem with rfl | hmem
    · refine hat.lexeme_ne_nil hnul ?_
      have hstuck := hat.shape
      cases hshape : nextShape r <;> first | rfl | exact absurd hshape (by assumption)
    · refine ih (afterToken_noNul hnul) (fun last hl => hlast last ?_) token' hmem
      cases tokens with
      | nil => cases hmem
      | cons first rest => rw [List.getLast?_cons_cons]; exact hl

/-- **No token behind the first** has an empty lexeme. -/
theorem tokenize_lexemes {first : Token} (hnul : 0 ∉ text)
    (h : tokenize text memory = .ok (first :: tokens)) :
    ∀ token ∈ tokens, token.lexeme.bytes ≠ [] := by
  obtain ⟨rest, hrest, hlexed⟩ := tokenize_ok hnul h
  obtain ⟨rfl, rfl⟩ := List.cons.inj hrest
  obtain ⟨last, hlast, hlexeme⟩ := tokenize_last hnul h
  refine hlexed.lexeme_ne_nil hnul fun last' hlast' => ?_
  have hsame : last' = last := by
    cases tokens with
    | nil => cases hlast'
    | cons token rest =>
      rw [List.getLast?_cons_cons] at hlast
      exact Option.some.inj (hlast'.symm.trans hlast)
  rw [hsame, hlexeme]
  decide

/-- A text has no more tokens than characters, one for its end and one in front. -/
theorem Tiles.length_le (h : Tiles text p tokens) : tokens.length + p ≤ text.length + 1 := by
  induction h with
  | last _ hle hstart _ _ =>
    rw [List.length_singleton]
    omega
  | next _ hle hlt _ _ _ ih =>
    rw [List.length_cons]
    omega

end Dp4c.Lex
