import Dp4c.Lex.NextToken

/-! # The whole text

`Lexed` follows `lex_tokenize` from token to token over the rest of the text,
`Aborts` is a run of it that ends the process. -/
namespace Dp4c.Lex

open Dp4c.Lib Dp4c.Lib.Prog

/-- The rest after the blanks. -/
def skipBlanks (r : List UInt8) : List UInt8 := r.dropWhile isBlank

/-- The number of blanks at the front. -/
def blanks (r : List UInt8) : Nat := (r.takeWhile isBlank).length

/-- The next token of a rest. -/
def nextShape (r : List UInt8) : Shape := shape (skipBlanks r)

/-- The rest after the next token. -/
def afterToken (r : List UInt8) : List UInt8 := (skipBlanks r).drop (nextShape r).len

/-- The token that is read from position `p` and line `line` on, where the rest
of the text is `r` and the previous token is of class `prev`. -/
structure TokenAt (memory : Nat → Nat → UInt8) (prev : TokenClass) (line p : Nat) (r : List UInt8)
    (token : Token) : Prop where
  shape : nextShape r ≠ .stuck
  klass : token.klass = (nextShape r).klass prev
  start : token.start = p + blanks r
  stop : nextShape r ≠ .unknown → token.stop = p + blanks r + (nextShape r).len
  lineNr : token.lineNr =
    line + breaks (r.takeWhile isBlank) + (nextShape r).lines (skipBlanks r)
  string : (nextShape r).isText = true →
    Spelled memory ((skipBlanks r).getD (nextShape r).len 0)
      ((skipBlanks r).take (nextShape r).len) token.lexeme
  payload : Payload memory (skipBlanks r) (nextShape r) token.i

/-- The tokens of a rest. -/
inductive Lexed (memory : Nat → Nat → UInt8) :
    TokenClass → Nat → Nat → List UInt8 → List Token → Prop
  | last {prev line p r token} : TokenAt memory prev line p r token →
      nextShape r = .endOfInput → Lexed memory prev line p r [token]
  | next {prev line p r token tokens} : TokenAt memory prev line p r token →
      nextShape r ≠ .endOfInput → nextShape r ≠ .unknown →
      Lexed memory token.klass token.lineNr token.stop (afterToken r) tokens →
      Lexed memory prev line p r (token :: tokens)

/-- The ways a run over a rest ends the process. -/
inductive Aborts (memory : Nat → Nat → UInt8) : TokenClass → Nat → Nat → List UInt8 → Exit → Prop
  | fails {prev line p r e} : Fails memory (skipBlanks r) (nextShape r) e →
      Aborts memory prev line p r e
  | unknown {prev line p r token} : TokenAt memory prev line p r token → nextShape r = .unknown →
      Aborts memory prev line p r (.error "at line %d: unknown token." token.lineNr [])
  | next {prev line p r token e} : TokenAt memory prev line p r token →
      nextShape r ≠ .endOfInput → nextShape r ≠ .unknown →
      Aborts memory token.klass token.lineNr token.stop (afterToken r) e →
      Aborts memory prev line p r e

variable {s t : State} {memory : Nat → Nat → UInt8} {prev : TokenClass} {line p fuel : Nat}
  {r : List UInt8} {token : Token} {tokens : List Token} {e : Exit}

/-- `next_token`, as a token of the rest. -/
theorem wp_nextToken_at (h : At s p r 0)
    (hprev : ∃ last, s.tokens.getLast? = some last ∧ last.klass = prev) :
    wp nextToken s
      (fun token t => TokenAt s.memory prev s.lineNr p r token ∧ t.lineNr = token.lineNr ∧
        At t (p + blanks r + (nextShape r).len) (afterToken r) 0 ∧ t.tokens = s.tokens ∧
        t.memory = s.memory)
      (Fails s.memory (skipBlanks r) (nextShape r)) := by
  refine wp_mono (wp_nextToken h hprev) ?_ fun _ h => h
  rintro token t ⟨u, hframe, hlines, hread⟩
  refine ⟨⟨hread.shape, hread.klass, hread.start, hread.stop, ?_, ?_, ?_⟩, hread.lineNr.symm,
    hread.rest, hread.frame.tokens.trans hframe.tokens, hread.frame.memory.trans hframe.memory⟩
  · rw [hread.lineNr, hread.lines, hlines]
    rfl
  · rw [← hframe.memory]
    exact hread.string
  · rw [← hframe.memory]
    exact hread.payload

/-! ## Classes and lengths -/

/-- The classes of the tokens that are known by their first characters. -/
def plainClasses : List TokenClass :=
  [.semicolon, .angleOpenEqual, .twoAngleOpen, .angleOpen, .angleCloseEqual, .twoAngleClose,
    .angleClose, .identifier, .dontcare, .colon, .parenthOpen, .parenthClose, .dotPrefix,
    .braceOpen, .braceClose, .bracketOpen, .bracketClose, .comma, .plus, .star, .slash, .twoEqual,
    .equal, .exclamationEqual, .exclamation, .threeAmpersand, .twoAmpersand, .ampersand, .twoPipe,
    .pipe, .circumflex, .tilda]

/-- What a shape at the front of a rest is always like. -/
structure Shape.Fits (r : List UInt8) (sh : Shape) : Prop where
  le : sh.len ≤ r.length
  pos : sh ≠ .endOfInput → sh ≠ .stuck → 0 < sh.len
  plain : ∀ {klass len}, sh = .plain klass len → klass ∈ plainClasses
  ends : sh = .endOfInput → r = []

theorem fits_plain {klass : TokenClass} {n : Nat} (hk : klass ∈ plainClasses) (hn : 0 < n)
    (hle : n ≤ r.length) : (Shape.plain klass n).Fits r :=
  ⟨hle, fun _ _ => hn, fun h => by cases h; exact hk, nofun⟩

theorem fits_stuck : Shape.stuck.Fits r :=
  ⟨Nat.zero_le _, fun _ h => absurd rfl h, nofun, nofun⟩

theorem fits_second {c : UInt8} {klass : TokenClass} {rest : Shape} (hc : c ≠ 0)
    (hk : klass ∈ plainClasses) (hrest : rest.Fits r) : (secondShape r c klass rest).Fits r := by
  unfold secondShape
  split
  · rename_i h
    exact fits_plain hk Nat.two_pos (getD_pos hc h)
  · exact hrest

theorem fits_upTo {make : Nat → Shape} {o : Option Nat}
    (h : ∀ n, o = some n → (make n).Fits r) : (Shape.upTo make o).Fits r := by
  cases o with
  | none => exact fits_stuck
  | some n => exact h n rfl

theorem fits_number {width : Option (Nat × Bool)} {base : Base} {k : Nat} {p : UInt8 → Bool} :
    (numberAt r width base k p).Fits r := by
  unfold numberAt
  split
  · exact fits_stuck
  · rename_i c l hl
    have hlen := congrArg List.length hl
    have hle := List.Sublist.length_le (List.takeWhile_sublist p (l := l))
    rw [List.length_drop, List.length_cons] at hlen
    have hfit : k + ((l.takeWhile p).length + 1) ≤ r.length := by omega
    exact ⟨hfit, fun _ _ => Nat.add_pos_right _ (Nat.succ_pos _), nofun, nofun⟩

theorem runFrom_le {p : UInt8 → Bool} (hr : 0 < r.length) :
    (r.tail.takeWhile p).length + 1 ≤ r.length := by
  have hle := List.Sublist.length_le (List.takeWhile_sublist p (l := r.tail))
  rw [List.length_tail] at hle
  omega

theorem fits_numberShape (hr : 0 < r.length) : (numberShape r).Fits r := by
  unfold numberShape
  split
  · exact fits_number
  · simp only
    split
    · unfold widthShape
      simp only
      split <;> exact fits_number
    · have hle : 0 + decimalLen r ≤ r.length := by
        rw [Nat.zero_add]
        exact runFrom_le hr
      exact ⟨hle, fun _ _ => Nat.add_pos_right _ (Nat.succ_pos _), nofun, nofun⟩

theorem fits_word (hr : 0 < r.length) : (wordShape r).Fits r :=
  fits_plain (by decide) (Nat.succ_pos _) (runFrom_le hr)

theorem fits_underscore (hr : 0 < r.length) :
    (if isWordChar (r.getD 1 0) then wordShape r else .plain .dontcare 1).Fits r := by
  split
  · exact fits_word hr
  · exact fits_plain (by decide) Nat.one_pos hr

theorem fits_ampersand (hr : 0 < r.length) : (ampersandShape r).Fits r := by
  unfold ampersandShape
  split
  · split
    · rename_i h
      exact fits_plain (by decide) (by decide) (getD_pos (by decide) h)
    · rename_i h _
      exact fits_plain (by decide) (by decide) (getD_pos (by decide) h)
  · exact fits_plain (by decide) (by decide) hr

theorem fits_string (hr : 0 < r.length) : (stringShape r).Fits r := by
  refine fits_upTo fun n hn => ?_
  have hle := endAt_le hn
  rw [List.length_tail] at hle
  have hfit : n + 1 ≤ r.length := by omega
  exact ⟨hfit, fun _ _ => Nat.succ_pos n, nofun, nofun⟩

theorem fits_slash (hr : 0 < r.length) : (slashShape r).Fits r := by
  unfold slashShape
  split
  · refine fits_upTo fun n hn => ?_
    have hle := (blockEnd_pos hn).2
    have hpos := (blockEnd_pos hn).1
    rw [List.length_drop] at hle
    have hfit : n + 2 ≤ r.length := by omega
    exact ⟨hfit, fun _ _ => Nat.succ_pos _, nofun, nofun⟩
  · split
    · refine fits_upTo fun n hn => ?_
      have hle := endAt_le hn
      rw [List.length_drop] at hle
      have hfit : n + 1 ≤ r.length := by omega
      exact ⟨hfit, fun _ _ => Nat.succ_pos _, nofun, nofun⟩
    · exact fits_plain (by decide) (by decide) hr

theorem shapeFrom_fits {state : LexState} (hr : 0 < r.length) (h : state ∈ entered)
    (hs : state ≠ .s2) : (shapeFrom r state).Fits r := by
  have hone : ∀ {klass}, klass ∈ plainClasses → (Shape.plain klass 1).Fits r :=
    fun hk => fits_plain hk Nat.one_pos hr
  simp only [entered, List.mem_cons, List.not_mem_nil, or_false] at h
  rcases h with rfl | rfl | rfl | rfl | rfl | rfl | rfl | rfl | rfl | rfl | rfl | rfl | rfl |
    rfl | rfl | rfl | rfl | rfl | rfl | rfl | rfl | rfl | rfl | rfl | rfl | rfl | rfl | rfl
  case _ => exact absurd rfl hs
  case _ => exact ⟨hr, fun _ _ => Nat.one_pos, by rintro _ _ ⟨⟩, by rintro ⟨⟩⟩
  case _ => exact hone (by decide)
  case _ =>
    exact fits_second (by decide) (by decide) (fits_second (by decide) (by decide)
      (hone (by decide)))
  case _ =>
    exact fits_second (by decide) (by decide) (fits_second (by decide) (by decide)
      (hone (by decide)))
  case _ => exact fits_underscore hr
  case _ => exact hone (by decide)
  case _ => exact hone (by decide)
  case _ => exact hone (by decide)
  case _ => exact hone (by decide)
  case _ => exact hone (by decide)
  case _ => exact hone (by decide)
  case _ => exact hone (by decide)
  case _ => exact hone (by decide)
  case _ => exact hone (by decide)
  case _ => exact ⟨hr, fun _ _ => Nat.one_pos, by rintro _ _ ⟨⟩, by rintro ⟨⟩⟩
  case _ => exact hone (by decide)
  case _ => exact hone (by decide)
  case _ => exact fits_slash hr
  case _ => exact fits_second (by decide) (by decide) (hone (by decide))
  case _ => exact fits_second (by decide) (by decide) (hone (by decide))
  case _ => exact fits_ampersand hr
  case _ => exact fits_second (by decide) (by decide) (hone (by decide))
  case _ => exact hone (by decide)
  case _ => exact hone (by decide)
  case _ => exact fits_string hr
  case _ => exact fits_numberShape hr
  case _ => exact fits_word hr

theorem length_pos_of_headD (h : r.headD 0 ≠ 0) : 0 < r.length := by
  cases r with
  | nil => exact absurd rfl h
  | cons c r => exact Nat.succ_pos _

theorem eq_nil_of_headD (hnul : 0 ∉ r) (h : r.headD 0 = 0) : r = [] := by
  cases r with
  | nil => rfl
  | cons c r =>
    have hc : c = 0 := h
    exact absurd (by rw [hc]; exact List.mem_cons_self ..) hnul

/-- **Every shape fits** the rest it is at the front of. -/
theorem shape_fits (hnul : 0 ∉ r) : (shape r).Fits r := by
  by_cases h : r.headD 0 = 0
  · obtain rfl := eq_nil_of_headD hnul h
    exact ⟨Nat.le_refl 0, fun h => absurd rfl h, nofun, fun _ => rfl⟩
  · exact shapeFrom_fits (length_pos_of_headD h) (dispatch_mem _)
      fun hs => h ((dispatch_s2 _).mp hs)

/-- The classes that are of no characters. -/
theorem klass_special {klass : TokenClass} (hnul : 0 ∉ r) (hne : klass ∉ plainClasses)
    (h : (shape r).klass prev = klass) :
    shape r = .endOfInput ∨ shape r = .unknown ∨ shape r = .stuck ∨
      klass = .unaryMinus ∨ klass = .minus ∨ klass = .comment ∨ klass = .stringLiteral ∨
      klass = .integer := by
  cases hsh : shape r with
  | endOfInput => exact .inl rfl
  | unknown => exact .inr (.inl rfl)
  | stuck => exact .inr (.inr (.inl rfl))
  | plain k len =>
    rw [hsh] at h
    exact absurd (h ▸ (shape_fits hnul).plain hsh) hne
  | minus =>
    rw [hsh, Shape.klass] at h
    split at h <;> simp [← h]
  | _ => rw [hsh] at h; simp [← h, Shape.klass]

theorem klass_endOfInput (hnul : 0 ∉ r) (hstuck : shape r ≠ .stuck) :
    (shape r).klass prev = .endOfInput ↔ shape r = .endOfInput := by
  refine ⟨fun h => ?_, fun h => by rw [h]; rfl⟩
  rcases klass_special hnul (by decide) h with h' | h' | h' | h' | h' | h' | h' | h'
  · exact h'
  · rw [h'] at h; cases h
  · exact absurd h' hstuck
  all_goals cases h'

theorem klass_unknown (hnul : 0 ∉ r) (hstuck : shape r ≠ .stuck) :
    (shape r).klass prev = .unknown ↔ shape r = .unknown := by
  refine ⟨fun h => ?_, fun h => by rw [h]; rfl⟩
  rcases klass_special hnul (by decide) h with h' | h' | h' | h' | h' | h' | h' | h'
  · rw [h'] at h; cases h
  · exact h'
  · exact absurd h' hstuck
  all_goals cases h'

theorem klass_ne_lexicalError (hnul : 0 ∉ r) : (shape r).klass prev ≠ .lexicalError := by
  intro h
  rcases klass_special hnul (by decide) h with h' | h' | h' | h' | h' | h' | h' | h'
  · rw [h'] at h; cases h
  · rw [h'] at h; cases h
  · rw [h'] at h; cases h
  all_goals cases h'

/-! ## The loop -/

theorem skipBlanks_noNul (hnul : 0 ∉ r) : 0 ∉ skipBlanks r := fun h =>
  hnul ((List.dropWhile_sublist isBlank).mem h)

theorem afterToken_noNul (hnul : 0 ∉ r) : 0 ∉ afterToken r := fun h =>
  skipBlanks_noNul hnul ((List.drop_sublist _ _).mem h)

theorem blanks_add (r : List UInt8) : blanks r + (skipBlanks r).length = r.length := by
  have h := congrArg List.length (List.takeWhile_append_dropWhile (p := isBlank) (l := r))
  rwa [List.length_append] at h

theorem afterToken_lt (hnul : 0 ∉ r) (hend : nextShape r ≠ .endOfInput)
    (hstuck : nextShape r ≠ .stuck) : (afterToken r).length < r.length := by
  have hfit := shape_fits (skipBlanks_noNul hnul)
  have hpos := hfit.pos hend hstuck
  have hle := hfit.le
  have hadd := blanks_add r
  rw [afterToken, List.length_drop]
  show (skipBlanks r).length - (shape (skipBlanks r)).len < r.length
  omega

/-- The state right after a token of the rest was stored. -/
structure Stored (memory : Nat → Nat → UInt8) (prev : TokenClass) (line p : Nat) (r : List UInt8)
    (before : List Token) (token : Token) (t : State) : Prop where
  made : TokenAt memory prev line p r token
  lineNr : t.lineNr = token.lineNr
  rest : At t (p + blanks r + (nextShape r).len) (afterToken r) 0
  tokens : t.tokens = before ++ [token]
  memory : t.memory = memory

/-- A token is read and stored. -/
theorem wp_storeToken (h : At s p r 0)
    (hprev : ∃ last, s.tokens.getLast? = some last ∧ last.klass = prev)
    {rest : Token → LexM Unit} {Q : Unit → State → Prop} {E : Exit → Prop}
    (hfails : ∀ e, Fails s.memory (skipBlanks r) (nextShape r) e → E e)
    (hrest : ∀ token t, Stored s.memory prev s.lineNr p r s.tokens token t →
      wp (rest token) t Q E) :
    wp (nextToken >>= fun token => appendToken token >>= fun _ => rest token) s Q E := by
  rw [wp_bind]
  refine wp_mono (wp_nextToken_at h hprev) ?_ hfails
  rintro token t ⟨hat, hline, hafter, htokens, hmemory⟩
  unfold appendToken
  rw [wp_bind, wp_modify]
  exact hrest _ _ ⟨hat, hline, hafter.congr rfl rfl rfl, by rw [htokens], hmemory⟩

/-- **The loop of `lex_tokenize`** at the token it has just stored. -/
theorem wp_tokenizeLoop : ∀ {fuel line p : Nat} {r : List UInt8} {before : List Token}
    {token : Token} {t : State} {prev : TokenClass}, 0 ∉ r →
    Stored memory prev line p r before token t → r.length < fuel →
    wp (tokenizeLoop fuel token) t
      (fun _ u => ∃ tokens, u.tokens = before ++ tokens ∧ Lexed memory prev line p r tokens)
      (Aborts memory prev line p r)
  | 0, _, _, _, _, _, _, _, _, _, hf => absurd hf (Nat.not_lt_zero _)
  | fuel + 1, line, p, r, before, token, t, prev, hnul, h, hf => by
    have hnul' := skipBlanks_noNul hnul
    have hat := h.made
    unfold tokenizeLoop
    by_cases hend : token.klass = .endOfInput
    · have hsh : nextShape r = .endOfInput :=
        (klass_endOfInput hnul' hat.shape).mp (hat.klass ▸ hend)
      rw [if_pos hend, wp_pure]
      exact ⟨[token], h.tokens, .last hat hsh⟩
    have hsh : nextShape r ≠ .endOfInput := fun hsh =>
      hend (hat.klass.trans ((klass_endOfInput hnul' hat.shape).mpr hsh))
    rw [if_neg hend]
    by_cases hunk : token.klass = .unknown
    · have hsh : nextShape r = .unknown :=
        (klass_unknown hnul' hat.shape).mp (hat.klass ▸ hunk)
      rw [if_pos hunk, wp_exit]
      exact .unknown hat hsh
    have hshu : nextShape r ≠ .unknown := fun hsh =>
      hunk (hat.klass.trans ((klass_unknown hnul' hat.shape).mpr hsh))
    have herr : token.klass ≠ .lexicalError := fun herr =>
      klass_ne_lexicalError hnul' (hat.klass ▸ herr)
    rw [if_neg hunk, if_neg herr]
    have hlt := afterToken_lt hnul hsh hat.shape
    have hrest := h.rest
    rw [← hat.stop hshu] at hrest
    have hlast : ∃ last, t.tokens.getLast? = some last ∧ last.klass = token.klass :=
      ⟨token, by rw [h.tokens, List.getLast?_concat], rfl⟩
    refine wp_storeToken hrest hlast (fun e he => ?_) fun token' u hu => ?_
    · rw [h.memory] at he
      exact .next hat hsh hshu (.fails he)
    · rw [h.lineNr, h.memory] at hu
      refine wp_mono (wp_tokenizeLoop hrest.noNul hu (by omega)) ?_ fun e he =>
        .next hat hsh hshu he
      rintro _ v ⟨tokens, hv, hlexed⟩
      exact ⟨token :: tokens, by rw [hv, h.tokens, List.append_assoc]; rfl,
        .next hat hsh hshu hlexed⟩

theorem initial_at (text : List UInt8) (memory : Nat → Nat → UInt8) (hnul : 0 ∉ text) :
    At { initial text memory with lexeme := {}, tokens := [{ klass := .startOfInput }] }
      0 text 0 :=
  ⟨rfl, (Nat.zero_add _).symm, hnul, rfl, Nat.zero_le _⟩

/-- **Every run of `lex_tokenize`.** -/
theorem wp_lexTokenize {text : List UInt8} (hnul : 0 ∉ text) :
    wp lexTokenize (initial text memory)
      (fun _ t => ∃ tokens, t.tokens = { klass := .startOfInput } :: tokens ∧
        Lexed memory .startOfInput 1 0 text tokens)
      (Aborts memory .startOfInput 1 0 text) := by
  unfold lexTokenize textFuel
  rw [wp_bind, wp_modify]
  refine wp_storeToken (initial_at text memory hnul) ⟨{ klass := .startOfInput }, rfl, rfl⟩
    (fun e he => .fails he) fun token t h => ?_
  have hlen : text.length < t.textSize + 2 := by
    have hsize := h.rest.size
    have hadd := blanks_add text
    have hdrop : (afterToken text).length = (skipBlanks text).length - (nextShape text).len :=
      List.length_drop ..
    omega
  rw [wp_bind, wp_reads]
  exact wp_tokenizeLoop hnul h hlen

theorem tokenize_ok {text : List UInt8} (hnul : 0 ∉ text) (h : tokenize text memory = .ok tokens) :
    ∃ rest, tokens = { klass := .startOfInput } :: rest ∧
      Lexed memory .startOfInput 1 0 text rest := by
  unfold tokenize at h
  cases hrun : lexTokenize (initial text memory) with
  | error e => rw [hrun] at h; cases h
  | ok result =>
    rw [hrun] at h
    obtain rfl := Except.ok.inj h
    exact wp_ok (wp_lexTokenize hnul) hrun

theorem tokenize_error {text : List UInt8} (hnul : 0 ∉ text)
    (h : tokenize text memory = .error e) : Aborts memory .startOfInput 1 0 text e := by
  unfold tokenize at h
  cases hrun : lexTokenize (initial text memory) with
  | error e' =>
    rw [hrun] at h
    obtain rfl := Except.error.inj h
    exact wp_error (wp_lexTokenize hnul) hrun
  | ok result => rw [hrun] at h; cases h

end Dp4c.Lex
