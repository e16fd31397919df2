import Dp4c.Lex.Fronts

/-! # The assertions of the lexical analyzer

Which texts make an assertion fail: those that end inside a token which has to
be closed, and those with a number whose digits start with a backslash. -/
namespace Dp4c.Lex

open Dp4c.Lib Dp4c.Lib.Prog

/-- No assertion fails at a front: the token is closed before the text ends, and
it is no number that ends with a byte of the memory. -/
def Sound (r : List UInt8) : Prop :=
  shape r ≠ .stuck ∧ ∀ n, shape r = .number n → n.starts r = true → n.loose r = false

variable {memory : Nat → Nat → UInt8} {prev : TokenClass} {line p fuel : Nat}
  {r s text : List UInt8} {n : Number} {token : Token} {tokens : List Token} {e : Exit}

theorem shape_number_digits (h : shape r = .number n) : n.digits r ≠ [] := by
  obtain ⟨hof, hdigit⟩ := shape_number h
  obtain ⟨l, hl, -⟩ := hof.digits_eq hdigit
  rw [hl]
  exact List.cons_ne_nil _ _

/-- Where every front is sound a run ends with a diagnostic. -/
theorem Aborts.error_of_sound (h : Aborts memory prev line p r e) : ∀ {fuel : Nat}, 0 ∉ r →
    r.length < fuel → (∀ s ∈ frontsFrom fuel r, Sound s) →
    ∃ format line text, e = .error format line text := by
  induction h with
  | @fails prev line p r e hf =>
    intro fuel _ hfuel hsound
    obtain ⟨fuel, rfl⟩ : ∃ k, fuel = k + 1 := ⟨fuel - 1, by omega⟩
    obtain ⟨hstuck, hloose⟩ := hsound (skipBlanks r) (List.mem_cons_self ..)
    rw [nextShape] at hf
    cases hsh : shape (skipBlanks r) with
    | stuck => exact absurd hsh hstuck
    | number n =>
      rw [hsh] at hf
      have hne := shape_number_digits hsh
      obtain ⟨hof, hdigit⟩ := shape_number hsh
      cases hstarts : n.starts (skipBlanks r) with
      | false =>
        obtain ⟨format, line, text, he⟩ := hf.missing hne hstarts
        exact ⟨format, line, text, Except.error.inj he⟩
      | true =>
        obtain ⟨v, hv⟩ := hof.value hdigit hstarts (hloose n hsh hstarts)
        cases hv hf
    | _ => rw [hsh] at hf; exact hf.elim
  | unknown => exact fun _ _ _ => ⟨_, _, _, rfl⟩
  | @next prev line p r token e hat hend hunk _ ih =>
    intro fuel hnul hfuel hsound
    obtain ⟨fuel, rfl⟩ : ∃ k, fuel = k + 1 := ⟨fuel - 1, by omega⟩
    have hlt := afterToken_lt hnul hend hat.shape
    rw [frontsFrom_next (hat.goesOn hend hunk)] at hsound
    exact ih (afterToken_noNul hnul) (by omega) fun s hs => hsound s (List.mem_cons_of_mem _ hs)

/-- A token is not read at a front that is not sound. -/
theorem TokenAt.sound (h : TokenAt (fun _ _ => 33) prev line p r token) :
    Sound (skipBlanks r) := by
  refine ⟨h.shape, fun n hn hstarts => ?_⟩
  obtain ⟨hof, hdigit⟩ := shape_number hn
  have hpayload := h.payload
  rw [nextShape, hn] at hpayload
  obtain ⟨v, hins, -⟩ := hpayload
  by_contra hloose
  cases hof.loose_fails hdigit hstarts (by simpa using hloose) hins

/-- At a front that goes on only an assertion fails. -/
theorem Fails.assertion (h : Fails memory s (shape s) e) (hs : goesOn s = true) :
    e = .assertion "0" := by
  unfold goesOn at hs
  cases hsh : shape s with
  | number n =>
    rw [hsh] at h hs
    rcases h.value (shape_number_digits hsh) hs with ⟨v, hv⟩ | hv
    · cases hv
    · exact Except.error.inj hv
  | stuck => rw [hsh] at hs; cases hs
  | _ => rw [hsh] at h; exact h.elim

/-- What fails at a front that is not sound is an assertion. -/
theorem Fails.unsound (h : Fails memory s (shape s) e) (hs : ¬ Sound s) :
    ∃ expr, e = .assertion expr := by
  cases hsh : shape s with
  | stuck => rw [hsh] at h; exact ⟨_, h⟩
  | number n =>
    rw [hsh] at h
    cases hstarts : n.starts s with
    | true =>
      rcases h.value (shape_number_digits hsh) hstarts with ⟨v, hv⟩ | hv
      · cases hv
      · exact ⟨_, Except.error.inj hv⟩
    | false =>
      refine absurd ⟨by rw [hsh]; exact Shape.noConfusion, fun m hm hm' => ?_⟩ hs
      obtain rfl := Shape.number.inj (hsh.symm.trans hm)
      rw [hstarts] at hm'
      cases hm'
  | _ => rw [hsh] at h; exact h.elim

/-- **A front that is not sound** is never passed: an assertion fails there or
before, over memory that holds no digit. -/
theorem unsound_aborts : ∀ {fuel : Nat} {r : List UInt8}, s ∈ frontsFrom fuel r → ¬ Sound s →
    (∀ prev line p tokens, ¬ Lexed (fun _ _ => 33) prev line p r tokens) ∧
    ∀ prev line p e, Aborts (fun _ _ => 33) prev line p r e → ∃ expr, e = .assertion expr
  | 0, _, hs, _ => by cases hs
  | fuel + 1, r, hs, hunsound => by
    rw [frontsFrom] at hs
    rcases List.mem_cons.mp hs with rfl | hs
    · refine ⟨fun prev line p tokens h => ?_, fun prev line p e h => ?_⟩
      · cases h with
        | last hat => exact hunsound hat.sound
        | next hat => exact hunsound hat.sound
      · cases h with
        | fails hf => exact hf.unsound hunsound
        | unknown hat => exact absurd hat.sound hunsound
        | next hat => exact absurd hat.sound hunsound
    · cases hgo : goesOn (skipBlanks r) with
      | false =>
        rw [hgo] at hs
        cases hs
      | true =>
        rw [hgo, if_pos rfl] at hs
        obtain ⟨hlexed, haborts⟩ := unsound_aborts hs hunsound
        have hshape : ∀ {sh}, nextShape r = sh → sh ≠ .endOfInput ∧ sh ≠ .unknown := by
          rintro sh rfl
          unfold goesOn at hgo
          rw [nextShape]
          constructor <;> intro hsh <;> rw [hsh] at hgo <;> cases hgo
        refine ⟨fun prev line p tokens h => ?_, fun prev line p e h => ?_⟩
        · cases h with
          | last _ hend => exact (hshape hend).1 rfl
          | next _ _ _ hrest => exact hlexed _ _ _ _ hrest
        · cases h with
          | fails hf => exact ⟨_, hf.assertion hgo⟩
          | unknown _ hunk => exact absurd rfl (hshape hunk).2
          | next _ _ _ hrest => exact haborts _ _ _ _ hrest

/-- The last token of a tiling is the end of the input. -/
theorem Tiles.last_endOfInput {q : Nat} (h : Tiles text q tokens) :
    ∃ token, tokens.getLast? = some token ∧ token.klass = .endOfInput := by
  induction h with
  | last hend => exact ⟨_, rfl, hend⟩
  | @next p token tokens _ _ _ _ _ _ ih =>
    obtain ⟨last, hlast, hend⟩ := ih
    exact ⟨last, by rw [List.getLast?_cons, hlast]; rfl, hend⟩

/-- A run that returns ends with the end of the input, and the others end with a
diagnostic. -/
def Diagnosed (text : List UInt8) : Prop :=
  ∀ memory, (∃ tokens token, tokenize text memory = .ok tokens ∧ tokens.getLast? = some token ∧
      token.klass = .endOfInput) ∨
    ∃ format line lexeme, tokenize text memory = .error (.error format line lexeme)

/-- **No assertion of the lexical analyzer fails** exactly if every front of the
text is sound. -/
theorem diagnosed_iff (hnul : 0 ∉ text) :
    Diagnosed text ↔ ∀ s ∈ fronts text, Sound s := by
  constructor
  · intro h s hs
    by_contra hunsound
    obtain ⟨hlexed, haborts⟩ := unsound_aborts hs hunsound
    rcases h (fun _ _ => 33) with ⟨tokens, token, hok, -⟩ | ⟨format, line, lexeme, herror⟩
    · obtain ⟨rest, -, hrest⟩ := tokenize_ok hnul hok
      exact hlexed _ _ _ _ hrest
    · obtain ⟨expr, he⟩ := haborts _ _ _ _ (tokenize_error hnul herror)
      cases he
  · intro h memory
    cases hrun : tokenize text memory with
    | ok tokens =>
      obtain ⟨rest, rfl, hrest⟩ := tokenize_ok hnul hrun
      obtain ⟨token, hlast, hend⟩ := (hrest.tiles hnul rfl (Nat.zero_le _)).last_endOfInput
      exact .inl ⟨_, token, rfl, by rw [List.getLast?_cons, hlast]; rfl, hend⟩
    | error e =>
      obtain ⟨format, line, lexeme, rfl⟩ :=
        (tokenize_error hnul hrun).error_of_sound hnul (Nat.lt_succ_self _) h
      exact .inr ⟨format, line, lexeme, rfl⟩

/-- The text `a;`. -/
theorem diagnosed_one : Diagnosed [97, 59] :=
  (diagnosed_iff (by decide)).mpr fun s hs => by
    have hfronts : fronts [97, 59] = [[97, 59], [59], []] := rfl
    rw [hfronts] at hs
    simp only [List.mem_cons, List.not_mem_nil, or_false] at hs
    rcases hs with rfl | rfl | rfl
    · exact ⟨by decide, nofun⟩
    · exact ⟨by decide, nofun⟩
    · exact ⟨by decide, nofun⟩

/-- A line comment at the end of the text. -/
theorem diagnosed_fails : ¬ ∀ text : List UInt8, 0 ∉ text → Diagnosed text := by
  intro h
  have hrun : tokenize [47, 47] (fun _ _ => 0) = .error pastEnd := rfl
  rcases h [47, 47] (by decide) (fun _ _ => 0) with ⟨tokens, token, hok, -⟩ | ⟨_, _, _, herror⟩
  · rw [hrun] at hok
    cases hok
  · rw [hrun] at herror
    cases herror

end Dp4c.Lex
