import Dp4c.Lex.Loops

/-! # One token

`next_token` reads the token that `shape` finds after the blanks: each state
is run once, and what it leaves is described by `Read`. -/
namespace Dp4c.Lex

open Dp4c.Lib Dp4c.Lib.Prog

/-- What reading a token does not change. -/
structure Frame (s t : State) : Prop where
  text : t.text = s.text
  size : t.textSize = s.textSize
  tokens : t.tokens = s.tokens
  memory : t.memory = s.memory

theorem Frame.refl (s : State) : Frame s s := ⟨rfl, rfl, rfl, rfl⟩

theorem Frame.last (s : State) (n : Nat) : Frame s (s.last n) := ⟨rfl, rfl, rfl, rfl⟩

theorem Frame.trans {s t u : State} (h : Frame s t) (h' : Frame t u) : Frame s u :=
  ⟨h'.text.trans h.text, h'.size.trans h.size, h'.tokens.trans h.tokens,
    h'.memory.trans h.memory⟩

/-- The `i` member of a number's token. -/
def Number.payload (n : Number) (r : List UInt8) (value : Int) : IntegerPayload :=
  match n.width with
  | none => ⟨⟨false, true⟩, 0, value⟩
  | some (len, signed) => ⟨⟨true, signed⟩, (integerOf .ten (r.take len)).getD 0, value⟩

/-- The characters of a number's digits. -/
def Number.digits (n : Number) (r : List UInt8) : List UInt8 := (r.drop n.body).take n.bodyLen

/-- The string of a number's digits, and what becomes of it. -/
def Number.Installs (n : Number) (memory : Nat → Nat → UInt8) (r : List UInt8)
    (result : Except Exit Int) : Prop :=
  ∃ str, Spelled memory (r.getD (n.body + n.bodyLen) 0) (n.digits r) str ∧
    Installed n.base 0 str result

def Payload (memory : Nat → Nat → UInt8) (r : List UInt8) : Shape → IntegerPayload → Prop
  | .number n, i => ∃ v, n.Installs memory r (.ok v) ∧ i = n.payload r v
  | _, i => i = {}

/-- How reading a token ends the process. -/
def Fails (memory : Nat → Nat → UInt8) (r : List UInt8) : Shape → Exit → Prop
  | .stuck, e => e = pastEnd
  | .number n, e => n.Installs memory r (.error e)
  | _, _ => False

/-- The token is made of the characters it is read from. -/
def Shape.isText : Shape → Bool
  | .endOfInput | .unknown | .stuck => false
  | _ => true

/-- The token that `next_token` makes of a shape, and the state it leaves. -/
structure Read (s : State) (q : Nat) (r : List UInt8) (prev : TokenClass) (sh : Shape)
    (token : Token) (t : State) : Prop where
  shape : sh ≠ .stuck
  klass : token.klass = sh.klass prev
  start : token.start = q
  stop : sh ≠ .unknown → token.stop = q + sh.len
  lineNr : token.lineNr = t.lineNr
  lines : t.lineNr = s.lineNr + sh.lines r
  rest : At t (q + sh.len) (r.drop sh.len) 0
  frame : Frame s t
  string : sh.isText = true → Spelled s.memory (r.getD sh.len 0) (r.take sh.len) token.lexeme
  payload : Payload s.memory r sh token.i

variable {s t : State} {q k fuel : Nat} {r : List UInt8} {token : Token} {prev : TokenClass}

/-- The loop of `next_token` after a round. -/
def resume (fuel : Nat) (result : LexState × Token) : LexM Token :=
  stateLoop fuel result.1 result.2

theorem wp_stateLoop {state : LexState} {Q : Token → State → Prop} {E : Exit → Prop}
    (hs : state ≠ .s0) :
    wp (stateLoop (fuel + 1) state token) s Q E ↔
      wp (step state token) s (fun result t => wp (resume fuel result) t Q E) E := by
  have hloop : stateLoop (fuel + 1) state token = step state token >>= resume fuel := by
    cases state <;> first | exact absurd rfl hs | rfl
  rw [hloop, wp_bind]

theorem wp_done {Q : Token → State → Prop} {E : Exit → Prop} :
    wp (resume fuel (.s0, token)) s Q E ↔ Q { token with lineNr := s.lineNr } s := by
  unfold resume
  cases fuel <;> rfl

section Finish

variable {s₀ : State} {sh : Shape} {E : Exit → Prop}

/-- **The end of a token**: its lexeme is made, and the next one starts. -/
theorem wp_finish (h : At s q r k) (hk : k < r.length) (hlen : sh.len = k + 1)
    (hsh : sh.isText = true) (hklass : token.klass = sh.klass prev)
    (hlines : s.lineNr = s₀.lineNr + sh.lines r) (hframe : Frame s₀ s)
    (hpayload : Payload s.memory r sh token.i) :
    wp (finish token) s (fun result t => wp (resume fuel result) t
      (Read s₀ q r prev sh) E) E := by
  have hk1 : k + 1 ≤ r.length := hk
  have hne : r.take (k + 1) ≠ [] := by
    intro hnil
    have := congrArg List.length hnil
    rw [List.length_take, List.length_nil] at this
    omega
  obtain ⟨post, hpost⟩ := h.slice (i := 0) (m := k + 1) (by omega)
  rw [Nat.zero_add, List.drop_zero] at hpost
  have htake : (r.take (k + 1)).length = k + 1 := by rw [List.length_take]; omega
  unfold finish
  simp only [wp_bind, wp_reads]
  refine wp_mono (wp_lexemeToCstring hne (by rw [h.start]; exact hpost)
    (by rw [htake, h.start, h.last]; rfl)
    (by rw [htake, h.size]; omega)) ?_ fun _ h => h
  rintro string _ ⟨hstring, rfl⟩
  have h₁ : At { s with pushes := s.pushes + 1 } q r k := h.congr rfl rfl rfl
  rw [wp_lexemeAdvance h₁ hk, wp_pure, wp_done]
  refine ⟨fun hst => ?_, hklass, h.start, fun _ => ?_, rfl, hlines, ?_, ?_, fun _ => ?_, ?_⟩
  · rw [hst] at hsh
    cases hsh
  · rw [hlen]
    show s.lexeme.last + 1 = _
    rw [h.last]
    rfl
  · rw [hlen]
    exact h₁.advance hk
  · exact hframe.trans ⟨rfl, rfl, rfl, rfl⟩
  · rw [hlen, ← hframe.memory]
    exact hstring
  · rw [← hframe.memory]
    exact hpayload

end Finish

/-- A finished token of a plain class. -/
theorem wp_single {E : Exit → Prop} {klass : TokenClass} {s₀ : State} (h : At s q r k)
    (hk : k < r.length) (hframe : Frame s₀ s) (hlines : s.lineNr = s₀.lineNr) :
    wp (single {} klass) s (fun result t => wp (resume fuel result) t
      (Read s₀ q r prev (.plain klass (k + 1))) E) E :=
  wp_finish h hk rfl rfl rfl hlines hframe rfl

/-- A run of `x` that makes the token of a shape. -/
def Makes (fuel : Nat) (x : LexM (LexState × Token)) (s : State) (q : Nat) (r : List UInt8)
    (prev : TokenClass) (sh : Shape) : Prop :=
  wp x s (fun result t => wp (resume fuel result) t (Read s q r prev sh) (Fails s.memory r sh))
    (Fails s.memory r sh)

theorem makes_single {klass : TokenClass} (h : At s q r 0) (hr : 0 < r.length) :
    Makes fuel (single {} klass) s q r prev (.plain klass 1) :=
  wp_single h hr (Frame.refl s) rfl

/-- A choice by the second character. -/
theorem makes_second {c : UInt8} {klass : TokenClass} {rest : LexM TokenClass} {sh : Shape}
    (hc : c ≠ 0) (h : At s q r 0) (hr : 0 < r.length)
    (hrest : Makes fuel (rest >>= single {}) s q r prev sh) :
    Makes fuel (orSecond c klass rest >>= single {}) s q r prev (secondShape r c klass sh) := by
  unfold Makes orSecond secondShape
  simp only [wp_bind]
  rw [wp_charLookahead h hr]
  by_cases heq : r.getD (0 + 1) 0 = c
  · have hlt : 1 < r.length := by
      by_contra hlt
      rw [getD_of_le (by omega)] at heq
      exact hc heq.symm
    have hget : r.getD 1 0 = c := heq
    rw [if_pos heq, if_pos hget]
    simp only [wp_bind]
    rw [wp_charAdvance h hr, wp_pure]
    exact wp_single (h.move hr) hlt (Frame.last s _) rfl
  · have hget : ¬ r.getD 1 0 = c := heq
    rw [if_neg heq, if_neg hget]
    unfold Makes at hrest
    rw [wp_bind] at hrest
    exact hrest

theorem makes_pure {klass : TokenClass} (h : At s q r 0) (hr : 0 < r.length) :
    Makes fuel ((pure klass : LexM TokenClass) >>= single {}) s q r prev (.plain klass 1) := by
  unfold Makes
  rw [wp_bind, wp_pure]
  exact makes_single h hr

/-- A token that begins with a character of its own reads on from there. -/
theorem getD_pos {c : UInt8} (hc : c ≠ 0) (h : r.getD k 0 = c) : k < r.length := by
  by_contra hk
  rw [getD_of_le (by omega)] at h
  exact hc h.symm

theorem makes_ampersands (h : At s q r 0) (hr : 0 < r.length) :
    Makes fuel (ampersands >>= single {}) s q r prev (ampersandShape r) := by
  unfold Makes ampersands ampersandShape
  simp only [wp_bind]
  rw [wp_charLookahead h hr]
  by_cases h₁ : r.getD (0 + 1) 0 = 38
  · have hlt : 0 + 1 < r.length := getD_pos (by decide) h₁
    have hget : r.getD 1 0 = 38 := h₁
    rw [if_pos h₁, if_pos hget]
    unfold orSecond
    simp only [wp_bind]
    rw [wp_charAdvance h hr, wp_charLookahead (h.move hr) hlt]
    by_cases h₂ : r.getD (0 + 1 + 1) 0 = 38
    · have hlt₂ : 0 + 1 + 1 < r.length := getD_pos (by decide) h₂
      have hget₂ : r.getD 2 0 = 38 := h₂
      rw [if_pos h₂, if_pos hget₂]
      simp only [wp_bind]
      rw [wp_charAdvance (h.move hr) hlt, wp_pure]
      exact wp_single ((h.move hr).move hlt) hlt₂ ((Frame.last s _).trans (Frame.last _ _)) rfl
    · have hget₂ : ¬ r.getD 2 0 = 38 := h₂
      rw [if_neg h₂, if_neg hget₂, wp_pure]
      exact wp_single (h.move hr) hlt (Frame.last s _) rfl
  · have hget : ¬ r.getD 1 0 = 38 := h₁
    rw [if_neg h₁, if_neg hget, wp_pure]
    exact makes_single h hr

theorem makes_word (h : At s q r 0) (hr : 0 < r.length) :
    Makes fuel (step .s500 {}) s q r prev (wordShape r) := by
  have hword : isWordChar 0 = false := rfl
  have hle := runLen_le isWordChar hr
  unfold Makes step textFuel
  simp only [wp_bind]
  rw [wp_charLookahead h (by omega)]
  simp only [wp_reads]
  rw [wp_advanceWhile hword h hr h.fuel,
    wp_charRetract (h.move hle) (Nat.zero_add (runLen isWordChar r 0 + 1))]
  have hlen : wordShape r = .plain .identifier (runLen isWordChar r 0 + 1) := by
    rw [wordShape, runLen, List.drop_one]
  rw [hlen]
  exact wp_single (h.move (by omega)) (by omega) (Frame.last s _) rfl

theorem makes_string (h : At s q r 0) (hr : 0 < r.length) :
    Makes fuel (step .s200 {}) s q r prev (stringShape r) := by
  unfold Makes step textFuel
  simp only [wp_bind]
  rw [wp_charLookahead h (by omega)]
  simp only [wp_reads]
  have hshape : stringShape r =
      .upTo (fun n => .stringLiteral (n + 1)) (endAt isStringEnd (r.drop (0 + 1))) := by
    rw [Nat.zero_add, List.drop_one]
    rfl
  rw [hshape]
  refine wp_mono (wp_stringLoop h h.fuel) ?_ ?_
  · rintro _ t ⟨n, hn, rfl⟩
    have hle := endAt_le hn
    have hpos := endAt_pos hn
    rw [List.length_drop] at hle
    rw [hn]
    refine wp_finish (h.move (by omega)) (by omega) ?_ rfl rfl rfl (Frame.last s _) rfl
    show n + 1 = 0 + n + 1
    omega
  · rintro e ⟨hn, rfl⟩
    rw [hn]
    rfl

theorem makes_lineComment (h : At s q r 0) (hr : 0 < r.length) :
    Makes fuel (step .s311 {}) s q r prev
      (.upTo (fun n => .lineComment (n + 1)) (endAt isNewline (r.drop 1))) := by
  have hnewline : isNewline 0 = false := rfl
  unfold Makes step textFuel
  simp only [wp_bind]
  rw [wp_charLookahead h (by omega)]
  simp only [wp_reads]
  refine wp_mono (wp_advanceUntil hnewline h h.fuel) ?_ ?_
  · rintro _ t ⟨n, hn, _, rfl⟩
    have hle := endAt_le hn
    have hpos := endAt_pos hn
    rw [List.length_drop] at hle
    have hn' : endAt isNewline (r.drop 1) = some n := hn
    rw [hn']
    unfold countLine
    simp only [wp_modify]
    refine wp_finish ((h.move (by omega)).lines 1) (by omega) ?_ rfl rfl rfl
      ⟨rfl, rfl, rfl, rfl⟩ rfl
    show n + 1 = 0 + n + 1
    omega
  · rintro e ⟨hn, rfl⟩
    have hn' : endAt isNewline (r.drop 1) = none := hn
    rw [hn']
    rfl

/-! ## Block comments -/

theorem blockEnd_none : ∀ {l : List UInt8}, endAt isStar l = none → blockEnd l = none
  | [], _ => rfl
  | [_], _ => rfl
  | c :: c' :: l, h => by
    cases hc : isStar c with
    | true => rw [endAt_cons_pos hc] at h; cases h
    | false =>
      rw [endAt_cons_neg hc, Option.map_eq_none_iff] at h
      rw [blockEnd, if_neg fun hs => ne_star.mp hc hs.1, blockEnd_none h]
      rfl

/-- After its first star a comment ends, or goes on from there. -/
theorem blockEnd_star : ∀ {l : List UInt8} {n : Nat}, endAt isStar l = some n →
    blockEnd l = if l.getD n 0 = 47 then some (n + 1) else (blockEnd (l.drop n)).map (· + n)
  | c :: l, n, h => by
    cases hc : isStar c with
    | true =>
      rw [endAt_cons_pos hc] at h
      obtain rfl := Option.some.inj h
      have hc' : c = 42 := by simpa [isStar] using hc
      cases l with
      | nil => rfl
      | cons d l =>
        have hget : (c :: d :: l).getD 1 0 = d := rfl
        rw [blockEnd, hget]
        by_cases hd : d = 47
        · rw [if_pos ⟨hc', hd⟩, if_pos hd]
        · rw [if_neg fun h => hd h.2, if_neg hd]
          rfl
    | false =>
      rw [endAt_cons_neg hc] at h
      obtain ⟨m, hm, rfl⟩ := Option.map_eq_some_iff.mp h
      cases l with
      | nil => cases hm
      | cons d l =>
        have hget : (c :: d :: l).getD (m + 1) 0 = (d :: l).getD m 0 := rfl
        rw [blockEnd, if_neg fun hs => ne_star.mp hc hs.1, blockEnd_star hm, hget]
        split
        · rfl
        · rw [Option.map_map, List.drop_succ_cons]
          rfl

theorem blockEnd_pos : ∀ {l : List UInt8} {n : Nat}, blockEnd l = some n → 2 ≤ n ∧ n ≤ l.length
  | c :: c' :: l, n, h => by
    unfold blockEnd at h
    split at h
    · obtain rfl := Option.some.inj h
      simp
    · obtain ⟨m, hm, rfl⟩ := Option.map_eq_some_iff.mp h
      have hle := blockEnd_pos hm
      simp only [List.length_cons] at hle ⊢
      omega

end Dp4c.Lex
