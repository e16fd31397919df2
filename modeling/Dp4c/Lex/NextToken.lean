import Dp4c.Lex.Step

/-! # `next_token`

The states of comments and numbers, the blanks, and all of them together. -/
namespace Dp4c.Lex

open Dp4c.Lib Dp4c.Lib.Prog

variable {s s₀ t : State} {q k fuel : Nat} {r : List UInt8} {token : Token} {prev : TokenClass}

/-! ## Block comments -/

theorem endAt_get {p : UInt8 → Bool} : ∀ {l : List UInt8} {n : Nat}, endAt p l = some n →
    p (l.getD (n - 1) 0) = true
  | c :: l, n, h => by
    cases hc : p c with
    | true =>
      rw [endAt_cons_pos hc] at h
      obtain rfl := Option.some.inj h
      exact hc
    | false =>
      rw [endAt_cons_neg hc] at h
      obtain ⟨m, hm, rfl⟩ := Option.map_eq_some_iff.mp h
      have hget := endAt_get hm
      have hpos := endAt_pos hm
      obtain ⟨m, rfl⟩ : ∃ j, m = j + 1 := ⟨m - 1, by omega⟩
      exact hget

theorem getD_drop (r : List UInt8) (i j : Nat) : (r.drop i).getD j 0 = r.getD (i + j) 0 := by
  rw [List.getD_eq_getElem?_getD, List.getD_eq_getElem?_getD, List.getElem?_drop]

/-- Breaks are counted apart before and after a star. -/
theorem breaks_take_star (hk : k < r.length) (hstar : r.getD k 0 = 42) (n : Nat) :
    breaks (r.take (k + 1 + n)) = breaks (r.take (k + 1)) + breaks ((r.drop (k + 1)).take n) := by
  have hone : r.take (k + 1) = r.take k ++ [42] := by
    rw [List.take_add_one, ← hstar, List.getD_eq_getElem?_getD, List.getElem?_eq_getElem hk]
    rfl
  rw [List.take_add, hone, List.append_assoc]
  exact breaks_append isNewline_star _ _

/-- The shape of a comment read up to a star at offset `k`. -/
def blockShape (r : List UInt8) (k : Nat) : Shape :=
  .upTo (fun n => .blockComment (k + 1 + n)) (blockEnd (r.drop (k + 1)))

/-- **State 310**, entered again at every star. -/
theorem wp_block : ∀ {fuel k : Nat} {s : State}, At s q r k → r.getD k 0 = 42 → Frame s₀ s →
    s.lineNr = s₀.lineNr + breaks (r.take (k + 1)) → r.length - k < fuel →
    wp (stateLoop fuel .s310 {}) s (Read s₀ q r prev (blockShape r k))
      (Fails s₀.memory r (blockShape r k))
  | 0, _, _, _, _, _, _, hf => absurd hf (Nat.not_lt_zero _)
  | fuel + 1, k, s, h, hstar, hframe, hlines, hf => by
    have hk : k < r.length := getD_pos (by decide) hstar
    rw [wp_stateLoop (by decide)]
    unfold step textFuel
    simp only [wp_bind]
    rw [wp_charLookahead h (by omega)]
    simp only [wp_reads]
    refine wp_mono (wp_commentLoop h h.fuel) ?_ ?_
    · rintro _ t ⟨n, hn, rfl⟩
      have hle := endAt_le hn
      have hpos := endAt_pos hn
      rw [List.length_drop] at hle
      have hstar' : r.getD (k + n) 0 = 42 := by
        have hget := endAt_get hn
        rw [getD_drop] at hget
        have hoff : k + 1 + (n - 1) = k + n := by omega
        rw [hoff] at hget
        simpa [isStar] using hget
      have hk' : k + n < r.length := by omega
      have h' : At ((s.lines (breaks ((r.drop (k + 1)).take n))).last (q + (k + n))) q r (k + n) :=
        (h.lines _).move (by omega)
      have hlines' : s.lineNr + breaks ((r.drop (k + 1)).take n) =
          s₀.lineNr + breaks (r.take (k + n + 1)) := by
        have hoff : k + n + 1 = k + 1 + n := by omega
        rw [hlines, hoff, breaks_take_star hk hstar]
        omega
      have hget : (r.drop (k + 1)).getD n 0 = r.getD (k + n + 1) 0 := by
        rw [getD_drop]
        congr 1
        omega
      have hend := blockEnd_star hn
      rw [hget] at hend
      rw [wp_charLookahead h' (by omega)]
      by_cases h47 : r.getD (k + n + 1) 0 = 47
      · have hlt : k + n + 1 < r.length := getD_pos (by decide) h47
        rw [if_pos h47] at hend ⊢
        simp only [wp_bind]
        rw [wp_charAdvance h' hlt.le]
        have hshape : blockShape r k = .blockComment (k + n + 1 + 1) := by
          rw [blockShape, hend]
          simp only [Shape.upTo, Shape.blockComment.injEq]
          omega
        rw [hshape]
        refine wp_finish (h'.move hlt.le) hlt rfl rfl rfl ?_
          (hframe.trans ⟨rfl, rfl, rfl, rfl⟩) rfl
        -- the slash after the last star is no line break
        have hslash : breaks ((r.drop (k + n + 1)).take 1) = 0 := by
          rw [drop_eq_cons hlt, h47]
          rfl
        show s.lineNr + breaks ((r.drop (k + 1)).take n) =
          s₀.lineNr + breaks (r.take (k + n + 1 + 1))
        rw [hlines', breaks_take_star hk' hstar', hslash]
        rfl
      · rw [if_neg h47] at hend ⊢
        rw [wp_pure]
        have hdrop : (r.drop (k + 1)).drop n = r.drop (k + n + 1) := by
          rw [List.drop_drop]
          congr 1
          omega
        have hshape : blockShape r k = blockShape r (k + n) := by
          rw [blockShape, hend, hdrop, blockShape]
          cases blockEnd (r.drop (k + n + 1)) with
          | none => rfl
          | some m =>
            simp only [Option.map_some, Shape.upTo, Shape.blockComment.injEq]
            omega
        rw [hshape]
        exact wp_block h' hstar' (hframe.trans ⟨rfl, rfl, rfl, rfl⟩) hlines' (by omega)
    · rintro e ⟨hn, rfl⟩
      rw [blockShape, blockEnd_none hn]
      rfl

/-! ## Numbers -/

theorem decode_plain {next : UInt8} : ∀ {l : List UInt8}, 92 ∉ l → decode next l = l
  | [], _ => rfl
  | [c], h => by
    have hc : c ≠ 92 := fun e => h (by simp [e])
    simp [decode, hc]
  | c :: c' :: l, h => by
    have hc : c ≠ 92 := fun e => h (by simp [e])
    rw [decode, if_neg hc, decode_plain fun hm => h (List.mem_cons_of_mem _ hm)]

theorem cstrOf_bytes {l : List UInt8} (h : 0 ∉ l) : (cstrOf l).bytes = l := by
  refine List.takeWhile_eq_self_iff.mpr fun c hc => ?_
  have hne : c ≠ 0 := fun e => h (e ▸ hc)
  simpa using hne

/-- A lexeme without a backslash is its own string. -/
theorem Spelled.plain {memory : Nat → Nat → UInt8} {next : UInt8} {l : List UInt8} {string : Cstr}
    (h : Spelled memory next l string) (hl : 92 ∉ l) (h0 : 0 ∉ l) : string.bytes = l := by
  obtain ⟨junk, hlen, -, rfl⟩ := h
  rw [decode_plain hl] at hlen ⊢
  obtain rfl : junk = [] := List.length_eq_zero_iff.mp (by omega)
  rw [List.append_nil, cstrOf_bytes h0]

theorem digitsFrom_some {base : Base} : ∀ {l : List UInt8} (v : Int),
    (∀ c ∈ l, isDigitOrUnderscore base c = true) → ∃ w, digitsFrom base l v = some w
  | [], v, _ => ⟨v, rfl⟩
  | c :: l, v, h => by
    have hrest := fun d hd => h d (List.mem_cons_of_mem _ hd)
    have hc := h c (List.mem_cons_self ..)
    unfold digitsFrom
    split
    · exact digitsFrom_some _ hrest
    · rename_i hdig
      have h95 : c = 95 := by simpa [isDigitOrUnderscore, hdig] using hc
      rw [if_pos h95]
      exact digitsFrom_some _ hrest

/-- A run of digits and underscores is an integer. -/
theorem integerOf_some {base : Base} {c : UInt8} {l : List UInt8}
    (h : ∀ d ∈ c :: l, isDigitOrUnderscore base d = true) :
    ∃ w, integerOf base (c :: l) = some w :=
  digitsFrom_some _ fun d hd => h d (List.mem_cons_of_mem _ hd)

theorem numberAt_eq {width : Option (Nat × Bool)} {base : Base} {p : UInt8 → Bool}
    (hk : k < r.length) :
    numberAt r width base k p = .number ⟨width, base, k, runLen p r k + 1⟩ := by
  rw [numberAt, drop_eq_cons hk]
  rfl

theorem numberAt_stuck {width : Option (Nat × Bool)} {base : Base} {p : UInt8 → Bool}
    (hk : k = r.length) : numberAt r width base k p = .stuck := by
  rw [numberAt, List.drop_eq_nil_of_le (by omega)]

/-- The digits of a number, with its lexeme and the token. -/
theorem wp_install {E : Exit → Prop} {width : Option (Nat × Bool)} {base : Base} {n : Nat}
    (h : At s q r (k + n)) (hk : k + n < r.length)
    (hklass : token.klass = .integer) (hline : token.lineNr = 0)
    (hpayload : ∀ v, { token.i with value := v } = (Number.mk width base k (n + 1)).payload r v)
    (hframe : Frame s₀ s) (hlines : s.lineNr = s₀.lineNr)
    (hE : ∀ e, (Number.mk width base k (n + 1)).Installs s₀.memory r (.error e) → E e) :
    wp (tokenInstallInteger token ⟨q + k, q + (k + n)⟩ base >>= finish) s
      (fun result t => wp (resume fuel result) t
        (Read s₀ q r prev (.number ⟨width, base, k, n + 1⟩)) E) E := by
  obtain ⟨post, hpost⟩ := h.slice (i := k) (m := n + 1) (by omega)
  have hlen : ((r.drop k).take (n + 1)).length = n + 1 := by
    rw [List.length_take, List.length_drop]
    omega
  have hne : (r.drop k).take (n + 1) ≠ [] := by
    intro hnil
    rw [hnil] at hlen
    cases hlen
  rw [wp_bind]
  refine wp_mono (wp_tokenInstallInteger hne hpost
    (by rw [hlen]; show q + k + (n + 1) = q + (k + n) + 1; omega)
    (by rw [hlen, h.size]; omega)) ?_ ?_
  · rintro token' t ⟨str, v, hstr, hinst, rfl, rfl⟩
    have h' : At { s with pushes := s.pushes + 1 } q r (k + n) := h.congr rfl rfl rfl
    rw [hline] at hinst
    refine wp_finish h' hk ?_ rfl hklass hlines (hframe.trans ⟨rfl, rfl, rfl, rfl⟩)
      ⟨v, ⟨str, ?_, hinst⟩, hpayload v⟩
    · show k + (n + 1) = k + n + 1
      omega
    · exact hstr
  · rintro e ⟨str, hstr, hinst⟩
    rw [hline] at hinst
    rw [hframe.memory] at hstr
    exact hE e ⟨str, hstr, hinst⟩

/-- **The body of a number**, wherever it stands. -/
theorem wp_numberBody {width : Option (Nat × Bool)} {base : Base} {p : UInt8 → Bool}
    (hp : p 0 = false) (h : At s q r k) (hklass : token.klass = .integer)
    (hline : token.lineNr = 0)
    (hpayload : ∀ n v, { token.i with value := v } = (Number.mk width base k n).payload r v)
    (hframe : Frame s₀ s) (hlines : s.lineNr = s₀.lineNr) :
    wp (numberBody token base p) s (fun result t => wp (resume fuel result) t
      (Read s₀ q r prev (numberAt r width base k p))
      (Fails s₀.memory r (numberAt r width base k p)))
      (Fails s₀.memory r (numberAt r width base k p)) := by
  have hd : At { s with digits := ⟨q + k, q + k⟩ } q r k := h.congr rfl rfl rfl
  unfold numberBody textFuel
  simp only [wp_bind, wp_modify, wp_reads, h.last]
  by_cases hk : k < r.length
  · have hle := runLen_le p hk
    rw [numberAt_eq hk, wp_advanceWhile hp hd hk hd.fuel,
      wp_charRetract (hd.move hle) (Nat.add_assoc k (runLen p r k) 1).symm]
    simp only [State.last]
    refine (wp_bind _ _).mp (wp_install (n := runLen p r k) ((hd.move (by omega)).congr rfl rfl rfl)
      (by omega) hklass hline (hpayload _) (hframe.trans ⟨rfl, rfl, rfl, rfl⟩) hlines
      fun e he => he)
  · have hk : k = r.length := Nat.le_antisymm h.le (by omega)
    rw [numberAt_stuck hk, wp_advanceWhile_stuck hd hk (Nat.succ_pos _)]
    rfl

theorem headD_drop (r : List UInt8) (k : Nat) : (r.drop k).headD 0 = r.getD k 0 := by
  have h := getD_drop r k 0
  rw [Nat.add_zero] at h
  rw [← h]
  cases r.drop k <;> rfl

/-- The state a prefix leads to. -/
def prefixState (hex oct bin dec : LexState) : Option Base → LexState
  | some .sixteen => hex
  | some .eight => oct
  | some .two => bin
  | _ => dec

theorem prefixOf_ne_ten (l : List UInt8) : prefixOf l ≠ some .ten := by
  unfold prefixOf
  simp only
  split_ifs <;> simp

/-- A prefix is two characters of the rest. -/
theorem prefixOf_length {base : Base} (h : prefixOf (r.drop k) = some base) :
    k + 2 ≤ r.length := by
  unfold prefixOf at h
  rw [headD_drop, getD_drop] at h
  have h1 : r.getD (k + 1) 0 ≠ 0 := by
    intro h0
    rw [h0] at h
    split at h
    · simp at h
    · cases h
  by_contra hk
  exact h1 (getD_of_le (by omega))

/-- States 400 and 405. -/
theorem wp_numberPrefix {hex oct bin dec : LexState} {Q : LexState → State → Prop}
    {E : Exit → Prop} (h : At s q r k) :
    wp (numberPrefix (r.getD k 0) hex oct bin dec) s Q E ↔
      Q (prefixState hex oct bin dec (prefixOf (r.drop k)))
        (if (prefixOf (r.drop k)).isSome then s.last (q + (k + 2)) else s) := by
  have hlen : ∀ base, prefixOf (r.drop k) = some base → k + 2 ≤ r.length :=
    fun base => prefixOf_length
  unfold prefixOf at hlen ⊢
  rw [headD_drop, getD_drop] at hlen ⊢
  unfold numberPrefix
  by_cases h48 : r.getD k 0 = 48
  · have hk : k < r.length := getD_pos (by decide) h48
    simp only [if_pos h48] at hlen ⊢
    simp only [wp_bind]
    rw [wp_charLookahead h hk]
    by_cases hx : r.getD (k + 1) 0 = 120 ∨ r.getD (k + 1) 0 = 88
    · simp only [if_pos hx] at hlen ⊢
      rw [wp_bind, wp_charAdvance h (hlen _ rfl)]
      rfl
    · by_cases ho : r.getD (k + 1) 0 = 111 ∨ r.getD (k + 1) 0 = 79
      · simp only [if_neg hx, if_pos ho] at hlen ⊢
        rw [wp_bind, wp_charAdvance h (hlen _ rfl)]
        rfl
      · by_cases hb : r.getD (k + 1) 0 = 98 ∨ r.getD (k + 1) 0 = 66
        · simp only [if_neg hx, if_neg ho, if_pos hb] at hlen ⊢
          rw [wp_bind, wp_charAdvance h (hlen _ rfl)]
          rfl
        · simp only [if_neg hx, if_neg ho, if_neg hb]
          rfl
  · simp only [if_neg h48]
    rfl

/-- States 402 to 404 after the prefix of state 400. -/
theorem wp_prefixed {base : Base} (h : At s q r 2) (hten : base ≠ .ten) (hframe : Frame s₀ s)
    (hlines : s.lineNr = s₀.lineNr) :
    wp (stateLoop (fuel + 1) (prefixState .s402 .s403 .s404 .s401 (some base)) {}) s
      (Read s₀ q r prev (numberAt r none base 2 (isDigitOrUnderscore base)))
      (Fails s₀.memory r (numberAt r none base 2 (isDigitOrUnderscore base))) := by
  have hstep : step (prefixState .s402 .s403 .s404 .s401 (some base)) {} =
      charLookahead 0 >>= fun _ => prefixedNumber {} base := by
    cases base <;> first | exact absurd rfl hten | rfl
  have hne : prefixState .s402 .s403 .s404 .s401 (some base) ≠ .s0 := by cases base <;> decide
  have hzero : isDigitOrUnderscore base 0 = false := by cases base <;> rfl
  rw [wp_stateLoop hne, hstep, wp_bind, wp_charLookahead h h.le]
  exact wp_numberBody hzero h rfl rfl (fun _ _ => rfl) hframe hlines

/-- States 406 to 409 after the width marker. -/
theorem wp_afterWidth {n : Nat} {c : UInt8} (h : At s q r (n + 1)) (hklass : token.klass = .integer)
    (hline : token.lineNr = 0)
    (hpayload : ∀ base k m v, { token.i with value := v } =
      (Number.mk (some (n, c == 115)) base k m).payload r v)
    (hframe : Frame s₀ s) (hlines : s.lineNr = s₀.lineNr) :
    wp (stateLoop (fuel + 2) .s405 token) s (Read s₀ q r prev (widthShape r n c))
      (Fails s₀.memory r (widthShape r n c)) := by
  rw [wp_stateLoop (by decide)]
  unfold step
  simp only [wp_bind]
  rw [wp_charLookahead h h.le, Nat.add_zero, wp_numberPrefix h, wp_pure]
  unfold widthShape resume
  cases hpre : prefixOf (r.drop (n + 1)) with
  | none =>
    have h409 : prefixState .s406 .s407 .s408 .s409 none = .s409 := rfl
    simp only [Option.isSome_none, Bool.false_eq_true, if_false, h409]
    rw [wp_stateLoop (by decide)]
    unfold step
    rw [wp_bind, wp_charLookahead h h.le]
    exact wp_numberBody rfl h hklass hline (hpayload _ _) hframe hlines
  | some base =>
    have hten : base ≠ .ten := fun e => prefixOf_ne_ten _ (e ▸ hpre)
    have hlen := prefixOf_length hpre
    have hstep : step (prefixState .s406 .s407 .s408 .s409 (some base)) token =
        charLookahead 0 >>= fun _ => numberBody token base (isDigitOrUnderscore base) := by
      cases base <;> first | exact absurd rfl hten | rfl
    have hne : prefixState .s406 .s407 .s408 .s409 (some base) ≠ .s0 := by cases base <;> decide
    have hzero : isDigitOrUnderscore base 0 = false := by cases base <;> rfl
    have h' := h.move hlen
    simp only [Option.isSome_some, if_true]
    rw [wp_stateLoop hne, hstep, wp_bind, wp_charLookahead h' h'.le]
    exact wp_numberBody hzero h' hklass hline (hpayload _ _) (hframe.trans ⟨rfl, rfl, rfl, rfl⟩)
      hlines

/-- The digits at the front are decimal digits. -/
theorem mem_decimal (hdigit : cstrIsDigit (r.getD 0 0) .ten = true) {c : UInt8}
    (hc : c ∈ r.take (decimalLen r)) : cstrIsDigit c .ten = true := by
  cases r with
  | nil => cases hc
  | cons d r =>
    have htake : (d :: r).take (decimalLen (d :: r)) = d :: r.takeWhile (cstrIsDigit · .ten) := by
      rw [decimalLen, List.take_succ_cons, List.tail_cons,
        List.prefix_iff_eq_take.mp (List.takeWhile_prefix _) |>.symm]
    rw [htake] at hc
    rcases List.mem_cons.mp hc with rfl | hc
    · exact hdigit
    · exact List.mem_takeWhile_imp (p := (cstrIsDigit · .ten)) hc

theorem decimalLen_eq : decimalLen r = runLen (cstrIsDigit · .ten) r 0 + 1 := by
  rw [decimalLen, runLen, List.drop_one]

/-- State 401 at a width marker. -/
theorem wp_width {c : UInt8} (h : At s q r (decimalLen r))
    (hdigit : cstrIsDigit (r.getD 0 0) .ten = true) (hk : decimalLen r < r.length)
    (hdigits : s.digits.start = q) (hframe : Frame s₀ s) (hlines : s.lineNr = s₀.lineNr) :
    wp (widthMarker {} c) s (fun result t => wp (resume (fuel + 2) result) t
      (Read s₀ q r prev (widthShape r (decimalLen r) c))
      (Fails s₀.memory r (widthShape r (decimalLen r) c)))
      (Fails s₀.memory r (widthShape r (decimalLen r) c)) := by
  have hmem := fun c hc => mem_decimal (r := r) hdigit (c := c) hc
  have hpos : 0 < decimalLen r := Nat.succ_pos _
  generalize hn : decimalLen r = n at *
  have hlen : (r.take n).length = n := by rw [List.length_take]; omega
  have h92 : 92 ∉ r.take n := fun hm => by have := hmem _ hm; simp [cstrIsDigit] at this
  have h0 : 0 ∉ r.take n := fun hm => by have := hmem _ hm; simp [cstrIsDigit] at this
  obtain ⟨d, l, hdl⟩ : ∃ d l, r.take n = d :: l :=
    List.exists_cons_of_ne_nil fun hnil => by rw [hnil] at hlen; simp at hlen; omega
  have hall : ∀ c ∈ d :: l, isDigitOrUnderscore .ten c = true := fun c hc => by
    rw [← hdl] at hc
    simp [isDigitOrUnderscore, hmem c hc]
  obtain ⟨w, hw⟩ := integerOf_some hall
  have hstarts : ∀ string : Cstr, string.bytes = r.take n → startsNumber string .ten = true := by
    intro string hs
    rw [startsNumber, hs, hdl]
    have := hmem d (by rw [hdl]; exact List.mem_cons_self ..)
    simp [this]
  obtain ⟨post, hpost⟩ := h.slice (i := 0) (m := n) (by omega)
  rw [List.drop_zero, Nat.zero_add] at hpost
  unfold widthMarker
  simp only [wp_bind, wp_modify, wp_reads]
  refine wp_mono (wp_lexemeToCstring (l := r.take n) (by rw [hdl]; exact List.cons_ne_nil _ _)
    (by rw [hdigits]; exact hpost) ?_ ?_) ?_ fun _ h => h
  · show s.digits.start + (r.take n).length = s.lexeme.last - 1 + 1
    rw [hdigits, hlen, h.last]
    omega
  · show (r.take n).length ≤ s.textSize
    rw [hlen, h.size]
    omega
  rintro string t ⟨hstring, rfl⟩
  have hbytes := hstring.plain h92 h0
  refine wp_mono (wp_parseInteger (hstarts string hbytes)) ?_ ?_
  · rintro w' _ ⟨hw', rfl⟩
    have h' : At { s with digits := { s.digits with last := s.lexeme.last - 1 },
                          pushes := s.pushes + 1 } q r n := h.congr rfl rfl rfl
    rw [wp_charAdvance h' hk, wp_pure]
    unfold resume
    refine wp_afterWidth (h'.move hk) rfl rfl (fun base k m v => ?_)
      (hframe.trans ⟨rfl, rfl, rfl, rfl⟩) hlines
    rw [hbytes] at hw'
    simp only [Number.payload, hw', Option.getD_some, beq_eq_decide]
    by_cases hc : c = 115 <;> simp [hc]
  · rintro e ⟨hnone, _⟩
    rw [hbytes, hdl, hw] at hnone
    cases hnone

/-- State 401 at no width marker. -/
theorem wp_decimal {n : Nat} (h : At s q r (n + 1)) (hk : n < r.length)
    (hdigits : s.digits.start = q) (hframe : Frame s₀ s) (hlines : s.lineNr = s₀.lineNr) :
    wp (decimal {}) s (fun result t => wp (resume fuel result) t
      (Read s₀ q r prev (.number ⟨none, .ten, 0, n + 1⟩))
      (Fails s₀.memory r (.number ⟨none, .ten, 0, n + 1⟩)))
      (Fails s₀.memory r (.number ⟨none, .ten, 0, n + 1⟩)) := by
  let u : State := { s.last (q + n) with digits := ⟨q, q + n⟩ }
  let token : Token := { klass := .integer, i := ⟨⟨false, true⟩, 0, 0⟩ }
  have hu : At u q r (0 + n) := by
    rw [Nat.zero_add]
    exact (h.move hk.le).congr rfl rfl rfl
  have hinst : wp (tokenInstallInteger token ⟨q + 0, q + (0 + n)⟩ .ten >>= finish) u
      (fun result t => wp (resume fuel result) t
        (Read s₀ q r prev (.number ⟨none, .ten, 0, n + 1⟩))
        (Fails s₀.memory r (.number ⟨none, .ten, 0, n + 1⟩)))
      (Fails s₀.memory r (.number ⟨none, .ten, 0, n + 1⟩)) :=
    wp_install hu (by omega) rfl rfl (fun _ => rfl) (hframe.trans ⟨rfl, rfl, rfl, rfl⟩) hlines
      fun e he => he
  rw [Nat.zero_add, Nat.add_zero, wp_bind] at hinst
  unfold decimal
  simp only [wp_bind]
  rw [wp_charRetract h rfl]
  simp only [wp_modify, wp_reads]
  have hlast : (s.last (q + n)).lexeme.last = q + n := rfl
  have hstart : (s.last (q + n)).digits.start = q := hdigits
  rw [hlast, hstart]
  exact hinst

/-- **States 400 to 409.** -/
theorem wp_number (h : At s q r 0) (hdigit : cstrIsDigit (r.getD 0 0) .ten = true) :
    wp (stateLoop (fuel + 4) .s400 {}) s (Read s q r prev (numberShape r))
      (Fails s.memory r (numberShape r)) := by
  have hr : 0 < r.length := by
    by_contra hr
    rw [getD_of_le (by omega)] at hdigit
    cases hdigit
  rw [wp_stateLoop (by decide)]
  unfold step
  simp only [wp_bind]
  rw [wp_charLookahead h h.le, Nat.add_zero, wp_numberPrefix h, wp_pure]
  unfold numberShape resume
  rw [List.drop_zero]
  cases hpre : prefixOf r with
  | some base =>
    have hten : base ≠ .ten := fun e => prefixOf_ne_ten _ (e ▸ hpre)
    have hlen := prefixOf_length (k := 0) hpre
    simp only [Option.isSome_some, if_true]
    exact wp_prefixed (h.move hlen) hten (Frame.last s _) rfl
  | none =>
    have h401 : prefixState .s402 .s403 .s404 .s401 none = .s401 := rfl
    have hd : At { s with digits := ⟨s.lexeme.last, s.lexeme.last⟩ } q r 0 := h.congr rfl rfl rfl
    have hle := runLen_le (cstrIsDigit · .ten) hr
    simp only [Option.isSome_none, Bool.false_eq_true, if_false, h401]
    rw [wp_stateLoop (by decide)]
    unfold step textFuel
    simp only [wp_bind]
    rw [wp_charLookahead h h.le]
    simp only [wp_modify, wp_reads]
    rw [wp_advanceWhile rfl hd hr hd.fuel, Nat.zero_add, ← decimalLen_eq]
    rw [Nat.zero_add, ← decimalLen_eq] at hle
    have h' := hd.move hle
    generalize hc : r.getD (decimalLen r) 0 = c
    by_cases hws : c = 119 ∨ c = 115
    · have hk : decimalLen r < r.length := by
        refine getD_pos (c := c) ?_ hc
        rcases hws with rfl | rfl <;> decide
      simp only [if_pos hws]
      exact wp_width h' hdigit hk h.last ⟨rfl, rfl, rfl, rfl⟩ rfl
    · simp only [if_neg hws]
      rw [decimalLen_eq] at hle h' ⊢
      exact wp_decimal h' hle h.last ⟨rfl, rfl, rfl, rfl⟩ rfl

/-! ## All states -/

/-- A property of bytes holds when it does of all of them. -/
theorem byte_cases {P : UInt8 → Prop} (h : ∀ n : Fin 256, P (.ofFin n)) (c : UInt8) : P c := by
  have hc := h c.toFin
  rwa [UInt8.ofFin_toFin] at hc

theorem dispatch_s2 (c : UInt8) : dispatch c = .s2 ↔ c = 0 :=
  byte_cases (P := fun c => dispatch c = .s2 ↔ c = 0) (by decide +kernel) c

theorem dispatch_digit (c : UInt8) : dispatch c = .s400 → cstrIsDigit c .ten = true :=
  byte_cases (P := fun c => dispatch c = .s400 → cstrIsDigit c .ten = true) (by decide +kernel) c

theorem dispatch_slash (c : UInt8) : dispatch c = .s116 → c = 47 :=
  byte_cases (P := fun c => dispatch c = .s116 → c = 47) (by decide +kernel) c

/-- The states that state 1 leads to. -/
def entered : List LexState :=
  [.s2, .s3, .s100, .s101, .s102, .s103, .s104, .s105, .s106, .s107, .s108, .s109, .s110, .s111,
    .s112, .s113, .s114, .s115, .s116, .s117, .s118, .s119, .s120, .s121, .s122, .s200, .s400,
    .s500]

theorem dispatch_mem (c : UInt8) : dispatch c ∈ entered :=
  byte_cases (P := fun c => dispatch c ∈ entered) (by decide +kernel) c

/-- A state whose round makes the token. -/
theorem wp_of_makes {state : LexState} {x : LexM (LexState × Token)} {sh : Shape}
    (hstate : state ≠ .s0) (hstep : step state {} = charLookahead 0 >>= fun _ => x)
    (h : At s q r 0) (hx : Makes fuel x s q r prev sh) :
    wp (stateLoop (fuel + 1) state {}) s (Read s q r prev sh) (Fails s.memory r sh) := by
  rw [wp_stateLoop hstate, hstep, wp_bind, wp_charLookahead h h.le]
  exact hx

theorem wp_endOfInput (h : At s q [] 0) :
    wp (stateLoop (fuel + 1) .s2 {}) s (Read s q [] prev .endOfInput)
      (Fails s.memory [] .endOfInput) := by
  refine wp_of_makes (x := finishAs {} .endOfInput (Cstr.ofString "<end-of-input>")) (by decide) rfl
    h ?_
  unfold Makes finishAs
  simp only [wp_bind, wp_reads, wp_pure]
  rw [wp_done]
  exact ⟨by simp, rfl, h.start, fun _ => h.start, rfl, rfl, h, Frame.refl s,
    fun hc => absurd hc Bool.false_ne_true, rfl⟩

theorem wp_unknown (h : At s q r 0) (hr : 0 < r.length) :
    wp (stateLoop (fuel + 1) .s3 {}) s (Read s q r prev .unknown)
      (Fails s.memory r .unknown) := by
  rw [wp_stateLoop (by decide)]
  unfold step finishAs
  simp only [wp_bind]
  rw [wp_charLookahead h h.le]
  simp only [wp_reads, wp_pure]
  rw [wp_lexemeAdvance h hr, wp_done]
  exact ⟨by simp, rfl, h.start, fun hc => absurd rfl hc, rfl, rfl, h.advance hr,
    ⟨rfl, rfl, rfl, rfl⟩, fun hc => absurd hc Bool.false_ne_true, rfl⟩

theorem wp_minus (h : At s q r 0) (hr : 0 < r.length)
    (hprev : ∃ last, s.tokens.getLast? = some last ∧ last.klass = prev) :
    wp (stateLoop (fuel + 1) .s113 {}) s (Read s q r prev .minus) (Fails s.memory r .minus) := by
  obtain ⟨last, hlast, rfl⟩ := hprev
  rw [wp_stateLoop (by decide)]
  unfold step
  simp only [wp_bind]
  rw [wp_charLookahead h h.le]
  simp only [wp_reads, hlast, wp_lift_some]
  exact wp_finish h hr rfl rfl rfl rfl (Frame.refl s) rfl

/-- State 103: an underscore alone, or at the front of a word. -/
theorem wp_underscore (h : At s q r 0) (hr : 0 < r.length) {sh : Shape}
    (hsh : sh = if isWordChar (r.getD 1 0) then wordShape r else .plain .dontcare 1) :
    wp (stateLoop (fuel + 2) .s103 {}) s (Read s q r prev sh) (Fails s.memory r sh) := by
  rw [wp_stateLoop (by decide)]
  unfold step
  simp only [wp_bind]
  rw [wp_charLookahead h h.le, wp_charLookahead h hr, Nat.zero_add]
  cases hword : isWordChar (r.getD 1 0) with
  | true =>
    rw [hword, if_pos rfl] at hsh
    rw [if_pos rfl, hsh, wp_pure]
    unfold resume
    rw [wp_stateLoop (by decide)]
    exact makes_word h hr
  | false =>
    rw [hword, if_neg Bool.false_ne_true] at hsh
    rw [if_neg Bool.false_ne_true, hsh]
    exact makes_single h hr

/-- State 116: a slash, or a comment. -/
theorem wp_slash (h : At s q r 0) (hc : r.getD 0 0 = 47) (hf : r.length < fuel) :
    wp (stateLoop (fuel + 1) .s116 {}) s (Read s q r prev (slashShape r))
      (Fails s.memory r (slashShape r)) := by
  have hr : 0 < r.length := getD_pos (by decide) hc
  rw [wp_stateLoop (by decide)]
  unfold step
  simp only [wp_bind]
  rw [wp_charLookahead h h.le, wp_charLookahead h hr, Nat.zero_add]
  by_cases h42 : r.getD 1 0 = 42
  · have hlt : 1 < r.length := getD_pos (by decide) h42
    have hshape : slashShape r = blockShape r 1 := by
      rw [slashShape, if_pos h42]
      exact congrArg (Shape.upTo · _) (funext fun n => congrArg _ (Nat.add_comm n 2))
    have hlines : breaks (r.take (1 + 1)) = 0 := by
      have htake : r.take (1 + 1) = [47, 42] := by
        have h0 := drop_eq_cons hr
        rw [List.drop_zero, drop_eq_cons hlt, hc, h42] at h0
        rw [h0]
        rfl
      rw [htake]
      rfl
    rw [if_pos h42, hshape, wp_bind, wp_charAdvance h hr, wp_pure]
    exact wp_block (h.move hr) h42 (Frame.last s _) (by rw [hlines]; rfl) (by omega)
  · rw [if_neg h42, wp_bind, wp_charLookahead h hr, Nat.zero_add]
    by_cases h47 : r.getD 1 0 = 47
    · obtain ⟨fuel, rfl⟩ : ∃ n, fuel = n + 1 := ⟨fuel - 1, by omega⟩
      rw [if_pos h47, slashShape, if_neg h42, if_pos h47, wp_pure]
      unfold resume
      rw [wp_stateLoop (by decide)]
      exact makes_lineComment h hr
    · rw [if_neg h47, slashShape, if_neg h42, if_neg h47]
      exact makes_single h hr

theorem headD_eq (r : List UInt8) : r.headD 0 = r.getD 0 0 := by cases r <;> rfl

/-- **A token** from its first character on. -/
theorem wp_token (h : At s q r 0)
    (hprev : ∃ last, s.tokens.getLast? = some last ∧ last.klass = prev)
    (hf : r.length + 5 ≤ fuel) :
    wp (stateLoop fuel (dispatch (r.headD 0)) {}) s (Read s q r prev (shape r))
      (Fails s.memory r (shape r)) := by
  obtain ⟨fuel, rfl⟩ : ∃ n, fuel = n + 4 := ⟨fuel - 4, by omega⟩
  unfold shape
  have hmem := dispatch_mem (r.headD 0)
  have hzero := dispatch_s2 (r.headD 0)
  have hdigit := dispatch_digit (r.headD 0)
  have hslash := dispatch_slash (r.headD 0)
  by_cases hc : r.headD 0 = 0
  · have hnil : r = [] := by
      cases r with
      | nil => rfl
      | cons c r =>
        have hc' : c = 0 := hc
        exact absurd (by rw [hc']; exact List.mem_cons_self ..) h.noNul
    subst hnil
    exact wp_endOfInput h
  · have hr : 0 < r.length := by
      rw [headD_eq] at hc
      by_contra hr
      exact hc (getD_of_le (by omega))
    have hne : dispatch (r.headD 0) ≠ .s2 := fun hs => hc (hzero.mp hs)
    generalize dispatch (r.headD 0) = state at *
    simp only [entered, List.mem_cons, List.not_mem_nil, or_false] at hmem
    rcases hmem with rfl | rfl | rfl | rfl | rfl | rfl | rfl | rfl | rfl | rfl | rfl | rfl | rfl |
      rfl | rfl | rfl | rfl | rfl | rfl | rfl | rfl | rfl | rfl | rfl | rfl | rfl | rfl | rfl
    case _ => exact absurd rfl hne
    case _ => exact wp_unknown h hr
    case _ => exact wp_of_makes (by decide) rfl h (makes_single h hr)
    case _ =>
      exact wp_of_makes (by decide) rfl h (makes_second (by decide) h hr
        (makes_second (by decide) h hr (makes_pure h hr)))
    case _ =>
      exact wp_of_makes (by decide) rfl h (makes_second (by decide) h hr
        (makes_second (by decide) h hr (makes_pure h hr)))
    case _ => exact wp_underscore h hr rfl
    case _ => exact wp_of_makes (by decide) rfl h (makes_single h hr)
    case _ => exact wp_of_makes (by decide) rfl h (makes_single h hr)
    case _ => exact wp_of_makes (by decide) rfl h (makes_single h hr)
    case _ => exact wp_of_makes (by decide) rfl h (makes_single h hr)
    case _ => exact wp_of_makes (by decide) rfl h (makes_single h hr)
    case _ => exact wp_of_makes (by decide) rfl h (makes_single h hr)
    case _ => exact wp_of_makes (by decide) rfl h (makes_single h hr)
    case _ => exact wp_of_makes (by decide) rfl h (makes_single h hr)
    case _ => exact wp_of_makes (by decide) rfl h (makes_single h hr)
    case _ => exact wp_minus h hr hprev
    case _ => exact wp_of_makes (by decide) rfl h (makes_single h hr)
    case _ => exact wp_of_makes (by decide) rfl h (makes_single h hr)
    case _ => exact wp_slash h (by rw [← headD_eq]; exact hslash rfl) (by omega)
    case _ =>
      exact wp_of_makes (by decide) rfl h (makes_second (by decide) h hr (makes_pure h hr))
    case _ =>
      exact wp_of_makes (by decide) rfl h (makes_second (by decide) h hr (makes_pure h hr))
    case _ => exact wp_of_makes (by decide) rfl h (makes_ampersands h hr)
    case _ =>
      exact wp_of_makes (by decide) rfl h (makes_second (by decide) h hr (makes_pure h hr))
    case _ => exact wp_of_makes (by decide) rfl h (makes_single h hr)
    case _ => exact wp_of_makes (by decide) rfl h (makes_single h hr)
    case _ =>
      rw [wp_stateLoop (by decide)]
      exact makes_string h hr
    case _ => exact wp_number h (by rw [← headD_eq]; exact hdigit rfl)
    case _ =>
      rw [wp_stateLoop (by decide)]
      exact makes_word h hr

/-! ## Blanks -/

/-- **State 1** skips the blanks and counts their lines. -/
theorem wp_blanks {E : Exit → Prop} {Q : Token → State → Prop} :
    ∀ {m : Nat} {r : List UInt8} {q fuel : Nat} {s : State}, r.length ≤ m → At s q r 0 →
      r.length + 6 ≤ fuel →
      (∀ t fuel', At t (q + (r.takeWhile isBlank).length) (r.dropWhile isBlank) 0 → Frame s t →
        t.lineNr = s.lineNr + breaks (r.takeWhile isBlank) →
        (r.dropWhile isBlank).length + 5 ≤ fuel' →
        wp (stateLoop fuel' (dispatch ((r.dropWhile isBlank).headD 0)) {}) t Q E) →
      wp (stateLoop fuel .s1 {}) s Q E
  | m, r, q, fuel, s, hm, h, hf, hQ => by
    obtain ⟨fuel, rfl⟩ : ∃ n, fuel = n + 1 := ⟨fuel - 1, by omega⟩
    rw [wp_stateLoop (by decide)]
    unfold step
    simp only [wp_bind]
    rw [wp_charLookahead h h.le, Nat.zero_add, ← headD_eq]
    cases r with
    | nil =>
      rw [if_neg (by decide), wp_pure]
      exact hQ s fuel h (Frame.refl s) rfl (by simpa using hf)
    | cons c r =>
      have hc : (c :: r).headD 0 = c := rfl
      rw [hc]
      by_cases hblank : isBlank c = true
      · obtain ⟨m, rfl⟩ : ∃ n, m = n + 1 := ⟨m - 1, by simp at hm; omega⟩
        rw [List.takeWhile_cons_of_pos hblank, List.dropWhile_cons_of_pos hblank] at hQ
        rw [if_pos hblank]
        have h₁ := h.advance (by simp)
        unfold skipBlank
        simp only [wp_bind]
        rw [wp_lexemeAdvance h (by simp)]
        simp only [Nat.zero_add, List.drop_succ_cons, List.drop_zero] at h₁ ⊢
        by_cases hnl : isNewline c = true
        · rw [if_pos hnl]
          simp only [wp_bind]
          rw [wp_charLookahead h₁ h₁.le, Nat.zero_add, ← headD_eq]
          cases hp : isPair c (r.headD 0) with
          | true =>
            cases r with
            | nil =>
              rw [List.headD_nil, isPair_zero hnl] at hp
              cases hp
            | cons d r =>
              have hd : isPair c d = true := hp
              have hdnl := isPair_newline hnl hd
              have hdblank : isBlank d = true := by
                unfold isNewline at hdnl
                simp only [Bool.or_eq_true, beq_iff_eq] at hdnl
                rcases hdnl with rfl | rfl <;> rfl
              obtain ⟨m, rfl⟩ : ∃ n, m = n + 1 := ⟨m - 1, by simp at hm; omega⟩
              rw [List.takeWhile_cons_of_pos hdblank, List.dropWhile_cons_of_pos hdblank] at hQ
              have h₂ := h₁.advance (by simp)
              rw [if_pos rfl, wp_bind, wp_lexemeAdvance h₁ (by simp)]
              simp only [Nat.zero_add, List.drop_succ_cons, List.drop_zero] at h₂ ⊢
              unfold countLine resume
              simp only [wp_modify, wp_pure]
              refine wp_blanks (m := m) (by simp at hm; omega) (h₂.lines 1)
                (by simp at hf; omega) fun t fuel' ht hframe hlines hfuel => ?_
              have hlen : q + (c :: d :: r.takeWhile isBlank).length =
                  q + 1 + 1 + (r.takeWhile isBlank).length := by simp only [List.length_cons]; omega
              refine hQ t fuel' (by rw [hlen]; exact ht) ⟨hframe.text, hframe.size, hframe.tokens,
                hframe.memory⟩
                ?_ hfuel
              rw [hlines, breaks_cons_pair hnl hd]
              show s.lineNr + 1 + _ = _
              omega
          | false =>
            rw [if_neg Bool.false_ne_true]
            unfold countLine resume
            simp only [wp_modify, wp_pure]
            refine wp_blanks (m := m) (by simp at hm; omega) (h₁.lines 1)
              (by simp at hf; omega) fun t fuel' ht hframe hlines hfuel => ?_
            have hlen : q + (c :: r.takeWhile isBlank).length =
                q + 1 + (r.takeWhile isBlank).length := by simp only [List.length_cons]; omega
            have hhead : isPair c ((r.takeWhile isBlank).headD 0) = false := by
              cases r with
              | nil => exact isPair_zero hnl
              | cons d r =>
                by_cases hd : isBlank d = true
                · rw [List.takeWhile_cons_of_pos hd]
                  exact hp
                · rw [List.takeWhile_cons_of_neg hd]
                  exact isPair_zero hnl
            refine hQ t fuel' (by rw [hlen]; exact ht) ⟨hframe.text, hframe.size, hframe.tokens,
              hframe.memory⟩
              ?_ hfuel
            rw [hlines, breaks_cons_single hnl hhead]
            show s.lineNr + 1 + _ = _
            omega
        · rw [if_neg hnl]
          simp only [wp_pure]
          unfold resume
          refine wp_blanks (m := m) (by simp at hm; omega) h₁
            (by simp at hf; omega) fun t fuel' ht hframe hlines hfuel => ?_
          have hlen : q + (c :: r.takeWhile isBlank).length =
              q + 1 + (r.takeWhile isBlank).length := by simp only [List.length_cons]; omega
          refine hQ t fuel' (by rw [hlen]; exact ht) ⟨hframe.text, hframe.size, hframe.tokens,
            hframe.memory⟩
            ?_ hfuel
          rw [hlines, breaks_cons_of_not (by simpa using hnl)]
      · rw [List.takeWhile_cons_of_neg hblank, List.dropWhile_cons_of_neg hblank] at hQ
        rw [if_neg hblank, wp_pure]
        exact hQ s fuel h (Frame.refl s) rfl (by omega)

/-- **`next_token`** reads the token after the blanks. -/
theorem wp_nextToken (h : At s q r 0)
    (hprev : ∃ last, s.tokens.getLast? = some last ∧ last.klass = prev) :
    wp nextToken s
      (fun token t => ∃ u, Frame s u ∧ u.lineNr = s.lineNr + breaks (r.takeWhile isBlank) ∧
        Read u (q + (r.takeWhile isBlank).length) (r.dropWhile isBlank) prev
          (shape (r.dropWhile isBlank)) token t)
      (Fails s.memory (r.dropWhile isBlank) (shape (r.dropWhile isBlank))) := by
  unfold nextToken
  simp only [wp_bind, wp_reads]
  refine wp_blanks (Nat.le_refl _) h (by rw [h.size]; omega) fun u fuel' hu hframe hlines hf => ?_
  rw [← hframe.memory]
  refine wp_mono (wp_token hu (by rw [hframe.tokens]; exact hprev) hf) ?_ fun _ h => h
  exact fun token t hread => ⟨u, hframe, hlines, hread⟩

end Dp4c.Lex
