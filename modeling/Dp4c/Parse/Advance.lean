import Dp4c.Parse.Invariant

/-! # Contracts for reading tokens and lists -/
namespace Dp4c.Parse

open Dp4c.Lib Dp4c.Lib.Prog Dp4c.Symtable

variable {α β : Type} {memory : Memory} {m n lo i : Nat} {s t : State}
  {p q c : TokenClass → Bool} {P : α → Prop} {Q : β → Prop} {kinds : AstKind → Bool}

/-! ## Comments and classes -/

/-- The loop over comments stops at the first other token, or it runs off the array. -/
theorem skipComments_run (s : State) : ∀ (fuel i : Nat), i ≤ s.tokens.length →
    s.tokens.length < fuel + i →
    (∃ j, skipComments fuel i s = .ok (j, s) ∧ i ≤ j ∧ j < s.tokens.length ∧
      (∀ k, i ≤ k → k < j → (s.tokens.getD k {}).klass = .comment) ∧
      (s.tokens.getD j {}).klass ≠ .comment) ∨
    (skipComments fuel i s = .error ⟨.assertion "i >= 0 && i < array->elem_count", s⟩ ∧
      ∀ k, i ≤ k → k < s.tokens.length → (s.tokens.getD k {}).klass = .comment)
  | 0, i, hi, hfuel => by omega
  | fuel + 1, i, hi, hfuel => by
    unfold skipComments
    rcases Nat.lt_or_eq_of_le hi with hi | rfl
    · have hget : arrayGet i s = .ok (s.tokens[i], s) := by
        unfold arrayGet
        rw [List.getElem?_eq_getElem hi]
      have hgetD : s.tokens.getD i {} = s.tokens[i] := by
        rw [List.getD_eq_getElem?_getD, List.getElem?_eq_getElem hi, Option.getD_some]
      rw [bind_of_ok hget]
      by_cases hc : s.tokens[i].klass = .comment
      · rw [if_pos hc]
        have hfront : ∀ {m : Nat}, (∀ k, i + 1 ≤ k → k < m →
            (s.tokens.getD k {}).klass = .comment) →
            ∀ k, i ≤ k → k < m → (s.tokens.getD k {}).klass = .comment := fun h k hk hkm => by
          rcases Nat.eq_or_lt_of_le hk with rfl | hk
          · rw [hgetD]
            exact hc
          · exact h k hk hkm
        rcases skipComments_run s fuel (i + 1) (by omega) (by omega) with
          ⟨j, hj, hle, hlt, hcomments, hstop⟩ | ⟨herror, hcomments⟩
        · exact .inl ⟨j, hj, by omega, hlt, hfront hcomments, hstop⟩
        · exact .inr ⟨herror, hfront hcomments⟩
      · rw [if_neg hc]
        refine .inl ⟨i, rfl, Nat.le_refl _, hi, fun k _ _ => by omega, ?_⟩
        rw [hgetD]
        exact hc
    · have hget : arrayGet s.tokens.length s =
          .error ⟨.assertion "i >= 0 && i < array->elem_count", s⟩ := by
        unfold arrayGet
        rw [List.getElem?_eq_none (Nat.le_refl _)]
      exact .inr ⟨bind_of_error hget _, fun k hk hlt => by omega⟩

theorem reclassify_same (s : State) : (reclassify s).tokens.length = s.tokens.length ∧
    (reclassify s).tokenAt = s.tokenAt ∧ (reclassify s).prevTokenAt = s.prevTokenAt ∧
    (reclassify s).trace = s.trace := by
  unfold reclassify
  split
  · exact ⟨List.length_set, rfl, rfl, rfl⟩
  · exact ⟨rfl, rfl, rfl, rfl⟩

/-- Only the current token can change, and only if it is an identifier. -/
theorem reclassify_get (s : State) {k : Nat}
    (h : k ≠ s.tokenAt ∨ s.token.klass ≠ .identifier) :
    (reclassify s).tokens[k]? = s.tokens[k]? := by
  unfold reclassify
  split
  · rename_i hid
    exact List.getElem?_set_ne (h.resolve_right fun hne => hne hid).symm
  · rfl

/-! ## `next_token` and `peek_token` -/

/-- What `next_token` does: it goes on to the first token that is no comment, or there is
none. -/
theorem nextToken_run (hs : s.tokenAt < s.tokens.length) :
    (∃ j, s.tokenAt < j ∧ j < s.tokens.length ∧
      (∀ k, s.tokenAt < k → k < j → (s.tokens.getD k {}).klass = .comment) ∧
      (s.tokens.getD j {}).klass ≠ .comment ∧
      nextToken s = .ok ((), reclassify { s with
        trace := ⟨.nextToken, s.tokenAt, s.token.klass⟩ :: s.trace, tokenAt := j,
        prevTokenAt := s.tokenAt })) ∨
    (nextToken s = .error ⟨.assertion "i >= 0 && i < array->elem_count", { s with
        trace := ⟨.nextToken, s.tokenAt, s.token.klass⟩ :: s.trace }⟩ ∧
      ∀ k, s.tokenAt < k → k < s.tokens.length → (s.tokens.getD k {}).klass = .comment) := by
  let s' : State := { s with trace := ⟨.nextToken, s.tokenAt, s.token.klass⟩ :: s.trace }
  have hnote : note .nextToken s = .ok ((), s') := rfl
  unfold nextToken
  rw [bind_of_ok hnote, bind_of_ok (rfl : state s' = .ok (s', s')), if_pos hs]
  rcases skipComments_run s' (s.tokens.length + 1) (s.tokenAt + 1) hs
    (by show s.tokens.length < _; omega) with
      ⟨j, hj, hle, hlt, hcomments, hstop⟩ | ⟨herror, hcomments⟩
  · exact .inl ⟨j, hle, hlt, hcomments, hstop, bind_of_ok hj _⟩
  · exact .inr ⟨bind_of_error herror _, hcomments⟩

theorem Step.Within.later {tokens tokens' : List Token} {step : Step} (h : step.Within tokens)
    (hlen : tokens'.length = tokens.length) (hfirst : tokens'[0]? = tokens[0]?) :
    step.Within tokens' :=
  ⟨hlen ▸ h.inBounds, h.notEnd, fun h0 => by
    rw [h.first h0, List.getD_eq_getElem?_getD, List.getD_eq_getElem?_getD, hfirst]⟩

/-- An array whose last token is the end of input stays such an array. -/
theorem reclassify_ends (h : EndsInput s.tokens) : EndsInput (reclassify s).tokens := by
  obtain ⟨t, ht, hklass⟩ := h
  refine ⟨t, ?_, hklass⟩
  rw [(reclassify_same s).1, reclassify_get, ht]
  by_cases heq : s.tokens.length - 1 = s.tokenAt
  · right
    rw [State.token, ← heq, List.getD_eq_getElem?_getD, ht, Option.getD_some, hklass]
    exact fun h => nomatch h
  · exact .inl heq

/-- Where only comments follow, the array ends with no end of input. -/
theorem not_endsInput (hlt : s.tokenAt < s.tokens.length)
    (hend : s.token.klass ≠ .endOfInput ∨ s.tokenAt = 0 ∧ 1 < s.tokens.length)
    (hcomments : ∀ k, s.tokenAt < k → k < s.tokens.length → (s.tokens.getD k {}).klass = .comment) :
    ¬ EndsInput s.tokens := by
  rintro ⟨t, ht, hklass⟩
  have hlast : (s.tokens.getD (s.tokens.length - 1) {}).klass = .endOfInput := by
    rw [List.getD_eq_getElem?_getD, ht]
    exact hklass
  rcases Nat.lt_or_ge s.tokenAt (s.tokens.length - 1) with hlater | hsame
  · rw [hcomments _ hlater (by omega)] at hlast
    cases hlast
  · have heq : s.tokens.length - 1 = s.tokenAt := by omega
    rw [heq] at hlast
    exact hend.elim (fun hne => hne hlast) fun h => by omega

/-- Where `next_token` may be called. -/
def State.Continues (s : State) : Prop :=
  s.token.klass ≠ .endOfInput ∨ s.tokenAt = 0 ∧ 1 < s.tokens.length

theorem nextToken_inv (hs : Inv memory s) (hend : s.Continues) :
    wp nextToken s
      (fun _ t => Inv memory t ∧ Later 1 s t ∧ t.prevTokenAt = s.tokenAt ∧
        ⟨.nextToken, s.tokenAt, s.token.klass⟩ ∈ t.trace ∧
        ∀ k ≤ s.tokenAt, t.tokens[k]? = s.tokens[k]?)
      fun e => Ended memory e ∧ Later 0 s e.state ∧
        ⟨.nextToken, s.tokenAt, s.token.klass⟩ ∈ e.state.trace := by
  obtain ⟨v, hnote, hv, hlater, -⟩ := hs.noted .nextToken (fun _ => hend.imp_right (·.1))
    (fun h => nomatch h.1) (fun h => nomatch h.1) fun h => nomatch h.1
  obtain rfl : { s with trace := ⟨.nextToken, s.tokenAt, s.token.klass⟩ :: s.trace } = v :=
    congrArg Prod.snd (Except.ok.inj hnote)
  rcases nextToken_run hs.inBounds with ⟨j, hlt, hj, -, -, hnext⟩ | ⟨hnext, hcomments⟩
  · refine wp_of_ok hnext ?_
    generalize hu : ({ s with
      trace := ⟨.nextToken, s.tokenAt, s.token.klass⟩ :: s.trace, tokenAt := j,
      prevTokenAt := s.tokenAt } : State) = u
    have htokens : u.tokens = s.tokens := by rw [← hu]
    have hat : u.tokenAt = j := by rw [← hu]
    have htrace : u.trace = ⟨.nextToken, s.tokenAt, s.token.klass⟩ :: s.trace := by rw [← hu]
    have hprev : u.prevTokenAt = s.tokenAt := by rw [← hu]
    obtain ⟨hlen, hat', hprev', htrace'⟩ := reclassify_same u
    have hends : EndsInput s.tokens → EndsInput (reclassify u).tokens :=
      htokens ▸ reclassify_ends (s := u)
    rw [htokens] at hlen
    rw [hat] at hat'
    rw [htrace] at htrace'
    have hbefore : ∀ k ≤ s.tokenAt, (reclassify u).tokens[k]? = s.tokens[k]? := fun k hk => by
      rw [reclassify_get u (.inl (by omega)), htokens]
    refine ⟨⟨?_, ?_, ?_⟩, ⟨hlen, hends, ?_, ?_⟩, hprev'.trans hprev, ?_, hbefore⟩
    · rw [hat', hlen]
      exact hj
    · rw [htrace']
      exact fun step hmem => (hv.within step hmem).later hlen (hbefore 0 (Nat.zero_le _))
    · rw [htrace']
      exact hv.orderly
    · rw [hat']
      exact hlt
    · rw [htrace']
      exact List.suffix_cons _ _
    · rw [htrace']
      exact List.mem_cons_self
  · refine wp_of_error hnext ⟨⟨hs.inBounds, hv.within, ?_⟩, hlater, List.mem_cons_self⟩
    exact .pastEnd rfl hv.orderly (not_endsInput hs.inBounds hend hcomments)

theorem nextToken_spec (hp : p .endOfInput = false) :
    Spec memory n p 1 nextToken fun _ => True := fun s hs hk _ => by
  have hend : s.token.klass ≠ .endOfInput := fun h => by rw [h, hp] at hk; cases hk
  exact wp_mono (nextToken_inv hs (.inl hend)) (fun _ _ ht => ⟨ht.1, ht.2.1, trivial⟩)
    fun _ he => ⟨he.1, he.2.1⟩

/-- A token is consumed. -/
theorem Spec.next {f : Unit → Parser α} (hp : p .endOfInput = false)
    (hf : Spec memory n any (lo - 1) (f ()) P) : Spec memory n p lo (nextToken >>= f) P :=
  .bindFrom (nextToken_spec hp) fun _ _ =>
    hf.mono (Nat.sub_le _ _) (fun _ h => h) (Nat.le_refl _) fun _ ha => ha

/-- A token is consumed, and one level less of recursion is enough. -/
theorem Spec.nextEnter {f : Unit → Parser α} (hp : p .endOfInput = false)
    (hf : Spec memory n any (lo - 1) (f ()) P) : Spec memory (n + 1) p lo (nextToken >>= f) P :=
  .enter (nextToken_spec hp) fun _ _ => hf

theorem expect_spec {klass : TokenClass} {what : String} (hne : klass ≠ .endOfInput) :
    Spec memory n p 1 (expect klass what) fun _ => True := by
  refine .ifToken (nextToken_spec ?_) .error
  rw [is, Bool.and_eq_false_iff]
  exact .inr (beq_false_of_ne (Ne.symm hne))

theorem Spec.expect {klass : TokenClass} {what : String} {f : Unit → Parser α}
    (hne : klass ≠ .endOfInput) (hf : Spec memory n any (lo - 1) (f ()) P) :
    Spec memory n p lo (expect klass what >>= f) P :=
  .bind (expect_spec hne) fun _ _ => hf

theorem Spec.expectEnter {klass : TokenClass} {what : String} {f : Unit → Parser α}
    (hne : klass ≠ .endOfInput) (hf : Spec memory n any (lo - 1) (f ()) P) :
    Spec memory (n + 1) p lo (Parse.expect klass what >>= f) P :=
  .enter (expect_spec hne) fun _ _ => hf

/-- Looking at the next token changes nothing that a contract speaks about. -/
theorem peekToken_inv (hs : Inv memory s) (hend : s.token.klass ≠ .endOfInput) :
    wp peekToken s
      (fun _ t => Inv memory t ∧ Later 0 s t ∧ t.tokenAt = s.tokenAt ∧ t.token = s.token)
      fun e => Ended memory e ∧ Later 0 s e.state := by
  obtain ⟨v, hnote, hv, hlater, hat, htoken, -⟩ := hs.noted .peekToken (fun _ => .inl hend)
    (fun h => nomatch h.1) (fun h => nomatch h.1) fun h => nomatch h.1
  have hsame' : v.tokens = s.tokens :=
    (congrArg (fun r => r.2.tokens) (Except.ok.inj hnote)).symm
  unfold peekToken
  rw [wp_bind]
  refine wp_of_ok hnote ?_
  rw [wp_bind]
  refine wp_mono (nextToken_inv hv (.inl (htoken ▸ hend)))
    (fun _ t ⟨ht, hlater', hprev, _, hsame⟩ => ?_) fun e he => ⟨he.1, hlater.andEnds he.2.1⟩
  rw [hat] at hprev hsame
  refine ⟨⟨?_, ht.within, ht.orderly⟩, ⟨?_, hlater'.ends ∘ hlater.ends, ?_, ?_⟩, hprev, ?_⟩
  · show t.prevTokenAt < t.tokens.length
    rw [hprev, hlater'.length, hlater.length]
    exact hs.inBounds
  · exact hlater'.length.trans hlater.length
  · exact Nat.le_of_eq hprev.symm
  · exact hlater.trace.trans hlater'.trace
  · show t.tokens.getD t.prevTokenAt {} = s.token
    rw [State.token, List.getD_eq_getElem?_getD, List.getD_eq_getElem?_getD, hprev,
      hsame _ (Nat.le_refl _), hsame']

theorem Spec.ifPeek {x y : Parser α} (hp : p .endOfInput = false) (hx : Spec memory n p lo x P)
    (hy : Spec memory n p lo y P) : Spec memory n p lo (ifPeek c x y) P := fun s hs hk hl => by
  have hend : s.token.klass ≠ .endOfInput := fun h => by rw [h, hp] at hk; cases hk
  unfold Parse.ifPeek
  rw [wp_bind]
  refine wp_mono (peekToken_inv hs hend) (fun token t ⟨ht, hlater, hat, htoken⟩ => ?_)
    fun _ he => he
  have hleft : t.left = s.left := by unfold State.left; rw [hlater.length, hat]
  rw [← htoken] at hk
  have hbranch : wp (if c token.klass then x else y) t
      (fun a u => Inv memory u ∧ Later lo t u ∧ P a) fun e => Ended memory e ∧
      Later 0 t e.state := by
    split
    · exact hx t ht hk (by omega)
    · exact hy t ht hk (by omega)
  refine wp_mono hbranch (fun a u ⟨hu, htu, ha⟩ => ⟨hu, ?_, ha⟩) fun e he =>
    ⟨he.1, hlater.andEnds he.2⟩
  exact (hlater.trans htu).weaken (by omega)

/-! ## Lists -/

/-- A link can be appended. -/
def AstList.Ready (list : AstList) : Prop := list.links = [] → list.sentinelNext = 0

/-- A list under construction. -/
def Growing (kinds : AstKind → Bool) (list : AstList) : Prop :=
  list.Ready ∧ ∀ a ∈ list.links, Is kinds a

theorem Growing.listOf {list : AstList} (h : Growing kinds list) : ListOf kinds (some list) :=
  fun l hl => by
    obtain rfl := Option.some.inj hl
    exact h.2

theorem Spec.newAstList {f : AstList → Parser α}
    (hf : ∀ list, Growing kinds list → Spec memory n p lo (f list) P) :
    Spec memory n p lo (newAstList >>= f) P := by
  rw [newAstList_eq, pure_bind]
  exact hf {} ⟨fun _ => rfl, fun _ h => nomatch h⟩

theorem Spec.append {list : AstList} {a : Ast} {f : AstList → Parser α} (hl : Growing kinds list)
    (ha : Is kinds a) (hf : ∀ list, Growing kinds list → Spec memory n p lo (f list) P) :
    Spec memory n p lo (astListAppendLink list a >>= f) P := by
  unfold astListAppendLink
  rw [if_neg fun h => h.2 (hl.1 h.1)]
  refine hf _ ⟨fun h => ?_, fun b hb => ?_⟩
  · exact absurd h (by simp)
  · rcases List.mem_append.mp hb with hb | hb
    · exact hl.2 b hb
    · rw [List.mem_singleton.mp hb]
      exact ha

/-- There is always a token left, the end of input. -/
theorem Spec.exhausted {y : Parser α} (hn : n ≤ 1) : Spec memory n p lo y P := fun s hs _ hl => by
  have := hs.left_pos
  omega

theorem commaLoop_spec {item : Parser Ast} (hitem : Spec memory n any 1 item (Is kinds)) :
    ∀ {fuel k : Nat} {list : AstList}, k ≤ n → k ≤ fuel + 1 → Growing kinds list →
    Spec memory k any 0 (commaLoop item fuel list) (Growing kinds)
  | 0, _, _, _, hk, _ => .exhausted hk
  | fuel + 1, k, list, hn, hk, hl => by
    unfold commaLoop
    refine .ifToken (.bindFrom (nextToken_spec rfl) fun _ _ => ?_) (.pure hl)
    have hitem' : Spec memory (k - 2 * 1) any 1 item (Is kinds) :=
      hitem.mono (by omega) (fun _ h => h) (Nat.le_refl _) fun _ h => h
    refine .bind hitem' fun a ha => .append hl ha fun list hl => ?_
    exact commaLoop_spec hitem (by omega) (by omega) hl

theorem whileLoop_spec {item : Parser Ast} (hitem : Spec memory n c 1 item (Is kinds)) :
    ∀ {fuel k : Nat} {list : AstList}, k ≤ n → k ≤ fuel + 1 → Growing kinds list →
    Spec memory k any 0 (whileLoop c item fuel list) (Growing kinds)
  | 0, _, _, _, hk, _ => .exhausted hk
  | fuel + 1, k, list, hn, hk, hl => by
    unfold whileLoop
    have hitem' : Spec memory k (fun k => any k && c k) 1 item (Is kinds) :=
      hitem.mono hn (fun _ h => h) (Nat.le_refl _) fun _ h => h
    refine .ifToken (.bindFrom hitem' fun a ha => .append hl ha fun list hl => ?_) (.pure hl)
    exact whileLoop_spec hitem (by omega) (by omega) hl

theorem commaList_spec {item : Parser Ast} {fuel : Nat}
    (hitem : Spec memory n any 1 item (Is kinds)) (hfuel : n ≤ fuel + 1) :
    Spec memory n p 1 (commaList item fuel) (ListOf kinds) := by
  refine .newAstList fun list hl => .bind hitem fun a ha => .append hl ha fun list hl => ?_
  exact .bind (commaLoop_spec hitem (Nat.le_refl _) hfuel hl) fun list hl => .pure hl.listOf

theorem whileList_spec {item : Parser Ast} {fuel : Nat}
    (hitem : Spec memory n c 1 item (Is kinds)) (hfuel : n ≤ fuel + 1)
    (hp : ∀ k, p k = true → c k = true) :
    Spec memory n p 1 (whileList c item fuel) (ListOf kinds) := by
  have hfirst : Spec memory n p 1 item (Is kinds) :=
    hitem.mono (Nat.le_refl _) hp (Nat.le_refl _) fun _ h => h
  refine .newAstList fun list hl => .bindFrom hfirst fun a ha => .append hl ha fun list hl => ?_
  have hloop : Spec memory (n - 2 * 1) any 0 (whileLoop c item fuel list) (Growing kinds) :=
    whileLoop_spec hitem (by omega) (by omega) hl
  exact .bind hloop fun list hl => .pure hl.listOf

/-- A list where there may be none. -/
theorem optList_spec {list : Parser (Option AstList)}
    (hlist : Spec memory n (fun k => p k && c k) 1 list (ListOf kinds)) :
    Spec memory n p 0 (ifToken c list (pure none)) (ListOf kinds) :=
  .ifToken (hlist.mono (Nat.le_refl _) (fun _ h => h) (Nat.zero_le _) fun _ h => h) (.pure .none)

end Dp4c.Parse
