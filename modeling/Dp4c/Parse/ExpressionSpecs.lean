import Dp4c.Parse.TypeSpecs

/-! # Contracts of the functions for expressions -/
namespace Dp4c.Parse

open Dp4c.Lib Dp4c.Lib.Prog

variable {memory : Memory} {n lo threshold : Nat} {fwd : Forward} {a : Ast}
  {p : TokenClass → Bool}

section

variable (h : fwd.Fits memory n)
include h

/-! ## Arguments and indices -/

theorem buildArgument_spec : Spec memory (n + 1) any 1 (buildArgument fwd) (Is isArgKind) := by
  refine .require (.ifToken ?_ (.ifToken ?_ (.ifToken ?_ (.never (by decide)))))
  · exact ((h.expression 1).imp fun a ha => ha.mono (by decide)).at
  · refine .node fun a ha => .bind buildName_spec fun name hn =>
      .set ha (.ast rfl hn) fun a ha => ?_
    refine .expect (by decide) (.require (.bind (h.expression 1) fun e he => ?_))
    exact .setLast ha (.ast rfl he) fun a ha => ha.finish rfl rfl
  · exact .node fun a ha => .next rfl (.pure (ha.finish rfl rfl))

theorem buildArgumentList_spec :
    Spec memory (n + 1) any 0 (buildArgumentList fwd) (ListOf isArgKind) :=
  optList_spec (commaList_spec (buildArgument_spec h) (Nat.succ_le_succ h.fuel))

theorem buildArrayIndex_spec :
    Spec memory (n + 1) any 1 (buildArrayIndex fwd) (Is (isKind .arrayIndex)) := by
  refine .node fun a ha => .require (.bind (h.expression 1) fun e he => .set ha (.ast rfl he) ?_)
  refine fun a ha => .ifToken (.next rfl (.require ?_)) (.pure (ha.finish rfl rfl))
  refine .bind (h.expression 1) fun e he => ?_
  exact .setLast ha (.ast rfl he) fun a ha => ha.finish rfl rfl

theorem buildExpressionList_spec :
    Spec memory (n + 1) any 0 (buildExpressionList fwd) (ListOf isExprKind) :=
  optList_spec (commaList_spec (h.expression 1) (Nat.succ_le_succ h.fuel))

theorem buildRealTypeArg_spec :
    Spec memory (n + 1) any 1 (buildRealTypeArg fwd) (Is isTypeArgKind) := by
  refine .ifToken (.next rfl (.nodeLast fun a ha => ha.finish rfl rfl)) (.ifToken ?_ .error)
  exact ((typeRef_spec h).imp fun a ha => ha.mono (by decide)).at

theorem buildRealTypeArgumentList_spec :
    Spec memory (n + 1) any 0 (buildRealTypeArgumentList fwd) (ListOf isTypeArgKind) :=
  optList_spec (commaList_spec (buildRealTypeArg_spec h) (Nat.succ_le_succ h.fuel))

/-! ## Primaries -/

theorem buildDottedName_spec :
    Spec memory (n + 2) (is .dotPrefix) 1 (buildDottedName fwd) (Is isExprKind) := by
  refine .next rfl (.ifToken (.bind buildNonTypeName_spec fun a ha => ?_) (.ifToken ?_ .unexpected))
  · refine (Spec.setMore ha rfl fun k hk => ?_).imp fun a ha => ha.mono (by decide)
    rw [isKind, beq_iff_eq] at hk
    exact hk ▸ .plain rfl trivial rfl
  · refine .bind (buildTypeName_spec h) fun a ha => ?_
    refine (Spec.setMore ha rfl fun k hk => ?_).imp fun a ha => ha.mono (by decide)
    have hkinds : ∀ k, isTypeNameKind k = true → k = .name ∨ k = .specdType ∨ k = .headerStack := by
      decide
    obtain rfl | rfl | rfl := hkinds k hk <;> exact .plain rfl trivial rfl

theorem buildBracedList_spec :
    Spec memory (n + 2) (is .braceOpen) 1 (buildBracedList fwd) (Is isExprKind) := by
  refine .nextEnter rfl (.node fun a ha => .bind (buildExpressionList_spec h) fun exprs he => ?_)
  exact .set ha (.list rfl he) fun a ha => .expect (by decide) (.pure (ha.finish rfl rfl))

theorem buildParenthesized_spec :
    Spec memory (n + 2) (is .parenthOpen) 1 (buildParenthesized fwd) (Is isExprKind) := by
  refine .nextEnter rfl (.ifToken (.node fun a ha => ?_) (.ifToken ?_ .error))
  · refine .bind (typeRef_spec h) fun type ht => .set ha (.ast rfl ht) fun a ha => ?_
    refine .expect (by decide) (.bind (h.expression 1) fun e he => ?_)
    exact .setLast ha (.ast rfl he) fun a ha => ha.finish rfl rfl
  · exact .bind (h.expression 1) fun e he => .expect (by decide) (.pure he)

theorem buildUnary_spec {op : AstExprOperator} (hp : p .endOfInput = false) :
    Spec memory (n + 2) p 1 (buildUnary fwd op) (Is isExprKind) := by
  refine .nextEnter hp (.node fun a ha => .set ha (.plain rfl trivial rfl) fun a ha => ?_)
  refine .bind (h.expression 1) fun e he => ?_
  exact .setLast ha (.ast rfl he) fun a ha => ha.finish rfl rfl

omit h in
theorem buildErrorName_spec (hp : p .endOfInput = false) :
    Spec memory n p 1 buildErrorName (Is isExprKind) := by
  refine .note (by decide) (fun k _ => ⟨by simp, by simp, by simp⟩) ?_
  refine .next hp (.node fun a ha => .reads fun token => ?_)
  exact .setLast ha (.plain rfl trivial rfl) fun a ha => ha.finish rfl rfl

theorem buildExpressionPrimary_spec :
    Spec memory (n + 2) any 1 (buildExpressionPrimary fwd) (Is isExprKind) := by
  refine .require (.ifToken (buildInteger_spec.widen (by decide) (by decide)) ?_)
  refine .ifToken (buildBoolean_spec.widen (by decide) (by decide)) ?_
  refine .ifToken (buildBoolean_spec.widen (by decide) (by decide)) ?_
  refine .ifToken (buildStringLiteral_spec.widen (by decide) (by decide)) ?_
  refine .ifToken ((buildDottedName_spec h).widen (by decide) (by decide)) ?_
  refine .ifToken (buildNonTypeName_spec.widen (by decide) (by decide)) ?_
  refine .ifToken ((buildBracedList_spec h).widen (by decide) (by decide)) ?_
  refine .ifToken ((buildParenthesized_spec h).widen (by decide) (by decide)) ?_
  refine .ifToken (buildUnary_spec h rfl) (.ifToken (buildUnary_spec h rfl) ?_)
  refine .ifToken (buildUnary_spec h rfl) ?_
  refine .ifToken ((buildTypeName_spec h).widen (by decide) (by decide)) ?_
  exact .ifToken (buildErrorName_spec rfl) (.never (by decide))

/-! ## Operators -/

variable (ha : Is isExprKind a)
include ha

omit h in
theorem buildMemberSelect_spec (hp : p .endOfInput = false) :
    Spec memory n p 1 (buildMemberSelect a) (Is isExprKind) := by
  refine .next hp (.node fun b hb => .set hb (.ast rfl ha) fun b hb => .require ?_)
  refine .bind buildName_spec fun name hn => ?_
  exact .setLast hb (.ast rfl hn) fun b hb => hb.finish rfl rfl

theorem buildIndexedArray_spec (hp : p .endOfInput = false) :
    Spec memory (n + 1) p 1 (buildIndexedArray fwd a) (Is isExprKind) := by
  refine .next hp (.node fun b hb => .set hb (.ast rfl ha) fun b hb => ?_)
  refine .bind (buildArrayIndex_spec h) fun index hi => .set hb (.ast rfl hi) fun b hb => ?_
  exact .expect (by decide) (.pure (hb.finish rfl rfl))

theorem buildFunctionCall_spec (hp : p .endOfInput = false) :
    Spec memory (n + 1) p 1 (buildFunctionCall fwd a) (Is isExprKind) := by
  refine .next hp (.node fun b hb => .set hb (.ast rfl ha) fun b hb => ?_)
  refine .bind (buildArgumentList_spec h) fun args hargs => .set hb (.list rfl hargs) fun b hb => ?_
  exact .expect (by decide) (.pure (hb.finish rfl rfl))

theorem buildTypeArgs_spec (hp : p .endOfInput = false) :
    Spec memory (n + 1) p 1 (buildTypeArgs fwd a) (Is isExprKind) := by
  refine .next hp (.node fun b hb => .set hb (.ast rfl ha) fun b hb => ?_)
  refine .bind (buildRealTypeArgumentList_spec h) fun args hargs => ?_
  refine .set hb (.list rfl hargs) fun b hb => ?_
  exact .expect (by decide) (.pure (hb.finish rfl rfl))

theorem buildKvPair_spec (hp : p .endOfInput = false) :
    Spec memory (n + 1) p 1 (buildKvPair fwd a) (Is isExprKind) := by
  refine .next hp (.node fun b hb => .set hb (.ast rfl ha) fun b hb => ?_)
  refine .bind (h.expression 1) fun e he => ?_
  exact .setLast hb (.ast rfl he) fun b hb => hb.finish rfl rfl

theorem buildBinary_spec {priority : Nat} (hp : p .endOfInput = false) :
    Spec memory (n + 1) p 1 (buildBinary fwd a priority) (Is isExprKind) := by
  refine .node fun b hb => .set hb (.ast rfl ha) fun b hb => .reads fun token => ?_
  refine .set hb (.plain rfl trivial rfl) fun b hb => .next hp ?_
  refine .bind (h.expression _) fun e he => ?_
  exact .setLast hb (.ast rfl he) fun b hb => hb.finish rfl rfl

omit h ha in
theorem atPriority_spec {P : Ast → Prop} {x : Nat → Parser Ast} {y : Parser Ast}
    (hp : ∀ k, p k = true → (getOperatorPriority k).isSome = true)
    (hx : ∀ priority, Spec memory n p lo (x priority) P) (hy : Spec memory n p lo y P) :
    Spec memory n p lo (atPriority threshold x y) P := fun s hs hk hl => by
  obtain ⟨priority, hpriority⟩ := Option.isSome_iff_exists.mp (hp _ hk)
  by_cases hge : priority ≥ threshold
  · refine (wp_congr ?_).mpr (hx priority s hs hk hl)
    simp only [atPriority, hpriority, if_pos hge]
  · refine (wp_congr ?_).mpr (hy s hs hk hl)
    simp only [atPriority, hpriority, if_neg hge]

omit ha in
theorem operatorLoop_spec : ∀ {fuel k : Nat} {a : Ast}, Is isExprKind a → k ≤ n + 1 → k ≤ fuel + 1 →
    Spec memory k any 0 (operatorLoop fwd threshold fuel a) (Is isExprKind)
  | 0, _, _, _, _, hk => .exhausted hk
  | fuel + 1, k, a, ha, hn, hk => by
    -- one more operator, which takes a token
    have hgoOn : ∀ {p : TokenClass → Bool} {x : Parser Ast},
        Spec memory (n + 1) p 1 x (Is isExprKind) →
        Spec memory k p 0 (do operatorLoop fwd threshold fuel (← x)) (Is isExprKind) := fun hx =>
      .bindFrom (hx.fewer hn) fun b hb => operatorLoop_spec hb (by omega) (by omega)
    have hbinary : ∀ {p : TokenClass → Bool}, (∀ k, p k = true → tokenIsBinaryOperator k = true) →
        p .endOfInput = false → Spec memory k p 0
          (ifToken (is .equal) (do operatorLoop fwd threshold fuel (← buildKvPair fwd a)) <|
            ifToken tokenIsBinaryOperator
              (atPriority threshold
                (fun priority => do operatorLoop fwd threshold fuel (← buildBinary fwd a priority))
                (pure a))
              assertFalse) (Is isExprKind) := by
      intro p hbin hp
      refine .ifToken (hgoOn (buildKvPair_spec h ha (by simp [hp]))) (.ifToken ?_ (.never ?_))
      · refine atPriority_spec (fun k hk => ?_)
          (fun _ => hgoOn (buildBinary_spec h ha (by simp [hp])))
          (.pure ha)
        have hpriority : ∀ k, tokenIsBinaryOperator k = true → is .equal k = false →
            (getOperatorPriority k).isSome = true := by decide
        simp only [Bool.and_eq_true, Bool.not_eq_true'] at hk
        exact hpriority k hk.2 hk.1.2
      · intro k
        cases hk : p k
        · rfl
        · simp [hbin k hk]
    unfold operatorLoop
    refine .ifToken (.ifToken (hgoOn (buildMemberSelect_spec ha rfl)) ?_) (.pure ha)
    refine .ifToken (hgoOn (buildIndexedArray_spec h ha rfl)) ?_
    refine .ifToken (hgoOn (buildFunctionCall_spec h ha rfl)) ?_
    refine .ifToken (.ifPeek rfl (hgoOn (buildTypeArgs_spec h ha rfl)) (hbinary (by decide) rfl)) ?_
    exact hbinary (by decide) rfl

omit ha in
theorem buildExpression_spec :
    Spec memory (n + 2) any 1 (buildExpression fwd threshold) (Is isExprKind) := by
  refine .require (.bindFrom (buildExpressionPrimary_spec h).at fun a ha => ?_)
  exact operatorLoop_spec h ha (by omega) (by have := h.fuel; omega)

end

end Dp4c.Parse
