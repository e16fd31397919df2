import Dp4c.Parse.StatementSpecs

/-! # Contracts of the functions for declarations and the program -/
namespace Dp4c.Parse

open Dp4c.Lib Dp4c.Lib.Prog

variable {α : Type} {memory : Memory} {n lo : Nat} {fwd : Forward} {a : Ast} {s : State}
  {p : TokenClass → Bool} {kinds : AstKind → Bool} {P : α → Prop}

/-! ## Lists in memory that was not cleared -/

/-- `ast_list_init` makes an empty list; in memory that does not look cleared, the run ends
there or when the first link is appended. -/
inductive Inits (bytes : Nat → UInt8) (init : Parser AstList) : Prop
  | cleared (list : AstList) : ¬ Refuses bytes → list.links = [] → list.sentinelNext = 0 →
    init = pure list → Inits bytes init
  | refused (expr : String) : expr ∈ ["list->head == 0", "list->tail == 0"] → ¬ Cleared bytes →
    init = stop (.assertion expr) → Inits bytes init
  | unlinked (list : AstList) : ¬ Refuses bytes → ¬ Cleared bytes → init = pure list →
    (∀ a, astListAppendLink list a = stop (.assertion "list->tail->next == 0")) → Inits bytes init

theorem astListInit_inits (bytes : Nat → UInt8) : Inits bytes (astListInit (memset 8 bytes)) := by
  have hclear : Cleared bytes ↔ word (memset 8 bytes) 24 8 = 0 ∧ word (memset 8 bytes) 32 8 = 0 ∧
      word (memset 8 bytes) 8 8 = 0 := Iff.rfl
  have hrefuses : Refuses bytes ↔ word (memset 8 bytes) 24 8 ≠ 0 ∨ word (memset 8 bytes) 32 8 ≠ 0 :=
    Iff.rfl
  unfold astListInit
  generalize word (memset 8 bytes) 24 8 = head at hclear hrefuses ⊢
  generalize word (memset 8 bytes) 32 8 = tail at hclear hrefuses ⊢
  generalize word (memset 8 bytes) 8 8 = next at hclear ⊢
  by_cases hhead : head = 0
  · rw [if_pos hhead]
    by_cases htail : tail = 0
    · have haccepts : ¬ Refuses bytes := fun h =>
        (hrefuses.mp h).elim (fun h => h hhead) fun h => h htail
      rw [if_pos htail]
      by_cases hnext : next = 0
      · exact .cleared _ haccepts rfl hnext rfl
      · refine .unlinked _ haccepts (fun h => hnext (hclear.mp h).2.2) rfl fun a => ?_
        exact if_pos ⟨rfl, hnext⟩
    · rw [if_neg htail]
      exact .refused _ (by simp) (fun h => htail (hclear.mp h).2.1) rfl
  · rw [if_neg hhead]
    exact .refused _ (by simp) (fun h => hhead (hclear.mp h).1) rfl

theorem newTupleList_apply (memory : Memory) (s : State) :
    newTupleList memory s = astListInit (memset 8 (memory s.tokenAt))
      { s with trace := ⟨.tupleKeyset, s.tokenAt, s.token.klass⟩ :: s.trace } := rfl

theorem Inv.ended_refused (hs : Inv memory s) {expr : String}
    (hexpr : expr ∈ ["list->head == 0", "list->tail == 0"])
      (hclear : ¬ Cleared (memory s.tokenAt)) :
    Ended memory ⟨.assertion expr,
      { s with trace := ⟨.tupleKeyset, s.tokenAt, s.token.klass⟩ :: s.trace }⟩ := by
  refine ⟨hs.inBounds, ?_, .list expr rfl ?_ ?_ ?_ ⟨_, List.mem_cons_self, rfl, hclear⟩⟩
  · exact List.forall_mem_cons.mpr ⟨s.within hs.inBounds (by simp), hs.within⟩
  · exact List.mem_append_left ["list->tail->next == 0"] hexpr
  · exact List.forall_mem_cons.mpr ⟨(fun h => nomatch h.1), hs.orderly.moving⟩
  · exact List.forall_mem_cons.mpr ⟨(fun h => nomatch h.1), hs.orderly.listed⟩

/-- The list of a tuple keyset with its first link. -/
theorem Spec.tupleList {item : Parser Ast} {f : AstList → Parser α}
    (hitem : Spec memory n any 1 item (Is kinds))
    (hf : ∀ list, Growing kinds list → Spec memory n any lo (f list) P) :
    Spec memory n p lo
      (do
        let list ← newTupleList memory
        f (← astListAppendLink list (← item))) P := fun s hs hk hl => by
  have hlist := newTupleList_apply memory s
  have hnote (h : ¬ Refuses (memory s.tokenAt)) := hs.note .tupleKeyset (by simp) (by simp)
    (by simp) fun hrefused => h hrefused.2
  have hlater : Later 0 s { s with trace := ⟨.tupleKeyset, s.tokenAt, s.token.klass⟩ :: s.trace } :=
    ⟨rfl, id, Nat.le_refl _, List.suffix_cons _ _⟩
  have htrace : ∀ {t : State}, Later 0 { s with trace :=
      ⟨.tupleKeyset, s.tokenAt, s.token.klass⟩ :: s.trace } t → ¬ Cleared (memory s.tokenAt) →
      ∃ step ∈ t.trace, step.Dirty memory := fun ht hclear =>
    ⟨⟨.tupleKeyset, s.tokenAt, s.token.klass⟩, ht.trace.subset List.mem_cons_self, rfl, hclear⟩
  have hleft : 2 * ({ s with trace :=
      ⟨.tupleKeyset, s.tokenAt, s.token.klass⟩ :: s.trace } : State).left < n := hl
  have hended := fun (expr : String)
      (hexpr : expr ∈ ["list->head == 0", "list->tail == 0"]) hclear =>
    hs.ended_refused hexpr hclear
  rw [wp_bind, wp_congr hlist]
  generalize ({ s with trace := ⟨.tupleKeyset, s.tokenAt, s.token.klass⟩ :: s.trace } : State) = s'
    at hnote hlater htrace hleft hended
  cases astListInit_inits (memory s.tokenAt) with
  | cleared list haccepts hlinks hnext hinit =>
    have hgrow : Growing kinds list := ⟨fun _ => hnext, by rw [hlinks]; exact fun _ h => nomatch h⟩
    rw [hinit, wp_pure]
    have hrest : Spec memory n any lo (do f (← astListAppendLink list (← item))) P :=
      .bind hitem fun a ha => .append hgrow ha fun list hl =>
        (hf list hl).mono (Nat.le_refl _) (fun _ h => h) (Nat.sub_le _ _) fun _ h => h
    refine wp_mono (hrest s' (hnote haccepts) rfl hleft) (fun a t ht => ?_) fun e he => ?_
    · exact ⟨ht.1, (hlater.trans ht.2.1).weaken (by omega), ht.2.2⟩
    · exact ⟨he.1, hlater.andEnds he.2⟩
  | refused expr hexpr hclear hinit =>
    rw [hinit]
    exact ⟨hended expr hexpr hclear, hlater⟩
  | unlinked list haccepts hclear hinit happend =>
    rw [hinit, wp_pure, wp_bind]
    refine wp_mono (hitem s' (hnote haccepts) rfl hleft) (fun a t ⟨ht, hst, _⟩ => ?_) fun e he => ?_
    · have hst := hst.weaken (Nat.zero_le _)
      rw [happend]
      refine ⟨⟨ht.inBounds, ht.within, ?_⟩, hlater.andEnds hst⟩
      exact .list _ rfl (by simp) ht.orderly.moving ht.orderly.listed (htrace hst hclear)
    · exact ⟨he.1, hlater.andEnds he.2⟩

section

variable (h : fwd.Fits memory n)
include h

/-! ## Parsers -/

theorem buildSimpleKeysetExpression_spec :
    Spec memory (n + 1) any 1 (buildSimpleKeysetExpression fwd) (Is isSimpleKeysetKind) := by
  refine .ifToken ((h.expression 1).imp fun a ha => ha.mono (by decide)).at (.ifToken ?_ ?_)
  · exact .next rfl (.nodeLast fun a ha => ha.finish rfl rfl)
  · exact .ifToken (.next rfl (.nodeLast fun a ha => ha.finish rfl rfl)) .error

theorem buildTupleKeysetExpression_spec :
    Spec memory (n + 1) any 1 (buildTupleKeysetExpression fwd memory)
        (Is (isKind .tupleKeyset)) := by
  refine .require (.node fun a ha => .next rfl ?_)
  refine .tupleList (buildSimpleKeysetExpression_spec h) ?_
  intro list hl
  refine .bind (commaLoop_spec (buildSimpleKeysetExpression_spec h) (Nat.le_refl _)
    (Nat.succ_le_succ h.fuel) hl) fun list hl => ?_
  exact .set ha (.list rfl hl.listOf) fun a ha => .expect (by decide) (.pure (ha.finish rfl rfl))

theorem buildKeysetExpression_spec :
    Spec memory (n + 1) any 1 (buildKeysetExpression fwd memory) (Is isKeysetKind) := by
  refine .ifToken ((buildTupleKeysetExpression_spec h).imp fun a ha => ha.mono (by decide)).at ?_
  exact .ifToken ((buildSimpleKeysetExpression_spec h).imp fun a ha =>
    ha.mono (by decide)).at .error

theorem buildSelectCase_spec :
    Spec memory (n + 1) any 1 (buildSelectCase fwd memory) (Is (isKind .selectCase)) := by
  refine .require (.node fun a ha => .bind (buildKeysetExpression_spec h) fun keyset hk => ?_)
  refine .set ha (.ast rfl hk) fun a ha => .expect (by decide) (.require (.bind buildName_spec ?_))
  refine fun name hn => .set ha (.ast rfl hn) fun a ha => ?_
  exact .expect (by decide) (.pure (ha.finish rfl rfl))

theorem buildSelectCaseList_spec :
    Spec memory (n + 1) any 0 (buildSelectCaseList fwd memory) (ListOf (isKind .selectCase)) :=
  optList_spec (whileList_spec (buildSelectCase_spec h).at (Nat.succ_le_succ h.fuel) (by decide))

theorem buildSelectExpression_spec :
    Spec memory (n + 1) any 1 (buildSelectExpression fwd memory) (Is (isKind .selectExpr)) := by
  refine .expect (by decide) (.node fun a ha => .expect (by decide) ?_)
  refine .bind (buildExpressionList_spec h) fun exprs he => .set ha (.list rfl he) fun a ha => ?_
  refine .expect (by decide) (.expect (by decide) (.bind (buildSelectCaseList_spec h) ?_))
  refine fun cases hc => .set ha (.list rfl hc) fun a ha => ?_
  exact .expect (by decide) (.pure (ha.finish rfl rfl))

theorem buildTransitionStatement_spec :
    Spec memory (n + 1) any 1 (buildTransitionStatement fwd memory) (Is isTransKind) := by
  refine .expect (by decide) (.ifToken (.bind buildName_spec fun name hn => ?_)
    (.ifToken ?_ .error))
  · exact .expect (by decide) (.pure (hn.mono (by decide)))
  · exact ((buildSelectExpression_spec h).imp fun a ha => ha.mono (by decide)).rest

theorem buildParserState_spec :
    Spec memory (n + 1) any 1 (buildParserState fwd memory) (Is (isKind .parserState)) := by
  refine .expect (by decide) (.node fun a ha => .bind buildName_spec fun name hn => ?_)
  refine .set ha (.ast rfl hn) fun a ha =>
    .expect (by decide) (.bind (buildParserStatements_spec h) ?_)
  refine fun stmts hs => .set ha (.list rfl hs) fun a ha =>
    .bind (buildTransitionStatement_spec h) ?_
  refine fun trans ht => .set ha (.ast rfl ht) fun a ha => ?_
  exact .expect (by decide) (.pure (ha.finish rfl rfl))

theorem buildParserStates_spec :
    Spec memory (n + 1) any 1 (buildParserStates fwd memory) (ListOf (isKind .parserState)) :=
  .require (whileList_spec (buildParserState_spec h).at (Nat.succ_le_succ h.fuel) (by decide))

theorem buildParserLocalElement_spec :
    Spec memory (n + 1) any 1 (buildParserLocalElement fwd) (Is isLocalElementKind) := by
  have hconst := (buildConstantDeclaration_spec h).fewer (Nat.le_succ (n + 1))
  refine .require (.ifToken (hconst.widen (by decide) (by decide))
    (.ifToken ?_ (.never (by decide))))
  refine .bind (typeRef_spec h) fun type ht => ?_
  exact buildAfterType_spec h ht (fun _ hk => hk) .unexpected

theorem buildParserLocalElements_spec :
    Spec memory (n + 1) any 0 (buildParserLocalElements fwd) (ListOf isLocalElementKind) :=
  optList_spec (whileList_spec (buildParserLocalElement_spec h).at
    (Nat.succ_le_succ h.fuel) (by decide))

theorem buildSignatureType_spec {klass : TokenClass} {kind : AstKind} {text : String}
    (hk : kind = .parserType ∨ kind = .controlType ∨ kind = .package)
      (hklass : klass ≠ .endOfInput) :
    Spec memory (n + 1) any 1 (buildSignatureType fwd klass kind text) (Is (isKind kind)) := by
  have hname : (schema kind).lookup .name = some nameSlot := by
    rcases hk with rfl | rfl | rfl <;> rfl
  have htypes : (schema kind).lookup .typeParams = some namesSlot := by
    rcases hk with rfl | rfl | rfl <;> rfl
  have hparams : (schema kind).lookup .params = some paramsSlot := by
    rcases hk with rfl | rfl | rfl <;> rfl
  refine .expect hklass (.node fun a ha => ?_)
  refine ((setSignature_spec h ha hname htypes hparams).imp fun a ha => ?_).rest
  rcases hk with rfl | rfl | rfl <;> exact ha.finish rfl rfl

theorem buildParserDeclaration_spec :
    Spec memory (n + 1) any 1 (buildParserDeclaration fwd memory) (Is (isKind .parser)) := by
  refine .require (.node fun a ha => .bind (buildSignatureType_spec h (.inl rfl) (by decide)) ?_)
  refine fun type ht => .set ha (.ast rfl ht) fun a ha => ?_
  refine .ifToken (.next rfl (.pure (ha.finish rfl rfl))) ?_
  refine (Spec.bind (buildOptConstructorParameters_spec h) fun params hp => ?_).at
  refine .set ha (.list rfl hp) fun a ha => .expect (by decide) ?_
  refine .bind (buildParserLocalElements_spec h) fun elems he =>
    .set ha (.list rfl he) fun a ha => ?_
  refine .bind (buildParserStates_spec h) fun states hs => .set ha (.list rfl hs) fun a ha => ?_
  exact .expect (by decide) (.pure (ha.finish rfl rfl))

/-! ## Controls, actions and tables -/

theorem buildActionDeclaration_spec :
    Spec memory (n + 1) any 1 (buildActionDeclaration fwd) (Is (isKind .actionDecl)) := by
  refine .expect (by decide) (.node fun a ha => .require (.bind buildName_spec fun name hn => ?_))
  refine .set ha (.ast rfl hn) fun a ha =>
    .expect (by decide) (.bind (buildParameterList_spec h) ?_)
  refine fun params hp => .set ha (.list rfl hp) fun a ha => .expect (by decide) (.require ?_)
  refine .bindFrom h.blockStatement.at fun stmt hs => ?_
  exact .setLast ha (.ast rfl hs) fun a ha => ha.finish rfl rfl

theorem buildKeyElement_spec :
    Spec memory (n + 1) any 1 (buildKeyElement fwd) (Is (isKind .keyElement)) := by
  refine .require (.node fun a ha => .bind (h.expression 1) fun e he => .set ha (.ast rfl he) ?_)
  refine fun a ha => .expect (by decide) (.bind buildName_spec fun name hn => ?_)
  exact .set ha (.ast rfl hn) fun a ha => .expect (by decide) (.pure (ha.finish rfl rfl))

theorem buildKeyElementList_spec :
    Spec memory (n + 1) any 0 (buildKeyElementList fwd) (ListOf (isKind .keyElement)) :=
  optList_spec (whileList_spec (buildKeyElement_spec h).at (Nat.succ_le_succ h.fuel) (by decide))

theorem buildActionRef_spec :
    Spec memory (n + 1) any 1 (buildActionRef fwd) (Is (isKind .actionRef)) := by
  refine .require (.node fun a ha => .bind buildPrefixedNonTypeName_spec fun name hn => ?_)
  refine .set ha (.ast rfl hn) fun a ha => .ifToken (.next rfl ?_) (.pure (ha.finish rfl rfl))
  refine .bind (buildArgumentList_spec h) fun args hargs => .set ha (.list rfl hargs) fun a ha => ?_
  exact .expect (by decide) (.pure (ha.finish rfl rfl))

theorem buildActionItem_spec :
    Spec memory (n + 1) any 1 (buildActionItem fwd) (Is (isKind .actionRef)) :=
  .bind (buildActionRef_spec h) fun _ ha => .expect (by decide) (.pure ha)

theorem buildActionList_spec :
    Spec memory (n + 1) any 0 (buildActionList fwd) (ListOf (isKind .actionRef)) :=
  optList_spec (whileList_spec (buildActionItem_spec h).at (Nat.succ_le_succ h.fuel) (by decide))

theorem buildEntry_spec :
    Spec memory (n + 1) any 1 (buildEntry fwd memory) (Is (isKind .tableEntry)) := by
  refine .require (.node fun a ha => .bind (buildKeysetExpression_spec h) fun keyset hk => ?_)
  refine .set ha (.ast rfl hk) fun a ha => .expect (by decide) (.bind (buildActionRef_spec h) ?_)
  refine fun ref hr => .set ha (.ast rfl hr) fun a ha => ?_
  exact .expect (by decide) (.pure (ha.finish rfl rfl))

theorem buildEntriesList_spec :
    Spec memory (n + 1) any 1 (buildEntriesList fwd memory) (ListOf (isKind .tableEntry)) :=
  .require (whileList_spec (buildEntry_spec h).at (Nat.succ_le_succ h.fuel) (by decide))

omit h in
theorem buildBracedProperty_spec {kind : AstKind} {names : List AttrName} {attr : AttrName}
    {list : Parser (Option AstList)} (ha : Part kind names a)
    (hslot : (schema kind).lookup attr = some (.list kinds))
    (hlist : Spec memory n any 0 list (ListOf kinds)) (hk : isPropKind kind = true)
    (hrequired : required kind = []) :
    Spec memory n any 0 (buildBracedProperty a attr list) (Is isPropKind) := by
  refine .expect (by decide) (.expect (by decide) (.bind hlist fun items hi => ?_))
  refine .set ha (.list hslot hi) fun a ha => .expect (by decide) (.pure (ha.finish ?_ hk))
  rw [hrequired]
  rfl

omit h in
/-- A property that no branch is for ends in the assertion. -/
theorem buildPropertyKind_unlisted {isConst : Bool} (hs : Inv memory s)
    (hk : isPropertyKind s.token.klass = false) :
    wp (buildPropertyKind fwd memory isConst) s (fun _ _ => False)
      fun e => Ended memory e ∧ Later 0 s e.state := by
  let step : Step := ⟨.tableProperty, s.tokenAt, s.token.klass⟩
  let s' : State := { s with trace := step :: s.trace }
  obtain ⟨hkey, hactions, hentries, hname⟩ : is .key s'.token.klass = false ∧
      is .actions s'.token.klass = false ∧ is .entries s'.token.klass = false ∧
      tokenIsNonTableKwName s'.token.klass = false := by
    have hall : ∀ k, isPropertyKind k = false → is .key k = false ∧ is .actions k = false ∧
        is .entries k = false ∧ tokenIsNonTableKwName k = false := by decide
    exact hall _ hk
  have hrun : buildPropertyKind fwd memory isConst s = .error ⟨.assertion "0", s'⟩ := by
    unfold buildPropertyKind
    rw [bind_of_ok (rfl : note .tableProperty s = .ok ((), s')), ifToken_neg hkey,
      ifToken_neg hactions, ifToken_neg hentries, ifToken_neg hname]
    rfl
  refine wp_of_error hrun ⟨⟨hs.inBounds, ?_, .assertFalse rfl ?_ ?_ ?_⟩,
    ⟨rfl, id, Nat.le_refl _, List.suffix_cons _ _⟩⟩
  · refine List.forall_mem_cons.mpr ⟨s.within hs.inBounds fun hcall => ?_, hs.within⟩
    rcases hcall with hcall | hcall <;> cases hcall
  · exact List.forall_mem_cons.mpr ⟨(fun hcall => nomatch hcall.1), hs.orderly.moving⟩
  · exact ⟨step, List.mem_cons_self, rfl, hk⟩
  · exact List.forall_mem_cons.mpr ⟨(fun hcall => nomatch hcall.1), hs.orderly.accepted⟩

theorem buildPropertyKind_spec {isConst : Bool} :
    Spec memory (n + 1) any 1 (buildPropertyKind fwd memory isConst) (Is isPropKind) := by
  refine .split isPropertyKind (.note (by decide) (fun k hk => ⟨by simp, by simp, ?_⟩) ?_) ?_
  · rintro ⟨-, hnot⟩
    simp only [hnot, Bool.and_false] at hk
    cases hk
  · refine .ifToken (.next rfl (.node fun a ha => ?_))
      (.ifToken (.next rfl (.node fun a ha => ?_)) ?_)
    · exact buildBracedProperty_spec ha rfl (buildKeyElementList_spec h) rfl rfl
    · exact buildBracedProperty_spec ha rfl (buildActionList_spec h) rfl rfl
    refine .ifToken (.next rfl (.node fun a ha =>
      .set ha (.plain rfl trivial rfl) fun a ha => ?_)) ?_
    · exact buildBracedProperty_spec ha rfl (buildEntriesList_spec h).rest rfl rfl
    refine .ifToken (.node fun a ha => .bind buildName_spec fun name hn => ?_) (.never (by decide))
    refine .set ha (.ast rfl hn) fun a ha => .expect (by decide) ?_
    refine .bind (buildInitializer_spec h) fun e he => .set ha (.ast rfl he) fun a ha => ?_
    exact .expect (by decide) (.pure (ha.finish rfl rfl))
  · intro s hs hk hl
    simp only [Bool.and_eq_true, Bool.not_eq_true'] at hk
    exact wp_mono (buildPropertyKind_unlisted hs hk.2) (fun _ _ h => h.elim) fun _ he => he

theorem buildTableProperty_spec :
    Spec memory (n + 1) any 1 (buildTableProperty fwd memory) (Is isPropKind) := by
  have hconst : Spec memory (n + 1) any 0 buildOptConst fun _ => True :=
    .ifToken (.next rfl (.pure trivial)) (.pure trivial)
  exact .require (.bind hconst fun isConst _ => buildPropertyKind_spec h)

theorem buildTablePropertyList_spec :
    Spec memory (n + 1) any 1 (buildTablePropertyList fwd memory) (ListOf isPropKind) :=
  .require (whileList_spec (buildTableProperty_spec h).at (Nat.succ_le_succ h.fuel) (by decide))

theorem buildTableDeclaration_spec :
    Spec memory (n + 1) any 1 (buildTableDeclaration fwd memory) (Is (isKind .tableDecl)) := by
  refine .expect (by decide) (.node fun a ha => .bind buildName_spec fun name hn => ?_)
  refine .set ha (.ast rfl hn) fun a ha =>
    .expect (by decide) (.bind (buildTablePropertyList_spec h) ?_)
  refine fun props hp => .set ha (.list rfl hp) fun a ha => ?_
  exact .expect (by decide) (.pure (ha.finish rfl rfl))

theorem buildControlLocalDeclaration_spec :
    Spec memory (n + 1) any 1 (buildControlLocalDeclaration fwd memory)
        (Is isControlLocalKind) := by
  have hconst := (buildConstantDeclaration_spec h).fewer (Nat.le_succ (n + 1))
  refine .ifToken (hconst.widen (by decide) (by decide)) ?_
  refine .ifToken ((buildActionDeclaration_spec h).widen (by decide) (by decide)) ?_
  refine .ifToken ((buildTableDeclaration_spec h).widen (by decide) (by decide))
    (.ifToken ?_ .error)
  refine .bind (typeRef_spec h) fun type ht => buildAfterType_spec h ht (by decide) .unexpected

theorem buildControlLocalDeclarations_spec :
    Spec memory (n + 1) any 0 (buildControlLocalDeclarations fwd memory)
      (ListOf isControlLocalKind) :=
  optList_spec
    (whileList_spec (buildControlLocalDeclaration_spec h).at (Nat.succ_le_succ h.fuel) (by decide))

theorem buildControlDeclaration_spec :
    Spec memory (n + 1) any 1 (buildControlDeclaration fwd memory) (Is (isKind .control)) := by
  refine .require (.node fun a ha =>
    .bind (buildSignatureType_spec h (.inr (.inl rfl)) (by decide)) ?_)
  refine fun type ht => .set ha (.ast rfl ht) fun a ha => ?_
  refine .ifToken (.next rfl (.pure (ha.finish rfl rfl))) ?_
  refine (Spec.bind (buildOptConstructorParameters_spec h) fun params hp => ?_).at
  refine .set ha (.list rfl hp) fun a ha => .expect (by decide) ?_
  refine .bind (buildControlLocalDeclarations_spec h) fun decls hd => .set ha (.list rfl hd) ?_
  refine fun a ha => .expect (by decide) (.bind h.blockStatement fun stmt hs => ?_)
  refine .set ha (.ast rfl hs) fun a ha => .expect (by decide) (.pure (ha.finish rfl rfl))

end

end Dp4c.Parse
