import Dp4c.Parse.Program
import Dp4c.Parse.Schema

/-! # What every part of the parser keeps

`Inv` holds between the functions of the parser: the current token is in the array,
whose last one is the end of input, and the run took none of the steps that go wrong.
`Spec` is the contract of a function: from a state with `Inv` it returns with `Inv`, has
consumed at least `lo` tokens and built what `P` says, or it ends the process in one of
the ways of `Ended`. Its bound `n` on the tokens that are left pays for the recursion and
the loops. -/
namespace Dp4c.Parse

open Dp4c.Lib Dp4c.Lib.Prog Dp4c.Symtable

/-! ## Statements about all classes of tokens -/

def allClasses : List TokenClass :=
  [.none, .semicolon, .identifier, .typeIdentifier, .string, .integer, .parenthOpen,
    .parenthClose, .angleOpen, .angleClose, .braceOpen, .braceClose, .bracketOpen, .bracketClose,
    .dontcare, .colon, .dotPrefix, .comma, .minus, .unaryMinus, .plus, .star, .slash, .equal,
    .twoEqual, .exclamationEqual, .exclamation, .twoPipe, .angleOpenEqual, .angleCloseEqual,
    .tilda, .ampersand, .twoAmpersand, .threeAmpersand, .pipe, .circumflex, .twoAngleOpen,
    .twoAngleClose, .comment, .action, .actions, .enum, .inKw, .package, .select, .switch,
    .tuple, .void, .apply, .control, .error, .header, .inOut, .parser, .state, .table, .entries,
    .key, .typedef, .type, .bool, .true, .false, .default, .externKw, .headerUnion, .int, .bit,
    .varbit, .out, .stringLiteral, .transition, .elseKw, .exit, .ifKw, .matchKind, .returnKw,
    .struct, .const, .unknown, .startOfInput, .endOfInput, .lexicalError]

theorem mem_allClasses (k : TokenClass) : k ∈ allClasses := by cases k <;> decide

instance {P : TokenClass → Prop} [DecidablePred P] : Decidable (∀ k, P k) :=
  decidable_of_iff (∀ k ∈ allClasses, P k) ⟨fun h k => h k (mem_allClasses k), fun h k _ => h k⟩

/-! ## Steps that go wrong -/

/-- `build_parserStatement` is called at a semicolon, which it does not consume. -/
def Step.Stuck (step : Step) : Prop := step.call = .parserStatement ∧ step.klass = .semicolon

/-- The classes `build_tableProperty` has a branch for. -/
def isPropertyKind (k : TokenClass) : Bool :=
  k == .key || k == .actions || k == .entries || tokenIsNonTableKwName k

/-- `build_tableProperty` finds a token that it has no branch for. -/
def Step.Unlisted (step : Step) : Prop :=
  step.call = .tableProperty ∧ isPropertyKind step.klass = false

/-- The memory of a list, its first eight bytes cleared, looks like a cleared list. -/
def Cleared (bytes : Nat → UInt8) : Prop :=
  word (memset 8 bytes) 24 8 = 0 ∧ word (memset 8 bytes) 32 8 = 0 ∧ word (memset 8 bytes) 8 8 = 0

/-- The list of a tuple keyset gets memory that does not look so. -/
def Step.Dirty (memory : Memory) (step : Step) : Prop :=
  step.call = .tupleKeyset ∧ ¬ Cleared (memory step.tokenAt)

instance (step : Step) : Decidable step.Unlisted := inferInstanceAs (Decidable (_ ∧ _))

instance (bytes : Nat → UInt8) : Decidable (Cleared bytes) :=
  inferInstanceAs (Decidable (_ ∧ _ ∧ _))

instance (memory : Memory) (step : Step) : Decidable (step.Dirty memory) :=
  inferInstanceAs (Decidable (_ ∧ ¬ _))

/-- The `head` or the `tail` of such a list is no null pointer, and `ast_list_init` ends the
run. -/
def Refuses (bytes : Nat → UInt8) : Prop :=
  word (memset 8 bytes) 24 8 ≠ 0 ∨ word (memset 8 bytes) 32 8 ≠ 0

def Step.Refused (memory : Memory) (step : Step) : Prop :=
  step.call = .tupleKeyset ∧ Refuses (memory step.tokenAt)

/-- None of the steps went wrong. -/
structure Orderly (memory : Memory) (trace : List Step) : Prop where
  moving : ∀ step ∈ trace, ¬ step.Stuck
  listed : ∀ step ∈ trace, ¬ step.Unlisted
  accepted : ∀ step ∈ trace, ¬ step.Refused memory

/-- The index is inside of the array, and `next_token` and `peek_token` are not called at the
end of input. The class of the first token does not change; in the middle of an array it
could also be the end of input. -/
structure Step.Within (tokens : List Token) (step : Step) : Prop where
  inBounds : step.tokenAt < tokens.length
  notEnd : step.call = .nextToken ∨ step.call = .peekToken →
    step.klass ≠ .endOfInput ∨ step.tokenAt = 0
  first : step.tokenAt = 0 → step.klass = (tokens.getD 0 {}).klass

/-- The last token is the end of input. -/
def EndsInput (tokens : List Token) : Prop :=
  ∃ t, tokens[tokens.length - 1]? = some t ∧ t.klass = .endOfInput

structure Inv (memory : Memory) (s : State) : Prop where
  inBounds : s.tokenAt < s.tokens.length
  within : ∀ step ∈ s.trace, step.Within s.tokens
  orderly : Orderly memory s.trace

/-- The ways a run ends early. -/
inductive Cause (memory : Memory) (e : Stop) : Prop
  | error (format : String) :
    e.exit = .error format e.state.token.lineNr e.state.token.lexeme.bytes →
    Orderly memory e.state.trace → Cause memory e
  | outOfFuel : e.exit = .outOfFuel → (∃ step ∈ e.state.trace, step.Stuck) →
    (∀ step ∈ e.state.trace, ¬ step.Unlisted) → (∀ step ∈ e.state.trace, ¬ step.Refused memory) →
    Cause memory e
  | assertFalse : e.exit = .assertion "0" → (∀ step ∈ e.state.trace, ¬ step.Stuck) →
    (∃ step ∈ e.state.trace, step.Unlisted) → (∀ step ∈ e.state.trace, ¬ step.Refused memory) →
    Cause memory e
  | list (expr : String) : e.exit = .assertion expr →
    expr ∈ ["list->head == 0", "list->tail == 0", "list->tail->next == 0"] →
    (∀ step ∈ e.state.trace, ¬ step.Stuck) → (∀ step ∈ e.state.trace, ¬ step.Unlisted) →
    (∃ step ∈ e.state.trace, step.Dirty memory) → Cause memory e
  | pastEnd : e.exit = .assertion "i >= 0 && i < array->elem_count" →
    Orderly memory e.state.trace → ¬ EndsInput e.state.tokens → Cause memory e

structure Ended (memory : Memory) (e : Stop) : Prop where
  inBounds : e.state.tokenAt < e.state.tokens.length
  within : ∀ step ∈ e.state.trace, step.Within e.state.tokens
  cause : Cause memory e

/-- The state `t` comes after `s`, with at least `lo` tokens between them. -/
structure Later (lo : Nat) (s t : State) : Prop where
  length : t.tokens.length = s.tokens.length
  ends : EndsInput s.tokens → EndsInput t.tokens
  tokenAt : s.tokenAt + lo ≤ t.tokenAt
  trace : s.trace <:+ t.trace

/-- The tokens that are left, the current one included. -/
def State.left (s : State) : Nat := s.tokens.length - s.tokenAt

variable {α β : Type} {memory : Memory} {m n lo i : Nat} {s t u : State} {e : Stop}
  {p q c : TokenClass → Bool} {P : α → Prop} {Q : β → Prop} {x : Parser β} {f : β → Parser α}

theorem Later.refl (s : State) : Later 0 s s := ⟨rfl, id, Nat.le_refl _, List.suffix_refl _⟩

theorem Later.trans {j : Nat} (h : Later i s t) (h' : Later j t u) : Later (i + j) s u :=
  ⟨h'.length.trans h.length, h'.ends ∘ h.ends,
    by have := h.tokenAt; have := h'.tokenAt; omega, h.trace.trans h'.trace⟩

theorem Later.weaken (h : Later i s t) (hle : lo ≤ i) : Later lo s t :=
  ⟨h.length, h.ends, by have := h.tokenAt; omega, h.trace⟩

/-- A run that goes on and ends. -/
theorem Later.andEnds (h : Later i s t) (h' : Later 0 t u) : Later 0 s u :=
  (h.trans h').weaken (Nat.zero_le _)

theorem Later.left (h : Later i s t) (ht : Inv memory t) : t.left + i ≤ s.left := by
  unfold State.left
  have := h.length
  have := h.tokenAt
  have := ht.inBounds
  omega

theorem Inv.left_pos (h : Inv memory s) : 0 < s.left := Nat.sub_pos_of_lt h.inBounds

/-! ## Contracts -/

def Spec (memory : Memory) (n : Nat) (p : TokenClass → Bool) (lo : Nat) (x : Parser α)
    (P : α → Prop) : Prop :=
  ∀ s, Inv memory s → p s.token.klass = true → 2 * s.left < n →
    wp x s (fun a t => Inv memory t ∧ Later lo s t ∧ P a)
      (fun e => Ended memory e ∧ Later 0 s e.state)

/-- Any class. -/
def any : TokenClass → Bool := fun _ => true

theorem Spec.mono {y : Parser α} {P' : α → Prop} (h : Spec memory m q i y P') (hn : n ≤ m)
    (hp : ∀ k, p k = true → q k = true) (hi : lo ≤ i) (hP : ∀ a, P' a → P a) :
    Spec memory n p lo y P := fun s hs hk hl =>
  wp_mono (h s hs (hp _ hk) (by omega)) (fun _ _ ht => ⟨ht.1, ht.2.1.weaken hi, hP _ ht.2.2⟩)
    fun _ he => he

theorem Spec.imp {y : Parser α} {P' : α → Prop} (h : Spec memory n p lo y P')
    (hP : ∀ a, P' a → P a) : Spec memory n p lo y P :=
  h.mono (Nat.le_refl _) (fun _ hk => hk) (Nat.le_refl _) hP

/-- A contract without a condition on the token, where one is known. -/
theorem Spec.at {y : Parser α} (h : Spec memory n any lo y P) : Spec memory n p lo y P :=
  h.mono (Nat.le_refl _) (fun _ _ => rfl) (Nat.le_refl _) fun _ ha => ha

/-- The same where some token was consumed already. -/
theorem Spec.rest {y : Parser α} (h : Spec memory n any i y P) : Spec memory n p 0 y P :=
  h.mono (Nat.le_refl _) (fun _ _ => rfl) (Nat.zero_le _) fun _ ha => ha

/-- The same with fewer tokens left. -/
theorem Spec.fewer {y : Parser α} (h : Spec memory m p lo y P) (hn : n ≤ m) :
    Spec memory n p lo y P := h.mono hn (fun _ hk => hk) (Nat.le_refl _) fun _ ha => ha

/-- A branch of a larger function: fewer classes lead to it, more kinds may come out. -/
theorem Spec.widen {y : Parser Ast} {kinds kinds' : AstKind → Bool}
    (h : Spec memory n q lo y (Is kinds)) (hp : ∀ k, p k = true → q k = true)
    (hkinds : ∀ k, kinds k = true → kinds' k = true) : Spec memory n p lo y (Is kinds') :=
  h.mono (Nat.le_refl _) hp (Nat.le_refl _) fun _ ha => ha.mono hkinds

theorem Spec.pure {a : α} (h : P a) : Spec memory n p 0 (pure a) P := fun s hs _ _ =>
  ⟨hs, .refl s, h⟩

theorem Spec.bindFrom (hx : Spec memory n p i x Q)
    (hf : ∀ b, Q b → Spec memory (n - 2 * i) any (lo - i) (f b) P) :
    Spec memory n p lo (x >>= f) P := fun s hs hk hl => by
  rw [wp_bind]
  refine wp_mono (hx s hs hk hl) (fun b t ⟨ht, hst, hb⟩ => ?_) fun _ he => he
  have hleft := hst.left ht
  have := ht.left_pos
  refine wp_mono (hf b hb t ht rfl (by omega)) (fun a u ⟨hu, htu, ha⟩ => ?_) fun e he => ?_
  · exact ⟨hu, (hst.trans htu).weaken (by omega), ha⟩
  · exact ⟨he.1, hst.andEnds he.2⟩

/-- One function after the other. -/
theorem Spec.bind (hx : Spec memory n any i x Q)
    (hf : ∀ b, Q b → Spec memory n any (lo - i) (f b) P) : Spec memory n p lo (x >>= f) P :=
  Spec.bindFrom hx.at fun b hb =>
    (hf b hb).mono (Nat.sub_le _ _) (fun _ h => h) (Nat.le_refl _) fun _ ha => ha

/-- After a token was consumed, one level less of recursion is enough. -/
theorem Spec.enter (hx : Spec memory (n + 1) p 1 x Q)
    (hf : ∀ b, Q b → Spec memory n any (lo - 1) (f b) P) :
    Spec memory (n + 1) p lo (x >>= f) P :=
  Spec.bindFrom hx fun b hb =>
    (hf b hb).mono (by omega) (fun _ h => h) (Nat.le_refl _) fun _ ha => ha

theorem Spec.ifToken {y z : Parser α} (hy : Spec memory n (fun k => p k && c k) lo y P)
    (hz : Spec memory n (fun k => p k && !c k) lo z P) :
    Spec memory n p lo (ifToken c y z) P := fun s hs hk hl => by
  cases hc : c s.token.klass with
  | true => exact (wp_congr (ifToken_pos hc)).mpr (hy s hs (by simp [hk, hc]) hl)
  | false => exact (wp_congr (ifToken_neg hc)).mpr (hz s hs (by simp [hk, hc]) hl)

/-- Two contracts for the same function, by the class of the token. -/
theorem Spec.split {y : Parser α} (c : TokenClass → Bool)
    (hy : Spec memory n (fun k => p k && c k) lo y P)
    (hz : Spec memory n (fun k => p k && !c k) lo y P) : Spec memory n p lo y P :=
  fun s hs hk hl => by
    cases hc : c s.token.klass with
    | true => exact hy s hs (by simp [hk, hc]) hl
    | false => exact hz s hs (by simp [hk, hc]) hl

/-- A branch that no class leads to. -/
theorem Spec.never {y : Parser α} (h : ∀ k, p k = false) : Spec memory n p lo y P :=
  fun s _ hk _ => by rw [h] at hk; cases hk

theorem Inv.ended_error (hs : Inv memory s) (format : String) :
    Ended memory ⟨.error format s.token.lineNr s.token.lexeme.bytes, s⟩ :=
  ⟨hs.inBounds, hs.within, .error format rfl hs.orderly⟩

theorem Spec.error {what : String} : Spec memory n p lo (error what : Parser α) P :=
  fun _ hs _ _ => ⟨hs.ended_error _, .refl _⟩

theorem Spec.unexpected : Spec memory n p lo (unexpected : Parser α) P :=
  fun _ hs _ _ => ⟨hs.ended_error _, .refl _⟩

theorem Spec.require {what : String} {f : Unit → Parser α}
    (hf : Spec memory n (fun k => p k && c k) lo (f ()) P) :
    Spec memory n p lo (require c what >>= f) P := fun s hs hk hl => by
  rw [wp_bind]
  cases hc : c s.token.klass with
  | true => exact (wp_congr (ifToken_pos hc)).mpr (hf s hs (by simp [hk, hc]) hl)
  | false =>
    exact (wp_congr (ifToken_neg hc)).mpr ⟨hs.ended_error _, .refl _⟩

theorem Spec.requireOr {a : Ast} {what : String} {f : Unit → Parser α}
    (hf : Spec memory n p lo (f ()) P) : Spec memory n p lo (requireOr a c what >>= f) P := by
  cases a with
  | node => exact hf
  | null =>
    exact .require (hf.mono (Nat.le_refl _) (fun k hk => (Bool.and_eq_true_iff.mp hk).1)
      (Nat.le_refl _) fun _ h => h)

theorem Spec.givenOr {a : Ast} {kinds : AstKind → Bool} {x : Parser Ast} {f : Ast → Parser α}
    (ha : a = .null ∨ Is kinds a) (hx : Spec memory n any 1 x (Is kinds))
    (hf : ∀ b, Is kinds b → Spec memory n any lo (f b) P) :
    Spec memory n p lo (givenOr a x >>= f) P := by
  cases a with
  | null => exact .bind hx.rest hf
  | node => exact (hf _ (ha.resolve_left fun h => nomatch h)).at

/-! ## Steps that keep the token -/

/-- What the contracts speak about is the same in both states. -/
structure Same (s t : State) : Prop where
  tokens : t.tokens = s.tokens
  tokenAt : t.tokenAt = s.tokenAt
  trace : t.trace = s.trace

theorem Same.token (h : Same s t) : t.token = s.token := by
  unfold State.token
  rw [h.tokens, h.tokenAt]

theorem Same.inv (h : Same s t) (hs : Inv memory s) : Inv memory t := by
  obtain ⟨hb, hw, ho⟩ := hs
  rw [← h.tokens] at hb hw
  rw [← h.tokenAt] at hb
  rw [← h.trace] at hw ho
  exact ⟨hb, hw, ho⟩

theorem Same.later (h : Same s t) : Later 0 s t :=
  ⟨by rw [h.tokens], by rw [h.tokens]; exact id, Nat.le_of_eq h.tokenAt.symm,
    h.trace ▸ List.suffix_refl _⟩

/-- A step that neither moves nor notes anything. -/
theorem Spec.quiet
    (hx : ∀ s, p s.token.klass = true → ∃ b t, x s = .ok (b, t) ∧ Same s t ∧ Q b)
    (hf : ∀ b, Q b → Spec memory n p lo (f b) P) : Spec memory n p lo (x >>= f) P :=
  fun s hs hk hl => by
    obtain ⟨b, t, hb, hst, hQ⟩ := hx s hk
    rw [wp_bind]
    refine wp_of_ok hb ?_
    have hleft : t.left = s.left := by unfold State.left; rw [hst.tokens, hst.tokenAt]
    refine wp_mono (hf b hQ t (hst.inv hs) (hst.token ▸ hk) (by omega)) (fun a u hu => ?_)
      fun e he => ⟨he.1, hst.later.andEnds he.2⟩
    exact ⟨hu.1, (hst.later.trans hu.2.1).weaken (by omega), hu.2.2⟩

theorem Spec.reads {g : State → β} (hf : ∀ b, Spec memory n p lo (f b) P) :
    Spec memory n p lo (Prog.reads g >>= f) P :=
  .quiet (Q := fun _ => True) (fun s _ => ⟨_, s, rfl, ⟨rfl, rfl, rfl⟩, trivial⟩) fun b _ => hf b

theorem Spec.node {kind : AstKind} {f : Ast → Parser α}
    (hf : ∀ a, Part kind [] a → Spec memory n p lo (f a) P) :
    Spec memory n p lo (newAstNode kind >>= f) P :=
  .quiet (fun _ _ => ⟨_, _, rfl, ⟨rfl, rfl, rfl⟩, Part.new ..⟩) hf

/-- A node without attributes. -/
theorem Spec.nodeLast {kind : AstKind} {P : Ast → Prop} (hP : ∀ a, Part kind [] a → P a) :
    Spec memory n p 0 (newAstNode kind) P := fun s hs _ _ =>
  have hsame : Same s { s with nodeId := s.nodeId + 1 } := ⟨rfl, rfl, rfl⟩
  ⟨hsame.inv hs, hsame.later, hP _ (Part.new ..)⟩

theorem Spec.newType {name : Cstr} {ast : Ast} {f : Unit → Parser α}
    (hf : Spec memory n p lo (f ()) P) : Spec memory n p lo (newType name ast >>= f) P :=
  .quiet (Q := fun _ => True) (fun _ _ => ⟨_, _, rfl, ⟨rfl, rfl, rfl⟩, trivial⟩) fun _ _ => hf

theorem Spec.registerType {isType : Bool} {name : Cstr} {ast : Ast} {f : Unit → Parser α}
    (hf : Spec memory n p lo (f ()) P) :
    Spec memory n p lo (registerType isType name ast >>= f) P := by
  cases isType
  · exact hf
  · exact .newType hf

variable {kind : AstKind} {kinds : AstKind → Bool} {attr : AttrName} {names : List AttrName}
  {type : AstAttributeType} {value : Value Ast} {a : Ast}

theorem Spec.set {f : Ast → Parser α} (ha : Part kind names a) (hv : Holds kind attr type value)
    (hf : ∀ b, Part kind (addName attr names) b → Spec memory n p lo (f b) P) :
    Spec memory n p lo (astSetattr a attr type value >>= f) P := by
  obtain ⟨b, hb, hpart⟩ := ha.astSetattr hv
  rw [hb, pure_bind]
  exact hf b hpart

/-- The last attribute of a node. -/
theorem Spec.setLast {P : Ast → Prop} (ha : Part kind names a) (hv : Holds kind attr type value)
    (hP : ∀ b, Part kind (addName attr names) b → P b) :
    Spec memory n p 0 (astSetattr a attr type value) P := by
  obtain ⟨b, hb, hpart⟩ := ha.astSetattr hv
  rw [hb]
  exact .pure (hP b hpart)

/-- An attribute that is set behind a finished node's back. -/
theorem Spec.setMore (ha : Is kinds a) (hnone : kinds .none = false)
    (hv : ∀ k, kinds k = true → Holds k attr type value) :
    Spec memory n p 0 (astSetattr a attr type value) (Is kinds) := by
  obtain ⟨b, hb, his⟩ := ha.astSetattr hnone hv
  rw [hb]
  exact .pure his

/-- A step at the current token. -/
theorem State.within {call : Call} (hs : s.tokenAt < s.tokens.length)
    (hend : call = .nextToken ∨ call = .peekToken → s.token.klass ≠ .endOfInput ∨ s.tokenAt = 0) :
    (⟨call, s.tokenAt, s.token.klass⟩ : Step).Within s.tokens :=
  ⟨hs, hend, fun hfirst => by unfold State.token; exact hfirst ▸ rfl⟩

theorem Inv.note (hs : Inv memory s) (call : Call)
    (hend : call = .nextToken ∨ call = .peekToken → s.token.klass ≠ .endOfInput ∨ s.tokenAt = 0)
    (hstuck : ¬ (call = .parserStatement ∧ s.token.klass = .semicolon))
    (hlisted : ¬ (call = .tableProperty ∧ isPropertyKind s.token.klass = false))
    (haccepted : ¬ (⟨call, s.tokenAt, s.token.klass⟩ : Step).Refused memory) :
    Inv memory { s with trace := ⟨call, s.tokenAt, s.token.klass⟩ :: s.trace } :=
  ⟨hs.inBounds, List.forall_mem_cons.mpr ⟨s.within hs.inBounds hend, hs.within⟩,
    List.forall_mem_cons.mpr ⟨hstuck, hs.orderly.moving⟩,
    List.forall_mem_cons.mpr ⟨hlisted, hs.orderly.listed⟩,
    List.forall_mem_cons.mpr ⟨haccepted, hs.orderly.accepted⟩⟩

/-- The state after such a note. -/
theorem Inv.noted (hs : Inv memory s) (call : Call)
    (hend : call = .nextToken ∨ call = .peekToken → s.token.klass ≠ .endOfInput ∨ s.tokenAt = 0)
    (hstuck : ¬ (call = .parserStatement ∧ s.token.klass = .semicolon))
    (hlisted : ¬ (call = .tableProperty ∧ isPropertyKind s.token.klass = false))
    (haccepted : ¬ (⟨call, s.tokenAt, s.token.klass⟩ : Step).Refused memory) :
    ∃ t, Parse.note call s = .ok ((), t) ∧ Inv memory t ∧ Later 0 s t ∧ t.tokenAt = s.tokenAt ∧
      t.token = s.token ∧ t.trace = ⟨call, s.tokenAt, s.token.klass⟩ :: s.trace :=
  ⟨_, rfl, hs.note call hend hstuck hlisted haccepted,
    ⟨rfl, id, Nat.le_refl _, List.suffix_cons _ _⟩, rfl, rfl, rfl⟩

/-- A step that is noted and does not go wrong. -/
theorem Spec.note {call : Call} {f : Unit → Parser α} (hkeyset : call ≠ .tupleKeyset)
    (hcall : ∀ k, p k = true → (call = .nextToken ∨ call = .peekToken → k ≠ .endOfInput) ∧
      ¬ (call = .parserStatement ∧ k = .semicolon) ∧
      ¬ (call = .tableProperty ∧ isPropertyKind k = false))
    (hf : Spec memory n p lo (f ()) P) : Spec memory n p lo (note call >>= f) P :=
  fun s hs hk hl => by
    obtain ⟨hend, hstuck, hlisted⟩ := hcall _ hk
    obtain ⟨t, hnote, ht, hlater, hat, htoken, -⟩ :=
      hs.noted call (fun h => .inl (hend h)) hstuck hlisted fun h => hkeyset h.1
    have hleft : t.left = s.left := by unfold State.left; rw [hlater.length, hat]
    rw [wp_bind]
    refine wp_of_ok hnote (wp_mono (hf t ht (htoken ▸ hk) (by omega))
      (fun a u hu => ?_) fun e he => ?_)
    · exact ⟨hu.1, (hlater.trans hu.2.1).weaken (by omega), hu.2.2⟩
    · exact ⟨he.1, hlater.andEnds he.2⟩

end Dp4c.Parse
