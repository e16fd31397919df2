import Dp4c.Lib.Pairs
import Dp4c.Parse.Program
import Dp4c.Parse.Schema
import Dp4c.PrintAst

/-! # Runs that look alike

The parser knows its input by the current token alone, and the symbol table only through the
class it gives to a word. A `Likeness` is a relation of states that this leaves in place: the
parser cannot tell states apart that look alike, so from such states it returns the same
trees or ends the same way. -/
namespace Dp4c

/-- What the parser reads of a token: all but its place in the text. -/
def Token.content (token : Token) : Token := { token with start := 0, stop := 0 }

namespace Token.Content

variable {token token' : Token} (h : token.content = token'.content)
include h

theorem klass : token.klass = token'.klass := (congrArg Token.klass h :)
theorem lexeme : token.lexeme = token'.lexeme := (congrArg Token.lexeme h :)
theorem lineNr : token.lineNr = token'.lineNr := (congrArg Token.lineNr h :)
theorem i : token.i = token'.i := (congrArg Token.i h :)

end Token.Content

namespace Parse

open Dp4c.Lib Dp4c.Lib.Prog

/-! ## Trees of words -/

/-- The strings in a tree are words; what the symbol-table pass reads without asking is
there. -/
structure FineEntry (word : Cstr → Prop) (e : Attribute Ast) : Prop where
  word : ∀ s, e.value = .string s → word s
  typedef : e.name = .isTypedef → ∃ b, e.value = .bool b
  decls : e.name = .declList → ∃ links linkCount, e.value = .list links linkCount

def Fine (word : Cstr → Prop) (a : Ast) : Prop := ∀ n ∈ a.nodes, ∀ e ∈ n.attrs, FineEntry word e

theorem fine_null (word : Cstr → Prop) : Fine word .null :=
  fun _ hn => absurd hn List.not_mem_nil

theorem fine_node_iff {word : Cstr → Prop} {kind : AstKind} {id lineNr : Nat}
    {attrs : List (Attribute Ast)} : Fine word (.node kind id lineNr attrs) ↔
      ∀ e ∈ attrs, FineEntry word e ∧ ∀ a ∈ e.value.children, Fine word a := by
  have hnodes : ∀ n, n ∈ Ast.nodes (.node kind id lineNr attrs) ↔
      n = .node kind id lineNr attrs ∨ ∃ e ∈ attrs, ∃ a ∈ e.value.children, n ∈ a.nodes := by
    intro n
    rw [Ast.nodes, attrsNodes_eq, linksNodes_eq, List.mem_cons, List.mem_flatMap]
    refine or_congr Iff.rfl ⟨?_, ?_⟩
    · rintro ⟨a, ha, hn⟩
      obtain ⟨e, he, ha⟩ := List.mem_flatMap.mp ha
      exact ⟨e, he, a, ha, hn⟩
    · rintro ⟨e, he, a, ha, hn⟩
      exact ⟨a, List.mem_flatMap.mpr ⟨e, he, ha⟩, hn⟩
  constructor
  · intro h e he
    refine ⟨h _ ((hnodes _).mpr (.inl rfl)) e he, fun a ha n hn => ?_⟩
    exact h n ((hnodes n).mpr (.inr ⟨e, he, a, ha, hn⟩))
  · intro h n hn
    rcases (hnodes n).mp hn with rfl | ⟨e, he, a, ha, hn⟩
    · exact fun e he => (h e he).1
    · exact (h e he).2 a ha n hn

/-- The attributes of which only the strings have to be words. -/
def isPlain (attr : AttrName) : Bool := attr != .isTypedef && attr != .declList

theorem fineEntry_plain {word : Cstr → Prop} {attr : AttrName} {type : AstAttributeType}
    {value : Value Ast} (hattr : isPlain attr = true) (hword : ∀ s, value = .string s → word s) :
    FineEntry word ⟨attr, type, value⟩ := by
  obtain ⟨htypedef, hdecls⟩ := Bool.and_eq_true_iff.mp hattr
  exact ⟨hword, fun h => absurd h (bne_iff_ne.mp htypedef), fun h =>
    absurd h (bne_iff_ne.mp hdecls)⟩

/-- A value that is neither a string nor leads to nodes. -/
def isData : Value Ast → Bool
  | .ast _ | .nullList | .list .. | .string _ => false
  | .int _ | .bool _ | .flags _ | .direction _ | .baseType _ | .operator _ => true

/-! ## Likenesses -/

/-- States of two runs with these memories. -/
structure Correspondence where
  states : State → State → Prop
  /-- Ends that go together. -/
  exits : Stop → Stop → Prop
  exits_of_states : ∀ {s t}, states s t → ∀ e, exits ⟨e, s⟩ ⟨e, t⟩
  /-- The states of the second run. -/
  second : State → Prop
  second_of_states : ∀ {s t}, states s t → second t
  /-- The second run has gone past the end of the first. -/
  passed : Stop → State → Prop
  word : Cstr → Prop
  memory : Memory
  memory' : Memory

namespace Correspondence

variable (c : Correspondence)

/-- The trees that both runs build. -/
def Tree (a : Ast) : Prop := Fine c.word a

def Trees (list : AstList) : Prop := ∀ a ∈ list.links, c.Tree a

def OptTrees (list : Option AstList) : Prop := ∀ l, list = some l → c.Trees l

def pairing : Pairing Stop Stop State State :=
  { states := c.states
    exits := c.exits
    second := c.second
    second_of_states := c.second_of_states
    passed := c.passed
    last := Stop.state }

/-- The rounds of the two runs: the first has no more than the second, and where it is out of
them the second goes past it. -/
def Fuels (n m : Nat) : Prop :=
  n = m ∨ n ≤ m ∧ ∀ s t, c.states s t → c.passed ⟨.outOfFuel, s⟩ t

end Correspondence

/-- From states that correspond, both programs return the same value, in states that
correspond, or both end, in the same way, or the second goes past the end of the first. -/
def Alike {α : Type} (c : Correspondence) (Q : α → Prop) (x y : Parser α) : Prop :=
  InStep c.pairing Eq Q x y

/-- A relation of states that reading tokens, making nodes and declaring types keep. -/
structure Likeness extends Correspondence where
  passed_later : ∀ {e t v}, passed e t → t.trace <:+ v.trace → passed e v
  token : ∀ {s t}, states s t → s.token.content = t.token.content
  lexeme : ∀ {t}, second t → word t.token.lexeme
  node : ∀ {s t}, states s t → s.nodeId = t.nodeId ∧
    states { s with nodeId := s.nodeId + 1 } { t with nodeId := t.nodeId + 1 }
  declare : ∀ {s t}, states s t → ∀ name id, states
    { s with scopes := s.scopes.newType name id } { t with scopes := t.scopes.newType name id }
  second_node : ∀ {t}, second t → second { t with nodeId := t.nodeId + 1 }
  second_declare : ∀ {t}, second t → ∀ name id,
    second { t with scopes := t.scopes.newType name id }
  note : ∀ call, Alike toCorrespondence (fun _ => True) (note call) (note call)
  next : Alike toCorrespondence (fun _ => True) nextToken nextToken
  peek : InStep toCorrespondence.pairing (fun a b => a.content = b.content) (fun _ => True)
    peekToken peekToken
  tuple : Alike toCorrespondence toCorrespondence.Trees (newTupleList memory) (newTupleList memory')

instance : Coe Likeness Correspondence := ⟨Likeness.toCorrespondence⟩

variable {L : Likeness} {α β : Type} {Q : α → Prop} {R : β → Prop} {word : Cstr → Prop}
  {n m : Nat}

theorem Correspondence.Fuels.pred {c : Correspondence} (h : c.Fuels (n + 1) (m + 1)) :
    c.Fuels n m :=
  h.imp Nat.succ.inj fun h => ⟨Nat.le_of_succ_le_succ h.1, h.2⟩

/-- Any result. -/
def Whatever (_ : α) : Prop := True

namespace Alike

theorem pure {a : α} (ha : Q a) : Alike L Q (pure a) (pure a) :=
  InStep.pure rfl ha

theorem bind {x y : Parser β} {f g : β → Parser α} (h : Alike L R x y)
    (hf : ∀ b, R b → Alike L Q (f b) (g b)) :
    Alike L Q (x >>= f) (y >>= g) := by
  refine InStep.bind h (fun a b hab hb => ?_) fun b hb => (hf b hb).goes
  rw [hab]
  exact hf b hb

theorem stop (e : Exit) : Alike L Q (stop e : Parser α) (Parse.stop e) where
  both _ _ hst := .inl (L.exits_of_states hst e)
  goes _ _ := fun _ h => h

/-- The first run has no round left. -/
theorem ended {y : Parser α} (h : L.Fuels 0 (m + 1)) (hy : L.pairing.Goes Q y) :
    Alike L Q (Parse.stop .outOfFuel) y := by
  rcases h with h | ⟨-, hpassed⟩
  · cases h
  · exact InStep.ended (fun _ => rfl) hpassed hy

theorem error (what : String) :
    Alike L Q (error what : Parser α) (Parse.error what) where
  both s t hst := by
    refine .inl (show L.exits ⟨.error _ s.token.lineNr s.token.lexeme.bytes, s⟩
      ⟨.error _ t.token.lineNr t.token.lexeme.bytes, t⟩ from ?_)
    rw [Token.Content.lineNr (L.token hst), Token.Content.lexeme (L.token hst)]
    exact L.exits_of_states hst _
  goes _ _ := fun _ h => h

theorem unexpected : Alike L Q (unexpected : Parser α) Parse.unexpected where
  both s t hst := by
    refine .inl (show L.exits ⟨.error _ s.token.lineNr s.token.lexeme.bytes, s⟩
      ⟨.error _ t.token.lineNr t.token.lexeme.bytes, t⟩ from ?_)
    rw [Token.Content.lineNr (L.token hst), Token.Content.lexeme (L.token hst)]
    exact L.exits_of_states hst _
  goes _ _ := fun _ h => h

variable {x y x' y' : Parser α} {c : TokenClass → Bool}

theorem ifToken (hx : Alike L Q x x') (hy : Alike L Q y y') :
    Alike L Q (ifToken c x y) (Parse.ifToken c x' y') := by
  refine InStep.choose (fun s t hst => ?_) fun t _ => ?_
  · have hklass : t.token.klass = s.token.klass := (Token.Content.klass (L.token hst)).symm
    cases h : c s.token.klass with
    | true => exact ⟨x, x', ifToken_pos h, ifToken_pos (hklass ▸ h), hx⟩
    | false => exact ⟨y, y', ifToken_neg h, ifToken_neg (hklass ▸ h), hy⟩
  · cases h : c t.token.klass with
    | true => exact ⟨x', ifToken_pos h, hx.goes⟩
    | false => exact ⟨y', ifToken_neg h, hy.goes⟩

/-- What is done with the current token, wherever it stands in the text. -/
theorem token {f g : Token → Parser α}
    (hf : ∀ token, L.word token.lexeme → Alike L Q (f token) (g token))
    (hplace : ∀ token token' : Token, token.content = token'.content → f token = f token' := by
      intro _ _ h
      simp only [Token.Content.klass h, Token.Content.lexeme h, Token.Content.i h]) :
    Alike L Q (Prog.reads (·.token) >>= f) (Prog.reads (·.token) >>= g) := by
  refine InStep.bind (InStep.reads (V := fun a b => a.content = b.content)
    (W := fun b => L.word b.lexeme) (fun _ _ hst => L.token hst) fun _ ht => L.lexeme ht) ?_
    fun token hword => (hf token hword).goes
  intro token token' hcontent hword
  rw [hplace token token' hcontent]
  exact hf token' hword

theorem note {call : Call} {f g : Unit → Parser α} (hf : Alike L Q (f ()) (g ())) :
    Alike L Q (note call >>= f) (Parse.note call >>= g) :=
  .bind (L.note call) fun _ _ => hf

theorem next {f g : Unit → Parser α} (hf : Alike L Q (f ()) (g ())) :
    Alike L Q (nextToken >>= f) (nextToken >>= g) :=
  .bind L.next fun _ _ => hf

theorem expect {klass : TokenClass} {what : String} {f g : Unit → Parser α}
    (hf : Alike L Q (f ()) (g ())) :
    Alike L Q (expect klass what >>= f) (Parse.expect klass what >>= g) :=
  .bind (R := Whatever) (.ifToken L.next (.error what)) fun _ _ => hf

theorem require {what : String} {f g : Unit → Parser α}
    (hf : Alike L Q (f ()) (g ())) :
    Alike L Q (require c what >>= f) (Parse.require c what >>= g) :=
  .bind (R := Whatever) (.ifToken (.pure trivial) (.error what)) fun _ _ => hf

theorem requireOr {a : Ast} {what : String} {f g : Unit → Parser α}
    (hf : Alike L Q (f ()) (g ())) :
    Alike L Q (requireOr a c what >>= f) (Parse.requireOr a c what >>= g) := by
  cases a with
  | null => exact .require hf
  | node => exact hf

theorem ifPeek (hx : Alike L Q x x') (hy : Alike L Q y y') :
    Alike L Q (ifPeek c x y) (Parse.ifPeek c x' y') := by
  refine InStep.bind L.peek (fun token token' hcontent _ => ?_) fun token _ => ?_
  · rw [Token.Content.klass hcontent]
    cases c token'.klass with
    | true => exact hx
    | false => exact hy
  · cases c token.klass with
    | true => exact hx.goes
    | false => exact hy.goes

theorem registerType {isType : Bool} {lexeme : Cstr} {a : Ast} {f g : Unit → Parser α}
    (hf : Alike L Q (f ()) (g ())) :
    Alike L Q (registerType isType lexeme a >>= f)
      (Parse.registerType isType lexeme a >>= g) := by
  cases isType with
  | true =>
    refine .bind (R := Whatever) ⟨fun s t hst => ?_, fun t ht => ?_⟩ fun _ _ => hf
    · exact ⟨rfl, L.declare hst lexeme _⟩
    · exact ⟨trivial, L.second_declare ht lexeme _, fun _ h =>
        L.passed_later h (List.suffix_refl _)⟩
  | false => exact hf

/-! ## Nodes -/

theorem new {kind : AstKind} : Alike L L.Tree (newAstNode kind) (newAstNode kind) where
  both s t hst := by
    obtain ⟨hid, hst'⟩ := L.node hst
    refine ⟨?_, hst'⟩
    rw [hid, Token.Content.lineNr (L.token hst)]
  goes t ht := ⟨fine_node_iff.mpr fun _ he => absurd he List.not_mem_nil, L.second_node ht,
    fun _ h => L.passed_later h (List.suffix_refl _)⟩

theorem newNode {kind : AstKind} {f g : Ast → Parser α}
    (hf : ∀ a, L.Tree a → Alike L Q (f a) (g a)) :
    Alike L Q (newAstNode kind >>= f) (newAstNode kind >>= g) :=
  .bind .new hf

variable {a b : Ast} {attr : AttrName} {type : AstAttributeType} {value : Value Ast}

theorem set (ha : L.Tree a) (hentry : FineEntry L.word ⟨attr, type, value⟩)
    (hchildren : ∀ b ∈ value.children, L.Tree b) :
    Alike L L.Tree (astSetattr a attr type value)
      (astSetattr a attr type value) := by
  cases a with
  | null => exact .stop _
  | node kind id lineNr attrs =>
    unfold astSetattr
    dsimp only
    split
    · refine .pure (fine_node_iff.mpr fun e he => ?_)
      rcases mem_setEntry he with rfl | he
      · exact ⟨hentry, hchildren⟩
      · exact fine_node_iff.mp ha e he
    · exact .stop _

theorem setAst (ha : L.Tree a) (hb : L.Tree b) (hattr : isPlain attr = true) :
    Alike L L.Tree (astSetattr a attr .ast (.ast b)) (astSetattr a attr .ast (.ast b)) :=
  .set ha (fineEntry_plain hattr fun _ h => by cases h)
    fun x hx => List.mem_singleton.mp hx ▸ hb

theorem setList {list : Option AstList} (ha : L.Tree a) (hlist : L.OptTrees list)
    (hattr : isPlain attr = true) : Alike L L.Tree
      (astSetattr a attr .astList (listValue list))
      (astSetattr a attr .astList (listValue list)) := by
  cases list with
  | none => exact .set ha (fineEntry_plain hattr fun _ h => by cases h) fun _ h => by cases h
  | some l => exact .set ha (fineEntry_plain hattr fun _ h => by cases h) (hlist l rfl)

theorem setString {lexeme : Cstr} (ha : L.Tree a) (hword : L.word lexeme)
    (hattr : isPlain attr = true) : Alike L L.Tree (astSetattr a attr type (.string lexeme))
      (astSetattr a attr type (.string lexeme)) :=
  .set ha (fineEntry_plain hattr fun _ h => by cases h; exact hword) fun _ h => by cases h

theorem setData (ha : L.Tree a) (hvalue : isData value = true) (hattr : isPlain attr = true) :
    Alike L L.Tree (astSetattr a attr type value) (astSetattr a attr type value) := by
  refine .set ha (fineEntry_plain hattr fun s h => ?_) fun b hb => ?_
  · rw [h] at hvalue
    cases hvalue
  · cases value <;> first | (cases hvalue; done) | cases hb

/-! ## Lists -/

theorem givenOr {x y : Parser Ast} {f g : Ast → Parser α} (ha : L.Tree a)
    (hx : Alike L L.Tree x y) (hf : ∀ b, L.Tree b → Alike L Q (f b) (g b)) :
    Alike L Q (givenOr a x >>= f) (Parse.givenOr a y >>= g) := by
  cases a with
  | null => exact .bind hx hf
  | node => exact hf _ ha

theorem append {list : AstList} {f g : AstList → Parser α} (hlist : L.Trees list) (ha : L.Tree a)
    (hf : ∀ list, L.Trees list → Alike L Q (f list) (g list)) :
    Alike L Q (astListAppendLink list a >>= f) (astListAppendLink list a >>= g) := by
  refine .bind ?_ hf
  unfold astListAppendLink
  split
  · exact .stop _
  · refine .pure fun b hb => ?_
    rcases List.mem_append.mp hb with hb | hb
    · exact hlist b hb
    · exact List.mem_singleton.mp hb ▸ ha

theorem emptyList {f g : AstList → Parser α} (hf : Alike L Q (f {}) (g {})) :
    Alike L Q (newAstList >>= f) (newAstList >>= g) := by
  rw [newAstList_eq]
  exact hf

section

variable {item item' : Parser Ast} (hitem : Alike L L.Tree item item')
include hitem

theorem commaLoop (hfuel : L.Fuels n m) {list : AstList} (hlist : L.Trees list) :
    Alike L L.Trees (commaLoop item n list) (Parse.commaLoop item' m list) := by
  induction m generalizing n list with
  | zero =>
    obtain rfl : n = 0 := hfuel.elim id fun h => Nat.le_zero.mp h.1
    exact .stop _
  | succ m ih =>
    have hround (n : Nat) (h : L.Fuels n m) : Alike L L.Trees (Parse.commaLoop item (n + 1) list)
        (Parse.commaLoop item' (m + 1) list) :=
      .ifToken (.next (.bind hitem fun _ ha => .append hlist ha fun list hlist => ih h hlist))
        (.pure hlist)
    cases n with
    | zero => exact .ended hfuel (hround m (.inl rfl)).goes
    | succ n => exact hround n hfuel.pred

theorem whileLoop (hfuel : L.Fuels n m) {list : AstList} (hlist : L.Trees list) :
    Alike L L.Trees (whileLoop c item n list) (Parse.whileLoop c item' m list) := by
  induction m generalizing n list with
  | zero =>
    obtain rfl : n = 0 := hfuel.elim id fun h => Nat.le_zero.mp h.1
    exact .stop _
  | succ m ih =>
    have hround (n : Nat) (h : L.Fuels n m) : Alike L L.Trees
        (Parse.whileLoop c item (n + 1) list) (Parse.whileLoop c item' (m + 1) list) :=
      .ifToken (.bind hitem fun _ ha => .append hlist ha fun list hlist => ih h hlist) (.pure hlist)
    cases n with
    | zero => exact .ended hfuel (hround m (.inl rfl)).goes
    | succ n => exact hround n hfuel.pred

theorem commaList (hfuel : L.Fuels n m) :
    Alike L L.OptTrees (commaList item n) (Parse.commaList item' m) := by
  refine .emptyList (.bind hitem fun a ha =>
    .append (fun _ h => by cases h) ha fun list hlist => ?_)
  exact .bind (.commaLoop hitem hfuel hlist) fun _ hlist => .pure fun _ h => by cases h; exact hlist

theorem whileList (hfuel : L.Fuels n m) :
    Alike L L.OptTrees (whileList c item n) (Parse.whileList c item' m) := by
  refine .emptyList (.bind hitem fun a ha =>
    .append (fun _ h => by cases h) ha fun list hlist => ?_)
  exact .bind (.whileLoop hitem hfuel hlist) fun _ hlist => .pure fun _ h => by cases h; exact hlist

end

/-- A list that may be missing. -/
theorem optList {x y : Parser (Option AstList)} (hx : Alike L L.OptTrees x y) :
    Alike L L.OptTrees (Parse.ifToken c x (Pure.pure none)) (Parse.ifToken c y (Pure.pure none)) :=
  .ifToken hx (.pure fun _ h => by cases h)

end Alike

/-- The functions that are declared before they are defined. -/
structure Forward.Alike (L : Likeness) (fwd fwd' : Forward) : Prop where
  fuel : L.Fuels fwd.fuel fwd'.fuel
  expression : ∀ n, Parse.Alike L L.Tree (fwd.expression n) (fwd'.expression n)
  typeRef : Parse.Alike L L.Tree fwd.typeRef fwd'.typeRef
  blockStatement : Parse.Alike L L.Tree fwd.blockStatement fwd'.blockStatement
  statement : Parse.Alike L L.Tree (fwd.statement .null) (fwd'.statement .null)
  parserStatement : Parse.Alike L L.Tree fwd.parserStatement fwd'.parserStatement

end Parse

end Dp4c
