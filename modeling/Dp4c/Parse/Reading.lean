import Dp4c.Parse.Text
import Mathlib.Order.Filter.AtTopBot.Basic

/-! # What is read from a text

`Reading x ts Q E`: wherever the tokens ahead are `ts`, `x` returns with `Q` or ends the run
with `E`. `Reads x ts us P` is that it returns with `us` ahead, `Rejects x ts` that it does
not return. Trees are compared without the ids and the lines of their nodes. -/
namespace Dp4c

mutual

/-- The tree without the ids and the lines of its nodes. -/
def Ast.erase : Ast → Ast
  | .null => .null
  | .node kind _ _ attrs => .node kind 0 0 (eraseAttrs attrs)

def eraseAttrs : List (Attribute Ast) → List (Attribute Ast)
  | [] => []
  | ⟨attr, type, value⟩ :: rest => ⟨attr, type, eraseValue value⟩ :: eraseAttrs rest

def eraseValue : Value Ast → Value Ast
  | .ast a => .ast a.erase
  | .list links linkCount => .list (eraseLinks links) linkCount
  | .nullList => .nullList
  | .string s => .string s
  | .int n => .int n
  | .bool b => .bool b
  | .flags f => .flags f
  | .direction d => .direction d
  | .baseType b => .baseType b
  | .operator op => .operator op

def eraseLinks : List Ast → List Ast
  | [] => []
  | a :: rest => a.erase :: eraseLinks rest

end

theorem eraseLinks_eq : ∀ links, eraseLinks links = links.map Ast.erase
  | [] => rfl
  | a :: rest => congrArg (a.erase :: ·) (eraseLinks_eq rest)

theorem eraseAttrs_eq : ∀ attrs,
    eraseAttrs attrs = attrs.map fun e => { e with value := eraseValue e.value }
  | [] => rfl
  | ⟨_, _, _⟩ :: rest => congrArg (_ :: ·) (eraseAttrs_eq rest)

theorem eraseAttrs_setEntry (entry : Attribute Ast) : ∀ attrs, eraseAttrs (setEntry entry attrs) =
    setEntry { entry with value := eraseValue entry.value } (eraseAttrs attrs)
  | [] => rfl
  | e :: rest => by
    show eraseAttrs (if e.name = entry.name then entry :: rest else e :: setEntry entry rest) = _
    rw [eraseAttrs_eq (e :: rest), List.map_cons]
    show _ = if e.name = entry.name then _ else _
    split
    · rw [eraseAttrs_eq, List.map_cons]
    · rw [eraseAttrs_eq, List.map_cons, ← eraseAttrs_eq, eraseAttrs_setEntry entry rest,
        ← eraseAttrs_eq]

theorem Ast.erase_node {kind : AstKind} {attrs : List (Attribute Ast)} {a : Ast}
    (h : a.erase = .node kind 0 0 attrs) :
    ∃ id lineNr attrs', a = .node kind id lineNr attrs' ∧ eraseAttrs attrs' = attrs := by
  cases a with
  | null => cases h
  | node kind' id lineNr attrs' =>
    injection h with hkind _ _ hattrs
    exact ⟨id, lineNr, attrs', by rw [hkind], hattrs⟩

end Dp4c

namespace Dp4c.Parse

open Dp4c.Lib Dp4c.Lib.Prog Dp4c.Symtable

/-- Wherever `ts` is ahead, `x` returns with `Q` or ends the run with `E`. -/
def Reading {α : Type} (x : Parser α) (ts : List Tok) (Q : α → State → Prop) (E : Stop → Prop) :
    Prop := ∀ s, Sees s ts → wp x s Q E

/-- `x` reads `ts` up to `us`. -/
abbrev Reads {α : Type} (x : Parser α) (ts us : List Tok) (P : α → Prop) : Prop :=
  Reading x ts (fun a t => Sees t us ∧ P a) fun _ => False

/-- `x` does not return. -/
abbrev Rejects {α : Type} (x : Parser α) (ts : List Tok) : Prop :=
  Reading x ts (fun _ _ => False) fun _ => True

/-- `x` does not come to a token of `follow`: it does not return, or it returns in front of
another token. -/
abbrev Misses {α : Type} (x : Parser α) (follow : TokenClass → Bool) (ts : List Tok) : Prop :=
  Reading x ts (fun _ t => follow t.token.klass = false) fun _ => True

/-- In front of no other token than one of `follow` does `x` return. -/
def Needs {α : Type} (follow : TokenClass → Bool) (x : Parser α) : Prop :=
  ∀ s, follow s.token.klass = false → wp x s (fun _ _ => False) fun _ => True

/-- The node is this tree. -/
def IsTree (tree : Ast) (a : Ast) : Prop := a.erase = tree

variable {α β : Type} {x y : Parser α} {w : Parser β} {f : β → Parser α} {ts us vs : List Tok}
  {k k' : Tok} {c follow : TokenClass → Bool} {klass : TokenClass} {what : String} {P : α → Prop}
  {R : β → Prop} {Q : α → State → Prop} {E : Stop → Prop} {kind : AstKind} {tree : Ast}

theorem Reading.mono {Q' : α → State → Prop} {E' : Stop → Prop} (h : Reading x ts Q' E')
    (hQ : ∀ a t, Q' a t → Q a t) (hE : ∀ e, E' e → E e) : Reading x ts Q E := fun s hs =>
  wp_mono (h s hs) hQ hE

theorem Reads.imp {P' : α → Prop} (h : Reads x ts us P') (hP : ∀ a, P' a → P a) :
    Reads x ts us P := h.mono (fun a _ ht => ⟨ht.1, hP a ht.2⟩) fun _ he => he

/-- A text cannot be read and not be read. -/
theorem Reading.not_rejects {s : State} (h : Reads x ts us P) (h' : Rejects x ts) (hs : Sees s ts) :
    False := by
  have hreads := h s hs
  have hrejects := h' s hs
  unfold wp at hreads hrejects
  split at hreads
  · rename_i hx
    rw [hx] at hrejects
    exact hrejects
  · exact hreads

/-- Where something reads the text, only this case is left. -/
theorem Reading.given (h : Reads w ts us R) (hx : ¬ Rejects w ts → Reading x ts Q E) :
    Reading x ts Q E := fun s hs => hx (fun h' => h.not_rejects h' hs) s hs

theorem Reading.pure {a : α} (h : P a) : Reads (pure a) ts ts P := fun _ hs => ⟨hs, h⟩

/-- One part after the other. -/
theorem Reading.bind (hw : Reads w ts us R) (hf : ∀ b, R b → Reading (f b) us Q E) :
    Reading (w >>= f) ts Q E := fun s hs => by
  rw [wp_bind]
  exact wp_mono (hw s hs) (fun b t ht => hf b ht.2 t ht.1) fun _ he => he.elim

/-- What does not return at the start does not return. -/
theorem Reading.stuck (hw : Reading w ts (fun _ _ => False) E) : Reading (w >>= f) ts Q E :=
  fun s hs => by
    rw [wp_bind]
    exact wp_mono (hw s hs) (fun _ _ ht => ht.elim) fun _ he => he

theorem Reading.ifPos (h : c k.klass = true) (hx : Reading x (k :: ts) Q E) :
    Reading (ifToken c x y) (k :: ts) Q E := fun s hs =>
  (wp_congr (ifToken_pos (hs.klass ▸ h))).mpr (hx s hs)

theorem Reading.ifNeg (h : c k.klass = false) (hy : Reading y (k :: ts) Q E) :
    Reading (ifToken c x y) (k :: ts) Q E := fun s hs =>
  (wp_congr (ifToken_neg (hs.klass ▸ h))).mpr (hy s hs)

theorem Reading.require {f : Unit → Parser α} (h : c k.klass = true)
    (hf : Reading (f ()) (k :: ts) Q E) : Reading (require c what >>= f) (k :: ts) Q E :=
  .bind (.ifPos h (.pure (P := fun _ => True) trivial)) fun _ _ => hf

theorem Reading.error : Rejects (error what : Parser α) ts := fun _ _ => trivial

theorem Reading.requireNot {f : Unit → Parser α} (h : c k.klass = false) :
    Rejects (Parse.require c what >>= f) (k :: ts) := .stuck (.ifNeg h .error)

theorem Reading.misses (h : Rejects x ts) : Misses x follow ts :=
  h.mono (fun _ _ ht => ht.elim) fun _ he => he

/-- What needs a token that was missed does not return. -/
theorem Reading.missed (hw : Misses w follow ts) (hf : ∀ b, Needs follow (f b)) :
    Rejects (w >>= f) ts := fun s hs => by
  rw [wp_bind]
  exact wp_mono (hw s hs) (fun b t ht => hf b t ht) fun _ he => he

theorem expect_other {s : State} (h : s.token.klass ≠ klass) :
    expect klass what s = (error what : Parser Unit) s := ifToken_neg (beq_false_of_ne h)

theorem Needs.expect {f : Unit → Parser α} (h : follow klass = true) :
    Needs follow (Parse.expect klass what >>= f) := fun s hs => by
  have hne : s.token.klass ≠ klass := fun hk => by
    rw [hk, h] at hs
    cases hs
  rw [wp_bind]
  exact wp_of_error (expect_other hne) trivial

theorem nextToken_reads : Reads nextToken (k :: k' :: ts) (k' :: ts) fun _ => True :=
  fun _ hs => by
    obtain ⟨u, hu, hsees⟩ := hs.next
    exact wp_of_ok hu ⟨hsees, trivial⟩

theorem Reading.next {f : Unit → Parser α} (hf : Reading (f ()) (k' :: ts) Q E) :
    Reading (nextToken >>= f) (k :: k' :: ts) Q E := .bind nextToken_reads fun _ _ => hf

theorem expect_reads (h : k.klass = klass) :
    Reads (expect klass what) (k :: k' :: ts) (k' :: ts) fun _ => True :=
  .ifPos (beq_iff_eq.mpr h) nextToken_reads

theorem Reading.expect {f : Unit → Parser α} (h : k.klass = klass)
    (hf : Reading (f ()) (k' :: ts) Q E) :
    Reading (expect klass what >>= f) (k :: k' :: ts) Q E :=
  .bind (expect_reads h) fun _ _ => hf

/-- The same for a text that goes on somehow. -/
theorem Reading.nextTo {f : Unit → Parser α} (hne : ts ≠ []) (hf : Reading (f ()) ts Q E) :
    Reading (nextToken >>= f) (k :: ts) Q E := by
  obtain ⟨t, us, rfl⟩ := List.exists_cons_of_ne_nil hne
  exact .next hf

theorem Reading.expectTo {f : Unit → Parser α} (h : k.klass = klass) (hne : ts ≠ [])
    (hf : Reading (f ()) ts Q E) : Reading (Parse.expect klass what >>= f) (k :: ts) Q E := by
  obtain ⟨t, us, rfl⟩ := List.exists_cons_of_ne_nil hne
  exact .expect h hf

theorem Reading.peekNeg (h : c k'.klass = false) (hy : Reading y (k :: k' :: ts) Q E) :
    Reading (ifPeek c x y) (k :: k' :: ts) Q E := fun s hs => by
  obtain ⟨token, u, hu, htok, hsees⟩ := hs.peek
  unfold ifPeek
  rw [wp_bind]
  refine wp_of_ok hu ?_
  have hclass : token.klass = k'.klass := congrArg Tok.klass htok
  rw [if_neg (by rw [hclass, h]; exact Bool.noConfusion)]
  exact hy u hsees

/-- The current token is read. -/
theorem Reading.token {f : Token → Parser α}
    (hf : ∀ token, tokOf token = k → Reading (f token) (k :: ts) Q E) :
    Reading (Prog.reads (·.token) >>= f) (k :: ts) Q E := fun s hs =>
  hf s.token hs.token s hs

theorem Reading.note {f : Unit → Parser α} {call : Call} (hf : Reading (f ()) ts Q E) :
    Reading (note call >>= f) ts Q E := fun s hs => by
  obtain ⟨u, hu, hsees, -⟩ := hs.note call
  rw [wp_bind]
  exact wp_of_ok hu (hf u hsees)

/-! ## Nodes -/

theorem newAstNode_reads : Reads (newAstNode kind) ts ts (IsTree (.node kind 0 0 [])) :=
  fun _ hs => ⟨hs.same ⟨rfl, rfl, rfl⟩ rfl, rfl⟩

theorem Reading.node {f : Ast → Parser α}
    (hf : ∀ a, IsTree (.node kind 0 0 []) a → Reading (f a) ts Q E) :
    Reading (newAstNode kind >>= f) ts Q E := .bind newAstNode_reads hf

variable {attrs : List (Attribute Ast)} {attr : AttrName} {type : AstAttributeType}
  {v v' : Value Ast} {a : Ast}

theorem astSetattr_reads (ha : IsTree (.node kind 0 0 attrs) a) (hv : eraseValue v = v')
    (hroom : Nat.blt attrs.length astAttrtableCapacity = true) :
    Reads (astSetattr a attr type v) ts ts
      (IsTree (.node kind 0 0 (setEntry ⟨attr, type, v'⟩ attrs))) := fun s hs => by
  obtain ⟨id, lineNr, attrs', rfl, hattrs⟩ := Ast.erase_node ha
  have hlen : attrs'.length < astAttrtableCapacity := by
    rw [← hattrs, eraseAttrs_eq, List.length_map] at hroom
    exact Nat.le_of_ble_eq_true hroom
  refine wp_of_ok (a := .node kind id lineNr (setEntry ⟨attr, type, v⟩ attrs')) (t := s) ?_ ⟨hs, ?_⟩
  · show (if _ then _ else _ : Parser Ast) s = _
    rw [if_pos (.inl hlen)]
    rfl
  · unfold IsTree Ast.erase
    rw [eraseAttrs_setEntry, hattrs, hv]

theorem Reading.set {f : Ast → Parser α} (ha : IsTree (.node kind 0 0 attrs) a)
    (hv : eraseValue v = v') (hroom : Nat.blt attrs.length astAttrtableCapacity = true)
    (hf : ∀ b, IsTree (.node kind 0 0 (setEntry ⟨attr, type, v'⟩ attrs)) b →
      Reading (f b) ts Q E) :
    Reading (astSetattr a attr type v >>= f) ts Q E := .bind (astSetattr_reads ha hv hroom) hf

/-- The last attribute of a node. -/
theorem Reading.setLast (ha : IsTree (.node kind 0 0 attrs) a) (hv : eraseValue v = v')
    (hroom : Nat.blt attrs.length astAttrtableCapacity = true)
    (htree : .node kind 0 0 (setEntry ⟨attr, type, v'⟩ attrs) = tree) :
    Reads (astSetattr a attr type v) ts ts (IsTree tree) := htree ▸ astSetattr_reads ha hv hroom

/-- Setting an attribute leaves the text where it is. -/
theorem astSetattr_keeps (s : State) :
    wp (astSetattr a attr type v) s (fun _ t => t = s) fun _ => True := by
  unfold astSetattr
  split
  · trivial
  · rw [wp_ite]
    split
    · rfl
    · trivial

theorem Needs.set {f : Ast → Parser α} (hf : ∀ b, Needs follow (f b)) :
    Needs follow (astSetattr a attr type v >>= f) := fun s hs => by
  rw [wp_bind]
  exact wp_mono (astSetattr_keeps s) (fun b t ht => hf b t (ht ▸ hs)) fun _ he => he

theorem Reading.missedSet {w : Parser β} {v : β → Value Ast} (hw : Misses w follow ts) :
    Misses (w >>= fun b => astSetattr a attr type (v b)) follow ts := fun s hs => by
  rw [wp_bind]
  refine wp_mono (hw s hs) (fun b t ht => ?_) fun _ he => he
  exact wp_mono (astSetattr_keeps t) (fun _ u hu => hu ▸ ht) fun _ he => he

/-- A tree as a value. -/
theorem IsTree.value (h : IsTree tree a) : eraseValue (.ast a) = .ast tree := congrArg Value.ast h

/-! ## Lists -/

/-- A piece of text and the tree it stands for. -/
structure Piece where
  tokens : List Tok
  tree : Ast

/-- `x` reads the piece in front of every token of `follow`. -/
def Accepts (x : Parser Ast) (follow : TokenClass → Bool) (p : Piece) : Prop :=
  ∀ k us, follow k.klass = true → Reads x (p.tokens ++ k :: us) (k :: us) (IsTree p.tree)

/-- `x` does not return from the piece in front of a token of `follow`. -/
def Declines (x : Parser Ast) (follow : TokenClass → Bool) (p : Piece) : Prop :=
  ∀ k us, follow k.klass = true → Rejects x (p.tokens ++ k :: us)

/-- `x` reads the piece if `b` is true, and does not return from it otherwise. -/
structure Settles (x : Parser Ast) (follow : TokenClass → Bool) (p : Piece) (b : Bool) : Prop where
  accepts : b = true → Accepts x follow p
  declines : b = false → Declines x follow p

/-- `x` does not come past the piece to a token of `follow`. -/
def Strays (x : Parser Ast) (follow : TokenClass → Bool) (p : Piece) : Prop :=
  ∀ k us, follow k.klass = true → Misses x follow (p.tokens ++ k :: us)

/-- `x` reads the piece if `b` is true, and does not come past it otherwise. -/
structure Takes (x : Parser Ast) (follow : TokenClass → Bool) (p : Piece) (b : Bool) : Prop where
  accepts : b = true → Accepts x follow p
  strays : b = false → Strays x follow p

theorem Settles.takes {p : Piece} {x : Parser Ast} {b : Bool} (h : Settles x follow p b) :
    Takes x follow p b := ⟨h.accepts, fun hb k us hk => (h.declines hb k us hk).misses⟩

/-- The piece starts with a token of the class. -/
def Piece.Starts (c : TokenClass → Bool) (p : Piece) : Prop := ∃ t ts, p.tokens = t :: ts ∧
    c t.klass = true

/-- The list of these trees. -/
structure Collects (trees : List Ast) (list : AstList) : Prop where
  links : list.links.map Ast.erase = trees
  count : list.linkCount = trees.length
  ready : list.Ready

/-- The value of an attribute for these trees. -/
def treesValue (trees : List Ast) : Value Ast := .list trees trees.length

theorem Collects.value {trees : List Ast} {list : AstList} (h : Collects trees list) :
    eraseValue (listValue (some list)) = treesValue trees := by
  show Value.list (eraseLinks list.links) list.linkCount = _
  rw [eraseLinks_eq, h.links, h.count]
  rfl

theorem Collects.empty : Collects [] {} := ⟨rfl, rfl, fun _ => rfl⟩

/-- The list of these trees. -/
def IsList (trees : List Ast) (list : Option AstList) : Prop :=
  eraseValue (listValue list) = treesValue trees

/-- The trees as a list, or the null pointer where there are none. -/
def optTreesValue : List Ast → Value Ast
  | [] => .nullList
  | trees => treesValue trees

def IsOptList (trees : List Ast) (list : Option AstList) : Prop :=
  eraseValue (listValue list) = optTreesValue trees

theorem Reading.newAstList {f : AstList → Parser α}
    (hf : ∀ list, Collects [] list → Reading (f list) ts Q E) :
    Reading (newAstList >>= f) ts Q E := by
  rw [newAstList_eq, pure_bind]
  exact hf {} ⟨rfl, rfl, fun _ => rfl⟩

theorem Reading.append {trees : List Ast} {list : AstList} {f : AstList → Parser α}
    (hl : Collects trees list) (ha : IsTree tree a)
    (hf : ∀ list, Collects (trees ++ [tree]) list → Reading (f list) ts Q E) :
    Reading (astListAppendLink list a >>= f) ts Q E := by
  unfold astListAppendLink
  rw [if_neg fun h => h.2 (hl.ready h.1), pure_bind]
  refine hf _ ⟨?_, ?_, fun h => absurd h (by simp)⟩
  · rw [List.map_append, hl.links, List.map_singleton, ha]
  · rw [hl.count, List.length_append]
    rfl

/-- The tokens with one spelling. -/
def punct (text : TokenClass → Cstr) (klass : TokenClass) :
    Tok := { klass := klass, lexeme := text klass }

/-- The spelling of the concrete texts, which does not matter. -/
def noText : TokenClass → Cstr := fun _ => ⟨[], Cstr.noNul_nil⟩

variable {text : TokenClass → Cstr} {item : Parser Ast}

/-- Pieces behind commas. -/
def commaTail (text : TokenClass → Cstr) (pieces : List Piece) : List Tok :=
  pieces.flatMap fun p => punct text .comma :: p.tokens

/-- Pieces with commas between them. -/
def commaTokens (text : TokenClass → Cstr) : List Piece → List Tok
  | [] => []
  | p :: rest => p.tokens ++ commaTail text rest

/-- What follows a piece in a list. -/
theorem commaTail_head (text : TokenClass → Cstr) (pieces : List Piece) (k : Tok) (us : List Tok)
    (hcomma : follow .comma = true)
    (hk : follow k.klass = true) :
    ∃ k' us', commaTail text pieces ++ k :: us = k' :: us' ∧ follow k'.klass = true := by
  cases pieces with
  | nil => exact ⟨k, us, rfl, hk⟩
  | cons p rest => exact ⟨punct text .comma, _, rfl, hcomma⟩

theorem commaLoop_reads {k : Tok} (hcomma : follow .comma = true) (hk : follow k.klass = true)
    (hend : k.klass ≠ .comma) : ∀ {pieces : List Piece} {fuel : Nat} {list : AstList}
    {trees : List Ast}, pieces.length < fuel → (∀ p ∈ pieces, Accepts item follow p) →
    Collects trees list →
    Reads (commaLoop item fuel list) (commaTail text pieces ++ k :: us) (k :: us)
      (Collects (trees ++ pieces.map Piece.tree))
  | _, 0, _, _, hfuel, _, _ => absurd hfuel (Nat.not_lt_zero _)
  | [], fuel + 1, list, trees, _, _, hl => by
    unfold commaLoop
    refine .ifNeg (beq_false_of_ne hend) (.pure ?_)
    rwa [List.map_nil, List.append_nil]
  | p :: rest, fuel + 1, list, trees, hfuel, hitem, hl => by
    obtain ⟨k', us', hhead, hk'⟩ := commaTail_head text rest k us hcomma hk
    have hp := hitem p List.mem_cons_self k' us' hk'
    have htext : commaTail text (p :: rest) ++ k :: us =
        punct text .comma :: (p.tokens ++ k' :: us') := by
      rw [← hhead]
      simp [commaTail]
    obtain ⟨t, ts, hne⟩ := List.exists_cons_of_ne_nil
      (show p.tokens ++ k' :: us' ≠ [] by simp)
    unfold commaLoop
    rw [htext, hne]
    refine .ifPos rfl (.next ?_)
    rw [← hne]
    refine .bind hp fun a ha => .append hl ha fun list hl => ?_
    rw [← hhead]
    have hrest := commaLoop_reads hcomma hk hend (Nat.lt_of_succ_lt_succ hfuel)
      (fun q hq => hitem q (List.mem_cons_of_mem _ hq)) hl
    rwa [List.append_assoc, List.singleton_append] at hrest

theorem commaList_reads (text : TokenClass → Cstr) (us : List Tok) {k : Tok} {pieces : List Piece}
    {fuel : Nat} (hcomma : follow .comma = true)
    (hk : follow k.klass = true) (hend : k.klass ≠ .comma) (hfuel : pieces.length ≤ fuel)
    (hne : pieces ≠ []) (hitem : ∀ p ∈ pieces, Accepts item follow p) :
    Reads (commaList item fuel) (commaTokens text pieces ++ k :: us) (k :: us)
      (IsList (pieces.map Piece.tree)) := by
  obtain ⟨p, rest, rfl⟩ := List.exists_cons_of_ne_nil hne
  obtain ⟨k', us', hhead, hk'⟩ := commaTail_head text rest k us hcomma hk
  unfold commaList
  refine .newAstList fun list hl => ?_
  have hp := hitem p List.mem_cons_self k' us' hk'
  rw [commaTokens, List.append_assoc, hhead]
  refine .bind hp fun a ha => .append hl ha fun list hl => ?_
  rw [← hhead]
  refine .bind (commaLoop_reads hcomma hk hend hfuel
    (fun q hq => hitem q (List.mem_cons_of_mem _ hq)) hl) fun list hl => .pure hl.value

/-- In front of another token, nothing more is added to a list. -/
theorem commaLoop_stays (hcomma : follow .comma = true) {s : State}
    (hs : follow s.token.klass = false) : ∀ (fuel : Nat) (list : AstList),
    wp (commaLoop item fuel list) s (fun _ t => follow t.token.klass = false) fun _ => True
  | 0, _ => trivial
  | fuel + 1, list => by
    have hne : is .comma s.token.klass = false := beq_false_of_ne fun hk => by
      rw [hk, hcomma] at hs
      cases hs
    unfold commaLoop
    refine (wp_congr (ifToken_neg hne)).mpr ?_
    exact hs

/-- A piece that is not come past, somewhere in a list. -/
theorem Strays.append {p : Piece} {us : List Tok} {list : AstList} {f : AstList → Parser α}
    (hp : Strays item follow p) (hk : follow k.klass = true)
    (hf : ∀ list s, follow s.token.klass = false →
      wp (f list) s (fun _ t => follow t.token.klass = false) fun _ => True) :
    Misses (do f (← astListAppendLink list (← item))) follow (p.tokens ++ k :: us) :=
  fun s hs => by
    rw [wp_bind]
    refine wp_mono (hp k us hk s hs) (fun a t ht => ?_) fun _ he => he
    rw [wp_bind]
    unfold astListAppendLink
    split
    · trivial
    · exact hf _ t ht

/-- One piece that is not come past. -/
theorem commaLoop_misses {k : Tok} (hcomma : follow .comma = true) (hk : follow k.klass = true) :
    ∀ {pieces : List Piece} {fuel : Nat} {list : AstList} {trees : List Ast},
    (∀ p ∈ pieces, Accepts item follow p ∨ Strays item follow p) →
    (∃ p ∈ pieces, Strays item follow p) → Collects trees list →
    Misses (commaLoop item fuel list) follow (commaTail text pieces ++ k :: us)
  | [], _, _, _, _, ⟨_, hmem, _⟩, _ => nomatch hmem
  | _ :: _, 0, _, _, _, _, _ => fun _ _ => trivial
  | p :: rest, fuel + 1, list, trees, hitem, hex, hl => by
    obtain ⟨k', us', hhead, hk'⟩ := commaTail_head text rest k us hcomma hk
    have htext : commaTail text (p :: rest) ++ k :: us =
        punct text .comma :: (p.tokens ++ k' :: us') := by
      rw [← hhead]
      simp [commaTail]
    obtain ⟨t, ts, hne⟩ := List.exists_cons_of_ne_nil
      (show p.tokens ++ k' :: us' ≠ [] by simp)
    unfold commaLoop
    rw [htext, hne]
    refine .ifPos rfl (.next ?_)
    rw [← hne]
    by_cases hp : Strays item follow p
    · exact hp.append hk' fun list s hs => commaLoop_stays hcomma hs fuel list
    have hp' := (hitem p List.mem_cons_self).resolve_right hp
    refine .bind (hp' k' us' hk') fun a ha => .append hl ha fun list hl => ?_
    rw [← hhead]
    refine commaLoop_misses hcomma hk (fun q hq => hitem q (List.mem_cons_of_mem _ hq)) ?_ hl
    obtain ⟨q, hq, hstrays⟩ := hex
    rcases List.mem_cons.mp hq with rfl | hq
    · exact absurd hstrays hp
    · exact ⟨q, hq, hstrays⟩

theorem commaList_misses {k : Tok} {pieces : List Piece} {fuel : Nat}
    (hcomma : follow .comma = true) (hk : follow k.klass = true)
    (hitem : ∀ p ∈ pieces, Accepts item follow p ∨ Strays item follow p)
    (hex : ∃ p ∈ pieces, Strays item follow p) :
    Misses (commaList item fuel) follow (commaTokens text pieces ++ k :: us) := by
  obtain ⟨p, rest, rfl⟩ := List.exists_cons_of_ne_nil
    (show pieces ≠ [] by rintro rfl; obtain ⟨_, hmem, _⟩ := hex; cases hmem)
  obtain ⟨k', us', hhead, hk'⟩ := commaTail_head text rest k us hcomma hk
  have hloop : ∀ list s, wp (commaLoop item fuel list) s
      (fun _ t => follow t.token.klass = false) (fun _ => True) →
      wp (do return some (← commaLoop item fuel list)) s
      (fun _ t => follow t.token.klass = false) fun _ => True := fun list s h => by
    rw [wp_bind]
    exact wp_mono h (fun _ _ ht => ht) fun _ he => he
  unfold commaList
  refine .newAstList fun list hl => ?_
  rw [commaTokens, List.append_assoc, hhead]
  by_cases hp : Strays item follow p
  · exact hp.append hk' fun list s hs => hloop list s (commaLoop_stays hcomma hs fuel list)
  have hp' := (hitem p List.mem_cons_self).resolve_right hp
  refine .bind (hp' k' us' hk') fun a ha => .append hl ha fun list hl s hs => hloop list s ?_
  rw [← hhead] at hs
  refine commaLoop_misses hcomma hk (fun q hq => hitem q (List.mem_cons_of_mem _ hq)) ?_ hl s hs
  obtain ⟨q, hq, hstrays⟩ := hex
  rcases List.mem_cons.mp hq with rfl | hq
  · exact absurd hstrays hp
  · exact ⟨q, hq, hstrays⟩

/-- What a list with commas comes to: it is read if `b` is true, and not come past otherwise. -/
structure TakesAll (c : TokenClass → Bool) (item : Parser Ast) (follow : TokenClass → Bool)
    (fuel : Nat) (pieces : List Piece) (b : Bool) : Prop where
  starts : ∀ p ∈ pieces, p.Starts c
  accepts : b = true → pieces.length ≤ fuel ∧ ∀ p ∈ pieces, Accepts item follow p
  strays : b = false → (∀ p ∈ pieces, Accepts item follow p ∨ Strays item follow p) ∧
    ∃ p ∈ pieces, Strays item follow p

/-- A list is read if all of it is. -/
theorem takesAll {γ : Type} {l : List γ} {piece : γ → Piece} {read : γ → Bool} {fuel : Nat}
    (hstarts : ∀ x, (piece x).Starts c) (hfuel : l.length ≤ fuel)
    (h : ∀ x ∈ l, Takes item follow (piece x) (read x)) :
    TakesAll c item follow fuel (l.map piece) (l.all read) := by
  refine ⟨fun p hp => ?_, fun hb => ⟨by rwa [List.length_map], fun p hp => ?_⟩,
    fun hb => ⟨fun p hp => ?_, ?_⟩⟩
  · obtain ⟨x, -, rfl⟩ := List.mem_map.mp hp
    exact hstarts x
  · obtain ⟨x, hx, rfl⟩ := List.mem_map.mp hp
    exact (h x hx).accepts (List.all_eq_true.mp hb x hx)
  · obtain ⟨x, hx, rfl⟩ := List.mem_map.mp hp
    cases hread : read x with
    | true => exact .inl ((h x hx).accepts hread)
    | false => exact .inr ((h x hx).strays hread)
  · obtain ⟨x, hx, hread⟩ := List.all_eq_false.mp hb
    exact ⟨_, List.mem_map_of_mem hx, (h x hx).strays (by simpa using hread)⟩

variable {pieces : List Piece} {fuel : Nat} {b : Bool}

/-- A list that may be empty. -/
theorem TakesAll.reads {k : Tok} (h : TakesAll c item follow fuel pieces b) (hb : b = true)
    (hcomma : follow .comma = true) (hk : follow k.klass = true) (hend : k.klass ≠ .comma)
    (hnot : c k.klass = false) :
    Reads (ifToken c (commaList item fuel) (pure none))
      (commaTokens text pieces ++ k :: us) (k :: us)
      (IsOptList (pieces.map Piece.tree)) := by
  obtain ⟨hfuel, hitem⟩ := h.accepts hb
  cases pieces with
  | nil => exact .ifNeg hnot (.pure rfl)
  | cons p rest =>
    obtain ⟨t, ts, htokens, ht⟩ := h.starts p List.mem_cons_self
    have hlist := commaList_reads text us hcomma hk hend hfuel (by simp) hitem
    rw [commaTokens, htokens] at hlist ⊢
    exact .ifPos ht hlist

theorem TakesAll.misses {k : Tok} (h : TakesAll c item follow fuel pieces b) (hb : b = false)
    (hcomma : follow .comma = true) (hk : follow k.klass = true) :
    Misses (ifToken c (commaList item fuel) (pure none)) follow
      (commaTokens text pieces ++ k :: us) := by
  obtain ⟨hitem, hex⟩ := h.strays hb
  have hlist : Misses (commaList item fuel) follow (commaTokens text pieces ++ k :: us) :=
    commaList_misses hcomma hk hitem hex
  cases pieces with
  | nil =>
    obtain ⟨_, hmem, _⟩ := hex
    cases hmem
  | cons p rest =>
    obtain ⟨t, ts, htokens, ht⟩ := h.starts p List.mem_cons_self
    rw [commaTokens, htokens] at hlist ⊢
    exact .ifPos ht hlist

theorem whileLoop_reads (us : List Tok) {k : Tok} (hfollow : ∀ k, c k = true → follow k = true)
    (hk : follow k.klass = true) (hend : c k.klass = false) :
    ∀ {pieces : List Piece} {fuel : Nat} {list : AstList} {trees : List Ast},
    pieces.length < fuel → (∀ p ∈ pieces, Accepts item follow p ∧ p.Starts c) →
    Collects trees list →
    Reads (whileLoop c item fuel list) (pieces.flatMap Piece.tokens ++ k :: us) (k :: us)
      (Collects (trees ++ pieces.map Piece.tree))
  | _, 0, _, _, hfuel, _, _ => absurd hfuel (Nat.not_lt_zero _)
  | [], fuel + 1, list, trees, _, _, hl => by
    unfold whileLoop
    refine .ifNeg hend (.pure ?_)
    rwa [List.map_nil, List.append_nil]
  | p :: rest, fuel + 1, list, trees, hfuel, hitem, hl => by
    have hhead : ∃ k' us', rest.flatMap Piece.tokens ++ k :: us = k' :: us' ∧
        follow k'.klass = true := by
      cases rest with
      | nil => exact ⟨k, us, rfl, hk⟩
      | cons q rest =>
        obtain ⟨t, ts, hq, ht⟩ := (hitem q (by simp)).2
        exact ⟨t, ts ++ (rest.flatMap Piece.tokens ++ k :: us), by simp [hq], hfollow _ ht⟩
    obtain ⟨k', us', hhead, hk'⟩ := hhead
    obtain ⟨hp, t, ts, htokens, ht⟩ := hitem p List.mem_cons_self
    have hp := hp k' us' hk'
    unfold whileLoop
    rw [List.flatMap_cons, List.append_assoc, hhead]
    rw [htokens] at hp ⊢
    refine .ifPos ht (.bind hp fun a ha => .append hl ha fun list hl => ?_)
    rw [← hhead]
    have hrest := whileLoop_reads us hfollow hk hend (Nat.lt_of_succ_lt_succ hfuel)
      (fun q hq => hitem q (List.mem_cons_of_mem _ hq)) hl
    rwa [List.append_assoc, List.singleton_append] at hrest

/-- The item in front of the loop is its first round. -/
theorem whileList_loop {fuel : Nat} {s : State} (h : c s.token.klass = true) :
    whileList c item fuel s = (do return some (← whileLoop c item (fuel + 1) {}) : Parser _) s := by
  have hround : whileLoop c item (fuel + 1) {} s =
      (do whileLoop c item fuel (← astListAppendLink {} (← item)) : Parser AstList)
        s := ifToken_pos h
  rw [bind_apply, hround, ← bind_apply _ fun list => pure (some list)]
  unfold whileList
  rw [newAstList_eq]
  simp only [pure_bind, bind_assoc]

theorem whileList_reads (follow : TokenClass → Bool) (us : List Tok) {k : Tok}
    {pieces : List Piece} {fuel : Nat}
    (hfollow : ∀ k, c k = true → follow k = true) (hk : follow k.klass = true)
    (hend : c k.klass = false) (hfuel : pieces.length < fuel) (hne : pieces ≠ [])
    (hitem : ∀ p ∈ pieces, Accepts item follow p ∧ p.Starts c) :
    Reads (whileList c item fuel) (pieces.flatMap Piece.tokens ++ k :: us) (k :: us)
      (IsList (pieces.map Piece.tree)) := by
  obtain ⟨p, rest, rfl⟩ := List.exists_cons_of_ne_nil hne
  obtain ⟨t, ts, htokens, ht⟩ := (hitem p List.mem_cons_self).2
  have hloop := whileLoop_reads us hfollow hk hend (Nat.lt_succ_of_lt hfuel) hitem .empty
  intro s hs
  have hc : c s.token.klass = true := by
    rw [List.flatMap_cons, htokens] at hs
    exact hs.klass ▸ ht
  refine (wp_congr (whileList_loop hc)).mpr (Reading.bind hloop (fun list hl => ?_) s hs)
  exact .pure hl.value

/-- A list that may be empty. -/
theorem optWhileList_reads (follow : TokenClass → Bool) {k : Tok} {pieces : List Piece} {fuel : Nat}
    (hfollow : ∀ k, c k = true → follow k = true) (hk : follow k.klass = true)
    (hend : c k.klass = false) (hfuel : pieces.length < fuel)
    (hitem : ∀ p ∈ pieces, Accepts item follow p ∧ p.Starts c) :
    Reads (ifToken c (whileList c item fuel) (pure none)) (pieces.flatMap Piece.tokens ++ k :: us)
      (k :: us) (IsOptList (pieces.map Piece.tree)) := by
  cases pieces with
  | nil => exact .ifNeg hend (.pure rfl)
  | cons p rest =>
    obtain ⟨t, ts, htokens, ht⟩ := (hitem p List.mem_cons_self).2
    have hlist := whileList_reads follow us hfollow hk hend hfuel (by simp) hitem
    rw [List.flatMap_cons, htokens] at hlist ⊢
    exact .ifPos ht hlist

/-- The loop does not come past the piece. -/
def Sticks (c : TokenClass → Bool) (item : Parser Ast) (follow : TokenClass → Bool) (p : Piece) :
    Prop := ∀ k us, follow k.klass = true → ∀ fuel list,
      Rejects (whileLoop c item fuel list) (p.tokens ++ k :: us)

/-- One piece on which the loop sticks. -/
theorem whileLoop_rejects (us : List Tok) {k : Tok} (hfollow : ∀ k, c k = true → follow k = true)
    (hk : follow k.klass = true) : ∀ {pieces : List Piece} {fuel : Nat} {list : AstList}
    {trees : List Ast},
    (∀ p ∈ pieces, p.Starts c ∧ (Accepts item follow p ∨ Sticks c item follow p)) →
    (∃ p ∈ pieces, Sticks c item follow p) → Collects trees list →
    Rejects (whileLoop c item fuel list) (pieces.flatMap Piece.tokens ++ k :: us)
  | [], _, _, _, _, ⟨_, hmem, _⟩, _ => nomatch hmem
  | _ :: _, 0, _, _, _, _, _ => fun _ _ => trivial
  | p :: rest, fuel + 1, list, trees, hitem, hex, hl => by
    rw [List.flatMap_cons, List.append_assoc]
    obtain ⟨k', us', hhead, hk'⟩ : ∃ k' us', rest.flatMap Piece.tokens ++ k :: us = k' :: us' ∧
        follow k'.klass = true := by
      cases rest with
      | nil => exact ⟨k, us, rfl, hk⟩
      | cons q rest =>
        obtain ⟨t, ts, hq, ht⟩ := (hitem q (by simp)).1
        exact ⟨t, ts ++ (rest.flatMap Piece.tokens ++ k :: us), by simp [hq], hfollow _ ht⟩
    by_cases hp : Sticks c item follow p
    · rw [hhead]
      exact hp k' us' hk' _ _
    obtain ⟨⟨t, ts, htokens, ht⟩, haccepts⟩ := hitem p List.mem_cons_self
    have hread := haccepts.resolve_right hp k' us' hk'
    have hrest : ∀ {list trees}, Collects trees list →
        Rejects (whileLoop c item fuel list) (rest.flatMap Piece.tokens ++ k :: us) := fun hl => by
      refine whileLoop_rejects us hfollow hk (fun q hq => hitem q (List.mem_cons_of_mem _ hq)) ?_ hl
      obtain ⟨q, hq, hsticks⟩ := hex
      rcases List.mem_cons.mp hq with rfl | hq
      · exact absurd hsticks hp
      · exact ⟨q, hq, hsticks⟩
    unfold whileLoop
    rw [hhead] at hrest ⊢
    rw [htokens] at hread ⊢
    exact .ifPos ht (.bind hread fun a ha => .append hl ha fun list hl => hrest hl)

theorem whileList_rejects (follow : TokenClass → Bool) {k : Tok} {pieces : List Piece} {fuel : Nat}
    (hfollow : ∀ k, c k = true → follow k = true) (hk : follow k.klass = true)
    (hitem : ∀ p ∈ pieces, p.Starts c ∧ (Accepts item follow p ∨ Sticks c item follow p))
    (hex : ∃ p ∈ pieces, Sticks c item follow p) :
    Rejects (whileList c item fuel) (pieces.flatMap Piece.tokens ++ k :: us) := by
  obtain ⟨p, rest, rfl⟩ := List.exists_cons_of_ne_nil
    (show pieces ≠ [] by rintro rfl; obtain ⟨_, hmem, _⟩ := hex; cases hmem)
  obtain ⟨t, ts, htokens, ht⟩ := (hitem p List.mem_cons_self).1
  have hloop : Rejects (whileLoop c item (fuel + 1) {})
      ((p :: rest).flatMap Piece.tokens ++ k :: us) :=
    whileLoop_rejects us hfollow hk hitem hex .empty
  rw [List.flatMap_cons, htokens] at hloop ⊢
  refine fun s hs => (wp_congr (whileList_loop (hs.klass ▸ ht))).mpr ?_
  exact Reading.stuck hloop s hs

/-- A piece from which the item does not return. -/
theorem Declines.sticks {p : Piece} (hstart : p.Starts c) (h : Declines item follow p) :
    Sticks c item follow p := by
  obtain ⟨t, ts, htokens, ht⟩ := hstart
  intro k us hk fuel list
  cases fuel with
  | zero => exact fun _ _ => trivial
  | succ fuel =>
    have hrejects := h k us hk
    unfold whileLoop
    rw [htokens] at hrejects ⊢
    exact .ifPos ht (.stuck hrejects)

/-- What a loop over pieces makes of one of them: it comes past it or it does not. -/
structure Passes (c : TokenClass → Bool) (item : Parser Ast) (p : Piece) (b : Bool) : Prop where
  starts : p.Starts c
  accepts : b = true → Accepts item (fun _ => true) p
  sticks : b = false → Sticks c item (fun _ => true) p

theorem Settles.passes {p : Piece} {b : Bool} (hstart : p.Starts c)
    (h : Settles item (fun _ => true) p b) : Passes c item p b :=
  ⟨hstart, h.accepts, fun hb => (h.declines hb).sticks hstart⟩

/-- What the loop makes of all of them. -/
theorem whileList_settles {γ : Type} {l : List γ} {piece : γ → Piece} {read : γ → Bool} {k : Tok}
    {fuel : Nat} (us : List Tok) (hne : l ≠ []) (hfuel : l.length < fuel)
    (h : ∀ x ∈ l, Passes c item (piece x) (read x)) (hend : c k.klass = false) :
    (l.all read = true → Reads (whileList c item fuel)
      ((l.map piece).flatMap Piece.tokens ++ k :: us) (k :: us)
      (IsList ((l.map piece).map Piece.tree))) ∧
    (l.all read = false → Rejects (whileList c item fuel)
      ((l.map piece).flatMap Piece.tokens ++ k :: us)) := by
  refine ⟨fun hb => ?_, fun hb => ?_⟩
  · refine whileList_reads (fun _ => true) us (fun _ _ => rfl) rfl hend
      (by rwa [List.length_map]) (by simpa using hne) fun p hp => ?_
    obtain ⟨x, hx, rfl⟩ := List.mem_map.mp hp
    exact ⟨(h x hx).accepts (List.all_eq_true.mp hb x hx), (h x hx).starts⟩
  · refine whileList_rejects (fun _ => true) (fun _ _ => rfl) rfl (fun p hp => ?_) ?_
    · obtain ⟨x, hx, rfl⟩ := List.mem_map.mp hp
      refine ⟨(h x hx).starts, ?_⟩
      cases hread : read x with
      | true => exact .inl ((h x hx).accepts hread)
      | false => exact .inr ((h x hx).sticks hread)
    · obtain ⟨x, hx, hread⟩ := List.all_eq_false.mp hb
      exact ⟨_, List.mem_map_of_mem hx, (h x hx).sticks (by simpa using hread)⟩

/-- The same for a list that may be empty. -/
theorem optWhileList_settles {γ : Type} {l : List γ} {piece : γ → Piece} {read : γ → Bool} {k : Tok}
    {fuel : Nat} (us : List Tok) (hfuel : l.length < fuel)
    (h : ∀ x ∈ l, Passes c item (piece x) (read x)) (hend : c k.klass = false) :
    (l.all read = true → Reads (ifToken c (whileList c item fuel) (pure none))
      ((l.map piece).flatMap Piece.tokens ++ k :: us) (k :: us)
      (IsOptList ((l.map piece).map Piece.tree))) ∧
    (l.all read = false → Rejects (ifToken c (whileList c item fuel) (pure none))
      ((l.map piece).flatMap Piece.tokens ++ k :: us)) := by
  cases l with
  | nil => exact ⟨fun _ => .ifNeg hend (.pure rfl), fun hb => nomatch hb⟩
  | cons x rest =>
    obtain ⟨t, ts, htokens, ht⟩ := (h x List.mem_cons_self).starts
    have hlist := whileList_settles us (by simp) hfuel h hend
    rw [List.map_cons, List.flatMap_cons, htokens] at hlist ⊢
    exact ⟨fun hb => .ifPos ht (hlist.1 hb), fun hb => .ifPos ht (hlist.2 hb)⟩

/-- A token that the item leaves where it is, or does not return from. -/
theorem Sticks.of_stays {t : Tok} {tree : Ast} (ht : c t.klass = true)
    (h : ∀ us, Reading item (t :: us) (fun _ u => Sees u (t :: us)) fun _ => True) :
    Sticks c item follow ⟨[t], tree⟩ := by
  intro k us _ fuel
  induction fuel with
  | zero => exact fun _ _ _ => trivial
  | succ fuel ih =>
    intro list
    unfold whileLoop
    refine .ifPos ht fun s hs => ?_
    rw [wp_bind]
    refine wp_mono (h _ s hs) (fun a u hu => ?_) fun _ _ => trivial
    rw [wp_bind]
    unfold astListAppendLink
    split
    · trivial
    · exact ih _ u hu

/-- The loop over such a token ends when its fuel does. -/
theorem whileLoop_stays {t : Tok} (ht : c t.klass = true)
    (h : Reads item (t :: us) (t :: us) fun _ => True) : ∀ (fuel : Nat) {list : AstList}
    {trees : List Ast}, Collects trees list →
    Reading (whileLoop c item fuel list) (t :: us) (fun _ _ => False) fun e => e.exit = .outOfFuel
  | 0, _, _, _ => fun _ _ => rfl
  | fuel + 1, list, trees, hl => by
    unfold whileLoop
    refine .ifPos ht (.bind h fun a _ => ?_)
    exact .append hl rfl fun list hl => whileLoop_stays ht h fuel hl

/-! ## Enough rounds -/

open Filter in
theorem eventually_succ {p : Nat → Prop} : (∀ᶠ n in atTop, p (n + 1)) ↔ ∀ᶠ n in atTop, p n := by
  rw [← eventually_map (f := atTop) (m := (· + 1)) (P := p), map_add_atTop_eq_nat]

open Filter in
theorem eventually_forall_mem {γ : Type} {p : Nat → γ → Prop} : ∀ {l : List γ},
    (∀ a ∈ l, ∀ᶠ n in atTop, p n a) → ∀ᶠ n in atTop, ∀ a ∈ l, p n a
  | [], _ => .of_forall fun _ _ h => nomatch h
  | a :: l, h => by
    filter_upwards [h a List.mem_cons_self,
      eventually_forall_mem fun b hb => h b (List.mem_cons_of_mem _ hb)] with n ha hl
    exact List.forall_mem_cons.mpr ⟨ha, hl⟩

/-- From `s` and with enough rounds, `x` returns with `us` ahead and with `P`. -/
def Returns (x : Nat → Parser α) (s : State) (us : List Tok) (P : α → Prop) : Prop :=
  ∀ᶠ n in Filter.atTop, wp (x n) s (fun a t => Sees t us ∧ P a) fun _ => False

theorem Returns.of_reads {x : Nat → Parser α} {s : State}
    (h : ∀ᶠ n in Filter.atTop, Reads (x n) ts us P) (hs : Sees s ts) : Returns x s us P :=
  h.mono fun _ hn => hn s hs

theorem not_returns {x : Nat → Parser α} {s : State} (h : ∀ᶠ n in Filter.atTop, Rejects (x n) ts)
    (hs : Sees s ts) : ¬ Returns x s us P := fun hreturns => by
  obtain ⟨n, hreads, hrejects⟩ := (hreturns.and h).exists
  have hrejects := hrejects s hs
  unfold wp at hreads hrejects
  split at hreads
  · rename_i hx
    rw [hx] at hrejects
    exact hrejects
  · exact hreads

/-- A piece that is taken is read, all of it, exactly if `b` is true. -/
theorem takes_returns_iff {x : Nat → Parser Ast} {p : Piece} {b : Bool} {s : State}
    (h : ∀ᶠ n in Filter.atTop, Takes (x n) follow p b) (hk : follow k.klass = true)
    (hs : Sees s (p.tokens ++ k :: us)) : Returns x s (k :: us) (IsTree p.tree) ↔ b = true := by
  refine ⟨fun hreturns => ?_, fun hb => .of_reads (h.mono fun n hn => hn.accepts hb k us hk) hs⟩
  by_contra hnot
  obtain ⟨n, hreads, htakes⟩ := (hreturns.and h).exists
  obtain ⟨a, t, hx, ht, -⟩ := wp_returns hreads
  have hmissed := wp_ok (htakes.strays (by simpa using hnot) k us hk s hs) hx
  rw [ht.klass, hk] at hmissed
  cases hmissed

theorem settles_returns_iff {x : Nat → Parser Ast} {p : Piece} {b : Bool} {s : State}
    (h : ∀ᶠ n in Filter.atTop, Settles (x n) follow p b) (hk : follow k.klass = true)
    (hs : Sees s (p.tokens ++ k :: us)) : Returns x s (k :: us) (IsTree p.tree) ↔ b = true :=
  takes_returns_iff (h.mono fun _ hn => hn.takes) hk hs

end Dp4c.Parse
