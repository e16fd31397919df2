import Dp4c.Parse.Precedence

/-! # How operators are grouped

A chain of atoms and binary operators comes out grouped by `get_operator_priority`, which
has fewer levels than the language. A prefix operator or a cast takes the whole rest of
the expression for its operand. -/
namespace Dp4c.Parse

open Dp4c.Lib Dp4c.Lib.Prog Filter

/-! ## Groupings -/

abbrev Atom := { t : Tok // isAtom t.klass = true }

/-- A way to group a chain of operators. -/
inductive Grouping where
  | atom (t : Atom)
  | node (op : Binop) (left right : Grouping)

namespace Grouping

def expr : Grouping → Expr
  | atom t => .atom t
  | node op l r => .binary op l.expr r.expr

/-- The tokens, with no parentheses. -/
def tokens (text : TokenClass → Cstr) : Grouping → List Tok
  | atom t => [t]
  | node op l r => l.tokens text ++ punct text op :: r.tokens text

def ops : Grouping → List Binop
  | atom _ => []
  | node op l r => l.ops ++ op :: r.ops

/-- The operator at the root. -/
def root : Grouping → Option Binop
  | atom _ => none
  | node op _ _ => some op

def tree : Grouping → Ast
  | atom t => atomTree t
  | node op l r => binaryTree op l.tree r.tree

/-- Every operator has operators of at least its rank at the root of its left operand, and
of a higher one at that of the right. -/
def ByRank (rank : Binop → Nat) : Grouping → Prop
  | atom _ => True
  | node op l r => (∀ o ∈ l.root, rank op ≤ rank o) ∧ (∀ o ∈ r.root, rank op < rank o) ∧
      l.ByRank rank ∧ r.ByRank rank

instance decidableByRank (rank : Binop → Nat) : ∀ g : Grouping, Decidable (g.ByRank rank)
  | atom _ => isTrue trivial
  | node op l r =>
    have := decidableByRank rank l
    have := decidableByRank rank r
    inferInstanceAs (Decidable ((∀ o ∈ l.root, rank op ≤ rank o) ∧
      (∀ o ∈ r.root, rank op < rank o) ∧
      l.ByRank rank ∧ r.ByRank rank))

variable {text : TokenClass → Cstr} {rank : Binop → Nat} {op : Binop} {t : Atom} {g l r : Grouping}

theorem expr_tree (text : TokenClass → Cstr) : ∀ g : Grouping, (g.expr.piece text).tree = g.tree
  | atom _ => rfl
  | node op l r => by
    show binaryTree op (l.expr.piece text).tree (r.expr.piece text).tree = _
    rw [expr_tree text l, expr_tree text r, tree]

theorem expr_plain : ∀ g : Grouping, g.expr.plain = true
  | atom _ => rfl
  | node op l r => by
    show (l.expr.plain && r.expr.plain) = true
    rw [expr_plain l, expr_plain r]
    rfl

theorem expr_level (g : Grouping) : (∀ op ∈ g.root, g.expr.level = op.priority) ∧
    (g.root = none → g.expr.level = 6) := by
  cases g with
  | atom t => exact ⟨fun _ h => (nomatch h), fun _ => rfl⟩
  | node op l r => exact ⟨fun o ho => by obtain rfl := Option.some.inj ho; rfl, fun h => nomatch h⟩

/-- A grouping by the priorities is printed without parentheses. -/
theorem expr_tokens (text : TokenClass → Cstr) : ∀ {g : Grouping}, g.ByRank Binop.priority →
    (g.expr.piece text).tokens = g.tokens text
  | atom _, _ => rfl
  | node op l r, ⟨hleft, hright, hl, hr⟩ => by
    have hop := op.priority_range
    have hlevel : ∀ (g : Grouping) (m : Nat), m ≤ 6 → (∀ o ∈ g.root, m ≤ o.priority) →
        ¬ g.expr.level < m := fun g m hm hroot => by
      obtain ⟨hsome, hnone⟩ := g.expr_level
      cases hg : g.root with
      | none => rw [hnone hg]; omega
      | some o => rw [hsome o hg]; have := hroot o hg; omega
    show wrap text (l.expr.level < op.priority) (l.expr.piece text).tokens ++ punct text op ::
      wrap text (r.expr.level < op.priority + 1) (r.expr.piece text).tokens = _
    rw [decide_eq_false (hlevel l _ (by omega) hleft),
      decide_eq_false (hlevel r _ (by omega) hright),
      wrap, wrap, if_neg Bool.noConfusion, if_neg Bool.noConfusion, expr_tokens text hl,
      expr_tokens text hr, tokens]

/-- One more operator and atom behind a grouping. -/
def push (op : Binop) (t : Atom) : Grouping → Grouping
  | atom t' => node op (atom t') (atom t)
  | node o l r =>
    if o.priority < op.priority then node o l (push op t r) else node op (node o l r) (atom t)

theorem push_tokens (op : Binop) (t : Atom) : ∀ g : Grouping,
    (push op t g).tokens text = g.tokens text ++ [punct text op, t.val]
  | atom _ => rfl
  | node o l r => by
    unfold push
    split
    · rw [tokens, push_tokens op t r, tokens, List.append_assoc, List.cons_append]
    · rfl

theorem push_ops (op : Binop) (t : Atom) : ∀ g : Grouping, (push op t g).ops = g.ops ++ [op]
  | atom _ => rfl
  | node o l r => by
    unfold push
    split
    · rw [ops, push_ops op t r, ops, List.append_assoc, List.cons_append]
    · rfl

/-- The new operator comes to the root, or the old one stays there and is lower. -/
theorem push_root (op : Binop) (t : Atom) (g : Grouping) : (push op t g).root = some op ∨
    ∃ o, g.root = some o ∧ (push op t g).root = some o ∧ o.priority < op.priority := by
  cases g with
  | atom _ => exact .inl rfl
  | node o l r =>
    unfold push
    split
    · exact .inr ⟨o, rfl, rfl, ‹_›⟩
    · exact .inl rfl

theorem push_byRank (op : Binop) (t : Atom) : ∀ {g : Grouping}, g.ByRank Binop.priority →
    (push op t g).ByRank Binop.priority
  | atom _, _ => ⟨fun _ h => (nomatch h), fun _ h => (nomatch h), trivial, trivial⟩
  | node o l r, ⟨hleft, hright, hl, hr⟩ => by
    unfold push
    split
    · rename_i hlt
      refine ⟨hleft, fun o' ho' => ?_, hl, push_byRank op t hr⟩
      rcases push_root op t r with hroot | ⟨o'', hr'', hroot, _⟩
      · rw [hroot, Option.mem_def, Option.some.injEq] at ho'
        exact ho' ▸ hlt
      · rw [hroot, Option.mem_def, Option.some.injEq] at ho'
        exact ho' ▸ hright o'' hr''
    · rename_i hge
      refine ⟨fun o' ho' => ?_, fun _ h => (nomatch h), ⟨hleft, hright, hl, hr⟩, trivial⟩
      obtain rfl := Option.some.inj ho'
      omega

/-- A chain grouped by the priorities. -/
def group (first : Atom) (rest : List (Binop × Atom)) : Grouping :=
  rest.foldl (fun g p => push p.1 p.2 g) (atom first)

/-- The tokens of a chain. -/
def chainTokens (text : TokenClass → Cstr) (first : Atom) (rest : List (Binop × Atom)) : List Tok :=
  first.val :: rest.flatMap fun p => [punct text p.1, p.2.val]

theorem group_spec (text : TokenClass → Cstr) (first : Atom) (rest : List (Binop × Atom)) :
    (group first rest).tokens text = chainTokens text first rest ∧
      (group first rest).ops = rest.map Prod.fst ∧ (group first rest).ByRank Binop.priority := by
  have hfold : ∀ (rest : List (Binop × Atom)) (g : Grouping), g.ByRank Binop.priority →
      (rest.foldl (fun g p => push p.1 p.2 g) g).tokens text =
        g.tokens text ++ rest.flatMap (fun p => [punct text p.1, p.2.val]) ∧
      (rest.foldl (fun g p => push p.1 p.2 g) g).ops = g.ops ++ rest.map Prod.fst ∧
      (rest.foldl (fun g p => push p.1 p.2 g) g).ByRank Binop.priority := by
    intro rest
    induction rest with
    | nil => exact fun g hg => ⟨by simp, by simp, hg⟩
    | cons p rest ih =>
      intro g hg
      obtain ⟨htokens, hops, hrank⟩ := ih _ (push_byRank p.1 p.2 hg)
      refine ⟨?_, ?_, hrank⟩
      · rw [List.foldl_cons, htokens, push_tokens, List.flatMap_cons, List.append_assoc]
      · rw [List.foldl_cons, hops, push_ops, List.map_cons, List.append_assoc,
          List.singleton_append]
  exact hfold rest (atom first) trivial

/-! ## Two rankings -/

/-- Everywhere in a grouping by rank the operators have at least the rank of the root. -/
theorem ByRank.root_le (h : g.ByRank rank) : ∀ o ∈ g.root, ∀ o' ∈ g.ops, rank o ≤ rank o' := by
  induction g with
  | atom t => exact fun _ ho => nomatch ho
  | node op l r ihl ihr =>
    obtain ⟨hleft, hright, hl, hr⟩ := h
    -- an operator on one side is at least as high as the root there
    have hside : ∀ {g : Grouping}, (∀ o ∈ g.root, ∀ o' ∈ g.ops, rank o ≤ rank o') →
        (∀ o ∈ g.root, rank op ≤ rank o) → ∀ o' ∈ g.ops, rank op ≤ rank o' := by
      intro g ih hroot o' hmem
      cases g with
      | atom t => cases hmem
      | node o l' r' => exact Nat.le_trans (hroot o rfl) (ih o rfl o' hmem)
    intro o ho o' ho'
    obtain rfl := Option.some.inj ho
    rcases List.mem_append.mp ho' with hmem | hmem
    · exact hside (ihl hl) hleft o' hmem
    · rcases List.mem_cons.mp hmem with rfl | hmem
      · exact Nat.le_refl _
      · exact hside (ihr hr) (fun o ho => Nat.le_of_lt (hright o ho)) o' hmem

/-- On the right of the root they have a higher rank. -/
theorem ByRank.right_lt (h : (node op l r).ByRank rank) : ∀ o ∈ r.ops, rank op < rank o := by
  obtain ⟨_, hright, _, hr⟩ := h
  intro o ho
  cases r with
  | atom t => cases ho
  | node o' l' r' => exact Nat.lt_of_lt_of_le (hright o' rfl) (hr.root_le o' rfl o ho)

theorem ByRank.left_le (h : (node op l r).ByRank rank) :
    ∀ o ∈ l.ops, rank op ≤ rank o := fun o ho =>
  h.root_le op rfl o (List.mem_append_left _ ho)

/-- The two rankings agree on all operators with only operators of a higher priority than the
first between them. -/
def Agrees (rank : Binop → Nat) (ops : List Binop) : Prop :=
  ∀ before i between j after, ops = before ++ i :: (between ++ j :: after) →
    (∀ k ∈ between, i.priority < k.priority) → (i.priority < j.priority ↔ rank i < rank j)

/-- Where two operators of a list stand that is cut in two at `o`. -/
theorem positions {before between after left right : List Binop} {i j o : Binop}
    (h : left ++ o :: right = before ++ i :: (between ++ j :: after)) :
    (∃ rest, left = before ++ i :: (between ++ j :: rest)) ∨
    (left = before ++ i :: between ∧ o = j) ∨
    (i ∈ left ∧ o ∈ between) ∨
    (i = o ∧ right = between ++ j :: after) ∨
    ∃ rest, right = rest ++ i :: (between ++ j :: after) := by
  rcases List.append_eq_append_iff.mp h with ⟨d, hbefore, hright⟩ | ⟨d, hleft, hi⟩
  · -- the cut is before `i` or at it
    cases d with
    | nil =>
      obtain ⟨rfl, htail⟩ := List.cons.inj hright
      exact .inr (.inr (.inr (.inl ⟨rfl, htail⟩)))
    | cons o' d =>
      obtain ⟨rfl, htail⟩ := List.cons.inj hright
      exact .inr (.inr (.inr (.inr ⟨d, htail⟩)))
  · cases d with
    | nil =>
      obtain ⟨rfl, hright⟩ := List.cons.inj hi
      exact .inr (.inr (.inr (.inl ⟨rfl, hright.symm⟩)))
    | cons i' d =>
      obtain ⟨rfl, hrest⟩ := List.cons.inj hi
      rcases List.append_eq_append_iff.mp hrest with ⟨c, hd, hright⟩ | ⟨c, hbetween, hj⟩
      · cases c with
        | nil =>
          obtain ⟨rfl, -⟩ := List.cons.inj hright
          rw [List.append_nil] at hd
          exact .inr (.inl ⟨hd ▸ hleft, rfl⟩)
        | cons j' c =>
          obtain ⟨rfl, hright⟩ := List.cons.inj hright
          exact .inl ⟨c, by rw [hleft, hd]⟩
      · cases c with
        | nil =>
          obtain ⟨rfl, -⟩ := List.cons.inj hj
          rw [List.append_nil] at hbetween
          exact .inr (.inl ⟨hbetween ▸ hleft, rfl⟩)
        | cons o' c =>
          obtain ⟨rfl, -⟩ := List.cons.inj hj
          exact .inr (.inr (.inl ⟨hleft ▸ by simp, hbetween ▸ by simp⟩))

/-- A grouping by the priorities is one by another rank just if the two agree. -/
theorem byRank_iff (h : g.ByRank Binop.priority) : g.ByRank rank ↔ Agrees rank g.ops := by
  induction g with
  | atom t =>
    refine iff_of_true trivial fun before i between j after heq => ?_
    exact absurd (congrArg List.length heq) (by simp [ops])
  | node o l r ihl ihr =>
    have hpriority := h
    obtain ⟨hleft, hright, hl, hr⟩ := h
    have ihl := ihl hl
    have ihr := ihr hr
    constructor
    · intro hrank before i between j after heq hbetween
      have hsides := hrank
      obtain ⟨_, _, hrankl, hrankr⟩ := hsides
      rcases positions heq with ⟨rest, hl⟩ | ⟨hl, rfl⟩ | ⟨hi, ho⟩ | ⟨rfl, hr⟩ | ⟨rest, hr⟩
      · exact ihl.mp hrankl before i between j rest hl hbetween
      · -- both rank the root lowest
        have hi : i ∈ l.ops := by rw [hl]; simp
        have := hpriority.left_le i hi
        have := hrank.left_le i hi
        omega
      · have := hpriority.left_le i hi
        have := hbetween o ho
        omega
      · have hj : j ∈ r.ops := by rw [hr]; simp
        exact iff_of_true (hpriority.right_lt j hj) (hrank.right_lt j hj)
      · exact ihr.mp hrankr rest i between j after hr hbetween
    · intro hagrees
      have hrankl : l.ByRank rank := ihl.mpr fun before i between j after heq =>
        hagrees before i between j (after ++ o :: r.ops) (by simp [ops, heq])
      have hrankr : r.ByRank rank := ihr.mpr fun before i between j after heq =>
        hagrees (l.ops ++ o :: before) i between j after (by simp [ops, heq])
      refine ⟨fun i hi => ?_, fun j hj => ?_, hrankl, hrankr⟩
      · cases l with
        | atom t => cases hi
        | node i' l' r' =>
          obtain rfl := Option.some.inj hi
          have hpair := hagrees l'.ops i' r'.ops o r.ops (by simp [ops]) fun k hk =>
              hl.right_lt k hk
          have := hleft i' rfl
          omega
      · cases r with
        | atom t => cases hj
        | node j' l' r' =>
          obtain rfl := Option.some.inj hj
          -- everything between the root and that of the right side is higher
          refine (hagrees l.ops o l'.ops j' r'.ops (by simp [ops]) fun k hk => ?_).mp
            (hright j' rfl)
          exact hpriority.right_lt k (List.mem_append_left _ hk)

/-! ## The precedence of the language -/

/-- The levels of P4-16, with the rank that `&&&`, which is not among them, is given. -/
def p4Rank (mask : Nat) (op : Binop) : Nat :=
  match op.val with
  | .star | .slash => 20
  | .plus | .minus => 18
  | .twoAngleOpen | .twoAngleClose => 16
  | .angleOpen | .angleClose | .angleOpenEqual | .angleCloseEqual => 14
  | .twoEqual | .exclamationEqual => 12
  | .ampersand => 10
  | .circumflex => 8
  | .pipe => 6
  | .twoAmpersand => 4
  | .twoPipe => 2
  | _ => mask

/-- The other way round than `token_to_binop`. -/
def binopToken : AstExprOperator → TokenClass
  | .and => .twoAmpersand
  | .or => .twoPipe
  | .equal => .twoEqual
  | .notEqual => .exclamationEqual
  | .less => .angleOpen
  | .greater => .angleClose
  | .lessEqual => .angleOpenEqual
  | .greaterEqual => .angleCloseEqual
  | .add => .plus
  | .sub => .minus
  | .mul => .star
  | .div => .slash
  | .bitAnd => .ampersand
  | .bitOr => .pipe
  | .bitXor => .circumflex
  | .bitShiftLeft => .twoAngleOpen
  | .bitShiftRight => .twoAngleClose
  | .mask => .threeAmpersand
  | _ => .none

theorem binop_injective {op op' : Binop} (h : tokenToBinop op = tokenToBinop op') : op = op' := by
  have hinverse : ∀ k, (getOperatorPriority k).isSome = true → binopToken (tokenToBinop k) = k := by
    decide
  exact Subtype.ext ((hinverse _ op.2).symm.trans
    ((congrArg binopToken h).trans (hinverse _ op'.2)))

theorem atomTree_kind (t : Tok) : (atomTree t).kind ≠ .binaryExpr := by
  unfold atomTree
  split <;> exact fun h => nomatch h

/-- The tree shows how the operators are grouped. -/
theorem byRank_of_tree : ∀ {g g' : Grouping}, g.tree = g'.tree → g.ByRank rank → g'.ByRank rank
  | _, atom _, _, _ => trivial
  | atom t, node _ _ _, h, _ => absurd (congrArg Ast.kind h) (atomTree_kind t.val)
  | node op l r, node op' l' r', h, ⟨hleft, hright, hl, hr⟩ => by
    obtain ⟨hlt, hop, hrt⟩ : l.tree = l'.tree ∧ tokenToBinop op = tokenToBinop op' ∧
        r.tree = r'.tree := by
      unfold tree binaryTree at h
      simpa using h
    obtain rfl := binop_injective hop
    have hroot : ∀ {g g' : Grouping}, g.tree = g'.tree → g'.root = g.root := by
      intro g g' hg
      cases g with
      | atom t =>
        cases g' with
        | atom t' => rfl
        | node => exact absurd (congrArg Ast.kind hg) (atomTree_kind t.val)
      | node o a b =>
        cases g' with
        | atom t' => exact absurd (congrArg Ast.kind hg).symm (atomTree_kind t'.val)
        | node o' a' b' =>
          have ho : tokenToBinop o = tokenToBinop o' := by
            unfold tree binaryTree at hg
            simp at hg
            exact hg.2.1
          rw [binop_injective ho]
          rfl
    exact ⟨hroot hlt ▸ hleft, hroot hrt ▸ hright, byRank_of_tree hlt hl, byRank_of_tree hrt hr⟩

/-- What the parser makes of a chain. -/
theorem chain_read (text : TokenClass → Cstr) (first : Atom) (rest : List (Binop × Atom)) {k : Tok}
    (us : List Tok) (hk : tokenIsExprOperator k.klass = false) : ∀ᶠ n in atTop,
    Reads (buildExpression (forward n) 1) (chainTokens text first rest ++ k :: us) (k :: us)
      (IsTree (group first rest).tree) := by
  obtain ⟨htokens, -, hrank⟩ := group_spec text first rest
  filter_upwards [expression_parsed text (group first rest).expr] with n hn
  have hreads := hn.reads us (n := n + 1) (expr_plain _) hk
  rwa [expr_tokens text hrank, htokens, expr_tree] at hreads

/-- A grouping of this very chain by the levels of P4-16. -/
def GroupedByRank (text : TokenClass → Cstr) (mask : Nat) (first : Atom)
    (rest : List (Binop × Atom)) (a : Ast) : Prop :=
  ∃ g : Grouping, g.tokens text = chainTokens text first rest ∧ IsTree g.tree a ∧
    g.ByRank (p4Rank mask)

/-- **A chain is grouped as the language says** exactly if its operators are ranked alike. -/
theorem chain_grouped_iff (text : TokenClass → Cstr) (mask : Nat) (first : Atom)
    (rest : List (Binop × Atom)) {k : Tok} (us : List Tok) {s : State}
    (hk : tokenIsExprOperator k.klass = false)
    (hs : Sees s (chainTokens text first rest ++ k :: us)) :
    Returns (fun n => buildExpression (forward n) 1) s (k :: us)
      (GroupedByRank text mask first rest) ↔
      Agrees (p4Rank mask) (rest.map Prod.fst) := by
  obtain ⟨htokens, hops, hrank⟩ := group_spec text first rest
  have hread := chain_read text first rest us hk
  rw [← hops, ← byRank_iff hrank]
  constructor
  · intro hreturns
    obtain ⟨n, hgrouped, hn⟩ := (hreturns.and hread).exists
    obtain ⟨a, t, ha, -, htree⟩ := wp_returns (hn s hs)
    obtain ⟨-, g, -, hg, hbyRank⟩ := wp_ok hgrouped ha
    exact byRank_of_tree (hg.symm.trans htree) hbyRank
  · exact fun hbyRank =>
      .of_reads (hread.mono fun n hn => hn.imp fun a ha => ⟨_, htokens, ha, hbyRank⟩) hs

/-- A name. -/
def someName : Atom := ⟨{ klass := .identifier }, isAtom_identifier⟩

/-- `a + b * c`, with the operators ranked alike. -/
theorem chain_grouped_one : Returns (fun n => buildExpression (forward n) 1)
    (stateAt (chainTokens noText someName [(⟨.plus, rfl⟩, someName), (⟨.star, rfl⟩, someName)] ++
      [punct noText .semicolon])) [punct noText .semicolon]
    (GroupedByRank noText 0 someName [(⟨.plus, rfl⟩, someName), (⟨.star, rfl⟩, someName)]) :=
  (chain_grouped_iff noText 0 someName _ [] rfl (sees_stateAt (by decide))).mpr <|
    (byRank_iff (g := .node ⟨.plus, rfl⟩ (.atom someName)
      (.node ⟨.star, rfl⟩ (.atom someName) (.atom someName))) (by decide)).mp (by decide)

/-- `a || b && c`: the parser has the two operators on one level. -/
theorem chain_grouped_fails : ¬ Returns (fun n => buildExpression (forward n) 1)
    (stateAt (chainTokens noText someName
      [(⟨.twoPipe, rfl⟩, someName), (⟨.twoAmpersand, rfl⟩, someName)] ++ [punct noText .semicolon]))
    [punct noText .semicolon]
    (GroupedByRank noText 0 someName
      [(⟨.twoPipe, rfl⟩, someName), (⟨.twoAmpersand, rfl⟩, someName)]) := fun hreturns => by
  have hread := chain_read (k := punct noText .semicolon) noText someName
    [(⟨.twoPipe, rfl⟩, someName), (⟨.twoAmpersand, rfl⟩, someName)] [] rfl
  obtain ⟨n, hgrouped, hn⟩ := (hreturns.and hread).exists
  obtain ⟨a, t, ha, -, htree⟩ := wp_returns (hn _ (sees_stateAt (by decide)))
  obtain ⟨-, g, -, hg, hbyRank⟩ := wp_ok hgrouped ha
  exact absurd (byRank_of_tree (hg.symm.trans htree) hbyRank) (by decide)

end Grouping

/-! ## Prefixes -/

/-- `!`, `~`, unary minus or a cast. -/
inductive PrefixForm where
  | operator (op : PrefixOp)
  | cast (type : TypeRef)

def PrefixForm.tokens (text : TokenClass → Cstr) : PrefixForm → List Tok
  | .operator op => [punct text op]
  | .cast type => parens text (type.piece text).tokens

/-- The node over an operand. -/
def PrefixForm.tree (text : TokenClass → Cstr) : PrefixForm → Ast → Ast
  | .operator op, e => unaryTree op.operator e
  | .cast type, e => castTree (type.piece text).tree e

variable {text : TokenClass → Cstr} {n threshold : Nat} {ts us : List Tok} {a : Ast} {s : State}

theorem kind_erase (a : Ast) : a.erase.kind = a.kind := by cases a <;> rfl

theorem IsTree.kind {tree : Ast} (h : IsTree tree a) : a.kind = tree.kind := by
  rw [← kind_erase, h]

theorem astSetattr_kind {attr : AttrName} {type : AstAttributeType} {v : Value Ast} (s : State) :
    wp (astSetattr a attr type v) s (fun b t => b.kind = a.kind ∧ t = s) fun _ => True := by
  unfold astSetattr
  split
  · trivial
  · rw [wp_ite]
    split
    · exact ⟨rfl, rfl⟩
    · trivial

/-- A node over a whole expression, with no operator behind it. -/
def Covers (b : Ast) (t : State) : Prop := b.kind ≠ .binaryExpr ∧ EndsAt 1 b t

theorem covers_operand (ha : a.kind ≠ .binaryExpr) (n : Nat) (s : State) :
    wp (do astSetattr a .expr .ast (.ast (← (forward n).expression 1))) s Covers fun _ => True := by
  rw [wp_bind]
  refine wp_mono (forward_expression_ends n 1 s) (fun e t ht => ?_) fun _ he => he
  exact wp_mono (astSetattr_kind t) (fun b u ⟨hb, hu⟩ => ⟨hb ▸ ha, hu ▸ ht⟩) fun _ he => he

/-- The operand of a prefix is all of the expression behind it. -/
theorem buildExpressionPrimary_ofForm (text : TokenClass → Cstr) (form : PrefixForm)
    (hne : ts ≠ []) :
    Reading (buildExpressionPrimary (forward n)) (form.tokens text ++ ts) Covers fun _ => True := by
  cases form with
  | operator op =>
    refine buildExpressionPrimary_unary (.nextTo hne (.node fun a ha => ?_))
    refine .set ha rfl rfl fun b hb => fun s _ => covers_operand ?_ n s
    rw [IsTree.kind hb]
    exact fun h => nomatch h
  | cast type =>
    obtain ⟨t, us, htokens, ht⟩ := type.starts text
    show Reading _ (parens text (type.piece text).tokens ++ ts) _ _
    rw [parens_append]
    refine buildExpressionPrimary_parenthesis (.nextTo (by simp) ?_)
    rw [htokens]
    refine .ifPos ht (.node fun a ha => fun s _ => ends_bind (fun type t => ?_) s)
    rw [wp_bind]
    refine wp_mono (astSetattr_kind t) (fun b u ⟨hb, _⟩ => ?_) fun _ he => he
    refine ends_bind (fun _ v => covers_operand ?_ n v) u
    rw [hb, IsTree.kind ha]
    decide

theorem buildExpression_ofForm (text : TokenClass → Cstr) (form : PrefixForm) (hne : ts ≠ [])
    (hs : Sees s (form.tokens text ++ ts)) :
    wp (buildExpression (forward n) threshold) s (fun a _ => a.kind ≠ .binaryExpr)
        fun _ => True := by
  have hrest : ∀ fuel a t, Covers a t → wp (operatorLoop (forward n) threshold fuel a) t
      (fun a _ => a.kind ≠ .binaryExpr) fun _ => True := by
    intro fuel a t ⟨ha, hends⟩
    have hno : tokenIsExprOperator t.token.klass = false := by
      rcases hends with h | ⟨p, hp, hlt⟩
      · exact h
      · have := (Binop.priority_range ⟨t.token.klass, by rw [hp]; rfl⟩).1
        rw [Binop.priority] at this
        simp only [hp, Option.get_some] at this
        omega
    cases fuel with
    | zero => trivial
    | succ fuel =>
      unfold operatorLoop
      exact (wp_congr (ifToken_neg hno)).mpr ha
  have hstart : ∃ t us, form.tokens text ++ ts = t :: us ∧ tokenIsExpression t.klass = true := by
    cases form with
    | operator op => exact ⟨_, _, rfl, op.starts.1⟩
    | cast type => exact ⟨_, _, rfl, rfl⟩
  have hprimary := buildExpressionPrimary_ofForm text (n := n) form hne
  obtain ⟨t, us, htokens, ht⟩ := hstart
  rw [htokens] at hs hprimary
  refine Reading.require ht (fun s hs => ?_) s hs
  rw [wp_bind]
  exact wp_mono (hprimary s hs) (fun a t hat => hrest _ a t hat) fun _ he => he

/-- **A prefix never binds tighter than a binary operator**: wherever an expression starts with
a prefix form, what comes out is no binary expression with that form over `e` on its left,
whatever stands behind the operator. -/
theorem prefix_never_left (text : TokenClass → Cstr) (form : PrefixForm) (e : Expr) (op : Binop)
    (threshold : Nat) {r us : List Tok} {s : State}
    (hs : Sees s (form.tokens text ++ ((e.piece text).tokens ++ punct text op :: r))) :
    ¬ Returns (fun n => buildExpression (forward n) threshold) s us
      fun a => ∃ right, IsTree (binaryTree op (form.tree text (e.piece text).tree) right) a := by
  intro hreturns
  obtain ⟨n, hn⟩ := hreturns.exists
  obtain ⟨a, t, ha, -, right, htree⟩ := wp_returns hn
  exact wp_ok (buildExpression_ofForm _ form (by simp) hs) ha htree.kind

/-- `(t) a == b` -/
theorem prefix_never_left_one : ¬ Returns (fun n => buildExpression (forward n) 1)
    (stateAt [punct noText .parenthOpen, { klass := .typeIdentifier }, punct noText .parenthClose,
      { klass := .identifier }, punct noText .twoEqual, { klass := .identifier },
      punct noText .semicolon]) [punct noText .semicolon]
    fun a => ∃ right, IsTree (binaryTree .twoEqual ((PrefixForm.cast
      (.name ⟨false, { klass := .typeIdentifier }, rfl⟩)).tree
        noText (atomTree { klass := .identifier }))
      right) a :=
  @prefix_never_left noText (.cast (.name ⟨false, { klass := .typeIdentifier }, rfl⟩))
    (.atom ⟨{ klass := .identifier }, rfl⟩) ⟨.twoEqual, rfl⟩ 1
    [{ klass := .identifier }, punct noText .semicolon] _ _ (sees_stateAt (by decide))

/-- `-a + b` -/
theorem prefix_left_fails : ¬ Returns (fun n => buildExpression (forward n) 1)
    (stateAt [punct noText .unaryMinus, { klass := .identifier }, punct noText .plus,
      { klass := .identifier }, punct noText .semicolon]) [punct noText .semicolon]
    (IsTree (binaryTree .plus (unaryTree .minus (atomTree { klass := .identifier }))
      (atomTree { klass := .identifier }))) := fun hreturns => by
  obtain ⟨n, hn⟩ := hreturns.exists
  obtain ⟨a, t, ha, -, htree⟩ := wp_returns hn
  exact wp_ok (buildExpression_ofForm noText (.operator ⟨.unaryMinus, rfl⟩) (by simp)
    (sees_stateAt (by decide))) ha htree.kind

end Dp4c.Parse
