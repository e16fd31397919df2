import Dp4c.Ast
import Mathlib.Algebra.BigOperators.Group.List.Basic
import Mathlib.Algebra.Group.Prod
import Mathlib.Algebra.GroupWithZero.Nat
import Mathlib.Algebra.Order.Group.Multiset

/-! # The nodes of a tree

The nodes that the attributes of a tree lead to, and what is wrong with them: an attribute
whose tag is not the type of its value, or a node without a kind. Both are added up as a
`Load`, so that the load of a tree is the sum of the loads of its parts. -/
namespace Dp4c

mutual

/-- The nodes of a tree, one for each path to it. -/
def Ast.nodes : Ast → List Ast
  | .null => []
  | .node kind id lineNr attrs => .node kind id lineNr attrs :: attrsNodes attrs

def attrsNodes : List (Attribute Ast) → List Ast
  | [] => []
  | ⟨_, _, value⟩ :: rest => valueNodes value ++ attrsNodes rest

def valueNodes : Value Ast → List Ast
  | .ast a => a.nodes
  | .list links _ => linksNodes links
  | .nullList | .string _ | .int _ | .bool _ | .flags _ | .direction _ | .baseType _
  | .operator _ => []

def linksNodes : List Ast → List Ast
  | [] => []
  | a :: rest => a.nodes ++ linksNodes rest

end

/-- The type of a value is the one of the tag. -/
def AstAttributeType.Tags : AstAttributeType → Value Ast → Bool
  | .ast, .ast _ => true
  | .astList, .nullList => true
  | .astList, .list .. => true
  | .string, .string _ => true
  | .integer, .int _ => true
  | .integer, .bool _ => true
  | .integer, .flags _ => true
  | .integer, .direction _ => true
  | .integer, .baseType _ => true
  | .exprOperator, .operator _ => true
  | _, _ => false

def Attribute.Tagged (e : Attribute Ast) : Prop := e.type.Tags e.value = true

instance (e : Attribute Ast) : Decidable e.Tagged := inferInstanceAs (Decidable (_ = true))

theorem linksNodes_append : ∀ l r : List Ast,
    linksNodes (l ++ r) = linksNodes l ++ linksNodes r
  | [], _ => rfl
  | a :: l, r => by
    rw [List.cons_append, linksNodes, linksNodes, linksNodes_append l r, List.append_assoc]

/-! ## Loads -/

/-- Ids of nodes, and a number of flaws. -/
abbrev Load := Multiset Nat × Nat

/-- The flaws of a node itself. -/
def Ast.flaws (a : Ast) : Nat :=
  a.attrs.countP (fun e => ¬ e.Tagged) + if a.kind = .none then 1 else 0

/-- The load of these nodes. -/
def loadOf (nodes : List Ast) : Load := (nodes.map fun a => ({a.id}, a.flaws)).sum

theorem loadOf_append (l r : List Ast) : loadOf (l ++ r) = loadOf l + loadOf r := by
  unfold loadOf
  rw [List.map_append, List.sum_append]

theorem loadOf_ids : ∀ l : List Ast, (loadOf l).1 = (l.map Ast.id : List Nat)
  | [] => rfl
  | a :: l => by
    have ih := loadOf_ids l
    unfold loadOf at ih ⊢
    rw [List.map_cons, List.sum_cons, Prod.fst_add, ih, List.map_cons, Multiset.singleton_add,
      Multiset.cons_coe]

theorem loadOf_flaws (l : List Ast) : (loadOf l).2 = (l.map Ast.flaws).sum := by
  induction l with
  | nil => rfl
  | cons a l ih =>
    unfold loadOf at ih ⊢
    rw [List.map_cons, List.sum_cons, Prod.snd_add, ih, List.map_cons, List.sum_cons]

/-- What an attribute adds to the load of its node. -/
def Attribute.load (e : Attribute Ast) : Load :=
  (0, if e.Tagged then 0 else 1) + loadOf (valueNodes e.value)

theorem loadOf_attrs (kind : AstKind) (id lineNr : Nat) (attrs : List (Attribute Ast)) :
    loadOf (Ast.nodes (.node kind id lineNr attrs)) =
      ({id}, if kind = .none then 1 else 0) + (attrs.map Attribute.load).sum := by
  have hsum : ∀ attrs : List (Attribute Ast), (attrs.map Attribute.load).sum =
      (0, attrs.countP fun e => ¬ e.Tagged) + loadOf (attrsNodes attrs) := by
    intro attrs
    induction attrs with
    | nil => rfl
    | cons e attrs ih =>
      obtain ⟨attr, type, value⟩ := e
      rw [List.map_cons, List.sum_cons, ih, attrsNodes, loadOf_append, Attribute.load,
        List.countP_cons]
      rw [add_add_add_comm]
      congr 1
      ext
      · rfl
      · by_cases h : (⟨attr, type, value⟩ : Attribute Ast).Tagged <;> simp [h, add_comm]
  rw [hsum, Ast.nodes, loadOf, List.map_cons, List.sum_cons, ← add_assoc]
  congr 1
  ext
  · rfl
  · exact add_comm _ _

end Dp4c
