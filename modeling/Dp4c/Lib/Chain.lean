import Mathlib.Data.List.Nodup
import Mathlib.Logic.Function.Basic

/-! # Null-terminated chains of pointers

A singly linked list in a heap: `next` is the link of a node, `none` the null
pointer. `Chain next p l` says that following the links from `p` visits the
nodes `l` in this order and ends in null. A chain is determined by its head,
visits no node twice, and depends on the links of its own nodes only. -/
namespace Dp4c.Lib

variable {α : Type} {next next' : α → Option α}

/-- Following `next` from `p` visits `l` and ends in null. -/
def Chain (next : α → Option α) : Option α → List α → Prop
  | p, [] => p = none
  | p, a :: l => p = some a ∧ Chain next (next a) l

namespace Chain

@[simp] theorem nil_iff {p : Option α} : Chain next p [] ↔ p = none := Iff.rfl

@[simp] theorem cons_iff {p : Option α} {a : α} {l : List α} :
    Chain next p (a :: l) ↔ p = some a ∧ Chain next (next a) l := Iff.rfl

theorem eq_nil {l : List α} (h : Chain next none l) : l = [] := by
  cases l with
  | nil => rfl
  | cons a l => exact absurd h.1 (by simp)

theorem eq_cons {a : α} {l : List α} (h : Chain next (some a) l) :
    ∃ l', l = a :: l' ∧ Chain next (next a) l' := by
  cases l with
  | nil => exact absurd h (by simp)
  | cons b l =>
    obtain ⟨hb, hl⟩ := h
    obtain rfl : a = b := Option.some.inj hb
    exact ⟨l, rfl, hl⟩

theorem unique {p : Option α} {l l' : List α} (h : Chain next p l) (h' : Chain next p l') :
    l = l' := by
  induction l generalizing p l' with
  | nil => rw [nil_iff.mp h] at h'; exact h'.eq_nil.symm
  | cons a l ih =>
    rw [h.1] at h'
    obtain ⟨l'', rfl, hl''⟩ := h'.eq_cons
    rw [ih h.2 hl'']

/-- The rest of a chain from one of its nodes. -/
theorem drop {p : Option α} {l₁ l₂ : List α} {a : α} (h : Chain next p (l₁ ++ a :: l₂)) :
    Chain next (next a) l₂ := by
  induction l₁ generalizing p with
  | nil => exact h.2
  | cons b l₁ ih => exact ih h.2

/-- A chain visits no node twice: the rests from two visits would have equal
lengths. -/
theorem nodup {p : Option α} {l : List α} (h : Chain next p l) : l.Nodup := by
  induction l generalizing p with
  | nil => exact List.nodup_nil
  | cons a l ih =>
    refine List.nodup_cons.mpr ⟨fun ha => ?_, ih h.2⟩
    obtain ⟨l₁, l₂, rfl⟩ := List.append_of_mem ha
    have hlen := congrArg List.length (h.2.unique h.2.drop)
    simp at hlen
    omega

/-- A chain depends on the links of its nodes only. -/
theorem congr {p : Option α} {l : List α} (h : Chain next p l)
    (hn : ∀ a ∈ l, next' a = next a) : Chain next' p l := by
  induction l generalizing p with
  | nil => exact h
  | cons a l ih =>
    refine ⟨h.1, ?_⟩
    rw [hn a (by simp)]
    exact ih h.2 fun b hb => hn b (List.mem_cons_of_mem _ hb)

/-- Linking node `a` of a chain to another chain cuts the old rest off. -/
theorem relink {p : Option α} {l₁ l₂ l₃ : List α} {a : α} (h : Chain next p (l₁ ++ a :: l₂))
    (hn : ∀ b ∈ l₁, next' b = next b) (ha : Chain next' (next' a) l₃) :
    Chain next' p (l₁ ++ a :: l₃) := by
  induction l₁ generalizing p with
  | nil => exact ⟨h.1, ha⟩
  | cons b l₁ ih =>
    refine ⟨h.1, ?_⟩
    rw [hn b (by simp)]
    exact ih h.2 fun c hc => hn c (List.mem_cons_of_mem _ hc)

theorem update_of_notMem [DecidableEq α] {p : Option α} {l : List α} {a : α} {q : Option α}
    (h : Chain next p l) (ha : a ∉ l) : Chain (Function.update next a q) p l :=
  h.congr fun b hb => by
    have hne : b ≠ a := fun e => ha (e ▸ hb)
    rw [Function.update_of_ne hne]

/-- A node outside a chain, linked to its head, extends it. -/
theorem push [DecidableEq α] {p : Option α} {l : List α} {a : α}
    (h : Chain next p l) (ha : a ∉ l) : Chain (Function.update next a p) (some a) (a :: l) :=
  ⟨rfl, by rw [Function.update_self]; exact h.update_of_notMem ha⟩

end Chain

end Dp4c.Lib
