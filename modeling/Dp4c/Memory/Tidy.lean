import Dp4c.Memory.Coalesce
import Mathlib.Data.List.Forall2
import Mathlib.Data.List.Pairwise

/-! # Ordered lists of address ranges

`block_insert_and_coalesce` takes the first block that begins at or below the
new one for its left neighbour. In a list in order that is the first block of
the list or none, so the new block gets its place where at most one block
begins at or below it, and touches all it should where no block begins
inside it (`Fits`). -/
namespace Dp4c.Memory

open Block

/-- In order, and no two blocks touch: each ends below the begin of those behind it. -/
def Tidy (l : List Block) : Prop := l.Pairwise fun b c => b.hi < c.lo

/-- The same blocks, with a part taken off the front of some. -/
def Cut (l l' : List Block) : Prop := List.Forall₂ (fun b b' => b.lo ≤ b'.lo ∧ b'.hi = b.hi) l l'

theorem Cut.refl (l : List Block) : Cut l l := List.forall₂_same.mpr fun _ _ => ⟨Nat.le_refl _, rfl⟩

theorem Cut.trans {l l' l'' : List Block} (h : Cut l l') (h' : Cut l' l'') : Cut l l'' := by
  induction h generalizing l'' with
  | nil => exact h'
  | cons hb _ ih =>
    cases h' with
    | cons hb' htail => exact .cons ⟨Nat.le_trans hb.1 hb'.1, hb'.2.trans hb.2⟩ (ih htail)

/-- A block of the cut list comes from one that begins no higher. -/
theorem Cut.mem {l l' : List Block} (h : Cut l l') {b' : Block} (hb' : b' ∈ l') :
    ∃ b ∈ l, b.lo ≤ b'.lo ∧ b'.hi = b.hi := by
  induction h with
  | nil => cases hb'
  | @cons b c l l' hb _ ih =>
    rcases List.mem_cons.mp hb' with rfl | hb'
    · exact ⟨b, List.mem_cons_self, hb⟩
    · obtain ⟨d, hd, hbounds⟩ := ih hb'
      exact ⟨d, List.mem_cons_of_mem _ hd, hbounds⟩

theorem Tidy.cut {l l' : List Block} (h : Tidy l) (hcut : Cut l l') : Tidy l' := by
  unfold Tidy at h ⊢
  induction hcut with
  | nil => exact .nil
  | cons hb htail ih =>
    obtain ⟨hhead, hrest⟩ := List.pairwise_cons.mp h
    refine List.pairwise_cons.mpr ⟨fun c' hc' => ?_, ih hrest⟩
    obtain ⟨c, hc, hlo, -⟩ := Cut.mem htail hc'
    have hlt := hhead c hc
    rw [hb.2]
    exact Nat.lt_of_lt_of_le hlt hlo

/-! ## Insertions in order -/

/-- At most one block begins at or below the new one, none begins inside it, and it begins
inside none. -/
structure Fits (l : List Block) (new : Block) : Prop where
  below : l.countP (·.lo ≤ new.lo) ≤ 1
  inside : ∀ b ∈ l, new.lo < b.lo → new.hi ≤ b.lo
  off : ∀ b ∈ l, b.lo ≤ new.lo → b.hi ≤ new.lo

instance (l : List Block) (new : Block) : Decidable (Fits l new) :=
  decidable_of_iff (l.countP (·.lo ≤ new.lo) ≤ 1 ∧ (∀ b ∈ l, new.lo < b.lo → new.hi ≤ b.lo) ∧
      ∀ b ∈ l, b.lo ≤ new.lo → b.hi ≤ new.lo)
    ⟨fun h => ⟨h.1, h.2.1, h.2.2⟩, fun h => ⟨h.below, h.inside, h.off⟩⟩

theorem stitchFront_tidy {new : Block} {l : List Block} (hl : Tidy l)
    (hsizes : ∀ b ∈ l, b.lo ≤ b.hi) (habove : ∀ b ∈ l, new.hi ≤ b.lo) :
    Tidy (stitchFront new l).1 := by
  cases l with
  | nil => exact List.pairwise_singleton _ _
  | cons right rest =>
    obtain ⟨hright, hrest⟩ := List.pairwise_cons.mp hl
    simp only [stitchFront]
    by_cases h : right.lo = new.hi
    · rw [if_pos h]
      exact List.pairwise_cons.mpr ⟨hright, hrest⟩
    · rw [if_neg h]
      have hfirst := habove right List.mem_cons_self
      have hle := hsizes right List.mem_cons_self
      refine List.pairwise_cons.mpr ⟨fun b hb => ?_, hl⟩
      rcases List.mem_cons.mp hb with rfl | hb
      · omega
      · have := hright b hb
        omega

theorem stitch_tidy {left new : Block} {l : List Block} (hl : Tidy (left :: l))
    (hnew : new.lo ≤ new.hi) (hleft : left.hi ≤ new.lo) (hsizes : ∀ b ∈ l, b.lo ≤ b.hi)
    (habove : ∀ b ∈ l, new.hi ≤ b.lo) : Tidy (stitch left new l).1 := by
  obtain ⟨hfirst, hl⟩ := List.pairwise_cons.mp hl
  cases l with
  | nil =>
    simp only [stitch]
    by_cases h : left.hi = new.lo
    · rw [if_pos h]
      exact List.pairwise_singleton _ _
    · rw [if_neg h]
      exact List.pairwise_pair.mpr (by omega)
  | cons right rest =>
    obtain ⟨hright, hrest⟩ := List.pairwise_cons.mp hl
    have hle := hsizes right List.mem_cons_self
    have hin := habove right List.mem_cons_self
    simp only [stitch]
    by_cases h : left.hi = new.lo
    · rw [if_pos h]
      by_cases h' : right.lo = new.hi
      · rw [if_pos h']
        exact List.pairwise_cons.mpr ⟨hright, hrest⟩
      · rw [if_neg h']
        refine List.pairwise_cons.mpr ⟨fun b hb => ?_, hl⟩
        rcases List.mem_cons.mp hb with rfl | hb
        · show new.hi < _
          omega
        · have := hright b hb
          show new.hi < _
          omega
    · rw [if_neg h]
      by_cases h' : right.lo = new.hi
      · rw [if_pos h']
        refine List.pairwise_cons.mpr ⟨fun b hb => ?_, List.pairwise_cons.mpr ⟨hright, hrest⟩⟩
        rcases List.mem_cons.mp hb with rfl | hb
        · show left.hi < new.lo
          omega
        · exact hfirst b (List.mem_cons_of_mem _ hb)
      · rw [if_neg h']
        refine List.pairwise_cons.mpr ⟨fun b hb => ?_, List.pairwise_cons.mpr ⟨fun b hb => ?_, hl⟩⟩
        · rcases List.mem_cons.mp hb with rfl | hb
          · omega
          · exact hfirst b hb
        · rcases List.mem_cons.mp hb with rfl | hb
          · omega
          · have := hright b hb
            omega

/-- **An insertion that fits** keeps the order. -/
theorem tidy_insertAndCoalesce {l : List Block} {new : Block} (hl : Tidy l) (hfits : Fits l new)
    (hnew : new.lo ≤ new.hi) (hsizes : ∀ b ∈ l, b.lo ≤ b.hi) :
    Tidy (insertAndCoalesce l new).1 := by
  rcases exists_left new l with ⟨pre, left, post, rfl, hpre, hleft⟩ | hall
  · -- the left neighbour is the first block, since those in front of it begin above it
    obtain rfl : pre = [] := by
      cases pre with
      | nil => rfl
      | cons b pre =>
        have hlt := (List.pairwise_cons.mp hl).1 left (by simp)
        have hle := hsizes b List.mem_cons_self
        have hb := hpre b List.mem_cons_self
        omega
    have hcount := hfits.below
    rw [List.nil_append, List.countP_cons_of_pos (by simpa using hleft)] at hcount
    have habove : ∀ b ∈ post, new.hi ≤ b.lo := fun b hb => by
      refine hfits.inside b (by simp [hb]) ?_
      have hzero : post.countP (·.lo ≤ new.lo) = 0 := by omega
      have hnot := List.countP_eq_zero.mp hzero b hb
      simpa using hnot
    rw [insertAndCoalesce_left hpre hleft, List.nil_append]
    exact stitch_tidy hl hnew (hfits.off left (by simp) hleft)
      (fun b hb => hsizes b (by simp [hb])) habove
  · rw [insertAndCoalesce_front hall]
    exact stitchFront_tidy hl hsizes fun b hb => hfits.inside b hb (by have := hall b hb; omega)

/-! ## Giving blocks back -/

/-- The list after the blocks of another list have been inserted, one by one. -/
def giveBack (l : List Block) : List Block → List Block
  | [] => l
  | b :: rest => giveBack (insertAndCoalesce l b).1 rest

/-- Each of them fits where it is inserted. -/
def AllFit (l : List Block) : List Block → Prop
  | [] => True
  | b :: rest => Fits l b ∧ AllFit (insertAndCoalesce l b).1 rest

instance decidableAllFit : (l rest : List Block) → Decidable (AllFit l rest)
  | _, [] => inferInstanceAs (Decidable True)
  | l, b :: rest => @instDecidableAnd _ _ _ (decidableAllFit (insertAndCoalesce l b).1 rest)

/-- Giving back blocks that fit keeps the order. -/
theorem tidy_giveBack : ∀ {rest l : List Block}, Tidy l → AllFit l rest →
    (∀ b ∈ rest, b.lo ≤ b.hi) → (∀ b ∈ l, b.lo ≤ b.hi) → Tidy (giveBack l rest)
  | [], _, hl, _, _, _ => hl
  | b :: rest, l, hl, hfit, hrest, hsizes => by
    have hb := hrest b List.mem_cons_self
    have hins := insertAndCoalesce_inserts hb hsizes
    show Tidy (giveBack (insertAndCoalesce l b).1 rest)
    exact tidy_giveBack (tidy_insertAndCoalesce hl hfit.1 hb hsizes) hfit.2
      (fun c hc => hrest c (List.mem_cons_of_mem _ hc)) fun c hc => (hins.bounds c hc).1

/-! ## Runs of addresses -/

/-- In a list in order, an uninterrupted run of addresses is in one block. -/
theorem Tidy.run_in_one {l : List Block} (hl : Tidy l) {x n : Nat} (hn : 0 < n)
    (h : ∀ y, x ≤ y → y < x + n → ∃ b ∈ l, b.lo ≤ y ∧ y < b.hi) :
    ∃ b ∈ l, b.lo ≤ x ∧ x + n ≤ b.hi := by
  induction n with
  | zero => exact absurd hn (Nat.lt_irrefl 0)
  | succ n ih =>
    obtain ⟨c, hc, hlast⟩ := h (x + n) (by omega) (by omega)
    by_cases hzero : n = 0
    · subst hzero
      exact ⟨c, hc, hlast.1, hlast.2⟩
    obtain ⟨b, hb, hlo, hhi⟩ := ih (by omega) fun y h₁ h₂ => h y h₁ (by omega)
    by_cases hbc : b = c
    · subst hbc
      exact ⟨b, hb, hlo, hlast.2⟩
    · -- two blocks of the list do not touch
      have : Std.Symm fun b c : Block => b.hi < c.lo ∨ c.hi < b.lo := ⟨fun _ _ h => h.symm⟩
      have hpair : l.Pairwise fun b c : Block => b.hi < c.lo ∨ c.hi < b.lo := hl.imp Or.inl
      have hapart := hpair.forall hb hc hbc
      omega

end Dp4c.Memory
