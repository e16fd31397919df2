import Dp4c.Memory.Steps

/-! # The order of the free list

The search of `block_insert_and_coalesce` takes the first block that begins at or below the new
one, as if the list were in descending order. The free list is in ascending order at the start,
so a block given back finds its place only where at most one free block begins at or below it.
In the runs in which all do, the list stays in order and coalesced, and a request that finds no
memory has no run of free pages to go to. -/
namespace Dp4c.Memory

open Dp4c.Lib Dp4c.Lib.Prog Block

variable {s t : State} {g g' : Ghost} {pageSize start memoryAmount : Nat}

/-- Strictly ascending, with a gap between any two blocks. -/
structure Orderly (l : List Block) : Prop where
  ascending : l.Pairwise (·.lo < ·.lo)
  coalesced : l.Pairwise fun b c => b.hi < c.lo ∨ c.hi < b.lo

instance (l : List Block) : Decidable (Orderly l) :=
  decidable_of_iff (l.Pairwise (·.lo < ·.lo) ∧ l.Pairwise fun b c => b.hi < c.lo ∨ c.hi < b.lo)
    ⟨fun h => ⟨h.1, h.2⟩, fun h => ⟨h.ascending, h.coalesced⟩⟩

theorem Tidy.orderly {l : List Block} (h : Tidy l) (hsizes : ∀ b ∈ l, b.lo ≤ b.hi) : Orderly l where
  ascending := List.Pairwise.imp_of_mem (fun hb _ hlt => Nat.lt_of_le_of_lt (hsizes _ hb) hlt) h
  coalesced := h.imp .inl

/-- All `n` addresses from `x` on are free. -/
def FreeRun (s : State) (x n : Nat) : Prop :=
  ∀ y, x ≤ y → y < x + n → ∃ b ∈ s.blocksOn .free, b.lo ≤ y ∧ y < b.hi

/-- The refill for a request takes the last free pages, and a struct for them needs another. -/
def Starves (s : State) (n : Nat) (size : UInt32) : Prop :=
  (s.arenas (.client n)).memoryAvail + size.toNat ≥ (s.arenas (.client n)).memoryLimit ∧
    LastPages (s.blocksOn .free) (roundUp s.pageSize size.toNat) ∧ StorageFull s

instance (s : State) (n : Nat) (size : UInt32) : Decidable (Starves s n size) :=
  inferInstanceAs (Decidable (_ ≥ _ ∧ _ ∧ _))

/-- A call that leaves the free list as it should be: the blocks it gives back are inserted in
their places, and its pages leave one for their struct. -/
def Op.InPlace (s : State) : Op → Prop
  | .push n size => ¬ Starves s n size
  | .delete n => AllFit (s.blocksOn .free) (s.blocksOn (.owned (.client n)))

instance (s : State) : (op : Op) → Decidable (op.InPlace s)
  | .push n size => inferInstanceAs (Decidable (¬ Starves s n size))
  | .delete n => decidableAllFit (s.blocksOn .free) (s.blocksOn (.owned (.client n)))

theorem Inv.sizes {pending : Nat → Bool} (hi : Inv s g pending) {h : Home} (hh : h ≠ .recycled) :
    ∀ b ∈ g.blocks s h, b.lo ≤ b.hi := fun b hb => by
  obtain ⟨p, hp, rfl⟩ := List.mem_map.mp hb
  exact (hi.lists.aligned h hh p hp).1

/-- What one call in place keeps. -/
theorem Between.tidy_call (h : Between start s g) (htidy : Tidy (g.blocks s .free)) {op : Op}
    (hop : op.InPlace s) (hrun : op.call s = .ok ((), t)) :
    ∃ g', Between start t g' ∧ Tidy (g'.blocks t .free) := by
  cases op with
  | push n size =>
    obtain ⟨g', hg', hcut, -⟩ := wp_ok (h.wp_push n size) hrun
    exact ⟨g', hg', htidy.cut hcut⟩
  | delete n =>
    obtain ⟨g', hg', hfree, -⟩ := wp_ok (h.wp_delete (E := fun _ => True) n) hrun
    have hfit : AllFit (g.blocks s .free) (g.blocks s (.owned (.client n))) := by
      have hfit : AllFit (s.blocksOn .free) (s.blocksOn (.owned (.client n))) := hop
      rwa [h.inv.blocksOn, h.inv.blocksOn] at hfit
    refine ⟨g', hg', ?_⟩
    rw [hfree]
    exact tidy_giveBack htidy hfit (h.inv.sizes (by simp)) (h.inv.sizes (by simp))

/-- What runs of calls in place keep. -/
theorem Reaches.tidy (hs : Setup pageSize start memoryAmount)
    (h : Reaches (fun s op => op.InPlace s) (initMemory pageSize start memoryAmount) s) :
    ∃ g, Between start s g ∧ Tidy (g.blocks s .free) := by
  induction h with
  | start =>
    exact ⟨_, initMemory_between hs, List.pairwise_singleton _ _⟩
  | call _ hop hrun ih =>
    obtain ⟨g, hg, htidy⟩ := ih
    exact hg.tidy_call htidy hop hrun

/-- A request that no free block holds has no run of free pages to go to. -/
theorem no_freeRun (hblocks : s.blocksOn .free = g.blocks s .free)
    (htidy : Tidy (g.blocks s .free)) {n : Nat} (hpos : 0 < n) (hno : NoFit (s.blocksOn .free) n)
    (x : Nat) : ¬ FreeRun s x n := by
  intro hfree
  unfold FreeRun at hfree
  rw [hblocks] at hfree hno
  obtain ⟨b, hb, hlo, hhi⟩ := htidy.run_in_one hpos hfree
  have hlt := hno b hb
  omega

/-- In the runs whose calls are in place, the free list is in order and coalesced in every
state, and `arena_push` runs out of memory only where no run of free pages is large enough. -/
theorem run_orderly (hs : Setup pageSize start memoryAmount)
    (h : Reaches (fun s op => op.InPlace s) (initMemory pageSize start memoryAmount) s) :
    Orderly (s.blocksOn .free) ∧
      ∀ n size, Op.InPlace s (.push n size) →
        arenaPush (.client n) size s = .error .outOfMemory → ∀ x, ¬ FreeRun s x size.toNat := by
  obtain ⟨g, hg, htidy⟩ := Reaches.tidy hs h
  have hblocks := hg.inv.blocksOn .free
  refine ⟨by rw [hblocks]; exact htidy.orderly (hg.inv.sizes (by simp)), ?_⟩
  intro n size hop hrun
  rcases wp_error (hg.inv.wp_arenaPush_any n size) hrun with ⟨he, -⟩ | ⟨he, -⟩ | ⟨-, hfull, hno⟩
  · cases he
  · cases he
  rcases hno with hno | hlast
  · refine no_freeRun hblocks htidy (Nat.pos_of_ne_zero fun hzero => ?_) hno
    -- a request for nothing fails an assertion
    rw [arenaPush_zero n s hzero] at hrun
    cases hrun
  · exact absurd ⟨hfull, hlast⟩ hop

/-- Pages for two arenas; the first is deleted, and pushed on again. -/
theorem run_orderly_some : ∃ s,
    Reaches (fun s op => op.InPlace s) (initMemory 4096 65536 65536) s ∧
      s.blocksOn .free ≠ [] ∧ Orderly (s.blocksOn .free) ∧
      ∀ n size, Op.InPlace s (.push n size) →
        arenaPush (.client n) size s = .error .outOfMemory → ∀ x, ¬ FreeRun s x size.toNat := by
  have hrun : (callsIn (fun s op => op.InPlace s) [.push 0 100, .push 1 5000, .delete 0, .push 0 1]
      (initMemory 4096 65536 65536)).any (fun s => s.blocksOn .free ≠ []) = true := by
    decide +kernel
  obtain ⟨s, hs, hne⟩ := Option.any_eq_true _ _ |>.mp hrun
  have h := reaches_of_callsIn hs
  obtain ⟨horder, hfull⟩ := run_orderly setup_sixteen_pages h
  exact ⟨s, h, of_decide_eq_true hne, horder, hfull⟩

/-- The pages of three arenas, given back with others between them, are out of order. -/
theorem orderly_fails : ¬ ∀ s,
    Reaches (fun _ _ => True) (initMemory 4096 65536 65536) s → Orderly (s.blocksOn .free) := by
  intro h
  have hrun : (callsIn (fun _ _ => True)
      [.push 0 1, .push 1 1, .push 2 1, .push 3 1, .push 4 1, .delete 0, .delete 2, .delete 4]
      (initMemory 4096 65536 65536)).any (fun s => ¬ Orderly (s.blocksOn .free)) = true := by
    decide +kernel
  obtain ⟨s, hs, hnot⟩ := Option.any_eq_true _ _ |>.mp hrun
  exact of_decide_eq_true hnot (h s (reaches_of_callsIn hs))

end Dp4c.Memory
