import Dp4c.Memory.Order
import Dp4c.Memory.Sizes

/-! # The allocator allocates from itself

`arena_push` asks `get_new_block_struct` for a struct, which may ask `arena_push` for memory of
`pageblock_storage`, which may have to be refilled and so needs a struct itself. The pages of
that refill are the arena's before its struct is asked for, so the third level finds room. The
structs of the two refills and the memory of the client are apart, where the size does not wrap
when it is rounded up. -/
namespace Dp4c.Memory

open Dp4c.Lib Dp4c.Lib.Prog Block

variable {s t u : State} {g g' : Ghost} {pending : Nat → Bool} {a : ArenaRef} {size : UInt32}
  {start pageSize memoryAmount n p : Nat}

/-! ## Levels -/

theorem approximates_refill {push push' : ArenaM Nat}
    (h : Approximates .outOfFuel push push') (a : ArenaRef) (size : UInt32) :
    Approximates .outOfFuel (refill push a size) (refill push' a size) := by
  rw [refill_eq, refill_eq]
  refine .bind .refl fun r => .bind (.bind (.bind .refl fun recycled => ?_) fun _ => .refl)
    fun _ => .refl
  cases recycled with
  | none => exact h
  | some p => exact .refl

/-- One level more changes nothing where the levels sufficed. -/
theorem approximates_arenaPushDepth : ∀ (depth : Nat) (a : ArenaRef) (size : UInt32),
    Approximates .outOfFuel (arenaPushDepth depth a size) (arenaPushDepth (depth + 1) a size)
  | 0, _, _ => .exit
  | depth + 1, a, size => by
    unfold arenaPushDepth
    refine .bind .refl fun _ => .bind (.bind .refl fun arena => .ite ?_ .refl) fun _ => .refl
    exact approximates_refill (approximates_arenaPushDepth depth .pageblockStorage _) a size

/-! ## At most two structs -/

theorem structsFrom_length_le (push : ArenaM Nat) (pushed : State → List Nat) (s : State) :
    (structsFrom push pushed s).length ≤ 1 + (pushed s).length := by
  unfold structsFrom
  split
  · rw [List.length_cons]
    split
    · omega
    · simp
  · simp

/-- The refill of `pageblock_storage` hands out its own struct only: it has room for it. -/
theorem Inv.newStructs_storage_length (hi : Inv s g pending) :
    (newStructs 2 .pageblockStorage sizeofPageBlock.toUInt32 s).length ≤ 1 := by
  unfold newStructs
  split
  · unfold refillStructs
    cases hrun : takePages .pageblockStorage sizeofPageBlock.toUInt32 s with
    | error e => simp
    | ok r =>
      obtain ⟨p, htaken⟩ := wp_ok (a := r.1) (t := r.2) (hi.wp_takePages (by decide) _) hrun
      have hps := hi.pageSize_pos
      have hpage : s.pageSize ≤ roundUp s.pageSize sizeofPageBlock :=
        Nat.le_of_dvd (Nat.lt_of_lt_of_le (by decide) (le_roundUp (by omega))) (dvd_roundUp ..)
      have hend := htaken.cut.2.1
      rw [sizeofPageBlock_toNat] at hend
      have hroom : newStructs 1 .pageblockStorage sizeofPageBlock.toUInt32 r.2 = [] := by
        unfold newStructs
        rw [htaken.avail, htaken.limit, sizeofPageBlock_toNat, if_neg]
        simp only [sizeofPageBlock] at hpage hend ⊢
        omega
      refine Nat.le_trans (structsFrom_length_le _ _ _) ?_
      rw [hroom]
      simp
  · simp

theorem Inv.newStructs_length (hi : Inv s g pending) (n : Nat) (size : UInt32) :
    (newStructs 3 (.client n) size s).length ≤ 2 := by
  unfold newStructs
  split
  · unfold refillStructs
    cases hrun : takePages (.client n) size s with
    | error e => simp
    | ok r =>
      have hinv : ∃ g' pending', Inv r.2 g' pending' := by
        by_cases hlarge : 2 ^ 31 ≤ size.toNat
        · by_cases hwrap : 2 ^ 32 < size.toNat + s.pageSize
          · obtain ⟨p, h⟩ := wp_ok (a := r.1) (t := r.2)
              (hi.wp_takePages_wrapped (E := fun _ => True) hwrap _) hrun
            exact ⟨_, _, h.inv⟩
          · obtain ⟨-, p, h⟩ := wp_ok (a := r.1) (t := r.2)
              (hi.wp_takePages_neg hlarge (by omega) _) hrun
            exact ⟨_, _, h.inv⟩
        · obtain ⟨p, h⟩ := wp_ok (a := r.1) (t := r.2) (hi.wp_takePages (by omega) _) hrun
          exact ⟨_, _, h.inv⟩
      obtain ⟨g', pending', hi'⟩ := hinv
      have hstorage := hi'.newStructs_storage_length
      refine Nat.le_trans (structsFrom_length_le _ _ _) ?_
      omega
  · simp

/-! ## What a push hands out is apart -/

/-- The structs of a push do not overlap each other or the memory it returns. -/
theorem Pushed.apart {structs : List Nat} {rest : List Region}
    (h : Pushed (.client n) size.toNat s g pending structs p t g' rest) :
    (⟨.client n, p, size.toNat⟩ :: structs.map structRegion).Pairwise Region.Disjoint := by
  have hdis := h.inv.disjoint
  have hmem : ∀ q ∈ structs, structRegion q ∈ rest := fun q hq => by
    obtain ⟨home, hhome⟩ := h.keeps q (.inr hq)
    exact h.lists home q hhome
  rw [h.region] at hdis
  obtain ⟨htop, hrest⟩ := List.pairwise_cons.mp hdis
  refine List.pairwise_cons.mpr ⟨fun r hr => ?_, List.pairwise_map.mpr ?_⟩
  · obtain ⟨q, hq, rfl⟩ := List.mem_map.mp hr
    exact htop _ (hmem q hq)
  · have : Std.Symm Region.Disjoint := ⟨fun _ _ h => h.symm⟩
    refine List.Pairwise.imp_of_mem (fun {q r} hq hr hne => ?_) h.nodup
    exact hrest.forall (hmem q hq) (hmem r hr) fun he => hne (congrArg Region.base he)

/-- The recursion of a push ends within three levels, with a struct for the refill of the arena
and one for that of `pageblock_storage` at most, and what it hands out does not overlap. -/
structure Nests (s : State) (n : Nat) (size : UInt32) : Prop where
  ends : arenaPush (.client n) size s ≠ .error .outOfFuel
  levels : ∀ depth,
    arenaPushDepth (depth + 3) (.client n) size s = arenaPush (.client n) size s
  refills : (newStructs 3 (.client n) size s).length ≤ 2
  apart : ∀ p t, arenaPush (.client n) size s = .ok (p, t) →
    (⟨.client n, p, size.toNat⟩ ::
      (newStructs 3 (.client n) size s).map structRegion).Pairwise Region.Disjoint

/-- Where three levels suffice, more make no difference. -/
theorem arenaPushDepth_eq (hends : arenaPush (.client n) size s ≠ .error .outOfFuel) :
    ∀ depth, arenaPushDepth (depth + 3) (.client n) size s = arenaPush (.client n) size s
  | 0 => rfl
  | depth + 1 => by
    have ih := arenaPushDepth_eq hends depth
    refine ((approximates_arenaPushDepth (depth + 3) _ _).eq_of_ne ?_).trans ih
    rw [ih]
    exact hends

theorem Inv.nests (hi : Inv s g fun _ => false) (hstart : 0 < s.pageMemoryStart) (n : Nat)
    (hwrap : size.toNat + s.pageSize ≤ 2 ^ 32) : Nests s n size := by
  have hends : arenaPush (.client n) size s ≠ .error .outOfFuel := fun hrun => by
    rcases wp_error (hi.wp_arenaPush_any n size) hrun with ⟨he, -⟩ | ⟨he, -⟩ | ⟨he, -⟩ <;> cases he
  refine ⟨hends, arenaPushDepth_eq hends, hi.newStructs_length n size, fun p t hrun => ?_⟩
  by_cases hlarge : 2 ^ 31 ≤ size.toNat
  · rw [hi.arenaPush_neg hstart hlarge hwrap] at hrun
    cases hrun
  by_cases hzero : size.toNat = 0
  · rw [arenaPush_zero n s hzero] at hrun
    cases hrun
  obtain ⟨g', rest, hpushed⟩ := wp_ok (hi.wp_arenaPush n (by omega) (by omega)) hrun
  exact hpushed.apart

/-- In every state that any calls lead to, the recursion of every push whose size does not wrap
ends and hands out apart. -/
theorem reaches_nests (hs : Setup pageSize start memoryAmount) (hstart : 0 < start)
    (h : Reaches (fun _ _ => True) (initMemory pageSize start memoryAmount) s) (n : Nat)
    (hwrap : size.toNat + s.pageSize ≤ 2 ^ 32) : Nests s n size := by
  obtain ⟨g, hg⟩ := h.between hs
  exact hg.inv.nests (by rw [hg.start]; exact hstart) n hwrap

/-- As many arenas, on one page each. -/
def onePageEach (arenas : Nat) : List Op := (List.range arenas).map (.push · 1)

/-- The structs fill the first page, so that the refill for a struct asks for one itself. -/
theorem reaches_nests_full : ∃ s,
    Reaches (fun _ _ => True) (initMemory 4096 65536 655360) s ∧ Nests s 200 5000 ∧
      (newStructs 3 (.client 200) 5000 s).length = 2 := by
  have hrun : (callsIn (fun _ _ => True) (onePageEach 125) (initMemory 4096 65536 655360)).any
      (fun s => s.pageSize = 4096 ∧ (newStructs 3 (.client 200) 5000 s).length = 2) = true := by
    decide +kernel
  obtain ⟨s, hs, hany⟩ := Option.any_eq_true _ _ |>.mp hrun
  obtain ⟨hps, hlength⟩ := of_decide_eq_true hany
  have hsetup : Setup 4096 65536 655360 := ⟨⟨12, rfl⟩, by decide, by decide, by decide, by decide⟩
  have hwrap : (5000 : UInt32).toNat + s.pageSize ≤ 2 ^ 32 := by rw [hps]; decide
  exact ⟨s, reaches_of_callsIn hs,
    reaches_nests hsetup (by decide) (reaches_of_callsIn hs) 200 hwrap, hlength⟩

/-- One more, and the first is deleted. -/
def manyArenas : List Op := onePageEach 126 ++ [.delete 0]

/-- The memory returned for the largest size is over the struct of its pages. -/
theorem nests_fails : ¬ ∀ s, Reaches (fun _ _ => True) (initMemory 4096 65536 655360) s →
    Nests s 200 4294967295 := by
  intro h
  have hrun : (callsIn (fun _ _ => True) manyArenas (initMemory 4096 65536 655360)).any
      (fun s => (arenaPush (.client 200) 4294967295 s).toOption.any fun r =>
        (newStructs 3 (.client 200) 4294967295 s).any fun q =>
          r.1 < q + sizeofPageBlock && q < r.1 + 4294967295) = true := by decide +kernel
  obtain ⟨s, hs, hany⟩ := Option.any_eq_true _ _ |>.mp hrun
  cases hpush : arenaPush (.client 200) 4294967295 s with
  | error e =>
    rw [hpush] at hany
    cases hany
  | ok r =>
    rw [hpush] at hany
    obtain ⟨q, hq, hover⟩ := List.any_eq_true.mp hany
    have hapart := (List.pairwise_cons.mp ((h s (reaches_of_callsIn hs)).apart r.1 r.2 hpush)).1
      _ (List.mem_map_of_mem hq)
    have hsize : (4294967295 : UInt32).toNat = 4294967295 := rfl
    simp only [Bool.and_eq_true, decide_eq_true_eq] at hover
    simp only [Region.Disjoint, structRegion, hsize] at hapart
    omega

end Dp4c.Memory
