import Dp4c.Memory.Steps

/-! # The sizes that are served

`arena_push` takes its size as a `uint32_t`, looks for a block by it as an `int` and rounds it up
in 32 bits. Below `2^31` the memory is the arena's or there is none. From there on the first free
block fits whatever its length: the pages carved off it would end below their begin, which
`mprotect` refuses, or where the round-up wraps they are none, and the memory returned is not the
arena's. -/
namespace Dp4c.Memory

open Dp4c.Lib Dp4c.Lib.Prog Block

variable {s t u : State} {g : Ghost} {pending : Nat → Bool} {a : ArenaRef} {size : UInt32}

/-- The memory at `p` is in one block of the arena, which goes on behind it. -/
structure Served (n : Nat) (size : UInt32) (p : Nat) (t : State) : Prop where
  block : ∃ q, t.OnList (.owned (.client n)) q ∧ t.view.lo q ≤ p ∧ p + size.toNat ≤ t.view.hi q
  avail : (t.arenas (.client n)).memoryAvail = p + size.toNat
  limit : p + size.toNat ≤ (t.arenas (.client n)).memoryLimit

/-- `arena_push` returns memory of the arena, or ends in `Out of memory`. -/
def Serves (s : State) (n : Nat) (size : UInt32) : Prop :=
  (∃ p t, arenaPush (.client n) size s = .ok (p, t) ∧ Served n size p t) ∨
    arenaPush (.client n) size s = .error .outOfMemory

/-- The size fits an `int`; or it is at the end of the range, no page is free, and there is no
struct for the pages either. -/
def Servable (s : State) (size : UInt32) : Prop :=
  size.toNat < 2 ^ 31 ∨
    2 ^ 32 < size.toNat + s.pageSize ∧ NoPages (s.blocksOn .free) ∧ StorageFull s

theorem Pushed.served {n p : Nat} {structs : List Nat} {g' : Ghost} {rest : List Region}
    (h : Pushed (.client n) size.toNat s g pending structs p t g' rest)
    (hs : Held s g (.client n)) : Served n size p t := by
  obtain ⟨b, hb, hlo, hhi⟩ := h.held hs
  obtain ⟨q, hq, rfl⟩ := List.mem_map.mp hb
  exact ⟨⟨q, h.inv.onList_iff.mpr hq, hlo, Nat.le_trans h.limit hhi⟩, h.avail, h.limit⟩

/-- The outcomes of a program that are an exit. -/
theorem error_of_wp {α : Type} {x : ArenaM α} {e : Exit} (h : wp x s (fun _ _ => False) (· = e)) :
    x s = .error e := by
  cases hrun : x s with
  | ok r => exact (wp_ok (a := r.1) (t := r.2) h hrun).elim
  | error e' => rw [wp_error h hrun]

/-! ## No struct for no page -/

/-- Where no page is free, none can be taken. -/
theorem Inv.wp_takePages_none (hi : Inv s g pending) (hnone : NoPages (g.blocks s .free))
    (hpos : 0 < size.toNat) (hsize : size.toNat < 2 ^ 31) (a : ArenaRef) :
    wp (takePages a size) s (fun _ _ => False) (· = .outOfMemory) := by
  refine wp_mono (hi.wp_takePages hsize a) ?_ fun _ h => h.1
  rintro ⟨b, e⟩ t ⟨p, htaken⟩
  obtain ⟨hb, he, hend, -⟩ := htaken.cut
  have hempty := hnone _ (List.mem_map_of_mem (f := s.view.block) htaken.node)
  have hps := hi.pageSize_pos
  have hle : size.toNat ≤ roundUp s.pageSize size.toNat := le_roundUp (by omega)
  have hempty : s.view.hi p ≤ s.view.lo p := hempty
  simp only at hb he hend
  omega

theorem Inv.wp_getNewBlockStruct_none (hi : Inv s g pending)
    (hnone : NoPages (g.blocks s .free)) (hfull : StorageFull s) (depth : Nat) :
    wp (getNewBlockStruct (arenaPushDepth (depth + 1) .pageblockStorage sizeofPageBlock.toUInt32)) s
      (fun _ _ => False) (· = .outOfMemory) := by
  unfold getNewBlockStruct takeBlockStruct arenaPushDepth clientMemory
  simp only [wp_bind, wp_reads, hfull.1, wp_check]
  rw [if_pos (by decide), sizeofPageBlock_toNat, if_pos hfull.2, refill_eq, wp_bind]
  exact wp_mono (hi.wp_takePages_none hnone (by decide) (by decide) _) (fun _ _ h => h.elim)
    fun _ h => h

theorem setLo_self (v : View) (p : Nat) : v.setLo p (v.lo p) = v := by
  ext q <;> by_cases hq : q = p <;> simp [View.setLo, hq]

/-- Pages that are none leave the free list. -/
theorem Taken.free_blocks {p b e : Nat} (h : Taken s u g pending a 0 p b e) :
    (g.give b e (.owned a)).blocks u .free = g.blocks s .free := by
  obtain ⟨hb, he, -, hview⟩ := h.cut
  rw [Nat.add_zero] at he
  rw [he, hb, setLo_self] at hview
  show (g.nodes .free).map u.view.block = _
  rw [hview]
  rfl

/-- At the end of the range the struct is all that a push has to find. -/
theorem Inv.arenaPush_starved (hi : Inv s g pending) {n : Nat}
    (hwrap : 2 ^ 32 < size.toNat + s.pageSize) (hnone : NoPages (g.blocks s .free))
    (hfull : StorageFull s) : arenaPush (.client n) size s = .error .outOfMemory := by
  obtain ⟨k, hk, hps⟩ := hi.pageSize_small
  have hpow : 2 ^ k ≤ 2 ^ 30 := Nat.pow_le_pow_right (by omega) (by omega)
  have hsize : size > 0 := UInt32.lt_iff_toNat_lt.mpr (by simp; omega)
  refine error_of_wp ?_
  unfold arenaPush arenaPushDepth clientMemory
  simp only [wp_bind, wp_check, wp_reads]
  rw [if_pos hsize, if_pos (hi.full_of_large (by omega) _), refill_eq, wp_bind]
  refine wp_mono (hi.wp_takePages_wrapped hwrap _) ?_ fun _ h => h
  rintro r u ⟨p, htaken⟩
  have hnone' := htaken.free_blocks ▸ hnone
  simp only [wp_bind]
  exact wp_mono (htaken.inv.wp_getNewBlockStruct_none hnone'
    ((htaken.storage (by simp)).mpr hfull) 1) (fun _ _ h => h.elim) fun _ h => h

/-- In the middle of the range the end of the pages is below their begin. -/
theorem Inv.arenaPush_neg (hi : Inv s g pending) (hstart : 0 < s.pageMemoryStart) {n : Nat}
    (hlarge : 2 ^ 31 ≤ size.toNat) (hwrap : size.toNat + s.pageSize ≤ 2 ^ 32) :
    arenaPush (.client n) size s = .error (.perror "mprotect") := by
  have hsize : size > 0 := UInt32.lt_iff_toNat_lt.mpr (by simp; omega)
  refine error_of_wp ?_
  unfold arenaPush arenaPushDepth clientMemory
  simp only [wp_bind, wp_check, wp_reads]
  rw [if_pos hsize, if_pos (hi.full_of_large hlarge _), refill_eq, wp_bind]
  refine wp_mono (hi.wp_takePages_neg hlarge hwrap _) ?_ fun _ h => h
  rintro r u ⟨hzero, -⟩
  omega

/-! ## What is served -/

theorem Inv.serves_iff (hi : Inv s g pending) (hs : ∀ n, Held s g (.client n))
    (hstart : 0 < s.pageMemoryStart) (n : Nat) (hpos : 0 < size.toNat) :
    Serves s n size ↔ Servable s size := by
  unfold Servable
  rw [hi.blocksOn]
  by_cases hsize : size.toNat < 2 ^ 31
  · refine ⟨fun _ => .inl hsize, fun _ => ?_⟩
    cases hrun : arenaPush (.client n) size s with
    | ok r =>
      obtain ⟨p, t⟩ := r
      obtain ⟨g', rest, hpushed⟩ := wp_ok (hi.wp_arenaPush n hpos hsize) hrun
      exact .inl ⟨p, t, hrun, hpushed.served (hs n)⟩
    | error e =>
      obtain ⟨rfl, -⟩ := wp_error (hi.wp_arenaPush n hpos hsize) hrun
      exact .inr hrun
  · have hlarge := hi.wp_arenaPush_large n (show 2 ^ 31 ≤ size.toNat by omega)
    constructor
    · rintro (⟨p, t, hrun, hserved⟩ | hrun)
      · -- what is returned goes beyond the limit
        obtain ⟨u, g', hm, rfl⟩ := wp_ok hlarge hrun
        have hlimit := hm.limit.1
        have havail := hserved.limit
        simp only [State.withAvail, Function.update_self] at havail
        omega
      · rcases wp_error hlarge hrun with he | ⟨-, hnone, hfull⟩
        · cases he
        · refine .inr ⟨?_, hnone, hfull⟩
          by_contra hwrap
          have hneg := hi.arenaPush_neg hstart (n := n) (show 2 ^ 31 ≤ size.toNat by omega)
            (by omega)
          rw [hrun] at hneg
          cases hneg
    · rintro (h | ⟨hwrap, hnone, hfull⟩)
      · exact absurd h hsize
      · exact .inr (hi.arenaPush_starved hwrap hnone hfull)

theorem Reaches.between {pageSize start memoryAmount : Nat} {P : State → Op → Prop}
    (hs : Setup pageSize start memoryAmount)
    (h : Reaches P (initMemory pageSize start memoryAmount) s) : ∃ g, Between start s g := by
  induction h with
  | start => exact ⟨_, initMemory_between hs⟩
  | @call t u op _ _ hrun ih =>
    obtain ⟨g, hg⟩ := ih
    cases op with
    | push n size =>
      obtain ⟨g', hg', -⟩ := wp_ok (hg.wp_push n size) hrun
      exact ⟨g', hg'⟩
    | delete n =>
      obtain ⟨g', hg', -⟩ := wp_ok (hg.wp_delete (E := fun _ => True) n) hrun
      exact ⟨g', hg'⟩

/-- In every state that any calls lead to, the sizes that are served are these. -/
theorem reaches_serves_iff {pageSize start memoryAmount : Nat}
    (hs : Setup pageSize start memoryAmount) (hstart : 0 < start)
    (h : Reaches (fun _ _ => True) (initMemory pageSize start memoryAmount) s) (n : Nat)
    (hpos : 0 < size.toNat) : Serves s n size ↔ Servable s size := by
  obtain ⟨g, hg⟩ := h.between hs
  exact hg.inv.serves_iff hg.held (by rw [hg.start]; exact hstart) n hpos

/-- After some calls on three arenas: a small size is served, half the range is not. -/
theorem reaches_serves_iff_some : ∃ s,
    Reaches (fun _ _ => True) (initMemory 4096 65536 65536) s ∧
      (s.arenas (.client 1)).ownedPages ≠ none ∧ Serves s 1 9000 ∧ ¬ Serves s 1 2147483648 := by
  have hrun : (callsIn (fun _ _ => True) someCalls (initMemory 4096 65536 65536)).any
      (fun s => s.pageSize = 4096 ∧ (s.arenas (.client 1)).ownedPages ≠ none) = true := by
    decide +kernel
  obtain ⟨s, hs, hany⟩ := Option.any_eq_true _ _ |>.mp hrun
  obtain ⟨hps, howned⟩ := of_decide_eq_true hany
  have hreaches := reaches_of_callsIn hs
  have hnot : ¬ Servable s 2147483648 := by
    rintro (h | ⟨h, -⟩)
    · exact absurd h (by decide)
    · rw [hps] at h
      exact absurd h (by decide)
  exact ⟨s, hreaches, howned,
    (reaches_serves_iff setup_sixteen_pages (by decide) hreaches 1 (by decide)).mpr
      (.inl (by decide)),
    fun h => hnot ((reaches_serves_iff setup_sixteen_pages (by decide) hreaches 1
      (by decide)).mp h)⟩

/-- Half the range of `uint32_t` ends in `mprotect`. -/
theorem serves_fails : ¬ Serves (initMemory 4096 65536 65536) 0 2147483648 := by
  have hrun : (match arenaPush (.client 0) 2147483648 (initMemory 4096 65536 65536) with
      | .ok _ => false
      | .error e => e = .perror "mprotect") = true := by decide +kernel
  rintro (⟨p, t, h, -⟩ | h) <;> rw [h] at hrun <;> simp at hrun

end Dp4c.Memory
