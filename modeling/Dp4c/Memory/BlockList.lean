import Dp4c.Memory.Arena
import Dp4c.Memory.Coalesce
import Dp4c.Lib.Chain

/-! # Linked lists of page blocks

`block_insert_and_coalesce` on the pointers does what `insertAndCoalesce` does
on the list. A function of this part of the allocator is described by what it
makes of the `View` of the state, which leaves out the `prev_block` links:
nothing reads them. -/
namespace Dp4c.Memory

open Dp4c.Lib Dp4c.Lib.Prog

/-- What the lists of a state are read from. -/
structure View where
  next : Nat → Option Nat
  lo : Nat → Nat
  hi : Nat → Nat
  recycled : Option Nat

@[ext] theorem View.ext {v w : View} (hn : v.next = w.next) (hl : v.lo = w.lo) (hh : v.hi = w.hi)
    (hr : v.recycled = w.recycled) : v = w := by
  cases v; cases w; simp_all

namespace View

def setNext (v : View) (p : Nat) (q : Option Nat) : View :=
  { v with next := Function.update v.next p q }

def setLo (v : View) (p n : Nat) : View := { v with lo := Function.update v.lo p n }

def setHi (v : View) (p n : Nat) : View := { v with hi := Function.update v.hi p n }

/-- The struct is cleared and put in front of the recycled ones. -/
def recycle (v : View) (p : Nat) : View where
  next := Function.update v.next p v.recycled
  lo := Function.update v.lo p 0
  hi := Function.update v.hi p 0
  recycled := some p

@[simp] theorem setNext_next (v : View) (p r : Nat) (q : Option Nat) :
    (v.setNext p q).next r = if r = p then q else v.next r := Function.update_apply ..

@[simp] theorem setNext_lo (v : View) (p : Nat) (q : Option Nat) : (v.setNext p q).lo = v.lo := rfl

@[simp] theorem setNext_hi (v : View) (p : Nat) (q : Option Nat) : (v.setNext p q).hi = v.hi := rfl

@[simp] theorem setNext_recycled (v : View) (p : Nat) (q : Option Nat) :
    (v.setNext p q).recycled = v.recycled := rfl

@[simp] theorem setLo_next (v : View) (p n : Nat) : (v.setLo p n).next = v.next := rfl

@[simp] theorem setLo_lo (v : View) (p n r : Nat) :
    (v.setLo p n).lo r = if r = p then n else v.lo r := Function.update_apply ..

@[simp] theorem setLo_hi (v : View) (p n : Nat) : (v.setLo p n).hi = v.hi := rfl

@[simp] theorem setLo_recycled (v : View) (p n : Nat) : (v.setLo p n).recycled = v.recycled := rfl

@[simp] theorem setHi_next (v : View) (p n : Nat) : (v.setHi p n).next = v.next := rfl

@[simp] theorem setHi_lo (v : View) (p n : Nat) : (v.setHi p n).lo = v.lo := rfl

@[simp] theorem setHi_hi (v : View) (p n r : Nat) :
    (v.setHi p n).hi r = if r = p then n else v.hi r := Function.update_apply ..

@[simp] theorem setHi_recycled (v : View) (p n : Nat) : (v.setHi p n).recycled = v.recycled := rfl

@[simp] theorem recycle_next (v : View) (p r : Nat) :
    (v.recycle p).next r = if r = p then v.recycled else v.next r := Function.update_apply ..

@[simp] theorem recycle_lo (v : View) (p r : Nat) :
    (v.recycle p).lo r = if r = p then 0 else v.lo r := Function.update_apply ..

@[simp] theorem recycle_hi (v : View) (p r : Nat) :
    (v.recycle p).hi r = if r = p then 0 else v.hi r := Function.update_apply ..

@[simp] theorem recycle_recycled (v : View) (p : Nat) : (v.recycle p).recycled = some p := rfl

/-- The block a struct describes. -/
def block (v : View) (p : Nat) : Block := ⟨p, v.lo p, v.hi p⟩

end View

def State.view (s : State) : View where
  next p := (s.blocks p).nextBlock
  lo p := (s.blocks p).memoryBegin
  hi p := (s.blocks p).memoryEnd
  recycled := s.recycledBlockStructs

/-- The view becomes `v`, and nothing but structs and the recycled list has
changed. -/
def Becomes (s t : State) (v : View) : Prop :=
  t.view = v ∧
    t = { s with blocks := t.blocks, recycledBlockStructs := t.recycledBlockStructs }

variable {s t u : State} {v w : View}

theorem Becomes.refl (s : State) : Becomes s s s.view := ⟨rfl, rfl⟩

theorem Becomes.trans (h : Becomes s t v) (h' : Becomes t u w) : Becomes s u w :=
  ⟨h'.1, by rw [h'.2, h.2]⟩

/-! ## One write -/

section Writes

variable {p : Nat} {Q : Unit → State → Prop} {E : Exit → Prop}

theorem wp_deref {Q : PageBlock → State → Prop} :
    wp (deref p) s Q E ↔ Q (s.blocks p) s := Iff.rfl

theorem wp_setNext {q : Option Nat}
    (h : ∀ t, Becomes s t (s.view.setNext p q) → Q () t) :
    wp (store p fun b => { b with nextBlock := q }) s Q E := by
  refine h _ ⟨?_, rfl⟩
  ext r <;> by_cases hr : r = p <;> simp [State.view, View.setNext, hr]

theorem wp_setLo {n : Nat} (h : ∀ t, Becomes s t (s.view.setLo p n) → Q () t) :
    wp (store p fun b => { b with memoryBegin := n }) s Q E := by
  refine h _ ⟨?_, rfl⟩
  ext r <;> by_cases hr : r = p <;> simp [State.view, View.setLo, hr]

theorem wp_setHi {n : Nat} (h : ∀ t, Becomes s t (s.view.setHi p n) → Q () t) :
    wp (store p fun b => { b with memoryEnd := n }) s Q E := by
  refine h _ ⟨?_, rfl⟩
  ext r <;> by_cases hr : r = p <;> simp [State.view, View.setHi, hr]

theorem wp_storePrev {q : Option Nat} (h : ∀ t, Becomes s t s.view → Q () t) :
    wp (store p fun b => { b with prevBlock := q }) s Q E := by
  refine h _ ⟨?_, rfl⟩
  ext r <;> by_cases hr : r = p <;> simp [State.view, hr]

theorem wp_setPrev {p q : Option Nat} (h : ∀ t, Becomes s t s.view → Q () t) :
    wp (setPrev p q) s Q E := by
  cases p with
  | none => exact h s (Becomes.refl s)
  | some p => exact wp_storePrev h

theorem wp_recycle (h : ∀ t, Becomes s t (s.view.recycle p) → Q () t) :
    wp (recycleBlockStruct p) s Q E := by
  refine h _ ⟨?_, rfl⟩
  ext r <;> by_cases hr : r = p <;> simp [State.view, View.recycle, hr]

end Writes

/-! ## The two halves of an insertion -/

variable {E : Exit → Prop}

theorem wp_insertBlock_left {blockList new l : Nat} :
    wp (insertBlock blockList new (some l)) s (fun r t => r = (s.view.next l, blockList) ∧
      Becomes s t ((s.view.setNext l (some new)).setNext new (s.view.next l))) E := by
  unfold insertBlock
  simp only [wp_bind, wp_deref]
  refine wp_setNext fun s₁ h₁ => ?_
  refine wp_storePrev fun s₂ h₂ => ?_
  refine wp_setNext fun s₃ h₃ => ?_
  refine wp_setPrev fun s₄ h₄ => ⟨rfl, ?_⟩
  have h := ((h₁.trans h₂).trans h₃).trans h₄
  rwa [h₃.1, h₂.1, h₁.1] at h

theorem wp_insertBlock_front {blockList new : Nat} :
    wp (insertBlock blockList new none) s (fun r t => r = (some blockList, new) ∧
      Becomes s t (s.view.setNext new (some blockList))) E := by
  unfold insertBlock
  simp only [wp_bind, wp_deref]
  refine wp_setNext fun s₁ h₁ => ?_
  refine wp_storePrev fun s₂ h₂ => ?_
  have h := h₁.trans h₂
  rw [h₁.1] at h
  refine ⟨?_, h⟩
  have hnext : (s₂.blocks new).nextBlock = some blockList := by
    show s₂.view.next new = _
    rw [h.1]
    simp [View.setNext]
  show (_, new) = _
  rw [hnext]

theorem wp_touchesLeft {l : Option Nat} {new : Nat} :
    wp (touchesLeft l new) s (fun r t => t = s ∧
      r = l.filter fun l => s.view.hi l = s.view.lo new) E := by
  cases l with
  | none => exact ⟨rfl, rfl⟩
  | some l => exact ⟨rfl, by simp only [Option.filter_some, decide_eq_true_eq]; rfl⟩

theorem wp_touchesRight {r : Option Nat} {new : Nat} :
    wp (touchesRight r new) s (fun r' t => t = s ∧
      r' = r.filter fun r => s.view.lo r = s.view.hi new) E := by
  cases r with
  | none => exact ⟨rfl, rfl⟩
  | some r => exact ⟨rfl, by simp only [Option.filter_some, decide_eq_true_eq]; rfl⟩

/-- What `coalesce` makes of the view, and the list it returns. -/
def View.coalesce (v : View) (l r : Option Nat) (new merged : Nat) : View × Nat :=
  match l.filter (fun l => v.hi l = v.lo new), r.filter (fun r => v.lo r = v.hi new) with
  | some l, some r =>
    ((((v.setHi l (v.hi r)).setNext l (v.next r)).recycle r).recycle new, merged)
  | some l, none => (((v.setHi l (v.hi new)).setNext l r).recycle new, merged)
  | none, some r => match l with
    | some l => (((v.setLo r (v.lo new)).setNext l (some r)).recycle new, merged)
    | none => ((v.setLo r (v.lo new)).recycle new, r)
  | none, none => (v, merged)

theorem wp_stitchBoth {l r : Nat} :
    wp (stitchBoth l r) s (fun _ t =>
      Becomes s t (((s.view.setHi l (s.view.hi r)).setNext l (s.view.next r)).recycle r)) E := by
  unfold stitchBoth
  simp only [wp_bind, wp_deref]
  refine wp_setHi fun s₁ h₁ => ?_
  refine wp_setNext fun s₂ h₂ => ?_
  refine wp_setPrev fun s₃ h₃ => ?_
  refine wp_recycle fun s₄ h₄ => ?_
  have h := ((h₁.trans h₂).trans h₃).trans h₄
  rwa [h₃.1, h₂.1, h₁.1] at h

theorem wp_stitchLeft {l new : Nat} {r : Option Nat} :
    wp (stitchLeft l new r) s (fun _ t =>
      Becomes s t ((s.view.setHi l (s.view.hi new)).setNext l r)) E := by
  unfold stitchLeft
  simp only [wp_bind, wp_deref]
  refine wp_setHi fun s₁ h₁ => ?_
  refine wp_setNext fun s₂ h₂ => ?_
  refine wp_setPrev fun s₃ h₃ => ?_
  have h := (h₁.trans h₂).trans h₃
  rwa [h₂.1, h₁.1] at h

theorem wp_stitchRight {l : Option Nat} {new r merged : Nat} :
    wp (stitchRight l new r merged) s (fun m t => match l with
      | some l => m = merged ∧
          Becomes s t ((s.view.setLo r (s.view.lo new)).setNext l (some r))
      | none => m = r ∧ Becomes s t (s.view.setLo r (s.view.lo new))) E := by
  unfold stitchRight
  simp only [wp_bind, wp_deref]
  refine wp_setLo fun s₁ h₁ => ?_
  refine wp_storePrev fun s₂ h₂ => ?_
  have h := h₁.trans h₂
  cases l with
  | none => exact ⟨rfl, by rwa [h₁.1] at h⟩
  | some l =>
    simp only [wp_bind]
    refine wp_setNext fun s₃ h₃ => ⟨rfl, ?_⟩
    have h := h.trans h₃
    rwa [h₂.1, h₁.1] at h

theorem wp_coalesce {l r : Option Nat} {new merged : Nat} :
    wp (coalesce l r new merged) s (fun m t => m = (s.view.coalesce l r new merged).2 ∧
      Becomes s t (s.view.coalesce l r new merged).1) E := by
  unfold coalesce View.coalesce
  simp only [wp_bind]
  refine wp_mono wp_touchesLeft ?_ fun _ h => h
  rintro left _ ⟨rfl, rfl⟩
  refine wp_mono wp_touchesRight ?_ fun _ h => h
  rintro right _ ⟨rfl, rfl⟩
  generalize l.filter _ = left
  generalize r.filter _ = right
  cases left with
  | some left =>
    cases right with
    | some right =>
      simp only [wp_bind]
      refine wp_mono wp_stitchBoth (fun _ s₁ h₁ => ?_) fun _ h => h
      refine wp_recycle fun s₂ h₂ => ⟨rfl, ?_⟩
      have h := h₁.trans h₂
      rwa [h₁.1] at h
    | none =>
      simp only [wp_bind]
      refine wp_mono wp_stitchLeft (fun _ s₁ h₁ => ?_) fun _ h => h
      refine wp_recycle fun s₂ h₂ => ⟨rfl, ?_⟩
      have h := h₁.trans h₂
      rwa [h₁.1] at h
  | none =>
    cases right with
    | some right =>
      simp only [wp_bind]
      refine wp_mono wp_stitchRight (fun m s₁ h₁ => ?_) fun _ h => h
      refine wp_recycle fun s₂ h₂ => ?_
      cases l with
      | some l =>
        obtain ⟨rfl, h₁⟩ := h₁
        have h := h₁.trans h₂
        rw [h₁.1] at h
        exact ⟨rfl, h⟩
      | none =>
        obtain ⟨rfl, h₁⟩ := h₁
        have h := h₁.trans h₂
        rw [h₁.1] at h
        exact ⟨rfl, h⟩
    | none => exact ⟨rfl, Becomes.refl _⟩

/-- The search for the left neighbour splits the list. -/
theorem wp_findLeftNeighbour {begin : Nat} :
    ∀ {l : List Nat} {fuel : Nat} {p : Option Nat}, Chain s.view.next p l → l.length < fuel →
      wp (findLeftNeighbour begin fuel p) s (fun r t => t = s ∧
        ((r = none ∧ ∀ q ∈ l, ¬ s.view.lo q ≤ begin) ∨
          ∃ pre q post, r = some q ∧ l = pre ++ q :: post ∧
            (∀ c ∈ pre, ¬ s.view.lo c ≤ begin) ∧ s.view.lo q ≤ begin)) E
  | [], 0, _, _, h => absurd h (Nat.not_lt_zero _)
  | [], fuel + 1, p, hc, _ => by
    obtain rfl : p = none := hc
    exact ⟨rfl, .inl ⟨rfl, by simp⟩⟩
  | a :: l, 0, _, _, h => absurd h (Nat.not_lt_zero _)
  | a :: l, fuel + 1, p, hc, hf => by
    obtain ⟨rfl, hc⟩ := hc
    unfold findLeftNeighbour
    simp only [wp_bind, wp_deref]
    by_cases ha : (s.blocks a).memoryBegin ≤ begin
    · rw [if_pos ha]
      exact ⟨rfl, .inr ⟨[], a, l, rfl, rfl, by simp, ha⟩⟩
    · rw [if_neg ha]
      refine wp_mono (wp_findLeftNeighbour hc (by simpa using hf)) ?_ fun _ h => h
      rintro r t ⟨rfl, ⟨rfl, hall⟩ | ⟨pre, q, post, rfl, rfl, hpre, hq⟩⟩
      · refine ⟨rfl, .inl ⟨rfl, fun q hq => ?_⟩⟩
        rcases List.mem_cons.mp hq with rfl | hq
        · exact ha
        · exact hall q hq
      · refine ⟨rfl, .inr ⟨a :: pre, q, post, rfl, rfl, fun c hc => ?_, hq⟩⟩
        rcases List.mem_cons.mp hc with rfl | hc
        · exact ha
        · exact hpre c hc

/-! ## The list an insertion leaves -/

/-- The list `r.1` hangs off `head`, and the structs `r.2` have joined the
recycled ones `R`. -/
structure Listed (v : View) (head : Nat) (r : List Block × List Nat) (R : List Nat) : Prop where
  chain : Chain v.next (some head) (r.1.map (·.addr))
  recycled : Chain v.next v.recycled (r.2 ++ R)
  blocks : ∀ b ∈ r.1, v.block b.addr = b

/-- Nothing but the structs in `l` has changed. -/
def SameOff (l : List Nat) (v w : View) : Prop :=
  ∀ q ∉ l, w.next q = v.next q ∧ w.lo q = v.lo q ∧ w.hi q = v.hi q

section Insertion

variable {new head : Nat} {R : List Nat}

/-- The recycled structs are out of the way of an insertion into `L`. -/
structure Apart (v : View) (L : List Nat) (new : Nat) (R : List Nat) : Prop where
  notMem : new ∉ L
  recycled : Chain v.next v.recycled R
  new_recycled : new ∉ R
  disjoint : ∀ p ∈ L, p ∉ R

theorem Apart.ne (h : Apart v L new R) {p : Nat} (hp : p ∈ L) : p ≠ new :=
  fun e => h.notMem (e ▸ hp)

theorem Apart.ne_recycled (h : Apart v L new R) {p q : Nat} (hp : p ∈ L) (hq : q ∈ R) : q ≠ p :=
  fun e => h.disjoint p hp (e ▸ hq)

theorem Apart.new_ne (h : Apart v L new R) {q : Nat} (hq : q ∈ R) : q ≠ new :=
  fun e => h.new_recycled (e ▸ hq)

theorem listed_front {h : Nat} {rest : List Nat} (hL : Chain v.next (some h) (h :: rest))
    (ha : Apart v (h :: rest) new R) :
    let w := (v.setNext new (some h)).coalesce none (some h) new new
    Listed w.1 w.2 (stitchFront (v.block new) ((h :: rest).map v.block)) R ∧
      SameOff (new :: h :: rest) v w.1 := by
  have hh : h ≠ new := ha.ne (List.mem_cons_self ..)
  have hrest : ∀ q ∈ rest, q ≠ h ∧ q ≠ new := fun q hq =>
    ⟨fun e => (List.nodup_cons.mp hL.nodup).1 (e ▸ hq), ha.ne (List.mem_cons_of_mem _ hq)⟩
  have hR : ∀ q ∈ R, q ≠ h ∧ q ≠ new := fun q hq =>
    ⟨ha.ne_recycled (List.mem_cons_self ..) hq, ha.new_ne hq⟩
  have hmap : (rest.map v.block).map (·.addr) = rest := by simp [View.block, Function.comp_def]
  by_cases ht : v.lo h = v.hi new
  · have hw : (v.setNext new (some h)).coalesce none (some h) new new =
        (((v.setNext new (some h)).setLo h (v.lo new)).recycle new, h) := by
      simp [View.coalesce, Option.filter_some, ht]
    have hs : stitchFront (v.block new) ((h :: rest).map v.block) =
        (⟨h, v.lo new, v.hi h⟩ :: rest.map v.block, [new]) := by
      simp [stitchFront, View.block, ht]
    rw [hw, hs]
    refine ⟨⟨⟨rfl, ?_⟩, ⟨rfl, ?_⟩, ?_⟩, ?_⟩
    · simp only [hmap, View.recycle_next, if_neg hh, View.setLo_next, View.setNext_next]
      exact hL.2.congr fun q hq => by simp [hrest q hq]
    · simp only [View.recycle_next, if_true, View.setLo_recycled, View.setNext_recycled]
      exact ha.recycled.congr fun q hq => by simp [hR q hq]
    · simp only [List.mem_cons, List.mem_map]
      rintro b (rfl | ⟨q, hq, rfl⟩)
      · simp [View.block, hh]
      · simp [View.block, hrest q hq]
    · intro q hq
      simp only [List.mem_cons, not_or] at hq
      simp [hq]
  · have hw : (v.setNext new (some h)).coalesce none (some h) new new =
        (v.setNext new (some h), new) := by
      simp [View.coalesce, Option.filter_some, ht]
    have hs : stitchFront (v.block new) ((h :: rest).map v.block) =
        (v.block new :: v.block h :: rest.map v.block, []) := by
      simp [stitchFront, View.block, ht]
    rw [hw, hs]
    refine ⟨⟨⟨rfl, ?_⟩, ?_, ?_⟩, ?_⟩
    · simp only [View.block, View.setNext_next, if_true]
      refine ⟨rfl, ?_⟩
      simp only [hmap, View.setNext_next, if_neg hh]
      exact hL.2.congr fun q hq => by simp [hrest q hq]
    · exact ha.recycled.congr fun q hq => by simp [hR q hq]
    · intro b hb
      have hb' : b ∈ (new :: h :: rest).map v.block := hb
      obtain ⟨q, _, rfl⟩ := List.mem_map.mp hb'
      rfl
    · intro q hq
      simp only [List.mem_cons, not_or] at hq
      simp [hq]

theorem map_addr_block (v : View) (l : List Nat) : (l.map v.block).map (·.addr) = l := by
  simp [View.block, Function.comp_def]

/-- A list changed from one of its nodes on. -/
theorem Listed.of_left {l : Nat} {pre post dropped : List Nat} {left : Block} {tail : List Block}
    (hL : Chain v.next (some head) (pre ++ l :: post))
    (hpre : ∀ q ∈ pre, w.next q = v.next q ∧ w.block q = v.block q) (hl : left.addr = l)
    (hleft : w.block l = left) (htail : Chain w.next (w.next l) (tail.map (·.addr)))
    (hblocks : ∀ b ∈ tail, w.block b.addr = b) (hrec : Chain w.next w.recycled (dropped ++ R)) :
    Listed w head (pre.map v.block ++ left :: tail, dropped) R := by
  refine ⟨?_, hrec, ?_⟩
  · rw [List.map_append, map_addr_block, List.map_cons, hl]
    exact hL.relink (fun q hq => (hpre q hq).1) htail
  · simp only [List.mem_append, List.mem_map, List.mem_cons]
    rintro b (⟨q, hq, rfl⟩ | rfl | hb)
    · exact (hpre q hq).2
    · rw [hl]; exact hleft
    · exact hblocks b hb

theorem listed_left_last {l : Nat} {pre : List Nat} (hL : Chain v.next (some head) (pre ++ [l]))
    (ha : Apart v (pre ++ [l]) new R) :
    let w := ((v.setNext l (some new)).setNext new none).coalesce (some l) none new head
    Listed w.1 w.2 (pre.map v.block ++ (stitch (v.block l) (v.block new) []).1,
      (stitch (v.block l) (v.block new) []).2) R ∧ SameOff (new :: (pre ++ [l])) v w.1 := by
  have hl : l ≠ new := ha.ne (by simp)
  have hpre : ∀ q ∈ pre, q ≠ l ∧ q ≠ new := fun q hq =>
    ⟨fun e => (List.nodup_append.mp hL.nodup).2.2 q hq l (by simp) e, ha.ne (by simp [hq])⟩
  have hR : ∀ q ∈ R, q ≠ l ∧ q ≠ new := fun q hq =>
    ⟨ha.ne_recycled (by simp) hq, ha.new_ne hq⟩
  by_cases ht : v.hi l = v.lo new
  · have hw : ((v.setNext l (some new)).setNext new none).coalesce (some l) none new head =
        (((((v.setNext l (some new)).setNext new none).setHi l (v.hi new)).setNext l none).recycle
          new, head) := by
      simp [View.coalesce, Option.filter_some, ht]
    have hs : stitch (v.block l) (v.block new) [] = ([⟨l, v.lo l, v.hi new⟩], [new]) := by
      simp [stitch, View.block, ht]
    rw [hw, hs]
    refine ⟨.of_left hL (fun q hq => ?_) rfl ?_ ?_ (by simp) ⟨rfl, ?_⟩, fun q hq => ?_⟩
    · simp [View.block, hpre q hq]
    · simp [View.block, hl]
    · simp [hl]
    · simp only [View.recycle_next, if_true, View.setNext_recycled, View.setHi_recycled]
      exact ha.recycled.congr fun q hq => by simp [hR q hq]
    · simp only [List.mem_cons, List.mem_append, not_or] at hq
      simp [hq]
  · have hw : ((v.setNext l (some new)).setNext new none).coalesce (some l) none new head =
        ((v.setNext l (some new)).setNext new none, head) := by
      simp [View.coalesce, Option.filter_some, ht]
    have hs : stitch (v.block l) (v.block new) [] = ([v.block l, v.block new], []) := by
      simp [stitch, View.block, ht]
    rw [hw, hs]
    refine ⟨.of_left hL (fun q hq => ?_) rfl rfl ?_ (fun b hb => ?_) ?_, fun q hq => ?_⟩
    · simp [View.block, hpre q hq]
    · simp [View.block, hl]
    · rw [List.mem_singleton.mp hb]; rfl
    · exact ha.recycled.congr fun q hq => by simp [hR q hq]
    · simp only [List.mem_cons, List.mem_append, not_or] at hq
      simp [hq]

theorem listed_left {l r : Nat} {pre rest : List Nat}
    (hL : Chain v.next (some head) (pre ++ l :: r :: rest))
    (ha : Apart v (pre ++ l :: r :: rest) new R) :
    let w := ((v.setNext l (some new)).setNext new (some r)).coalesce (some l) (some r) new head
    Listed w.1 w.2 (pre.map v.block ++
        (stitch (v.block l) (v.block new) ((r :: rest).map v.block)).1,
      (stitch (v.block l) (v.block new) ((r :: rest).map v.block)).2) R ∧
      SameOff (new :: (pre ++ l :: r :: rest)) v w.1 := by
  have hl : l ≠ new := ha.ne (by simp)
  have hr : r ≠ new := ha.ne (by simp)
  have hnd := List.nodup_append.mp hL.nodup
  have hlr : r ≠ l := fun e => (List.nodup_cons.mp hnd.2.1).1 (by simp [e])
  have hpre : ∀ q ∈ pre, q ≠ l ∧ q ≠ r ∧ q ≠ new := fun q hq =>
    ⟨hnd.2.2 q hq l (by simp), hnd.2.2 q hq r (by simp), ha.ne (by simp [hq])⟩
  have hrest : ∀ q ∈ rest, q ≠ l ∧ q ≠ r ∧ q ≠ new := fun q hq =>
    ⟨fun e => (List.nodup_cons.mp hnd.2.1).1 (by simp [← e, hq]),
      fun e => (List.nodup_cons.mp (List.nodup_cons.mp hnd.2.1).2).1 (e ▸ hq), ha.ne (by simp [hq])⟩
  have hR : ∀ q ∈ R, q ≠ l ∧ q ≠ r ∧ q ≠ new := fun q hq =>
    ⟨ha.ne_recycled (by simp) hq, ha.ne_recycled (by simp) hq, ha.new_ne hq⟩
  have hchain : Chain v.next (v.next r) rest := hL.drop.2
  have hmap := map_addr_block v rest
  have hlr' := Ne.symm hlr
  by_cases ht : v.hi l = v.lo new
  · by_cases ht' : v.lo r = v.hi new
    · have hw : ((v.setNext l (some new)).setNext new (some r)).coalesce (some l)
          (some r) new head =
          ((((((v.setNext l (some new)).setNext new (some r)).setHi l (v.hi r)).setNext l
            (v.next r)).recycle r).recycle new, head) := by
        simp [View.coalesce, Option.filter_some, ht, ht', hlr, hr]
      have hs : stitch (v.block l) (v.block new) ((r :: rest).map v.block) =
          (⟨l, v.lo l, v.hi r⟩ :: rest.map v.block, [new, r]) := by
        simp [stitch, View.block, ht, ht']
      rw [hw, hs]
      refine ⟨.of_left hL (fun q hq => ?_) rfl ?_ ?_ ?_ ⟨rfl, ?_, ?_⟩, fun q hq => ?_⟩
      · simp [View.block, hpre q hq]
      · simp [View.block, hl, hlr']
      · simp only [hmap, View.recycle_next, if_neg hl, if_neg hlr', View.setNext_next, if_true]
        exact hchain.congr fun q hq => by simp [hrest q hq]
      · simp only [List.mem_map]
        rintro b ⟨q, hq, rfl⟩
        simp [View.block, hrest q hq]
      · simp
      · simp only [View.recycle_next, if_true, if_neg hr, View.setNext_recycled,
          View.setHi_recycled]
        exact ha.recycled.congr fun q hq => by simp [hR q hq]
      · simp only [List.mem_cons, List.mem_append, not_or] at hq
        simp [hq]
    · have hw : ((v.setNext l (some new)).setNext new (some r)).coalesce (some l)
          (some r) new head =
          (((((v.setNext l (some new)).setNext new (some r)).setHi l (v.hi new)).setNext l
            (some r)).recycle new, head) := by
        simp [View.coalesce, Option.filter_some, ht, ht']
      have hs : stitch (v.block l) (v.block new) ((r :: rest).map v.block) =
          (⟨l, v.lo l, v.hi new⟩ :: (r :: rest).map v.block, [new]) := by
        simp [stitch, View.block, ht, ht']
      rw [hw, hs]
      refine ⟨.of_left hL (fun q hq => ?_) rfl ?_ ?_ ?_ ⟨rfl, ?_⟩, fun q hq => ?_⟩
      · simp [View.block, hpre q hq]
      · simp [View.block, hl]
      · rw [map_addr_block]
        refine ⟨by simp [hl], ?_⟩
        simp only [View.recycle_next, if_neg hr, View.setNext_next, if_neg hlr, View.setHi_next]
        exact hchain.congr fun q hq => by simp [hrest q hq]
      · simp only [List.mem_map, List.mem_cons]
        rintro b ⟨q, rfl | hq, rfl⟩
        · simp [View.block, hr, hlr]
        · simp [View.block, hrest q hq]
      · simp only [View.recycle_next, if_true, View.setNext_recycled, View.setHi_recycled]
        exact ha.recycled.congr fun q hq => by simp [hR q hq]
      · simp only [List.mem_cons, List.mem_append, not_or] at hq
        simp [hq]
  · by_cases ht' : v.lo r = v.hi new
    · have hw : ((v.setNext l (some new)).setNext new (some r)).coalesce (some l)
          (some r) new head =
          (((((v.setNext l (some new)).setNext new (some r)).setLo r (v.lo new)).setNext l
            (some r)).recycle new, head) := by
        simp [View.coalesce, Option.filter_some, ht, ht']
      have hs : stitch (v.block l) (v.block new) ((r :: rest).map v.block) =
          (v.block l :: ⟨r, v.lo new, v.hi r⟩ :: rest.map v.block, [new]) := by
        simp [stitch, View.block, ht, ht']
      rw [hw, hs]
      refine ⟨.of_left hL (fun q hq => ?_) rfl ?_ ?_ ?_ ⟨rfl, ?_⟩, fun q hq => ?_⟩
      · simp [View.block, hpre q hq]
      · simp [View.block, hl, hlr']
      · refine ⟨by simp [hl], ?_⟩
        simp only [hmap, View.recycle_next, if_neg hr, View.setNext_next, if_neg hlr,
          View.setLo_next]
        exact hchain.congr fun q hq => by simp [hrest q hq]
      · simp only [List.mem_map, List.mem_cons]
        rintro b (rfl | ⟨q, hq, rfl⟩)
        · simp [View.block, hr]
        · simp [View.block, hrest q hq]
      · simp only [View.recycle_next, if_true, View.setNext_recycled, View.setLo_recycled]
        exact ha.recycled.congr fun q hq => by simp [hR q hq]
      · simp only [List.mem_cons, List.mem_append, not_or] at hq
        simp [hq]
    · have hw : ((v.setNext l (some new)).setNext new (some r)).coalesce (some l)
          (some r) new head =
          ((v.setNext l (some new)).setNext new (some r), head) := by
        simp [View.coalesce, Option.filter_some, ht, ht']
      have hs : stitch (v.block l) (v.block new) ((r :: rest).map v.block) =
          (v.block l :: (new :: r :: rest).map v.block, []) := by
        simp [stitch, View.block, ht, ht']
      rw [hw, hs]
      refine ⟨.of_left hL (fun q hq => ?_) rfl rfl ?_ ?_ ?_, fun q hq => ?_⟩
      · simp [View.block, hpre q hq]
      · rw [map_addr_block]
        refine ⟨by simp [hl], by simp, ?_⟩
        simp only [View.setNext_next, if_neg hr, if_neg hlr]
        exact hchain.congr fun q hq => by simp [hrest q hq]
      · simp only [List.mem_map]
        rintro b ⟨q, _, rfl⟩
        rfl
      · exact ha.recycled.congr fun q hq => by simp [hR q hq]
      · simp only [List.mem_cons, List.mem_append, not_or] at hq
        simp [hq]

/-- What an insertion makes of the view. -/
theorem listed_insert {h : Nat} {L : List Nat} (hL : Chain v.next (some h) L)
    (ha : Apart v L new R) :
    (∀ {pre post : List Nat} {l : Nat}, L = pre ++ l :: post →
      (∀ c ∈ pre, ¬ v.lo c ≤ v.lo new) → v.lo l ≤ v.lo new →
      let w := ((v.setNext l (some new)).setNext new (v.next l)).coalesce (some l) (v.next l) new h
      Listed w.1 w.2 (insertAndCoalesce (L.map v.block) (v.block new)) R ∧
        SameOff (new :: L) v w.1) ∧
    ((∀ c ∈ L, ¬ v.lo c ≤ v.lo new) →
      let w := (v.setNext new (some h)).coalesce none (some h) new new
      Listed w.1 w.2 (insertAndCoalesce (L.map v.block) (v.block new)) R ∧
        SameOff (new :: L) v w.1) := by
  constructor
  · rintro pre post l rfl hpre hl
    have hsplit : insertAndCoalesce ((pre ++ l :: post).map v.block) (v.block new) =
        (pre.map v.block ++ (stitch (v.block l) (v.block new) (post.map v.block)).1,
          (stitch (v.block l) (v.block new) (post.map v.block)).2) := by
      rw [List.map_append, List.map_cons]
      refine insertAndCoalesce_left (fun b hb => ?_) hl
      obtain ⟨c, hc, rfl⟩ := List.mem_map.mp hb
      exact hpre c hc
    rw [hsplit]
    have htail := hL.drop
    cases post with
    | nil =>
      have hnext : v.next l = none := htail
      rw [hnext]
      exact listed_left_last hL ha
    | cons r rest =>
      have hnext : v.next l = some r := htail.1
      rw [hnext]
      exact listed_left hL ha
  · intro hall
    obtain ⟨rest, rfl, hrest⟩ := hL.eq_cons
    rw [insertAndCoalesce_front fun b hb => by
      obtain ⟨c, hc, rfl⟩ := List.mem_map.mp hb
      exact hall c hc]
    exact listed_front hL ha

/-- **`block_insert_and_coalesce`** on the pointers is `insertAndCoalesce` on
the list. -/
theorem wp_blockInsertAndCoalesce {p : Option Nat} {L : List Nat}
    (hL : Chain s.view.next p L) (ha : Apart s.view L new R)
    (hfuel : L.length ≤ s.totalPageCount * s.pageSize)
    (hnew : p = none → s.view.next new = none) :
    wp (blockInsertAndCoalesce p new) s (fun head t =>
      Becomes s t t.view ∧
      Listed t.view head (insertAndCoalesce (L.map s.view.block) (s.view.block new)) R ∧
      SameOff (new :: L) s.view t.view) E := by
  cases p with
  | none =>
    obtain rfl := hL.eq_nil
    refine ⟨Becomes.refl s, ⟨?_, ha.recycled, ?_⟩, fun q _ => ⟨rfl, rfl, rfl⟩⟩
    · exact ⟨rfl, hnew rfl⟩
    · intro b hb
      rw [List.mem_singleton.mp hb]
      rfl
  | some h =>
    unfold blockInsertAndCoalesce
    simp only [wp_bind, wp_deref, listFuel, wp_reads]
    refine wp_mono (wp_findLeftNeighbour hL (Nat.lt_succ_of_le hfuel)) ?_ fun _ h => h
    rintro left _ ⟨rfl, ⟨rfl, hall⟩ | ⟨pre, l, post, rfl, hsplit, hpre, hl⟩⟩
    · refine wp_mono wp_insertBlock_front ?_ fun _ h => h
      rintro _ s₁ ⟨rfl, h₁⟩
      refine wp_mono wp_coalesce ?_ fun _ h => h
      rintro m s₂ ⟨rfl, h₂⟩
      have hlist := (listed_insert hL ha).2 hall
      rw [h₁.1] at h₂ ⊢
      have h := h₁.trans h₂
      rw [h.1]
      exact ⟨h, hlist⟩
    · refine wp_mono wp_insertBlock_left ?_ fun _ h => h
      rintro _ s₁ ⟨rfl, h₁⟩
      refine wp_mono wp_coalesce ?_ fun _ h => h
      rintro m s₂ ⟨rfl, h₂⟩
      have hlist := (listed_insert hL ha).1 hsplit hpre hl
      rw [h₁.1] at h₂ ⊢
      have h := h₁.trans h₂
      rw [h.1]
      exact ⟨h, hlist⟩

end Insertion

end Dp4c.Memory
