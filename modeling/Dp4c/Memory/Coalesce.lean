import Mathlib.Data.List.Perm.Basic

/-! # Lists of address ranges

The meaning of `block_insert_and_coalesce`, on lists: a block goes behind the
first block that does not begin above it, and is merged with its neighbours
there where they touch. What the list covers grows by exactly the new block,
whatever the order of the list. -/
namespace Dp4c.Memory

/-- A range `[lo, hi)` and the address of the struct that describes it. -/
structure Block where
  addr : Nat
  lo : Nat
  hi : Nat
deriving DecidableEq

namespace Block

def contains (b : Block) (x : Nat) : Bool := b.lo ≤ x && x < b.hi

/-- The number of blocks that contain an address. -/
def covers (l : List Block) (x : Nat) : Nat := l.countP fun b => b.contains x

@[simp] theorem covers_nil (x : Nat) : covers [] x = 0 := rfl

theorem covers_cons (b : Block) (l : List Block) (x : Nat) :
    covers (b :: l) x = covers l x + if b.lo ≤ x ∧ x < b.hi then 1 else 0 := by
  simp [covers, List.countP_cons, contains]

theorem covers_append (l l' : List Block) (x : Nat) :
    covers (l ++ l') x = covers l x + covers l' x := List.countP_append ..

end Block

open Block List

/-- The new block behind its left neighbour, before the blocks that followed;
with it the structs that become unused, the last one recycled first. -/
def stitch (left new : Block) : List Block → List Block × List Nat
  | [] =>
    if left.hi = new.lo then ([{ left with hi := new.hi }], [new.addr]) else ([left, new], [])
  | right :: rest =>
    if left.hi = new.lo then
      if right.lo = new.hi then ({ left with hi := right.hi } :: rest, [new.addr, right.addr])
      else ({ left with hi := new.hi } :: right :: rest, [new.addr])
    else if right.lo = new.hi then (left :: { right with lo := new.lo } :: rest, [new.addr])
    else (left :: new :: right :: rest, [])

/-- The new block in front of the list. -/
def stitchFront (new : Block) : List Block → List Block × List Nat
  | [] => ([new], [])
  | right :: rest =>
    if right.lo = new.hi then ({ right with lo := new.lo } :: rest, [new.addr])
    else (new :: right :: rest, [])

/-- The new block behind its left neighbour, if it has one. -/
def insertRight (new : Block) : List Block → Option (List Block × List Nat)
  | [] => none
  | p :: rest =>
    if p.lo ≤ new.lo then some (stitch p new rest)
    else (insertRight new rest).map fun r => (p :: r.1, r.2)

def insertAndCoalesce (l : List Block) (new : Block) : List Block × List Nat :=
  (insertRight new l).getD (stitchFront new l)

/-! ## The two places of a new block -/

theorem insertAndCoalesce_left {new l : Block} {pre post : List Block}
    (hpre : ∀ b ∈ pre, ¬ b.lo ≤ new.lo) (hl : l.lo ≤ new.lo) :
    insertAndCoalesce (pre ++ l :: post) new =
      (pre ++ (stitch l new post).1, (stitch l new post).2) := by
  have hins : insertRight new (pre ++ l :: post) =
      some (pre ++ (stitch l new post).1, (stitch l new post).2) := by
    induction pre with
    | nil => simp [insertRight, hl]
    | cons b pre ih =>
      have hb : ¬ b.lo ≤ new.lo := hpre b (List.mem_cons_self ..)
      rw [List.cons_append, insertRight, if_neg hb,
        ih fun c hc => hpre c (List.mem_cons_of_mem _ hc)]
      rfl
  rw [insertAndCoalesce, hins]
  rfl

theorem insertAndCoalesce_front {new : Block} {l : List Block}
    (h : ∀ b ∈ l, ¬ b.lo ≤ new.lo) : insertAndCoalesce l new = stitchFront new l := by
  have hins : insertRight new l = none := by
    induction l with
    | nil => rfl
    | cons b l ih =>
      rw [insertRight, if_neg (h b (List.mem_cons_self ..)),
        ih fun c hc => h c (List.mem_cons_of_mem _ hc)]
      rfl
  rw [insertAndCoalesce, hins]
  rfl

/-- Either the list has a left neighbour of the new block, or it has none. -/
theorem exists_left (new : Block) (l : List Block) :
    (∃ pre b post, l = pre ++ b :: post ∧ (∀ c ∈ pre, ¬ c.lo ≤ new.lo) ∧ b.lo ≤ new.lo) ∨
      ∀ b ∈ l, ¬ b.lo ≤ new.lo := by
  induction l with
  | nil => exact .inr (by simp)
  | cons b l ih =>
    by_cases hb : b.lo ≤ new.lo
    · exact .inl ⟨[], b, l, rfl, by simp, hb⟩
    · rcases ih with ⟨pre, c, post, rfl, hpre, hc⟩ | hl
      · refine .inl ⟨b :: pre, c, post, rfl, fun d hd => ?_, hc⟩
        rcases List.mem_cons.mp hd with rfl | hd
        · exact hb
        · exact hpre d hd
      · refine .inr fun d hd => ?_
        rcases List.mem_cons.mp hd with rfl | hd
        · exact hb
        · exact hl d hd

/-! ## What an insertion keeps -/

/-- The bounds of a block are bounds of blocks of `l`, in order. -/
def Bounded (l : List Block) (b : Block) : Prop :=
  b.lo ≤ b.hi ∧ (∃ c ∈ l, b.lo = c.lo) ∧ ∃ c ∈ l, b.hi = c.hi

/-- What holds of the result of an insertion into `l`. -/
structure Inserts (l : List Block) (new : Block) (r : List Block × List Nat) : Prop where
  covers : ∀ x, covers r.1 x = covers l x + covers [new] x
  perm : (r.2 ++ r.1.map (·.addr)).Perm (new.addr :: l.map (·.addr))
  nonempty : r.1 ≠ []
  bounds : ∀ b ∈ r.1, Bounded (new :: l) b

/-- Blocks of the list keep their bounds. -/
theorem bounds_self {l : List Block} (h : ∀ c ∈ l, c.lo ≤ c.hi) (b : Block) (hb : b ∈ l) :
    Bounded l b :=
  ⟨h b hb, ⟨b, hb, rfl⟩, b, hb, rfl⟩

/-- A block made of two that touch has their outer bounds. -/
theorem bounds_merged {l : List Block} (addr : Nat) (b c : Block) (hb : b ∈ l) (hc : c ∈ l)
    (h : b.lo ≤ c.hi) : Bounded l ⟨addr, b.lo, c.hi⟩ :=
  ⟨h, ⟨b, hb, rfl⟩, c, hc, rfl⟩

theorem stitch_inserts {left new : Block} {rest : List Block} (hl : left.lo ≤ left.hi)
    (hn : new.lo ≤ new.hi) (hr : ∀ b ∈ rest, b.lo ≤ b.hi) :
    Inserts (left :: rest) new (stitch left new rest) := by
  have hall : ∀ c ∈ new :: left :: rest, c.lo ≤ c.hi := by
    simp only [List.mem_cons]
    rintro c (rfl | rfl | hc)
    · exact hn
    · exact hl
    · exact hr c hc
  cases rest with
  | nil =>
    simp only [stitch]
    by_cases h : left.hi = new.lo
    · rw [if_pos h]
      refine ⟨fun x => ?_, List.Perm.refl _, by simp, ?_⟩
      · simp only [covers_cons, covers_nil]
        split_ifs <;> omega
      · simp only [List.mem_singleton, forall_eq]
        exact bounds_merged left.addr left new (by simp) (by simp) (by omega)
    · rw [if_neg h]
      refine ⟨fun x => ?_, List.Perm.swap .., by simp, ?_⟩
      · simp only [covers_cons, covers_nil]
        omega
      · simp only [List.mem_cons, List.not_mem_nil, or_false]
        rintro b (rfl | rfl) <;> exact bounds_self hall _ (by simp)
  | cons right rest =>
    have hright : right.lo ≤ right.hi := hr right (List.mem_cons_self ..)
    simp only [stitch]
    by_cases h : left.hi = new.lo
    · rw [if_pos h]
      by_cases h' : right.lo = new.hi
      · rw [if_pos h']
        refine ⟨fun x => ?_, ?_, by simp, ?_⟩
        · simp only [covers_cons, covers_nil]
          split_ifs <;> omega
        · exact (List.Perm.swap ..).cons _
        · simp only [List.mem_cons]
          rintro b (rfl | hb)
          · exact bounds_merged _ left right (by simp) (by simp) (by omega)
          · exact bounds_self hall b (by simp [hb])
      · rw [if_neg h']
        refine ⟨fun x => ?_, List.Perm.refl _, by simp, ?_⟩
        · simp only [covers_cons, covers_nil]
          split_ifs <;> omega
        · simp only [List.mem_cons]
          rintro b (rfl | rfl | hb)
          · exact bounds_merged _ left new (by simp) (by simp) (by omega)
          · exact bounds_self hall _ (by simp)
          · exact bounds_self hall b (by simp [hb])
    · rw [if_neg h]
      by_cases h' : right.lo = new.hi
      · rw [if_pos h']
        refine ⟨fun x => ?_, List.Perm.refl _, by simp, ?_⟩
        · simp only [covers_cons, covers_nil]
          split_ifs <;> omega
        · simp only [List.mem_cons]
          rintro b (rfl | rfl | hb)
          · exact bounds_self hall _ (by simp)
          · exact bounds_merged _ new right (by simp) (by simp) (by omega)
          · exact bounds_self hall b (by simp [hb])
      · rw [if_neg h']
        refine ⟨fun x => ?_, List.Perm.swap .., by simp, ?_⟩
        · simp only [covers_cons, covers_nil]
          omega
        · simp only [List.mem_cons]
          rintro b (rfl | rfl | rfl | hb)
          · exact bounds_self hall _ (by simp)
          · exact bounds_self hall _ (by simp)
          · exact bounds_self hall _ (by simp)
          · exact bounds_self hall b (by simp [hb])

theorem stitchFront_inserts {new : Block} {l : List Block} (hn : new.lo ≤ new.hi)
    (hl : ∀ b ∈ l, b.lo ≤ b.hi) : Inserts l new (stitchFront new l) := by
  have hall : ∀ c ∈ new :: l, c.lo ≤ c.hi := by
    simp only [List.mem_cons]
    rintro c (rfl | hc)
    · exact hn
    · exact hl c hc
  cases l with
  | nil =>
    refine ⟨fun x => by simp [stitchFront], List.Perm.refl _, by simp [stitchFront], ?_⟩
    exact fun b hb => bounds_self hall b hb
  | cons right rest =>
    have hright : right.lo ≤ right.hi := hl right (List.mem_cons_self ..)
    simp only [stitchFront]
    by_cases h : right.lo = new.hi
    · rw [if_pos h]
      refine ⟨fun x => ?_, List.Perm.refl _, by simp, ?_⟩
      · simp only [covers_cons, covers_nil]
        split_ifs <;> omega
      · simp only [List.mem_cons]
        rintro b (rfl | hb)
        · exact bounds_merged _ new right (by simp) (by simp) (by omega)
        · exact bounds_self hall b (by simp [hb])
    · rw [if_neg h]
      refine ⟨fun x => ?_, List.Perm.refl _, by simp, fun b hb => bounds_self hall b hb⟩
      simp only [covers_cons, covers_nil]
      omega

/-- What was in front of the place of an insertion stays there. -/
theorem Inserts.append {pre l : List Block} {new : Block} {r : List Block × List Nat}
    (h : Inserts l new r) (hpre : ∀ b ∈ pre, b.lo ≤ b.hi) :
    Inserts (pre ++ l) new (pre ++ r.1, r.2) := by
  refine ⟨fun x => ?_, ?_, fun he => h.nonempty (List.append_eq_nil_iff.mp he).2, fun b hb => ?_⟩
  · simp only [covers_append, h.covers x]
    omega
  · simp only [List.map_append]
    calc r.2 ++ (pre.map (·.addr) ++ r.1.map (·.addr))
        _ ~ pre.map (·.addr) ++ (r.2 ++ r.1.map (·.addr)) := List.perm_append_comm_assoc ..
        _ ~ pre.map (·.addr) ++ (new.addr :: l.map (·.addr)) := h.perm.append_left _
        _ ~ new.addr :: (pre.map (·.addr) ++ l.map (·.addr)) := List.perm_middle
  · have hsub : ∀ c ∈ new :: l, c ∈ new :: (pre ++ l) := fun c hc => by
      rcases List.mem_cons.mp hc with rfl | hc
      · exact List.mem_cons_self ..
      · exact List.mem_cons_of_mem _ (List.mem_append_right _ hc)
    rcases List.mem_append.mp hb with hb | hb
    · exact ⟨hpre b hb, ⟨b, by simp [hb], rfl⟩, b, by simp [hb], rfl⟩
    · obtain ⟨hle, ⟨c, hc, hlo⟩, d, hd, hhi⟩ := h.bounds b hb
      exact ⟨hle, ⟨c, hsub c hc, hlo⟩, d, hsub d hd, hhi⟩

/-- **Inserting** adds the new block to what the list covers, and loses none of
the structs. -/
theorem insertAndCoalesce_inserts {new : Block} {l : List Block} (hn : new.lo ≤ new.hi)
    (hl : ∀ b ∈ l, b.lo ≤ b.hi) : Inserts l new (insertAndCoalesce l new) := by
  rcases exists_left new l with ⟨pre, b, post, rfl, hpre, hb⟩ | h
  · rw [insertAndCoalesce_left hpre hb]
    have hpost : ∀ c ∈ post, c.lo ≤ c.hi := fun c hc => hl c (by simp [hc])
    exact (stitch_inserts (hl b (by simp)) hn hpost).append fun c hc => hl c (by simp [hc])
  · rw [insertAndCoalesce_front h]
    exact stitchFront_inserts hn hl

/-! ## No block gets smaller -/

/-- One block of the list contains all addresses of the block. -/
def Within (l : List Block) (b : Block) : Prop := ∃ c ∈ l, c.lo ≤ b.lo ∧ b.hi ≤ c.hi

theorem Within.of_mem {l : List Block} {b : Block} (h : b ∈ l) : Within l b :=
  ⟨b, h, Nat.le_refl _, Nat.le_refl _⟩

theorem stitch_within {left new : Block} {rest : List Block} (hl : left.lo ≤ left.hi)
    (hn : new.lo ≤ new.hi) (hr : ∀ b ∈ rest, b.lo ≤ b.hi) :
    ∀ b ∈ new :: left :: rest, Within (stitch left new rest).1 b := by
  cases rest with
  | nil =>
    simp only [stitch]
    by_cases h : left.hi = new.lo
    · rw [if_pos h]
      simp only [Within, List.mem_cons, List.not_mem_nil, or_false, forall_eq_or_imp, forall_eq,
        exists_eq_left]
      omega
    · rw [if_neg h]
      exact fun b hb => .of_mem (by simpa [or_comm] using hb)
  | cons right rest =>
    have hright := hr right List.mem_cons_self
    have hrest : ∀ l, ∀ b ∈ rest, Within (l ++ rest) b := fun l b hb =>
      .of_mem (List.mem_append_right _ hb)
    simp only [stitch, List.mem_cons, forall_eq_or_imp]
    by_cases h : left.hi = new.lo
    · rw [if_pos h]
      by_cases h' : right.lo = new.hi
      · rw [if_pos h']
        exact ⟨⟨_, List.mem_cons_self, by simp; omega, by simp; omega⟩, 
          ⟨_, List.mem_cons_self, by simp, by simp; omega⟩,
          ⟨_, List.mem_cons_self, by simp; omega, by simp⟩, hrest [_]⟩
      · rw [if_neg h']
        exact ⟨⟨_, List.mem_cons_self, by simp; omega, by simp⟩, 
          ⟨_, List.mem_cons_self, by simp, by simp; omega⟩,
          .of_mem (by simp), hrest [_, _]⟩
    · rw [if_neg h]
      by_cases h' : right.lo = new.hi
      · rw [if_pos h']
        exact ⟨⟨_, List.mem_cons_of_mem _ List.mem_cons_self, by simp, by simp; omega⟩, 
          .of_mem (by simp),
          ⟨_, List.mem_cons_of_mem _ List.mem_cons_self, by simp; omega, by simp⟩, hrest [_, _]⟩
      · rw [if_neg h']
        exact ⟨.of_mem (by simp), .of_mem (by simp), .of_mem (by simp), hrest [_, _, _]⟩

theorem stitchFront_within {new : Block} {l : List Block} (hn : new.lo ≤ new.hi)
    (hl : ∀ b ∈ l, b.lo ≤ b.hi) : ∀ b ∈ new :: l, Within (stitchFront new l).1 b := by
  cases l with
  | nil => exact fun b hb => .of_mem hb
  | cons right rest =>
    have hright := hl right List.mem_cons_self
    simp only [stitchFront]
    by_cases h : right.lo = new.hi
    · rw [if_pos h]
      simp only [List.mem_cons, forall_eq_or_imp]
      exact ⟨⟨_, List.mem_cons_self, by simp, by simp; omega⟩,
        ⟨_, List.mem_cons_self, by simp; omega, by simp⟩,
        fun b hb => .of_mem (List.mem_cons_of_mem _ hb)⟩
    · rw [if_neg h]
      exact fun b hb => .of_mem hb

/-- An insertion takes no addresses out of a block. -/
theorem insertAndCoalesce_within {new : Block} {l : List Block} (hn : new.lo ≤ new.hi)
    (hl : ∀ b ∈ l, b.lo ≤ b.hi) : ∀ b ∈ new :: l, Within (insertAndCoalesce l new).1 b := by
  rcases exists_left new l with ⟨pre, left, post, rfl, hpre, hleft⟩ | h
  · rw [insertAndCoalesce_left hpre hleft]
    have hpost := stitch_within (hl left (by simp)) hn fun b (hb : b ∈ post) => hl b (by simp [hb])
    have hright : ∀ b ∈ new :: left :: post, Within (pre ++ (stitch left new post).1) b :=
      fun b hb => by
        obtain ⟨c, hc, hbounds⟩ := hpost b hb
        exact ⟨c, List.mem_append_right _ hc, hbounds⟩
    intro b hb
    simp only [List.mem_cons, List.mem_append] at hb
    rcases hb with rfl | hb | hb
    · exact hright b List.mem_cons_self
    · exact .of_mem (List.mem_append_left _ hb)
    · exact hright b (List.mem_cons_of_mem _ (List.mem_cons.mpr hb))
  · rw [insertAndCoalesce_front h]
    exact stitchFront_within hn hl

end Dp4c.Memory
