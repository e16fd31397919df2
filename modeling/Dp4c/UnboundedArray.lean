import Dp4c.Cstr
import Mathlib.Data.Nat.Log

/-! # Segmented arrays (arena.c, `struct UnboundedArray`)

Segment `k` of the table holds `2^k` slots, so element `i` sits in segment
`floor_log2(i + 1)`. A segment starts with the bytes the arena hands out, so
its slots hold nothing until written. `Holds a l` says that the array's
elements are the list `l`; each operation then acts on that list. -/
namespace Dp4c

/-- `segment_table` has 24 entries; a null entry is `none`, a slot that was
never written is `none`. -/
structure UnboundedArray (α : Type) where
  segmentTable : List (Option (List (Option α)))
  elemSize : Nat
  elemCount : Nat
  capacity : Nat

def floorLog2 (x : Nat) : Nat := Nat.log2 x

namespace UnboundedArray

variable {α : Type}

def arrayInit (elemSize : Nat) : UnboundedArray α :=
  { segmentTable := List.replicate 24 none, elemSize := elemSize, elemCount := 0, capacity := 0 }

/-- `array_elem_at_i`: the segment index and the offset in the segment. -/
def arrayElemAtI (i : Nat) : Nat × Nat :=
  let segmentIndex := floorLog2 (i + 1)
  (segmentIndex, i - ((1 <<< segmentIndex) - 1))

/-- The slot of element `i`, read through the segment table. -/
def slot (a : UnboundedArray α) (i : Nat) : Option α :=
  match a.segmentTable[(arrayElemAtI i).1]? with
  | some (some segment) => (segment[(arrayElemAtI i).2]?).join
  | _ => none

/-- `array_get` with the read of the slot that its callers make. -/
def arrayGet (a : UnboundedArray α) (i : Nat) : Except Exit α :=
  if i < a.elemCount then
    match a.slot i with
    | some x => .ok x
    | none => .error .fault
  else .error (.assertion "i >= 0 && i < array->elem_count")

def arraySet (a : UnboundedArray α) (i : Nat) (elem : α) : Except Exit (UnboundedArray α) :=
  if i < a.elemCount then
    let (segmentIndex, elemOffset) := arrayElemAtI i
    match a.segmentTable[segmentIndex]? with
    | some (some segment) =>
      if elemOffset < segment.length then
        .ok { a with segmentTable :=
                a.segmentTable.set segmentIndex (some (segment.set elemOffset (some elem))) }
      else .error .fault
    | _ => .error .fault
  else .error (.assertion "i >= 0 && i < array->elem_count")

/-- The first part of `array_append`: a full array takes its next segment.
The segment's entry may lie past the end of the table. -/
def makeRoom (a : UnboundedArray α) : Except Exit (UnboundedArray α) :=
  if a.elemCount ≥ a.capacity then
    let segmentIndex := floorLog2 (a.elemCount + 1)
    let segmentCapacity := 1 <<< segmentIndex
    if segmentIndex < a.segmentTable.length then
      .ok { a with
        segmentTable := a.segmentTable.set segmentIndex (some (List.replicate segmentCapacity none))
        capacity := a.capacity + segmentCapacity }
    else .error .fault
  else .ok a

def arrayAppend (a : UnboundedArray α) (elem : α) : Except Exit (UnboundedArray α) := do
  let a ← a.makeRoom
  let a := { a with elemCount := a.elemCount + 1 }
  a.arraySet (a.elemCount - 1) elem

/-! ## Where element `i` sits -/

theorem arrayElemAtI_spec (i : Nat) :
    i + 1 = 2 ^ (arrayElemAtI i).1 + (arrayElemAtI i).2 ∧
      (arrayElemAtI i).2 < 2 ^ (arrayElemAtI i).1 := by
  have hlo : 2 ^ Nat.log2 (i + 1) ≤ i + 1 := Nat.log2_self_le (by omega)
  have hhi : i + 1 < 2 ^ (Nat.log2 (i + 1) + 1) := Nat.lt_log2_self
  simp only [arrayElemAtI, floorLog2, Nat.one_shiftLeft]
  rw [Nat.pow_succ] at hhi
  omega

/-- Position and index determine each other. -/
theorem arrayElemAtI_inj {i j : Nat} (h : arrayElemAtI i = arrayElemAtI j) : i = j := by
  have hi := (arrayElemAtI_spec i).1
  have hj := (arrayElemAtI_spec j).1
  rw [h] at hi
  omega

/-- An index below `2^k - 1` sits in one of the first `k` segments. -/
theorem arrayElemAtI_segment_lt {i k : Nat} (h : i + 1 < 2 ^ k) : (arrayElemAtI i).1 < k := by
  by_contra hk
  have hp : 2 ^ k ≤ 2 ^ (arrayElemAtI i).1 := Nat.pow_le_pow_right (by omega) (by omega)
  have := (arrayElemAtI_spec i).1
  omega

/-! ## The list an array holds -/

/-- The elements of `a` are `l`, in its first `k` segments. -/
structure Holds (a : UnboundedArray α) (l : List α) (k : Nat) : Prop where
  count : a.elemCount = l.length
  capacity : a.capacity = 2 ^ k - 1
  fits : l.length ≤ 2 ^ k - 1
  table : a.segmentTable.length = 24
  bound : k ≤ 24
  segments : ∀ j < k, ∃ seg, a.segmentTable[j]? = some (some seg) ∧ seg.length = 2 ^ j
  slots : ∀ i (h : i < l.length), a.slot i = some l[i]

theorem holds_arrayInit (n : Nat) : Holds (arrayInit n : UnboundedArray α) [] 0 :=
  ⟨rfl, rfl, by simp, by simp [arrayInit], by omega, by simp, by simp⟩

theorem Holds.arrayGet {a : UnboundedArray α} {l : List α} {k i : Nat} (h : Holds a l k)
    (hi : i < l.length) : a.arrayGet i = .ok l[i] := by
  simp only [UnboundedArray.arrayGet, h.count, hi, if_true, h.slots i hi]

/-- Writing one slot of one segment changes that slot only. -/
theorem slot_set {a : UnboundedArray α} {i : Nat} {seg : List (Option α)} {x : α}
    (hs : a.segmentTable[(arrayElemAtI i).1]? = some (some seg))
    (ho : (arrayElemAtI i).2 < seg.length) (n : Nat) (j : Nat) :
    slot ⟨a.segmentTable.set (arrayElemAtI i).1 (some (seg.set (arrayElemAtI i).2 (some x))),
      a.elemSize, n, a.capacity⟩ j = if i = j then some x else a.slot j := by
  have hlt : (arrayElemAtI i).1 < a.segmentTable.length := (List.getElem?_eq_some_iff.mp hs).1
  unfold slot
  by_cases hseg : (arrayElemAtI i).1 = (arrayElemAtI j).1
  · rw [← hseg, List.getElem?_set_self hlt, hs]
    by_cases hoff : (arrayElemAtI i).2 = (arrayElemAtI j).2
    · have hij : i = j := arrayElemAtI_inj (Prod.ext hseg hoff)
      simp [← hoff, ho, hij]
    · have hij : i ≠ j := fun e => hoff (by rw [e])
      simp [List.getElem?_set_ne hoff, hij]
  · have hij : i ≠ j := fun e => hseg (by rw [e])
    simp [List.getElem?_set_ne hseg, hij]

theorem Holds.arraySet {a : UnboundedArray α} {l : List α} {k i : Nat} (h : Holds a l k)
    (hi : i < l.length) (x : α) :
    ∃ a', a.arraySet i x = .ok a' ∧ Holds a' (l.set i x) k := by
  have hpos := arrayElemAtI_spec i
  have hfit := h.fits
  obtain ⟨seg, hs, hlen⟩ := h.segments _ (arrayElemAtI_segment_lt (i := i) (k := k) (by omega))
  have ho : (arrayElemAtI i).2 < seg.length := by rw [hlen]; exact hpos.2
  refine ⟨_, by simp only [UnboundedArray.arraySet, h.count, hi, if_true, hs, ho]; rfl, ?_⟩
  refine ⟨by simp, h.capacity, by simpa using h.fits, by simp [h.table], h.bound, ?_, ?_⟩
  · intro j hj
    by_cases hji : (arrayElemAtI i).1 = j
    · subst hji
      have hlt := (List.getElem?_eq_some_iff.mp hs).1
      exact ⟨_, List.getElem?_set_self hlt, by simpa using hlen⟩
    · simpa only [List.getElem?_set_ne hji] using h.segments j hj
  · intro j hj
    have hj' : j < l.length := by simpa using hj
    refine (slot_set hs ho _ j).trans ?_
    rw [List.getElem_set]
    split
    · rfl
    · exact h.slots j hj'

/-- A full array takes its next segment: below `2^24 - 1` elements the table
has an entry for it. -/
theorem Holds.makeRoom {a : UnboundedArray α} {l : List α} {k : Nat} (h : Holds a l k)
    (hl : l.length + 1 < 2 ^ 24) :
    ∃ a' k', a.makeRoom = .ok a' ∧ Holds a' l k' ∧ l.length < 2 ^ k' - 1 := by
  have hc := h.count; have hcap := h.capacity; have hfit := h.fits
  have hpos : 0 < 2 ^ k := Nat.pow_pos (by omega)
  by_cases hfull : a.elemCount ≥ a.capacity
  · have hk : k < 24 := by
      by_contra hk
      have hk24 : k = 24 := by have := h.bound; omega
      subst hk24; omega
    have hseg : floorLog2 (a.elemCount + 1) = k := by
      have he : a.elemCount + 1 = 2 ^ k := by omega
      rw [he, floorLog2, Nat.log2_two_pow]
    have hstep : 2 ^ (k + 1) - 1 = 2 ^ k - 1 + 2 ^ k := by rw [Nat.pow_succ]; omega
    refine ⟨⟨a.segmentTable.set k (some (List.replicate (1 <<< k) none)), a.elemSize, a.elemCount,
      a.capacity + 1 <<< k⟩, k + 1,
      by simp only [UnboundedArray.makeRoom, hfull, if_true, hseg, h.table, hk],
      ⟨hc, ?_, by omega, by simp [h.table], by omega, ?_, ?_⟩, by omega⟩
    · simp only [hcap, Nat.one_shiftLeft]; omega
    · intro j hj
      by_cases hjk : k = j
      · subst hjk
        exact ⟨_, List.getElem?_set_self (by rw [h.table]; omega), by simp [Nat.one_shiftLeft]⟩
      · simpa only [List.getElem?_set_ne hjk] using h.segments j (by omega)
    · intro i hi
      have hlt : (arrayElemAtI i).1 < k := arrayElemAtI_segment_lt (by omega)
      have hne : k ≠ (arrayElemAtI i).1 := by omega
      simpa only [slot, List.getElem?_set_ne hne] using h.slots i hi
  · exact ⟨a, k, by rw [UnboundedArray.makeRoom, if_neg hfull], h, by omega⟩

theorem Holds.arrayAppend {a : UnboundedArray α} {l : List α} {k : Nat} (h : Holds a l k)
    (hl : l.length + 1 < 2 ^ 24) (x : α) :
    ∃ a' k', a.arrayAppend x = .ok a' ∧ Holds a' (l ++ [x]) k' := by
  obtain ⟨b, k', hb, hh, hroom⟩ := h.makeRoom hl
  obtain ⟨seg, hs, hlen⟩ := hh.segments _
    (arrayElemAtI_segment_lt (i := l.length) (k := k') (by omega))
  have ho : (arrayElemAtI l.length).2 < seg.length := by
    rw [hlen]; exact (arrayElemAtI_spec _).2
  refine ⟨⟨b.segmentTable.set (arrayElemAtI l.length).1
      (some (seg.set (arrayElemAtI l.length).2 (some x))),
    b.elemSize, l.length + 1, b.capacity⟩, k', ?_, ?_⟩
  · unfold UnboundedArray.arrayAppend
    rw [hb]
    simp only [bind, Except.bind, UnboundedArray.arraySet, hh.count, Nat.add_sub_cancel,
      Nat.lt_succ_self, if_true, hs, ho]
  · refine ⟨by simp, hh.capacity, by simp; omega, by simp [hh.table], hh.bound, ?_, ?_⟩
    · intro j hj
      by_cases hji : (arrayElemAtI l.length).1 = j
      · subst hji
        have hlt := (List.getElem?_eq_some_iff.mp hs).1
        exact ⟨_, List.getElem?_set_self hlt, by simpa using hlen⟩
      · simpa only [List.getElem?_set_ne hji] using hh.segments j hj
    · intro i hi
      refine (slot_set hs ho _ i).trans ?_
      by_cases hil : l.length = i
      · subst hil; simp
      · have hlt : i < l.length := by simp at hi; omega
        rw [if_neg hil, List.getElem_append_left hlt]
        exact hh.slots i hlt

/-- With `2^24 - 1` elements the array is full and its segment table used up:
one more append writes past the table. -/
theorem Holds.arrayAppend_full {a : UnboundedArray α} {l : List α} {k : Nat} (h : Holds a l k)
    (hl : 2 ^ 24 ≤ l.length + 1) (x : α) : a.arrayAppend x = .error .fault := by
  have hc := h.count; have hcap := h.capacity; have hfit := h.fits
  have hpow : 2 ^ k ≤ 2 ^ 24 := Nat.pow_le_pow_right (by omega) h.bound
  have hpos : 0 < 2 ^ k := Nat.pow_pos (by omega)
  have hfull : a.elemCount ≥ a.capacity := by omega
  have hseg : floorLog2 (a.elemCount + 1) = 24 := by
    have he : a.elemCount + 1 = 2 ^ 24 := by omega
    rw [he, floorLog2, Nat.log2_two_pow]
  have hroom : a.makeRoom = .error .fault := by
    simp only [UnboundedArray.makeRoom, hfull, if_true, hseg, h.table, Nat.lt_irrefl, if_false]
  rw [UnboundedArray.arrayAppend, hroom]
  rfl

end UnboundedArray

end Dp4c
