import Dp4c.Memory.Invariant
import Dp4c.UnboundedArray
import Mathlib.Algebra.GroupWithZero.Nat
import Mathlib.Data.List.GetD

/-! # Segmented arrays in memory (arena.c, `struct UnboundedArray`)

The arrays with the addresses of their slots. An element is `elem_size` bytes,
a segment is memory that `arena_push` returned. Where `arena_push` puts it is a
parameter: a function of the regions it returned before and of the size. All
that is asked of it is that a new region is off the earlier ones (`Fresh`). -/
namespace Dp4c.ArrayStorage

open Dp4c.Lib Dp4c.Lib.Prog Dp4c.Memory

/-- `struct UnboundedArray`, with the 24 pointers of `segment_table`. -/
structure Array where
  segmentTable : List (Option Nat) := List.replicate 24 none
  elemSize : Nat := 0
  elemCount : Nat := 0
  capacity : Nat := 0
  storage : ArenaRef

/-- An array, the regions pushed on its storage, and the bytes of the memory. -/
structure State where
  array : Array
  regions : List Region
  memory : Nat → UInt8

abbrev ArrayM := Prog Exit State

/-- Where a region of this size goes, after these regions. -/
abbrev Pusher := List Region → UInt32 → Nat

variable (push : Pusher)

/-- `arena_push` on the storage of the array. -/
def arenaPush (size : UInt32) : ArrayM Nat := do
  let base := push (← Prog.reads (·.regions)) size
  Prog.modify fun s => { s with regions := ⟨s.array.storage, base, size.toNat⟩ :: s.regions }
  pure base

/-- The memory after `memcpy(dest, src, n)`. -/
def memcpy (memory : Nat → UInt8) (dest : Nat) (src : List UInt8) (n : Nat) (x : Nat) : UInt8 :=
  if dest ≤ x ∧ x < dest + n then src.getD (x - dest) 0 else memory x

/-- `array_init`. -/
def arrayInit (elemSize : Nat) (storage : ArenaRef) : Array :=
  { elemSize := elemSize, storage := storage }

/-- The slot that `array_elem_at_i` finds. -/
def arrayElemAtI (i : Nat) : ArrayM Nat := do
  let array ← Prog.reads (·.array)
  let position := UnboundedArray.arrayElemAtI i
  let dataSegment ← Prog.lift .fault (array.segmentTable[position.1]?).join
  pure (dataSegment + position.2 * array.elemSize)

def arrayGet (i : Nat) : ArrayM Nat := do
  Prog.check (i < (← Prog.reads (·.array)).elemCount) (.assertion "i >= 0 && i < array->elem_count")
  arrayElemAtI i

def arraySet (i : Nat) (elem : List UInt8) : ArrayM Unit := do
  Prog.check (i < (← Prog.reads (·.array)).elemCount) (.assertion "i >= 0 && i < array->elem_count")
  let elemSlot ← arrayElemAtI i
  Prog.modify fun s => { s with memory := memcpy s.memory elemSlot elem s.array.elemSize }

/-- The first part of `array_append`. The size goes to `arena_push` as a `uint32_t`. -/
def makeRoom : ArrayM Unit := do
  let array ← Prog.reads (·.array)
  if array.elemCount ≥ array.capacity then do
    let segmentIndex := floorLog2 (array.elemCount + 1)
    let segmentCapacity := 1 <<< segmentIndex
    let segment ← arenaPush push (segmentCapacity * array.elemSize).toUInt32
    Prog.check (segmentIndex < array.segmentTable.length) .fault
    Prog.modify fun s => { s with array :=
      { s.array with
        segmentTable := s.array.segmentTable.set segmentIndex (some segment)
        capacity := s.array.capacity + segmentCapacity } }
  else pure ()

def arrayAppend (elem : List UInt8) : ArrayM Unit := do
  makeRoom push
  Prog.modify fun s => { s with array := { s.array with elemCount := s.array.elemCount + 1 } }
  arraySet ((← Prog.reads (·.array)).elemCount - 1) elem

/-- A call that changes the array. -/
inductive Op where
  | append (elem : List UInt8)
  | set (i : Nat) (elem : List UInt8)
deriving DecidableEq

def exec : Op → ArrayM Unit
  | .append elem => arrayAppend push elem
  | .set i elem => arraySet i elem

def run : List Op → ArrayM Unit
  | [] => pure ()
  | op :: ops => do
    exec push op
    run ops

/-! ## What is asked of the memory -/

/-- A new region is off those that were pushed before. -/
def Fresh (push : Pusher) : Prop :=
  ∀ regions storage size, ∀ r ∈ regions,
    Region.Disjoint ⟨storage, push regions size, size.toNat⟩ r

/-- `n` bytes from `p` on. -/
def bytesAt (memory : Nat → UInt8) (p n : Nat) : List UInt8 := (List.range n).map fun k =>
    memory (p + k)

theorem bytesAt_memcpy {memory : Nat → UInt8} {p n : Nat} {elem : List UInt8}
    (h : elem.length = n) : bytesAt (memcpy memory p elem n) p n = elem := by
  refine List.ext_getElem (by simp [bytesAt, h]) fun k hk hk' => ?_
  have hlt : k < n := by simpa [bytesAt] using hk
  simp [bytesAt, memcpy, hlt, List.getElem?_eq_getElem hk']

theorem bytesAt_memcpy_off {memory : Nat → UInt8} {p q n : Nat} {elem : List UInt8}
    (h : p + n ≤ q ∨ q + n ≤ p) : bytesAt (memcpy memory p elem n) q n = bytesAt memory q n := by
  refine List.map_congr_left fun k hk => if_neg ?_
  have hlt := List.mem_range.mp hk
  omega

/-! ## The list in the memory -/

/-- The region of segment `j`. -/
def segment (storage : ArenaRef) (n j base : Nat) : Region := ⟨storage, base, 2 ^ j * n⟩

/-- The slot of element `i`, for segments at `bases`. -/
def slotAddr (n : Nat) (bases : List Nat) (i : Nat) : Nat :=
  bases.getD (UnboundedArray.arrayElemAtI i).1 0 + (UnboundedArray.arrayElemAtI i).2 * n

/-- The array holds `l`, in segments at `bases`: the regions pushed on its storage are these
segments, one region each. -/
structure Holds (s : State) (storage : ArenaRef) (n : Nat) (l : List (List UInt8))
    (bases : List Nat) : Prop where
  arena : s.array.storage = storage
  elemSize : s.array.elemSize = n
  count : s.array.elemCount = l.length
  capacity : s.array.capacity = 2 ^ bases.length - 1
  fits : l.length ≤ 2 ^ bases.length - 1
  bound : bases.length ≤ 24
  table : s.array.segmentTable = bases.map some ++ List.replicate (24 - bases.length) none
  regions : s.regions = (bases.mapIdx (segment storage n)).reverse
  disjoint : s.regions.Pairwise Region.Disjoint
  slots : ∀ i (h : i < l.length), bytesAt s.memory (slotAddr n bases i) n = l[i]

variable {push} {s t : State} {storage : ArenaRef} {n i p : Nat} {l : List (List UInt8)}
  {bases : List Nat}

theorem holds_arrayInit (storage : ArenaRef) (n : Nat) (memory : Nat → UInt8) :
    Holds ⟨arrayInit n storage, [], memory⟩ storage n [] [] :=
  ⟨rfl, rfl, rfl, rfl, Nat.zero_le _, Nat.zero_le _, rfl, rfl, .nil, fun _ h => nomatch h⟩

/-- An index of the list lies in a segment that has been pushed. -/
theorem Holds.segment_lt (h : Holds s storage n l bases) {i : Nat} (hi : i < l.length) :
    (UnboundedArray.arrayElemAtI i).1 < bases.length :=
  UnboundedArray.arrayElemAtI_segment_lt (by have := h.fits; omega)

theorem arrayElemAtI_eq
    (htable : s.array.segmentTable = bases.map some ++ List.replicate (24 - bases.length) none)
    (hsize : s.array.elemSize = n) (hi : (UnboundedArray.arrayElemAtI i).1 < bases.length) :
    arrayElemAtI i s = .ok (slotAddr n bases i, s) := by
  have hentry : s.array.segmentTable[(UnboundedArray.arrayElemAtI i).1]? =
      some (some bases[(UnboundedArray.arrayElemAtI i).1]) := by
    rw [htable, List.getElem?_append_left (by rwa [List.length_map]), List.getElem?_map,
      List.getElem?_eq_getElem hi]
    rfl
  unfold arrayElemAtI slotAddr
  simp only [bind_apply, Prog.reads, hentry, Option.join_some, Prog.lift, pure_apply, hsize,
    List.getD_eq_getElem _ _ hi]

theorem Holds.slot (h : Holds s storage n l bases)
    (hi : (UnboundedArray.arrayElemAtI i).1 < bases.length) :
    arrayElemAtI i s = .ok (slotAddr n bases i, s) := arrayElemAtI_eq h.table h.elemSize hi

/-- The segments do not overlap. -/
theorem Holds.segments_disjoint (h : Holds s storage n l bases) {j k : Nat} (hj : j < bases.length)
    (hk : k < bases.length) (hne : j ≠ k) :
    (segment storage n j bases[j]).Disjoint (segment storage n k bases[k]) := by
  have hpair := List.pairwise_reverse.mp (h.regions ▸ h.disjoint)
  have hlt : ∀ {j k : Nat} (hj : j < bases.length) (hk : k < bases.length), j < k →
      (segment storage n j bases[j]).Disjoint (segment storage n k bases[k]) :=
    fun {j k} hj hk hjk => by
      have hdisj := List.pairwise_iff_getElem.mp hpair j k (by simpa) (by simpa) hjk
      rw [List.getElem_mapIdx, List.getElem_mapIdx] at hdisj
      exact hdisj.symm
  rcases Nat.lt_or_gt_of_ne hne with hjk | hkj
  · exact hlt hj hk hjk
  · exact (hlt hk hj hkj).symm

/-- **Slots of different elements do not overlap.** -/
theorem Holds.slots_apart (h : Holds s storage n l bases) {i j : Nat}
    (hi : (UnboundedArray.arrayElemAtI i).1 < bases.length)
    (hj : (UnboundedArray.arrayElemAtI j).1 < bases.length) (hne : i ≠ j) :
    slotAddr n bases i + n ≤ slotAddr n bases j ∨ slotAddr n bases j + n ≤ slotAddr n bases i := by
  have hposi := UnboundedArray.arrayElemAtI_spec i
  have hposj := UnboundedArray.arrayElemAtI_spec j
  -- the end of a slot, counted from the start of its segment
  have hend : ∀ {o c : Nat}, o < c → o * n + n ≤ c * n := fun {o c} ho => by
    rw [← Nat.succ_mul]
    exact Nat.mul_le_mul_right n ho
  unfold slotAddr
  rw [List.getD_eq_getElem _ _ hi, List.getD_eq_getElem _ _ hj]
  by_cases hseg : (UnboundedArray.arrayElemAtI i).1 = (UnboundedArray.arrayElemAtI j).1
  · have hoff : (UnboundedArray.arrayElemAtI i).2 ≠ (UnboundedArray.arrayElemAtI j).2 := fun hoff =>
      hne (UnboundedArray.arrayElemAtI_inj (Prod.ext hseg hoff))
    have hbase : bases[(UnboundedArray.arrayElemAtI i).1] =
        bases[(UnboundedArray.arrayElemAtI j).1] := by simp only [hseg]
    rcases Nat.lt_or_gt_of_ne hoff with hlt | hgt
    · have := hend hlt
      omega
    · have := hend hgt
      omega
  · have hdisj := h.segments_disjoint hi hj hseg
    unfold Region.Disjoint segment at hdisj
    have hi' := hend hposi.2
    have hj' := hend hposj.2
    simp only at hdisj
    omega

theorem Holds.arrayGet (h : Holds s storage n l bases) {i : Nat} (hi : i < l.length) :
    ArrayStorage.arrayGet i s = .ok (slotAddr n bases i, s) := by
  have hcheck : ArrayStorage.arrayGet i s = arrayElemAtI i s := by
    show (Prog.check (i < s.array.elemCount) _ >>= _) s = _
    rw [h.count, Prog.check, if_pos hi]
    rfl
  rw [hcheck, h.slot (h.segment_lt hi)]

/-! ## The calls -/

/-- The state with other bytes in one slot. -/
def State.write (s : State) (slot : Nat) (elem : List UInt8) : State :=
  { s with memory := memcpy s.memory slot elem s.array.elemSize }

theorem arraySet_eq (hcount : i < s.array.elemCount) (hslot : arrayElemAtI i s = .ok (p, s))
    (elem : List UInt8) : arraySet i elem s = .ok ((), s.write p elem) := by
  unfold arraySet
  simp only [bind_apply, Prog.reads, Prog.check, if_pos hcount, pure_apply, hslot, Prog.modify]
  rfl

/-- Bytes written to the slot of element `i` change no other element. -/
theorem Holds.bytes_write (h : Holds s storage n l bases) {i j : Nat} {elem : List UInt8}
    (hi : (UnboundedArray.arrayElemAtI i).1 < bases.length)
    (hj : (UnboundedArray.arrayElemAtI j).1 < bases.length) (helem : elem.length = n) :
    bytesAt (s.write (slotAddr n bases i) elem).memory (slotAddr n bases j) n =
      if i = j then elem else bytesAt s.memory (slotAddr n bases j) n := by
  unfold State.write
  rw [h.elemSize]
  split
  · rename_i hij
    rw [hij]
    exact bytesAt_memcpy helem
  · rename_i hij
    exact bytesAt_memcpy_off (h.slots_apart hi hj hij)

theorem Holds.arraySet (h : Holds s storage n l bases) {i : Nat} (hi : i < l.length)
    {elem : List UInt8} (helem : elem.length = n) :
    ∃ t, ArrayStorage.arraySet i elem s = .ok ((), t) ∧ Holds t storage n (l.set i elem) bases := by
  have hseg := h.segment_lt hi
  refine ⟨_, arraySet_eq (h.count.symm ▸ hi) (h.slot hseg) elem, ?_⟩
  refine ⟨h.arena, h.elemSize, by rw [List.length_set]; exact h.count, h.capacity,
    by rw [List.length_set]; exact h.fits, h.bound, h.table, h.regions, h.disjoint, fun j hj => ?_⟩
  have hj' : j < l.length := by rwa [List.length_set] at hj
  rw [h.bytes_write hseg (h.segment_lt hj') helem, List.getElem_set]
  split
  · rfl
  · exact h.slots j hj'

theorem Holds.arraySet_out (h : Holds s storage n l bases) {i : Nat} (hi : ¬ i < l.length)
    (elem : List UInt8) :
    ArrayStorage.arraySet i elem s = .error (.assertion "i >= 0 && i < array->elem_count") := by
  unfold ArrayStorage.arraySet
  simp only [bind_apply, Prog.reads, Prog.check, if_neg (h.count.symm ▸ hi), Prog.exit]

/-- The state after a push of another segment. -/
def State.grow (s : State) (n j base : Nat) : State :=
  { s with
    array := { s.array with
      segmentTable := s.array.segmentTable.set j (some base)
      capacity := s.array.capacity + 1 <<< j }
    regions := segment s.array.storage n j base :: s.regions }

/-- A full array takes its next segment. -/
theorem Holds.makeRoom (h : Holds s storage n l bases) (hpush : Fresh push)
    (hbytes : (l.length + 1) * n < 2 ^ 32) (hl : l.length + 1 < 2 ^ 24) :
    ∃ t more, ArrayStorage.makeRoom push s = .ok ((), t) ∧ Holds t storage n l (bases ++ more) ∧
      l.length < 2 ^ (bases ++ more).length - 1 := by
  obtain rfl := h.arena
  have hcount := h.count
  have hcap := h.capacity
  have hfits := h.fits
  have hpos : 0 < 2 ^ bases.length := Nat.pow_pos (by omega)
  unfold ArrayStorage.makeRoom
  simp only [bind_apply, Prog.reads]
  by_cases hfull : s.array.elemCount ≥ s.array.capacity
  · have hbound : bases.length < 24 := by
      by_contra hge
      have h24 : bases.length = 24 := by have := h.bound; omega
      rw [h24] at hfits hcap
      omega
    have hseg : floorLog2 (s.array.elemCount + 1) = bases.length := by
      rw [show s.array.elemCount + 1 = 2 ^ bases.length by omega, floorLog2, Nat.log2_two_pow]
    rw [show l.length + 1 = 2 ^ bases.length by omega] at hbytes
    have hsize : (1 <<< bases.length * s.array.elemSize).toUInt32.toNat = 2 ^ bases.length * n := by
      rw [h.elemSize, Nat.one_shiftLeft, Nat.toUInt32_eq, UInt32.toNat_ofNat']
      exact Nat.mod_eq_of_lt hbytes
    generalize hsz : (1 <<< bases.length * s.array.elemSize).toUInt32 = size at hsize
    let base := push s.regions size
    have hfresh := hpush s.regions s.array.storage size
    rw [hsize] at hfresh
    have htable : s.array.segmentTable.length = 24 := by
      rw [h.table, List.length_append, List.length_map, List.length_replicate]
      omega
    refine ⟨s.grow n bases.length base, [base], ?_, ?_, ?_⟩
    · rw [if_pos hfull, hseg, hsz]
      simp only [bind_apply, arenaPush, Prog.reads, Prog.modify, pure_apply, Prog.check,
        if_pos (show bases.length < s.array.segmentTable.length by omega), hsize]
      rfl
    · refine ⟨h.arena, h.elemSize, hcount, ?_, ?_, ?_, ?_, ?_, ?_, fun i hi => ?_⟩
      · show s.array.capacity + 1 <<< bases.length = _
        rw [List.length_append, List.length_singleton, Nat.pow_succ, Nat.one_shiftLeft]
        omega
      · rw [List.length_append, List.length_singleton, Nat.pow_succ]
        omega
      · rw [List.length_append, List.length_singleton]
        omega
      · show s.array.segmentTable.set bases.length (some base) = _
        rw [h.table, List.set_append_right _ _ (by rw [List.length_map]), List.length_map,
          Nat.sub_self, show 24 - bases.length = 24 - (bases ++ [base]).length + 1 by
            rw [List.length_append, List.length_singleton]; omega,
          List.replicate_succ, List.set_cons_zero, List.map_append]
        simp
      · show segment s.array.storage n bases.length base :: s.regions = _
        rw [h.regions, List.mapIdx_append, List.reverse_append]
        simp
      · exact List.pairwise_cons.mpr ⟨hfresh, h.disjoint⟩
      · have hlt := h.segment_lt hi
        have haddr : slotAddr n (bases ++ [base]) i = slotAddr n bases i := by
          rw [slotAddr, List.getD_append _ _ _ _ hlt, slotAddr]
        rw [haddr]
        exact h.slots i hi
    · rw [List.length_append, List.length_singleton, Nat.pow_succ]
      omega
  · refine ⟨s, [], ?_, by rwa [List.append_nil], ?_⟩
    · rw [if_neg hfull, pure_apply]
    · rw [List.append_nil]
      omega

theorem Holds.arrayAppend (h : Holds s storage n l bases) (hpush : Fresh push)
    (hbytes : (l.length + 1) * n < 2 ^ 32) (hl : l.length + 1 < 2 ^ 24) {elem : List UInt8}
    (helem : elem.length = n) :
    ∃ t more, ArrayStorage.arrayAppend push elem s = .ok ((), t) ∧
      Holds t storage n (l ++ [elem]) (bases ++ more) := by
  obtain ⟨u, more, hu, hroom, hlt⟩ := h.makeRoom hpush hbytes hl
  let v : State := { u with array := { u.array with elemCount := u.array.elemCount + 1 } }
  have hseg : (UnboundedArray.arrayElemAtI l.length).1 < (bases ++ more).length :=
    UnboundedArray.arrayElemAtI_segment_lt (by omega)
  have hslot : arrayElemAtI l.length v = .ok (slotAddr n (bases ++ more) l.length, v) :=
    arrayElemAtI_eq hroom.table hroom.elemSize hseg
  have hcount : l.length < v.array.elemCount := by
    show l.length < u.array.elemCount + 1
    rw [hroom.count]
    exact Nat.lt_succ_self _
  refine ⟨v.write (slotAddr n (bases ++ more) l.length) elem, more, ?_, ?_⟩
  · have hset := arraySet_eq hcount hslot elem
    unfold ArrayStorage.arrayAppend
    rw [bind_of_ok hu]
    show ArrayStorage.arraySet (u.array.elemCount + 1 - 1) elem v = _
    rwa [Nat.add_sub_cancel, hroom.count]
  · refine ⟨hroom.arena, hroom.elemSize, ?_, hroom.capacity, ?_, hroom.bound, hroom.table,
      hroom.regions, hroom.disjoint, fun i hi => ?_⟩
    · show u.array.elemCount + 1 = _
      rw [hroom.count, List.length_append, List.length_singleton]
    · rw [List.length_append, List.length_singleton]
      omega
    · rw [List.length_append, List.length_singleton] at hi
      have hi' : (UnboundedArray.arrayElemAtI i).1 < (bases ++ more).length :=
        UnboundedArray.arrayElemAtI_segment_lt (by omega)
      refine (hroom.bytes_write hseg hi' helem).trans ?_
      by_cases hil : l.length = i
      · subst hil
        rw [if_pos rfl, List.getElem_concat_length rfl]
      · rw [if_neg hil, List.getElem_append_left (by omega)]
        exact hroom.slots i (by omega)

/-! ## Runs -/

/-- What a call does to a list; `array_set` takes an index of the list. -/
def Op.apply : Op → List (List UInt8) → Option (List (List UInt8))
  | .append elem, l => some (l ++ [elem])
  | .set i elem, l => if i < l.length then some (l.set i elem) else none

theorem apply_set {elem : List UInt8} (hi : i < l.length) :
    (Op.set i elem).apply l = some (l.set i elem) := if_pos hi

theorem apply_set_out {elem : List UInt8} (hi : ¬ i < l.length) : (Op.set i elem).apply l = none :=
  if_neg hi

def applyAll : List Op → List (List UInt8) → Option (List (List UInt8))
  | [], l => some l
  | op :: ops, l => (op.apply l).bind (applyAll ops)

/-- The bytes that a call copies. -/
def Op.elem : Op → List UInt8
  | .append elem => elem
  | .set _ elem => elem

/-- How many elements a call adds. -/
def Op.adds : Op → Nat
  | .append _ => 1
  | .set _ _ => 0

def adds (ops : List Op) : Nat := (ops.map Op.adds).sum

theorem Op.apply_length {op : Op} {l l' : List (List UInt8)} (h : op.apply l = some l') :
    l'.length = l.length + op.adds := by
  cases op with
  | append elem =>
    obtain rfl := Option.some.inj h
    rw [List.length_append, List.length_singleton, Op.adds]
  | set i elem =>
    by_cases hi : i < l.length
    · rw [apply_set hi] at h
      obtain rfl := Option.some.inj h
      rw [List.length_set, Op.adds, Nat.add_zero]
    · rw [apply_set_out hi] at h
      cases h

theorem applyAll_length : ∀ {ops : List Op} {l l' : List (List UInt8)},
    applyAll ops l = some l' → l'.length = l.length + adds ops
  | [], _, _, h => by
    obtain rfl := Option.some.inj h
    rfl
  | op :: ops, l, l', h => by
    obtain ⟨m, hm, hrest⟩ := Option.bind_eq_some_iff.mp h
    have hlen := Op.apply_length hm
    have hall := applyAll_length hrest
    simp only [adds, List.map_cons, List.sum_cons] at hall ⊢
    omega

/-- One call: the array holds the new list, or the index was out of range. -/
theorem Holds.exec (h : Holds s storage n l bases) (hpush : Fresh push) {op : Op}
    (hsize : op.elem.length = n) (hbytes : (l.length + op.adds) * n < 2 ^ 32)
    (hcount : l.length + op.adds < 2 ^ 24) :
    match op.apply l with
    | some l' => ∃ t more, ArrayStorage.exec push op s = .ok ((), t) ∧
        Holds t storage n l' (bases ++ more)
    | none => ArrayStorage.exec push op s =
        .error (.assertion "i >= 0 && i < array->elem_count") := by
  cases op with
  | append elem => exact h.arrayAppend hpush hbytes hcount hsize
  | set i elem =>
    by_cases hi : i < l.length
    · rw [apply_set hi]
      obtain ⟨t, ht, hset⟩ := h.arraySet hi hsize
      exact ⟨t, [], ht, by rwa [List.append_nil]⟩
    · rw [apply_set_out hi]
      exact h.arraySet_out hi elem

theorem Holds.run (hpush : Fresh push) : ∀ {ops : List Op} {s : State} {l : List (List UInt8)}
    {bases : List Nat}, Holds s storage n l bases → (∀ op ∈ ops, op.elem.length = n) →
    (l.length + adds ops) * n < 2 ^ 32 → l.length + adds ops < 2 ^ 24 →
    match applyAll ops l with
    | some l' => ∃ t more, ArrayStorage.run push ops s = .ok ((), t) ∧
        Holds t storage n l' (bases ++ more)
    | none => ArrayStorage.run push ops s =
        .error (.assertion "i >= 0 && i < array->elem_count")
  | [], s, l, bases, h, _, _, _ => ⟨s, [], rfl, by rwa [List.append_nil]⟩
  | op :: ops, s, l, bases, h, hsize, hbytes, hcount => by
    have hadds : adds (op :: ops) = op.adds + adds ops := by simp [adds]
    rw [hadds, ← Nat.add_assoc] at hbytes
    have hstep := h.exec hpush (hsize op List.mem_cons_self)
      (Nat.lt_of_le_of_lt (Nat.mul_le_mul_right n (Nat.le_add_right _ _)) hbytes) (by omega)
    unfold ArrayStorage.run applyAll
    cases hl : op.apply l with
    | none =>
      rw [hl] at hstep
      exact bind_of_error hstep _
    | some l' =>
      rw [hl] at hstep
      obtain ⟨t, more, ht, hholds⟩ := hstep
      rw [← Op.apply_length hl] at hbytes
      have hrest := Holds.run hpush hholds (fun op hop => hsize op (List.mem_cons_of_mem _ hop))
        hbytes (by have := Op.apply_length hl; omega)
      rw [bind_of_ok ht, Option.bind_some]
      cases hl' : applyAll ops l' with
      | none =>
        rw [hl'] at hrest
        exact hrest
      | some l'' =>
        rw [hl'] at hrest
        obtain ⟨u, more', hu, hholds'⟩ := hrest
        exact ⟨u, more ++ more', hu, by rwa [← List.append_assoc]⟩

/-- What the callers see of an array that holds `l`: each element at an address of its own,
and in `segment_table` the segments that were pushed, each once. -/
structure Refines (s : State) (l : List (List UInt8)) : Prop where
  count : s.array.elemCount = l.length
  get : ∀ i (h : i < l.length), ∃ slot, arrayGet i s = .ok (slot, s) ∧
    bytesAt s.memory slot s.array.elemSize = l[i]
  apart : ∀ i j p q, i ≠ j → arrayGet i s = .ok (p, s) → arrayGet j s = .ok (q, s) →
    p + s.array.elemSize ≤ q ∨ q + s.array.elemSize ≤ p
  segments : ∃ bases : List Nat, s.array.capacity = 2 ^ bases.length - 1 ∧
    s.array.segmentTable = bases.map some ++ List.replicate (24 - bases.length) none ∧
    s.regions = (bases.mapIdx (segment s.array.storage s.array.elemSize)).reverse

theorem lt_of_arrayGet (h : arrayGet i s = .ok (p, t)) : i < s.array.elemCount := by
  by_contra hi
  unfold arrayGet at h
  simp only [bind_apply, Prog.reads, Prog.check, if_neg hi, Prog.exit] at h
  cases h

theorem Holds.refines (h : Holds s storage n l bases) : Refines s l := by
  obtain rfl := h.arena
  obtain rfl := h.elemSize
  refine ⟨h.count, fun i hi => ⟨_, h.arrayGet hi, h.slots i hi⟩, fun i j p q hne hp hq => ?_,
    ⟨bases, h.capacity, h.table, h.regions⟩⟩
  have hi : i < l.length := h.count ▸ lt_of_arrayGet hp
  have hj : j < l.length := h.count ▸ lt_of_arrayGet hq
  rw [h.arrayGet hi] at hp
  rw [h.arrayGet hj] at hq
  cases hp
  cases hq
  exact h.slots_apart (h.segment_lt hi) (h.segment_lt hj) hne

/-- The address of an element stays when the array grows. -/
theorem Holds.arrayGet_stays {more : List Nat} {l' : List (List UInt8)}
    (h : Holds s storage n l bases) (h' : Holds t storage n l' (bases ++ more))
    (hle : l.length ≤ l'.length) (hp : ArrayStorage.arrayGet i s = .ok (p, s)) :
    ArrayStorage.arrayGet i t = .ok (p, t) := by
  have hi : i < l.length := h.count ▸ lt_of_arrayGet hp
  rw [h.arrayGet hi] at hp
  cases hp
  rw [h'.arrayGet (Nat.lt_of_lt_of_le hi hle)]
  unfold slotAddr
  rw [List.getD_append _ _ _ _ (h.segment_lt hi)]

/-- **An array is a list**: every sequence of calls with fewer than `2^24` elements does to it
what it does to a list, up to an `array_set` out of range; and an element stays where it is.
The elements together are no more bytes than a `uint32_t` counts, as the memory is. -/
theorem run_refines (push : Pusher) (hpush : Fresh push) (storage : ArenaRef) (n : Nat)
    (memory : Nat → UInt8) (ops more : List Op) (hsize : ∀ op ∈ ops ++ more, op.elem.length = n)
    (hbytes : adds (ops ++ more) * n < 2 ^ 32) (hcount : adds (ops ++ more) < 2 ^ 24) :
    match applyAll ops [] with
    | some l => ∃ s, run push ops ⟨arrayInit n storage, [], memory⟩ = .ok ((), s) ∧ Refines s l ∧
        ∀ t, run push more s = .ok ((), t) → ∀ i slot, arrayGet i s = .ok (slot, s) →
          arrayGet i t = .ok (slot, t)
    | none => run push ops ⟨arrayInit n storage, [], memory⟩ =
        .error (.assertion "i >= 0 && i < array->elem_count") := by
  have hadds : adds (ops ++ more) = adds ops + adds more := by simp [adds]
  rw [hadds] at hbytes hcount
  have hrun := (holds_arrayInit storage n memory).run hpush
    (fun op hop => hsize op (List.mem_append_left _ hop))
    (by
      rw [List.length_nil, Nat.zero_add]
      exact Nat.lt_of_le_of_lt (Nat.mul_le_mul_right n (Nat.le_add_right _ _)) hbytes)
    (by rw [List.length_nil]; omega)
  cases hl : applyAll ops [] with
  | none =>
    rw [hl] at hrun
    exact hrun
  | some l =>
    rw [hl] at hrun
    obtain ⟨s, bases, hs, hholds⟩ := hrun
    refine ⟨s, hs, hholds.refines, fun t ht i slot hget => ?_⟩
    have hlen := applyAll_length hl
    rw [List.length_nil, Nat.zero_add] at hlen
    have hmore := hholds.run hpush (fun op hop => hsize op (List.mem_append_right _ hop))
      (by rwa [hlen]) (by rwa [hlen])
    cases hl' : applyAll more l with
    | none =>
      rw [hl', ht] at hmore
      cases hmore
    | some l' =>
      rw [hl'] at hmore
      obtain ⟨t', more', ht', hholds'⟩ := hmore
      obtain rfl : t = t' := by
        rw [ht] at ht'
        injection ht' with ht'
        exact congrArg Prod.snd ht'
      exact hholds.arrayGet_stays hholds' (by have := applyAll_length hl'; omega) hget

/-- Each region behind the last one, from the second page on, as `arena_push` does while a
page lasts. -/
def pushBehind : Pusher := fun regions _ => (regions.map fun r => r.base + r.size).foldr max 69632

theorem fresh_pushBehind : Fresh pushBehind := by
  intro regions storage size r hr
  have hle : ∀ {l : List Nat} {n : Nat}, n ∈ l → n ≤ l.foldr max 69632 := fun {l n} hn => by
    induction l with
    | nil => cases hn
    | cons m l ih =>
      rw [List.foldr_cons]
      rcases List.mem_cons.mp hn with rfl | hn
      · exact Nat.le_max_left _ _
      · exact Nat.le_trans (ih hn) (Nat.le_max_right _ _)
  exact .inr (hle (List.mem_map_of_mem hr))

theorem run_refines_some : ∃ s,
    run pushBehind [.append [1, 2], .append [3, 4], .set 0 [5, 6]]
      ⟨arrayInit 2 (.client 0), [], fun _ => 0⟩ = .ok ((), s) ∧ Refines s [[5, 6], [3, 4]] ∧
    ∀ t, run pushBehind [.append [7, 8]] s = .ok ((), t) → ∀ i slot,
      arrayGet i s = .ok (slot, s) → arrayGet i t = .ok (slot, t) :=
  run_refines pushBehind fresh_pushBehind (.client 0) 2 (fun _ => 0)
    [.append [1, 2], .append [3, 4], .set 0 [5, 6]] [.append [7, 8]] (by decide) (by decide)
    (by decide)

/-- The array without addresses and the one in memory agree on every element. -/
theorem Holds.agrees {a : UnboundedArray (List UInt8)} {k : Nat} (h : Holds s storage n l bases)
    (ha : a.Holds l k) (hi : i < l.length) :
    ∃ slot, ArrayStorage.arrayGet i s = .ok (slot, s) ∧
      a.arrayGet i = .ok (bytesAt s.memory slot n) :=
  ⟨_, h.arrayGet hi, by rw [ha.arrayGet hi, h.slots i hi]⟩

end Dp4c.ArrayStorage
