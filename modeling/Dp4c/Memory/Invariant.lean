import Dp4c.Memory.Lists
import Mathlib.Data.List.Range

/-! # Who owns the memory

A ghost account of a state: the nodes of the lists, the list that each address
of the reserved range belongs to, and the regions handed out. While a push is
refilling its arena, the pages it has cut off the free list are `pending`:
they have their owner, but no block of a list describes them yet. -/
namespace Dp4c.Memory

open Dp4c.Lib Dp4c.Lib.Prog Block

/-- Memory handed out by an arena. -/
structure Region where
  arena : ArenaRef
  base : Nat
  size : Nat
deriving DecidableEq

def Region.Disjoint (r r' : Region) : Prop :=
  r.base + r.size ≤ r'.base ∨ r'.base + r'.size ≤ r.base

theorem Region.Disjoint.symm {r r' : Region} (h : r.Disjoint r') : r'.Disjoint r := Or.symm h

structure Ghost where
  nodes : Home → List Nat
  owner : Nat → Option Home
  regions : List Region

/-- The blocks of a list. -/
def Ghost.blocks (g : Ghost) (s : State) (h : Home) : List Block := (g.nodes h).map s.view.block

/-- The struct is on a list. -/
def Ghost.On (g : Ghost) (p : Nat) : Prop := ∃ h, p ∈ g.nodes h

/-- The addresses `init_memory` reserved. -/
def State.Reserved (s : State) (x : Nat) : Prop :=
  s.pageMemoryStart ≤ x ∧ x < s.pageMemoryStart + s.totalPageCount * s.pageSize

/-- The region of a struct. -/
def structRegion (p : Nat) : Region := ⟨.pageblockStorage, p, sizeofPageBlock⟩

structure Inv (s : State) (g : Ghost) (pending : Nat → Bool) : Prop where
  lists : Lists s g.nodes
  page : ∃ k, s.pageSize = 2 ^ k ∧ 6 < k
  start : s.pageSize ∣ s.pageMemoryStart
  small : s.totalPageCount * s.pageSize < 2 ^ 31
  reserved : ∀ x, g.owner x ≠ none ↔ s.Reserved x
  owner_ne : ∀ x, g.owner x ≠ some .recycled
  covered : ∀ h, h ≠ .recycled → ∀ x, covers ((g.nodes h).map s.view.block) x =
    if g.owner x = some h ∧ pending x = false then 1 else 0
  readWrite : ∀ x, s.readWrite (x / s.pageSize) = true ↔ ∃ a, g.owner x = some (.owned a)
  bump : ∀ a x, (s.arenas a).memoryAvail ≤ x → x < (s.arenas a).memoryLimit →
    g.owner x = some (.owned a)
  regions : ∀ r ∈ g.regions, ∀ x, r.base ≤ x → x < r.base + r.size →
    g.owner x = some (.owned r.arena) ∧
      (x < (s.arenas r.arena).memoryAvail ∨ (s.arenas r.arena).memoryLimit ≤ x)
  positive : ∀ r ∈ g.regions, 0 < r.size
  disjoint : g.regions.Pairwise Region.Disjoint
  structs : ∀ h, ∀ p ∈ g.nodes h, structRegion p ∈ g.regions

variable {s t : State} {g : Ghost} {pending : Nat → Bool}

theorem Inv.pageSize_pos (hi : Inv s g pending) : 64 < s.pageSize := by
  obtain ⟨k, hk, h6⟩ := hi.page
  have hpow : 2 ^ 7 ≤ 2 ^ k := Nat.pow_le_pow_right (by omega) h6
  omega

theorem Inv.node_reserved (hi : Inv s g pending) {h : Home} {p : Nat} (hp : p ∈ g.nodes h) :
    s.Reserved p := by
  have hr := hi.regions _ (hi.structs h p hp) p (Nat.le_refl p) (by
    simp [structRegion, sizeofPageBlock])
  exact (hi.reserved p).mp (by rw [hr.1]; simp)

/-- The loops over a list have enough fuel. -/
theorem Inv.length_le (hi : Inv s g pending) (h : Home) :
    (g.nodes h).length ≤ s.totalPageCount * s.pageSize := by
  have hsub : g.nodes h ⊆ List.range' s.pageMemoryStart (s.totalPageCount * s.pageSize) :=
    fun p hp => by
      have := hi.node_reserved hp
      simp only [State.Reserved] at this
      simp only [List.mem_range'_1]
      omega
  simpa using (List.subperm_of_subset (hi.lists.chain h).nodup hsub).length_le

/-! ## Finding a free block -/

theorem wp_findFit {E : Exit → Prop} {n : Int} :
    ∀ {l : List Nat} {fuel : Nat} {p : Option Nat}, Chain s.view.next p l → l.length < fuel →
      wp (findFit n fuel p) s (fun r t => t = s ∧
        (∀ q, r = some q → q ∈ l ∧ n ≤ (s.view.hi q : Int) - s.view.lo q) ∧
        (r = none → ∀ q ∈ l, (s.view.hi q : Int) - s.view.lo q < n)) E
  | [], 0, _, _, h => absurd h (Nat.not_lt_zero _)
  | [], fuel + 1, p, hc, _ => by
    obtain rfl : p = none := hc
    exact ⟨rfl, (fun _ h => by cases h), fun _ _ h => absurd h List.not_mem_nil⟩
  | a :: l, 0, _, _, h => absurd h (Nat.not_lt_zero _)
  | a :: l, fuel + 1, p, hc, hf => by
    obtain ⟨rfl, hc⟩ := hc
    unfold findFit
    simp only [wp_bind, wp_deref]
    by_cases ha : ((s.blocks a).memoryEnd : Int) - (s.blocks a).memoryBegin ≥ n
    · rw [if_pos ha]
      refine ⟨rfl, fun q hq => ?_, fun h => by cases h⟩
      obtain rfl := Option.some.inj hq
      exact ⟨List.mem_cons_self .., ha⟩
    · rw [if_neg ha]
      refine wp_mono (wp_findFit hc (by simpa using hf)) ?_ fun _ h => h
      rintro r t ⟨rfl, hr, hnone⟩
      refine ⟨rfl, fun q hq => ⟨List.mem_cons_of_mem _ (hr q hq).1, (hr q hq).2⟩, fun h q hq => ?_⟩
      rcases List.mem_cons.mp hq with rfl | hq
      · exact Int.lt_of_not_ge ha
      · exact hnone h q hq

theorem Inv.wp_findBlockFirstFit {E : Exit → Prop} (hi : Inv s g pending) {n : Int} :
    wp (findBlockFirstFit n) s (fun r t => t = s ∧
      (∀ q, r = some q → q ∈ g.nodes .free ∧ n ≤ (s.view.hi q : Int) - s.view.lo q) ∧
      (r = none → ∀ q ∈ g.nodes .free, (s.view.hi q : Int) - s.view.lo q < n)) E := by
  unfold findBlockFirstFit
  simp only [wp_bind, listFuel, wp_reads]
  exact wp_findFit (hi.lists.chain .free) (Nat.lt_succ_of_le (hi.length_le .free))

/-! ## Taking pages -/

/-- The first page boundary at or above `size`. -/
def roundUp (pageSize size : Nat) : Nat := (size + pageSize - 1) / pageSize * pageSize

theorem land_not_mask {n k : Nat} (hn : n < 2 ^ 32) (hk : k ≤ 32) :
    n &&& (2 ^ 32 - 1 - (2 ^ k - 1)) = n / 2 ^ k * 2 ^ k := by
  have hpow : 2 ^ k ≤ 2 ^ 32 := Nat.pow_le_pow_right (by omega) hk
  have hpos : 0 < 2 ^ k := Nat.pow_pos (by omega)
  have hmask : 2 ^ 32 - 1 - (2 ^ k - 1) = 2 ^ 32 - ((2 ^ k - 1) + 1) := by omega
  apply Nat.eq_of_testBit_eq
  intro i
  rw [hmask, Nat.testBit_and, Nat.testBit_two_pow_sub_succ (by omega), Nat.testBit_two_pow_sub_one,
    Nat.testBit_mul_two_pow, Nat.testBit_div_two_pow]
  by_cases hki : k ≤ i
  · have hlt : ¬ i < k := by omega
    have hsub : i - k + k = i := by omega
    by_cases hi : i < 32
    · simp [hki, hlt, hi, hsub]
    · have hbit : n.testBit i = false := Nat.testBit_lt_two_pow
        (Nat.lt_of_lt_of_le hn (Nat.pow_le_pow_right (by omega) (by omega)))
      simp [hsub, hbit]
  · have hlt : i < k := by omega
    simp [hki, hlt]

theorem intOfUint32_eq {x : UInt32} (h : x.toNat < 2 ^ 31) : intOfUint32 x = x.toNat := by
  unfold intOfUint32
  rw [BitVec.toInt_eq_toNat_of_lt (by rw [UInt32.toNat_toBitVec]; omega), UInt32.toNat_toBitVec]

theorem intOfUint32_neg {x : UInt32} (h : 2 ^ 31 ≤ x.toNat) : intOfUint32 x < 0 := by
  unfold intOfUint32
  rw [BitVec.toInt_eq_toNat_cond, UInt32.toNat_toBitVec, if_neg (by omega)]
  have hlt := x.toNat_lt
  omega

/-- The mask rounds what is left of `size + page_size - 1` in 32 bits. -/
theorem maskedSize_toNat {k : Nat} (hk : k < 31) (size : UInt32) :
    ((size + (2 ^ k).toUInt32 - 1) &&& ~~~((2 ^ k).toUInt32 - 1)).toNat =
      (size.toNat + 2 ^ k - 1) % 2 ^ 32 / 2 ^ k * 2 ^ k := by
  have hpos : 0 < 2 ^ k := Nat.pow_pos (by omega)
  have hle : 2 ^ k ≤ 2 ^ 30 := Nat.pow_le_pow_right (by omega) (by omega)
  have hps : (2 ^ k).toUInt32.toNat = 2 ^ k := by
    rw [Nat.toUInt32_eq, UInt32.toNat_ofNat']
    exact Nat.mod_eq_of_lt (by omega)
  have hsub : (size + (2 ^ k).toUInt32 - 1).toNat = (size.toNat + 2 ^ k - 1) % 2 ^ 32 := by
    rw [UInt32.toNat_sub, UInt32.toNat_add, hps]
    simp only [UInt32.toNat_one]
    omega
  have hmask : ((2 ^ k).toUInt32 - 1).toNat = 2 ^ k - 1 := by
    rw [UInt32.toNat_sub_of_le _ _ (by rw [UInt32.le_iff_toNat_le, hps]; simp; omega), hps]
    rfl
  have hsize : UInt32.size = 2 ^ 32 := rfl
  rw [UInt32.toNat_and, UInt32.toNat_not, hsub, hmask, hsize,
    land_not_mask (Nat.mod_lt _ (by omega)) (by omega)]

theorem le_roundUp {pageSize size : Nat} (hp : 0 < pageSize) : size ≤ roundUp pageSize size := by
  have h := Nat.div_add_mod (size + pageSize - 1) pageSize
  have hlt := Nat.mod_lt (size + pageSize - 1) hp
  unfold roundUp
  rw [Nat.mul_comm]
  omega

theorem dvd_roundUp (pageSize size : Nat) : pageSize ∣ roundUp pageSize size :=
  Nat.dvd_mul_left ..

/-- A run of pages that holds `size` bytes holds the rounded size. -/
theorem roundUp_le {pageSize size n : Nat} (hp : 0 < pageSize) (hn : pageSize ∣ n)
    (h : size ≤ n) : roundUp pageSize size ≤ n := by
  obtain ⟨m, rfl⟩ := hn
  unfold roundUp
  rw [Nat.mul_comm pageSize m]
  refine Nat.mul_le_mul_right _ (Nat.lt_succ_iff.mp ((Nat.div_lt_iff_lt_mul hp).mpr ?_))
  rw [Nat.succ_mul, Nat.mul_comm m]
  omega

theorem sizeInPageMultiples_eq {k : Nat} {size : UInt32} (hk : k < 31)
    (h : size.toNat + 2 ^ k ≤ 2 ^ 32)
    (hr : roundUp (2 ^ k) size.toNat < 2 ^ 31) :
    sizeInPageMultiples (2 ^ k) size = (roundUp (2 ^ k) size.toNat : Int) := by
  have hpos : 0 < 2 ^ k := Nat.pow_pos (by omega)
  have hnat := maskedSize_toNat hk size
  rw [Nat.mod_eq_of_lt (by omega)] at hnat
  unfold sizeInPageMultiples
  rw [intOfUint32_eq (by rw [hnat]; exact hr), hnat]
  rfl

/-- From half the range of `uint32_t` on, the rounded size is negative as an `int`. -/
theorem sizeInPageMultiples_neg {k : Nat} {size : UInt32} (hk : k < 31)
    (h : size.toNat + 2 ^ k ≤ 2 ^ 32)
    (hlarge : 2 ^ 31 ≤ size.toNat) : sizeInPageMultiples (2 ^ k) size < 0 := by
  have hpos : 0 < 2 ^ k := Nat.pow_pos (by omega)
  have hnat := maskedSize_toNat hk size
  rw [Nat.mod_eq_of_lt (by omega)] at hnat
  refine intOfUint32_neg ?_
  have hle : size.toNat ≤ (size.toNat + 2 ^ k - 1) / 2 ^ k * 2 ^ k := le_roundUp hpos
  rw [hnat]
  omega

/-- At the end of the range the sum wraps and the rounded size is zero. -/
theorem sizeInPageMultiples_zero {k : Nat} {size : UInt32} (hk : k < 31)
    (h : 2 ^ 32 < size.toNat + 2 ^ k) :
    sizeInPageMultiples (2 ^ k) size = 0 := by
  have hle : 2 ^ k ≤ 2 ^ 30 := Nat.pow_le_pow_right (by omega) (by omega)
  have hlt := size.toNat_lt
  have hmod : (size.toNat + 2 ^ k - 1) % 2 ^ 32 = size.toNat + 2 ^ k - 1 - 2 ^ 32 := by omega
  have hnat := maskedSize_toNat hk size
  rw [hmod, Nat.div_eq_of_lt (by omega), Nat.zero_mul] at hnat
  unfold sizeInPageMultiples
  rw [intOfUint32_eq (by omega), hnat]
  rfl

/-- The pages of the reserved range are fewer than `2^31` bytes. -/
theorem Inv.pageSize_small (hi : Inv s g pending) : ∃ k < 31, s.pageSize = 2 ^ k := by
  obtain ⟨k, hk, -⟩ := hi.page
  refine ⟨k, ?_, hk⟩
  have hle : s.pageSize ≤ s.totalPageCount * s.pageSize := by
    -- a node of the free list is a reserved address
    obtain ⟨p, hp⟩ := List.exists_mem_of_ne_nil _ hi.lists.free
    have hres := hi.node_reserved hp
    refine Nat.le_mul_of_pos_left _ (Nat.pos_of_ne_zero fun h0 => ?_)
    rw [State.Reserved, h0] at hres
    omega
  have hlt := Nat.lt_of_le_of_lt hle hi.small
  rw [hk] at hlt
  exact (Nat.pow_lt_pow_iff_right (by omega)).mp hlt

/-- `carve` moves the begin of the free block up by the rounded size. -/
theorem wp_carve {E : Exit → Prop} {p n : Nat} {size : UInt32}
    (hn : sizeInPageMultiples s.pageSize size = (n : Int))
    (hfit : s.view.lo p + n ≤ s.view.hi p) :
    wp (carve p size) s (fun r t => r = (s.view.lo p, s.view.lo p + n) ∧
      Becomes s t (s.view.setLo p (s.view.lo p + n))) E := by
  unfold carve
  simp only [wp_bind, wp_reads, wp_deref]
  rw [hn]
  have hlo : (s.blocks p).memoryBegin = s.view.lo p := rfl
  have hhi : (s.blocks p).memoryEnd = s.view.hi p := rfl
  rw [hlo, hhi]
  by_cases hlt : (n : Int) < (s.view.hi p : Int) - s.view.lo p
  · rw [if_pos hlt]
    simp only [wp_bind]
    have hnat : ((s.view.lo p : Int) + n).toNat = s.view.lo p + n := by omega
    rw [hnat]
    exact wp_setLo fun t ht => ⟨rfl, ht⟩
  · have heq : (n : Int) = (s.view.hi p : Int) - s.view.lo p := by omega
    rw [if_neg hlt, if_pos heq]
    simp only [wp_bind]
    have hnat : s.view.hi p = s.view.lo p + n := by omega
    rw [← hnat]
    exact wp_setLo fun t ht => ⟨rfl, ht⟩

/-- A rounded size that is negative gives an end below the begin, or zero. -/
theorem wp_carve_neg {E : Exit → Prop} {p : Nat} {size : UInt32}
    (hn : sizeInPageMultiples s.pageSize size < 0) (hle : s.view.lo p ≤ s.view.hi p) :
    wp (carve p size) s (fun r t => ∃ e, r = (s.view.lo p, e) ∧
      (s.view.lo p ≤ e → e = s.view.lo p ∧ e = 0) ∧
      Becomes s t (s.view.setLo p e)) E := by
  unfold carve
  simp only [wp_bind, wp_reads, wp_deref]
  have hlo : (s.blocks p).memoryBegin = s.view.lo p := rfl
  have hhi : (s.blocks p).memoryEnd = s.view.hi p := rfl
  rw [hlo, hhi, if_pos (by omega)]
  simp only [wp_bind]
  exact wp_setLo fun t ht => ⟨_, rfl, by omega, ht⟩

theorem ite_split {a b c x : Nat} (hab : a ≤ b) (hbc : b ≤ c) :
    (if a ≤ x ∧ x < c then 1 else 0) =
      (if b ≤ x ∧ x < c then 1 else 0) + if a ≤ x ∧ x < b then 1 else 0 := by
  split_ifs <;> omega

/-- Moving up the begin of one block takes the addresses passed off the list. -/
theorem covers_setLo (v : View) {p e : Nat} (hlo : v.lo p ≤ e) (hhi : e ≤ v.hi p) (x : Nat) :
    ∀ {l : List Nat}, l.Nodup → p ∈ l → covers (l.map v.block) x =
      covers (l.map (v.setLo p e).block) x + if v.lo p ≤ x ∧ x < e then 1 else 0
  | q :: l, hnd, hp => by
    obtain ⟨hq, hnd⟩ := List.nodup_cons.mp hnd
    simp only [List.map_cons, covers_cons]
    by_cases hqp : q = p
    · subst hqp
      have hsame : l.map (v.setLo q e).block = l.map v.block := by
        refine List.map_congr_left fun r hr => ?_
        have hne : r ≠ q := fun h => hq (h ▸ hr)
        simp [View.block, hne]
      have hself : (v.setLo q e).block q = ⟨q, e, v.hi q⟩ := by simp [View.block]
      rw [hsame, hself, Nat.add_assoc]
      exact congrArg _ (ite_split hlo hhi)
    · have hpl : p ∈ l := (List.mem_cons.mp hp).resolve_left (Ne.symm hqp)
      have hself : (v.setLo p e).block q = v.block q := by simp [View.block, hqp]
      rw [covers_setLo v hlo hhi x hnd hpl, hself]
      exact Nat.add_right_comm _ _ _

/-- A list without the block is covered as before. -/
theorem covers_setLo_other (v : View) {p : Nat} (e : Nat) {l : List Nat} (hp : p ∉ l) :
    l.map (v.setLo p e).block = l.map v.block := by
  refine List.map_congr_left fun r hr => ?_
  have hne : r ≠ p := fun h => hp (h ▸ hr)
  simp [View.block, hne]

/-- The pages `[b, e)` change their owner. -/
def Ghost.give (g : Ghost) (b e : Nat) (h : Home) : Ghost :=
  { g with owner := fun x => if b ≤ x ∧ x < e then some h else g.owner x }

/-- The addresses pending, with `[b, e)`. -/
def pendingWith (pending : Nat → Bool) (b e : Nat) (x : Nat) : Bool :=
  pending x || (b ≤ x && x < e)

theorem Ghost.give_in {b e x : Nat} (hx : b ≤ x ∧ x < e) (h : Home) :
    (g.give b e h).owner x = some h := if_pos hx

theorem Ghost.give_out {b e x : Nat} (hx : ¬ (b ≤ x ∧ x < e)) (h : Home) :
    (g.give b e h).owner x = g.owner x := if_neg hx

theorem pendingWith_in {b e x : Nat} (hx : b ≤ x ∧ x < e) : pendingWith pending b e x = true := by
  simp [pendingWith, hx]

theorem pendingWith_out {b e x : Nat} (hx : ¬ (b ≤ x ∧ x < e)) :
    pendingWith pending b e x = pending x := by
  have hf : (decide (b ≤ x) && decide (x < e)) = false := by simpa using hx
  simp [pendingWith, hf]

/-- The page of an address lies in a run of pages exactly when the address
does. -/
theorem page_mem {n b e x : Nat} (hn : 0 < n) (hb : n ∣ b) (he : n ∣ e) :
    (b ≤ x / n * n ∧ x / n * n < e) ↔ b ≤ x ∧ x < e := by
  obtain ⟨i, rfl⟩ := hb
  obtain ⟨j, rfl⟩ := he
  rw [Nat.mul_comm n i, Nat.mul_comm n j]
  constructor
  · rintro ⟨h₁, h₂⟩
    have hi : i ≤ x / n := Nat.le_of_mul_le_mul_right h₁ hn
    have hj : x / n < j := Nat.lt_of_mul_lt_mul_right h₂
    exact ⟨(Nat.le_div_iff_mul_le hn).mp hi, (Nat.div_lt_iff_lt_mul hn).mp hj⟩
  · rintro ⟨h₁, h₂⟩
    exact ⟨Nat.mul_le_mul_right _ ((Nat.le_div_iff_mul_le hn).mpr h₁),
      Nat.mul_lt_mul_of_pos_right ((Nat.div_lt_iff_lt_mul hn).mpr h₂) hn⟩

/-- Addresses of a free block are owned by nobody and not pending. -/
theorem Inv.free_owner (hi : Inv s g pending) {h : Home} (hh : h ≠ .recycled) {p x : Nat}
    (hp : p ∈ g.nodes h) (hx : s.view.lo p ≤ x ∧ x < s.view.hi p) :
    g.owner x = some h ∧ pending x = false := by
  have hpos : 0 < covers ((g.nodes h).map s.view.block) x := by
    refine List.countP_pos_iff.mpr ⟨s.view.block p, List.mem_map_of_mem hp, ?_⟩
    exact (Bool.and_eq_true _ _).mpr ⟨decide_eq_true hx.1, decide_eq_true hx.2⟩
  rw [hi.covered h hh x] at hpos
  by_cases hc : g.owner x = some h ∧ pending x = false
  · exact hc
  · rw [if_neg hc] at hpos
    exact absurd hpos (Nat.lt_irrefl 0)

/-- A block is no larger than the reserved range. -/
theorem Inv.block_small (hi : Inv s g pending) {h : Home} (hh : h ≠ .recycled) {p : Nat}
    (hp : p ∈ g.nodes h) : s.view.hi p < s.view.lo p + 2 ^ 31 := by
  by_cases hlt : s.view.lo p < s.view.hi p
  · have hfirst := (hi.free_owner hh hp (x := s.view.lo p) ⟨Nat.le_refl _, hlt⟩).1
    have hlast := (hi.free_owner hh hp (x := s.view.hi p - 1) ⟨by omega, by omega⟩).1
    have hlo := (hi.reserved _).mp (by rw [hfirst]; simp)
    have hhi := (hi.reserved _).mp (by rw [hlast]; simp)
    have hsmall := hi.small
    unfold State.Reserved at hlo hhi
    omega
  · omega

/-- **Taking pages** for an arena, from the front of a free block: they are the
arena's to hand out, and pending. -/
theorem Inv.take (hi : Inv s g pending) {p e : Nat} (hp : p ∈ g.nodes .free)
    (hlo : s.view.lo p ≤ e) (hhi : e ≤ s.view.hi p) (he : s.pageSize ∣ e) (a : ArenaRef)
    (hview : t.view = s.view.setLo p e)
    (hrest : t = { s with
      blocks := t.blocks
      readWrite := protect s (s.view.lo p) e true
      arenas := Function.update s.arenas a
        { s.arenas a with memoryAvail := s.view.lo p, memoryLimit := e } }) :
    Inv t (g.give (s.view.lo p) e (.owned a)) (pendingWith pending (s.view.lo p) e) := by
  have hfree : ∀ x, s.view.lo p ≤ x → x < e → g.owner x = some .free ∧ pending x = false :=
    fun x h₁ h₂ => hi.free_owner (by simp) hp ⟨h₁, by omega⟩
  obtain ⟨_, hlod, _⟩ := hi.lists.aligned .free (by simp) p hp
  have hview' : t.view.next = s.view.next ∧ t.view.hi = s.view.hi := by
    rw [hview]; exact ⟨rfl, rfl⟩
  have hlot : ∀ q, t.view.lo q = if q = p then e else s.view.lo q := fun q => by
    rw [hview, View.setLo_lo]
  have hps : t.pageSize = s.pageSize := by rw [hrest]
  have harena : ∀ a', t.arenas a' = if a' = a then
      { s.arenas a with memoryAvail := s.view.lo p, memoryLimit := e } else s.arenas a' :=
    fun a' => by rw [hrest]; exact Function.update_apply ..
  have hhead : ∀ h, t.head h = s.head h := fun h => by
    rw [hrest]
    cases h with
    | free => rfl
    | recycled => rfl
    | owned a' =>
      by_cases ha : a' = a
      · subst ha; simp [State.head]
      · simp [State.head, ha]
  refine ⟨?_, by rw [hps]; exact hi.page, by rw [hrest]; exact hi.start,
    by rw [hrest]; exact hi.small, fun x => ?_, fun x => ?_, fun h hh x => ?_, fun x => ?_,
    fun a' x hx hx' => ?_, fun r hr x hx hx' => ?_, hi.positive, hi.disjoint, hi.structs⟩
  · refine ⟨fun h => ?_, hi.lists.apart, fun h hh q hq => ?_, fun h hh q hq => ?_, hi.lists.free⟩
    · rw [hhead, hview'.1]
      exact hi.lists.chain h
    · rw [hlot, hview'.2, hps]
      by_cases hqp : q = p
      · subst hqp
        rw [if_pos rfl]
        exact ⟨hhi, he, (hi.lists.aligned h hh q hq).2.2⟩
      · rw [if_neg hqp]
        exact hi.lists.aligned h hh q hq
    · have habove := hi.lists.above h hh q hq
      rw [hlot, hrest]
      show s.pageMemoryStart ≤ _
      split
      · rename_i hqp
        rw [hqp] at habove
        omega
      · exact habove
  · have hres : t.Reserved x ↔ s.Reserved x := by rw [hrest]; rfl
    rw [hres]
    by_cases hx : s.view.lo p ≤ x ∧ x < e
    · rw [Ghost.give_in hx]
      have hold := (hi.reserved x).mp (by rw [(hfree x hx.1 hx.2).1]; simp)
      exact ⟨fun _ => hold, fun _ => by simp⟩
    · rw [Ghost.give_out hx]
      exact hi.reserved x
  · by_cases hx : s.view.lo p ≤ x ∧ x < e
    · rw [Ghost.give_in hx]
      simp
    · rw [Ghost.give_out hx]
      exact hi.owner_ne x
  · have hcov := hi.covered h hh x
    show covers ((g.nodes h).map t.view.block) x = _
    rw [hview]
    by_cases hx : s.view.lo p ≤ x ∧ x < e
    · -- these addresses leave the free list and are on no other list
      rw [if_neg fun hc => by rw [pendingWith_in hx] at hc; cases hc.2]
      obtain ⟨hown, hpend⟩ := hfree x hx.1 hx.2
      by_cases hhf : h = .free
      · subst hhf
        rw [covers_setLo s.view hlo hhi x (hi.lists.chain .free).nodup hp, if_pos hx,
          if_pos ⟨hown, hpend⟩] at hcov
        omega
      · rw [covers_setLo_other _ _ fun hin => hhf (hi.lists.apart _ _ p hin hp), hcov]
        refine if_neg fun hc => hhf ?_
        rw [hown] at hc
        exact (Option.some.inj hc.1).symm
    · rw [if_congr (by rw [Ghost.give_out hx, pendingWith_out hx]) rfl rfl, ← hcov]
      by_cases hhp : p ∈ g.nodes h
      · rw [covers_setLo s.view hlo hhi x (hi.lists.chain h).nodup hhp, if_neg hx, Nat.add_zero]
      · rw [covers_setLo_other _ _ hhp]
  · have hrw : t.readWrite (x / t.pageSize) =
        if s.view.lo p ≤ x ∧ x < e then true else s.readWrite (x / s.pageSize) := by
      rw [hps, hrest]
      exact if_congr (page_mem (Nat.lt_trans (by omega) hi.pageSize_pos) hlod he) rfl rfl
    rw [hrw]
    by_cases hx : s.view.lo p ≤ x ∧ x < e
    · rw [if_pos hx, Ghost.give_in hx]
      exact ⟨fun _ => ⟨a, rfl⟩, fun _ => rfl⟩
    · rw [if_neg hx, Ghost.give_out hx]
      exact hi.readWrite x
  · rw [harena] at hx hx'
    by_cases ha : a' = a
    · subst ha
      rw [if_pos rfl] at hx hx'
      exact Ghost.give_in ⟨hx, hx'⟩ _
    · rw [if_neg ha] at hx hx'
      have hown := hi.bump a' x hx hx'
      rw [Ghost.give_out fun hc => by rw [(hfree x hc.1 hc.2).1] at hown; cases hown]
      exact hown
  · obtain ⟨hown, hout⟩ := hi.regions r hr x hx hx'
    have hxe : ¬ (s.view.lo p ≤ x ∧ x < e) := fun hc => by
      rw [(hfree x hc.1 hc.2).1] at hown
      cases hown
    rw [Ghost.give_out hxe, harena]
    refine ⟨hown, ?_⟩
    by_cases ha : r.arena = a
    · rw [if_pos ha]
      show x < s.view.lo p ∨ e ≤ x
      omega
    · rw [if_neg ha]
      exact hout

end Dp4c.Memory
