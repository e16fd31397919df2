import Dp4c.Memory.Delete
import Dp4c.Memory.Refill

/-! # Runs of the allocator

`init_memory` sets the account up, every `arena_push` and `arena_delete` of a
run keeps it, and what the account says of a state is read off the state
itself: the memory handed out does not overlap, and the lists part the
reserved range. -/
namespace Dp4c.Memory

open Dp4c.Lib Dp4c.Lib.Prog Block

variable {s t : State} {g : Ghost} {pageSize start memoryAmount : Nat}

/-! ## The start -/

/-- What `getpagesize` and `mmap` give, and the amount asked for. -/
structure Setup (pageSize start memoryAmount : Nat) : Prop where
  power : ∃ k, pageSize = 2 ^ k
  large : 64 < pageSize
  twoPages : 2 ≤ memoryAmount / pageSize
  amount : memoryAmount < 2 ^ 31
  aligned : pageSize ∣ start

/-- The lists after `init_memory`. -/
def initNodes (start : Nat) : Home → List Nat
  | .free => [start + sizeofPageBlock]
  | .owned .pageblockStorage => [start]
  | _ => []

/-- The owners after `init_memory`. -/
def initOwner (start pageSize totalPageCount x : Nat) : Option Home :=
  if start ≤ x ∧ x < start + pageSize then some (.owned .pageblockStorage)
  else if start + pageSize ≤ x ∧ x < start + totalPageCount * pageSize then some .free
  else none

theorem initOwner_ne_none (h : 2 ≤ memoryAmount / pageSize) (x : Nat) :
    initOwner start pageSize (memoryAmount / pageSize) x ≠ none ↔
      start ≤ x ∧ x < start + memoryAmount / pageSize * pageSize := by
  have hmul : 2 * pageSize ≤ memoryAmount / pageSize * pageSize := Nat.mul_le_mul_right _ h
  unfold initOwner
  split_ifs with h₁ h₂
  · simp only [ne_eq, reduceCtorEq, not_false_eq_true, true_iff]
    omega
  · simp only [ne_eq, reduceCtorEq, not_false_eq_true, true_iff]
    omega
  · simp only [ne_eq, not_true_eq_false, false_iff]
    omega

theorem mem_initNodes {h : Home} {p : Nat} (hp : p ∈ initNodes start h) :
    (h = .free ∧ p = start + sizeofPageBlock) ∨ (h = .owned .pageblockStorage ∧ p = start) := by
  match h, hp with
  | .free, hp => exact .inl ⟨rfl, List.mem_singleton.mp hp⟩
  | .owned .pageblockStorage, hp => exact .inr ⟨rfl, List.mem_singleton.mp hp⟩

/-- The view of the first two structs. -/
theorem initMemory_view (hs : Setup pageSize start memoryAmount) :
    (initMemory pageSize start memoryAmount).view.block start = ⟨start, start, start + pageSize⟩ ∧
    (initMemory pageSize start memoryAmount).view.block (start + sizeofPageBlock) =
      ⟨start + sizeofPageBlock, start + pageSize,
        start + memoryAmount / pageSize * pageSize⟩ := by
  have hend : start + pageSize + (memoryAmount / pageSize - 1) * pageSize =
      start + memoryAmount / pageSize * pageSize := by
    obtain ⟨n, hn⟩ : ∃ n, memoryAmount / pageSize = n + 1 :=
      ⟨memoryAmount / pageSize - 1, by have := hs.twoPages; omega⟩
    rw [hn, Nat.add_sub_cancel, Nat.succ_mul]
    omega
  constructor
  · simp [initMemory, State.view, View.block]
  · simp [initMemory, State.view, View.block, sizeofPageBlock, hend]

theorem initMemory_lists (hs : Setup pageSize start memoryAmount) :
    Lists (initMemory pageSize start memoryAmount) (initNodes start) := by
  obtain ⟨hfirst, hsecond⟩ := initMemory_view hs
  have htotal := hs.twoPages
  have hmul : 2 * pageSize ≤ memoryAmount / pageSize * pageSize := Nat.mul_le_mul_right _ htotal
  refine ⟨fun h => ?_, fun h h' p hp hp' => ?_, fun h _ p hp => ?_, fun h _ p hp => ?_,
    by simp [initNodes]⟩
  · match h with
    | .free => exact ⟨rfl, by simp [initMemory, State.view, sizeofPageBlock, Chain]⟩
    | .recycled => exact rfl
    | .owned .pageblockStorage => exact ⟨rfl, by simp [initMemory, State.view, Chain]⟩
    | .owned (.client n) => exact rfl
  · have hne : start + sizeofPageBlock ≠ start := by simp [sizeofPageBlock]
    rcases mem_initNodes hp with ⟨rfl, rfl⟩ | ⟨rfl, rfl⟩
    · rcases mem_initNodes hp' with ⟨rfl, _⟩ | ⟨rfl, h⟩
      · rfl
      · exact absurd h hne
    · rcases mem_initNodes hp' with ⟨rfl, h⟩ | ⟨rfl, _⟩
      · exact absurd h.symm hne
      · rfl
  · have hself : pageSize ∣ pageSize := Nat.dvd_refl _
    show _ ∧ pageSize ∣ _ ∧ pageSize ∣ _
    rcases mem_initNodes hp with ⟨rfl, rfl⟩ | ⟨rfl, rfl⟩
    · have hlo := congrArg Block.lo hsecond
      have hhi := congrArg Block.hi hsecond
      simp only [View.block] at hlo hhi
      rw [hlo, hhi]
      exact ⟨by omega, Nat.dvd_add hs.aligned hself,
        Nat.dvd_add hs.aligned (Nat.dvd_mul_left ..)⟩
    · have hlo := congrArg Block.lo hfirst
      have hhi := congrArg Block.hi hfirst
      simp only [View.block] at hlo hhi
      rw [hlo, hhi]
      exact ⟨Nat.le_add_right .., hs.aligned, Nat.dvd_add hs.aligned hself⟩
  · show start ≤ _
    rcases mem_initNodes hp with ⟨rfl, rfl⟩ | ⟨rfl, rfl⟩
    · have hlo := congrArg Block.lo hsecond
      simp only [View.block] at hlo
      omega
    · have hlo := congrArg Block.lo hfirst
      simp only [View.block] at hlo
      omega

/-- **`init_memory`** sets the account up. -/
theorem initMemory_inv (hs : Setup pageSize start memoryAmount) :
    Inv (initMemory pageSize start memoryAmount)
      ⟨initNodes start, initOwner start pageSize (memoryAmount / pageSize),
        [structRegion start, structRegion (start + sizeofPageBlock)]⟩ fun _ => false := by
  obtain ⟨hfirst, hsecond⟩ := initMemory_view hs
  have htotal := hs.twoPages
  have hmul : 2 * pageSize ≤ memoryAmount / pageSize * pageSize := Nat.mul_le_mul_right _ htotal
  have hlarge := hs.large
  have hstorage : ∀ x, start ≤ x → x < start + pageSize →
      initOwner start pageSize (memoryAmount / pageSize) x = some (.owned .pageblockStorage) :=
    fun x h₁ h₂ => if_pos ⟨h₁, h₂⟩
  refine ⟨initMemory_lists hs, ?_, hs.aligned, ?_, fun x => initOwner_ne_none htotal x,
    fun x => ?_, fun h _ x => ?_, fun x => ?_, fun a x hx hx' => ?_,
    fun r hr x hx hx' => ?_, fun r hr => ?_, ?_, fun h p hp => ?_⟩
  · obtain ⟨k, hk⟩ := hs.power
    refine ⟨k, hk, (Nat.pow_lt_pow_iff_right (a := 2) (by omega)).mp ?_⟩
    show 2 ^ 6 < 2 ^ k
    omega
  · exact Nat.lt_of_le_of_lt (Nat.div_mul_le_self ..) hs.amount
  · show initOwner start pageSize (memoryAmount / pageSize) x ≠ _
    unfold initOwner
    split_ifs <;> simp
  · show covers ((initNodes start h).map (initMemory pageSize start memoryAmount).view.block) x =
      if initOwner start pageSize (memoryAmount / pageSize) x = some h ∧ _ then 1 else 0
    unfold initOwner
    match h with
    | .free =>
      simp only [initNodes, List.map_cons, List.map_nil, covers_cons, covers_nil, hsecond]
      split_ifs with h₁ h₂ h₃ h₄ <;> simp_all
      omega
    | .recycled => simp [initNodes, covers_nil]; split_ifs <;> simp
    | .owned .pageblockStorage =>
      simp only [initNodes, List.map_cons, List.map_nil, covers_cons, covers_nil, hfirst]
      split_ifs <;> simp_all
    | .owned (.client n) => simp [initNodes, covers_nil]; split_ifs <;> simp
  · have hdvd : pageSize ∣ start + pageSize := Nat.dvd_add hs.aligned (Nat.dvd_refl _)
    have hpage := page_mem (x := x) (by omega) hs.aligned hdvd
    show (start ≤ x / pageSize * pageSize && x / pageSize * pageSize < start + pageSize) = true ↔
      ∃ a, initOwner start pageSize (memoryAmount / pageSize) x = some (.owned a)
    rw [Bool.and_eq_true, decide_eq_true_iff, decide_eq_true_iff, hpage]
    constructor
    · exact fun h => ⟨.pageblockStorage, hstorage x h.1 h.2⟩
    · rintro ⟨a, ha⟩
      unfold initOwner at ha
      split_ifs at ha with h₁ h₂
      · exact h₁
      · cases Option.some.inj ha
  · cases a with
    | client n => exact absurd hx' (Nat.not_lt_zero x)
    | pageblockStorage =>
      have hx : start + 2 * sizeofPageBlock ≤ x := hx
      exact hstorage x (by omega) hx'
  · have hsz : sizeofPageBlock = 32 := rfl
    have hrx : r.arena = .pageblockStorage ∧ start ≤ x ∧ x < start + 2 * sizeofPageBlock := by
      simp only [List.mem_cons, List.not_mem_nil, or_false] at hr
      rcases hr with rfl | rfl
      · simp only [structRegion] at hx hx'
        exact ⟨rfl, by omega, by omega⟩
      · simp only [structRegion] at hx hx'
        exact ⟨rfl, by omega, by omega⟩
    rw [hrx.1]
    exact ⟨hstorage x hrx.2.1 (by omega), .inl hrx.2.2⟩
  · simp only [List.mem_cons, List.not_mem_nil, or_false] at hr
    have hpos : 0 < sizeofPageBlock := by decide
    rcases hr with rfl | rfl <;> exact hpos
  · simp [Region.Disjoint, structRegion]
  · rcases mem_initNodes hp with ⟨_, rfl⟩ | ⟨_, rfl⟩ <;> simp

/-! ## Runs -/

/-- A call of a client of the allocator. -/
inductive Op where
  | push (arena : Nat) (size : UInt32)
  | delete (arena : Nat)
deriving DecidableEq

/-- The sizes a client may ask for. -/
def Op.Admissible (pageSize : Nat) : Op → Prop
  | .push _ size => 0 < size.toNat ∧ size.toNat ≤ 2 ^ 31 - 1 - pageSize
  | .delete _ => True

instance (pageSize : Nat) : (op : Op) → Decidable (op.Admissible pageSize)
  | .push _ size => inferInstanceAs
      (Decidable (0 < size.toNat ∧ size.toNat ≤ 2 ^ 31 - 1 - pageSize))
  | .delete _ => inferInstanceAs (Decidable True)

/-- A call, with the live allocations: those of arenas not deleted since. -/
def exec (live : List Region) : Op → ArenaM (List Region)
  | .push n size => do
    let p ← arenaPush (.client n) size
    pure (⟨.client n, p, size.toNat⟩ :: live)
  | .delete n => do
    arenaDelete (.client n)
    pure (live.filter (·.arena ≠ .client n))

def run : List Op → List Region → ArenaM (List Region)
  | [], live => pure live
  | op :: ops, live => do run ops (← exec live op)

/-- The account of a run: its regions that are not structs are the live
allocations. -/
def Accounted (pageSize : Nat) (live : List Region) (s : State) : Prop :=
  s.pageSize = pageSize ∧ ∃ g, Inv s g (fun _ => false) ∧
    g.regions.filter (·.arena ≠ .pageblockStorage) = live

theorem wp_exec {live : List Region} (h : Accounted pageSize live s) {op : Op}
    (hop : op.Admissible pageSize) :
    wp (exec live op) s (Accounted pageSize) (fun e => e = .outOfMemory) := by
  obtain ⟨hps, g, hi, rfl⟩ := h
  cases op with
  | push n size =>
    unfold exec
    simp only [wp_bind]
    refine wp_mono (hi.wp_arenaPush n hop.1 (by have := hop.2; omega)) ?_ fun _ h => h.1
    rintro p t ⟨g', rest, hpushed⟩
    have hext := hpushed.ext
    obtain ⟨new, hnew, hall⟩ := hext.regions
    refine ⟨hext.fixed.1.trans hps, g', hpushed.inv, ?_⟩
    have hnil : new.filter (·.arena ≠ .pageblockStorage) = [] :=
      List.filter_eq_nil_iff.mpr fun r hr => by simp [hall r hr]
    have hrest : rest = new ++ g.regions := hnew
    rw [hpushed.region, hrest, List.filter_cons_of_pos (by simp), List.filter_append, hnil]
    rfl
  | delete n =>
    unfold exec
    simp only [wp_bind]
    refine wp_mono (hi.wp_arenaDelete n) ?_ fun _ h => h
    rintro _ t ⟨g', hit, hreg, hps', -⟩
    refine ⟨hps'.trans hps, g', hit, ?_⟩
    rw [hreg, List.filter_filter, List.filter_filter]
    exact congrArg (List.filter · _) (funext fun r => Bool.and_comm _ _)

theorem wp_run : ∀ {ops : List Op} {live : List Region} {s : State}, Accounted pageSize live s →
    (∀ op ∈ ops, op.Admissible pageSize) →
    wp (run ops live) s (Accounted pageSize) (fun e => e = .outOfMemory)
  | [], _, _, h, _ => h
  | op :: ops, live, s, h, hops => by
    simp only [run, wp_bind]
    refine wp_mono (wp_exec h (hops op (List.mem_cons_self ..))) (fun live' t ht => ?_) fun _ h => h
    exact wp_run ht fun op hop => hops op (List.mem_cons_of_mem _ hop)

/-- **Every run** keeps the account, and ends early in `Out of memory` only. -/
theorem run_accounted (hs : Setup pageSize start memoryAmount) {ops : List Op}
    (hops : ∀ op ∈ ops, op.Admissible pageSize) :
    wp (run ops []) (initMemory pageSize start memoryAmount) (Accounted pageSize)
      (fun e => e = .outOfMemory) :=
  wp_run ⟨rfl, _, initMemory_inv hs, by simp [structRegion]⟩ hops

/-! ## What the account says of a state -/

/-- The struct is on the list, following the links from its head. -/
def State.OnList (s : State) (h : Home) (p : Nat) : Prop :=
  ∃ l, Chain s.view.next (s.head h) l ∧ p ∈ l

theorem Inv.onList_iff {pending : Nat → Bool} (hi : Inv s g pending) {h : Home} {p : Nat} :
    s.OnList h p ↔ p ∈ g.nodes h :=
  ⟨fun ⟨_, hl, hp⟩ => (hl.unique (hi.lists.chain h)) ▸ hp, fun hp => ⟨_, hi.lists.chain h, hp⟩⟩

/-- The live allocations and the structs on the lists do not overlap, and the
live allocations are in blocks of their own arenas. -/
structure Separate (live : List Region) (s : State) : Prop where
  lists : ∀ h, ∃ l, Chain s.view.next (s.head h) l
  disjoint : live.Pairwise Region.Disjoint
  structs : ∀ h h' p p', s.OnList h p → s.OnList h' p' → p ≠ p' →
    (structRegion p).Disjoint (structRegion p')
  apart : ∀ r ∈ live, ∀ h p, s.OnList h p → r.Disjoint (structRegion p)
  owned : ∀ r ∈ live, ∀ x, r.base ≤ x → x < r.base + r.size →
    ∃ p, s.OnList (.owned r.arena) p ∧ s.view.lo p ≤ x ∧ x < s.view.hi p

/-- An address is covered exactly when its owner has a block there. -/
theorem Inv.block_iff (hi : Inv s g fun _ => false) {h : Home} (hh : h ≠ .recycled) {x : Nat} :
    g.owner x = some h ↔ ∃ p, s.OnList h p ∧ s.view.lo p ≤ x ∧ x < s.view.hi p := by
  constructor
  · intro ho
    have hcov := hi.covered h hh x
    rw [if_pos ⟨ho, rfl⟩] at hcov
    have hpos : 0 < covers ((g.nodes h).map s.view.block) x := by omega
    obtain ⟨b, hb, hx⟩ := List.countP_pos_iff.mp hpos
    obtain ⟨p, hp, rfl⟩ := List.mem_map.mp hb
    obtain ⟨h₁, h₂⟩ := (Bool.and_eq_true _ _).mp hx
    exact ⟨p, hi.onList_iff.mpr hp, of_decide_eq_true h₁, of_decide_eq_true h₂⟩
  · rintro ⟨p, hp, hx⟩
    exact (hi.free_owner hh (hi.onList_iff.mp hp) hx).1

theorem Accounted.separate {live : List Region} (h : Accounted pageSize live s) :
    Separate live s := by
  obtain ⟨-, g, hi, rfl⟩ := h
  have hdis : ∀ r ∈ g.regions, ∀ r' ∈ g.regions, r ≠ r' → r.Disjoint r' := fun r hr r' hr' hne =>
    have : Std.Symm Region.Disjoint := ⟨fun _ _ h => h.symm⟩
    hi.disjoint.forall hr hr' hne
  have hstruct : ∀ h p, s.OnList h p → structRegion p ∈ g.regions := fun h p hp =>
    hi.structs h p (hi.onList_iff.mp hp)
  refine ⟨fun h => ⟨_, hi.lists.chain h⟩, hi.disjoint.filter _, fun h h' p p' hp hp' hne => ?_,
    fun r hr h p hp => ?_, fun r hr x hx hx' => ?_⟩
  · exact hdis _ (hstruct h p hp) _ (hstruct h' p' hp') fun he => hne (congrArg Region.base he)
  · obtain ⟨hr, hne⟩ := List.mem_filter.mp hr
    exact hdis r hr _ (hstruct h p hp) fun he => of_decide_eq_true hne (he ▸ rfl)
  · exact (hi.block_iff (by simp)).mp (hi.regions r (List.mem_filter.mp hr).1 x hx hx').1

/-- The blocks of the free list and of the arenas part the reserved range into
runs of pages, and the pages of the arenas are those mapped read-write. -/
structure Parted (s : State) : Prop where
  lists : ∀ h, ∃ l, Chain s.view.next (s.head h) l
  one : ∀ x, s.Reserved x → ∃! b : Home × Nat, b.1 ≠ .recycled ∧ s.OnList b.1 b.2 ∧
    s.view.lo b.2 ≤ x ∧ x < s.view.hi b.2
  inside : ∀ h p x, h ≠ .recycled → s.OnList h p → s.view.lo p ≤ x → x < s.view.hi p →
    s.Reserved x
  aligned : ∀ h p, h ≠ .recycled → s.OnList h p →
    s.view.lo p ≤ s.view.hi p ∧ s.pageSize ∣ s.view.lo p ∧ s.pageSize ∣ s.view.hi p
  readWrite : ∀ page, s.readWrite page = true ↔ ∃ a p, s.OnList (.owned a) p ∧
    s.view.lo p ≤ page * s.pageSize ∧ page * s.pageSize < s.view.hi p

/-- Two blocks of a list with the same address are one. -/
theorem Inv.block_unique (hi : Inv s g fun _ => false) {h : Home} (hh : h ≠ .recycled)
    {p q x : Nat} (hp : p ∈ g.nodes h) (hq : q ∈ g.nodes h)
    (hpx : s.view.lo p ≤ x ∧ x < s.view.hi p) (hqx : s.view.lo q ≤ x ∧ x < s.view.hi q) :
    p = q := by
  by_contra hne
  have hcov := hi.covered h hh x
  have htwo : 2 ≤ covers ((g.nodes h).map s.view.block) x := by
    have hsub : [p, q].Subperm (g.nodes h) :=
      List.subperm_of_subset (by simpa using hne) (by simp [hp, hq])
    have hle : covers ([p, q].map s.view.block) x ≤ covers ((g.nodes h).map s.view.block) x := by
      unfold covers
      rw [List.countP_map, List.countP_map]
      exact hsub.countP_le _
    have hpair : covers ([p, q].map s.view.block) x = 2 := by
      have h₁ : (s.view.block p).lo ≤ x ∧ x < (s.view.block p).hi := hpx
      have h₂ : (s.view.block q).lo ≤ x ∧ x < (s.view.block q).hi := hqx
      simp only [List.map_cons, List.map_nil, covers_cons, covers_nil, if_pos h₁, if_pos h₂]
    exact hpair ▸ hle
  rw [hcov] at htwo
  split at htwo <;> omega

theorem Accounted.parted {live : List Region} (h : Accounted pageSize live s) : Parted s := by
  obtain ⟨-, g, hi, rfl⟩ := h
  have hps : 0 < s.pageSize := Nat.lt_trans (by omega) hi.pageSize_pos
  refine ⟨fun h => ⟨_, hi.lists.chain h⟩, fun x hx => ?_, fun h p x hh hp h₁ h₂ => ?_,
    fun h p hh hp => hi.lists.aligned h hh p (hi.onList_iff.mp hp), fun page => ?_⟩
  · obtain ⟨h, ho⟩ := Option.ne_none_iff_exists'.mp ((hi.reserved x).mpr hx)
    have hh : h ≠ .recycled := fun e => hi.owner_ne x (e ▸ ho)
    obtain ⟨p, hp, hpx⟩ := (hi.block_iff hh).mp ho
    refine ⟨(h, p), ⟨hh, hp, hpx⟩, ?_⟩
    rintro ⟨h', q⟩ ⟨hh', hq, hqx⟩
    have ho' := (hi.block_iff hh').mpr ⟨q, hq, hqx⟩
    rw [ho] at ho'
    obtain rfl : h = h' := Option.some.inj ho'
    exact congrArg (h, ·) (hi.block_unique hh (hi.onList_iff.mp hq) (hi.onList_iff.mp hp) hqx hpx)
  · exact (hi.reserved x).mp (by rw [(hi.block_iff hh).mpr ⟨p, hp, h₁, h₂⟩]; simp)
  · have hrw := hi.readWrite (page * s.pageSize)
    rw [Nat.mul_div_cancel _ hps] at hrw
    rw [hrw]
    exact exists_congr fun a => hi.block_iff (by simp)

/-- In every run the live allocations and the structs are disjoint, and live
allocations are in pages of their own arenas; a run ends early in `Out of
memory` only. -/
theorem run_separate (hs : Setup pageSize start memoryAmount) {ops : List Op}
    (hops : ∀ op ∈ ops, op.Admissible pageSize) :
    (∀ live s, run ops [] (initMemory pageSize start memoryAmount) = .ok (live, s) →
      Separate live s) ∧
    ∀ e, run ops [] (initMemory pageSize start memoryAmount) = .error e → e = .outOfMemory :=
  ⟨fun _ _ hrun => (wp_ok (run_accounted hs hops) hrun).separate,
    fun e hrun => by
      have he := wp_error (run_accounted hs hops) hrun
      exact he⟩

/-- Three arenas, the third on the pages of the first. -/
def someCalls : List Op :=
  [.push 0 100, .push 1 5000, .delete 0, .push 1 4000, .push 2 10]

theorem setup_sixteen_pages : Setup 4096 65536 65536 :=
  ⟨⟨12, rfl⟩, by decide, by decide, by decide, by decide⟩

theorem someCalls_returns :
    (run someCalls [] (initMemory 4096 65536 65536)).toOption.map (·.1.length) = some 3 := by
  decide +kernel

theorem run_separate_some : ∃ live s,
    run someCalls [] (initMemory 4096 65536 65536) = .ok (live, s) ∧ live.length = 3 ∧
      Separate live s := by
  obtain ⟨⟨live, s⟩, hrun, hlen⟩ := ok_of_toOption someCalls_returns
  exact ⟨live, s, hrun, hlen, (run_separate setup_sixteen_pages (by decide)).1 live s hrun⟩

/-- In every run the lists part the reserved range. -/
theorem run_parted (hs : Setup pageSize start memoryAmount) {ops : List Op}
    (hops : ∀ op ∈ ops, op.Admissible pageSize) :
    (∀ live s, run ops [] (initMemory pageSize start memoryAmount) = .ok (live, s) → Parted s) ∧
    ∀ e, run ops [] (initMemory pageSize start memoryAmount) = .error e → e = .outOfMemory :=
  ⟨fun _ _ hrun => (wp_ok (run_accounted hs hops) hrun).parted,
    fun e hrun => by
      have he := wp_error (run_accounted hs hops) hrun
      exact he⟩

theorem run_parted_some : ∃ live s,
    run someCalls [] (initMemory 4096 65536 65536) = .ok (live, s) ∧ Parted s := by
  obtain ⟨⟨live, s⟩, hrun, _⟩ := ok_of_toOption someCalls_returns
  exact ⟨live, s, hrun, (run_parted setup_sixteen_pages (by decide)).1 live s hrun⟩

end Dp4c.Memory
