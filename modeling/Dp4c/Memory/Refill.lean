import Dp4c.Memory.Push

/-! # Pushing on an arena

`arena_push` keeps the account. Its refill takes pages off the free list, gets
a struct for them and hands out memory from the front of the pages. The size passes
through `int` on the way: from `2^31` on it is negative there, and the pages that are
carved off are none. -/
namespace Dp4c.Memory

open Dp4c.Lib Dp4c.Lib.Prog Block

variable {s t u : State} {g g' g'' : Ghost} {pending : Nat → Bool} {a : ArenaRef}

/-! ## Taking pages -/

theorem Becomes.recycled_eq {v : View} (h : Becomes s t v) (hv : v.recycled = s.view.recycled) :
    t = { s with blocks := t.blocks } := by
  have hr : t.recycledBlockStructs = s.recycledBlockStructs := by
    show t.view.recycled = _
    rw [h.1, hv]
    rfl
  have hrest := h.2
  rw [hr] at hrest
  exact hrest

/-- The `n` bytes `[b, e)`, off the front of the free block `p`, are pages for arena `a`. -/
structure Taken (s t : State) (g : Ghost) (pending : Nat → Bool) (a : ArenaRef) (n p b e : Nat) :
    Prop where
  inv : Inv t (g.give b e (.owned a)) (pendingWith pending b e)
  aligned : s.pageSize ∣ b ∧ s.pageSize ∣ e
  above : s.pageMemoryStart ≤ b
  free : ∀ x, b ≤ x → x < e → g.owner x = some .free ∧ pending x = false
  avail : (t.arenas a).memoryAvail = b
  limit : (t.arenas a).memoryLimit = e
  ext : Extends a s t g (g.give b e (.owned a))
  blocks : (g.give b e (.owned a)).blocks t (.owned a) = g.blocks s (.owned a)
  storage : a ≠ .pageblockStorage → (StorageFull t ↔ StorageFull s)
  node : p ∈ g.nodes .free
  cut : b = s.view.lo p ∧ e = b + n ∧ e ≤ s.view.hi p ∧ t.view = s.view.setLo p e

theorem cut_setLo (v : View) {p e : Nat} (h : v.lo p ≤ e) (l : List Nat) :
    Cut (l.map v.block) (l.map (v.setLo p e).block) := by
  refine List.forall₂_map_left_iff.mpr (List.forall₂_map_right_iff.mpr
    (List.forall₂_same.mpr fun q _ => ⟨?_, rfl⟩))
  show v.lo q ≤ (v.setLo p e).lo q
  rw [View.setLo_lo]
  split
  · rename_i hq
    rwa [hq]
  · exact Nat.le_refl _

/-- A free block gives an arena the pages that were carved off it. -/
theorem Inv.wp_givePages {E : Exit → Prop} (hi : Inv s g pending) {p n : Nat}
    (hp : p ∈ g.nodes .free) (hdvd : s.pageSize ∣ n) (hend : s.view.lo p + n ≤ s.view.hi p)
    (hb : Becomes s t (s.view.setLo p (s.view.lo p + n))) (a : ArenaRef) :
    wp (do
      mprotect (s.view.lo p) (s.view.lo p + n) true
      setArena a fun arena =>
        { arena with memoryAvail := s.view.lo p, memoryLimit := s.view.lo p + n }
      pure (s.view.lo p, s.view.lo p + n)) t
      (fun r u => Taken s u g pending a n p r.1 r.2) E := by
  obtain ⟨_, hlo, _⟩ := hi.lists.aligned .free (by simp) p hp
  generalize he : s.view.lo p + n = e at hend hb ⊢
  have hle : s.view.lo p ≤ e := by omega
  have hdvde : s.pageSize ∣ e := by rw [← he]; exact Nat.dvd_add hlo hdvd
  have hfree : ∀ x, s.view.lo p ≤ x → x < e → g.owner x = some .free ∧ pending x = false :=
    fun x h₁ h₂ => hi.free_owner (by simp) hp ⟨h₁, by omega⟩
  have hblocks : ∀ a', (g.nodes (.owned a')).map t.view.block = g.blocks s (.owned a') :=
    fun a' => by
      have hne : p ∉ g.nodes (.owned a') := fun hmem => by
        cases hi.lists.apart _ _ p hmem hp
      rw [hb.1, covers_setLo_other _ _ hne]
      rfl
  have hs₁ := hb.recycled_eq rfl
  unfold mprotect setArena
  simp only [wp_bind, wp_check, wp_modify, wp_pure]
  rw [if_pos hle]
  refine ⟨?_, ⟨hlo, hdvde⟩, hi.lists.above .free (by simp) p hp, hfree, by simp, by simp,
    ⟨fun x a' hx => ?_, fun n hn => ?_,
    ⟨[], rfl, by simp⟩, ?_, ?_, fun n _ => hblocks _⟩, hblocks a, fun ha => ?_, hp, rfl,
    he.symm, hend, hb.1⟩
  · exact hi.take hp hle hend hdvde a hb.1 (by rw [hs₁]; rfl)
  · rw [Ghost.give_out fun hc => by rw [(hfree x hc.1 hc.2).1] at hx; cases hx]
    exact hx
  · show Function.update t.arenas a _ (.client n) = _
    rw [Function.update_of_ne hn, hs₁]
  · rw [hs₁]
    exact ⟨rfl, rfl, rfl⟩
  · show Cut _ ((g.nodes .free).map t.view.block)
    rw [hb.1]
    exact cut_setLo _ hle _
  · unfold StorageFull
    rw [hs₁]
    simp [Function.update_of_ne (Ne.symm ha)]

/-- Pages for the request, or no free block fits. -/
theorem Inv.wp_takePages (hi : Inv s g pending) {size : UInt32} (hsize : size.toNat < 2 ^ 31)
    (a : ArenaRef) :
    wp (takePages a size) s
      (fun r t => ∃ p, Taken s t g pending a (roundUp s.pageSize size.toNat) p r.1 r.2)
      (fun e => e = .outOfMemory ∧ NoFit (g.blocks s .free) size.toNat) := by
  unfold takePages
  simp only [wp_bind]
  refine wp_mono hi.wp_findBlockFirstFit ?_ fun _ h => h
  rintro free s' ⟨hs', hfree, hnone⟩
  rw [hs', intOfUint32_eq hsize] at *
  cases free with
  | none =>
    refine ⟨rfl, fun b hb => ?_⟩
    obtain ⟨q, hq, rfl⟩ := List.mem_map.mp hb
    have hlt := hnone rfl q hq
    show s.view.hi q < s.view.lo q + size.toNat
    omega
  | some p =>
    obtain ⟨hp, hfit⟩ := hfree p rfl
    obtain ⟨k, hk, hps⟩ := hi.pageSize_small
    obtain ⟨hle, hlo, hhi⟩ := hi.lists.aligned .free (by simp) p hp
    have hpage := hi.pageSize_pos
    have hsmall := hi.block_small (by simp) hp
    have hround : roundUp s.pageSize size.toNat ≤ s.view.hi p - s.view.lo p :=
      roundUp_le (by omega) (Nat.dvd_sub hhi hlo) (by omega)
    have hmul : sizeInPageMultiples s.pageSize size = (roundUp s.pageSize size.toNat : Int) := by
      have hpow : 2 ^ k ≤ 2 ^ 30 := Nat.pow_le_pow_right (by omega) (by omega)
      rw [hps] at hround ⊢
      exact sizeInPageMultiples_eq hk (by omega) (by omega)
    rw [wp_lift_some]
    refine wp_mono (wp_carve hmul (by omega)) ?_ fun _ h => h
    rintro _ s₁ ⟨rfl, hb⟩
    have hgive := hi.wp_givePages (E := fun e => e = .outOfMemory ∧
        NoFit (g.blocks s .free) size.toNat) hp
      (dvd_roundUp ..) (by omega) hb a
    simp only [wp_bind] at hgive
    exact wp_mono hgive (fun _ _ h => wp_mono h (fun _ _ h => wp_mono h
      (fun _ _ h => ⟨p, h⟩) fun _ h => h) fun _ h => h) fun _ h => h

/-- A request from `2^31` on is negative as an `int`, so the first free block fits. -/
theorem Inv.wp_findBlockFirstFit_large {E : Exit → Prop} (hi : Inv s g pending) {size : UInt32}
    (hlarge : 2 ^ 31 ≤ size.toNat) :
    wp (findBlockFirstFit (intOfUint32 size)) s
      (fun r t => t = s ∧ ∃ p ∈ g.nodes .free, r = some p) E := by
  refine wp_mono hi.wp_findBlockFirstFit ?_ fun _ h => h
  rintro free t ⟨ht, hfree, hnone⟩
  refine ⟨ht, ?_⟩
  cases free with
  | some p => exact ⟨p, (hfree p rfl).1, rfl⟩
  | none =>
    -- every free block is at least that long
    obtain ⟨q, hq⟩ := List.exists_mem_of_ne_nil _ hi.lists.free
    have hlt := hnone rfl q hq
    have hle := (hi.lists.aligned .free (by simp) q hq).1
    have hneg := intOfUint32_neg hlarge
    omega

/-- Where the page round-up wraps, no page is carved off. -/
theorem Inv.wp_takePages_wrapped {E : Exit → Prop} (hi : Inv s g pending) {size : UInt32}
    (hwrap : 2 ^ 32 < size.toNat + s.pageSize) (a : ArenaRef) :
    wp (takePages a size) s (fun r t => ∃ p, Taken s t g pending a 0 p r.1 r.2) E := by
  obtain ⟨k, hk, hps⟩ := hi.pageSize_small
  have hpow : 2 ^ k ≤ 2 ^ 30 := Nat.pow_le_pow_right (by omega) (by omega)
  unfold takePages
  simp only [wp_bind]
  refine wp_mono (hi.wp_findBlockFirstFit_large (by omega)) ?_ fun _ h => h
  rintro _ s' ⟨hs', p, hp, rfl⟩
  have hle := (hi.lists.aligned .free (by simp) p hp).1
  have hmul : sizeInPageMultiples s.pageSize size = ((0 : Nat) : Int) := by
    rw [hps] at hwrap ⊢
    exact sizeInPageMultiples_zero hk hwrap
  rw [hs', wp_lift_some]
  refine wp_mono (wp_carve hmul hle) ?_ fun _ h => h
  rintro _ s₁ ⟨rfl, hb⟩
  have hgive := hi.wp_givePages (E := E) hp (Nat.dvd_zero _) hle hb a
  simp only [wp_bind] at hgive
  exact wp_mono hgive (fun _ _ h => wp_mono h (fun _ _ h => wp_mono h
    (fun _ _ h => ⟨p, h⟩) fun _ h => h) fun _ h => h) fun _ h => h

/-- Where it does not, the pages would end below their begin; only at address 0 they do not. -/
theorem Inv.wp_takePages_neg (hi : Inv s g pending) {size : UInt32}
    (hlarge : 2 ^ 31 ≤ size.toNat) (hwrap : size.toNat + s.pageSize ≤ 2 ^ 32) (a : ArenaRef) :
    wp (takePages a size) s
      (fun r t => s.pageMemoryStart = 0 ∧ ∃ p, Taken s t g pending a 0 p r.1 r.2)
      (fun e => e = .perror "mprotect") := by
  obtain ⟨k, hk, hps⟩ := hi.pageSize_small
  unfold takePages
  simp only [wp_bind]
  refine wp_mono (hi.wp_findBlockFirstFit_large hlarge) ?_ fun _ h => h
  rintro _ s' ⟨hs', p, hp, rfl⟩
  have hle := (hi.lists.aligned .free (by simp) p hp).1
  have habove := hi.lists.above .free (by simp) p hp
  have hmul : sizeInPageMultiples s.pageSize size < 0 := by
    rw [hps] at hwrap ⊢
    exact sizeInPageMultiples_neg hk hwrap hlarge
  rw [hs', wp_lift_some]
  refine wp_mono (wp_carve_neg hmul hle) ?_ fun _ h => h
  rintro _ s₁ ⟨e, rfl, hend, hb⟩
  by_cases hlo : s.view.lo p ≤ e
  · obtain ⟨rfl, hzero⟩ := hend hlo
    have hgive := hi.wp_givePages (E := fun e => e = .perror "mprotect") hp
        (Nat.dvd_zero _) hle hb a
    simp only [wp_bind, Nat.add_zero] at hgive
    exact wp_mono hgive (fun _ _ h => wp_mono h (fun _ _ h => wp_mono h
      (fun _ _ h => ⟨by omega, p, h⟩) fun _ h => h) fun _ h => h) fun _ h => h
  · unfold mprotect
    simp only [wp_bind, wp_check, if_neg hlo]

/-- What is left after the pages were taken: if nothing, they were the last. -/
theorem Taken.last {n p b e : Nat} (h : Taken s t g pending a n p b e)
    (hnone : NoPages ((g.give b e (.owned a)).blocks t .free)) :
    LastPages (g.blocks s .free) n := by
  obtain ⟨hb, he, hle, hview⟩ := h.cut
  have hblocks : ∀ q ∈ g.nodes .free, s.view.hi q ≤ if q = p then e else s.view.lo q :=
    fun q hq => by
      have hempty := hnone _ (List.mem_map_of_mem (f := t.view.block) hq)
      rw [hview] at hempty
      have hlo : (s.view.setLo p e).lo q = if q = p then e else s.view.lo q := View.setLo_lo ..
      show s.view.hi q ≤ _
      rw [← hlo]
      exact hempty
  refine ⟨s.view.block p, List.mem_map_of_mem h.node, ?_, fun c hc hne => ?_⟩
  · have hend := hblocks p h.node
    rw [if_pos rfl] at hend
    show s.view.hi p = s.view.lo p + _
    omega
  · obtain ⟨q, hq, rfl⟩ := List.mem_map.mp hc
    have hempty := hblocks q hq
    rwa [if_neg fun hqp => hne (by rw [hqp])] at hempty

/-! ## Refilling an arena -/

/-- The rest of `refill`: the struct of the new pages joins the arena's list. -/
def ownPages (arena : ArenaRef) (b e allocBlock : Nat) : ArenaM Nat := do
  store allocBlock fun block => { block with memoryBegin := b }
  store allocBlock fun block => { block with memoryEnd := e }
  let ownedPages ← blockInsertAndCoalesce
    (← Prog.reads fun s => (s.arenas arena).ownedPages) allocBlock
  setArena arena fun a => { a with ownedPages := some ownedPages }
  Prog.reads fun s => (s.arenas arena).memoryAvail

theorem refill_eq (push : ArenaM Nat) (a : ArenaRef) (size : UInt32) :
    refill push a size = (do
      let r ← takePages a size
      let allocBlock ← getNewBlockStruct push
      ownPages a r.1 r.2 allocBlock) := by
  unfold refill takePages
  simp only [bind_assoc, pure_bind]
  rfl

/-- The struct of the new pages joins the arena's list; one block there has all the pages. -/
theorem Inv.wp_ownPages {E : Exit → Prop} {b e new : Nat} (hi : Inv s g (pendingWith pending b e))
    (hnew : ∀ h, new ∉ g.nodes h) (hreg : structRegion new ∈ g.regions)
    (hnone : s.view.next new = none) (hbe : b ≤ e ∧ s.pageSize ∣ b ∧ s.pageSize ∣ e)
    (habove : s.pageMemoryStart ≤ b)
    (hown : ∀ x, b ≤ x → x < e → g.owner x = some (.owned a))
    (hpend : ∀ x, b ≤ x → x < e → pending x = false) :
    wp (ownPages a b e new) s (fun m t => ∃ nodes,
        Inv t { g with nodes := nodes } pending ∧ m = (s.arenas a).memoryAvail ∧
        (t.arenas a).memoryAvail = (s.arenas a).memoryAvail ∧
        (t.arenas a).memoryLimit = (s.arenas a).memoryLimit ∧
        Extends a s t g { g with nodes := nodes } ∧ Keeps g { g with nodes := nodes } [new] ∧
        ∃ c ∈ ({ g with nodes := nodes } : Ghost).blocks t (.owned a), c.lo ≤ b ∧ e ≤ c.hi) E := by
  unfold ownPages setArena
  simp only [wp_bind]
  refine wp_setLo fun s₁ h₁ => ?_
  refine wp_setHi fun s₂ h₂ => ?_
  have hb := h₁.trans h₂
  rw [h₁.1] at hb
  have hs₂ := hb.recycled_eq rfl
  have hi₂ : Inv s₂ g (pendingWith pending b e) := by
    refine hi.storeOff hnew (fun q hq => ?_) hs₂
    rw [hb.1]
    simp [hq]
  have hlo : s₂.view.lo new = b := by rw [hb.1]; simp
  have hhi : s₂.view.hi new = e := by rw [hb.1]; simp
  have hnext : s₂.view.next new = none := by rw [hb.1]; exact hnone
  have hps : s₂.pageSize = s.pageSize := by rw [hs₂]
  have harenas : s₂.arenas = s.arenas := by rw [hs₂]
  simp only [wp_reads]
  refine wp_mono (hi₂.wp_insert (h := .owned a) (by simp) hnew hreg
    (by rw [hlo, hhi, hps]; exact hbe) (by rw [hlo, hs₂]; exact habove)
      (fun _ => hnext) fun x hx hx' => ?_) ?_ fun _ h => h
  · rw [hlo] at hx
    rw [hhi] at hx'
    exact ⟨hown x hx hx', pendingWith_in ⟨hx, hx'⟩⟩
  · rintro head t ⟨nodes, hit, ht, hjoins⟩
    rw [hlo, hhi, pendingWithout_with hpend] at hit
    have ht' : t.arenas = s.arenas := by rw [ht, harenas]
    obtain ⟨hav, hlim⟩ := setHead_arenas t (.owned a) (some head) a
    -- the blocks of the lists are not that of the new struct
    have hsame : ∀ h, (g.nodes h).map s₂.view.block = g.blocks s h := fun h => by
      refine List.map_congr_left fun q hq => ?_
      have hne : q ≠ new := fun hq' => hnew h (hq' ▸ hq)
      rw [hb.1]
      simp [View.block, hne]
    have hblock : s₂.view.block new = ⟨new, b, e⟩ := by rw [View.block, hlo, hhi]
    have hjoined := hjoins.blocks
    rw [hsame, hblock] at hjoined
    refine ⟨nodes, hit, ?_, ?_, ?_, ⟨fun x a' hx => hx, fun n hn => ?_, ⟨[], rfl, by simp⟩, ?_,
      ?_, fun n hn => ?_⟩, fun q hq => ?_, ?_⟩
    · exact hav.trans (by rw [ht'])
    · exact hav.trans (by rw [ht'])
    · exact hlim.trans (by rw [ht'])
    · show Function.update t.arenas a _ (.client n) = _
      rw [Function.update_of_ne hn, ht']
    · show t.pageSize = _ ∧ t.totalPageCount = _ ∧ t.pageMemoryStart = _
      rw [ht, hs₂]
      exact ⟨rfl, rfl, rfl⟩
    · show Cut _ ((nodes .free).map t.view.block)
      rw [hjoins.others .free (by simp) (by simp), hsame]
      exact .refl _
    · exact (hjoins.others (.owned (.client n)) (by simpa using hn) (by simp)).trans (hsame _)
    · exact hjoins.kept q (hq.symm.imp List.mem_singleton.mp id)
    · show ∃ c ∈ (nodes (.owned a)).map t.view.block, c.lo ≤ b ∧ e ≤ c.hi
      rw [hjoined]
      refine insertAndCoalesce_within hbe.1 (fun c hc => ?_) ⟨new, b, e⟩ List.mem_cons_self
      obtain ⟨q, hq, rfl⟩ := List.mem_map.mp hc
      exact (hi.lists.aligned _ (by simp) q hq).1

/-- An extension by a push on `pageblock_storage` touches no client's arena. -/
theorem Extends.of_storage (h : Extends .pageblockStorage s t g g') : Extends a s t g g' :=
  ⟨h.owned, fun n _ => h.clients n (by simp), h.regions, h.fixed, h.free,
    fun n _ => h.blocks n (by simp)⟩

/-- What a refill by `n` bytes returns: the memory, in one block of the arena. The struct of the
pages is the first use of them where the arena is `pageblock_storage`. -/
structure Refilled (a : ArenaRef) (n : Nat) (s : State) (g : Ghost) (pending : Nat → Bool)
    (structs : List Nat) (m : Nat) (t : State) (g' : Ghost) : Prop where
  inv : Inv t g' pending
  avail : m = (t.arenas a).memoryAvail
  limit : (t.arenas a).memoryLimit ≤ m + n ∧
    m + n ≤ (t.arenas a).memoryLimit + if a = .pageblockStorage then sizeofPageBlock else 0
  ext : Extends a s t g g'
  keeps : Keeps g g' structs
  nodup : structs.Nodup
  block : ∃ c ∈ g'.blocks t (.owned a), c.lo ≤ m ∧ (t.arenas a).memoryLimit ≤ c.hi

/-- **The refill**, once it has its pages. -/
theorem Taken.wp_own {push : ArenaM Nat} {pushed : State → List Nat} {n p b e : Nat}
    (h : Taken s u g pending a n p b e) (hpush : PushesStruct push pushed a u) :
    wp (do
      let allocBlock ← getNewBlockStruct push
      ownPages a b e allocBlock) u
      (fun m t => ∃ g', Refilled a n s g pending (structsFrom push pushed u) m t g')
      (fun e => e = .outOfMemory ∧ a ≠ .pageblockStorage ∧ LastPages (g.blocks s .free) n ∧
      StorageFull s) := by
  obtain ⟨hb, he, hend, -⟩ := h.cut
  simp only [wp_bind]
  refine wp_mono (wp_and_run (h.inv.wp_getNewBlockStruct hpush)) ?_
    fun _ h' => ⟨h'.1, h'.2.1, h.last h'.2.2.1, (h.storage h'.2.1).mp h'.2.2.2⟩
  rintro new s₄ ⟨hnew, g₄, structs, hi₄, hoff, hreg, hnone, hext₄, ⟨hsl, hsa, hsa'⟩, hstructs,
    hnodup, hon, hkeeps⟩
  have hpage₄ : s₄.pageSize = s.pageSize := hext₄.fixed.1.trans h.ext.fixed.1
  have howned : ∀ x, b ≤ x → x < e → g₄.owner x = some (.owned a) := fun x h₁ h₂ =>
    hext₄.owned x a (Ghost.give_in ⟨h₁, h₂⟩ _)
  refine wp_mono (hi₄.wp_ownPages hoff hreg hnone
    (by rw [hpage₄]; exact ⟨by omega, h.aligned⟩)
    (by rw [hext₄.fixed.2.2, h.ext.fixed.2.2]; exact h.above) howned
    fun x h₁ h₂ => (h.free x h₁ h₂).2) ?_ fun _ h => h
  rintro m t ⟨nodes, hit, rfl, hav', hlim', hext', hkeep', c, hc, hclo, hchi⟩
  have hall : structsFrom push pushed u = new :: structs := by
    simp only [structsFrom, hnew, hstructs]
  have havail := h.avail
  have hlimit := h.limit
  refine ⟨_, hit, hav'.symm, ?_, (h.ext.trans hext₄.of_storage).trans hext', fun q hq => ?_, ?_,
    c, hc, by omega, by omega⟩
  · rw [hlim', hsl]
    omega
  · have hcases : q = new ∨ g₄.On q := by
      rcases hq with hq | hq
      · exact hkeeps q hq
      · rw [hall] at hq
        exact (List.mem_cons.mp hq).imp id (hon q)
    exact hkeep' q (hcases.symm.imp id List.mem_singleton.mpr)
  · rw [hall]
    refine List.nodup_cons.mpr ⟨fun hin => ?_, hnodup⟩
    obtain ⟨home, hhome⟩ := hon new hin
    exact hoff home hhome

/-- The refill, for pages that `takePages` finds. -/
theorem wp_refill {push : ArenaM Nat} {pushed : State → List Nat} {size : UInt32} {n : Nat}
    {E : Exit → Prop}
    (htake : wp (takePages a size) s (fun r t => ∃ p, Taken s t g pending a n p r.1 r.2) E)
    (hpush : ∀ u, (u.arenas a).memoryLimit = (u.arenas a).memoryAvail + n →
      PushesStruct push pushed a u) :
    wp (refill push a size) s
      (fun m t => ∃ g', Refilled a n s g pending (refillStructs push pushed a size s) m t g')
      (fun e => E e ∨
        (e = .outOfMemory ∧ a ≠ .pageblockStorage ∧ LastPages (g.blocks s .free) n ∧
        StorageFull s)) := by
  rw [refill_eq, wp_bind]
  refine wp_mono (wp_and_run htake) ?_ fun _ h => .inl h
  rintro ⟨b, e⟩ u ⟨hrun, p, htaken⟩
  have hroom : (u.arenas a).memoryLimit = (u.arenas a).memoryAvail + n := by
    rw [htaken.avail, htaken.limit]
    exact htaken.cut.2.1
  refine wp_mono (htaken.wp_own (hpush u hroom)) ?_ fun _ h => .inr h
  rintro m t hm
  simpa only [refillStructs, hrun] using hm

/-- Where no free block holds a struct, no page is free. -/
theorem Inv.noPages (hi : Inv s g pending) (h : NoFit (g.blocks s .free) sizeofPageBlock) :
    NoPages (g.blocks s .free) := by
  intro b hb
  have hlt := h b hb
  obtain ⟨q, hq, rfl⟩ := List.mem_map.mp hb
  obtain ⟨_, hlo, hhi⟩ := hi.lists.aligned .free (by simp) q hq
  have hps := hi.pageSize_pos
  have hdvd : s.pageSize ∣ s.view.hi q - s.view.lo q := Nat.dvd_sub hhi hlo
  have hlt' : s.view.hi q < s.view.lo q + sizeofPageBlock := hlt
  simp only [sizeofPageBlock] at hlt'
  have hzero := Nat.eq_zero_of_dvd_of_lt hdvd (by omega)
  show s.view.hi q ≤ s.view.lo q
  omega

/-! ## The push -/

/-- The memory that is found for `size` bytes, not yet handed out. -/
structure Found (a : ArenaRef) (size : Nat) (s : State) (g : Ghost) (pending : Nat → Bool)
    (structs : List Nat) (m : Nat) (t : State) (g' : Ghost) : Prop where
  inv : Inv t g' pending
  avail : m = (t.arenas a).memoryAvail
  limit : m + size ≤ (t.arenas a).memoryLimit
  ext : Extends a s t g g'
  keeps : Keeps g g' structs
  nodup : structs.Nodup
  held : Held s g a → ∃ c ∈ g'.blocks t (.owned a), c.lo ≤ m ∧ (t.arenas a).memoryLimit ≤ c.hi

theorem Extends.advance {n : Nat} : Extends a u (u.withAvail a n) g' g' :=
  ⟨fun _ _ hx => hx, fun n hn => Function.update_of_ne hn .., ⟨[], rfl, by simp⟩, ⟨rfl, rfl, rfl⟩,
    .refl _, fun _ _ => rfl⟩

/-- Memory that is found is handed out. -/
theorem Found.handOut {structs : List Nat} {m size : Nat}
    (h : Found a size s g pending structs m u g') (hpos : 0 < size) :
    Pushed a size s g pending structs m (u.withAvail a (m + size))
      { g' with regions := ⟨a, m, size⟩ :: g'.regions } g'.regions := by
  have hm := h.avail
  have hlimit := h.limit
  have hheld := h.held
  subst hm
  exact
    { inv := h.inv.handOut hpos hlimit
      region := rfl
      lists := h.inv.structs
      ext := h.ext.trans .advance
      keeps := h.keeps
      nodup := h.nodup
      avail := by simp [State.withAvail]
      limit := by simpa [State.withAvail] using hlimit
      held := fun hs => by
        have hlim : ((u.withAvail a ((u.arenas a).memoryAvail + size)).arenas a).memoryLimit =
            (u.arenas a).memoryLimit := by simp [State.withAvail]
        rw [hlim]
        exact hheld hs }

/-- The memory found for the client is handed out. -/
theorem wp_arenaPushDepth {E : Exit → Prop} {structs : List Nat} {depth : Nat} {size : UInt32}
    (hpos : 0 < size.toNat)
    (hclient : wp (clientMemory (arenaPushDepth depth .pageblockStorage sizeofPageBlock.toUInt32)
      a size) s (fun m t => ∃ g', Found a size.toNat s g pending structs m t g') E) :
    wp (arenaPushDepth (depth + 1) a size) s (fun p t => ∃ u g',
      Found a size.toNat s g pending structs p u g' ∧ t = u.withAvail a (p + size.toNat)) E := by
  have hsize : size > 0 := UInt32.lt_iff_toNat_lt.mpr hpos
  unfold arenaPushDepth
  simp only [wp_bind, wp_check]
  rw [if_pos hsize]
  refine wp_mono hclient ?_ fun _ h => h
  rintro m u ⟨g', hfound⟩
  unfold setArena
  simp only [wp_modify, wp_pure]
  exact ⟨u, g', hfound, rfl⟩

/-- Where the arena has room, its memory is found without a refill. -/
theorem Inv.wp_clientMemory_room {E : Exit → Prop} (hi : Inv s g pending) (push : ArenaM Nat)
    (size : UInt32) (hroom : (s.arenas a).memoryAvail + size.toNat < (s.arenas a).memoryLimit) :
    wp (clientMemory push a size) s
      (fun m t => t = s ∧ Found a size.toNat s g pending [] m t g) E := by
  unfold clientMemory
  simp only [wp_bind, wp_reads]
  rw [if_neg (by omega)]
  refine ⟨rfl, ?_⟩
  exact
    { inv := hi
      avail := rfl
      limit := Nat.le_of_lt hroom
      ext := .of_frame ⟨rfl, rfl, rfl⟩ rfl rfl rfl fun _ _ => rfl
      keeps := fun q hq => hq.resolve_right List.not_mem_nil
      nodup := List.nodup_nil
      held := fun h => h (by omega) }

/-- The memory for a client, with a refill or without. -/
theorem Inv.wp_clientMemory (hi : Inv s g pending) {push : ArenaM Nat}
    {pushed : State → List Nat} {size : UInt32} (hpos : 0 < size.toNat)
    (hsize : size.toNat < 2 ^ 31) (ha : a = .pageblockStorage → size.toNat = sizeofPageBlock)
    (hpush : ∀ u, (a = .pageblockStorage →
      (u.arenas a).memoryAvail + sizeofPageBlock < (u.arenas a).memoryLimit) →
      PushesStruct push pushed a u) :
    wp (clientMemory push a size) s (fun m t => ∃ g', Found a size.toNat s g pending
        (if (s.arenas a).memoryAvail + size.toNat ≥ (s.arenas a).memoryLimit then
          refillStructs push pushed a size s else []) m t g')
      (fun e => e = .outOfMemory ∧
        (s.arenas a).memoryAvail + size.toNat ≥ (s.arenas a).memoryLimit ∧
        (NoFit (g.blocks s .free) size.toNat ∨ (a ≠ .pageblockStorage ∧
          LastPages (g.blocks s .free) (roundUp s.pageSize size.toNat) ∧ StorageFull s))) := by
  by_cases hfull : (s.arenas a).memoryAvail + size.toNat ≥ (s.arenas a).memoryLimit
  · have hps := hi.pageSize_pos
    have hle : size.toNat ≤ roundUp s.pageSize size.toNat := le_roundUp (by omega)
    have hpage : s.pageSize ≤ roundUp s.pageSize size.toNat :=
      Nat.le_of_dvd (by omega) (dvd_roundUp ..)
    unfold clientMemory
    simp only [wp_bind, wp_reads]
    rw [if_pos hfull, if_pos hfull]
    refine wp_mono (wp_refill (hi.wp_takePages hsize a) fun u hu => hpush u fun hpbs => ?_) ?_ ?_
    · simp only [sizeofPageBlock]
      omega
    · rintro m t ⟨g', hm⟩
      have hlimit := hm.limit.2
      refine ⟨g', hm.inv, hm.avail, ?_, hm.ext, hm.keeps, hm.nodup, fun _ => hm.block⟩
      by_cases hpbs : a = .pageblockStorage
      · have hsz := ha hpbs
        rw [if_pos hpbs] at hlimit
        simp only [sizeofPageBlock] at hlimit hsz
        omega
      · rw [if_neg hpbs] at hlimit
        omega
    · rintro e (h | h)
      · exact ⟨h.1, hfull, .inl h.2⟩
      · exact ⟨h.1, hfull, .inr h.2⟩
  · refine wp_mono (hi.wp_clientMemory_room _ _ (by omega)) ?_ fun _ h => h
    rintro m t ⟨rfl, hfound⟩
    rw [if_neg hfull]
    exact ⟨g, hfound⟩

theorem sizeofPageBlock_toNat : sizeofPageBlock.toUInt32.toNat = sizeofPageBlock := rfl

/-- A struct pushed where `pageblock_storage` has room. -/
theorem pushesStruct_one (h : (s.arenas .pageblockStorage).memoryAvail + sizeofPageBlock <
    (s.arenas .pageblockStorage).memoryLimit) :
    PushesStruct (arenaPushDepth 1 .pageblockStorage sizeofPageBlock.toUInt32)
      (newStructs 1 .pageblockStorage sizeofPageBlock.toUInt32) .pageblockStorage s := by
  intro g pending hi _
  have hstructs : newStructs 1 .pageblockStorage sizeofPageBlock.toUInt32 s = [] := by
    unfold newStructs
    rw [sizeofPageBlock_toNat, if_neg (by omega)]
  rw [hstructs]
  have hclient := hi.wp_clientMemory_room (E := fun _ => False)
    (arenaPushDepth 0 .pageblockStorage sizeofPageBlock.toUInt32) sizeofPageBlock.toUInt32 h
  unfold arenaPushDepth setArena
  simp only [wp_bind, wp_check, wp_modify, wp_pure]
  rw [if_pos (by decide)]
  refine wp_mono hclient ?_ fun _ h => h.elim
  rintro m u ⟨rfl, hfound⟩
  refine ⟨⟨_, _, hfound.handOut (by decide)⟩, ?_⟩
  have hm := hfound.avail
  simp [Steady, hm, sizeofPageBlock]

/-- A struct pushed during the refill of a client's arena. -/
theorem pushesStruct_two (n : Nat) :
    PushesStruct (arenaPushDepth 2 .pageblockStorage sizeofPageBlock.toUInt32)
      (newStructs 2 .pageblockStorage sizeofPageBlock.toUInt32) (.client n) s := by
  intro g pending hi hrec
  refine wp_mono (wp_arenaPushDepth (by decide) (hi.wp_clientMemory (by decide) (by decide)
    (fun _ => rfl) fun u hu => pushesStruct_one (hu rfl))) ?_ ?_
  · rintro p t ⟨u, g', hfound, rfl⟩
    exact ⟨⟨_, _, hfound.handOut (by decide)⟩,
      Steady.of_client ((Extends.trans hfound.ext .advance).clients n (by simp))⟩
  · rintro e ⟨he, hfull, hno | ⟨hne, -⟩⟩
    · exact ⟨he, by simp, hi.noPages hno, hrec, hfull⟩
    · exact absurd rfl hne

/-- **`arena_push`** of a client returns a region that is on top of the
account, or ends in `Out of memory`: where no free block holds the request, or where
the request takes the last pages and its struct finds none. -/
theorem Inv.wp_arenaPush (hi : Inv s g pending) (n : Nat) {size : UInt32} (hpos : 0 < size.toNat)
    (hsize : size.toNat < 2 ^ 31) :
    wp (arenaPush (.client n) size) s
      (fun p t => ∃ g' rest,
        Pushed (.client n) size.toNat s g pending (newStructs 3 (.client n) size s) p t g' rest)
      (fun e => e = .outOfMemory ∧
        (s.arenas (.client n)).memoryAvail + size.toNat ≥ (s.arenas (.client n)).memoryLimit ∧
        (NoFit (g.blocks s .free) size.toNat ∨
          (LastPages (g.blocks s .free) (roundUp s.pageSize size.toNat) ∧ StorageFull s))) := by
  refine wp_mono (wp_arenaPushDepth hpos
    (hi.wp_clientMemory hpos hsize (fun h => by cases h) fun u _ => pushesStruct_two n)) ?_ ?_
  · rintro p t ⟨u, g', hfound, rfl⟩
    exact ⟨_, _, hfound.handOut hpos⟩
  · rintro e ⟨he, hfull, hno | ⟨-, hlast⟩⟩
    · exact ⟨he, hfull, .inl hno⟩
    · exact ⟨he, hfull, .inr hlast⟩

/-! ## Large sizes -/

/-- What an arena has left is no larger than the reserved range. -/
theorem Inv.bump_small (hi : Inv s g pending) (a : ArenaRef) :
    (s.arenas a).memoryLimit < (s.arenas a).memoryAvail + 2 ^ 31 := by
  by_cases hlt : (s.arenas a).memoryAvail < (s.arenas a).memoryLimit
  · have hfirst := hi.bump a (s.arenas a).memoryAvail (Nat.le_refl _) hlt
    have hlast := hi.bump a ((s.arenas a).memoryLimit - 1) (by omega) (by omega)
    have hlo := (hi.reserved _).mp (by rw [hfirst]; simp)
    have hhi := (hi.reserved _).mp (by rw [hlast]; simp)
    have hsmall := hi.small
    unfold State.Reserved at hlo hhi
    omega
  · omega

/-- A push on an arena that has to be refilled. -/
theorem wp_arenaPush_refill {E : Exit → Prop} {n : Nat} {size : UInt32} {pages : Nat}
    (hpos : 0 < size.toNat)
    (hfull : (s.arenas (.client n)).memoryAvail + size.toNat ≥ (s.arenas (.client n)).memoryLimit)
    (htake : wp (takePages (.client n) size) s
      (fun r t => ∃ p, Taken s t g pending (.client n) pages p r.1 r.2) E) :
    wp (arenaPush (.client n) size) s
      (fun p t => ∃ u g',
        Refilled (.client n) pages s g pending (newStructs 3 (.client n) size s) p u g' ∧
        t = u.withAvail (.client n) (p + size.toNat))
      (fun e => E e ∨
        (e = .outOfMemory ∧ LastPages (g.blocks s .free) pages ∧ StorageFull s)) := by
  have hsize : size > 0 := UInt32.lt_iff_toNat_lt.mpr hpos
  have hstructs : newStructs 3 (.client n) size s = refillStructs
      (arenaPushDepth 2 .pageblockStorage sizeofPageBlock.toUInt32)
      (newStructs 2 .pageblockStorage sizeofPageBlock.toUInt32) (.client n) size s := if_pos hfull
  rw [hstructs]
  unfold arenaPush arenaPushDepth clientMemory setArena
  simp only [wp_bind, wp_check, wp_reads]
  rw [if_pos hsize, if_pos hfull]
  refine wp_mono (wp_refill htake fun u _ => pushesStruct_two n) ?_ fun e h =>
    h.imp id (·.imp id And.right)
  rintro m u ⟨g', hm⟩
  simp only [wp_modify, wp_pure]
  exact ⟨u, g', hm, rfl⟩

/-- Where all pages of a block of none are free, no page is. -/
theorem LastPages.noPages {free : List Block} (h : LastPages free 0) : NoPages free := by
  obtain ⟨b, hb, hempty, hothers⟩ := h
  intro c hc
  by_cases hcb : c = b
  · rw [hcb]
    omega
  · exact hothers c hc hcb

theorem Inv.full_of_large (hi : Inv s g pending) {size : UInt32} (hlarge : 2 ^ 31 ≤ size.toNat)
    (a : ArenaRef) : (s.arenas a).memoryAvail + size.toNat ≥ (s.arenas a).memoryLimit := by
  have := hi.bump_small a
  omega

/-- From `2^31` on, a push that returns has refilled the arena with no page. -/
theorem Inv.wp_arenaPush_large (hi : Inv s g pending) (n : Nat) {size : UInt32}
    (hlarge : 2 ^ 31 ≤ size.toNat) :
    wp (arenaPush (.client n) size) s
      (fun p t => ∃ u g',
        Refilled (.client n) 0 s g pending (newStructs 3 (.client n) size s) p u g' ∧
        t = u.withAvail (.client n) (p + size.toNat))
      (fun e => e = .perror "mprotect" ∨
        (e = .outOfMemory ∧ NoPages (g.blocks s .free) ∧ StorageFull s)) := by
  have htake : wp (takePages (.client n) size) s
      (fun r t => ∃ p, Taken s t g pending (.client n) 0 p r.1 r.2)
      (fun e => e = .perror "mprotect") := by
    by_cases hwrap : 2 ^ 32 < size.toNat + s.pageSize
    · exact hi.wp_takePages_wrapped hwrap _
    · exact wp_mono (hi.wp_takePages_neg hlarge (by omega) _) (fun _ _ h => h.2) fun _ h => h
  exact wp_mono (wp_arenaPush_refill (by omega) (hi.full_of_large hlarge _) htake)
    (fun _ _ h => h) fun e h => h.imp id fun h => ⟨h.1, h.2.1.noPages, h.2.2⟩

end Dp4c.Memory
