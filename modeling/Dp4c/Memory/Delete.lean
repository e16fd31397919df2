import Dp4c.Memory.Push

/-! # Deleting an arena

While `arena_delete` walks the blocks of the arena, the list it walks is on no
home: a struct moves to the free list and the arena's head still points to it.
The walk is followed on the state with the arena already cleared, which it
cannot tell apart. -/
namespace Dp4c.Memory

open Dp4c.Lib Dp4c.Lib.Prog Block

variable {s t u : State} {g g' : Ghost} {pending : Nat → Bool} {a : ArenaRef}

/-- The state with the arena cleared. -/
def State.clear (a : ArenaRef) (s : State) : State :=
  { s with arenas := Function.update s.arenas a {} }

/-! ## Programs that leave the arenas alone -/

theorem commutes_deref (p : Nat) : Commutes (State.clear a) (deref p) := .reads fun _ => rfl

theorem commutes_store (p : Nat) (f : PageBlock → PageBlock) :
    Commutes (State.clear a) (store p f) := .modify fun _ => rfl

theorem commutes_setPrev (p q : Option Nat) : Commutes (State.clear a) (setPrev p q) := by
  cases p with
  | none => exact .pure ()
  | some p => exact commutes_store p fun b => { b with prevBlock := q }

theorem commutes_recycle (p : Nat) : Commutes (State.clear a) (recycleBlockStruct p) :=
  .bind (.reads fun _ => rfl) fun _ => .bind (commutes_store _ _) fun _ => .modify fun _ => rfl

theorem commutes_findLeftNeighbour (n : Nat) :
    ∀ fuel p, Commutes (State.clear a) (findLeftNeighbour n fuel p)
  | 0, _ => .exit _
  | _ + 1, none => .pure _
  | fuel + 1, some p => .bind (commutes_deref p) fun b => by
    by_cases h : b.memoryBegin ≤ n
    · rw [if_pos h]
      exact .pure _
    · rw [if_neg h]
      exact commutes_findLeftNeighbour n fuel _

theorem commutes_insertBlock (blockList new : Nat) (left : Option Nat) :
    Commutes (State.clear a) (insertBlock blockList new left) := by
  cases left with
  | none =>
    exact .bind (commutes_store _ _) fun _ => .bind (commutes_store _ _) fun _ =>
      .bind (commutes_deref _) fun _ => .pure _
  | some l =>
    exact .bind (commutes_deref _) fun _ => .bind (commutes_store _ _) fun _ =>
      .bind (commutes_store _ _) fun _ => .bind (commutes_store _ _) fun _ =>
      .bind (commutes_setPrev _ _) fun _ => .pure _

theorem commutes_touchesLeft (left : Option Nat) (new : Nat) :
    Commutes (State.clear a) (touchesLeft left new) := by
  cases left with
  | none => exact .pure _
  | some l => exact .bind (commutes_deref _) fun _ => .bind (commutes_deref _) fun _ => .pure _

theorem commutes_touchesRight (right : Option Nat) (new : Nat) :
    Commutes (State.clear a) (touchesRight right new) := by
  cases right with
  | none => exact .pure _
  | some r => exact .bind (commutes_deref _) fun _ => .bind (commutes_deref _) fun _ => .pure _

theorem commutes_stitchRight (left : Option Nat) (new right merged : Nat) :
    Commutes (State.clear a) (stitchRight left new right merged) := by
  refine .bind (commutes_deref _) fun _ => .bind (commutes_store _ _) fun _ =>
    .bind (commutes_store _ _) fun _ => ?_
  cases left with
  | none => exact .pure _
  | some l => exact .bind (commutes_store _ _) fun _ => .pure _

theorem commutes_coalesce (left right : Option Nat) (new merged : Nat) :
    Commutes (State.clear a) (coalesce left right new merged) := by
  refine .bind (commutes_touchesLeft _ _) fun l => .bind (commutes_touchesRight _ _) fun r => ?_
  cases l with
  | none =>
    cases r with
    | none => exact .pure _
    | some r =>
      exact .bind (commutes_stitchRight _ _ _ _) fun _ =>
        .bind (commutes_recycle _) fun _ => .pure _
  | some l =>
    cases r with
    | none =>
      refine .bind (.bind (commutes_deref _) fun _ => .bind (commutes_store _ _) fun _ =>
        .bind (commutes_store _ _) fun _ => commutes_setPrev _ _) fun _ => ?_
      exact .bind (commutes_recycle _) fun _ => .pure _
    | some r =>
      refine .bind (.bind (commutes_deref _) fun _ => .bind (commutes_store _ _) fun _ =>
        .bind (commutes_store _ _) fun _ => .bind (commutes_setPrev _ _) fun _ =>
        commutes_recycle _) fun _ => ?_
      exact .bind (commutes_recycle _) fun _ => .pure _

theorem commutes_blockInsertAndCoalesce (blockList : Option Nat) (new : Nat) :
    Commutes (State.clear a) (blockInsertAndCoalesce blockList new) := by
  cases blockList with
  | none => exact .pure _
  | some blockList =>
    exact .bind (commutes_deref _) fun _ => .bind (.reads fun _ => rfl) fun _ =>
      .bind (commutes_findLeftNeighbour _ _ _) fun _ => .bind (commutes_insertBlock _ _ _) fun _ =>
      commutes_coalesce _ _ _ _

theorem commutes_freePages : ∀ fuel p, Commutes (State.clear a) (freePages fuel p)
  | 0, _ => .exit _
  | _ + 1, none => .pure _
  | fuel + 1, some p =>
    .bind (commutes_deref p) fun _ =>
    .bind (.bind (.check _ _) fun _ => .modify fun _ => rfl) fun _ =>
    .bind (commutes_deref p) fun _ => .bind (.reads fun _ => rfl) fun _ =>
    .bind (commutes_blockInsertAndCoalesce _ _) fun _ => .bind (.modify fun _ => rfl) fun _ =>
    commutes_freePages fuel _

/-! ## The pages go back -/

/-- The list an `arena_delete` still has to walk: its blocks cover what the
arena still owns. -/
structure Detached (s : State) (g : Ghost) (pending : Nat → Bool) (a : ArenaRef)
    (p : Option Nat) (l : List Nat) : Prop where
  chain : Chain s.view.next p l
  off : ∀ q ∈ l, ∀ h, q ∉ g.nodes h
  structs : ∀ q ∈ l, structRegion q ∈ g.regions
  aligned : ∀ q ∈ l, s.view.lo q ≤ s.view.hi q ∧ s.pageSize ∣ s.view.lo q ∧
    s.pageSize ∣ s.view.hi q
  above : ∀ q ∈ l, s.pageMemoryStart ≤ s.view.lo q
  covered : ∀ x, covers (l.map s.view.block) x = if pending x then 1 else 0
  owner : ∀ x, pending x = true ↔ g.owner x = some (.owned a)

/-- The arena lets go of its list. -/
theorem Inv.detach {n : Nat} (hi : Inv s g fun _ => false) (ha : a = .client n) :
    ∃ g', Inv (s.clear a) g' (fun x => g.owner x = some (.owned a)) ∧
      Detached (s.clear a) g' (fun x => g.owner x = some (.owned a)) a
        (s.arenas a).ownedPages (g.nodes (.owned a)) ∧
      g'.regions = g.regions.filter (·.arena ≠ a) ∧
      g'.nodes = Function.update g.nodes (.owned a) [] := by
  have hsub : ∀ h, ∀ p ∈ Function.update g.nodes (.owned a) [] h,
      p ∈ g.nodes h ∧ h ≠ .owned a := fun h p hp => by
    by_cases hh : h = .owned a
    · subst hh
      rw [Function.update_self] at hp
      cases hp
    · rw [Function.update_of_ne hh] at hp
      exact ⟨hp, hh⟩
  have hstruct : ∀ p, structRegion p ∈ g.regions →
      structRegion p ∈ g.regions.filter (·.arena ≠ a) := fun p hp => by
    rw [List.mem_filter]
    exact ⟨hp, by rw [ha]; rfl⟩
  have harena : ∀ a', a' ≠ a → (s.clear a).arenas a' = s.arenas a' := fun a' h =>
    Function.update_of_ne h ..
  have hself : (s.clear a).arenas a = {} := Function.update_self ..
  have hlists : Lists (s.clear a) (Function.update g.nodes (.owned a) []) := by
    refine ⟨fun h => ?_, fun h h' p hp hp' => hi.lists.apart h h' p (hsub h p hp).1
      (hsub h' p hp').1,
      fun h hh p hp => hi.lists.aligned h hh p (hsub h p hp).1,
      fun h hh p hp => hi.lists.above h hh p (hsub h p hp).1, ?_⟩
    · by_cases hh : h = .owned a
      · subst hh
        rw [Function.update_self]
        show ((s.clear a).arenas a).ownedPages = none
        rw [hself]
      · have hhead : (s.clear a).head h = s.head h := by
          cases h with
          | free => rfl
          | recycled => rfl
          | owned a' =>
            exact congrArg Arena.ownedPages (harena a' fun h => hh (congrArg Home.owned h))
        rw [Function.update_of_ne hh, hhead]
        exact hi.lists.chain h
    · rw [Function.update_of_ne (by simp)]
      exact hi.lists.free
  refine ⟨⟨Function.update g.nodes (.owned a) [], g.owner, g.regions.filter (·.arena ≠ a)⟩, ?_, ?_,
    rfl, rfl⟩
  · refine ⟨hlists, hi.page, hi.start, hi.small, hi.reserved, hi.owner_ne,
      fun h hh x => ?_, hi.readWrite,
      fun a' x hx hx' => ?_, fun r hr x hx hx' => ?_, fun r hr =>
        hi.positive r (List.mem_filter.mp hr).1,
      hi.disjoint.filter _, fun h p hp => hstruct p (hi.structs h p (hsub h p hp).1)⟩
    · show covers ((Function.update g.nodes (.owned a) [] h).map s.view.block) x = _
      by_cases hh' : h = .owned a
      · subst hh'
        rw [Function.update_self, if_neg]
        · rfl
        · rintro ⟨ho, hp⟩
          exact of_decide_eq_false hp ho
      · rw [Function.update_of_ne hh', hi.covered h hh x]
        refine if_congr ⟨fun hc => ⟨hc.1, ?_⟩, fun hc => ⟨hc.1, rfl⟩⟩ rfl rfl
        refine decide_eq_false fun ho => hh' ?_
        rw [hc.1] at ho
        exact Option.some.inj ho
    · by_cases h : a' = a
      · subst h
        rw [hself] at hx'
        exact absurd hx' (Nat.not_lt_zero x)
      · rw [harena a' h] at hx hx'
        exact hi.bump a' x hx hx'
    · obtain ⟨hr, hne⟩ := List.mem_filter.mp hr
      rw [harena r.arena (of_decide_eq_true hne)]
      exact hi.regions r hr x hx hx'
  · refine ⟨hi.lists.chain (.owned a), fun q hq h hmem => ?_,
      fun q hq => hstruct q (hi.structs _ q hq), hi.lists.aligned _ (by simp),
      hi.lists.above _ (by simp), fun x => ?_,
      fun x => ?_⟩
    · obtain ⟨hmem, hne⟩ := hsub h q hmem
      exact hne (hi.lists.apart _ _ q hmem hq)
    · refine (hi.covered (.owned a) (by simp) x).trans (if_congr ?_ rfl rfl)
      simp
    · exact decide_eq_true_iff

/-- Pages a cleared arena still owned become free, and are pending. -/
theorem Inv.release (hi : Inv s g pending) (ha : s.arenas a = {})
    (hreg : ∀ r ∈ g.regions, r.arena ≠ a) {b e : Nat} (hb : s.pageSize ∣ b) (he : s.pageSize ∣ e)
    (hown : ∀ x, b ≤ x → x < e → g.owner x = some (.owned a) ∧ pending x = true) :
    Inv { s with readWrite := protect s b e false } (g.give b e .free) pending := by
  have hps : 0 < s.pageSize := Nat.lt_trans (by omega) hi.pageSize_pos
  refine ⟨hi.lists.congr (fun h => by cases h <;> rfl)
    (fun _ _ _ => ⟨rfl, fun _ => ⟨rfl, rfl⟩⟩) rfl rfl,
    hi.page, hi.start, hi.small, fun x => ?_, fun x => ?_, fun h hh x => ?_, fun x => ?_,
    fun a' x hx hx' => ?_, fun r hr x hx hx' => ?_, hi.positive, hi.disjoint, hi.structs⟩
  · by_cases hx : b ≤ x ∧ x < e
    · have hold := (hi.reserved x).mp (by rw [(hown x hx.1 hx.2).1]; simp)
      rw [Ghost.give_in hx]
      exact ⟨fun _ => hold, fun _ => by simp⟩
    · rw [Ghost.give_out hx]
      exact hi.reserved x
  · by_cases hx : b ≤ x ∧ x < e
    · rw [Ghost.give_in hx]
      simp
    · rw [Ghost.give_out hx]
      exact hi.owner_ne x
  · refine (hi.covered h hh x).trans ?_
    by_cases hx : b ≤ x ∧ x < e
    · have hp := (hown x hx.1 hx.2).2
      rw [if_neg (by simp [hp]), if_neg (by simp [hp])]
    · exact if_congr (by rw [Ghost.give_out hx]) rfl rfl
  · have hrw : protect s b e false (x / s.pageSize) =
        if b ≤ x ∧ x < e then false else s.readWrite (x / s.pageSize) :=
      if_congr (page_mem hps hb he) rfl rfl
    show protect s b e false (x / s.pageSize) = true ↔ _
    rw [hrw]
    by_cases hx : b ≤ x ∧ x < e
    · rw [if_pos hx, Ghost.give_in hx]
      simp
    · rw [if_neg hx, Ghost.give_out hx]
      exact hi.readWrite x
  · have ho := hi.bump a' x hx hx'
    rw [Ghost.give_out fun hc => ?_]
    · exact ho
    · rw [(hown x hc.1 hc.2).1] at ho
      obtain rfl : a = a' := Home.owned.inj (Option.some.inj ho)
      have hlt : x < (s.arenas a).memoryLimit := hx'
      rw [ha] at hlt
      exact absurd hlt (Nat.not_lt_zero x)
  · obtain ⟨ho, hout⟩ := hi.regions r hr x hx hx'
    rw [Ghost.give_out fun hc => ?_]
    · exact ⟨ho, hout⟩
    · rw [(hown x hc.1 hc.2).1] at ho
      exact hreg r hr (Home.owned.inj (Option.some.inj ho)).symm

/-- The first block of the list is neither in the rest nor free. -/
theorem Detached.tail_off {q : Nat} {l : List Nat} (hd : Detached s g pending a (some q) (q :: l)) :
    ∀ p ∈ l, p ∉ q :: g.nodes .free := fun p hp hmem => by
  rcases List.mem_cons.mp hmem with rfl | hmem
  · exact (List.nodup_cons.mp hd.chain.nodup).1 hp
  · exact hd.off p (List.mem_cons_of_mem _ hp) _ hmem

theorem Detached.tail_blocks {q : Nat} {l : List Nat}
    (hd : Detached s g pending a (some q) (q :: l))
    (hsame : SameOff (q :: g.nodes .free) s.view t.view) :
    l.map t.view.block = l.map s.view.block := List.map_congr_left fun p hp => by
  obtain ⟨_, hlo, hhi⟩ := hsame p (hd.tail_off p hp)
  simp [View.block, hlo, hhi]

/-- The rest of the list after its first block went to the free list. -/
theorem Detached.tail {q : Nat} {l : List Nat} {nodes : Home → List Nat}
    (hd : Detached s g pending a (some q) (q :: l))
    (hfrom : ∀ h, ∀ p ∈ nodes h, p = q ∨ p ∈ g.nodes .free ∨ p ∈ g.nodes h)
    (hsame : SameOff (q :: g.nodes .free) s.view t.view) (hps : t.pageSize = s.pageSize)
    (hstart : t.pageMemoryStart = s.pageMemoryStart) :
    Detached t { g.give (s.view.lo q) (s.view.hi q) .free with nodes := nodes }
      (pendingWithout pending (s.view.lo q) (s.view.hi q)) a (s.view.next q) l := by
  have hq : q ∉ l := (List.nodup_cons.mp hd.chain.nodup).1
  have hoff := hd.tail_off
  refine ⟨hd.chain.2.congr fun p hp => (hsame p (hoff p hp)).1, fun p hp h hmem => ?_,
    fun p hp => hd.structs p (List.mem_cons_of_mem _ hp), fun p hp => ?_, fun p hp => ?_,
    fun x => ?_, fun x => ?_⟩
  · rcases hfrom h p hmem with rfl | hmem | hmem
    · exact hq hp
    · exact hd.off p (List.mem_cons_of_mem _ hp) _ hmem
    · exact hd.off p (List.mem_cons_of_mem _ hp) _ hmem
  · obtain ⟨_, hlo, hhi⟩ := hsame p (hoff p hp)
    rw [hlo, hhi, hps]
    exact hd.aligned p (List.mem_cons_of_mem _ hp)
  · rw [(hsame p (hoff p hp)).2.1, hstart]
    exact hd.above p (List.mem_cons_of_mem _ hp)
  · have hcov := hd.covered x
    rw [List.map_cons, covers_cons] at hcov
    have hblk : (s.view.block q).lo = s.view.lo q ∧ (s.view.block q).hi = s.view.hi q := ⟨rfl, rfl⟩
    rw [hblk.1, hblk.2] at hcov
    rw [hd.tail_blocks hsame]
    by_cases hx : s.view.lo q ≤ x ∧ x < s.view.hi q
    · rw [if_pos hx] at hcov
      rw [pendingWithout_in hx, if_neg (by simp)]
      split at hcov <;> omega
    · rw [if_neg hx, Nat.add_zero] at hcov
      rw [pendingWithout_out hx, hcov]
  · by_cases hx : s.view.lo q ≤ x ∧ x < s.view.hi q
    · show _ ↔ (g.give (s.view.lo q) (s.view.hi q) .free).owner x = _
      rw [pendingWithout_in hx, Ghost.give_in hx]
      simp
    · show _ ↔ (g.give (s.view.lo q) (s.view.hi q) .free).owner x = _
      rw [pendingWithout_out hx, Ghost.give_out hx]
      exact hd.owner x

/-- What `arena_delete` makes of the lists when it has yet to walk `l`. -/
structure Freed (s t : State) (g g' : Ghost) (l : List Nat) : Prop where
  free : g'.blocks t .free = giveBack (g.blocks s .free) (l.map s.view.block)
  others : ∀ h, h ≠ .free → h ≠ .recycled → g'.blocks t h = g.blocks s h
  kept : ∀ p, g.On p ∨ p ∈ l → g'.On p

/-- **The loop of `arena_delete`** returns all pages to the free list. -/
theorem wp_freePages {E : Exit → Prop} :
    ∀ {l : List Nat} {fuel : Nat} {p : Option Nat} {s : State} {g : Ghost} {pending : Nat → Bool},
      Inv s g pending → Detached s g pending a p l → s.arenas a = {} →
      (∀ r ∈ g.regions, r.arena ≠ a) → l.length < fuel →
      wp (freePages fuel p) s (fun _ t => ∃ g', Inv t g' (fun _ => false) ∧
        g'.regions = g.regions ∧ t.pageSize = s.pageSize ∧
        t.pageMemoryStart = s.pageMemoryStart ∧ t.arenas = s.arenas ∧
        Freed s t g g' l) E
  | [], 0, _, _, _, _, _, _, _, _, h => absurd h (Nat.not_lt_zero _)
  | [], fuel + 1, p, s, g, pending, hi, hd, _, _, _ => by
    obtain rfl : p = none := hd.chain
    have hnone : pending = fun _ => false := funext fun x => by
      have hcov := hd.covered x
      rw [List.map_nil, covers_nil] at hcov
      cases hp : pending x
      · rfl
      · rw [hp] at hcov
        cases hcov
    rw [hnone] at hi
    exact ⟨g, hi, rfl, rfl, rfl, rfl, rfl, fun _ _ _ => rfl,
      fun _ hp => hp.resolve_right (List.not_mem_nil)⟩
  | q :: l, 0, _, _, _, _, _, _, _, _, h => absurd h (Nat.not_lt_zero _)
  | q :: l, fuel + 1, p, s, g, pending, hi, hd, ha, hreg, hf => by
    obtain ⟨rfl, -⟩ := id hd.chain
    obtain ⟨hle, hlo, hhi⟩ := hd.aligned q (List.mem_cons_self ..)
    have hown : ∀ x, s.view.lo q ≤ x → x < s.view.hi q →
        g.owner x = some (.owned a) ∧ pending x = true := fun x h₁ h₂ => by
      have hcov := hd.covered x
      have hx : (s.view.block q).lo ≤ x ∧ x < (s.view.block q).hi := ⟨h₁, h₂⟩
      rw [List.map_cons, covers_cons, if_pos hx] at hcov
      have hp : pending x = true := by
        by_contra hp
        rw [if_neg hp] at hcov
        omega
      exact ⟨(hd.owner x).mp hp, hp⟩
    have hi' := hi.release ha hreg hlo hhi hown
    unfold freePages mprotect
    simp only [wp_bind, wp_deref, wp_check, wp_modify, wp_reads]
    have hblk : (s.blocks q).memoryBegin = s.view.lo q ∧ (s.blocks q).memoryEnd = s.view.hi q :=
      ⟨rfl, rfl⟩
    rw [hblk.1, hblk.2, if_pos hle]
    refine wp_mono (hi'.wp_insert (h := .free) (by simp) (hd.off q (List.mem_cons_self ..))
      (hd.structs q (List.mem_cons_self ..)) ⟨hle, hlo, hhi⟩
      (hd.above q (List.mem_cons_self ..)) (fun hnil => ?_)
      fun x h₁ h₂ => ⟨Ghost.give_in ⟨h₁, h₂⟩ _, (hown x h₁ h₂).2⟩) ?_ fun _ h => h
    · have hchain := hi'.lists.chain .free
      rw [hnil] at hchain
      exact absurd hchain.eq_nil hi'.lists.free
    · rintro head t ⟨nodes, hit, ht, hjoins⟩
      have hps : t.pageSize = s.pageSize := by rw [ht]
      have harenas : t.arenas = s.arenas := by rw [ht]
      refine wp_mono (wp_freePages hit (hd.tail hjoins.origin hjoins.same hps (by rw [ht]))
        (by show t.arenas a = {}; rw [harenas, ha]) hreg (by simpa using hf)) ?_ fun _ h => h
      rintro _ v ⟨g', hiv, hregs, hpsv, hstart, hav, hfreed⟩
      refine ⟨g', hiv, hregs, hpsv.trans hps, hstart.trans (by rw [ht]), hav.trans harenas, ?_,
        fun h hh hr => ?_,
        fun p hp => hfreed.kept p ?_⟩
      · refine hfreed.free.trans ?_
        show giveBack ((nodes .free).map t.view.block) (l.map t.view.block) = _
        rw [hjoins.blocks, hd.tail_blocks hjoins.same]
        rfl
      · exact (hfreed.others h hh hr).trans (hjoins.others h hh hr)
      · rw [List.mem_cons] at hp
        rcases hp with hp | rfl | hp
        · exact .inl (hjoins.kept p (.inr hp))
        · exact .inl (hjoins.kept p (.inl rfl))
        · exact .inr hp

/-- **`arena_delete`** drops the regions of the arena from the account and gives its blocks
back to the free list; no struct leaves the lists. -/
theorem Inv.wp_arenaDelete {E : Exit → Prop} (hi : Inv s g fun _ => false) (n : Nat) :
    wp (arenaDelete (.client n)) s (fun _ t => ∃ g', Inv t g' (fun _ => false) ∧
      g'.regions = g.regions.filter (·.arena ≠ .client n) ∧ t.pageSize = s.pageSize ∧
      t.pageMemoryStart = s.pageMemoryStart ∧
      g'.blocks t .free = giveBack (g.blocks s .free) (g.blocks s (.owned (.client n))) ∧
      (∀ a, a ≠ .client n → g'.blocks t (.owned a) = g.blocks s (.owned a)) ∧
      t.arenas = Function.update s.arenas (.client n) {} ∧ Keeps g g' []) E := by
  obtain ⟨g', hi', hd, hreg, hnodes⟩ := hi.detach (a := .client n) rfl
  have hwalk := wp_freePages (E := E) hi' hd
    (Function.update_self ..) (fun r hr => by
      rw [hreg] at hr
      exact of_decide_eq_true (List.mem_filter.mp hr).2)
    (Nat.lt_succ_of_le (hi.length_le _))
  rw [(commutes_freePages _ _).wp] at hwalk
  unfold arenaDelete listFuel setArena
  simp only [wp_bind, wp_reads, wp_modify]
  refine wp_mono hwalk ?_ fun _ h => h
  rintro _ t ⟨g'', hit, hregs, hps, hstart, harenas, hfreed⟩
  have hblocks : ∀ h, h ≠ .owned (.client n) → g'.blocks (s.clear (.client n)) h = g.blocks s h :=
    fun h hh => by
      show (g'.nodes h).map s.view.block = _
      rw [hnodes, Function.update_of_ne hh]
      rfl
  refine ⟨g'', hit, hregs.trans hreg, hps, hstart, ?_, fun a ha => ?_, harenas,
    fun p hp => hfreed.kept p ?_⟩
  · refine hfreed.free.trans ?_
    rw [hblocks _ (by simp)]
    rfl
  · exact (hfreed.others (.owned a) (by simp) (by simp)).trans
      (hblocks _ fun h => ha (Home.owned.inj h))
  · obtain ⟨h, hp⟩ := hp.resolve_right (List.not_mem_nil)
    by_cases hh : h = .owned (.client n)
    · exact .inr (hh ▸ hp)
    · exact .inl ⟨h, by rwa [hnodes, Function.update_of_ne hh]⟩

end Dp4c.Memory
