import Dp4c.Memory.Invariant

/-! # Structs for new pages

A refill gets a struct for its pages from the recycled ones, or by a push on
`pageblock_storage` that may have to refill it in turn, and inserts it in the
arena's list. Memory is handed out from what an arena has left. -/
namespace Dp4c.Memory

open Dp4c.Lib Dp4c.Lib.Prog Block

variable {s t u : State} {g g' g'' : Ghost} {pending : Nat → Bool}

/-! ## A block joins a list -/

/-- The addresses pending, without `[b, e)`. -/
def pendingWithout (pending : Nat → Bool) (b e : Nat) (x : Nat) : Bool :=
  pending x && !(b ≤ x && x < e)

theorem pendingWithout_in {b e x : Nat} (hx : b ≤ x ∧ x < e) :
    pendingWithout pending b e x = false := by
  simp [pendingWithout, hx]

theorem pendingWithout_out {b e x : Nat} (hx : ¬ (b ≤ x ∧ x < e)) :
    pendingWithout pending b e x = pending x := by
  have hf : (decide (b ≤ x) && decide (x < e)) = false := by simpa using hx
  simp [pendingWithout, hf]

theorem pendingWithout_with {b e : Nat} (h : ∀ x, b ≤ x → x < e → pending x = false) :
    pendingWithout (pendingWith pending b e) b e = pending := by
  funext x
  by_cases hx : b ≤ x ∧ x < e
  · rw [pendingWithout_in hx, h x hx.1 hx.2]
  · rw [pendingWithout_out hx, pendingWith_out hx]

theorem setHead_arenas (s : State) (h : Home) (p : Option Nat) (a : ArenaRef) :
    ((s.setHead h p).arenas a).memoryAvail = (s.arenas a).memoryAvail ∧
      ((s.setHead h p).arenas a).memoryLimit = (s.arenas a).memoryLimit := by
  cases h with
  | free => exact ⟨rfl, rfl⟩
  | recycled => exact ⟨rfl, rfl⟩
  | owned a' =>
    by_cases ha : a = a'
    · subst ha; simp [State.setHead]
    · simp [State.setHead, ha]

theorem setHead_rest (s : State) (h : Home) (p : Option Nat) :
    (s.setHead h p).totalPageCount = s.totalPageCount ∧
      (s.setHead h p).pageMemoryStart = s.pageMemoryStart ∧
      (s.setHead h p).readWrite = s.readWrite := by
  cases h <;> exact ⟨rfl, rfl, rfl⟩

/-- What the insertion of a struct into list `h` makes of the lists. -/
structure Joins (h : Home) (new : Nat) (s t : State) (nodes nodes' : Home → List Nat) : Prop where
  origin : ∀ h', ∀ p ∈ nodes' h', p = new ∨ p ∈ nodes h ∨ p ∈ nodes h'
  kept : ∀ p, (p = new ∨ ∃ h', p ∈ nodes h') → ∃ h', p ∈ nodes' h'
  same : SameOff (new :: nodes h) s.view t.view
  blocks : (nodes' h).map t.view.block =
    (insertAndCoalesce ((nodes h).map s.view.block) (s.view.block new)).1
  others : ∀ h', h' ≠ h → h' ≠ .recycled →
    (nodes' h').map t.view.block = (nodes h').map s.view.block

/-- **A struct joins a list** with pending pages of that list's owner; they are
pending no more. -/
theorem Inv.wp_insert {E : Exit → Prop} (hi : Inv s g pending) {h : Home} (hh : h ≠ .recycled)
    {new : Nat} (hnew : ∀ h', new ∉ g.nodes h') (hreg : structRegion new ∈ g.regions)
    (hblock : s.view.lo new ≤ s.view.hi new ∧ s.pageSize ∣ s.view.lo new ∧
      s.pageSize ∣ s.view.hi new) (habove : s.pageMemoryStart ≤ s.view.lo new)
    (hnil : s.head h = none → s.view.next new = none)
    (hown : ∀ x, s.view.lo new ≤ x → x < s.view.hi new →
      g.owner x = some h ∧ pending x = true) :
    wp (blockInsertAndCoalesce (s.head h) new) s (fun head t => ∃ nodes,
      Inv (t.setHead h (some head)) { g with nodes := nodes }
        (pendingWithout pending (s.view.lo new) (s.view.hi new)) ∧
      t = { s with blocks := t.blocks, recycledBlockStructs := t.recycledBlockStructs } ∧
      Joins h new s t g.nodes nodes) E := by
  refine wp_mono (hi.lists.insert hh hnew hblock habove hnil (hi.length_le h)) ?_ fun _ h => h
  rintro head t ⟨list, dropped, hlists, hrest, hcov, hperm, hsame, hlist⟩
  have hfrom : ∀ h', ∀ p ∈ joined g.nodes h list dropped h',
      p = new ∨ p ∈ g.nodes h ∨ p ∈ g.nodes h' := fun h' p hp => by
    rcases mem_joined hh hp with ⟨_, hq⟩ | ⟨_, hq⟩ | ⟨hq, _⟩
    · rcases List.mem_cons.mp (hperm.mem_iff.mp (List.mem_append_right _ hq)) with hq | hq
      · exact .inl hq
      · exact .inr (.inl hq)
    · rcases List.mem_cons.mp (hperm.mem_iff.mp (List.mem_append_left _ hq)) with hq | hq
      · exact .inl hq
      · exact .inr (.inl hq)
    · exact .inr (.inr hq)
  have hother : ∀ h', h' ≠ h → (g.nodes h').map t.view.block = (g.nodes h').map s.view.block :=
    fun h' hne => List.map_congr_left fun p hp => by
      obtain ⟨_, hlo, hhi⟩ := hsame p fun hmem => by
        rcases List.mem_cons.mp hmem with rfl | hmem
        · exact hnew h' hp
        · exact hne (hi.lists.apart _ _ p hp hmem)
      simp [View.block, hlo, hhi]
  have hkept : ∀ p, (p = new ∨ ∃ h', p ∈ g.nodes h') →
      ∃ h', p ∈ joined g.nodes h list dropped h' := fun p hp => by
    by_cases hmem : p ∈ dropped ++ list
    · rcases List.mem_append.mp hmem with hp | hp
      · exact ⟨.recycled, by rw [joined_recycled]; exact List.mem_append_left _ hp⟩
      · exact ⟨h, by rwa [joined_self hh]⟩
    · rw [hperm.mem_iff, List.mem_cons, not_or] at hmem
      obtain ⟨h', hp⟩ := hp.resolve_left hmem.1
      have hne : h' ≠ h := fun he => hmem.2 (he ▸ hp)
      by_cases hr : h' = .recycled
      · subst hr
        exact ⟨.recycled, by rw [joined_recycled]; exact List.mem_append_right _ hp⟩
      · exact ⟨h', by rwa [joined_other hne hr]⟩
  refine ⟨joined g.nodes h list dropped, ?_, hrest, hfrom, hkept, hsame, ?_, fun h' hne hr => ?_⟩
  rotate_left
  · rw [joined_self hh]
    exact hlist
  · rw [joined_other hne hr]
    exact hother h' hne
  obtain ⟨htot, hstart, hrw⟩ := setHead_rest t h (some head)
  have hview := setHead_blocks t hh (some head)
  have hps : (t.setHead h (some head)).pageSize = s.pageSize := by
    rw [setHead_pageSize, hrest]
  have harena : ∀ a, ((t.setHead h (some head)).arenas a).memoryAvail = (s.arenas a).memoryAvail ∧
      ((t.setHead h (some head)).arenas a).memoryLimit = (s.arenas a).memoryLimit := fun a => by
    obtain ⟨h₁, h₂⟩ := setHead_arenas t h (some head) a
    rw [h₁, h₂, hrest]
    exact ⟨rfl, rfl⟩
  refine ⟨hlists, by rw [hps]; exact hi.page, by rw [hps, hstart, hrest]; exact hi.start,
    by rw [hps, htot, hrest]; exact hi.small, fun x => ?_, hi.owner_ne, fun h' hh' x => ?_,
    fun x => ?_, fun a x hx hx' => ?_, fun r hr x hx hx' => ?_, hi.positive, hi.disjoint,
      fun h' p hp => ?_⟩
  · have hres : (t.setHead h (some head)).Reserved x ↔ s.Reserved x := by
      unfold State.Reserved
      rw [hps, htot, hstart, hrest]
    rw [hres]
    exact hi.reserved x
  · show covers ((joined g.nodes h list dropped h').map (t.setHead h (some head)).view.block) x = _
    rw [hview]
    by_cases hhh : h' = h
    · subst hhh
      rw [joined_self hh, hcov, hi.covered h' hh x]
      by_cases hx : s.view.lo new ≤ x ∧ x < s.view.hi new
      · obtain ⟨ho, hp⟩ := hown x hx.1 hx.2
        rw [if_pos hx, if_neg (by simp [hp]), if_pos ⟨ho, pendingWithout_in hx⟩]
      · rw [if_neg hx, Nat.add_zero]
        exact if_congr (by rw [pendingWithout_out hx]) rfl rfl
    · rw [joined_other hhh hh', hother h' hhh, hi.covered h' hh' x]
      by_cases hx : s.view.lo new ≤ x ∧ x < s.view.hi new
      · obtain ⟨ho, _⟩ := hown x hx.1 hx.2
        have hne : g.owner x ≠ some h' := by
          rw [ho]
          exact fun hc => hhh (Option.some.inj hc).symm
        rw [if_neg fun hc => hne hc.1, if_neg fun hc => hne hc.1]
      · exact if_congr (by rw [pendingWithout_out hx]) rfl rfl
  · rw [hps, hrw, hrest]
    exact hi.readWrite x
  · rw [(harena a).1] at hx
    rw [(harena a).2] at hx'
    exact hi.bump a x hx hx'
  · rw [(harena r.arena).1, (harena r.arena).2]
    exact hi.regions r hr x hx hx'
  · rcases hfrom h' p hp with rfl | hq | hq
    · exact hreg
    · exact hi.structs h p hq
    · exact hi.structs h' p hq

/-! ## Handing out memory -/

/-- The state with another `memory_avail`. -/
def State.withAvail (s : State) (a : ArenaRef) (n : Nat) : State :=
  let arena : Arena := { s.arenas a with memoryAvail := n }
  { s with arenas := Function.update s.arenas a arena }

/-- The bump pointer of an arena moves up. -/
theorem Inv.advance (hi : Inv s g pending) {a : ArenaRef} {n : Nat}
    (hn : (s.arenas a).memoryAvail ≤ n) : Inv (s.withAvail a n) g pending := by
  generalize ht : s.withAvail a n = t
  have harena : ∀ a', t.arenas a' = if a' = a then { s.arenas a with memoryAvail := n }
      else s.arenas a' :=
    fun a' => by rw [← ht]; exact Function.update_apply ..
  have hhead : ∀ h, t.head h = s.head h := fun h => by
    cases h with
    | free => rw [← ht]; rfl
    | recycled => rw [← ht]; rfl
    | owned a' =>
      show (t.arenas a').ownedPages = (s.arenas a').ownedPages
      rw [harena]
      by_cases ha : a' = a
      · rw [if_pos ha, ha]
      · rw [if_neg ha]
  have hview : t.view = s.view := by rw [← ht]; rfl
  have hps : t.pageSize = s.pageSize := by rw [← ht]; rfl
  have hrw : t.readWrite = s.readWrite := by rw [← ht]; rfl
  refine ⟨hi.lists.congr hhead (fun h p _ => by rw [hview]; exact ⟨rfl, fun _ => ⟨rfl, rfl⟩⟩) hps
      (by rw [← ht]; rfl),
    by rw [hps]; exact hi.page, by rw [← ht]; exact hi.start, by rw [← ht]; exact hi.small,
    fun x => by rw [← ht]; exact hi.reserved x, hi.owner_ne,
    fun h hh x => by rw [hview]; exact hi.covered h hh x,
    fun x => by rw [hps, hrw]; exact hi.readWrite x, fun a' x hx hx' => ?_,
    fun r hr x hx hx' => ?_, hi.positive, hi.disjoint, hi.structs⟩
  · rw [harena] at hx hx'
    by_cases ha : a' = a
    · subst ha
      rw [if_pos rfl] at hx hx'
      exact hi.bump a' x (Nat.le_trans hn hx) hx'
    · rw [if_neg ha] at hx hx'
      exact hi.bump a' x hx hx'
  · obtain ⟨ho, hout⟩ := hi.regions r hr x hx hx'
    refine ⟨ho, ?_⟩
    rw [harena]
    by_cases ha : r.arena = a
    · rw [ha] at hout
      rw [if_pos ha]
      exact hout.imp (fun h => Nat.lt_of_lt_of_le h hn) id
    · rw [if_neg ha]
      exact hout

/-- The next `size` bytes of an arena are a new region. -/
theorem Inv.handOut (hi : Inv s g pending) {a : ArenaRef} {size : Nat} (hs : 0 < size)
    (hfit : (s.arenas a).memoryAvail + size ≤ (s.arenas a).memoryLimit) :
    Inv (s.withAvail a ((s.arenas a).memoryAvail + size))
      { g with regions := ⟨a, (s.arenas a).memoryAvail, size⟩ :: g.regions } pending := by
  have hi' := hi.advance (Nat.le_add_right (s.arenas a).memoryAvail size)
  refine
    { hi' with
      regions := ?_
      positive := ?_
      disjoint := List.pairwise_cons.mpr ⟨fun r hr => ?_, hi.disjoint⟩
      structs := fun h p hp => List.mem_cons_of_mem _ (hi.structs h p hp) }
  · simp only [List.mem_cons, forall_eq_or_imp]
    refine ⟨fun x hx hx' => ⟨hi.bump a x hx (by omega), .inl ?_⟩, hi'.regions⟩
    simpa [State.withAvail] using hx'
  · simp only [List.mem_cons, forall_eq_or_imp]
    exact ⟨hs, hi.positive⟩
  · -- an address of both would be the arena's own, used and unused
    by_contra hno
    have hpos := hi.positive r hr
    simp only [Region.Disjoint, not_or, Nat.not_le] at hno
    let x := max (s.arenas a).memoryAvail r.base
    obtain ⟨ho, hout⟩ := hi.regions r hr x (by omega) (by omega)
    have hown := hi.bump a x (by omega) (by omega)
    rw [hown] at ho
    have ha : a = r.arena := Home.owned.inj (Option.some.inj ho)
    rw [← ha] at hout
    omega

/-! ## A new struct -/

/-- What a push may change besides the arena it is made on. -/
structure Extends (a : ArenaRef) (s t : State) (g g' : Ghost) : Prop where
  owned : ∀ x a', g.owner x = some (.owned a') → g'.owner x = some (.owned a')
  clients : ∀ n, .client n ≠ a → t.arenas (.client n) = s.arenas (.client n)
  regions : ∃ new, g'.regions = new ++ g.regions ∧ ∀ r ∈ new, r.arena = .pageblockStorage
  fixed : t.pageSize = s.pageSize ∧ t.totalPageCount = s.totalPageCount ∧
    t.pageMemoryStart = s.pageMemoryStart
  free : Cut (g.blocks s .free) (g'.blocks t .free)
  blocks : ∀ n, .client n ≠ a →
    g'.blocks t (.owned (.client n)) = g.blocks s (.owned (.client n))

variable {a : ArenaRef}

theorem Extends.trans (h : Extends a s t g g') (h' : Extends a t u g' g'') :
    Extends a s u g g'' := by
  obtain ⟨new, hnew, hall⟩ := h.regions
  obtain ⟨new', hnew', hall'⟩ := h'.regions
  refine ⟨fun x a' hx => h'.owned x a' (h.owned x a' hx),
    fun n hn => (h'.clients n hn).trans (h.clients n hn),
    ⟨new' ++ new, by rw [hnew', hnew, List.append_assoc], fun r hr => ?_⟩,
    ⟨h'.fixed.1.trans h.fixed.1, h'.fixed.2.1.trans h.fixed.2.1, h'.fixed.2.2.trans h.fixed.2.2⟩,
    h.free.trans h'.free, fun n hn => (h'.blocks n hn).trans (h.blocks n hn)⟩
  exact (List.mem_append.mp hr).elim (hall' r) (hall r)

/-- The bump pointer of an arena moves by at most one struct. -/
def Steady (a : ArenaRef) (s t : State) : Prop :=
  (t.arenas a).memoryLimit = (s.arenas a).memoryLimit ∧
    (s.arenas a).memoryAvail ≤ (t.arenas a).memoryAvail ∧
    (t.arenas a).memoryAvail ≤ (s.arenas a).memoryAvail +
      if a = .pageblockStorage then sizeofPageBlock else 0

/-- The structs on the lists stay on lists, and `structs` are on lists too. -/
def Keeps (g g' : Ghost) (structs : List Nat) : Prop := ∀ q, g.On q ∨ q ∈ structs → g'.On q

/-- What an arena has left is in one of its blocks. -/
def Held (s : State) (g : Ghost) (a : ArenaRef) : Prop :=
  (s.arenas a).memoryAvail < (s.arenas a).memoryLimit → ∃ b ∈ g.blocks s (.owned a),
    b.lo ≤ (s.arenas a).memoryAvail ∧ (s.arenas a).memoryLimit ≤ b.hi

/-- What a push of `size` bytes on `a` returns: a region that is on top of all
others, those of the structs included. The structs it has handed out meanwhile are on lists. -/
structure Pushed (a : ArenaRef) (size : Nat) (s : State) (g : Ghost) (pending : Nat → Bool)
    (structs : List Nat) (p : Nat) (t : State) (g' : Ghost) (rest : List Region) : Prop where
  inv : Inv t g' pending
  region : g'.regions = ⟨a, p, size⟩ :: rest
  lists : ∀ h, ∀ q ∈ g'.nodes h, structRegion q ∈ rest
  ext : Extends a s t g { g' with regions := rest }
  keeps : Keeps g g' structs
  nodup : structs.Nodup
  avail : (t.arenas a).memoryAvail = p + size
  limit : p + size ≤ (t.arenas a).memoryLimit
  held : Held s g a → ∃ b ∈ g'.blocks t (.owned a), b.lo ≤ p ∧ (t.arenas a).memoryLimit ≤ b.hi

/-- All free blocks are empty. -/
def NoPages (free : List Block) : Prop := ∀ b ∈ free, b.hi ≤ b.lo

/-- No free block holds `size` bytes. -/
def NoFit (free : List Block) (size : Nat) : Prop := ∀ b ∈ free, b.hi < b.lo + size

/-- The free pages are those of one block of `n` bytes. -/
def LastPages (free : List Block) (n : Nat) : Prop :=
  ∃ b ∈ free, b.hi = b.lo + n ∧ ∀ c ∈ free, c ≠ b → c.hi ≤ c.lo

instance (free : List Block) (n : Nat) : Decidable (LastPages free n) :=
  inferInstanceAs (Decidable (∃ b ∈ free, b.hi = b.lo + n ∧ ∀ c ∈ free, c ≠ b → c.hi ≤ c.lo))

/-- A new struct needs new pages. -/
def StorageFull (s : State) : Prop :=
  s.recycledBlockStructs = none ∧ (s.arenas .pageblockStorage).memoryAvail + sizeofPageBlock ≥
    (s.arenas .pageblockStorage).memoryLimit

instance (s : State) : Decidable (StorageFull s) :=
  inferInstanceAs (Decidable (s.recycledBlockStructs = none ∧ _ ≥ _))

/-- A push for a struct, made while arena `a` is refilled; it hands out the structs `pushed`. -/
def PushesStruct (push : ArenaM Nat) (pushed : State → List Nat) (a : ArenaRef) (s : State) :
    Prop :=
  ∀ g pending, Inv s g pending → s.recycledBlockStructs = none →
    wp push s (fun p t => (∃ g' rest,
        Pushed .pageblockStorage sizeofPageBlock s g pending (pushed s) p t g' rest) ∧ Steady a s t)
      (fun e => e = .outOfMemory ∧ a ≠ .pageblockStorage ∧ NoPages (g.blocks s .free) ∧
        StorageFull s)

/-- A struct on none of the lists can be cleared, or given a block. -/
theorem Inv.storeOff (hi : Inv s g pending) {p : Nat} (hp : ∀ h, p ∉ g.nodes h)
    (hview : ∀ q, q ≠ p → t.view.next q = s.view.next q ∧ t.view.lo q = s.view.lo q ∧
      t.view.hi q = s.view.hi q)
    (hrest : t = { s with blocks := t.blocks }) : Inv t g pending := by
  have hne : ∀ h, ∀ q ∈ g.nodes h, q ≠ p := fun h q hq e => hp h (e ▸ hq)
  have hhead : ∀ h, t.head h = s.head h := fun h => by rw [hrest]; cases h <;> rfl
  have hps : t.pageSize = s.pageSize := by rw [hrest]
  have harenas : t.arenas = s.arenas := by rw [hrest]
  refine ⟨hi.lists.congr hhead (fun h q hq => ?_) hps (by rw [hrest]), by rw [hps]; exact hi.page,
    by rw [hrest]; exact hi.start, by rw [hrest]; exact hi.small,
    fun x => by rw [hrest]; exact hi.reserved x, hi.owner_ne, fun h hh x => ?_,
    fun x => by rw [hps, hrest]; exact hi.readWrite x, by rw [harenas]; exact hi.bump,
    by rw [harenas]; exact hi.regions, hi.positive, hi.disjoint, hi.structs⟩
  · obtain ⟨h₁, h₂, h₃⟩ := hview q (hne h q hq)
    exact ⟨h₁, fun _ => ⟨h₂, h₃⟩⟩
  · rw [← hi.covered h hh x]
    congr 1
    refine List.map_congr_left fun q hq => ?_
    obtain ⟨_, h₂, h₃⟩ := hview q (hne h q hq)
    simp [View.block, h₂, h₃]

/-- A struct taken off the recycled ones. -/
theorem Inv.unrecycle (hi : Inv s g pending) {p : Nat} (hp : s.recycledBlockStructs = some p) :
    ∃ R, (∀ h, p ∉ Function.update g.nodes .recycled R h) ∧ structRegion p ∈ g.regions ∧
      (∀ q, g.On q → q = p ∨ ∃ h, q ∈ Function.update g.nodes .recycled R h) ∧
      Inv { s with recycledBlockStructs := s.view.next p }
        { g with nodes := Function.update g.nodes .recycled R } pending := by
  have hchain := hi.lists.chain .recycled
  have hhead : s.head .recycled = some p := hp
  rw [hhead] at hchain
  obtain ⟨R, hR, htail⟩ := hchain.eq_cons
  have hnd : (p :: R).Nodup := by rw [← hR]; exact (hi.lists.chain .recycled).nodup
  have hpm : p ∈ g.nodes .recycled := by rw [hR]; exact List.mem_cons_self ..
  have hsub : ∀ h, ∀ q ∈ Function.update g.nodes .recycled R h, q ∈ g.nodes h := fun h q hq => by
    by_cases hh : h = .recycled
    · subst hh
      rw [Function.update_self] at hq
      rw [hR]
      exact List.mem_cons_of_mem _ hq
    · rwa [Function.update_of_ne hh] at hq
  have hother : ∀ h, h ≠ .recycled → Function.update g.nodes .recycled R h = g.nodes h :=
    fun h hh => Function.update_of_ne hh ..
  refine ⟨R, fun h hq => ?_, hi.structs .recycled p hpm, fun q hq => ?_, ?_⟩
  · have hh := hi.lists.apart _ _ p (hsub h p hq) hpm
    subst hh
    rw [Function.update_self] at hq
    exact (List.nodup_cons.mp hnd).1 hq
  · obtain ⟨h, hq⟩ := hq
    by_cases hh : h = .recycled
    · subst hh
      rw [hR] at hq
      refine (List.mem_cons.mp hq).imp id fun hq => ⟨.recycled, ?_⟩
      rwa [Function.update_self]
    · exact .inr ⟨h, by rwa [hother h hh]⟩
  · refine ⟨⟨fun h => ?_, fun h h' q hq hq' => hi.lists.apart h h' q (hsub h q hq) (hsub h' q hq'),
      fun h hh q hq => hi.lists.aligned h hh q (hsub h q hq),
      fun h hh q hq => hi.lists.above h hh q (hsub h q hq), ?_⟩, hi.page, hi.start, hi.small,
      hi.reserved, hi.owner_ne, fun h hh x => ?_, hi.readWrite, hi.bump, hi.regions,
      hi.positive, hi.disjoint, fun h q hq => hi.structs h q (hsub h q hq)⟩
    · by_cases hh : h = .recycled
      · subst hh
        simp only [Function.update_self]
        exact htail
      · show Chain _ _ (Function.update g.nodes .recycled R h)
        rw [hother h hh]
        have hsame := hi.lists.chain h
        cases h with
        | free => exact hsame
        | recycled => exact absurd rfl hh
        | owned a => exact hsame
    · show Function.update g.nodes .recycled R .free ≠ []
      rw [hother _ (by simp)]
      exact hi.lists.free
    · show covers ((Function.update g.nodes .recycled R h).map s.view.block) x = _
      rw [hother h hh]
      exact hi.covered h hh x

theorem Extends.of_frame (hfixed : t.pageSize = s.pageSize ∧ t.totalPageCount = s.totalPageCount ∧
    t.pageMemoryStart = s.pageMemoryStart) (harenas : t.arenas = s.arenas)
    (howner : g'.owner = g.owner) (hreg : g'.regions = g.regions)
    (hblocks : ∀ h, h ≠ .recycled → g'.blocks t h = g.blocks s h) : Extends a s t g g' := by
  refine ⟨fun x a' hx => by rw [howner]; exact hx, fun n _ => by rw [harenas],
    ⟨[], by rw [hreg]; rfl, by simp⟩, hfixed, ?_, fun n _ => hblocks _ (by simp)⟩
  rw [hblocks .free (by simp)]
  exact .refl _

theorem Steady.of_arenas (h : t.arenas = s.arenas) : Steady a s t := by
  unfold Steady
  rw [h]
  exact ⟨rfl, Nat.le_refl _, Nat.le_add_right _ _⟩

theorem Steady.of_client {n : Nat} (h : t.arenas (.client n) = s.arenas (.client n)) :
    Steady (.client n) s t := by
  unfold Steady
  rw [h]
  exact ⟨rfl, Nat.le_refl _, Nat.le_add_right _ _⟩

/-- The struct a push returned is on no list. -/
theorem Pushed.fresh {structs : List Nat} {p : Nat} {rest : List Region}
    (h : Pushed .pageblockStorage sizeofPageBlock s g pending structs p t g' rest) :
    (∀ h, p ∉ g'.nodes h) ∧ structRegion p ∈ g'.regions ∧ Extends .pageblockStorage s t g g' := by
  have htop : structRegion p ∈ g'.regions := by rw [h.region]; exact List.mem_cons_self ..
  have hext := h.ext
  refine ⟨fun home hp => ?_, htop, ⟨hext.owned, hext.clients, ?_, hext.fixed, hext.free,
    hext.blocks⟩⟩
  · have hdis := h.inv.disjoint
    rw [h.region] at hdis
    have hself := (List.pairwise_cons.mp hdis).1 _ (h.lists home p hp)
    simp only [Region.Disjoint, structRegion, sizeofPageBlock] at hself
    omega
  · obtain ⟨new, hnew, hall⟩ := hext.regions
    refine ⟨⟨.pageblockStorage, p, sizeofPageBlock⟩ :: new, by
      rw [h.region, List.cons_append, ← hnew], fun r hr => ?_⟩
    rcases List.mem_cons.mp hr with rfl | hr
    · rfl
    · exact hall r hr

/-- Clearing a struct off the lists. -/
theorem Inv.wp_clear {E : Exit → Prop} (hi : Inv s g pending) {p : Nat}
    (hp : ∀ h, p ∉ g.nodes h) :
    wp (store p fun _ => {}) s (fun _ t => Inv t g pending ∧ t.view.next p = none ∧
      t = { s with blocks := t.blocks } ∧ ∀ h, g.blocks t h = g.blocks s h) E := by
  refine ⟨hi.storeOff hp (fun q hq => ?_) rfl, ?_, rfl, fun h => ?_⟩
  · simp [State.view, hq]
  · simp [State.view]
  · refine List.map_congr_left fun q hq => ?_
    have hne : q ≠ p := fun he => hp h (he ▸ hq)
    simp [View.block, State.view, hne]

/-! ## The structs that are handed out -/

/-- The first part of `refill`: pages for the request. -/
def takePages (arena : ArenaRef) (size : UInt32) : ArenaM (Nat × Nat) := do
  let freeBlock ← Prog.lift .outOfMemory (← findBlockFirstFit (intOfUint32 size))
  let (allocMemoryBegin, allocMemoryEnd) ← carve freeBlock size
  mprotect allocMemoryBegin allocMemoryEnd true
  setArena arena fun a =>
    { a with memoryAvail := allocMemoryBegin, memoryLimit := allocMemoryEnd }
  pure (allocMemoryBegin, allocMemoryEnd)

/-- The struct that `get_new_block_struct` returns, and what its push hands out. -/
def structsFrom (push : ArenaM Nat) (pushed : State → List Nat) (s : State) : List Nat :=
  match getNewBlockStruct push s with
  | .ok (new, _) => new :: if s.recycledBlockStructs = none then pushed s else []
  | .error _ => []

/-- The structs that a refill hands out. -/
def refillStructs (push : ArenaM Nat) (pushed : State → List Nat) (arena : ArenaRef)
    (size : UInt32) (s : State) : List Nat :=
  match takePages arena size s with
  | .ok (_, t) => structsFrom push pushed t
  | .error _ => []

/-- The structs that `get_new_block_struct` hands out during an `arena_push`. -/
def newStructs : Nat → ArenaRef → UInt32 → State → List Nat
  | 0, _, _, _ => []
  | depth + 1, arena, size, s =>
    if (s.arenas arena).memoryAvail + size.toNat ≥ (s.arenas arena).memoryLimit then
      refillStructs (arenaPushDepth depth .pageblockStorage sizeofPageBlock.toUInt32)
        (newStructs depth .pageblockStorage sizeofPageBlock.toUInt32) arena size s
    else []

/-- **A new struct** is on no list; it is cleared. The structs handed out on its behalf are on
lists. -/
theorem Inv.wp_getNewBlockStruct (hi : Inv s g pending) {push : ArenaM Nat}
    {pushed : State → List Nat} (hpush : PushesStruct push pushed a s) :
    wp (getNewBlockStruct push) s (fun new t => ∃ g' structs, Inv t g' pending ∧
      (∀ h, new ∉ g'.nodes h) ∧ structRegion new ∈ g'.regions ∧ t.view.next new = none ∧
      Extends .pageblockStorage s t g g' ∧ Steady a s t ∧
      structs = (if s.recycledBlockStructs = none then pushed s else []) ∧ structs.Nodup ∧
      (∀ q ∈ structs, g'.On q) ∧ ∀ q, g.On q → q = new ∨ g'.On q)
      (fun e => e = .outOfMemory ∧ a ≠ .pageblockStorage ∧ NoPages (g.blocks s .free) ∧
      StorageFull s) := by
  unfold getNewBlockStruct takeBlockStruct
  simp only [wp_bind, wp_reads]
  cases hrec : s.recycledBlockStructs with
  | some p =>
    obtain ⟨R, hoff, hreg, hrest, hi'⟩ := hi.unrecycle hrec
    simp only [wp_bind, wp_deref, wp_modify, wp_pure]
    refine wp_mono (hi'.wp_clear hoff) ?_ fun _ h => h
    rintro _ t ⟨hit, hnone, ht, hblocks⟩
    have harenas : t.arenas = s.arenas := by rw [ht]
    refine ⟨_, [], hit, hoff, hreg, hnone, ?_, Steady.of_arenas harenas, by simp, List.nodup_nil,
      fun _ hq => absurd hq List.not_mem_nil, hrest⟩
    refine Extends.of_frame (by rw [ht]; exact ⟨rfl, rfl, rfl⟩) harenas rfl rfl fun h hh => ?_
    rw [hblocks h]
    show (Function.update g.nodes .recycled R h).map _ = _
    rw [Function.update_of_ne hh]
    rfl
  | none =>
    refine wp_mono (hpush g pending hi hrec) ?_ fun _ h => h
    rintro p u ⟨⟨g', rest, hpushed⟩, hsteady⟩
    obtain ⟨hoff, hreg, hext⟩ := hpushed.fresh
    simp only [wp_pure]
    refine wp_mono (hpushed.inv.wp_clear hoff) ?_ fun _ h => h
    rintro _ t ⟨hit, hnone, ht, hblocks⟩
    have harenas : t.arenas = u.arenas := by rw [ht]
    refine ⟨g', pushed s, hit, hoff, hreg, hnone, hext.trans ?_, ?_, by simp, hpushed.nodup,
      fun q hq => hpushed.keeps q (.inr hq), fun q hq => .inr (hpushed.keeps q (.inl hq))⟩
    · exact Extends.of_frame (by rw [ht]; exact ⟨rfl, rfl, rfl⟩) harenas rfl rfl
        fun h _ => hblocks h
    · unfold Steady
      rw [harenas]
      exact hsteady

end Dp4c.Memory
