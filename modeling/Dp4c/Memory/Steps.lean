import Dp4c.Memory.Runs

/-! # Calls of any size

Runs in which a client may ask for any size. What every call keeps is less than in the runs of
the sizes that fit an `int`: the lists and what they cover, but not that the memory returned
was the arena's. -/
namespace Dp4c.Memory

open Dp4c.Lib Dp4c.Lib.Prog Block

variable {s t u : State} {g g' : Ghost} {pending : Nat → Bool}

/-- The call, for its effect. -/
def Op.call : Op → ArenaM Unit
  | .push n size => do
    let _ ← arenaPush (.client n) size
    pure ()
  | .delete n => arenaDelete (.client n)

/-- The states that calls lead to, each made where `P` allows it. -/
inductive Reaches (P : State → Op → Prop) (s : State) : State → Prop
  | start : Reaches P s s
  | call {t u : State} {op : Op} (h : Reaches P s t) (hop : P t op)
      (hrun : op.call t = .ok ((), u)) : Reaches P s u

/-! ## The blocks on a list -/

/-- The structs that the links from `p` lead to. -/
def State.follow (s : State) : Nat → Option Nat → List Nat
  | 0, _ => []
  | _ + 1, none => []
  | fuel + 1, some p => p :: s.follow fuel (s.view.next p)

def State.blocksOn (s : State) (h : Home) : List Block :=
  (s.follow (s.totalPageCount * s.pageSize + 1) (s.head h)).map s.view.block

theorem follow_eq : ∀ {l : List Nat} {fuel : Nat} {p : Option Nat}, Chain s.view.next p l →
    l.length < fuel → s.follow fuel p = l
  | _, 0, _, _, h => absurd h (Nat.not_lt_zero _)
  | [], _ + 1, _, hc, _ => by
    rw [Chain.nil_iff.mp hc]
    rfl
  | q :: l, fuel + 1, _, hc, h => by
    obtain ⟨rfl, hrest⟩ := hc
    exact congrArg (q :: ·) (follow_eq hrest (by simpa using h))

theorem Inv.blocksOn (hi : Inv s g pending) (h : Home) : s.blocksOn h = g.blocks s h :=
  congrArg (List.map _) (follow_eq (hi.lists.chain h) (Nat.lt_succ_of_le (hi.length_le h)))

/-! ## What every push keeps -/

/-- What a push of a client leaves, whatever it was asked for. -/
structure Moved (s : State) (g : Ghost) (structs : List Nat) (t : State) (g' : Ghost) : Prop where
  inv : Inv t g' fun _ => false
  start : t.pageMemoryStart = s.pageMemoryStart
  free : Cut (g.blocks s .free) (g'.blocks t .free)
  held : ∀ n, Held s g (.client n) → Held t g' (.client n)
  keeps : Keeps g g' structs
  nodup : structs.Nodup

/-- The arenas of the other clients hold what they held. -/
theorem Extends.held {n m : Nat} (h : Extends (.client n) s t g g') (hne : m ≠ n)
    (hs : Held s g (.client m)) : Held t g' (.client m) := by
  have hm : ArenaRef.client m ≠ .client n := fun h => hne (ArenaRef.client.inj h)
  unfold Held at hs ⊢
  rw [h.clients m hm, h.blocks m hm]
  exact hs

variable {n : Nat} {size : UInt32} {structs : List Nat} {p : Nat}

theorem Pushed.moved {rest : List Region}
    (h : Pushed (.client n) size.toNat s g (fun _ => false) structs p t g' rest) :
    Moved s g structs t g' where
  inv := h.inv
  start := h.ext.fixed.2.2
  free := h.ext.free
  held m hs := by
    by_cases hm : m = n
    · subst hm
      intro _
      obtain ⟨b, hb, hlo, hhi⟩ := h.held hs
      refine ⟨b, hb, ?_, hhi⟩
      rw [h.avail]
      omega
    · have hext : Extends (.client n) s t g { g' with regions := rest } := h.ext
      exact hext.held hm hs
  keeps := h.keeps
  nodup := h.nodup

theorem Refilled.moved (h : Refilled (.client n) 0 s g (fun _ => false) structs p u g')
    (ht : t = u.withAvail (.client n) (p + size.toNat)) : Moved s g structs t g' := by
  have hext := h.ext.trans (Extends.advance (n := p + size.toNat))
  have havail := h.avail
  have hlimit := h.limit.1
  rw [ht]
  exact
    { inv := h.inv.advance (by omega)
      start := hext.fixed.2.2
      free := hext.free
      held := fun m hs => by
        by_cases hm : m = n
        · subst hm
          intro hlt
          simp only [State.withAvail, Function.update_self] at hlt
          omega
        · exact hext.held hm hs
      keeps := h.keeps
      nodup := h.nodup }

/-- Why a push ends the process. -/
def PushExit (s : State) (n : Nat) (size : UInt32) (e : Exit) : Prop :=
  (e = .assertion "size > 0" ∧ size.toNat = 0) ∨
  (e = .perror "mprotect" ∧ 2 ^ 31 ≤ size.toNat) ∨
  (e = .outOfMemory ∧
    (s.arenas (.client n)).memoryAvail + size.toNat ≥ (s.arenas (.client n)).memoryLimit ∧
    (NoFit (s.blocksOn .free) size.toNat ∨
      (LastPages (s.blocksOn .free) (roundUp s.pageSize size.toNat) ∧ StorageFull s)))

/-- A push of nothing fails an assertion. -/
theorem arenaPush_zero (n : Nat) (s : State) (hzero : size.toNat = 0) :
    arenaPush (.client n) size s = .error (.assertion "size > 0") := by
  have hnot : ¬ size > 0 := fun h => by
    have := UInt32.lt_iff_toNat_lt.mp h
    simp at this
    omega
  unfold arenaPush arenaPushDepth Prog.check
  rw [if_neg hnot]
  rfl

/-- **Every push** keeps the account. -/
theorem Inv.wp_arenaPush_any (hi : Inv s g fun _ => false) (n : Nat) (size : UInt32) :
    wp (arenaPush (.client n) size) s
      (fun _ t => ∃ g', Moved s g (newStructs 3 (.client n) size s) t g')
      (PushExit s n size) := by
  unfold PushExit
  rw [hi.blocksOn]
  by_cases hzero : size.toNat = 0
  · exact wp_of_error (arenaPush_zero n s hzero) (.inl ⟨rfl, hzero⟩)
  by_cases hlarge : 2 ^ 31 ≤ size.toNat
  · refine wp_mono (hi.wp_arenaPush_large n hlarge) ?_ ?_
    · rintro p t ⟨u, g', hm, ht⟩
      exact ⟨g', hm.moved ht⟩
    · refine fun e h => .inr (h.imp (⟨·, hlarge⟩) fun h => ⟨h.1, hi.full_of_large hlarge _,
        .inl fun b hb => ?_⟩)
      have hempty := h.2.1 b hb
      omega
  · refine wp_mono (hi.wp_arenaPush n (by omega) (by omega)) ?_ fun _ h => .inr (.inr h)
    rintro p t ⟨g', rest, hpushed⟩
    exact ⟨g', hpushed.moved⟩

/-! ## What every call keeps -/

/-- The account of a state between two calls. -/
structure Between (start : Nat) (s : State) (g : Ghost) : Prop where
  inv : Inv s g fun _ => false
  start : s.pageMemoryStart = start
  held : ∀ n, Held s g (.client n)

theorem initMemory_between {pageSize start memoryAmount : Nat}
    (hs : Setup pageSize start memoryAmount) :
      Between start (initMemory pageSize start memoryAmount)
      ⟨initNodes start, initOwner start pageSize (memoryAmount / pageSize),
        [structRegion start, structRegion (start + sizeofPageBlock)]⟩ :=
  ⟨initMemory_inv hs, rfl, fun _ hlt => absurd hlt (Nat.lt_irrefl 0)⟩

variable {start : Nat}

theorem Between.wp_push (h : Between start s g) (n : Nat) (size : UInt32) :
    wp (Op.call (.push n size)) s
      (fun _ t => ∃ g', Between start t g' ∧ Cut (g.blocks s .free) (g'.blocks t .free) ∧
        Keeps g g' (newStructs 3 (.client n) size s))
      (PushExit s n size) := by
  unfold Op.call
  simp only [wp_bind, wp_pure]
  refine wp_mono (h.inv.wp_arenaPush_any n size) ?_ fun _ h => h
  rintro p t ⟨g', hm⟩
  exact ⟨g', ⟨hm.inv, hm.start.trans h.start, fun m => hm.held m (h.held m)⟩, hm.free, hm.keeps⟩

theorem Between.wp_delete {E : Exit → Prop} (h : Between start s g) (n : Nat) :
    wp (Op.call (.delete n)) s
      (fun _ t => ∃ g', Between start t g' ∧
        g'.blocks t .free = giveBack (g.blocks s .free) (g.blocks s (.owned (.client n))) ∧
        Keeps g g' []) E := by
  unfold Op.call
  refine wp_mono (h.inv.wp_arenaDelete n) ?_ fun _ h => h
  rintro _ t ⟨g', hit, -, -, hstart, hfree, hblocks, harenas, hkeeps⟩
  refine ⟨g', ⟨hit, hstart.trans h.start, fun m => ?_⟩, hfree, hkeeps⟩
  unfold Held
  rw [harenas]
  by_cases hm : m = n
  · subst hm
    rw [Function.update_self]
    exact fun hlt => absurd hlt (Nat.lt_irrefl 0)
  · have hne : ArenaRef.client m ≠ .client n := fun h => hm (ArenaRef.client.inj h)
    rw [Function.update_of_ne hne, hblocks _ hne]
    exact h.held m

/-! ## Runs that are checked -/

/-- Makes the calls while `P` allows them. -/
def callsIn (P : State → Op → Prop) [∀ s op, Decidable (P s op)] : List Op → State → Option State
  | [], s => some s
  | op :: ops, s =>
    if P s op then
      match op.call s with
      | .ok (_, t) => callsIn P ops t
      | .error _ => none
    else none

theorem Reaches.head {P : State → Op → Prop} {op : Op} {u : State} (hop : P s op)
    (hrun : op.call s = .ok ((), t)) (h : Reaches P t u) : Reaches P s u := by
  induction h with
  | start => exact .call .start hop hrun
  | call _ hop' hrun' ih => exact ih.call hop' hrun'

theorem reaches_of_callsIn {P : State → Op → Prop} [∀ s op, Decidable (P s op)] :
    ∀ {ops : List Op} {s t : State}, callsIn P ops s = some t → Reaches P s t
  | [], s, t, h => by
    obtain rfl := Option.some.inj h
    exact .start
  | op :: ops, s, t, h => by
    unfold callsIn at h
    split at h
    · rename_i hop
      split at h
      · rename_i u hrun
        exact (reaches_of_callsIn h).head hop hrun
      · cases h
    · cases h

end Dp4c.Memory
