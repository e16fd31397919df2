import Dp4c.Memory.BlockList
import Dp4c.Memory.Tidy
import Mathlib.Data.List.Perm.Subperm

/-! # The lists of the allocator

Every `PageBlock` struct in use is a node of the free list, of the recycled
list or of one arena's list. `Lists s nodes` says that following the links
from the heads visits `nodes`, that no struct is on two lists, and that the
blocks of the page lists are page aligned and in the reserved range. -/
namespace Dp4c.Memory

open Dp4c.Lib Dp4c.Lib.Prog Block

/-- The lists a struct can be on. -/
inductive Home where
  | free
  | recycled
  | owned (a : ArenaRef)
deriving DecidableEq

def State.head (s : State) : Home → Option Nat
  | .free => s.blockFreelistHead
  | .recycled => s.recycledBlockStructs
  | .owned a => (s.arenas a).ownedPages

/-- Replaces the head of a list. -/
def State.setHead (s : State) : Home → Option Nat → State
  | .free, p => { s with blockFreelistHead := p }
  | .recycled, p => { s with recycledBlockStructs := p }
  | .owned a, p =>
    { s with arenas := Function.update s.arenas a { s.arenas a with ownedPages := p } }

structure Lists (s : State) (nodes : Home → List Nat) : Prop where
  chain : ∀ h, Chain s.view.next (s.head h) (nodes h)
  apart : ∀ h h' p, p ∈ nodes h → p ∈ nodes h' → h = h'
  aligned : ∀ h, h ≠ .recycled → ∀ p ∈ nodes h,
    s.view.lo p ≤ s.view.hi p ∧ s.pageSize ∣ s.view.lo p ∧ s.pageSize ∣ s.view.hi p
  above : ∀ h, h ≠ .recycled → ∀ p ∈ nodes h, s.pageMemoryStart ≤ s.view.lo p
  free : nodes .free ≠ []

variable {s t : State} {nodes : Home → List Nat}

/-- What the lists are read from is the same. -/
theorem Lists.congr (hl : Lists s nodes) (hhead : ∀ h, t.head h = s.head h)
    (hview : ∀ h, ∀ p ∈ nodes h, t.view.next p = s.view.next p ∧ (h ≠ .recycled →
      t.view.lo p = s.view.lo p ∧ t.view.hi p = s.view.hi p)) (hsize : t.pageSize = s.pageSize)
    (hstart : t.pageMemoryStart = s.pageMemoryStart) : Lists t nodes := by
  refine ⟨fun h => ?_, hl.apart, fun h hh p hp => ?_, fun h hh p hp => ?_, hl.free⟩
  · rw [hhead]
    exact (hl.chain h).congr fun p hp => (hview h p hp).1
  · obtain ⟨hlo, hhi⟩ := (hview h p hp).2 hh
    rw [hlo, hhi, hsize]
    exact hl.aligned h hh p hp
  · rw [((hview h p hp).2 hh).1, hstart]
    exact hl.above h hh p hp

/-- The lists after `new` has joined list `h`, dropping the structs `dropped`. -/
def joined (nodes : Home → List Nat) (h : Home) (list dropped : List Nat) : Home → List Nat :=
  Function.update (Function.update nodes h list) .recycled (dropped ++ nodes .recycled)

theorem joined_self {h : Home} (hh : h ≠ .recycled) (list dropped : List Nat) :
    joined nodes h list dropped h = list := by
  simp [joined, hh]

theorem joined_recycled (h : Home) (list dropped : List Nat) :
    joined nodes h list dropped .recycled = dropped ++ nodes .recycled := by
  simp [joined]

theorem joined_other {h h' : Home} (hh : h' ≠ h) (hr : h' ≠ .recycled) (list dropped : List Nat) :
    joined nodes h list dropped h' = nodes h' := by
  simp [joined, hh, hr]

/-- Where a struct of the new lists is from. -/
theorem mem_joined {h h' : Home} (hh : h ≠ .recycled) {list dropped : List Nat} {p : Nat}
    (hp : p ∈ joined nodes h list dropped h') :
    (h' = h ∧ p ∈ list) ∨ (h' = .recycled ∧ p ∈ dropped) ∨ p ∈ nodes h' ∧ h' ≠ h := by
  by_cases hr : h' = .recycled
  · subst hr
    rw [joined_recycled, List.mem_append] at hp
    rcases hp with hp | hp
    · exact .inr (.inl ⟨rfl, hp⟩)
    · exact .inr (.inr ⟨hp, Ne.symm hh⟩)
  · by_cases he : h' = h
    · subst he
      rw [joined_self hr] at hp
      exact .inl ⟨rfl, hp⟩
    · rw [joined_other he hr] at hp
      exact .inr (.inr ⟨hp, he⟩)

@[simp] theorem setHead_head (s : State) (h h' : Home) (p : Option Nat) :
    (s.setHead h p).head h' = if h' = h then p else s.head h' := by
  cases h <;> cases h' <;> simp [State.setHead, State.head]
  rename_i a b
  by_cases hab : b = a <;> simp [hab]

theorem setHead_blocks (s : State) {h : Home} (hh : h ≠ .recycled) (p : Option Nat) :
    (s.setHead h p).view = s.view := by
  cases h
  · rfl
  · exact absurd rfl hh
  · rfl

@[simp] theorem setHead_pageMemoryStart (s : State) (h : Home) (p : Option Nat) :
    (s.setHead h p).pageMemoryStart = s.pageMemoryStart := by cases h <;> rfl

@[simp] theorem setHead_pageSize (s : State) (h : Home) (p : Option Nat) :
    (s.setHead h p).pageSize = s.pageSize := by cases h <;> rfl

theorem Becomes.head {v : View} (h : Becomes s t v) {home : Home} (hh : home ≠ .recycled) :
    t.head home = s.head home := by
  rw [h.2]
  cases home
  · rfl
  · exact absurd rfl hh
  · rfl

/-- **Inserting a struct into a list** of the allocator: what the list covers
grows by its block. -/
theorem Lists.insert {E : Exit → Prop} (hl : Lists s nodes) {h : Home} (hh : h ≠ .recycled)
    {new : Nat} (hnew : ∀ h', new ∉ nodes h')
    (hblock : s.view.lo new ≤ s.view.hi new ∧ s.pageSize ∣ s.view.lo new ∧
      s.pageSize ∣ s.view.hi new) (habove : s.pageMemoryStart ≤ s.view.lo new)
    (hnil : s.head h = none → s.view.next new = none)
    (hfuel : (nodes h).length ≤ s.totalPageCount * s.pageSize) :
    wp (blockInsertAndCoalesce (s.head h) new) s (fun head t => ∃ list dropped,
      Lists (t.setHead h (some head)) (joined nodes h list dropped) ∧
      t = { s with blocks := t.blocks, recycledBlockStructs := t.recycledBlockStructs } ∧
      (∀ x, covers (list.map t.view.block) x =
        covers ((nodes h).map s.view.block) x +
          if s.view.lo new ≤ x ∧ x < s.view.hi new then 1 else 0) ∧
      (dropped ++ list).Perm (new :: nodes h) ∧ SameOff (new :: nodes h) s.view t.view ∧
      list.map t.view.block =
        (insertAndCoalesce ((nodes h).map s.view.block) (s.view.block new)).1) E := by
  have ha : Apart s.view (nodes h) new (nodes .recycled) :=
    ⟨hnew h, hl.chain .recycled, hnew .recycled, fun p hp hp' => hh (hl.apart _ _ p hp hp')⟩
  refine wp_mono (wp_blockInsertAndCoalesce (hl.chain h) ha hfuel hnil) ?_ fun _ h => h
  rintro head t ⟨hb, hlist, hsame⟩
  have hins : Inserts ((nodes h).map s.view.block) (s.view.block new)
      (insertAndCoalesce ((nodes h).map s.view.block) (s.view.block new)) := by
    refine insertAndCoalesce_inserts hblock.1 fun b hb => ?_
    obtain ⟨p, hp, rfl⟩ := List.mem_map.mp hb
    exact (hl.aligned h hh p hp).1
  generalize insertAndCoalesce _ _ = r at hlist hins ⊢
  have hmap : (r.1.map (·.addr)).map t.view.block = r.1 := by
    rw [List.map_map]
    exact (List.map_congr_left fun b hb => hlist.blocks b hb).trans (List.map_id _)
  have hperm : (r.2 ++ r.1.map (·.addr)).Perm (new :: nodes h) := by
    have hp := hins.perm
    rwa [map_addr_block] at hp
  have hother : ∀ h', h' ≠ h → ∀ p ∈ nodes h', p ∉ new :: nodes h := fun h' hne p hp hmem => by
    rcases List.mem_cons.mp hmem with rfl | hmem
    · exact hnew h' hp
    · exact hne (hl.apart _ _ p hp hmem)
  have hmem : ∀ p, p ∈ r.2 ∨ p ∈ r.1.map (·.addr) ↔ p = new ∨ p ∈ nodes h := fun p => by
    rw [← List.mem_append, hperm.mem_iff, List.mem_cons]
  have hsize : t.pageSize = s.pageSize := by rw [hb.2]
  refine ⟨r.1.map (·.addr), r.2, ⟨fun h' => ?_, fun h' h'' p hp hp' => ?_, fun h' hh' p hp => ?_,
    fun h' hh' p hp => ?_, ?_⟩, hb.2, fun x => ?_, hperm, hsame, hmap⟩
  · rw [setHead_blocks t hh, setHead_head]
    by_cases h₁ : h' = h
    · subst h₁
      rw [joined_self hh, if_pos rfl]
      exact hlist.chain
    · rw [if_neg h₁]
      by_cases h₂ : h' = .recycled
      · subst h₂
        rw [joined_recycled]
        exact hlist.recycled
      · rw [joined_other h₁ h₂, hb.head h₂]
        exact (hl.chain h').congr fun p hp => (hsame p (hother h' h₁ p hp)).1
  · have hnd : (r.2 ++ r.1.map (·.addr)).Nodup :=
      hperm.nodup_iff.mpr (List.nodup_cons.mpr ⟨hnew h, (hl.chain h).nodup⟩)
    have hdis := (List.nodup_append.mp hnd).2.2
    have hout : ∀ h', h' ≠ h → p ∈ nodes h' → ¬ (p ∈ r.2 ∨ p ∈ r.1.map (·.addr)) :=
      fun h' hne hp hin => by
        rcases (hmem p).mp hin with rfl | hin
        · exact hnew h' hp
        · exact hne (hl.apart _ _ p hp hin)
    rcases mem_joined hh hp with ⟨rfl, hq⟩ | ⟨rfl, hq⟩ | ⟨hq, hne⟩
    · rcases mem_joined hh hp' with ⟨rfl, _⟩ | ⟨rfl, hq'⟩ | ⟨hq', hne'⟩
      · rfl
      · exact absurd rfl (hdis p hq' p hq)
      · exact absurd (.inr hq) (hout _ hne' hq')
    · rcases mem_joined hh hp' with ⟨rfl, hq'⟩ | ⟨rfl, _⟩ | ⟨hq', hne'⟩
      · exact absurd rfl (hdis p hq p hq')
      · rfl
      · exact absurd (.inl hq) (hout _ hne' hq')
    · rcases mem_joined hh hp' with ⟨rfl, hq'⟩ | ⟨rfl, hq'⟩ | ⟨hq', _⟩
      · exact absurd (.inr hq') (hout _ hne hq)
      · exact absurd (.inl hq') (hout _ hne hq)
      · exact hl.apart _ _ p hq hq'
  · rw [setHead_blocks t hh, setHead_pageSize, hsize]
    rcases mem_joined hh hp with ⟨rfl, hq⟩ | ⟨rfl, hq⟩ | ⟨hq, hne⟩
    · obtain ⟨b, hb, rfl⟩ := List.mem_map.mp hq
      obtain ⟨hle, ⟨c, hc, hlo⟩, d, hd, hhi⟩ := hins.bounds b hb
      have hblk := hlist.blocks b hb
      have haligned : ∀ c ∈ s.view.block new :: (nodes h').map s.view.block,
          s.pageSize ∣ c.lo ∧ s.pageSize ∣ c.hi := fun c hc => by
        rcases List.mem_cons.mp hc with rfl | hc
        · exact hblock.2
        · obtain ⟨q, hq, rfl⟩ := List.mem_map.mp hc
          exact (hl.aligned h' hh q hq).2
      have hlo' : t.view.lo b.addr = b.lo := congrArg Block.lo hblk
      have hhi' : t.view.hi b.addr = b.hi := congrArg Block.hi hblk
      rw [hlo', hhi']
      exact ⟨hle, hlo ▸ (haligned c hc).1, hhi ▸ (haligned d hd).2⟩
    · exact absurd rfl hh'
    · obtain ⟨_, hlo, hhi⟩ := hsame p (hother h' hne p hq)
      rw [hlo, hhi]
      exact hl.aligned h' hh' p hq
  · rw [setHead_blocks t hh, setHead_pageMemoryStart, hb.2]
    show s.pageMemoryStart ≤ t.view.lo p
    rcases mem_joined hh hp with ⟨rfl, hq⟩ | ⟨rfl, hq⟩ | ⟨hq, hne⟩
    · obtain ⟨b, hb, rfl⟩ := List.mem_map.mp hq
      obtain ⟨-, ⟨c, hc, hlo⟩, -⟩ := hins.bounds b hb
      have hlo' : t.view.lo b.addr = b.lo := congrArg Block.lo (hlist.blocks b hb)
      rw [hlo', hlo]
      rcases List.mem_cons.mp hc with rfl | hc
      · exact habove
      · obtain ⟨q, hq, rfl⟩ := List.mem_map.mp hc
        exact hl.above h' hh q hq
    · exact absurd rfl hh'
    · rw [(hsame p (hother h' hne p hq)).2.1]
      exact hl.above h' hh' p hq
  · by_cases hf : Home.free = h
    · subst hf
      rw [joined_self hh]
      simpa using hins.nonempty
    · rw [joined_other hf (by simp)]
      exact hl.free
  · rw [hmap, hins.covers, covers_cons, covers_nil, Nat.zero_add]
    rfl

end Dp4c.Memory
