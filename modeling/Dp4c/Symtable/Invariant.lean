import Dp4c.Lib.Chain
import Dp4c.Symtable.Scopes
import Mathlib.Data.List.Flatten
import Mathlib.Data.List.Perm.Subperm

/-! # The table's invariant

`Table s slots chain` says that slot `h` of the array heads the chain of
entries `chain h`, and that an entry is on the chain its name hashes to and on
no other. Every operation keeps it and does to the list of bindings what the
operation of `Scopes` does (`abs`). -/
namespace Dp4c.Symtable

open Dp4c.Lib Dp4c.Lib.Prog

def nextOf (s : State) (p : Nat) : Option Nat := (s.storage[p]?).bind (·.nextEntry)

def SymtableEntry.bindings (e : SymtableEntry) : Bindings :=
  { name := e.name, idKw := e.idKw, idType := e.idType, idIdent := e.idIdent }

@[simp] theorem SymtableEntry.bindings_name (e : SymtableEntry) : e.bindings.name = e.name := rfl

/-- The bindings a state of the table stands for. -/
def abs (s : State) : Scopes :=
  { entries := s.storage.map SymtableEntry.bindings, scopeLevel := s.scopeLevel }

/-- The chains of the slots, their nodes allocated. -/
structure Chained (s : State) (slots : List (Option Nat)) (chain : Nat → List Nat) : Prop where
  array : ∃ k, s.symtable.Holds slots k
  chains : ∀ h (hh : h < slots.length), Chain (nextOf s) slots[h] (chain h)
  alloc : ∀ h < slots.length, ∀ p ∈ chain h, p < s.storage.length

structure Table (s : State) (slots : List (Option Nat)) (chain : Nat → List Nat) : Prop
    extends Chained s slots chain where
  width : 5 ≤ s.capacityLog2
  width_le : s.capacityLog2 ≤ 10
  capacity : s.capacity = 2 ^ s.capacityLog2 - 1
  length : slots.length = s.capacity
  mem : ∀ h < slots.length, ∀ p e, s.storage[p]? = some e →
    (p ∈ chain h ↔ hashString e.name s.capacityLog2 = h)
  count : s.entryCount = s.storage.length
  room : s.entryCount ≤ s.capacity
  names : (s.storage.map (·.name)).Nodup
  nonempty : ∀ e ∈ s.storage, e.name.bytes ≠ []

def Inv (s : State) : Prop := ∃ slots chain, Table s slots chain

variable {s t : State} {slots : List (Option Nat)} {chain : Nat → List Nat}

/-! ## Memory -/

theorem wp_deref {p : Nat} {e : SymtableEntry} {Q : SymtableEntry → State → Prop}
    {E : Exit → Prop} (h : s.storage[p]? = some e) : wp (deref p) s Q E ↔ Q e s := by
  unfold wp deref; rw [h]

theorem wp_update {p : Nat} {f : SymtableEntry → SymtableEntry} {Q : Unit → State → Prop}
    {E : Exit → Prop} :
    wp (update p f) s Q E ↔ Q () { s with storage := s.storage.modify p f } := Iff.rfl

theorem wp_slotGet {k h : Nat} {Q : Option Nat → State → Prop} {E : Exit → Prop}
    (ha : s.symtable.Holds slots k) (hh : h < slots.length) :
    wp (slotGet h) s Q E ↔ Q slots[h] s := by
  unfold wp slotGet; rw [ha.arrayGet hh]

theorem wp_slotSet {k h : Nat} {v : Option Nat} {Q : Unit → State → Prop} {E : Exit → Prop}
    (ha : s.symtable.Holds slots k) (hh : h < slots.length)
    (hQ : ∀ array, array.Holds (slots.set h v) k → Q () { s with symtable := array }) :
    wp (slotSet h v) s Q E := by
  obtain ⟨array, he, hs⟩ := ha.arraySet hh v
  unfold wp slotSet; rw [he]
  exact hQ array hs

theorem wp_slotAppend {k : Nat} {v : Option Nat} {Q : Unit → State → Prop} {E : Exit → Prop}
    (ha : s.symtable.Holds slots k)
    (hQ : ∀ array k', array.Holds (slots ++ [v]) k' → Q () { s with symtable := array })
    (hE : 2 ^ 24 ≤ slots.length + 1 → E .fault) : wp (slotAppend v) s Q E := by
  unfold wp slotAppend
  by_cases hl : slots.length + 1 < 2 ^ 24
  · obtain ⟨array, k', he, hs⟩ := ha.arrayAppend hl v
    rw [he]; exact hQ array k' hs
  · rw [ha.arrayAppend_full (by omega) v]
    exact hE (by omega)

theorem nextOf_setNext {p : Nat} {q : Option Nat} (hp : p < s.storage.length)
    (ht : t.storage = s.storage.modify p fun entry => { entry with nextEntry := q }) :
    nextOf t = Function.update (nextOf s) p q := by
  funext r
  unfold nextOf
  rw [ht]
  by_cases h : r = p
  · subst h; simp [hp]
  · simp [h, Ne.symm h]

theorem map_bindings_modify {f : SymtableEntry → SymtableEntry}
    (hf : ∀ e, (f e).bindings = e.bindings) (p : Nat) (l : List SymtableEntry) :
    (l.modify p f).map SymtableEntry.bindings = l.map SymtableEntry.bindings := by
  apply List.ext_getElem?
  intro i
  by_cases hi : p = i
  · subst hi
    simp [Function.comp_def, hf]
  · simp [hi]

theorem map_bindings_setNext (p : Nat) (q : Option Nat) (l : List SymtableEntry) :
    (l.modify p fun entry => { entry with nextEntry := q }).map SymtableEntry.bindings =
      l.map SymtableEntry.bindings := by
  apply map_bindings_modify
  intro e
  rfl

theorem bindings_at {l l' : List SymtableEntry}
    (h : l'.map SymtableEntry.bindings = l.map SymtableEntry.bindings) {p : Nat}
    {e' : SymtableEntry} (he : l'[p]? = some e') :
    ∃ e, l[p]? = some e ∧ e.bindings = e'.bindings := by
  have hp := congrArg (·[p]?) h
  simp only [List.getElem?_map, he, Option.map_some] at hp
  exact Option.map_eq_some_iff.mp hp.symm

/-! ## Linking one entry -/

theorem Chained.linkEntry {p h : Nat} {E : Exit → Prop} (hc : Chained s slots chain)
    (hh : h < slots.length) (hp : p < s.storage.length)
    (hfree : ∀ h' < slots.length, p ∉ chain h') :
    wp (linkEntry p h) s (fun _ t =>
      Chained t (slots.set h (some p)) (Function.update chain h (p :: chain h)) ∧
      t = { s with symtable := t.symtable, storage := t.storage } ∧
      t.storage.map SymtableEntry.bindings = s.storage.map SymtableEntry.bindings) E := by
  obtain ⟨k, ha⟩ := hc.array
  unfold Symtable.linkEntry
  simp only [wp_bind, wp_slotGet ha hh, wp_update]
  refine wp_slotSet ha hh fun array harray => ⟨⟨⟨k, harray⟩, ?_, ?_⟩, rfl, ?_⟩
  · intro h' hh'
    have hh'' : h' < slots.length := by simpa using hh'
    rw [nextOf_setNext (s := s) (q := slots[h]) hp rfl]
    by_cases he : h = h'
    · subst he
      simpa using (hc.chains h hh).push (hfree h hh)
    · rw [List.getElem_set_ne he, Function.update_of_ne (Ne.symm he)]
      exact (hc.chains h' hh'').update_of_notMem (hfree h' hh'')
  · intro h' hh' q hq
    have hh'' : h' < slots.length := by simpa using hh'
    simp only [List.length_modify]
    by_cases he : h = h'
    · subst he
      rw [Function.update_self] at hq
      rcases List.mem_cons.mp hq with rfl | hq
      · exact hp
      · exact hc.alloc h hh q hq
    · rw [Function.update_of_ne (Ne.symm he)] at hq
      exact hc.alloc h' hh'' q hq
  · exact map_bindings_setNext p slots[h] s.storage

/-! ## Growth -/

/-- Flattening a chain lists it and touches no link outside it, if there is room for its
pointers. -/
theorem wp_flattenChain {room : Nat} :
    ∀ {l : List Nat} {fuel : Nat} {p : Option Nat} {acc : List Nat} {s : State},
      Chain (nextOf s) p l → (∀ q ∈ l, q < s.storage.length) → l.length < fuel →
      sizeofPointer * acc.length ≤ room →
      wp (flattenChain room fuel p acc) s (fun r t => r = acc ++ l ∧
        sizeofPointer * r.length ≤ room ∧ t = { s with storage := t.storage } ∧
        t.storage.map SymtableEntry.bindings = s.storage.map SymtableEntry.bindings ∧
        ∀ q, q ∉ l → nextOf t q = nextOf s q)
        (fun e => e = .fault ∧ room < sizeofPointer * (acc ++ l).length)
  | [], 0, _, _, _, _, _, h, _ => absurd h (Nat.not_lt_zero _)
  | [], fuel + 1, p, acc, s, hc, _, _, hroom => by
    obtain rfl : p = none := hc
    simp [flattenChain, hroom]
  | a :: l, 0, _, _, _, _, _, h, _ => absurd h (Nat.not_lt_zero _)
  | a :: l, fuel + 1, p, acc, s, hc, ha, hf, _ => by
    obtain ⟨rfl, hc⟩ := hc
    have hlt : a < s.storage.length := ha a (by simp)
    have hnot : a ∉ l := fun h => by
      have hnd : (a :: l).Nodup := Chain.nodup (p := some a) ⟨rfl, hc⟩
      exact (List.nodup_cons.mp hnd).1 h
    have he : s.storage[a]? = some s.storage[a] := List.getElem?_eq_getElem hlt
    have hnext : s.storage[a].nextEntry = nextOf s a := by simp [nextOf, he]
    simp only [flattenChain, wp_bind]
    rw [wp_check]
    by_cases hroom : sizeofPointer * (acc.length + 1) ≤ room
    case neg =>
      rw [if_neg hroom]
      refine ⟨rfl, Nat.lt_of_lt_of_le (Nat.lt_of_not_le hroom) (Nat.mul_le_mul_left _ ?_)⟩
      rw [List.length_append, List.length_cons]
      omega
    rw [if_pos hroom]
    simp only [wp_deref he, wp_update]
    have hrest := nextOf_setNext (s := s) (q := none) hlt
      (t := { s with storage := s.storage.modify a fun e => { e with nextEntry := none } }) rfl
    have hchain : Chain (nextOf { s with storage := s.storage.modify a fun e =>
        { e with nextEntry := none } }) s.storage[a].nextEntry l := by
      rw [hrest, hnext]
      exact hc.update_of_notMem hnot
    refine wp_mono (wp_flattenChain hchain (fun q hq => by
      simpa using ha q (List.mem_cons_of_mem _ hq)) (by simpa using hf) (by simpa using hroom))
      ?_ (fun e he => by simpa using he)
    rintro r t ⟨rfl, hfit, ht, hb, hn⟩
    refine ⟨by simp, hfit, by rw [ht], hb.trans (map_bindings_setNext a none s.storage),
      fun q hq => ?_⟩
    simp only [List.mem_cons, not_or] at hq
    rw [hn q hq.2, hrest, Function.update_of_ne hq.1]

theorem Chained.length_le (hc : Chained s slots chain) {h : Nat} (hh : h < slots.length) :
    (chain h).length ≤ s.storage.length := by
  have hsub : chain h ⊆ List.range s.storage.length := fun p hp =>
    List.mem_range.mpr (hc.alloc h hh p hp)
  simpa using (List.subperm_of_subset (hc.chains h hh).nodup hsub).length_le

/-- The first loop of a growth lists the chains slot by slot, if there is room for a pointer
to every node. -/
theorem wp_flattenAll (room : Nat) (hc : Chained s slots chain)
    (hdis : ∀ h < slots.length, ∀ h' < slots.length, h ≠ h' → ∀ p ∈ chain h, p ∉ chain h') :
    wp (forRange (fun i acc => do
        flattenChain room (s.storage.length + 1) (← slotGet i) acc) 0 slots.length []) s
      (fun r t => r = (List.range slots.length).flatMap chain ∧
        sizeofPointer * r.length ≤ room ∧ t = { s with storage := t.storage } ∧
        t.storage.map SymtableEntry.bindings = s.storage.map SymtableEntry.bindings)
      (fun e => e = .fault ∧
        room < sizeofPointer * ((List.range slots.length).flatMap chain).length) := by
  obtain ⟨k, ha⟩ := hc.array
  -- the chains of the slots not yet reached are intact
  let I : Nat → List Nat → State → Prop := fun i r t => r = (List.range i).flatMap chain ∧
    sizeofPointer * r.length ≤ room ∧ t = { s with storage := t.storage } ∧
    t.storage.map SymtableEntry.bindings = s.storage.map SymtableEntry.bindings ∧
    ∀ h (hh : h < slots.length), i ≤ h → Chain (nextOf t) slots[h] (chain h)
  have hloop : wp (forRange (fun i acc => do
        flattenChain room (s.storage.length + 1) (← slotGet i) acc) 0 slots.length []) s
      (I (0 + slots.length)) (fun e => e = .fault ∧
        room < sizeofPointer * ((List.range slots.length).flatMap chain).length) := by
    refine wp_forRange (fun i acc t _ hi hinv => ?_)
      ⟨by simp, Nat.zero_le _, rfl, rfl, fun h hh _ => hc.chains h hh⟩
    obtain ⟨hr, hfit, ht, hb, hch⟩ := hinv
    have hi' : i < slots.length := by omega
    have hat : t.symtable.Holds slots k := by rw [ht]; exact ha
    have hlen : t.storage.length = s.storage.length := by simpa using congrArg List.length hb
    have hnext : acc ++ chain i = (List.range (i + 1)).flatMap chain := by
      rw [hr, List.range_succ, List.flatMap_append]; simp
    have hpart : ((List.range (i + 1)).flatMap chain).length ≤
        ((List.range slots.length).flatMap chain).length :=
      ((List.range_sublist.mpr (by omega)).flatMap chain).length_le
    simp only [wp_bind, wp_slotGet hat hi']
    refine wp_mono (wp_flattenChain (hch i hi' (Nat.le_refl i))
      (fun q hq => by rw [hlen]; exact hc.alloc i hi' q hq)
      (Nat.lt_succ_of_le (hc.length_le hi')) hfit) ?_ ?_
    · rintro r' u ⟨rfl, hfit', hu, hub, hun⟩
      refine ⟨hnext, hfit', by rw [hu, ht], hub.trans hb, fun h hh hih => ?_⟩
      exact (hch h hh (by omega)).congr fun q hq =>
        hun q (hdis h hh i hi' (by omega) q hq)
    · rintro e ⟨he, hbig⟩
      rw [hnext] at hbig
      exact ⟨he, Nat.lt_of_lt_of_le hbig (Nat.mul_le_mul_left _ hpart)⟩
  refine wp_mono hloop ?_ (fun _ h => h)
  rintro r t ⟨hr, hfit, ht, hb, _⟩
  exact ⟨by rw [hr, Nat.zero_add], hfit, ht, hb⟩

/-- The appends of a growth, and of `symtable_init`. -/
theorem wp_appendNulls {E : Exit → Prop} :
    ∀ {n i k : Nat} {slots : List (Option Nat)} {s : State}, s.symtable.Holds slots k →
      (2 ^ 24 ≤ slots.length + n → E .fault) →
      wp (forRange (fun _ _ => slotAppend none) i n ()) s (fun _ t =>
        t = { s with symtable := t.symtable } ∧
        ∃ k', t.symtable.Holds (slots ++ List.replicate n none) k') E
  | 0, _, k, _, _, ha, _ => ⟨rfl, k, by simpa using ha⟩
  | n + 1, i, k, slots, s, ha, hE => by
    simp only [forRange, wp_bind]
    refine wp_slotAppend ha (fun array k' harray => ?_) (fun h => hE (by omega))
    refine wp_mono (wp_appendNulls harray (fun h => hE (by simp at h; omega))) ?_ (fun _ h => h)
    rintro _ t ⟨ht, k'', hh⟩
    refine ⟨by rw [ht], k'', ?_⟩
    simpa [List.replicate_succ] using hh

/-- Clearing every slot. -/
theorem wp_clearSlots {k : Nat} {E : Exit → Prop} (ha : s.symtable.Holds slots k) :
    wp (forRange (fun i _ => slotSet i none) 0 slots.length ()) s (fun _ t =>
      t = { s with symtable := t.symtable } ∧
      ∃ k, t.symtable.Holds (List.replicate slots.length none) k) E := by
  let I : Nat → Unit → State → Prop := fun i _ t => t = { s with symtable := t.symtable } ∧
    ∃ slots' k', t.symtable.Holds slots' k' ∧ slots'.length = slots.length ∧
      ∀ j (hj : j < slots'.length), j < i → slots'[j] = none
  have hloop : wp (forRange (fun i _ => slotSet i none) 0 slots.length ()) s
      (I (0 + slots.length)) E := by
    refine wp_forRange (fun i _ t _ hi ⟨ht, slots', k', hh, hlen, hnone⟩ => ?_)
      ⟨rfl, slots, k, ha, rfl, fun j _ hj => absurd hj (Nat.not_lt_zero j)⟩
    refine wp_slotSet hh (by omega) fun array harray =>
      ⟨by rw [ht], slots'.set i none, k', harray, by simpa using hlen, fun j hj hji => ?_⟩
    have hj' : j < slots'.length := by simpa using hj
    rw [List.getElem_set]
    split
    · rfl
    · exact hnone j hj' (by omega)
  refine wp_mono hloop (fun _ t ⟨ht, slots', k', hh, hlen, hnone⟩ => ⟨ht, k', ?_⟩) (fun _ h => h)
  have he : slots' = List.replicate slots.length none :=
    List.ext_getElem (by simpa using hlen) fun j hj _ => by
      rw [hnone j hj (by omega), List.getElem_replicate]
  rw [← he]; exact hh

/-- The last loop of a growth: every entry listed goes on the chain its name
hashes to. -/
theorem wp_relinkAll {E : Exit → Prop} {entries : List Nat} {m : Nat}
    (hc : Chained s slots fun _ => []) (hnd : entries.Nodup)
    (hlt : ∀ p ∈ entries, p < s.storage.length)
    (hhash : ∀ name : Cstr, hashString name m < slots.length) :
    wp (forRange (fun i _ => do
        let p ← Prog.lift .fault entries[i]?
        let entry ← deref p
        linkEntry p (hashString entry.name m)) 0 entries.length ()) s
      (fun _ t => ∃ slots' chain', Chained t slots' chain' ∧ slots'.length = slots.length ∧
        t = { s with symtable := t.symtable, storage := t.storage } ∧
        t.storage.map SymtableEntry.bindings = s.storage.map SymtableEntry.bindings ∧
        ∀ h p e, t.storage[p]? = some e →
          (p ∈ chain' h ↔ p ∈ entries ∧ hashString e.name m = h)) E := by
  let I : Nat → Unit → State → Prop := fun i _ t => ∃ slots' chain', Chained t slots' chain' ∧
    slots'.length = slots.length ∧
    t = { s with symtable := t.symtable, storage := t.storage } ∧
    t.storage.map SymtableEntry.bindings = s.storage.map SymtableEntry.bindings ∧
    ∀ h p e, t.storage[p]? = some e →
      (p ∈ chain' h ↔ p ∈ entries.take i ∧ hashString e.name m = h)
  have hloop : wp (forRange (fun i _ => do
        let p ← Prog.lift .fault entries[i]?
        let entry ← deref p
        linkEntry p (hashString entry.name m)) 0 entries.length ()) s
      (I (0 + entries.length)) E := by
    refine wp_forRange (fun i _ t _ hi hinv => ?_)
      ⟨slots, fun _ => [], hc, rfl, rfl, rfl, fun _ _ _ _ => by simp⟩
    obtain ⟨slots', chain', hch, hlen, ht, hb, hmem⟩ := hinv
    have hi' : i < entries.length := by omega
    have htl : t.storage.length = s.storage.length := by simpa using congrArg List.length hb
    have hp : entries[i] < t.storage.length := by rw [htl]; exact hlt _ (List.getElem_mem hi')
    have he : t.storage[entries[i]]? = some t.storage[entries[i]] := List.getElem?_eq_getElem hp
    have htake : entries[i] ∉ entries.take i := fun hin => by
      obtain ⟨j, hj, hji⟩ := List.getElem_of_mem hin
      have hj' : j < i := by simp at hj; omega
      rw [List.getElem_take] at hji
      exact absurd ((List.Nodup.getElem_inj_iff hnd).mp hji) (by omega)
    rw [List.getElem?_eq_getElem hi']
    simp only [wp_bind, wp_lift_some, wp_deref he]
    refine wp_mono (hch.linkEntry (by rw [hlen]; exact hhash _) hp fun h' _ hin =>
      htake ((hmem h' _ _ he).mp hin).1) ?_ (fun _ h => h)
    rintro _ u ⟨hcu, hu, hub⟩
    refine ⟨_, _, hcu, by simpa using hlen, by rw [hu, ht], hub.trans hb, fun h q e hq => ?_⟩
    obtain ⟨e', he', hee⟩ := bindings_at hub hq
    have hname : e'.name = e.name := congrArg Bindings.name hee
    have hold := hmem h q e' he'
    rw [hname] at hold
    rw [List.take_succ_eq_append_getElem hi', List.mem_append, List.mem_singleton]
    by_cases hqi : q = entries[i]
    · -- the entry of this round is on the chain it was put on, and on no other
      have hname' : t.storage[entries[i]].name = e.name := by
        rw [hqi, he] at he'
        rw [Option.some.inj he']; exact hname
      have hnot : q ∉ chain' h := fun hin => htake (hqi ▸ (hold.mp hin).1)
      rw [hname']
      by_cases hh : hashString e.name m = h
      · subst hh; simp [hqi]
      · rw [Function.update_of_ne (Ne.symm hh)]
        exact iff_of_false hnot fun h => hh h.2
    · rw [or_iff_left hqi, ← hold]
      by_cases hh : hashString t.storage[entries[i]].name m = h
      · subst hh; simp [hqi]
      · rw [Function.update_of_ne (Ne.symm hh)]
  refine wp_mono hloop ?_ (fun _ h => h)
  rintro _ t ⟨slots', chain', hch, hlen, ht, hb, hmem⟩
  refine ⟨slots', chain', hch, hlen, ht, hb, ?_⟩
  simpa using hmem

end Dp4c.Symtable
