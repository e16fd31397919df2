import Dp4c.Symtable.Runs

/-! # What a growth of the table writes

A growth flattens the chains into an array of pointers that it gets from `arena_push`. It
asks for `capacity` bytes and writes a pointer for each entry, of which there are as many.
Here all these writes are kept, also the ones behind the pages that come for the request. -/
namespace Dp4c.Symtable

open Dp4c.Lib Dp4c.Lib.Prog

variable {s t : State} {slots : List (Option Nat)} {chain : Nat → List Nat}

/-- `entries_array[j] = entry`: a pointer and where it is written. -/
structure Write where
  address : Nat
  entry : Nat

/-- What a growth asks `arena_push` for, what it gets, and what it writes there. -/
structure Growth where
  requested : Nat
  entriesArray : Nat
  writes : List Write

/-- Every pointer is written inside the region that was asked for. -/
def Growth.Inside (g : Growth) : Prop := ∀ w ∈ g.writes,
  g.entriesArray ≤ w.address ∧ w.address + sizeofPointer ≤ g.entriesArray + g.requested

/-- `flattenChain` with the index `j` and the writes of the source. -/
def flattenChainTo (entriesArray : Nat) :
    Nat → Option Nat → Nat × List Write → SymM (Nat × List Write)
  | 0, _, _ => Prog.exit .outOfFuel
  | _ + 1, none, r => pure r
  | fuel + 1, some p, (j, writes) => do
    let entry ← deref p
    update p fun entry => { entry with nextEntry := none }
    flattenChainTo entriesArray fuel entry.nextEntry
      (j + 1, writes ++ [⟨entriesArray + sizeofPointer * j, p⟩])

/-- The growth that `get_symtable_entry` makes for a name, if it makes one: the search for
the name, and the first loop of the growth. `push` is `arena_push` on `temp_storage`. -/
def growth (push : Nat → Nat) (name : Cstr) : SymM (Option Growth) := do
  let s ← Prog.state
  let found ← findEntry name (s.storage.length + 1) (← slotGet (hashString name s.capacityLog2))
  match found with
  | some _ => pure none
  | none =>
    if s.entryCount ≥ s.capacity then do
      let entriesArray := push s.capacity
      let (_, writes) ← Prog.forRange (fun i r => do
        flattenChainTo entriesArray (s.storage.length + 1) (← slotGet i) r) 0 s.capacity (0, [])
      pure (some ⟨s.capacity, entriesArray, writes⟩)
    else pure none

/-- In the calls of `get_symtable_entry` with these names, every growth writes inside the
region it asked for. -/
def GrowsInside (push : Nat → Nat) : List Cstr → State → Prop
  | [], _ => True
  | name :: names, s => (∀ g t, growth push name s = .ok (some g, t) → g.Inside) ∧
      ∀ p t, getSymtableEntry name s = .ok (p, t) → GrowsInside push names t

/-! ## The writes are those of the model -/

/-- The index and the writes when these entries have been listed. -/
def written (entriesArray : Nat) (entries : List Nat) : Nat × List Write :=
  (entries.length, entries.mapIdx fun j p => ⟨entriesArray + sizeofPointer * j, p⟩)

theorem written_concat (entriesArray : Nat) (entries : List Nat) (p : Nat) :
    written entriesArray (entries ++ [p]) = ((written entriesArray entries).1 + 1,
      (written entriesArray entries).2 ++
        [⟨entriesArray + sizeofPointer * (written entriesArray entries).1, p⟩]) := by
  simp [written, List.mapIdx_append]

/-- The writes are the list `flattenChain` makes, one behind the other. -/
theorem flattenChainTo_ok (entriesArray : Nat) {room : Nat} :
    ∀ {fuel : Nat} {p : Option Nat} {entries : List Nat} {s : State} {r : List Nat} {t : State},
      flattenChain room fuel p entries s = .ok (r, t) →
      flattenChainTo entriesArray fuel p (written entriesArray entries) s =
        .ok (written entriesArray r, t)
  | 0, _, _, _, _, _, h => by cases h
  | _ + 1, none, _, _, _, _, h => by
    obtain ⟨rfl, rfl⟩ := Prod.mk.inj (Except.ok.inj h)
    rfl
  | fuel + 1, some p, entries, s, r, t, h => by
    unfold flattenChain at h
    unfold flattenChainTo
    obtain ⟨_, u, hcheck, hround⟩ := bind_ok h
    obtain rfl := (check_ok hcheck).2
    obtain ⟨entry, v, hentry, hlist⟩ := bind_ok hround
    obtain ⟨_, w, hupdate, hrest⟩ := bind_ok hlist
    rw [bind_of_ok hentry, bind_of_ok hupdate, ← written_concat]
    exact flattenChainTo_ok entriesArray hrest

theorem flattenAllTo_ok (entriesArray : Nat) {room fuel n : Nat} {r : List Nat}
    (h : forRange (fun i entries => do flattenChain room fuel (← slotGet i) entries) 0 n [] s =
      .ok (r, t)) :
    forRange (fun i r => do flattenChainTo entriesArray fuel (← slotGet i) r) 0 n (0, []) s =
      .ok (written entriesArray r, t) := by
  refine forRange_ok (f := written entriesArray) (fun i entries s r t hround => ?_) n 0 [] s r t h
  obtain ⟨p, u, hp, hchain⟩ := bind_ok hround
  rw [bind_of_ok hp]
  exact flattenChainTo_ok entriesArray hchain

/-! ## One call -/

/-- The search finds the names that have an entry. -/
theorem Table.wp_search (ht : Table s slots chain) {E : Exit → Prop} (name : Cstr) :
    wp (do findEntry name (s.storage.length + 1) (← slotGet (hashString name s.capacityLog2))) s
      (fun r t => t = s ∧ (r = none ↔ name ∉ s.storage.map (·.name))) E := by
  obtain ⟨k, ha⟩ := ht.array
  have hh := ht.hash_lt name
  simp only [wp_bind, wp_slotGet ha hh]
  refine wp_mono (wp_findEntry ht.nonempty (ht.chains _ hh) (ht.alloc _ hh)
    (Nat.lt_succ_of_le (ht.length_le hh))) ?_ fun _ h => h
  rintro r t ⟨rfl, hsome, hnone⟩
  refine ⟨rfl, fun hr hin => ?_, fun hnew => ?_⟩
  · obtain ⟨e, hmem, hname⟩ := List.mem_map.mp hin
    obtain ⟨p, hp⟩ := List.mem_iff_getElem?.mp hmem
    exact hnone hr p ((ht.mem _ hh p e hp).mpr (by rw [hname])) e hp hname
  · cases r with
    | none => rfl
    | some p =>
      obtain ⟨e, he, hname⟩ := hsome p rfl
      exact absurd (List.mem_map.mpr ⟨e, List.mem_of_getElem? he, hname⟩) hnew

/-- A growth happens for a new name in a full table; it writes all the entries. -/
theorem Table.wp_growth (ht : Table s slots chain) (push : Nat → Nat) (name : Cstr) :
    wp (growth push name) s (fun r _ =>
      (r = none ∧ (name ∈ s.storage.map (·.name) ∨ s.entryCount < s.capacity)) ∨
      (name ∉ s.storage.map (·.name) ∧ s.capacity ≤ s.entryCount ∧ ∃ entries : List Nat,
        entries.length = s.entryCount ∧
        r = some ⟨s.capacity, push s.capacity, (written (push s.capacity) entries).2⟩))
      (fun _ => False) := by
  have hsearch := ht.wp_search (E := fun _ => False) name
  unfold growth
  simp only [wp_bind, wp_state] at hsearch ⊢
  refine wp_mono hsearch (fun found t h => wp_mono h ?_ fun _ h => h) fun _ h => h
  rintro r t ⟨rfl, hr⟩
  cases r with
  | some p => exact .inl ⟨rfl, .inl (by_contra fun hnew => by cases hr.mpr hnew)⟩
  | none =>
    have hnew := hr.mp rfl
    simp only
    by_cases hfull : t.entryCount ≥ t.capacity
    · have hlen : ((List.range slots.length).flatMap chain).length = t.entryCount := by
        rw [ht.flatMap_perm.length_eq, List.length_range, ht.count]
      -- the same loop with room for all the pointers
      have hloop := wp_flattenAll (sizeofPointer * t.entryCount) ht.toChained ht.disjoint
      rw [hlen, ht.length] at hloop
      obtain ⟨entries, u, hrun, rfl, -⟩ :=
        wp_returns (wp_mono hloop (fun _ _ h => h) fun _ h => absurd h.2 (Nat.lt_irrefl _))
      rw [if_pos hfull]
      refine wp_of_ok (bind_of_ok (flattenAllTo_ok (push t.capacity) hrun) _) ?_
      exact .inr ⟨hnew, hfull, _, by rw [← ht.length]; exact hlen, rfl⟩
    · rw [if_neg hfull]
      exact .inl ⟨rfl, .inr (Nat.lt_of_not_le hfull)⟩

theorem linkEntry_frame (p h : Nat) : wp (linkEntry p h) s (fun _ t => t.capacity = s.capacity)
    (fun _ => True) := by
  unfold linkEntry
  simp only [wp_bind, wp_update]
  unfold wp slotGet slotSet
  cases s.symtable.arrayGet h with
  | error e => trivial
  | ok head =>
    simp only
    cases s.symtable.arraySet h (some p) with
    | error e => trivial
    | ok array => rfl

/-- A call that makes no growth keeps the capacity; a name that has an entry leaves the
table as it is. -/
theorem Table.wp_lookup (ht : Table s slots chain) {name : Cstr}
    (hroom : name ∈ s.storage.map (·.name) ∨ s.entryCount < s.capacity) :
    wp (getSymtableEntry name) s (fun _ t => t.capacity = s.capacity ∧
      (name ∈ s.storage.map (·.name) → t = s)) (fun _ => True) := by
  have hsearch := ht.wp_search (E := fun _ => True) name
  unfold getSymtableEntry
  simp only [wp_bind, wp_state] at hsearch ⊢
  refine wp_mono hsearch (fun found t h => wp_mono h ?_ fun _ h => h) fun _ h => h
  rintro r t ⟨rfl, hr⟩
  cases r with
  | some p => exact ⟨rfl, fun _ => rfl⟩
  | none =>
    have hnew := hr.mp rfl
    have hlt := hroom.resolve_left hnew
    unfold ensureCapacity addEntry
    simp only [wp_bind, wp_state]
    rw [if_neg (by omega)]
    simp only [wp_pure, wp_modify]
    refine wp_mono (linkEntry_frame _ _) (fun _ u hu => ⟨hu, fun hin => absurd hin hnew⟩)
      fun _ h => h

/-! ## Runs of calls -/

/-- Pointers for as many entries as there are bytes do not fit. -/
theorem not_inside {entriesArray n : Nat} {entries : List Nat} (hn : 0 < n)
    (hlen : n ≤ entries.length) :
    ¬ Growth.Inside ⟨n, entriesArray, (written entriesArray entries).2⟩ := by
  intro h
  have hlast : n - 1 < (written entriesArray entries).2.length := by
    simp only [written, List.length_mapIdx]
    omega
  have hin := (h _ (List.getElem_mem hlast)).2
  simp only [written, List.getElem_mapIdx, sizeofPointer] at hin
  omega

/-- The names that have no entry. -/
def newNames (s : State) (names : List Cstr) : List Cstr :=
  names.filter fun name => name ∉ s.storage.map (·.name)

theorem Inv.growsInside (push : Nat → Nat) : ∀ {names : List Cstr} {s : State}, Inv s →
    names.Nodup → (∀ name ∈ names, name.bytes ≠ []) →
    (GrowsInside push names s ↔ s.entryCount + (newNames s names).length ≤ s.capacity)
  | [], s, hi, _, _ => by
    obtain ⟨slots, chain, ht⟩ := hi
    exact iff_of_true trivial ht.room
  | name :: names, s, hi, hnd, hne => by
    have hnd' := (List.nodup_cons.mp hnd).2
    have hne' := fun n hn => hne n (List.mem_cons_of_mem _ hn)
    have hname := hne name List.mem_cons_self
    have hentry := wp_getSymtableEntry hi hname
    obtain ⟨slots, chain, ht⟩ := id hi
    have hcap := ht.capacity
    have hw := ht.width
    have hpow : 2 ^ 5 ≤ 2 ^ s.capacityLog2 := Nat.pow_le_pow_right (by omega) hw
    have hpow' : 2 ^ s.capacityLog2 ≤ 2 ^ 10 := Nat.pow_le_pow_right (by omega) ht.width_le
    obtain ⟨r, u, hgrowth, hcases⟩ := wp_returns (ht.wp_growth push name)
    unfold GrowsInside
    by_cases hin : name ∈ s.storage.map (·.name)
    · -- the entry is found
      have hnone : r = none := by
        rcases hcases with h | h
        · exact h.1
        · exact absurd hin h.1
      have hskip : newNames s (name :: names) = newNames s names :=
        List.filter_cons_of_neg (by simpa using hin)
      rw [hskip, ← hi.growsInside push hnd' hne']
      refine ⟨fun h => ?_, fun h => ⟨fun g v hg => ?_, fun p v hv => ?_⟩⟩
      · cases hrun : getSymtableEntry name s with
        | ok pv =>
          have hsame := (wp_ok (ht.wp_lookup (.inl hin)) hrun).2 hin
          exact hsame ▸ h.2 pv.1 pv.2 hrun
        | error e => exact absurd hin (wp_error hentry hrun).2.1
      · rw [hgrowth, hnone] at hg
        cases hg
      · exact (wp_ok (ht.wp_lookup (.inl hin)) hv).2 hin ▸ h
    · have hcons : newNames s (name :: names) = name :: newNames s names :=
        List.filter_cons_of_pos (by simpa using hin)
      rw [hcons, List.length_cons]
      by_cases hroom : s.entryCount < s.capacity
      · -- the entry is added
        have hnone : r = none := by
          rcases hcases with h | h
          · exact h.1
          · exact absurd hroom (Nat.not_lt.mpr h.2.1)
        have hstep : ∀ p v, getSymtableEntry name s = .ok (p, v) →
            (GrowsInside push names v ↔
              s.entryCount + ((newNames s names).length + 1) ≤ s.capacity) := fun p v hv => by
          obtain ⟨hiv, habs, -⟩ := wp_ok hentry hv
          have hcapv := (wp_ok (ht.wp_lookup (.inr hroom)) hv).1
          have hnames : v.storage.map (·.name) = s.storage.map (·.name) ++ [name] := by
            have hmap := congrArg (fun t : Scopes => t.entries.map (·.name)) habs
            rw [Scopes.enter, if_neg (by rw [mem_names_abs]; exact hin)] at hmap
            simpa [abs, Function.comp_def] using hmap
          have hnew : newNames v names = newNames s names := by
            refine List.filter_congr fun n hn => ?_
            have hne : n ≠ name := fun h => (List.nodup_cons.mp hnd).1 (h ▸ hn)
            rw [hnames]
            simp [hne]
          have hcount : v.entryCount = s.entryCount + 1 := by
            obtain ⟨_, _, htv⟩ := id hiv
            have hlen := congrArg List.length hnames
            simp only [List.length_map, List.length_append, List.length_singleton] at hlen
            rw [htv.count, ht.count, hlen]
          rw [hiv.growsInside push hnd' hne', hnew, hcount, hcapv]
          omega
        cases hrun : getSymtableEntry name s with
        | ok pv =>
          rw [← hstep pv.1 pv.2 hrun]
          refine ⟨fun h => h.2 pv.1 pv.2 rfl, fun h => ⟨fun g v hg => ?_, fun p v hv => ?_⟩⟩
          · rw [hgrowth, hnone] at hg
            cases hg
          · obtain rfl := Except.ok.inj hv
            exact h
        | error e =>
          have hfull := (wp_error hentry hrun).2.2
          rw [← ht.count] at hfull
          omega
      · -- the table grows
        refine iff_of_false (fun h => ?_) (by omega)
        rcases hcases with ⟨-, hin' | hroom'⟩ | ⟨-, hle, entries, hlen, hr⟩
        · exact hin hin'
        · exact hroom hroom'
        · rw [hr] at hgrowth
          exact not_inside (by omega) (by omega) (h.1 _ u hgrowth)

/-- **A growth** writes past the region it asked for, always; so the pointers stay inside
exactly where the names fit the table as it is. -/
theorem growsInside_iff (push : Nat → Nat) {s₀ : State} (h₀ : symtableInit {} = .ok ((), s₀))
    {ops : List Op} (hn : ∀ op ∈ ops, op.Named) {rs : List (Option Nat)}
    (hrun : run ops s₀ = .ok (rs, s)) {names : List Cstr} (hnd : names.Nodup)
    (hne : ∀ name ∈ names, name.bytes ≠ []) :
    GrowsInside push names s ↔ s.entryCount + (newNames s names).length ≤ s.capacity := by
  obtain ⟨hi₀, -⟩ := symtableInit_ok ⟨rfl, rfl, rfl, by decide, by decide⟩ h₀
  exact (run_abs hi₀ hn hrun).1.growsInside push hnd hne

/-- The names `a`, `b` and so on. -/
def letters (n : Nat) : List Cstr :=
  (List.range n).map fun i => Cstr.ofString (String.ofList [Char.ofNat (97 + i)])

theorem letters_room : (symtableInit {}).toOption.map (fun r =>
    (decide (r.2.entryCount + (newNames r.2 (letters 23)).length ≤ r.2.capacity),
      decide (r.2.entryCount + (newNames r.2 (letters 24)).length ≤ r.2.capacity))) =
    some (true, false) := by decide +kernel

theorem letters_distinct : (letters 24).Nodup ∧ (∀ name ∈ letters 24, name.bytes ≠ []) ∧
    (letters 23).Nodup ∧ ∀ name ∈ letters 23, name.bytes ≠ [] := by decide +kernel

/-- With the keywords in it the table has room for 23 names. -/
theorem growsInside_fails : ∃ s, symtableInit {} = .ok ((), s) ∧
    ¬ GrowsInside (fun _ => 65536) (letters 24) s := by
  obtain ⟨⟨_, s⟩, hs, hroom⟩ := ok_of_toOption letters_room
  obtain ⟨hi, -⟩ := symtableInit_ok ⟨rfl, rfl, rfl, by decide, by decide⟩ hs
  obtain ⟨hnd, hne, -, -⟩ := letters_distinct
  refine ⟨s, hs, fun h => ?_⟩
  exact of_decide_eq_false (Prod.mk.inj hroom).2 ((hi.growsInside _ hnd hne).mp h)

theorem growsInside_room : ∃ s, symtableInit {} = .ok ((), s) ∧
    GrowsInside (fun _ => 65536) (letters 23) s := by
  obtain ⟨⟨_, s⟩, hs, hroom⟩ := ok_of_toOption letters_room
  obtain ⟨-, -, hnd, hne⟩ := letters_distinct
  have hiff := growsInside_iff (fun _ => 65536) hs (List.forall_mem_nil Op.Named) rfl hnd hne
  exact ⟨s, hs, hiff.mpr (of_decide_eq_true (Prod.mk.inj hroom).1)⟩

end Dp4c.Symtable
