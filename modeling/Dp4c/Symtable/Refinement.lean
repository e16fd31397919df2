import Dp4c.Symtable.Invariant

/-! # The hash table implements the list of bindings

For every operation of symtable.c: from a state that satisfies the invariant
it reaches another one, and the bindings change as the operation of `Scopes`
changes them. The only exits are the assertions of the source, and the write
behind the temporary array in the growth that comes after `2^10 - 1` entries. -/
namespace Dp4c.Symtable

open Dp4c.Lib Dp4c.Lib.Prog

variable {s t : State} {slots : List (Option Nat)} {chain : Nat → List Nat}

/-- What a state needs besides its chains. -/
theorem Table.mem_storage (ht : Table s slots chain) {h : Nat} (hh : h < slots.length) {p : Nat}
    (hp : p ∈ chain h) :
    ∃ e, s.storage[p]? = some e ∧ hashString e.name s.capacityLog2 = h := by
  have hlt := ht.alloc h hh p hp
  have he : s.storage[p]? = some s.storage[p] := List.getElem?_eq_getElem hlt
  exact ⟨_, he, (ht.mem h hh p _ he).mp hp⟩

theorem Table.disjoint (ht : Table s slots chain) :
    ∀ h < slots.length, ∀ h' < slots.length, h ≠ h' → ∀ p ∈ chain h, p ∉ chain h' := by
  intro h hh h' hh' hne p hp hp'
  obtain ⟨e, he, heq⟩ := ht.mem_storage hh hp
  exact hne (heq.symm.trans ((ht.mem h' hh' p e he).mp hp'))

theorem Table.hash_lt (ht : Table s slots chain) (name : Cstr) :
    hashString name s.capacityLog2 < slots.length := by
  have hw := ht.width; have hw' := ht.width_le
  rw [ht.length, ht.capacity]
  exact hashString_lt name (by omega) (by omega)

/-- The chains together list every entry once. -/
theorem Table.flatMap_perm (ht : Table s slots chain) :
    ((List.range slots.length).flatMap chain).Perm (List.range s.storage.length) := by
  refine (List.perm_ext_iff_of_nodup ?_ List.nodup_range).mpr fun p => ?_
  · rw [List.nodup_flatMap]
    refine ⟨fun h hh => (ht.chains h (List.mem_range.mp hh)).nodup, ?_⟩
    refine List.Pairwise.imp_of_mem ?_ List.nodup_range
    intro h h' hh hh' hne p hp hp'
    exact ht.disjoint h (List.mem_range.mp hh) h' (List.mem_range.mp hh') hne p hp hp'
  · simp only [List.mem_flatMap, List.mem_range]
    constructor
    · rintro ⟨h, hh, hp⟩
      exact ht.alloc h hh p hp
    · intro hp
      have he : s.storage[p]? = some s.storage[p] := List.getElem?_eq_getElem hp
      exact ⟨_, ht.hash_lt s.storage[p].name, (ht.mem _ (ht.hash_lt _) p _ he).mpr rfl⟩

/-- The pages of a growth: one, as long as a table can grow. -/
theorem tempPages_eq {m : Nat} (hm : 5 ≤ m) (hm' : m ≤ 10) : tempPages (2 ^ m - 1) = pageSize := by
  have h : ∀ m < 11, 5 ≤ m → tempPages (2 ^ m - 1) = pageSize := by decide +kernel
  exact h m (by omega) hm

/-- A growth doubles the table and keeps its content, unless the pointers to the entries are
more than a page: eight times as many bytes as the `capacity` it asks for. -/
theorem Table.wp_growTable (ht : Table s slots chain) (hfull : s.entryCount ≥ s.capacity) :
    wp growTable s (fun _ t => (∃ slots chain, Table t slots chain) ∧ t.entryCount < t.capacity ∧
      abs t = abs s ∧ t.capacityLog2 = s.capacityLog2 + 1)
      (fun e => e = .fault ∧ 2 ^ 10 ≤ s.entryCount + 1) := by
  have hroom := ht.room; have hcap := ht.capacity; have hw := ht.width; have hw' := ht.width_le
  have hcount : s.entryCount = s.capacity := by omega
  have hpos : 0 < 2 ^ s.capacityLog2 := Nat.pow_pos (by omega)
  have hsucc : 2 ^ (s.capacityLog2 + 1) = 2 * 2 ^ s.capacityLog2 := by rw [Nat.pow_succ]; omega
  have hpage : tempPages s.capacity = 4096 := by rw [hcap]; exact tempPages_eq hw hw'
  have hperm := ht.flatMap_perm
  have hlen : ((List.range slots.length).flatMap chain).length = s.entryCount := by
    rw [hperm.length_eq, List.length_range, ht.count]
  obtain ⟨k, ha⟩ := ht.array
  unfold growTable
  simp only [wp_bind, wp_state, Nat.one_shiftLeft, hpage]
  rw [← ht.length]
  refine wp_mono (wp_flattenAll 4096 ht.toChained ht.disjoint) ?_ ?_
  case refine_2 =>
    rintro e ⟨he, hbig⟩
    rw [hlen, sizeofPointer] at hbig
    refine ⟨he, ?_⟩
    have hten : ¬ s.capacityLog2 ≤ 9 := fun hm => by
      have hpow : 2 ^ s.capacityLog2 ≤ 2 ^ 9 := Nat.pow_le_pow_right (by omega) hm
      omega
    have hm : s.capacityLog2 = 10 := by omega
    rw [hm] at hcap
    omega
  rintro entries s₁ ⟨rfl, hfit, hs₁, hb₁⟩
  generalize hentries : (List.range slots.length).flatMap chain = entries at hperm hlen hfit ⊢
  have hnine : s.capacityLog2 + 1 ≤ 10 := by
    rw [hlen, sizeofPointer] at hfit
    by_contra hten
    have hm : s.capacityLog2 = 10 := by omega
    rw [hm] at hcap
    omega
  have hpow : 2 ^ (s.capacityLog2 + 1) ≤ 2 ^ 10 := Nat.pow_le_pow_right (by omega) hnine
  simp only [wp_check, hlen, if_true, wp_modify]
  -- the state with the new capacity
  generalize hs₂ : ({ s₁ with capacityLog2 := _, capacity := _ } : State) = s₂
  have ha₂ : s₂.symtable.Holds slots k := by rw [← hs₂, hs₁]; exact ha
  have hstor₂ : s₂.storage = s₁.storage := by rw [← hs₂]
  refine wp_mono (wp_appendNulls ha₂ fun hbig => by rw [ht.length] at hbig; omega) ?_
    (fun _ h => h)
  rintro _ s₃ ⟨hs₃, k₃, ha₃⟩
  have hlen₃ : (slots ++ List.replicate (2 ^ (s.capacityLog2 + 1) - 1 - s.entryCount)
      (none : Option Nat)).length = 2 ^ (s.capacityLog2 + 1) - 1 := by
    simp only [List.length_append, List.length_replicate, ht.length]; omega
  rw [← hlen₃]
  refine wp_mono (wp_clearSlots ha₃) ?_ (fun _ h => h)
  rintro _ s₄ ⟨hs₄, k₄, ha₄⟩
  rw [hlen₃] at ha₄
  have hstor₄ : s₄.storage = s₁.storage := by rw [hs₄, hs₃, hstor₂]
  have hlenst : s₄.storage.length = s.storage.length := by
    rw [hstor₄]; simpa using congrArg List.length hb₁
  have hchained : Chained s₄ (List.replicate (2 ^ (s.capacityLog2 + 1) - 1) none) fun _ => [] :=
    ⟨⟨k₄, ha₄⟩, fun h hh => by simp, fun _ _ _ hp => absurd hp (by simp)⟩
  rw [← hlen]
  refine wp_mono (wp_relinkAll hchained (hperm.nodup_iff.mpr List.nodup_range)
    (fun p hp => by rw [hlenst]; exact List.mem_range.mp (hperm.mem_iff.mp hp))
    fun name => by simpa using hashString_lt name (by omega) (by omega)) ?_ (fun _ h => h)
  rintro _ s₅ ⟨slots', chain', hch, hlen', hs₅, hb₅, hmem⟩
  have hbind : s₅.storage.map SymtableEntry.bindings = s.storage.map SymtableEntry.bindings := by
    rw [hb₅, hstor₄, hb₁]
  have hlen₅ : s₅.storage.length = s.storage.length := by simpa using congrArg List.length hbind
  have hm₅ : s₅.capacityLog2 = s.capacityLog2 + 1 := by rw [hs₅, hs₄, hs₃, ← hs₂]
  have hc₅ : s₅.capacity = 2 ^ (s.capacityLog2 + 1) - 1 := by rw [hs₅, hs₄, hs₃, ← hs₂]
  have hn₅ : s₅.entryCount = s.entryCount := by rw [hs₅, hs₄, hs₃, ← hs₂, hs₁]
  have hl₅ : s₅.scopeLevel = s.scopeLevel := by rw [hs₅, hs₄, hs₃, ← hs₂, hs₁]
  refine ⟨⟨slots', chain', ⟨hch, by omega, by omega, by rw [hc₅, hm₅], ?_, ?_, ?_, ?_, ?_, ?_⟩⟩,
    by omega, by unfold abs; rw [hbind, hl₅], hm₅⟩
  · rw [hlen', hc₅]; simp
  · intro h _ p e he
    rw [hmem h p e he, hm₅]
    refine and_iff_right (hperm.mem_iff.mpr (List.mem_range.mpr ?_))
    rw [← hlen₅]; exact (List.getElem?_eq_some_iff.mp he).1
  · rw [hn₅, ht.count, hlen₅]
  · omega
  · have hnames := ht.names
    have hmap := congrArg (List.map Bindings.name) hbind
    simp only [List.map_map, Function.comp_def, SymtableEntry.bindings_name] at hmap
    rw [hmap]; exact hnames
  · intro e he
    obtain ⟨p, hp⟩ := List.mem_iff_getElem?.mp he
    obtain ⟨e', he', hee⟩ := bindings_at hbind hp
    have hname : e'.name = e.name := congrArg Bindings.name hee
    rw [← hname]
    exact ht.nonempty e' (List.mem_of_getElem? he')

/-! ## Looking a name up -/

/-- The search along a chain finds the entry of the name, if it is there. -/
theorem wp_findEntry {name : Cstr} {E : Exit → Prop} (hne : ∀ e ∈ s.storage, e.name.bytes ≠ []) :
    ∀ {l : List Nat} {fuel : Nat} {p : Option Nat}, Chain (nextOf s) p l →
      (∀ q ∈ l, q < s.storage.length) → l.length < fuel →
      wp (findEntry name fuel p) s (fun r t => t = s ∧
        (∀ q, r = some q → ∃ e, s.storage[q]? = some e ∧ e.name = name) ∧
        (r = none → ∀ q ∈ l, ∀ e, s.storage[q]? = some e → e.name ≠ name)) E
  | [], 0, _, _, _, h => absurd h (Nat.not_lt_zero _)
  | [], fuel + 1, p, hc, _, _ => by
    obtain rfl : p = none := hc
    simp [findEntry]
  | a :: l, 0, _, _, _, h => absurd h (Nat.not_lt_zero _)
  | a :: l, fuel + 1, p, hc, ha, hf => by
    obtain ⟨rfl, hc⟩ := hc
    have hlt : a < s.storage.length := ha a (by simp)
    have he : s.storage[a]? = some s.storage[a] := List.getElem?_eq_getElem hlt
    have hnext : s.storage[a].nextEntry = nextOf s a := by simp [nextOf, he]
    simp only [findEntry, wp_bind, wp_deref he]
    rw [cstrMatch_eq _ _ (hne _ (List.getElem_mem hlt))]
    simp only [wp_lift_some]
    by_cases hname : s.storage[a].name = name
    · rw [if_pos (by simpa using hname)]
      refine ⟨rfl, fun q hq => ?_, fun h => by cases h⟩
      obtain rfl := Option.some.inj hq
      exact ⟨_, he, hname⟩
    · rw [if_neg (by simpa using hname), hnext]
      refine wp_mono (wp_findEntry hne hc (fun q hq => ha q (List.mem_cons_of_mem _ hq))
        (by simpa using hf)) ?_ (fun _ h => h)
      rintro r t ⟨rfl, hsome, hnone⟩
      refine ⟨rfl, hsome, fun hr q hq e hqe => ?_⟩
      rcases List.mem_cons.mp hq with rfl | hq
      · rw [he] at hqe
        rw [← Option.some.inj hqe]; exact hname
      · exact hnone hr q hq e hqe

theorem Table.wp_ensureCapacity (ht : Table s slots chain) :
    wp ensureCapacity s (fun _ t => (∃ slots chain, Table t slots chain) ∧
      t.entryCount < t.capacity ∧ abs t = abs s)
      (fun e => e = .fault ∧ 2 ^ 10 ≤ s.entryCount + 1) := by
  unfold ensureCapacity
  simp only [wp_bind, wp_state]
  by_cases hfull : s.entryCount ≥ s.capacity
  · rw [if_pos hfull]
    exact wp_mono (ht.wp_growTable hfull) (fun _ _ h => ⟨h.1, h.2.1, h.2.2.1⟩) (fun _ h => h)
  · rw [if_neg hfull]
    exact ⟨⟨slots, chain, ht⟩, by omega, rfl⟩

/-- A new entry joins the chain its name hashes to. -/
theorem Table.wp_addEntry {name : Cstr} {E : Exit → Prop} (ht : Table s slots chain)
    (hroom : s.entryCount < s.capacity) (hn : name.bytes ≠ [])
    (hnew : name ∉ s.storage.map (·.name)) :
    wp (addEntry name) s (fun p t => (∃ slots chain, Table t slots chain) ∧
      abs t = { abs s with entries := (abs s).entries ++ [{ name := name }] } ∧
      ∃ e, t.storage[p]? = some e ∧ e.name = name) E := by
  unfold addEntry
  simp only [wp_bind, wp_state, wp_modify]
  generalize hs₁ : ({ s with storage := _ } : State) = s₁
  have hstor₁ : s₁.storage = s.storage ++ [{ name := name }] := by rw [← hs₁]
  have hnext : nextOf s₁ = nextOf s := by
    funext q
    unfold nextOf
    rw [hstor₁]
    by_cases hq : q < s.storage.length
    · rw [List.getElem?_append_left hq]
    · rw [List.getElem?_append_right (by omega), List.getElem?_eq_none (by omega : _ ≤ q)]
      cases q - s.storage.length <;> rfl
  have hc₁ : Chained s₁ slots chain := by
    refine ⟨?_, fun h hh => by rw [hnext]; exact ht.chains h hh, fun h hh p hp => ?_⟩
    · rw [← hs₁]; exact ht.array
    · rw [hstor₁, List.length_append]
      exact Nat.lt_of_lt_of_le (ht.alloc h hh p hp) (Nat.le_add_right _ _)
  refine wp_mono (hc₁.linkEntry (ht.hash_lt name) (by rw [hstor₁]; simp)
    fun h hh hin => absurd (ht.alloc h hh _ hin) (Nat.lt_irrefl _)) ?_ (fun _ h => h)
  rintro _ t ⟨hct, htt, hb⟩
  have hm : t.capacityLog2 = s.capacityLog2 := by rw [htt, ← hs₁]
  have hcap : t.capacity = s.capacity := by rw [htt, ← hs₁]
  have hcnt : t.entryCount = s.entryCount := by rw [htt, ← hs₁]
  have hlen : t.storage.length = s.storage.length + 1 := by
    have := congrArg List.length hb
    simpa [hstor₁] using this
  have hnames : t.storage.map (·.name) = s.storage.map (·.name) ++ [name] := by
    have hmap := congrArg (List.map Bindings.name) hb
    simpa [Function.comp_def, hstor₁] using hmap
  have hcount := ht.count; have hw := ht.width; have hw' := ht.width_le; have hc := ht.capacity
  have hlast : ∃ e, t.storage[s.storage.length]? = some e ∧ e.name = name := by
    have hlt : s.storage.length < t.storage.length := by omega
    refine ⟨t.storage[s.storage.length], List.getElem?_eq_getElem hlt, ?_⟩
    have hget := congrArg (·[s.storage.length]?) hnames
    simpa [List.getElem?_eq_getElem hlt] using hget
  refine ⟨⟨slots.set (hashString name s.capacityLog2) (some s.storage.length),
    Function.update chain (hashString name s.capacityLog2)
      (s.storage.length :: chain (hashString name s.capacityLog2)),
    ⟨⟨hct.array, hct.chains, hct.alloc⟩, by show 5 ≤ t.capacityLog2; omega,
      by show t.capacityLog2 ≤ 10; omega,
      by show t.capacity = 2 ^ t.capacityLog2 - 1; rw [hcap, hm]; exact hc,
      by show _ = t.capacity; rw [List.length_set, hcap]; exact ht.length, ?_,
      by show t.entryCount + 1 = t.storage.length; omega,
      by show t.entryCount + 1 ≤ t.capacity; omega, ?_, ?_⟩⟩, ?_, hlast⟩
  · intro h hh q e hq
    have hh' : h < slots.length := by simpa using hh
    show _ ↔ hashString e.name t.capacityLog2 = h
    rw [hm]
    obtain ⟨e', he', hee⟩ := bindings_at hb hq
    have hname : e'.name = e.name := congrArg Bindings.name hee
    rw [hstor₁] at he'
    by_cases hqn : q < s.storage.length
    · rw [List.getElem?_append_left hqn] at he'
      have hold := ht.mem h hh' q e' he'
      rw [hname] at hold
      rw [← hold]
      by_cases hhe : hashString name s.capacityLog2 = h
      · subst hhe
        rw [Function.update_self, List.mem_cons]
        exact or_iff_right (by omega)
      · rw [Function.update_of_ne (Ne.symm hhe)]
    · have hqe : q = s.storage.length := by
        have := (List.getElem?_eq_some_iff.mp he').1
        simp at this; omega
      subst hqe
      simp only [List.getElem?_concat_length, Option.some.injEq] at he'
      rw [← hname, ← he']
      by_cases hhe : hashString name s.capacityLog2 = h
      · subst hhe; simp
      · rw [Function.update_of_ne (Ne.symm hhe)]
        refine iff_of_false (fun hin => ?_) hhe
        exact absurd (ht.alloc h hh' _ hin) (Nat.lt_irrefl _)
  · show (t.storage.map (·.name)).Nodup
    rw [hnames, List.nodup_append]
    refine ⟨ht.names, by simp, fun a ha b hb' hab => hnew ?_⟩
    rw [List.mem_singleton] at hb'
    rw [← hb', ← hab]; exact ha
  · intro e he
    have he' : e.name ∈ t.storage.map (·.name) := List.mem_map_of_mem he
    rw [hnames, List.mem_append, List.mem_singleton] at he'
    rcases he' with he' | he'
    · obtain ⟨e', hmem, hee⟩ := List.mem_map.mp he'
      rw [← hee]; exact ht.nonempty e' hmem
    · rw [he']; exact hn
  · have hl : t.scopeLevel = s.scopeLevel := by rw [htt, ← hs₁]
    show ({ entries := t.storage.map _, scopeLevel := t.scopeLevel } : Scopes) = _
    rw [hb, hl, hstor₁]
    simp [abs, SymtableEntry.bindings]

theorem mem_names_abs {name : Cstr} :
    name ∈ (abs s).entries.map (·.name) ↔ name ∈ s.storage.map (·.name) := by
  simp [abs]

theorem Inv.wf (h : Inv s) : (abs s).Wf := by
  obtain ⟨slots, chain, ht⟩ := h
  simpa [Scopes.Wf, abs, Function.comp_def] using ht.names

/-- The exit of a table that cannot grow for a new name. -/
def Full (s : State) (name : Cstr) (e : Exit) : Prop :=
  e = .fault ∧ name ∉ s.storage.map (·.name) ∧ 2 ^ 10 ≤ s.storage.length + 1

/-- **`get_symtable_entry`.** The entry returned is the name's; the table
gains an entry exactly when it had none for the name. -/
theorem wp_getSymtableEntry (hi : Inv s) {name : Cstr} (hn : name.bytes ≠ []) :
    wp (getSymtableEntry name) s (fun p t => Inv t ∧ abs t = (abs s).enter name ∧
      ∃ e, t.storage[p]? = some e ∧ e.name = name) (Full s name) := by
  obtain ⟨slots, chain, ht⟩ := hi
  obtain ⟨k, ha⟩ := ht.array
  have hh := ht.hash_lt name
  unfold getSymtableEntry
  simp only [wp_bind, wp_state, wp_slotGet ha hh]
  refine wp_mono (wp_findEntry ht.nonempty (ht.chains _ hh) (ht.alloc _ hh)
    (Nat.lt_succ_of_le (ht.length_le hh))) ?_ (fun _ h => h)
  rintro r u ⟨rfl, hsome, hnone⟩
  cases r with
  | some p =>
    obtain ⟨e, he, hname⟩ := hsome p rfl
    have hin : name ∈ (abs u).entries.map (·.name) :=
      mem_names_abs.mpr (List.mem_map.mpr ⟨e, List.mem_of_getElem? he, hname⟩)
    exact ⟨⟨slots, chain, ht⟩, by rw [Scopes.enter, if_pos hin], e, he, hname⟩
  | none =>
    -- the name hashes to the chain that was searched
    have hnew : name ∉ u.storage.map (·.name) := by
      intro hin
      obtain ⟨e, hmem, hname⟩ := List.mem_map.mp hin
      obtain ⟨p, hp⟩ := List.mem_iff_getElem?.mp hmem
      have hpc := (ht.mem _ hh p e hp).mpr (by rw [hname])
      exact hnone rfl p hpc e hp hname
    simp only [wp_bind]
    refine wp_mono ht.wp_ensureCapacity ?_
      (fun e he => ⟨he.1, hnew, by rw [← ht.count]; exact he.2⟩)
    rintro _ v ⟨⟨slots', chain', ht'⟩, hroom, habs⟩
    have hnew' : name ∉ v.storage.map (·.name) := by
      rw [← mem_names_abs, habs, mem_names_abs]; exact hnew
    refine wp_mono (ht'.wp_addEntry hroom hn hnew') ?_ (fun _ h => h)
    rintro p w ⟨hinv, hw, hp⟩
    refine ⟨hinv, ?_, hp⟩
    rw [hw, habs, Scopes.enter, if_neg (by rw [mem_names_abs]; exact hnew)]

/-! ## Changing entries in place -/

/-- Entries may change in anything but their names and links. -/
theorem Table.withStorage (ht : Table s slots chain) {l : List SymtableEntry} (level : Nat)
    (hlen : l.length = s.storage.length)
    (hsame : ∀ (p : Nat) (e' : SymtableEntry), l[p]? = some e' → ∃ e : SymtableEntry,
      s.storage[p]? = some e ∧ e'.name = e.name ∧ e'.nextEntry = e.nextEntry) :
    Table { s with storage := l, scopeLevel := level } slots chain := by
  have hnext : nextOf { s with storage := l, scopeLevel := level } = nextOf s := by
    funext p
    unfold nextOf
    cases hp : l[p]? with
    | none =>
      rw [List.getElem?_eq_none_iff] at hp
      rw [List.getElem?_eq_none (by omega : s.storage.length ≤ p)]
    | some e' =>
      obtain ⟨e, he, _, hne⟩ := hsame p e' hp
      simp [he, hne]
  have hnames : l.map (·.name) = s.storage.map (·.name) := by
    apply List.ext_getElem?
    intro p
    simp only [List.getElem?_map]
    cases hp : l[p]? with
    | none =>
      rw [List.getElem?_eq_none_iff] at hp
      rw [List.getElem?_eq_none (by omega : s.storage.length ≤ p)]
    | some e' =>
      obtain ⟨e, he, hn, _⟩ := hsame p e' hp
      simp [he, hn]
  refine ⟨⟨ht.array, fun h hh => by rw [hnext]; exact ht.chains h hh,
    fun h hh p hp => by simpa [hlen] using ht.alloc h hh p hp⟩,
    ht.width, ht.width_le, ht.capacity, ht.length, ?_, by simpa [hlen] using ht.count,
    ht.room, by simpa [hnames] using ht.names, ?_⟩
  · intro h hh p e' he'
    obtain ⟨e, he, hn, _⟩ := hsame p e' he'
    rw [hn]; exact ht.mem h hh p e he
  · intro e' he'
    have hm : e'.name ∈ s.storage.map (·.name) := by
      rw [← hnames]; exact List.mem_map_of_mem he'
    obtain ⟨e, he, hee⟩ := List.mem_map.mp hm
    rw [← hee]; exact ht.nonempty e he

/-- Two entries of one name are one entry. -/
theorem Table.name_inj (ht : Table s slots chain) {p q : Nat} {e e' : SymtableEntry}
    (hp : s.storage[p]? = some e) (hq : s.storage[q]? = some e') (h : e.name = e'.name) :
    p = q := by
  have hlt : p < (s.storage.map (·.name)).length := by
    simpa using (List.getElem?_eq_some_iff.mp hp).1
  refine (List.getElem?_inj hlt ht.names).mp ?_
  simp [hp, hq, h]

/-- Writing the entry of a name is `updateName` on the bindings. -/
theorem Inv.update (hi : Inv s) {p : Nat} {e : SymtableEntry} (hp : s.storage[p]? = some e)
    {f : SymtableEntry → SymtableEntry} {g : Bindings → Bindings}
    (hf : ∀ e, (f e).nextEntry = e.nextEntry ∧ (f e).bindings = g e.bindings)
    (hg : ∀ b, (g b).name = b.name) :
    Inv { s with storage := s.storage.modify p f } ∧
      abs { s with storage := s.storage.modify p f } = (abs s).updateName e.name g := by
  obtain ⟨slots, chain, ht⟩ := hi
  have hfn : ∀ e, (f e).name = e.name := fun e => by
    have h := congrArg Bindings.name (hf e).2
    rw [hg] at h; exact h
  refine ⟨⟨slots, chain, ht.withStorage s.scopeLevel (by simp)
    fun q (e' : SymtableEntry) he' => ?_⟩, ?_⟩
  · by_cases hq : p = q
    · subst hq
      simp only [List.getElem?_modify_eq, hp, Option.map_eq_map, Option.map_some,
        Option.some.injEq] at he'
      exact ⟨e, hp, by rw [← he', hfn], by rw [← he', (hf e).1]⟩
    · rw [List.getElem?_modify_ne _ _ hq] at he'
      exact ⟨e', he', rfl, rfl⟩
  · unfold abs Scopes.updateName
    simp only [Scopes.mk.injEq, and_true]
    apply List.ext_getElem?
    intro q
    simp only [List.getElem?_map]
    by_cases hq : p = q
    · subst hq
      simp [hp, hf]
    · rw [List.getElem?_modify_ne _ _ hq]
      cases hqe : s.storage[q]? with
      | none => rfl
      | some e' =>
        have hne : e'.name ≠ e.name := fun heq => hq (ht.name_inj hqe hp heq).symm
        simp [hne]

end Dp4c.Symtable
