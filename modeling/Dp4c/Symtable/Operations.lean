import Dp4c.Symtable.Refinement

/-! # The operations on the table, against their meaning on the bindings

One rule for each function of symtable.c: the invariant is kept, and `abs`
changes as `Scopes` says. An exit of the table is an exit of `Scopes`, or the
table cannot grow any more. -/
namespace Dp4c.Symtable

open Dp4c.Lib Dp4c.Lib.Prog

variable {s t : State}

/-! ## Declarations -/

theorem Inv.bind (hi : Inv s) {p : Nat} {e : SymtableEntry} (hp : s.storage[p]? = some e)
    {name : Cstr} {t : Scopes} (hs : abs s = t.enter name) (hname : e.name = name)
    (ns : Space) (symbol : Symbol) {f : SymtableEntry → SymtableEntry}
    (hf : ∀ e, (f e).nextEntry = e.nextEntry ∧
      (f e).bindings = e.bindings.withChain ns (symbol :: e.bindings.chain ns)) :
    Inv { s with storage := s.storage.modify p f } ∧
      abs { s with storage := s.storage.modify p f } = t.bind ns name symbol := by
  have h := hi.update hp (g := fun b => b.withChain ns (symbol :: b.chain ns)) hf
    fun b => b.withChain_name ns _
  rw [hs, hname] at h
  exact h

theorem scopeLevel_entered {t : Scopes} {name : Cstr} (hs : abs s = t.enter name) :
    s.scopeLevel = t.scopeLevel := by
  have h := congrArg Scopes.scopeLevel hs
  rwa [Scopes.enter_scopeLevel] at h

theorem wp_newType (hi : Inv s) {name : Cstr} (hn : name.bytes ≠ []) (ast : Option Nat) :
    wp (newType name ast) s (fun _ t => Inv t ∧ abs t = (abs s).newType name ast)
        (Full s name) := by
  unfold newType
  rw [wp_bind]
  refine wp_mono (wp_getSymtableEntry hi hn) ?_ (fun _ h => h)
  rintro p t ⟨hit, habs, e, he, hname⟩
  simp only [wp_bind, wp_reads, wp_update, wp_pure]
  rw [Scopes.newType, ← scopeLevel_entered habs]
  apply hit.bind he habs hname .type
    { identKind := .type, name := name, scopeLevel := t.scopeLevel, ast := ast }
  intro e
  exact ⟨rfl, rfl⟩

theorem wp_newIdent (hi : Inv s) {name : Cstr} (hn : name.bytes ≠ []) (ast : Option Nat) :
    wp (newIdent name ast) s (fun _ t => Inv t ∧ abs t = (abs s).newIdent name ast)
        (Full s name) := by
  unfold newIdent
  rw [wp_bind]
  refine wp_mono (wp_getSymtableEntry hi hn) ?_ (fun _ h => h)
  rintro p t ⟨hit, habs, e, he, hname⟩
  simp only [wp_bind, wp_reads, wp_update, wp_pure]
  rw [Scopes.newIdent, ← scopeLevel_entered habs]
  apply hit.bind he habs hname .ident
    { identKind := .ident, name := name, scopeLevel := t.scopeLevel, ast := ast }
  intro e
  exact ⟨rfl, rfl⟩

/-- The bindings of a name are those of its entry. -/
theorem Inv.lookup_abs (hi : Inv s) {p : Nat} {e : SymtableEntry}
    (hp : s.storage[p]? = some e) : (abs s).lookup e.name = e.bindings := by
  have hmem : e.bindings ∈ (abs s).entries := List.mem_map_of_mem (List.mem_of_getElem? hp)
  exact Scopes.lookupIn_of_mem hi.wf hmem

theorem Inv.lookup_entered (hi : Inv s) {p : Nat} {e : SymtableEntry}
    (hp : s.storage[p]? = some e) {t : Scopes} {name : Cstr} (hs : abs s = t.enter name)
    (hname : e.name = name) : e.bindings = t.lookup name := by
  rw [← hi.lookup_abs hp, hs, hname, Scopes.lookup_enter]

/-- `add_keyword` writes the chain where the other declarations cons; on the
empty chain it accepts this is the same. -/
theorem Inv.bindKeyword (hi : Inv s) {p : Nat} {e : SymtableEntry} (hp : s.storage[p]? = some e)
    {t : Scopes} (hs : abs s = t.enter e.name) (hk : e.idKw = []) (idKw : Symbol) :
    Inv { s with storage := s.storage.modify p fun e => { e with idKw := [idKw] } } ∧
      abs { s with storage := s.storage.modify p fun e => { e with idKw := [idKw] } } =
        t.bind .kw e.name idKw := by
  have hcons : s.storage.modify p (fun e => { e with idKw := [idKw] }) =
      s.storage.modify p fun e => { e with idKw := idKw :: e.idKw } := by
    apply List.ext_getElem?
    intro q
    by_cases hq : p = q
    · subst hq
      simp [hp, hk]
    · simp [hq]
  rw [hcons]
  apply hi.bind hp hs rfl .kw idKw
  intro e
  exact ⟨rfl, rfl⟩

theorem wp_addKeyword (hi : Inv s) {name : Cstr} (hn : name.bytes ≠ []) (klass : TokenClass) :
    wp (addKeyword name klass) s
      (fun _ t => Inv t ∧ (abs s).addKeyword name klass = .ok (abs t))
      (fun e => Full s name e ∨ (abs s).addKeyword name klass = .error e) := by
  unfold addKeyword
  rw [wp_bind]
  refine wp_mono (wp_getSymtableEntry hi hn) ?_ (fun _ h => .inl h)
  rintro p t ⟨hit, habs, e, he, rfl⟩
  have hkw : e.idKw = ((abs s).lookup e.name).idKw :=
    congrArg Bindings.idKw (hit.lookup_entered he habs rfl)
  simp only [wp_bind, wp_deref he, wp_check]
  unfold Scopes.addKeyword
  rw [← hkw, ← scopeLevel_entered habs]
  by_cases hk : e.idKw = []
  · simp only [if_pos hk, wp_reads, wp_update, wp_pure]
    obtain ⟨hinv, hbind⟩ := hit.bindKeyword he habs hk
      { identKind := .keyword, name := e.name, scopeLevel := t.scopeLevel, tokenKlass := klass }
    exact ⟨hinv, congrArg Except.ok hbind.symm⟩
  · simp only [if_neg hk]
    exact .inr trivial

/-- The namespace of a kind `name_is_declared` accepts. -/
def SymbolKind.space : SymbolKind → Option Space
  | .none => Option.none
  | .keyword => some .kw
  | .type => some .type
  | .ident => some .ident

theorem wp_nameIsDeclared (hi : Inv s) {name : Cstr} (hn : name.bytes ≠ []) (kind : SymbolKind) :
    wp (nameIsDeclared name kind) s
      (fun r t => Inv t ∧ abs t = (abs s).enter name ∧
        ∃ ns, kind.space = some ns ∧ r = (abs s).declared ns name)
      (fun e => Full s name e ∨ kind.space = none ∧ e = .assertion "0") := by
  unfold nameIsDeclared
  rw [wp_bind]
  refine wp_mono (wp_getSymtableEntry hi hn) ?_ (fun _ h => .inl h)
  rintro p t ⟨hit, habs, e, he, hname⟩
  have hb := hit.lookup_entered he habs hname
  simp only [wp_bind, wp_deref he, wp_reads]
  have hl := scopeLevel_entered habs
  cases kind with
  | none => exact .inr ⟨rfl, rfl⟩
  | keyword => exact ⟨hit, habs, .kw, rfl, by rw [Scopes.declared, ← hb, ← hl]; rfl⟩
  | type => exact ⟨hit, habs, .type, rfl, by rw [Scopes.declared, ← hb, ← hl]; rfl⟩
  | ident => exact ⟨hit, habs, .ident, rfl, by rw [Scopes.declared, ← hb, ← hl]; rfl⟩

/-! ## Scopes -/

theorem wp_pushScope (hi : Inv s) {E : Exit → Prop} :
    wp pushScope s (fun _ t => Inv t ∧ abs t = (abs s).pushScope) E := by
  obtain ⟨slots, chain, ht⟩ := hi
  refine ⟨⟨slots, chain, ht.withStorage (s.scopeLevel + 1) rfl fun p e he => ?_⟩, rfl⟩
  exact ⟨e, he, rfl, rfl⟩

/-- The one way `pop_scope` fails inside its loop. -/
def nextInScopeExit : Exit := .assertion "next_in_scope->scope_level <= scope_level"

theorem scopeDeleteSymbol_error {level : Nat} {l : List Symbol} {x : Exit}
    (h : scopeDeleteSymbol level l = .error x) : x = nextInScopeExit := by
  unfold scopeDeleteSymbol at h
  split at h
  · cases h
  · split at h
    · split at h
      · cases h
      · split at h
        · cases h
        · exact (Except.error.inj h).symm
    · cases h

/-- A round of `pop_scope` pops the bindings of the entry and leaves the rest. -/
theorem popEntry_cases (level : Nat) (e : SymtableEntry) :
    (∃ e', popEntry level e = .ok e' ∧ Scopes.popBindings level e.bindings = .ok e'.bindings ∧
      e'.name = e.name ∧ e'.nextEntry = e.nextEntry) ∨
    (popEntry level e = .error nextInScopeExit ∧
      Scopes.popBindings level e.bindings = .error nextInScopeExit) := by
  unfold popEntry Scopes.popBindings SymtableEntry.bindings
  cases hk : scopeDeleteSymbol level e.idKw with
  | error x => exact .inr (by rw [scopeDeleteSymbol_error hk]; exact ⟨rfl, rfl⟩)
  | ok kw =>
    cases ht : scopeDeleteSymbol level e.idType with
    | error x => exact .inr (by rw [scopeDeleteSymbol_error ht]; exact ⟨rfl, rfl⟩)
    | ok type =>
      cases hd : scopeDeleteSymbol level e.idIdent with
      | error x => exact .inr (by rw [scopeDeleteSymbol_error hd]; exact ⟨rfl, rfl⟩)
      | ok ident => exact .inl ⟨_, rfl, rfl, rfl, rfl⟩

/-- The inner loop of `pop_scope` pops the entries of one chain. -/
theorem wp_popChain :
    ∀ {l : List Nat} {fuel : Nat} {p : Option Nat} {s : State}, Chain (nextOf s) p l →
      (∀ q ∈ l, q < s.storage.length) → l.length < fuel →
      wp (popChain fuel p) s (fun _ t => t = { s with storage := t.storage } ∧
        t.storage.length = s.storage.length ∧ (∀ q ∉ l, t.storage[q]? = s.storage[q]?) ∧
        ∀ q ∈ l, ∀ e, s.storage[q]? = some e →
          ∃ e', popEntry s.scopeLevel e = .ok e' ∧ t.storage[q]? = some e')
        (fun x => x = nextInScopeExit ∧ ∃ q ∈ l, ∃ e, s.storage[q]? = some e ∧
          popEntry s.scopeLevel e = .error x)
  | [], 0, _, _, _, _, h => absurd h (Nat.not_lt_zero _)
  | [], fuel + 1, p, s, hc, _, _ => by
    obtain rfl : p = none := hc
    simp [popChain]
  | a :: l, 0, _, _, _, _, h => absurd h (Nat.not_lt_zero _)
  | a :: l, fuel + 1, p, s, hc, ha, hf => by
    obtain ⟨rfl, hc⟩ := hc
    have hlt : a < s.storage.length := ha a (by simp)
    have hnot : a ∉ l := fun h => by
      have hnd : (a :: l).Nodup := Chain.nodup (p := some a) ⟨rfl, hc⟩
      exact (List.nodup_cons.mp hnd).1 h
    have he : s.storage[a]? = some s.storage[a] := List.getElem?_eq_getElem hlt
    have hnext : s.storage[a].nextEntry = nextOf s a := by simp [nextOf, he]
    simp only [popChain, wp_bind, wp_deref he, wp_reads]
    rcases popEntry_cases s.scopeLevel s.storage[a] with ⟨e', hok, _, _, hn⟩ | ⟨herr, _⟩
    · rw [hok]
      simp only [wp_ofExcept_ok, wp_update]
      generalize hs₁ : ({ s with storage := _ } : State) = s₁
      have hstor : s₁.storage = s.storage.modify a fun _ => e' := by rw [← hs₁]
      have hlink : nextOf s₁ = nextOf s := by
        funext q
        unfold nextOf
        rw [hstor]
        by_cases hq : a = q
        · subst hq; simp [he, hn]
        · simp [hq]
      have hlev : s₁.scopeLevel = s.scopeLevel := by rw [← hs₁]
      have hlen : s₁.storage.length = s.storage.length := by rw [hstor]; simp
      have hget : ∀ q, a ≠ q → s₁.storage[q]? = s.storage[q]? := fun q hq => by
        rw [hstor, List.getElem?_modify_ne _ _ hq]
      have hchain : Chain (nextOf s₁) e'.nextEntry l := by rw [hlink, hn, hnext]; exact hc
      refine wp_mono (wp_popChain hchain (fun q hq => by
        rw [hlen]; exact ha q (List.mem_cons_of_mem _ hq)) (by simpa using hf)) ?_ ?_
      · rintro _ t ⟨ht, htl, hout, hin⟩
        refine ⟨by rw [ht, ← hs₁], by rw [htl, hlen], fun q hq => ?_, fun q hq e hqe => ?_⟩
        · simp only [List.mem_cons, not_or] at hq
          rw [hout q hq.2, hget q (Ne.symm hq.1)]
        · rcases List.mem_cons.mp hq with rfl | hq
          · rw [he] at hqe
            rw [← Option.some.inj hqe]
            refine ⟨e', hok, ?_⟩
            rw [hout q hnot, hstor]
            simp [he]
          · rw [← hlev]
            exact hin q hq e (by rw [hget q (fun h => hnot (h ▸ hq))]; exact hqe)
      · rintro x ⟨hx, q, hq, e, hqe, hpe⟩
        refine ⟨hx, q, List.mem_cons_of_mem _ hq, e, ?_, by rw [← hlev]; exact hpe⟩
        rw [← hget q (fun h => hnot (h ▸ hq))]; exact hqe
    · rw [herr]
      exact ⟨rfl, a, List.mem_cons_self .., _, he, herr⟩

namespace Scopes

theorem popAll_ok {level : Nat} : ∀ {l l' : List Bindings},
    l'.length = l.length → (∀ (i : Nat) (b : Bindings), l[i]? = some b →
      ∃ b' : Bindings, popBindings level b = .ok b' ∧ l'[i]? = some b') → popAll level l = .ok l'
  | [], [], _, _ => rfl
  | b :: l, b' :: l', hlen, h => by
    obtain ⟨c, hc, hcb⟩ := h 0 b rfl
    have hrest : popAll level l = .ok l' :=
      popAll_ok (by simpa using hlen) fun i => by simpa using h (i + 1)
    obtain rfl : b' = c := Option.some.inj hcb
    unfold popAll
    rw [hc, hrest]
    rfl

theorem popAll_error {level : Nat} : ∀ {l : List Bindings},
    (∃ b ∈ l, popBindings level b = .error nextInScopeExit) →
    (∀ b ∈ l, ∀ x, popBindings level b = .error x → x = nextInScopeExit) →
    popAll level l = .error nextInScopeExit
  | [], h, _ => by obtain ⟨b, hb, _⟩ := h; cases hb
  | b :: l, h, hall => by
    unfold popAll
    cases hb : popBindings level b with
    | error x => rw [hall b (List.mem_cons_self ..) x hb]; rfl
    | ok b' =>
      have hrest : ∃ c ∈ l, popBindings level c = .error nextInScopeExit := by
        obtain ⟨c, hc, hce⟩ := h
        rcases List.mem_cons.mp hc with rfl | hc
        · rw [hb] at hce; cases hce
        · exact ⟨c, hc, hce⟩
      rw [show (popAll level l) = .error nextInScopeExit from
        popAll_error hrest fun c hc => hall c (List.mem_cons_of_mem _ hc)]
      rfl

end Scopes

/-- Where some entry does not pop, the bindings do not. -/
theorem popAll_abs_error {q : Nat} {e : SymtableEntry} {level : Nat} {x : Exit}
    (hq : s.storage[q]? = some e) (he : popEntry level e = .error x) :
    Scopes.popAll level (abs s).entries = .error nextInScopeExit := by
  refine Scopes.popAll_error ⟨e.bindings, List.mem_map_of_mem (List.mem_of_getElem? hq), ?_⟩ ?_
  · rcases popEntry_cases level e with ⟨e', hok, _⟩ | ⟨_, herr⟩
    · rw [hok] at he; cases he
    · exact herr
  · intro b hb y hy
    obtain ⟨e, _, rfl⟩ := List.mem_map.mp hb
    rcases popEntry_cases level e with ⟨e', _, hok, _⟩ | ⟨_, herr⟩
    · rw [hok] at hy; cases hy
    · rw [herr] at hy; exact (Except.error.inj hy).symm

/-- The entries of the first `i` slots are popped. -/
def PoppedBelow (s : State) (i : Nat) (t : State) : Prop :=
  t = { s with storage := t.storage } ∧ t.storage.length = s.storage.length ∧
    ∀ (p : Nat) (e : SymtableEntry), s.storage[p]? = some e →
      if hashString e.name s.capacityLog2 < i then
        ∃ e', popEntry s.scopeLevel e = .ok e' ∧ t.storage[p]? = some e'
      else t.storage[p]? = some e

/-- Popping keeps names and links. -/
theorem PoppedBelow.same {i : Nat} (h : PoppedBelow s i t) {p : Nat} {e : SymtableEntry}
    (hp : s.storage[p]? = some e) : ∃ e' : SymtableEntry, t.storage[p]? = some e' ∧
      e'.name = e.name ∧ e'.nextEntry = e.nextEntry := by
  have hpe := h.2.2 p e hp
  split at hpe
  · obtain ⟨e', hok, ht⟩ := hpe
    rcases popEntry_cases s.scopeLevel e with ⟨e'', hok', _, hn, hl⟩ | ⟨herr, _⟩
    · rw [hok] at hok'
      obtain rfl := Except.ok.inj hok'
      exact ⟨e', ht, hn, hl⟩
    · rw [hok] at herr; cases herr
  · exact ⟨e, hpe, rfl, rfl⟩

theorem PoppedBelow.getElem? {i : Nat} (h : PoppedBelow s i t) {p : Nat} {e' : SymtableEntry}
    (hp : t.storage[p]? = some e') : ∃ e : SymtableEntry, s.storage[p]? = some e ∧
      e'.name = e.name ∧ e'.nextEntry = e.nextEntry := by
  have hlt : p < s.storage.length := by
    rw [← h.2.1]; exact (List.getElem?_eq_some_iff.mp hp).1
  obtain ⟨e'', ht, hn, hl⟩ := h.same (List.getElem?_eq_getElem hlt)
  rw [hp] at ht
  obtain rfl := Option.some.inj ht
  exact ⟨_, List.getElem?_eq_getElem hlt, hn, hl⟩

theorem PoppedBelow.nextOf {i : Nat} (h : PoppedBelow s i t) : nextOf t = nextOf s := by
  funext p
  unfold Symtable.nextOf
  by_cases hp : p < s.storage.length
  · obtain ⟨e', ht, _, hl⟩ := h.same (List.getElem?_eq_getElem hp)
    rw [ht, List.getElem?_eq_getElem hp]
    exact hl
  · have hlen := h.2.1
    rw [List.getElem?_eq_none (by omega), List.getElem?_eq_none (by omega)]

/-- One round of the outer loop of `pop_scope`. -/
theorem Table.wp_popSlot {slots : List (Option Nat)} {chain : Nat → List Nat}
    (ht : Table s slots chain) {i : Nat} (hi : i < slots.length) (h : PoppedBelow s i t) :
    wp (do popChain (s.storage.length + 1) (← slotGet i)) t
      (fun _ u => PoppedBelow s (i + 1) u)
      (fun x => x = nextInScopeExit ∧
        Scopes.popAll s.scopeLevel (abs s).entries = .error nextInScopeExit) := by
  obtain ⟨k, ha⟩ := ht.array
  have hat : t.symtable.Holds slots k := by rw [h.1]; exact ha
  have hlev : t.scopeLevel = s.scopeLevel := by rw [h.1]
  simp only [wp_bind, wp_slotGet hat hi]
  refine wp_mono (wp_popChain (by rw [h.nextOf]; exact ht.chains i hi)
    (fun q hq => by rw [h.2.1]; exact ht.alloc i hi q hq)
    (Nat.lt_succ_of_le (ht.length_le hi))) ?_ ?_
  · rintro _ u ⟨hu, hul, hout, hin⟩
    refine ⟨by rw [hu, h.1], by rw [hul, h.2.1], fun p e hp => ?_⟩
    have hmem := ht.mem i hi p e hp
    have hpe := h.2.2 p e hp
    by_cases hhash : hashString e.name s.capacityLog2 = i
    · -- the entry is on the chain of this round
      rw [if_neg (by omega)] at hpe
      rw [if_pos (by omega), ← hlev]
      exact hin p (hmem.mpr hhash) e hpe
    · rw [hout p (fun hp => hhash (hmem.mp hp))]
      by_cases hlt : hashString e.name s.capacityLog2 < i
      · rw [if_pos hlt] at hpe
        rw [if_pos (by omega)]
        exact hpe
      · rw [if_neg hlt] at hpe
        rw [if_neg (by omega)]
        exact hpe
  · rintro x ⟨hx, q, hq, e, hqe, hpe⟩
    refine ⟨hx, ?_⟩
    obtain ⟨e₀, he₀, _⟩ := h.getElem? hqe
    have hhash := (ht.mem i hi q e₀ he₀).mp hq
    have hsame := h.2.2 q e₀ he₀
    rw [if_neg (by omega), hqe] at hsame
    obtain rfl := Option.some.inj hsame
    exact popAll_abs_error he₀ (by rw [← hlev]; exact hpe)

/-- **`pop_scope`** pops every name of the table. -/
theorem wp_popScope (hi : Inv s) :
    wp popScope s (fun _ t => Inv t ∧ (abs s).popScope = .ok (abs t))
      (fun x => (abs s).popScope = .error x) := by
  obtain ⟨slots, chain, ht⟩ := hi
  unfold popScope Scopes.popScope
  simp only [wp_bind, wp_state, wp_check]
  by_cases hl : s.scopeLevel > 0
  · rw [if_pos hl, if_pos (show (abs s).scopeLevel > 0 from hl), ← ht.length]
    refine wp_mono (wp_forRange (I := fun i _ t => PoppedBelow s i t)
      (fun i _ t _ hi h => ht.wp_popSlot (by omega) h)
      ⟨rfl, rfl, fun p e hp => by simpa using hp⟩) ?_ ?_
    · rintro _ t h
      have hpop : Scopes.popAll s.scopeLevel (abs s).entries =
          .ok (t.storage.map SymtableEntry.bindings) := by
        refine Scopes.popAll_ok (by simp [abs, h.2.1]) fun p b hb => ?_
        simp only [abs, List.getElem?_map, Option.map_eq_some_iff] at hb ⊢
        obtain ⟨e, he, rfl⟩ := hb
        have hpe := h.2.2 p e he
        rw [if_pos (by have := ht.hash_lt e.name; omega)] at hpe
        obtain ⟨e', hok, hte⟩ := hpe
        rcases popEntry_cases s.scopeLevel e with ⟨e'', hok', hb, _⟩ | ⟨herr, _⟩
        · rw [hok] at hok'
          obtain rfl := Except.ok.inj hok'
          exact ⟨_, hb, e', hte, rfl⟩
        · rw [hok] at herr; cases herr
      have hlev : t.scopeLevel = s.scopeLevel := by rw [h.1]
      have htable := ht.withStorage (l := t.storage) (s.scopeLevel - 1) h.2.1
        fun p e hp => h.getElem? hp
      refine ⟨⟨slots, chain, ?_⟩, ?_⟩
      · rw [h.1]; exact htable
      · show (do let entries ← Scopes.popAll s.scopeLevel (abs s).entries; _) = _
        rw [hpop]
        show Except.ok _ = _
        simp [abs, hlev]
    · rintro x ⟨hx, he⟩
      show (do let entries ← Scopes.popAll s.scopeLevel (abs s).entries; _) = _
      rw [he, hx]
      rfl
  · rw [if_neg hl]
    exact if_neg hl

/-! ## The initial table -/

theorem keywords_nodup : (keywords.map fun kw => Cstr.ofString kw.1).Nodup := by decide +kernel

theorem keywords_nonempty : ∀ kw ∈ keywords, (Cstr.ofString kw.1).bytes ≠ [] := by
  decide +kernel

namespace Scopes

theorem length_enter_le (t : Scopes) (name : Cstr) :
    (t.enter name).entries.length ≤ t.entries.length + 1 := by
  unfold enter
  split
  · omega
  · simp

theorem length_bind_le (t : Scopes) (ns : Space) (name : Cstr) (symbol : Symbol) :
    (t.bind ns name symbol).entries.length ≤ t.entries.length + 1 := by
  simpa [bind, updateName] using t.length_enter_le name

theorem length_addKeyword_le {t u : Scopes} {name : Cstr} {klass : TokenClass}
    (h : t.addKeyword name klass = .ok u) : u.entries.length ≤ t.entries.length + 1 := by
  unfold addKeyword at h
  split at h
  · rw [← Except.ok.inj h]; exact t.length_bind_le _ _ _
  · cases h

/-- Distinct names without a keyword can all be added. -/
theorem addKeywords_ok : ∀ {kws : List (String × TokenClass)} {t : Scopes},
    (kws.map fun kw => Cstr.ofString kw.1).Nodup →
    (∀ kw ∈ kws, (t.lookup (Cstr.ofString kw.1)).idKw = []) →
    ∃ u, t.addKeywords kws = .ok u ∧ u.scopeLevel = t.scopeLevel
  | [], t, _, _ => ⟨t, rfl, rfl⟩
  | (name, klass) :: kws, t, hnd, hfree => by
    simp only [List.map_cons, List.nodup_cons, List.mem_map, not_exists, not_and] at hnd
    have hadd : t.addKeyword (Cstr.ofString name) klass = .ok _ :=
      if_pos (hfree (name, klass) (List.mem_cons_self ..))
    obtain ⟨u, hu, hl⟩ := addKeywords_ok hnd.2 (t := t.bind .kw (Cstr.ofString name)
      { identKind := .keyword, name := Cstr.ofString name, scopeLevel := t.scopeLevel,
        tokenKlass := klass }) (fun kw hkw => by
          rw [lookup_bind, if_neg fun h => hnd.1 kw hkw h.symm]
          exact hfree kw (List.mem_cons_of_mem _ hkw))
    refine ⟨u, ?_, by simpa using hl⟩
    unfold addKeywords
    rw [hadd]
    exact hu

/-- The keywords of the language can all be added to the empty table. -/
theorem init_ok : ∃ t, init = .ok t ∧ t.scopeLevel = 0 :=
  addKeywords_ok keywords_nodup fun _ _ => rfl

end Scopes

theorem wp_addKeywords : ∀ {kws : List (String × TokenClass)} {s : State}, Inv s →
    (∀ kw ∈ kws, (Cstr.ofString kw.1).bytes ≠ []) → s.storage.length + kws.length < 2 ^ 10 →
    wp (addKeywords kws) s (fun _ t => Inv t ∧ (abs s).addKeywords kws = .ok (abs t))
      (fun e => (abs s).addKeywords kws = .error e)
  | [], s, hi, _, _ => ⟨hi, rfl⟩
  | (name, klass) :: kws, s, hi, hne, hlen => by
    simp only [List.length_cons] at hlen
    unfold addKeywords Scopes.addKeywords
    rw [List.forM_cons, wp_bind, wp_bind]
    refine wp_mono (wp_addKeyword hi (hne (name, klass) (List.mem_cons_self ..)) klass) ?_ ?_
    · rintro _ t ⟨hit, hok⟩
      have hle := Scopes.length_addKeyword_le hok
      simp only [abs, List.length_map] at hle
      rw [hok]
      simp only [wp_pure]
      have ih := wp_addKeywords hit (fun kw h => hne kw (List.mem_cons_of_mem _ h)) (by omega)
      unfold addKeywords at ih
      exact ih
    · rintro e (⟨_, _, hfull⟩ | herr)
      · omega
      · rw [herr]; rfl

/-- The states `symtable_init` is called in: before the first table, and after
the storage of the last one is deleted. -/
def Blank (s : State) : Prop :=
  s.storage = [] ∧ s.entryCount = 0 ∧ s.scopeLevel = 0 ∧
    5 ≤ s.capacityLog2 ∧ s.capacityLog2 ≤ 10

/-- **`symtable_init`** returns the table of the keywords. -/
theorem wp_symtableInit (hb : Blank s) {E : Exit → Prop} :
    wp symtableInit s (fun _ t => Inv t ∧ Scopes.init = .ok (abs t)) E := by
  obtain ⟨hstor, hcount, hlev, hw, hw'⟩ := hb
  have hpow : 2 ^ 5 ≤ 2 ^ s.capacityLog2 := Nat.pow_le_pow_right (by omega) hw
  have hpow' : 2 ^ s.capacityLog2 ≤ 2 ^ 10 := Nat.pow_le_pow_right (by omega) hw'
  unfold symtableInit
  simp only [wp_bind, wp_modify, wp_state]
  generalize hs₁ : ({ s with symtable := _, capacity := _ } : State) = s₁
  have hcap : 1 <<< s.capacityLog2 - 1 = 2 ^ s.capacityLog2 - 1 := by simp [Nat.shiftLeft_eq]
  have hcount₁ : s₁.entryCount = 0 := by rw [← hs₁]; exact hcount
  have ha₁ : s₁.symtable.Holds [] 0 := by rw [← hs₁]; exact UnboundedArray.holds_arrayInit 8
  rw [hcount, Nat.sub_zero, hcap]
  refine wp_mono (wp_appendNulls ha₁ (E := fun _ => False) ?_) ?_ (fun _ h => h.elim)
  · intro h
    simp only [List.length_nil] at h
    omega
  · rintro _ s₂ ⟨hs₂, k, ha₂⟩
    rw [List.nil_append] at ha₂
    have hstor₂ : s₂.storage = [] := by rw [hs₂, ← hs₁]; exact hstor
    have habs : abs s₂ = {} := by
      have hlev₂ : s₂.scopeLevel = 0 := by rw [hs₂, ← hs₁]; exact hlev
      simp [abs, hstor₂, hlev₂]
    have hm₂ : s₂.capacityLog2 = s.capacityLog2 := by rw [hs₂, ← hs₁]
    have hc₂ : s₂.capacity = 2 ^ s.capacityLog2 - 1 := by rw [hs₂, ← hs₁]; exact hcap
    have hn₂ : s₂.entryCount = 0 := by rw [hs₂, hcount₁]
    have htable : Table s₂ (List.replicate (2 ^ s.capacityLog2 - 1) none) fun _ => [] := by
      refine ⟨⟨⟨k, ha₂⟩, fun h hh => ?_, fun _ _ _ hp => absurd hp (by simp)⟩, by omega, by omega,
        by rw [hc₂, hm₂], by simp [hc₂], fun h _ p e hp => ?_, by rw [hn₂, hstor₂]; rfl,
        by omega, by simp [hstor₂], by simp [hstor₂]⟩
      · rw [List.getElem_replicate]
        exact Chain.nil_iff.mpr rfl
      · simp [hstor₂] at hp
    obtain ⟨t, hinit, _⟩ := Scopes.init_ok
    have hlen : s₂.storage.length + keywords.length < 2 ^ 10 := by rw [hstor₂]; decide
    unfold addAllKeywords
    refine wp_mono (wp_addKeywords ⟨_, _, htable⟩ keywords_nonempty hlen) ?_ ?_
    · intro _ t h
      rw [habs] at h
      exact h
    · intro e he
      rw [habs] at he
      exact absurd (he.symm.trans hinit) (by simp)

theorem symtableInit_returns (hb : Blank s) :
    ∃ t, symtableInit s = .ok ((), t) ∧ Inv t ∧ Scopes.init = .ok (abs t) := by
  obtain ⟨_, t, ht, h⟩ := wp_returns (wp_symtableInit hb)
  exact ⟨t, ht, h⟩

theorem symtableInit_ok (hb : Blank s) (h : symtableInit s = .ok ((), t)) :
    Inv t ∧ Scopes.init = .ok (abs t) := by
  have ht := wp_ok (wp_symtableInit hb (E := fun _ => True)) h
  exact ht

theorem wp_symtableFlush (hi : Inv s) {E : Exit → Prop} :
    wp symtableFlush s (fun _ t => Inv t ∧ Scopes.init = .ok (abs t)) E := by
  obtain ⟨slots, chain, ht⟩ := hi
  unfold symtableFlush
  rw [wp_bind, wp_modify]
  apply wp_symtableInit
  exact ⟨rfl, rfl, rfl, ht.width, ht.width_le⟩

end Dp4c.Symtable
