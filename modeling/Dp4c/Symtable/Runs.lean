import Dp4c.Symtable.Operations
import Mathlib.Algebra.GroupWithZero.Nat
import Mathlib.Data.List.Dedup

/-! # Runs of calls

A run is a list of calls on the table `symtable_init` made. Every run keeps
the invariant and ends in the bindings that the same run gives on `Scopes`;
with fewer than 2^10 names it stops early only where `Scopes` does. -/
namespace Dp4c.Symtable

open Dp4c.Lib Dp4c.Lib.Prog

/-- The functions of symtable.h, and `add_keyword`. -/
inductive Op where
  | getSymtableEntry (name : Cstr)
  | nameIsDeclared (name : Cstr) (kind : SymbolKind)
  | newType (name : Cstr) (ast : Option Nat)
  | newIdent (name : Cstr) (ast : Option Nat)
  | addKeyword (name : Cstr) (tokenKlass : TokenClass)
  | pushScope
  | popScope
  | symtableFlush

/-- Makes the call; the entry is kept where one is returned. -/
def Op.exec : Op → SymM (Option Nat)
  | .getSymtableEntry name => some <$> Symtable.getSymtableEntry name
  | .nameIsDeclared name kind => (fun _ => none) <$> Symtable.nameIsDeclared name kind
  | .newType name ast => (fun _ => none) <$> Symtable.newType name ast
  | .newIdent name ast => (fun _ => none) <$> Symtable.newIdent name ast
  | .addKeyword name tokenKlass => (fun _ => none) <$> Symtable.addKeyword name tokenKlass
  | .pushScope => (fun _ => none) <$> Symtable.pushScope
  | .popScope => (fun _ => none) <$> Symtable.popScope
  | .symtableFlush => (fun _ => none) <$> Symtable.symtableFlush

def run : List Op → SymM (List (Option Nat))
  | [] => pure []
  | op :: ops => do
    let r ← op.exec
    let rs ← run ops
    return r :: rs

/-- The name a call is about. -/
def Op.name? : Op → Option Cstr
  | .getSymtableEntry name | .nameIsDeclared name _ | .newType name _ | .newIdent name _
  | .addKeyword name _ => some name
  | .pushScope | .popScope | .symtableFlush => none

/-- Names are not empty. -/
def Op.Named (op : Op) : Prop := ∀ name ∈ op.name?, name.bytes ≠ []

/-- What the call does to the bindings. -/
def Op.apply : Op → Scopes → Except Exit Scopes
  | .getSymtableEntry name, t => .ok (t.enter name)
  | .nameIsDeclared name kind, t =>
    if kind = .none then .error (.assertion "0") else .ok (t.enter name)
  | .newType name ast, t => .ok (t.newType name ast)
  | .newIdent name ast, t => .ok (t.newIdent name ast)
  | .addKeyword name tokenKlass, t => t.addKeyword name tokenKlass
  | .pushScope, t => .ok t.pushScope
  | .popScope, t => t.popScope
  | .symtableFlush, _ => Scopes.init

def applyAll : List Op → Scopes → Except Exit Scopes
  | [], t => .ok t
  | op :: ops, t => match op.apply t with
    | .ok u => applyAll ops u
    | .error e => .error e

variable {s t u : State}

/-- The call finds a table that cannot grow for a new name. -/
def Op.FullAt (op : Op) (s : State) (e : Exit) : Prop := ∃ name ∈ op.name?, Full s name e

theorem wp_map {α β : Type} {x : SymM α} {f : α → β} {Q : β → State → Prop} {E : Exit → Prop} :
    wp (f <$> x) s Q E ↔ wp x s (fun a t => Q (f a) t) E := by
  rw [map_eq_pure_bind, wp_bind]
  rfl

/-- One call. -/
theorem wp_exec (hi : Inv s) {op : Op} (hn : op.Named) :
    wp op.exec s (fun r t => Inv t ∧ op.apply (abs s) = .ok (abs t) ∧
        ∀ name, op = .getSymtableEntry name →
          ∃ p e, r = some p ∧ t.storage[p]? = some e ∧ e.name = name)
      (fun e => op.apply (abs s) = .error e ∨ op.FullAt s e) := by
  cases op with
  | getSymtableEntry name =>
    refine wp_map.mpr (wp_mono (wp_getSymtableEntry hi (hn name rfl)) ?_
      fun e he => .inr ⟨name, rfl, he⟩)
    rintro p t ⟨hit, habs, e, he, hname⟩
    refine ⟨hit, congrArg Except.ok habs.symm, fun name' h => ?_⟩
    obtain rfl := Op.getSymtableEntry.inj h
    exact ⟨p, e, rfl, he, hname⟩
  | nameIsDeclared name kind =>
    refine wp_map.mpr (wp_mono (wp_nameIsDeclared hi (hn name rfl) kind) ?_ ?_)
    · rintro r t ⟨hit, habs, ns, hns, _⟩
      have hkind : kind ≠ .none := fun h => by rw [h] at hns; cases hns
      exact ⟨hit, (if_neg hkind).trans (congrArg Except.ok habs.symm), fun _ h => by cases h⟩
    · rintro e (he | ⟨hns, rfl⟩)
      · exact .inr ⟨name, rfl, he⟩
      · have hkind : kind = .none := by cases kind <;> first | rfl | cases hns
        exact .inl (if_pos hkind)
  | newType name ast =>
    refine wp_map.mpr (wp_mono (wp_newType hi (hn name rfl) ast) ?_
      fun e he => .inr ⟨name, rfl, he⟩)
    rintro _ t ⟨hit, habs⟩
    exact ⟨hit, congrArg Except.ok habs.symm, fun _ h => by cases h⟩
  | newIdent name ast =>
    refine wp_map.mpr (wp_mono (wp_newIdent hi (hn name rfl) ast) ?_
      fun e he => .inr ⟨name, rfl, he⟩)
    rintro _ t ⟨hit, habs⟩
    exact ⟨hit, congrArg Except.ok habs.symm, fun _ h => by cases h⟩
  | addKeyword name klass =>
    refine wp_map.mpr (wp_mono (wp_addKeyword hi (hn name rfl) klass) ?_ ?_)
    · rintro _ t ⟨hit, hok⟩
      exact ⟨hit, hok, fun _ h => by cases h⟩
    · rintro e (he | he)
      · exact .inr ⟨name, rfl, he⟩
      · exact .inl he
  | pushScope =>
    refine wp_map.mpr (wp_mono (wp_pushScope hi (E := fun _ => False)) ?_ fun _ h => h.elim)
    rintro _ t ⟨hit, habs⟩
    exact ⟨hit, congrArg Except.ok habs.symm, fun _ h => by cases h⟩
  | popScope =>
    refine wp_map.mpr (wp_mono (wp_popScope hi) ?_ fun _ h => .inl h)
    rintro _ t ⟨hit, hok⟩
    exact ⟨hit, hok, fun _ h => by cases h⟩
  | symtableFlush =>
    refine wp_map.mpr (wp_mono (wp_symtableFlush hi (E := fun _ => False)) ?_ fun _ h => h.elim)
    rintro _ t ⟨hit, hok⟩
    exact ⟨hit, hok, fun _ h => by cases h⟩

/-! ## Whole runs -/

theorem run_cons {op : Op} {ops : List Op} {rs : List (Option Nat)}
    (h : run (op :: ops) s = .ok (rs, t)) :
    ∃ r u rs', op.exec s = .ok (r, u) ∧ run ops u = .ok (rs', t) ∧ rs = r :: rs' := by
  unfold run at h
  obtain ⟨r, u, hr, h⟩ := bind_ok h
  obtain ⟨rs', v, hrs, h⟩ := bind_ok h
  obtain ⟨rfl, rfl⟩ := Prod.mk.inj (Except.ok.inj h)
  exact ⟨r, u, rs', hr, hrs, rfl⟩

theorem run_cons_of_ok {op : Op} {ops : List Op} {r : Option Nat} {rs : List (Option Nat)}
    (hop : op.exec s = .ok (r, u)) (hrun : run ops u = .ok (rs, t)) :
    run (op :: ops) s = .ok (r :: rs, t) := by
  unfold run
  rw [bind_of_ok hop, bind_of_ok hrun]
  rfl

theorem run_append : ∀ (ops₁ : List Op) {ops₂ : List Op} {s t : State} {rs : List (Option Nat)},
    run (ops₁ ++ ops₂) s = .ok (rs, t) →
      ∃ rs₁ u rs₂, run ops₁ s = .ok (rs₁, u) ∧ run ops₂ u = .ok (rs₂, t)
  | [], ops₂, s, t, rs, h => ⟨[], s, rs, rfl, h⟩
  | op :: ops₁, ops₂, s, t, rs, h => by
    obtain ⟨r, v, rs', hop, hrest, _⟩ := run_cons h
    obtain ⟨rs₁, u, rs₂, h₁, h₂⟩ := run_append ops₁ hrest
    exact ⟨r :: rs₁, u, rs₂, run_cons_of_ok hop h₁, h₂⟩

theorem run_append_of_error : ∀ {ops₁ ops₂ : List Op} {s u : State} {rs : List (Option Nat)}
    {e : Exit}, run ops₁ s = .ok (rs, u) → run ops₂ u = .error e →
      run (ops₁ ++ ops₂) s = .error e
  | [], _, _, _, _, _, h₁, h₂ => by
    obtain ⟨rfl, rfl⟩ := Prod.mk.inj (Except.ok.inj h₁)
    exact h₂
  | op :: ops₁, ops₂, s, u, rs, e, h₁, h₂ => by
    obtain ⟨r, v, rs', hop, hrest, _⟩ := run_cons h₁
    rw [List.cons_append, run, bind_of_ok hop, bind_of_error (run_append_of_error hrest h₂)]

/-- A run that returns keeps the invariant and is the run on the bindings. -/
theorem run_abs : ∀ {ops : List Op} {s t : State} {rs : List (Option Nat)}, Inv s →
    (∀ op ∈ ops, op.Named) → run ops s = .ok (rs, t) →
    Inv t ∧ applyAll ops (abs s) = .ok (abs t)
  | [], s, t, rs, hi, _, h => by
    obtain ⟨_, rfl⟩ := Prod.mk.inj (Except.ok.inj h)
    exact ⟨hi, rfl⟩
  | op :: ops, s, t, rs, hi, hn, h => by
    obtain ⟨r, u, rs', hop, hops, _⟩ := run_cons h
    obtain ⟨hiu, hok, _⟩ := wp_ok (wp_exec hi (hn op (List.mem_cons_self ..))) hop
    obtain ⟨hit, hall⟩ := run_abs hiu (fun o ho => hn o (List.mem_cons_of_mem _ ho)) hops
    refine ⟨hit, ?_⟩
    unfold applyAll
    rw [hok]
    exact hall

/-- The names of the entries. -/
def Scopes.names (t : Scopes) : List Cstr := t.entries.map (·.name)

/-- A table has fewer than 1024 entries. -/
theorem Inv.names_lt (hi : Inv t) : (abs t).names.length < 2 ^ 10 := by
  obtain ⟨slots, chain, ht⟩ := hi
  have hlen : (abs t).names.length = t.storage.length := by simp [Scopes.names, abs]
  have hpow : 2 ^ t.capacityLog2 ≤ 2 ^ 10 := Nat.pow_le_pow_right (by omega) ht.width_le
  have hroom := ht.room
  rw [ht.capacity, ht.count] at hroom
  omega

namespace Scopes

theorem mem_names_enter {t : Scopes} {name x : Cstr} :
    x ∈ (t.enter name).names ↔ x ∈ t.names ∨ x = name := by
  unfold enter names
  split
  · rename_i h
    exact ⟨.inl, fun hx => hx.elim id fun e => e ▸ h⟩
  · simp

/-- A name with a symbol has an entry. -/
theorem mem_names_of_chain {t : Scopes} {ns : Space} {name : Cstr}
    (h : (t.lookup name).chain ns ≠ []) : name ∈ t.names := by
  by_contra hnew
  have hempty : t.lookup name = { name := name } := lookupIn_of_notMem hnew
  rw [hempty] at h
  cases ns <;> exact h rfl

theorem names_bind (t : Scopes) (ns : Space) (name : Cstr) (symbol : Symbol) :
    (t.bind ns name symbol).names = (t.enter name).names :=
  map_name_updateName (by simp)

theorem popBindings_ok {level : Nat} {b b' : Bindings} (h : popBindings level b = .ok b') :
    b'.name = b.name ∧ ∀ ns, scopeDeleteSymbol level (b.chain ns) = .ok (b'.chain ns) := by
  unfold popBindings at h
  obtain ⟨kw, hk, h⟩ := except_bind_ok h
  obtain ⟨type, ht, h⟩ := except_bind_ok h
  obtain ⟨ident, hd, h⟩ := except_bind_ok h
  obtain rfl := Except.ok.inj h
  refine ⟨rfl, fun ns => ?_⟩
  cases ns
  · exact hk
  · exact ht
  · exact hd

theorem popAll_cons_ok {level : Nat} {b : Bindings} {l l' : List Bindings}
    (h : popAll level (b :: l) = .ok l') :
    ∃ b' rest, popBindings level b = .ok b' ∧ popAll level l = .ok rest ∧ l' = b' :: rest := by
  unfold popAll at h
  obtain ⟨b', hb, h⟩ := except_bind_ok h
  obtain ⟨rest, hl, h⟩ := except_bind_ok h
  exact ⟨b', rest, hb, hl, (Except.ok.inj h).symm⟩

theorem popScope_ok {t u : Scopes} (h : t.popScope = .ok u) :
    t.scopeLevel > 0 ∧ popAll t.scopeLevel t.entries = .ok u.entries ∧
      u.scopeLevel = t.scopeLevel - 1 := by
  unfold popScope at h
  split at h
  · rename_i hl
    obtain ⟨entries, he, h⟩ := except_bind_ok h
    obtain rfl := Except.ok.inj h
    exact ⟨hl, he, rfl⟩
  · cases h

theorem names_popAll {level : Nat} : ∀ {l l' : List Bindings}, popAll level l = .ok l' →
    l'.map (·.name) = l.map (·.name)
  | [], l', h => by obtain rfl := Except.ok.inj h; rfl
  | b :: l, l', h => by
    obtain ⟨b', rest, hb, hl, rfl⟩ := popAll_cons_ok h
    simp [(popBindings_ok hb).1, names_popAll hl]

theorem addKeyword_ok {t u : Scopes} {name : Cstr} {klass : TokenClass}
    (h : t.addKeyword name klass = .ok u) : ∃ symbol : Symbol,
      symbol.scopeLevel = t.scopeLevel ∧ u = t.bind .kw name symbol := by
  unfold addKeyword at h
  split at h
  · exact ⟨_, rfl, (Except.ok.inj h).symm⟩
  · cases h

theorem names_addKeywords : ∀ {kws : List (String × TokenClass)} {t u : Scopes},
    t.addKeywords kws = .ok u → ∀ x ∈ u.names,
      x ∈ t.names ∨ x ∈ kws.map fun kw => Cstr.ofString kw.1
  | [], t, u, h, x, hx => by obtain rfl := Except.ok.inj h; exact .inl hx
  | (name, klass) :: kws, t, u, h, x, hx => by
    unfold addKeywords at h
    obtain ⟨v, hv, h⟩ := except_bind_ok h
    obtain ⟨symbol, _, rfl⟩ := addKeyword_ok hv
    rcases names_addKeywords h x hx with hx | hx
    · rw [names_bind, mem_names_enter] at hx
      rcases hx with hx | rfl
      · exact .inl hx
      · exact .inr (List.mem_cons_self ..)
    · exact .inr (List.mem_cons_of_mem _ hx)

end Scopes

/-- The names every table has. -/
def keywordNames : List Cstr := keywords.map fun kw => Cstr.ofString kw.1

theorem names_init {t : Scopes} (h : Scopes.init = .ok t) {x : Cstr} (hx : x ∈ t.names) :
    x ∈ keywordNames := by
  rcases Scopes.names_addKeywords h x hx with hx | hx
  · cases hx
  · exact hx

theorem Op.apply_nameIsDeclared {name : Cstr} {kind : SymbolKind} {t u : Scopes}
    (h : (Op.nameIsDeclared name kind).apply t = .ok u) : u = t.enter name := by
  by_cases hk : kind = .none
  · have herr : (Op.nameIsDeclared name kind).apply t = .error (.assertion "0") := if_pos hk
    rw [herr] at h; cases h
  · have hok : (Op.nameIsDeclared name kind).apply t = .ok (t.enter name) := if_neg hk
    exact (Except.ok.inj (hok.symm.trans h)).symm

/-- A call gives an entry to no name but its own. -/
theorem Op.names_apply {op : Op} {t u : Scopes} (h : op.apply t = .ok u) {x : Cstr}
    (hx : x ∈ u.names) : x ∈ t.names ∨ x ∈ op.name? ∨ x ∈ keywordNames := by
  have hbind {ns : Space} {name : Cstr} {symbol : Symbol} (hx : x ∈ (t.bind ns name symbol).names) :
      x ∈ t.names ∨ x = name := by
    rwa [Scopes.names_bind, Scopes.mem_names_enter] at hx
  cases op with
  | getSymtableEntry name =>
    obtain rfl := Except.ok.inj h
    exact (Scopes.mem_names_enter.mp hx).imp id fun e => .inl (by rw [e]; rfl)
  | nameIsDeclared name kind =>
    obtain rfl := Op.apply_nameIsDeclared h
    exact (Scopes.mem_names_enter.mp hx).imp id fun e => .inl (by rw [e]; rfl)
  | newType name ast =>
    obtain rfl := Except.ok.inj h
    exact (hbind hx).imp id fun e => .inl (by rw [e]; rfl)
  | newIdent name ast =>
    obtain rfl := Except.ok.inj h
    exact (hbind hx).imp id fun e => .inl (by rw [e]; rfl)
  | addKeyword name klass =>
    obtain ⟨symbol, _, rfl⟩ := Scopes.addKeyword_ok h
    exact (hbind hx).imp id fun e => .inl (by rw [e]; rfl)
  | pushScope =>
    obtain rfl := Except.ok.inj h
    exact .inl hx
  | popScope =>
    have hnames := Scopes.names_popAll (Scopes.popScope_ok h).2.1
    unfold Scopes.names at hx ⊢
    rw [hnames] at hx
    exact .inl hx
  | symtableFlush => exact .inr (.inr (names_init h hx))

/-- The table can always grow while the names come from a list `D` of fewer
than 1024. -/
theorem Op.FullAt.absurd {op : Op} {e : Exit} {D : List Cstr} (hf : op.FullAt s e) (hi : Inv s)
    (hD : D.length < 2 ^ 10) (hs : ∀ x ∈ (abs s).names, x ∈ D) (ho : ∀ x ∈ op.name?, x ∈ D) :
    False := by
  obtain ⟨name, hname, _, hnew, hlen⟩ := hf
  have hwf : (abs s).names.Nodup := hi.wf
  have hnew' : name ∉ (abs s).names := fun h => hnew (mem_names_abs.mp h)
  have hnd : (name :: (abs s).names).Nodup := List.nodup_cons.mpr ⟨hnew', hwf⟩
  have hsub : name :: (abs s).names ⊆ D := fun x hx => by
    rcases List.mem_cons.mp hx with rfl | hx
    · exact ho x hname
    · exact hs x hx
  have hle := (List.subperm_of_subset hnd hsub).length_le
  simp only [List.length_cons, Scopes.names, abs, List.length_map] at hle
  omega

/-- **A run** over fewer than 2^10 names is the run on the bindings, exits
included. -/
theorem wp_run {D : List Cstr} (hD : D.length < 2 ^ 10) (hk : ∀ x ∈ keywordNames, x ∈ D) :
    ∀ {ops : List Op} {s : State}, Inv s → (∀ op ∈ ops, op.Named) →
      (∀ x ∈ (abs s).names, x ∈ D) → (∀ op ∈ ops, ∀ x ∈ op.name?, x ∈ D) →
      wp (run ops) s (fun _ t => Inv t ∧ applyAll ops (abs s) = .ok (abs t))
        (fun e => applyAll ops (abs s) = .error e)
  | [], s, hi, _, _, _ => ⟨hi, rfl⟩
  | op :: ops, s, hi, hn, hs, ho => by
    unfold run applyAll
    rw [wp_bind]
    refine wp_mono (wp_exec hi (hn op (List.mem_cons_self ..))) ?_ ?_
    · rintro r t ⟨hit, hok, _⟩
      rw [hok]
      have ht : ∀ x ∈ (abs t).names, x ∈ D := fun x hx => by
        rcases Op.names_apply hok hx with hx | hx | hx
        · exact hs x hx
        · exact ho op (List.mem_cons_self ..) x hx
        · exact hk x hx
      simp only [wp_bind, wp_pure]
      exact wp_run hD hk hit (fun o h => hn o (List.mem_cons_of_mem _ h)) ht
        fun o h => ho o (List.mem_cons_of_mem _ h)
    · rintro e (he | hf)
      · rw [he]
      · exact (hf.absurd hi hD hs (ho op (List.mem_cons_self ..))).elim

end Dp4c.Symtable
