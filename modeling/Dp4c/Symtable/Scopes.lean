import Dp4c.Symtable.Table

/-! # What the symbol table is for

A list of names, each with the symbols declared for it in three namespaces,
innermost first, and the level of the open scope. The hash table of
symtable.c implements this (`Refinement`); the passes that only declare and
look up names are modelled over it. -/
namespace Dp4c.Symtable

/-- The namespaces of an entry. -/
inductive Space where
  | kw | type | ident
deriving DecidableEq, Repr

/-- A name and the symbols declared for it. -/
structure Bindings where
  name : Cstr
  idKw : List Symbol := []
  idType : List Symbol := []
  idIdent : List Symbol := []
deriving DecidableEq

def Bindings.chain (b : Bindings) : Space → List Symbol
  | .kw => b.idKw
  | .type => b.idType
  | .ident => b.idIdent

@[ext] theorem Bindings.ext {a b : Bindings} (hn : a.name = b.name)
    (h : ∀ ns, a.chain ns = b.chain ns) : a = b := by
  cases a; cases b
  have hk := h .kw; have ht := h .type; have hi := h .ident
  simp_all [Bindings.chain]

/-- Replaces one of the three chains. -/
def Bindings.withChain (b : Bindings) (ns : Space) (l : List Symbol) : Bindings :=
  match ns with
  | .kw => { b with idKw := l }
  | .type => { b with idType := l }
  | .ident => { b with idIdent := l }

@[simp] theorem Bindings.withChain_name (b : Bindings) (ns : Space) (l : List Symbol) :
    (b.withChain ns l).name = b.name := by cases ns <;> rfl

@[simp] theorem Bindings.chain_withChain (b : Bindings) (ns ns' : Space) (l : List Symbol) :
    (b.withChain ns l).chain ns' = if ns = ns' then l else b.chain ns' := by
  cases ns <;> cases ns' <;> rfl

structure Scopes where
  entries : List Bindings := []
  scopeLevel : Nat := 0
deriving DecidableEq

namespace Scopes

/-- The bindings of a name; a name without an entry has none. -/
def lookupIn (name : Cstr) : List Bindings → Bindings
  | [] => { name := name }
  | b :: rest => if b.name = name then b else lookupIn name rest

def lookup (t : Scopes) (name : Cstr) : Bindings := lookupIn name t.entries

/-- Gives a name its entry, as looking it up does. -/
def enter (t : Scopes) (name : Cstr) : Scopes :=
  if name ∈ t.entries.map (·.name) then t
  else { t with entries := t.entries ++ [{ name := name }] }

/-- Changes the bindings of one name. -/
def updateName (t : Scopes) (name : Cstr) (f : Bindings → Bindings) : Scopes :=
  { t with entries := t.entries.map fun b => if b.name = name then f b else b }

/-- Puts a symbol in front of one chain of a name. -/
def bind (t : Scopes) (ns : Space) (name : Cstr) (symbol : Symbol) : Scopes :=
  (t.enter name).updateName name fun b => b.withChain ns (symbol :: b.chain ns)

def newType (t : Scopes) (name : Cstr) (ast : Option Nat) : Scopes :=
  t.bind .type name
    { identKind := .type, name := name, scopeLevel := t.scopeLevel, ast := ast }

def newIdent (t : Scopes) (name : Cstr) (ast : Option Nat) : Scopes :=
  t.bind .ident name
    { identKind := .ident, name := name, scopeLevel := t.scopeLevel, ast := ast }

def addKeyword (t : Scopes) (name : Cstr) (tokenKlass : TokenClass) : Except Exit Scopes :=
  if (t.lookup name).idKw = [] then
    .ok (t.bind .kw name { identKind := .keyword, name := name, scopeLevel := t.scopeLevel,
                           tokenKlass := tokenKlass })
  else .error (.assertion "symbol->id_kw == 0")

def pushScope (t : Scopes) : Scopes := { t with scopeLevel := t.scopeLevel + 1 }

def popBindings (scopeLevel : Nat) (b : Bindings) : Except Exit Bindings := do
  let idKw ← scopeDeleteSymbol scopeLevel b.idKw
  let idType ← scopeDeleteSymbol scopeLevel b.idType
  let idIdent ← scopeDeleteSymbol scopeLevel b.idIdent
  return { b with idKw := idKw, idType := idType, idIdent := idIdent }

def popAll (scopeLevel : Nat) : List Bindings → Except Exit (List Bindings)
  | [] => .ok []
  | b :: rest => do
    let b ← popBindings scopeLevel b
    let rest ← popAll scopeLevel rest
    return b :: rest

def popScope (t : Scopes) : Except Exit Scopes :=
  if t.scopeLevel > 0 then do
    let entries ← popAll t.scopeLevel t.entries
    return { entries := entries, scopeLevel := t.scopeLevel - 1 }
  else .error (.assertion "scope_level > 0")

/-- The answer of `name_is_declared`, for the two kinds the passes ask for. -/
def declared (t : Scopes) (ns : Space) (name : Cstr) : Bool :=
  declaredAt t.scopeLevel ((t.lookup name).chain ns)

def addKeywords (t : Scopes) : List (String × TokenClass) → Except Exit Scopes
  | [] => .ok t
  | (name, tokenKlass) :: rest => do
    let t ← t.addKeyword (Cstr.ofString name) tokenKlass
    t.addKeywords rest

/-- The table `symtable_init` builds. -/
def init : Except Exit Scopes := addKeywords {} keywords

/-! ## One name of the table -/

/-- Each name has one entry. -/
def Wf (t : Scopes) : Prop := (t.entries.map (·.name)).Nodup

theorem lookupIn_of_mem : ∀ {l : List Bindings}, (l.map (·.name)).Nodup →
    ∀ {b : Bindings}, b ∈ l → lookupIn b.name l = b
  | a :: l, hnd, b, hb => by
    simp only [List.map_cons, List.nodup_cons, List.mem_map, not_exists, not_and] at hnd
    rcases List.mem_cons.mp hb with rfl | hb
    · simp [lookupIn]
    · have hne : a.name ≠ b.name := fun e => hnd.1 b hb e.symm
      simpa [lookupIn, hne] using lookupIn_of_mem hnd.2 hb

theorem lookupIn_of_notMem {name : Cstr} : ∀ {l : List Bindings}, name ∉ l.map (·.name) →
    lookupIn name l = { name := name }
  | [], _ => rfl
  | a :: l, h => by
    simp only [List.map_cons, List.mem_cons, not_or] at h
    simpa [lookupIn, Ne.symm h.1] using lookupIn_of_notMem h.2

theorem lookupIn_append_new (name name' : Cstr) : ∀ l : List Bindings,
    lookupIn name' (l ++ [{ name := name }]) = lookupIn name' l
  | [] => by by_cases h : name = name' <;> simp [lookupIn, h]
  | b :: l => by simp [lookupIn, lookupIn_append_new name name' l]

theorem lookupIn_map {name : Cstr} {f : Bindings → Bindings} (hf : ∀ b, (f b).name = b.name)
    (name' : Cstr) : ∀ {l : List Bindings}, name ∈ l.map (·.name) →
    lookupIn name' (l.map fun b => if b.name = name then f b else b) =
      if name = name' then f (lookupIn name l) else lookupIn name' l
  | a :: l, hm => by
    simp only [List.map_cons, lookupIn]
    by_cases ha : a.name = name
    · by_cases hn : name = name'
      · simp [ha, hf, hn]
      · -- the changed entry is not the one looked up; whether the name occurs again is open
        have hrest : lookupIn name' (l.map fun b => if b.name = name then f b else b) =
            lookupIn name' l := by
          clear hm
          induction l with
          | nil => rfl
          | cons c l ih =>
            by_cases hc : c.name = name
            · simpa [lookupIn, hc, hf, hn] using ih
            · simp only [List.map_cons, if_neg hc, lookupIn, ih]
        simp [ha, hf, hn, hrest]
    · have hm' : name ∈ l.map (·.name) := by
        rcases List.mem_cons.mp hm with h | h
        · exact absurd h.symm ha
        · exact h
      have ih := lookupIn_map hf name' hm'
      by_cases hn : a.name = name'
      · have hne : name ≠ name' := fun e => ha (hn.trans e.symm)
        simp only [if_neg ha, if_pos hn, if_neg hne]
      · simp [ha, hn, ih]

@[simp] theorem enter_scopeLevel (t : Scopes) (name : Cstr) :
    (t.enter name).scopeLevel = t.scopeLevel := by
  unfold enter; split <;> rfl

@[simp] theorem lookup_enter (t : Scopes) (name name' : Cstr) :
    (t.enter name).lookup name' = t.lookup name' := by
  unfold enter
  split
  · rfl
  · exact lookupIn_append_new name name' t.entries

theorem wf_enter {t : Scopes} (ht : t.Wf) (name : Cstr) : (t.enter name).Wf := by
  unfold enter
  split
  · exact ht
  · rename_i h
    unfold Wf at ht ⊢
    rw [List.map_append, List.nodup_append]
    refine ⟨ht, by simp, fun a ha b hb hab => h ?_⟩
    simp only [List.map_cons, List.map_nil, List.mem_singleton] at hb
    exact hb ▸ hab ▸ ha

theorem mem_enter (t : Scopes) (name : Cstr) : name ∈ (t.enter name).entries.map (·.name) := by
  unfold enter
  split
  · assumption
  · simp

theorem map_name_updateName {t : Scopes} {name : Cstr} {f : Bindings → Bindings}
    (hf : ∀ b, (f b).name = b.name) :
    (t.updateName name f).entries.map (·.name) = t.entries.map (·.name) := by
  simp only [updateName, List.map_map]
  apply List.map_congr_left
  intro b _
  simp only [Function.comp]
  split
  · exact hf b
  · rfl

theorem lookup_updateName {t : Scopes} {name : Cstr} {f : Bindings → Bindings}
    (hf : ∀ b, (f b).name = b.name) (hm : name ∈ t.entries.map (·.name)) (name' : Cstr) :
    (t.updateName name f).lookup name' =
      if name = name' then f (t.lookup name) else t.lookup name' :=
  lookupIn_map hf name' hm

theorem lookup_bind (t : Scopes) (ns : Space) (name : Cstr) (symbol : Symbol) (name' : Cstr) :
    (t.bind ns name symbol).lookup name' =
      if name = name' then (t.lookup name).withChain ns (symbol :: (t.lookup name).chain ns)
      else t.lookup name' := by
  unfold bind
  rw [lookup_updateName (by simp) (mem_enter t name)]
  simp

/-- Binding a symbol changes one chain of one name. -/
theorem chain_bind (t : Scopes) (ns : Space) (name : Cstr) (symbol : Symbol) (ns' : Space)
    (name' : Cstr) : ((t.bind ns name symbol).lookup name').chain ns' =
      if name = name' ∧ ns = ns' then symbol :: (t.lookup name').chain ns'
      else (t.lookup name').chain ns' := by
  rw [lookup_bind]
  by_cases hn : name = name'
  · subst hn
    by_cases hs : ns = ns'
    · subst hs; simp
    · simp [hs]
  · simp [hn]

theorem wf_bind {t : Scopes} (ht : t.Wf) (ns : Space) (name : Cstr) (symbol : Symbol) :
    (t.bind ns name symbol).Wf := by
  unfold Wf bind
  rw [map_name_updateName (by simp)]
  exact wf_enter ht name

@[simp] theorem bind_scopeLevel (t : Scopes) (ns : Space) (name : Cstr) (symbol : Symbol) :
    (t.bind ns name symbol).scopeLevel = t.scopeLevel := by
  simp [bind, updateName]

end Scopes

end Dp4c.Symtable
