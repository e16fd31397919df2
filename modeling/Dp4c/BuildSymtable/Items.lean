import Dp4c.Symtable.Nesting

/-! # Scopes and what is declared in them

To the symbol table a program is a tree of scopes. `Item.run` is what its declarations do to
the bindings. The rest of the file says what comes of a list of items without running it:
a name stays declared in its scope as long as each scope that is closed later on, at any
depth, declares the name itself. -/
namespace Dp4c.BuildSymtable

open Dp4c.Symtable

inductive Item where
  /-- A declaration that must be the first of its name in the scope. -/
  | declare (ns : Space) (name : Cstr) (ast lineNr : Nat)
  /-- A prototype, which is declared in any case. -/
  | proto (name : Cstr) (ast : Nat)
  /-- A node that the pass has no case for. -/
  | unlisted
  | scope (items : List Item)

/-- The kind of the symbols in a namespace. -/
def kindIn : Space → SymbolKind
  | .kw => .keyword
  | .type => .type
  | .ident => .ident

/-- What `error` prints for a name that is declared twice. -/
def redeclaredExit (name : Cstr) (lineNr : Nat) : Exit :=
  .error "at line %d: name `%s` redeclared." lineNr name.bytes

mutual

def Item.run : Item → Scopes → Except Exit Scopes
  | .declare ns name ast lineNr, t =>
    if t.declared ns name then .error (redeclaredExit name lineNr)
    else .ok (t.bind ns name
      { identKind := kindIn ns, name := name, scopeLevel := t.scopeLevel, ast := some ast })
  | .proto name ast, t => .ok (t.newIdent name (some ast))
  | .unlisted, _ => .error (.assertion "0")
  | .scope items, t => do
    let t ← runAll items t.pushScope
    t.popScope

def runAll : List Item → Scopes → Except Exit Scopes
  | [], t => .ok t
  | item :: items, t => do
    let t ← item.run t
    runAll items t

end

/-! ## Names that stay declared -/

/-- The item itself declares the name. -/
def Item.declares (ns : Space) (name : Cstr) : Item → Bool
  | .declare ns' name' _ _ => ns' = ns && name' = name
  | .proto name' _ => ns = .ident && name' = name
  | .unlisted | .scope _ => false

mutual

/-- A name declared in front of the item is still declared behind it. -/
def Item.keeps (ns : Space) (name : Cstr) : Item → Bool
  | .scope items => items.any (Item.declares ns name) && keepsAll ns name items
  | .declare .. | .proto .. | .unlisted => true

def keepsAll (ns : Space) (name : Cstr) : List Item → Bool
  | [] => true
  | item :: items => item.keeps ns name && keepsAll ns name items

end

/-- How many symbols of the name these items of a scope leave in the table: what a declaration
puts there stays as long as what follows keeps it. -/
def held (ns : Space) (name : Cstr) : List Item → Nat
  | [] => 0
  | item :: items =>
    held ns name items + if item.declares ns name && keepsAll ns name items then 1 else 0

/-- What can come in the way of the pass. -/
inductive Trouble where
  | redeclared (name : Cstr) (lineNr : Nat)
  | unlisted
  /-- A scope inside of another is closed with several symbols of one name. -/
  | overloaded
deriving DecidableEq

/-- The item declares a name of which the scope has several symbols. -/
def Item.overloads (count : Space → Cstr → List Item → Nat) (items : List Item) : Item → Bool
  | .declare ns name _ _ => 1 < count ns name items
  | .proto name _ => 1 < count .ident name items
  | .unlisted | .scope _ => false

mutual

/-- The first trouble with an item, given those before it in its scope and how many symbols of a
name such items leave. -/
def Item.troubleBy (count : Space → Cstr → List Item → Nat) (before : List Item) :
    Item → Option Trouble
  | .declare ns name _ lineNr =>
    if 0 < count ns name before then some (.redeclared name lineNr) else none
  | .proto .. => none
  | .unlisted => some .unlisted
  | .scope items => (troubleInBy count [] items).or
      (if items.any (Item.overloads count items) then some .overloaded else none)

def troubleInBy (count : Space → Cstr → List Item → Nat) (before : List Item) :
    List Item → Option Trouble
  | [] => none
  | item :: items =>
    (item.troubleBy count before).or (troubleInBy count (before ++ [item]) items)

end

/-- The first trouble of the pass, which forgets names. -/
def troubleIn (before items : List Item) : Option Trouble := troubleInBy held before items

/-- How many of the items declare the name. -/
def declarations (ns : Space) (name : Cstr) (items : List Item) : Nat :=
  items.countP (Item.declares ns name)

/-- The first trouble of a pass that forgets nothing. -/
def clashIn (before items : List Item) : Option Trouble := troubleInBy declarations before items

variable {ns : Space} {name : Cstr} {items : List Item}

theorem keepsAll_append (l r : List Item) :
    keepsAll ns name (l ++ r) = (keepsAll ns name l && keepsAll ns name r) := by
  induction l with
  | nil => rfl
  | cons item l ih => rw [List.cons_append, keepsAll, ih, keepsAll, Bool.and_assoc]

theorem keepsAll_concat (items : List Item) (item : Item) :
    keepsAll ns name (items ++ [item]) = (keepsAll ns name items && item.keeps ns name) := by
  rw [keepsAll_append, keepsAll, keepsAll, Bool.and_true]

theorem held_concat (items : List Item) (item : Item) :
    held ns name (items ++ [item]) = (if item.keeps ns name then held ns name items else 0) +
      if item.declares ns name then 1 else 0 := by
  induction items with
  | nil => simp [held, keepsAll]
  | cons first items ih =>
    rw [List.cons_append, held, ih, keepsAll_concat, held]
    cases item.keeps ns name with
    | false => simp
    | true => rw [if_pos rfl, if_pos rfl, Bool.and_true]; omega

/-- Where nothing is forgotten, what was declared is held. -/
theorem held_of_keepsAll (h : keepsAll ns name items = true) :
    held ns name items = declarations ns name items := by
  induction items with
  | nil => rfl
  | cons item items ih =>
    rw [keepsAll, Bool.and_eq_true] at h
    rw [held, ih h.2, h.2, Bool.and_true, declarations, declarations, List.countP_cons]

/-- What is held was declared. -/
theorem held_le : ∀ items : List Item, held ns name items ≤ declarations ns name items
  | [] => Nat.le_refl 0
  | item :: items => by
    have := held_le items
    rw [held, declarations, List.countP_cons]
    unfold declarations at this
    cases item.declares ns name <;> cases keepsAll ns name items <;> simp <;> omega

theorem any_declares_iff : items.any (Item.declares ns name) = true ↔
    0 < declarations ns name items := by
  rw [declarations, List.countP_pos_iff, List.any_eq_true]

theorem keeps_scope (items : List Item) : Item.keeps ns name (.scope items) =
    (decide (0 < held ns name items) && keepsAll ns name items) := by
  rw [Item.keeps]
  cases h : keepsAll ns name items with
  | false => rw [Bool.and_false, Bool.and_false]
  | true => rw [held_of_keepsAll h, Bool.and_true, Bool.and_true, Bool.eq_iff_iff,
      any_declares_iff, decide_eq_true_iff]

/-- A scope without an overloaded name has one symbol of each name at most. -/
theorem held_le_one (h : items.any (Item.overloads held items) = false) (ns : Space) (name : Cstr) :
    held ns name items ≤ 1 := by
  by_contra hmore
  have hpos : 0 < held ns name items := by omega
  obtain ⟨item, hitem, hdeclares⟩ :=
    List.any_eq_true.mp (any_declares_iff.mpr (Nat.lt_of_lt_of_le hpos (held_le items)))
  refine Bool.false_ne_true (h.symm.trans (List.any_eq_true.mpr ⟨item, hitem, ?_⟩))
  cases item with
  | declare ns' name' ast lineNr =>
    obtain ⟨rfl, rfl⟩ := of_decide_eq_true ((Bool.decide_and ..).trans hdeclares)
    exact decide_eq_true (Nat.lt_of_not_le hmore)
  | proto name' ast =>
    obtain ⟨rfl, rfl⟩ := of_decide_eq_true ((Bool.decide_and ..).trans hdeclares)
    exact decide_eq_true (Nat.lt_of_not_le hmore)
  | unlisted => cases hdeclares
  | scope inner => cases hdeclares

/-! ## False alarms -/

/-- A name that is overloaded in what is held is overloaded. -/
theorem overloads_of_held {item : Item} (h : item.overloads held items = true) :
    item.overloads declarations items = true := by
  cases item with
  | declare ns name ast lineNr =>
    exact decide_eq_true (Nat.lt_of_lt_of_le (of_decide_eq_true h) (held_le items))
  | proto name ast =>
    exact decide_eq_true (Nat.lt_of_lt_of_le (of_decide_eq_true h) (held_le items))
  | unlisted => cases h
  | scope inner => cases h

mutual

theorem Item.fine_of_clash : ∀ (item : Item) {before : List Item},
    item.troubleBy declarations before = none → item.troubleBy held before = none
  | .declare ns name ast lineNr, before, h => by
    rw [Item.troubleBy] at h ⊢
    have hnone : ¬ 0 < declarations ns name before := fun hpos => by rw [if_pos hpos] at h; cases h
    exact if_neg fun hpos => hnone (Nat.lt_of_lt_of_le hpos (held_le before))
  | .proto name ast, before, h => h
  | .unlisted, before, h => h
  | .scope items, before, h => by
    rw [Item.troubleBy, Option.or_eq_none_iff] at h ⊢
    refine ⟨fine_of_clash items h.1, if_neg fun hany => ?_⟩
    obtain ⟨item, hitem, hover⟩ := List.any_eq_true.mp hany
    rw [if_pos (List.any_eq_true.mpr ⟨item, hitem, overloads_of_held hover⟩)] at h
    cases h.2

/-- **No false alarms**: items without a clash give no trouble. -/
theorem fine_of_clash : ∀ (items : List Item) {before : List Item},
    clashIn before items = none → troubleIn before items = none
  | [], before, h => h
  | item :: items, before, h => by
    rw [clashIn, troubleInBy, Option.or_eq_none_iff] at h
    rw [troubleIn, troubleInBy, item.fine_of_clash h.1]
    exact fine_of_clash items h.2

end

/-! ## Names declared twice -/

mutual

/-- A declaration in the item has a name that an earlier item of its scope declares. A prototype
does not count as such a declaration. -/
def Item.clashes (before : List Item) : Item → Bool
  | .declare ns name _ _ => 0 < declarations ns name before
  | .proto .. | .unlisted => false
  | .scope items => clashesIn [] items

def clashesIn (before : List Item) : List Item → Bool
  | [] => false
  | item :: items => item.clashes before || clashesIn (before ++ [item]) items

end

mutual

/-- The pass has a case for each node in the item. -/
def Item.listed : Item → Bool
  | .unlisted => false
  | .declare .. | .proto .. => true
  | .scope items => allListed items

def allListed : List Item → Bool
  | [] => true
  | item :: items => item.listed && allListed items

end

mutual

/-- A name that is reported is declared twice. -/
theorem Item.clashes_of_redeclared {n : Cstr} {line : Nat} : ∀ (item : Item) {before : List Item},
    item.troubleBy held before = some (.redeclared n line) → item.clashes before = true
  | .declare ns name ast lineNr, before, h => by
    rw [Item.troubleBy] at h
    rw [Item.clashes]
    split at h
    · rename_i hheld
      exact decide_eq_true (Nat.lt_of_lt_of_le hheld (held_le before))
    · cases h
  | .proto name ast, before, h => by cases h
  | .unlisted, before, h => by cases h
  | .scope items, before, h => by
    rw [Item.troubleBy, Option.or_eq_some_iff] at h
    rw [Item.clashes]
    rcases h with h | ⟨-, h⟩
    · exact clashesIn_of_redeclared items h
    · split at h <;> cases h

theorem clashesIn_of_redeclared {n : Cstr} {line : Nat} : ∀ (items : List Item)
    {before : List Item}, troubleIn before items = some (.redeclared n line) →
      clashesIn before items = true
  | [], before, h => by cases h
  | item :: items, before, h => by
    rw [troubleIn, troubleInBy, Option.or_eq_some_iff] at h
    rw [clashesIn, Bool.or_eq_true]
    rcases h with h | ⟨-, h⟩
    · exact .inl (item.clashes_of_redeclared h)
    · exact .inr (clashesIn_of_redeclared items h)

end

mutual

theorem Item.not_unlisted : ∀ (item : Item) {before : List Item}, item.listed = true →
    item.troubleBy held before ≠ some .unlisted
  | .declare ns name ast lineNr, before, _ => by
    rw [Item.troubleBy]
    split <;> exact fun h => by cases h
  | .proto name ast, before, _ => fun h => by cases h
  | .unlisted, before, h => by cases h
  | .scope items, before, h => by
    rw [Item.listed] at h
    rw [Item.troubleBy, ne_eq, Option.or_eq_some_iff]
    rintro (hinner | ⟨-, hclose⟩)
    · exact not_unlisted items h hinner
    · split at hclose <;> cases hclose

/-- Where each node has a case, no node without one is in the way. -/
theorem not_unlisted : ∀ (items : List Item) {before : List Item}, allListed items = true →
    troubleIn before items ≠ some .unlisted
  | [], before, _ => fun h => by cases h
  | item :: items, before, h => by
    rw [allListed, Bool.and_eq_true] at h
    rw [troubleIn, troubleInBy, ne_eq, Option.or_eq_some_iff]
    rintro (hitem | ⟨-, hitems⟩)
    · exact item.not_unlisted h.1 hitem
    · exact not_unlisted items h.2 hitems

end

/-! ## The levels of a name -/

/-- The levels at which a name is declared, the innermost first. -/
def levels (t : Scopes) (ns : Space) (name : Cstr) : List Nat :=
  ((t.lookup name).chain ns).map (·.scopeLevel)

/-- The open scope is at level `n` and has had these items; outside of it the names were
declared at the levels `outer`. -/
structure Within (t : Scopes) (n : Nat) (before : List Item) (outer : Space → Cstr → List Nat) :
    Prop where
  wf : t.Wf
  level : t.scopeLevel = n
  levels_eq : ∀ ns name, levels t ns name = List.replicate (held ns name before) n ++
    if keepsAll ns name before then outer ns name else []
  below : ∀ ns name, ∀ l ∈ outer ns name, l < n

variable {t u : Scopes} {n : Nat} {before : List Item} {outer : Space → Cstr → List Nat}

theorem Within.below_next (h : Within t n before outer) (ns : Space) (name : Cstr) :
    ∀ l ∈ levels t ns name, l < n + 1 := by
  intro l hl
  rw [h.levels_eq, List.mem_append] at hl
  rcases hl with hl | hl
  · rw [List.eq_of_mem_replicate hl]
    exact Nat.lt_succ_self n
  · split at hl
    · exact Nat.lt_succ_of_lt (h.below ns name l hl)
    · cases hl

/-- A name is declared in the open scope when it is held there. -/
theorem Within.declared_iff (h : Within t n before outer) (ns : Space) (name : Cstr) :
    t.declared ns name = true ↔ 0 < held ns name before := by
  have hlevels := h.levels_eq ns name
  unfold levels at hlevels
  unfold Scopes.declared
  rw [h.level]
  cases hc : (t.lookup name).chain ns with
  | nil =>
    rw [hc] at hlevels
    cases hheld : held ns name before with
    | zero => exact iff_of_false Bool.false_ne_true (Nat.lt_irrefl 0)
    | succ k => rw [hheld, List.replicate_succ] at hlevels; cases hlevels
  | cons symbol rest =>
    rw [hc] at hlevels
    show decide (symbol.scopeLevel ≥ n) = true ↔ _
    rw [decide_eq_true_iff]
    cases hheld : held ns name before with
    | succ k =>
      rw [hheld, List.replicate_succ] at hlevels
      exact iff_of_true (Nat.le_of_eq (List.cons.inj hlevels).1.symm) (Nat.succ_pos k)
    | zero =>
      rw [hheld, List.replicate_zero, List.nil_append] at hlevels
      have hmem : symbol.scopeLevel ∈ outer ns name := by
        split at hlevels
        · exact hlevels ▸ List.mem_cons_self ..
        · cases hlevels
      have := h.below ns name _ hmem
      exact iff_of_false (by omega) (Nat.lt_irrefl 0)

/-- A declaration in the scope. -/
theorem Within.bind (h : Within t n before outer) {ns : Space} {name : Cstr} {symbol : Symbol}
    {item : Item} (hsymbol : symbol.scopeLevel = n)
    (hdeclares : ∀ ns' name', item.declares ns' name' = decide (ns = ns' ∧ name = name'))
    (hkeeps : ∀ ns' name', item.keeps ns' name' = true) :
    Within (t.bind ns name symbol) n (before ++ [item]) outer := by
  refine ⟨Scopes.wf_bind h.wf .., (t.bind_scopeLevel ..).trans h.level, ?_, h.below⟩
  intro ns' name'
  rw [held_concat, keepsAll_concat, hkeeps, hdeclares, Bool.and_true, if_pos rfl]
  have hlevels : ((t.lookup name').chain ns').map (·.scopeLevel) = _ := h.levels_eq ns' name'
  unfold levels
  rw [Scopes.chain_bind]
  split
  · rename_i hsame
    obtain ⟨rfl, rfl⟩ := hsame
    rw [List.map_cons, hsymbol, hlevels, decide_eq_true ⟨rfl, rfl⟩, if_pos rfl,
      List.replicate_succ, List.cons_append]
  · rename_i hother
    rw [hlevels, decide_eq_false fun e => hother ⟨e.2, e.1⟩]
    rfl

theorem Within.pushScope (h : Within t n before outer) :
    Within t.pushScope (n + 1) [] (levels t) := by
  refine ⟨h.wf, congrArg (· + 1) h.level, fun ns name => ?_, h.below_next⟩
  rw [held, keepsAll]
  rfl

/-- What is left of a chain when a scope with `own` symbols in it is closed. -/
def closed (n own : Nat) (outer : List Nat) : List Nat :=
  if own = 0 then [] else List.replicate (own - 1) (n + 1) ++ outer

theorem closed_nil (n own : Nat) : closed n own [] = List.replicate (own - 1) (n + 1) := by
  cases own with
  | zero => rfl
  | succ own => exact List.append_nil _

/-- What closing a scope makes of one chain. -/
theorem scopeDelete_levels {n own : Nat} {chain : List Symbol} {outer : List Nat}
    (hlevels : chain.map (·.scopeLevel) = List.replicate own (n + 1) ++ outer)
    (hbelow : ∀ l ∈ outer, l < n + 1) :
    ∃ rest, scopeDeleteSymbol (n + 1) chain = .ok rest ∧
      rest.map (·.scopeLevel) = closed n own outer := by
  cases own with
  | succ own =>
    rw [List.replicate_succ] at hlevels
    cases chain with
    | nil => cases hlevels
    | cons symbol rest =>
      obtain ⟨hsymbol, hrest⟩ := List.cons.inj hlevels
      refine ⟨rest, scopeDeleteSymbol_cons (Nat.le_of_eq hsymbol.symm) (Nat.succ_pos n) ?_, hrest⟩
      intro next hnext
      have hmem : next.scopeLevel ∈ rest.map (·.scopeLevel) :=
        List.mem_map_of_mem (List.mem_of_mem_head? hnext)
      rw [hrest] at hmem
      rcases List.mem_append.mp hmem with hown | houter
      · exact Nat.le_of_eq (List.eq_of_mem_replicate hown)
      · exact Nat.le_of_lt (hbelow _ houter)
  | zero =>
    refine ⟨[], scopeDeleteSymbol_of_outer (Nat.succ_pos n) fun symbol hsymbol => ?_, rfl⟩
    have hmem : symbol.scopeLevel ∈ chain.map (·.scopeLevel) :=
      List.mem_map_of_mem (List.mem_of_mem_head? hsymbol)
    rw [hlevels] at hmem
    exact hbelow _ hmem

/-- The innermost scope is closed: what was declared outside stays where the scope declares it
as well and forgets nothing. -/
theorem Within.close (h : Within u (n + 1) before outer) :
    ∃ v, u.popScope = .ok v ∧ v.Wf ∧ v.scopeLevel = n ∧ ∀ ns name, levels v ns name =
      closed n (held ns name before) (if keepsAll ns name before then outer ns name else []) := by
  have hchain (ns : Space) (name : Cstr) := scopeDelete_levels (h.levels_eq ns name) (by
    intro l hl
    split at hl
    · exact h.below ns name l hl
    · cases hl)
  obtain ⟨v, hv⟩ := Scopes.popScope_of_chains h.wf (h.level ▸ Nat.succ_pos n) fun name ns => by
    obtain ⟨rest, hrest, _⟩ := hchain ns name
    exact ⟨rest, h.level ▸ hrest⟩
  have hpop := Scopes.popScope_ok hv
  refine ⟨v, hv, ?_, ?_, fun ns name => ?_⟩
  · have hnodup := h.wf
    unfold Scopes.Wf at hnodup ⊢
    rwa [Scopes.names_popAll hpop.2.1]
  · rw [hpop.2.2, h.level]
    rfl
  · obtain ⟨rest, hrest, hlevels⟩ := hchain ns name
    have hv' := Scopes.chain_popScope hv name ns
    rw [h.level, hrest] at hv'
    unfold levels
    rw [← Except.ok.inj hv', hlevels]

/-- The scope is closed behind its items, with one symbol of each name at most. -/
theorem Within.popScope {inner : List Item} (h : Within t n before outer)
    (hu : Within u (n + 1) inner (levels t)) (hone : ∀ ns name, held ns name inner ≤ 1) :
    ∃ v, u.popScope = .ok v ∧ Within v n (before ++ [.scope inner]) outer := by
  obtain ⟨v, hv, hwf, hlevel, hlevels⟩ := hu.close
  refine ⟨v, hv, ⟨hwf, hlevel, fun ns name => ?_, h.below⟩⟩
  rw [held_concat, keepsAll_concat, keeps_scope, Item.declares, hlevels, h.levels_eq]
  have := hone ns name
  obtain hnone | hheld : held ns name inner = 0 ∨ held ns name inner = 1 := by omega
  · rw [hnone]
    simp [closed]
  · rw [hheld]
    cases keepsAll ns name inner <;> simp [closed]

/-! ## Exits -/

/-- How the pass can end the process. -/
inductive PassExit : Exit → Prop
  | redeclared (name : Cstr) (lineNr : Nat) : PassExit (redeclaredExit name lineNr)
  | unlisted : PassExit (.assertion "0")
  /-- Symbols were left over by a scope that had several of one name. -/
  | overloaded : PassExit nextInScopeExit

theorem except_bind_error {ε α β : Type} {x : Except ε α} {f : α → Except ε β} {e : ε}
    (h : (x >>= f) = .error e) : x = .error e ∨ ∃ a, x = .ok a ∧ f a = .error e := by
  cases x with
  | error e' => exact .inl (congrArg Except.error (Except.error.inj h))
  | ok a => exact .inr ⟨a, rfl, h⟩

theorem popBindings_exit {level : Nat} {b : Bindings} {e : Exit}
    (h : Scopes.popBindings level b = .error e) : e = nextInScopeExit := by
  rcases except_bind_error h with h | ⟨idKw, -, h⟩
  · exact scopeDeleteSymbol_error h
  rcases except_bind_error h with h | ⟨idType, -, h⟩
  · exact scopeDeleteSymbol_error h
  rcases except_bind_error h with h | ⟨idIdent, -, h⟩
  · exact scopeDeleteSymbol_error h
  · cases h

theorem popAll_exit {level : Nat} {e : Exit} : ∀ {l : List Bindings},
    Scopes.popAll level l = .error e → e = nextInScopeExit
  | [], h => by cases h
  | b :: l, h => by
    rcases except_bind_error h with h | ⟨b', -, h⟩
    · exact popBindings_exit h
    rcases except_bind_error h with h | ⟨rest, -, h⟩
    · exact popAll_exit h
    · cases h

theorem popScope_exit {e : Exit} (hlevel : t.scopeLevel > 0) (h : t.popScope = .error e) :
    e = nextInScopeExit := by
  unfold Scopes.popScope at h
  rw [if_pos hlevel] at h
  rcases except_bind_error h with h | ⟨entries, -, h⟩
  · exact popAll_exit h
  · cases h

/-- A run leaves the scope open that it found open, or ends in one of the three ways. -/
structure Settles (t : Scopes) (r : Except Exit Scopes) : Prop where
  level : ∀ u, r = .ok u → u.scopeLevel = t.scopeLevel
  exits : ∀ e, r = .error e → PassExit e

theorem Settles.error {e : Exit} (h : PassExit e) : Settles t (.error e) :=
  { level := fun _ hu => by cases hu
    exits := fun _ he => Except.error.inj he ▸ h }

theorem Settles.ok (h : u.scopeLevel = t.scopeLevel) : Settles t (.ok u) :=
  { level := fun _ hu => Except.ok.inj hu ▸ h
    exits := fun _ he => by cases he }

theorem Settles.bind {r : Except Exit Scopes} {f : Scopes → Except Exit Scopes} (h : Settles t r)
    (hf : ∀ u, u.scopeLevel = t.scopeLevel → Settles u (f u)) : Settles t (r >>= f) := by
  cases r with
  | error e => exact .error (h.exits e rfl)
  | ok u =>
    have hu := h.level u rfl
    have hrest := hf u hu
    exact ⟨fun v hv => (hrest.level v hv).trans hu, hrest.exits⟩

mutual

theorem Item.run_settles : ∀ (item : Item) (t : Scopes), Settles t (item.run t)
  | .declare ns name ast lineNr, t => by
    rw [Item.run]
    split
    · exact .error (.redeclared name lineNr)
    · exact .ok (t.bind_scopeLevel ..)
  | .proto name ast, t => .ok (t.bind_scopeLevel ..)
  | .unlisted, t => .error .unlisted
  | .scope items, t => by
    rw [Item.run]
    have hinner := runAll_settles items t.pushScope
    cases hrun : runAll items t.pushScope with
    | error e => exact .error (hinner.exits e hrun)
    | ok u =>
      have hlevel : u.scopeLevel = t.scopeLevel + 1 := hinner.level u hrun
      show Settles t u.popScope
      cases hpop : u.popScope with
      | error e =>
        rw [popScope_exit (by omega) hpop]
        exact .error .overloaded
      | ok v =>
        refine .ok ?_
        rw [(Scopes.popScope_ok hpop).2.2, hlevel]
        rfl

/-- **No other exits**: items end a run in no other way. -/
theorem runAll_settles : ∀ (items : List Item) (t : Scopes), Settles t (runAll items t)
  | [], t => .ok rfl
  | item :: items, t => by
    rw [runAll]
    exact (item.run_settles t).bind fun u _ => runAll_settles items u

end

/-! ## The verdict -/

/-- What comes of items with this trouble. Behind an overloaded scope symbols are left over:
what is then said to be declared twice need not be. -/
def Verdict (outcome : Except Exit Scopes) (Q : Scopes → Prop) : Option Trouble → Prop
  | none => ∃ u, outcome = .ok u ∧ Q u
  | some (.redeclared name lineNr) => outcome = .error (redeclaredExit name lineNr)
  | some .unlisted => outcome = .error (.assertion "0")
  | some .overloaded => ∀ e, outcome = .error e → PassExit e

theorem Verdict.bind {outcome : Except Exit Scopes} {f : Scopes → Except Exit Scopes}
    {P Q : Scopes → Prop} {first second : Option Trouble} (h : Verdict outcome P first)
    (hexits : ∀ e, (outcome >>= f) = .error e → PassExit e)
    (hf : ∀ u, P u → Verdict (f u) Q second) : Verdict (outcome >>= f) Q (first.or second) := by
  cases first with
  | none =>
    obtain ⟨u, rfl, hu⟩ := h
    exact hf u hu
  | some trouble =>
    cases trouble with
    | redeclared name lineNr => rw [show outcome = _ from h]; rfl
    | unlisted => rw [show outcome = _ from h]; rfl
    | overloaded => exact hexits

mutual

theorem Item.run_verdict : ∀ (item : Item) {t : Scopes} {n : Nat} {before : List Item}
    {outer : Space → Cstr → List Nat}, Within t n before outer →
    Verdict (item.run t) (fun u => Within u n (before ++ [item]) outer) (item.troubleBy held before)
  | .declare ns name ast lineNr, t, n, before, outer, h => by
    rw [Item.run, Item.troubleBy]
    by_cases hheld : 0 < held ns name before
    · rw [if_pos hheld, if_pos ((h.declared_iff ns name).mpr hheld)]
      rfl
    · rw [if_neg hheld, if_neg fun hdeclared => hheld ((h.declared_iff ns name).mp hdeclared)]
      exact ⟨_, rfl, h.bind h.level (fun _ _ => (Bool.decide_and ..).symm) fun _ _ => rfl⟩
  | .proto name ast, t, n, before, outer, h => by
    rw [Item.run]
    refine ⟨_, rfl, h.bind h.level (fun ns' name' => ?_) fun _ _ => rfl⟩
    rw [Item.declares, Bool.decide_and, decide_eq_decide.mpr eq_comm]
  | .unlisted, t, n, before, outer, h => rfl
  | .scope items, t, n, before, outer, h => by
    have hexits := (Item.run_settles (.scope items) t).exits
    rw [Item.run] at hexits ⊢
    rw [Item.troubleBy]
    refine (runAll_verdict items h.pushScope).bind hexits fun u hu => ?_
    cases hover : items.any (Item.overloads held items) with
    | false => exact h.popScope hu (held_le_one hover)
    | true =>
      obtain ⟨v, hv, -⟩ := hu.close
      exact fun e he => by cases hv.symm.trans he

/-- **The verdict** over a list of items: the first trouble in it decides. -/
theorem runAll_verdict : ∀ (items : List Item) {t : Scopes} {n : Nat} {before : List Item}
    {outer : Space → Cstr → List Nat}, Within t n before outer →
    Verdict (runAll items t) (fun u => Within u n (before ++ items) outer)
      (troubleIn before items)
  | [], t, n, before, outer, h => ⟨t, rfl, by rwa [List.append_nil]⟩
  | item :: items, t, n, before, outer, h => by
    have hexits := (runAll_settles (item :: items) t).exits
    rw [runAll] at hexits ⊢
    rw [troubleIn, troubleInBy]
    refine (item.run_verdict h).bind hexits fun u hu => ?_
    rw [List.append_cons]
    exact runAll_verdict items hu

end

end Dp4c.BuildSymtable
