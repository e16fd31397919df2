import Dp4c.BuildSymtable.Declarations
import Dp4c.PrintAst

/-! # The pass does what its items do

On a well-typed tree the pass over the hash table is `runAll` of the items of the tree, exits
included: it reads no null pointer and no value of another type. -/
namespace Dp4c.BuildSymtable

open Dp4c.Lib Dp4c.Lib.Prog Dp4c.Symtable
open Dp4c.Parse (Is WellTyped schema required nameSlot)

/-! ## Programs that do what items do -/

mutual

/-- The names an item declares. -/
def Item.names : Item → List Cstr
  | .declare _ name _ _ => [name]
  | .proto name _ => [name]
  | .unlisted => []
  | .scope items => namesIn items

def namesIn : List Item → List Cstr
  | [] => []
  | item :: items => item.names ++ namesIn items

end

/-- All names of the table are from `D`. -/
structure Room (D : List Cstr) (s : State) : Prop where
  inv : Inv s
  names : ∀ x ∈ (abs s).names, x ∈ D

/-- The names can be declared in a table whose names are from `D`. -/
def Fit (D : List Cstr) (names : List Cstr) : Prop := ∀ name ∈ names, name.bytes ≠ [] ∧ name ∈ D

/-- The program does what the items do, exits included. -/
def Does (D : List Cstr) (x : SymM Unit) (items : List Item) : Prop :=
  Fit D (namesIn items) → ∀ s, Room D s →
    wp x s (fun _ t => Room D t ∧ runAll items (abs s) = .ok (abs t))
      fun e => runAll items (abs s) = .error e

variable {D : List Cstr} {s : State} {x y : SymM Unit} {items rest : List Item}

theorem runAll_append : ∀ (l r : List Item) (t : Scopes),
    runAll (l ++ r) t = runAll l t >>= runAll r
  | [], _, _ => rfl
  | item :: l, r, t => by
    rw [List.cons_append, runAll, runAll]
    cases item.run t with
    | error e => rfl
    | ok u => exact runAll_append l r u

theorem runAll_singleton (item : Item) (t : Scopes) : runAll [item] t = item.run t := by
  rw [runAll]
  cases item.run t <;> rfl

theorem namesIn_append (l r : List Item) : namesIn (l ++ r) = namesIn l ++ namesIn r := by
  induction l with
  | nil => rfl
  | cons item l ih => rw [List.cons_append, namesIn, namesIn, ih, List.append_assoc]

namespace Does

theorem nil : Does D (pure ()) [] := fun _ _ hs => ⟨hs, rfl⟩

theorem append (hx : Does D x items) (hy : Does D y rest) :
    Does D (do x; y) (items ++ rest) := by
  intro hfit s hs
  rw [namesIn_append] at hfit
  rw [wp_bind, runAll_append]
  refine wp_mono (hx (fun n h => hfit n (List.mem_append_left _ h)) s hs) ?_ fun e he => ?_
  · rintro - t ⟨ht, hrun⟩
    rw [hrun]
    exact hy (fun n h => hfit n (List.mem_append_right _ h)) t ht
  · rw [he]
    rfl

theorem unlisted : Does D (Prog.exit (.assertion "0")) [.unlisted] := fun _ _ _ => rfl

theorem inScope (hx : Does D x items) : Does D (inScope x) [.scope items] := by
  intro hfit s hs
  rw [namesIn, namesIn, List.append_nil, Item.names] at hfit
  unfold BuildSymtable.inScope
  simp only [runAll_singleton, Item.run, wp_bind]
  refine wp_mono (wp_pushScope hs.inv (E := fun _ => False)) ?_ fun _ he => he.elim
  rintro - t ⟨hit, habs⟩
  rw [← habs]
  have ht : Room D t := ⟨hit, by rw [habs]; exact hs.names⟩
  refine wp_mono (hx hfit t ht) ?_ fun e he => ?_
  · rintro - u ⟨hu, hrun⟩
    rw [hrun]
    refine wp_mono (wp_popScope hu.inv) ?_ fun e he => he
    rintro - v ⟨hiv, hpop⟩
    refine ⟨⟨hiv, fun name hname => ?_⟩, hpop⟩
    rw [Scopes.names, Scopes.names_popAll (Scopes.popScope_ok hpop).2.1] at hname
    exact hu.names name hname
  · rw [he]
    rfl

theorem forLinks {f : Ast → SymM Unit} {g : Ast → List Item} : ∀ {links : List Ast},
    (∀ a ∈ links, Does D (f a) (g a)) → Does D (forLinks f links) (links.flatMap g)
  | [], _ => .nil
  | a :: links, h => by
    rw [List.flatMap_cons]
    exact (h a (List.mem_cons_self ..)).append
      (forLinks fun b hb => h b (List.mem_cons_of_mem _ hb))

end Does

/-! ## Declarations -/

theorem Room.not_full (hs : Room D s) (hD : D.length < 2 ^ 10) {name : Cstr} (hname : name ∈ D)
    (e : Exit) : ¬ Full s name e := by
  intro hfull
  have hfull' : Op.FullAt (.getSymtableEntry name) s e := ⟨name, rfl, hfull⟩
  refine hfull'.absurd hs.inv hD hs.names ?_
  intro x hx
  exact Option.some.inj hx ▸ hname

theorem Room.bind (hs : Room D s) {t : State} {name : Cstr} (hname : name ∈ D) {ns : Space}
    {symbol : Symbol} (ht : Inv t) (habs : abs t = (abs s).bind ns name symbol) : Room D t := by
  refine ⟨ht, fun x hx => ?_⟩
  rw [habs, Scopes.names_bind, Scopes.mem_names_enter] at hx
  exact hx.elim (hs.names x) fun e => e ▸ hname

/-- The bindings once a declaration was made in the open scope. -/
def declareIn (t : Scopes) (ns : Space) (name : Cstr) (ast : Nat) : Scopes :=
  t.bind ns name
    { identKind := kindIn ns, name := name, scopeLevel := t.scopeLevel, ast := some ast }

/-- A name that has its entry already is declared as one that gets it then. -/
theorem declareIn_enter (t : Scopes) (ns : Space) (name : Cstr) (ast : Nat) :
    declareIn (t.enter name) ns name ast = declareIn t ns name ast := by
  unfold declareIn Scopes.bind
  rw [show (t.enter name).enter name = t.enter name from if_pos (t.mem_enter name),
    t.enter_scopeLevel]

/-- A name is looked up and, where it is new in its scope, declared by `new`. -/
theorem Does.declare (hD : D.length < 2 ^ 10) {kind : SymbolKind} {ns : Space}
    (hkind : kind.space = some ns) {name : Ast} {strname : Cstr} {ast : Nat} {new : SymM Symbol}
    (hnew : ∀ s, Symtable.Inv s → wp new s
      (fun _ t => Inv t ∧ abs t = declareIn (abs s) ns strname ast) (Full s strname)) :
    Does D (do
      if ← nameIsDeclared strname kind then redeclared name strname
      else do
        let _ ← new) [.declare ns strname ast name.lineNr] := by
  intro hfit s hs
  obtain ⟨hbytes, hmem⟩ := hfit strname (List.mem_singleton_self _)
  rw [wp_bind, runAll_singleton, Item.run]
  refine wp_mono (wp_nameIsDeclared hs.inv hbytes kind) ?_ ?_
  · rintro - t ⟨hit, habs, ns', hns, rfl⟩
    obtain rfl := Option.some.inj (hkind.symm.trans hns)
    have ht : Room D t := ⟨hit, fun x hx => by
      rw [habs, Scopes.mem_names_enter] at hx
      exact hx.elim (hs.names x) fun e => e ▸ hmem⟩
    cases hdecl : (abs s).declared ns strname with
    | true => rfl
    | false =>
      rw [if_neg Bool.false_ne_true, if_neg Bool.false_ne_true, wp_bind]
      refine wp_mono (hnew t hit) ?_ fun e he => absurd he (ht.not_full hD hmem e)
      rintro - u ⟨hiu, hu⟩
      rw [habs, declareIn_enter] at hu
      exact ⟨hs.bind hmem hiu hu, congrArg Except.ok hu.symm⟩
  · rintro e (hfull | ⟨hnone, -⟩)
    · exact absurd hfull (hs.not_full hD hmem e)
    · rw [hkind] at hnone
      cases hnone

variable {a : Ast}

/-- These declarations have a name. -/
structure HasName (a : Ast) : Prop where
  wellTyped : WellTyped a
  req : AttrName.name ∈ required a.kind
  slot : (schema a.kind).lookup .name = some nameSlot

theorem HasName.nameOf_eq (h : HasName a) : nameOf a = pure (attrAst a .name, declaredName a) :=
  BuildSymtable.nameOf_eq h.wellTyped h.req h.slot

theorem declareType_does (hD : D.length < 2 ^ 10) (h : HasName a) :
    Does D (declareType a) [declareItem .type a] := by
  unfold declareType
  rw [h.nameOf_eq, pure_bind]
  intro hfit
  exact Does.declare hD rfl (fun s hs => wp_newType hs (hfit _ (List.mem_singleton_self _)).1 _)
    hfit

theorem declareIdent_does (hD : D.length < 2 ^ 10) (h : HasName a) :
    Does D (declareIdent a) [declareItem .ident a] := by
  unfold declareIdent
  rw [h.nameOf_eq, pure_bind]
  intro hfit
  exact Does.declare hD rfl (fun s hs => wp_newIdent hs (hfit _ (List.mem_singleton_self _)).1 _)
    hfit

theorem buildSymtableFunctionProto_does (hD : D.length < 2 ^ 10) (h : HasName a) :
    Does D (buildSymtableFunctionProto a) [protoItem a] := by
  intro hfit s hs
  obtain ⟨hbytes, hmem⟩ := hfit _ (List.mem_singleton_self _)
  unfold buildSymtableFunctionProto
  rw [h.nameOf_eq, pure_bind, runAll_singleton]
  refine (wp_bind ..).mpr (wp_mono (wp_newIdent hs.inv hbytes _) ?_ fun e he =>
    absurd he (hs.not_full hD hmem e))
  rintro - t ⟨hit, ht⟩
  exact ⟨hs.bind hmem hit ht, congrArg Except.ok ht.symm⟩

/-! ## Trees -/

/-- The kinds of the nodes that have a name. -/
def named (kind : AstKind) : Bool := (required kind).contains .name && kind != .name

theorem schema_named : ∀ kind, named kind = true → (schema kind).lookup .name = some nameSlot := by
  intro kind h
  cases kind <;> first | rfl | cases h

theorem hasName (h : WellTyped a) (hkind : named a.kind = true) : HasName a :=
  ⟨h, List.contains_iff_mem.mp (Bool.and_eq_true_iff.mp hkind).1, schema_named _ hkind⟩

theorem nodes_child {attr : AttrName} {value : Value Ast} {b : Ast}
    (hv : a.getattr attr = some value) (hb : b ∈ value.children) :
    b.nodes.length < a.nodes.length := by
  cases a with
  | null => cases hv
  | node kind id lineNr attrs =>
    obtain ⟨e, hfind, rfl⟩ := Option.map_eq_some_iff.mp hv
    have he : e ∈ attrs := List.mem_of_find?_eq_some hfind
    rw [Ast.nodes, List.length_cons, attrsNodes_eq, linksNodes_eq, List.flatMap_def]
    refine Nat.lt_succ_of_le (List.Sublist.length_le (List.sublist_flatten_of_mem ?_))
    exact List.mem_map_of_mem (List.mem_flatMap.mpr ⟨e, he, hb⟩)

theorem nodes_attrAst (a : Ast) (attr : AttrName) (hb : attrAst a attr ≠ .null) :
    (attrAst a attr).nodes.length < a.nodes.length := by
  unfold attrAst at hb ⊢
  split
  · rename_i b hv
    exact nodes_child hv (List.mem_singleton_self b)
  · rename_i hv
    split at hb
    · exact absurd ‹_› (hv _)
    · exact absurd rfl hb

theorem nodes_attrList {attr : AttrName} {links : List Ast} {b : Ast}
    (hl : attrList a attr = some links) (hb : b ∈ links) : b.nodes.length < a.nodes.length := by
  unfold attrList at hl
  split at hl
  · rename_i hv
    obtain rfl := Option.some.inj hl
    exact nodes_child hv hb
  · cases hl

theorem Does.ifList {f : List Ast → SymM Unit} {g : List Ast → List Item}
    {links : Option (List Ast)} (h : ∀ l, links = some l → Does D (f l) [.scope (g l)]) :
    Does D (ifList f links) (scopeOver g links) := by
  cases links with
  | none => exact .nil
  | some l => exact h l rfl

theorem buildSymtableLocalControlDeclaration_does (hD : D.length < 2 ^ 10)
    {block : Ast → SymM Unit} (h : WellTyped a) (hnode : a ≠ .null)
    (hblock : a.kind = .blockStmt → Does D (block a) (applyItems a)) :
    Does D (buildSymtableLocalControlDeclaration block a) (localItems a) := by
  obtain _ | ⟨kind, id, lineNr, attrs⟩ := a
  · exact absurd rfl hnode
  unfold buildSymtableLocalControlDeclaration
  rw [kindOf, pure_bind, localItems]
  split
  · rename_i hkind
    refine declareIdent_does hD (hasName h ?_)
    rcases hkind with rfl | rfl | rfl | rfl <;> rfl
  split
  · rename_i hkind
    exact hblock hkind
  split
  · exact .nil
  · exact .unlisted

theorem buildSymtableBlockStatement_does (hD : D.length < 2 ^ 10) : ∀ {fuel : Nat} {a : Ast},
    WellTyped a → a.kind = .blockStmt → a.nodes.length ≤ fuel →
    Does D (buildSymtableBlockStatement fuel a) (applyItems a)
  | _, .null, _, hkind, _ => by cases hkind
  | 0, .node .., _, _, hfuel => absurd hfuel (Nat.not_succ_le_zero _)
  | fuel + 1, .node kind id lineNr attrs, h, hkind, hfuel => by
    obtain rfl : kind = .blockStmt := hkind
    obtain ⟨hget, hlinks⟩ := getList_eq h .stmtList rfl
    rw [buildSymtableBlockStatement, applyItems, hget, pure_bind]
    refine .inScope ?_
    rw [blockItems_eq .blockStmt id lineNr]
    cases hl : attrList (.node .blockStmt id lineNr attrs) .stmtList with
    | none => exact .nil
    | some links =>
      refine Does.forLinks fun b hb => ?_
      have hb' := hlinks links hl b hb
      have hlt := nodes_attrList hl hb
      exact buildSymtableLocalControlDeclaration_does hD hb'.wellTyped (ne_null hb' rfl)
        fun hkind => buildSymtableBlockStatement_does hD hb'.wellTyped hkind (by omega)

theorem buildSymtableControl_does (hD : D.length < 2 ^ 10) {fuel : Nat} (h : WellTyped a)
    (hkind : a.kind = .control) (hfuel : a.nodes.length ≤ fuel) :
    Does D (buildSymtableControl fuel a) (controlItems a) := by
  obtain _ | ⟨kind, id, lineNr, attrs⟩ := a
  · cases hkind
  obtain rfl : kind = .control := hkind
  obtain ⟨htype, hname⟩ := getAst_eq h .typeDecl rfl
  obtain ⟨hlocals, hlocal⟩ := getList_eq h .localDecls rfl
  obtain ⟨happly, hblock⟩ := getAst_eq h .applyStmt rfl
  have hname := hname (.inl (List.mem_singleton_self _))
  unfold buildSymtableControl
  rw [htype, hlocals, happly, pure_bind, pure_bind, pure_bind]
  refine (declareType_does hD (hasName hname.wellTyped ?_)).append (.inScope (.append ?_ ?_))
  · rw [eq_of_beq hname.kind]
    rfl
  · refine .ifList fun l hl => .inScope ?_
    rw [linksItems_eq]
    refine .forLinks fun b hb => ?_
    have hb' := hlocal l hl b hb
    have hlt := nodes_attrList hl hb
    exact buildSymtableLocalControlDeclaration_does hD hb'.wellTyped (ne_null hb' rfl)
      fun hkind => buildSymtableBlockStatement_does hD hb'.wellTyped hkind (by omega)
  · cases hstmt : attrAst (.node .control id lineNr attrs) .applyStmt with
    | null => exact .nil
    | node kind' id' lineNr' attrs' =>
      have hstmt' := hblock (.inr (by rw [hstmt]; exact Ast.noConfusion))
      have hlt := nodes_attrAst (.node .control id lineNr attrs) .applyStmt
        (by rw [hstmt]; exact Ast.noConfusion)
      rw [hstmt] at hstmt' hlt
      exact buildSymtableBlockStatement_does hD hstmt'.wellTyped (eq_of_beq hstmt'.kind) (by omega)

theorem buildSymtableLocalParserElement_does (hD : D.length < 2 ^ 10) (h : WellTyped a)
    (hnode : a ≠ .null) : Does D (buildSymtableLocalParserElement a) [elementItem a] := by
  obtain _ | ⟨kind, id, lineNr, attrs⟩ := a
  · exact absurd rfl hnode
  unfold buildSymtableLocalParserElement elementItem
  rw [kindOf, pure_bind]
  show Does D _ [if kind = _ ∨ kind = _ ∨ kind = _ then _ else _]
  split
  · rename_i hkind
    refine declareIdent_does hD (hasName h ?_)
    rcases hkind with rfl | rfl | rfl <;> rfl
  · exact .unlisted

/-- A list of which each link is one item. -/
theorem Does.each {f : Ast → SymM Unit} {g : Ast → Item} {links : List Ast}
    (h : ∀ b ∈ links, Does D (f b) [g b]) :
    Does D (BuildSymtable.forLinks f links) (links.map g) := by
  rw [List.map_eq_flatMap]
  exact .forLinks h

theorem buildSymtableParser_does (hD : D.length < 2 ^ 10) (h : WellTyped a)
    (hkind : a.kind = .parser) : Does D (buildSymtableParser a) (parserItems a) := by
  obtain _ | ⟨kind, id, lineNr, attrs⟩ := a
  · cases hkind
  obtain rfl : kind = .parser := hkind
  obtain ⟨htype, hname⟩ := getAst_eq h .typeDecl rfl
  obtain ⟨helements, helement⟩ := getList_eq h .localElements rfl
  have hname := hname (.inl (List.mem_singleton_self _))
  unfold buildSymtableParser
  rw [htype, helements, pure_bind, pure_bind]
  refine (declareType_does hD (hasName hname.wellTyped ?_)).append (.inScope (.ifList ?_))
  · rw [eq_of_beq hname.kind]
    rfl
  · intro l hl
    refine .inScope (.each fun b hb => ?_)
    have hb' := helement l hl b hb
    exact buildSymtableLocalParserElement_does hD hb'.wellTyped (ne_null hb' rfl)

theorem buildSymtableExtern_does (hD : D.length < 2 ^ 10) (h : WellTyped a)
    (hkind : a.kind = .externDecl) : Does D (buildSymtableExtern a) (externItems a) := by
  obtain _ | ⟨kind, id, lineNr, attrs⟩ := a
  · cases hkind
  obtain rfl : kind = .externDecl := hkind
  obtain ⟨hprotos, hproto⟩ := getList_eq h .methodProtos rfl
  unfold buildSymtableExtern
  rw [hprotos, pure_bind]
  refine (declareType_does hD (hasName h rfl)).append (.ifList fun l hl => .inScope (.each ?_))
  intro b hb
  have hb' := hproto l hl b hb
  refine buildSymtableFunctionProto_does hD (hasName hb'.wellTyped ?_)
  rw [eq_of_beq hb'.kind]
  rfl

theorem buildSymtableStruct_does (hD : D.length < 2 ^ 10) (h : WellTyped a)
    (hkind : a.kind = .structDecl ∨ a.kind = .headerDecl) :
    Does D (buildSymtableStruct a) (structItems a) := by
  have hnamed : named a.kind = true := by rcases hkind with hkind | hkind <;> rw [hkind] <;> rfl
  have hslot : (schema a.kind).lookup .fields = some (.list (Parse.isKind .structField)) := by
    rcases hkind with hkind | hkind <;> rw [hkind] <;> rfl
  obtain ⟨hfields, hfield⟩ := getList_eq h .fields hslot
  unfold buildSymtableStruct
  rw [hfields, pure_bind]
  refine (declareType_does hD (hasName h hnamed)).append (.ifList fun l hl => .inScope (.each ?_))
  intro b hb
  have hb' := hfield l hl b hb
  refine declareIdent_does hD (hasName hb'.wellTyped ?_)
  rw [eq_of_beq hb'.kind]
  rfl

theorem buildSymtableTypeDecl_does (hD : D.length < 2 ^ 10) (h : WellTyped a)
    (hkind : a.kind = .typeDecl) {b : Bool} (hv : a.getattr .isTypedef = some (.bool b)) :
    Does D (buildSymtableTypeDecl a)
      (if attrBool a .isTypedef then [declareItem .type a] else []) := by
  unfold buildSymtableTypeDecl getBool attrBool
  rw [getattr_eq (by rintro rfl; cases hkind), pure_bind, hv]
  cases b with
  | true => exact declareType_does hD (hasName h (by rw [hkind]; rfl))
  | false => exact .nil

theorem buildSymtableDeclaration_does (hD : D.length < 2 ^ 10) {fuel : Nat} (h : WellTyped a)
    (hnode : a ≠ .null) (hfuel : a.nodes.length ≤ fuel)
    (hflag : a.kind = .typeDecl → ∃ b, a.getattr .isTypedef = some (.bool b)) :
    Does D (buildSymtableDeclaration fuel a) (declItems a) := by
  have hkindOf : kindOf a = pure a.kind := by
    cases a with
    | null => exact absurd rfl hnode
    | node kind id lineNr attrs => rfl
  unfold buildSymtableDeclaration declItems
  rw [hkindOf, pure_bind]
  cases hkind : a.kind <;> try exact .nil
  case control => exact buildSymtableControl_does hD h hkind hfuel
  case externDecl => exact buildSymtableExtern_does hD h hkind
  case structDecl => exact buildSymtableStruct_does hD h (.inl hkind)
  case headerDecl => exact buildSymtableStruct_does hD h (.inr hkind)
  case package => exact declareType_does hD (hasName h (by rw [hkind]; rfl))
  case parser => exact buildSymtableParser_does hD h hkind
  case instantiation => exact declareIdent_does hD (hasName h (by rw [hkind]; rfl))
  case typeDecl =>
    obtain ⟨b, hv⟩ := hflag hkind
    exact buildSymtableTypeDecl_does hD h hkind hv
  case functionProto => exact buildSymtableFunctionProto_does hD (hasName h (by rw [hkind]; rfl))
  case constDecl => exact declareIdent_does hD (hasName h (by rw [hkind]; rfl))

/-- What the pass reads of a program without asking, beyond the schema. -/
structure Readable (a : Ast) : Prop where
  program : Is (Parse.isKind .p4Program) a
  decls : ∃ links, attrList a .declList = some links ∧
    ∀ decl ∈ links, decl.kind = .typeDecl → ∃ b, decl.getattr .isTypedef = some (.bool b)

theorem buildSymtableProgram_does (hD : D.length < 2 ^ 10) {fuel : Nat} (h : Readable a)
    (hfuel : a.nodes.length ≤ fuel) :
    Does D (buildSymtableProgram fuel a) [.scope (programItems a)] := by
  obtain ⟨links, hlinks, hflags⟩ := h.decls
  have hslot : (schema a.kind).lookup .declList = some (.list Parse.isDeclKind) := by
    rw [eq_of_beq h.program.kind]
    rfl
  have hkindOf : kindOf a = pure .p4Program := by
    cases a with
    | null => cases h.program.kind
    | node kind id lineNr attrs => rw [kindOf, ← eq_of_beq h.program.kind]; rfl
  obtain ⟨hdecls, hdecl⟩ := getList_eq h.program.wellTyped .declList hslot
  unfold buildSymtableProgram programItems
  rw [hkindOf, pure_bind, if_pos rfl, hdecls, pure_bind, hlinks]
  refine .inScope (.forLinks fun b hb => ?_)
  have hb' := hdecl links hlinks b hb
  have hlt := nodes_attrList hlinks hb
  exact buildSymtableDeclaration_does hD hb'.wellTyped (ne_null hb' rfl) (by omega) (hflags b hb)

end Dp4c.BuildSymtable
