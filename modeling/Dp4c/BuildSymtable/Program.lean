import Dp4c.BuildSymtable.Names
import Dp4c.Parse.Run
import Dp4c.Symtable.Flush

/-! # The pass over a parsed program

`main` flushes the symbol table and walks over the tree of the parser. What comes of this can
be read off the tree. -/
namespace Dp4c.BuildSymtable

open Dp4c.Lib Dp4c.Lib.Prog Dp4c.Symtable
open Dp4c.Parse (Is Fine ParserTable WordOf required)

variable {p : Cstr → Prop} {a : Ast} {s : State} {t : Scopes} {items : List Item} {fuel : Nat}

/-! ## The flushed table -/

/-- Only keywords are declared, outside of all scopes. -/
structure KeywordsOnly (t : Scopes) : Prop where
  wf : t.Wf
  level : t.scopeLevel = 0
  keywords : ∀ name, ∀ l ∈ levels t .kw name, l = 0
  others : ∀ ns name, ns ≠ .kw → levels t ns name = []

theorem KeywordsOnly.addKeywords : ∀ {kws : List (String × TokenClass)} {t u : Scopes},
    KeywordsOnly t → t.addKeywords kws = .ok u → KeywordsOnly u
  | [], t, u, h, hu => by obtain rfl := Except.ok.inj hu; exact h
  | (name, klass) :: kws, t, u, h, hu => by
    unfold Scopes.addKeywords at hu
    obtain ⟨v, hv, hu⟩ := except_bind_ok hu
    obtain ⟨symbol, hsymbol, rfl⟩ := Scopes.addKeyword_ok hv
    refine KeywordsOnly.addKeywords ⟨Scopes.wf_bind h.wf .., ?_, ?_, ?_⟩ hu
    · exact (t.bind_scopeLevel ..).trans h.level
    · intro name' l hl
      unfold levels at hl
      rw [Scopes.chain_bind] at hl
      split at hl
      · rcases List.mem_cons.mp hl with rfl | hl
        · exact hsymbol.trans h.level
        · exact h.keywords name' l hl
      · exact h.keywords name' l hl
    · intro ns name' hns
      unfold levels
      rw [Scopes.chain_bind, if_neg fun e => hns e.2.symm]
      exact h.others ns name' hns

theorem keywordsOnly_init (h : Scopes.init = .ok t) : KeywordsOnly t := by
  refine KeywordsOnly.addKeywords ⟨?_, rfl, ?_, ?_⟩ h
  · exact (List.nodup_nil : ([] : List Cstr).Nodup)
  · intro name l hl
    cases hl
  · intro ns name _
    cases ns <;> rfl

/-! ## The reference -/

/-- What the items of a program do to a fresh table. -/
def runProgram (items : List Item) : Except Exit Scopes :=
  Scopes.init >>= runAll [.scope items]

/-- No scope is open. Of the symbols that the program's own scope has of a name all but one are
left over, and no others. -/
structure Left (items : List Item) (t : Scopes) : Prop where
  level : t.scopeLevel = 0
  levels_eq : ∀ ns name, levels t ns name = List.replicate (held ns name items - 1) 1

theorem held_eq_zero {ns : Space} {name : Cstr}
    (h : ∀ item ∈ items, item.declares ns name = false) : held ns name items = 0 := by
  refine Nat.le_zero.mp ((held_le items).trans (Nat.le_zero.mpr ?_))
  rw [declarations, List.countP_eq_zero]
  exact fun item hitem => Bool.eq_false_iff.mp (h item hitem)

theorem scopeOver_declares {f : List Ast → List Item} {links : Option (List Ast)} {ns : Space}
    {name : Cstr} : ∀ item ∈ scopeOver f links, item.declares ns name = false := by
  intro item hitem
  cases links with
  | none => cases hitem
  | some l => rw [List.mem_singleton.mp hitem]; rfl

/-- The pass declares no keywords. -/
theorem declItems_declares (decl : Ast) (name : Cstr) :
    ∀ item ∈ declItems decl, item.declares .kw name = false := by
  intro item hitem
  unfold declItems at hitem
  split at hitem
  case h_1 | h_6 =>
    rcases List.mem_cons.mp hitem with rfl | hitem
    · rfl
    · rw [List.mem_singleton.mp hitem]
      rfl
  case h_2 | h_3 | h_4 =>
    rcases List.mem_cons.mp hitem with rfl | hitem
    · rfl
    · exact scopeOver_declares item hitem
  case h_5 | h_7 | h_9 | h_10 =>
    rw [List.mem_singleton.mp hitem]
    rfl
  case h_8 =>
    split at hitem
    · rw [List.mem_singleton.mp hitem]
      rfl
    · cases hitem
  case h_11 => cases hitem

/-- The verdict over a program. -/
theorem runProgram_verdict (a : Ast) :
    Verdict (runProgram (programItems a)) (Left (programItems a))
      (troubleIn [] (programItems a)) := by
  obtain ⟨t, hinit, -⟩ := Scopes.init_ok
  have hkeywords := keywordsOnly_init hinit
  have hwithin : Within t.pushScope 1 [] (levels t) := by
    refine ⟨hkeywords.wf, congrArg (· + 1) hkeywords.level, fun ns name => rfl,
      fun ns name l hl => ?_⟩
    cases ns with
    | kw => exact Nat.lt_of_le_of_lt (Nat.le_of_eq (hkeywords.keywords name l hl)) Nat.one_pos
    | type => rw [hkeywords.others .type name (by decide)] at hl; cases hl
    | ident => rw [hkeywords.others .ident name (by decide)] at hl; cases hl
  unfold runProgram
  rw [hinit]
  show Verdict (runAll [.scope (programItems a)] t) _ _
  have hexits := (Item.run_settles (.scope (programItems a)) t).exits
  rw [Item.run] at hexits
  rw [runAll_singleton, Item.run, ← Option.or_none (o := troubleIn [] (programItems a))]
  refine (runAll_verdict (programItems a) hwithin).bind hexits fun u hu => ?_
  obtain ⟨v, hv, -, hlevel, hlevels⟩ := hu.close
  refine ⟨v, hv, hlevel, fun ns name => (hlevels ns name).trans ?_⟩
  rw [List.nil_append]
  cases ns with
  | kw =>
    have hheld : held .kw name (programItems a) = 0 := held_eq_zero fun item hitem => by
      obtain ⟨decl, -, hitem⟩ := List.mem_flatMap.mp hitem
      exact declItems_declares decl name item hitem
    rw [hheld]
    rfl
  | type => rw [hkeywords.others .type name (by decide), ite_self, closed_nil]
  | ident => rw [hkeywords.others .ident name (by decide), ite_self, closed_nil]

/-! ## The pass -/

/-- `symtable_flush(); build_symtable_program(ast);`. -/
def buildSymtable (fuel : Nat) (ast : Ast) : SymM Unit := do
  symtableFlush
  buildSymtableProgram fuel ast

/-- The bindings in the table behind a program, or its exit. -/
def tableAfter (r : Except Exit (Unit × State)) : Except Exit Scopes := r.map fun q => abs q.2

/-- These names and the keywords, each of them once. -/
def tableNames (names : List Cstr) : List Cstr := (keywordNames ++ names).dedup

/-- The names that a program declares and the keywords are few enough for the symbol table. -/
def FewNames (a : Ast) : Prop := (tableNames (namesIn (programItems a))).length < 2 ^ 10

instance (a : Ast) : Decidable (FewNames a) := inferInstanceAs (Decidable (_ < _))

theorem fewNames_of_words {words : List Cstr} (hwords : namesIn (programItems a) ⊆ words)
    (hfew : (tableNames words).length < 2 ^ 10) : FewNames a := by
  have hsub : tableNames (namesIn (programItems a)) ⊆ tableNames words := fun name hname => by
    rcases List.mem_append.mp (List.mem_dedup.mp hname) with hname | hname
    · exact List.mem_dedup.mpr (List.mem_append_left _ hname)
    · exact List.mem_dedup.mpr (List.mem_append_right _ (hwords hname))
  exact Nat.lt_of_le_of_lt (List.subperm_of_subset (List.nodup_dedup _) hsub).length_le hfew

/-- **The pass over the hash table** does what the items do to the bindings of a fresh one, if
the keywords and the names in the program are few enough for the table. -/
theorem buildSymtable_refines (hs : Inv s) (h : Readable a)
    (hnames : ∀ name ∈ namesIn (programItems a), name.bytes ≠ []) (hfew : FewNames a)
    (hfuel : a.nodes.length ≤ fuel) :
    tableAfter (buildSymtable fuel a s) = runProgram (programItems a) := by
  have hfit : Fit (tableNames (namesIn (programItems a))) (namesIn [.scope (programItems a)]) := by
    rw [namesIn, namesIn, List.append_nil, Item.names]
    exact fun name hname => ⟨hnames name hname,
      List.mem_dedup.mpr (List.mem_append_right _ hname)⟩
  obtain ⟨_, t, hflush, hit, hinit⟩ := wp_returns (wp_symtableFlush hs)
  have hroom : Room (tableNames (namesIn (programItems a))) t :=
    ⟨hit, fun x hx => List.mem_dedup.mpr (List.mem_append_left _ (names_init hinit hx))⟩
  have hdoes := buildSymtableProgram_does hfew h hfuel hfit t hroom
  unfold buildSymtable runProgram
  rw [bind_of_ok hflush, hinit]
  show tableAfter (buildSymtableProgram fuel a t) = runAll [.scope (programItems a)] (abs t)
  cases hrun : buildSymtableProgram fuel a t with
  | ok r => exact (wp_ok hdoes hrun).2.symm
  | error e => exact (wp_error hdoes hrun).symm

/-! ## Parsed programs -/

/-- A legible program has what the pass reads of it. -/
theorem Legible.readable (h : Legible p a) (hkind : a.kind = .p4Program) : Readable a := by
  have hreq : AttrName.declList ∈ required a.kind := by
    rw [hkind]
    exact List.mem_singleton_self _
  obtain ⟨value, hv⟩ := getattr_required h.wellTyped hreq
  obtain ⟨type, hentry, -⟩ := h.entry hv
  obtain ⟨links, linkCount, rfl⟩ := hentry.decls rfl
  have hlist : BuildSymtable.attrList a .declList = some links := by
    rw [BuildSymtable.attrList, hv]
  refine ⟨⟨h.wellTyped, beq_iff_eq.mpr hkind⟩, links, hlist, fun decl hdecl hdeclKind => ?_⟩
  have hlegible := h.attrList hlist hdecl
  have hreq : AttrName.isTypedef ∈ required decl.kind := by
    rw [hdeclKind]
    exact List.mem_cons_self ..
  obtain ⟨value, hv⟩ := getattr_required hlegible.wellTyped hreq
  obtain ⟨type, hentry, -⟩ := hlegible.entry hv
  obtain ⟨b, rfl⟩ := hentry.typedef rfl
  exact ⟨b, hv⟩

section

variable {first : Token} {tokens : List Token} {scopes : Scopes} {memory : Parse.Memory}
  {rounds : Nat} {u : Parse.State}

/-- What the parser returns is readable, and its names are words of the input. -/
theorem parsed (hfirst : first.klass ≠ .comment) (htable : ParserTable scopes)
    (hrun : Parse.run rounds (first :: tokens) scopes memory = .ok (a, u)) :
    Readable a ∧ ∀ name ∈ namesIn (programItems a), WordOf (spoken tokens) name := by
  have hprogram : Is (Parse.isKind .p4Program) a := by
    have hfinished := Parse.run_finished rounds (first :: tokens) scopes memory
    rw [hrun] at hfinished
    cases hfinished with
    | returned _ _ _ hprogram => exact hprogram
  have hlegible : Legible (WordOf (spoken tokens)) a :=
    ⟨hprogram.wellTyped, Parse.run_fine hfirst htable hrun⟩
  exact ⟨hlegible.readable hprogram.kind_eq, programItems_spelt hlegible⟩

/-- The tokens have lexemes. -/
def Worded (tokens : List Token) : Prop := ∀ token ∈ spoken tokens, token.lexeme.bytes ≠ []

instance (tokens : List Token) : Decidable (Worded tokens) :=
  inferInstanceAs (Decidable (∀ token ∈ spoken tokens, token.lexeme.bytes ≠ []))

/-- The pass over a parsed program reads no null pointer and no value of another type; it
does to the table what the declarations of the program do to the bindings. -/
theorem parsed_refines (hfirst : first.klass ≠ .comment) (htable : ParserTable scopes)
    (hworded : Worded tokens) (hrun : Parse.run rounds (first :: tokens) scopes memory = .ok (a, u))
    (hfew : FewNames a) (hs : Inv s) (hfuel : a.nodes.length ≤ fuel) :
    tableAfter (buildSymtable fuel a s) = runProgram (programItems a) := by
  obtain ⟨hreadable, hnames⟩ := parsed hfirst htable hrun
  refine buildSymtable_refines hs hreadable (fun name hname => ?_) hfew hfuel
  obtain ⟨token, htoken, rfl⟩ := hnames name hname
  exact hworded token htoken

/-- **The verdict on a parsed program** is read off its declarations. -/
theorem parsed_verdict (hfirst : first.klass ≠ .comment) (htable : ParserTable scopes)
    (hworded : Worded tokens) (hrun : Parse.run rounds (first :: tokens) scopes memory = .ok (a, u))
    (hfew : FewNames a) (hs : Inv s) (hfuel : a.nodes.length ≤ fuel) :
    Verdict (tableAfter (buildSymtable fuel a s)) (Left (programItems a))
      (troubleIn [] (programItems a)) := by
  rw [parsed_refines hfirst htable hworded hrun hfew hs hfuel]
  exact runProgram_verdict a

/-- **No false alarms**: a program passes if nothing in it is declared twice. -/
theorem parsed_clash (hfirst : first.klass ≠ .comment) (htable : ParserTable scopes)
    (hworded : Worded tokens) (hrun : Parse.run rounds (first :: tokens) scopes memory = .ok (a, u))
    (hfew : FewNames a) (hs : Inv s) (hfuel : a.nodes.length ≤ fuel)
    (hclash : clashIn [] (programItems a) = none) :
    ∃ t, tableAfter (buildSymtable fuel a s) = .ok t ∧ Left (programItems a) t := by
  have hverdict := runProgram_verdict a
  rw [fine_of_clash (programItems a) hclash] at hverdict
  rw [parsed_refines hfirst htable hworded hrun hfew hs hfuel]
  exact hverdict

end

/-! ## Two structs -/

/-- `struct <name> { bool b; }` -/
def structNamed (name : String) : List (TokenClass × String) :=
  [(.struct, "struct"), (.identifier, name), (.braceOpen, "\x7b"), (.bool, "bool"),
    (.identifier, "b"), (.semicolon, ";"), (.braceClose, "\x7d")]

/-- The tokens of two structs with these names. -/
def structs (name name' : String) : List Token :=
  (structNamed name ++ structNamed name' ++ [(TokenClass.endOfInput, "<end-of-input>")]).map
  fun w =>
    { klass := w.1, lexeme := Cstr.ofString w.2 }

/-- What the parser makes of tokens behind the start of the input. -/
def parseTokens (tokens : List Token) : Option (Ast × Parse.State) :=
  Scopes.init.toOption.bind fun t =>
    (Parse.run 0 ({ klass := .startOfInput } :: tokens) t fun _ _ => 0).toOption

theorem parseTokens_ok {tokens : List Token} {β : Type} {f : Ast × Parse.State → β} {x : β}
    (h : (parseTokens tokens).map f = some x) : ∃ t a u, Scopes.init = .ok t ∧
      Parse.run 0 ({ klass := .startOfInput } :: tokens) t (fun _ _ => 0) = .ok (a, u) ∧
      f (a, u) = x := by
  obtain ⟨t, hinit, -⟩ := Scopes.init_ok
  unfold parseTokens at h
  rw [hinit] at h
  obtain ⟨⟨a, u⟩, hrun, hx⟩ := ok_of_toOption h
  exact ⟨t, a, u, hinit, hrun, hx⟩

theorem exists_table (hs : Blank s) : ∃ t, Inv t := by
  obtain ⟨_, t, -, ht, -⟩ := wp_returns (wp_symtableInit hs)
  exact ⟨t, ht⟩

/-- The struct's name is forgotten when the scope of its fields is closed, so that it can be
declared again. -/
theorem parsed_verdict_twice : ∃ a s t, clashIn [] (programItems a) ≠ none ∧
    tableAfter (buildSymtable a.nodes.length a s) = .ok t ∧ Left (programItems a) t := by
  have htokens : (parseTokens (structs "s" "s")).map (fun r =>
      ((troubleIn [] (programItems r.1)).isNone, (clashIn [] (programItems r.1)).isNone,
        decide (FewNames r.1))) = some (true, false, true) := by decide +kernel
  obtain ⟨t, a, u, hinit, hrun, hx⟩ := parseTokens_ok htokens
  obtain ⟨htrouble, hx⟩ := Prod.mk.inj hx
  obtain ⟨hclash, hfew⟩ := Prod.mk.inj hx
  obtain ⟨s, hs⟩ := exists_table blank_initial
  have hverdict := parsed_verdict (by decide) (.init hinit) (by decide +kernel) hrun
    (of_decide_eq_true hfew) hs (Nat.le_refl _)
  rw [Option.isNone_iff_eq_none.mp htrouble] at hverdict
  obtain ⟨v, hv, hleft⟩ := hverdict
  refine ⟨a, s, v, fun hnone => ?_, hv, hleft⟩
  rw [hnone] at hclash
  cases hclash

/-- Two structs with a field of the same name. -/
theorem parsed_clash_pair : ∃ a s t, tableAfter (buildSymtable a.nodes.length a s) = .ok t ∧
    Left (programItems a) t := by
  have htokens : (parseTokens (structs "s" "t")).map (fun r =>
      ((clashIn [] (programItems r.1)).isNone, decide (FewNames r.1))) = some (true, true) := by
    decide +kernel
  obtain ⟨t, a, u, hinit, hrun, hx⟩ := parseTokens_ok htokens
  obtain ⟨hclash, hfew⟩ := Prod.mk.inj hx
  obtain ⟨s, hs⟩ := exists_table blank_initial
  obtain ⟨v, hv, hleft⟩ := parsed_clash (by decide) (.init hinit) (by decide +kernel) hrun
    (of_decide_eq_true hfew) hs (Nat.le_refl _) (Option.isNone_iff_eq_none.mp hclash)
  exact ⟨a, s, v, hv, hleft⟩

end Dp4c.BuildSymtable
