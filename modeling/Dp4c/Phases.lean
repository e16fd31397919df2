import Dp4c.Ashp4c
import Dp4c.BuildSymtable.Program
import Dp4c.Lex.Lexemes

/-! # The phases one after the other (ashp4c.c)

`main` gives the tokens of a text to the parser and the program of the parser to the pass over
the symbol table. Each phase makes what the next one asks for. -/
namespace Dp4c.Ashp4c

open Dp4c.Lib Dp4c.Lib.Prog Dp4c.Symtable
open Dp4c.BuildSymtable (FewNames PassExit Worded buildSymtable except_bind_error exists_table
  fewNames_of_words parsed parsed_refines programItems runAll_settles runProgram tableAfter
  tableNames)

/-! ## The phases -/

/-- What is in the memory that `arena_push` hands to the lexer and to the parser. -/
structure Found where
  lexemes : Nat → Nat → UInt8
  nodes : Parse.Memory

/-- `symtable_init` and `build_ast_program`, with the assertion behind it. -/
def buildAst (found : Found) (rounds : Nat) (tokens : List Token) : Except Exit Ast := do
  let scopes ← Scopes.init
  match Parse.run rounds tokens scopes found.nodes with
  | .ok (astProgram, _) =>
    if astProgram.kind = .p4Program then return astProgram
    else .error (.assertion "ast_program && ast_program->kind == Ast_P4Program")
  | .error e => .error e.exit

/-- `symtable_flush` and `build_symtable_program`, whatever is left in the table. -/
def declare (table : State) (ast : Ast) : Except Exit Unit :=
  (buildSymtable ast.nodes.length ast table).map fun _ => ()

/-- The compiler over these files. -/
def compiler (file : Cstr → Option (List UInt8)) (found : Found) (rounds : Nat) (table : State) :
    Host :=
  { file := file
    parse := fun text => Lex.tokenize text found.lexemes >>= buildAst found rounds
    declare := declare table }

variable {file : Cstr → Option (List UInt8)} {found : Found} {rounds : Nat} {table : State}
  {text : List UInt8} {tokens : List Token} {ast : Ast} {e : Exit}

/-! ## From one phase to the next -/

/-- The lexemes of a text and the keywords are few enough for the symbol table. -/
def Few (found : Found) (text : List UInt8) : Prop :=
  ∀ tokens, Lex.tokenize text found.lexemes = .ok tokens →
    (tableNames ((spoken tokens.tail).map (·.lexeme))).length < 2 ^ 10

/-- So they are in a short text. -/
theorem few_of_length (hnul : 0 ∉ text) (hlength : text.length + 64 < 2 ^ 10) :
    Few found text := by
  intro tokens h
  obtain ⟨rest, rfl, hlexed⟩ := Lex.tokenize_ok hnul h
  have hrest := (hlexed.tiles hnul rfl (Nat.zero_le _)).length_le
  have hspoken : (spoken rest).length ≤ rest.length := List.length_filter_le _ _
  have hkeywords : keywordNames.length ≤ 62 := by decide +kernel
  have hnames : (tableNames ((spoken rest).map (·.lexeme))).length ≤
      keywordNames.length + (spoken rest).length := by
    refine (List.dedup_sublist _).length_le.trans ?_
    rw [List.length_append, List.length_map]
  rw [List.tail_cons]
  omega

/-- The lexer makes tokens that have lexemes. -/
theorem tokenize_worded (hnul : 0 ∉ text) (h : Lex.tokenize text found.lexemes = .ok tokens) :
    ∃ rest, tokens = { klass := .startOfInput } :: rest ∧ Worded rest := by
  obtain ⟨rest, rfl, -⟩ := Lex.tokenize_ok hnul h
  refine ⟨rest, rfl, fun token htoken => ?_⟩
  exact Lex.tokenize_lexemes hnul h token (List.mem_of_mem_filter htoken)

/-- The parser makes a program that it read with the keywords in the table. -/
theorem buildAst_ok (h : buildAst found rounds tokens = .ok ast) : ∃ scopes u,
    Scopes.init = .ok scopes ∧ Parse.run rounds tokens scopes found.nodes = .ok (ast, u) := by
  obtain ⟨scopes, hinit, h⟩ := except_bind_ok h
  split at h
  · rename_i ast' u hrun
    split at h
    · obtain rfl := Except.ok.inj h
      exact ⟨scopes, u, hinit, hrun⟩
    · cases h
  · cases h

/-- The pass does to any table what the declarations do to a fresh one. -/
theorem declare_eq (hnul : 0 ∉ text) (hfew : Few found text) (htable : Inv table)
    (htokens : Lex.tokenize text found.lexemes = .ok tokens)
    (hast : buildAst found rounds tokens = .ok ast) :
    declare table ast = (runProgram (programItems ast)).map fun _ => () := by
  have hlexemes := hfew tokens htokens
  obtain ⟨rest, rfl, hworded⟩ := tokenize_worded hnul htokens
  obtain ⟨scopes, u, hinit, hrun⟩ := buildAst_ok hast
  have hnames := (parsed (by decide) (.init hinit) hrun).2
  have hfewNames : FewNames ast := fewNames_of_words (fun name hname => by
    obtain ⟨token, htoken, rfl⟩ := hnames name hname
    exact List.mem_map_of_mem htoken) hlexemes
  have hpass := parsed_refines (by decide) (.init hinit) hworded hrun hfewNames htable
    (Nat.le_refl _)
  rw [← hpass]
  unfold declare tableAfter
  cases buildSymtable ast.nodes.length ast table <;> rfl

/-- Behind the parser only the pass is left, if the tree is not printed. -/
theorem compile_parsed (htokens : Lex.tokenize text found.lexemes = .ok tokens)
    (hast : buildAst found rounds tokens = .ok ast) :
    compile (compiler file found rounds table) false text =
      (declare table ast).map fun _ => [] := by
  have hparse : (compiler file found rounds table).parse text = .ok ast := by
    show (Lex.tokenize text found.lexemes >>= buildAst found rounds) = .ok ast
    rw [htokens, ok_bind, hast]
  rw [compile, hparse, ok_bind, printIf, if_neg Bool.false_ne_true, ok_bind]
  show (declare table ast >>= fun _ => .ok []) = _
  cases declare table ast <;> rfl

/-! ## How the compiler ends -/

/-- The assertions that can fail. -/
def reachableAssertions : List String :=
  ["char_pos >= 0 && char_pos <= (text + text_size)", "0", "list->head == 0", "list->tail == 0",
    "list->tail->next == 0", "next_in_scope->scope_level <= scope_level"]

/-- The ends of the process over a text in which nothing was read that is not there. -/
inductive Ends (found : Found) (rounds : Nat) (text : List UInt8) : Exit → Prop
  | error (format : String) (lineNr : Nat) (lexeme : List UInt8) :
    Ends found rounds text (.error format lineNr lexeme)
  | assertion {expr : String} : expr ∈ reachableAssertions →
    Ends found rounds text (.assertion expr)
  /-- The parser does not get past a semicolon among the statements of a parser state. -/
  | stuck {tokens : List Token} {scopes : Scopes} {step : Parse.Step} :
    Lex.tokenize text found.lexemes = .ok tokens → Scopes.init = .ok scopes →
    step ∈ Parse.steps (Parse.run rounds tokens scopes found.nodes) → step.Stuck →
    Ends found rounds text .outOfFuel

theorem lexer_ends {prev : TokenClass} {line p : Nat} {r : List UInt8}
    (h : Lex.Aborts found.lexemes prev line p r e) : Ends found rounds text e := by
  induction h with
  | @fails prev line p r e hf =>
    cases hshape : Lex.nextShape r with
    | stuck =>
      rw [hshape] at hf
      obtain rfl : e = Lex.pastEnd := hf
      exact .assertion (List.mem_cons_self ..)
    | number n =>
      rw [hshape] at hf
      obtain ⟨str, -, hinstalled⟩ := hf
      cases hinstalled with
      | missing => exact .error _ _ _
      | bad => exact .assertion (by decide)
    | _ => rw [hshape] at hf; exact hf.elim
  | unknown => exact .error _ _ _
  | next _ _ _ _ ih => exact ih

theorem parser_ends (hnul : 0 ∉ text) (htokens : Lex.tokenize text found.lexemes = .ok tokens)
    (h : buildAst found rounds tokens = .error e) : Ends found rounds text e := by
  have harray := Parse.tokenize_tokenArray hnul htokens
  obtain ⟨scopes, hinit, -⟩ := Scopes.init_ok
  have hfinished := Parse.run_finished rounds tokens scopes found.nodes
  have hstuck : ∀ step ∈ Parse.steps (Parse.run rounds tokens scopes found.nodes), step.Stuck →
      Ends found rounds text .outOfFuel := fun _ hmem hstep => .stuck htokens hinit hmem hstep
  unfold buildAst at h
  rw [hinit, ok_bind] at h
  generalize Parse.run rounds tokens scopes found.nodes = r at h hfinished hstuck
  cases hfinished with
  | short hshort => exact absurd harray.length (Nat.not_lt_of_le hshort)
  | returned _ _ _ hprogram =>
    dsimp only at h
    rw [if_pos hprogram.kind_eq] at h
    cases h
  | @ended stop hended hlater _ =>
    obtain rfl : stop.exit = e := Except.error.inj h
    cases hended.cause with
    | error format hexit _ => exact hexit ▸ .error _ _ _
    | outOfFuel hexit hsteps _ _ =>
      obtain ⟨step, hmem, hstep⟩ := hsteps
      rw [hexit]
      exact hstuck step hmem hstep
    | assertFalse hexit _ _ _ => exact hexit ▸ .assertion (by decide)
    | list expr hexit hmem _ _ _ =>
      have hreachable : ∀ expr ∈ ["list->head == 0", "list->tail == 0", "list->tail->next == 0"],
          expr ∈ reachableAssertions := by decide
      exact hexit ▸ .assertion (hreachable expr hmem)
    | pastEnd _ _ hnot => exact absurd (hlater.ends harray.last) hnot

theorem pass_ends (h : PassExit e) : Ends found rounds text e := by
  cases h with
  | redeclared name lineNr => exact .error _ _ _
  | unlisted => exact .assertion (by decide)
  | overloaded => exact .assertion (by decide)

/-- **Every end of the compiler** on a text without NULs, if it does not print the tree: it
returns, reports an error with its line, fails one of six assertions, or the parser is stuck. It
reads no null pointer, nothing outside of an array and no value of another type than it has. -/
theorem compile_ends (hnul : 0 ∉ text) (hfew : Few found text) (htable : Inv table)
    (h : compile (compiler file found rounds table) false text = .error e) :
    Ends found rounds text e := by
  rcases except_bind_error h with hparse | ⟨ast, hparse, -⟩
  · rcases except_bind_error hparse with hlexer | ⟨tokens, htokens, hast⟩
    · exact lexer_ends (Lex.tokenize_error hnul hlexer)
    · exact parser_ends hnul htokens hast
  obtain ⟨tokens, htokens, hast⟩ := except_bind_ok hparse
  obtain ⟨scopes, hinit, -⟩ := Scopes.init_ok
  rw [compile_parsed htokens hast, declare_eq hnul hfew htable htokens hast, runProgram, hinit,
    ok_bind] at h
  cases hrun : BuildSymtable.runAll [.scope (programItems ast)] scopes with
  | ok t => rw [hrun] at h; cases h
  | error e' =>
    rw [hrun] at h
    obtain rfl := Except.error.inj h
    exact pass_ends ((runAll_settles _ scopes).exits _ hrun)

/-- Memory that was cleared. -/
def cleared : Found := ⟨fun _ _ => 0, fun _ _ => 0⟩

/-- `struct s { bool b; bool b; }` -/
def fieldTwice : List UInt8 := (Cstr.ofString "struct s \x7b bool b; bool b; \x7d").bytes

theorem compile_ends_twice : ∃ table e, Inv table ∧
    compile (compiler (fun _ => none) cleared 0 table) false fieldTwice = .error e ∧
    Ends cleared 0 fieldTwice e := by
  obtain ⟨table, htable⟩ := exists_table blank_initial
  have hphases : ((Lex.tokenize fieldTwice cleared.lexemes).toOption.map fun tokens =>
      (buildAst cleared 0 tokens).toOption.map fun ast =>
        (runProgram (programItems ast)).toOption.isNone) = some (some true) := by decide +kernel
  obtain ⟨tokens, htokens, hast⟩ := ok_of_toOption hphases
  obtain ⟨ast, hast, htwice⟩ := ok_of_toOption hast
  have hnul : 0 ∉ fieldTwice := Cstr.noNul _
  have hfew : Few cleared fieldTwice := few_of_length hnul (by decide +kernel)
  have hcompile : compile (compiler (fun _ => none) cleared 0 table) false fieldTwice = _ :=
    compile_parsed htokens hast
  rw [declare_eq hnul hfew htable htokens hast] at hcompile
  cases hrun : runProgram (programItems ast) with
  | ok t => rw [hrun] at htwice; cases htwice
  | error e =>
    rw [hrun] at hcompile
    exact ⟨table, e, htable, hcompile, compile_ends hnul hfew htable hcompile⟩

end Dp4c.Ashp4c
