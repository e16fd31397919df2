import Dp4c.Cstr
import Dp4c.Lib.Prog
import Dp4c.PrintAst

/-! # The command line (ashp4c.c)

`main` takes the source file from the command line and calls one phase after the other. What
the phases do is not looked at here: each may end the process, be it for want of memory. -/
namespace Dp4c.Ashp4c

open Dp4c.Lib

/-! ## The command line -/

/-- A null pointer is `none`. -/
structure CmdlineArg where
  name : Option Cstr := none
  value : Option Cstr := none
deriving DecidableEq

/-- `str + n`, at or in front of the terminator. -/
def cstrFrom (str : Cstr) (n : Nat) : Cstr :=
  ⟨str.bytes.drop n, fun h => str.noNul (List.mem_of_mem_drop h)⟩

/-- The prefix of an option. -/
def dashes : Cstr := Cstr.ofString "--"

/-- The body of the loop in `parse_cmdline_args`. -/
def parseCmdlineArg (arg : Cstr) : Except Exit CmdlineArg :=
  match cstrStartWith arg dashes with
  | some true => .ok { name := some (cstrFrom arg 2) }
  | some false => .ok { value := some arg }
  | none => .error .fault

/-- `parse_cmdline_args`, on what stands behind the name of the program. -/
def parseCmdlineArgs (args : List Cstr) : Except Exit (List CmdlineArg) :=
  args.mapM parseCmdlineArg

def findUnnamedArg : List CmdlineArg → Option CmdlineArg
  | [] => none
  | arg :: args => if arg.name = none then some arg else findUnnamedArg args

def findNamedArg (name : Cstr) : List CmdlineArg → Except Exit (Option CmdlineArg)
  | [] => .ok none
  | arg :: args =>
    match arg.name with
    | none => findNamedArg name args
    | some argName =>
      match cstrMatch name argName with
      | some true => .ok (some arg)
      | some false => findNamedArg name args
      | none => .error .fault

/-! ## The phases -/

/-- The files, and the phases of the compiler. -/
structure Host where
  /-- The bytes of a file that can be opened. -/
  file : Cstr → Option (List UInt8)
  /-- `lex_tokenize`, `symtable_init` and `build_ast_program`, with the assertion behind it. -/
  parse : List UInt8 → Except Exit Ast
  /-- `symtable_flush` and `build_symtable_program`. -/
  declare : Ast → Except Exit Unit

/-- `read_source`. -/
def readSource (host : Host) (filename : Option Cstr) : Except Exit (List UInt8) :=
  match filename.bind host.file with
  | some text => .ok text
  | none => .error .fault

/-- `if (find_named_arg("print-ast", ...)) print_ast(ast_program);`. -/
def printIf (printing : Bool) (ast : Ast) : Except Exit (List Block) :=
  if printing then printAst (ast.nodes.length + 1) ast else .ok []

/-- `main` from the source text on; what it prints of the tree. -/
def compile (host : Host) (printing : Bool) (text : List UInt8) : Except Exit (List Block) := do
  let ast ← host.parse text
  let blocks ← printIf printing ast
  host.declare ast
  return blocks

inductive Ending where
  /-- `<filename> is required.` -/
  | usage
  | exit (e : Exit)
  /-- The process returns 0, having printed these blocks. -/
  | returned (blocks : List Block)

def endingOf : Except Exit Ending → Ending
  | .ok ending => ending
  | .error e => .exit e

def main (host : Host) (args : List Cstr) : Ending := endingOf do
  let cmdlineArgs ← parseCmdlineArgs args
  match findUnnamedArg cmdlineArgs with
  | none => .ok .usage
  | some filenameArg =>
    let text ← readSource host filenameArg.value
    let printArg ← findNamedArg (Cstr.ofString "print-ast") cmdlineArgs
    return .returned (← compile host printArg.isSome text)

/-! ## What the command line says -/

def isOption (arg : Cstr) : Bool := dashes.bytes.isPrefixOf arg.bytes

/-- What becomes of an argument. -/
def parsedArg (arg : Cstr) : CmdlineArg :=
  if isOption arg then { name := some (cstrFrom arg 2) } else { value := some arg }

theorem parseCmdlineArg_eq (arg : Cstr) : parseCmdlineArg arg = .ok (parsedArg arg) := by
  have hstart : cstrStartWith arg dashes = some (isOption arg) := by
    have h := cstrStartWithLoop_eq arg.bytes dashes.bytes (by decide) arg.noNul dashes.noNul
    rw [cstrStartWith, Cstr.buf, Cstr.buf, h]
    exact congrArg some (Bool.eq_iff_iff.mpr
      (decide_eq_true_iff.trans List.isPrefixOf_iff_prefix.symm))
  unfold parseCmdlineArg parsedArg
  rw [hstart]
  cases isOption arg <;> rfl

theorem parseCmdlineArgs_eq (args : List Cstr) :
    parseCmdlineArgs args = .ok (args.map parsedArg) := by
  unfold parseCmdlineArgs
  rw [mapM_ok_iff, List.forall₂_map_right_iff, List.forall₂_same]
  exact fun arg _ => parseCmdlineArg_eq arg

theorem findUnnamedArg_eq (args : List Cstr) : findUnnamedArg (args.map parsedArg) =
    (args.find? fun arg => !isOption arg).map fun arg => { value := some arg } := by
  induction args with
  | nil => rfl
  | cons arg args ih =>
    rw [List.map_cons, findUnnamedArg, List.find?_cons, parsedArg]
    cases isOption arg with
    | true => exact ih
    | false => rfl

theorem findNamedArg_eq {name : Cstr} (hname : name.bytes ≠ []) (args : List CmdlineArg) :
    findNamedArg name args = .ok (args.find? fun arg => arg.name = some name) := by
  induction args with
  | nil => rfl
  | cons arg args ih =>
    rw [findNamedArg, List.find?_cons]
    cases harg : arg.name with
    | none => exact ih
    | some argName =>
      simp only [cstrMatch_eq name argName hname]
      by_cases hsame : name = argName
      · rw [hsame, decide_eq_true rfl, decide_eq_true rfl]
      · have hother : ¬ some argName = some name := fun h => hsame (Option.some.inj h).symm
        rw [decide_eq_false hsame, decide_eq_false hother]
        exact ih

/-- `--print-ast` -/
def printAstOption : Cstr := Cstr.ofString "--print-ast"

theorem parsedArg_printAst (arg : Cstr) :
    (parsedArg arg).name = some (Cstr.ofString "print-ast") ↔ arg = printAstOption := by
  unfold parsedArg
  constructor
  · intro h
    split at h
    · rename_i hoption
      obtain ⟨rest, hrest⟩ := List.isPrefixOf_iff_prefix.mp hoption
      have hdrop : arg.bytes.drop 2 = (Cstr.ofString "print-ast").bytes :=
        congrArg Cstr.bytes (Option.some.inj h)
      refine Cstr.ext ?_
      rw [← hrest] at hdrop ⊢
      rw [show rest = (Cstr.ofString "print-ast").bytes from hdrop]
      decide
    · cases h
  · rintro rfl
    decide

/-- What `main` does with the name of a source file, if it is given one. -/
def runFile (host : Host) (printing : Bool) : Option Cstr → Except Exit Ending
  | none => .ok .usage
  | some filename => do
    let text ← readSource host (some filename)
    return .returned (← compile host printing text)

theorem ok_bind {ε α β : Type} (a : α) (f : α → Except ε β) : (Except.ok a >>= f) = f a := rfl

/-- **The command line**: the first argument that is no option names the source, and the tree
is printed if `--print-ast` is among the arguments, wherever it stands. -/
theorem main_eq (host : Host) (args : List Cstr) : main host args =
    endingOf (runFile host (args.contains printAstOption)
        (args.find? fun arg => !isOption arg)) := by
  have hnamed : findNamedArg (Cstr.ofString "print-ast") (args.map parsedArg) =
      .ok ((args.map parsedArg).find? fun arg => arg.name = some (Cstr.ofString "print-ast")) :=
    findNamedArg_eq (by decide) _
  have hprint : ((args.map parsedArg).find? fun arg =>
      arg.name = some (Cstr.ofString "print-ast")).isSome = args.contains printAstOption := by
    rw [List.find?_map, Option.isSome_map, Bool.eq_iff_iff, List.find?_isSome,
      List.contains_iff_mem]
    simp [parsedArg_printAst]
  unfold main
  rw [parseCmdlineArgs_eq, ok_bind, findUnnamedArg_eq]
  cases args.find? fun arg => !isOption arg with
  | none => rfl
  | some filename =>
    rw [Option.map_some, hnamed]
    simp only [ok_bind, hprint]
    rfl

end Dp4c.Ashp4c
