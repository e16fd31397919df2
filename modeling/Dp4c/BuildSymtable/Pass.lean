import Dp4c.Ast
import Dp4c.Symtable.Table

/-! # The symbol-table pass (build_symtable.c)

The pass walks over the declarations of a program and registers their names. An attribute
that is missing reads as the null pointer; a null pointer or a value of another type that the
pass goes on to read is a `fault`. -/
namespace Dp4c.BuildSymtable

open Dp4c.Lib Dp4c.Symtable

/-! ## Reading attributes -/

/-- `ast_getattr` of a node. -/
def getattr (ast : Ast) (attr : AttrName) : SymM (Option (Value Ast)) :=
  match ast with
  | .null => Prog.exit .fault
  | .node .. => pure (ast.getattr attr)

/-- `(struct Ast*)ast_getattr(ast, attr)`. -/
def getAst (ast : Ast) (attr : AttrName) : SymM Ast := do
  match ← getattr ast attr with
  | none => pure .null
  | some (.ast a) => pure a
  | some _ => Prog.exit .fault

/-- `(struct AstList*)ast_getattr(ast, attr)`. -/
def getList (ast : Ast) (attr : AttrName) : SymM (Option (List Ast)) := do
  match ← getattr ast attr with
  | none | some .nullList => pure none
  | some (.list links _) => pure (some links)
  | some _ => Prog.exit .fault

/-- `(char*)ast_getattr(ast, attr)`, of which every caller reads the characters. -/
def getString (ast : Ast) (attr : AttrName) : SymM Cstr := do
  match ← getattr ast attr with
  | some (.string s) => pure s
  | _ => Prog.exit .fault

/-- `*(bool*)ast_getattr(ast, attr)`. -/
def getBool (ast : Ast) (attr : AttrName) : SymM Bool := do
  match ← getattr ast attr with
  | some (.bool b) => pure b
  | _ => Prog.exit .fault

/-- `ast->kind`. -/
def kindOf (ast : Ast) : SymM AstKind :=
  match ast with
  | .null => Prog.exit .fault
  | .node kind _ _ _ => pure kind

/-- `while (link) { f(link->ast); link = link->next; }`. -/
def forLinks (f : Ast → SymM Unit) : List Ast → SymM Unit
  | [] => pure ()
  | ast :: links => do
    f ast
    forLinks f links

/-- `if (list) { f(list); }`. -/
def ifList (f : List Ast → SymM Unit) : Option (List Ast) → SymM Unit
  | none => pure ()
  | some links => f links

/-- `if (ast) { f(ast); }`. -/
def ifNode (f : Ast → SymM Unit) : Ast → SymM Unit
  | .null => pure ()
  | ast => f ast

/-- `push_scope(); ... pop_scope();`. -/
def inScope (x : SymM Unit) : SymM Unit := do
  let _ ← pushScope
  x
  popScope

/-! ## Declaring names -/

def redeclared (name : Ast) (strname : Cstr) : SymM Unit :=
  Prog.exit (.error "at line %d: name `%s` redeclared." name.lineNr strname.bytes)

/-- The name of a declaration and the characters of the name. -/
def nameOf (decl : Ast) : SymM (Ast × Cstr) := do
  let name ← getAst decl .name
  let strname ← getString name .name
  return (name, strname)

/-- Registers a declaration under its name as a type, once in a scope. -/
def declareType (decl : Ast) : SymM Unit := do
  let (name, strname) ← nameOf decl
  if ← nameIsDeclared strname .type then redeclared name strname
  else do
    let _ ← newType strname (some decl.id)

/-- Registers a declaration under its name as an identifier, once in a scope. -/
def declareIdent (decl : Ast) : SymM Unit := do
  let (name, strname) ← nameOf decl
  if ← nameIsDeclared strname .ident then redeclared name strname
  else do
    let _ ← newIdent strname (some decl.id)

def buildSymtableFunctionProto (functionProto : Ast) : SymM Unit := do
  let (_, strname) ← nameOf functionProto
  let _ ← newIdent strname (some functionProto.id)

def buildSymtableStructField (field : Ast) : SymM Unit := declareIdent field

def buildSymtablePackage (packageDecl : Ast) : SymM Unit := declareType packageDecl

def buildSymtableTopLevelInstantiation (instantiation : Ast) : SymM Unit :=
  declareIdent instantiation

def buildSymtableConstDeclaration (constDecl : Ast) : SymM Unit := declareIdent constDecl

def buildSymtableTypeDecl (typeDecl : Ast) : SymM Unit := do
  if ← getBool typeDecl .isTypedef then declareType typeDecl else pure ()

/-! ## Controls -/

/-- `build_symtable_local_control_declaration`, given `build_symtable_block_statement`. -/
def buildSymtableLocalControlDeclaration (blockStatement : Ast → SymM Unit) (decl : Ast) :
    SymM Unit := do
  let kind ← kindOf decl
  if kind = .instantiation ∨ kind = .actionDecl ∨ kind = .varDecl ∨ kind = .tableDecl then
    declareIdent decl
  else if kind = .blockStmt then blockStatement decl
  else if kind = .methodCallStmt ∨ kind = .assignmentStmt ∨ kind = .ifStmt ∨ kind = .switchStmt ∨
      kind = .directApplic then pure ()
  else Prog.exit (.assertion "0")

/-- `fuel` bounds the depth of the blocks. -/
def buildSymtableBlockStatement : Nat → Ast → SymM Unit
  | 0, _ => Prog.exit .outOfFuel
  | fuel + 1, blockStmt => inScope do
    let stmtList ← getList blockStmt .stmtList
    ifList (forLinks (buildSymtableLocalControlDeclaration (buildSymtableBlockStatement fuel)))
      stmtList

def buildSymtableLocalControlDeclarations (fuel : Nat) (localDecls : List Ast) : SymM Unit :=
  inScope
    (forLinks (buildSymtableLocalControlDeclaration (buildSymtableBlockStatement fuel)) localDecls)

def buildSymtableControl (fuel : Nat) (controlDecl : Ast) : SymM Unit := do
  let typeDecl ← getAst controlDecl .typeDecl
  declareType typeDecl
  inScope do
    ifList (buildSymtableLocalControlDeclarations fuel) (← getList controlDecl .localDecls)
    ifNode (buildSymtableBlockStatement fuel) (← getAst controlDecl .applyStmt)

/-! ## Parsers, externs and structs -/

def buildSymtableLocalParserElement (element : Ast) : SymM Unit := do
  let kind ← kindOf element
  if kind = .constDecl ∨ kind = .instantiation ∨ kind = .varDecl then declareIdent element
  else Prog.exit (.assertion "0")

def buildSymtableLocalParserElements (localElements : List Ast) : SymM Unit :=
  inScope (forLinks buildSymtableLocalParserElement localElements)

def buildSymtableParser (parserDecl : Ast) : SymM Unit := do
  let typeDecl ← getAst parserDecl .typeDecl
  declareType typeDecl
  inScope do
    ifList buildSymtableLocalParserElements (← getList parserDecl .localElements)

def buildSymtableExternMethodProtos (methodProtos : List Ast) : SymM Unit :=
  inScope (forLinks buildSymtableFunctionProto methodProtos)

def buildSymtableExtern (externDecl : Ast) : SymM Unit := do
  declareType externDecl
  ifList buildSymtableExternMethodProtos (← getList externDecl .methodProtos)

def buildSymtableStructFields (fields : List Ast) : SymM Unit :=
  inScope (forLinks buildSymtableStructField fields)

def buildSymtableStruct (structDecl : Ast) : SymM Unit := do
  declareType structDecl
  ifList buildSymtableStructFields (← getList structDecl .fields)

/-! ## The program -/

/-- The body of the loop in `build_symtable_program`. -/
def buildSymtableDeclaration (fuel : Nat) (decl : Ast) : SymM Unit := do
  match ← kindOf decl with
  | .control => buildSymtableControl fuel decl
  | .externDecl => buildSymtableExtern decl
  | .structDecl | .headerDecl => buildSymtableStruct decl
  | .package => buildSymtablePackage decl
  | .parser => buildSymtableParser decl
  | .instantiation => buildSymtableTopLevelInstantiation decl
  | .typeDecl => buildSymtableTypeDecl decl
  | .functionProto => buildSymtableFunctionProto decl
  | .constDecl => buildSymtableConstDeclaration decl
  | _ => pure ()

def buildSymtableProgram (fuel : Nat) (ast : Ast) : SymM Unit := do
  if (← kindOf ast) = .p4Program then
    inScope do
      match ← getList ast .declList with
      | some declList => forLinks (buildSymtableDeclaration fuel) declList
      | none => Prog.exit .fault
  else Prog.exit (.assertion "0")

end Dp4c.BuildSymtable
