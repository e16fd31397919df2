import Dp4c.Lib.Prog
import Dp4c.Lib.Chain
import Dp4c.Cstr
import Dp4c.Hash
import Dp4c.AttrTable
import Dp4c.ArrayStorage
import Dp4c.UnboundedArray
import Dp4c.Symtable.Table
import Dp4c.Symtable.Scopes
import Dp4c.Symtable.Invariant
import Dp4c.Symtable.Nesting
import Dp4c.Symtable.Flush
import Dp4c.Symtable.Flatten
import Dp4c.Memory.Arena
import Dp4c.Memory.Runs
import Dp4c.Memory.Order
import Dp4c.Memory.Structs
import Dp4c.Memory.Sizes
import Dp4c.Memory.Nested
import Dp4c.Lex.Spans
import Dp4c.Lex.Literals
import Dp4c.Lex.Integers
import Dp4c.Lex.Fronts
import Dp4c.Lex.Forms
import Dp4c.Lex.Assertions
import Dp4c.Lex.Munch
import Dp4c.Lex.Comments
import Dp4c.Lex.Decoding
import Dp4c.Parse.StateReads
import Dp4c.Parse.Conditionals
import Dp4c.Parse.FunctionReads
import Dp4c.Parse.Peek
import Dp4c.Parse.Printing
import Dp4c.Parse.Prefix
import Dp4c.BuildSymtable.Reports
import Dp4c.Phases
