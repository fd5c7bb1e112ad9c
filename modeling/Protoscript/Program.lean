import Protoscript.FunctionTable
import Protoscript.Syntax.Grammar
import Protoscript.Token.Stream

/-! # Programs

A program is checked: its source was read without error and no two of its functions share a
signature. -/

set_option autoImplicit false

namespace Protoscript

structure Program where
  functions : FunctionTable

namespace Program

def ofDefinitions (ds : List Definition) : Except (List Diagnostic) Program :=
  (FunctionTable.ofDefinitions ds).map Program.mk

/-- Reads a source.  Errors of the words hide those of the grammar, and these hide
redefinitions. -/
def ofSource (source : String) : Except (List Diagnostic) Program := do
  let tokens ← Token.ofSource source
  let ds ← Definition.ofTokens tokens
  ofDefinitions ds

end Program

end Protoscript
