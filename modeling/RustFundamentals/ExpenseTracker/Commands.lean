import RustFundamentals.Foundation.FloatFormat
import RustFundamentals.Foundation.ParseInt
import RustFundamentals.Foundation.TextLines

/-!
# expense-tracker: commands

The commands of `main.rs` and the lines that stand for them.
-/

namespace RustFundamentals.ExpenseTracker

open Foundation

/-- `Command`. -/
inductive Command
  | add (description : Text) (amount : FloatValue) (category : Text)
  | list
  | total (category : Option Text)
  | delete (index : Nat)
  | summary
  | export (path : Text)
  | help
  | quit
  deriving DecidableEq

/-- The arguments of `add`; the last of them keeps its spaces. -/
def parseAdd (rest : Text) : Option Command :=
  match rest.splitn 3 ' ' with
  | [amount, category, description] =>
    (f64.parse amount).map fun amount => .add description amount category
  | _ => none

/-- The argument of `delete`. -/
def parseDelete (rest : Text) : Option Command :=
  match parseInt 0 (2 ^ 64 - 1) rest with
  | .ok index => some (.delete index.toNat)
  | .error _ => none

/-- The command of that name, with the rest of its line. -/
def namedCommand (cmd rest : Text) : Option Command :=
  if cmd = "quit".toList ∨ cmd = "q".toList then some .quit
  else if cmd = "help".toList ∨ cmd = "h".toList then some .help
  else if cmd = "list".toList ∨ cmd = "ls".toList then some .list
  else if cmd = "summary".toList then some .summary
  else if cmd = "delete".toList ∨ cmd = "del".toList ∨ cmd = "rm".toList then parseDelete rest
  else if cmd = "add".toList then parseAdd rest
  else if cmd = "total".toList then some (.total (if rest.isEmpty then none else some rest))
  else if cmd = "export".toList then if rest.isEmpty then none else some (.export rest)
  else none

/-- `parse_command`. -/
def parseCommand (input : Text) : Option Command :=
  let input := input.trim
  if input.isEmpty then none
  else
    match input.splitn 2 ' ' with
    | [] => none
    | [cmd] => namedCommand cmd []
    | cmd :: rest :: _ => namedCommand cmd rest

example : parseCommand " add 4.50 food Flat white\n".toList =
    some (.add "Flat white".toList (.finite (9 / 2)) "food".toList) := by decide +kernel
example : parseCommand "add 4.50 food".toList = none := by decide +kernel
example : parseCommand "rm 2".toList = some (.delete 2) := by decide +kernel

end RustFundamentals.ExpenseTracker
