import RustFundamentals.ExpenseTracker.Commands
import RustFundamentals.Foundation.Runs

/-!
# expense-tracker: sessions

`expense.rs` and the loop of `main.rs`. The program keeps its list in a file, which it reads when
it starts and writes after every change. Reading and writing the file succeed. What is printed is
left out; the crates that write JSON and CSV are parameters (`Formats`).
-/

namespace RustFundamentals.ExpenseTracker

open Foundation

/-- `DateTime<Utc>`, in nanoseconds since the epoch. -/
abbrev DateTime := Int

/-- `Expense`. -/
structure Expense where
  description : Text
  amount : FloatValue
  category : Text
  date : DateTime
  deriving DecidableEq

/-- `Expense::new`. -/
def Expense.new (now : DateTime) (description : Text) (amount : FloatValue) (category : Text) :
    Expense := ⟨description, amount, category, now⟩

/-! ## The file -/

/-- A record of the file. Its amount is a number or `null`, its date may be missing. -/
structure Record where
  description : Text
  amount : Option ℚ
  category : Text
  date : Option DateTime
  deriving DecidableEq

/-- The amount is a number. -/
def Expense.IsFinite (e : Expense) : Prop := ∃ q, e.amount = .finite q

/-- The derived `Serialize`; an amount that is not finite becomes `null`. -/
def Expense.serialize (e : Expense) : Record where
  description := e.description
  amount := match e.amount with
    | .finite q => some q
    | _ => none
  category := e.category
  date := some e.date

/-- The derived `Deserialize`: `null` is no `f64`, and a date that is missing is the present. -/
def Record.deserialize (now : DateTime) (r : Record) : Option Expense :=
  r.amount.map fun q => ⟨r.description, .finite q, r.category, r.date.getD now⟩

/-- The records of a file, the clock having `clock i` while the `i`th is read. -/
def deserializeAll (clock : Nat → DateTime) : List Record → Option (List Expense)
  | [] => some []
  | r :: rs => do
    let expense ← r.deserialize (clock 0)
    let expenses ← deserializeAll (fun i => clock (i + 1)) rs
    return expense :: expenses

/-- What `serde_json` and `csv` make of records, and the paths by which the file system knows
`FILE_PATH`. -/
structure Formats where
  render : List Record → Text
  parse : Text → Option (List Record)
  csvRows : List Expense → Text
  isFilePath : Text → Bool

/-- The characters JSON skips in front of a value. -/
def isJsonWhitespace (c : Char) : Bool := c == ' ' || c == '\n' || c == '\r' || c == '\t'

/-- What the code relies on: the records it writes are read back, and records are only read from
an array. -/
structure Formats.Documented (f : Formats) : Prop where
  round_trip : ∀ expenses : List Expense,
    f.parse (f.render (expenses.map Expense.serialize)) = some (expenses.map Expense.serialize)
  array : ∀ text records, f.parse text = some records →
    ∃ rest, text.dropWhile isJsonWhitespace = '[' :: rest

/-- `load_expenses`, of a file or of none. -/
def loadExpenses (f : Formats) (clock : Nat → DateTime) : Option Text → Option (List Expense)
  | none => some []
  | some data => (f.parse data).bind (deserializeAll clock)

/-- What `save_expenses` writes. -/
def saveExpenses (f : Formats) (expenses : List Expense) : Text :=
  f.render (expenses.map Expense.serialize)

/-- What `export_csv` writes: a header in front of the first row, nothing without one. -/
def exportCsv (f : Formats) (expenses : List Expense) : Text :=
  if expenses.isEmpty then []
  else "description,amount,category,date\n".toList ++ f.csvRows expenses

/-! ## The loop -/

/-- The list the program works on, and its file. -/
structure Program where
  expenses : List Expense
  file : Option Text

/-- The start of `main`; a file that cannot be loaded counts as empty. -/
def Program.start (f : Formats) (clock : Nat → DateTime) (file : Option Text) : Program :=
  ⟨(loadExpenses f clock file).getD [], file⟩

/-- One command, `quit` apart. -/
def Program.execute (f : Formats) (now : DateTime) (p : Program) : Command → Program
  | .add description amount category =>
    let expenses := p.expenses ++ [Expense.new now description amount category]
    ⟨expenses, some (saveExpenses f expenses)⟩
  | .delete index =>
    if p.expenses.length ≤ index then p
    else
      let expenses := p.expenses.eraseIdx index
      ⟨expenses, some (saveExpenses f expenses)⟩
  | .export path =>
    if f.isFilePath path then { p with file := some (exportCsv f p.expenses) } else p
  | .list | .total _ | .summary | .help | .quit => p

/-- A line of input, and the time it is executed. -/
structure Line where
  text : Text
  now : DateTime

/-- `prompt`, then `parse_command`. -/
def Line.command (line : Line) : Option Command := parseCommand line.text.trim

/-- The loop of `main`; `none` when it is still running at the end of the lines. -/
def repl (f : Formats) : Program → List Line → Option Program
  | _, [] => none
  | p, line :: lines =>
    match line.command with
    | some .quit => some p
    | some command => repl f (p.execute f line.now command) lines
    | none => repl f p lines

/-- The input of a session, which quits, and the clock of the start that comes after it. -/
structure Session where
  lines : List Line
  nextClock : Nat → DateTime
  quits : ∃ line ∈ lines, line.command = some .quit

/-- **A session that quits ends.** -/
theorem repl_isSome {f : Formats} {lines : List Line} (p : Program)
    (h : ∃ line ∈ lines, line.command = some .quit) : (repl f p lines).isSome := by
  induction lines generalizing p with
  | nil =>
    obtain ⟨_, hmem, _⟩ := h
    cases hmem
  | cons line lines ih =>
    have hrest : line.command ≠ some .quit → ∃ l ∈ lines, l.command = some .quit := by
      intro hne
      obtain ⟨l, hmem, hl⟩ := h
      rcases List.mem_cons.mp hmem with rfl | hmem
      · exact absurd hl hne
      · exact ⟨l, hmem, hl⟩
    rw [repl]
    split
    · rfl
    · next hne hcommand => exact ih _ (hrest (by rw [hcommand]; simpa using hne))
    · next hcommand => exact ih _ (hrest (by rw [hcommand]; nofun))

/-- The program when the session quits. -/
def Session.atQuit (f : Formats) (p : Program) (s : Session) : Program :=
  (repl f p s.lines).get (repl_isSome p s.quits)

/-- A session, and the start after it. -/
def Session.exec (f : Formats) (p : Program) (s : Session) : Unit × Program :=
  ((), .start f s.nextClock (s.atQuit f p).file)

end RustFundamentals.ExpenseTracker
