import Mathlib.Data.Rat.Encodable
import Mathlib.Logic.Equiv.List
import RustFundamentals.ExpenseTracker.Sessions

/-!
# expense-tracker: what survives a session

The list a session ends with is the one its commands make of the list it began with (`ledger`).
Whether the next start reads that list back depends on what was written to the file last
(`lastWrite`): the list itself, provided all amounts are finite; CSV, which is not read at all; or
nothing, and then records without a date are dated anew (`nothing_lost_iff`).
-/

namespace RustFundamentals.ExpenseTracker

open Foundation

variable {f : Formats}

/-! ## The ledger -/

/-- The commands of the lines up to `quit`, and when they are executed. -/
def accepted : List Line → List (DateTime × Command)
  | [] => []
  | line :: lines =>
    match line.command with
    | some .quit => []
    | some command => (line.now, command) :: accepted lines
    | none => accepted lines

theorem accepted_quit {line : Line} (h : line.command = some .quit) (lines : List Line) :
    accepted (line :: lines) = [] := by
  rw [accepted, h]

theorem accepted_some {line : Line} {command : Command} (h : line.command = some command)
    (hne : command ≠ .quit) (lines : List Line) :
    accepted (line :: lines) = (line.now, command) :: accepted lines := by
  rw [accepted, h]
  cases command with
  | quit => exact absurd rfl hne
  | _ => rfl

theorem accepted_none {line : Line} (h : line.command = none) (lines : List Line) :
    accepted (line :: lines) = accepted lines := by
  rw [accepted, h]

/-- What a command is to do: an expense is added or removed, and nothing else changes. -/
def ledgerStep (expenses : List Expense) : DateTime × Command → List Expense
  | (now, .add description amount category) => expenses ++ [⟨description, amount, category, now⟩]
  | (_, .delete index) => expenses.eraseIdx index
  | _ => expenses

/-- The list after commands. -/
def ledger (expenses : List Expense) (commands : List (DateTime × Command)) : List Expense :=
  commands.foldl ledgerStep expenses

/-- **A command does what it is to do.** -/
theorem execute_expenses (f : Formats) (now : DateTime) (p : Program) (command : Command) :
    (p.execute f now command).expenses = ledgerStep p.expenses (now, command) := by
  cases command with
  | add => rfl
  | delete index =>
    rw [Program.execute, ledgerStep]
    split
    · next hle => rw [List.eraseIdx_of_length_le hle]
    · rfl
  | «export» path =>
    rw [Program.execute]
    split <;> rfl
  | list => rfl
  | total => rfl
  | summary => rfl
  | help => rfl
  | quit => rfl

/-! ## The last write -/

/-- What the file holds: what the session found there, the list, or its CSV. -/
inductive Contents
  | found
  | saved
  | exported
  deriving DecidableEq

/-- What a command writes to the file. -/
def written (f : Formats) (expenses : List Expense) : Command → Option Contents
  | .add _ _ _ => some .saved
  | .delete index => if expenses.length ≤ index then none else some .saved
  | .export path => if f.isFilePath path then some .exported else none
  | .list | .total _ | .summary | .help | .quit => none

/-- What commands write last, when before them the file holds `contents`. -/
def lastWrite (f : Formats) (contents : Contents) (expenses : List Expense) :
    List (DateTime × Command) → Contents
  | [] => contents
  | c :: cs => lastWrite f ((written f expenses c.2).getD contents) (ledgerStep expenses c) cs

/-- The file holds that, in a session that began with `began`. -/
def Holds (f : Formats) (began : Program) (p : Program) : Contents → Prop
  | .found => p = began
  | .saved => p.file = some (saveExpenses f p.expenses)
  | .exported => p.file = some (exportCsv f p.expenses)

theorem execute_holds {began p : Program} {contents : Contents} (h : Holds f began p contents)
    (now : DateTime) (command : Command) :
    Holds f began (p.execute f now command) ((written f p.expenses command).getD contents) := by
  cases command with
  | add => rfl
  | delete index =>
    rw [Program.execute, written]
    split
    · exact h
    · rfl
  | «export» path =>
    rw [Program.execute, written]
    split
    · rfl
    · exact h
  | list => exact h
  | total => exact h
  | summary => exact h
  | help => exact h
  | quit => exact h

/-- **A session keeps its ledger**, and its file holds what was written last. -/
theorem repl_spec {began p q : Program} {contents : Contents} {lines : List Line}
    (h : Holds f began p contents) (hq : repl f p lines = some q) :
    q.expenses = ledger p.expenses (accepted lines) ∧
      Holds f began q (lastWrite f contents p.expenses (accepted lines)) := by
  induction lines generalizing p contents with
  | nil => cases hq
  | cons line lines ih =>
    -- as `repl` does: quit, a command, or a line that is none
    rw [repl] at hq
    split at hq
    · next hcommand =>
      cases hq
      rw [accepted_quit hcommand]
      exact ⟨rfl, h⟩
    · next command hne hcommand =>
      obtain ⟨hexpenses, hholds⟩ := ih (execute_holds h line.now command) hq
      rw [execute_expenses] at hexpenses hholds
      rw [accepted_some hcommand fun hquit => hne hquit]
      exact ⟨hexpenses, hholds⟩
    · next hcommand =>
      rw [accepted_none hcommand]
      exact ih h hq

theorem Session.atQuit_spec (s : Session) (p : Program) :
    (s.atQuit f p).expenses = ledger p.expenses (accepted s.lines) ∧
      Holds f p (s.atQuit f p) (lastWrite f .found p.expenses (accepted s.lines)) :=
  repl_spec rfl (Option.some_get _).symm

/-! ## Reading back -/

theorem deserializeAll_serialize (clock : Nat → DateTime) {expenses : List Expense}
    (h : ∀ e ∈ expenses, e.IsFinite) :
    deserializeAll clock (expenses.map Expense.serialize) = some expenses := by
  induction expenses generalizing clock with
  | nil => rfl
  | cons e expenses ih =>
    obtain ⟨q, hq⟩ := h e List.mem_cons_self
    have he : e.serialize.deserialize (clock 0) = some e := by
      cases e
      cases hq
      rfl
    rw [List.map_cons, deserializeAll, he, ih _ fun e he => h e (List.mem_cons_of_mem _ he)]
    rfl

/-- One amount that is not finite, and nothing is read. -/
theorem deserializeAll_infinite (clock : Nat → DateTime) {expenses : List Expense} {e : Expense}
    (hmem : e ∈ expenses) (he : ¬ e.IsFinite) :
    deserializeAll clock (expenses.map Expense.serialize) = none := by
  induction expenses generalizing clock with
  | nil => cases hmem
  | cons e' expenses ih =>
    rw [List.map_cons, deserializeAll]
    rcases List.mem_cons.mp hmem with rfl | hmem
    · have hnone : e.serialize.deserialize (clock 0) = none := by
        rw [Record.deserialize, Expense.serialize]
        dsimp only
        split
        · next q hq => exact absurd ⟨q, hq⟩ he
        · rfl
      rw [hnone]
      rfl
    · rw [ih _ hmem]
      cases e'.serialize.deserialize (clock 0) <;> rfl

theorem start_saved_iff (hf : f.Documented) (clock : Nat → DateTime) (expenses : List Expense) :
    (Program.start f clock (some (saveExpenses f expenses))).expenses = expenses ↔
      ∀ e ∈ expenses, e.IsFinite := by
  have hparse : f.parse (saveExpenses f expenses) = some (expenses.map Expense.serialize) :=
    hf.round_trip expenses
  show ((f.parse _).bind _).getD [] = expenses ↔ _
  rw [hparse, Option.bind_some]
  constructor
  · intro h e hmem
    by_contra he
    rw [deserializeAll_infinite clock hmem he] at h
    rw [← h] at hmem
    cases hmem
  · intro h
    rw [deserializeAll_serialize clock h]
    rfl

/-- CSV is no JSON array. -/
theorem parse_exportCsv (hf : f.Documented) (expenses : List Expense) :
    f.parse (exportCsv f expenses) = none := by
  cases hparse : f.parse (exportCsv f expenses) with
  | none => rfl
  | some records =>
    obtain ⟨rest, hrest⟩ := hf.array _ _ hparse
    -- the text is empty, or begins with the header's `d`
    cases expenses with
    | nil => cases hrest
    | cons e expenses =>
      have hhead := congrArg List.head? hrest
      cases hhead

theorem start_exported_iff (hf : f.Documented) (clock : Nat → DateTime) (expenses : List Expense) :
    (Program.start f clock (some (exportCsv f expenses))).expenses = expenses ↔ expenses = [] := by
  show ((f.parse _).bind _).getD [] = expenses ↔ _
  rw [parse_exportCsv hf]
  exact eq_comm

theorem deserialize_again {now now' : DateTime} {r : Record} {e : Expense}
    (h : r.deserialize now = some e) :
    r.deserialize now' = some e ↔ (r.date = none → now' = e.date) := by
  obtain ⟨q, hq, rfl⟩ := Option.map_eq_some_iff.mp h
  rw [Record.deserialize, hq, Option.map_some, Option.some_inj, Expense.mk.injEq]
  cases r.date <;> simp

theorem deserializeAll_cons {clock : Nat → DateTime} {r : Record} {records : List Record}
    {expenses : List Expense} :
    deserializeAll clock (r :: records) = some expenses ↔
      ∃ e rest, r.deserialize (clock 0) = some e ∧
        deserializeAll (fun i => clock (i + 1)) records = some rest ∧ expenses = e :: rest := by
  rw [deserializeAll]
  cases r.deserialize (clock 0) with
  | none => simp
  | some e =>
    cases deserializeAll (fun i => clock (i + 1)) records with
    | none => simp
    | some rest => simp [eq_comm]

/-- **Reading again**: records without a date have the date of their reading, so the clock has to
show it again. -/
theorem deserializeAll_again {clock clock' : Nat → DateTime} {records : List Record}
    {expenses : List Expense} (h : deserializeAll clock records = some expenses) :
    deserializeAll clock' records = some expenses ↔
      ∀ i r e, records[i]? = some r → expenses[i]? = some e → r.date = none →
        clock' i = e.date := by
  induction records generalizing clock clock' expenses with
  | nil =>
    cases h
    simp [deserializeAll]
  | cons record records ih =>
    obtain ⟨e, rest, he, hrest, rfl⟩ := deserializeAll_cons.mp h
    have hhead := @deserialize_again _ (clock' 0) _ _ he
    have htail := @ih _ (fun i => clock' (i + 1)) _ hrest
    have hcons : deserializeAll clock' (record :: records) = some (e :: rest) ↔
        record.deserialize (clock' 0) = some e ∧
          deserializeAll (fun i => clock' (i + 1)) records = some rest := by
      rw [deserializeAll_cons]
      simp
    rw [hcons, hhead, htail]
    constructor
    · intro hall i r e' hr he'
      cases i with
      | zero =>
        cases hr
        cases he'
        exact hall.1
      | succ i => exact hall.2 i r e' hr he'
    · intro hall
      exact ⟨hall 0 record e rfl rfl, fun i r e' hr he' => hall (i + 1) r e' hr he'⟩

/-- Whether records can be read does not depend on the clock. -/
theorem deserializeAll_isSome (clock clock' : Nat → DateTime) (records : List Record) :
    (deserializeAll clock' records).isSome = (deserializeAll clock records).isSome := by
  induction records generalizing clock clock' with
  | nil => rfl
  | cons record records ih =>
    rw [deserializeAll, deserializeAll]
    cases hamount : record.amount with
    | none => simp [Record.deserialize, hamount]
    | some q =>
      have hrest := ih (fun i => clock (i + 1)) (fun i => clock' (i + 1))
      rw [Record.deserialize, Record.deserialize, hamount]
      revert hrest
      cases deserializeAll (fun i => clock (i + 1)) records <;>
        cases deserializeAll (fun i => clock' (i + 1)) records <;> simp

/-- The records of the file without a date were dated when the clock showed what it shows at the
next start. -/
def Redated (f : Formats) (clock : Nat → DateTime) (p : Program) : Prop :=
  ∀ i r e, ((p.file.bind f.parse).getD [])[i]? = some r → p.expenses[i]? = some e →
    r.date = none → clock i = e.date

/-- The program has just started. -/
def Started (f : Formats) (p : Program) : Prop := ∃ clock file, p = .start f clock file

theorem start_found_iff {p : Program} (hp : Started f p) (clock' : Nat → DateTime) :
    (Program.start f clock' p.file).expenses = p.expenses ↔ Redated f clock' p := by
  obtain ⟨clock, file, rfl⟩ := hp
  cases file with
  | none => simp [Program.start, loadExpenses, Redated]
  | some data =>
    show ((f.parse data).bind (deserializeAll clock')).getD [] =
      ((f.parse data).bind (deserializeAll clock)).getD [] ↔
      ∀ i r e, ((f.parse data).getD [])[i]? = some r →
        (((f.parse data).bind (deserializeAll clock)).getD [])[i]? = some e →
          r.date = none → clock' i = e.date
    cases f.parse data with
    | none => simp
    | some records =>
      rw [Option.bind_some, Option.bind_some, Option.getD_some]
      -- both starts fail to read the records, or neither does
      have hsame := deserializeAll_isSome clock clock' records
      cases hread : deserializeAll clock records with
      | none =>
        rw [hread, Option.isSome_none, Option.isSome_eq_false_iff, Option.isNone_iff_eq_none]
          at hsame
        simp [hsame]
      | some expenses =>
        rw [hread] at hsame
        obtain ⟨expenses', hread'⟩ := Option.isSome_iff_exists.mp hsame
        rw [Option.getD_some, ← deserializeAll_again hread, hread', Option.getD_some,
          Option.some_inj]

/-! ## Sessions -/

/-- **What survives a session**, by what it writes to the file last. -/
def Survives (f : Formats) (p : Program) (s : Session) : Prop :=
  match lastWrite f .found p.expenses (accepted s.lines) with
  | .found => Redated f s.nextClock p
  | .saved => ∀ e ∈ ledger p.expenses (accepted s.lines), e.IsFinite
  | .exported => ledger p.expenses (accepted s.lines) = []

/-- A session ends with its ledger, and the next one begins with it. -/
def Kept (f : Formats) (p : Program) (s : Session) : Prop :=
  (s.atQuit f p).expenses = ledger p.expenses (accepted s.lines) ∧
    (s.exec f p).2.expenses = (s.atQuit f p).expenses

theorem kept_iff (hf : f.Documented) {p : Program} (hp : Started f p) (s : Session) :
    Kept f p s ↔ Survives f p s := by
  obtain ⟨hledger, hholds⟩ := s.atQuit_spec (f := f) p
  rw [Kept, and_iff_right hledger, Survives, ← hledger]
  -- the next start reads what the session wrote last
  show (Program.start f s.nextClock (s.atQuit f p).file).expenses = _ ↔ _
  cases hlast : lastWrite f .found p.expenses (accepted s.lines) with
  | found =>
    rw [hlast] at hholds
    rw [show s.atQuit f p = p from hholds]
    exact start_found_iff hp s.nextClock
  | saved =>
    rw [hlast] at hholds
    rw [show (s.atQuit f p).file = _ from hholds]
    exact start_saved_iff hf s.nextClock _
  | exported =>
    rw [hlast] at hholds
    rw [show (s.atQuit f p).file = _ from hholds]
    exact start_exported_iff hf s.nextClock _

/-- **Nothing is lost between sessions, exactly when each session's list survives its last
write.** -/
theorem nothing_lost_iff (hf : f.Documented) (clock : Nat → DateTime) (file : Option Text)
    (sessions : List Session) :
    Along (Session.exec f) (Kept f) (.start f clock file) sessions ↔
      Along (Session.exec f) (Survives f) (.start f clock file) sessions := by
  refine Along.iff_of_invariant (Started f) (fun p s hp => kept_iff hf hp s) ?_
    ⟨clock, file, rfl⟩ sessions
  intro p s _ _
  exact ⟨s.nextClock, (s.atQuit f p).file, rfl⟩

/-- Then the list is the one all the commands make. -/
theorem nothing_lost {p : Program} {sessions : List Session}
    (h : Along (Session.exec f) (Kept f) p sessions) :
    (runFrom (Session.exec f) p sessions).expenses =
      ledger p.expenses (sessions.flatMap fun s => accepted s.lines) := by
  induction sessions generalizing p with
  | nil => rfl
  | cons s sessions ih =>
    obtain ⟨⟨hledger, hkept⟩, hrest⟩ := h
    rw [runFrom_cons, ih hrest, hkept, hledger, List.flatMap_cons, ledger, ledger, ledger,
      List.foldl_append]

/-! ## Two sessions -/

/-- `add 4.5 food Coffee`, at the epoch. -/
def coffee : Expense := ⟨"Coffee".toList, .finite (9 / 2), "food".toList, 0⟩

/-- `add nan food Tea`. -/
def tea : Expense := ⟨"Tea".toList, .nan, "food".toList, 0⟩

/-- The file that holds the coffee. -/
def coffeeText : Text :=
  '[' :: '\n' ::
    "  \x7b\n    \"description\": \"Coffee\",\n    \"amount\": 4.5,\n".toList ++
    "    \"category\": \"food\",\n    \"date\": \"1970-01-01T00:00:00Z\"\n  \x7d\n]".toList

/-- The file that holds both. -/
def teaText : Text :=
  '[' :: '\n' ::
    "  \x7b\n    \"description\": \"Coffee\",\n    \"amount\": 4.5,\n".toList ++
    "    \"category\": \"food\",\n    \"date\": \"1970-01-01T00:00:00Z\"\n  \x7d,\n".toList ++
    "  \x7b\n    \"description\": \"Tea\",\n    \"amount\": null,\n".toList ++
    "    \"category\": \"food\",\n    \"date\": \"1970-01-01T00:00:00Z\"\n  \x7d\n]".toList

instance : Encodable Record :=
  Encodable.ofLeftInverse
    (fun r => (r.description.map Char.toNat, r.amount, r.category.map Char.toNat, r.date))
    (fun t => ⟨t.1.map Char.ofNat, t.2.1, t.2.2.1.map Char.ofNat, t.2.2.2⟩)
    fun r => by simp [Function.comp_def]

/-- Formats that write those two files as they are, and other lists in unary. -/
def sampleFormats : Formats where
  render records :=
    if records = [coffee.serialize] then coffeeText
    else if records = [coffee.serialize, tea.serialize] then teaText
    else '[' :: List.replicate (Encodable.encode records) '1'
  parse text :=
    if text = coffeeText then some [coffee.serialize]
    else if text = teaText then some [coffee.serialize, tea.serialize]
    else if text.head? = some '[' then Encodable.decode (text.length - 1)
    else none
  csvRows _ := []
  isFilePath path := path = "expenses.json".toList

theorem unary_ne {text : Text} (h : text[1]? = some '\n') (n : Nat) :
    '[' :: List.replicate n '1' ≠ text := by
  intro htext
  rw [← htext] at h
  cases n with
  | zero => cases h
  | succ n => cases h

theorem sampleFormats_documented : sampleFormats.Documented where
  round_trip expenses := by
    show sampleFormats.parse (sampleFormats.render _) = _
    generalize expenses.map Expense.serialize = records
    simp only [sampleFormats]
    by_cases hcoffee : records = [coffee.serialize]
    · rw [if_pos hcoffee, if_pos rfl, hcoffee]
    by_cases htea : records = [coffee.serialize, tea.serialize]
    · rw [if_neg hcoffee, if_pos htea, if_neg (by decide +kernel), if_pos rfl, htea]
    rw [if_neg hcoffee, if_neg htea, if_neg (unary_ne rfl _), if_neg (unary_ne rfl _)]
    simp
  array text records h := by
    simp only [sampleFormats] at h
    split at h
    · next htext => exact ⟨_, by rw [htext]; rfl⟩
    split at h
    · next htext => exact ⟨_, by rw [htext]; rfl⟩
    split at h
    · next hhead =>
      obtain ⟨rest, rfl⟩ := List.head?_eq_some_iff.mp hhead
      exact ⟨rest, rfl⟩
    · cases h

/-- `add 4.5 food Coffee`, `quit`. -/
def coffeeSession : Session where
  lines := [⟨"add 4.5 food Coffee\n".toList, 0⟩, ⟨"quit\n".toList, 0⟩]
  nextClock _ := 1
  quits := ⟨⟨"quit\n".toList, 0⟩, .tail _ (.head _), by decide +kernel⟩

theorem coffee_kept :
    sampleFormats.Documented ∧
      (Along (Session.exec sampleFormats) (Kept sampleFormats)
          (.start sampleFormats (fun _ => 0) none) [coffeeSession] ↔
        Along (Session.exec sampleFormats) (Survives sampleFormats)
          (.start sampleFormats (fun _ => 0) none) [coffeeSession]) ∧
      (Session.exec sampleFormats (.start sampleFormats (fun _ => 0) none)
        coffeeSession).2.expenses = [coffee] :=
  ⟨sampleFormats_documented, nothing_lost_iff sampleFormats_documented _ _ _, by decide +kernel⟩

/-- `add 4.5 food Coffee`, `add nan food Tea`, `quit`. -/
def teaSession : Session where
  lines := [⟨"add 4.5 food Coffee\n".toList, 0⟩, ⟨"add nan food Tea\n".toList, 0⟩,
    ⟨"quit\n".toList, 0⟩]
  nextClock _ := 1
  quits := ⟨⟨"quit\n".toList, 0⟩, .tail _ (.tail _ (.head _)), by decide +kernel⟩

/-- The session ends with both expenses; the next begins with none. -/
theorem tea_loses :
    sampleFormats.Documented ∧
      (teaSession.atQuit sampleFormats (.start sampleFormats (fun _ => 0) none)).expenses =
        [coffee, tea] ∧
      (Session.exec sampleFormats (.start sampleFormats (fun _ => 0) none) teaSession).2.expenses =
        [] ∧
      ¬ Along (Session.exec sampleFormats) (Kept sampleFormats)
          (.start sampleFormats (fun _ => 0) none) [teaSession] := by
  have hquit : (teaSession.atQuit sampleFormats (.start sampleFormats (fun _ => 0) none)).expenses =
      [coffee, tea] := by decide +kernel
  have hnext : (Session.exec sampleFormats (.start sampleFormats (fun _ => 0) none)
      teaSession).2.expenses = [] := by decide +kernel
  refine ⟨sampleFormats_documented, hquit, hnext, fun hkept => ?_⟩
  obtain ⟨⟨_, hsame⟩, _⟩ := hkept
  rw [hquit, hnext] at hsame
  cases hsame

end RustFundamentals.ExpenseTracker
