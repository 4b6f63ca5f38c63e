import RustFundamentals.ExpenseTracker.Survival
import RustFundamentals.Foundation.Loop

/-!
# expense-tracker: the end of the input

The loop of `main` on the bytes of its standard input. `read_line` answers a line, and at the end
of the input an empty one, which the loop takes for a blank line and asks for the next. So it ends
on `quit`, or on a line that is no text, or not at all (`repl_ends_iff`).
-/

namespace RustFundamentals.ExpenseTracker

open Foundation

/-- `stdin().read_line`: the bytes up to and with the next newline, and the rest. -/
def readLine (stdin : Bytes) : Bytes × Bytes :=
  let n := Lines.cut Text.newlineByte stdin 0
  (stdin.take n, stdin.drop n)

/-- The error of `read_line` for bytes that are no text. -/
def invalidUtf8 : Text := "stream did not contain valid UTF-8".toList

/-- `prompt`: the trimmed line, and the rest of the input. -/
def prompt (stdin : Bytes) : Except Text (Text × Bytes) :=
  let (line, rest) := readLine stdin
  if validUtf8 line then .ok ((Text.fromUtf8Lossy line).trim, rest) else .error invalidUtf8

/-- What the loop works on: its input, the list and its file, and the readings of the clock. -/
structure Repl where
  stdin : Bytes
  program : Program
  clock : Nat → DateTime

/-- The body of the loop of `main`: it goes on, breaks, or returns an error. -/
def Repl.round (f : Formats) (s : Repl) : Except Text (Program ⊕ Repl) := do
  let (input, rest) ← prompt s.stdin
  match parseCommand input with
  | none => return .inr { s with stdin := rest }
  | some .quit => return .inl s.program
  | some command =>
    return .inr ⟨rest, s.program.execute f (s.clock 0) command, fun i => s.clock (i + 1)⟩

/-- `main` returns. -/
def Repl.Ends (f : Formats) (s : Repl) : Prop := ∃ fuel r, runLoop (Repl.round f) fuel s = some r

/-! ## The lines of the input -/

/-- The lines of the input, with the newlines that end them. -/
def inputLines (stdin : Bytes) : List Bytes :=
  (Lines.records Text.newlineByte stdin).map (· ++ [10]) ++
    if (Lines.unended Text.newlineByte stdin).isEmpty then []
    else [Lines.unended Text.newlineByte stdin]

theorem inputLines_nil : inputLines [] = [] := rfl

/-- `read_line` takes the first line. -/
theorem inputLines_eq {stdin : Bytes} (h : stdin ≠ []) :
    inputLines stdin = (readLine stdin).1 :: inputLines (readLine stdin).2 := by
  rcases Lines.record_or_unended Text.newlineByte stdin with ⟨r, a, bs, rfl, hr, ha⟩ | hall
  · obtain rfl : a = 10 := by simpa [Text.newlineByte] using ha
    have hcut : Lines.cut Text.newlineByte (r ++ 10 :: bs) 0 = (r ++ [10]).length := by
      rw [Lines.cut, List.drop_zero, Lines.walk_record hr rfl, List.length_append,
        List.length_singleton, Nat.zero_add]
    have hsplit : r ++ 10 :: bs = (r ++ [10]) ++ bs := by simp
    have hread : readLine (r ++ 10 :: bs) = (r ++ [10], bs) := by
      rw [readLine, hcut, hsplit, List.take_left, List.drop_left]
    rw [hread, inputLines, Lines.records, Lines.unended, Lines.split_record hr rfl]
    rfl
  · have hcut : Lines.cut Text.newlineByte stdin 0 = stdin.length := by
      rw [Lines.cut, List.drop_zero, Lines.walk_of_not_sep hall, Nat.zero_add]
    have hread : readLine stdin = (stdin, []) := by
      rw [readLine, hcut, List.take_length, List.drop_length]
    rw [hread, inputLines, Lines.records, Lines.unended, Lines.split_of_not_sep hall,
      if_neg (by simpa using h), inputLines_nil]
    rfl

/-! ## The end of the loop -/

/-- The first word of a line, as `parse_command` takes it. -/
def firstWord (line : Bytes) : Text := ((Text.fromUtf8Lossy line).trim).takeWhile (· != ' ')

/-- The line is not UTF-8, or its first word is `quit` or `q`. -/
def EndsLoop (line : Bytes) : Prop :=
  validUtf8 line = false ∨ firstWord line = "quit".toList ∨ firstWord line = "q".toList

instance (line : Bytes) : Decidable (EndsLoop line) := inferInstanceAs (Decidable (_ ∨ _ ∨ _))

theorem parseAdd_ne_quit (rest : Text) : parseAdd rest ≠ some .quit := by
  intro h
  unfold parseAdd at h
  split at h
  · obtain ⟨amount, -, hadd⟩ := Option.map_eq_some_iff.mp h
    cases hadd
  · cases h

theorem parseDelete_ne_quit (rest : Text) : parseDelete rest ≠ some .quit := by
  intro h
  unfold parseDelete at h
  split at h <;> cases h

theorem namedCommand_quit {cmd rest : Text} :
    namedCommand cmd rest = some .quit ↔ cmd = "quit".toList ∨ cmd = "q".toList := by
  unfold namedCommand
  refine ⟨?_, fun h => if_pos h⟩
  intro h
  by_contra hne
  rw [if_neg hne] at h
  split at h
  · cases h
  split at h
  · cases h
  split at h
  · cases h
  split at h
  · exact parseDelete_ne_quit rest h
  split at h
  · exact parseAdd_ne_quit rest h
  split at h
  · cases h
  split at h
  · split at h <;> cases h
  · cases h

/-- The command of a line is the one its first word names. -/
theorem parseCommand_eq {input : Text} (h : input.trim ≠ []) :
    ∃ rest, parseCommand input = namedCommand (input.trim.takeWhile (· != ' ')) rest := by
  rw [parseCommand, if_neg (by simpa using h), Text.splitn, List.span_eq_takeWhile_dropWhile]
  cases input.trim.dropWhile (· != ' ') with
  | nil => exact ⟨[], rfl⟩
  | cons _ rest => exact ⟨rest, rfl⟩

/-- **A line is `quit`** by its first word. -/
theorem parseCommand_quit {input : Text} :
    parseCommand input = some .quit ↔
      input.trim.takeWhile (· != ' ') = "quit".toList ∨
        input.trim.takeWhile (· != ' ') = "q".toList := by
  by_cases hempty : input.trim = []
  · rw [parseCommand, if_pos (by simpa using hempty), hempty]
    decide
  · obtain ⟨rest, heq⟩ := parseCommand_eq hempty
    rw [heq, namedCommand_quit]

theorem prompt_eq (stdin : Bytes) :
    prompt stdin =
      if validUtf8 (readLine stdin).1 then
        .ok ((Text.fromUtf8Lossy (readLine stdin).1).trim, (readLine stdin).2)
      else .error invalidUtf8 := rfl

/-- A line that does not end the loop: the next one is asked for. -/
theorem round_goes_on (f : Formats) {s : Repl} (h : ¬ EndsLoop (readLine s.stdin).1) :
    ∃ s', s.round f = .ok (.inr s') ∧ s'.stdin = (readLine s.stdin).2 := by
  obtain ⟨hvalid, hquit⟩ := not_or.mp h
  rw [Bool.not_eq_false] at hvalid
  have hcommand : parseCommand (Text.fromUtf8Lossy (readLine s.stdin).1).trim ≠ some .quit := by
    intro heq
    rw [parseCommand_quit, Text.trim_trim] at heq
    exact hquit heq
  rw [Repl.round, prompt_eq, if_pos hvalid]
  simp only [bind, Except.bind]
  split
  · exact ⟨_, rfl, rfl⟩
  · next heq => exact absurd heq hcommand
  · exact ⟨_, rfl, rfl⟩

/-- A line that ends it. -/
theorem round_ends (f : Formats) {s : Repl} (h : EndsLoop (readLine s.stdin).1) :
    (∃ e, s.round f = .error e) ∨ ∃ p, s.round f = .ok (.inl p) := by
  by_cases hvalid : validUtf8 (readLine s.stdin).1 = true
  · have hquit : parseCommand (Text.fromUtf8Lossy (readLine s.stdin).1).trim = some .quit := by
      rw [parseCommand_quit, Text.trim_trim]
      exact h.resolve_left (by simp [hvalid])
    refine .inr ⟨s.program, ?_⟩
    rw [Repl.round, prompt_eq, if_pos hvalid]
    simp only [bind, Except.bind, hquit]
    rfl
  · refine .inl ⟨invalidUtf8, ?_⟩
    rw [Repl.round, prompt_eq, if_neg hvalid]
    rfl

/-- **Without such a line the loop goes on for ever**: at the end of the input it is asked for the
next line again and again. -/
theorem repl_goes_on (f : Formats) {s : Repl} (h : ∀ line ∈ inputLines s.stdin, ¬ EndsLoop line)
    (fuel : Nat) : runLoop (Repl.round f) fuel s = none := by
  refine @runLoop_eq_none _ _ _ (Repl.round f)
    (fun s => ∀ line ∈ inputLines s.stdin, ¬ EndsLoop line) ?_ s h fuel
  intro s hs
  by_cases hend : s.stdin = []
  · have hread : readLine s.stdin = ([], []) := by rw [hend]; rfl
    obtain ⟨s', hround, hstdin⟩ := @round_goes_on f s (by rw [hread]; decide)
    refine ⟨s', hround, ?_⟩
    rw [hstdin, hread]
    nofun
  · rw [inputLines_eq hend] at hs
    obtain ⟨hfirst, hrest⟩ := List.forall_mem_cons.mp hs
    obtain ⟨s', hround, hstdin⟩ := round_goes_on f hfirst
    exact ⟨s', hround, hstdin ▸ hrest⟩

/-- **The loop ends** exactly on an input with a line that is `quit`, or that is not UTF-8. -/
theorem repl_ends_iff (f : Formats) (s : Repl) :
    s.Ends f ↔ ∃ line ∈ inputLines s.stdin, EndsLoop line := by
  refine ⟨?_, ?_⟩
  · intro hends
    by_contra hnone
    push Not at hnone
    obtain ⟨fuel, r, hrun⟩ := hends
    rw [repl_goes_on f hnone fuel] at hrun
    cases hrun
  · rintro ⟨line, hline, hends⟩
    generalize hlines : inputLines s.stdin = lines at hline
    induction lines generalizing s with
    | nil => cases hline
    | cons first lines ih =>
      have hne : s.stdin ≠ [] := by
        intro hnil
        rw [hnil, inputLines_nil] at hlines
        cases hlines
      rw [inputLines_eq hne] at hlines
      obtain ⟨hfirst, hrest⟩ := List.cons.inj hlines
      by_cases hnow : EndsLoop first
      · rcases round_ends f (hfirst ▸ hnow) with ⟨e, hround⟩ | ⟨p, hround⟩
        · exact ⟨1, .error e, by rw [runLoop, hround]⟩
        · exact ⟨1, .ok p, by rw [runLoop, hround]⟩
      · obtain ⟨s', hround, hstdin⟩ := round_goes_on f (hfirst ▸ hnow)
        have hmem : line ∈ lines := by
          rcases List.mem_cons.mp hline with rfl | hmem
          · exact absurd hends hnow
          · exact hmem
        obtain ⟨fuel, r, hrun⟩ := ih s' (by rw [hstdin, hrest]) hmem
        exact ⟨fuel + 1, r, by rw [runLoop, hround]; exact hrun⟩

/-- The input `list`, with a newline and no `quit`. -/
def listOnly : Bytes := ascii "list\n"

/-- It is read, and then its end again and again. -/
theorem listOnly_never_ends :
    ¬ (Repl.mk listOnly (.start sampleFormats (fun _ => 0) none) fun _ => 0).Ends sampleFormats := by
  intro hends
  obtain ⟨fuel, r, hrun⟩ := hends
  have hnone : ∀ line ∈ inputLines listOnly, ¬ EndsLoop line := by decide +kernel
  rw [repl_goes_on sampleFormats hnone fuel] at hrun
  cases hrun

end RustFundamentals.ExpenseTracker
