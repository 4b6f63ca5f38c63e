import RustFundamentals.Logcrunch.Agreement
import RustFundamentals.Logcrunch.ReportContents

/-!
# logcrunch: the command line

`bin/logcrunch.rs`. The usage that it documents is read as it is meant, and then the report is that
of the file, whatever the mode and the schedule (`file_reported`). The first argument that does not
start with a dash names the file, also if it is the value of an option (`options_first`).
-/

namespace RustFundamentals.Logcrunch

open Foundation

/-! ## The source -/

/-- What `--mode` may be. -/
inductive Mode
  | seq
  | par
  | pipeline
  | rayon
  deriving DecidableEq

/-- The word for a mode. -/
def Mode.word : Mode → Text
  | .seq => "seq".toList
  | .par => "par".toList
  | .pipeline => "pipeline".toList
  | .rayon => "rayon".toList

/-- The mode of a word. -/
def Mode.ofWord (w : Text) : Option Mode := [seq, par, pipeline, rayon].find? fun m => m.word = w

/-- `args.iter().position(|a| a == name)`, and `args.get(i + 1)` if it is there. -/
def valueAfter (name : Text) (args : List Text) : Option (Option Text) :=
  (args.findIdx? fun a => a = name).map fun i => args[i + 1]?

/-- The number after an option, or what it is without the option. -/
def positiveOption (name : Text) (without : Nat) (args : List Text) : Except Text Nat :=
  match valueAfter name args with
  | none => .ok without
  | some value =>
    match value.bind fun v => (parseInt 0 (2 ^ 64 - 1) v).toOption with
    | some n =>
      if 0 < n then .ok n.toNat else .error (name ++ " needs a positive integer\n".toList)
    | none => .error (name ++ " needs a positive integer\n".toList)

/-- The mode after its option. -/
def modeOption (args : List Text) : Except Text Mode :=
  match valueAfter "--mode".toList args with
  | none => .ok .par
  | some value =>
    match value.bind Mode.ofWord with
    | some mode => .ok mode
    | none => .error "--mode must be one of: seq, par, pipeline, rayon\n".toList

/-- What the arguments say. -/
structure Options where
  path : Text
  threads : Nat
  topK : Nat
  mode : Mode
  deriving DecidableEq

/-- What is printed without a file. -/
def usage : Text :=
  "usage: logcrunch <FILE> [--threads N] [--top K] [--mode seq|par|pipeline|rayon]\n".toList

/-- The arguments of `main`, or what it prints instead. `cores` is `default_threads()`. -/
def parseArgs (cores : Nat) (args : List Text) : Except Text Options := do
  let path ← match args.find? fun a => a.head? ≠ some '-' with
    | some path => .ok path
    | none => .error usage
  let threads ← positiveOption "--threads".toList cores args
  let topK ← positiveOption "--top".toList 10 args
  let mode ← modeOption args
  return ⟨path, threads, topK, mode⟩

/-- What the analysis in a mode can come to. -/
inductive Analyzed (ov : Overflow) (data : Bytes) (threads : Nat) : Mode → Option Stats → Prop
  | seq : Analyzed ov data threads .seq (analyzeSequential ov data)
  | par : Analyzed ov data threads .par (analyzeParallel ov data threads)
  | pipeline {p : Pipeline} {es : List PipelineEvent} (hstart : Pipeline.start data threads = some p)
      (hdone : (runFrom (Pipeline.exec ov) p es).Done) :
      Analyzed ov data threads .pipeline ((runFrom (Pipeline.exec ov) p es).result ov)
  /-- The panic goes on once the producer has ended: its batches have to fit the channel, whose
  receiver is still there. -/
  | unstarted (hstart : Pipeline.start data threads = none)
      (hroom : (batchLoop (Text.linesLossy data) []).length ≤ channelCapacity) :
      Analyzed ov data threads .pipeline none
  | rayon {t : Reduction} (ht : t.lines = rayonLines data) :
      Analyzed ov data threads .rayon (t.eval ov)

/-- How a process ends: with a line on stderr, with a report on stdout, or by a panic. -/
inductive Outcome
  | failure (stderr : Text)
  | printed (report : Report)
  | panicked
  deriving DecidableEq

/-- `into_report` and `print!`. -/
def printReport (stats : Option Stats) (topK : Nat) : Outcome :=
  match stats.bind fun s => s.intoReport topK with
  | some report => .printed report
  | none => .panicked

/-- `main`, with the files that can be read, or why not. -/
inductive Main (ov : Overflow) (cores : Nat) (read : Text → Except Text Bytes) (args : List Text) :
    Outcome → Prop
  | refused {e : Text} (h : parseArgs cores args = .error e) : Main ov cores read args (.failure e)
  | unreadable {o : Options} {e : Text} (h : parseArgs cores args = .ok o)
      (hread : read o.path = .error e) :
      Main ov cores read args
        (.failure ("cannot read ".toList ++ o.path ++ ": ".toList ++ e ++ "\n".toList))
  | reported {o : Options} {data : Bytes} {stats : Option Stats} (h : parseArgs cores args = .ok o)
      (hread : read o.path = .ok data) (hstats : Analyzed ov data o.threads o.mode stats) :
      Main ov cores read args (printReport stats o.topK)

/-! ## Arguments -/

/-- An option as it is documented. -/
inductive Opt
  | threads (n : Nat)
  | top (k : Nat)
  | mode (m : Mode)
  deriving DecidableEq

namespace Opt

/-- Its first word. -/
def name : Opt → Text
  | threads _ => "--threads".toList
  | top _ => "--top".toList
  | mode _ => "--mode".toList

/-- Its second word. -/
def value : Opt → Text
  | threads n | top n => decimalText n
  | mode m => m.word

/-- Both. -/
def words (o : Opt) : List Text := [o.name, o.value]

/-- A number is positive and a `usize`. -/
def Valid : Opt → Prop
  | threads n | top n => 0 < n ∧ n < 2 ^ 64
  | mode _ => True

/-- The number of threads it sets. -/
def threads? : Opt → Option Nat
  | threads n => some n
  | _ => none

/-- The size of the leaderboards it sets. -/
def top? : Opt → Option Nat
  | top k => some k
  | _ => none

/-- The mode it sets. -/
def mode? : Opt → Option Mode
  | mode m => some m
  | _ => none

end Opt

/-- What a file and some options mean. The first of two options for the same counts. -/
def optionsOf (cores : Nat) (file : Text) (opts : List Opt) : Options where
  path := file
  threads := (opts.findSome? Opt.threads?).getD cores
  topK := (opts.findSome? Opt.top?).getD 10
  mode := (opts.findSome? Opt.mode?).getD .par

theorem valueAfter_cons_self (name : Text) (args : List Text) :
    valueAfter name (name :: args) = some args.head? := by
  rw [valueAfter, List.findIdx?_cons, if_pos (decide_eq_true rfl), Option.map_some,
    List.getElem?_cons_succ, List.head?_eq_getElem?]

theorem valueAfter_cons_of_ne {name a : Text} (h : a ≠ name) (args : List Text) :
    valueAfter name (a :: args) = valueAfter name args := by
  rw [valueAfter, List.findIdx?_cons, if_neg (by simpa using h), Option.map_map]
  rfl

theorem Mode.ofWord_word (m : Mode) : Mode.ofWord m.word = some m := by
  cases m <;> decide

theorem Mode.head_word (m : Mode) : m.word.head? ≠ some '-' := by
  cases m <;> decide

theorem head_decimalText (n : Nat) : (decimalText n).head? ≠ some '-' := by
  intro h
  exact absurd (isDigit_of_mem_decimalText (List.mem_of_mem_head? h)) (by decide)

theorem Opt.head_value (o : Opt) : o.value.head? ≠ some '-' := by
  cases o with
  | threads n => exact head_decimalText n
  | top k => exact head_decimalText k
  | mode m => exact m.head_word

/-- An option is found by its name; a value is none. -/
theorem valueAfter_words {name : Text} (hname : name.head? = some '-') (o : Opt)
    (rest : List Text) :
    valueAfter name (o.words ++ rest) =
      if o.name = name then some (some o.value) else valueAfter name rest := by
  have hvalue : o.value ≠ name := fun heq => o.head_value (heq ▸ hname)
  by_cases h : o.name = name
  · rw [if_pos h, Opt.words, h]
    exact valueAfter_cons_self _ _
  · rw [if_neg h]
    exact (valueAfter_cons_of_ne h _).trans (valueAfter_cons_of_ne hvalue _)

/-- The value of the first option of a kind. -/
theorem valueAfter_opts {α : Type} {name : Text} (hname : name.head? = some '-')
    {f : Opt → Option α} (text : α → Text)
    (hf : ∀ o, (f o).map text = if o.name = name then some o.value else none)
    (opts : List Opt) :
    valueAfter name (opts.flatMap Opt.words) = (opts.findSome? f).map fun a => some (text a) := by
  induction opts with
  | nil => rfl
  | cons o opts ih =>
    have ho := hf o
    rw [List.flatMap_cons, valueAfter_words hname, ih, List.findSome?_cons]
    cases hfo : f o with
    | none =>
      rw [hfo] at ho
      by_cases h : o.name = name
      · rw [if_pos h] at ho
        cases ho
      · rw [if_neg h]
    | some a =>
      rw [hfo] at ho
      by_cases h : o.name = name
      · rw [if_pos h] at ho ⊢
        exact congrArg some ho.symm
      · rw [if_neg h] at ho
        cases ho

/-- A positive `usize` is read. -/
theorem positiveOption_ok {name : Text} {without n : Nat} {args : List Text}
    (h : valueAfter name args = some (some (decimalText n))) (hpos : 0 < n) (hfits : n < 2 ^ 64) :
    positiveOption name without args = .ok n := by
  have hparse : (parseInt 0 (2 ^ 64 - 1) (decimalText n)).toOption = some (n : Int) := by
    rw [parseInt_decimalText (by omega)]
    rfl
  rw [positiveOption, h]
  dsimp only [Option.bind_some]
  rw [hparse]
  dsimp only
  rw [if_pos (by exact_mod_cast hpos)]
  rfl

theorem positiveOption_without {name : Text} {without : Nat} {args : List Text}
    (h : valueAfter name args = none) : positiveOption name without args = .ok without := by
  rw [positiveOption, h]

/-- A number among the documented options is the one that counts. -/
theorem positiveOption_opts (name : Text) (hname : name.head? = some '-') {f : Opt → Option Nat}
    (hf : ∀ o, (f o).map decimalText = if o.name = name then some o.value else none)
    (hpositive : ∀ o n, o.Valid → f o = some n → 0 < n ∧ n < 2 ^ 64) {file : Text}
    (hfile : file.head? ≠ some '-') (without : Nat) {opts : List Opt}
    (hopts : ∀ o ∈ opts, o.Valid) :
    positiveOption name without (file :: opts.flatMap Opt.words) =
      .ok ((opts.findSome? f).getD without) := by
  have hne : file ≠ name := by
    rintro rfl
    exact hfile hname
  have hvalue := (valueAfter_cons_of_ne hne _).trans (valueAfter_opts hname decimalText hf opts)
  cases hfound : opts.findSome? f with
  | none =>
    rw [hfound] at hvalue
    exact positiveOption_without hvalue
  | some n =>
    rw [hfound] at hvalue
    obtain ⟨o, ho, hn⟩ := List.exists_of_findSome?_eq_some hfound
    obtain ⟨hpos, hfits⟩ := hpositive o n (hopts o ho) hn
    exact positiveOption_ok hvalue hpos hfits

theorem threads?_valid (o : Opt) (n : Nat) (h : o.Valid) (hn : o.threads? = some n) :
    0 < n ∧ n < 2 ^ 64 := by
  cases o with
  | threads m =>
    obtain rfl := Option.some.inj hn
    exact h
  | top => cases hn
  | mode => cases hn

theorem top?_valid (o : Opt) (n : Nat) (h : o.Valid) (hn : o.top? = some n) :
    0 < n ∧ n < 2 ^ 64 := by
  cases o with
  | top m =>
    obtain rfl := Option.some.inj hn
    exact h
  | threads => cases hn
  | mode => cases hn

/-- **The documented usage**, with any options in any order, is read as it is meant. -/
theorem parseArgs_documented (cores : Nat) {file : Text} (hfile : file.head? ≠ some '-')
    {opts : List Opt} (hopts : ∀ o ∈ opts, o.Valid) :
    parseArgs cores (file :: opts.flatMap Opt.words) = .ok (optionsOf cores file opts) := by
  have hpath : (file :: opts.flatMap Opt.words).find? (fun a => a.head? ≠ some '-') =
      some file := by
    rw [List.find?_cons, decide_eq_true hfile]
  have hthreads := positiveOption_opts "--threads".toList rfl (f := Opt.threads?)
    (by intro o; cases o <;> rfl) threads?_valid hfile cores hopts
  have htop := positiveOption_opts "--top".toList rfl (f := Opt.top?)
    (by intro o; cases o <;> rfl) top?_valid hfile 10 hopts
  have hne : file ≠ "--mode".toList := by
    rintro rfl
    exact hfile rfl
  have hvalue := (valueAfter_cons_of_ne hne _).trans
    (valueAfter_opts rfl Mode.word (f := Opt.mode?) (by intro o; cases o <;> rfl) opts)
  have hmode : modeOption (file :: opts.flatMap Opt.words) =
      .ok ((opts.findSome? Opt.mode?).getD .par) := by
    rw [modeOption, hvalue]
    cases opts.findSome? Opt.mode? with
    | none => rfl
    | some m =>
      dsimp only [Option.map_some, Option.bind_some]
      rw [Mode.ofWord_word]
      rfl
  rw [parseArgs, hpath, hthreads, htop, hmode]
  rfl

theorem parseArgs_path {cores : Nat} {args : List Text} {o : Options}
    (h : parseArgs cores args = .ok o) :
    (args.find? fun a => a.head? ≠ some '-') = some o.path := by
  rw [parseArgs] at h
  cases hfind : args.find? fun a => a.head? ≠ some '-' with
  | none =>
    rw [hfind] at h
    cases h
  | some path =>
    rw [hfind] at h
    cases hthreads : positiveOption "--threads".toList cores args with
    | error e =>
      rw [hthreads] at h
      cases h
    | ok threads =>
      cases htop : positiveOption "--top".toList 10 args with
      | error e =>
        rw [hthreads, htop] at h
        cases h
      | ok topK =>
        cases hmode : modeOption args with
        | error e =>
          rw [hthreads, htop, hmode] at h
          cases h
        | ok mode =>
          rw [hthreads, htop, hmode] at h
          cases h
          rfl

/-- **With an option in front**, its value is taken for the file. -/
theorem options_first {cores : Nat} {opt : Opt} {rest : List Text} {o : Options}
    (h : parseArgs cores (opt.words ++ rest) = .ok o) : o.path = opt.value := by
  have hname : opt.name.head? = some '-' := by cases opt <;> rfl
  have hfind := parseArgs_path h
  rw [Opt.words, List.cons_append, List.find?_cons, List.cons_append, List.find?_cons,
    decide_eq_false (not_not.mpr hname), decide_eq_true opt.head_value] at hfind
  exact (Option.some.inj hfind).symm

/-! ## The report -/

theorem Analyzed.analysis {ov : Overflow} {data : Bytes} {threads : Nat} {mode : Mode}
    {stats : Option Stats} (h : Analyzed ov data threads mode stats) (hthreads : 0 < threads)
    (hcuts : mode = .par → (threads - 1) * data.length < 2 ^ 64)
    (hhandles : mode = .pipeline → joinHandleSize * threads ≤ isizeMax) :
    Analysis ov data stats := by
  cases h with
  | seq => exact .sequential
  | par => exact .parallel (hcuts rfl)
  | pipeline hstart hdone => exact .pipeline hthreads hstart hdone
  | unstarted hstart _ =>
    obtain ⟨p, hp⟩ := Pipeline.start_isSome_iff.mpr (hhandles rfl)
    rw [hstart] at hp
    cases hp
  | rayon ht => exact .rayon ht

/-- An analysis comes to an end in every mode. -/
theorem exists_analyzed (ov : Overflow) {data : Bytes} (hfits : bytesOf (linesOf data) < 2 ^ 64)
    {threads : Nat} (hthreads : 0 < threads) (mode : Mode)
    (hhandles : mode = .pipeline → joinHandleSize * threads ≤ isizeMax) :
    ∃ stats, Analyzed ov data threads mode stats := by
  cases mode with
  | seq => exact ⟨_, .seq⟩
  | par => exact ⟨_, .par⟩
  | pipeline =>
    obtain ⟨p, hstart⟩ := Pipeline.start_isSome_iff.mpr (hhandles rfl)
    obtain ⟨es, hdone⟩ := Pipeline.finishes ov (Pipeline.start_holds hstart) hfits
      (Pipeline.start_workers hstart hthreads)
    exact ⟨_, .pipeline hstart hdone⟩
  | rayon => exact ⟨_, .rayon (t := .fold (rayonLines data)) rfl⟩

theorem optionsOf_threads_pos {cores : Nat} (hcores : 0 < cores) (file : Text) {opts : List Opt}
    (hopts : ∀ o ∈ opts, o.Valid) : 0 < (optionsOf cores file opts).threads := by
  show 0 < (opts.findSome? Opt.threads?).getD cores
  cases hfound : opts.findSome? Opt.threads? with
  | none => exact hcores
  | some n =>
    obtain ⟨o, ho, hn⟩ := List.exists_of_findSome?_eq_some hfound
    exact (threads?_valid o n (hopts o ho) hn).1

/-- **The file is reported** as documented. With the file in front and any options behind it, a
process either says why it cannot read the file, or prints one report, which is true of the file
and depends on the size of the leaderboards only: not on the mode, the number of threads or what
they do when. The threads are as many as their mode can cut the file for, or collect the handles
of. -/
theorem file_reported (ov : Overflow) {cores : Nat} (hcores : 0 < cores)
    (read : Text → Except Text Bytes) {file : Text} (hfile : file.head? ≠ some '-')
    {opts : List Opt} (hopts : ∀ o ∈ opts, o.Valid) :
    let o := optionsOf cores file opts
    let main := Main ov cores read (file :: opts.flatMap Opt.words)
    (∀ e, read file = .error e → ∀ outcome, main outcome ↔
      outcome = .failure ("cannot read ".toList ++ file ++ ": ".toList ++ e ++
        "\n".toList)) ∧
    ∀ data, read file = .ok data → bytesOf (linesOf data) < 2 ^ 64 → NoNan data →
      (o.mode = .par → (o.threads - 1) * data.length < 2 ^ 64) →
      (o.mode = .pipeline → joinHandleSize * o.threads ≤ isizeMax) →
      ∃ report, ReportTrue (linesOf data) o.topK report ∧
        Reports (analyzeSequential ov data) o.topK report ∧
        ∀ outcome, main outcome ↔ outcome = .printed report := by
  have hparse := parseArgs_documented cores hfile hopts
  dsimp only
  have hthreads := optionsOf_threads_pos hcores file hopts
  refine ⟨fun e hread outcome => ⟨?_, ?_⟩, fun data hread hfits hnan hcuts hhandles => ?_⟩
  · intro h
    cases h with
    | refused h =>
      rw [hparse] at h
      cases h
    | unreadable h hread' =>
      rw [hparse] at h
      cases h
      cases hread.symm.trans hread'
      rfl
    | reported h hread' =>
      rw [hparse] at h
      cases h
      cases hread.symm.trans hread'
  · rintro rfl
    exact .unreadable hparse hread
  · obtain ⟨s, hs, hrecords⟩ := @sequential_records ov data hfits
    -- the comparison of request times does not panic
    obtain ⟨report, hreport⟩ := intoReport_some (s := s) (fun hcompared => by
      obtain ⟨e, he, htime⟩ := List.mem_map.mp (hrecords.requestTimes.mem_iff.mp hcompared.2)
      exact hnan e he htime) (optionsOf cores file opts).topK
    have hall : ∀ stats, Analyzed ov data (optionsOf cores file opts).threads
        (optionsOf cores file opts).mode stats →
        printReport stats (optionsOf cores file opts).topK = .printed report := by
      intro stats hstats
      obtain ⟨t, rfl, ht⟩ := (hstats.analysis hthreads hcuts hhandles).records hfits
      rw [printReport, Option.bind_some, intoReport_eq ht hrecords, hreport]
    refine ⟨report, hrecords.truthful hreport, by rw [Reports, hs]; exact hreport, fun outcome =>
      ⟨?_, ?_⟩⟩
    · intro h
      cases h with
      | refused h =>
        rw [hparse] at h
        cases h
      | unreadable h hread' =>
        rw [hparse] at h
        cases h
        cases hread.symm.trans hread'
      | reported h hread' hstats =>
        rw [hparse] at h
        cases h
        cases hread.symm.trans hread'
        exact hall _ hstats
    · rintro rfl
      obtain ⟨stats, hstats⟩ :=
        exists_analyzed ov hfits hthreads (optionsOf cores file opts).mode hhandles
      rw [← hall stats hstats]
      exact .reported hparse hread hstats

/-- A file is reported through the pipeline. -/
theorem pipelineRun_reported :
    ∃ report, ReportTrue (linesOf severalLines) 3 report ∧
      Reports (analyzeSequential .checked severalLines) 3 report ∧
      ∀ outcome, Main .checked 8 (fun _ => .ok severalLines)
          ["a.log".toList, "--top".toList, "3".toList, "--mode".toList, "pipeline".toList] outcome ↔
        outcome = .printed report := by
  obtain ⟨hnan, hfits⟩ := severalLines_fits
  have hopts : ∀ o ∈ [Opt.top 3, .mode .pipeline], o.Valid := by simp [Opt.Valid]
  have hreported := @file_reported .checked 8 (by decide) (fun _ => .ok severalLines)
    "a.log".toList (by decide) _ hopts
  exact hreported.2 severalLines rfl hfits hnan (by decide) (by decide)

end RustFundamentals.Logcrunch
