import RustFundamentals.Logcrunch.ByteTotals

/-!
# logcrunch: when there is a report

What decides is far from where it panics: a line that the parser accepts may have NaN for its
request time, and the sort of the request times compares it as soon as there is another
(`report_made_iff`).
-/

namespace RustFundamentals.Logcrunch

open Foundation

/-! ## Percentiles -/

/-- Request times that the sort cannot compare. -/
def Incomparable (times : List FloatValue) : Prop := 2 ≤ times.length ∧ .nan ∈ times

theorem Incomparable.perm {times times' : List FloatValue} (h : Incomparable times)
    (htimes : times.Perm times') : Incomparable times' :=
  ⟨htimes.length_eq ▸ h.1, htimes.mem_iff.mp h.2⟩

theorem percentile_none {s : Stats} (h : Incomparable s.requestTimes) (p : FloatValue) :
    s.percentile p = none := by
  have hne : ¬ s.requestTimes.isEmpty = true := by
    intro hempty
    rw [List.isEmpty_iff.mp hempty] at h
    exact absurd h.1 (by simp)
  unfold Stats.percentile
  rw [if_neg hne]
  exact if_pos h

/-- **A report is made** exactly of request times that can be compared. -/
theorem intoReport_iff (s : Stats) (topK : Nat) :
    (∃ report, s.intoReport topK = some report) ↔ ¬ Incomparable s.requestTimes := by
  refine ⟨?_, ?_⟩
  · rintro ⟨report, hreport⟩ hnan
    unfold Stats.intoReport at hreport
    rw [percentile_none hnan] at hreport
    cases hreport
  · intro hnan
    exact intoReport_some hnan topK

/-! ## The log -/

/-- The request times of a log are those of its lines. -/
theorem Sums.incomparable_iff {ov : Overflow} {s : Stats} {lines : List Text}
    (h : Sums ov (some s) lines) :
    Incomparable s.requestTimes ↔
      Incomparable ((entriesOf lines).map LogEntry.requestTimeMs) :=
  ⟨fun hnan => hnan.perm (h.times s rfl), fun hnan => hnan.perm (h.times s rfl).symm⟩

theorem comparable_iff (data : Bytes) :
    ¬ Incomparable ((entriesOf (linesOf data)).map LogEntry.requestTimeMs) ↔
      (entriesOf (linesOf data)).length ≤ 1 ∨ NoNan data := by
  have hmem : .nan ∈ (entriesOf (linesOf data)).map LogEntry.requestTimeMs ↔ ¬ NoNan data := by
    refine ⟨?_, ?_⟩
    · intro h hnan
      obtain ⟨e, he, htime⟩ := List.mem_map.mp h
      exact hnan e he htime
    · intro h
      by_contra hno
      exact h fun e he htime => hno (List.mem_map.mpr ⟨e, he, htime⟩)
  rw [Incomparable, List.length_map, hmem, not_and_or, not_not, not_le, Nat.lt_succ_iff]

theorem sequential_sums (ov : Overflow) (data : Bytes) :
    Sums ov (analyzeSequential ov data) (linesOf data) := by
  apply Sums.perm (recordLines_sums ov (Text.linesLossy data))
  show (entriesOf (Text.linesLossy data)).Perm (entriesOf (linesOf data))
  rw [linesOf, entriesOf_filter]

/-- **There is a report** exactly when the byte total does not panic and either no request time is
NaN or there is no other to compare it with. -/
theorem report_made_iff (ov : Overflow) (data : Bytes) (topK : Nat) :
    (∃ report, Reports (analyzeSequential ov data) topK report) ↔
      (ov = .wrapping ∨ bytesOf (linesOf data) < 2 ^ 64) ∧
        ((entriesOf (linesOf data)).length ≤ 1 ∨ NoNan data) := by
  have hsums := sequential_sums ov data
  rw [← Overflow.fit_isSome_iff, ← comparable_iff]
  cases hstats : analyzeSequential ov data with
  | none =>
    rw [hstats] at hsums
    refine ⟨?_, ?_⟩
    · rintro ⟨report, hreport⟩
      cases hreport
    · rintro ⟨⟨total, htotal⟩, -⟩
      rw [hsums.total_none] at htotal
      cases htotal
  | some s =>
    rw [hstats] at hsums
    rw [← hsums.incomparable_iff]
    refine ⟨?_, ?_⟩
    · intro hreport
      exact ⟨⟨s.totalBytes, hsums.total_eq⟩, (intoReport_iff s topK).mp hreport⟩
    · rintro ⟨-, hcomparable⟩
      exact (intoReport_iff s topK).mpr hcomparable

/-- `1 2 5 NaN G /` -/
def nanLine : Bytes := [49, 32, 50, 32, 53, 32, 78, 97, 78, 32, 71, 32, 47, 10]

/-- `1 2 5 0 G /`, and the end of its line. -/
def oneLine : Bytes := [49, 32, 50, 32, 53, 32, 48, 32, 71, 32, 47, 10]

theorem nanLine_entries :
    entriesOf (linesOf (nanLine ++ oneLine)) =
      [⟨['1'], 2, 5, .nan, ['G'], ['/']⟩, ⟨['1'], 2, 5, .finite 0, ['G'], ['/']⟩] := by
  decide +kernel

/-- Two lines that the parser accepts, one with NaN for its request time: the analysis returns, and
its report panics, in either build. -/
theorem nanLine_panics :
    (∀ ov, ∃ s, analyzeSequential ov (nanLine ++ oneLine) = some s) ∧
      ∀ ov topK, ¬ ∃ report, Reports (analyzeSequential ov (nanLine ++ oneLine)) topK report := by
  have hfits : bytesOf (linesOf (nanLine ++ oneLine)) < 2 ^ 64 := by
    rw [bytesOf, nanLine_entries]
    decide
  have hnan : Incomparable
      ((entriesOf (linesOf (nanLine ++ oneLine))).map LogEntry.requestTimeMs) := by
    rw [nanLine_entries]
    exact ⟨le_rfl, List.mem_cons_self⟩
  refine ⟨?_, ?_⟩
  · intro ov
    obtain ⟨s, hs, -⟩ := (sequential_sums ov (nanLine ++ oneLine)).exact_iff.mpr hfits
    exact ⟨s, hs⟩
  · rintro ov topK ⟨report, hreport⟩
    obtain ⟨s, hs, hreport⟩ := Option.bind_eq_some_iff.mp hreport
    have hsums := sequential_sums ov (nanLine ++ oneLine)
    rw [hs] at hsums
    exact (intoReport_iff s topK).mp ⟨report, hreport⟩ (hsums.incomparable_iff.mpr hnan)

end RustFundamentals.Logcrunch
