import RustFundamentals.Logcrunch.Agreement

/-!
# logcrunch: the byte total

Additions that may overflow, made in whatever steps, overflow as the one of all the numbers does. So
a log has one byte total in each build, however its lines are parted and the parts merged, and it is
the true sum exactly when that is a `u64` (`byte_total_exact_iff`).
-/

namespace RustFundamentals.Logcrunch

open Foundation

/-- Statistics made by recording lines and merging. -/
inductive MergeTree
  | recorded (lines : List Text)
  | merged (into other : MergeTree)

namespace MergeTree

/-- The lines of the tree. -/
def lines : MergeTree → List Text
  | recorded lines => lines
  | merged into other => into.lines ++ other.lines

/-- The statistics; `none` is a panic. -/
def eval (ov : Overflow) : MergeTree → Option Stats
  | recorded lines => Stats.default.recordLines ov lines
  | merged into other => do (← into.eval ov).merge ov (← other.eval ov)

end MergeTree

/-! ## Totals -/

theorem Stats.record_totalBytes (ov : Overflow) (s : Stats) (entry : LogEntry) :
    (s.record ov entry).map Stats.totalBytes = ov.fit 64 (s.totalBytes + entry.bytes) := by
  unfold Stats.record
  cases ov.fit 64 (s.totalBytes + entry.bytes) <;> rfl

theorem Stats.merge_totalBytes (ov : Overflow) (s other : Stats) :
    (s.merge ov other).map Stats.totalBytes = ov.fit 64 (s.totalBytes + other.totalBytes) := by
  unfold Stats.merge
  cases ov.fit 64 (s.totalBytes + other.totalBytes) <;> rfl

theorem Stats.record_requestTimes {ov : Overflow} {s t : Stats} {entry : LogEntry}
    (h : s.record ov entry = some t) :
    t.requestTimes = s.requestTimes ++ [entry.requestTimeMs] := by
  unfold Stats.record at h
  cases hfit : ov.fit 64 (s.totalBytes + entry.bytes) with
  | none =>
    rw [hfit] at h
    cases h
  | some total =>
    rw [hfit] at h
    rw [← Option.some.inj h]

theorem Stats.merge_requestTimes {ov : Overflow} {s other t : Stats}
    (h : s.merge ov other = some t) : t.requestTimes = s.requestTimes ++ other.requestTimes := by
  unfold Stats.merge at h
  cases hfit : ov.fit 64 (s.totalBytes + other.totalBytes) with
  | none =>
    rw [hfit] at h
    cases h
  | some total =>
    rw [hfit] at h
    rw [← Option.some.inj h]

/-- What has come of recording the lines: the byte total is their sum, in the build's arithmetic,
and the request times are theirs. -/
structure Sums (ov : Overflow) (r : Option Stats) (lines : List Text) : Prop where
  total : r.map Stats.totalBytes = ov.fit 64 (bytesOf lines)
  times : ∀ s, r = some s →
    s.requestTimes.Perm ((entriesOf lines).map LogEntry.requestTimeMs)

namespace Sums

variable {ov : Overflow} {r r' : Option Stats} {lines lines' : List Text}

theorem default : Sums ov (some Stats.default) [] := by
  refine ⟨?_, ?_⟩
  · exact (ov.fit_of_lt (Nat.two_pow_pos 64)).symm
  · intro s hs
    obtain rfl := Option.some.inj hs
    exact .nil

/-- Statistics that are there have a total that fits. -/
theorem total_eq {s : Stats} (h : Sums ov (some s) lines) :
    ov.fit 64 (bytesOf lines) = some s.totalBytes := h.total.symm

/-- Those that are not would have had one that does not. -/
theorem total_none (h : Sums ov none lines) : ov.fit 64 (bytesOf lines) = none := h.total.symm

/-- A line that is not well formed adds nothing. -/
theorem malformed {s : Stats} (h : Sums ov (some s) lines) {l : Text} {e : ParseError}
    (hparse : parseLine l = .error e) : Sums ov (some s.recordMalformed) (lines ++ [l]) := by
  have hentries : entriesOf (lines ++ [l]) = entriesOf lines := by
    rw [entriesOf_append, entriesOf_malformed hparse, List.append_nil]
  refine ⟨?_, ?_⟩
  · rw [bytesOf, hentries]
    exact h.total
  · intro t ht
    obtain rfl := Option.some.inj ht
    rw [hentries]
    exact h.times s rfl

/-- One that is adds its bytes and its request time. -/
theorem entry {s : Stats} (h : Sums ov (some s) lines) {l : Text} {entry : LogEntry}
    (hparse : parseLine l = .ok entry) : Sums ov (s.record ov entry) (lines ++ [l]) := by
  refine ⟨?_, ?_⟩
  · rw [Stats.record_totalBytes, bytesOf_append, bytesOf_wellFormed hparse,
      ← ov.fit_bind_add 64 (bytesOf lines), h.total_eq, Option.bind_some]
  · intro t ht
    rw [Stats.record_requestTimes ht, entriesOf_append, entriesOf_wellFormed hparse,
      List.map_append, List.map_singleton]
    exact (h.times s rfl).append_right _

/-- **One line more.** -/
theorem line (h : Sums ov r lines) (l : Text) :
    Sums ov (r.bind fun s => s.recordLine ov l) (lines ++ [l]) := by
  cases r with
  | none =>
    refine ⟨?_, ?_⟩
    · rw [bytesOf_append, ← ov.fit_bind_add, h.total_none]
      rfl
    · nofun
  | some s =>
    rw [Option.bind_some]
    unfold Stats.recordLine
    cases hparse : parseLine l with
    | error e => exact h.malformed hparse
    | ok _ => exact h.entry hparse

theorem addLines (h : Sums ov r lines) (lines' : List Text) :
    Sums ov (r.bind fun s => lines'.foldlM (Stats.recordLine ov) s) (lines ++ lines') := by
  induction lines' generalizing r lines with
  | nil =>
    have hnil : (r.bind fun s => ([] : List Text).foldlM (Stats.recordLine ov) s) = r := by
      cases r <;> rfl
    rw [hnil, List.append_nil]
    exact h
  | cons l lines' ih =>
    have hnext := ih (h.line l)
    rw [← List.append_cons] at hnext
    have hcons : (r.bind fun s => (l :: lines').foldlM (Stats.recordLine ov) s) =
        (r.bind fun s => s.recordLine ov l).bind fun s =>
          lines'.foldlM (Stats.recordLine ov) s := by
      rw [Option.bind_assoc]
      rfl
    rw [hcons]
    exact hnext

/-- **Merging adds the totals.** -/
theorem merge (h : Sums ov r lines) (h' : Sums ov r' lines') :
    Sums ov (r.bind fun s => r'.bind fun s' => s.merge ov s') (lines ++ lines') := by
  have hfit := ov.fit_bind_bind_add 64 (bytesOf lines) (bytesOf lines')
  rw [← bytesOf_append, ← h.total, ← h'.total] at hfit
  cases r with
  | none => exact ⟨hfit, nofun⟩
  | some s =>
    cases r' with
    | none => exact ⟨hfit, nofun⟩
    | some s' =>
      refine ⟨?_, ?_⟩
      · exact (s.merge_totalBytes ov s').trans hfit
      · intro t ht
        rw [Stats.merge_requestTimes ht, entriesOf_append, List.map_append]
        exact (h.times s rfl).append (h'.times s' rfl)

/-- The entries may come in any order. -/
theorem perm (h : Sums ov r lines) (hentries : (entriesOf lines).Perm (entriesOf lines')) :
    Sums ov r lines' := by
  have hbytes : bytesOf lines = bytesOf lines' := (hentries.map _).sum_eq
  refine ⟨?_, ?_⟩
  · rw [← hbytes]
    exact h.total
  · intro s hs
    exact (h.times s hs).trans (hentries.map _)

end Sums

/-- An empty line is not well formed. -/
theorem entriesOf_filter (lines : List Text) :
    entriesOf (lines.filter fun l => !l.isEmpty) = entriesOf lines := by
  unfold entriesOf
  rw [List.filterMap_filter]
  refine List.filterMap_congr fun l _ => ?_
  cases l with
  | nil => rfl
  | cons c cs => rfl

theorem recordLines_sums (ov : Overflow) (lines : List Text) :
    Sums ov (Stats.default.recordLines ov lines) lines := by
  have hsums := (@Sums.default ov).addLines (lines.filter fun l => !l.isEmpty)
  rw [recordLines_eq]
  apply Sums.perm hsums
  show (entriesOf (lines.filter fun l => !l.isEmpty)).Perm (entriesOf lines)
  rw [entriesOf_filter]

/-- **A tree of merges** sums the lines it is over. -/
theorem MergeTree.eval_sums (ov : Overflow) (t : MergeTree) : Sums ov (t.eval ov) t.lines := by
  induction t with
  | recorded lines => exact recordLines_sums ov lines
  | merged into other ihinto ihother => exact ihinto.merge ihother

/-! ## The true sum -/

/-- There are statistics, and their byte total is the sum of the bytes fields of the lines that are
well formed. -/
def TotalExact (r : Option Stats) (lines : List Text) : Prop :=
  ∃ s, r = some s ∧ s.totalBytes = bytesOf lines

theorem Sums.exact_iff {ov : Overflow} {r : Option Stats} {lines : List Text}
    (h : Sums ov r lines) : TotalExact r lines ↔ bytesOf lines < 2 ^ 64 := by
  refine ⟨?_, ?_⟩
  · rintro ⟨s, rfl, hs⟩
    rw [← hs]
    exact Overflow.fit_lt h.total_eq
  · intro hfits
    have htotal := h.total
    rw [ov.fit_of_lt hfits, Option.map_eq_some_iff] at htotal
    exact htotal

/-- **The byte total is the true sum**, of the sequential mode and of any merge of statistics over
any partition of the lines, exactly when that sum is a `u64`. -/
theorem byte_total_exact_iff (ov : Overflow) (data : Bytes) :
    (TotalExact (analyzeSequential ov data) (Text.linesLossy data) ∧
        ∀ t : MergeTree, t.lines.Perm (Text.linesLossy data) →
          TotalExact (t.eval ov) (Text.linesLossy data)) ↔
      bytesOf (Text.linesLossy data) < 2 ^ 64 := by
  have hsequential := (recordLines_sums ov (Text.linesLossy data)).exact_iff
  refine ⟨?_, ?_⟩
  · intro h
    exact hsequential.mp h.1
  · intro hfits
    refine ⟨hsequential.mpr hfits, ?_⟩
    intro t ht
    exact ((t.eval_sums ov).perm (ht.filterMap _)).exact_iff.mpr hfits

/-- `1 2 9223372036854775808 0 G /` -/
def halfLine : Bytes :=
  [49, 32, 50, 32, 57, 50, 50, 51, 51, 55, 50, 48, 51, 54, 56, 53, 52, 55, 55, 53, 56, 48, 56, 32,
    48, 32, 71, 32, 47, 10]

theorem halfLine_entries :
    entriesOf (Text.linesLossy (halfLine ++ halfLine)) =
      List.replicate 2 ⟨['1'], 2, 2 ^ 63, .finite 0, ['G'], ['/']⟩ := by
  decide +kernel

/-- Two lines of 2^63 bytes each: a checked build panics, and the total of the other one is 0. -/
theorem halfLine_total :
    analyzeSequential .checked (halfLine ++ halfLine) = none ∧
      (analyzeSequential .wrapping (halfLine ++ halfLine)).map Stats.totalBytes = some 0 ∧
      ∀ ov, ¬ TotalExact (analyzeSequential ov (halfLine ++ halfLine))
        (Text.linesLossy (halfLine ++ halfLine)) := by
  have hbytes : bytesOf (Text.linesLossy (halfLine ++ halfLine)) = 2 ^ 64 := by
    rw [bytesOf, halfLine_entries]
    rfl
  have hsums := fun ov => recordLines_sums ov (Text.linesLossy (halfLine ++ halfLine))
  refine ⟨?_, ?_, ?_⟩
  · have htotal := (hsums .checked).total
    rw [hbytes, Overflow.fit_checked, if_neg (lt_irrefl _)] at htotal
    exact Option.map_eq_none_iff.mp htotal
  · have htotal := (hsums .wrapping).total
    rw [hbytes, Overflow.fit_wrapping, Nat.mod_self] at htotal
    exact htotal
  · intro ov hexact
    have hfits := (hsums ov).exact_iff.mp hexact
    rw [hbytes] at hfits
    exact lt_irrefl _ hfits

end RustFundamentals.Logcrunch
