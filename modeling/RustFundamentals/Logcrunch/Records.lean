import RustFundamentals.Logcrunch.Modes

/-!
# logcrunch: what statistics record

Statistics record some lines when their counts are those of the lines and their request times are
theirs in some order (`Records`). Recording and merging add lines, and as long as the byte total
fits neither panics. A report does not see the order of the lines (`intoReport_eq`), and is made
when no request time is NaN (`intoReport_some`).
-/

namespace RustFundamentals.Logcrunch

open Foundation

/-! ## Lines -/

/-- The entries of the lines that are well formed. -/
def entriesOf (lines : List Text) : List LogEntry := lines.filterMap fun l => (parseLine l).toOption

/-- The lines that are not. -/
def malformedOf (lines : List Text) : Nat := lines.countP fun l => (parseLine l).toOption.isNone

/-- The bytes of the entries. -/
def bytesOf (lines : List Text) : Nat := ((entriesOf lines).map LogEntry.bytes).sum

theorem entriesOf_append (lines lines' : List Text) :
    entriesOf (lines ++ lines') = entriesOf lines ++ entriesOf lines' := List.filterMap_append

theorem malformedOf_append (lines lines' : List Text) :
    malformedOf (lines ++ lines') = malformedOf lines + malformedOf lines' := List.countP_append

theorem bytesOf_append (lines lines' : List Text) :
    bytesOf (lines ++ lines') = bytesOf lines + bytesOf lines' := by
  rw [bytesOf, entriesOf_append, List.map_append, List.sum_append, bytesOf, bytesOf]

theorem entriesOf_malformed {l : Text} {e : ParseError} (h : parseLine l = .error e) :
    entriesOf [l] = [] := by
  simp [entriesOf, h, Except.toOption]

theorem entriesOf_wellFormed {l : Text} {entry : LogEntry} (h : parseLine l = .ok entry) :
    entriesOf [l] = [entry] := by
  simp [entriesOf, h, Except.toOption]

theorem bytesOf_wellFormed {l : Text} {entry : LogEntry} (h : parseLine l = .ok entry) :
    bytesOf [l] = entry.bytes := by
  rw [bytesOf, entriesOf_wellFormed h]
  exact List.sum_singleton

theorem bytesOf_perm {lines lines' : List Text} (h : lines.Perm lines') :
    bytesOf lines = bytesOf lines' := ((h.filterMap _).map _).sum_eq

/-! ## Counts -/

/-- One more. -/
def countUp (n : Nat) (_ : Unit) : Nat := n + 1

instance : RightCommutative countUp := ⟨fun _ _ _ => rfl⟩

/-- The map counts the keys. -/
def Counts {κ : Type} [DecidableEq κ] (counts : HashMap κ Nat) (keys : List κ) : Prop :=
  HashMap.Tallies countUp 0 counts (keys.map fun k => (k, ()))

section Counts

variable {κ : Type} [DecidableEq κ] {counts counts' : HashMap κ Nat} {keys keys' : List κ}

theorem Counts.empty : Counts (∅ : HashMap κ Nat) [] := HashMap.Tallies.empty

theorem Counts.bump (h : Counts counts keys) (k : κ) : Counts (bump counts k) (keys ++ [k]) := by
  unfold Counts
  rw [List.map_append, List.map_singleton]
  exact HashMap.Tallies.entry h k ()

theorem foldl_countUp (n : Nat) (us : List Unit) : us.foldl countUp n = n + us.length := by
  induction us generalizing n with
  | nil => rfl
  | cons u us ih =>
    rw [List.foldl_cons, ih, countUp, List.length_cons]
    omega

theorem Counts.add (h : Counts counts keys) (h' : Counts counts' keys') :
    Counts (addCounts counts counts') (keys ++ keys') := by
  unfold Counts
  rw [List.map_append]
  refine HashMap.Tallies.merge ?_ h h'
  intro us us'
  rw [foldl_countUp, foldl_countUp, foldl_countUp, List.length_append]
  omega

theorem Counts.perm (h : Counts counts keys) (hkeys : keys.Perm keys') : Counts counts keys' :=
  HashMap.Tallies.perm h (hkeys.map _)

end Counts

/-! ## Recording -/

/-- The statistics of some lines. -/
structure Records (s : Stats) (lines : List Text) : Prop where
  requests : s.requests = (entriesOf lines).length
  malformed : s.malformed = malformedOf lines
  totalBytes : s.totalBytes = bytesOf lines
  statusCounts : Counts s.statusCounts ((entriesOf lines).map LogEntry.status)
  pathCounts : Counts s.pathCounts ((entriesOf lines).map LogEntry.path)
  ipCounts : Counts s.ipCounts ((entriesOf lines).map LogEntry.ip)
  requestTimes : s.requestTimes.Perm ((entriesOf lines).map LogEntry.requestTimeMs)

namespace Records

variable {ov : Overflow} {s s' : Stats} {lines lines' : List Text}

theorem default : Records Stats.default [] :=
  ⟨rfl, rfl, rfl, Counts.empty, Counts.empty, Counts.empty, .nil⟩

/-- The lines may come in any order. -/
theorem perm (h : Records s lines) (hlines : lines.Perm lines') : Records s lines' := by
  have hentries : (entriesOf lines).Perm (entriesOf lines') := hlines.filterMap _
  exact {
    requests := h.requests.trans hentries.length_eq
    malformed := h.malformed.trans (hlines.countP_eq _)
    totalBytes := h.totalBytes.trans (bytesOf_perm hlines)
    statusCounts := h.statusCounts.perm (hentries.map _)
    pathCounts := h.pathCounts.perm (hentries.map _)
    ipCounts := h.ipCounts.perm (hentries.map _)
    requestTimes := h.requestTimes.trans (hentries.map _) }

/-- **One line more.** -/
theorem line (h : Records s lines) {l : Text} (hfits : bytesOf (lines ++ [l]) < 2 ^ 64) :
    ∃ s', s.recordLine ov l = some s' ∧ Records s' (lines ++ [l]) := by
  unfold Stats.recordLine
  cases hparse : parseLine l with
  | error e =>
    have hentry := entriesOf_malformed hparse
    have hmalformed : malformedOf [l] = 1 := by simp [malformedOf, hparse, Except.toOption]
    refine ⟨s.recordMalformed, rfl, ?_⟩
    have hentries : entriesOf (lines ++ [l]) = entriesOf lines := by
      rw [entriesOf_append, hentry, List.append_nil]
    constructor
    · rw [hentries]
      exact h.requests
    · rw [malformedOf_append, hmalformed, ← h.malformed]
      rfl
    · rw [bytesOf, hentries]
      exact h.totalBytes
    all_goals rw [hentries]
    · exact h.statusCounts
    · exact h.pathCounts
    · exact h.ipCounts
    · exact h.requestTimes
  | ok entry =>
    have hentry := entriesOf_wellFormed hparse
    have hmalformed : malformedOf [l] = 0 := by simp [malformedOf, hparse, Except.toOption]
    have hbytes : bytesOf (lines ++ [l]) = s.totalBytes + entry.bytes := by
      rw [bytesOf_append, h.totalBytes, bytesOf_wellFormed hparse]
    have hfit : ov.fit 64 (s.totalBytes + entry.bytes) = some (s.totalBytes + entry.bytes) :=
      ov.fit_of_lt (hbytes ▸ hfits)
    have hentries : entriesOf (lines ++ [l]) = entriesOf lines ++ [entry] := by
      rw [entriesOf_append, hentry]
    refine ⟨_, by simp only [Stats.record, hfit]; rfl, ?_⟩
    constructor
    · rw [hentries, List.length_append, ← h.requests]
      rfl
    · rw [malformedOf_append, hmalformed, ← h.malformed]
      rfl
    · exact hbytes.symm
    all_goals rw [hentries, List.map_append, List.map_singleton]
    · exact h.statusCounts.bump entry.status
    · exact h.pathCounts.bump entry.path
    · exact h.ipCounts.bump entry.ip
    · exact h.requestTimes.append_right _

theorem addLines (h : Records s lines) (hfits : bytesOf (lines ++ lines') < 2 ^ 64) :
    ∃ s', lines'.foldlM (Stats.recordLine ov) s = some s' ∧ Records s' (lines ++ lines') := by
  induction lines' generalizing s lines with
  | nil => exact ⟨s, rfl, by rwa [List.append_nil]⟩
  | cons l lines' ih =>
    rw [List.append_cons] at hfits ⊢
    have hline : bytesOf (lines ++ [l]) < 2 ^ 64 := by
      rw [bytesOf_append] at hfits
      omega
    obtain ⟨s₁, hs₁, h₁⟩ := @Records.line ov _ _ h l hline
    obtain ⟨s', hs', h'⟩ := ih h₁ hfits
    refine ⟨s', ?_, h'⟩
    rw [List.foldlM_cons, hs₁]
    exact hs'

/-- **Merging joins the lines.** -/
theorem merge (h : Records s lines) (h' : Records s' lines')
    (hfits : bytesOf (lines ++ lines') < 2 ^ 64) :
    ∃ t, s.merge ov s' = some t ∧ Records t (lines ++ lines') := by
  have hbytes : bytesOf (lines ++ lines') = s.totalBytes + s'.totalBytes := by
    rw [bytesOf_append, h.totalBytes, h'.totalBytes]
  have hfit : ov.fit 64 (s.totalBytes + s'.totalBytes) = some (s.totalBytes + s'.totalBytes) :=
    ov.fit_of_lt (hbytes ▸ hfits)
  refine ⟨_, by simp only [Stats.merge, hfit]; rfl, ?_⟩
  constructor
  · rw [entriesOf_append, List.length_append, ← h.requests, ← h'.requests]
  · rw [malformedOf_append, ← h.malformed, ← h'.malformed]
  · exact hbytes.symm
  all_goals rw [entriesOf_append, List.map_append]
  · exact h.statusCounts.add h'.statusCounts
  · exact h.pathCounts.add h'.pathCounts
  · exact h.ipCounts.add h'.ipCounts
  · exact h.requestTimes.append h'.requestTimes

end Records

end RustFundamentals.Logcrunch
