import RustFundamentals.Logcrunch.Records

/-!
# logcrunch: reports

A report is a function of the lines its statistics record, in any order (`intoReport_eq`): the
leaderboards are sorted by a total order on entries with different keys, the request times by
value. It is made when no comparison meets a NaN (`intoReport_some`): the rank of a percentile is
rounded three times, and stays an index.
-/

namespace RustFundamentals.Logcrunch

open Foundation

/-! ## Sorting -/

section Counts

variable {κ : Type} [LinearOrder κ] [DecidableEq κ]

omit [DecidableEq κ] in
theorem countLe_iff {a b : κ × Nat} :
    countLe a b = true ↔ b.2 < a.2 ∨ b.2 = a.2 ∧ a.1 ≤ b.1 := decide_eq_true_iff

/-- The leaderboard of a map does not depend on the order of its entries. -/
theorem sortCounts_eq {counts counts' : HashMap κ Nat}
    (h : ∀ k, counts.lookup k = counts'.lookup k) : sortCounts counts = sortCounts counts' := by
  refine mergeSort_eq_of_perm ?_ ?_ ?_ ((HashMap.perm_entries h).map _)
  · intro a b c hab hbc
    rw [countLe_iff] at hab hbc ⊢
    rcases hab with hab | ⟨hab, hkey⟩ <;> rcases hbc with hbc | ⟨hbc, hkey'⟩
    · exact .inl (by omega)
    · exact .inl (by omega)
    · exact .inl (by omega)
    · exact .inr ⟨by omega, hkey.trans hkey'⟩
  · intro a b
    rw [Bool.or_eq_true, countLe_iff, countLe_iff]
    rcases lt_trichotomy a.2 b.2 with h | h | h
    · exact .inr (.inl h)
    · rcases le_total a.1 b.1 with hkey | hkey
      · exact .inl (.inr ⟨h.symm, hkey⟩)
      · exact .inr (.inr ⟨h, hkey⟩)
    · exact .inl (.inl h)
  · intro a b hab hba
    rw [countLe_iff] at hab hba
    rcases hab with hab | ⟨hcount, hab⟩ <;> rcases hba with hba | ⟨hcount', hba⟩
    · omega
    · omega
    · omega
    · exact Prod.ext (le_antisymm hab hba) hcount.symm

theorem Counts.sort_eq {counts counts' : HashMap κ Nat} {keys : List κ} (h : Counts counts keys)
    (h' : Counts counts' keys) : sortCounts counts = sortCounts counts' :=
  sortCounts_eq (HashMap.Tallies.lookup_eq h h')

end Counts

theorem sortTimes_eq {times times' : List FloatValue} (h : times.Perm times') :
    times.mergeSort FloatValue.le = times'.mergeSort FloatValue.le := by
  refine mergeSort_eq_of_perm ?_ ?_ ?_ h
  · intro a b c hab hbc
    exact decide_eq_true ((of_decide_eq_true hab).trans (of_decide_eq_true hbc))
  · intro a b
    rw [Bool.or_eq_true]
    exact (le_total a.key b.key).imp decide_eq_true decide_eq_true
  · intro a b hab hba
    exact FloatValue.key_injective (le_antisymm (of_decide_eq_true hab) (of_decide_eq_true hba))

/-! ## The report of some lines -/

theorem percentile_eq {s s' : Stats} (h : s.requestTimes.Perm s'.requestTimes) (p : FloatValue) :
    s.percentile p = s'.percentile p := by
  unfold Stats.percentile
  rw [sortTimes_eq h, h.length_eq]
  have hempty : s.requestTimes.isEmpty = s'.requestTimes.isEmpty := by
    rw [Bool.eq_iff_iff, List.isEmpty_iff_length_eq_zero, List.isEmpty_iff_length_eq_zero,
      h.length_eq]
  rw [hempty]
  simp only [h.mem_iff]

/-- **The report does not see the order of the lines.** -/
theorem intoReport_eq {s s' : Stats} {lines : List Text} (h : Records s lines)
    (h' : Records s' lines) (topK : Nat) : s.intoReport topK = s'.intoReport topK := by
  have htimes : s.requestTimes.Perm s'.requestTimes := h.requestTimes.trans h'.requestTimes.symm
  unfold Stats.intoReport
  rw [percentile_eq htimes, percentile_eq htimes, percentile_eq htimes,
    h.statusCounts.sort_eq h'.statusCounts, h.pathCounts.sort_eq h'.pathCounts,
    h.ipCounts.sort_eq h'.ipCounts, h.requests.trans h'.requests.symm,
    h.malformed.trans h'.malformed.symm, h.totalBytes.trans h'.totalBytes.symm]

/-! ## Ranks -/

theorem f32_round {q : ℚ} (hq : 1 / 4 ≤ q) :
    ∃ v, |v - q| ≤ q / 1000 ∧
      (f32.round q = .finite v ∨ f32.round q = .infinite false ∧ 2 ^ 128 ≤ v) := by
  have hnormal : (2 : ℚ) ^ (f32.minExp + (f32.precision - 1)) ≤ q := by
    refine le_trans ?_ hq
    show (2 : ℚ) ^ (-126 : Int) ≤ 1 / 4
    norm_num
  obtain ⟨v, herr, hv⟩ := FloatFormat.round_normal hnormal
  refine ⟨v, herr.trans ?_, hv⟩
  have hprecision : (2 : ℚ) ^ (-(f32.precision : Int)) ≤ 1 / 1000 := by
    show (2 : ℚ) ^ (-24 : Int) ≤ 1 / 1000
    norm_num
  have := mul_le_mul_of_nonneg_left hprecision (by linarith : 0 ≤ q)
  linarith

theorem round_toUsize_le {v : ℚ} {n : Nat} (hlo : 0 ≤ v) (hhi : v < n + 1 / 2) :
    (FloatValue.finite v).round.toUsize ≤ n := by
  have hround : (FloatValue.finite v).round = .finite (⌊v + 1 / 2⌋ : Int) := by
    rw [FloatValue.round, if_pos hlo]
  have hfloor : ⌊v + 1 / 2⌋ ≤ (n : Int) := by
    rw [← Int.lt_add_one_iff, Int.floor_lt]
    push_cast
    linarith
  rw [hround, FloatValue.toUsize, Int.floor_intCast]
  omega

/-- A product that is too large for the format is cast to `usize::MAX`. -/
theorem infinite_toUsize_le {v : ℚ} {n : Nat} (hlarge : 2 ^ 128 ≤ v) (hv : v ≤ 2 * n) :
    (FloatValue.infinite false).round.toUsize ≤ n := by
  have hn : (2 ^ 64 : ℚ) ≤ n := by
    have : (2 : ℚ) ^ 64 * 2 ≤ 2 ^ 128 := by norm_num
    linarith
  have hn' : 2 ^ 64 ≤ n := by exact_mod_cast hn
  show 2 ^ 64 - 1 ≤ n
  omega

/-- **The rank of a percentile is an index.** -/
theorem rank_le {c : ℚ} (hlo : 49 / 100 ≤ c) (hhi : c ≤ 991 / 1000) (n : Nat) :
    (f32.mul (.finite c) (f32.ofNat n)).round.toUsize ≤ n := by
  rcases Nat.eq_zero_or_pos n with rfl | hn
  · have hzero : f32.mul (.finite c) (f32.ofNat 0) = .finite 0 := by
      show f32.mul (.finite c) (f32.round 0) = _
      rw [FloatFormat.round, if_pos rfl, FloatFormat.mul, mul_zero, FloatFormat.round, if_pos rfl]
    rw [hzero]
    exact round_toUsize_le le_rfl (by norm_num)
  have hn1 : (1 : ℚ) ≤ n := by exact_mod_cast hn
  obtain ⟨v, hverr, hv | ⟨hv, hlarge⟩⟩ := f32_round (q := (n : ℚ)) (by linarith)
  · rw [abs_le] at hverr
    have hprod_lo : 1 / 4 ≤ c * v := by nlinarith
    have hprod_hi : c * v ≤ 9925 / 10000 * n := by nlinarith
    rw [FloatFormat.ofNat, hv, FloatFormat.mul]
    obtain ⟨w, hwerr, hw | ⟨hw, hlarge⟩⟩ := f32_round hprod_lo
    · rw [abs_le] at hwerr
      rw [hw]
      exact round_toUsize_le (by linarith) (by linarith)
    · rw [abs_le] at hwerr
      rw [hw]
      exact infinite_toUsize_le hlarge (by linarith)
  · rw [abs_le] at hverr
    have hinfinite : f32.mul (.finite c) (.infinite false) = .infinite false := by
      have hc : FloatValue.finite c ≠ .finite 0 := by
        intro h
        have := FloatValue.finite.inj h
        linarith
      have hpos : ¬ c < 0 := by linarith
      rw [FloatFormat.mul]
      · simp [hc, FloatFormat.negative, hpos]
      all_goals
        intros
        contradiction
    rw [FloatFormat.ofNat, hv, hinfinite]
    exact infinite_toUsize_le hlarge (by linarith)

theorem percent_eq {p : ℚ} (hlo : 50 ≤ p) (hhi : p ≤ 99) :
    ∃ c, f32.div (.finite p) (.finite 100) = .finite c ∧ 49 / 100 ≤ c ∧ c ≤ 991 / 1000 := by
  obtain ⟨c, herr, hc | ⟨-, hlarge⟩⟩ := f32_round (q := p / 100) (by linarith)
  · rw [abs_le] at herr
    exact ⟨c, by rw [FloatFormat.div, if_neg (by norm_num), hc], by linarith, by linarith⟩
  · rw [abs_le] at herr
    have : (2 : ℚ) ≤ 2 ^ 128 := by norm_num
    linarith

theorem percentile_some {s : Stats}
    (hnan : ¬ (2 ≤ s.requestTimes.length ∧ .nan ∈ s.requestTimes)) {p : ℚ} (hlo : 50 ≤ p)
    (hhi : p ≤ 99) : ∃ r, s.percentile (.finite p) = some r := by
  unfold Stats.percentile
  split
  · exact ⟨none, rfl⟩
  next hempty =>
  dsimp only
  obtain ⟨c, hc, hclo, hchi⟩ := percent_eq hlo hhi
  have hlength : s.requestTimes.length ≠ 0 := by
    rw [Ne, List.length_eq_zero_iff, ← List.isEmpty_iff]
    exact hempty
  have hrank := rank_le hclo hchi ((s.requestTimes.mergeSort FloatValue.le).length - 1)
  rw [hc]
  have hindex : (f32.mul (.finite c)
      (f32.ofNat ((s.requestTimes.mergeSort FloatValue.le).length - 1))).round.toUsize <
        (s.requestTimes.mergeSort FloatValue.le).length := by
    rw [List.length_mergeSort] at hrank ⊢
    omega
  rw [List.getElem?_eq_getElem hindex]
  exact ⟨_, rfl⟩

/-- **A report is made** of request times that can be compared. -/
theorem intoReport_some {s : Stats}
    (hnan : ¬ (2 ≤ s.requestTimes.length ∧ .nan ∈ s.requestTimes)) (topK : Nat) :
    ∃ report, s.intoReport topK = some report := by
  obtain ⟨p50, h50⟩ := percentile_some hnan (p := 50) (by norm_num) (by norm_num)
  obtain ⟨p95, h95⟩ := percentile_some hnan (p := 95) (by norm_num) (by norm_num)
  obtain ⟨p99, h99⟩ := percentile_some hnan (p := 99) (by norm_num) (by norm_num)
  exact ⟨_, by simp only [Stats.intoReport, h50, h95, h99]; rfl⟩

end RustFundamentals.Logcrunch
