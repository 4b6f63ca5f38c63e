import RustFundamentals.Logcrunch.Agreement
import Mathlib.Data.List.Dedup

/-!
# logcrunch: what a report says

A report against the lines it is about: every non-blank line is counted once, the leaderboards are
the first places of a ranking without ties, the percentiles are order statistics at the nearest
rank, up to the rounding of `f32`. It says this in every mode (`report_true`).
-/

namespace RustFundamentals.Logcrunch

open Foundation

/-! ## Leaderboards -/

section Leaderboards

variable {κ : Type} [LinearOrder κ] [DecidableEq κ]

/-- The first `topK` of these keys: those that occur most often, of equals the smaller ones. -/
structure Leaderboard (keys : List κ) (topK : Nat) (board : List (κ × Nat)) : Prop where
  counted : ∀ e ∈ board, e.1 ∈ keys ∧ e.2 = keys.count e.1
  ranked : board.Pairwise fun a b => b.2 < a.2 ∨ b.2 = a.2 ∧ a.1 < b.1
  length : board.length = min topK keys.dedup.length
  beaten : ∀ k ∈ keys, k ∉ board.map Prod.fst →
    ∀ e ∈ board, keys.count k < e.2 ∨ keys.count k = e.2 ∧ e.1 < k

omit [DecidableEq κ] in
/-- The comparison of a leaderboard is that of the counts, downwards, and then the keys. -/
theorem countLe_iff_toLex {a b : κ × Nat} : countLe a b = true ↔
    toLex (OrderDual.toDual a.2, a.1) ≤ toLex (OrderDual.toDual b.2, b.1) := by
  rw [countLe_iff, Prod.Lex.toLex_le_toLex]
  show _ ↔ b.2 < a.2 ∨ OrderDual.toDual a.2 = OrderDual.toDual b.2 ∧ a.1 ≤ b.1
  rw [OrderDual.toDual_inj, eq_comm]

omit [DecidableEq κ] in
theorem sortCounts_pairwise (counts : HashMap κ Nat) :
    (sortCounts counts).Pairwise fun a b => countLe a b = true := by
  apply List.pairwise_mergeSort
  · intro a b c hab hbc
    rw [countLe_iff_toLex] at hab hbc ⊢
    exact hab.trans hbc
  · intro a b
    rw [Bool.or_eq_true, countLe_iff_toLex, countLe_iff_toLex]
    exact le_total _ _

omit [LinearOrder κ] in
/-- What a map that counts has for a key. -/
theorem Counts.lookup_eq {counts : HashMap κ Nat} {keys : List κ} (h : Counts counts keys) (k : κ) :
    counts.lookup k = if k ∈ keys then some (keys.count k) else none := by
  have hgroup : (HashMap.group k (keys.map fun k => (k, ()))).length = keys.count k := by
    rw [HashMap.group, List.length_map, List.filter_map, List.length_map, List.count,
      List.countP_eq_length_filter]
    rfl
  rw [h k, foldl_countUp, hgroup, Nat.zero_add]
  by_cases hk : k ∈ keys
  · rw [if_pos hk, if_neg]
    rw [← List.length_eq_zero_iff, hgroup]
    exact (List.count_pos_iff.mpr hk).ne'
  · rw [if_neg hk, if_pos]
    rw [← List.length_eq_zero_iff, hgroup]
    exact List.count_eq_zero_of_not_mem hk

/-- **A leaderboard has every key once, with its count.** -/
theorem Counts.sort_perm {counts : HashMap κ Nat} {keys : List κ} (h : Counts counts keys) :
    (sortCounts counts).Perm (keys.dedup.map fun k => (k, keys.count k)) := by
  refine (List.mergeSort_perm _ _).trans ?_
  rw [List.perm_ext_iff_of_nodup]
  · intro e
    rw [List.mem_map, List.mem_map]
    constructor
    · intro he
      obtain ⟨entry, hentry, rfl⟩ := he
      have hlookup : counts.lookup entry.1 = some entry.2 := AList.mem_lookup_iff.mpr hentry
      rw [h.lookup_eq] at hlookup
      split at hlookup
      · next hk =>
        refine ⟨entry.1, List.mem_dedup.mpr hk, ?_⟩
        rw [Option.some.inj hlookup]
      · cases hlookup
    · intro hk
      obtain ⟨k, hk, rfl⟩ := hk
      have hlookup : counts.lookup k = some (keys.count k) := by
        rw [h.lookup_eq, if_pos (List.mem_dedup.mp hk)]
      exact ⟨⟨k, keys.count k⟩, AList.mem_lookup_iff.mp hlookup, rfl⟩
  · exact List.Nodup.map (fun a b hab => by
      obtain ⟨k, n⟩ := a
      obtain ⟨k', n'⟩ := b
      obtain ⟨rfl, rfl⟩ := Prod.mk.inj hab
      rfl) (List.NodupKeys.nodup counts.nodupKeys)
  · exact keys.nodup_dedup.map fun a b hab => (Prod.mk.inj hab).1

theorem Counts.leaderboard {counts : HashMap κ Nat} {keys : List κ} (h : Counts counts keys)
    (topK : Nat) : Leaderboard keys topK ((sortCounts counts).take topK) := by
  have hperm := h.sort_perm
  have hentry : ∀ e ∈ sortCounts counts, e.1 ∈ keys ∧ e.2 = keys.count e.1 := by
    intro e he
    obtain ⟨k, hk, rfl⟩ := List.mem_map.mp (hperm.mem_iff.mp he)
    exact ⟨List.mem_dedup.mp hk, rfl⟩
  have hnodup : (sortCounts counts).Nodup := by
    rw [hperm.nodup_iff]
    exact keys.nodup_dedup.map fun a b hab => (Prod.mk.inj hab).1
  have hranked : (sortCounts counts).Pairwise fun a b => b.2 < a.2 ∨ b.2 = a.2 ∧ a.1 < b.1 := by
    refine ((sortCounts_pairwise counts).and hnodup).imp_of_mem ?_
    intro a b ha hb hab
    rcases countLe_iff.mp hab.1 with hcount | ⟨hcount, hkey⟩
    · exact .inl hcount
    · exact .inr ⟨hcount, lt_of_le_of_ne hkey fun heq => hab.2 (Prod.ext heq hcount.symm)⟩
  have hsplit := hranked
  rw [← List.take_append_drop topK (sortCounts counts), List.pairwise_append] at hsplit
  refine ⟨fun e he => hentry e (List.mem_of_mem_take he), hsplit.1, ?_, ?_⟩
  · rw [List.length_take, hperm.length_eq, List.length_map]
  · intro k hk hout e he
    have hmem : (k, keys.count k) ∈ sortCounts counts :=
      hperm.mem_iff.mpr (List.mem_map.mpr ⟨k, List.mem_dedup.mpr hk, rfl⟩)
    rw [← List.take_append_drop topK (sortCounts counts), List.mem_append] at hmem
    rcases hmem with htake | hdrop
    · exact absurd (List.mem_map.mpr ⟨_, htake, rfl⟩) hout
    · exact hsplit.2.2 e he _ hdrop

end Leaderboards

/-- Together, the counts are those of all keys. -/
theorem Counts.sum_sort {counts : HashMap Nat Nat} {keys : List Nat} (h : Counts counts keys) :
    ((sortCounts counts).map Prod.snd).sum = keys.length := by
  rw [(h.sort_perm.map Prod.snd).sum_eq, List.map_map]
  exact List.sum_map_count_dedup_eq_length keys

theorem Counts.serverErrors_eq {counts : HashMap Nat Nat} {keys : List Nat}
    (h : Counts counts keys) :
    serverErrors (sortCounts counts) = keys.countP fun status => 500 ≤ status ∧ status ≤ 599 := by
  unfold serverErrors
  rw [((h.sort_perm.filter _).map Prod.snd).sum_eq, List.filter_map, List.map_map]
  exact List.sum_map_count_dedup_filter_eq_countP _ keys

/-! ## Percentiles -/

/-- The index that `percentile` comes to, of the last index `last`. -/
def rankOf (p : ℚ) (last : Nat) : Nat :=
  (f32.mul (f32.div (.finite p) (.finite 100)) (f32.ofNat last)).round.toUsize

/-- Where `f32` neither underflows nor overflows, it rounds by one part in `2 ^ 24` at most. -/
theorem f32_round_near {q : ℚ} (hlo : 1 / 100 ≤ q) (hhi : q < 2 ^ 100) :
    ∃ v, |v - q| ≤ q / 2 ^ 24 ∧ f32.round q = .finite v := by
  have hnormal : (2 : ℚ) ^ (f32.minExp + (f32.precision - 1)) ≤ q := by
    refine le_trans ?_ hlo
    show (2 : ℚ) ^ (-126 : Int) ≤ 1 / 100
    norm_num
  obtain ⟨v, herr, hv⟩ := FloatFormat.round_normal hnormal
  have hpart : (2 : ℚ) ^ (-(f32.precision : Int)) = 1 / 2 ^ 24 := by
    show (2 : ℚ) ^ (-24 : Int) = 1 / 2 ^ 24
    norm_num
  rw [hpart, ← mul_div_assoc, mul_one] at herr
  refine ⟨v, herr, ?_⟩
  rcases hv with hv | ⟨-, hlarge⟩
  · exact hv
  · have hv := (abs_le.mp herr).2
    have hlarge' : (2 : ℚ) ^ 128 ≤ v := hlarge
    norm_num at hlarge' hhi hv
    linarith

/-- A float of ordinary size, rounded and cast to an index. -/
theorem toUsize_eq {w : ℚ} (hlo : 0 ≤ w) (hhi : w < 2 ^ 63) :
    ((FloatValue.finite w).round.toUsize : ℤ) = ⌊w + 1 / 2⌋ := by
  have hfloor : 0 ≤ ⌊w + 1 / 2⌋ := Int.floor_nonneg.mpr (by linarith)
  have hlt : ⌊w + 1 / 2⌋ < 2 ^ 64 - 1 := by
    rw [Int.floor_lt]
    push_cast
    norm_num at hhi ⊢
    linarith
  rw [FloatValue.round, if_pos hlo, FloatValue.toUsize, Int.floor_intCast]
  omega

/-- How the index of a percentile comes about: three roundings to `f32`, and one to an integer. -/
theorem rankOf_spec {p : ℚ} (hlo : 50 ≤ p) (hhi : p ≤ 99) {last : Nat} (hpos : 1 ≤ last)
    (hlt : last < 2 ^ 62) :
    ∃ c v w, f32.round (p / 100) = .finite c ∧ f32.ofNat last = .finite v ∧
      f32.round (c * v) = .finite w ∧ 0 < c ∧ 0 < v ∧ 0 ≤ w ∧ w < 2 ^ 63 ∧
      |w - p / 100 * last| ≤ last / 2 ^ 22 ∧ (rankOf p last : ℤ) = ⌊w + 1 / 2⌋ := by
  have hone : (1 : ℚ) ≤ last := by exact_mod_cast hpos
  have hsize : (last : ℚ) < 4611686018427387904 := by
    calc (last : ℚ) < 2 ^ 62 := by exact_mod_cast hlt
      _ = 4611686018427387904 := by norm_num
  obtain ⟨c, hcerr, hc⟩ := @f32_round_near (p / 100) (by linarith)
    (by norm_num; linarith)
  obtain ⟨v, hverr, hv⟩ := @f32_round_near (last : ℚ) (by linarith)
    (hsize.trans (by norm_num))
  rw [abs_le] at hcerr hverr
  norm_num at hcerr hverr
  have hprod_lo : 1 / 4 ≤ c * v := by nlinarith
  have hprod_hi : c * v ≤ 995 / 1000 * last := by nlinarith
  obtain ⟨w, hwerr, hw⟩ := @f32_round_near (c * v) (by linarith) (by norm_num; linarith)
  rw [abs_le] at hwerr
  norm_num at hwerr
  have hwlo : 0 ≤ w := by linarith
  have hwhi : w < 2 ^ 63 := by norm_num; linarith
  refine ⟨c, v, w, hc, hv, hw, by linarith, by linarith, hwlo, hwhi, ?_, ?_⟩
  · have hfactor : (c - p / 100) * v ≤ 995 / 1000 * last / 16777216 ∧
        -(995 / 1000 * last / 16777216) ≤ (c - p / 100) * v := by
      constructor <;> nlinarith
    have hsample : p / 100 * (v - last) ≤ last / 16777216 ∧
        -(last / 16777216) ≤ p / 100 * (v - last) := by
      constructor <;> nlinarith
    rw [abs_le]
    norm_num
    constructor <;> nlinarith
  · rw [rankOf, FloatFormat.div, if_neg (by norm_num), hc, FloatFormat.ofNat, hv,
      FloatFormat.mul, hw]
    exact toUsize_eq hwlo hwhi

theorem rankOf_le {p : ℚ} (hlo : 50 ≤ p) (hhi : p ≤ 99) (last : Nat) : rankOf p last ≤ last := by
  obtain ⟨c, hc, hclo, hchi⟩ := percent_eq hlo hhi
  rw [rankOf, hc]
  exact rank_le hclo hchi last

/-- The rank `i` is the nearest to `p` per cent of the last one, up to a part in `2 ^ 22`. -/
def Nearest (p : ℚ) (last i : Nat) : Prop := |(i : ℚ) - p / 100 * last| ≤ 1 / 2 + last / 2 ^ 22

/-- **The rank is the nearest one**, but for the precision of `f32`. -/
theorem rankOf_near {p : ℚ} (hlo : 50 ≤ p) (hhi : p ≤ 99) {last : Nat} (hlt : last < 2 ^ 62) :
    Nearest p last (rankOf p last) := by
  unfold Nearest
  rcases Nat.eq_zero_or_pos last with rfl | hpos
  · rw [Nat.le_zero.mp (rankOf_le hlo hhi 0)]
    norm_num
  · obtain ⟨c, v, w, -, -, -, -, -, -, -, herr, hrank⟩ := rankOf_spec hlo hhi hpos hlt
    have hcast : (rankOf p last : ℚ) = (⌊w + 1 / 2⌋ : ℤ) := by exact_mod_cast hrank
    have hfloor := Int.floor_le (w + 1 / 2)
    have hceil := Int.lt_floor_add_one (w + 1 / 2)
    rw [hcast]
    rw [abs_le] at herr ⊢
    constructor <;> linarith

/-- A higher percentile has no lower rank. -/
theorem rankOf_mono {p p' : ℚ} (hlo : 50 ≤ p) (hle : p ≤ p') (hhi : p' ≤ 99) {last : Nat}
    (hlt : last < 2 ^ 62) : rankOf p last ≤ rankOf p' last := by
  rcases Nat.eq_zero_or_pos last with rfl | hpos
  · rw [Nat.le_zero.mp (rankOf_le hlo (hle.trans hhi) 0)]
    exact Nat.zero_le _
  · obtain ⟨c, v, w, hc, hv, hw, hcpos, hvpos, -, -, -, hrank⟩ :=
      rankOf_spec hlo (hle.trans hhi) hpos hlt
    obtain ⟨c', v', w', hc', hv', hw', -, -, -, -, -, hrank'⟩ :=
      rankOf_spec (hlo.trans hle) hhi hpos hlt
    obtain rfl := FloatValue.finite.inj (hv.symm.trans hv')
    have hprecision : 1 ≤ f32.precision := by decide
    have hfinite : ∀ {a b : ℚ}, (FloatValue.finite a).key ≤ (FloatValue.finite b).key → a ≤ b := by
      intro a b hab
      exact of_decide_eq_true ((FloatValue.le_finite a b).symm.trans (decide_eq_true hab))
    have hcle : c ≤ c' := by
      apply hfinite
      rw [← hc, ← hc']
      exact FloatFormat.round_mono hprecision (by linarith) (by linarith)
    have hwle : w ≤ w' := by
      apply hfinite
      rw [← hw, ← hw']
      exact FloatFormat.round_mono hprecision (by positivity)
        (mul_le_mul_of_nonneg_right hcle hvpos.le)
    have hfloor : ⌊w + 1 / 2⌋ ≤ ⌊w' + 1 / 2⌋ := Int.floor_mono (by linarith)
    omega

/-- The percentiles of these samples: none of no samples, and else samples in their order. -/
structure Percentiles (times : List FloatValue) (p50 p95 p99 : Option FloatValue) : Prop where
  of_none : times = [] → p50 = none ∧ p95 = none ∧ p99 = none
  of_some : times ≠ [] → ∃ (sorted : List FloatValue) (i j k : Nat), sorted.Perm times ∧
    (sorted.Pairwise fun a b => a.le b = true) ∧
    i < sorted.length ∧ j < sorted.length ∧ k < sorted.length ∧
    p50 = sorted[i]? ∧ p95 = sorted[j]? ∧ p99 = sorted[k]? ∧
    (times.length ≤ 2 ^ 62 → i ≤ j ∧ j ≤ k ∧ Nearest 50 (times.length - 1) i ∧
      Nearest 95 (times.length - 1) j ∧ Nearest 99 (times.length - 1) k)

theorem sortTimes_pairwise (times : List FloatValue) :
    (times.mergeSort FloatValue.le).Pairwise fun a b => a.le b = true := by
  apply List.pairwise_mergeSort
  · intro a b c hab hbc
    exact decide_eq_true ((of_decide_eq_true hab).trans (of_decide_eq_true hbc))
  · intro a b
    rw [Bool.or_eq_true]
    exact (le_total a.key b.key).imp decide_eq_true decide_eq_true

theorem percentile_getElem {s : Stats} {p : ℚ} {r : Option FloatValue}
    (h : s.percentile (.finite p) = some r) (hne : s.requestTimes ≠ []) :
    r = (s.requestTimes.mergeSort FloatValue.le)[rankOf p (s.requestTimes.length - 1)]? := by
  unfold Stats.percentile at h
  rw [if_neg (by rw [List.isEmpty_iff]; exact hne)] at h
  split at h
  · cases h
  · dsimp only at h
    rw [List.length_mergeSort] at h
    obtain ⟨v, hv, rfl⟩ := Option.map_eq_some_iff.mp h
    exact hv.symm

/-- What `percentile` makes of the samples, in whatever order they were recorded. -/
theorem percentiles_spec {s : Stats} {times : List FloatValue} (hperm : s.requestTimes.Perm times)
    {p50 p95 p99 : Option FloatValue} (h50 : s.percentile (.finite 50) = some p50)
    (h95 : s.percentile (.finite 95) = some p95) (h99 : s.percentile (.finite 99) = some p99) :
    Percentiles times p50 p95 p99 where
  of_none := by
    intro hnil
    have hempty : s.requestTimes = [] := by
      rw [hnil] at hperm
      exact hperm.eq_nil
    have hnone : ∀ p, s.percentile p = some none := by
      intro p
      rw [Stats.percentile, hempty]
      rfl
    rw [hnone] at h50 h95 h99
    exact ⟨(Option.some.inj h50).symm, (Option.some.inj h95).symm, (Option.some.inj h99).symm⟩
  of_some := by
    intro hne
    have hne' : s.requestTimes ≠ [] := by
      intro hnil
      rw [hnil] at hperm
      exact hne hperm.nil_eq.symm
    have hpos := List.length_pos_iff.mpr hne'
    have hindex : ∀ {p : ℚ}, 50 ≤ p → p ≤ 99 → rankOf p (s.requestTimes.length - 1) <
        (s.requestTimes.mergeSort FloatValue.le).length := by
      intro p hlo hhi
      have := rankOf_le hlo hhi (s.requestTimes.length - 1)
      rw [List.length_mergeSort]
      omega
    refine ⟨s.requestTimes.mergeSort FloatValue.le, rankOf 50 (s.requestTimes.length - 1),
      rankOf 95 (s.requestTimes.length - 1), rankOf 99 (s.requestTimes.length - 1),
      (List.mergeSort_perm _ _).trans hperm, sortTimes_pairwise _,
      hindex (by norm_num) (by norm_num), hindex (by norm_num) (by norm_num),
      hindex (by norm_num) (by norm_num), percentile_getElem h50 hne',
      percentile_getElem h95 hne', percentile_getElem h99 hne', ?_⟩
    intro hsize
    rw [← hperm.length_eq] at hsize ⊢
    have hlast : s.requestTimes.length - 1 < 2 ^ 62 := by omega
    exact ⟨rankOf_mono (by norm_num) (by norm_num) (by norm_num) hlast,
      rankOf_mono (by norm_num) (by norm_num) (by norm_num) hlast,
      rankOf_near (by norm_num) (by norm_num) hlast, rankOf_near (by norm_num) (by norm_num) hlast,
      rankOf_near (by norm_num) (by norm_num) hlast⟩

/-! ## Reports -/

/-- The report says of these lines what is so. -/
structure ReportTrue (lines : List Text) (topK : Nat) (report : Report) : Prop where
  requests : report.requests = (entriesOf lines).length
  everyLine : report.requests + report.malformed = lines.length
  totalBytes : report.totalBytes = ((entriesOf lines).map LogEntry.bytes).sum
  statuses : Leaderboard ((entriesOf lines).map LogEntry.status) (entriesOf lines).length
    report.statusCounts
  everyStatus : (report.statusCounts.map Prod.snd).sum = report.requests
  paths : Leaderboard ((entriesOf lines).map LogEntry.path) topK report.topPaths
  ips : Leaderboard ((entriesOf lines).map LogEntry.ip) topK report.topIps
  errorRate : report.errorRate =
    if entriesOf lines = [] then .finite 0
    else f32.div (f32.ofNat ((entriesOf lines).countP fun e => 500 ≤ e.status ∧ e.status ≤ 599))
      (f32.ofNat (entriesOf lines).length)
  times : Percentiles ((entriesOf lines).map LogEntry.requestTimeMs) report.p50 report.p95
    report.p99

theorem entries_add_malformed (lines : List Text) :
    (entriesOf lines).length + malformedOf lines = lines.length := by
  induction lines with
  | nil => rfl
  | cons l lines ih =>
    cases h : parseLine l with
    | ok entry =>
      simp only [entriesOf, malformedOf, List.filterMap_cons, List.countP_cons, h,
        Except.toOption, List.length_cons, Option.isNone_some] at ih ⊢
      simp only [Bool.false_eq_true, if_false]
      omega
    | error e =>
      simp only [entriesOf, malformedOf, List.filterMap_cons, List.countP_cons, h,
        Except.toOption, List.length_cons, Option.isNone_none] at ih ⊢
      simp only [if_true]
      omega

/-- All of a ranking is a leaderboard as long as the keys. -/
theorem Counts.ranking {counts : HashMap Nat Nat} {keys : List Nat} (h : Counts counts keys) :
    Leaderboard keys keys.length (sortCounts counts) := by
  have hlen : (sortCounts counts).length ≤ keys.length := by
    rw [h.sort_perm.length_eq, List.length_map]
    exact (List.dedup_sublist keys).length_le
  have hboard := h.leaderboard keys.length
  rw [List.take_of_length_le hlen] at hboard
  exact hboard

/-- **A report of statistics that record some lines is true of them.** -/
theorem Records.truthful {s : Stats} {lines : List Text} (h : Records s lines) {topK : Nat}
    {report : Report} (hreport : s.intoReport topK = some report) :
    ReportTrue lines topK report := by
  obtain ⟨p50, h50, hreport⟩ := Option.bind_eq_some_iff.mp hreport
  obtain ⟨p95, h95, hreport⟩ := Option.bind_eq_some_iff.mp hreport
  obtain ⟨p99, h99, hreport⟩ := Option.bind_eq_some_iff.mp hreport
  obtain rfl := Option.some.inj hreport
  have hstatuses : Leaderboard ((entriesOf lines).map LogEntry.status) (entriesOf lines).length
      (sortCounts s.statusCounts) := by
    have hboard := h.statusCounts.ranking
    rw [List.length_map] at hboard
    exact hboard
  refine ⟨h.requests, ?_, h.totalBytes, hstatuses, ?_, h.pathCounts.leaderboard topK,
    h.ipCounts.leaderboard topK, ?_, percentiles_spec h.requestTimes h50 h95 h99⟩
  · show s.requests + s.malformed = _
    rw [h.requests, h.malformed]
    exact entries_add_malformed lines
  · show ((sortCounts s.statusCounts).map Prod.snd).sum = s.requests
    rw [h.statusCounts.sum_sort, List.length_map, h.requests]
  · show (if s.requests = 0 then _ else _) = _
    rw [h.statusCounts.serverErrors_eq, List.countP_map, h.requests]
    simp only [List.length_eq_zero_iff]
    rfl

/-- What an analysis of a file comes to: on one thread, on several, through the pipeline, whatever
happens in which order, or along a tree of reductions. -/
inductive Analysis (ov : Overflow) (data : Bytes) : Option Stats → Prop
  | sequential : Analysis ov data (analyzeSequential ov data)
  | parallel {nThreads : Nat} (h : (nThreads - 1) * data.length < 2 ^ 64) :
      Analysis ov data (analyzeParallel ov data nThreads)
  | pipeline {nWorkers : Nat} {p : Pipeline} {es : List PipelineEvent} (hworkers : 1 ≤ nWorkers)
      (hstart : Pipeline.start data nWorkers = some p)
      (hdone : (runFrom (Pipeline.exec ov) p es).Done) :
      Analysis ov data ((runFrom (Pipeline.exec ov) p es).result ov)
  | rayon {t : Reduction} (ht : t.lines = rayonLines data) : Analysis ov data (t.eval ov)

theorem Analysis.records {ov : Overflow} {data : Bytes} {stats : Option Stats}
    (h : Analysis ov data stats) (hfits : bytesOf (linesOf data) < 2 ^ 64) :
    ∃ s, stats = some s ∧ Records s (linesOf data) := by
  cases h with
  | sequential => exact sequential_records hfits
  | parallel h => exact parallel_records hfits h
  | @pipeline nWorkers p es hworkers hstart hdone =>
    obtain ⟨parts, hholds⟩ := @Pipeline.run_holds ov _ _ _ (Pipeline.start_holds hstart) hfits es
    have hne : (runFrom (Pipeline.exec ov) p es).workers ≠ [] := by
      rw [← List.length_pos_iff, Pipeline.run_workers, List.length_pos_iff]
      exact Pipeline.start_workers hstart hworkers
    exact Pipeline.result_records hholds hfits hne hdone
  | @rayon t ht =>
    have hlines : t.lines = linesOf data := ht
    exact hlines ▸ reduction_records t (hlines ▸ hfits)

/-- **The report is true in every mode**: of every file whose byte total fits, however it is
analyzed, and it is made unless two samples cannot be compared. -/
theorem report_true {ov : Overflow} {data : Bytes} {stats : Option Stats}
    (h : Analysis ov data stats) (hfits : bytesOf (linesOf data) < 2 ^ 64) (topK : Nat) :
    (∀ report, Reports stats topK report → ReportTrue (linesOf data) topK report) ∧
      (NoNan data → ∃ report, Reports stats topK report) := by
  obtain ⟨s, rfl, hrecords⟩ := h.records hfits
  refine ⟨fun report hreport => hrecords.truthful hreport, ?_⟩
  intro hnan
  apply intoReport_some
  intro hcompared
  obtain ⟨e, he, htime⟩ := List.mem_map.mp (hrecords.requestTimes.mem_iff.mp hcompared.2)
  exact hnan e he htime

theorem severalLines_truthful :
    (∀ report, Reports (analyzeParallel .checked severalLines 3) 1 report →
      ReportTrue (linesOf severalLines) 1 report) ∧
      (NoNan severalLines →
        ∃ report, Reports (analyzeParallel .checked severalLines 3) 1 report) :=
  report_true (.parallel (by decide)) severalLines_fits.2 1

end RustFundamentals.Logcrunch
