import Mathlib.Algebra.BigOperators.Group.List.Basic
import RustFundamentals.Brc.Parallel

/-!
# brc: stations

A pass over a buffer leaves, for every station, the count, the sum, the least and the greatest of
the temperatures of its lines that are ended (`runSequential_tallies`, `Tallies.everyMeasurement`).
-/

namespace RustFundamentals.Brc

open Foundation

/-! ## Stations -/

/-- The temperatures of a station. -/
def temps (name : Bytes) (lines : List Bytes) : List Int :=
  HashMap.group name (lines.map measurement)

theorem rows_eq (ov : Overflow) {lines : List Bytes} (h : ∀ line ∈ lines, WellFormedLine line) :
    rows ov lines = lines.map measurement := by
  unfold rows
  rw [← List.filterMap_eq_map]
  exact List.filterMap_congr fun line hline => rowOf_eq ov (h line hline)

/-- A temperature is one of a thermometer. -/
theorem temps_range {lines : List Bytes} (h : ∀ line ∈ lines, WellFormedLine line) (name : Bytes) :
    ∀ t ∈ temps name lines, -999 ≤ t ∧ t ≤ 999 := by
  intro t ht
  obtain ⟨row, hrow, rfl⟩ := List.mem_map.mp ht
  obtain ⟨line, hline, rfl⟩ := List.mem_map.mp (List.mem_filter.mp hrow).1
  obtain ⟨name, temp, rfl, hname, htemp⟩ := h line hline
  rw [measurement_append hname]
  exact (parseTemp_eq .checked htemp).2

/-- The numbers are those of the temperatures. -/
structure Summarizes (s : Stats) (temps : List Int) : Prop where
  count : s.count = temps.length
  sum : s.sum = temps.sum
  min : s.min ∈ temps ∧ ∀ t ∈ temps, s.min ≤ t
  max : s.max ∈ temps ∧ ∀ t ∈ temps, t ≤ s.max

theorem Stats.record_default {t : Int} (h : -999 ≤ t ∧ t ≤ 999) :
    default.record t = ⟨t, t, t, 1⟩ := by
  have hmin : Min.min (2 ^ 31 - 1) t = t := min_eq_right (by omega)
  have hmax : Max.max (-2 ^ 31) t = t := max_eq_right (by omega)
  rw [record, default]
  simp only [hmin, hmax, Int.zero_add, Nat.zero_add]

theorem Summarizes.record {s : Stats} {temps : List Int} (h : Summarizes s temps) (t : Int) :
    Summarizes (s.record t) (temps ++ [t]) := by
  refine ⟨?_, ?_, ?_, ?_⟩
  · rw [List.length_append, ← h.count]
    rfl
  · rw [List.sum_append, List.sum_singleton, ← h.sum]
    rfl
  · refine ⟨?_, ?_⟩
    · show Min.min s.min t ∈ temps ++ [t]
      rcases min_choice s.min t with hmin | hmin
      · rw [hmin]
        exact List.mem_append_left _ h.min.1
      · rw [hmin]
        exact List.mem_append_right _ (List.mem_singleton_self t)
    · intro u hu
      rcases List.mem_append.mp hu with hu | hu
      · exact le_trans (min_le_left _ _) (h.min.2 u hu)
      · rw [List.mem_singleton.mp hu]
        exact min_le_right _ _
  · refine ⟨?_, ?_⟩
    · show Max.max s.max t ∈ temps ++ [t]
      rcases max_choice s.max t with hmax | hmax
      · rw [hmax]
        exact List.mem_append_left _ h.max.1
      · rw [hmax]
        exact List.mem_append_right _ (List.mem_singleton_self t)
    · intro u hu
      rcases List.mem_append.mp hu with hu | hu
      · exact le_trans (h.max.2 u hu) (le_max_left _ _)
      · rw [List.mem_singleton.mp hu]
        exact le_max_right _ _

/-- **Recording the temperatures summarizes them.** -/
theorem Stats.foldl_summarizes {temps : List Int} (hne : temps ≠ [])
    (h : ∀ t ∈ temps, -999 ≤ t ∧ t ≤ 999) : Summarizes (temps.foldl record default) temps := by
  induction temps using List.reverseRecOn with
  | nil => exact absurd rfl hne
  | append_singleton temps t ih =>
    rw [List.foldl_append, List.foldl_cons, List.foldl_nil]
    by_cases hnil : temps = []
    · subst hnil
      rw [List.foldl_nil, record_default (h t (by simp))]
      exact ⟨rfl, by simp, by simp, by simp⟩
    · exact (ih hnil fun u hu => h u (List.mem_append_left _ hu)).record t

/-- **Every measurement is counted**: for each station of the lines there are the numbers of all
its temperatures, for no other station are there any, and the counts add up to the lines. -/
structure EveryMeasurement (result : SortedMap) (lines : List Bytes) : Prop where
  stations : ∀ name, temps name lines ≠ [] →
    ∃ s, result[name]? = some s ∧ Summarizes s (temps name lines)
  others : ∀ name, temps name lines = [] → result[name]? = none
  counts : (result.toList.map fun e => e.2.count).sum = lines.length

theorem Tallies.getElem?_intoSorted {map : FastMap} {lines : List Bytes}
    (h : Tallies map (lines.map measurement)) (name : Bytes) :
    (intoSorted map)[name]? =
      if temps name lines = [] then none
      else some ((temps name lines).foldl Stats.record Stats.default) := by
  rw [Brc.getElem?_intoSorted]
  exact h name

theorem EveryMeasurement.of_stations {result : SortedMap} {lines : List Bytes}
    (hstations : ∀ name, temps name lines ≠ [] →
      ∃ s, result[name]? = some s ∧ Summarizes s (temps name lines))
    (hothers : ∀ name, temps name lines = [] → result[name]? = none) :
    EveryMeasurement result lines := by
  refine ⟨hstations, hothers, ?_⟩
  have hcount : ∀ e ∈ result.toList, e.2.count = (temps e.1 lines).length := by
    intro e he
    have hget := Std.TreeMap.mem_toList_iff_getElem?_eq_some.mp he
    by_cases hnil : temps e.1 lines = []
    · rw [hothers e.1 hnil] at hget
      cases hget
    · obtain ⟨s, hs, hsummary⟩ := hstations e.1 hnil
      rw [hs] at hget
      rw [← Option.some.inj hget]
      exact hsummary.count
  have hkeys : ∀ row ∈ lines.map measurement, row.1 ∈ result.toList.map Prod.fst := by
    intro row hrow
    have hne : temps row.1 lines ≠ [] := by
      refine List.ne_nil_of_mem (a := row.2) ?_
      exact List.mem_map.mpr ⟨row, List.mem_filter.mpr ⟨hrow, by simp⟩, rfl⟩
    obtain ⟨s, hs, -⟩ := hstations row.1 hne
    exact List.mem_map.mpr ⟨(row.1, s), Std.TreeMap.mem_toList_iff_getElem?_eq_some.mpr hs, rfl⟩
  have hnodup : (result.toList.map Prod.fst).Nodup := by
    rw [Std.TreeMap.map_fst_toList_eq_keys]
    exact Std.TreeMap.nodup_keys
  have hsum := HashMap.sum_group_length hnodup hkeys
  rw [List.length_map, List.map_map] at hsum
  rw [← hsum]
  congr 1
  exact List.map_congr_left hcount

theorem Tallies.everyMeasurement {map : FastMap} {lines : List Bytes}
    (h : Tallies map (lines.map measurement)) (hlines : ∀ line ∈ lines, WellFormedLine line) :
    EveryMeasurement (intoSorted map) lines := by
  apply EveryMeasurement.of_stations
  · intro name hne
    rw [h.getElem?_intoSorted, if_neg hne]
    exact ⟨_, rfl, Stats.foldl_summarizes hne (temps_range hlines name)⟩
  · intro name hnil
    rw [h.getElem?_intoSorted, if_pos hnil]

/-- **One thread counts every line that is ended.** -/
theorem runSequential_tallies (ov : Overflow) {data : Bytes} (h : WellFormed data) :
    ∃ map, runSequential ov data = some (intoSorted map) ∧
      Tallies map ((linesOf data).map measurement) := by
  obtain ⟨map, hmap, htally⟩ := @aggregate_tallies ov data h
  have hrows : rows ov (linesOf data) = (linesOf data).map measurement := rows_eq ov h
  rw [hrows] at htally
  exact ⟨map, by rw [runSequential, hmap, Option.map_some], htally⟩

end RustFundamentals.Brc
