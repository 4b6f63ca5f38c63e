import RustFundamentals.Brc.Lines

/-!
# brc: parallel equals sequential

A map of stations tallies the rows it was folded from, whether they came line by line or by
merging the maps of other lines (`aggregate_tallies`, `merge_partials`). The chunks hold the
lines of the whole, so both drivers tally the same rows, provided the chunks can be listed at
all: the list is allocated for as many as there are threads (`parallel_iff`).
-/

namespace RustFundamentals.Brc

open Foundation

/-! ## Tallies -/

/-- The map of some rows. -/
def Tallies (map : FastMap) (rows : List (Bytes × Int)) : Prop :=
  HashMap.Tallies Stats.record Stats.default map rows

/-- What a fold of `record` has, its bounds are those of an `i32`. -/
def Stats.InRange (s : Stats) : Prop := s.min ≤ 2 ^ 31 - 1 ∧ -2 ^ 31 ≤ s.max

theorem Stats.record_inRange {s : Stats} (h : s.InRange) (temp : Int) : (s.record temp).InRange :=
  ⟨le_trans (min_le_left _ _) h.1, le_trans h.2 (le_max_left _ _)⟩

theorem Stats.foldl_inRange (temps : List Int) : (temps.foldl record default).InRange := by
  have hall : ∀ s : Stats, s.InRange → (temps.foldl record s).InRange := by
    induction temps with
    | nil => exact fun s h => h
    | cons t temps ih => exact fun s h => ih _ (record_inRange h t)
  exact hall _ ⟨le_refl _, le_refl _⟩

/-- The default is neutral. -/
theorem Stats.merge_default {s : Stats} (h : s.InRange) : s.merge default = s := by
  obtain ⟨lo, hi, sum, count⟩ := s
  rw [merge, default, min_eq_left h.1, max_eq_left h.2, Int.add_zero, Nat.add_zero]

theorem Stats.merge_record (s x : Stats) (temp : Int) :
    s.merge (x.record temp) = (s.merge x).record temp := by
  rw [merge, record, merge, record]
  simp only [min_assoc, max_assoc, Int.add_assoc, Nat.add_assoc]

/-- **Merging is recording** what the other has recorded. -/
theorem Stats.merge_foldl (temps temps' : List Int) :
    (temps.foldl record default).merge (temps'.foldl record default) =
      (temps ++ temps').foldl record default := by
  have hall : ∀ x s : Stats, s.merge (temps'.foldl record x) = temps'.foldl record (s.merge x) := by
    induction temps' with
    | nil => exact fun _ _ => rfl
    | cons t temps' ih =>
      intro x s
      rw [List.foldl_cons, List.foldl_cons, ih, merge_record]
  rw [hall, merge_default (foldl_inRange temps), List.foldl_append]

theorem Tallies.line {ov : Overflow} {map : FastMap} {rows : List (Bytes × Int)}
    (h : Tallies map rows) {line : Bytes} {row : Bytes × Int} (hrow : rowOf ov line = some row) :
    ∃ map', aggregateLine ov map line = some map' ∧ Tallies map' (rows ++ [row]) := by
  unfold rowOf at hrow
  cases hsplit : splitLine line with
  | none => rw [hsplit] at hrow; cases hrow
  | some parts =>
    obtain ⟨name, temp⟩ := parts
    cases htemp : parseTemp ov temp with
    | none => simp [hsplit, htemp] at hrow
    | some v =>
      obtain rfl : (name, v) = row := by simpa [hsplit, htemp] using hrow
      refine ⟨map.entry name Stats.default fun s => s.record v, ?_, HashMap.Tallies.entry h name v⟩
      simp [aggregateLine, hsplit, htemp]

theorem newlines_record {line : Bytes} (h : ∀ b ∈ line, isNewline b = false) {b : UInt8}
    (hb : isNewline b = true) (data : Bytes) (i : Nat) :
    newlines (line ++ b :: data) i = (i + line.length) :: newlines data (i + line.length + 1) := by
  induction line generalizing i with
  | nil => exact if_pos hb
  | cons x line ih =>
    rw [List.cons_append, newlines, if_neg (by simp [h x List.mem_cons_self]),
      ih (fun y hy => h y (List.mem_cons_of_mem _ hy)), List.length_cons]
    congr 1
    · omega
    · congr 1
      omega

theorem newlines_unended {data : Bytes} (h : ∀ b ∈ data, isNewline b = false) (i : Nat) :
    newlines data i = [] := by
  induction data generalizing i with
  | nil => rfl
  | cons x data ih =>
    rw [newlines, if_neg (by simp [h x List.mem_cons_self])]
    exact ih (fun y hy => h y (List.mem_cons_of_mem _ hy)) _

/-- The loop takes the lines of what is left. -/
theorem aggregateLoop_eq (ov : Overflow) (rest pre : Bytes) (map : FastMap) :
    aggregateLoop ov (pre ++ rest) (newlines rest pre.length) pre.length map =
      (Lines.records isNewline rest).foldlM (aggregateLine ov) map := by
  induction rest using Lines.induction isNewline generalizing pre map with
  | unended rest hrest =>
    rw [newlines_unended hrest, Lines.records, Lines.split_of_not_sep hrest]
    rfl
  | record line b rest hline hb ih =>
    have hslice : slice? (pre ++ (line ++ b :: rest)) pre.length (pre.length + line.length) =
        some line := slice?_append_of_eq pre (b :: rest) (by simp) rfl rfl
    have hnext := ih (pre ++ line ++ [b])
    rw [List.length_append, List.length_append, List.length_singleton, List.append_assoc,
      List.append_assoc, List.singleton_append] at hnext
    rw [newlines_record hline hb, aggregateLoop, hslice, Lines.records, Lines.split_record hline hb]
    show (aggregateLine ov map line >>= fun map => _) = _
    rw [List.foldlM_cons]
    refine bind_congr fun map => ?_
    exact hnext map

theorem aggregate_eq (ov : Overflow) (data : Bytes) :
    aggregate ov data = (Lines.records isNewline data).foldlM (aggregateLine ov) ∅ :=
  aggregateLoop_eq ov data [] ∅

/-- The rows of lines that have one. -/
def rows (ov : Overflow) (lines : List Bytes) : List (Bytes × Int) := lines.filterMap (rowOf ov)

/-- The lines of a buffer. -/
def linesOf (data : Bytes) : List Bytes := Lines.records isNewline data

theorem lines_tally {ov : Overflow} {lines : List Bytes} (h : ∀ line ∈ lines, WellFormedLine line)
    {map : FastMap} {before : List (Bytes × Int)} (hmap : Tallies map before) :
    ∃ map', lines.foldlM (aggregateLine ov) map = some map' ∧
      Tallies map' (before ++ rows ov lines) := by
  induction lines generalizing map before with
  | nil => exact ⟨map, rfl, by rw [rows, List.filterMap_nil, List.append_nil]; exact hmap⟩
  | cons line lines ih =>
    have hrow := rowOf_eq ov (h line List.mem_cons_self)
    obtain ⟨map₁, hline, hmap₁⟩ := hmap.line hrow
    obtain ⟨map', hlines, hmap'⟩ := ih (fun l hl => h l (List.mem_cons_of_mem _ hl)) hmap₁
    refine ⟨map', ?_, ?_⟩
    · rw [List.foldlM_cons, hline]
      exact hlines
    · rw [rows, List.filterMap_cons_some hrow, List.append_cons]
      exact hmap'

/-- **A pass tallies the rows** of the lines that are ended. -/
theorem aggregate_tallies {ov : Overflow} {data : Bytes} (h : WellFormed data) :
    ∃ map, aggregate ov data = some map ∧ Tallies map (rows ov (linesOf data)) := by
  rw [aggregate_eq]
  exact lines_tally h HashMap.Tallies.empty

theorem merge_partials {ov : Overflow} {chunks : List Bytes} (h : ∀ c ∈ chunks, WellFormed c)
    {map : FastMap} {before : List (Bytes × Int)} (hmap : Tallies map before) :
    ∃ partials, chunks.mapM (aggregate ov) = some partials ∧
      Tallies (partials.foldl mergePartial map)
        (before ++ rows ov (chunks.map linesOf).flatten) := by
  induction chunks generalizing map before with
  | nil => exact ⟨[], rfl, by simpa [rows] using hmap⟩
  | cons c chunks ih =>
    obtain ⟨m, hm, htally⟩ := @aggregate_tallies ov c (h c List.mem_cons_self)
    have hmerged : Tallies (mergePartial map m) (before ++ rows ov (linesOf c)) :=
      HashMap.Tallies.merge Stats.merge_foldl hmap htally
    obtain ⟨ms, hms, hrest⟩ := ih (fun c hc => h c (List.mem_cons_of_mem _ hc)) hmerged
    refine ⟨m :: ms, ?_, ?_⟩
    · rw [List.mapM_cons, hm, hms]
      rfl
    · have hrows : rows ov (linesOf c ++ (chunks.map linesOf).flatten) =
          rows ov (linesOf c) ++ rows ov (chunks.map linesOf).flatten := List.filterMap_append
      rw [List.map_cons, List.flatten_cons, hrows, ← List.append_assoc]
      exact hrest

/-! ## Chunks -/

/-- What the loop leaves for the last chunk. -/
def remainder (data : Bytes) (last : Nat) : List Bytes :=
  if last < data.length then [data.drop last] else []

theorem remainder_length_le (data : Bytes) (last : Nat) : (remainder data last).length ≤ 1 := by
  unfold remainder
  split <;> simp

theorem remainder_nonempty {data : Bytes} {last : Nat} : ∀ c ∈ remainder data last, c ≠ [] := by
  intro c hc hnil
  unfold remainder at hc
  split at hc
  · rename_i hlast
    rw [List.mem_singleton.mp hc, List.drop_eq_nil_iff] at hnil
    omega
  · cases hc

/-- **The chunks are pieces** of what is left, none of them empty: a cut that is made in front of
the end moves past a newline, or to the end. -/
theorem splitLoop_pieces (data : Bytes) (approx k : Nat) {start : Nat}
    (hstart : start ≤ data.length) (hmore : start < data.length ∨ k = 0) :
    ∃ chunks last, splitLoop data approx k start = some (chunks, last) ∧
      Lines.Pieces isNewline (chunks ++ remainder data last) ∧
      (chunks ++ remainder data last).flatten = data.drop start ∧
      (∀ c ∈ chunks, c ≠ []) ∧ chunks.length ≤ k := by
  induction k generalizing start with
  | zero =>
    refine ⟨[], start, rfl, ?_⟩
    rw [List.nil_append, remainder]
    split
    · exact ⟨.last _, by simp, nofun, le_rfl⟩
    · exact ⟨.nil, by simp; omega, nofun, le_rfl⟩
  | succ k ih =>
    have hbefore : start < data.length := hmore.resolve_right (Nat.succ_ne_zero k)
    have hraw : min (start + approx) data.length ≤ data.length := min_le_right _ _
    have hlt : start < Lines.cut isNewline data (min (start + approx) data.length) := by
      by_cases hpast : start < min (start + approx) data.length
      · exact lt_of_lt_of_le hpast (Lines.le_cut hraw)
      · -- chunks of size zero: the walk starts where the last one ended
        have hhere : min (start + approx) data.length = start := by omega
        rw [hhere]
        exact Lines.lt_cut hbefore
    have hstop := @Lines.cut_le _ isNewline _ _ hraw
    have hclosed := @Lines.closed_take_cut _ isNewline _ _ hraw
    unfold splitLoop
    dsimp only
    generalize Lines.cut isNewline data (min (start + approx) data.length) = stop at *
    have hslice : slice? data start stop = some ((data.take stop).drop start) := by
      rw [slice?, if_pos ⟨hlt.le, hstop⟩, List.drop_take]
    have hchunk : (data.take stop).drop start ≠ [] := by
      rw [Ne, List.drop_eq_nil_iff, List.length_take]
      omega
    rw [hslice]
    by_cases hend : data.length ≤ stop
    -- the loop breaks at the end of the data, and nothing remains
    · obtain rfl : stop = data.length := le_antisymm hstop hend
      refine ⟨[data.drop start], data.length, ?_, ?_⟩
      · simp
      · simp only [remainder, lt_irrefl, if_false, List.append_nil]
        rw [List.take_length] at hchunk
        exact ⟨.last _, by simp, by simpa using hbefore, by simp⟩
    · obtain ⟨chunks, last, hloop, hpieces, hflat, hnonempty, hcount⟩ :=
        ih hstop (.inl (not_le.mp hend))
      refine ⟨(data.take stop).drop start :: chunks, last, ?_, ?_⟩
      · simp [hend, hloop]
      · refine ⟨.cons ((hclosed (by omega)).drop start) hpieces, ?_, ?_,
          Nat.succ_le_succ hcount⟩
        · rw [List.cons_append, List.flatten_cons, hflat, Lines.drop_take_append data hlt.le]
        · intro c hc
          rcases List.mem_cons.mp hc with rfl | hc
          · exact hchunk
          · exact hnonempty c hc

/-- The chunks can be listed, and are pieces of the buffer, when the list can be allocated. -/
theorem splitChunks_pieces {data : Bytes} {n : Nat} (hn : n ≠ 0)
    (h : data = [] ∨ 16 * n ≤ isizeMax) :
    ∃ chunks, splitChunks data n = some chunks ∧ Lines.Pieces isNewline chunks ∧
      chunks.flatten = data ∧ (∀ c ∈ chunks, c ≠ []) ∧ chunks.length ≤ n := by
  by_cases hempty : data = []
  · subst hempty
    exact ⟨[], rfl, .nil, rfl, nofun, Nat.zero_le n⟩
  have hcapacity : ¬ (isizeMax < 16 * n ∨ n = 0) := by
    have := h.resolve_left hempty
    omega
  obtain ⟨chunks, last, hloop, hpieces, hflat, hnonempty, hcount⟩ :=
    splitLoop_pieces data (data.length / n) (n - 1) (Nat.zero_le data.length)
      (.inl (List.length_pos_iff.mpr hempty))
  refine ⟨chunks ++ remainder data last, ?_, hpieces, hflat, ?_, ?_⟩
  · rw [splitChunks, if_neg (by simpa using hempty), if_neg hcapacity, hloop]
    unfold remainder
    by_cases hlast : last < data.length <;> simp [hlast]
  · intro c hc
    rcases List.mem_append.mp hc with hc | hc
    · exact hnonempty c hc
    · exact remainder_nonempty c hc
  · have hrest := remainder_length_le data last
    rw [List.length_append]
    omega

/-- For too many threads the list of chunks is not allocated. -/
theorem splitChunks_panics {data : Bytes} {n : Nat} (hdata : data ≠ []) (h : isizeMax < 16 * n) :
    splitChunks data n = none := by
  rw [splitChunks, if_neg (by simpa using hdata), if_pos (.inl h)]

/-- **The chunks tile the buffer on its newlines exactly when their list can be allocated.** -/
theorem splitChunks_tiles_iff {data : Bytes} {n : Nat} (hn : 1 ≤ n) :
    (∃ chunks, splitChunks data n = some chunks ∧ Lines.Tiling isNewline data chunks ∧
      chunks.length ≤ n) ↔ data = [] ∨ 16 * n ≤ isizeMax := by
  refine ⟨?_, ?_⟩
  · intro h
    obtain ⟨chunks, hchunks, -, -⟩ := h
    by_contra hnot
    rw [not_or, not_le] at hnot
    rw [splitChunks_panics hnot.1 hnot.2] at hchunks
    cases hchunks
  · intro h
    obtain ⟨chunks, hchunks, hpieces, hflat, hnonempty, hcount⟩ :=
      splitChunks_pieces (Nat.one_le_iff_ne_zero.mp hn) h
    have htiling := hpieces.tiling hnonempty
    rw [hflat] at htiling
    exact ⟨chunks, hchunks, htiling, hcount⟩

/-- More chunks than bytes. -/
theorem shortLines_tiled :
    ∃ chunks, splitChunks [97, 10, 98, 98] 9 = some chunks ∧
      Lines.Tiling isNewline [97, 10, 98, 98] chunks ∧ chunks.length ≤ 9 :=
  (splitChunks_tiles_iff (by decide)).mpr (.inr (by decide))

/-- 2 ^ 59 chunks are not listed, whatever the one byte is. -/
theorem oneByte_not_tiled :
    ¬ ∃ chunks, splitChunks [97] (2 ^ 59) = some chunks ∧ Lines.Tiling isNewline [97] chunks ∧
      chunks.length ≤ 2 ^ 59 := by
  intro h
  obtain ⟨chunks, hchunks, -, -⟩ := h
  rw [splitChunks_panics (by decide) (by decide)] at hchunks
  cases hchunks

/-! ## The sorted map -/

theorem getElem?_intoSorted (map : FastMap) (name : Bytes) :
    (intoSorted map)[name]? = map.lookup name := by
  have hdistinct : (map.entries.map fun e => (e.1, e.2)).Pairwise
      fun a b => ¬ compare a.1 b.1 = .eq := by
    rw [List.pairwise_map]
    refine (List.nodupKeys_iff_pairwise.mp map.nodupKeys).imp ?_
    intro a b hab heq
    exact hab (Std.LawfulEqCmp.eq_of_compare heq)
  unfold intoSorted
  cases hlookup : map.lookup name with
  | some s =>
    refine Std.TreeMap.getElem?_ofList_of_mem Std.ReflCmp.compare_self hdistinct ?_
    exact List.mem_map.mpr ⟨⟨name, s⟩, HashMap.mem_entries.mpr hlookup, rfl⟩
  | none =>
    apply Std.TreeMap.getElem?_ofList_of_contains_eq_false
    rw [← Bool.not_eq_true, List.contains_iff_mem]
    intro hmem
    simp only [List.map_map, List.mem_map, Function.comp_apply] at hmem
    obtain ⟨e, he, rfl⟩ := hmem
    rw [HashMap.mem_entries.mp he] at hlookup
    cases hlookup

/-- Maps of the same rows are sorted into the same stations. -/
theorem Tallies.toList_eq {map map' : FastMap} {rows : List (Bytes × Int)} (h : Tallies map rows)
    (h' : Tallies map' rows) : (intoSorted map).toList = (intoSorted map').toList := by
  apply Std.TreeMap.Equiv.toList_eq
  apply Std.TreeMap.Equiv.of_forall_constGet?_eq
  intro name
  have hlookup := HashMap.Tallies.lookup_eq h h' name
  rw [← getElem?_intoSorted, ← getElem?_intoSorted] at hlookup
  exact hlookup

/-! ## Both drivers -/

/-- Both return, with the same stations and the same numbers. -/
def Agree (ov : Overflow) (data : Bytes) (threads : Nat) : Prop :=
  ∃ result result', runSequential ov data = some result ∧
    runParallel ov data threads = some result' ∧ result'.toList = result.toList

theorem parallel_agrees {ov : Overflow} {data : Bytes} (hdata : WellFormed data) {threads : Nat}
    (h : data = [] ∨ 16 * threads ≤ isizeMax) : Agree ov data threads := by
  obtain ⟨map, hmap, htally⟩ := @aggregate_tallies ov data hdata
  have hsequential : runSequential ov data = some (intoSorted map) := by
    rw [runSequential, hmap, Option.map_some]
  by_cases hthreads : threads ≤ 1
  · exact ⟨_, _, hsequential, by rw [runParallel, if_pos hthreads, hsequential], rfl⟩
  obtain ⟨chunks, hchunks, hpieces, hflat, -, -⟩ := splitChunks_pieces (by omega) h
  have hlines : (chunks.map linesOf).flatten = linesOf data := by
    rw [← hflat]
    exact hpieces.records_flatten.symm
  have hwell : ∀ c ∈ chunks, WellFormed c := by
    intro c hc line hline
    refine hdata line ?_
    show line ∈ linesOf data
    rw [← hlines]
    exact List.mem_flatten.mpr ⟨_, List.mem_map.mpr ⟨c, hc, rfl⟩, hline⟩
  obtain ⟨partials, hpartials, hmerged⟩ := @merge_partials ov chunks hwell ∅ []
    HashMap.Tallies.empty
  rw [hlines, List.nil_append] at hmerged
  refine ⟨_, intoSorted (partials.foldl mergePartial ∅), hsequential, ?_,
    hmerged.toList_eq htally⟩
  rw [runParallel, if_neg hthreads, hchunks]
  simp [hpartials]

/-- Four rows of three stations, and a line that is not ended. -/
def severalRows : Bytes := ascii "a;1.0\nb;-2.3\na;12.5\nc;0.0\nb"

theorem severalRows_wellFormed : WellFormed severalRows := by
  have hlines : Lines.records isNewline severalRows =
      [ascii "a;1.0", ascii "b;-2.3", ascii "a;12.5", ascii "c;0.0"] := by decide +kernel
  rw [WellFormed, hlines]
  simp only [List.forall_mem_cons, List.not_mem_nil, false_imp_iff, implies_true, and_true]
  exact ⟨⟨ascii "a", ascii "1.0", by decide +kernel⟩, ⟨ascii "b", ascii "-2.3", by decide +kernel⟩,
    ⟨ascii "a", ascii "12.5", by decide +kernel⟩, ⟨ascii "c", ascii "0.0", by decide +kernel⟩⟩

/-- `a;1.0`, and a line that is not ended. -/
def oneRow : Bytes := [97, 59, 49, 46, 48, 10, 98]

theorem oneRow_wellFormed : WellFormed oneRow := by
  have hlines : Lines.records isNewline oneRow = [[97, 59, 49, 46, 48]] := by decide
  intro line hline
  rw [hlines] at hline
  rw [List.mem_singleton.mp hline]
  exact ⟨[97], [49, 46, 48], rfl, by decide, by decide⟩

end RustFundamentals.Brc
