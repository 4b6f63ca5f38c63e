import RustFundamentals.Logcrunch.PipelineRuns
import RustFundamentals.Logcrunch.Reports

/-!
# logcrunch: all modes give the sequential report

Each mode ends with statistics that record the lines of the log, in some order, so their reports
are equal. For the parallel mode the chunks have to be pieces of the data, which they are unless
the product that places a cut overflows (`modes_agree_iff`).
-/

namespace RustFundamentals.Logcrunch

open Foundation

variable {ov : Overflow} {data : Bytes}

/-! ## Sequential -/

theorem recordLines_eq (ov : Overflow) (s : Stats) (lines : List Text) :
    s.recordLines ov lines =
      (lines.filter fun l => !l.isEmpty).foldlM (Stats.recordLine ov) s := by
  unfold Stats.recordLines
  induction lines generalizing s with
  | nil => rfl
  | cons line lines ih =>
    cases hline : line.isEmpty with
    | true =>
      rw [List.foldlM_cons, hline, if_pos rfl, List.filter_cons_of_neg (by simp [hline])]
      exact ih s
    | false =>
      rw [List.foldlM_cons, hline, if_neg (by simp), List.filter_cons_of_pos (by simp [hline]),
        List.foldlM_cons]
      exact bind_congr fun s => ih s

theorem sequential_records (hfits : bytesOf (linesOf data) < 2 ^ 64) :
    ∃ s, analyzeSequential ov data = some s ∧ Records s (linesOf data) := by
  rw [analyzeSequential, recordLines_eq]
  exact Records.default.addLines hfits

/-! ## Chunks -/

theorem mapM_some {α β : Type} {f : α → Option β} {g : α → β} {l : List α}
    (h : ∀ a ∈ l, f a = some (g a)) : l.mapM f = some (l.map g) := by
  induction l with
  | nil => rfl
  | cons a l ih =>
    rw [List.mapM_cons, h a List.mem_cons_self, ih fun x hx => h x (List.mem_cons_of_mem _ hx)]
    rfl

theorem mapM_none {α β : Type} {f : α → Option β} {l : List α} {a : α} (ha : a ∈ l)
    (h : f a = none) : l.mapM f = none := by
  induction l with
  | nil => cases ha
  | cons b l ih =>
    rw [List.mapM_cons]
    rcases List.mem_cons.mp ha with rfl | ha
    · rw [h]
      rfl
    · rw [ih ha]
      cases f b <;> rfl

/-- The bounds, when no product overflows. -/
theorem chunkBounds_eq (ov : Overflow) {n : Nat} (h : (n - 1) * data.length < 2 ^ 64) :
    chunkBounds ov data n = some (0 ::
      (List.range' 1 (n - 1)).map
          (fun i => Lines.cut Text.newlineByte data (i * data.length / n)) ++
        [data.length]) := by
  unfold chunkBounds
  rw [mapM_some (g := fun i => Lines.cut Text.newlineByte data (i * data.length / n))]
  · rfl
  · intro i hi
    have hi' : i ≤ n - 1 := by
      have := List.mem_range'_1.mp hi
      omega
    have hfit := ov.fit_of_lt (lt_of_le_of_lt (Nat.mul_le_mul_right data.length hi') h)
    simp [hfit]

/-- A cut that may be made: behind it lines are complete. -/
def IsBound (data : Bytes) (b : Nat) : Prop :=
  b ≤ data.length ∧ (b = data.length ∨ Lines.Closed Text.newlineByte (data.take b))

/-- **The slices between bounds are pieces**, once those that are empty are left out. -/
theorem windowSlices_pieces {start : Nat} {bounds : List Nat}
    (hsorted : (start :: bounds).Pairwise (· ≤ ·)) (hbounds : ∀ b ∈ bounds, IsBound data b)
    (hlast : (start :: bounds).getLast (List.cons_ne_nil _ _) = data.length) :
    ∃ ps, windowSlices data (start :: bounds) = some ps ∧
      Lines.Pieces Text.newlineByte (ps.filter fun p => !p.isEmpty) ∧
      (ps.filter fun p => !p.isEmpty).flatten = data.drop start := by
  induction bounds generalizing start with
  | nil =>
    obtain rfl : start = data.length := hlast
    exact ⟨[], rfl, .nil, by simp⟩
  | cons stop bounds ih =>
    obtain ⟨hle, hclosed⟩ := hbounds stop List.mem_cons_self
    have hstart : start ≤ stop := (List.pairwise_cons.mp hsorted).1 stop List.mem_cons_self
    obtain ⟨ps, hps, hpieces, hflat⟩ := ih (List.pairwise_cons.mp hsorted).2
      (fun b hb => hbounds b (List.mem_cons_of_mem _ hb)) hlast
    have hslice : slice? data start stop = some ((data.take stop).drop start) := by
      rw [slice?, if_pos ⟨hstart, hle⟩, List.drop_take]
    have hdata := Lines.drop_take_append data hstart
    refine ⟨(data.take stop).drop start :: ps, by rw [windowSlices, hslice, hps]; rfl, ?_⟩
    cases hempty : ((data.take stop).drop start).isEmpty with
    | true =>
      rw [List.filter_cons_of_neg (by simp [hempty]), ← hdata, List.isEmpty_iff.mp hempty]
      exact ⟨hpieces, hflat⟩
    | false =>
      rw [List.filter_cons_of_pos (by simp [hempty]), List.flatten_cons, hflat]
      refine ⟨?_, hdata⟩
      rcases hclosed with rfl | hclosed
      -- a bound at the end of the data: the slices behind it are empty
      · have hnone : (ps.filter fun p => !p.isEmpty) = [] := by
          rw [List.drop_length] at hflat
          rw [List.eq_nil_iff_forall_not_mem]
          intro p hp
          have hp' := (List.mem_filter.mp hp).2
          rw [List.flatten_eq_nil_iff.mp hflat p hp] at hp'
          cases hp'
        rw [hnone]
        exact .last _
      · exact .cons (hclosed.drop start) hpieces

theorem windowSlices_length {bounds : List Nat} {ps : List Bytes}
    (h : windowSlices data bounds = some ps) : ps.length = bounds.length - 1 := by
  fun_induction windowSlices data bounds generalizing ps with
  | case1 start stop bounds ih =>
    obtain ⟨chunk, -, h⟩ := Option.bind_eq_some_iff.mp h
    obtain ⟨chunks, hchunks, h⟩ := Option.bind_eq_some_iff.mp h
    obtain rfl := Option.some.inj h
    rw [List.length_cons, ih hchunks]
    rfl
  | case2 bounds hshort =>
    obtain rfl := Option.some.inj h
    match bounds, hshort with
    | [], _ => rfl
    | [_], _ => rfl
    | a :: b :: l, hshort => exact absurd rfl (hshort a b l)

theorem raw_le {n i : Nat} (hi : i ∈ List.range' 1 (n - 1)) :
    i * data.length / n ≤ data.length := by
  have hi' : i ≤ n := by
    have := List.mem_range'_1.mp hi
    omega
  exact Nat.div_le_of_le_mul (Nat.mul_le_mul_right data.length hi')

/-- **The bounds never fall back**, however many of them are walked to one newline. -/
theorem chunkBounds_sorted {n : Nat} {bounds : List Nat} (h : (n - 1) * data.length < 2 ^ 64)
    (hbounds : chunkBounds ov data n = some bounds) : bounds.Pairwise (· ≤ ·) := by
  rw [chunkBounds_eq ov h] at hbounds
  obtain rfl := Option.some.inj hbounds
  refine List.pairwise_cons.mpr ⟨fun _ _ => Nat.zero_le _, ?_⟩
  refine List.pairwise_append.mpr ⟨?_, List.pairwise_singleton _ _, ?_⟩
  · rw [List.pairwise_map]
    refine List.Pairwise.imp_of_mem ?_ (List.pairwise_lt_range' 1 (by omega))
    intro i j _ hj hij
    exact Lines.cut_mono (Nat.div_le_div_right (Nat.mul_le_mul_right _ hij.le)) (raw_le hj)
  · intro b hb b' hb'
    obtain ⟨i, hi, rfl⟩ := List.mem_map.mp hb
    rw [List.mem_singleton.mp hb']
    exact Lines.cut_le (raw_le hi)

theorem nonempty_of_mem_filter {ps : List Bytes} :
    ∀ p ∈ ps.filter fun p => !p.isEmpty, p ≠ [] := by
  intro p hp hnil
  have hkept := (List.mem_filter.mp hp).2
  rw [hnil] at hkept
  cases hkept

/-- **The chunks are pieces of the data**, one for each pair of bounds at most. -/
theorem splitIntoChunks_pieces (ov : Overflow) {n : Nat} (h : (n - 1) * data.length < 2 ^ 64) :
    ∃ chunks, splitIntoChunks ov data n = some chunks ∧ Lines.Pieces Text.newlineByte chunks ∧
      chunks.flatten = data ∧ (∀ c ∈ chunks, c ≠ []) ∧ chunks.length ≤ max n 1 := by
  by_cases hempty : data = []
  · subst hempty
    exact ⟨[], rfl, .nil, rfl, nofun, Nat.zero_le _⟩
  have hn : max n 1 - 1 = n - 1 := by omega
  have hbounds := chunkBounds_eq ov (n := max n 1) (hn ▸ h)
  rw [List.cons_append] at hbounds
  have hsorted := chunkBounds_sorted (hn ▸ h) hbounds
  obtain ⟨ps, hps, hpieces, hflat⟩ := windowSlices_pieces hsorted (by
    intro b hb
    rcases List.mem_append.mp hb with hb | hb
    · obtain ⟨i, hi, rfl⟩ := List.mem_map.mp hb
      refine ⟨Lines.cut_le (raw_le hi), ?_⟩
      exact or_iff_not_imp_left.mpr (Lines.closed_take_cut (raw_le hi))
    · rw [List.mem_singleton.mp hb]
      exact ⟨le_rfl, .inl rfl⟩) (by simp)
  have hcount : ps.length = max n 1 := by
    rw [windowSlices_length hps]
    simp
  refine ⟨ps.filter fun p => !p.isEmpty, ?_, hpieces, hflat, nonempty_of_mem_filter,
    hcount ▸ List.length_filter_le _ ps⟩
  rw [splitIntoChunks, if_neg (by simpa using hempty), hbounds]
  simp [hps]

/-- **The chunks tile the data on its newlines**, between bounds that never fall back. -/
theorem splitIntoChunks_tiles (ov : Overflow) {data : Bytes} {n : Nat}
    (h : n * data.length < 2 ^ 64) :
    ∃ bounds chunks, chunkBounds ov data (max n 1) = some bounds ∧
      splitIntoChunks ov data n = some chunks ∧
      bounds.Pairwise (· ≤ ·) ∧ Lines.Tiling Text.newlineByte data chunks ∧
      chunks.length ≤ max n 1 := by
  have hproduct : (n - 1) * data.length < 2 ^ 64 :=
    lt_of_le_of_lt (Nat.mul_le_mul_right data.length (Nat.sub_le n 1)) h
  have hbounded : (max n 1 - 1) * data.length < 2 ^ 64 := by
    rwa [show max n 1 - 1 = n - 1 by omega]
  have hbounds := chunkBounds_eq ov hbounded
  obtain ⟨chunks, hchunks, hpieces, hflat, hnonempty, hcount⟩ := splitIntoChunks_pieces ov hproduct
  have htiling := hpieces.tiling hnonempty
  rw [hflat] at htiling
  exact ⟨_, chunks, hbounds, hchunks, chunkBounds_sorted hbounded hbounds, htiling, hcount⟩

/-- More chunks than lines: three cuts go to one newline. -/
theorem twoLines_tiled :
    ∃ bounds chunks, chunkBounds .checked [97, 97, 97, 97, 97, 10, 98] (max 5 1) = some bounds ∧
      splitIntoChunks .checked [97, 97, 97, 97, 97, 10, 98] 5 = some chunks ∧
      bounds.Pairwise (· ≤ ·) ∧
      Lines.Tiling Text.newlineByte [97, 97, 97, 97, 97, 10, 98] chunks ∧
      chunks.length ≤ max 5 1 :=
  splitIntoChunks_tiles .checked (by decide)

/-- In a checked build a product that overflows panics. -/
theorem splitIntoChunks_panics {n : Nat} (h : 2 ^ 64 ≤ (n - 1) * data.length) :
    splitIntoChunks .checked data n = none := by
  have hpos : 0 < (n - 1) * data.length := by omega
  have hn : 0 < n - 1 := Nat.pos_of_mul_pos_right hpos
  have hdata : data ≠ [] := by
    intro heq
    subst heq
    simp at hpos
  have hbounds : chunkBounds .checked data (max n 1) = none := by
    unfold chunkBounds
    rw [mapM_none (a := n - 1)]
    · rfl
    · exact List.mem_range'_1.mpr ⟨hn, by omega⟩
    · rw [Overflow.fit, if_neg (not_lt.mpr h)]
      rfl
  rw [splitIntoChunks, if_neg (by simpa using hdata), hbounds]
  rfl

/-! ## The other modes -/

theorem linesOf_flatten {chunks : List Bytes} (h : Lines.Pieces Text.newlineByte chunks) :
    (chunks.map linesOf).flatten = linesOf chunks.flatten := by
  rw [linesOf, Text.linesLossy_flatten h, List.filter_flatten, List.map_map]
  rfl

theorem parallel_records (hfits : bytesOf (linesOf data) < 2 ^ 64) {n : Nat}
    (h : (n - 1) * data.length < 2 ^ 64) :
    ∃ s, analyzeParallel ov data n = some s ∧ Records s (linesOf data) := by
  obtain ⟨chunks, hchunks, hpieces, hflat, -, -⟩ := splitIntoChunks_pieces ov h
  have hlines := linesOf_flatten hpieces
  rw [hflat] at hlines
  have hlocal : ∀ c ∈ chunks, bytesOf (linesOf c) < 2 ^ 64 := by
    intro c hc
    rw [← hlines] at hfits
    exact lt_of_le_of_lt (bytesOf_le_flatten (List.mem_map.mpr ⟨c, hc, rfl⟩)) hfits
  have hlocals : List.Forall₂ (fun c part => ∃ s, analyzeSequential ov c = some s ∧ Records s part)
      chunks (chunks.map linesOf) := by
    rw [List.forall₂_map_right_iff, List.forall₂_same]
    exact fun c hc => sequential_records (hlocal c hc)
  obtain ⟨s, hs, hmerged⟩ := @mergeLocals_records ov _ _ _ _ hlocals (hlines ▸ hfits)
  refine ⟨s, ?_, hlines ▸ hmerged⟩
  rw [analyzeParallel, hchunks]
  exact hs

theorem reduction_records (t : Reduction) (hfits : bytesOf t.lines < 2 ^ 64) :
    ∃ s, t.eval ov = some s ∧ Records s t.lines := by
  induction t with
  | fold lines =>
    -- rayon reduces each fold with the identity
    obtain ⟨acc, hacc, hrecords⟩ := @Records.addLines ov _ _ lines Records.default hfits
    obtain ⟨s, hs, hrecords'⟩ := @Records.merge ov _ _ _ _ Records.default hrecords hfits
    exact ⟨s, by rw [Reduction.eval, hacc]; exact hs, hrecords'⟩
  | reduce left right ihl ihr =>
    have hsplit := bytesOf_append left.lines right.lines
    rw [Reduction.lines] at hfits
    obtain ⟨a, ha, hleft⟩ := ihl (by omega)
    obtain ⟨b, hb, hright⟩ := ihr (by omega)
    obtain ⟨s, hs, hrecords⟩ := @Records.merge ov _ _ _ _ hleft hright hfits
    exact ⟨s, by rw [Reduction.eval, ha, hb]; exact hs, hrecords⟩

/-! ## Agreement -/

/-- No well-formed line has NaN for its request time. -/
def NoNan (data : Bytes) : Prop := ∀ e ∈ entriesOf (linesOf data), e.requestTimeMs ≠ .nan

/-- The statistics have that report. -/
def Reports (stats : Option Stats) (topK : Nat) (report : Report) : Prop :=
  (stats.bind fun s => s.intoReport topK) = some report

/-- **All modes give the sequential report**: parallel with that many threads; the pipeline with
that many workers, which starts, and can always finish, whatever happens in which order; rayon
along any tree over the lines. -/
def ModesAgree (ov : Overflow) (data : Bytes) (nThreads nWorkers topK : Nat) : Prop :=
  ∃ report, Reports (analyzeSequential ov data) topK report ∧
    Reports (analyzeParallel ov data nThreads) topK report ∧
    (∃ p, Pipeline.start data nWorkers = some p ∧ ∀ es,
      (∃ es', (runFrom (Pipeline.exec ov) p (es ++ es')).Done) ∧
      ((runFrom (Pipeline.exec ov) p es).Done →
        Reports ((runFrom (Pipeline.exec ov) p es).result ov) topK report)) ∧
    ∀ t : Reduction, t.lines = rayonLines data → Reports (t.eval ov) topK report

theorem modes_agree (ov : Overflow) (hnan : NoNan data) (hfits : bytesOf (linesOf data) < 2 ^ 64)
    {nThreads nWorkers : Nat} (topK : Nat) (h : (nThreads - 1) * data.length < 2 ^ 64)
    (hworkers : 1 ≤ nWorkers) (hhandles : joinHandleSize * nWorkers ≤ isizeMax) :
    ModesAgree ov data nThreads nWorkers topK := by
  obtain ⟨s, hs, hrecords⟩ := @sequential_records ov data hfits
  -- the comparison of request times does not panic
  have htimes : .nan ∉ s.requestTimes := by
    intro hmem
    obtain ⟨e, he, htime⟩ := List.mem_map.mp (hrecords.requestTimes.mem_iff.mp hmem)
    exact hnan e he htime
  obtain ⟨report, hreport⟩ := intoReport_some (fun h => htimes h.2) topK
  have hall : ∀ {stats : Option Stats}, (∃ t, stats = some t ∧ Records t (linesOf data)) →
      Reports stats topK report := by
    intro stats hstats
    obtain ⟨t, rfl, ht⟩ := hstats
    exact (intoReport_eq ht hrecords topK).trans hreport
  refine ⟨report, hall ⟨s, hs, hrecords⟩, hall (parallel_records hfits h), ?_, ?_⟩
  · obtain ⟨p, hstart⟩ := Pipeline.start_isSome_iff.mpr hhandles
    refine ⟨p, hstart, fun es => ?_⟩
    obtain ⟨parts, hholds⟩ := @Pipeline.run_holds ov _ _ _ (Pipeline.start_holds hstart) hfits es
    have hne : (runFrom (Pipeline.exec ov) p es).workers ≠ [] := by
      rw [← List.length_pos_iff, Pipeline.run_workers, List.length_pos_iff]
      exact Pipeline.start_workers hstart hworkers
    refine ⟨?_, fun hdone => hall (Pipeline.result_records hholds hfits hne hdone)⟩
    obtain ⟨es', hdone⟩ := Pipeline.finishes ov hholds hfits hne
    exact ⟨es', by rw [runFrom_append]; exact hdone⟩
  · intro t ht
    have hlines : t.lines = linesOf data := ht
    exact hall (hlines ▸ reduction_records t (hlines ▸ hfits))

/-- **The modes agree, in either build profile, exactly when the products that place the cuts fit
64 bits and the join handles of the workers one vector.** -/
theorem modes_agree_iff (hnan : NoNan data) (hfits : bytesOf (linesOf data) < 2 ^ 64)
    (nThreads : Nat) {nWorkers : Nat} (hworkers : 1 ≤ nWorkers) (topK : Nat) :
    (∀ ov, ModesAgree ov data nThreads nWorkers topK) ↔
      (nThreads - 1) * data.length < 2 ^ 64 ∧ joinHandleSize * nWorkers ≤ isizeMax := by
  refine ⟨?_, fun h ov => modes_agree ov hnan hfits topK h.1 hworkers h.2⟩
  intro hagree
  obtain ⟨report, -, hparallel, ⟨p, hstart, -⟩, -⟩ := hagree .checked
  refine ⟨?_, Pipeline.start_isSome_iff.mp ⟨p, hstart⟩⟩
  by_contra hoverflow
  rw [Reports, analyzeParallel, splitIntoChunks_panics (not_lt.mp hoverflow)] at hparallel
  cases hparallel

/-- Two requests of one address, one of another, a line with a field too few and a blank one. -/
def severalLines : Bytes :=
  ascii ("10.0.0.1 200 512 1.5 GET /a\n10.0.0.2 503 40 20 GET /b\n\n10.0.0.1 200 GET /a\n" ++
    "10.0.0.1 404 8 0.25 POST /a\n")

theorem severalLines_entries : entriesOf (linesOf severalLines) =
    [⟨"10.0.0.1".toList, 200, 512, .finite (3 / 2), "GET".toList, "/a".toList⟩,
      ⟨"10.0.0.2".toList, 503, 40, .finite 20, "GET".toList, "/b".toList⟩,
      ⟨"10.0.0.1".toList, 404, 8, .finite (1 / 4), "POST".toList, "/a".toList⟩] := by
  decide +kernel

theorem severalLines_fits : NoNan severalLines ∧ bytesOf (linesOf severalLines) < 2 ^ 64 := by
  rw [NoNan, bytesOf, severalLines_entries]
  decide

theorem severalLines_agree :
    (∀ ov, ModesAgree ov severalLines 4 3 10) ↔
      (4 - 1) * severalLines.length < 2 ^ 64 ∧ joinHandleSize * 3 ≤ isizeMax :=
  modes_agree_iff severalLines_fits.1 severalLines_fits.2 4 (by decide) 10

theorem blankLines_linesOf (n : Nat) : linesOf (List.replicate n 10) = [] := by
  induction n with
  | zero => rfl
  | succ n ih =>
    have hblank : Lines.Closed Text.newlineByte [10] := .inr ⟨[], 10, rfl, rfl⟩
    have hsplit : linesOf ([10] ++ List.replicate n 10) =
        linesOf [10] ++ linesOf (List.replicate n 10) := by
      rw [linesOf, Text.linesLossy_append hblank, List.filter_append]
      rfl
    rw [List.replicate_succ, ← List.singleton_append, hsplit, ih]
    decide

/-- 2^34 blank lines and 2^30 + 1 threads: the last cut is at 2^30 * 2^34 / (2^30 + 1). The
sequential mode returns; the parallel one panics in a checked build. With 384307168202282326
workers and any log the pipeline does not start. -/
theorem blankLines_disagree :
    NoNan (List.replicate (2 ^ 34) 10) ∧ bytesOf (linesOf (List.replicate (2 ^ 34) 10)) < 2 ^ 64 ∧
      (∃ s, analyzeSequential .checked (List.replicate (2 ^ 34) 10) = some s) ∧
      analyzeParallel .checked (List.replicate (2 ^ 34) 10) (2 ^ 30 + 1) = none ∧
      (∀ nWorkers topK,
        ¬ ModesAgree .checked (List.replicate (2 ^ 34) 10) (2 ^ 30 + 1) nWorkers topK) ∧
      ∀ ov data nThreads topK, ¬ ModesAgree ov data nThreads 384307168202282326 topK := by
  have hlines := blankLines_linesOf (2 ^ 34)
  have hfits : bytesOf (linesOf (List.replicate (2 ^ 34) 10)) < 2 ^ 64 := by
    rw [hlines]
    decide
  have hpanics : analyzeParallel .checked (List.replicate (2 ^ 34) 10) (2 ^ 30 + 1) = none := by
    rw [analyzeParallel, splitIntoChunks_panics (by rw [List.length_replicate]; decide)]
    rfl
  refine ⟨?_, hfits, ?_, hpanics, ?_, ?_⟩
  · intro e he
    rw [hlines] at he
    cases he
  · obtain ⟨s, hs, -⟩ := @sequential_records .checked _ hfits
    exact ⟨s, hs⟩
  · intro nWorkers topK hagree
    obtain ⟨report, -, hparallel, -⟩ := hagree
    rw [Reports, hpanics] at hparallel
    cases hparallel
  · intro ov data nThreads topK hagree
    obtain ⟨report, -, -, ⟨p, hstart, -⟩, -⟩ := hagree
    exact absurd (Pipeline.start_isSome_iff.mp ⟨p, hstart⟩) (by decide)

end RustFundamentals.Logcrunch
