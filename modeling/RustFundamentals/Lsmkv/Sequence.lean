import RustFundamentals.Lsmkv.OnDisk
import RustFundamentals.Lsmkv.Refinement

/-!
# lsmkv: the numbers handed out

A run without I/O errors is observed together with the sequence numbers its writes were
given. They increase strictly as long as each open finds the last of them on disk
(`numbers_increase`): an open restarts the count after the highest number it finds. A
compaction that drops the tombstone that carries the highest number lets the next session
hand it out again (`droppedTombstone_repeats`).
-/

namespace RustFundamentals.Lsmkv

open Foundation Foundation.Fs Foundation.Lsm

variable {ov : Overflow}

/-- The number a step hands out: the one its write takes. -/
def handedOut (ov : Overflow) (s : Sys) (st : Step) : List Seq :=
  match st.op, s.proc with
  | .call c, some db =>
    if (c.record 0).isSome ∧ (ov.fit 64 (db.seq + 1)).isSome then [db.seq] else []
  | _, _ => []

/-- A step of the system, with the numbers handed out so far. -/
def numbered (ov : Overflow) (t : Sys × List Seq) (st : Step) :
    Except (Stop Error) Unit × (Sys × List Seq) :=
  let (out, s') := exec ov t.1 st
  (out, (s', t.2 ++ handedOut ov t.1 st))

/-- The last number handed out is still carried by a record in the log or in a table file. -/
def HighWaterKept (dir : Dir) (numbers : List Seq) : Prop :=
  ∀ n ∈ numbers.getLast?, (∃ r ∈ logRecords dir, r.seq = n) ∨
    ∃ id ∈ foundIds dir, ∃ r ∈ diskTable dir id, r.seq = n

instance (dir : Dir) (numbers : List Seq) : Decidable (HighWaterKept dir numbers) :=
  inferInstanceAs (Decidable (∀ n ∈ numbers.getLast?, _ ∨ _))

/-- The numbers increase from 1 on, every stored record carries one of them, and a running
store is past them. -/
structure NumberedBy (numbers : List Seq) (d : Disk Record) (op : Option (Proc Record Bytes)) :
    Prop where
  sorted : numbers.Pairwise (· < ·)
  pos : ∀ n ∈ numbers, 0 < n
  carried : ∀ x ∈ d.stored, x.seq ∈ numbers
  started : ∀ p, op = some p → 0 < p.seq
  past : ∀ p, op = some p → ∀ n ∈ numbers, n < p.seq

/-- The invariant of runs. -/
def Numbered (t : Sys × List Seq) : Prop :=
  ∃ d op, Models False False t.1 d op ∧ NumberedBy t.2 d op

/-- A sorted list is bounded by its last element. -/
theorem le_of_getLast? {numbers : List Seq} (h : numbers.Pairwise (· < ·)) {last : Seq}
    (hlast : numbers.getLast? = some last) {n : Seq} (hn : n ∈ numbers) : n ≤ last := by
  obtain ⟨pre, rfl⟩ := List.getLast?_eq_some_iff.mp hlast
  rcases List.mem_append.mp hn with hn | hn
  · exact ((List.pairwise_append.mp h).2.2 n hn last (by simp)).le
  · exact (List.mem_singleton.mp hn).le

variable {d d' : Disk Record} {numbers : List Seq}

/-- What is kept is carried by a stored record. -/
theorem highWaterKept_iff {s : Sys} {op : Option (Proc Record Bytes)}
    (hm : Models False False s d op) :
    HighWaterKept s.dir numbers ↔ ∀ n ∈ numbers.getLast?, ∃ x ∈ d.stored, x.seq = n := by
  have hclean : CleanLog s.dir := (hm.stores.wholeLog id).clean
  refine forall_congr' fun n => forall_congr' fun _ => ?_
  rw [logRecords_eq hm.stores hclean]
  constructor
  · intro heither
    rcases heither with ⟨x, hx, hn⟩ | ⟨id, hid, x, hx, hn⟩
    · exact ⟨x, .inl hx, hn⟩
    · exact ⟨x, .inr ⟨id, (mem_diskTable hm.stores hid).mp hx⟩, hn⟩
  · intro hfound
    obtain ⟨x, hx | ⟨id, hx⟩, hn⟩ := hfound
    · exact .inl ⟨x, hx, hn⟩
    · have hid : id ∈ foundIds s.dir := (mem_foundIds hm.stores).mpr hx.isSome
      exact .inr ⟨id, hid, x, (mem_diskTable hm.stores hid).mpr hx, hn⟩

/-- **An open is past every number** if it finds the last of them. -/
theorem NumberedBy.reopen {op : Option (Proc Record Bytes)} (h : NumberedBy numbers d op)
    {q : Proc Record Bytes} (hr : Reopened d q)
    (hseq : q.seq = 1 ∨ ∃ x ∈ d.stored, x.seq + 1 = q.seq)
    (hkept : ∀ n ∈ numbers.getLast?, ∃ x ∈ d.stored, x.seq = n) :
    NumberedBy numbers d (some q) := by
  refine { h with started := ?_, past := ?_ }
  · intro q' hq'
    obtain rfl : q = q' := Option.some.inj hq'
    rcases hseq with hone | ⟨x, _, hx⟩
    · exact hone ▸ Nat.one_pos
    · exact hx ▸ Nat.succ_pos _
  intro q' hq' n hn
  obtain rfl : q = q' := Option.some.inj hq'
  obtain ⟨last, hlast⟩ : ∃ last, numbers.getLast? = some last := by
    cases hl : numbers.getLast? with
    | none => simp [List.getLast?_eq_none_iff.mp hl] at hn
    | some last => exact ⟨last, rfl⟩
  obtain ⟨x, hx, hxn⟩ := hkept last hlast
  calc n ≤ last := le_of_getLast? h.sorted hlast hn
    _ < q.seq := hxn ▸ hr.seq_gt x hx

/-- An open that does not find the last number hands out one that was already given, or a
smaller one. -/
theorem NumberedBy.not_past {op : Option (Proc Record Bytes)} (h : NumberedBy numbers d op)
    {q : Proc Record Bytes} (hseq : q.seq = 1 ∨ ∃ x ∈ d.stored, x.seq + 1 = q.seq)
    (hlost : ¬ ∀ n ∈ numbers.getLast?, ∃ x ∈ d.stored, x.seq = n) :
    ∃ n ∈ numbers, q.seq ≤ n := by
  push Not at hlost
  obtain ⟨n, hlast, hne⟩ := hlost
  have hn : n ∈ numbers := List.mem_of_getLast? hlast
  refine ⟨n, hn, ?_⟩
  rcases hseq with hone | ⟨x, hx, hxq⟩
  · rw [hone]
    exact h.pos n hn
  · rw [← hxq]
    have hle : x.seq ≤ n := le_of_getLast? h.sorted hlast (h.carried x hx)
    exact lt_of_le_of_ne hle (hne x hx)

/-- A write takes the next number. -/
theorem NumberedBy.take {p p' : Proc Record Bytes} {r : Record}
    (h : NumberedBy numbers d (some p)) (hr : r.seq = p.seq) (hseq : p'.seq = p.seq + 1)
    (hstored : d'.stored ⊆ (d.append r).stored) (op : Option (Proc Record Bytes))
    (hop : ∀ q, op = some q → q = p') : NumberedBy (numbers ++ [p.seq]) d' op where
  sorted := by
    refine List.pairwise_append.mpr ⟨h.sorted, List.pairwise_singleton _ _, ?_⟩
    intro n hn m hm
    exact List.mem_singleton.mp hm ▸ h.past p rfl n hn
  pos := by
    intro n hn
    rcases List.mem_append.mp hn with hn | hn
    · exact h.pos n hn
    · exact List.mem_singleton.mp hn ▸ h.started p rfl
  started := fun q hq => by
    rw [hop q hq, hseq]
    exact Nat.succ_pos _
  carried := by
    intro x hx
    rcases Disk.mem_stored_append.mp (hstored hx) with rfl | hx
    · exact List.mem_append_right _ (List.mem_singleton.mpr hr)
    · exact List.mem_append_left _ (h.carried x hx)
  past := by
    intro q hq n hn
    rw [hop q hq, hseq]
    rcases List.mem_append.mp hn with hn | hn
    · exact Nat.lt_succ_of_lt (h.past p rfl n hn)
    · exact List.mem_singleton.mp hn ▸ Nat.lt_succ_self _

/-- A step that writes nothing takes none. -/
theorem NumberedBy.skip {p p' : Proc Record Bytes} (h : NumberedBy numbers d (some p))
    (hseq : p'.seq = p.seq) (hstored : d'.stored ⊆ d.stored) (op : Option (Proc Record Bytes))
    (hop : ∀ q, op = some q → q = p') : NumberedBy numbers d' op where
  sorted := h.sorted
  pos := h.pos
  carried := fun x hx => h.carried x (hstored hx)
  started := fun q hq => by
    rw [hop q hq, hseq]
    exact h.started p rfl
  past := fun q hq n hn => by
    rw [hop q hq, hseq]
    exact h.past p rfl n hn

theorem NumberedBy.down {op : Option (Proc Record Bytes)} (h : NumberedBy numbers d op) :
    NumberedBy numbers d none :=
  { h with started := fun p hp => by simp at hp, past := fun p hp => by simp at hp }

theorem handedOut_of_not_call {s : Sys} {st : Step} (h : ∀ c, st.op ≠ .call c) :
    handedOut ov s st = [] := by
  unfold handedOut
  split
  · exact absurd ‹_› (h _)
  · rfl

/-- What a call on a running store with room hands out. -/
theorem handedOut_call {s : Sys} {c : Call} {db : Db} (hdb : s.proc = some db)
    (hlt : db.seq + 1 < 2 ^ 64) :
    handedOut ov s (quietly (.call c)) = if (c.record 0).isSome then [db.seq] else [] := by
  simp only [handedOut, quietly, hdb, Overflow.fit_of_lt ov hlt, Option.isSome_some, and_true]

/-- **One quiet step** hands out a number past all earlier ones, if an open finds the last of
them on disk. -/
theorem Numbered.step {t : Sys × List Seq} {op : Op} (h : Numbered t) (hroom : Room t.1)
    (hfits : op.Fits) (hkept : ∀ opts, op = .openWith opts → HighWaterKept t.1.dir t.2) :
    Numbered (numbered ov t (quietly op)).2 := by
  obtain ⟨s, numbers⟩ := t
  obtain ⟨d, proc, hm, hnum⟩ := h
  dsimp only at hm hnum hroom hkept
  obtain ⟨d', proc', hm', hend⟩ := exec_quietly ov hm hroom hfits
  show Numbered ((exec ov s (quietly op)).2, numbers ++ handedOut ov s (quietly op))
  refine ⟨d', proc', hm', ?_⟩
  generalize (exec ov s (quietly op)).1 = out at hend
  cases hend with
  | @opened opts q hop hr hseq =>
    rw [handedOut_of_not_call (fun c hc => by simp [hop] at hc), List.append_nil]
    exact hnum.reopen hr hseq ((highWaterKept_iff hm).mp (hkept opts hop))
  | failed hop _ =>
    rw [handedOut_of_not_call (fun c hc => by simp [hop] at hc), List.append_nil]
    exact hnum.down
  | stopped hop =>
    rw [handedOut_of_not_call (fun c hc => by simp [hop] at hc), List.append_nil]
    exact hnum.down
  | absent hop hp =>
    have hnone : handedOut ov s (quietly op) = [] := by simp [handedOut, hm.down hp]
    rw [hnone, List.append_nil]
    exact hnum.down
  | @called c p db out d' p' hop hq hdb hend =>
    cases hq
    obtain rfl : op = .call c := hop
    obtain ⟨hwf, hrun⟩ := hm.running hdb
    have hlt : p.seq + 1 < 2 ^ 64 := hrun.seq ▸ (hroom db hdb).1
    have hsame : ∀ q, (if alive out then some p' else none) = some q → q = p' := by
      intro q hq
      split at hq
      · exact (Option.some.inj hq).symm
      · exact absurd hq (by simp)
    rw [handedOut_call hdb (hrun.seq ▸ hlt), hrun.seq]
    cases hend with
    | @wrote r _ _ _ hrec hwrite =>
      have hseq : r.seq = p.seq := Call.record_seq hrec
      rw [if_pos (by rw [Call.record_zero hrec]; rfl)]
      -- without faults the record is logged and applied
      cases hwrite with
      | refused hge => exact absurd hge (not_le.mpr hlt)
      | unlogged _ hb => exact absurd hb not_blamedOn_quiet
      | logged _ hb => exact absurd hb not_blamed_logged_quiet
      | applied _ hflush =>
        have hwf₁ : Wf (d.append r) (p.bump.insert r) := hwf.applied hseq
        exact hnum.take hseq hflush.exit.seq_eq (hflush.exit.stored_subset hwf₁) _ hsame
    | flushed hc hflush =>
      subst hc
      rw [if_neg (by simp [Call.record]), List.append_nil]
      exact hnum.skip hflush.exit.seq_eq (hflush.exit.stored_subset hwf) _ hsame
    | compacted hc j hcomp =>
      subst hc
      rw [if_neg (by simp [Call.record]), List.append_nil]
      exact hnum.skip hcomp.exit.seq_eq (hcomp.exit.stored_subset hwf) _ hsame

/-- The state after a run, with the numbers its writes were given. -/
abbrev runNumbered (ov : Overflow) (t : Sys × List Seq) (ops : List Op) : Sys × List Seq :=
  runFrom (numbered ov) t (ops.map quietly)

/-- A step with room in the counters; an open finds the last number handed out on disk. -/
def Keeping (t : Sys × List Seq) (st : Step) : Prop :=
  Room t.1 ∧ match st.op with
    | .openWith _ => HighWaterKept t.1.dir t.2
    | .call c => c.Fits
    | .stop => True

instance (t : Sys × List Seq) (st : Step) : Decidable (Keeping t st) :=
  have : Decidable (match st.op with
      | .openWith _ => HighWaterKept t.1.dir t.2
      | .call c => c.Fits
      | .stop => True) :=
    match st.op with
    | .openWith _ => inferInstanceAs (Decidable (HighWaterKept t.1.dir t.2))
    | .call c => inferInstanceAs (Decidable c.Fits)
    | .stop => inferInstanceAs (Decidable True)
  inferInstanceAs (Decidable (_ ∧ _))

theorem Numbered.fresh {dir : Dir} (h : Fresh dir) : Numbered (⟨dir, none⟩, []) := by
  have hnone : ∀ x, x ∉ Disk.stored (⟨[], fun _ => none⟩ : Disk Record) := by
    intro x hx
    rcases hx with hx | ⟨i, rs, hrs, _⟩
    · simp at hx
    · simp at hrs
  exact ⟨_, none, Models.fresh h,
    { sorted := List.Pairwise.nil
      pos := fun n hn => by simp at hn
      carried := fun x hx => absurd hx (hnone x)
      started := fun p hp => by simp at hp
      past := fun p hp => by simp at hp }⟩

theorem Numbered.run {t : Sys × List Seq} (h : Numbered t) {ops : List Op}
    (ha : Along (numbered ov) Keeping t (ops.map quietly)) : Numbered (runNumbered ov t ops) := by
  induction ops generalizing t with
  | nil => exact h
  | cons op ops ih =>
    refine ih ?_ ha.2
    obtain ⟨hroom, hop⟩ := ha.1
    refine h.step hroom ?_ ?_
    · cases op with
      | openWith opts => trivial
      | call c => exact hop
      | stop => trivial
    · intro opts hopts
      subst hopts
      exact hop

/-- **An open followed by a write** hands out a new highest number exactly when the open finds
the last one on disk. -/
theorem Numbered.reopen_iff {t : Sys × List Seq} (h : Numbered t) (opts : Options) {c : Call}
    (hwrite : (c.record 0).isSome)
    (hroom : Along (exec ov) (fun s _ => Room s) t.1 ([.openWith opts, .call c].map quietly)) :
    (runNumbered ov t [.openWith opts, .call c]).2.Pairwise (· < ·) ↔
      HighWaterKept t.1.dir t.2 := by
  obtain ⟨s, numbers⟩ := t
  obtain ⟨d, proc, hm, hnum⟩ := h
  obtain ⟨hroom₀, hroom₁, _⟩ := hroom
  dsimp only at hm hnum hroom₀ hroom₁ ⊢
  obtain ⟨d', proc', hm', hend⟩ := exec_quietly ov hm hroom₀
    (show Op.Fits (.openWith opts) from trivial)
  set s' := (exec ov s (quietly (.openWith opts))).2 with hs'
  rw [highWaterKept_iff hm]
  have hnumbers : (runNumbered ov (s, numbers) [.openWith opts, .call c]).2 =
      numbers ++ handedOut ov s' (quietly (.call c)) := by
    show (numbers ++ handedOut ov s (quietly (.openWith opts))) ++ _ = _
    rw [handedOut_of_not_call (fun c hc => by simp [quietly] at hc), List.append_nil]
    rfl
  rw [hnumbers]
  generalize (exec ov s (quietly (.openWith opts))).1 = out at hend
  cases hend with
  | @opened _ q _ hr hseq =>
    obtain ⟨db, hdb, _, hrun⟩ := hm'.up q rfl
    rw [handedOut_call hdb (hroom₁ db hdb).1, if_pos hwrite, hrun.seq]
    -- a last number that was not found is given again, or passed
    constructor
    · intro hsorted
      by_contra hlost
      obtain ⟨n, hn, hle⟩ := hnum.not_past hseq hlost
      have hlt : n < q.seq := (List.pairwise_append.mp hsorted).2.2 n hn q.seq (by simp)
      exact absurd hlt (not_lt.mpr hle)
    · intro hkept
      have hpast := (hnum.reopen hr hseq hkept).past q rfl
      refine List.pairwise_append.mpr ⟨hnum.sorted, List.pairwise_singleton _ _, ?_⟩
      intro n hn m hm
      exact List.mem_singleton.mp hm ▸ hpast n hn
  | failed _ hcause => exact absurd hcause (not_open_fails (hm.ids.resolve_left id))
  | stopped hop => simp [quietly] at hop
  | absent hop _ => simp [quietly] at hop
  | called hop _ _ _ => simp [quietly] at hop

/-- **The numbers increase** over every run without I/O errors whose opens find the last
number on disk; and where the next open does not, the first write behind it breaks the
order. -/
theorem numbers_increase {dir : Dir} (hfresh : Fresh dir) {ops : List Op}
    (ha : Along (numbered ov) Keeping (⟨dir, none⟩, []) (ops.map quietly)) :
    (runNumbered ov (⟨dir, none⟩, []) ops).2.Pairwise (· < ·) ∧
      ∀ opts c, (c.record 0).isSome →
        Along (exec ov) (fun s _ => Room s) (runNumbered ov (⟨dir, none⟩, []) ops).1
          ([.openWith opts, .call c].map quietly) →
        ((runNumbered ov (⟨dir, none⟩, []) (ops ++ [.openWith opts, .call c])).2.Pairwise (· < ·) ↔
          HighWaterKept (runNumbered ov (⟨dir, none⟩, []) ops).1.dir
            (runNumbered ov (⟨dir, none⟩, []) ops).2) := by
  have hrun : Numbered (runNumbered ov (⟨dir, none⟩, []) ops) := (Numbered.fresh hfresh).run ha
  constructor
  · obtain ⟨_, _, _, hnum⟩ := hrun
    exact hnum.sorted
  · intro opts c hwrite hroom
    have happend : runNumbered ov (⟨dir, none⟩, []) (ops ++ [.openWith opts, .call c]) =
        runNumbered ov (runNumbered ov (⟨dir, none⟩, []) ops) [.openWith opts, .call c] := by
      simp only [runNumbered, List.map_append, runFrom_append]
    rw [happend]
    exact hrun.reopen_iff opts hwrite hroom

/-- A delete whose tombstone stays in a table, a reopen and another write. -/
def keptOps : List Op :=
  [.openWith .default, .call (.put [97] [1]), .call .flush, .call (.delete [97]), .call .flush,
    .openWith .default, .call (.put [98] [2])]

theorem keptOps_increase :
    (runNumbered .checked (⟨∅, none⟩, []) keptOps).2.Pairwise (· < ·) ∧
      ((runNumbered .checked (⟨∅, none⟩, [])
          (keptOps ++ [.openWith ⟨0⟩, .call (.put [99] [3])])).2.Pairwise (· < ·) ↔
        HighWaterKept (runNumbered .checked (⟨∅, none⟩, []) keptOps).1.dir
          (runNumbered .checked (⟨∅, none⟩, []) keptOps).2) := by
  have h := @numbers_increase .checked ∅ Fresh.empty keptOps (by decide +kernel)
  exact ⟨h.1, h.2 ⟨0⟩ (.put [99] [3]) rfl (by decide +kernel)⟩

/-- A key is put and deleted, each in a table of its own, and compaction drops both records:
the next session counts from 1 again. -/
def droppedOps : List Op :=
  [.openWith .default, .call (.put [97] [1]), .call .flush, .call (.delete [97]), .call .flush,
    .call .compact, .openWith .default, .call (.put [98] [2])]

theorem droppedTombstone_repeats :
    AllOk .checked ⟨∅, none⟩ droppedOps ∧
      (runNumbered .checked (⟨∅, none⟩, []) droppedOps).2 = [1, 2, 1] ∧
      ¬ (runNumbered .checked (⟨∅, none⟩, []) droppedOps).2.Pairwise (· < ·) := by
  decide +kernel

end RustFundamentals.Lsmkv
