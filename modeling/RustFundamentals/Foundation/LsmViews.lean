import RustFundamentals.Foundation.LsmTree

/-!
# What a log-structured store shows, move by move

The operations of a store end where one of their moves was cut short. `FlushExit`,
`WriteExit` and `CompactExit` list these ends; the lemmas say, for each list, that the
invariant holds at every end and what became of the two views.

Between the views stand two conditions. `LogShown`: what the log says of a key is what the
running store shows. `NoLeftover`: no table on disk but the open ones (and an orphan).
Where both hold a reopened store shows what the running one shows (`reopened_view`); where
only the second does, the log and the running view determine what it shows
(`stored_view_congr`).
-/

namespace Foundation.Lsm

open Versioned

section Views

variable {ρ κ ν : Type} [Versioned ρ κ ν]

/-- What the log says of a key the running store shows. -/
def LogShown (d : Disk ρ) (p : Proc ρ κ) : Prop :=
  ∀ k r, Newest d.logged k r → view (live d p) k = value r

/-- Every table on disk below the next id is open. -/
def NoLeftover (d : Disk ρ) (p : Proc ρ κ) : Prop :=
  ∀ i, (d.files i).isSome → i < p.next → i ∈ p.ids

/-- `S` binds no key that the log does not know and the running store does not show. -/
def Unrevived (d : Disk ρ) (p : Proc ρ κ) (S : Set ρ) : Prop :=
  ∀ k, (∀ x ∈ d.log, key x ≠ k) → view (live d p) k = none → view S k = none

theorem Disk.Wf.newest_stored {d : Disk ρ} (h : Disk.Wf d) {k : κ} {r : ρ}
    (hr : Newest d.logged k r) : Newest d.stored k r := by
  refine ⟨.inl hr.1, hr.2.1, ?_⟩
  intro x hx hk
  rcases hx with hx | ⟨i, hx⟩
  · exact hr.2.2 x hx hk
  · rcases h.file_log i x hx with hlog | hlt
    · exact hr.2.2 x hlog hk
    · exact (hlt r hr.1).le

/-- The log has the last word on its keys. -/
theorem Disk.Wf.view_logged {d : Disk ρ} (h : Disk.Wf d) {k : κ} {r : ρ}
    (hr : Newest d.logged k r) : view d.stored k = value r :=
  view_of_newest h.coherent (h.newest_stored hr)

/-- On other keys the tables have it. -/
theorem view_not_logged {d : Disk ρ} {k : κ} (hk : ∀ x ∈ d.log, key x ≠ k) :
    view d.stored k = view d.filed k := by
  refine view_congr fun x hx => ⟨?_, .inr⟩
  intro heither
  rcases heither with hlog | hfiled
  · exact absurd hx (hk x hlog)
  · exact hfiled

theorem Wf.newest_logged {d : Disk ρ} {p : Proc ρ κ} (h : Wf d p) {k : κ} {x : ρ}
    (hx : x ∈ d.log) (hk : key x = k) : ∃ r, Newest d.logged k r :=
  exists_newest (fun y hy => h.seq_gt y (.inl hy)) hx hk

/-- Memory has the last word on its keys. -/
theorem Wf.view_mem {d : Disk ρ} {p : Proc ρ κ} (h : Wf d p) {k : κ} {r : ρ}
    (hr : p.mem k = some r) : view (live d p) k = value r := by
  have hk : key r = k := (h.mem_log k r hr).2
  refine view_of_newest h.live_coherent ⟨.inl (by rw [hk, hr]), hk, ?_⟩
  intro x hx hxk
  rcases hx with hx | ⟨i, _, hx⟩
  · rw [hxk, hr] at hx
    exact (Option.some.inj hx ▸ le_rfl)
  · exact h.mem_ge k r i x hr hx hxk

/-- For a key the running store knows, the tables on disk add nothing. -/
theorem Wf.view_live_filed {d : Disk ρ} {p : Proc ρ κ} (h : Wf d p) {k : κ} {x : ρ}
    (hx : x ∈ live d p) (hk : key x = k) :
    view (live d p ∪ d.filed) k = view (live d p) k := by
  have hcoh : Coherent (live d p ∪ d.filed) :=
    h.coherent.mono (Set.union_subset h.live_stored fun y hy => .inr hy)
  refine view_eq_of_dominated hcoh Set.subset_union_left ?_
  intro z hz hzk
  rcases hz with hz | ⟨i, hz⟩
  · exact ⟨z, hz, hzk, le_rfl⟩
  by_cases hi : i ∈ p.ids
  · exact ⟨z, .inr ⟨i, hi, hz⟩, hzk, le_rfl⟩
  rcases Nat.lt_or_eq_of_le (h.file_le i hz.isSome) with hlt | rfl
  · -- a leftover table: memory and the open tables are all younger
    rcases hx with hmem | ⟨j, hj, hx⟩
    · rw [hk] at hmem
      exact ⟨x, .inl (by rw [hk, hmem]), hk, h.mem_ge k x i z hmem hz hzk⟩
    · have hij : i < j := h.leftover i hz.isSome hlt hi j hj
      exact ⟨x, .inr ⟨j, hj, hx⟩, hk, h.file_order i j z x hij hz hx (hzk.trans hk.symm)⟩
  · -- an orphan
    rcases h.orphan z hz with ⟨_, hmem⟩ | htab
    · obtain ⟨m, hm⟩ := Option.isSome_iff_exists.mp hmem
      rw [hzk] at hm
      have hmk : key m = k := (h.mem_log k m hm).2
      exact ⟨m, .inl (by rw [hmk, hm]), hmk, h.mem_ge k m _ z hm hz hzk⟩
    · exact ⟨z, .inr htab, hzk, le_rfl⟩

/-- For a key outside the log that the running store knows, the tables on disk say what it
shows. -/
theorem Wf.view_filed_known {d : Disk ρ} {p : Proc ρ κ} (h : Wf d p) {k : κ}
    (hk : ∀ x ∈ d.log, key x ≠ k) {x : ρ} (hx : x ∈ live d p) (hxk : key x = k) :
    view d.filed k = view (live d p) k := by
  rw [← h.view_live_filed hx hxk]
  refine view_congr fun y hy => ⟨.inr, ?_⟩
  intro heither
  rcases heither with (hmem | ⟨i, _, hy'⟩) | hfiled
  · exact absurd hy (hk y (h.mem_log _ _ hmem).1)
  · exact ⟨i, hy'⟩
  · exact hfiled

/-- Outside the log the two views agree, if no table brings back what the running store hides. -/
theorem Wf.view_unlogged_of_unrevived {d : Disk ρ} {p : Proc ρ κ} (h : Wf d p)
    (hrev : Unrevived d p d.filed) {k : κ} (hk : ∀ x ∈ d.log, key x ≠ k) :
    view d.stored k = view (live d p) k := by
  rw [view_not_logged hk]
  by_cases hknown : ∃ x ∈ live d p, key x = k
  · obtain ⟨x, hx, hxk⟩ := hknown
    exact h.view_filed_known hk hx hxk
  · push Not at hknown
    have hnone : view (live d p) k = none := view_of_absent hknown
    rw [hnone, hrev k hk hnone]

/-- **When a reopened store shows what the running one shows.** -/
theorem Wf.stored_eq_live_iff {d : Disk ρ} {p : Proc ρ κ} (h : Wf d p) :
    view d.stored = view (live d p) ↔ LogShown d p ∧ Unrevived d p d.filed := by
  constructor
  · intro heq
    refine ⟨fun k r hr => ?_, fun k hk hnone => ?_⟩
    · rw [← heq, h.view_logged hr]
    · rw [← view_not_logged hk, heq, hnone]
  · intro hboth
    obtain ⟨hlog, hrev⟩ := hboth
    funext k
    by_cases hk : ∃ x ∈ d.log, key x = k
    · obtain ⟨x, hx, hxk⟩ := hk
      obtain ⟨r, hr⟩ := h.newest_logged hx hxk
      rw [h.view_logged hr, hlog k r hr]
    · push Not at hk
      exact h.view_unlogged_of_unrevived hrev hk

/-- Without leftovers a table record outside the log is an open table's. -/
theorem Wf.filed_tabled {d : Disk ρ} {p : Proc ρ κ} (h : Wf d p) (hn : NoLeftover d p) {x : ρ}
    (hx : x ∈ d.filed) : x ∈ tabled d p ∨ x ∈ d.log := by
  obtain ⟨i, hx⟩ := hx
  rcases Nat.lt_or_eq_of_le (h.file_le i hx.isSome) with hlt | rfl
  · exact .inl ⟨i, hn i hx.isSome hlt, hx⟩
  · rcases h.orphan x hx with ⟨hlog, _⟩ | htab
    · exact .inr hlog
    · exact .inl htab

theorem Wf.unrevived {d : Disk ρ} {p : Proc ρ κ} (h : Wf d p) (hn : NoLeftover d p) :
    Unrevived d p d.filed := by
  intro k hk hnone
  rw [← hnone]
  refine view_congr fun x hx => ?_
  constructor
  · intro hfiled
    rcases h.filed_tabled hn hfiled with htab | hlog
    · exact .inr htab
    · exact absurd hx (hk x hlog)
  · intro heither
    rcases heither with hmem | ⟨i, _, hx'⟩
    · exact absurd hx (hk x (h.mem_log _ _ hmem).1)
    · exact ⟨i, hx'⟩

/-- **A settled store reopens to what it shows.** -/
theorem Wf.reopened_view {d : Disk ρ} {p : Proc ρ κ} (h : Wf d p) (hn : NoLeftover d p)
    (hs : LogShown d p) : view d.stored = view (live d p) :=
  h.stored_eq_live_iff.mpr ⟨hs, h.unrevived hn⟩

/-- Without leftovers, outside the log the two views agree. -/
theorem Wf.view_unlogged {d : Disk ρ} {p : Proc ρ κ} (h : Wf d p) (hn : NoLeftover d p) {k : κ}
    (hk : ∀ x ∈ d.log, key x ≠ k) : view d.stored k = view (live d p) k :=
  h.view_unlogged_of_unrevived (h.unrevived hn) hk

/-- **Without leftovers the log and the running view determine what a reopened store shows.** -/
theorem stored_view_congr {d d' : Disk ρ} {p p' : Proc ρ κ} (h : Wf d p) (h' : Wf d' p')
    (hn : NoLeftover d p) (hn' : NoLeftover d' p') (hlog : d'.log = d.log)
    (hlive : view (live d' p') = view (live d p)) : view d'.stored = view d.stored := by
  funext k
  by_cases hk : ∃ x ∈ d.log, key x = k
  · obtain ⟨x, hx, hxk⟩ := hk
    obtain ⟨r, hr⟩ := h.newest_logged hx hxk
    have hr' : Newest d'.logged k r := by
      unfold Disk.logged at hr ⊢
      rwa [hlog]
    rw [h.view_logged hr, h'.view_logged hr']
  · push Not at hk
    rw [h.view_unlogged hn hk, h'.view_unlogged hn' (by rwa [hlog]), hlive]

/-- With an empty log the two views agree. -/
theorem Wf.view_truncated {d : Disk ρ} {p : Proc ρ κ} (h : Wf d p) (hn : NoLeftover d p)
    (hlog : d.log = []) : view d.stored = view (live d p) :=
  funext fun k => h.view_unlogged hn (by simp [hlog])

/-! ## Recovery -/

theorem Reopened.logShown {d : Disk ρ} {p : Proc ρ κ} (h : Wf d p) (hr : Reopened d p) :
    LogShown d p := fun k r hnew => h.view_mem ((hr.mem k r).mpr hnew)

theorem Reopened.noLeftover {d : Disk ρ} {p : Proc ρ κ} (hr : Reopened d p) : NoLeftover d p :=
  fun i hi _ => (hr.ids_iff i).mpr hi

/-- **A reopened store shows what is stored.** -/
theorem Reopened.view_live {d : Disk ρ} {p : Proc ρ κ} (h : Wf d p) (hr : Reopened d p) :
    view (live d p) = view d.stored :=
  (h.reopened_view hr.noLeftover (hr.logShown h)).symm

/-! ## Flush -/

/-- `rs` is what memory holds. -/
def Memory (p : Proc ρ κ) (rs : List ρ) : Prop := ∀ r, r ∈ rs ↔ p.mem (key r) = some r

/-- Where a flush may end. -/
inductive FlushExit (d : Disk ρ) (p : Proc ρ κ) : Disk ρ → Proc ρ κ → Prop
  | before : FlushExit d p d p
  | installed {rs} (hrs : Memory p rs) : FlushExit d p (d.install p.next rs) p
  | adopted {rs} (hrs : Memory p rs) : FlushExit d p (d.install p.next rs) p.adopt
  | truncated {rs} (hrs : Memory p rs) : FlushExit d p (d.install p.next rs).truncate p.adopt

theorem Memory.installable {d : Disk ρ} {p : Proc ρ κ} (h : Wf d p) {rs : List ρ}
    (hrs : Memory p rs) : Installable d p rs where
  unique := by
    intro x hx y hy hk
    have hmx := (hrs x).mp hx
    have hmy := (hrs y).mp hy
    rw [hk, hmy] at hmx
    exact (Option.some.inj hmx).symm
  source := by
    intro r hr
    have hm := (hrs r).mp hr
    exact .inl ⟨(h.mem_log _ _ hm).1, by rw [hm]; rfl⟩
  supersedes := fun r hr i x _ hx hk => h.mem_ge _ r i x ((hrs r).mp hr) hx hk
  under := by
    intro r hr m hm
    rw [(hrs r).mp hr] at hm
    exact (Option.some.inj hm ▸ le_rfl)

theorem Wf.live_install {d : Disk ρ} {p : Proc ρ κ} (h : Wf d p) (rs : List ρ) :
    live (d.install p.next rs) p = live d p := by
  unfold live
  rw [h.tabled_install]

/-- The flushed table shows what memory showed. -/
theorem Wf.live_adopt {d : Disk ρ} {p : Proc ρ κ} (h : Wf d p) {rs : List ρ}
    (hrs : Memory p rs) : live (d.install p.next rs) p.adopt = live d p := by
  rw [← h.live_install rs]
  ext x
  constructor
  · intro heither
    rcases heither with hx | ⟨i, hi, hx⟩
    · simp [Proc.adopt] at hx
    · rcases List.mem_cons.mp hi with rfl | hi
      · exact .inl ((hrs x).mp ((d.install_holds_self _ _ _).mp hx))
      · exact .inr ⟨i, hi, hx⟩
  · intro heither
    rcases heither with hx | ⟨i, hi, hx⟩
    · exact .inr ⟨p.next, by simp [Proc.adopt], (d.install_holds_self _ _ _).mpr ((hrs x).mpr hx)⟩
    · exact .inr ⟨i, List.mem_cons_of_mem _ hi, hx⟩

theorem Wf.adopt_file_next {d : Disk ρ} {p : Proc ρ κ} (h : Wf d p) (rs : List ρ) :
    (d.install p.next rs).files p.adopt.next = none := by
  have hne : p.next + 1 ≠ p.next := by omega
  show (d.install p.next rs).files (p.next + 1) = none
  rw [d.install_files_ne hne]
  by_contra hsome
  have := h.file_le (p.next + 1) (Option.isSome_iff_ne_none.mpr hsome)
  omega

/-- The invariant holds wherever a flush ends. -/
theorem FlushExit.wf {d d' : Disk ρ} {p p' : Proc ρ κ} (h : Wf d p) (he : FlushExit d p d' p') :
    Wf d' p' := by
  cases he with
  | before => exact h
  | installed hrs => exact h.install (hrs.installable h)
  | adopted hrs =>
    exact (h.install (hrs.installable h)).adopt (by rw [Disk.install_files_self]; rfl)
  | truncated hrs =>
    exact ((h.install (hrs.installable h)).adopt (by rw [Disk.install_files_self]; rfl)).truncate
      (fun _ => rfl) (h.adopt_file_next _)

/-- A flush writes no table beyond the next id. -/
theorem FlushExit.file_le {d d' : Disk ρ} {p p' : Proc ρ κ} (h : Wf d p)
    (he : FlushExit d p d' p') {i : Nat} (hi : (d'.files i).isSome) : i ≤ p.next := by
  cases he with
  | before => exact h.file_le i hi
  | installed hrs => exact (h.install (hrs.installable h)).file_le i hi
  | adopted hrs => exact (h.install (hrs.installable h)).file_le i hi
  | truncated hrs => exact (h.install (hrs.installable h)).file_le i hi

/-- A flush stores no new record. -/
theorem FlushExit.stored_subset {d d' : Disk ρ} {p p' : Proc ρ κ} (h : Wf d p)
    (he : FlushExit d p d' p') : d'.stored ⊆ d.stored := by
  cases he with
  | before => exact subset_rfl
  | installed hrs => exact (h.stored_install (hrs.installable h)).subset
  | adopted hrs => exact (h.stored_install (hrs.installable h)).subset
  | truncated hrs =>
    rw [← h.stored_install (hrs.installable h)]
    intro x hx
    rcases hx with hx | hx
    · simp at hx
    · exact .inr hx

/-- **A flush, however it ends, changes nothing the running store shows.** -/
theorem FlushExit.live_eq {d d' : Disk ρ} {p p' : Proc ρ κ} (h : Wf d p)
    (he : FlushExit d p d' p') : live d' p' = live d p := by
  cases he with
  | before => rfl
  | installed _ => exact h.live_install _
  | adopted hrs => exact h.live_adopt hrs
  | truncated hrs => exact h.live_adopt hrs

theorem NoLeftover.install {d : Disk ρ} {p : Proc ρ κ} (hn : NoLeftover d p) (rs : List ρ) :
    NoLeftover (d.install p.next rs) p := by
  intro i hi hlt
  rw [d.install_files_ne hlt.ne] at hi
  exact hn i hi hlt

theorem NoLeftover.adopt {d : Disk ρ} {p : Proc ρ κ} (hn : NoLeftover d p) :
    NoLeftover d p.adopt := by
  intro i hi hlt
  rcases Nat.lt_or_eq_of_le (Nat.le_of_lt_succ hlt) with hlt | rfl
  · exact List.mem_cons_of_mem _ (hn i hi hlt)
  · exact List.mem_cons_self

theorem FlushExit.noLeftover {d d' : Disk ρ} {p p' : Proc ρ κ} (hn : NoLeftover d p)
    (he : FlushExit d p d' p') : NoLeftover d' p' := by
  cases he with
  | before => exact hn
  | installed _ => exact hn.install _
  | adopted _ => exact (hn.install _).adopt
  | truncated _ => exact (hn.install _).adopt

/-- The log is as it was, or empty. -/
theorem FlushExit.log_eq {d d' : Disk ρ} {p p' : Proc ρ κ} (he : FlushExit d p d' p') :
    d'.log = d.log ∨ d'.log = [] := by
  cases he with
  | before => exact .inl rfl
  | installed _ => exact .inl rfl
  | adopted _ => exact .inl rfl
  | truncated _ => exact .inr rfl

theorem FlushExit.logShown {d d' : Disk ρ} {p p' : Proc ρ κ} (h : Wf d p)
    (he : FlushExit d p d' p') (hs : LogShown d p) : LogShown d' p' := by
  intro k r hr
  rw [he.live_eq h]
  rcases he.log_eq with hlog | hlog
  · refine hs k r ?_
    unfold Disk.logged at hr ⊢
    rwa [hlog] at hr
  · have := hr.1
    simp [Disk.logged, hlog] at this

/-- A flush hands out no number. -/
theorem FlushExit.seq_eq {d d' : Disk ρ} {p p' : Proc ρ κ} (he : FlushExit d p d' p') :
    p'.seq = p.seq := by
  cases he <;> rfl

/-- What a flush does to the stored view: nothing, or it makes it the running one. -/
theorem FlushExit.stored_view {d d' : Disk ρ} {p p' : Proc ρ κ} (h : Wf d p)
    (hn : NoLeftover d p) (he : FlushExit d p d' p') :
    view d'.stored = view d.stored ∨ view d'.stored = view (live d p) := by
  rcases he.log_eq with hlog | hlog
  · exact .inl (stored_view_congr h (he.wf h) hn (he.noLeftover hn) hlog (by rw [he.live_eq h]))
  · exact .inr (by rw [(he.wf h).view_truncated (he.noLeftover hn) hlog, he.live_eq h])

/-! ## Compaction -/

/-- `rs` is the merge of the open tables: for each key its newest record, unless that is a
deletion. -/
def Merged (d : Disk ρ) (p : Proc ρ κ) (rs : List ρ) : Prop :=
  ∀ r, r ∈ rs ↔ Newest (tabled d p) (key r) r ∧ value r ≠ none

/-- Where a compaction may end, with the number of old tables it has removed. -/
inductive CompactExit (d : Disk ρ) (p : Proc ρ κ) : Nat → Disk ρ → Proc ρ κ → Prop
  | before : CompactExit d p 0 d p
  | installed {rs} (hrs : Merged d p rs) : CompactExit d p 0 (d.install p.next rs) p
  | swapped {rs} (hrs : Merged d p rs) (j : Nat) :
      CompactExit d p j ((d.install p.next rs).removeAll (p.ids.take j)) p.swap

theorem Merged.installable {d : Disk ρ} {p : Proc ρ κ} (h : Wf d p) {rs : List ρ}
    (hrs : Merged d p rs) : Installable d p rs where
  unique := by
    intro x hx y hy hk
    have hnx := ((hrs x).mp hx).1
    have hny := ((hrs y).mp hy).1
    rw [hk] at hnx
    exact hnx.unique (h.coherent.mono tabled_stored) hny
  source := fun r hr => .inr ((hrs r).mp hr).1.1
  supersedes := by
    intro r hr i x hi hx hk
    obtain ⟨hmem, _, hmax⟩ := ((hrs r).mp hr).1
    by_cases hi' : i ∈ p.ids
    · exact hmax x ⟨i, hi', hx⟩ hk
    · obtain ⟨j, hj, hrj⟩ := hmem
      exact h.file_order i j x r (h.leftover i hx.isSome hi hi' j hj) hx hrj hk
  under := by
    intro r hr m hm
    obtain ⟨j, _, hrj⟩ := ((hrs r).mp hr).1.1
    exact h.mem_ge _ m j r hm hrj rfl

theorem tabled_swap {d : Disk ρ} {p : Proc ρ κ} {rs : List ρ} {j : Nat}
    (hj : ∀ i ∈ p.ids.take j, i ≠ p.next) :
    tabled ((d.install p.next rs).removeAll (p.ids.take j)) p.swap = {r | r ∈ rs} := by
  ext x
  constructor
  · intro hfound
    obtain ⟨i, hi, hx⟩ := hfound
    rw [List.mem_singleton.mp hi, Disk.removeAll_holds, Disk.install_holds_self] at hx
    exact hx.2
  · intro hx
    refine ⟨p.next, List.mem_singleton_self _, ?_⟩
    rw [Disk.removeAll_holds, Disk.install_holds_self]
    exact ⟨fun hmem => hj _ hmem rfl, hx⟩

theorem Wf.take_ne_next {d : Disk ρ} {p : Proc ρ κ} (h : Wf d p) (j : Nat) :
    ∀ i ∈ p.ids.take j, i ≠ p.next :=
  fun i hi => (h.ids_lt i (List.mem_of_mem_take hi)).ne

/-- The invariant holds wherever a compaction ends. -/
theorem CompactExit.wf {d d' : Disk ρ} {p p' : Proc ρ κ} {j : Nat} (h : Wf d p)
    (he : CompactExit d p j d' p') : Wf d' p' := by
  cases he with
  | before => exact h
  | installed hrs => exact h.install (hrs.installable h)
  | swapped hrs =>
    refine ((h.install (hrs.installable h)).swap
      (by rw [Disk.install_files_self]; rfl)).removeAll ?_
    intro i hi hmem
    exact h.take_ne_next j i hi (List.mem_singleton.mp hmem)

/-- A compaction writes no table beyond the next id. -/
theorem CompactExit.file_le {d d' : Disk ρ} {p p' : Proc ρ κ} {j : Nat} (h : Wf d p)
    (he : CompactExit d p j d' p') {i : Nat} (hi : (d'.files i).isSome) : i ≤ p.next := by
  cases he with
  | before => exact h.file_le i hi
  | installed hrs => exact (h.install (hrs.installable h)).file_le i hi
  | swapped hrs =>
    rw [Disk.removeAll_files] at hi
    split at hi
    · simp at hi
    · exact (h.install (hrs.installable h)).file_le i hi

/-- A compaction stores no new record. -/
theorem CompactExit.stored_subset {d d' : Disk ρ} {p p' : Proc ρ κ} {j : Nat} (h : Wf d p)
    (he : CompactExit d p j d' p') : d'.stored ⊆ d.stored := by
  cases he with
  | before => exact subset_rfl
  | installed hrs => exact (h.stored_install (hrs.installable h)).subset
  | swapped hrs =>
    rw [← h.stored_install (hrs.installable h)]
    intro x hx
    rcases hx with hx | ⟨i, hx⟩
    · exact .inl hx
    · exact .inr ⟨i, ((Disk.removeAll_holds _ _ _ _).mp hx).2⟩

/-- **The merge shows what its inputs showed.** -/
theorem CompactExit.live_view {d d' : Disk ρ} {p p' : Proc ρ κ} {j : Nat} (h : Wf d p)
    (he : CompactExit d p j d' p') : view (live d' p') = view (live d p) := by
  have h' := he.wf h
  cases he with
  | before => rfl
  | installed _ => rw [h.live_install]
  | @swapped rs hrs =>
    funext k
    have hmem : p.swap.mem k = p.mem k := rfl
    cases hm : p.mem k with
    | some m => rw [h.view_mem hm, h'.view_mem (hmem.trans hm)]
    | none =>
      -- only the tables know `k`
      have hlive : view (live d p) k = view (tabled d p) k := by
        refine view_congr fun x hx => ⟨?_, .inr⟩
        intro heither
        rcases heither with hxm | hxt
        · rw [hx, hm] at hxm
          exact absurd hxm (by simp)
        · exact hxt
      have hlive' : view (live ((d.install p.next rs).removeAll (p.ids.take j)) p.swap) k =
          view {r | r ∈ rs} k := by
        rw [← tabled_swap (h.take_ne_next j)]
        refine view_congr fun x hx => ⟨?_, .inr⟩
        intro heither
        rcases heither with hxm | hxt
        · rw [hx, hmem, hm] at hxm
          exact absurd hxm (by simp)
        · exact hxt
      rw [hlive, hlive']
      have hcoh : Coherent (tabled d p) := h.coherent.mono tabled_stored
      have hsub : {r | r ∈ rs} ⊆ tabled d p := fun r hr => ((hrs r).mp hr).1.1
      by_cases hknown : ∃ x ∈ tabled d p, key x = k
      · obtain ⟨x, hx, hxk⟩ := hknown
        obtain ⟨r, hr⟩ := exists_newest (fun y hy => h.seq_gt y (tabled_stored hy)) hx hxk
        rw [view_of_newest hcoh hr]
        by_cases hv : value r = none
        · rw [hv]
          refine view_of_absent fun y hy hyk => ?_
          have hny := (hrs y).mp hy
          rw [hyk] at hny
          rw [hny.1.unique hcoh hr] at hny
          exact hny.2 hv
        · have hrmem : r ∈ rs := (hrs r).mpr ⟨by rw [hr.2.1]; exact hr, hv⟩
          exact view_of_newest (hcoh.mono hsub) ⟨hrmem, hr.2.1, fun y hy => hr.2.2 y (hsub hy)⟩
      · push Not at hknown
        rw [view_of_absent hknown, view_of_absent fun y hy => hknown y (hsub hy)]

/-- Below the next id a compaction removes the first `j` open tables and nothing else. -/
theorem CompactExit.files_iff {d d' : Disk ρ} {p p' : Proc ρ κ} {j : Nat}
    (he : CompactExit d p j d' p') {i : Nat} (hi : i < p.next) :
    (d'.files i).isSome ↔ (d.files i).isSome ∧ i ∉ p.ids.take j := by
  cases he with
  | before => simp
  | installed hrs => simp [d.install_files_ne hi.ne]
  | swapped hrs =>
    rw [Disk.removeAll_files, d.install_files_ne hi.ne]
    by_cases hmem : i ∈ p.ids.take j <;> simp [hmem]

theorem CompactExit.log_eq {d d' : Disk ρ} {p p' : Proc ρ κ} {j : Nat}
    (he : CompactExit d p j d' p') : d'.log = d.log := by
  cases he <;> rfl

/-- A compaction hands out no number. -/
theorem CompactExit.seq_eq {d d' : Disk ρ} {p p' : Proc ρ κ} {j : Nat}
    (he : CompactExit d p j d' p') : p'.seq = p.seq := by
  cases he <;> rfl

theorem CompactExit.logShown_iff {d d' : Disk ρ} {p p' : Proc ρ κ} {j : Nat} (h : Wf d p)
    (he : CompactExit d p j d' p') : LogShown d' p' ↔ LogShown d p := by
  unfold LogShown Disk.logged
  rw [he.log_eq, he.live_view h]

/-- A compaction that left the open tables open left the whole process as it was. -/
theorem CompactExit.eq_of_ids {d d' : Disk ρ} {p p' : Proc ρ κ} {j : Nat} (h : Wf d p)
    (he : CompactExit d p j d' p') (hids : p'.ids = p.ids) : p' = p := by
  cases he with
  | before => rfl
  | installed _ => rfl
  | swapped _ =>
    have hmem : p.next ∈ p.ids := hids ▸ List.mem_singleton_self p.next
    exact absurd (h.ids_lt p.next hmem) (lt_irrefl _)

/-- Leftovers remain only of tables that were not all removed. -/
theorem CompactExit.noLeftover {d d' : Disk ρ} {p p' : Proc ρ κ} {j : Nat}
    (hn : NoLeftover d p) (he : CompactExit d p j d' p')
    (hj : p'.ids = p.ids ∨ p.ids.length ≤ j) : NoLeftover d' p' := by
  cases he with
  | before => exact hn
  | installed _ => exact hn.install _
  | swapped hrs =>
    intro i hi hlt
    rw [Disk.removeAll_files] at hi
    split at hi
    · simp at hi
    · rename_i hni
      rcases Nat.lt_or_eq_of_le (Nat.le_of_lt_succ hlt) with hlt | rfl
      · rw [Disk.install_files_ne _ hlt.ne] at hi
        have hmem := hn i hi hlt
        rcases hj with hids | hj
        · exact hids ▸ hmem
        · rw [List.take_of_length_le hj] at hni
          exact absurd hmem hni
      · exact List.mem_singleton_self _

/-- The records of the tables that stay on disk when the first `j` open ones are removed. -/
def survivors (d : Disk ρ) (p : Proc ρ κ) (j : Nat) : Set ρ :=
  {x | ∃ i, i < p.next ∧ i ∉ p.ids.take j ∧ d.Holds i x}

/-- On a key outside the log that is not shown, a compaction leaves the surviving tables and
nothing else. -/
theorem CompactExit.filed_iff {d d' : Disk ρ} {p p' : Proc ρ κ} {j : Nat} (h : Wf d p)
    (he : CompactExit d p j d' p') {k : κ} (hk : ∀ x ∈ d.log, key x ≠ k)
    (hnone : view (live d p) k = none) {x : ρ} (hx : key x = k) :
    x ∈ d'.filed ↔ x ∈ survivors d p j := by
  -- a table record outside the log that sits at `p.next` is also in an open table
  have hopen : ∀ y, y ∈ tabled d p → y ∈ survivors d p 0 := by
    intro y hy
    obtain ⟨i, hi, hy⟩ := hy
    exact ⟨i, h.ids_lt i hi, by simp, hy⟩
  have hback : ∀ {rs}, x ∈ survivors d p 0 → x ∈ (d.install p.next rs).filed := by
    intro rs hrs
    obtain ⟨i, hi, _, hx'⟩ := hrs
    exact ⟨i, (d.install_holds_ne hi.ne rs x).mpr hx'⟩
  cases he with
  | before =>
    constructor
    · intro hfound
      obtain ⟨i, hx'⟩ := hfound
      rcases Nat.lt_or_eq_of_le (h.file_le i hx'.isSome) with hlt | rfl
      · exact ⟨i, hlt, by simp, hx'⟩
      · rcases h.orphan x hx' with ⟨hlog, _⟩ | htab
        · exact absurd hx (hk x hlog)
        · exact hopen x htab
    · intro hfound
      obtain ⟨i, _, _, hx'⟩ := hfound
      exact ⟨i, hx'⟩
  | installed hrs =>
    constructor
    · intro hfound
      obtain ⟨i, hx'⟩ := hfound
      by_cases hi : i = p.next
      · subst hi
        exact hopen x ((hrs x).mp ((d.install_holds_self _ _ _).mp hx')).1.1
      · rw [d.install_holds_ne hi] at hx'
        have := h.file_le i hx'.isSome
        exact ⟨i, by omega, by simp, hx'⟩
    · exact hback
  | @swapped rs hrs =>
    constructor
    · intro hfound
      obtain ⟨i, hx'⟩ := hfound
      obtain ⟨hni, hx'⟩ := (Disk.removeAll_holds _ _ _ _).mp hx'
      by_cases hi : i = p.next
      · -- the merge has no record of a key that is not shown
        subst hi
        obtain ⟨hnew, hv⟩ := (hrs x).mp ((d.install_holds_self _ _ _).mp hx')
        rw [hx] at hnew
        have hlive : Newest (live d p) k x := by
          refine ⟨.inr hnew.1, hx, ?_⟩
          intro y hy hyk
          rcases hy with hy | hy
          · exact absurd hyk (hk y (h.mem_log _ _ hy).1)
          · exact hnew.2.2 y hy hyk
        rw [view_of_newest h.live_coherent hlive] at hnone
        exact absurd hnone hv
      · rw [d.install_holds_ne hi] at hx'
        have := h.file_le i hx'.isSome
        exact ⟨i, by omega, hni, hx'⟩
    · intro hfound
      obtain ⟨i, hi, hni, hx'⟩ := hfound
      exact ⟨i, (Disk.removeAll_holds _ _ _ _).mpr
        ⟨hni, (d.install_holds_ne hi.ne rs x).mpr hx'⟩⟩

/-- **When a compaction that ended anywhere reopens to what the store showed**: the log is
shown, and the tables that stay bind no key that the log does not know and the store did not
show. -/
theorem CompactExit.reopen_iff {d d' : Disk ρ} {p p' : Proc ρ κ} {j : Nat} (h : Wf d p)
    (he : CompactExit d p j d' p') :
    view d'.stored = view (live d p) ↔ LogShown d p ∧ Unrevived d p (survivors d p j) := by
  rw [← he.live_view h, (he.wf h).stored_eq_live_iff, he.logShown_iff h]
  refine and_congr_right fun _ => ?_
  unfold Unrevived
  rw [he.log_eq, he.live_view h]
  refine forall_congr' fun k => forall_congr' fun hk => forall_congr' fun hnone => ?_
  rw [view_congr fun x hx => he.filed_iff h hk hnone hx]

/-! ## Leftovers that do no harm -/

/-- No table below the next id brings back a key that memory does not know and the running
store does not show. -/
def Buried (d : Disk ρ) (p : Proc ρ κ) : Prop :=
  ∀ k, p.mem k = none → view (live d p) k = none → view (survivors d p 0) k = none

theorem NoLeftover.buried {d : Disk ρ} {p : Proc ρ κ} (h : Wf d p) (hn : NoLeftover d p) :
    Buried d p := by
  intro k hmem hnone
  rw [← hnone]
  refine view_congr fun x hx => ?_
  constructor
  · intro hfound
    obtain ⟨i, hlt, _, hx'⟩ := hfound
    exact .inr ⟨i, hn i hx'.isSome hlt, hx'⟩
  · intro heither
    rcases heither with hxm | ⟨i, hi, hx'⟩
    · rw [hx, hmem] at hxm
      exact absurd hxm (by simp)
    · exact ⟨i, h.ids_lt i hi, by simp, hx'⟩

/-- With no open table removed, a compaction reopens to what the store showed. -/
theorem CompactExit.reopened_view {d d' : Disk ρ} {p p' : Proc ρ κ} {j : Nat} (h : Wf d p)
    (hs : LogShown d p) (hb : Buried d p) (he : CompactExit d p j d' p')
    (hj : p.ids.take j = []) : view d'.stored = view (live d p) := by
  refine (he.reopen_iff h).mpr ⟨hs, ?_⟩
  have hsame : survivors d p j = survivors d p 0 := by
    unfold survivors
    rw [hj, List.take_zero]
  intro k hk hnone
  rw [hsame]
  -- memory knows no key that the log does not
  refine hb k (Option.eq_none_iff_forall_ne_some.mpr fun m hm => ?_) hnone
  obtain ⟨hlog, hmk⟩ := h.mem_log k m hm
  exact hk m hlog hmk

/-- **A store with its log shown and nothing to come back reopens to what it shows.** -/
theorem Wf.reopened_view_of_buried {d : Disk ρ} {p : Proc ρ κ} (h : Wf d p)
    (hs : LogShown d p) (hb : Buried d p) : view d.stored = view (live d p) :=
  CompactExit.before.reopened_view h hs hb List.take_zero

theorem survivors_install (d : Disk ρ) (p : Proc ρ κ) (rs : List ρ) :
    survivors (d.install p.next rs) p 0 = survivors d p 0 := by
  ext x
  refine exists_congr fun i => and_congr_right fun hlt => and_congr_right fun _ => ?_
  exact d.install_holds_ne hlt.ne rs x

theorem Buried.install {d : Disk ρ} {p : Proc ρ κ} (h : Wf d p) (hb : Buried d p)
    (rs : List ρ) : Buried (d.install p.next rs) p := by
  intro k hmem hnone
  rw [h.live_install] at hnone
  rw [survivors_install]
  exact hb k hmem hnone

/-- Below the new next id an adopted table has joined the others. -/
theorem mem_survivors_adopt {d : Disk ρ} {p : Proc ρ κ} {rs : List ρ} {x : ρ} :
    x ∈ survivors (d.install p.next rs) p.adopt 0 ↔ x ∈ rs ∨ x ∈ survivors d p 0 := by
  constructor
  · intro hfound
    obtain ⟨i, hlt, _, hx⟩ := hfound
    rcases Nat.lt_or_eq_of_le (Nat.le_of_lt_succ hlt) with hlt | rfl
    · exact .inr ⟨i, hlt, by simp, (d.install_holds_ne hlt.ne rs x).mp hx⟩
    · exact .inl ((d.install_holds_self _ _ _).mp hx)
  · intro heither
    rcases heither with hx | ⟨i, hlt, _, hx⟩
    · exact ⟨p.next, Nat.lt_succ_self _, by simp, (d.install_holds_self _ _ _).mpr hx⟩
    · exact ⟨i, Nat.lt_succ_of_lt hlt, by simp, (d.install_holds_ne hlt.ne rs x).mpr hx⟩

/-- What memory knew is in the adopted table, on top of everything older. -/
theorem Buried.adopt {d : Disk ρ} {p : Proc ρ κ} (h : Wf d p) (hb : Buried d p) {rs : List ρ}
    (hrs : Memory p rs) : Buried (d.install p.next rs) p.adopt := by
  intro k _ hnone
  rw [h.live_adopt hrs] at hnone
  cases hm : p.mem k with
  | some m =>
    have hmk : key m = k := (h.mem_log k m hm).2
    have hmrs : m ∈ rs := (hrs m).mpr (by rw [hmk, hm])
    have hnew : Newest (survivors (d.install p.next rs) p.adopt 0) k m := by
      refine ⟨mem_survivors_adopt.mpr (.inl hmrs), hmk, ?_⟩
      intro x hx hxk
      rcases mem_survivors_adopt.mp hx with hx | ⟨i, _, _, hx⟩
      · have hxm := (hrs x).mp hx
        rw [hxk, hm] at hxm
        exact (Option.some.inj hxm ▸ le_rfl)
      · exact h.mem_ge k m i x hm hx hxk
    have hcoh : Coherent (survivors (d.install p.next rs) p.adopt 0) := by
      refine (h.install (hrs.installable h)).coherent.mono ?_
      intro x hx
      obtain ⟨i, _, _, hx⟩ := hx
      exact hx.stored
    rw [view_of_newest hcoh hnew, ← h.view_mem hm, hnone]
  | none =>
    rw [← hb k hm hnone]
    refine view_congr fun x hx => ?_
    rw [mem_survivors_adopt]
    refine or_iff_right fun hxrs => ?_
    have hxm := (hrs x).mp hxrs
    rw [hx, hm] at hxm
    exact absurd hxm (by simp)

/-- A flush, however it ends, keeps what is buried so. -/
theorem FlushExit.buried {d d' : Disk ρ} {p p' : Proc ρ κ} (h : Wf d p)
    (he : FlushExit d p d' p') (hb : Buried d p) : Buried d' p' := by
  cases he with
  | before => exact hb
  | installed hrs => exact hb.install h _
  | adopted hrs => exact hb.adopt h hrs
  | truncated hrs => exact hb.adopt h hrs

/-- So does a compaction that left the open tables open. -/
theorem CompactExit.buried {d d' : Disk ρ} {p p' : Proc ρ κ} {j : Nat} (h : Wf d p)
    (he : CompactExit d p j d' p') (hids : p'.ids = p.ids) (hb : Buried d p) : Buried d' p' := by
  have hsame : p' = p := he.eq_of_ids h hids
  cases he with
  | before => exact hb
  | installed _ => exact hb.install h _
  | swapped _ =>
    have hnext := congrArg Proc.next hsame
    exact absurd hnext (Nat.succ_ne_self p.next)

/-! ## Writes -/

variable [DecidableEq κ]

/-- Where a write of `r` may end: before it was logged, after, or in the flush that follows
its application. -/
inductive WriteExit (d : Disk ρ) (p : Proc ρ κ) (r : ρ) : Disk ρ → Proc ρ κ → Prop
  | refused : WriteExit d p r d p
  | unlogged : WriteExit d p r d p.bump
  | logged : WriteExit d p r (d.append r) p.bump
  | applied {d' p'} (he : FlushExit (d.append r) (p.bump.insert r) d' p') : WriteExit d p r d' p'

theorem Wf.applied {d : Disk ρ} {p : Proc ρ κ} (h : Wf d p) {r : ρ} (hr : seq r = p.seq) :
    Wf (d.append r) (p.bump.insert r) := by
  refine (h.append hr).insert (List.mem_append_right _ (List.mem_singleton_self r)) ?_
  intro x hx
  obtain ⟨i, hx⟩ := hx
  rw [hr]
  exact (h.seq_gt x (Disk.Holds.stored hx)).le

theorem WriteExit.wf {d d' : Disk ρ} {p p' : Proc ρ κ} {r : ρ} (h : Wf d p)
    (hr : seq r = p.seq) (he : WriteExit d p r d' p') : Wf d' p' := by
  cases he with
  | refused => exact h
  | unlogged => exact h.bump
  | logged => exact h.append hr
  | applied he => exact he.wf (h.applied hr)

/-- **Applying a record binds its key** and no other. -/
theorem Wf.view_insert {d : Disk ρ} {p : Proc ρ κ} (h : Wf d p) {r : ρ} (hr : seq r = p.seq) :
    view (live (d.append r) (p.bump.insert r)) =
      Function.update (view (live d p)) (key r) (value r) := by
  have hnew : ∀ x ∈ live d p, seq x < seq r := fun x hx => hr ▸ h.seq_gt x (h.live_stored hx)
  rw [← Foundation.view_insert fun x hx _ => hnew x hx]
  -- the record it replaces in memory is dominated by `r`
  have hcoh : Coherent (Insert.insert r (live d p)) := by
    refine (h.append hr).coherent.mono ?_
    intro x hx
    rcases hx with rfl | hx
    · exact Disk.mem_stored_append.mpr (.inl rfl)
    · exact Disk.mem_stored_append.mpr (.inr (h.live_stored hx))
  have hmem : ∀ k, (p.bump.insert r).mem k = if k = key r then some r else p.mem k := by
    intro k
    simp only [Proc.insert, Proc.bump, Function.update_apply]
  have hr' : r ∈ live (d.append r) (p.bump.insert r) := .inl (by rw [hmem, if_pos rfl])
  funext k
  refine (view_eq_of_dominated hcoh ?_ ?_).symm
  · intro x hx
    rcases hx with hx | hx
    · rw [hmem] at hx
      split at hx
      · exact .inl (Option.some.inj hx).symm
      · exact .inr (.inl hx)
    · exact .inr (.inr hx)
  · intro x hx hxk
    rcases hx with rfl | hx
    · exact ⟨x, hr', hxk, le_rfl⟩
    · by_cases hkr : key x = key r
      · exact ⟨r, hr', hkr ▸ hxk, (hnew x hx).le⟩
      · refine ⟨x, ?_, hxk, le_rfl⟩
        rcases hx with hx | hx
        · exact .inl (by rw [hmem, if_neg hkr, hx])
        · exact .inr hx

/-- Logging a record binds its key for whoever reopens. -/
theorem Wf.view_append {d : Disk ρ} {p : Proc ρ κ} (h : Wf d p) {r : ρ} (hr : seq r = p.seq) :
    view (d.append r).stored = Function.update (view d.stored) (key r) (value r) := by
  have hstored : (d.append r).stored = Insert.insert r d.stored := by
    ext x
    exact Disk.mem_stored_append
  rw [hstored]
  exact Foundation.view_insert fun x hx _ => hr ▸ h.seq_gt x hx

theorem NoLeftover.write {d d' : Disk ρ} {p p' : Proc ρ κ} {r : ρ} (hn : NoLeftover d p)
    (he : WriteExit d p r d' p') : NoLeftover d' p' := by
  cases he with
  | refused => exact hn
  | unlogged => exact hn
  | logged => exact hn
  | applied he => exact he.noLeftover (d := d.append r) (p := p.bump.insert r) hn

/-- A record that was logged and applied is shown. -/
theorem LogShown.applied {d : Disk ρ} {p : Proc ρ κ} (h : Wf d p) {r : ρ} (hr : seq r = p.seq)
    (hs : LogShown d p) : LogShown (d.append r) (p.bump.insert r) := by
  intro k x hx
  rw [h.view_insert hr]
  have hrlog : r ∈ (d.append r).logged := List.mem_append_right _ (List.mem_singleton_self r)
  by_cases hk : k = key r
  · subst hk
    have hxr : x = r := by
      have hle := hx.2.2 r hrlog rfl
      rcases List.mem_append.mp hx.1 with hxl | hxl
      · have := h.seq_gt x (.inl hxl)
        omega
      · exact List.mem_singleton.mp hxl
    rw [Function.update_self, hxr]
  · rw [Function.update_of_ne hk]
    refine hs k x ⟨?_, hx.2.1, fun y hy => hx.2.2 y (List.mem_append_left _ hy)⟩
    rcases List.mem_append.mp hx.1 with hxl | hxl
    · exact hxl
    · rw [List.mem_singleton.mp hxl] at hx
      exact absurd hx.2.1.symm hk

end Views

end Foundation.Lsm
