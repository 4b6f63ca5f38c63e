import Mathlib.Data.List.Pairwise
import RustFundamentals.Foundation.Versions

/-!
# Log-structured stores, abstractly

A durable side (`Disk`: a log of records and numbered immutable tables) and a running side
(`Proc`: a memory table, the tables it reads, and two counters). The operations of such a
store are compositions of a few moves: log a record, apply it, install a table, adopt it,
truncate the log, swap in a merged table, remove an old one, reopen.

`Wf` is what all of them keep. From it come the two views and how they meet: `live` is what
the running store shows, `stored` is what a reopened one will show, and `stored_eq_live_iff`
says exactly when they are the same.
-/

namespace Foundation.Lsm

open Versioned

/-- What survives the process. -/
structure Disk (ρ : Type) where
  log : List ρ
  files : Nat → Option (List ρ)

/-- What does not: the memory table, the ids of the open tables, newest first, the next
sequence number and the next table id. -/
structure Proc (ρ κ : Type) where
  mem : κ → Option ρ
  ids : List Nat
  seq : Nat
  next : Nat

section Store

variable {ρ κ ν : Type}

/-- Table `i` is on disk and holds `r`. -/
def Disk.Holds (d : Disk ρ) (i : Nat) (r : ρ) : Prop := ∃ rs, d.files i = some rs ∧ r ∈ rs

/-- The records in the tables on disk. -/
def Disk.filed (d : Disk ρ) : Set ρ := {r | ∃ i, d.Holds i r}

/-- The records in the log. -/
def Disk.logged (d : Disk ρ) : Set ρ := {r | r ∈ d.log}

/-- Every record on disk. -/
def Disk.stored (d : Disk ρ) : Set ρ := {r | r ∈ d.log ∨ r ∈ d.filed}

theorem Disk.Holds.stored {d : Disk ρ} {i : Nat} {r : ρ} (h : d.Holds i r) : r ∈ d.stored :=
  .inr ⟨i, h⟩

theorem Disk.Holds.isSome {d : Disk ρ} {i : Nat} {r : ρ} (h : d.Holds i r) :
    (d.files i).isSome := by
  obtain ⟨rs, hrs, _⟩ := h
  rw [hrs]
  rfl

/-- The records of the open tables. -/
def tabled (d : Disk ρ) (p : Proc ρ κ) : Set ρ := {r | ∃ i ∈ p.ids, d.Holds i r}

/-! ## Moves -/

namespace Disk

/-- A record goes to the end of the log. -/
def append (d : Disk ρ) (r : ρ) : Disk ρ := { d with log := d.log ++ [r] }

/-- The log is emptied. -/
def truncate (d : Disk ρ) : Disk ρ := { d with log := [] }

/-- Table `i` is written. -/
def install (d : Disk ρ) (i : Nat) (rs : List ρ) : Disk ρ :=
  { d with files := Function.update d.files i (some rs) }

/-- Tables are removed. -/
def removeAll (d : Disk ρ) (ids : List Nat) : Disk ρ :=
  { d with files := fun i => if i ∈ ids then none else d.files i }

@[simp] theorem append_files (d : Disk ρ) (r : ρ) : (d.append r).files = d.files := rfl
@[simp] theorem append_log (d : Disk ρ) (r : ρ) : (d.append r).log = d.log ++ [r] := rfl
@[simp] theorem truncate_files (d : Disk ρ) : d.truncate.files = d.files := rfl
@[simp] theorem truncate_log (d : Disk ρ) : d.truncate.log = [] := rfl
@[simp] theorem install_log (d : Disk ρ) (i : Nat) (rs : List ρ) :
    (d.install i rs).log = d.log := rfl
@[simp] theorem removeAll_log (d : Disk ρ) (ids : List Nat) : (d.removeAll ids).log = d.log := rfl

@[simp] theorem removeAll_nil (d : Disk ρ) : d.removeAll [] = d := by
  simp [removeAll]

theorem removeAll_append (d : Disk ρ) (is js : List Nat) :
    (d.removeAll is).removeAll js = d.removeAll (is ++ js) := by
  unfold removeAll
  congr 1
  funext i
  by_cases hi : i ∈ is <;> by_cases hj : i ∈ js <;> simp [hi, hj]

@[simp] theorem append_holds (d : Disk ρ) (r x : ρ) (i : Nat) :
    (d.append r).Holds i x ↔ d.Holds i x := Iff.rfl

@[simp] theorem truncate_holds (d : Disk ρ) (x : ρ) (i : Nat) :
    d.truncate.Holds i x ↔ d.Holds i x := Iff.rfl

theorem install_files_self (d : Disk ρ) (i : Nat) (rs : List ρ) :
    (d.install i rs).files i = some rs := by
  simp [install]

theorem install_files_ne (d : Disk ρ) {i j : Nat} (h : j ≠ i) (rs : List ρ) :
    (d.install i rs).files j = d.files j := by
  simp [install, Function.update_of_ne h]

theorem install_holds_self (d : Disk ρ) (i : Nat) (rs : List ρ) (x : ρ) :
    (d.install i rs).Holds i x ↔ x ∈ rs := by
  simp [Holds, install_files_self]

theorem install_holds_ne (d : Disk ρ) {i j : Nat} (h : j ≠ i) (rs : List ρ) (x : ρ) :
    (d.install i rs).Holds j x ↔ d.Holds j x := by
  simp [Holds, install_files_ne d h]

theorem removeAll_files (d : Disk ρ) (ids : List Nat) (i : Nat) :
    (d.removeAll ids).files i = if i ∈ ids then none else d.files i := rfl

theorem removeAll_holds (d : Disk ρ) (ids : List Nat) (x : ρ) (i : Nat) :
    (d.removeAll ids).Holds i x ↔ i ∉ ids ∧ d.Holds i x := by
  simp only [Holds, removeAll_files]
  by_cases h : i ∈ ids <;> simp [h]

end Disk

namespace Proc

/-- A sequence number is handed out. -/
def bump (p : Proc ρ κ) : Proc ρ κ := { p with seq := p.seq + 1 }

/-- The flushed table becomes the newest open one, and the memory table starts over. -/
def adopt (p : Proc ρ κ) : Proc ρ κ :=
  { p with mem := fun _ => none, ids := p.next :: p.ids, next := p.next + 1 }

/-- The merged table replaces the open ones. -/
def swap (p : Proc ρ κ) : Proc ρ κ := { p with ids := [p.next], next := p.next + 1 }

end Proc

variable [Versioned ρ κ ν] [DecidableEq κ]

/-- A record is applied to the memory table. -/
def Proc.insert (p : Proc ρ κ) (r : ρ) : Proc ρ κ :=
  { p with mem := Function.update p.mem (key r) (some r) }

/-- The records the running store reads. -/
def live (d : Disk ρ) (p : Proc ρ κ) : Set ρ := {r | p.mem (key r) = some r ∨ r ∈ tabled d p}

/-! ## Invariants -/

/-- What every directory of the store satisfies. -/
structure Disk.Wf (d : Disk ρ) : Prop where
  coherent : Coherent d.stored
  log_sorted : d.log.Pairwise fun x y => seq x < seq y
  file_unique : ∀ i x y, d.Holds i x → d.Holds i y → key x = key y → x = y
  /-- A table record is still in the log, or older than all of it. -/
  file_log : ∀ i x, d.Holds i x → x ∈ d.log ∨ ∀ y ∈ d.log, seq x < seq y
  /-- Younger tables hold younger records. -/
  file_order : ∀ i j x y, i < j → d.Holds i x → d.Holds j y → key x = key y → seq x ≤ seq y

/-- What the running store adds. -/
structure Wf (d : Disk ρ) (p : Proc ρ κ) : Prop extends Disk.Wf d where
  ids_desc : p.ids.Pairwise (· > ·)
  ids_lt : ∀ i ∈ p.ids, i < p.next
  ids_file : ∀ i ∈ p.ids, (d.files i).isSome
  file_le : ∀ i, (d.files i).isSome → i ≤ p.next
  mem_log : ∀ k r, p.mem k = some r → r ∈ d.log ∧ key r = k
  mem_ge : ∀ k r i x, p.mem k = some r → d.Holds i x → key x = k → seq x ≤ seq r
  /-- Tables a compaction left behind are older than all open ones. -/
  leftover : ∀ i, (d.files i).isSome → i < p.next → i ∉ p.ids → ∀ j ∈ p.ids, i < j
  /-- A table that was installed and not adopted repeats what the store has. -/
  orphan : ∀ x, d.Holds p.next x →
    (x ∈ d.log ∧ (p.mem (key x)).isSome) ∨ x ∈ tabled d p
  seq_gt : ∀ x ∈ d.stored, seq x < p.seq

omit [DecidableEq κ] in
theorem tabled_stored {d : Disk ρ} {p : Proc ρ κ} : tabled d p ⊆ d.stored := by
  intro x hx
  obtain ⟨i, _, hx⟩ := hx
  exact hx.stored

omit [DecidableEq κ] in
theorem Wf.live_stored {d : Disk ρ} {p : Proc ρ κ} (h : Wf d p) : live d p ⊆ d.stored := by
  intro x hx
  rcases hx with hx | hx
  · exact .inl (h.mem_log _ _ hx).1
  · exact tabled_stored hx

omit [DecidableEq κ] in
theorem Wf.live_coherent {d : Disk ρ} {p : Proc ρ κ} (h : Wf d p) : Coherent (live d p) :=
  h.coherent.mono h.live_stored

omit [DecidableEq κ] in
/-- Handing out a number without using it. -/
theorem Wf.bump {d : Disk ρ} {p : Proc ρ κ} (h : Wf d p) : Wf d p.bump :=
  { h with seq_gt := fun x hx => Nat.lt_succ_of_lt (h.seq_gt x hx) }

omit [DecidableEq κ] in
theorem Disk.mem_stored_append {d : Disk ρ} {r x : ρ} :
    x ∈ (d.append r).stored ↔ x = r ∨ x ∈ d.stored := by
  simp only [Disk.stored, Disk.filed, Set.mem_ofPred_eq, Disk.append_log, List.mem_append,
    List.mem_singleton, Disk.append_holds]
  tauto

omit [DecidableEq κ] in
/-- Logging a record under the next number. -/
theorem Wf.append {d : Disk ρ} {p : Proc ρ κ} (h : Wf d p) {r : ρ} (hr : seq r = p.seq) :
    Wf (d.append r) p.bump where
  coherent := by
    intro x hx y hy hk hs
    rcases Disk.mem_stored_append.mp hx with hxr | hx' <;>
      rcases Disk.mem_stored_append.mp hy with hyr | hy'
    · rw [hxr, hyr]
    · have := h.seq_gt y hy'
      rw [hxr] at hs
      omega
    · have := h.seq_gt x hx'
      rw [hyr] at hs
      omega
    · exact h.coherent x hx' y hy' hk hs
  log_sorted := by
    rw [Disk.append_log, List.pairwise_append]
    refine ⟨h.log_sorted, List.pairwise_singleton _ _, fun x hx y hy => ?_⟩
    rw [List.mem_singleton.mp hy, hr]
    exact h.seq_gt x (.inl hx)
  file_unique := h.file_unique
  file_log := by
    intro i x hx
    rcases h.file_log i x hx with hlog | hlt
    · exact .inl (List.mem_append_left _ hlog)
    · refine .inr fun y hy => ?_
      rcases List.mem_append.mp hy with hy | hy
      · exact hlt y hy
      · rw [List.mem_singleton.mp hy, hr]
        exact h.seq_gt x (Disk.Holds.stored hx)
  file_order := h.file_order
  ids_desc := h.ids_desc
  ids_lt := h.ids_lt
  ids_file := h.ids_file
  file_le := h.file_le
  mem_log := fun k m hm => ⟨List.mem_append_left _ (h.mem_log k m hm).1, (h.mem_log k m hm).2⟩
  mem_ge := h.mem_ge
  leftover := h.leftover
  orphan := by
    intro x hx
    rcases h.orphan x hx with ⟨hlog, hmem⟩ | htab
    · exact .inl ⟨List.mem_append_left _ hlog, hmem⟩
    · exact .inr htab
  seq_gt := by
    intro x hx
    show seq x < p.seq + 1
    rcases Disk.mem_stored_append.mp hx with rfl | hx
    · omega
    · exact Nat.lt_succ_of_lt (h.seq_gt x hx)

/-- Applying a logged record that is newer than every table's. -/
theorem Wf.insert {d : Disk ρ} {p : Proc ρ κ} (h : Wf d p) {r : ρ} (hr : r ∈ d.log)
    (hnew : ∀ x ∈ d.filed, seq x ≤ seq r) : Wf d (p.insert r) :=
  { h with
    mem_log := by
      intro k m hm
      simp only [Proc.insert] at hm
      by_cases hk : k = key r
      · subst hk
        rw [Function.update_self] at hm
        exact Option.some.inj hm ▸ ⟨hr, rfl⟩
      · rw [Function.update_of_ne hk] at hm
        exact h.mem_log k m hm
    mem_ge := by
      intro k m i x hm hx hxk
      simp only [Proc.insert] at hm
      by_cases hk : k = key r
      · subst hk
        rw [Function.update_self] at hm
        exact Option.some.inj hm ▸ hnew x ⟨i, hx⟩
      · rw [Function.update_of_ne hk] at hm
        exact h.mem_ge k m i x hm hx hxk
    orphan := by
      intro x hx
      rcases h.orphan x hx with ⟨hlog, hmem⟩ | htab
      · refine .inl ⟨hlog, ?_⟩
        simp only [Proc.insert]
        by_cases hk : key x = key r
        · rw [hk, Function.update_self]
          rfl
        · rwa [Function.update_of_ne hk]
      · exact .inr htab }

/-- What may be installed as table `p.next`: records the store has, one for each key, none
older than a table's or newer than memory's. -/
structure Installable (d : Disk ρ) (p : Proc ρ κ) (rs : List ρ) : Prop where
  unique : ∀ x ∈ rs, ∀ y ∈ rs, key x = key y → x = y
  source : ∀ r ∈ rs, (r ∈ d.log ∧ (p.mem (key r)).isSome) ∨ r ∈ tabled d p
  supersedes : ∀ r ∈ rs, ∀ i x, i < p.next → d.Holds i x → key x = key r → seq x ≤ seq r
  under : ∀ r ∈ rs, ∀ m, p.mem (key r) = some m → seq r ≤ seq m

omit [DecidableEq κ] in
theorem Wf.tabled_install {d : Disk ρ} {p : Proc ρ κ} (h : Wf d p) (rs : List ρ) :
    tabled (d.install p.next rs) p = tabled d p := by
  ext x
  constructor
  · intro hfound
    obtain ⟨i, hi, hx⟩ := hfound
    exact ⟨i, hi, (d.install_holds_ne (h.ids_lt i hi).ne rs x).mp hx⟩
  · intro hfound
    obtain ⟨i, hi, hx⟩ := hfound
    exact ⟨i, hi, (d.install_holds_ne (h.ids_lt i hi).ne rs x).mpr hx⟩

omit [DecidableEq κ] in
/-- **Installing a table stores nothing new**, and overwriting an orphan loses nothing. -/
theorem Wf.stored_install {d : Disk ρ} {p : Proc ρ κ} (h : Wf d p) {rs : List ρ}
    (hrs : Installable d p rs) : (d.install p.next rs).stored = d.stored := by
  ext x
  constructor
  · intro heither
    rcases heither with hx | ⟨i, hx⟩
    · exact .inl hx
    · by_cases hi : i = p.next
      · subst hi
        rcases hrs.source x ((d.install_holds_self _ _ _).mp hx) with ⟨hlog, _⟩ | htab
        · exact .inl hlog
        · exact tabled_stored htab
      · exact ((d.install_holds_ne hi _ _).mp hx).stored
  · intro heither
    rcases heither with hx | ⟨i, hx⟩
    · exact .inl hx
    · have htab : x ∈ tabled d p → x ∈ (d.install p.next rs).stored := fun ht =>
        tabled_stored (h.tabled_install rs ▸ ht)
      by_cases hi : i = p.next
      · subst hi
        rcases h.orphan x hx with ⟨hlog, _⟩ | ht
        · exact .inl hlog
        · exact htab ht
      · exact ((d.install_holds_ne hi _ _).mpr hx).stored

omit [DecidableEq κ] in
/-- Installing a table. -/
theorem Wf.install {d : Disk ρ} {p : Proc ρ κ} (h : Wf d p) {rs : List ρ}
    (hrs : Installable d p rs) : Wf (d.install p.next rs) p := by
  have hle : ∀ i, ((d.install p.next rs).files i).isSome → i ≤ p.next := by
    intro i hi
    by_cases hin : i = p.next
    · exact hin.le
    · exact h.file_le i (by rwa [d.install_files_ne hin] at hi)
  refine
    { coherent := by rw [h.stored_install hrs]; exact h.coherent
      log_sorted := h.log_sorted
      file_unique := ?_
      file_log := ?_
      file_order := ?_
      ids_desc := h.ids_desc
      ids_lt := h.ids_lt
      ids_file := fun i hi => by
        rw [d.install_files_ne (h.ids_lt i hi).ne]
        exact h.ids_file i hi
      file_le := hle
      mem_log := h.mem_log
      mem_ge := ?_
      leftover := ?_
      orphan := ?_
      seq_gt := by rw [h.stored_install hrs]; exact h.seq_gt }
  -- the new table against itself, the log, the other tables, the process, and what is lost
  · intro i x y hx hy hk
    by_cases hi : i = p.next
    · subst hi
      rw [d.install_holds_self] at hx hy
      exact hrs.unique x hx y hy hk
    · rw [d.install_holds_ne hi] at hx hy
      exact h.file_unique i x y hx hy hk
  · intro i x hx
    by_cases hi : i = p.next
    · subst hi
      rw [d.install_holds_self] at hx
      rcases hrs.source x hx with ⟨hlog, _⟩ | ⟨j, _, hj⟩
      · exact .inl hlog
      · exact h.file_log j x hj
    · rw [d.install_holds_ne hi] at hx
      exact h.file_log i x hx
  · intro i j x y hij hx hy hk
    have hj : j ≤ p.next := hle j hy.isSome
    rw [d.install_holds_ne (by omega)] at hx
    by_cases hjn : j = p.next
    · subst hjn
      rw [d.install_holds_self] at hy
      exact hrs.supersedes y hy i x hij hx hk
    · rw [d.install_holds_ne hjn] at hy
      exact h.file_order i j x y hij hx hy hk
  · intro k m i x hm hx hxk
    by_cases hi : i = p.next
    · subst hi
      rw [d.install_holds_self] at hx
      exact hrs.under x hx m (by rw [hxk]; exact hm)
    · rw [d.install_holds_ne hi] at hx
      exact h.mem_ge k m i x hm hx hxk
  · intro i hi hlt hni
    rw [d.install_files_ne hlt.ne] at hi
    exact h.leftover i hi hlt hni
  · intro x hx
    rw [d.install_holds_self] at hx
    rw [h.tabled_install]
    exact hrs.source x hx

omit [DecidableEq κ] in
/-- Taking the installed table as the newest open one. -/
theorem Wf.adopt {d : Disk ρ} {p : Proc ρ κ} (h : Wf d p) (hfile : (d.files p.next).isSome) :
    Wf d p.adopt where
  toWf := h.toWf
  ids_desc := List.pairwise_cons.mpr ⟨h.ids_lt, h.ids_desc⟩
  ids_lt := by
    intro i hi
    show i < p.next + 1
    rcases List.mem_cons.mp hi with rfl | hi
    · omega
    · exact Nat.lt_succ_of_lt (h.ids_lt i hi)
  ids_file := by
    intro i hi
    rcases List.mem_cons.mp hi with rfl | hi
    · exact hfile
    · exact h.ids_file i hi
  file_le := fun i hi => Nat.le_succ_of_le (h.file_le i hi)
  mem_log := fun _ _ hm => by simp [Proc.adopt] at hm
  mem_ge := fun _ _ _ _ hm => by simp [Proc.adopt] at hm
  leftover := by
    intro i hi _ hni j hj
    have hni' : i ≠ p.next ∧ i ∉ p.ids := by simpa [Proc.adopt] using hni
    have hlt : i < p.next := lt_of_le_of_ne (h.file_le i hi) hni'.1
    rcases List.mem_cons.mp hj with rfl | hj
    · exact hlt
    · exact h.leftover i hi hlt hni'.2 j hj
  orphan := by
    intro x hx
    have : p.next + 1 ≤ p.next := h.file_le _ hx.isSome
    omega
  seq_gt := h.seq_gt

omit [DecidableEq κ] in
/-- Emptying the log once memory holds nothing of it. -/
theorem Wf.truncate {d : Disk ρ} {p : Proc ρ κ} (h : Wf d p) (hmem : ∀ k, p.mem k = none)
    (hfile : d.files p.next = none) : Wf d.truncate p where
  coherent := h.coherent.mono fun _ hx => hx.elim (fun hx => by simp at hx) .inr
  log_sorted := List.Pairwise.nil
  file_unique := h.file_unique
  file_log := fun _ _ _ => .inr fun _ hy => by simp at hy
  file_order := h.file_order
  ids_desc := h.ids_desc
  ids_lt := h.ids_lt
  ids_file := h.ids_file
  file_le := h.file_le
  mem_log := fun k _ hm => by simp [hmem k] at hm
  mem_ge := fun k _ _ _ hm => by simp [hmem k] at hm
  leftover := h.leftover
  orphan := by
    intro x hx
    have := hx.isSome
    simp [hfile] at this
  seq_gt := fun x hx => h.seq_gt x (hx.elim (fun hx => by simp at hx) .inr)

omit [DecidableEq κ] in
/-- Reading the merged table alone. -/
theorem Wf.swap {d : Disk ρ} {p : Proc ρ κ} (h : Wf d p) (hfile : (d.files p.next).isSome) :
    Wf d p.swap where
  toWf := h.toWf
  ids_desc := List.pairwise_singleton _ _
  ids_lt := by simp [Proc.swap]
  ids_file := by simpa [Proc.swap] using hfile
  file_le := fun i hi => Nat.le_succ_of_le (h.file_le i hi)
  mem_log := h.mem_log
  mem_ge := h.mem_ge
  leftover := by
    intro i hi _ hni j hj
    have hij : i ≠ p.next ∧ j = p.next := by simpa [Proc.swap] using And.intro hni hj
    rw [hij.2]
    exact lt_of_le_of_ne (h.file_le i hi) hij.1
  orphan := by
    intro x hx
    have : p.next + 1 ≤ p.next := h.file_le _ hx.isSome
    omega
  seq_gt := h.seq_gt

omit [DecidableEq κ] in
theorem tabled_removeAll {d : Disk ρ} {p : Proc ρ κ} {is : List Nat}
    (his : ∀ i ∈ is, i ∉ p.ids) : tabled (d.removeAll is) p = tabled d p := by
  ext x
  constructor
  · intro hfound
    obtain ⟨i, hi, hx⟩ := hfound
    exact ⟨i, hi, ((d.removeAll_holds is x i).mp hx).2⟩
  · intro hfound
    obtain ⟨i, hi, hx⟩ := hfound
    exact ⟨i, hi, (d.removeAll_holds is x i).mpr ⟨fun h => his i h hi, hx⟩⟩

omit [DecidableEq κ] in
/-- Removing tables that are not open. -/
theorem Wf.removeAll {d : Disk ρ} {p : Proc ρ κ} (h : Wf d p) {is : List Nat}
    (his : ∀ i ∈ is, i ∉ p.ids) : Wf (d.removeAll is) p := by
  have hfiles : ∀ i, ((d.removeAll is).files i).isSome → (d.files i).isSome := by
    intro i hi
    rw [d.removeAll_files] at hi
    split at hi
    · simp at hi
    · exact hi
  have hholds : ∀ {i x}, (d.removeAll is).Holds i x → d.Holds i x :=
    fun {i x} hx => ((d.removeAll_holds is x i).mp hx).2
  have hstored : (d.removeAll is).stored ⊆ d.stored := by
    intro x hx
    rcases hx with hx | ⟨i, hx⟩
    · exact .inl hx
    · exact (hholds hx).stored
  exact
    { coherent := h.coherent.mono hstored
      log_sorted := h.log_sorted
      file_unique := fun i x y hx hy => h.file_unique i x y (hholds hx) (hholds hy)
      file_log := fun i x hx => h.file_log i x (hholds hx)
      file_order := fun i j x y hij hx hy => h.file_order i j x y hij (hholds hx) (hholds hy)
      ids_desc := h.ids_desc
      ids_lt := h.ids_lt
      ids_file := fun i hi => by
        rw [d.removeAll_files, if_neg fun hmem => his i hmem hi]
        exact h.ids_file i hi
      file_le := fun i hi => h.file_le i (hfiles i hi)
      mem_log := h.mem_log
      mem_ge := fun k r i x hm hx => h.mem_ge k r i x hm (hholds hx)
      leftover := fun i hi => h.leftover i (hfiles i hi)
      orphan := fun x hx => by
        rw [tabled_removeAll his]
        exact h.orphan x (hholds hx)
      seq_gt := fun x hx => h.seq_gt x (hstored hx) }

/-- The running store a recovery builds: memory is the log, every table is open, and the
counters are past everything found. -/
structure Reopened (d : Disk ρ) (p : Proc ρ κ) : Prop where
  mem : ∀ k r, p.mem k = some r ↔ Newest d.logged k r
  ids_desc : p.ids.Pairwise (· > ·)
  ids_iff : ∀ i, i ∈ p.ids ↔ (d.files i).isSome
  ids_lt : ∀ i ∈ p.ids, i < p.next
  seq_gt : ∀ x ∈ d.stored, seq x < p.seq

omit [DecidableEq κ] in
/-- Recovery restores the invariant from the disk alone. -/
theorem Disk.Wf.reopen {d : Disk ρ} {p : Proc ρ κ} (h : Disk.Wf d) (hr : Reopened d p) :
    Lsm.Wf d p where
  toWf := h
  ids_desc := hr.ids_desc
  ids_lt := hr.ids_lt
  ids_file := fun i hi => (hr.ids_iff i).mp hi
  file_le := fun i hi => (hr.ids_lt i ((hr.ids_iff i).mpr hi)).le
  mem_log := fun k r hm => ⟨((hr.mem k r).mp hm).1, ((hr.mem k r).mp hm).2.1⟩
  mem_ge := by
    intro k r i x hm hx hxk
    obtain ⟨hr, hrk, hmax⟩ := (hr.mem k r).mp hm
    rcases h.file_log i x hx with hlog | hlt
    · exact hmax x hlog hxk
    · exact (hlt r hr).le
  leftover := fun i hi _ hni => absurd ((hr.ids_iff i).mpr hi) hni
  orphan := by
    intro x hx
    have := hr.ids_lt _ ((hr.ids_iff _).mpr hx.isSome)
    omega
  seq_gt := hr.seq_gt

end Store

end Foundation.Lsm
