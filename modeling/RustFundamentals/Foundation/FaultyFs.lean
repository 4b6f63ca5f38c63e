import Mathlib.Data.Fintype.Defs
import Mathlib.Data.List.AList
import RustFundamentals.Foundation.Bytes
import RustFundamentals.Foundation.Io

/-!
# A filesystem that can fail under the program

One directory of files, seen by one process. The environment decides, call by call, whether
a filesystem call completes, returns an error, or is the last thing the process does: the
verdicts are a `Plan`, one list per call site, and a site whose list has run out completes.
Running a program under every plan is running it under every placement of I/O errors and
process deaths.

A file is the sequence of the writes made to it since it was created or truncated; its
content is their concatenation (`File.bytes`), and nothing a program can do reads the
boundaries. They are there so that a statement can say where a torn write lies.

Each call has a `Post` rule (`Post_call`, `Post_tick`, `Post_openRead`) with a case for every
verdict.
-/

namespace Foundation.Fs

/-- A file name inside the directory. -/
abbrev Name := Bytes

/-- A file: the writes made to it since it was last empty, oldest first. -/
structure File where
  writes : List Bytes
  deriving DecidableEq

/-- The content of a file. -/
def File.bytes (f : File) : Bytes := f.writes.flatten

/-- A directory: finitely many names, each with its file. -/
abbrev Dir := AList (fun _ : Name => File)

/-- What the environment does to one call: let it complete, make it return an error, or let
the process die in it. A write that is cut short has stored its first `stored` bytes. -/
inductive Fault
  | ok
  | err (stored : Nat)
  | die (stored : Nat)
  deriving DecidableEq, Repr

/-- The verdicts still to come, for every call site. -/
abbrev Plan (ι : Type) := ι → List Fault

/-- A plan without verdicts: every call completes. -/
def Quiet {ι : Type} (p : Plan ι) : Prop := ∀ site, p site = []

/-- A plan in which the process may die but no call returns an error. -/
def CrashOnly {ι : Type} (p : Plan ι) : Prop := ∀ site n, Fault.err n ∉ p site

/-- The call returns an error. -/
def Fault.isErr : Fault → Bool
  | .err _ => true
  | _ => false

/-- The process dies in the call. -/
def Fault.isDie : Fault → Bool
  | .die _ => true
  | _ => false

/-- How much of a write that is cut short the file has taken. -/
def Fault.stored : Fault → Nat
  | .ok => 0
  | .err n => n
  | .die n => n

theorem crashOnly_iff {ι : Type} {p : Plan ι} :
    CrashOnly p ↔ ∀ site, (p site).all (fun f => !f.isErr) = true := by
  refine forall_congr' fun site => ?_
  rw [List.all_eq_true]
  constructor
  · intro h f hf
    cases f with
    | ok => rfl
    | err n => exact absurd hf (h n)
    | die n => rfl
  · intro h n hn
    exact absurd (h _ hn) (by simp [Fault.isErr])

instance {ι : Type} [Fintype ι] (p : Plan ι) : Decidable (CrashOnly p) :=
  decidable_of_iff _ crashOnly_iff.symm

/-- `q` is what is left of `p` after some calls. -/
def Plan.Rest {ι : Type} (q p : Plan ι) : Prop := ∀ site, q site <:+ p site

theorem Plan.Rest.refl {ι : Type} (p : Plan ι) : Plan.Rest p p := fun _ => List.suffix_rfl

theorem Plan.Rest.trans {ι : Type} {p q r : Plan ι} (h : Plan.Rest r q) (h' : Plan.Rest q p) :
    Plan.Rest r p := fun site => (h site).trans (h' site)

/-- What is left of a plan without verdicts has none. -/
theorem Quiet.rest {ι : Type} {p q : Plan ι} (h : Quiet p) (hr : Plan.Rest q p) : Quiet q :=
  fun site => List.eq_nil_of_suffix_nil (h site ▸ hr site)

/-- The filesystem side of a running program. -/
structure World (ι : Type) where
  dir : Dir
  plan : Plan ι

/-- The I/O errors a program tells apart. -/
inductive IoError
  | notFound
  | other
  deriving DecidableEq, Repr

/-- The conversion `?` applies to an I/O error. -/
class FromIo (ε : Type) where
  fromIo : IoError → ε

/-! ## Filesystem calls -/

section Calls

variable {ι ε α : Type} [DecidableEq ι] [FromIo ε]

/-- The verdict for the next call at `site`. -/
def World.verdict (w : World ι) (site : ι) : Fault := (w.plan site).headD .ok

/-- The plan once a call at `site` has taken its verdict. -/
def World.advance (w : World ι) (site : ι) : Plan ι :=
  Function.update w.plan site (w.plan site).tail

/-- The verdict at `site` cuts the call short after `n` stored bytes, and `e` is how the
program stops: with an error value, or with the process. -/
def CutShort {ι ε : Type} (w : World ι) (site : ι) (n : Nat) (e : Stop ε) : Prop :=
  (w.verdict site = .err n ∧ ∃ v, e = .err v) ∨ (w.verdict site = .die n ∧ e = .died)

/-- The verdicts at `site` account for the program's stopping with `e`: there is an error among
them if `e` is an error value, a death if the process died. -/
def BlamedOn {ι ε : Type} (p : Plan ι) (site : ι) (e : Stop ε) : Prop :=
  (∃ n, Fault.err n ∈ p site ∧ ∃ v, e = .err v) ∨ (∃ n, Fault.die n ∈ p site ∧ e = .died)

/-- Among the verdicts at `site`, one that stores `n` bytes accounts for it. -/
def BlamedAt {ι ε : Type} (p : Plan ι) (site : ι) (n : Nat) (e : Stop ε) : Prop :=
  (Fault.err n ∈ p site ∧ ∃ v, e = .err v) ∨ (Fault.die n ∈ p site ∧ e = .died)

theorem BlamedAt.blamedOn {ι ε : Type} {p : Plan ι} {site : ι} {n : Nat} {e : Stop ε}
    (h : BlamedAt p site n e) : BlamedOn p site e := by
  rcases h with ⟨hm, he⟩ | ⟨hm, he⟩
  · exact .inl ⟨n, hm, he⟩
  · exact .inr ⟨n, hm, he⟩

/-- Some site of the plan accounts for the program's stopping with `e`. -/
def Blames {ι ε : Type} (p : Plan ι) (e : Stop ε) : Prop := ∃ site, BlamedOn p site e

theorem BlamedOn.mono {ι ε : Type} {p q : Plan ι} {site : ι} {e : Stop ε}
    (h : BlamedOn q site e) (hr : Plan.Rest q p) : BlamedOn p site e := by
  rcases h with ⟨n, hm, he⟩ | ⟨n, hm, he⟩
  · exact .inl ⟨n, (hr site).subset hm, he⟩
  · exact .inr ⟨n, (hr site).subset hm, he⟩

theorem Blames.mono {ι ε : Type} {p q : Plan ι} {e : Stop ε} (h : Blames q e)
    (hr : Plan.Rest q p) : Blames p e := by
  obtain ⟨site, h⟩ := h
  exact ⟨site, h.mono hr⟩

/-- A quiet plan accounts for no stop. -/
theorem Blames.not_quiet {ι ε : Type} {p : Plan ι} {e : Stop ε} (h : Blames p e) : ¬ Quiet p := by
  intro hq
  obtain ⟨site, ⟨n, hm, _⟩ | ⟨n, hm, _⟩⟩ := h <;> simp [hq site] at hm

/-- A site without error verdicts accounts for deaths only. -/
theorem BlamedOn.died {ι ε : Type} {p : Plan ι} {site : ι} {e : Stop ε} (h : BlamedOn p site e)
    (hc : ∀ n, Fault.err n ∉ p site) : e = .died := by
  rcases h with ⟨n, hm, _⟩ | ⟨_, _, he⟩
  · exact absurd hm (hc n)
  · exact he

/-- One filesystem call: `full` is its effect on the directory when it completes, `part n`
its effect when it is cut short after storing `n` bytes. -/
def call (site : ι) (full : Dir → Dir) (part : Nat → Dir → Dir) : Io (World ι) ε Unit := do
  let w ← get
  match w.verdict site with
  | .ok => set { dir := full w.dir, plan := w.advance site : World ι }
  | .err n =>
    set { dir := part n w.dir, plan := w.advance site : World ι }
    throw (.err (FromIo.fromIo .other))
  | .die n =>
    set { dir := part n w.dir, plan := w.advance site : World ι }
    throw .died

/-- A call that leaves the directory as it is (`sync_all`, `metadata`, a positioned read). -/
def tick (site : ι) : Io (World ι) ε Unit := call site id fun _ => id

/-- The directory after appending one write to `name`; a write of no bytes leaves no trace. -/
def Dir.append (d : Dir) (name : Name) (data : Bytes) : Dir :=
  if data = [] then d
  else match d.lookup name with
    | some f => d.insert name ⟨f.writes ++ [data]⟩
    | none => d

/-- `write_all` on an open file. -/
def writeAll (site : ι) (name : Name) (data : Bytes) : Io (World ι) ε Unit :=
  call site (fun d => Dir.append d name data) fun n d => Dir.append d name (data.take n)

/-- `File::create`: an empty file under `name`, whatever was there. -/
def create (site : ι) (name : Name) : Io (World ι) ε Unit :=
  call site (fun d => d.insert name ⟨[]⟩) fun _ => id

/-- The directory in which `name` exists. -/
def Dir.touch (d : Dir) (name : Name) : Dir :=
  match d.lookup name with
  | some _ => d
  | none => d.insert name ⟨[]⟩

/-- Opening for appending, with `create(true)`. -/
def openAppend (site : ι) (name : Name) : Io (World ι) ε Unit :=
  call site (fun d => Dir.touch d name) fun _ => id

/-- `rename(old, new)`, replacing what `new` named. -/
def Dir.rename (d : Dir) (old new : Name) : Dir :=
  match d.lookup old with
  | some f => (d.erase old).insert new f
  | none => d

/-- `std::fs::rename`. -/
def rename (site : ι) (old new : Name) : Io (World ι) ε Unit :=
  call site (fun d => Dir.rename d old new) fun _ => id

/-- `set_len(0)` on an open file. -/
def Dir.truncate (d : Dir) (name : Name) : Dir :=
  match d.lookup name with
  | some _ => d.insert name ⟨[]⟩
  | none => d

/-- `set_len(0)`. -/
def truncate (site : ι) (name : Name) : Io (World ι) ε Unit :=
  call site (fun d => Dir.truncate d name) fun _ => id

/-- `std::fs::remove_file`; removing a missing file is an error. -/
def removeFile (site : ι) (name : Name) : Io (World ι) ε Unit := do
  match (← get).dir.lookup name with
  | some _ => call site (fun d => d.erase name) fun _ => id
  | none => throw (.err (FromIo.fromIo .notFound))

/-- `File::open` for reading. The handle stays on the file even when the name goes away, so
it is the content. -/
def openRead (site : ι) (name : Name) : Io (World ι) ε Bytes := do
  tick site
  match (← get).dir.lookup name with
  | some f => pure f.bytes
  | none => throw (.err (FromIo.fromIo .notFound))

/-- `File::open` where `NotFound` is an answer rather than an error. -/
def openIfPresent (site : ι) (name : Name) : Io (World ι) ε (Option Bytes) := do
  tick site
  return ((← get).dir.lookup name).map File.bytes

/-- `read_dir`: the names in the directory. -/
def readDir (site : ι) : Io (World ι) ε (List Name) := do
  tick site
  return (← get).dir.keys

theorem Quiet.advance {w : World ι} (h : Quiet w.plan) (site : ι) : w.advance site = w.plan := by
  have hs : (w.plan site).tail = w.plan site := by simp [h site]
  rw [World.advance, hs, Function.update_eq_self]

theorem World.advance_rest (w : World ι) (site : ι) : Plan.Rest (w.advance site) w.plan := by
  intro site'
  unfold World.advance
  by_cases hs : site' = site
  · subst hs
    rw [Function.update_self]
    exact List.tail_suffix _
  · have hrest : Function.update w.plan site (w.plan site).tail site' = w.plan site' :=
      Function.update_of_ne hs _ _
    exact hrest ▸ List.suffix_rfl

omit [DecidableEq ι] in
theorem World.verdict_mem {w : World ι} {site : ι} (h : w.verdict site ≠ .ok) :
    w.verdict site ∈ w.plan site := by
  unfold World.verdict at h ⊢
  cases hp : w.plan site with
  | nil => simp [hp] at h
  | cons f rest => simp

omit [DecidableEq ι] [FromIo ε] in
/-- A call that is cut short is accounted for. -/
theorem CutShort.blamedAt {w : World ι} {site : ι} {n : Nat} {e : Stop ε}
    (h : CutShort w site n e) : BlamedAt w.plan site n e := by
  rcases h with ⟨h, v⟩ | ⟨h, v⟩
  · exact .inl ⟨h ▸ World.verdict_mem (by simp [h]), v⟩
  · exact .inr ⟨h ▸ World.verdict_mem (by simp [h]), v⟩

omit [DecidableEq ι] [FromIo ε] in
theorem CutShort.blamedOn {w : World ι} {site : ι} {n : Nat} {e : Stop ε}
    (h : CutShort w site n e) : BlamedOn w.plan site e := h.blamedAt.blamedOn

omit [DecidableEq ι] [FromIo ε] in
theorem CutShort.blames {w : World ι} {site : ι} {n : Nat} {e : Stop ε}
    (h : CutShort w site n e) : Blames w.plan e := ⟨site, h.blamedOn⟩

/-- **A call under every verdict**: it completes, or it stops with its partial effect. -/
theorem Post_call {site : ι} {full : Dir → Dir} {part : Nat → Dir → Dir} {w : World ι}
    {Q : Except (Stop ε) Unit → World ι → Prop}
    (hok : Q (.ok ()) ⟨full w.dir, w.advance site⟩)
    (hstop : ∀ n e, CutShort w site n e → Q (.error e) ⟨part n w.dir, w.advance site⟩) :
    Post (call site full part : Io (World ι) ε Unit) w Q := by
  simp only [call, Post_bind, Post_get]
  cases hv : w.verdict site with
  | ok => exact hok
  | err n => exact hstop n _ (.inl ⟨hv, _, rfl⟩)
  | die n => exact hstop n _ (.inr ⟨hv, rfl⟩)

/-- Under a plan without verdicts it completes. -/
theorem Post_call_quiet {site : ι} {full : Dir → Dir} {part : Nat → Dir → Dir} {dir : Dir}
    {plan : Plan ι} (hplan : Quiet plan) {Q : Except (Stop ε) Unit → World ι → Prop}
    (hok : Q (.ok ()) ⟨full dir, plan⟩) :
    Post (call site full part : Io (World ι) ε Unit) ⟨dir, plan⟩ Q := by
  have hadvance : (⟨dir, plan⟩ : World ι).advance site = plan := Quiet.advance hplan site
  refine Post_call ?_ fun n e h => absurd hplan h.blames.not_quiet
  rwa [hadvance]

/-- A call without effect either goes through or stops where it is. -/
theorem Post_tick {site : ι} {w : World ι} {Q : Except (Stop ε) Unit → World ι → Prop}
    (hok : Q (.ok ()) ⟨w.dir, w.advance site⟩)
    (hstop : ∀ n e, CutShort w site n e → Q (.error e) ⟨w.dir, w.advance site⟩) :
    Post (tick site : Io (World ι) ε Unit) w Q :=
  Post_call hok hstop

/-- The same, with the error value replaced. -/
theorem Post_mapErr_tick {f : ε → ε} {site : ι} {w : World ι}
    {Q : Except (Stop ε) Unit → World ι → Prop}
    (hok : Q (.ok ()) ⟨w.dir, w.advance site⟩)
    (hstop : ∀ n e, CutShort w site n e → Q (.error e) ⟨w.dir, w.advance site⟩) :
    Post (mapErr f (tick site : Io (World ι) ε Unit)) w Q := by
  rw [Post_mapErr]
  refine Post_tick hok ?_
  intro n e hpost
  rcases hpost with ⟨hv, v, rfl⟩ | ⟨hv, rfl⟩
  · exact hstop n _ (.inl ⟨hv, _, rfl⟩)
  · exact hstop n _ (.inr ⟨hv, rfl⟩)

/-- Opening a file that is there gives its content, unless the call is cut short. -/
theorem Post_openRead {site : ι} {name : Name} {f : File} {w : World ι}
    {Q : Except (Stop ε) Bytes → World ι → Prop} (hf : w.dir.lookup name = some f)
    (hok : Q (.ok f.bytes) ⟨w.dir, w.advance site⟩)
    (hstop : ∀ n e, CutShort w site n e → Q (.error e) ⟨w.dir, w.advance site⟩) :
    Post (openRead site name : Io (World ι) ε Bytes) w Q := by
  rw [openRead, Post_bind]
  refine Post_tick ?_ hstop
  simp only [Post_bind, Post_get, hf]
  exact hok

/-- Opening a file that may be missing. -/
theorem Post_openIfPresent {site : ι} {name : Name} {w : World ι}
    {Q : Except (Stop ε) (Option Bytes) → World ι → Prop}
    (hok : Q (.ok ((w.dir.lookup name).map File.bytes)) ⟨w.dir, w.advance site⟩)
    (hstop : ∀ n e, CutShort w site n e → Q (.error e) ⟨w.dir, w.advance site⟩) :
    Post (openIfPresent site name : Io (World ι) ε (Option Bytes)) w Q := by
  rw [openIfPresent, Post_bind]
  exact Post_tick hok hstop

/-- Listing the directory. -/
theorem Post_readDir {site : ι} {w : World ι} {Q : Except (Stop ε) (List Name) → World ι → Prop}
    (hok : Q (.ok w.dir.keys) ⟨w.dir, w.advance site⟩)
    (hstop : ∀ n e, CutShort w site n e → Q (.error e) ⟨w.dir, w.advance site⟩) :
    Post (readDir site : Io (World ι) ε (List Name)) w Q := by
  rw [readDir, Post_bind]
  exact Post_tick hok hstop

/-! ## What the calls do to a name -/

theorem Dir.lookup_append_self {d : Dir} {name : Name} {f : File} (h : d.lookup name = some f)
    {data : Bytes} (hdata : data ≠ []) :
    (Dir.append d name data).lookup name = some ⟨f.writes ++ [data]⟩ := by
  simp [Dir.append, hdata, h]

theorem Dir.lookup_append_ne (d : Dir) {name other : Name} (h : other ≠ name) (data : Bytes) :
    (Dir.append d name data).lookup other = d.lookup other := by
  unfold Dir.append
  split
  · rfl
  · split
    · exact AList.lookup_insert_ne h
    · rfl

theorem Dir.lookup_touch_ne (d : Dir) {name other : Name} (h : other ≠ name) :
    (Dir.touch d name).lookup other = d.lookup other := by
  unfold Dir.touch
  split
  · rfl
  · exact AList.lookup_insert_ne h

theorem Dir.lookup_touch_self (d : Dir) (name : Name) :
    (Dir.touch d name).lookup name = some ((d.lookup name).getD ⟨[]⟩) := by
  unfold Dir.touch
  split
  · rename_i f hf
    rw [hf]
    rfl
  · rename_i hf
    rw [hf]
    exact AList.lookup_insert _

theorem Dir.lookup_truncate_ne (d : Dir) {name other : Name} (h : other ≠ name) :
    (Dir.truncate d name).lookup other = d.lookup other := by
  unfold Dir.truncate
  split
  · exact AList.lookup_insert_ne h
  · rfl

theorem Dir.lookup_truncate_self {d : Dir} {name : Name} {f : File} (h : d.lookup name = some f) :
    (Dir.truncate d name).lookup name = some ⟨[]⟩ := by
  simp [Dir.truncate, h]

theorem Dir.lookup_rename_new {d : Dir} {old new : Name} {f : File}
    (h : d.lookup old = some f) : (Dir.rename d old new).lookup new = some f := by
  simp [Dir.rename, h]

theorem Dir.lookup_rename_ne (d : Dir) {old new other : Name} (ho : other ≠ old)
    (hn : other ≠ new) : (Dir.rename d old new).lookup other = d.lookup other := by
  unfold Dir.rename
  split
  · rw [AList.lookup_insert_ne hn, AList.lookup_erase_ne ho]
  · rfl

/-- Removing a file that is there. -/
theorem Post_removeFile {site : ι} {name : Name} {f : File} {w : World ι}
    {Q : Except (Stop ε) Unit → World ι → Prop} (hf : w.dir.lookup name = some f)
    (hok : Q (.ok ()) ⟨w.dir.erase name, w.advance site⟩)
    (hstop : ∀ n e, CutShort w site n e → Q (.error e) ⟨w.dir, w.advance site⟩) :
    Post (removeFile site name : Io (World ι) ε Unit) w Q := by
  simp only [removeFile, Post_bind, Post_get, hf]
  exact Post_call hok hstop

/-! ## Computations that only read -/

/-- From `w`, the outcome is `v` or a stop the plan accounts for, and the directory is as it
was. -/
def ReadOnly (v : α) (w : World ι) (r : Except (Stop ε) α) (w' : World ι) : Prop :=
  w'.dir = w.dir ∧ Plan.Rest w'.plan w.plan ∧ (r = .ok v ∨ ∃ e, r = .error e ∧ Blames w.plan e)

omit [DecidableEq ι] [FromIo ε] in
/-- Sequencing two reads. -/
theorem Post_bind_readOnly {β : Type} {x : Io (World ι) ε α} {f : α → Io (World ι) ε β} {a : α}
    {b : β} {w : World ι} (hx : Post x w (ReadOnly a w))
    (hf : ∀ w', w'.dir = w.dir → Post (f a) w' (ReadOnly b w')) :
    Post (x >>= f) w (ReadOnly b w) := by
  rw [Post_bind]
  refine hx.mono ?_
  intro r w' hpost
  obtain ⟨hdir, hplan, hr | ⟨e, hr, he⟩⟩ := hpost
  · subst hr
    refine (hf w' hdir).mono ?_
    intro r w'' hpost
    obtain ⟨hdir', hplan', hr⟩ := hpost
    refine ⟨hdir'.trans hdir, hplan'.trans hplan, ?_⟩
    rcases hr with hr | ⟨e, hr, he⟩
    · exact .inl hr
    · exact .inr ⟨e, hr, he.mono hplan⟩
  · subst hr
    exact ⟨hdir, hplan, .inr ⟨e, rfl, he⟩⟩

omit [DecidableEq ι] [FromIo ε] in
theorem Post_pure_readOnly (v : α) (w : World ι) :
    Post (pure v : Io (World ι) ε α) w (ReadOnly v w) :=
  ⟨rfl, Plan.Rest.refl _, .inl rfl⟩

/-- From `w₀` to `w` nothing was written: the directory is the same, the plan what is left of
it. -/
structure OnlyRead (w₀ w : World ι) : Prop where
  dir : w.dir = w₀.dir
  plan : Plan.Rest w.plan w₀.plan

omit [DecidableEq ι] in
theorem OnlyRead.refl (w : World ι) : OnlyRead w w := ⟨rfl, Plan.Rest.refl _⟩

omit [DecidableEq ι] [FromIo ε] in
/-- A read among reads: it goes on with its value, or stops, and nothing was written yet. -/
theorem Post_onlyRead {x : Io (World ι) ε α} {v : α} {w₀ w : World ι}
    {Q : Except (Stop ε) α → World ι → Prop} (h : OnlyRead w₀ w) (hx : Post x w (ReadOnly v w))
    (hok : ∀ w', OnlyRead w₀ w' → Q (.ok v) w')
    (hstop : ∀ w' e, OnlyRead w₀ w' → Blames w₀.plan e → Q (.error e) w') : Post x w Q := by
  refine hx.mono ?_
  intro r w' hpost
  obtain ⟨hdir, hplan, rfl | ⟨e, rfl, hb⟩⟩ := hpost
  · exact hok w' ⟨hdir.trans h.dir, hplan.trans h.plan⟩
  · exact hstop w' e ⟨hdir.trans h.dir, hplan.trans h.plan⟩ (hb.mono h.plan)

theorem tick_readOnly (site : ι) (w : World ι) :
    Post (tick site : Io (World ι) ε Unit) w (ReadOnly () w) :=
  Post_tick ⟨rfl, w.advance_rest site, .inl rfl⟩
    fun _ _ h => ⟨rfl, w.advance_rest site, .inr ⟨_, rfl, h.blames⟩⟩

theorem mapErr_tick_readOnly (f : ε → ε) (site : ι) (w : World ι) :
    Post (mapErr f (tick site : Io (World ι) ε Unit)) w (ReadOnly () w) :=
  Post_mapErr_tick ⟨rfl, w.advance_rest site, .inl rfl⟩
    fun _ _ h => ⟨rfl, w.advance_rest site, .inr ⟨_, rfl, h.blames⟩⟩

theorem openRead_readOnly (site : ι) {name : Name} {f : File} {w : World ι}
    (hf : w.dir.lookup name = some f) :
    Post (openRead site name : Io (World ι) ε Bytes) w (ReadOnly f.bytes w) :=
  Post_openRead hf ⟨rfl, w.advance_rest site, .inl rfl⟩
    fun _ _ h => ⟨rfl, w.advance_rest site, .inr ⟨_, rfl, h.blames⟩⟩

theorem openIfPresent_readOnly (site : ι) (name : Name) (w : World ι) :
    Post (openIfPresent site name : Io (World ι) ε (Option Bytes)) w
      (ReadOnly ((w.dir.lookup name).map File.bytes) w) :=
  Post_openIfPresent ⟨rfl, w.advance_rest site, .inl rfl⟩
    fun _ _ h => ⟨rfl, w.advance_rest site, .inr ⟨_, rfl, h.blames⟩⟩

theorem readDir_readOnly (site : ι) (w : World ι) :
    Post (readDir site : Io (World ι) ε (List Name)) w (ReadOnly w.dir.keys w) :=
  Post_readDir ⟨rfl, w.advance_rest site, .inl rfl⟩
    fun _ _ h => ⟨rfl, w.advance_rest site, .inr ⟨_, rfl, h.blames⟩⟩

end Calls

end Foundation.Fs
