import RustFundamentals.Foundation.Expiry
import RustFundamentals.Foundation.FaultyFs

/-!
# Programs that do not see part of the state

`Blind hide x`: hiding part of the state changes nothing about what `x` returns, nor about what it
leaves of the rest. Blind programs compose. With files hidden from a directory, every filesystem
call on a name that stays is blind; so is a listing of which only the names that stay are used.
-/

namespace Foundation.Fs

section Blind

variable {σ ε δ α β : Type} {hide : σ → σ}

/-- What `hide` hides is neither looked at nor changed. -/
def Blind (hide : σ → σ) (x : Io σ ε α) : Prop :=
  ∀ s, x.run (hide s) = ((x.run s).1, hide (x.run s).2)

namespace Blind

theorem pure (a : α) : Blind hide (pure a : Io σ ε α) := fun _ => rfl

theorem throw (e : Stop ε) : Blind hide (throw e : Io σ ε α) := fun _ => rfl

/-- One program after the other, the second being blind on what the first returns. -/
theorem bind_of {x : Io σ ε α} {f : α → Io σ ε β} (hx : Blind hide x)
    (hf : ∀ s a, (x.run s).1 = .ok a → Blind hide (f a)) : Blind hide (x >>= f) := by
  intro s
  rw [run_bind, run_bind, hx s]
  rcases hrun : x.run s with ⟨e | a, s'⟩
  · rfl
  · exact hf s a (by rw [hrun]) s'

theorem bind {x : Io σ ε α} {f : α → Io σ ε β} (hx : Blind hide x) (hf : ∀ a, Blind hide (f a)) :
    Blind hide (x >>= f) := hx.bind_of fun _ a _ => hf a

theorem ite {c : Prop} [Decidable c] {x y : Io σ ε α} (hx : Blind hide x) (hy : Blind hide y) :
    Blind hide (if c then x else y) := by
  by_cases h : c
  · rwa [if_pos h]
  · rwa [if_neg h]

theorem orPanic (v : Option α) : Blind hide (orPanic v : Io σ ε α) := by
  cases v with
  | none => exact throw _
  | some a => exact pure a

theorem ofExcept (v : Except (Stop ε) α) : Blind hide (ofExcept v : Io σ ε α) := by
  cases v with
  | error e => exact throw e
  | ok a => exact pure a

theorem mapErr (f : ε → ε) {x : Io σ ε α} (hx : Blind hide x) : Blind hide (mapErr f x) := by
  intro s
  have hrun : ∀ s, (Fs.mapErr f x).run s = (mapStop f (x.run s).1, (x.run s).2) := by
    intro s
    show (Fs.mapErr f x) s = _
    unfold Fs.mapErr
    rcases x.run s with ⟨(e | _ | _) | a, s'⟩ <;> rfl
  rw [hrun, hrun, hx s]

/-- What is read of a state is as blind as what is read. -/
theorem gets {g : σ → α} (h : ∀ s, g (hide s) = g s) {f : α → Io σ ε β}
    (hf : ∀ a, Blind hide (f a)) : Blind hide (get >>= fun s => f (g s)) := by
  intro s
  show (f (g (hide s))).run (hide s) = _
  rw [h s]
  exact hf (g s) s

end Blind

/-- What two programs return, one after the other, the second one has returned. -/
theorem exists_of_bind_ok {x : Io σ ε α} {f : α → Io σ ε β} {s : σ} {b : β}
    (h : ((x >>= f).run s).1 = .ok b) :
    ∃ a s', x.run s = (.ok a, s') ∧ ((f a).run s').1 = .ok b := by
  rw [run_bind] at h
  rcases hrun : x.run s with ⟨e | a, s'⟩
  · rw [hrun] at h
    cases h
  · rw [hrun] at h
    exact ⟨a, s', rfl, h⟩

end Blind

/-! ## Hidden files -/

section Files

variable {ι ε α : Type} (keep : Name → Bool)

/-- The directory with the names that stay. -/
def Dir.only (d : Dir) : Dir := HashMap.retain (fun name _ => keep name) d

/-- The world with the names that stay. -/
def World.only (w : World ι) : World ι := { w with dir := Dir.only keep w.dir }

variable {keep} {name : Name}

/-- What stays is decided by the names that are there. -/
theorem Dir.only_congr {keep' : Name → Bool} {d : Dir} (h : ∀ name ∈ d, keep name = keep' name) :
    Dir.only keep d = Dir.only keep' d := by
  apply AList.ext
  show d.entries.filter (fun e => keep e.1) = d.entries.filter fun e => keep' e.1
  refine List.filter_congr fun e he => ?_
  exact h e.1 (List.mem_map_of_mem he)

theorem Dir.lookup_only (h : keep name = true) (d : Dir) :
    (Dir.only keep d).lookup name = d.lookup name := by
  rw [Dir.only, HashMap.lookup_retain, h]
  cases d.lookup name <;> rfl

theorem Dir.keys_only (d : Dir) : (Dir.only keep d).keys = d.keys.filter keep := by
  show (d.entries.filter fun e => keep e.1).map Sigma.fst = (d.entries.map Sigma.fst).filter keep
  rw [List.filter_map]
  rfl

theorem filter_kerase (h : keep name = true) (l : List (Σ _ : Name, File)) :
    (l.kerase name).filter (fun e => keep e.1) = (l.filter fun e => keep e.1).kerase name := by
  induction l with
  | nil => rfl
  | cons e l ih =>
    by_cases he : name = e.1
    · have hkeep : keep e.1 = true := he ▸ h
      rw [List.kerase_cons_eq he, List.filter_cons_of_pos (by simpa using hkeep),
        List.kerase_cons_eq he]
    · rw [List.kerase_cons_ne he]
      cases hkeep : keep e.1 with
      | true =>
        rw [List.filter_cons_of_pos (by simpa using hkeep),
          List.filter_cons_of_pos (by simpa using hkeep), List.kerase_cons_ne he, ih]
      | false =>
        rw [List.filter_cons_of_neg (by simp [hkeep]), List.filter_cons_of_neg (by simp [hkeep]),
          ih]

theorem Dir.only_insert (h : keep name = true) (d : Dir) (f : File) :
    Dir.only keep (d.insert name f) = (Dir.only keep d).insert name f := by
  apply AList.ext
  show ((⟨name, f⟩ :: d.entries.kerase name).filter fun e => keep e.1) =
    ⟨name, f⟩ :: (d.entries.filter fun e => keep e.1).kerase name
  rw [List.filter_cons_of_pos (by simpa using h), filter_kerase h]

theorem Dir.only_erase (h : keep name = true) (d : Dir) :
    Dir.only keep (d.erase name) = (Dir.only keep d).erase name :=
  AList.ext (filter_kerase h d.entries)

theorem Dir.only_append (h : keep name = true) (d : Dir) (data : Bytes) :
    Dir.append (Dir.only keep d) name data = Dir.only keep (Dir.append d name data) := by
  unfold Dir.append
  by_cases hdata : data = []
  · rw [if_pos hdata, if_pos hdata]
  · rw [if_neg hdata, if_neg hdata, Dir.lookup_only h]
    cases d.lookup name with
    | none => rfl
    | some f => exact (Dir.only_insert h d _).symm

theorem Dir.only_touch (h : keep name = true) (d : Dir) :
    Dir.touch (Dir.only keep d) name = Dir.only keep (Dir.touch d name) := by
  unfold Dir.touch
  rw [Dir.lookup_only h]
  cases d.lookup name with
  | none => exact (Dir.only_insert h d _).symm
  | some f => rfl

theorem Dir.only_truncate (h : keep name = true) (d : Dir) :
    Dir.truncate (Dir.only keep d) name = Dir.only keep (Dir.truncate d name) := by
  unfold Dir.truncate
  rw [Dir.lookup_only h]
  cases d.lookup name with
  | none => rfl
  | some f => exact (Dir.only_insert h d _).symm

theorem Dir.only_rename {old new : Name} (hold : keep old = true) (hnew : keep new = true)
    (d : Dir) : Dir.rename (Dir.only keep d) old new = Dir.only keep (Dir.rename d old new) := by
  unfold Dir.rename
  rw [Dir.lookup_only hold]
  cases d.lookup old with
  | none => rfl
  | some f =>
    show ((Dir.only keep d).erase old).insert new f = Dir.only keep ((d.erase old).insert new f)
    rw [Dir.only_insert hnew, Dir.only_erase hold]

namespace Blind

/-- What is read of the directory is blind if it is about names that stay. -/
theorem getDir {γ : Type} {g : Dir → γ} (hg : ∀ d, g (Dir.only keep d) = g d)
    {f : γ → Io (World ι) ε α} (hf : ∀ c, Blind (World.only keep) (f c)) :
    Blind (World.only keep) (get >>= fun w => f (g w.dir)) :=
  @gets _ _ _ _ _ (fun w : World ι => g w.dir) (fun w => hg w.dir) f hf

/-- What follows the look at a file that stays is blind whether the file is there or not. -/
theorem file (h : keep name = true) {present : File → Io (World ι) ε α} {absent : Io (World ι) ε α}
    (hpresent : ∀ f, Blind (World.only keep) (present f))
    (habsent : Blind (World.only keep) absent) :
    Blind (World.only keep) (get >>= fun w => match w.dir.lookup name with
      | some f => present f
      | none => absent) := by
  intro w
  have hlook : (World.only keep w).dir.lookup name = w.dir.lookup name := Dir.lookup_only h w.dir
  rw [run_get_bind, run_get_bind, hlook]
  cases w.dir.lookup name with
  | none => exact habsent w
  | some f => exact hpresent f w

variable [DecidableEq ι] [FromIo ε]

/-- A call is blind if what it does to the directory is. -/
theorem call (site : ι) {full : Dir → Dir} {part : Nat → Dir → Dir}
    (hfull : ∀ d, full (Dir.only keep d) = Dir.only keep (full d))
    (hpart : ∀ n d, part n (Dir.only keep d) = Dir.only keep (part n d)) :
    Blind (World.only keep) (call site full part : Io (World ι) ε Unit) := by
  intro w
  have hverdict : (World.only keep w).verdict site = w.verdict site := rfl
  have hadvance : (World.only keep w).advance site = w.advance site := rfl
  unfold Fs.call
  rw [run_get_bind, run_get_bind, hverdict, hadvance]
  cases w.verdict site with
  | ok =>
    show (Except.ok (), (⟨full (Dir.only keep w.dir), w.advance site⟩ : World ι)) = _
    rw [hfull]
    rfl
  | err n =>
    show (Except.error _, (⟨part n (Dir.only keep w.dir), w.advance site⟩ : World ι)) = _
    rw [hpart]
    rfl
  | die n =>
    show (Except.error _, (⟨part n (Dir.only keep w.dir), w.advance site⟩ : World ι)) = _
    rw [hpart]
    rfl

theorem tick (site : ι) : Blind (World.only keep) (tick site : Io (World ι) ε Unit) :=
  call site (fun _ => rfl) fun _ _ => rfl

theorem writeAll (site : ι) (h : keep name = true) (data : Bytes) :
    Blind (World.only keep) (writeAll site name data : Io (World ι) ε Unit) :=
  call site (fun d => Dir.only_append h d data) fun n d => Dir.only_append h d (data.take n)

theorem create (site : ι) (h : keep name = true) :
    Blind (World.only keep) (create site name : Io (World ι) ε Unit) :=
  call site (fun d => (Dir.only_insert h d _).symm) fun _ _ => rfl

theorem openAppend (site : ι) (h : keep name = true) :
    Blind (World.only keep) (openAppend site name : Io (World ι) ε Unit) :=
  call site (fun d => Dir.only_touch h d) fun _ _ => rfl

theorem rename (site : ι) {old new : Name} (hold : keep old = true) (hnew : keep new = true) :
    Blind (World.only keep) (rename site old new : Io (World ι) ε Unit) :=
  call site (fun d => Dir.only_rename hold hnew d) fun _ _ => rfl

theorem truncate (site : ι) (h : keep name = true) :
    Blind (World.only keep) (truncate site name : Io (World ι) ε Unit) :=
  call site (fun d => Dir.only_truncate h d) fun _ _ => rfl

theorem removeFile (site : ι) (h : keep name = true) :
    Blind (World.only keep) (removeFile site name : Io (World ι) ε Unit) :=
  file h (fun _ => call site (fun d => (Dir.only_erase h d).symm) fun _ _ => rfl) (throw _)

theorem openRead (site : ι) (h : keep name = true) :
    Blind (World.only keep) (openRead site name : Io (World ι) ε Bytes) :=
  (tick site).bind fun _ => file h (fun f => pure f.bytes) (throw _)

theorem openIfPresent (site : ι) (h : keep name = true) :
    Blind (World.only keep) (openIfPresent site name : Io (World ι) ε (Option Bytes)) := by
  refine (tick site).bind fun _ => ?_
  exact getDir (g := fun d => (d.lookup name).map File.bytes)
    (fun d => by rw [Dir.lookup_only h]) fun bytes => pure bytes

/-- A listing is blind when nothing is made of the names that are hidden. -/
theorem listing (site : ι) {g : Name → Option α} (h : ∀ name, keep name = false → g name = none) :
    Blind (World.only keep) (do return (← readDir site).filterMap g : Io (World ι) ε (List α)) := by
  have hlist : ∀ d : Dir, (Dir.only keep d).keys.filterMap g = d.keys.filterMap g := by
    intro d
    rw [Dir.keys_only, List.filterMap_filter]
    refine List.filterMap_congr fun name _ => ?_
    cases hkeep : keep name with
    | true => rfl
    | false => exact (h name hkeep).symm
  unfold readDir
  rw [bind_assoc]
  refine (tick site).bind fun _ => ?_
  exact getDir (g := fun d => d.keys.filterMap g) hlist fun ids => pure ids

end Blind

end Files

end Foundation.Fs
