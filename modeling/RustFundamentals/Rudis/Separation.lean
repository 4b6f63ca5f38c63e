import RustFundamentals.Rudis.Linearizable

/-!
# rudis: clients with keys of their own

A request answers by the keys it names and changes no others. So the replies to the requests on
some keys are those of a store that serves these requests only, when no request names keys of both
kinds (`clients_separated`): what other clients do with other keys is not seen.
-/

namespace RustFundamentals.Rudis

open Foundation Foundation.Fs Foundation.Expiry

/-! ## The keys of an exchange -/

/-- The keys that the command of a request names. -/
def Exchange.keys (ov : Overflow) (x : Exchange) : List Bytes :=
  match (parsedAt ov x.request x.clock).1 with
  | .ok c => c.keys
  | .error _ => []

/-- The request names a key in `K`. -/
def Exchange.touches (ov : Overflow) (K : Bytes → Bool) (x : Exchange) : Bool :=
  (x.keys ov).any K

/-- No request names both a key in `K` and one outside. -/
def Separate (ov : Overflow) (K : Bytes → Bool) (xs : List Exchange) : Prop :=
  ∀ x ∈ xs, x.touches ov K = true → ∀ key ∈ x.keys ov, K key = true

/-! ## Requests on the keys in `K` -/

/-- Two references that show the same keys of `K` from the next reading on. -/
structure SamePart (K : Bytes → Bool) (r r' : Reference) : Prop where
  clock : r'.clock = r.clock
  mono : Monotone r.clock
  agree : Agree Entry.isExpired (r.clock 0) (part K r.keys) (part K r'.keys)

/-- The same answer, and the same keys of `K`. -/
def SameOutcome {α : Type} (K : Bytes → Bool) :
    Option (α × Keyspace) → Option (α × Keyspace) → Prop
  | some (a, m), some (a', m') => a = a' ∧ part K m = part K m'
  | none, none => True
  | _, _ => False

/-- The operation goes by the keys in `K`. -/
def GoesBy {α : Type} (K : Bytes → Bool) (op : Nat → Keyspace → Option (α × Keyspace)) : Prop :=
  ∀ now m m', part K m = part K m' → SameOutcome K (op now m) (op now m')

variable {K : Bytes → Bool}

theorem reading_samePart {ε α : Type} {op : Nat → Keyspace → Option (α × Keyspace)}
    (h : GoesBy K op) :
    Sim (SamePart K) (Reference.reading op : Io Reference ε α) (Reference.reading op) := by
  intro r r' hsame
  have hpart : part K (r.keys.at (r.clock 0)) = part K (r'.keys.at (r.clock 0)) := by
    rw [Keyspace.at_eq, Keyspace.at_eq, ← alive_part, ← alive_part]
    exact hsame.agree
  have hmono : Monotone fun i => r.clock (i + 1) := fun i j hij => hsame.mono (by omega)
  have hop := h (r.clock 0) _ _ hpart
  rw [reading_run, reading_run, hsame.clock]
  rcases hleft : op (r.clock 0) (r.keys.at (r.clock 0)) with _ | ⟨a, n⟩
  · rcases hright : op (r.clock 0) (r'.keys.at (r.clock 0)) with _ | ⟨a', n'⟩
    · exact ⟨rfl, rfl, hmono, congrArg _ hpart⟩
    · rw [hleft, hright] at hop
      exact hop.elim
  · rcases hright : op (r.clock 0) (r'.keys.at (r.clock 0)) with _ | ⟨a', n'⟩
    · rw [hleft, hright] at hop
      exact hop.elim
    · rw [hleft, hright] at hop
      exact ⟨congrArg Except.ok hop.1, rfl, hmono, congrArg _ hop.2⟩

/-- An operation that looks at one key, and leaves all as it is. -/
theorem goesBy_look {α : Type} {key : Bytes} (hkey : K key = true)
    (f : Nat → Option Entry → α) : GoesBy K fun now m => some (f now (m key), m) := by
  intro now m m' hpart
  have hentry : m key = m' key := apply_eq_of_part hkey hpart
  exact ⟨by rw [hentry], hpart⟩

/-- An operation that looks at one key, and puts something in its place. -/
theorem goesBy_write {α : Type} {key : Bytes} (hkey : K key = true)
    (f : Nat → Option Entry → α) (g : Nat → Option Entry → Option Entry) :
    GoesBy K fun now m => some (f now (m key), Function.update m key (g now (m key))) := by
  intro now m m' hpart
  have hentry : m key = m' key := apply_eq_of_part hkey hpart
  refine ⟨by rw [hentry], ?_⟩
  rw [part_update hkey, part_update hkey, hpart, hentry]

theorem goesBy_incr (ov : Overflow) {key : Bytes} (hkey : K key = true) :
    GoesBy K fun _ m => Reference.incr ov key m := by
  intro now m m' hpart
  show SameOutcome K (Reference.incr ov key m) (Reference.incr ov key m')
  unfold Reference.incr
  rw [← apply_eq_of_part hkey hpart]
  cases m key with
  | none =>
    cases ov.fitInt 64 1 with
    | none => trivial
    | some next => exact ⟨rfl, by rw [part_update hkey, part_update hkey, hpart]⟩
  | some e =>
    simp only
    cases Store.counter e.value with
    | none => exact ⟨rfl, hpart⟩
    | some current =>
      simp only
      cases ov.fitInt 64 (current + 1) with
      | none => trivial
      | some next => exact ⟨rfl, by rw [part_update hkey, part_update hkey, hpart]⟩

theorem goesBy_expire (ov : Overflow) {key : Bytes} (hkey : K key = true) (seconds : Nat) :
    GoesBy K (Reference.expire ov key seconds) := by
  intro now m m' hpart
  unfold Reference.expire
  rw [← apply_eq_of_part hkey hpart]
  cases m key with
  | none => exact ⟨rfl, hpart⟩
  | some e =>
    simp only
    cases Store.deadlineAfter ov now seconds 1000 with
    | none => trivial
    | some deadline => exact ⟨rfl, by rw [part_update hkey, part_update hkey, hpart]⟩

theorem countKeys_samePart {op : Bytes → Keyspace → Bool × Keyspace} (keys : List Bytes)
    (h : ∀ key ∈ keys, GoesBy K fun _ m => some (op key m)) :
    Sim (SamePart K) (Reference.countKeys op keys) (Reference.countKeys op keys) := by
  induction keys with
  | nil => exact Sim.pure 0
  | cons key keys ih =>
    refine Sim.bind (reading_samePart (h key (by simp))) fun hit => ?_
    refine Sim.bind (ih fun k hk => h k (List.mem_cons_of_mem _ hk)) fun rest => ?_
    exact Sim.pure _

/-- **A command that names keys of `K` only** is answered by what is in `K`. -/
theorem execute_samePart (ov : Overflow) {c : Command} (hc : c ≠ .save) (hsize : c ≠ .dbSize)
    (hkeys : ∀ key ∈ c.keys, K key = true) :
    Sim (SamePart K) (Reference.execute ov c hc) (Reference.execute ov c hc) := by
  cases c with
  | ping message => cases message <;> exact Sim.pure _
  | echo message => exact Sim.pure _
  | get key =>
    have hkey := hkeys key (by simp [Command.keys])
    refine Sim.bind (reading_samePart (goesBy_look hkey fun _ e => e.map Entry.value))
      fun value => ?_
    cases value <;> exact Sim.pure _
  | set key value expireAt =>
    have hkey := hkeys key (by simp [Command.keys])
    intro r r' hsame
    refine ⟨rfl, hsame.clock, hsame.mono, ?_⟩
    show Agree _ (r.clock 0) (part K (Function.update r.keys key _))
      (part K (Function.update r'.keys key _))
    rw [part_update hkey, part_update hkey]
    exact hsame.agree.update key _
  | del keys =>
    refine Sim.bind (countKeys_samePart keys fun key hkey => ?_) fun removed => Sim.pure _
    exact goesBy_write (hkeys key hkey) (fun _ e => e.isSome) fun _ _ => none
  | «exists» keys =>
    refine Sim.bind (countKeys_samePart keys fun key hkey => ?_) fun present => Sim.pure _
    exact goesBy_look (hkeys key hkey) fun _ e => e.isSome
  | incr key =>
    have hkey := hkeys key (by simp [Command.keys])
    refine Sim.bind (reading_samePart (goesBy_incr ov hkey)) fun next => ?_
    cases next <;> exact Sim.pure _
  | expire key seconds =>
    have hkey := hkeys key (by simp [Command.keys])
    exact Sim.bind (reading_samePart (goesBy_expire ov hkey seconds)) fun hit => Sim.pure _
  | ttl key =>
    have hkey := hkeys key (by simp [Command.keys])
    refine Sim.bind (reading_samePart ?_) fun left => Sim.pure _
    intro now m m' hpart
    have hentry : m key = m' key := apply_eq_of_part hkey hpart
    exact ⟨by rw [Reference.ttl, Reference.ttl, hentry], hpart⟩
  | dbSize => exact absurd rfl hsize
  | save => exact absurd rfl hc
  | command => exact Sim.pure _

/-! ## Requests on other keys -/

/-- The operation leaves the keys in `K` as it finds them. -/
def Spares {α : Type} (K : Bytes → Bool) (op : Nat → Keyspace → Option (α × Keyspace)) : Prop :=
  ∀ now m a n, op now m = some (a, n) → part K n = part K m

/-- The reference shows the keys of `K` that `keys` shows, from the next reading on. -/
structure Shows (K : Bytes → Bool) (keys : Keyspace) (r : Reference) : Prop where
  mono : Monotone r.clock
  agree : Agree Entry.isExpired (r.clock 0) (part K r.keys) (part K keys)

theorem keeps_reading {ε α : Type} {E : ε → Prop} {keys : Keyspace}
    {op : Nat → Keyspace → Option (α × Keyspace)} (h : Spares K op) :
    Keeps (Shows K keys) (Reference.reading op) (fun _ => True) E := by
  intro r hr
  have hnow : Agree Entry.isExpired (r.clock 0) (part K (r.keys.at (r.clock 0))) (part K keys) := by
    rw [Keyspace.at_eq, ← alive_part]
    exact hr.agree.drop_left
  have hmono : Monotone fun i => r.clock (i + 1) := fun i j hij => hr.mono (by omega)
  have hlater : ∀ m, part K m = part K (r.keys.at (r.clock 0)) →
      Shows K keys ⟨m, fun i => r.clock (i + 1)⟩ := by
    intro m hm
    refine ⟨hmono, ?_⟩
    show Agree _ (r.clock 1) (part K m) (part K keys)
    rw [hm]
    exact hnow.mono isExpired_lasting (hr.mono (Nat.zero_le 1))
  rw [Post, reading_run]
  rcases hop : op (r.clock 0) (r.keys.at (r.clock 0)) with _ | ⟨a, n⟩
  · exact ⟨hlater _ rfl, trivial⟩
  · exact ⟨hlater n (h _ _ a n hop), trivial⟩

theorem spares_look {α : Type} (f : Nat → Keyspace → α) :
    Spares K fun now m => some (f now m, m) := by
  intro now m a n h
  obtain ⟨-, rfl⟩ := Prod.mk.inj (Option.some.inj h)
  rfl

theorem spares_incr (ov : Overflow) {key : Bytes} (hkey : K key = false) :
    Spares K fun _ m => Reference.incr ov key m := by
  intro now m a n h
  change Reference.incr ov key m = some (a, n) at h
  unfold Reference.incr at h
  split at h
  · obtain ⟨next, -, hset⟩ := Option.bind_eq_some_iff.mp h
    obtain ⟨-, rfl⟩ := Prod.mk.inj (Option.some.inj hset)
    exact part_update_of_not hkey _
  · split at h
    · obtain ⟨-, rfl⟩ := Prod.mk.inj (Option.some.inj h)
      rfl
    · obtain ⟨next, -, hset⟩ := Option.bind_eq_some_iff.mp h
      obtain ⟨-, rfl⟩ := Prod.mk.inj (Option.some.inj hset)
      exact part_update_of_not hkey _

theorem spares_expire (ov : Overflow) {key : Bytes} (hkey : K key = false) (seconds : Nat) :
    Spares K (Reference.expire ov key seconds) := by
  intro now m a n h
  unfold Reference.expire at h
  split at h
  · obtain ⟨-, rfl⟩ := Prod.mk.inj (Option.some.inj h)
    rfl
  · obtain ⟨deadline, -, hset⟩ := Option.bind_eq_some_iff.mp h
    obtain ⟨-, rfl⟩ := Prod.mk.inj (Option.some.inj hset)
    exact part_update_of_not hkey _

theorem keeps_countKeys_spared {keys : Keyspace} {op : Bytes → Keyspace → Bool × Keyspace}
    (names : List Bytes) (h : ∀ key ∈ names, Spares K fun _ m => some (op key m)) :
    Keeps (Shows K keys) (Reference.countKeys op names) (fun _ => True) fun _ => True := by
  induction names with
  | nil => exact Keeps.pure trivial
  | cons key names ih =>
    refine Keeps.bind (keeps_reading (h key (by simp))) fun hit _ => ?_
    exact Keeps.bind (ih fun k hk => h k (List.mem_cons_of_mem _ hk)) fun rest _ =>
      Keeps.pure trivial

/-- **A command that names no key of `K`** leaves them as they are. -/
theorem keeps_execute_spared (ov : Overflow) {c : Command} (hc : c ≠ .save) {keys : Keyspace}
    (hkeys : ∀ key ∈ c.keys, K key = false) :
    Keeps (Shows K keys) (Reference.execute ov c hc) (fun _ => True) fun _ => True := by
  cases c with
  | ping message => cases message <;> exact Keeps.pure trivial
  | echo message => exact Keeps.pure trivial
  | get key =>
    refine Keeps.bind (P := fun _ => True) (keeps_reading (spares_look _)) fun value _ => ?_
    cases value <;> exact Keeps.pure trivial
  | set key value expireAt =>
    have hkey := hkeys key (by simp [Command.keys])
    intro r hr
    refine ⟨⟨hr.mono, ?_⟩, trivial⟩
    show Agree _ (r.clock 0) (part K (Function.update r.keys key _)) (part K keys)
    rw [part_update_of_not hkey]
    exact hr.agree
  | del names =>
    refine Keeps.bind (P := fun _ => True) (keeps_countKeys_spared names fun key hkey => ?_)
      fun removed _ => Keeps.pure trivial
    intro now m a n h
    obtain ⟨-, rfl⟩ := Prod.mk.inj (Option.some.inj h)
    exact part_update_of_not (hkeys key hkey) none
  | «exists» names =>
    exact Keeps.bind (P := fun _ => True) (keeps_countKeys_spared names fun _ _ => spares_look _)
      fun present _ => Keeps.pure trivial
  | incr key =>
    have hkey := hkeys key (by simp [Command.keys])
    refine Keeps.bind (P := fun _ => True) (keeps_reading (spares_incr ov hkey)) fun next _ => ?_
    cases next <;> exact Keeps.pure trivial
  | expire key seconds =>
    have hkey := hkeys key (by simp [Command.keys])
    exact Keeps.bind (P := fun _ => True) (keeps_reading (spares_expire ov hkey seconds))
      fun hit _ => Keeps.pure trivial
  | ttl key =>
    exact Keeps.bind (P := fun _ => True) (keeps_reading (spares_look _))
      fun left _ => Keeps.pure trivial
  | dbSize =>
    exact Keeps.bind (P := fun _ => True) (keeps_reading (spares_look _))
      fun size _ => Keeps.pure trivial
  | save => exact absurd rfl hc
  | command => exact Keeps.pure trivial

/-! ## One exchange -/

/-- Two keyspaces that agree on the keys of `K` when a request is served. -/
def Alike (K : Bytes → Bool) (now : Nat) (m m' : Keyspace) : Prop :=
  Agree Entry.isExpired now (part K m) (part K m')

variable {ov : Overflow} {x : Exchange} {m n m' : Keyspace}

/-- The readings of a request begin and end on one clock. -/
theorem parsedAt_later (ov : Overflow) (request : Resp) (clock : Nat → Nat) :
    Later clock (parsedAt ov request clock).2 := by
  obtain ⟨k, -, hclock⟩ := parse_run ov request { Core.fresh with clock := clock }
  exact ⟨k, hclock⟩

/-- **A request on the keys in `K`** gets its reply from them alone. -/
theorem Reference.Gives.inside (hgives : Reference.Gives ov x m n) (hmono : Monotone x.clock)
    (halike : Alike K (x.clock 0) m m') (htouches : x.touches ov K = true)
    (hkeys : ∀ key ∈ x.keys ov, K key = true) :
    ∃ n', Reference.Gives ov x m' n' ∧ Alike K (x.rest 0) n n' := by
  have hlater := parsedAt_later ov x.request x.clock
  unfold Exchange.touches Exchange.keys at htouches
  unfold Exchange.keys at hkeys
  unfold Reference.Gives at hgives ⊢
  rcases hparsed : parsedAt ov x.request x.clock with ⟨r, clock⟩
  rw [hparsed] at htouches hkeys hgives hlater
  rcases r with stop | c
  · cases htouches
  simp only at htouches hkeys hgives ⊢
  by_cases hc : c = .save
  · subst hc
    cases htouches
  have hsize : c ≠ .dbSize := by
    rintro rfl
    cases htouches
  rw [dif_neg hc] at hgives
  have hsame : SamePart K ⟨m, clock⟩ ⟨m', clock⟩ :=
    ⟨rfl, hlater.mono hmono, halike.mono isExpired_lasting (hlater.le hmono)⟩
  obtain ⟨hres, hafter⟩ := execute_samePart ov hc hsize hkeys _ _ hsame
  rw [hgives] at hres hafter
  rcases hrun : (Reference.execute ov c hc).run ⟨m', clock⟩ with ⟨r, ⟨n', clock'⟩⟩
  rw [hrun] at hres hafter
  obtain rfl : .ok x.reply = r := hres
  obtain rfl : clock' = x.rest := hafter.clock
  refine ⟨n', ?_, hafter.agree⟩
  rw [dif_neg hc]
  exact hrun

/-- **A request on other keys** is not seen in `K`. -/
theorem Reference.Gives.outside (hgives : Reference.Gives ov x m n) (hmono : Monotone x.clock)
    (hrest : Later x.clock x.rest) (halike : Alike K (x.clock 0) m m')
    (htouches : x.touches ov K = false) : Alike K (x.rest 0) n m' := by
  have hlater := parsedAt_later ov x.request x.clock
  unfold Exchange.touches Exchange.keys at htouches
  unfold Reference.Gives at hgives
  rcases hparsed : parsedAt ov x.request x.clock with ⟨r, clock⟩
  rw [hparsed] at htouches hgives hlater
  have hstill : n = m → Alike K (x.rest 0) n m' := by
    rintro rfl
    exact Agree.mono halike isExpired_lasting (hrest.le hmono)
  rcases r with (e | _ | _) | c
  · exact hstill hgives.2
  · exact hgives.elim
  · exact hgives.elim
  simp only at htouches hgives
  by_cases hc : c = .save
  · rw [dif_pos hc] at hgives
    exact hstill hgives.2
  rw [dif_neg hc] at hgives
  have hnames : ∀ key ∈ c.keys, K key = false := by simpa using htouches
  have hpost := keeps_execute_spared ov hc hnames ⟨m, clock⟩
    ⟨hlater.mono hmono, Agree.mono halike isExpired_lasting (hlater.le hmono)⟩
  unfold Post at hpost
  rw [hgives] at hpost
  exact hpost.1.agree

/-! ## Whole histories -/

/-- **The requests on the keys in `K` are served as if there were no others.** -/
theorem Reference.Explains.separated {xs : List Exchange} {clock later : Nat → Nat}
    (hexplains : Reference.Explains ov xs m n) (hclock : OneClock clock xs later)
    (hmono : Monotone clock) (hseparate : Separate ov K xs) (halike : Alike K (clock 0) m m') :
    ∃ n', Reference.Explains ov (xs.filter fun x => x.touches ov K) m' n' ∧
      Alike K (later 0) n n' := by
  induction xs generalizing m m' clock with
  | nil =>
    obtain rfl := hexplains
    exact ⟨m', rfl, Agree.mono halike isExpired_lasting (Later.le hclock hmono)⟩
  | cons x xs ih =>
    obtain ⟨mid, hgives, hrest⟩ := hexplains
    obtain ⟨hfirst, hown, hnext⟩ := hclock
    have hx : Alike K (x.clock 0) m m' := Agree.mono halike isExpired_lasting (hfirst.le hmono)
    have hmono' := hfirst.mono hmono
    have hseparate' : Separate ov K xs := fun y hy => hseparate y (List.mem_cons_of_mem _ hy)
    cases htouches : x.touches ov K with
    | true =>
      obtain ⟨mid', hgives', hmid⟩ := hgives.inside hmono' hx htouches
        (hseparate x (by simp) htouches)
      obtain ⟨n', hexplains', hn⟩ := ih hrest hnext (hown.mono hmono') hseparate' hmid
      refine ⟨n', ?_, hn⟩
      rw [List.filter_cons_of_pos htouches]
      exact ⟨mid', hgives', hexplains'⟩
    | false =>
      have hmid := hgives.outside hmono' hown hx htouches
      obtain ⟨n', hexplains', hn⟩ := ih hrest hnext (hown.mono hmono') hseparate' hmid
      refine ⟨n', ?_, hn⟩
      rw [List.filter_cons_of_neg (by simp [htouches])]
      exact hexplains'

/-- **Clients with keys of their own do not see each other**: in any run in which no request names
keys both in `K` and outside, the replies to the requests on `K`, and what becomes of these keys,
are those of a store that is asked these requests only. -/
theorem clients_separated (ov : Overflow) {core : Core} (hmono : Monotone core.clock)
    (steps : List Step) (K : Bytes → Bool)
    (hseparate : Separate ov K (allExchanges ((Server.start core).log ov steps))) :
    let s := (Server.start core).after ov steps
    ∃ keys, Reference.Explains ov
        ((allExchanges ((Server.start core).log ov steps)).filter fun x => x.touches ov K)
        core.store.view keys ∧
      ∀ key, K key = true → s.core.store.live (s.core.clock 0) key = keys.at (s.core.clock 0) key := by
  intro s
  obtain ⟨-, hround⟩ := start_round ov hmono steps
  obtain ⟨all, hexplains, hlive⟩ := hround.live
  obtain ⟨keys, hpart, halike⟩ :=
    hexplains.separated hround.clock hmono hseparate (Agree.refl : Alike K _ _ core.store.view)
  refine ⟨keys, hpart, fun key hkey => ?_⟩
  have hall : s.core.store.live (s.core.clock 0) key = all.at (s.core.clock 0) key :=
    congrFun hlive key
  unfold Alike Agree at halike
  rw [alive_part, alive_part, ← Keyspace.at_eq, ← Keyspace.at_eq] at halike
  rw [hall]
  exact apply_eq_of_part hkey halike

/-- Two clients, each with a key of its own. -/
def ownKeys : List Step :=
  [.listener [.accepted (.ok ()), .accepted (.ok ())],
    .ready (.delivering 16 (ascii "*2\r\n$4\r\nINCR\r\n$1\r\na\r\n")),
    .ready (.delivering 17 (ascii "*3\r\n$3\r\nSET\r\n$1\r\nb\r\n$1\r\n7\r\n")),
    .ready (.delivering 16 (ascii "*2\r\n$4\r\nINCR\r\n$1\r\na\r\n"))]

theorem ownKeys_separated :
    let s := (Server.start .fresh).after .checked ownKeys
    ∃ keys, Reference.Explains .checked
        ((allExchanges ((Server.start .fresh).log .checked ownKeys)).filter
          fun x => x.touches .checked (· == [97]))
        Core.fresh.store.view keys ∧
      ∀ key, (key == [97]) = true →
        s.core.store.live (s.core.clock 0) key = keys.at (s.core.clock 0) key := by
  refine clients_separated .checked monotone_const ownKeys (· == [97]) ?_
  show ∀ x ∈ allExchanges ((Server.start .fresh).log .checked ownKeys), _
  decide +kernel

end RustFundamentals.Rudis
