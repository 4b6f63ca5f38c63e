import RustFundamentals.Rudis.Requests

/-!
# rudis: what commands reply

Every reply can be sent as one value, with one exception: the error reply that quotes the name
of an unknown command is more than one line where that name has a CR LF (`keeps_respond`).
-/

namespace RustFundamentals.Rudis

open Foundation Foundation.Fs

/-! ## Lines -/

/-- The text is one line: it has no CR LF. -/
def OneLine (text : Str) : Prop := findCrlf text.bytes = none

instance (text : Str) : Decidable (OneLine text) :=
  inferInstanceAs (Decidable (findCrlf text.bytes = none))

/-- Text in front that has no CR takes no part in a CR LF. -/
theorem findCrlf_append_left {pre : Bytes} (h : 13 ∉ pre) (s : Bytes) :
    findCrlf (pre ++ s) = none ↔ findCrlf s = none := by
  rw [findCrlf_eq_none, findCrlf_eq_none, pair_infix_append h]

/-- Text behind that has neither CR nor LF takes no part in a CR LF. -/
theorem findCrlf_append_right {post : Bytes} (hcr : 13 ∉ post) (hlf : 10 ∉ post) (s : Bytes) :
    findCrlf (s ++ post) = none ↔ findCrlf s = none := by
  induction s with
  | nil => simp [findCrlf_of_not_mem hcr, findCrlf]
  | cons b s ih =>
    have hhead : (s ++ post).head? = some 10 ↔ s.head? = some 10 := by
      cases s with
      | nil =>
        simp only [List.nil_append, List.head?_nil, reduceCtorEq, iff_false]
        exact fun hc => hlf (List.mem_of_head? hc)
      | cons c s => simp
    rw [List.cons_append, findCrlf, findCrlf]
    by_cases hb : b = 13 ∧ s.head? = some 10
    · rw [if_pos ⟨hb.1, hhead.mpr hb.2⟩, if_pos hb]
    · have hb' : ¬ (b = 13 ∧ (s ++ post).head? = some 10) := fun hc => hb ⟨hc.1, hhead.mp hc.2⟩
      rw [if_neg hb', if_neg hb, Option.map_eq_none_iff, Option.map_eq_none_iff, ih]

theorem oneLine_append_left {pre : Str} (h : 13 ∉ pre.bytes) (s : Str) :
    OneLine (pre ++ s) ↔ OneLine s := findCrlf_append_left h s.bytes

theorem oneLine_append_right {post : Str} (hcr : 13 ∉ post.bytes) (hlf : 10 ∉ post.bytes)
    (s : Str) : OneLine (s ++ post) ↔ OneLine s := findCrlf_append_right hcr hlf s.bytes

@[simp] theorem oneLine_protocol (msg : Str) :
    OneLine (Error.display (.protocol msg)) ↔ OneLine msg :=
  oneLine_append_left (by decide) msg

@[simp] theorem oneLine_io (text : Str) : OneLine (Error.display (.io text)) ↔ OneLine text :=
  oneLine_append_left (by decide) text

/-- Decoding a name and putting it in upper case neither makes a CR LF nor removes one. -/
theorem oneLine_upper (name : Bytes) :
    OneLine (Str.fromUtf8Lossy name).toAsciiUppercase ↔ ¬ [13, 10] <:+: name := by
  have hfix : ∀ c : UInt8, c < 97 → ¬ (65 ≤ c ∧ c ≤ 90) → ∀ x, c = upperByte x ↔ c = x := by
    intro c hlow hcase x
    unfold upperByte
    split <;> grind
  unfold OneLine
  rw [findCrlf_eq_none]
  show ¬ [13, 10] <:+: (Foundation.fromUtf8Lossy name).map upperByte ↔ _
  rw [pair_infix_map (hfix 13 (by decide) (by decide)) (hfix 10 (by decide) (by decide)),
    pair_infix_fromUtf8Lossy (by decide) (by decide)]

/-! ## Parsing a command -/

/-- The request is an array of byte strings, the name of the command and its arguments. -/
def IsCommand (request : Resp) (name : Bytes) (args : List Bytes) : Prop :=
  request = .array (.bulk name :: args.map Resp.bulk)

/-- A request whose command name has a CR LF. -/
def Injects (request : Resp) : Prop := ∃ name args, IsCommand request name args ∧ [13, 10] <:+: name

theorem bulkArgs_map (args : List Bytes) : bulkArgs (args.map Resp.bulk) = .ok args := by
  induction args with
  | nil => rfl
  | cons arg args ih =>
    rw [List.map_cons, bulkArgs, ih]
    rfl

/-- The arguments are taken out as they are, or the request is refused in one line. -/
theorem bulkArgs_cases (items : List Resp) :
    (∃ args, bulkArgs items = .ok args ∧ items = args.map Resp.bulk) ∨
      ((∃ msg, bulkArgs items = protocolError msg ∧ OneLine msg) ∧
        ∀ args : List Bytes, items ≠ args.map Resp.bulk) := by
  induction items with
  | nil => exact .inl ⟨[], rfl, rfl⟩
  | cons item items ih =>
    have hrefused : (∃ msg, bulkArgs (item :: items) = protocolError msg ∧ OneLine msg) →
        (∃ msg, bulkArgs (item :: items) = protocolError msg ∧ OneLine msg) ∧
          ∀ args : List Bytes, item :: items ≠ args.map Resp.bulk := by
      intro h
      refine ⟨h, fun args hargs => ?_⟩
      obtain ⟨msg, hmsg, -⟩ := h
      rw [hargs, bulkArgs_map] at hmsg
      cases hmsg
    cases item with
    | bulk bytes =>
      obtain ⟨args, hok, hargs⟩ | ⟨⟨msg, hmsg, hline⟩, -⟩ := ih
      · refine .inl ⟨bytes :: args, ?_, by rw [hargs]; rfl⟩
        rw [bulkArgs, hok]
        rfl
      · refine .inr (hrefused ⟨msg, ?_, hline⟩)
        rw [bulkArgs, hmsg]
        rfl
    | simple | error | integer | null | array =>
      exact .inr (hrefused ⟨_, rfl, by decide⟩)

theorem argsOf_of_isCommand {request : Resp} {name : Bytes} {args : List Bytes}
    (h : IsCommand request name args) : argsOf request = .ok (name, args) := by
  rw [h]
  show (bulkArgs (List.map Resp.bulk (name :: args)) >>= _) = _
  rw [bulkArgs_map]
  rfl

/-- A request is a command, or it is refused in one line. -/
theorem argsOf_cases (request : Resp) :
    (∃ name args, argsOf request = .ok (name, args) ∧ IsCommand request name args) ∨
      ((∃ msg, argsOf request = protocolError msg ∧ OneLine msg) ∧
        ∀ name args, ¬ IsCommand request name args) := by
  have hrefused : ∀ msg, argsOf request = protocolError msg → OneLine msg →
      (∀ name args, ¬ IsCommand request name args) →
      (∃ msg, argsOf request = protocolError msg ∧ OneLine msg) ∧
        ∀ name args, ¬ IsCommand request name args :=
    fun msg hmsg hline hnot => ⟨⟨msg, hmsg, hline⟩, hnot⟩
  cases request with
  | array items =>
    obtain ⟨args, hok, hitems⟩ | ⟨⟨msg, hmsg, hline⟩, hnot⟩ := bulkArgs_cases items
    · subst hitems
      cases args with
      | nil => exact .inr (hrefused _ rfl (by decide) fun name args hc => by cases hc)
      | cons name args => exact .inl ⟨name, args, argsOf_of_isCommand rfl, rfl⟩
    · have hrun : argsOf (.array items) = protocolError msg := by
        show (bulkArgs items >>= _) = _
        rw [hmsg]
        rfl
      refine .inr (hrefused msg hrun hline fun name args hc => ?_)
      exact hnot (name :: args) (Resp.array.inj hc)
  | simple | error | integer | bulk | null =>
    exact .inr (hrefused _ rfl (by decide) fun _ _ hc => by cases hc)

/-- The byte strings a command may store or send back. -/
def Command.held : Command → List Bytes
  | .ping message => message.toList
  | .echo message => [message]
  | .set _ value _ => [value]
  | _ => []

/-- What parsing a command may come to: a command that holds no more than its arguments, or an
error whose text is one line if the name is. -/
def ParsedAs (name : Str) (args : List Bytes) : Except (Stop Error) Command → Prop
  | .ok c => OneLine name ∧ ∀ b ∈ c.held, b ∈ args
  | .error (.err e) => OneLine e.display ↔ OneLine name
  | .error _ => True

section ParsedAs

variable {name : Str} {args : List Bytes} {complaint : Str}

/-- A refusal in one line, of a name that is one. -/
theorem ParsedAs.refused {msg : Str} (hname : OneLine name) (hmsg : OneLine msg) :
    ParsedAs name args (.error (.err (.protocol msg))) :=
  iff_of_true ((oneLine_protocol msg).mpr hmsg) hname

theorem parsed_oneArg (hname : OneLine name) (hc : OneLine complaint) {f : Bytes → Command}
    (hf : ∀ arg, ∀ b ∈ (f arg).held, b = arg) :
    ParsedAs name args (f <$> Command.oneArg args complaint) := by
  match args with
  | [arg] => exact ⟨hname, fun b hb => by simp [hf arg b hb]⟩
  | [] => exact ParsedAs.refused hname hc
  | _ :: _ :: _ => exact ParsedAs.refused hname hc

theorem parsed_someKeys (hname : OneLine name) (hc : OneLine complaint)
    {f : List Bytes → Command} (hf : ∀ keys, (f keys).held = []) :
    ParsedAs name args (f <$> Command.someKeys args complaint) := by
  cases args with
  | nil => exact ParsedAs.refused hname hc
  | cons key keys => exact ⟨hname, fun b hb => by simp [hf] at hb⟩

theorem parsed_amount (hname : OneLine name) (hc : OneLine complaint) {arg : Bytes}
    {f : Nat → Command} (hf : ∀ n, (f n).held = []) :
    ParsedAs name args (f <$> Command.amount arg complaint) := by
  unfold Command.amount
  split
  · exact ⟨hname, fun b hb => by simp [hf] at hb⟩
  · exact ParsedAs.refused hname hc

end ParsedAs

/-- The clock has moved on; the store and the files are as they were. -/
def Unchanged (core core' : Core) : Prop :=
  core'.store = core.store ∧ core'.fileCalls = core.fileCalls

theorem parsed_ofExcept {name : Str} {args : List Bytes} {x : Except (Stop Error) Command}
    (h : ParsedAs name args x) (core : Core) :
    Post (ofExcept x) core fun r core' => Unchanged core core' ∧ ParsedAs name args r := by
  rw [Post_ofExcept]
  exact ⟨⟨rfl, rfl⟩, h⟩

theorem parseSet_spec (ov : Overflow) {name : Str} (hname : OneLine name) (args : List Bytes)
    (core : Core) :
    Post (Command.parseSet ov args) core fun r core' =>
      Unchanged core core' ∧ ParsedAs name args r := by
  match args with
  | [key, value] => exact ⟨⟨rfl, rfl⟩, hname, by simp [Command.held]⟩
  | [key, value, unit, arg] =>
    have hdeadline : ∀ (deadline : Option Nat) (after : Core), Unchanged core after →
        Post (orPanic deadline >>= fun t => pure (.set key value (some t))) after fun r core' =>
          Unchanged core core' ∧ ParsedAs name [key, value, unit, arg] r := by
      intro deadline after hafter
      cases deadline with
      | none => exact ⟨hafter, trivial⟩
      | some t => exact ⟨hafter, hname, by simp [Command.held]⟩
    simp only [Command.parseSet, Post_bind, Post_ofExcept]
    cases hamount : Command.amount arg (Str.lit "invalid SET expiry amount") with
    | error stop =>
      have hrefused : ParsedAs name [key, value, unit, arg] ((fun _ => .dbSize) <$>
          Command.amount arg (Str.lit "invalid SET expiry amount")) :=
        parsed_amount hname (by decide) fun _ => rfl
      rw [hamount] at hrefused
      exact ⟨⟨rfl, rfl⟩, hrefused⟩
    | ok amount =>
      -- the clock is read before either sum
      have hread : ∀ f : Nat → Option Nat,
          Post (nowMs >>= fun now => orPanic (f now) >>= fun t => pure (.set key value (some t)))
            core fun r core' =>
              Unchanged core core' ∧ ParsedAs name [key, value, unit, arg] r := by
        intro f
        rw [Post_bind, Post_nowMs]
        exact hdeadline _ _ ⟨rfl, rfl⟩
      apply Post_ite
      · intro _
        exact hread _
      intro _
      apply Post_ite
      · intro _
        exact hread _
      intro _
      exact ⟨⟨rfl, rfl⟩, ParsedAs.refused hname (by decide)⟩
  | [] | [_] | [_, _, _] | _ :: _ :: _ :: _ :: _ :: _ =>
    exact ⟨⟨rfl, rfl⟩, ParsedAs.refused hname (by decide)⟩

/-- The name is looked at in full; only the last refusal quotes it. -/
theorem parseNamed_spec (ov : Overflow) (name : Str) (args : List Bytes) (core : Core) :
    Post (Command.parseNamed ov name args) core fun r core' =>
      Unchanged core core' ∧ ParsedAs name args r := by
  have hknown : ∀ {known : Str}, name = known → OneLine known → OneLine name :=
    fun h hk => h ▸ hk
  unfold Command.parseNamed
  -- PING
  apply Post_ite
  · intro hname
    refine ⟨⟨rfl, rfl⟩, hknown hname (by decide), fun b hb => ?_⟩
    exact List.mem_of_mem_head? (Option.mem_toList.mp hb)
  intro _
  -- ECHO, GET, INCR, TTL
  apply Post_ite
  · intro hname
    exact parsed_ofExcept (parsed_oneArg (hknown hname (by decide)) (by decide)
      fun arg b hb => by simpa [Command.held] using hb) core
  intro _
  iterate 3
    apply Post_ite
    · intro hname
      exact parsed_ofExcept (parsed_oneArg (hknown hname (by decide)) (by decide)
        fun arg b hb => by simp [Command.held] at hb) core
    intro _
  -- DEL, EXISTS
  iterate 2
    apply Post_ite
    · intro hname
      exact parsed_ofExcept (parsed_someKeys (hknown hname (by decide)) (by decide)
        fun _ => rfl) core
    intro _
  -- EXPIRE
  apply Post_ite
  · intro hname
    have hline := hknown hname (by decide)
    match args with
    | [key, seconds] =>
      exact parsed_ofExcept (parsed_amount hline (by decide) fun _ => rfl) core
    | [] | [_] | _ :: _ :: _ :: _ => exact ⟨⟨rfl, rfl⟩, ParsedAs.refused hline (by decide)⟩
  intro _
  -- SET
  apply Post_ite
  · intro hname
    exact parseSet_spec ov (hknown hname (by decide)) args core
  intro _
  -- DBSIZE, SAVE, COMMAND
  iterate 3
    apply Post_ite
    · intro hname
      exact ⟨⟨rfl, rfl⟩, hknown hname (by decide), fun b hb => by cases hb⟩
    intro _
  refine ⟨⟨rfl, rfl⟩, ?_⟩
  show OneLine (Error.display _) ↔ OneLine name
  rw [oneLine_protocol, oneLine_append_right (by decide) (by decide),
    oneLine_append_left (by decide)]

/-- **Parsing a request**: a command holds no more than the arguments of the request, and the
text of an error is one line unless the request injects. -/
theorem parse_spec (ov : Overflow) (request : Resp) (core : Core) :
    Post (Command.parse ov request) core fun r core' => Unchanged core core' ∧
      match r with
      | .ok c => ¬ Injects request ∧
          ∃ name args, IsCommand request name args ∧ ∀ b ∈ c.held, b ∈ args
      | .error (.err e) => OneLine e.display ↔ ¬ Injects request
      | .error _ => True := by
  unfold Command.parse
  rw [Post_bind, Post_ofExcept]
  obtain ⟨name, args, hok, hcommand⟩ | ⟨⟨msg, hmsg, hline⟩, hnot⟩ := argsOf_cases request
  · have hinj : OneLine (Str.fromUtf8Lossy name).toAsciiUppercase ↔ ¬ Injects request := by
      rw [oneLine_upper, not_iff_not]
      constructor
      · exact fun h => ⟨name, args, hcommand, h⟩
      · intro ⟨name', args', hcommand', h⟩
        have heq := Resp.array.inj (hcommand.symm.trans hcommand')
        obtain rfl := Resp.bulk.inj (List.cons.inj heq).1
        exact h
    rw [hok]
    apply (parseNamed_spec ov _ args core).mono
    intro r core' ⟨hsame, hparsed⟩
    refine ⟨hsame, ?_⟩
    rcases r with (e | _ | _) | c
    · exact hparsed.trans hinj
    · trivial
    · trivial
    · exact ⟨hinj.mp hparsed.1, name, args, hcommand, hparsed.2⟩
  · rw [hmsg]
    refine ⟨⟨rfl, rfl⟩, ?_⟩
    show OneLine (Error.display (.protocol msg)) ↔ _
    rw [oneLine_protocol]
    exact iff_of_true hline fun ⟨name, args, hcommand, _⟩ => hnot name args hcommand

/-! ## Running a command -/

/-- The bytes fit in memory, as those of every `Vec` do. -/
def InMemory (bytes : Bytes) : Prop := bytes.length ≤ isizeMax

/-- What the replies rest on: the values of the store fit in memory, and the texts of the
operating system's errors are one line. -/
structure Core.Tame (core : Core) : Prop where
  values : ∀ key e, core.store.map.lookup key = some e → InMemory e.value
  failures : ∀ i stored text, core.fileCalls i = .failed stored text → OneLine text

namespace Store

/-- Every value of the store fits in memory. -/
def Values (s : Store) : Prop := ∀ key e, s.map.lookup key = some e → InMemory e.value

theorem Values.erase {s : Store} (h : s.Values) (key : Bytes) :
    Values { s with map := s.map.erase key } := by
  intro k e he
  by_cases hk : k = key
  · subst hk
    rw [AList.lookup_erase] at he
    cases he
  · rw [AList.lookup_erase_ne hk] at he
    exact h k e he

theorem Values.insert {s : Store} (h : s.Values) (key : Bytes) {e : Entry} (he : InMemory e.value) :
    Values { s with map := s.map.insert key e } := by
  intro k x hx
  by_cases hk : k = key
  · subst hk
    rw [AList.lookup_insert] at hx
    obtain rfl := Option.some.inj hx
    exact he
  · rw [AList.lookup_insert_ne hk] at hx
    exact h k x hx

theorem Values.get {s : Store} (h : s.Values) (key : Bytes) (now : Nat) :
    (s.get key now).2.Values ∧ ∀ value, (s.get key now).1 = some value → InMemory value := by
  unfold Store.get
  split
  · rename_i e he
    split
    · exact ⟨h.erase key, fun _ hv => by cases hv⟩
    · exact ⟨h, fun value hv => Option.some.inj hv ▸ h key e he⟩
  · exact ⟨h, fun _ hv => by cases hv⟩

/-- The text of a counter is short. -/
theorem inMemory_decimalInt {i : Int} (h : IsI64 i) : InMemory (decimalInt i) := by
  have hlen : (decimalInt i).length ≤ 19 + 1 := by
    apply decimalInt_length_le (by decide)
    unfold IsI64 at h
    omega
  unfold InMemory isizeMax
  omega

theorem Values.incr {ov : Overflow} {s s' : Store} (h : s.Values) {key : Bytes} {now : Nat}
    {r : Except Unit Int} (hrun : s.incr ov key now = some (r, s')) :
    s'.Values ∧ ∀ next, r = .ok next → IsI64 next := by
  unfold Store.incr at hrun
  simp only at hrun
  split at hrun
  · obtain ⟨rfl, rfl⟩ := Prod.mk.inj (Option.some.inj hrun)
    exact ⟨h, fun _ hr => by cases hr⟩
  · rename_i current _
    cases hfit : ov.fitInt 64 (current + 1) with
    | none => rw [hfit] at hrun; cases hrun
    | some next =>
      rw [hfit] at hrun
      obtain ⟨rfl, rfl⟩ := Prod.mk.inj (Option.some.inj hrun)
      have hnext := Overflow.isI64_fitInt hfit
      exact ⟨h.insert key (inMemory_decimalInt hnext), fun _ hr => Except.ok.inj hr ▸ hnext⟩

theorem Values.expire {ov : Overflow} {s s' : Store} (h : s.Values) {key : Bytes}
    {seconds now : Nat} {hit : Bool} (hrun : s.expire ov key seconds now = some (hit, s')) :
    s'.Values := by
  unfold Store.expire at hrun
  split at hrun
  · rename_i e he
    split at hrun
    · obtain ⟨rfl, rfl⟩ := Prod.mk.inj (Option.some.inj hrun)
      exact h
    · cases hfit : deadlineAfter ov now seconds 1000 with
      | none => rw [hfit] at hrun; cases hrun
      | some deadline =>
        rw [hfit] at hrun
        obtain ⟨rfl, rfl⟩ := Prod.mk.inj (Option.some.inj hrun)
        exact h.insert key (h key e he)
  · obtain ⟨rfl, rfl⟩ := Prod.mk.inj (Option.some.inj hrun)
    exact h

theorem Values.ttl {ov : Overflow} {s s' : Store} (h : s.Values) {key : Bytes} {now : Nat}
    {left : Int} (hrun : s.ttl ov key now = some (left, s')) : s'.Values ∧ IsI64 left := by
  have hsame : ∀ {i : Int}, IsI64 i → some (i, s) = some (left, s') → s'.Values ∧ IsI64 left := by
    intro i hi hrun
    obtain ⟨rfl, rfl⟩ := Prod.mk.inj (Option.some.inj hrun)
    exact ⟨h, hi⟩
  unfold Store.ttl at hrun
  split at hrun
  · split at hrun
    · exact hsame (by decide) hrun
    split at hrun
    · obtain ⟨d, -, hd⟩ := Option.map_eq_some_iff.mp hrun
      exact hsame (isI64_castI64 (d / 1000)) (congrArg some hd)
    · exact hsame (by decide) hrun
  · exact hsame (by decide) hrun

end Store

/-- An operation of the store keeps the values small. -/
theorem keeps_timed {ε α : Type} {op : Nat → Store → Option (α × Store)} {P : α → Prop}
    {E : ε → Prop} (h : ∀ now s a s', s.Values → op now s = some (a, s') → s'.Values ∧ P a) :
    Keeps Core.Tame (timed op) P E := by
  intro core hcore
  rw [Post, timed_run]
  cases hop : op (core.clock 0) core.store with
  | none => exact ⟨⟨hcore.values, hcore.failures⟩, trivial⟩
  | some x =>
    obtain ⟨hvalues, ha⟩ := h _ _ x.1 x.2 hcore.values hop
    exact ⟨⟨hvalues, hcore.failures⟩, ha⟩

/-- An operation that leaves the store and answers in 64 bits. -/
theorem keeps_countKeys {op : Bytes → Nat → Store → Bool × Store}
    (h : ∀ key now s, s.Values → (op key now s).2.Values) (keys : List Bytes) :
    Keeps Core.Tame (Command.countKeys op keys) (fun _ => True) fun _ => True := by
  induction keys with
  | nil => exact Keeps.pure trivial
  | cons key keys ih =>
    refine Keeps.bind (P := fun _ => True) (keeps_timed ?_) fun hit _ => ?_
    · intro now s a s' hs hop
      obtain ⟨-, rfl⟩ := Prod.mk.inj (Option.some.inj hop)
      exact ⟨h key now s hs, trivial⟩
    · exact Keeps.bind ih fun rest _ => Keeps.pure trivial

theorem keeps_fileCall (path : Path) (onDone : Option Bytes → Option Bytes)
    (onFailed : Nat → Option Bytes → Option Bytes) :
    Keeps Core.Tame (fileCall path onDone onFailed) (fun _ => True)
      fun e => OneLine e.display := by
  intro core hcore
  unfold fileCall
  rw [Post_bind, Post_get]
  simp only
  split
  · exact ⟨⟨hcore.values, fun i => hcore.failures (i + 1)⟩, trivial⟩
  · rename_i stored text hcall
    refine ⟨⟨hcore.values, fun i => hcore.failures (i + 1)⟩, ?_⟩
    exact (oneLine_io text).mpr (hcore.failures 0 stored text hcall)

/-- What a save complains of is one line. -/
theorem keeps_save (path : Path) :
    Keeps Core.Tame (Persistence.save path) (fun _ => True) fun e => OneLine e.display := by
  refine Keeps.bind (P := fun _ => True) ?_ fun now _ => ?_
  · exact fun core hcore => ⟨⟨hcore.values, hcore.failures⟩, trivial⟩
  refine Keeps.bind (P := fun _ => True) (fun core hcore => ⟨hcore, trivial⟩) fun core _ => ?_
  refine Keeps.bind (keeps_fileCall path _ _) fun _ _ => ?_
  refine Keeps.bind (keeps_fileCall path _ _) fun _ _ => ?_
  exact keeps_fileCall path _ _

/-- **Every reply of a command can be sent.** -/
theorem keeps_execute (ov : Overflow) (c : Command) (hc : ∀ b ∈ c.held, InMemory b) :
    Keeps Core.Tame (c.execute ov) Resp.Sendable fun _ => True := by
  cases c with
  | ping message =>
    cases message with
    | none => exact Keeps.pure (by decide : OneLine (Str.lit "PONG"))
    | some message => exact Keeps.pure (hc message (by simp [Command.held]))
  | echo message => exact Keeps.pure (hc message (by simp [Command.held]))
  -- a value that is read was stored, and what is stored fits in memory
  | get key =>
    refine Keeps.bind (P := fun value => ∀ v, value = some v → InMemory v) (keeps_timed ?_)
      fun value hvalue => ?_
    · intro now s a s' hs hop
      obtain ⟨rfl, rfl⟩ := Prod.mk.inj (Option.some.inj hop)
      exact Store.Values.get hs key now
    · cases value with
      | none => exact Keeps.pure trivial
      | some value => exact Keeps.pure (hvalue value rfl)
  | set key value expireAt =>
    intro core hcore
    refine ⟨⟨?_, hcore.failures⟩, (by decide : OneLine (Str.lit "OK"))⟩
    exact Store.Values.insert hcore.values key (hc value (by simp [Command.held]))
  | del keys =>
    refine Keeps.bind (keeps_countKeys ?_ keys) fun removed _ => Keeps.pure (isI64_castI64 removed)
    exact fun key now s hs => hs.erase key
  | «exists» keys =>
    refine Keeps.bind (keeps_countKeys ?_ keys) fun present _ => Keeps.pure (isI64_castI64 present)
    exact fun key now s hs => (hs.get key now).1
  | incr key =>
    refine Keeps.bind (P := fun r => ∀ next, r = .ok next → IsI64 next)
      (keeps_timed fun now s a s' hs hop => hs.incr hop) fun next hnext => ?_
    cases next with
    | error _ =>
      exact Keeps.pure
        (by decide : OneLine (Str.lit "ERR value is not an integer or out of range"))
    | ok next => exact Keeps.pure (hnext next rfl)
  | expire key seconds =>
    refine Keeps.bind (P := fun _ => True)
      (keeps_timed fun now s a s' hs hop => ⟨hs.expire hop, trivial⟩) fun hit _ => ?_
    cases hit <;> exact Keeps.pure (by decide : IsI64 _)
  | ttl key =>
    exact Keeps.bind (keeps_timed fun now s a s' hs hop => hs.ttl hop) fun left hleft =>
      Keeps.pure hleft
  | dbSize =>
    refine Keeps.bind (P := fun _ => True) (keeps_timed ?_) fun size _ =>
      Keeps.pure (isI64_castI64 size)
    intro now s a s' hs hop
    obtain ⟨-, rfl⟩ := Prod.mk.inj (Option.some.inj hop)
    exact ⟨hs, trivial⟩
  | save =>
    refine Keeps.bind (P := fun _ => True) (fun core hcore => ⟨hcore, trivial⟩) fun core _ => ?_
    cases core.store.snapshotPath with
    | none => exact Keeps.pure (by decide : OneLine (Str.lit "ERR persistence is not configured"))
    | some path =>
      refine Keeps.bind (Keeps.attempt (keeps_save path)) fun r hr => ?_
      cases r with
      | ok _ => exact Keeps.pure (by decide : OneLine (Str.lit "OK"))
      | error e => exact Keeps.pure ((oneLine_append_left (by decide) e.display).mpr hr)
  | command => exact Keeps.pure ⟨by decide, trivial⟩

/-! ## Replying -/

/-- Every byte string of the request fits in memory. -/
def RequestFits (request : Resp) : Prop :=
  ∀ name args, IsCommand request name args → ∀ arg ∈ args, InMemory arg

/-- What is wrong with the reply to a request that injects. -/
def Broken (reply : Resp) : Prop := ∃ text, reply = .error text ∧ ¬ OneLine text

/-- A reply can be sent as one value, unless the request injects: then it is an error whose text
is more than one line. -/
theorem keeps_respond (ov : Overflow) {request : Resp} (hfits : RequestFits request) :
    Keeps Core.Tame (respond ov request)
      (fun reply => (¬ Injects request ∧ reply.Sendable) ∨ (Injects request ∧ Broken reply))
      fun _ => True := by
  have hparse : Keeps Core.Tame (Command.parse ov request)
      (fun c => ¬ Injects request ∧ ∀ b ∈ c.held, InMemory b)
      fun e => OneLine e.display ↔ ¬ Injects request := by
    intro core hcore
    apply (parse_spec ov request core).mono
    intro r core' ⟨⟨hstore, hcalls⟩, hr⟩
    refine ⟨⟨by rw [hstore]; exact hcore.values, by rw [hcalls]; exact hcore.failures⟩, ?_⟩
    rcases r with (e | _ | _) | c
    · exact hr
    · trivial
    · trivial
    · obtain ⟨hinj, name, args, hcommand, hheld⟩ := hr
      exact ⟨hinj, fun b hb => hfits name args hcommand b (hheld b hb)⟩
  refine Keeps.bind (Keeps.attempt hparse) fun r hr => ?_
  cases r with
  | ok c => exact (keeps_execute ov c hr.2).mono (fun v hv => .inl ⟨hr.1, hv⟩) fun _ _ => trivial
  | error e =>
    have htext : OneLine (Str.lit "ERR " ++ e.display) ↔ ¬ Injects request := by
      rw [oneLine_append_left (by decide)]
      exact hr
    refine Keeps.pure ?_
    by_cases hinj : Injects request
    · exact .inr ⟨hinj, _, rfl, fun h => htext.mp h hinj⟩
    · exact .inl ⟨hinj, htext.mpr hinj⟩

end RustFundamentals.Rudis
