import RustFundamentals.Aprobe.Target

/-!
# aprobe: the grammar of targets

A token is a port or a range of ports, and covers them; one that is neither has an error of its
own. A target has the ports its tokens cover and no order of them, so tokens may be permuted, be
repeated, and be written differently, as long as they cover the same (`parse_target_grammar`).
-/

namespace RustFundamentals.Aprobe

open Foundation

/-! ## Tokens -/

/-- A `u16` literal. -/
def Literal (s : Text) (n : Nat) : Prop := parseInt 0 65535 s = .ok (n : Int)

/-- A token, and the first and the last of its ports. -/
inductive Token : Text → Nat → Nat → Prop
  | port {s : Text} {n : Nat} : Literal s n → Token s n n
  | range {s t : Text} {m n : Nat} : Literal s m → Literal t n → m ≤ n → Token (s ++ '-' :: t) m n

/-- Text that is no token, and its error. -/
inductive Offends : Text → TargetError → Prop
  | emptyRange {s t : Text} {m n : Nat} : Literal s m → Literal t n → n < m →
    Offends (s ++ '-' :: t) (.emptyRange m n)
  | badPort {token : Text} : (∀ n, ¬ Literal token n) →
    (∀ s t m n, token = s ++ '-' :: t → Literal s m → ¬ Literal t n) →
    Offends token (.badPort token)

theorem Literal.chars {s : Text} {n : Nat} (h : Literal s n) :
    s ≠ [] ∧ ∀ c ∈ s, c.isDigit = true ∨ c = '+' := (parseInt_unsigned h (by decide)).2.2

/-- A literal has none of the separators. -/
theorem Literal.not_mem {s : Text} {n : Nat} (h : Literal s n) {sep : Char}
    (hsep : sep.isDigit = false ∧ sep ≠ '+') : sep ∉ s := by
  intro hmem
  rcases h.chars.2 sep hmem with hdigit | hplus
  · rw [hsep.1] at hdigit
    cases hdigit
  · exact hsep.2 hplus

theorem Literal.unique {s : Text} {m n : Nat} (hm : Literal s m) (hn : Literal s n) : m = n := by
  unfold Literal at hm hn
  rw [hm] at hn
  exact_mod_cast Except.ok.inj hn

theorem parsePort_cases (token s : Text) :
    (∃ n, Literal s n ∧ parsePort token s = .ok n) ∨
      (∀ n, ¬ Literal s n) ∧ parsePort token s = .error (.badPort token) := by
  unfold parsePort
  cases hparse : parseInt 0 65535 s with
  | ok i =>
    obtain ⟨n, rfl⟩ := Int.eq_ofNat_of_zero_le (parseInt_unsigned hparse (by decide)).1
    exact .inl ⟨n, hparse, rfl⟩
  | error e =>
    refine .inr ⟨?_, rfl⟩
    intro n hn
    rw [Literal, hparse] at hn
    cases hn

/-- A token with a dash is no literal. -/
theorem not_literal_of_dash {s t : Text} {n : Nat} : ¬ Literal (s ++ '-' :: t) n := by
  intro h
  have hdash : '-' ∉ s ++ '-' :: t := h.not_mem ⟨rfl, by decide⟩
  exact hdash (by simp)

/-- A dash that follows a text without one is the first. -/
theorem dash_unique {s t s' t' : Text} (hs : '-' ∉ s) (hs' : '-' ∉ s')
    (h : s ++ '-' :: t = s' ++ '-' :: t') : s = s' ∧ t = t' := by
  have hsplit := Text.splitOnce_append hs t
  rw [h, Text.splitOnce_append hs' t'] at hsplit
  obtain ⟨rfl, rfl⟩ := Prod.mk.inj (Option.some.inj hsplit)
  exact ⟨rfl, rfl⟩

/-- **A token is read as the ports it covers**; what is none gives its error. -/
theorem tokenPorts_cases (token : Text) :
    (∃ m n, Token token m n ∧ tokenPorts token = .ok (List.range' m (n - m + 1))) ∨
      ∃ e, Offends token e ∧ tokenPorts token = .error e := by
  unfold tokenPorts
  rcases Text.splitOnce_cases '-' token with ⟨s, t, rfl, hs, hsplit⟩ | ⟨hdash, hsplit⟩
  · rw [hsplit]
    -- a range, whose start ends at the first dash
    have hbad : (∀ m, ¬ Literal s m) ∨ (∀ n, ¬ Literal t n) →
        Offends (s ++ '-' :: t) (.badPort (s ++ '-' :: t)) := by
      intro hnot
      refine .badPort (fun n => not_literal_of_dash) ?_
      intro s' t' m n heq hs' ht'
      obtain ⟨rfl, rfl⟩ := dash_unique hs (hs'.not_mem ⟨rfl, by decide⟩) heq
      rcases hnot with hnot | hnot
      · exact hnot m hs'
      · exact hnot n ht'
    rcases parsePort_cases (s ++ '-' :: t) s with ⟨m, hm, hparse⟩ | ⟨hnot, hparse⟩
    · rcases parsePort_cases (s ++ '-' :: t) t with ⟨n, hn, hparse'⟩ | ⟨hnot, hparse'⟩
      · by_cases hle : n < m
        · refine .inr ⟨_, .emptyRange hm hn hle, ?_⟩
          simp only [hparse, hparse']
          exact if_pos hle
        · refine .inl ⟨m, n, .range hm hn (not_lt.mp hle), ?_⟩
          simp only [hparse, hparse']
          exact if_neg hle
      · refine .inr ⟨_, hbad (.inr hnot), ?_⟩
        simp only [hparse, hparse']
        rfl
    · refine .inr ⟨_, hbad (.inl hnot), ?_⟩
      simp only [hparse]
      rfl
  · rw [hsplit]
    rcases parsePort_cases token token with ⟨n, hn, hparse⟩ | ⟨hnot, hparse⟩
    · refine .inl ⟨n, n, .port hn, ?_⟩
      simp only [hparse]
      rw [Nat.sub_self]
      rfl
    · refine .inr ⟨_, .badPort hnot ?_, ?_⟩
      · rintro s t m n rfl
        exact absurd (by simp) hdash
      · simp only [hparse]
        rfl

theorem Literal.parsePort {s : Text} {n : Nat} (h : Literal s n) (token : Text) :
    parsePort token s = .ok n := by
  rcases parsePort_cases token s with ⟨m, hm, hparse⟩ | ⟨hnot, -⟩
  · rw [hparse, hm.unique h]
  · exact absurd h (hnot n)

theorem Token.tokenPorts {token : Text} {m n : Nat} (h : Token token m n) :
    tokenPorts token = .ok (List.range' m (n - m + 1)) := by
  unfold Aprobe.tokenPorts
  cases h with
  | port hs =>
    rw [Text.splitOnce_none (hs.not_mem ⟨rfl, by decide⟩)]
    simp only [hs.parsePort]
    rw [Nat.sub_self]
    rfl
  | range hs ht hle =>
    rw [Text.splitOnce_append (hs.not_mem ⟨rfl, by decide⟩)]
    simp only [hs.parsePort, ht.parsePort]
    exact if_neg (not_lt.mpr hle)

theorem Offends.tokenPorts {token : Text} {e : TargetError} (h : Offends token e) :
    tokenPorts token = .error e := by
  cases h with
  | emptyRange hs ht hlt =>
    unfold Aprobe.tokenPorts
    rw [Text.splitOnce_append (hs.not_mem ⟨rfl, by decide⟩)]
    simp only [hs.parsePort, ht.parsePort]
    exact if_pos hlt
  | badPort hport hrange =>
    rcases tokenPorts_cases token with ⟨m, n, htoken, -⟩ | ⟨e, hoffends, heval⟩
    · cases htoken with
      | port hs => exact absurd hs (hport m)
      | range hs ht _ => exact absurd ht (hrange _ _ _ _ rfl hs)
    · cases hoffends with
      | emptyRange hs ht _ => exact absurd ht (hrange _ _ _ _ rfl hs)
      | badPort _ _ => exact heval

theorem Token.not_offends {token : Text} {m n : Nat} (h : Token token m n) {e : TargetError} :
    ¬ Offends token e := by
  intro hoffends
  have heval := h.tokenPorts
  rw [hoffends.tokenPorts] at heval
  cases heval

theorem Token.le {token : Text} {m n : Nat} (h : Token token m n) : m ≤ n := by
  cases h with
  | port _ => exact le_rfl
  | range _ _ hle => exact hle

theorem mem_range {m n p : Nat} (h : m ≤ n) : p ∈ List.range' m (n - m + 1) ↔ m ≤ p ∧ p ≤ n := by
  rw [List.mem_range'_1]
  omega

/-- A token covers what it covers. -/
theorem Token.covers_unique {token : Text} {m n m' n' : Nat} (h : Token token m n)
    (h' : Token token m' n') (p : Nat) : m ≤ p ∧ p ≤ n ↔ m' ≤ p ∧ p ≤ n' := by
  have heval := h.tokenPorts
  rw [h'.tokenPorts] at heval
  rw [← mem_range h.le, ← mem_range h'.le, Except.ok.inj heval]

/-! ## Token lists -/

/-- All the tokens are tokens. -/
def Valid (tokens : List Text) : Prop := ∀ token ∈ tokens, ∃ m n, Token token m n

/-- A token is the port, or a range that covers it. -/
def Covers (tokens : List Text) (p : Nat) : Prop :=
  ∃ token ∈ tokens, ∃ m n, Token token m n ∧ m ≤ p ∧ p ≤ n

theorem covers_cons {token : Text} {m n : Nat} (h : Token token m n) (tokens : List Text)
    (p : Nat) :
    Covers (token :: tokens) p ↔ (m ≤ p ∧ p ≤ n) ∨ Covers tokens p := by
  refine ⟨?_, ?_⟩
  · rintro ⟨t, ht, m', n', htoken, hp⟩
    rcases List.mem_cons.mp ht with rfl | ht
    · exact .inl ((h.covers_unique htoken p).mpr hp)
    · exact .inr ⟨t, ht, m', n', htoken, hp⟩
  · rintro (hp | ⟨t, ht, hrest⟩)
    · exact ⟨token, List.mem_cons_self, m, n, h, hp⟩
    · exact ⟨t, List.mem_cons_of_mem _ ht, hrest⟩

theorem foldlM_addPorts {tokens : List Text} (h : Valid tokens) (before : List Nat) :
    ∃ ports, (∀ p, p ∈ ports ↔ Covers tokens p) ∧
      tokens.foldlM addPorts before = .ok (before ++ ports) := by
  induction tokens generalizing before with
  | nil =>
    refine ⟨[], fun p => ?_, by rw [List.append_nil]; rfl⟩
    exact ⟨nofun, fun ⟨_, ht, _⟩ => by cases ht⟩
  | cons token tokens ih =>
    obtain ⟨m, n, htoken⟩ := h token List.mem_cons_self
    obtain ⟨ports, hports, hfold⟩ := ih (fun t ht => h t (List.mem_cons_of_mem _ ht))
      (before ++ List.range' m (n - m + 1))
    refine ⟨List.range' m (n - m + 1) ++ ports, ?_, ?_⟩
    · intro p
      rw [List.mem_append, mem_range htoken.le, hports, covers_cons htoken]
    · rw [List.foldlM_cons, addPorts, htoken.tokenPorts, ← List.append_assoc]
      exact hfold

/-- **Tokens are read as the ports they cover.** -/
theorem tokensPorts_valid {tokens : List Text} (h : Valid tokens) :
    ∃ ports, tokensPorts tokens = .ok ports ∧ ∀ p, p ∈ ports ↔ Covers tokens p := by
  obtain ⟨ports, hports, hfold⟩ := foldlM_addPorts h []
  exact ⟨ports, hfold, hports⟩

/-- **The first that is none** gives the error. -/
theorem tokensPorts_offends {before after : List Text} {token : Text} {e : TargetError}
    (h : Valid before) (htoken : Offends token e) :
    tokensPorts (before ++ token :: after) = .error e := by
  obtain ⟨ports, -, hfold⟩ := foldlM_addPorts h []
  rw [tokensPorts, List.foldlM_append, hfold]
  show (token :: after).foldlM addPorts ([] ++ ports) = _
  rw [List.foldlM_cons, addPorts, htoken.tokenPorts]
  rfl

theorem valid_or_offends (tokens : List Text) :
    Valid tokens ∨ ∃ before token after e, tokens = before ++ token :: after ∧ Valid before ∧
      Offends token e := by
  induction tokens with
  | nil => exact .inl nofun
  | cons token tokens ih =>
    rcases tokenPorts_cases token with ⟨m, n, htoken, -⟩ | ⟨e, hoffends, -⟩
    · rcases ih with hvalid | ⟨before, t, after, e, rfl, hbefore, ht⟩
      · exact .inl (List.forall_mem_cons.mpr ⟨⟨m, n, htoken⟩, hvalid⟩)
      · exact .inr ⟨token :: before, t, after, e, rfl,
          List.forall_mem_cons.mpr ⟨⟨m, n, htoken⟩, hbefore⟩, ht⟩
    · exact .inr ⟨[], token, tokens, e, rfl, nofun, hoffends⟩

/-! ## Targets -/

/-- The text at its last colon, with neither side empty. -/
structure Splits (spec host portSpec : Text) : Prop where
  split : spec = host ++ ':' :: portSpec
  last : ':' ∉ portSpec
  host : host ≠ []
  portSpec : portSpec ≠ []

/-- A host, and tokens. -/
def Grammatical (spec : Text) : Prop :=
  ∃ host portSpec, Splits spec host portSpec ∧ Valid (portSpec.splitOn ',')

/-- The text denotes the target: its host, and in ascending order the ports that the tokens
cover. -/
def Denotes (spec : Text) (target : Target) : Prop :=
  ∃ portSpec, Splits spec target.host portSpec ∧ Valid (portSpec.splitOn ',') ∧
    target.ports.Pairwise (· < ·) ∧ ∀ p, p ∈ target.ports ↔ Covers (portSpec.splitOn ',') p

/-- The text is no target: it does not split, or the error is that of the leftmost token that is
none. -/
inductive Faulty : Text → TargetError → Prop
  | missing {spec : Text} : (∀ host portSpec, ¬ Splits spec host portSpec) →
    Faulty spec .missingHostOrPorts
  | token {spec host portSpec token : Text} {before after : List Text} {e : TargetError} :
    Splits spec host portSpec → portSpec.splitOn ',' = before ++ token :: after →
    Valid before → Offends token e → Faulty spec e

theorem Splits.parseTarget {spec host portSpec : Text} (h : Splits spec host portSpec) :
    parseTarget spec =
      (tokensPorts (portSpec.splitOn ',')).map fun ports => ⟨host, sortDedup ports⟩ := by
  obtain ⟨rfl, hlast, hhost, hports⟩ := h
  unfold Aprobe.parseTarget
  rw [Text.rsplitOnce_append host hlast]
  dsimp only
  rw [if_neg (by simp [hhost, hports])]
  cases tokensPorts (portSpec.splitOn ',') <;> rfl

theorem Splits.unique {spec host portSpec host' portSpec' : Text} (h : Splits spec host portSpec)
    (h' : Splits spec host' portSpec') : host = host' ∧ portSpec = portSpec' := by
  have hsplit := Text.rsplitOnce_append host h.last
  rw [← h.split, h'.split, Text.rsplitOnce_append host' h'.last] at hsplit
  obtain ⟨rfl, rfl⟩ := Prod.mk.inj (Option.some.inj hsplit)
  exact ⟨rfl, rfl⟩

theorem parseTarget_missing {spec : Text} (h : ∀ host portSpec, ¬ Splits spec host portSpec) :
    parseTarget spec = .error .missingHostOrPorts := by
  unfold parseTarget
  rcases Text.rsplitOnce_cases ':' spec with ⟨host, portSpec, hspec, hlast, hsplit⟩ | ⟨-, hsplit⟩
  · rw [hsplit]
    refine if_pos ?_
    by_contra hboth
    obtain ⟨hhost, hports⟩ := not_or.mp hboth
    exact h host portSpec ⟨hspec, hlast, by simpa using hhost, by simpa using hports⟩
  · rw [hsplit]
    rfl

/-- **A text that denotes a target is parsed to it.** -/
theorem Denotes.parseTarget {spec : Text} {target : Target} (h : Denotes spec target) :
    parseTarget spec = .ok target := by
  obtain ⟨host, ports⟩ := target
  obtain ⟨portSpec, hsplits, hvalid, hascending, hcovers⟩ := h
  obtain ⟨parsed, hparsed, hmem⟩ := tokensPorts_valid hvalid
  have hports : ports = sortDedup parsed := by
    rw [eq_sortDedup_iff]
    refine ⟨hascending, ?_⟩
    intro p
    rw [hmem]
    exact hcovers p
  rw [hsplits.parseTarget, hparsed, hports]
  rfl

/-- **A faulty one to its error.** -/
theorem Faulty.parseTarget {spec : Text} {e : TargetError} (h : Faulty spec e) :
    parseTarget spec = .error e := by
  cases h with
  | missing hnot => exact parseTarget_missing hnot
  | token hsplits htokens hbefore hoffends =>
    rw [hsplits.parseTarget, htokens, tokensPorts_offends hbefore hoffends]
    rfl

/-- Every text denotes a target or is faulty. -/
theorem denotes_or_faulty (spec : Text) :
    (∃ target, Denotes spec target) ∨ ∃ e, Faulty spec e := by
  by_cases hsplit : ∃ host portSpec, Splits spec host portSpec
  · obtain ⟨host, portSpec, hsplits⟩ := hsplit
    rcases valid_or_offends (portSpec.splitOn ',') with hvalid | ⟨_, _, _, e, htokens, hbefore, ht⟩
    · obtain ⟨parsed, -, hmem⟩ := tokensPorts_valid hvalid
      refine .inl ⟨⟨host, sortDedup parsed⟩, portSpec, hsplits, hvalid,
        sortDedup_ascending parsed, ?_⟩
      intro p
      rw [← hmem]
      exact mem_sortDedup
    · exact .inr ⟨e, .token hsplits htokens hbefore ht⟩
  · refine .inr ⟨_, .missing ?_⟩
    intro host portSpec hsplits
    exact hsplit ⟨host, portSpec, hsplits⟩

theorem parseTarget_ok_iff {spec : Text} {target : Target} :
    parseTarget spec = .ok target ↔ Denotes spec target := by
  refine ⟨?_, ?_⟩
  · intro h
    rcases denotes_or_faulty spec with ⟨target', hdenotes⟩ | ⟨e, hfaulty⟩
    · rw [hdenotes.parseTarget] at h
      rwa [← Except.ok.inj h]
    · rw [hfaulty.parseTarget] at h
      cases h
  · exact Denotes.parseTarget

theorem parseTarget_error_iff {spec : Text} {e : TargetError} :
    parseTarget spec = .error e ↔ Faulty spec e := by
  refine ⟨?_, ?_⟩
  · intro h
    rcases denotes_or_faulty spec with ⟨target, hdenotes⟩ | ⟨e', hfaulty⟩
    · rw [hdenotes.parseTarget] at h
      cases h
    · rw [hfaulty.parseTarget] at h
      rwa [← Except.error.inj h]
  · exact Faulty.parseTarget

theorem grammatical_iff {spec : Text} : Grammatical spec ↔ ∃ target, Denotes spec target := by
  refine ⟨?_, ?_⟩
  · rintro ⟨host, portSpec, hsplits, hvalid⟩
    rcases denotes_or_faulty spec with hdenotes | ⟨e, hfaulty⟩
    · exact hdenotes
    · cases hfaulty with
      | missing hnot => exact absurd hsplits (hnot host portSpec)
      | token hsplits' htokens _ hoffends =>
        obtain ⟨-, rfl⟩ := hsplits.unique hsplits'
        rw [htokens] at hvalid
        obtain ⟨m, n, htoken⟩ := hvalid _ (List.mem_append_right _ List.mem_cons_self)
        exact absurd hoffends htoken.not_offends
  · rintro ⟨target, portSpec, hsplits, hvalid, -⟩
    exact ⟨target.host, portSpec, hsplits, hvalid⟩

end RustFundamentals.Aprobe
