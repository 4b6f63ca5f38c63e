import RustFundamentals.Aprobe.TargetGrammar

/-!
# aprobe: targets do not see how their ports are written

Tokens may be permuted and repeated, and a range may be written as its ports: whether the tokens are
valid stays as it was, and so do the ports they cover (`Rewrites.valid_iff`, `Rewrites.covers_iff`).
-/

namespace RustFundamentals.Aprobe

open Foundation

/-- The tokens are written differently. -/
inductive Rewrites : List Text → List Text → Prop
  | permute {tokens tokens' : List Text} : tokens.Perm tokens' → Rewrites tokens tokens'
  | duplicate {token : Text} {tokens : List Text} : token ∈ tokens →
    Rewrites tokens (token :: tokens)
  | expand {range : Text} {m n : Nat} {ports tokens : List Text} : Token range m n →
    List.Forall₂ Literal ports (List.range' m (n - m + 1)) →
    Rewrites (range :: tokens) (ports ++ tokens)
  | trans {tokens tokens' tokens'' : List Text} : Rewrites tokens tokens' →
    Rewrites tokens' tokens'' → Rewrites tokens tokens''

/-! ## What is written -/

theorem covers_append (tokens tokens' : List Text) (p : Nat) :
    Covers (tokens ++ tokens') p ↔ Covers tokens p ∨ Covers tokens' p := by
  unfold Covers
  simp only [List.mem_append, or_and_right, exists_or]

theorem literals_valid {ports : List Text} {ns : List Nat} (h : List.Forall₂ Literal ports ns) :
    Valid ports := by
  induction h with
  | nil => exact nofun
  | cons hport _ ih => exact List.forall_mem_cons.mpr ⟨⟨_, _, .port hport⟩, ih⟩

/-- Literals cover the numbers they are. -/
theorem literals_cover {ports : List Text} {ns : List Nat} (h : List.Forall₂ Literal ports ns)
    (p : Nat) : Covers ports p ↔ p ∈ ns := by
  induction h with
  | nil =>
    refine ⟨?_, ?_⟩
    · rintro ⟨_, ht, -⟩
      cases ht
    · nofun
  | @cons port n ports ns hport _ ih =>
    have hequal : n ≤ p ∧ p ≤ n ↔ p = n := by omega
    rw [covers_cons (.port hport), ih, hequal, List.mem_cons]

theorem Rewrites.valid_iff {tokens tokens' : List Text} (h : Rewrites tokens tokens') :
    Valid tokens ↔ Valid tokens' := by
  induction h with
  | permute hperm => exact ⟨fun h t ht => h t (hperm.mem_iff.mpr ht),
      fun h t ht => h t (hperm.mem_iff.mp ht)⟩
  | duplicate hmem =>
    refine ⟨?_, ?_⟩
    · intro h
      exact List.forall_mem_cons.mpr ⟨h _ hmem, h⟩
    · intro h
      exact (List.forall_mem_cons.mp h).2
  | expand hrange hports =>
    refine ⟨?_, ?_⟩
    · intro h
      exact List.forall_mem_append.mpr ⟨literals_valid hports, (List.forall_mem_cons.mp h).2⟩
    · intro h
      exact List.forall_mem_cons.mpr ⟨⟨_, _, hrange⟩, (List.forall_mem_append.mp h).2⟩
  | trans _ _ ih ih' => exact ih.trans ih'

theorem Rewrites.covers_iff {tokens tokens' : List Text} (h : Rewrites tokens tokens') (p : Nat) :
    Covers tokens p ↔ Covers tokens' p := by
  induction h with
  | permute hperm => exact exists_congr fun t => and_congr_left fun _ => hperm.mem_iff
  | @duplicate token tokens hmem =>
    refine ⟨?_, ?_⟩
    · rintro ⟨t, ht, hrest⟩
      exact ⟨t, List.mem_cons_of_mem _ ht, hrest⟩
    · rintro ⟨t, ht, hrest⟩
      rcases List.mem_cons.mp ht with rfl | ht
      · exact ⟨t, hmem, hrest⟩
      · exact ⟨t, ht, hrest⟩
  | expand hrange hports =>
    rw [covers_cons hrange, covers_append, literals_cover hports, mem_range hrange.le]
  | trans _ _ ih ih' => exact ih.trans ih'

/-! ## Written out -/

/-- The characters of tokens: they are neither a comma nor a colon. -/
def Plain (tokens : List Text) : Prop := ∀ token ∈ tokens, ',' ∉ token ∧ ':' ∉ token

theorem literals_plain {ports : List Text} {ns : List Nat} (h : List.Forall₂ Literal ports ns) :
    Plain ports := by
  induction h with
  | nil => exact nofun
  | cons hport _ ih =>
    have hcomma : ',' ∉ _ := hport.not_mem ⟨rfl, by decide⟩
    have hcolon : ':' ∉ _ := hport.not_mem ⟨rfl, by decide⟩
    exact List.forall_mem_cons.mpr ⟨⟨hcomma, hcolon⟩, ih⟩

theorem Rewrites.plain {tokens tokens' : List Text} (h : Rewrites tokens tokens')
    (hplain : Plain tokens) : Plain tokens' := by
  induction h with
  | permute hperm => exact fun t ht => hplain t (hperm.mem_iff.mpr ht)
  | duplicate hmem => exact List.forall_mem_cons.mpr ⟨hplain _ hmem, hplain⟩
  | expand _ hports =>
    exact List.forall_mem_append.mpr ⟨literals_plain hports, (List.forall_mem_cons.mp hplain).2⟩
  | trans _ _ ih ih' => exact ih' (ih hplain)

theorem Rewrites.ne_nil {tokens tokens' : List Text} (h : Rewrites tokens tokens')
    (hne : tokens ≠ []) : tokens' ≠ [] := by
  induction h with
  | permute hperm => exact fun hnil => hne (List.perm_nil.mp (hnil ▸ hperm))
  | duplicate _ => exact List.cons_ne_nil _ _
  | expand _ hports =>
    intro hnil
    obtain ⟨rfl, -⟩ := List.append_eq_nil_iff.mp hnil
    cases hports
  | trans _ _ ih ih' => exact ih' (ih hne)

theorem splitOn_plain {portSpec : Text} (h : ':' ∉ portSpec) : Plain (portSpec.splitOn ',') := by
  intro token htoken
  obtain ⟨hcomma, hmem⟩ := Text.mem_splitOn htoken
  exact ⟨hcomma, fun hcolon => h (hmem _ hcolon)⟩

/-- Tokens joined by commas have a colon in none. -/
theorem colon_not_mem_intercalate {tokens : List Text} (h : Plain tokens) :
    ':' ∉ [','].intercalate tokens := by
  induction tokens with
  | nil => exact List.not_mem_nil
  | cons token tokens ih =>
    obtain ⟨htoken, hrest⟩ := List.forall_mem_cons.mp h
    cases tokens with
    | nil =>
      rw [List.intercalate_singleton]
      exact htoken.2
    | cons next tokens =>
      rw [List.intercalate_cons_cons]
      simp only [List.mem_append, List.mem_singleton, not_or]
      exact ⟨⟨htoken.2, by decide⟩, ih hrest⟩

/-- An empty token is none. -/
theorem not_token_nil {m n : Nat} : ¬ Token [] m n := by
  intro h
  have hempty : ∀ {token : Text}, Token token m n → token ≠ [] := by
    intro token htoken
    cases htoken with
    | port hs => exact hs.chars.1
    | range _ _ _ => simp
  exact hempty h rfl

/-- A target is its host and what its tokens cover. -/
theorem denotes_iff {host portSpec : Text} (hlast : ':' ∉ portSpec) {target : Target} :
    Denotes (host ++ ':' :: portSpec) target ↔
      (host ≠ [] ∧ target.host = host) ∧ Valid (portSpec.splitOn ',') ∧
        target.ports.Pairwise (· < ·) ∧
        ∀ p, p ∈ target.ports ↔ Covers (portSpec.splitOn ',') p := by
  refine ⟨?_, ?_⟩
  · rintro ⟨portSpec', hsplits, hvalid, hports⟩
    have hsplit := Text.rsplitOnce_append host hlast
    rw [hsplits.split, Text.rsplitOnce_append _ hsplits.last] at hsplit
    obtain ⟨hhost, rfl⟩ := Prod.mk.inj (Option.some.inj hsplit)
    exact ⟨⟨hhost ▸ hsplits.host, hhost⟩, hvalid, hports⟩
  · rintro ⟨⟨hhost, rfl⟩, hvalid, hports⟩
    refine ⟨portSpec, ⟨rfl, hlast, hhost, ?_⟩, hvalid, hports⟩
    rintro rfl
    obtain ⟨m, n, htoken⟩ := hvalid [] List.mem_cons_self
    exact not_token_nil htoken

theorem Rewrites.denotes_iff {host portSpec : Text} (hlast : ':' ∉ portSpec) {tokens : List Text}
    (h : Rewrites (portSpec.splitOn ',') tokens) {target : Target} :
    Denotes (host ++ ':' :: portSpec) target ↔
      Denotes (host ++ ':' :: [','].intercalate tokens) target := by
  have hplain := h.plain (splitOn_plain hlast)
  have htokens : ([','].intercalate tokens).splitOn ',' = tokens :=
    List.splitOn_intercalate ',' (fun t ht => (hplain t ht).1)
      (h.ne_nil (List.splitOn_ne_nil ',' portSpec))
  rw [Aprobe.denotes_iff hlast, Aprobe.denotes_iff (colon_not_mem_intercalate hplain), htokens,
    h.valid_iff]
  simp only [h.covers_iff]

/-- **`parse_target` meets its grammar.** -/
theorem parse_target_grammar (spec : Text) :
    ((∃ target, parseTarget spec = .ok target) ↔ Grammatical spec) ∧
      (∀ target, parseTarget spec = .ok target ↔ Denotes spec target) ∧
      (∀ e, parseTarget spec = .error e ↔ Faulty spec e) ∧
      ∀ host portSpec tokens, spec = host ++ ':' :: portSpec → ':' ∉ portSpec →
        Rewrites (portSpec.splitOn ',') tokens → ∀ target,
          parseTarget spec = .ok target ↔
            parseTarget (host ++ ':' :: [','].intercalate tokens) = .ok target := by
  refine ⟨?_, fun _ => parseTarget_ok_iff, fun _ => parseTarget_error_iff, ?_⟩
  · rw [grammatical_iff]
    simp only [parseTarget_ok_iff]
  · intro host portSpec tokens hspec hlast hrewrites target
    rw [parseTarget_ok_iff, parseTarget_ok_iff, hspec]
    exact hrewrites.denotes_iff hlast

end RustFundamentals.Aprobe
