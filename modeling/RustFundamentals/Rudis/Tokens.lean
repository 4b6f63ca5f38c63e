import RustFundamentals.Foundation.Orbits
import RustFundamentals.Rudis.Server

/-!
# rudis: the tokens of connections

The token of the next connection is chosen before the present one has its own in the map, and used
only when the next one is accepted. It is free when it is chosen, and not the present one as long
as another is free. In between connections only go. So it is still free when it is used
(`tokens_never_shared`), and the search for the one behind it ends.
-/

namespace RustFundamentals.Rudis

open Foundation Foundation.Fs

/-! ## Free tokens -/

/-- A token that a connection may be given. -/
structure FreeToken (conns : HashMap Nat Connection) (t : Nat) : Prop where
  client : firstConn ≤ t
  fits : t < 2 ^ 64
  unused : t ∉ conns

/-- `checked_add(1).unwrap_or(FIRST_CONN)`. -/
def nextToken (candidate : Nat) : Nat := if candidate + 1 < 2 ^ 64 then candidate + 1 else firstConn

/-- The test of `next_free_token`. -/
def isFree (conns : HashMap Nat Connection) (candidate : Nat) : Bool :=
  firstConn ≤ candidate ∧ candidate ∉ conns

theorem nextFreeTokenLoop_eq (conns : HashMap Nat Connection) (fuel candidate : Nat) :
    nextFreeTokenLoop conns fuel candidate = seek nextToken (isFree conns) fuel candidate := by
  induction fuel generalizing candidate with
  | zero => rfl
  | succ fuel ih =>
    rw [nextFreeTokenLoop, seek]
    by_cases hfree : firstConn ≤ nextToken candidate ∧ nextToken candidate ∉ conns
    · exact (if_pos hfree).trans (if_pos (decide_eq_true hfree)).symm
    · have htaken : ¬ isFree conns (nextToken candidate) = true :=
        fun h => hfree (of_decide_eq_true h)
      rw [if_neg htaken]
      exact (if_neg hfree).trans (ih _)

theorem nextToken_lt (candidate : Nat) : nextToken candidate < 2 ^ 64 := by
  unfold nextToken firstConn
  split <;> omega

theorem iterate_nextToken {candidate i : Nat} (h : candidate + i < 2 ^ 64) :
    nextToken^[i] candidate = candidate + i := by
  induction i with
  | zero => rfl
  | succ i ih =>
    rw [Function.iterate_succ_apply', ih (by omega), nextToken, if_pos (by omega), Nat.add_assoc]

/-- The greatest token is followed by the first one. -/
theorem nextToken_max : nextToken (2 ^ 64 - 1) = firstConn := rfl

/-- **Every client token comes up**, if need be behind the greatest one. -/
theorem nextToken_reaches {candidate t : Nat} (hc : candidate < 2 ^ 64) (hclient : firstConn ≤ t)
    (hfits : t < 2 ^ 64) : ∃ m, nextToken^[m + 1] candidate = t := by
  rcases Nat.lt_or_ge candidate t with hlt | hge
  · refine ⟨t - candidate - 1, ?_⟩
    rw [iterate_nextToken (by omega)]
    omega
  · -- to the greatest token, over it, and up again
    refine ⟨(t - firstConn) + (2 ^ 64 - 1 - candidate), ?_⟩
    have htop : nextToken^[2 ^ 64 - 1 - candidate] candidate = 2 ^ 64 - 1 := by
      rw [iterate_nextToken (by omega)]
      omega
    rw [Nat.add_right_comm, Function.iterate_add_apply, htop, Function.iterate_succ_apply,
      nextToken_max, iterate_nextToken (by omega)]
    omega

theorem FreeToken.isFree {conns : HashMap Nat Connection} {t : Nat} (h : FreeToken conns t) :
    isFree conns t = true := decide_eq_true ⟨h.client, h.unused⟩

/-- What the search passes over: the reserved tokens, and those in use. -/
def takenTokens (conns : HashMap Nat Connection) : Finset Nat :=
  Finset.range firstConn ∪ conns.keys.toFinset

theorem mem_takenTokens {conns : HashMap Nat Connection} {t : Nat} (h : isFree conns t = false) :
    t ∈ takenTokens conns := by
  rw [takenTokens, Finset.mem_union, Finset.mem_range, List.mem_toFinset]
  by_contra hnot
  rw [not_or, not_lt] at hnot
  have hfree : isFree conns t = true := decide_eq_true ⟨hnot.1, hnot.2⟩
  rw [h] at hfree
  cases hfree

theorem card_takenTokens_lt (conns : HashMap Nat Connection) :
    (takenTokens conns).card < conns.entries.length + firstConn + 1 := by
  have hunion := Finset.card_union_le (Finset.range firstConn) conns.keys.toFinset
  have hkeys : conns.keys.toFinset.card ≤ conns.entries.length :=
    le_trans (List.toFinset_card_le conns.keys) (List.length_map _).le
  rw [Finset.card_range] at hunion
  unfold takenTokens
  omega

/-- **`next_free_token` ends with a free token**, when there is one. -/
theorem nextFreeToken_spec {conns : HashMap Nat Connection} {candidate : Nat}
    (hc : candidate < 2 ^ 64) (h : ∃ t, FreeToken conns t) :
    ∃ t, nextFreeToken candidate conns = some t ∧ FreeToken conns t := by
  obtain ⟨u, hu⟩ := h
  obtain ⟨m, hm⟩ := nextToken_reaches hc hu.client hu.fits
  obtain ⟨t, ht⟩ := seek_isSome (fun _ => mem_takenTokens) hm hu.isFree (card_takenTokens_lt conns)
  obtain ⟨i, -, hi, hfree, -⟩ := seek_eq_some_iff.mp ht
  obtain ⟨hclient, hunused⟩ := of_decide_eq_true hfree
  refine ⟨t, ?_, hclient, ?_, hunused⟩
  · rw [nextFreeToken, nextFreeTokenLoop_eq, ht]
  · rw [← hi, Function.iterate_succ_apply']
    exact nextToken_lt _

/-- It does not come back to the token it starts from while another is free. -/
theorem nextFreeToken_ne {conns : HashMap Nat Connection} {candidate u : Nat}
    (hc : candidate < 2 ^ 64) (hu : FreeToken conns u) (hne : u ≠ candidate) :
    nextFreeToken candidate conns ≠ some candidate := by
  obtain ⟨m, hm⟩ := nextToken_reaches hc hu.client hu.fits
  rw [nextFreeToken, nextFreeTokenLoop_eq]
  exact seek_ne_start hm hu.isFree hne

/-- The search has looked at enough candidates: with more it would find nothing either. -/
theorem nextFreeToken_forever {conns : HashMap Nat Connection} {candidate : Nat}
    (h : nextFreeToken candidate conns = none) (fuel : Nat) :
    nextFreeTokenLoop conns fuel candidate = none := by
  rw [nextFreeToken, nextFreeTokenLoop_eq] at h
  rw [nextFreeTokenLoop_eq]
  exact seek_forever (fun _ => mem_takenTokens) (card_takenTokens_lt conns) h fuel

namespace Server

/-! ## Accepts -/

/-- A connection is accepted in the state `s'`, when the calls of a listener event are made in the
state `s`. -/
inductive AcceptsIn (s' : Server) : Server → List AcceptCall → Prop
  | here (registered : Except Str Unit) (calls : List AcceptCall) :
    AcceptsIn s' s' (.accepted registered :: calls)
  | accepted {s : Server} {next : Nat} {calls : List AcceptCall}
    (hnext : nextFreeToken s.nextToken s.conns = some next)
    (hlater : AcceptsIn s' (s.accept next) calls) : AcceptsIn s' s (.accepted (.ok ()) :: calls)
  | failed {s : Server} {kind : ErrorKind} {calls : List AcceptCall} (text : Str)
    (hkind : kind = .interrupted ∨ kind.isTransient = true) (hlater : AcceptsIn s' s calls) :
    AcceptsIn s' s (.failed kind text :: calls)

/-- A connection is accepted in the state `s'` on a run. -/
inductive Accepts (ov : Overflow) (s' : Server) : Server → List Step → Prop
  | here {s : Server} {calls : List AcceptCall} (steps : List Step)
    (h : AcceptsIn s' s calls) : Accepts ov s' s (.listener calls :: steps)
  | later {s s₁ : Server} {st : Step} {steps : List Step} {closed : List Closed}
    (hstep : s.step ov st = .ok (s₁, closed)) (hlater : Accepts ov s' s₁ steps) :
    Accepts ov s' s (st :: steps)

/-- At least two client tokens are free. -/
def TwoFree (s : Server) : Prop := ∃ t u, t ≠ u ∧ FreeToken s.conns t ∧ FreeToken s.conns u

/-! ## The token in hand is free -/

/-- The token of the next connection is free. -/
def TokenFree (s : Server) : Prop := FreeToken s.conns s.nextToken

theorem start_tokenFree (core : Core) : (start core).TokenFree :=
  ⟨le_rfl, show firstConn < 2 ^ 64 by decide, AList.notMem_empty firstConn⟩

/-- Tokens stay free when none comes into use. -/
theorem TokenFree.mono {s s' : Server} (h : s.TokenFree) (hnext : s'.nextToken = s.nextToken)
    (hconns : ∀ t, t ∈ s'.conns → t ∈ s.conns) : s'.TokenFree := by
  obtain ⟨hclient, hfits, hunused⟩ := h
  refine ⟨?_, ?_, ?_⟩
  · rwa [hnext]
  · rwa [hnext]
  · rw [hnext]
    exact fun hmem => hunused (hconns _ hmem)

/-- **An accept** leaves a free token in hand, when two are free. -/
theorem TokenFree.accept {s : Server} (h : s.TokenFree) (htwo : s.TwoFree) :
    ∃ next, nextFreeToken s.nextToken s.conns = some next ∧ (s.accept next).TokenFree := by
  obtain ⟨t, u, hne, ht, hu⟩ := htwo
  obtain ⟨next, hnext, hfree⟩ := nextFreeToken_spec h.fits ⟨t, ht⟩
  have hother : next ≠ s.nextToken := by
    rintro rfl
    by_cases heq : t = s.nextToken
    · exact nextFreeToken_ne h.fits hu (fun hu' => hne (heq.trans hu'.symm)) hnext
    · exact nextFreeToken_ne h.fits ht heq hnext
  refine ⟨next, hnext, hfree.client, hfree.fits, ?_⟩
  show next ∉ s.conns.insert s.nextToken _
  rw [AList.mem_insert, not_or]
  exact ⟨hother, hfree.unused⟩

/-- **In each state in which a call accepts** the token in hand is free. -/
theorem AcceptsIn.tokenFree {s s' : Server} {calls : List AcceptCall} (h : AcceptsIn s' s calls)
    (hs : s.TokenFree) (htwo : ∀ t, AcceptsIn t s calls → t.TwoFree) : s'.TokenFree := by
  induction h with
  | here registered calls => exact hs
  | accepted hnext _ ih =>
    obtain ⟨next, hnext', hs₁⟩ := hs.accept (htwo _ (.here (.ok ()) _))
    obtain rfl := Option.some.inj (hnext.symm.trans hnext')
    exact ih hs₁ fun t ht => htwo t (.accepted hnext ht)
  | failed text hkind _ ih => exact ih hs fun t ht => htwo t (.failed text hkind ht)

/-- **Behind the calls of a listener event** it is free, and no connection has been replaced. -/
theorem looped_tokens {calls : List AcceptCall} {s s' : Server} {closed : List Closed}
    (h : Looped s calls s' closed) (hs : s.TokenFree)
    (htwo : ∀ t, AcceptsIn t s calls → t.TwoFree) : s'.TokenFree ∧ closed = [] := by
  induction h with
  | done s calls => exact ⟨hs, rfl⟩
  | @accepted s _ _ _ _ hnext _ ih =>
    obtain ⟨next, hnext', hs₁⟩ := hs.accept (htwo _ (.here (.ok ()) _))
    obtain rfl := Option.some.inj (hnext.symm.trans hnext')
    obtain ⟨hfree, rfl⟩ := ih hs₁ fun t ht => htwo t (.accepted hnext ht)
    have hnone : s.replaced = none := by
      rw [replaced, AList.lookup_eq_none.mpr hs.unused]
      rfl
    refine ⟨hfree, ?_⟩
    rw [hnone]
    rfl
  | failed hkind _ ih => exact ih hs fun t ht => htwo t (.failed _ hkind ht)

/-! ## The other steps -/

theorem readPhase_reason {ov : Overflow} {r : Ready} {conn conn' : Connection} {core core' : Core}
    {drop : Option Reason} (h : readPhase ov r conn core = .ok (conn', core', drop)) :
    drop ≠ some .replaced := by
  rintro rfl
  unfold readPhase at h
  split at h
  · split at h
    · split at h
      · split at h <;> cases h
      · cases h
      · cases h
    · cases h
  · cases h

theorem writePhase_reason {r : Ready} {conn conn' : Connection} {drop : Option Reason}
    {reason : Reason} (hdrop : drop ≠ some .replaced)
    (h : writePhase r conn drop = (conn', some reason)) : reason ≠ .replaced := by
  rintro rfl
  unfold writePhase at h
  split at h
  · split at h <;> cases h
  · exact hdrop (Prod.mk.inj h).2

/-- A client's event brings no token into use, and replaces no connection. -/
theorem served_tokens {ov : Overflow} {r : Ready} {s s' : Server} {closed : List Closed}
    (hs : s.TokenFree) (h : Served ov r s s' closed) :
    s'.TokenFree ∧ ∀ c ∈ closed, c.reason ≠ .replaced := by
  cases h with
  | gone hlookup => exact ⟨hs, nofun⟩
  | removed hlookup hread hwrite =>
    refine ⟨hs.mono rfl fun t ht => ?_, ?_⟩
    · exact (AList.mem_erase.mp ht).2
    · intro c hc
      obtain rfl := List.mem_singleton.mp hc
      exact writePhase_reason (readPhase_reason hread) hwrite
  | kept hlookup hread hwrite =>
    refine ⟨hs.mono rfl fun t ht => ?_, nofun⟩
    -- the token it is put back under is in use
    rcases (AList.mem_insert _).mp ht with rfl | ht
    · exact AList.lookup_isSome.mp (by rw [hlookup]; rfl)
    · exact ht

/-- **One step** keeps a free token in hand, and replaces no connection. -/
theorem step_tokens {ov : Overflow} {st : Step} {s : Server} (hs : s.TokenFree)
    (htwo : ∀ s', Accepts ov s' s [st] → s'.TwoFree) {s' : Server} {closed : List Closed}
    (h : s.step ov st = .ok (s', closed)) :
    s'.TokenFree ∧ ∀ c ∈ closed, c.reason ≠ .replaced := by
  cases stepped_of_step h with
  | listener hlooped =>
    obtain ⟨hs', rfl⟩ := looped_tokens hlooped hs fun t ht => htwo t (.here [] ht)
    exact ⟨hs', nofun⟩
  | signals pending => exact ⟨hs, nofun⟩
  | ready hserved => exact served_tokens hs hserved
  | tick core => exact ⟨hs.mono rfl fun _ ht => ht, nofun⟩

/-! ## Whole runs -/

/-- **Any run**, from a state with a free token in hand. -/
theorem run_tokens {ov : Overflow} {steps : List Step} {s : Server} (hs : s.TokenFree)
    (htwo : ∀ s', Accepts ov s' s steps → s'.TwoFree) :
    (∀ s', Accepts ov s' s steps → s'.TokenFree) ∧
      ∀ c ∈ s.closes ov steps, c.reason ≠ .replaced := by
  induction steps generalizing s with
  | nil => exact ⟨nofun, nofun⟩
  | cons st steps ih =>
    have hnow : ∀ s', Accepts ov s' s [st] → s'.TwoFree := by
      intro s' h
      cases h with
      | here _ hin => exact htwo s' (.here steps hin)
      | later _ hlater => cases hlater
    have hnext : ∀ s₁ closed, s.step ov st = .ok (s₁, closed) →
        (∀ s', Accepts ov s' s₁ steps → s'.TokenFree) ∧
          ∀ c ∈ s₁.closes ov steps, c.reason ≠ .replaced := by
      intro s₁ closed hstep
      exact ih (step_tokens hs hnow hstep).1 fun s' h => htwo s' (.later hstep h)
    refine ⟨?_, ?_⟩
    · intro s' h
      cases h with
      | here _ hin =>
        exact hin.tokenFree hs fun t ht => hnow t (.here [] ht)
      | later hstep hlater => exact (hnext _ _ hstep).1 s' hlater
    · intro c hc
      unfold closes at hc
      rcases hstep : s.step ov st with halt | ⟨s₁, closed⟩
      · rw [hstep] at hc
        cases hc
      · rw [hstep] at hc
        rcases List.mem_append.mp hc with hc | hc
        · exact (step_tokens hs hnow hstep).2 c hc
        · exact (hnext _ _ hstep).2 c hc

/-! ## Runs that are not too long -/

/-- The number of connections. -/
def inUse (s : Server) : Nat := s.conns.keys.length

/-- With two tokens more than there are connections, two are free. -/
theorem twoFree_of_inUse {s : Server} (h : firstConn + (s.inUse + 2) ≤ 2 ^ 64) : s.TwoFree := by
  set candidates := Finset.Ico firstConn (firstConn + (s.inUse + 2)) with hcandidates
  have hkeys : s.conns.keys.toFinset.card ≤ s.inUse := List.toFinset_card_le _
  have hdiff := Finset.le_card_sdiff s.conns.keys.toFinset candidates
  rw [hcandidates, Nat.card_Ico, ← hcandidates] at hdiff
  have hmany : 1 < (candidates \ s.conns.keys.toFinset).card := by omega
  have hfree : ∀ t ∈ candidates \ s.conns.keys.toFinset, FreeToken s.conns t := by
    intro t ht
    obtain ⟨hrange, hunused⟩ := Finset.mem_sdiff.mp ht
    obtain ⟨hclient, hlt⟩ := Finset.mem_Ico.mp hrange
    exact ⟨hclient, lt_of_lt_of_le hlt h, fun hmem => hunused (List.mem_toFinset.mpr hmem)⟩
  obtain ⟨t, ht, u, hu, hne⟩ := Finset.one_lt_card.mp hmany
  exact ⟨t, u, hne, hfree t ht, hfree u hu⟩

/-- The connections that the calls hand over. -/
def handedOver : List AcceptCall → Nat
  | [] => 0
  | .accepted _ :: calls => handedOver calls + 1
  | .failed _ _ :: calls => handedOver calls

/-- The connections that the steps hand over. -/
def arrivals : List Step → Nat
  | [] => 0
  | .listener calls :: steps => handedOver calls + arrivals steps
  | _ :: steps => arrivals steps

theorem inUse_accept (s : Server) (next : Nat) : (s.accept next).inUse ≤ s.inUse + 1 := by
  show (s.conns.insert s.nextToken _).keys.length ≤ _
  rw [AList.keys_insert, List.length_cons]
  exact Nat.succ_le_succ List.length_erase_le

theorem AcceptsIn.inUse_le {s s' : Server} {calls : List AcceptCall} (h : AcceptsIn s' s calls) :
    s'.inUse ≤ s.inUse + handedOver calls := by
  induction h with
  | here registered calls => exact Nat.le_add_right _ _
  | @accepted s next calls _ _ ih =>
    have hmore := s.inUse_accept next
    rw [handedOver]
    omega
  | failed _ _ _ ih => exact ih

theorem looped_inUse {calls : List AcceptCall} {s s' : Server} {closed : List Closed}
    (h : Looped s calls s' closed) : s'.inUse ≤ s.inUse + handedOver calls := by
  induction h with
  | done s calls => exact Nat.le_add_right _ _
  | @accepted s _ next _ _ _ _ ih =>
    have hmore := s.inUse_accept next
    rw [handedOver]
    omega
  | failed _ _ ih => exact ih

theorem step_inUse {ov : Overflow} {st : Step} {s s' : Server} {closed : List Closed}
    (h : s.step ov st = .ok (s', closed)) : s'.inUse ≤ s.inUse + arrivals [st] := by
  cases stepped_of_step h with
  | listener hlooped => exact looped_inUse hlooped
  | signals pending => exact le_rfl
  | ready hserved =>
    cases hserved with
    | gone hlookup => exact le_rfl
    | removed hlookup hread hwrite =>
      show (s.conns.erase _).keys.length ≤ _
      rw [AList.keys_erase]
      exact List.length_erase_le
    | kept hlookup hread hwrite =>
      have hlive : _ ∈ s.conns.keys := AList.lookup_isSome.mp (by rw [hlookup]; rfl)
      have hpos := List.length_pos_of_mem hlive
      show (s.conns.insert _ _).keys.length ≤ s.conns.keys.length
      rw [AList.keys_insert, List.length_cons, List.length_erase_of_mem hlive]
      omega
  | tick core => exact le_rfl

theorem arrivals_cons (st : Step) (steps : List Step) :
    arrivals (st :: steps) = arrivals [st] + arrivals steps := by
  cases st with
  | listener calls => rfl
  | _ => exact (Nat.zero_add _).symm

theorem Accepts.inUse_le {ov : Overflow} {s s' : Server} {steps : List Step}
    (h : Accepts ov s' s steps) : s'.inUse ≤ s.inUse + arrivals steps := by
  induction h with
  | here steps hin =>
    have hbefore := hin.inUse_le
    rw [arrivals]
    omega
  | later hstep _ ih =>
    have hbefore := step_inUse hstep
    rw [arrivals_cons]
    omega

/-- **Two client tokens are free at every accept** of a run to which fewer than `2 ^ 64 - 17`
connections come. -/
theorem Accepts.twoFree {ov : Overflow} {core : Core} {steps : List Step} {s : Server}
    (h : Accepts ov s (start core) steps) (hfew : arrivals steps + 18 ≤ 2 ^ 64) : s.TwoFree := by
  have hcount : s.inUse ≤ 0 + arrivals steps := h.inUse_le
  apply twoFree_of_inUse
  unfold firstConn
  omega

end Server

/-- **Tokens are never shared**: when two client tokens are free at every accept of a run, the
token given is a client's that no live connection has, the search for the next one ends, and no
connection is replaced. From any candidate the search ends where a client token is free. -/
theorem tokens_never_shared (ov : Overflow) (core : Core) (steps : List Step)
    (htwo : ∀ s, Server.Accepts ov s (Server.start core) steps → s.TwoFree) :
    (∀ s, Server.Accepts ov s (Server.start core) steps →
      firstConn ≤ s.nextToken ∧ s.nextToken ∉ s.conns ∧
        ∃ next, nextFreeToken s.nextToken s.conns = some next) ∧
    (∀ c ∈ (Server.start core).closes ov steps, c.reason ≠ .replaced) ∧
    ∀ conns candidate, candidate < 2 ^ 64 → (∃ t, FreeToken conns t) →
      ∃ t, nextFreeToken candidate conns = some t ∧ FreeToken conns t := by
  obtain ⟨hfree, hcloses⟩ := Server.run_tokens (Server.start_tokenFree core) htwo
  refine ⟨?_, hcloses, ?_⟩
  · intro s haccepts
    have htoken := hfree s haccepts
    obtain ⟨next, hnext, -⟩ := htoken.accept (htwo s haccepts)
    exact ⟨htoken.client, htoken.unused, next, hnext⟩
  · intro conns candidate hc hexists
    exact nextFreeToken_spec hc hexists

/-- Two clients, the first of which hangs up before the second one comes. -/
def twoClients : List Step :=
  [.listener [.accepted (.ok ())],
    .ready { token := firstConn, readable := true, writable := false, reads := [.delivered []],
             writes := [], rearmed := .ok () },
    .listener [.failed .interrupted (Str.lit ""), .accepted (.ok ())]]

theorem twoClients_tokens :
    (∀ s, Server.Accepts .checked s (Server.start .fresh) twoClients →
      firstConn ≤ s.nextToken ∧ s.nextToken ∉ s.conns ∧
        ∃ next, nextFreeToken s.nextToken s.conns = some next) ∧
    (∀ c ∈ (Server.start .fresh).closes .checked twoClients, c.reason ≠ .replaced) ∧
    ∀ conns candidate, candidate < 2 ^ 64 → (∃ t, FreeToken conns t) →
      ∃ t, nextFreeToken candidate conns = some t ∧ FreeToken conns t :=
  tokens_never_shared .checked .fresh twoClients fun _ h => h.twoFree (by decide)

end RustFundamentals.Rudis
