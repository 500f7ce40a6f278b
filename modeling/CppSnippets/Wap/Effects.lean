import CppSnippets.Wap.Init

/-!
# What the actions on a session leave behind

Every outcome counts, an exception too. Answering leaves the client, the script
and the counter of repetitions as they are; only `step_fwd` past the last step
counts down, and only `wapinit` sets the counter and the script.
-/
namespace CppSnippets.Wap

open CppSnippets.Lib Action

/-- The client, the script and the counter of repetitions are the same. -/
structure Wcstat.Same (a b : Wcstat) : Prop where
  cid : b.cid = a.cid
  steps : b.steps = a.steps
  nRepeat : b.nRepeat = a.nRepeat

instance : IsPreorder Wcstat Wcstat.Same where
  refl _ := ⟨rfl, rfl, rfl⟩
  trans _ _ _ h k := ⟨k.cid.trans h.cid, k.steps.trans h.steps, k.nRepeat.trans h.nRepeat⟩

variable (env : Env)

theorem stepHeads_same (path : Bytes) (head : Head) (part : Bytes) :
    Keeps Wcstat.Same (stepHeads env path head part) := by
  induction head generalizing part with
  | nil => exact keeps_pure _
  | cons e head ih =>
    rw [stepHeads]
    split
    · exact ih _
    · split
      · exact keeps_bind (keeps_modify fun _ => ⟨rfl, rfl, rfl⟩) fun _ => ih _
      · exact keeps_bind keeps_get fun _ => keeps_bind (keeps_lift _) fun _ => ih _

theorem stepGo_same (req : StepReq) (incBody : Bool) (trac : Nat) :
    Keeps Wcstat.Same (stepGo env req incBody trac) := by
  rw [stepGo]
  apply keeps_bind keeps_get
  intro wc
  apply keeps_bind (keeps_lift _)
  intro path
  apply keeps_bind (keeps_lift _)
  intro path'
  apply keeps_bind (stepHeads_same env path' req.head _)
  intro part
  apply keeps_bind (keeps_lift _)
  intro tmp
  apply keeps_bind keeps_get
  intro wc'
  exact keeps_pure _

theorem stepAt_same (stepidx : Nat) : Keeps Wcstat.Same (stepAt env stepidx) := by
  rw [stepAt]
  apply keeps_bind keeps_get
  intro wc
  split
  · exact keeps_throw _
  · apply keeps_bind (keeps_modify fun _ => ⟨rfl, rfl, rfl⟩)
    intro _
    exact stepGo_same env _ _ _

theorem fwd3xx_same (rsp : Response) (step : WcStep) (trac : Nat) :
    Keeps Wcstat.Same (fwd3xx env rsp step trac) := by
  rw [fwd3xx]
  split
  · exact keeps_pure _
  · split
    · exact keeps_pure _
    · apply keeps_bind (keeps_lift _)
      intro path
      exact keeps_bind (stepGo_same env _ _ _) fun _ => keeps_pure _

theorem autoTurn_same (rsp : Response) (step : WcStep) (trac : Nat) (v : Bytes) :
    Keeps Wcstat.Same (autoTurn env rsp step trac v) := by
  apply keeps_tryCatch
  · apply keeps_bind (keeps_lift _)
    intro url
    split
    · exact keeps_pure _
    · apply keeps_bind (keeps_lift _)
      intro path
      exact keeps_bind (stepGo_same env _ _ _) fun _ => keeps_pure _
  · intro t
    cases t with
    | thrown what => exact keeps_pure _
    | _ => exact keeps_throw _

theorem autoFwd_same (rsp : Response) (step : WcStep) (trac : Nat) (vs : List Bytes) :
    Keeps Wcstat.Same (autoFwd env rsp step trac vs) := by
  induction vs with
  | nil => exact keeps_pure _
  | cons v vs ih =>
    apply keeps_bind (autoTurn_same env rsp step trac v)
    intro out
    cases out with
    | none => exact ih
    | some out => exact keeps_pure _

theorem extractVars_same (body : Bytes) (glexes : List (Bytes × Bytes)) :
    Keeps Wcstat.Same (extractVars body glexes) := by
  induction glexes with
  | nil => exact keeps_pure _
  | cons e glexes ih =>
    rw [extractVars]
    apply keeps_bind (keeps_modify fun _ => ⟨rfl, rfl, rfl⟩)
    intro _
    apply keeps_bind (keeps_lift _)
    intro val
    exact keeps_bind (keeps_modify fun _ => ⟨rfl, rfl, rfl⟩) fun _ => ih

theorem stepFwd_same (stepidx : Nat) (wc : Wcstat) : Wcstat.Same
    (if stepidx = wc.steps.length then { wc with nRepeat := wc.nRepeat - 1 } else wc)
    ((stepFwd env stepidx).exec wc).2 := by
  rw [stepFwd, exec_bind, exec_get]
  dsimp only
  split
  · rw [exec_bind, exec_modify]
    dsimp only
    split
    · exact refl_of Wcstat.Same _
    · exact (stepAt_same env 0).after _
  · exact (stepAt_same env stepidx).after wc

/-- The steps that are read are pushed, and what is left is the same. -/
theorem pushSteps_exec (n : Nat) (rest : Bytes) (wc : Wcstat) :
    ∃ l, l.length ≤ n ∧ ((pushSteps env n rest).exec wc).2 = { wc with steps := wc.steps ++ l } ∧
      ∀ r, ((pushSteps env n rest).exec wc).1 = .ok r →
        l.length = n ∧ (popMany (popStep env) n).run rest = .ok (l, r) := by
  induction n generalizing rest wc with
  | zero =>
    refine ⟨[], Nat.le_refl _, ?_, ?_⟩
    · simp [pushSteps]
    · intro r h
      cases h
      exact ⟨rfl, rfl⟩
  | succ n ih =>
    rw [pushSteps, exec_bind, exec_lift, popMany_succ]
    cases hp : (popStep env).run rest with
    | error t =>
      refine ⟨[], Nat.zero_le _, ?_, ?_⟩
      · simp
      · intro r h
        cases h
    | ok a =>
      obtain ⟨l, hl, hs, hr⟩ := ih a.2 { wc with steps := wc.steps ++ [a.1] }
      refine ⟨a.1 :: l, by rw [List.length_cons]; omega, ?_, ?_⟩
      · dsimp only
        rw [exec_bind, exec_modify]
        dsimp only
        rw [hs]
        simp
      · intro r h
        dsimp only at h
        rw [exec_bind, exec_modify] at h
        dsimp only at h
        obtain ⟨hlen, hpop⟩ := hr r h
        refine ⟨by rw [List.length_cons, hlen], ?_⟩
        dsimp only
        rw [hpop]


/-- The counts that `wapinit` reads are in range: the number of steps, and the
number of repetitions behind that many steps, where the content reaches so far. -/
def InitAccepts (env : Env) (content : Bytes) : Prop :=
  ∀ id nstep rest, content = id ++ nstep :: rest → id.length = 4 →
    (1 ≤ nstep.toNat ∧ nstep.toNat ≤ 16) ∧
    ∀ steps nRepeat left, (popMany (popStep env) nstep.toNat).run rest = .ok (steps, nRepeat :: left) →
      2 ≤ left.length → 1 ≤ nRepeat.toNat ∧ nRepeat.toNat ≤ 8

/-- What `wapinit` makes of a session. -/
structure InitSpec (env : Env) (content : Bytes) (wc : Wcstat)
    (x : Except Trap (Except String Bytes) × Wcstat) : Prop where
  cid : x.2.cid = wc.cid
  nRepeat : x.2.nRepeat = wc.nRepeat ∨ x.2.nRepeat.toNat ≤ 255
  accepted : ∀ out, x.1 = .ok (.ok out) →
    (wc.steps.length + 1 ≤ x.2.steps.length ∧ x.2.steps.length ≤ wc.steps.length + 16) ∧
    1 ≤ x.2.nRepeat.toNat ∧ x.2.nRepeat.toNat ≤ 8
  rejected : ∀ err, x.1 = .ok (.error err) → ¬InitAccepts env content

theorem InitSpec.of_error {content : Bytes} {wc wc' : Wcstat} (t : Trap) (hc : wc'.cid = wc.cid)
    (hn : wc'.nRepeat = wc.nRepeat ∨ wc'.nRepeat.toNat ≤ 255) :
    InitSpec env content wc (.error t, wc') :=
  ⟨hc, hn, fun _ h => (by cases h), fun _ h => (by cases h)⟩

theorem pushFilter_same (idcode rest : Bytes) : Keeps Wcstat.Same (pushFilter env idcode rest) := by
  rw [pushFilter]
  split
  · exact keeps_bind (keeps_lift _) fun _ => keeps_modify fun _ => ⟨rfl, rfl, rfl⟩
  · exact keeps_pure _

/-- The end of `wapinit`, with counts that are in range. -/
theorem wapinit_end (content idcode rest : Bytes) (wc wc' : Wcstat) (hc : wc'.cid = wc.cid)
    (hs : wc.steps.length + 1 ≤ wc'.steps.length ∧ wc'.steps.length ≤ wc.steps.length + 16)
    (hn : 1 ≤ wc'.nRepeat.toNat ∧ wc'.nRepeat.toNat ≤ 8) :
    InitSpec env content wc ((do
      pushFilter env idcode rest
      let out ← stepFwd env 0
      pure (.ok out) : Act (Except String Bytes)).exec wc') := by
  have hfilter := (pushFilter_same env idcode rest).after wc'
  rw [exec_bind]
  rcases hx : (pushFilter env idcode rest).exec wc' with ⟨r, u⟩
  rw [hx] at hfilter
  have hlt : u.nRepeat.toNat ≤ 255 := by rw [hfilter.nRepeat]; omega
  cases r with
  | error t => exact .of_error env t (hfilter.cid.trans hc) (.inr hlt)
  | ok _ =>
    have hfwd := stepFwd_same env 0 u
    have hne : ¬0 = u.steps.length := by rw [hfilter.steps]; omega
    rw [if_neg hne] at hfwd
    have hall := trans_of Wcstat.Same hfilter hfwd
    dsimp only
    rw [exec_bind]
    rcases hy : (stepFwd env 0).exec u with ⟨r, v⟩
    rw [hy] at hall
    have hlt : v.nRepeat.toNat ≤ 255 := by rw [hall.nRepeat]; omega
    cases r with
    | error t => exact .of_error env t (hall.cid.trans hc) (.inr hlt)
    | ok out =>
      refine ⟨hall.cid.trans hc, .inr hlt, fun _ _ => ?_, fun _ h => (by cases h)⟩
      dsimp only [exec_pure]
      rw [hall.steps, hall.nRepeat]
      exact ⟨hs, hn⟩

theorem wapinit_spec (content : Bytes) (wc : Wcstat) :
    InitSpec env content wc ((wapinit env content).exec wc) := by
  rw [wapinit, exec_lift_bind, popRaw_run]
  by_cases h4 : 4 > content.length
  · rw [if_pos h4]
    exact .of_error env _ rfl (.inl rfl)
  rw [if_neg h4]
  dsimp only
  rw [exec_lift_bind, popByte_run]
  cases hd : content.drop 4 with
  | nil => exact .of_error env _ rfl (.inl rfl)
  | cons nstep rest =>
    have hcontent : content = content.take 4 ++ nstep :: rest := by
      rw [← hd, List.take_append_drop]
    have hid : (content.take 4).length = 4 := by rw [List.length_take]; omega
    dsimp only
    by_cases hb : nstep.toNat = 0 ∨ 16 < nstep.toNat
    · rw [if_pos hb]
      refine ⟨rfl, .inl rfl, fun _ h => (by cases h), fun _ _ hacc => ?_⟩
      have := (hacc _ _ _ hcontent hid).1
      omega
    rw [if_neg hb, exec_bind]
    obtain ⟨steps, hlen, hpushed, hread⟩ := pushSteps_exec env nstep.toNat rest wc
    rcases hx : (pushSteps env nstep.toNat rest).exec wc with ⟨r, u⟩
    rw [hx] at hpushed hread
    dsimp only at hpushed
    subst hpushed
    cases r with
    | error t => exact .of_error env t rfl (.inl rfl)
    | ok left =>
      obtain ⟨hn, hpop⟩ := hread left rfl
      dsimp only
      rw [exec_lift_bind, popByte_run]
      cases left with
      | nil => exact .of_error env _ rfl (.inl rfl)
      | cons k left =>
        have hk : (UInt32.ofNat k.toNat).toNat = k.toNat := by
          have := k.toNat_lt
          rw [UInt32.toNat_ofNat']
          omega
        have hle : (UInt32.ofNat k.toNat).toNat ≤ 255 := by
          have := k.toNat_lt
          omega
        dsimp only
        rw [exec_modify_bind, exec_lift_bind]
        cases hp : (popUInt 2).run left with
        | error t => exact .of_error env t rfl (.inr hle)
        | ok a =>
          dsimp only
          have h2 : 2 ≤ left.length := by
            by_contra hlt
            rw [popUInt, StateT.run_bind, popRaw_run, if_pos (by omega)] at hp
            cases hp
          by_cases hr : k.toNat = 0 ∨ 8 < k.toNat
          · rw [if_pos hr]
            refine ⟨rfl, .inr hle, fun _ h => (by cases h), fun _ _ hacc => ?_⟩
            have := (hacc _ _ _ hcontent hid).2 _ _ _ hpop h2
            omega
          · rw [if_neg hr]
            apply wapinit_end env content _ _ wc
            · rfl
            · simp only [List.length_append, hn]
              omega
            · simp only [hk]
              omega

/-- The content has a response with a status line, and a location if it redirects. -/
def ResponseAccepts (env : Env) (content : Bytes) : Prop :=
  let cr := search (bytes "\r\n\r\n") content
  cr < content.length ∧ ∀ r, makersp env (content.drop (cr + 4)) = .ok r →
    ∃ rsp, r = some rsp ∧ (300 ≤ rsp.code ∧ rsp.code < 400 →
      ∃ loc, headval rsp.head (bytes "Location") = some loc ∧ loc.isEmpty = false)

/-- The response neither redirects nor has a link that is followed, so that
`step_fwd` is next. -/
def PassesOn (env : Env) (content : Bytes) (stepidx : Nat) (wc : Wcstat) : Prop :=
  ∃ rsp jar step,
    makersp env (content.drop (search (bytes "\r\n\r\n") content + 4)) = .ok (some rsp) ∧
    setCookies wc.cookies rsp.head = .ok jar ∧ wc.steps[stepidx - 1]? = some step ∧
    ¬(300 ≤ rsp.code ∧ rsp.code < 400) ∧
    (rsp.code = 200 → ((autoFwd env rsp step stepidx autoPatterns).exec
      { wc with cookies := jar }).1 = .ok none)

/-- What `wapnext` makes of a session. -/
structure NextSpec (env : Env) (content : Bytes) (stepidx : Nat) (wc : Wcstat)
    (x : Except Trap (Except String Bytes) × Wcstat) : Prop where
  cid : x.2.cid = wc.cid
  steps : x.2.steps = wc.steps
  nRepeat : x.2.nRepeat = wc.nRepeat ∨ stepidx = wc.steps.length ∧
    PassesOn env content stepidx wc ∧ x.2.nRepeat = wc.nRepeat - 1
  rejected : ∀ err, x.1 = .ok (.error err) → ¬ResponseAccepts env content

theorem NextSpec.of_same {content : Bytes} {stepidx : Nat} {wc : Wcstat}
    {x : Except Trap (Except String Bytes) × Wcstat} (h : wc.Same x.2)
    (hr : ∀ err, x.1 = .ok (.error err) → ¬ResponseAccepts env content) :
    NextSpec env content stepidx wc x :=
  ⟨h.cid, h.steps, .inl h.nRepeat, hr⟩

theorem fwd3xx_none {rsp : Response} {step : WcStep} {trac : Nat} {wc wc' : Wcstat}
    (h : (fwd3xx env rsp step trac).exec wc = (.ok none, wc')) :
    ¬∃ loc, headval rsp.head (bytes "Location") = some loc ∧ loc.isEmpty = false := by
  rintro ⟨loc, hloc, hne⟩
  rw [fwd3xx, hloc] at h
  dsimp only at h
  rw [if_neg (by simp [hne]), exec_lift_bind] at h
  cases hu : unescape env loc with
  | error t =>
    rw [hu] at h
    cases h
  | ok path =>
    rw [hu] at h
    dsimp only at h
    rw [exec_bind] at h
    split at h
    · cases h
    · cases h

/-- What is left of `wapnext` once the response does not redirect. -/
theorem wapnext_end {content : Bytes} {stepidx : Nat} {wc wc' : Wcstat} (h : wc.Same wc')
    (hp : stepidx = wc.steps.length → PassesOn env content stepidx wc) :
    NextSpec env content stepidx wc
      ((do pure (.ok (← stepFwd env stepidx)) : Act (Except String Bytes)).exec wc') := by
  have hfwd := stepFwd_same env stepidx wc'
  rw [exec_bind]
  rcases hx : (stepFwd env stepidx).exec wc' with ⟨r, u⟩
  rw [hx, h.steps] at hfwd
  have hspec : ∀ (r' : Except Trap (Except String Bytes)), (∀ err, r' ≠ .ok (.error err)) →
      NextSpec env content stepidx wc (r', u) := by
    intro r' hr'
    by_cases hend : stepidx = wc.steps.length
    · rw [if_pos hend] at hfwd
      refine ⟨hfwd.cid.trans h.cid, hfwd.steps, .inr ⟨hend, hp hend, ?_⟩,
        fun err he => absurd he (hr' err)⟩
      rw [← h.nRepeat]
      exact hfwd.nRepeat
    · rw [if_neg hend] at hfwd
      exact .of_same env (trans_of Wcstat.Same h hfwd) fun err he => absurd he (hr' err)
  cases r with
  | error t => exact hspec _ fun err he => (by cases he)
  | ok out => exact hspec _ fun err he => (by cases he)

theorem wapnext_spec (content : Bytes) (stepidx : Nat) (wc : Wcstat) :
    NextSpec env content stepidx wc ((wapnext env content stepidx).exec wc) := by
  have herror : ∀ (t : Trap) {wc' : Wcstat}, wc.Same wc' →
      NextSpec env content stepidx wc (.error t, wc') := fun t _ h =>
    .of_same env h fun _ he => (by cases he)
  rw [wapnext]
  dsimp only
  by_cases hcr : content.length ≤ search (bytes "\r\n\r\n") content
  · rw [if_pos hcr]
    refine .of_same env (refl_of _ _) fun _ _ hacc => ?_
    exact absurd hacc.1 (by omega)
  rw [if_neg hcr, exec_lift_bind]
  cases hm : makersp env (content.drop (search (bytes "\r\n\r\n") content + 4)) with
  | error t => exact herror t (refl_of _ _)
  | ok r =>
    dsimp only
    cases r with
    | none =>
      refine .of_same env (refl_of _ _) fun _ _ hacc => ?_
      obtain ⟨rsp, h, _⟩ := hacc.2 _ hm
      cases h
    | some rsp =>
      dsimp only
      rw [exec_get_bind, exec_lift_bind]
      cases hj : setCookies wc.cookies rsp.head with
      | error t => exact herror t (refl_of _ _)
      | ok jar =>
        have hjar : wc.Same { wc with cookies := jar } := ⟨rfl, rfl, rfl⟩
        dsimp only
        rw [exec_modify_bind, exec_get_bind]
        dsimp only
        cases hs : wc.steps[stepidx - 1]? with
        | none => exact herror _ hjar
        | some step =>
          dsimp only
          by_cases h3 : 300 ≤ rsp.code ∧ rsp.code < 400
          · rw [if_pos h3, exec_bind]
            have hfwd := (fwd3xx_same env rsp step stepidx).after { wc with cookies := jar }
            rcases hx : (fwd3xx env rsp step stepidx).exec { wc with cookies := jar } with ⟨r, u⟩
            rw [hx] at hfwd
            have hu := trans_of Wcstat.Same hjar hfwd
            cases r with
            | error t => exact herror t hu
            | ok out =>
              cases out with
              | none =>
                refine .of_same env hu fun _ _ hacc => ?_
                obtain ⟨_, h, hloc⟩ := hacc.2 _ hm
                cases h
                exact fwd3xx_none env hx (hloc h3)
              | some out => exact .of_same env hu fun _ he => (by cases he)
          · rw [if_neg h3]
            have hpass : (rsp.code = 200 → ((autoFwd env rsp step stepidx autoPatterns).exec
                { wc with cookies := jar }).1 = .ok none) → PassesOn env content stepidx wc :=
              fun h => ⟨rsp, jar, step, hm, hj, hs, h3, h⟩
            by_cases h2 : rsp.code = 200
            · rw [if_pos h2, exec_bind]
              have hauto := (autoFwd_same env rsp step stepidx autoPatterns).after
                { wc with cookies := jar }
              rcases hx : (autoFwd env rsp step stepidx autoPatterns).exec
                { wc with cookies := jar } with ⟨r, u⟩
              rw [hx] at hauto hpass
              have hu := trans_of Wcstat.Same hjar hauto
              cases r with
              | error t => exact herror t hu
              | ok out =>
                cases out with
                | some out => exact .of_same env hu fun _ he => (by cases he)
                | none =>
                  dsimp only
                  rw [exec_get_bind]
                  by_cases hlt : 0 < stepidx ∧ stepidx < u.steps.length
                  · rw [if_pos hlt, exec_bind]
                    have hvars := (extractVars_same rsp.body step.glex).after u
                    rcases hy : (extractVars rsp.body step.glex).exec u with ⟨r, v⟩
                    rw [hy] at hvars
                    have hv := trans_of Wcstat.Same hu hvars
                    cases r with
                    | error t => exact herror t hv
                    | ok _ => exact wapnext_end env hv fun _ => hpass fun _ => rfl
                  · rw [if_neg hlt]
                    exact wapnext_end env hu fun _ => hpass fun _ => rfl
            · rw [if_neg h2]
              exact wapnext_end env hjar fun _ => hpass fun h => absurd h h2

end CppSnippets.Wap
