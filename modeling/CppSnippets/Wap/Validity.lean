import CppSnippets.Wap.StoreSafety

/-!
# Valid sessions

A session that survives has between 1 and 16 steps and between 1 and 8
repetitions left. Two things break this: what `wapinit` and `wapnext` return is
ignored, and a session whose last repetition is over still accepts a response,
which counts `n_repeat` down from 0. Without these, errors are exceptions, which
are answered with 501 and cost the session.
-/
namespace CppSnippets.Wap.Validity

open CppSnippets.Lib Store StoreSafety

variable {env : Env} {m : Memory}

def Valid (wc : Wcstat) : Prop :=
  (1 ≤ wc.steps.length ∧ wc.steps.length ≤ 16) ∧ 1 ≤ wc.nRepeat.toNat ∧ wc.nRepeat.toNat ≤ 8

instance (wc : Wcstat) : Decidable (Valid wc) := by
  unfold Valid
  infer_instance

/-- The content that a turn hands on. -/
def content (env : Env) (m : Memory) (l : Line) : Bytes :=
  slice m.body l.second (l.second + announced env m l).toNat

/-- The command is not one that `wapinit` or `wapnext` rejects by what it returns,
and a response does not pass on behind the last step of a session that has no
repetition left. -/
def TurnOk (env : Env) (m : Memory) (l : Line) (wc : Wcstat) : Prop :=
  match deed env m l wc with
  | .init => InitAccepts env (content env m l)
  | .next trac => ResponseAccepts env (content env m l) ∧
      ¬(wc.nRepeat = 0 ∧ trac = wc.steps.length ∧ PassesOn env (content env m l) trac wc)
  | _ => True

/-- The commands of a request are acceptable, each in the session it comes to. -/
def Accepts (env : Env) (s : Server) : Event → Prop
  | .request c cid m _ => ∀ r n, s.conns c = some r →
      (s.initref cid).1.ref (s.initref cid).2 = .ok n →
      ∀ v l, Reached env m ⟨n.stat, [], r.buf⟩ v → (turn env m v.1 v.2).line = some l →
        TurnOk env m l v.2.wc
  | _ => True

/-- `wapinit` or `wapnext` reports an error in this turn, as an exception or as
what it returns. -/
def Reports (env : Env) (m : Memory) (l : Line) (w : Work) : Prop :=
  let endc := l.second + announced env m l
  let errs (r : Except Trap (Except String Bytes)) : Prop :=
    (∃ what, r = .error (.thrown what)) ∨ ∃ err, r = .ok (.error err)
  match deed env m l w.wc with
  | .init => endc ≤ m.size ∧ errs ((wapinit env (content env m l)).exec w.restart.wc).1
  | .next trac => (⟨l.second, endc⟩ : Range).Within m.size ∧
      errs ((wapnext env (content env m l) trac).exec w.wc).1
  | _ => False

/-! ## One turn -/

/-- Nothing is left to repeat, or the session is valid. -/
def Fit (wc : Wcstat) : Prop := wc.nRepeat = 0 ∨ Valid wc

theorem toNat_sub_one {n : UInt32} (h : n ≠ 0) : (n - 1).toNat = n.toNat - 1 := by
  have hpos : 1 ≤ n.toNat := by
    by_contra hlt
    exact h (UInt32.toNat_inj.mp (by simp; omega))
  have hlt := n.toNat_lt
  rw [UInt32.toNat_sub]
  have h1 : (1 : UInt32).toNat = 1 := rfl
  omega

/-- A response leaves the counter, or takes one from a counter that is not 0. -/
theorem next_counter {l : Line} {wc : Wcstat} {trac : Nat}
    (hd : deed env m l wc = .next trac) (hok : TurnOk env m l wc) :
    let wc' := ((wapnext env (content env m l) trac).exec wc).2
    wc'.steps = wc.steps ∧ (wc'.nRepeat = wc.nRepeat ∨
      wc.nRepeat ≠ 0 ∧ wc'.nRepeat.toNat = wc.nRepeat.toNat - 1) := by
  have hspec := wapnext_spec env (content env m l) trac wc
  unfold TurnOk at hok
  rw [hd] at hok
  refine ⟨hspec.steps, ?_⟩
  rcases hspec.nRepeat with h | ⟨hend, hp, h⟩
  · exact .inl h
  · have hne : wc.nRepeat ≠ 0 := fun h0 => hok.2 ⟨h0, hend, hp⟩
    exact .inr ⟨hne, by rw [h, toNat_sub_one hne]⟩

/-- The counter stays below 256 in a turn, however the turn ends. -/
theorem perform_counter {l : Line} {w : Work} (hok : TurnOk env m l w.wc)
    (h : w.wc.nRepeat.toNat ≤ 255) :
    (perform env m l (l.second + announced env m l) w (deed env m l w.wc)).work.wc.nRepeat.toNat ≤
      255 := by
  cases hd : deed env m l w.wc with
  | refuse err => exact h
  | skip => exact h
  | setVars imei imsi smsc => exact h
  | init =>
    rw [perform]
    split
    · exact Nat.zero_le _
    · rw [handOver_wc]
      rcases (wapinit_spec env (content env m l) w.restart.wc).nRepeat with h' | h'
      · change ((wapinit env (content env m l)).exec w.restart.wc).2.nRepeat.toNat ≤ 255
        rw [h']
        exact Nat.zero_le _
      · exact h'
  | next trac =>
    rw [perform]
    split
    · rw [handOver_wc]
      change ((wapnext env (content env m l) trac).exec w.wc).2.nRepeat.toNat ≤ 255
      rcases (next_counter hd hok).2 with h' | ⟨_, h'⟩
      · rw [h']
        exact h
      · omega
    · exact h

/-- What a turn that goes on makes of a session is fit. -/
theorem perform_fit {l : Line} {w w' : Work} {p : Int} (hok : TurnOk env m l w.wc)
    (h : Fit w.wc)
    (ho : perform env m l (l.second + announced env m l) w (deed env m l w.wc) = .onward p w') :
    Fit w'.wc := by
  have hhand : ∀ {f : Act (Except String Bytes)} {endc : Int} {v : Work},
      handOver f endc v = .onward p w' →
      w'.wc = (f.exec v.wc).2 ∧ ∃ r, (f.exec v.wc).1 = .ok r := by
    intro f endc v hf
    unfold handOver at hf
    split at hf <;> rename_i hx <;> cases hf <;> rw [hx]
    · exact ⟨rfl, _, rfl⟩
    · exact ⟨rfl, _, rfl⟩
  cases hd : deed env m l w.wc with
  | refuse err =>
    rw [hd] at ho
    cases ho
  | skip =>
    rw [hd] at ho
    cases ho
    exact h
  | setVars imei imsi smsc =>
    rw [hd] at ho
    cases ho
    exact h
  | init =>
    rw [hd, perform] at ho
    split at ho
    · cases ho
    · obtain ⟨hwc, r, hr⟩ := hhand ho
      have hspec := wapinit_spec env (content env m l) w.restart.wc
      unfold TurnOk at hok
      rw [hd] at hok
      rw [hwc]
      cases r with
      | error err => exact absurd hok (hspec.rejected err hr)
      | ok out =>
        right
        have hacc := hspec.accepted out hr
        have h0 : w.restart.wc.steps.length = 0 := rfl
        rw [h0, Nat.zero_add, Nat.zero_add] at hacc
        exact hacc
  | next trac =>
    rw [hd, perform] at ho
    split at ho
    · obtain ⟨hwc, _, _⟩ := hhand ho
      obtain ⟨hsteps, hn⟩ := next_counter hd hok
      rw [hwc]
      change Fit ((wapnext env (content env m l) trac).exec w.wc).2
      rcases h with h0 | hv
      · rcases hn with hn | ⟨hne, _⟩
        · exact .inl (hn.trans h0)
        · exact absurd h0 hne
      · unfold Fit Valid
        rw [hsteps]
        rcases hn with hn | ⟨_, hn⟩
        · rw [hn]
          exact .inr hv
        · by_cases h1 : w.wc.nRepeat.toNat = 1
          · left
            apply UInt32.toNat_inj.mp
            rw [hn, h1]
            rfl
          · right
            have := hv.2
            exact ⟨hv.1, by omega, by omega⟩
    · cases ho

/-! ## One request -/

variable {w : Work}

/-- Every command that the loop comes to is acceptable. -/
def AllOk (env : Env) (m : Memory) (w : Work) : Prop :=
  ∀ v l, Reached env m w v → (turn env m v.1 v.2).line = some l → TurnOk env m l v.2.wc

theorem reached_fit (hok : AllOk env m w) (h : Fit w.wc) {v : Int × Work}
    (hv : Reached env m w v) : Fit v.2.wc := by
  refine hv.invariant (P := fun w => Fit w.wc) ?_ h
  intro s p w' hs hfit ho
  obtain ⟨l, hl⟩ := line_of_onward ho
  rw [turn_eq hl] at ho
  exact perform_fit (hok s l hs hl) hfit ho

theorem turn_counter (hok : AllOk env m w) {v : Int × Work} (hv : Reached env m w v)
    (h : v.2.wc.nRepeat.toNat ≤ 255) :
    (turn env m v.1 v.2).outcome.work.wc.nRepeat.toNat ≤ 255 := by
  rcases @turn_work env m v.1 v.2 with heq | ⟨l, hl, heq⟩
  · rw [heq]
    exact h
  · rw [heq]
    exact perform_counter (hok v l hv hl) h

theorem reached_counter (hok : AllOk env m w) (h : w.wc.nRepeat.toNat ≤ 255) {v : Int × Work}
    (hv : Reached env m w v) : v.2.wc.nRepeat.toNat ≤ 255 := by
  refine hv.invariant (P := fun w => w.wc.nRepeat.toNat ≤ 255) ?_ h
  intro s p w' hs hle ho
  have hturn := turn_counter hok hs hle
  rw [ho] at hturn
  exact hturn

theorem commands_counter (hok : AllOk env m w) (h : w.wc.nRepeat.toNat ≤ 255) {e : Ended}
    (he : Commands env m w e) : e.work.wc.nRepeat.toNat ≤ 255 := by
  obtain ⟨v, hv, hlast⟩ := he.last
  rw [ended_work hlast]
  exact turn_counter hok hv (reached_counter hok h hv)

theorem handOver_ended (f : Act (Except String Bytes)) (pos : Int) (w w' : Work) :
    (handOver f pos w).ended ≠ some (.returned none w') := by
  unfold handOver
  split <;>
  · intro h
    cases h

/-- A command does not end the loop without an error. -/
theorem perform_ended (l : Line) (endc : Int) (w w' : Work) (d : Deed) :
    (perform env m l endc w d).ended ≠ some (.returned none w') := by
  cases d with
  | init =>
    rw [perform]
    split
    · intro h
      cases h
    · exact handOver_ended _ _ _ _
  | next trac =>
    rw [perform]
    split
    · exact handOver_ended _ _ _ _
    · intro h
      cases h
  | _ =>
    intro h
    cases h

/-- A request that succeeds leaves a valid session. -/
theorem commands_valid (hok : AllOk env m w) (h : Fit w.wc) {e : Ended}
    (he : Commands env m w e) {err : Option String} {w' : Work}
    (hreply : reply e = some (err, w')) (hs : succeeds err w'.wc = true) : Valid w'.wc := by
  simp only [Store.succeeds, Bool.and_eq_true, Option.isNone_iff_eq_none, decide_eq_true_eq] at hs
  obtain ⟨rfl, hpos⟩ := hs
  obtain ⟨v, hv, hlast⟩ := he.last
  have hfit := reached_fit hok h hv
  have hend : e = .returned none w' := by
    unfold reply at hreply
    split at hreply <;> cases hreply
    rfl
  rw [hend] at hlast
  -- a loop that ends without an error ends with a turn that changes nothing
  have hwork : w' = v.2 := by
    rcases @turn_work env m v.1 v.2 with heq | ⟨l, _, heq⟩
    · exact (ended_work hlast).trans heq
    · rw [heq] at hlast
      exact absurd hlast (perform_ended _ _ _ _ _)
  rw [hwork]
  rcases hfit with h0 | hv
  · rw [hwork, h0] at hpos
    exact absurd hpos (by decide)
  · exact hv

/-- An error that `wapinit` or `wapnext` reports is an exception, and the last
thing that happens in the request. -/
theorem reports_error (hok : AllOk env m w) {v : Int × Work} {l : Line}
    (hv : Reached env m w v) (hl : (turn env m v.1 v.2).line = some l)
    (hr : Reports env m l v.2) {e : Ended} (he : Commands env m w e) :
    ∃ what w', reply e = some (some what, w') := by
  have hturn := hok v l hv hl
  have heq := turn_eq hl
  have hlast : ∃ what w', (turn env m v.1 v.2).outcome = .trapped (.thrown what) w' := by
    have hthrow : ∀ {f : Act (Except String Bytes)} {endc : Int} {u : Work} {what : String},
        (f.exec u.wc).1 = .error (.thrown what) →
        ∃ what w', handOver f endc u = .trapped (.thrown what) w' := by
      intro f endc u what hf
      rcases hx : f.exec u.wc with ⟨r, wc'⟩
      rw [hx] at hf
      dsimp only at hf
      subst hf
      exact ⟨what, _, by rw [handOver, hx]⟩
    rw [heq]
    dsimp only
    unfold Reports at hr
    unfold TurnOk at hturn
    cases hd : deed env m l v.2.wc with
    | init =>
      rw [hd] at hr hturn
      obtain ⟨hsize, ⟨what, hx⟩ | ⟨err, hx⟩⟩ := hr
      · rw [perform, if_neg (by omega)]
        exact hthrow hx
      · exact absurd hturn ((wapinit_spec env _ _).rejected err hx)
    | next trac =>
      rw [hd] at hr hturn
      obtain ⟨hsize, ⟨what, hx⟩ | ⟨err, hx⟩⟩ := hr
      · rw [perform, if_pos hsize]
        exact hthrow hx
      · exact absurd hturn.1 ((wapnext_spec env _ _ _).rejected err hx)
    | _ =>
      rw [hd] at hr
      exact hr.elim
  obtain ⟨what, w', ho⟩ := hlast
  have hend := hv.commands (e := .trapped (.thrown what) w') (by rw [ho]; rfl)
  rw [he.unique hend]
  exact ⟨what, w', rfl⟩

/-! ## Runs of the server -/

variable {s t : Server}

/-- A connection holds the session at this address. -/
def Held (s : Server) (a : Nat) : Prop := ∃ c r, s.conns c = some r ∧ r.iidx = some a

/-- No counter has wrapped, and a session that nobody holds is valid. -/
structure SessionsOk (s : Server) : Prop where
  inv : Inv s
  counter : ∀ n ∈ s.stats, n.stat.nRepeat.toNat ≤ 255
  valid : ∀ n ∈ s.stats, Valid n.stat ∨ Held s n.addr

/-- What others hold does not depend on this connection. -/
theorem Held.setConn {a c : Nat} {r : Option Reader} (h : Held s a)
    (hc : ∀ r', s.conns c = some r' → r'.iidx ≠ some a) : Held (s.setConn c r) a := by
  obtain ⟨c', r', hr, ha⟩ := h
  have hne : c' ≠ c := by
    rintro rfl
    exact hc r' hr ha
  exact ⟨c', r', by rw [Server.setConn_ne s r hne]; exact hr, ha⟩

/-- The session that a request starts with: one of the store, or a new one. -/
theorem start_ok (h : SessionsOk s) {cid : Int} {n : Node} (hn : n ∈ (s.initref cid).1.stats) :
    n.stat.nRepeat.toNat ≤ 255 ∧ (Fit n.stat ∨ Held s n.addr) := by
  obtain ⟨_, _, _, _, hstats, _⟩ := h.inv.initref cid
  rcases hstats n hn with hmem | ⟨rfl, _⟩
  · exact ⟨h.counter n hmem, (h.valid n hmem).imp_left .inr⟩
  · exact ⟨Nat.zero_le _, .inl (.inl rfl)⟩

theorem sessions_request (h : SessionsOk s) {c : Nat} {cid : Int} {m : Memory} {ended : Ended}
    (hok : Accepts env s (.request c cid m ended)) (hs : Step env s (.request c cid m ended) t) :
    SessionsOk t := by
  have hinv := step_inv h.inv hs
  obtain ⟨r, e, n, err, w, hr, hreading, he, hea, hec, hn, hna, _, hcmd, hreply, rfl⟩ :=
    request_cases h.inv hs
  obtain ⟨hi', hconns, _, _, hstats, _⟩ := h.inv.initref cid
  have href : (s.initref cid).1.ref (s.initref cid).2 = .ok n := by
    obtain ⟨n', hn', href, hna', _⟩ := hi'.ref_ok he
    rw [← hea, href, hi'.node_eq hn' hn (hna'.trans hna.symm)]
  have hall : AllOk env m ⟨n.stat, [], r.buf⟩ := hok r n hr href
  obtain ⟨hle, hfit⟩ := start_ok h hn
  have hidle : ∀ a r', s.conns c = some r' → r'.iidx ≠ some a := by
    intro a r' hr' ha
    rw [hr] at hr'
    cases hr'
    rw [h.inv.idle c r hr hreading] at ha
    cases ha
  have hkeep : ∀ {a}, Held s a → Held (((s.initref cid).1.put n.addr w.wc).setConn c
      (some ⟨false, if succeeds err w.wc then none else some e.addr, answer err w⟩)) a := by
    rintro a ⟨c', r', hr', ha⟩
    refine Held.setConn ⟨c', r', ?_, ha⟩ ?_
    · exact hconns ▸ hr'
    · intro r'' hr''
      exact hidle a r'' (hconns ▸ hr'')
  have hwork := reply_work hreply
  refine ⟨hinv, ?_, ?_⟩
  · intro n₁ hn₁
    obtain ⟨n₀, hn₀, rfl⟩ := List.mem_map.mp hn₁
    split
    · change w.wc.nRepeat.toNat ≤ 255
      rw [hwork]
      exact commands_counter hall hle hcmd
    · exact (start_ok h hn₀).1
  · intro n₁ hn₁
    obtain ⟨n₀, hn₀, rfl⟩ := List.mem_map.mp hn₁
    split
    · rename_i heq
      change Valid w.wc ∨ Held _ n₀.addr
      rcases hfit with hfit | hheld
      · cases hsucc : succeeds err w.wc with
        | true => exact .inl (commands_valid hall hfit hcmd hreply hsucc)
        | false =>
          right
          rw [heq, hna]
          exact ⟨c, _, Server.setConn_self _ _ _, rfl⟩
      · exact .inr (hkeep (heq ▸ hheld))
    · rename_i hne
      rcases hstats n₀ hn₀ with hmem | ⟨rfl, hnext⟩
      · exact (h.valid n₀ hmem).imp_right hkeep
      · exact absurd (hnext.symm.trans (hea.symm.trans hna.symm)) hne

theorem sessions_step {ev : Event} (h : SessionsOk s)
    (hs : Guarded (Accepts env) (Step env) s ev t) : SessionsOk t := by
  cases ev with
  | accept c =>
    have hinv := step_inv h.inv hs.2
    obtain ⟨_, hclosed, hx⟩ := hs
    cases hx
    refine ⟨hinv, h.counter, fun n hn => (h.valid n hn).imp_right fun hheld => ?_⟩
    apply hheld.setConn
    intro r hr
    rw [show s.conns c = none from hclosed] at hr
    cases hr
  | request c cid m ended => exact sessions_request h hs.1 hs.2
  | close c =>
    have hinv := step_inv h.inv hs.2
    obtain ⟨r, hr, ⟨hnone, rfl⟩ | ⟨e, he, hre, rfl⟩⟩ := close_cases h.inv hs.2
    · refine ⟨hinv, h.counter, fun n hn => (h.valid n hn).imp_right fun hheld => ?_⟩
      apply hheld.setConn
      intro r' hr' ha
      rw [hr] at hr'
      cases hr'
      rw [hnone] at ha
      cases ha
    · refine ⟨hinv, fun n hn => h.counter n (List.mem_filter.mp hn).1, fun n hn => ?_⟩
      obtain ⟨hmem, hne⟩ := List.mem_filter.mp hn
      refine (h.valid n hmem).imp_right fun hheld => ?_
      apply Held.setConn (s := s.without e.addr) hheld
      intro r' hr' ha
      change s.conns c = some r' at hr'
      rw [hr] at hr'
      cases hr'
      rw [hre] at ha
      exact of_decide_eq_true hne (Option.some.inj ha).symm

theorem sessions_run {s₀ : Server} (h₀ : SessionsOk s₀) {evs : List Event}
    (h : Run (Guarded (Accepts env) (Step env)) s₀ evs s) : SessionsOk s :=
  h.invariant (P := SessionsOk) (fun _ _ _ hp hs => sessions_step hp hs) h₀

/-- The connection holds the element at this address, or there is none any more.
Its address is not used again. -/
def HeldOrDropped (c a : Nat) (r : Reader) (s : Server) : Prop :=
  a < s.next ∧ (s.conns c = some r ∨ ∀ n ∈ s.stats, n.addr ≠ a)

theorem heldOrDropped_step {c a : Nat} {r : Reader} (hi : Inv s) (hreading : r.reading = false)
    (ha : r.iidx = some a) (h : HeldOrDropped c a r s) {ev : Event} (hs : Step env s ev t) :
    HeldOrDropped c a r t := by
  obtain ⟨hlt, h⟩ := h
  cases ev with
  | accept c' =>
    obtain ⟨hclosed, hx⟩ := hs
    cases hx
    refine ⟨hlt, h.imp_left fun hr => ?_⟩
    have hne : c ≠ c' := by
      rintro rfl
      rw [show s.conns c = none from hclosed] at hr
      cases hr
    rw [Server.setConn_ne s _ hne]
    exact hr
  | request c' cid m ended =>
    obtain ⟨r', e, n, err, w, hr', hreading', _, _, _, _, _, _, _, _, rfl⟩ := request_cases hi hs
    obtain ⟨_, hconns, _, _, hstats, _, hnext⟩ := hi.initref cid
    refine ⟨Nat.lt_of_lt_of_le hlt hnext, ?_⟩
    rcases h with hr | hgone
    · left
      have hne : c ≠ c' := by
        rintro rfl
        rw [hr] at hr'
        cases hr'
        rw [hreading] at hreading'
        cases hreading'
      rw [Server.setConn_ne _ _ hne]
      exact hconns ▸ hr
    · right
      intro n₁ hn₁
      obtain ⟨n₀, hn₀, rfl⟩ := List.mem_map.mp hn₁
      have haddr : n₀.addr ≠ a := by
        rcases hstats n₀ hn₀ with hmem | ⟨rfl, _⟩
        · exact hgone n₀ hmem
        · exact Nat.ne_of_gt hlt
      split <;> exact haddr
  | close c' =>
    obtain ⟨r', hr', ⟨hnone, rfl⟩ | ⟨e, he, hre, rfl⟩⟩ := close_cases hi hs
    · refine ⟨hlt, ?_⟩
      rcases h with hr | hgone
      · left
        have hne : c ≠ c' := by
          rintro rfl
          rw [hr] at hr'
          cases hr'
          rw [hnone] at ha
          cases ha
        rw [Server.setConn_ne _ _ hne]
        exact hr
      · exact .inr hgone
    · refine ⟨hlt, ?_⟩
      rcases h with hr | hgone
      · by_cases hc : c = c'
        · subst hc
          right
          rw [hr] at hr'
          cases hr'
          rw [ha] at hre
          cases hre
          exact fun n hn => of_decide_eq_true (List.mem_filter.mp hn).2
        · left
          rw [Server.setConn_ne _ _ hc]
          exact hr
      · exact .inr fun n hn => hgone n (List.mem_filter.mp hn).1

theorem heldOrDropped_run {c a : Nat} {r : Reader} (hi : Inv t) (hreading : r.reading = false)
    (ha : r.iidx = some a) (h : HeldOrDropped c a r t) {later : List Event} {u : Server}
    (hrun : Run (Step env) t later u) : HeldOrDropped c a r u :=
  (hrun.invariant (P := fun s => Inv s ∧ HeldOrDropped c a r s)
    (fun _ _ _ hp hs => ⟨step_inv hp.1 hs, heldOrDropped_step hp.1 hreading ha hp.2 hs⟩)
    ⟨hi, h⟩).2

/-- A request that ends with an error is answered with 501, and costs its session:
as long as the connection is open it holds the session, and then it is gone. -/
theorem error_drops (hi : Inv s) {c : Nat} {cid : Int} {m : Memory} {ended : Ended}
    (hs : Step env s (.request c cid m ended) t) {msg : String} {w : Work}
    (hreply : reply ended = some (some msg, w)) :
    ∃ a r, t.conns c = some r ∧ r.buf = assignRsp 501 msg (bytes "bye.") ∧ r.iidx = some a ∧
      (∃ n ∈ t.stats, n.addr = a ∧ n.stat.cid = cid) ∧
      ∀ later u, Run (Step env) t later u → u.conns c = some r ∨ ∀ n ∈ u.stats, n.addr ≠ a := by
  have hinv := step_inv hi hs
  obtain ⟨_, e, n, err, w', _, _, he, _, _, hn, hna, hnc, hcmd, hr, ht⟩ := request_cases hi hs
  rw [hreply] at hr
  cases hr
  have hconn : t.conns c = some ⟨false, some e.addr, assignRsp 501 msg (bytes "bye.")⟩ := by
    rw [ht, Server.setConn_self]
    rfl
  have hmem : ∃ n' ∈ t.stats, n'.addr = e.addr ∧ n'.stat.cid = cid := by
    rw [ht]
    refine ⟨_, List.mem_map_of_mem hn, ?_, ?_⟩
    · split <;> exact hna
    · rw [if_pos rfl]
      have hcid := hcmd.cid
      rw [← reply_work hreply] at hcid
      exact hcid.trans hnc
  have hlt : e.addr < t.next := by
    obtain ⟨n', hn', hna', _⟩ := hmem
    exact hna' ▸ hinv.fresh n' hn'
  refine ⟨e.addr, _, hconn, rfl, rfl, hmem, fun later u hrun => ?_⟩
  exact (heldOrDropped_run hinv rfl rfl ⟨hlt, .inl hconn⟩ hrun).2

/-! ## Requests of one connection -/

/-- The counts in a content that is given. -/
theorem initAccepts_of {id rest left : Bytes} {nstep nRepeat : UInt8} (hid : id.length = 4)
    (hs : 1 ≤ nstep.toNat ∧ nstep.toNat ≤ 16)
    (hpop : ((popMany (popStep env) nstep.toNat).run rest).map Prod.snd = .ok (nRepeat :: left))
    (hn : 1 ≤ nRepeat.toNat ∧ nRepeat.toNat ≤ 8) : InitAccepts env (id ++ nstep :: rest) := by
  intro id' nstep' rest' h hid'
  obtain ⟨rfl, heq⟩ := List.append_inj h (hid.trans hid'.symm)
  cases heq
  refine ⟨hs, fun steps k left' hrun _ => ?_⟩
  rw [hrun] at hpop
  cases hpop
  exact hn

theorem script_init : InitAccepts .ilp32 (slice scriptBody.body 23 43) := by
  have h : slice scriptBody.body 23 43 =
      [0, 0, 0, 0] ++ 1 :: [0, 0, 0, 0, 0, 0, 0, 0, 0, 0, 0, 0, 1, 0, 0] := by decide +kernel
  have hpop : ((popMany (popStep .ilp32) (1 : UInt8).toNat).run
      [0, 0, 0, 0, 0, 0, 0, 0, 0, 0, 0, 0, 1, 0, 0]).map Prod.snd = .ok [1, 0, 0] := by
    decide +kernel
  rw [h]
  exact initAccepts_of rfl (by decide) hpop (by decide)

theorem script_accepts : Accepts .ilp32 opened (.request 2 7 scriptBody (endOf scriptBody)) := by
  have hfirst : (turn .ilp32 scriptBody 0 ⟨.new 7, [], []⟩).line = some ⟨0, 23⟩ := by
    decide +kernel
  have hsize : announced .ilp32 scriptBody ⟨0, 23⟩ = 20 := by decide +kernel
  have hafter : ¬(cmdLine scriptBody 43).first < (cmdLine scriptBody 43).second := by
    decide +kernel
  intro r n hr href v l hv hl
  cases hr
  cases href
  obtain ⟨ls, hrun⟩ := hv
  -- there is one command, and nothing behind it
  have hpos : v = (0, ⟨.new 7, [], []⟩) ∨ v.1 = 43 := by
    refine hrun.invariant (P := fun v => v = (0, ⟨.new 7, [], []⟩) ∨ v.1 = 43) ?_ (.inl rfl)
    rintro s l' t (rfl | hs) hstep
    · right
      have hline := hstep.1
      rw [hfirst] at hline
      cases hline
      rw [step_pos hstep, hsize]
      rfl
    · obtain ⟨_, _, rfl, hlt⟩ := turn_line hstep.1
      rw [hs] at hlt
      exact absurd hlt hafter
  rcases hpos with rfl | hv
  · rw [hfirst] at hl
    cases hl
    have hd : deed .ilp32 scriptBody ⟨0, 23⟩ (.new 7) = .init := by decide +kernel
    unfold TurnOk
    rw [hd]
    show InitAccepts .ilp32 (content .ilp32 scriptBody ⟨0, 23⟩)
    rw [content, hsize]
    exact script_init
  · obtain ⟨_, _, rfl, hlt⟩ := turn_line hl
    rw [hv] at hlt
    exact absurd hlt hafter

/-- A request that succeeds leaves its session to the store. -/
theorem processed_unheld {w : Work} (h : succeeds none w.wc = true) :
    Unheld (processed none w) 0 := by
  intro c r hr
  rcases setConn_cases hr with ⟨_, hc⟩ | ⟨hne, hc⟩
  · cases hc
    simp only [h, if_true]
    exact nofun
  · rcases setConn_cases (s := restore []) hc with ⟨heq, _⟩ | ⟨_, hc⟩
    · exact absurd heq hne
    · cases hc

/-- A script without steps. -/
def emptyBody : Memory := ⟨bytes "Ch-Init size=5 trac=0\n" ++ [0, 0, 0, 0, 0], []⟩

/-- A script of nine repetitions. -/
def ninefoldBody : Memory :=
  ⟨bytes "Ch-Init size=20 trac=0\n" ++ [0, 0, 0, 0, 1, 0, 0, 0, 0, 0, 0, 0, 0, 0, 0, 0, 0, 9, 0, 0], []⟩

/-- A script of one repetition, and two responses to its only step. -/
def twiceBody : Memory :=
  let rsp := bytes "\nCh-Response size=23 trac=1\nX\r\n\r\nHTTP/1.1 404 N\r\n\r\n"
  ⟨scriptBody.body ++ rsp ++ rsp, []⟩

/-! ## The main result -/

/-- In every run whose requests are acceptable, from a store of valid sessions: a
session that no connection holds is valid; no counter wraps, in no turn of any
request; and a request in which `wapinit` or `wapnext` reports an error is
answered with 501 and costs its session. -/
theorem sessions_valid (env : Env) (saved : List Wcstat) (hsaved : (saved.map Wcstat.cid).Nodup)
    (hvalid : ∀ wc ∈ saved, Valid wc) {evs : List Event} {s : Server}
    (hrun : Run (Guarded (Accepts env) (Step env)) (restore saved) evs s) :
    (∀ e ∈ s.idx, Unheld s e.addr → ∀ n ∈ s.stats, n.addr = e.iter → Valid n.stat) ∧
    (∀ n ∈ s.stats, n.stat.nRepeat.toNat ≤ 255) ∧
    ∀ c cid m ended t, Guarded (Accepts env) (Step env) s (.request c cid m ended) t →
      ∃ r n, s.conns c = some r ∧ (s.initref cid).1.ref (s.initref cid).2 = .ok n ∧
      (∀ v, Reached env m ⟨n.stat, [], r.buf⟩ v →
        (turn env m v.1 v.2).outcome.work.wc.nRepeat.toNat ≤ 255) ∧
      ∀ v l, Reached env m ⟨n.stat, [], r.buf⟩ v → (turn env m v.1 v.2).line = some l →
        Reports env m l v.2 → ∃ msg a r', t.conns c = some r' ∧
          r'.buf = assignRsp 501 msg (bytes "bye.") ∧ r'.iidx = some a ∧
          (∃ n' ∈ t.stats, n'.addr = a ∧ n'.stat.cid = cid) ∧
          ∀ later u, Run (Step env) t later u → u.conns c = some r' ∨ ∀ n' ∈ u.stats, n'.addr ≠ a := by
  obtain ⟨hi₀, _, hstats⟩ := restore_inv saved hsaved
  have h₀ : SessionsOk (restore saved) := by
    refine ⟨hi₀, fun n hn => ?_, fun n hn => .inl (hvalid _ (hstats n hn))⟩
    have := (hvalid _ (hstats n hn)).2
    omega
  have hok := sessions_run h₀ hrun
  refine ⟨?_, hok.counter, ?_⟩
  · intro e he hun n hn hna
    rcases hok.valid n hn with hv | ⟨c, r, hr, ha⟩
    · exact hv
    · rw [hna, ← hok.inv.same e he] at ha
      exact absurd ha (hun c r hr)
  · intro c cid m ended t hs
    obtain ⟨hacc, hstep⟩ := hs
    obtain ⟨r, e, n, err, w, hr, _, he, hea, _, hn, hna, _, hcmd, hreply, _⟩ :=
      request_cases hok.inv hstep
    obtain ⟨hi', _⟩ := hok.inv.initref cid
    obtain ⟨n', hn', href, hna', _⟩ := hi'.ref_ok he
    rw [hi'.node_eq hn' hn (hna'.trans hna.symm), hea] at href
    have hall : AllOk env m ⟨n.stat, [], r.buf⟩ := hacc r n hr href
    have hle := (start_ok hok hn).1
    refine ⟨r, n, hr, href, fun v hv => turn_counter hall hv (reached_counter hall hle hv), ?_⟩
    intro v l hv hl hrep
    obtain ⟨msg, w', herr⟩ := reports_error hall hv hl hrep hcmd
    exact ⟨msg, error_drops hok.inv hstep herr⟩

/-- The session that a script makes is valid once its connection does not hold it. -/
theorem sessions_valid_script : Valid (endOf scriptBody).work.wc := by
  have hstep := step_processed (m := scriptBody) (by decide) script_commands script_reply
  have h1 : Run (Guarded (Accepts .ilp32) (Step .ilp32)) (restore []) [.accept 2] opened :=
    Run.single ⟨trivial, step_opened⟩
  have h2 := h1.snoc (a := .request 2 7 scriptBody (endOf scriptBody)) ⟨script_accepts, hstep⟩
  obtain ⟨hvalid, _⟩ := sessions_valid .ilp32 [] List.nodup_nil (fun _ h => (by cases h)) h2
  exact hvalid ⟨0, 7, 0⟩ (List.mem_singleton.mpr rfl) (processed_unheld script_succeeds)
    ⟨0, (endOf scriptBody).work.wc⟩ (List.mem_singleton.mpr rfl) rfl

/-- In a store with no sessions: an error that `wapinit` reports is answered with
nothing, a session with nine repetitions survives, and one whose counter wrapped. -/
theorem sessions_broken : Run (Step .ilp32) (restore []) [.accept 2] opened ∧
    (∃ t, Step .ilp32 opened (.request 2 7 emptyBody (endOf emptyBody)) t ∧
      Reports .ilp32 emptyBody ⟨0, 22⟩ ⟨.new 7, [], []⟩ ∧ ∃ r, t.conns 2 = some r ∧ r.buf = []) ∧
    (∃ t, Step .ilp32 opened (.request 2 7 ninefoldBody (endOf ninefoldBody)) t ∧
      ∃ e ∈ t.idx, Unheld t e.addr ∧ ∃ n ∈ t.stats, n.addr = e.iter ∧ n.stat.nRepeat = 9) ∧
    ∃ t, Step .ilp32 opened (.request 2 7 twiceBody (endOf twiceBody)) t ∧
      ∃ e ∈ t.idx, Unheld t e.addr ∧ ∃ n ∈ t.stats, n.addr = e.iter ∧ n.stat.nRepeat = 0 - 1 := by
  have hstep : ∀ m : Memory, m.body ≠ [] → (loop .ilp32 m 5 0 ⟨.new 7, [], []⟩).isSome = true →
      reply (endOf m) = some (none, (endOf m).work) →
      Step .ilp32 opened (.request 2 7 m (endOf m)) (processed none (endOf m).work) :=
    fun m hm hloop hreply => step_processed hm (commands_endOf hloop) hreply
  have hsurvives : ∀ w : Work, ∀ k, succeeds none w.wc = true → w.wc.nRepeat = k →
      ∃ e ∈ (processed none w).idx, Unheld (processed none w) e.addr ∧
        ∃ n ∈ (processed none w).stats, n.addr = e.iter ∧ n.stat.nRepeat = k :=
    fun w k hs hk => ⟨⟨0, 7, 0⟩, List.mem_singleton.mpr rfl, processed_unheld hs, ⟨0, w.wc⟩,
      List.mem_singleton.mpr rfl, rfl, hk⟩
  refine ⟨Run.single step_opened, ?_, ?_, ?_⟩
  · refine ⟨_, hstep emptyBody (by decide) (by decide +kernel) (by decide +kernel), ?_, _, rfl,
      by decide +kernel⟩
    have hd : deed .ilp32 emptyBody ⟨0, 22⟩ (.new 7) = .init := by decide +kernel
    unfold Reports
    dsimp only
    rw [hd]
    exact ⟨by decide +kernel, .inr ⟨"Steps count error", by decide +kernel⟩⟩
  · exact ⟨_, hstep ninefoldBody (by decide) (by decide +kernel) (by decide +kernel),
      hsurvives _ _ (by decide +kernel) (by decide +kernel)⟩
  · exact ⟨_, hstep twiceBody (by decide) (by decide +kernel) (by decide +kernel),
      hsurvives _ _ (by decide +kernel) (by decide +kernel)⟩

end CppSnippets.Wap.Validity
