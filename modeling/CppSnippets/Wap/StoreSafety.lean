import CppSnippets.Wap.Store

/-!
# Safety of the session store

List and index stay in bijection in every run. The iterators do not: a failed
request leaves its connection with an iterator to the session, and a second
connection for the same client can take the session over, or take the same
iterator, while the first is still open. The condition under which neither
happens is on the state in which a request begins.
-/
namespace CppSnippets.Wap.StoreSafety

open CppSnippets.Lib Store

variable {env : Env} {s t : Server}

/-- A request for a client id begins only when no other open connection holds the
entry of that id. -/
def Begun (s : Server) : Event → Prop
  | .request c cid _ _ => ∀ e ∈ s.idx, e.cid = cid → ∀ c' r, c' ≠ c → s.conns c' = some r →
      r.iidx ≠ some e.addr
  | _ => True

/-- No connection holds this entry. -/
def Unheld (s : Server) (a : Nat) : Prop := ∀ c r, s.conns c = some r → r.iidx ≠ some a

/-- What connections hold is live, and held once. -/
structure Exclusive (s : Server) : Prop where
  live : ∀ c r a, s.conns c = some r → r.iidx = some a → ∃ e ∈ s.idx, e.addr = a
  single : ∀ c c' r r' a, s.conns c = some r → s.conns c' = some r' → r.iidx = some a →
    r'.iidx = some a → c = c'

/-- The session of this client. -/
def Holds (s : Server) (cid : Int) (stat : Wcstat) : Prop :=
  ∃ e ∈ s.idx, e.cid = cid ∧ ∃ n ∈ s.stats, n.addr = e.iter ∧ n.stat = stat

/-! ## What a step keeps -/

/-- A connection replaced: what the others hold is as before. -/
theorem setConn_cases {c c' : Nat} {r' : Reader} {r : Option Reader}
    (h : (s.setConn c r).conns c' = some r') :
    c' = c ∧ r = some r' ∨ c' ≠ c ∧ s.conns c' = some r' := by
  by_cases hc : c' = c
  · subst hc
    rw [Server.setConn_self] at h
    exact .inl ⟨rfl, h⟩
  · rw [Server.setConn_ne s r hc] at h
    exact .inr ⟨hc, h⟩

/-- Whoever holds an entry held it before, and the entry is still there. -/
theorem Exclusive.mono (hx : Exclusive s) (h : ∀ c r a, t.conns c = some r → r.iidx = some a →
    s.conns c = some r ∧ ∀ e ∈ s.idx, e.addr = a → e ∈ t.idx) : Exclusive t := by
  constructor
  · intro c r a hr ha
    obtain ⟨hs, hidx⟩ := h c r a hr ha
    obtain ⟨e, he, hea⟩ := hx.live c r a hs ha
    exact ⟨e, hidx e he hea, hea⟩
  · intro c c' r r' a hr hr' ha ha'
    exact hx.single c c' r r' a (h c r a hr ha).1 (h c' r' a hr' ha').1 ha ha'

theorem exclusive_accept (hx : Exclusive s) (c : Nat) :
    Exclusive (s.setConn c (some ⟨true, none, []⟩)) := by
  apply hx.mono
  intro c' r a hr ha
  rcases setConn_cases hr with ⟨_, h⟩ | ⟨_, h⟩
  · cases h
    cases ha
  · exact ⟨h, fun e he _ => he⟩

theorem exclusive_request (hi : Inv s) (hx : Exclusive s) {c : Nat} {cid : Int} {m : Memory}
    {ended : Ended} (hok : Begun s (.request c cid m ended))
    (h : Step env s (.request c cid m ended) t) : Exclusive t := by
  obtain ⟨_, e, n, err, w, _, _, he, _, hec, _, _, _, _, _, rfl⟩ := request_cases hi h
  obtain ⟨hi', hconns, _, hidx, _⟩ := hi.initref cid
  -- no other connection holds the entry that the request takes
  have hother : ∀ c' r, c' ≠ c → s.conns c' = some r → r.iidx ≠ some e.addr := by
    intro c' r hne hr ha
    obtain ⟨e', he', hae⟩ := hx.live c' r e.addr hr ha
    have heq : e' = e := hi'.entry_eq (hidx e' he') he hae
    exact hok e' he' (heq ▸ hec) c' r hne hr (hae ▸ ha)
  have hold : ∀ {c' r}, ((s.initref cid).1.put n.addr w.wc).conns c' = some r →
      s.conns c' = some r := fun hr => hconns ▸ hr
  constructor
  · intro c' r a hr ha
    rcases setConn_cases hr with ⟨_, h⟩ | ⟨_, h⟩
    · cases h
      dsimp only at ha
      split at ha <;> cases ha
      exact ⟨e, he, rfl⟩
    · obtain ⟨e', he', hae⟩ := hx.live c' r a (hold h) ha
      exact ⟨e', hidx e' he', hae⟩
  · intro c' c'' r r' a hr hr' ha ha'
    have hself : ∀ {r₀ : Reader}, some (Reader.mk false
        (if succeeds err w.wc = true then none else some e.addr) (answer err w)) = some r₀ →
        r₀.iidx = some a → a = e.addr := by
      intro r₀ h₀ ha₀
      cases h₀
      dsimp only at ha₀
      split at ha₀ <;> cases ha₀
      rfl
    rcases setConn_cases hr with ⟨hc, h⟩ | ⟨hc, h⟩ <;>
      rcases setConn_cases hr' with ⟨hc', h'⟩ | ⟨hc', h'⟩
    · exact hc.trans hc'.symm
    · exact absurd (hself h ha ▸ ha') (hother c'' r' hc' (hold h'))
    · exact absurd (hself h' ha' ▸ ha) (hother c' r hc (hold h))
    · exact hx.single c' c'' r r' a (hold h) (hold h') ha ha'

theorem exclusive_close (hi : Inv s) (hx : Exclusive s) {c : Nat}
    (h : Step env s (.close c) t) : Exclusive t := by
  obtain ⟨r, hr, ⟨_, rfl⟩ | ⟨e, he, hre, rfl⟩⟩ := close_cases hi h <;> apply hx.mono <;>
    intro c' r' a hr' ha <;> rcases setConn_cases hr' with ⟨_, h⟩ | ⟨hne, h⟩
  · cases h
  · exact ⟨h, fun e he _ => he⟩
  · cases h
  · refine ⟨h, fun e' he' hae => List.mem_filter.mpr ⟨he', ?_⟩⟩
    apply decide_eq_true
    intro heq
    exact hne (hx.single c' c r' r a h hr ha (by rw [hre, ← heq, hae]))

theorem exclusive_step (hi : Inv s) (hx : Exclusive s) {ev : Event}
    (h : Guarded Begun (Step env) s ev t) : Exclusive t := by
  cases ev with
  | accept c =>
    cases h.2.2
    exact exclusive_accept hx c
  | request c cid m ended => exact exclusive_request hi hx h.1 h.2
  | close c => exact exclusive_close hi hx h.2

/-- Under these invariants no event goes through a dangling iterator. -/
theorem never_dangling (hi : Inv s) (hx : Exclusive s) (ev : Event) :
    exec s ev ≠ .error .dangling := by
  cases ev with
  | accept c =>
    intro h
    cases h
  | request c cid m ended =>
    obtain ⟨hi', _, ⟨e, he, ha, _⟩, _⟩ := hi.initref cid
    obtain ⟨n, _, href, _, _⟩ := hi'.ref_ok he
    rw [ha] at href
    change s.request c cid ended ≠ _
    rw [Server.request, href]
    simp only [bind, Except.bind]
    cases reply ended with
    | none =>
      intro h
      cases h
    | some p =>
      intro h
      cases h
  | close c =>
    change s.close c ≠ _
    rw [Server.close]
    cases hr : s.conns c with
    | none =>
      intro h
      cases h
    | some r =>
      dsimp only
      cases hidx : r.iidx with
      | none =>
        intro h
        cases h
      | some a =>
        obtain ⟨e, he, rfl⟩ := hx.live c r a hr hidx
        dsimp only
        rw [hi.erase_eq he]
        intro h
        cases h

/-! ## A session that is kept -/

/-- The session of this client, which no connection will delete. -/
def Kept (s : Server) (cid : Int) (stat : Wcstat) : Prop :=
  ∃ e ∈ s.idx, e.cid = cid ∧ (∃ n ∈ s.stats, n.addr = e.addr ∧ n.stat = stat) ∧ Unheld s e.addr

theorem Kept.holds {cid : Int} {stat : Wcstat} (hi : Inv s) (h : Kept s cid stat) :
    Holds s cid stat := by
  obtain ⟨e, he, hc, ⟨n, hn, ha, hs⟩, _⟩ := h
  exact ⟨e, he, hc, n, hn, ha.trans (hi.same e he), hs⟩

/-- The event is a request of this client. -/
def Requests (cid : Int) : Event → Prop
  | .request _ cid' _ _ => cid' = cid
  | _ => False

theorem mem_put {n n' : Node} {stat : Wcstat} (h : n' ∈ s.stats) (hne : n'.addr ≠ n.addr) :
    n' ∈ (s.put n.addr stat).stats :=
  List.mem_map.mpr ⟨n', h, if_neg hne⟩

/-- A request that succeeds leaves its session to the store. -/
theorem kept_of_success (hi : Inv s) {c : Nat} {cid : Int} {m : Memory} {ended : Ended}
    {w : Work} (h : Guarded Begun (Step env) s (.request c cid m ended) t)
    (hx : Exclusive s) (hreply : reply ended = some (none, w)) (hn : 0 < w.wc.nRepeat) :
    Kept t cid w.wc := by
  obtain ⟨hok, h⟩ := h
  obtain ⟨_, e, n, err, w', _, _, he, _, hec, hmem, hna, _, _, hr, rfl⟩ := request_cases hi h
  obtain ⟨hi', hconns, _, hidx, _⟩ := hi.initref cid
  rw [hreply] at hr
  cases hr
  refine ⟨e, he, hec, ⟨_, List.mem_map_of_mem hmem, ?_, ?_⟩, ?_⟩
  · split <;> exact hna
  · rw [if_pos rfl]
  · intro c' r hr ha
    rcases setConn_cases hr with ⟨_, h⟩ | ⟨hne, h⟩
    · cases h
      simp [Store.succeeds, hn] at ha
    · change (s.initref cid).1.conns c' = some r at h
      rw [hconns] at h
      obtain ⟨e', he', hae⟩ := hx.live c' r e.addr h ha
      have heq : e' = e := hi'.entry_eq (hidx e' he') he hae
      exact hok e' he' (heq ▸ hec) c' r hne h (hae ▸ ha)

/-- Only a request for the same client changes it. -/
theorem kept_step (hi : Inv s) {ev : Event} {cid : Int} {stat : Wcstat} (hk : Kept s cid stat)
    (hev : ¬Requests cid ev) (h : Step env s ev t) : Kept t cid stat := by
  obtain ⟨e, he, hec, ⟨n, hn, hna, hs⟩, hun⟩ := hk
  cases ev with
  | accept c =>
    cases h.2
    refine ⟨e, he, hec, ⟨n, hn, hna, hs⟩, fun c' r hr => ?_⟩
    rcases setConn_cases hr with ⟨_, h⟩ | ⟨_, h⟩
    · cases h
      exact nofun
    · exact hun c' r h
  | request c cid' m ended =>
    obtain ⟨_, e', n', err, w, _, _, he', _, hec', hn', hna', hnc', _, _, rfl⟩ := request_cases hi h
    obtain ⟨hi', hconns, _, hidx, _, hstats, _⟩ := hi.initref cid'
    have hne : e.addr ≠ e'.addr := by
      intro heq
      have hsame := hi'.entry_eq (hidx e he) he' heq
      exact hev (hec'.symm.trans (hsame ▸ hec))
    refine ⟨e, hidx e he, hec, ⟨n, mem_put (hstats n hn) ?_, hna, hs⟩, fun c' r hr => ?_⟩
    · rw [hna, hna']
      exact hne
    · rcases setConn_cases hr with ⟨_, h⟩ | ⟨_, h⟩
      · cases h
        dsimp only
        split
        · exact nofun
        · exact fun heq => hne (Option.some.inj heq).symm
      · change (s.initref cid').1.conns c' = some r at h
        rw [hconns] at h
        exact hun c' r h
  | close c =>
    obtain ⟨r, hr, ⟨_, rfl⟩ | ⟨e', he', hre, rfl⟩⟩ := close_cases hi h
    · refine ⟨e, he, hec, ⟨n, hn, hna, hs⟩, fun c' r' hr' => ?_⟩
      rcases setConn_cases hr' with ⟨_, h⟩ | ⟨_, h⟩
      · cases h
      · exact hun c' r' h
    · have hne : e.addr ≠ e'.addr := fun heq => hun c r hr (heq ▸ hre)
      refine ⟨e, List.mem_filter.mpr ⟨he, decide_eq_true hne⟩, hec,
        ⟨n, List.mem_filter.mpr ⟨hn, decide_eq_true (hna ▸ hne)⟩, hna, hs⟩, fun c' r' hr' => ?_⟩
      rcases setConn_cases hr' with ⟨_, h⟩ | ⟨_, h⟩
      · cases h
      · exact hun c' r' h

/-! ## Runs -/

theorem inv_run {s₀ : Server} (h₀ : Inv s₀) {evs : List Event} (h : Run (Step env) s₀ evs s) :
    Inv s :=
  h.invariant (P := Inv) (fun _ _ _ hi hs => step_inv hi hs) h₀

theorem exclusive_run {s₀ : Server} (h₀ : Inv s₀) (hx : Exclusive s₀) {evs : List Event}
    (h : Run (Guarded Begun (Step env)) s₀ evs s) : Inv s ∧ Exclusive s :=
  h.invariant (P := fun s => Inv s ∧ Exclusive s)
    (fun _ _ _ hp hs => ⟨step_inv hp.1 hs.2, exclusive_step hp.1 hp.2 hs⟩) ⟨h₀, hx⟩

theorem kept_run (hi : Inv s) {cid : Int} {stat : Wcstat} (hk : Kept s cid stat)
    {later : List Event} (h : Run (Step env) s later t)
    (hl : ∀ ev ∈ later, ¬Requests cid ev) : Inv t ∧ Kept t cid stat :=
  (h.guarded_of_labels hl).invariant (P := fun s => Inv s ∧ Kept s cid stat)
    (fun _ _ _ hp hs => ⟨step_inv hp.1 hs.2, kept_step hp.1 hp.2 hs.1 hs.2⟩) ⟨hi, hk⟩

/-! ## The first request of a client -/

/-- How `commands` ends on this body in the new session of client 7. -/
def endOf (m : Memory) : Ended :=
  (loop .ilp32 m 5 0 ⟨.new 7, [], []⟩).getD (.trapped .diverges ⟨.new 7, [], []⟩)

theorem commands_endOf {m : Memory} (h : (loop .ilp32 m 5 0 ⟨.new 7, [], []⟩).isSome = true) :
    Commands .ilp32 m ⟨.new 7, [], []⟩ (endOf m) := by
  obtain ⟨e, he⟩ := Option.isSome_iff_exists.mp h
  exact ⟨5, by rw [endOf, he]; rfl⟩

/-- Connection 2 is open. -/
def opened : Server := (restore []).setConn 2 (some ⟨true, none, []⟩)

/-- And its request for client 7 has been processed. -/
def processed (err : Option String) (w : Work) : Server :=
  ((opened.insert 7).put 0 w.wc).setConn 2
    (some ⟨false, if succeeds err w.wc then none else some 0, answer err w⟩)

theorem step_opened : Step .ilp32 (restore []) (.accept 2) opened := ⟨rfl, rfl⟩

theorem step_processed {m : Memory} {ended : Ended} {err : Option String} {w : Work}
    (hm : m.body ≠ []) (hcmd : Commands .ilp32 m ⟨.new 7, [], []⟩ ended)
    (hreply : reply ended = some (err, w)) :
    Step .ilp32 opened (.request 2 7 m ended) (processed err w) := by
  have href : (opened.initref 7).1.ref (opened.initref 7).2 = .ok ⟨0, .new 7⟩ := rfl
  refine ⟨⟨by decide, hm, _, rfl, rfl, fun n hn => ?_⟩, request_ok href hreply⟩
  rw [href] at hn
  cases hn
  exact hcmd

/-- A body that `commands` refuses, and one that starts a script of one step. -/
def refusedBody : Memory := ⟨bytes "Ch-Init\n", []⟩

def scriptBody : Memory :=
  ⟨bytes "Ch-Init size=20 trac=0\n" ++ [0, 0, 0, 0, 1, 0, 0, 0, 0, 0, 0, 0, 0, 0, 0, 0, 0, 1, 0, 0], []⟩

def refusedEnd : Ended := .returned (some "trac error") ⟨.new 7, [], []⟩

theorem refused_commands : Commands .ilp32 refusedBody ⟨.new 7, [], []⟩ refusedEnd := ⟨2, by decide⟩

theorem script_commands : Commands .ilp32 scriptBody ⟨.new 7, [], []⟩ (endOf scriptBody) :=
  commands_endOf (by decide +kernel)

theorem script_reply : reply (endOf scriptBody) = some (none, (endOf scriptBody).work) := by
  decide +kernel

theorem script_repeats : 0 < (endOf scriptBody).work.wc.nRepeat := by decide +kernel

theorem script_succeeds : succeeds none (endOf scriptBody).work.wc = true := by decide +kernel

/-! ## The main result -/

/-- In every run that starts with restored sessions and in which requests begin
as `Begun` says: list and index are in bijection, no event goes through an
iterator to an erased element, and what a successful request leaves is there,
unchanged, until the next request of that client. -/
theorem store_safe (env : Env) (saved : List Wcstat) (hsaved : (saved.map Wcstat.cid).Nodup)
    {evs : List Event} {s : Server}
    (hrun : Run (Guarded Begun (Step env)) (restore saved) evs s) :
    Indexed s ∧ (∀ ev, exec s ev ≠ .error .dangling) ∧
    ∀ c cid m ended t w later u, Guarded Begun (Step env) s (.request c cid m ended) t →
      reply ended = some (none, w) → 0 < w.wc.nRepeat →
      Run (Guarded Begun (Step env)) t later u → (∀ ev ∈ later, ¬Requests cid ev) →
      Holds u cid w.wc := by
  obtain ⟨h₀, hconns, _⟩ := restore_inv saved hsaved
  have hx₀ : Exclusive (restore saved) := by
    constructor
    · intro c r a hr
      rw [hconns c] at hr
      cases hr
    · intro c c' r r' a hr
      rw [hconns c] at hr
      cases hr
  obtain ⟨hi, hx⟩ := exclusive_run h₀ hx₀ hrun
  refine ⟨hi.toIndexed, never_dangling hi hx, ?_⟩
  intro c cid m ended t w later u hstep hreply hn hlater hl
  have hk := kept_of_success hi hstep hx hreply hn
  obtain ⟨hi', hk'⟩ := kept_run (step_inv hi hstep.2) hk hlater.of_guarded hl
  exact hk'.holds hi'

/-- A session that was made is there when its connection is closed. -/
theorem store_safe_script :
    let t := processed none (endOf scriptBody).work
    Indexed opened ∧ Step .ilp32 t (.close 2) (t.setConn 2 none) ∧
    Holds (t.setConn 2 none) 7 (endOf scriptBody).work.wc := by
  have hrun : Run (Guarded Begun (Step .ilp32)) (restore []) [.accept 2] opened :=
    Run.single ⟨trivial, step_opened⟩
  obtain ⟨hindexed, _, hkept⟩ := store_safe .ilp32 [] List.nodup_nil hrun
  have hstep := step_processed (m := scriptBody) (by decide) script_commands script_reply
  intro t
  have hclose : Step .ilp32 t (.close 2) (t.setConn 2 none) := by
    refine ⟨nofun, ?_⟩
    change t.close 2 = _
    rw [Server.close, show t.conns 2 = _ from Server.setConn_self _ _ _]
    simp only [script_succeeds, if_true]
  refine ⟨hindexed, hclose, ?_⟩
  apply hkept 2 7 scriptBody (endOf scriptBody) t (endOf scriptBody).work [.close 2] _
    ⟨fun e he => (by cases he), hstep⟩ script_reply script_repeats
    (Run.single ⟨trivial, hclose⟩)
  intro ev hev
  rw [List.mem_singleton.mp hev]
  exact id

/-! ## Two connections of one client -/

/-- Connections 1 and 2 are opened, and the first request of 1 fails. -/
def taken : Server :=
  (((restore []).setConn 1 (some ⟨true, none, []⟩)).setConn 2 (some ⟨true, none, []⟩)).insert 7
    |>.setConn 1 (some ⟨false, some 0, answer (some "trac error") refusedEnd.work⟩)

theorem run_taken : Run (Step .ilp32) (restore [])
    [.accept 1, .accept 2, .request 1 7 refusedBody refusedEnd] taken := by
  have h0 : Run (Step .ilp32) (restore []) [] (restore []) := .nil
  have h1 := h0.snoc (show Step .ilp32 (restore []) (.accept 1) _ from ⟨rfl, rfl⟩)
  have h2 := h1.snoc (show Step .ilp32 _ (.accept 2) _ from ⟨rfl, rfl⟩)
  refine h2.snoc ⟨⟨by decide, by decide, _, rfl, rfl, fun n hn => ?_⟩, rfl⟩
  cases hn
  exact refused_commands

/-- A second failed request of the client shares the iterator, which dangles once
the first connection is closed. A second request that succeeds has its session
deleted when the first connection is closed. -/
theorem store_broken :
    (∃ evs s, Run (Step .ilp32) (restore []) evs s ∧ Possible .ilp32 s (.close 2) ∧
      exec s (.close 2) = .error .dangling) ∧
    ∃ evs s t u w, Run (Step .ilp32) (restore []) evs s ∧
      Step .ilp32 s (.request 2 7 scriptBody (endOf scriptBody)) t ∧
      reply (endOf scriptBody) = some (none, w) ∧
      0 < w.wc.nRepeat ∧ Step .ilp32 t (.close 1) u ∧ ¬Holds u 7 w.wc := by
  constructor
  · have h1 := run_taken.snoc (show Step .ilp32 taken (.request 2 7 refusedBody refusedEnd) _ from
      ⟨⟨by decide, by decide, _, rfl, rfl, fun n hn => by cases hn; exact refused_commands⟩, rfl⟩)
    have h2 := h1.snoc (show Step .ilp32 _ (.close 1) _ from ⟨nofun, rfl⟩)
    exact ⟨_, _, h2, nofun, rfl⟩
  · have href : (taken.initref 7).1.ref (taken.initref 7).2 = .ok ⟨0, .new 7⟩ := rfl
    refine ⟨_, taken, _, _, (endOf scriptBody).work, run_taken,
      ⟨⟨by decide, by decide, _, rfl, rfl, fun n hn => ?_⟩, request_ok href script_reply⟩,
      script_reply, script_repeats, ⟨nofun, rfl⟩, ?_⟩
    · cases hn
      exact script_commands
    · rintro ⟨e, he, _⟩
      cases he

end CppSnippets.Wap.StoreSafety
