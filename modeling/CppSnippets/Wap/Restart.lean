import CppSnippets.Wap.StoreSafety

/-!
# The sessions of clients across restarts

On a signal to terminate the process saves the list of sessions and ends, and the
next process starts with the list that was saved. To the clients the list, its
index, the iterators into both and the addresses are one thing: a map from client
ids to sessions, which a restart leaves as it is. Only the connections end, and
with them the memory of which sessions they would have deleted.
-/
namespace CppSnippets.Wap.Restart

open CppSnippets.Lib Store StoreSafety

/-! ## What the server is for -/

/-- A connection: it reads until one request is complete, and takes the session of
the client that it holds with it when it is closed. -/
structure Holder where
  reading : Bool
  holds : Option Int
  buf : Bytes
  deriving DecidableEq

/-- A session for each client, and the open connections. -/
structure Sessions where
  session : Int → Option Wcstat
  conns : Nat → Option Holder

/-- What happens to a server: an event, or the end of the process and the start of
the next one. -/
inductive Life where
  | event (ev : Event)
  | restart

namespace Sessions

/-- The sessions of a list, before any connection is open. -/
def of (saved : List Wcstat) : Sessions :=
  ⟨fun cid => saved.find? fun stat => stat.cid = cid, fun _ => none⟩

/-- A request is run on the session of its client, a new one when there is none, and
what it leaves is the session. It is the connection's unless the request succeeds. -/
inductive Step (env : Env) : Sessions → Life → Sessions → Prop where
  | accept {a : Sessions} {c : Nat} (hnone : a.conns c = none) :
      Step env a (.event (.accept c))
        { a with conns := Function.update a.conns c (some ⟨true, none, []⟩) }
  | request {a : Sessions} {c : Nat} {cid : Int} {m : Memory} {ended : Ended} {h : Holder}
      {err : Option String} {w : Work} (hcid : cid ≠ 0) (hbody : m.body ≠ [])
      (hopen : a.conns c = some h) (hreading : h.reading = true)
      (hcmd : Commands env m ⟨(a.session cid).getD (.new cid), [], h.buf⟩ ended)
      (hreply : reply ended = some (err, w)) :
      Step env a (.event (.request c cid m ended))
        ⟨Function.update a.session cid (some w.wc), Function.update a.conns c
          (some ⟨false, if succeeds err w.wc then none else some cid, answer err w⟩)⟩
  | close {a : Sessions} {c : Nat} {h : Holder} (hopen : a.conns c = some h) :
      Step env a (.event (.close c))
        ⟨match h.holds with
          | none => a.session
          | some cid => Function.update a.session cid none,
        Function.update a.conns c none⟩
  | restart {a : Sessions} : Step env a .restart ⟨a.session, fun _ => none⟩

end Sessions

/-! ## The server with restarts -/

/-- `cb_sigterm` in one process and `restore_stats` in the next: what the archive
gives back is the list that was saved. -/
def Server.restarted (s : Server) : Server := restore (s.stats.map Node.stat)

/-- The steps of the server, where a request begins as `Begun` says. -/
inductive Lives (env : Env) : Server → Life → Server → Prop where
  | event {s t : Server} {ev : Event} (h : Guarded Begun (Step env) s ev t) :
      Lives env s (.event ev) t
  | restart {s : Server} : Lives env s .restart (Server.restarted s)

/-- The client whose entry this reader has an iterator to. -/
def Server.held (s : Server) (r : Reader) : Option Int :=
  r.iidx.bind fun a => (s.idx.find? fun e => e.addr = a).map Entry.cid

/-- The server as its clients see it. -/
def view (s : Server) : Sessions :=
  ⟨fun cid => (s.stats.map Node.stat).find? fun stat => stat.cid = cid,
    fun c => (s.conns c).map fun r => ⟨r.reading, Server.held s r, r.buf⟩⟩

/-! ## The list as a map -/

variable {env : Env} {s t : Server}

/-- Where keys are distinct, the first element with a key is the element with it. -/
theorem find?_eq_some_of_nodup {α κ : Type*} [DecidableEq κ] {key : α → κ} {l : List α}
    (hl : (l.map key).Nodup) {k : κ} {x : α} :
    l.find? (fun y => key y = k) = some x ↔ x ∈ l ∧ key x = k := by
  constructor
  · intro h
    exact ⟨List.mem_of_find?_eq_some h, by simpa using List.find?_some h⟩
  · rintro ⟨hx, rfl⟩
    cases hf : l.find? fun y => key y = key x with
    | none =>
      have := List.find?_eq_none.mp hf x hx
      simp at this
    | some y =>
      have hy : key y = key x := by simpa using List.find?_some hf
      rw [List.inj_on_of_nodup_map hl (List.mem_of_find?_eq_some hf) hx hy]

/-- Each element has an entry of its client. -/
theorem entry_of (hi : Inv s) {n : Node} (hn : n ∈ s.stats) :
    ∃ e ∈ s.idx, e.iter = n.addr ∧ e.cid = n.stat.cid := by
  obtain ⟨e, he, hiter⟩ := List.mem_map.mp (hi.iters.mem_iff.mpr (List.mem_map_of_mem hn))
  obtain ⟨n', hn', haddr, hcid⟩ := hi.designates e he
  have hsame : n' = n := hi.node_eq hn' hn (haddr.trans hiter)
  exact ⟨e, he, hiter, by rw [← hcid, hsame]⟩

/-- No two elements are of one client. -/
theorem node_of_cid (hi : Inv s) {n n' : Node} (hn : n ∈ s.stats) (hn' : n' ∈ s.stats)
    (hcid : n.stat.cid = n'.stat.cid) : n = n' := by
  obtain ⟨e, he, hiter, hec⟩ := entry_of hi hn
  obtain ⟨e', he', hiter', hec'⟩ := entry_of hi hn'
  have hsame : e = e' := List.inj_on_of_nodup_map hi.cids he he' (by rw [hec, hec', hcid])
  exact hi.node_eq hn hn' (by rw [← hiter, ← hiter', hsame])

theorem cids_nodup (hi : Inv s) : ((s.stats.map Node.stat).map Wcstat.cid).Nodup := by
  rw [List.map_map]
  exact hi.addrs.of_map.map_on fun n hn n' hn' hcid => node_of_cid hi hn hn' hcid

theorem session_eq_some (hi : Inv s) {cid : Int} {stat : Wcstat} :
    (view s).session cid = some stat ↔ (∃ n ∈ s.stats, n.stat = stat) ∧ stat.cid = cid := by
  have h : (view s).session cid = some stat ↔ stat ∈ s.stats.map Node.stat ∧ stat.cid = cid :=
    find?_eq_some_of_nodup (cids_nodup hi)
  rw [h, List.mem_map]

theorem holds_iff (hi : Inv s) {cid : Int} {stat : Wcstat} :
    Holds s cid stat ↔ (view s).session cid = some stat := by
  rw [session_eq_some hi]
  constructor
  · rintro ⟨e, he, rfl, n, hn, haddr, rfl⟩
    obtain ⟨n', hn', haddr', hcid⟩ := hi.designates e he
    have hsame : n = n' := hi.node_eq hn hn' (haddr.trans haddr'.symm)
    exact ⟨⟨n, hn, rfl⟩, by rw [hsame, hcid]⟩
  · rintro ⟨⟨n, hn, rfl⟩, rfl⟩
    obtain ⟨e, he, hiter, hcid⟩ := entry_of hi hn
    exact ⟨e, he, hcid, n, hn, hiter.symm, rfl⟩

/-- The client of a live entry. -/
theorem held_entry (hi : Inv s) {e : Entry} (he : e ∈ s.idx) {r : Reader}
    (hr : r.iidx = some e.addr) : Server.held s r = some e.cid := by
  have hfind : (s.idx.find? fun e' => e'.addr = e.addr) = some e := by
    have h := hi.entry_ok he
    unfold Server.entry at h
    split at h
    · cases h
    · rename_i e' hf
      rw [hf, Except.ok.inj h]
  rw [Server.held, hr, Option.bind_some, hfind]
  rfl

/-! ## What each event does to the map -/

/-- The session that a request begins with. -/
theorem session_initref (hi : Inv s) {cid : Int} {n : Node} (hn : n ∈ (s.initref cid).1.stats)
    (hcid : n.stat.cid = cid) : ((view s).session cid).getD (.new cid) = n.stat := by
  obtain ⟨_, _, _, _, hold, _⟩ := hi.initref cid
  cases hs : (view s).session cid with
  | none =>
    rcases hold n hn with hmem | ⟨rfl, _⟩
    · have hsome := (session_eq_some hi).mpr ⟨⟨n, hmem, rfl⟩, hcid⟩
      rw [hs] at hsome
      cases hsome
    · rfl
  | some stat =>
    obtain ⟨⟨n', hn', rfl⟩, hcid'⟩ := (session_eq_some hi).mp hs
    obtain ⟨hi', _, _, _, _, hkeep, _⟩ := hi.initref cid
    have h := (session_eq_some hi').mpr ⟨⟨n', hkeep n' hn', rfl⟩, hcid'⟩
    have h' := (session_eq_some hi').mpr ⟨⟨n, hn, rfl⟩, hcid⟩
    exact Option.some.inj (h.symm.trans h')

/-- A request changes the session of its client. -/
theorem session_put (hi : Inv s) {cid : Int} {n : Node} {stat : Wcstat}
    (hn : n ∈ (s.initref cid).1.stats) (hcid : n.stat.cid = cid) (hstat : stat.cid = cid) :
    (view ((s.initref cid).1.put n.addr stat)).session =
      Function.update (view s).session cid (some stat) := by
  obtain ⟨hi', _, _, _, hold, hkeep, _⟩ := hi.initref cid
  have hput : Inv ((s.initref cid).1.put n.addr stat) := hi'.put hn (hstat.trans hcid.symm)
  funext k
  by_cases hk : k = cid
  · subst hk
    rw [Function.update_self, session_eq_some hput]
    exact ⟨⟨_, List.mem_map_of_mem hn, by rw [if_pos rfl]⟩, hstat⟩
  · rw [Function.update_of_ne hk]
    ext st
    rw [session_eq_some hput, session_eq_some hi]
    apply and_congr_left
    rintro rfl
    constructor
    · rintro ⟨n', hn', hst⟩
      obtain ⟨n'', hn'', rfl⟩ := List.mem_map.mp hn'
      split at hst
      · exact absurd (hst ▸ hstat) hk
      · rcases hold n'' hn'' with hmem | ⟨rfl, _⟩
        · exact ⟨n'', hmem, hst⟩
        · exact absurd (hst ▸ rfl) hk
    · rintro ⟨n', hn', rfl⟩
      refine ⟨n', mem_put (hkeep n' hn') fun haddr => ?_, rfl⟩
      rw [hi'.node_eq (hkeep n' hn') hn haddr] at hk
      exact hk hcid

/-- The session of an entry that is taken out. -/
theorem session_without (hi : Inv s) {e : Entry} (he : e ∈ s.idx) :
    (view (s.without e.addr)).session = Function.update (view s).session e.cid none := by
  have hi' := hi.without e.addr
  obtain ⟨n, hn, haddr, hcid⟩ := hi.element he
  funext k
  ext st
  rw [session_eq_some hi']
  by_cases hk : k = e.cid
  · subst hk
    rw [Function.update_self]
    refine ⟨?_, fun h => by cases h⟩
    rintro ⟨⟨n', hn', rfl⟩, hst⟩
    obtain ⟨hmem, hne⟩ := List.mem_filter.mp hn'
    rw [node_of_cid hi hmem hn (hst.trans hcid.symm)] at hne
    simp [haddr] at hne
  · rw [Function.update_of_ne hk, session_eq_some hi]
    apply and_congr_left
    rintro rfl
    constructor
    · rintro ⟨n', hn', rfl⟩
      exact ⟨n', (List.mem_filter.mp hn').1, rfl⟩
    · rintro ⟨n', hn', rfl⟩
      refine ⟨n', List.mem_filter.mpr ⟨hn', decide_eq_true fun heq => ?_⟩, rfl⟩
      rw [hi.node_eq hn' hn (heq.trans haddr.symm)] at hk
      exact hk hcid

/-! ## One step -/

/-- A connection that is replaced, to the clients. -/
theorem view_setConn (s : Server) (c : Nat) (r : Option Reader) :
    view (s.setConn c r) = ⟨(view s).session, Function.update (view s).conns c
      (r.map fun r => ⟨r.reading, Server.held s r, r.buf⟩)⟩ := by
  rw [view, view, Sessions.mk.injEq]
  refine ⟨rfl, funext fun c' => ?_⟩
  by_cases hc : c' = c
  · subst hc
    rw [Function.update_self, Server.setConn_self]
    rfl
  · rw [Function.update_of_ne hc, Server.setConn_ne s r hc]
    rfl

/-- What a connection holds is the same where its entry is. -/
theorem held_congr (hi : Inv s) (hi' : Inv t) {r : Reader}
    (h : ∀ a, r.iidx = some a → ∃ e ∈ s.idx, e ∈ t.idx ∧ e.addr = a) :
    Server.held t r = Server.held s r := by
  cases hr : r.iidx with
  | none => rw [Server.held, Server.held, hr]; rfl
  | some a =>
    obtain ⟨e, he, he', rfl⟩ := h a hr
    rw [held_entry hi he hr, held_entry hi' he' hr]

/-- And so are the connections, which hold live entries. -/
theorem conns_congr (hi : Inv s) (hx : Exclusive s) (hi' : Inv t) {c : Nat}
    (hconns : t.conns c = s.conns c)
    (hidx : ∀ r, s.conns c = some r → ∀ e ∈ s.idx, r.iidx = some e.addr → e ∈ t.idx) :
    (view t).conns c = (view s).conns c := by
  change (t.conns c).map _ = (s.conns c).map _
  rw [hconns]
  cases hr : s.conns c with
  | none => rfl
  | some r =>
    have hheld : Server.held t r = Server.held s r := by
      apply held_congr hi hi'
      intro a ha
      obtain ⟨e, he, rfl⟩ := hx.live c r a hr ha
      exact ⟨e, he, hidx r hr e he ha, rfl⟩
    rw [Option.map_some, Option.map_some, hheld]

theorem lives_accept {c : Nat} (h : Guarded Begun (Step env) s (.accept c) t) :
    Sessions.Step env (view s) (.event (.accept c)) (view t) := by
  obtain ⟨_, hnone, hx⟩ := h
  cases hx
  have hview : (view s).conns c = none := by
    change (s.conns c).map _ = none
    rw [show s.conns c = none from hnone]
    rfl
  rw [view_setConn]
  exact .accept hview

theorem lives_request (hi : Inv s) (hx : Exclusive s) {c : Nat} {cid : Int} {m : Memory}
    {ended : Ended} (h : Guarded Begun (Step env) s (.request c cid m ended) t) :
    Sessions.Step env (view s) (.event (.request c cid m ended)) (view t) := by
  obtain ⟨r, e, n, err, w, hr, hreading, he, _, hec, hn, hna, hnc, hcmd, hreply, rfl⟩ :=
    request_cases hi h.2
  obtain ⟨hcid, hbody, _⟩ := h.2.1
  obtain ⟨hi', hconns, _, hidx, _⟩ := hi.initref cid
  have hwc : w.wc.cid = cid := by
    rw [reply_work hreply]
    exact hcmd.cid.trans hnc
  have hput : Inv ((s.initref cid).1.put n.addr w.wc) := hi'.put hn (hwc.trans hnc.symm)
  have hview : (view s).conns c = some ⟨true, none, r.buf⟩ := by
    change (s.conns c).map _ = _
    rw [hr, Option.map_some, hreading, Server.held, hi.idle c r hr hreading]
    rfl
  have hlater : view (((s.initref cid).1.put n.addr w.wc).setConn c
      (some ⟨false, if succeeds err w.wc then none else some e.addr, answer err w⟩)) =
      ⟨Function.update (view s).session cid (some w.wc), Function.update (view s).conns c
        (some ⟨false, if succeeds err w.wc then none else some cid, answer err w⟩)⟩ := by
    rw [view_setConn, Sessions.mk.injEq]
    refine ⟨session_put hi hn hnc hwc, ?_⟩
    funext c'
    by_cases hc : c' = c
    · subst hc
      rw [Function.update_self, Function.update_self, Option.map_some]
      split
      · rfl
      · rw [held_entry hput he rfl, hec]
    · rw [Function.update_of_ne hc, Function.update_of_ne hc]
      exact conns_congr hi hx hput (congrFun hconns c') fun _ _ e he _ => hidx e he
  rw [hlater]
  apply Sessions.Step.request hcid hbody hview rfl _ hreply
  rw [session_initref hi hn hnc]
  exact hcmd

theorem lives_close (hi : Inv s) (hx : Exclusive s) {c : Nat}
    (h : Guarded Begun (Step env) s (.close c) t) :
    Sessions.Step env (view s) (.event (.close c)) (view t) := by
  obtain ⟨r, hr, hcases⟩ := close_cases hi h.2
  have hview : (view s).conns c = some ⟨r.reading, Server.held s r, r.buf⟩ := by
    change (s.conns c).map _ = _
    rw [hr]
    rfl
  have hstep : Sessions.Step env (view s) (.event (.close c)) _ := .close hview
  rcases hcases with ⟨hnone, rfl⟩ | ⟨e, he, hre, rfl⟩
  · have hheld : Server.held s r = none := by rw [Server.held, hnone]; rfl
    rw [view_setConn]
    rw [hheld] at hstep
    exact hstep
  · rw [held_entry hi he hre] at hstep
    have hlater : view ((s.without e.addr).setConn c none) =
        ⟨Function.update (view s).session e.cid none, Function.update (view s).conns c none⟩ := by
      rw [view_setConn, Sessions.mk.injEq]
      refine ⟨session_without hi he, ?_⟩
      funext c'
      by_cases hc : c' = c
      · subst hc
        rw [Function.update_self, Function.update_self]
        rfl
      · rw [Function.update_of_ne hc, Function.update_of_ne hc]
        apply conns_congr hi hx (hi.without e.addr) rfl
        intro r' hr' e' he' hre'
        refine List.mem_filter.mpr ⟨he', decide_eq_true fun heq => hc ?_⟩
        exact hx.single c' c r' r e'.addr hr' hr hre' (by rw [hre, heq])
    rw [hlater]
    exact hstep

/-! ## Restarts -/

theorem view_restore (saved : List Wcstat) : view (restore saved) = Sessions.of saved := by
  obtain ⟨hstats, hconns⟩ := restore_stats saved
  rw [view, hstats, hconns]
  rfl

theorem restore_safe {saved : List Wcstat} (h : (saved.map Wcstat.cid).Nodup) :
    Inv (restore saved) ∧ Exclusive (restore saved) := by
  obtain ⟨hi, hconns, _⟩ := restore_inv saved h
  refine ⟨hi, ⟨fun c r a hr => ?_, fun c c' r r' a hr => ?_⟩⟩
  · rw [hconns c] at hr
    cases hr
  · rw [hconns c] at hr
    cases hr

theorem lives_step (hi : Inv s) (hx : Exclusive s) {ev : Life} (h : Lives env s ev t) :
    Inv t ∧ Exclusive t ∧ Sessions.Step env (view s) ev (view t) := by
  cases h with
  | event h =>
    refine ⟨step_inv hi h.2, exclusive_step hi hx h, ?_⟩
    rename_i ev
    cases ev with
    | accept c => exact lives_accept h
    | request c cid m ended => exact lives_request hi hx h
    | close c => exact lives_close hi hx h
  | restart =>
    obtain ⟨hi', hx'⟩ := restore_safe (cids_nodup hi)
    refine ⟨hi', hx', ?_⟩
    rw [Server.restarted, view_restore]
    exact .restart

/-- In every run with restarts anywhere in it, what the clients see is the run of a map
from clients to sessions that no restart changes: a request is run on what the last
request of its client left, in whichever process that was, unless its connection was
closed since and took it away. -/
theorem restarts_unseen (env : Env) (saved : List Wcstat) (hsaved : (saved.map Wcstat.cid).Nodup)
    {evs : List Life} {s : Server} (hrun : Run (Lives env) (restore saved) evs s) :
    Run (Sessions.Step env) (Sessions.of saved) evs (view s) ∧
    (∀ cid stat, Holds s cid stat ↔ (view s).session cid = some stat) ∧
    ∀ ev, exec s ev ≠ .error .dangling := by
  obtain ⟨hi₀, hx₀⟩ := restore_safe hsaved
  have h := hrun.history (P := fun evs s => Inv s ∧ Exclusive s ∧
      Run (Sessions.Step env) (Sessions.of saved) evs (view s))
    ⟨hi₀, hx₀, by rw [view_restore]; exact .nil⟩ fun as t a u ht hstep => by
      obtain ⟨hi, hx, hview⟩ := ht
      obtain ⟨hi', hx', hone⟩ := lives_step hi hx hstep
      exact ⟨hi', hx', hview.snoc hone⟩
  obtain ⟨hi, hx, hview⟩ := h
  exact ⟨hview, fun cid stat => holds_iff hi, never_dangling hi hx⟩

/-- The script that client 7 started is there in the next process. -/
theorem restarts_unseen_script : ∃ s, Run (Lives .ilp32) (restore [])
      [.event (.accept 2), .event (.request 2 7 scriptBody (endOf scriptBody)), .restart] s ∧
    Holds s 7 (endOf scriptBody).work.wc ∧ (view s).conns 2 = none := by
  have h0 : Run (Lives .ilp32) (restore []) [] (restore []) := .nil
  have haccept : Guarded Begun (Step .ilp32) (restore []) (.accept 2) opened :=
    ⟨trivial, step_opened⟩
  have hrequest : Guarded Begun (Step .ilp32) opened (.request 2 7 scriptBody (endOf scriptBody))
      (processed none (endOf scriptBody).work) := by
    refine ⟨fun e he => ?_, step_processed (by decide) script_commands script_reply⟩
    cases he
  have h3 := ((h0.snoc (.event haccept)).snoc (.event hrequest)).snoc .restart
  refine ⟨_, h3, ?_, ?_⟩
  · exact ((restarts_unseen .ilp32 [] List.nodup_nil h3).2.1 7 _).mpr rfl
  · rw [Server.restarted, view_restore]
    rfl

end CppSnippets.Wap.Restart
