import CppSnippets.Wap.Chunking
import CppSnippets.Wap.StoreSafety

/-!
# The connections of the server

The callbacks of the event loop: a connection reads what has come until its request
is complete, then writes its answer as the socket takes it, and is deleted when
nothing is left to wait for, when something fails, or by its timer. The store sees
each request as one event, whatever the reads and the writes were cut into.
-/
namespace CppSnippets.Wap.Connection

open CppSnippets.Lib Store

/-! ## The callbacks -/

/-- What `recvbuf` does: it returns or it throws. -/
inductive Got where
  | read (r : Read)
  | failed

/-- What `send` does with the buffer of a connection. -/
inductive Sent where
  | took (n : Nat)
  | again
  | failed

/-- The buffer of a `wcreader`, and beside it what the connection has read and written. -/
structure Link where
  rbuf : Bytes
  reads : List Read
  sent : Bytes

/-- A connection that was deleted, and whether it was for want of anything to wait for. -/
structure Gone where
  reads : List Read
  sent : Bytes
  done : Bool

/-- The event loop. The buffer of a reader is what is left of the answer. -/
structure Loop where
  store : Server
  link : Nat → Link
  gone : List Gone

namespace Loop

def setLink (s : Loop) (c : Nat) (l : Link) : Loop :=
  { s with link := Function.update s.link c l }

/-- `cb_accept`, for one connection. -/
def accept (s : Loop) (c : Nat) : Loop :=
  { s.setLink c ⟨[], [], []⟩ with store := s.store.setConn c (some ⟨true, none, []⟩) }

/-- `delete self`. -/
def delete (s : Loop) (c : Nat) (done : Bool) : Except Fault Loop := do
  return { s with
    store := ← s.store.close c
    gone := s.gone ++ [⟨(s.link c).reads, (s.link c).sent, done⟩] }

/-- The reader's buffer with what was read. -/
def fed (s : Loop) (c : Nat) (r : Read) : Loop :=
  s.setLink c { s.link c with
    rbuf := (s.link c).rbuf ++ r.bytes, reads := (s.link c).reads ++ [r] }

/-- `_cb_read`, where `commands` ends in this way. Nothing is left when its result is
negative. -/
def cbRead (env : Env) (s : Loop) (c : Nat) (got : Got) (ended : Ended) :
    Except Fault (Option Loop) :=
  match got with
  | .failed => .ok none
  | .read r =>
    match readOnce env (s.link c).rbuf r with
    | .waits => .ok (some (s.fed c r))
    | .closes _ => .ok none
    | .hands cid _ => do return some { s.fed c r with store := ← s.store.request c cid ended }

/-- `_cb_write`. -/
def cbWrite (s : Loop) (c : Nat) (r : Reader) : Sent → Option Loop
  | .took n => some
      { s.setLink c { s.link c with sent := (s.link c).sent ++ r.buf.take n } with
        store := s.store.setConn c (some { r with buf := r.buf.drop n }) }
  | .again => some s
  | .failed => none

/-- The end of `cb_rdwr`: there is something to wait for, or the connection is done. -/
def rearm (s : Loop) (c : Nat) : Except Fault Loop :=
  match s.store.conns c with
  | none => .error .impossible
  | some r => if r.reading || !r.buf.isEmpty then .ok s else s.delete c true

/-- The second half of `cb_rdwr`. -/
def afterRead (s : Loop) (c : Nat) (sent : Option Sent) : Except Fault Loop :=
  match s.store.conns c with
  | none => .error .impossible
  | some r =>
    match sent with
    | none => s.rearm c
    | some w =>
      match s.cbWrite c r w with
      | none => s.delete c false
      | some t => t.rearm c

/-- `cb_rdwr`, with what it is called for. -/
def cbRdwr (env : Env) (s : Loop) (c : Nat) (got : Option Got) (ended : Ended)
    (sent : Option Sent) : Except Fault Loop :=
  match s.store.conns c with
  | none => .error .impossible
  | some r =>
    match got with
    | none => s.afterRead c sent
    | some g =>
      if r.reading then do
        match ← s.cbRead env c g ended with
        | none => s.delete c false
        | some t => t.afterRead c sent
      else s.afterRead c sent

end Loop

inductive Callback where
  | accept (c : Nat)
  /-- The bytes behind the body are in memory, and are not the client's. -/
  | rdwr (c : Nat) (got : Option Got) (behind : Bytes) (ended : Ended) (sent : Option Sent)
  /-- `cb_timer` finds that nothing has happened for too long. -/
  | timer (c : Nat)

def Loop.exec (env : Env) (s : Loop) : Callback → Except Fault Loop
  | .accept c => .ok (s.accept c)
  | .rdwr c got _ ended sent => s.cbRdwr env c got ended sent
  | .timer c => s.delete c false

/-- A new connection is not open yet, and `commands` ends as it does on the request
that was read. -/
def Possible (env : Env) (s : Loop) : Callback → Prop
  | .accept c => s.store.conns c = none
  | .rdwr c got behind ended _ => ∀ r cid req, got = some (.read r) →
      readOnce env (s.link c).rbuf r = .hands cid req →
      ∀ n, (s.store.initref cid).1.ref (s.store.initref cid).2 = .ok n →
        Commands env ⟨req.body, behind⟩ ⟨n.stat, [], []⟩ ended
  | .timer c => s.store.conns c ≠ none

def Step (env : Env) (s : Loop) (ev : Callback) (t : Loop) : Prop :=
  Possible env s ev ∧ s.exec env ev = .ok t

/-- The server at its start. -/
def start (saved : List Wcstat) : Loop := ⟨restore saved, fun _ => ⟨[], [], []⟩, []⟩

/-! ## What the clients are sent -/

/-- The connection of an event of the store. -/
def connOf : Event → Nat
  | .accept c | .request c _ _ _ | .close c => c

/-- The last of these events at the connection is the request in these reads, and this
text is the answer to it, on the session that the store has for it then. -/
def Answered (env : Env) (saved : List Wcstat) (evs : List Event) (c : Nat) (reads : List Read)
    (text : Bytes) : Prop :=
  ∃ before cid req behind ended later u n err w,
    evs = before ++ .request c cid ⟨req.body, behind⟩ ended :: later ∧
    (∀ ev ∈ later, connOf ev ≠ c) ∧
    Run (Store.Step env) (restore saved) before u ∧
    (u.initref cid).1.ref (u.initref cid).2 = .ok n ∧
    feed env [] reads = .handed cid req ∧
    Commands env ⟨req.body, behind⟩ ⟨n.stat, [], []⟩ ended ∧ reply ended = some (err, w) ∧
    text = answer err w

/-- A connection that reads has a request that is not complete and has written nothing;
one that does not has written a part of the answer, and its buffer is the rest. -/
structure Linked (env : Env) (saved : List Wcstat) (evs : List Event) (c : Nat) (l : Link)
    (r : Reader) : Prop where
  waits : r.reading = true → feed env [] l.reads = .waits l.rbuf ∧ l.sent = [] ∧ r.buf = []
  answers : r.reading = false → Answered env saved evs c l.reads (l.sent ++ r.buf)

/-- When it was closed, a connection that was done had its answer sent, and any other one
a part of it. -/
def Over (env : Env) (saved : List Wcstat) (evs : List Event) (g : Gone) : Prop :=
  ∃ c earlier later, evs = earlier ++ .close c :: later ∧
    (g.done = true → Answered env saved earlier c g.reads g.sent) ∧
    (g.sent = [] ∨ ∃ text, Answered env saved earlier c g.reads text ∧ g.sent <+: text)

/-- The reader with all that was and will be sent. -/
def joined (l : Link) (r : Reader) : Reader := { r with buf := l.sent ++ r.buf }

/-- The server of the store, in which an answer stays as it is. -/
def Loop.whole (s : Loop) : Server :=
  { s.store with conns := fun c => (s.store.conns c).map (joined (s.link c)) }

/-- What the store has gone through, and what the connections have of it. -/
structure Sound (env : Env) (saved : List Wcstat) (evs : List Event) (s : Loop) : Prop where
  run : Run (Store.Step env) (restore saved) evs s.whole
  linked : ∀ c r, s.store.conns c = some r → Linked env saved evs c (s.link c) r
  gone : ∀ g ∈ s.gone, Over env saved evs g

/-! ## One more read -/

variable {env : Env}

theorem feed_snoc {buf buf' : Bytes} {rs : List Read} (r : Read)
    (h : feed env buf rs = .waits buf') : feed env buf (rs ++ [r]) = feed env buf' [r] := by
  induction rs generalizing buf with
  | nil =>
    cases h
    rfl
  | cons r' rs ih =>
    rw [List.cons_append, feed]
    rw [feed] at h
    cases hr : readOnce env buf r' with
    | waits =>
      rw [hr] at h
      exact ih h
    | closes code =>
      rw [hr] at h
      cases h
    | hands cid req =>
      rw [hr] at h
      cases h

theorem readOnce_hands {buf : Bytes} {r : Read} {cid : Int} {req : Request}
    (h : readOnce env buf r = .hands cid req) : cid ≠ 0 ∧ req.body ≠ [] := by
  obtain ⟨rh, n, htakes, ⟨_, hbegin, _⟩, rfl⟩ := Chunking.hands_cases h
    (List.take_length).symm (Nat.le_refl _)
  refine ⟨htakes.known, fun hnil => ?_⟩
  rw [List.take_length, List.drop_eq_nil_iff] at hnil
  omega

/-! ## What the store does whatever the connections have in their buffers -/

theorem initref_conns (s : Server) (f : Nat → Option Reader) (cid : Int) :
    ({ s with conns := f } : Server).initref cid =
      ({ (s.initref cid).1 with conns := f }, (s.initref cid).2) := by
  unfold Server.initref
  dsimp only
  split <;> rfl

theorem request_inv {s t : Server} {c : Nat} {cid : Int} {ended : Ended}
    (h : s.request c cid ended = .ok t) : ∃ n err w,
      (s.initref cid).1.ref (s.initref cid).2 = .ok n ∧ reply ended = some (err, w) ∧
      t = ((s.initref cid).1.put n.addr w.wc).setConn c
        (some ⟨false, if succeeds err w.wc then none else some (s.initref cid).2,
          answer err w⟩) := by
  unfold Server.request at h
  cases hn : (s.initref cid).1.ref (s.initref cid).2 with
  | error f =>
    rw [hn] at h
    cases h
  | ok n =>
    rw [hn] at h
    cases hr : reply ended with
    | none =>
      simp only [bind, Except.bind, hr] at h
      cases h
    | some p =>
      simp only [bind, Except.bind, hr] at h
      exact ⟨n, p.1, p.2, rfl, rfl, (Except.ok.inj h).symm⟩

/-- Only the connection of the request is touched, and it is left with its answer. -/
theorem request_update {s t : Server} {c : Nat} {cid : Int} {ended : Ended}
    (h : s.request c cid ended = .ok t) : ∃ iidx err w, reply ended = some (err, w) ∧
      t.conns = Function.update s.conns c (some ⟨false, iidx, answer err w⟩) := by
  obtain ⟨n, err, w, _, hreply, rfl⟩ := request_inv h
  have hconns : (s.initref cid).1.conns = s.conns := by
    unfold Server.initref
    split <;> rfl
  exact ⟨_, err, w, hreply, congrArg (fun f => Function.update f c _) hconns⟩

theorem request_conns {s t : Server} {c : Nat} {cid : Int} {ended : Ended}
    (h : s.request c cid ended = .ok t) (f : Nat → Option Reader) :
    ({ s with conns := f } : Server).request c cid ended =
      .ok { t with conns := Function.update f c (t.conns c) } := by
  obtain ⟨n, err, w, hn, hreply, rfl⟩ := request_inv h
  have hn' : (({ s with conns := f } : Server).initref cid).1.ref
      (({ s with conns := f } : Server).initref cid).2 = .ok n := by
    rw [initref_conns]
    exact hn
  rw [request_ok hn' hreply, initref_conns, Server.setConn_self]
  rfl

theorem erase_conns {s t : Server} {a : Nat} (h : s.erase a = .ok t) (f : Nat → Option Reader) :
    t.conns = s.conns ∧ ({ s with conns := f } : Server).erase a = .ok { t with conns := f } := by
  unfold Server.erase at h ⊢
  change _ ∧ (s.entry a >>= fun e => s.node e.iter >>= fun _ => _) = _
  cases he : s.entry a with
  | error e =>
    rw [he] at h
    cases h
  | ok e =>
    cases hn : s.node e.iter with
    | error e' =>
      simp only [he, hn, bind, Except.bind] at h
      cases h
    | ok n =>
      simp only [he, hn, bind, Except.bind] at h ⊢
      cases h
      exact ⟨rfl, rfl⟩

theorem close_conns {s t : Server} {c : Nat} (h : s.close c = .ok t) {f : Nat → Option Reader}
    (hf : (f c).map Reader.iidx = (s.conns c).map Reader.iidx) :
    t.conns = Function.update s.conns c none ∧
    ({ s with conns := f } : Server).close c =
      .ok { t with conns := Function.update f c none } := by
  unfold Server.close at h ⊢
  dsimp only
  cases hr : s.conns c with
  | none =>
    rw [hr] at h
    cases h
  | some r =>
    rw [hr] at h hf
    obtain ⟨r', hr', hiidx⟩ := Option.map_eq_some_iff.mp hf
    rw [hr']
    dsimp only at h ⊢
    rw [hiidx]
    cases ha : r.iidx with
    | none =>
      rw [ha] at h
      cases h
      exact ⟨rfl, rfl⟩
    | some a =>
      rw [ha] at h
      dsimp only at h ⊢
      cases he : s.erase a with
      | error e =>
        rw [he] at h
        cases h
      | ok u =>
        obtain ⟨hconns, herase⟩ := erase_conns he f
        rw [he] at h
        cases h
        rw [herase]
        exact ⟨by rw [← hconns]; rfl, rfl⟩

/-! ## What each part of a callback keeps -/

variable {saved : List Wcstat} {s t : Loop} {c : Nat}

/-- One connection is replaced, and the store of sessions may change. -/
theorem whole_update {r : Option Reader} {l : Link}
    (hconns : t.store.conns = Function.update s.store.conns c r)
    (hlink : t.link = Function.update s.link c l) :
    t.whole =
      { t.store with conns := Function.update s.whole.conns c (r.map (joined l)) } := by
  rw [Loop.whole, Server.mk.injEq]
  refine ⟨rfl, rfl, rfl, funext fun c' => ?_⟩
  rw [hconns, hlink]
  by_cases hcc : c' = c
  · subst hcc
    rw [Function.update_self, Function.update_self, Function.update_self]
  · rw [Function.update_of_ne hcc, Function.update_of_ne hcc, Function.update_of_ne hcc]
    rfl

theorem Answered.snoc {evs : List Event} {c : Nat} {reads : List Read} {text : Bytes}
    (h : Answered env saved evs c reads text) {ev : Event} (hev : connOf ev ≠ c) :
    Answered env saved (evs ++ [ev]) c reads text := by
  obtain ⟨before, cid, req, behind, ended, later, u, n, err, w, rfl, hlater, h⟩ := h
  refine ⟨before, cid, req, behind, ended, later ++ [ev], u, n, err, w, ?_, fun ev' hmem => ?_, h⟩
  · rw [List.append_assoc, List.cons_append]
  · rcases List.mem_append.mp hmem with hmem | hmem
    · exact hlater ev' hmem
    · rwa [List.mem_singleton.mp hmem]

theorem Over.snoc {evs : List Event} {g : Gone} (h : Over env saved evs g) (ev : Event) :
    Over env saved (evs ++ [ev]) g := by
  obtain ⟨c, earlier, later, rfl, h⟩ := h
  exact ⟨c, earlier, later ++ [ev], by rw [List.append_assoc, List.cons_append], h⟩

variable {evs : List Event}

/-- Every other connection is as it was. -/
theorem Sound.others (h : Sound env saved evs s) {r : Option Reader} {l : Link}
    (hconns : t.store.conns = Function.update s.store.conns c r)
    (hlink : t.link = Function.update s.link c l) {ev : Event} (hev : connOf ev = c)
    (hc : ∀ r', r = some r' → Linked env saved (evs ++ [ev]) c l r') (c' : Nat) (r' : Reader)
    (hr' : t.store.conns c' = some r') : Linked env saved (evs ++ [ev]) c' (t.link c') r' := by
  rw [hconns] at hr'
  rw [hlink]
  by_cases hcc : c' = c
  · subst hcc
    rw [Function.update_self] at hr' ⊢
    exact hc r' hr'
  · rw [Function.update_of_ne hcc] at hr' ⊢
    obtain ⟨hwaits, hanswers⟩ := h.linked c' r' hr'
    exact ⟨hwaits, fun hr => (hanswers hr).snoc (hev ▸ Ne.symm hcc)⟩

/-- The store sees nothing, and one connection has gone on. -/
theorem Sound.same (h : Sound env saved evs s) {r : Reader} {l : Link}
    (hconns : t.store.conns = Function.update s.store.conns c (some r))
    (hlink : t.link = Function.update s.link c l) (hwhole : t.whole = s.whole)
    (hgone : t.gone = s.gone) (hc : Linked env saved evs c l r) : Sound env saved evs t := by
  refine ⟨hwhole ▸ h.run, fun c' r' hr' => ?_, hgone ▸ h.gone⟩
  rw [hconns] at hr'
  rw [hlink]
  by_cases hcc : c' = c
  · subst hcc
    rw [Function.update_self] at hr' ⊢
    cases hr'
    exact hc
  · rw [Function.update_of_ne hcc] at hr' ⊢
    exact h.linked c' r' hr'

theorem sound_accept (h : Sound env saved evs s) (hnone : s.store.conns c = none) :
    Sound env saved (evs ++ [.accept c]) (s.accept c) := by
  have hstep : Store.Step env s.whole (.accept c) (s.accept c).whole := by
    constructor
    · change (s.store.conns c).map _ = none
      rw [hnone]
      rfl
    · rw [whole_update (s := s) (t := s.accept c) rfl rfl]
      rfl
  refine ⟨h.run.snoc hstep, h.others rfl rfl rfl ?_, fun g hg => (h.gone g hg).snoc _⟩
  rintro r' ⟨⟩
  exact ⟨fun _ => ⟨rfl, rfl, rfl⟩, fun hr => by cases hr⟩

theorem sound_delete (h : Sound env saved evs s) {done : Bool}
    (hdone : done = true → Answered env saved evs c (s.link c).reads (s.link c).sent)
    (hx : s.delete c done = .ok t) : Sound env saved (evs ++ [.close c]) t := by
  unfold Loop.delete at hx
  cases hclose : s.store.close c with
  | error f =>
    rw [hclose] at hx
    cases hx
  | ok u =>
    rw [hclose] at hx
    cases hx
    have hlink : s.link = Function.update s.link c (s.link c) := (Function.update_eq_self c _).symm
    have hsame : (s.whole.conns c).map Reader.iidx = (s.store.conns c).map Reader.iidx := by
      change ((s.store.conns c).map _).map _ = _
      rw [Option.map_map]
      rfl
    obtain ⟨hconns, hwhole⟩ := close_conns hclose hsame
    have hstep : Store.Step env s.whole (.close c) (Loop.whole { s with
        store := u, gone := s.gone ++ [⟨(s.link c).reads, (s.link c).sent, done⟩] }) := by
      constructor
      · intro hnone
        rw [hnone] at hsame
        have hgone := Option.map_eq_none_iff.mp hsame.symm
        rw [Server.close, hgone] at hclose
        cases hclose
      · have hlater := whole_update (t := { s with
          store := u, gone := s.gone ++ [⟨(s.link c).reads, (s.link c).sent, done⟩] }) hconns hlink
        rw [hlater]
        exact hwhole
    have hothers := h.others (t := { s with
      store := u, gone := s.gone ++ [⟨(s.link c).reads, (s.link c).sent, done⟩] })
      hconns hlink (show connOf (.close c) = c from rfl) fun r' hr' => by cases hr'
    refine ⟨h.run.snoc hstep, hothers, ?_⟩
    · intro g hg
      rcases List.mem_append.mp hg with hg | hg
      · exact (h.gone g hg).snoc _
      · obtain rfl := List.mem_singleton.mp hg
        refine ⟨c, evs, [], rfl, hdone, ?_⟩
        cases hr : s.store.conns c with
        | none =>
          rw [Server.close, hr] at hclose
          cases hclose
        | some r =>
          have hlinked := h.linked c r hr
          cases hreading : r.reading with
          | true => exact .inl (hlinked.waits hreading).2.1
          | false => exact .inr ⟨_, hlinked.answers hreading, List.prefix_append _ _⟩

theorem sound_failed (h : Sound env saved evs s) (hx : s.delete c false = .ok t) :
    ∃ evs, Sound env saved evs t :=
  ⟨_, sound_delete h (fun hdone => by cases hdone) hx⟩

theorem whole_fed {r : Reader} (hr : s.store.conns c = some r) (rd : Read) :
    (s.fed c rd).whole = s.whole := by
  have hsame : s.store.conns = Function.update s.store.conns c (some r) := by
    rw [← hr, Function.update_eq_self]
  rw [whole_update (s := s) (t := s.fed c rd) hsame rfl, Loop.whole, Server.mk.injEq]
  refine ⟨rfl, rfl, rfl, ?_⟩
  dsimp only
  rw [← hr]
  exact Function.update_eq_self c s.whole.conns

/-- A read that does not complete the request is kept. -/
theorem sound_waits (h : Sound env saved evs s) {r : Reader} (hr : s.store.conns c = some r)
    (hreading : r.reading = true) {rd : Read}
    (hread : readOnce env (s.link c).rbuf rd = .waits) : Sound env saved evs (s.fed c rd) := by
  obtain ⟨hfeed, hsent, hbuf⟩ := (h.linked c r hr).waits hreading
  have hsame : s.store.conns = Function.update s.store.conns c (some r) := by
    rw [← hr, Function.update_eq_self]
  have hmore := feed_snoc rd hfeed
  rw [feed, hread] at hmore
  refine h.same (t := s.fed c rd) hsame rfl (whole_fed hr rd) rfl ?_
  exact ⟨fun _ => ⟨hmore, hsent, hbuf⟩, fun hr' => by rw [hreading] at hr'; cases hr'⟩

/-- The read that completes the request is its event in the run of whole requests. -/
theorem sound_hands (h : Sound env saved evs s) {r : Reader} (hr : s.store.conns c = some r)
    (hreading : r.reading = true) {rd : Read} {behind : Bytes} {cid : Int} {req : Request}
    {ended : Ended} {u : Server} (hread : readOnce env (s.link c).rbuf rd = .hands cid req)
    (hcmd : ∀ n, (s.store.initref cid).1.ref (s.store.initref cid).2 = .ok n →
      Commands env ⟨req.body, behind⟩ ⟨n.stat, [], []⟩ ended)
    (hreq : s.store.request c cid ended = .ok u) :
    ∃ evs, Sound env saved evs { s.fed c rd with store := u } := by
  obtain ⟨hfeed, hsent, hbuf⟩ := (h.linked c r hr).waits hreading
  have hmore := feed_snoc rd hfeed
  rw [feed, hread] at hmore
  obtain ⟨n, _, _, hn, _, _⟩ := request_inv hreq
  obtain ⟨iidx, err, w, hreply, hconns⟩ := request_update hreq
  obtain ⟨hcid, hbody⟩ := readOnce_hands hread
  have hstep : Store.Step env s.whole (.request c cid ⟨req.body, behind⟩ ended)
      (Loop.whole { s.fed c rd with store := u }) := by
    constructor
    · refine ⟨hcid, hbody, { r with buf := (s.link c).sent ++ r.buf }, ?_, hreading,
        fun n' hn' => ?_⟩
      · change (s.store.conns c).map _ = _
        rw [hr]
        rfl
      · rw [Loop.whole, initref_conns] at hn'
        rw [hsent, hbuf]
        exact hcmd n' hn'
    · have hwhole := request_conns hreq s.whole.conns
      rw [hconns, Function.update_self] at hwhole
      have hlater := whole_update (s := s) (t := { s.fed c rd with store := u }) hconns rfl
      rw [hlater, Option.map_some, joined, hsent]
      exact hwhole
  have hsession : (s.whole.initref cid).1.ref (s.whole.initref cid).2 = .ok n := by
    rw [Loop.whole, initref_conns]
    exact hn
  refine ⟨_, h.run.snoc hstep, h.others hconns rfl rfl ?_, fun g hg => (h.gone g hg).snoc _⟩
  rintro r' ⟨⟩
  refine ⟨fun hr => (by cases hr), fun _ => ⟨evs, cid, req, behind, ended, [], s.whole, n, err, w,
    rfl, fun _ hmem => absurd hmem List.not_mem_nil, h.run, hsession, hmore, hcmd n hn, hreply, ?_⟩⟩
  change (s.link c).sent ++ answer err w = answer err w
  rw [hsent]
  rfl

theorem sound_cbRead (h : Sound env saved evs s) {r : Reader} (hr : s.store.conns c = some r)
    (hreading : r.reading = true) {got : Got} {behind : Bytes} {ended : Ended}
    (hcmd : ∀ rd cid req, got = .read rd → readOnce env (s.link c).rbuf rd = .hands cid req →
      ∀ n, (s.store.initref cid).1.ref (s.store.initref cid).2 = .ok n →
        Commands env ⟨req.body, behind⟩ ⟨n.stat, [], []⟩ ended)
    (hx : s.cbRead env c got ended = .ok (some t)) : ∃ evs, Sound env saved evs t := by
  cases got with
  | failed => cases hx
  | read rd =>
    unfold Loop.cbRead at hx
    dsimp only at hx
    cases hread : readOnce env (s.link c).rbuf rd with
    | waits =>
      rw [hread] at hx
      cases hx
      exact ⟨evs, sound_waits h hr hreading hread⟩
    | closes code =>
      rw [hread] at hx
      cases hx
    | hands cid req =>
      rw [hread] at hx
      cases hreq : s.store.request c cid ended with
      | error f =>
        simp only [hreq, bind, Except.bind] at hx
        cases hx
      | ok u =>
        simp only [hreq, bind, Except.bind] at hx
        cases hx
        exact sound_hands h hr hreading hread (hcmd rd cid req rfl hread) hreq

/-- What `send` takes goes from what will be sent to what was. -/
theorem sound_cbWrite (h : Sound env saved evs s) {r : Reader} (hr : s.store.conns c = some r)
    {w : Sent} (hx : s.cbWrite c r w = some t) : Sound env saved evs t := by
  cases w with
  | failed => cases hx
  | again =>
    cases hx
    exact h
  | took n =>
    have hlinked := h.linked c r hr
    have hmoved : (s.link c).sent ++ r.buf.take n ++ r.buf.drop n = (s.link c).sent ++ r.buf := by
      rw [List.append_assoc, List.take_append_drop]
    cases hx
    have hlater := whole_update (s := s) (t := { s.setLink c
      { s.link c with sent := (s.link c).sent ++ r.buf.take n } with
      store := s.store.setConn c (some { r with buf := r.buf.drop n }) }) rfl rfl
    have hsame : (some { r with buf := r.buf.drop n } : Option Reader).map (joined
        { s.link c with sent := (s.link c).sent ++ r.buf.take n }) = s.whole.conns c := by
      change some _ = (s.store.conns c).map _
      rw [hr, Option.map_some, joined, joined]
      simp only [hmoved]
    rw [hsame, Function.update_eq_self] at hlater
    refine h.same rfl rfl hlater rfl ⟨fun hreading => ?_, fun hreading => ?_⟩
    · obtain ⟨hfeed, hsent, hbuf⟩ := hlinked.waits hreading
      exact ⟨hfeed, by simp only [hsent, hbuf, List.take_nil, List.append_nil],
        by simp only [hbuf, List.drop_nil]⟩
    · dsimp only
      rw [hmoved]
      exact hlinked.answers hreading

theorem sound_rearm (h : Sound env saved evs s) (hx : s.rearm c = .ok t) :
    ∃ evs, Sound env saved evs t := by
  unfold Loop.rearm at hx
  cases hr : s.store.conns c with
  | none =>
    rw [hr] at hx
    cases hx
  | some r =>
    rw [hr] at hx
    dsimp only at hx
    split at hx
    · cases hx
      exact ⟨evs, h⟩
    · rename_i hidle
      refine ⟨_, sound_delete h (fun _ => ?_) hx⟩
      -- it does not read, and nothing of the answer is left
      obtain ⟨hreading, hempty⟩ : r.reading = false ∧ r.buf = [] := by simpa using hidle
      have hanswered := (h.linked c r hr).answers hreading
      rw [hempty, List.append_nil] at hanswered
      exact hanswered

theorem sound_afterRead (h : Sound env saved evs s) {sent : Option Sent}
    (hx : s.afterRead c sent = .ok t) : ∃ evs, Sound env saved evs t := by
  unfold Loop.afterRead at hx
  cases hr : s.store.conns c with
  | none =>
    rw [hr] at hx
    cases hx
  | some r =>
    rw [hr] at hx
    cases sent with
    | none => exact sound_rearm h hx
    | some w =>
      dsimp only at hx
      cases hw : s.cbWrite c r w with
      | none =>
        rw [hw] at hx
        exact sound_failed h hx
      | some u =>
        rw [hw] at hx
        exact sound_rearm (sound_cbWrite h hr hw) hx

theorem sound_cbRdwr (h : Sound env saved evs s) {got : Option Got} {behind : Bytes} {ended : Ended}
    {sent : Option Sent} (hposs : Possible env s (.rdwr c got behind ended sent))
    (hx : s.cbRdwr env c got ended sent = .ok t) : ∃ evs, Sound env saved evs t := by
  unfold Loop.cbRdwr at hx
  cases hr : s.store.conns c with
  | none =>
    rw [hr] at hx
    cases hx
  | some r =>
    rw [hr] at hx
    cases got with
    | none => exact sound_afterRead h hx
    | some g =>
      dsimp only at hx
      split at hx
      · rename_i hreading
        cases hread : s.cbRead env c g ended with
        | error f =>
          simp only [hread, bind, Except.bind] at hx
          cases hx
        | ok next =>
          simp only [hread, bind, Except.bind] at hx
          cases next with
          | none => exact sound_failed h hx
          | some u =>
            obtain ⟨evs', hu⟩ := sound_cbRead h hr hreading
              (fun rd cid req hg => hposs rd cid req (hg ▸ rfl)) hread
            exact sound_afterRead hu hx
      · exact sound_afterRead h hx

theorem sound_step (h : Sound env saved evs s) {ev : Callback} (hstep : Step env s ev t) :
    ∃ evs, Sound env saved evs t := by
  obtain ⟨hposs, hx⟩ := hstep
  cases ev with
  | accept c =>
    cases hx
    exact ⟨_, sound_accept h hposs⟩
  | rdwr c got behind ended sent => exact sound_cbRdwr h hposs hx
  | timer c => exact sound_failed h hx

/-- In every run of the event loop, however the requests come in and the answers go out:
the store goes through a run of whole requests; a connection that is open waits for the
rest of its request or has sent a beginning of the answer to it, with the rest in its
buffer; one that was done has sent all of its answer, and no other one has sent anything
that is not a beginning of its answer. -/
theorem answered_whole (env : Env) (saved : List Wcstat) {evs : List Callback} {s : Loop}
    (hrun : Run (Step env) (start saved) evs s) :
    ∃ requests, Run (Store.Step env) (restore saved) requests s.whole ∧
      (∀ c r, s.store.conns c = some r → Linked env saved requests c (s.link c) r) ∧
      ∀ g ∈ s.gone, Over env saved requests g := by
  have hconns : (restore saved).conns = fun _ => none := (restore_stats saved).2
  have h₀ : Sound env saved [] (start saved) := by
    refine ⟨?_, fun c r hr => ?_, fun g hg => (by cases hg)⟩
    · have hwhole : (start saved).whole = restore saved := by
        rw [Loop.whole, start, Server.mk.injEq]
        refine ⟨rfl, rfl, rfl, ?_⟩
        dsimp only
        rw [hconns]
        rfl
      rw [hwhole]
      exact .nil
    · rw [start, hconns] at hr
      cases hr
  obtain ⟨requests, h⟩ := hrun.invariant (P := fun s => ∃ requests, Sound env saved requests s)
    (fun _ _ _ hs hstep => sound_step hs.choose_spec hstep) ⟨[], h₀⟩
  exact ⟨requests, h.run, h.linked, h.gone⟩

/-- A request of client 7 whose commands are refused, in two reads. -/
def first : Read := ⟨bytes "POST / HTTP/1.1\r\nCookie: ck=7\r\nContent-Le", false⟩

def second : Read := ⟨bytes "ngth: 8\r\n\r\nCh-Init\n", false⟩

def refusedReq : Request :=
  ⟨bytes "POST", bytes "/", [(bytes "Cookie", bytes "ck=7"), (bytes "Content-Length", bytes "8")],
    bytes "Ch-Init\n"⟩

theorem first_waits : readOnce .ilp32 [] first = .waits := by decide +kernel

theorem second_hands : readOnce .ilp32 first.bytes second = .hands 7 refusedReq := by
  decide +kernel

/-- What the server answers. -/
def refusal : Bytes := answer (some "trac error") StoreSafety.refusedEnd.work

/-- The answer goes out in two writes, the first of them in the callback that reads the
end of the request. -/
def twoWrites : List Callback :=
  [.accept 2, .rdwr 2 (some (.read first)) [] StoreSafety.refusedEnd none,
    .rdwr 2 (some (.read second)) [] StoreSafety.refusedEnd (some (.took 9)),
    .rdwr 2 none [] StoreSafety.refusedEnd (some (.took (refusal.length - 9)))]

/-- The state between the two writes. -/
def half : Loop :=
  let s := { (((start []).accept 2).fed 2 first).fed 2 second with
    store := StoreSafety.processed (some "trac error") StoreSafety.refusedEnd.work }
  { s.setLink 2 { s.link 2 with sent := refusal.take 9 } with
    store := s.store.setConn 2 (some ⟨false, some 0, refusal.drop 9⟩) }

/-- The state after them, before the connection is deleted. -/
def allSent : Loop :=
  { half.setLink 2 { half.link 2 with sent := refusal } with
    store := half.store.setConn 2 (some ⟨false, some 0, []⟩) }

theorem cbRead_waits {r : Read} {ended : Ended} (h : readOnce env (s.link c).rbuf r = .waits) :
    s.cbRead env c (.read r) ended = .ok (some (s.fed c r)) := by
  unfold Loop.cbRead
  simp only [h]

theorem cbRead_hands {r : Read} {ended : Ended} {cid : Int} {req : Request} {u : Server}
    (h : readOnce env (s.link c).rbuf r = .hands cid req)
    (hu : s.store.request c cid ended = .ok u) :
    s.cbRead env c (.read r) ended = .ok (some { s.fed c r with store := u }) := by
  unfold Loop.cbRead
  simp only [h, hu]
  rfl

theorem run_twoWrites : ∃ s, Run (Step .ilp32) (start []) twoWrites s ∧
    s.gone = [⟨[first, second], refusal, true⟩] := by
  have h0 : Run (Step .ilp32) (start []) [] (start []) := .nil
  have h1 := h0.snoc (show Step .ilp32 _ (.accept 2) ((start []).accept 2) from ⟨rfl, rfl⟩)
  have hfirst : Step .ilp32 ((start []).accept 2)
      (.rdwr 2 (some (.read first)) [] StoreSafety.refusedEnd none)
      (((start []).accept 2).fed 2 first) := by
    constructor
    · rintro r cid req ⟨⟩ hread
      cases first_waits.symm.trans hread
    · change (((start []).accept 2).cbRead .ilp32 2 (.read first) StoreSafety.refusedEnd >>= _) = _
      rw [cbRead_waits first_waits]
      rfl
  have h2 := h1.snoc hfirst
  have hsecond : Step .ilp32 (((start []).accept 2).fed 2 first)
      (.rdwr 2 (some (.read second)) [] StoreSafety.refusedEnd (some (.took 9))) half := by
    have hrequest : (((start []).accept 2).fed 2 first).store.request 2 7 StoreSafety.refusedEnd =
        .ok _ := request_ok rfl rfl
    constructor
    · rintro r cid req ⟨⟩ hread n hn
      cases second_hands.symm.trans hread
      cases hn
      exact StoreSafety.refused_commands
    · change ((((start []).accept 2).fed 2 first).cbRead .ilp32 2 (.read second)
        StoreSafety.refusedEnd >>= _) = _
      rw [cbRead_hands second_hands hrequest]
      rfl
  have hbuf : (refusal.drop 9).drop (refusal.length - 9) = [] := by decide +kernel
  have hsent : refusal.take 9 ++ (refusal.drop 9).take (refusal.length - 9) = refusal := by
    decide +kernel
  have hwrite : half.cbWrite 2 ⟨false, some 0, refusal.drop 9⟩ (.took (refusal.length - 9)) =
      some allSent := by
    rw [Loop.cbWrite]
    dsimp only
    rw [hbuf, show (half.link 2).sent = refusal.take 9 from rfl, hsent]
    rfl
  have hthird : Step .ilp32 half (.rdwr 2 none [] StoreSafety.refusedEnd
      (some (.took (refusal.length - 9)))) { allSent with
        store := (allSent.store.without 0).setConn 2 none
        gone := [⟨[first, second], refusal, true⟩] } := by
    constructor
    · rintro r cid req ⟨⟩
    · change (match half.cbWrite 2 ⟨false, some 0, refusal.drop 9⟩
          (.took (refusal.length - 9)) with
        | none => half.delete 2 false
        | some t => t.rearm 2) = _
      rw [hwrite]
      rfl
  exact ⟨_, (h2.snoc hsecond).snoc hthird, rfl⟩

/-- The whole answer was sent when the connection was done. -/
theorem answered_twoWrites : ∃ requests s, Run (Store.Step .ilp32) (restore []) requests s ∧
    ∃ c earlier later, requests = earlier ++ .close c :: later ∧
      Answered .ilp32 [] earlier c [first, second] refusal := by
  obtain ⟨s, hrun, hgone⟩ := run_twoWrites
  obtain ⟨requests, hrequests, _, hover⟩ := answered_whole .ilp32 [] hrun
  rw [hgone] at hover
  obtain ⟨c, earlier, later, heq, hdone, _⟩ := hover _ (List.mem_singleton.mpr rfl)
  exact ⟨requests, s.whole, hrequests, c, earlier, later, heq, hdone rfl⟩

end CppSnippets.Wap.Connection
