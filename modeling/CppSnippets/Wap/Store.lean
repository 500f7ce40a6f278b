import Mathlib.Data.List.Perm.Basic
import Mathlib.Data.List.Nodup
import CppSnippets.Lib.Run
import CppSnippets.Wap.Effects
import CppSnippets.Wap.Commands

/-!
# The session store and its readers

`stats_` is a list of sessions and `stats_idx_` a map from client ids to
iterators into it. A reader's `iidx_` is an iterator into the map. Iterators are
addresses, and an address is never used twice, so that an access through an
iterator to an erased element is a fault and not another element. A request is
one event: between `initref` and the end of the `operator()` nothing else runs.
-/
namespace CppSnippets.Wap.Store

open CppSnippets.Lib

/-! ## The store -/

/-- An element of `stats_`. -/
structure Node where
  addr : Nat
  stat : Wcstat
  deriving DecidableEq

/-- An entry of `stats_idx_`, whose value is an iterator into `stats_`. -/
structure Entry where
  addr : Nat
  cid : Int
  iter : Nat
  deriving DecidableEq

/-- `wcreader` with the buffer of its connection. It reads until one request is
complete. -/
structure Reader where
  reading : Bool
  iidx : Option Nat
  buf : Bytes
  deriving DecidableEq

structure Server where
  stats : List Node
  idx : List Entry
  /-- The next address. -/
  next : Nat
  /-- The open connections. -/
  conns : Nat → Option Reader

inductive Fault where
  /-- An access through an iterator to an erased element. -/
  | dangling
  /-- The event cannot happen in this state, or the run of `commands` has no
  defined result. -/
  | impossible
  deriving DecidableEq

namespace Server

/-- `*iidx_`. -/
def entry (s : Server) (a : Nat) : Except Fault Entry :=
  match s.idx.find? fun e => e.addr = a with
  | none => .error .dangling
  | some e => .ok e

/-- `*iidx_->second`. -/
def node (s : Server) (a : Nat) : Except Fault Node :=
  match s.stats.find? fun n => n.addr = a with
  | none => .error .dangling
  | some n => .ok n

/-- `wcscoped::ref`. -/
def ref (s : Server) (a : Nat) : Except Fault Node := do s.node (← s.entry a).iter

/-- The new element and the new entry of `wcscoped::initref`. -/
def insert (s : Server) (cid : Int) : Server :=
  { s with
    stats := ⟨s.next, .new cid⟩ :: s.stats
    idx := ⟨s.next, cid, s.next⟩ :: s.idx
    next := s.next + 1 }

/-- `wcscoped::initref`, up to its `ref()`: the store, and `iidx_`. -/
def initref (s : Server) (cid : Int) : Server × Nat :=
  match s.idx.find? fun e => e.cid = cid with
  | some e => (s, e.addr)
  | none => (s.insert cid, s.next)

/-- `~wcscoped`, for an `iidx_` that is not the end of the map. -/
def erase (s : Server) (a : Nat) : Except Fault Server := do
  let e ← s.entry a
  let _ ← s.node e.iter
  return { s with
    stats := s.stats.filter fun n => n.addr ≠ e.iter
    idx := s.idx.filter fun e' => e'.addr ≠ a }

/-- The store without the entry and the element of this address. -/
def without (s : Server) (a : Nat) : Server :=
  { s with
    stats := s.stats.filter fun n => n.addr ≠ a
    idx := s.idx.filter fun e => e.addr ≠ a }

/-- The session at this address after `commands`. -/
def put (s : Server) (a : Nat) (stat : Wcstat) : Server :=
  { s with stats := s.stats.map fun n => if n.addr = a then { n with stat := stat } else n }

def setConn (s : Server) (c : Nat) (r : Option Reader) : Server :=
  { s with conns := Function.update s.conns c r }

@[simp] theorem setConn_self (s : Server) (c : Nat) (r : Option Reader) :
    (s.setConn c r).conns c = r := by
  simp [setConn]

@[simp] theorem setConn_ne (s : Server) {c c' : Nat} (r : Option Reader) (h : c' ≠ c) :
    (s.setConn c r).conns c' = s.conns c' := by
  simp [setConn, h]

end Server

/-- The error and the session that `wcreader::operator()` sees: an exception is
an error too. -/
def reply : Ended → Option (Option String × Work)
  | .returned err w => some (err, w)
  | .trapped (.thrown what) w => some (some what, w)
  | .trapped _ _ => none

/-- The request succeeds: there is no error and something is left to repeat. -/
def succeeds (err : Option String) (wc : Wcstat) : Bool := err.isNone && decide (0 < wc.nRepeat)

/-- What the connection sends. -/
def answer (err : Option String) (w : Work) : Bytes :=
  match err with
  | none => w.out
  | some msg => assignRsp 501 msg (bytes "bye.")

/-- `wcreader::operator()` on a complete request, where `commands` ends in this
way. -/
def Server.request (s : Server) (c : Nat) (cid : Int) (ended : Ended) : Except Fault Server := do
  let n ← (s.initref cid).1.ref (s.initref cid).2
  match reply ended with
  | none => .error .impossible
  | some (err, w) =>
    let iidx := if succeeds err w.wc then none else some (s.initref cid).2
    .ok (((s.initref cid).1.put n.addr w.wc).setConn c (some ⟨false, iidx, answer err w⟩))

/-- `~connection`, with its reader. -/
def Server.close (s : Server) (c : Nat) : Except Fault Server :=
  match s.conns c with
  | none => .error .impossible
  | some r =>
    match r.iidx with
    | none => .ok (s.setConn c none)
    | some a => do return (← s.erase a).setConn c none

/-- The events of the server. A request carries its client id, its body, the
memory behind the body and how `commands` ends on it. -/
inductive Event where
  | accept (c : Nat)
  | request (c : Nat) (cid : Int) (m : Memory) (ended : Ended)
  | close (c : Nat)

/-- What an event does. -/
def exec (s : Server) : Event → Except Fault Server
  | .accept c => .ok (s.setConn c (some ⟨true, none, []⟩))
  | .request c cid _ ended => s.request c cid ended
  | .close c => s.close c

/-- The event can happen. A request is complete when its id is not 0 and its body
not empty, and is what `commands` is then run on. -/
def Possible (env : Env) (s : Server) : Event → Prop
  | .accept c => s.conns c = none
  | .request c cid m ended => cid ≠ 0 ∧ m.body ≠ [] ∧ ∃ r, s.conns c = some r ∧ r.reading = true ∧
      ∀ n, (s.initref cid).1.ref (s.initref cid).2 = .ok n →
        Commands env m ⟨n.stat, [], r.buf⟩ ended
  | .close c => s.conns c ≠ none

def Step (env : Env) (s : Server) (ev : Event) (t : Server) : Prop :=
  Possible env s ev ∧ exec s ev = .ok t

/-- The loop of `restore_stats`, whose sessions are at the addresses in turn. -/
def Server.restoreOne (s : Server) (stat : Wcstat) : Server :=
  { s with
    stats := s.stats ++ [⟨s.next, stat⟩]
    idx := s.idx.filter (fun e => e.cid ≠ stat.cid) ++ [⟨s.next, stat.cid, s.next⟩]
    next := s.next + 1 }

/-- The server starts with the sessions that an earlier process saved. -/
def restore (saved : List Wcstat) : Server :=
  saved.foldl Server.restoreOne ⟨[], [], 0, fun _ => none⟩

/-! ## The list and its index -/

/-- The list and its index are in bijection: the entries have distinct ids and
distinct elements, each entry's element is live and has the entry's id, and every
element has an entry. -/
structure Indexed (s : Server) : Prop where
  cids : (s.idx.map Entry.cid).Nodup
  addrs : (s.stats.map Node.addr).Nodup
  iters : (s.idx.map Entry.iter).Perm (s.stats.map Node.addr)
  designates : ∀ e ∈ s.idx, ∃ n ∈ s.stats, n.addr = e.iter ∧ n.stat.cid = e.cid

/-- With what the addresses are: an entry and its element are made together, at
the next address. A reader that still reads holds nothing. -/
structure Inv (s : Server) : Prop extends Indexed s where
  same : ∀ e ∈ s.idx, e.addr = e.iter
  fresh : ∀ n ∈ s.stats, n.addr < s.next
  idle : ∀ c r, s.conns c = some r → r.reading = true → r.iidx = none

namespace Inv

variable {s t : Server}

theorem entry_eq (h : Inv s) {e e' : Entry} (he : e ∈ s.idx) (he' : e' ∈ s.idx)
    (ha : e.addr = e'.addr) : e = e' := by
  rw [h.same e he, h.same e' he'] at ha
  exact List.inj_on_of_nodup_map (h.iters.nodup_iff.mpr h.addrs) he he' ha

theorem node_eq (h : Inv s) {n n' : Node} (hn : n ∈ s.stats) (hn' : n' ∈ s.stats)
    (ha : n.addr = n'.addr) : n = n' :=
  List.inj_on_of_nodup_map h.addrs hn hn' ha

/-- The element of an entry. -/
theorem element (h : Inv s) {e : Entry} (he : e ∈ s.idx) :
    ∃ n ∈ s.stats, n.addr = e.addr ∧ n.stat.cid = e.cid := by
  obtain ⟨n, hn, ha, hc⟩ := h.designates e he
  exact ⟨n, hn, ha.trans (h.same e he).symm, hc⟩

/-! ## What the operations do -/

theorem entry_ok (h : Inv s) {e : Entry} (he : e ∈ s.idx) : s.entry e.addr = .ok e := by
  unfold Server.entry
  cases hf : s.idx.find? fun e' => e'.addr = e.addr with
  | none =>
    have := List.find?_eq_none.mp hf e he
    simp at this
  | some e' =>
    have ha := List.find?_some hf
    rw [h.entry_eq (List.mem_of_find?_eq_some hf) he (by simpa using ha)]

theorem node_ok (h : Inv s) {n : Node} (hn : n ∈ s.stats) : s.node n.addr = .ok n := by
  unfold Server.node
  cases hf : s.stats.find? fun n' => n'.addr = n.addr with
  | none =>
    have := List.find?_eq_none.mp hf n hn
    simp at this
  | some n' =>
    have ha := List.find?_some hf
    rw [h.node_eq (List.mem_of_find?_eq_some hf) hn (by simpa using ha)]

/-- Through a live entry there is a live element. -/
theorem ref_ok (h : Inv s) {e : Entry} (he : e ∈ s.idx) :
    ∃ n ∈ s.stats, s.ref e.addr = .ok n ∧ n.addr = e.addr ∧ n.stat.cid = e.cid := by
  obtain ⟨n, hn, ha, hc⟩ := h.element he
  refine ⟨n, hn, ?_, ha, hc⟩
  rw [Server.ref, h.entry_ok he]
  change s.node e.iter = _
  rw [← h.same e he, ← ha]
  exact h.node_ok hn

/-- One more session and its entry, at the next address. -/
theorem add (h : Inv s) (stat : Wcstat) (hstats : t.stats.Perm (⟨s.next, stat⟩ :: s.stats))
    (hidx : t.idx.Perm (⟨s.next, stat.cid, s.next⟩ :: s.idx)) (hnext : t.next = s.next + 1)
    (hconns : t.conns = s.conns) (hc : stat.cid ∉ s.idx.map Entry.cid) : Inv t := by
  have hnew : s.next ∉ s.stats.map Node.addr := by
    intro hmem
    obtain ⟨n, hn, ha⟩ := List.mem_map.mp hmem
    exact absurd (h.fresh n hn) (by omega)
  refine ⟨⟨?_, ?_, ?_, ?_⟩, ?_, ?_, ?_⟩
  · exact (hidx.map _).nodup_iff.mpr (List.nodup_cons.mpr ⟨hc, h.cids⟩)
  · exact (hstats.map _).nodup_iff.mpr (List.nodup_cons.mpr ⟨hnew, h.addrs⟩)
  · exact (hidx.map _).trans ((h.iters.cons s.next).trans (hstats.map Node.addr).symm)
  · intro e he
    rcases List.mem_cons.mp (hidx.mem_iff.mp he) with rfl | he
    · exact ⟨⟨s.next, stat⟩, hstats.mem_iff.mpr List.mem_cons_self, rfl, rfl⟩
    · obtain ⟨n, hn, hd⟩ := h.designates e he
      exact ⟨n, hstats.mem_iff.mpr (List.mem_cons_of_mem _ hn), hd⟩
  · intro e he
    rcases List.mem_cons.mp (hidx.mem_iff.mp he) with rfl | he
    · rfl
    · exact h.same e he
  · intro n hn
    rw [hnext]
    rcases List.mem_cons.mp (hstats.mem_iff.mp hn) with rfl | hn
    · exact Nat.lt_succ_self _
    · exact Nat.lt_succ_of_lt (h.fresh n hn)
  · rw [hconns]
    exact h.idle

/-- `initref` finds the entry of the client id or makes it. -/
theorem initref (h : Inv s) (cid : Int) :
    Inv (s.initref cid).1 ∧ (s.initref cid).1.conns = s.conns ∧
    (∃ e ∈ (s.initref cid).1.idx, e.addr = (s.initref cid).2 ∧ e.cid = cid) ∧
    (∀ e ∈ s.idx, e ∈ (s.initref cid).1.idx) ∧
    (∀ n ∈ (s.initref cid).1.stats, n ∈ s.stats ∨
      n = ⟨s.next, .new cid⟩ ∧ (s.initref cid).2 = s.next) ∧
    (∀ n ∈ s.stats, n ∈ (s.initref cid).1.stats) ∧ s.next ≤ (s.initref cid).1.next := by
  unfold Server.initref
  cases hf : s.idx.find? fun e => e.cid = cid with
  | some e =>
    have hc := List.find?_some hf
    refine ⟨h, rfl, ⟨e, List.mem_of_find?_eq_some hf, rfl, by simpa using hc⟩,
      fun _ he => he, fun _ hn => .inl hn, fun _ hn => hn, Nat.le_refl _⟩
  | none =>
    have hnew : cid ∉ s.idx.map Entry.cid := by
      intro hmem
      obtain ⟨e, he, rfl⟩ := List.mem_map.mp hmem
      have := List.find?_eq_none.mp hf e he
      simp at this
    refine ⟨h.add (.new cid) (.refl _) (.refl _) rfl rfl hnew, rfl,
      ⟨_, List.mem_cons_self, rfl, rfl⟩, fun _ he => List.mem_cons_of_mem _ he, ?_,
      fun _ hn => List.mem_cons_of_mem _ hn, Nat.le_succ _⟩
    intro n hn
    rcases List.mem_cons.mp hn with rfl | hn
    · exact .inr ⟨rfl, rfl⟩
    · exact .inl hn

/-- A session replaced by one of the same client. -/
theorem put (h : Inv s) {n : Node} {stat : Wcstat} (hn : n ∈ s.stats)
    (hc : stat.cid = n.stat.cid) : Inv (s.put n.addr stat) := by
  have haddrs : (s.put n.addr stat).stats.map Node.addr = s.stats.map Node.addr := by
    rw [Server.put, List.map_map]
    apply List.map_congr_left
    intro n' _
    simp only [Function.comp]
    split <;> rfl
  refine ⟨⟨h.cids, ?_, ?_, ?_⟩, h.same, ?_, h.idle⟩
  · rw [haddrs]
    exact h.addrs
  · rw [haddrs]
    exact h.iters
  · intro e he
    obtain ⟨n', hn', ha, hd⟩ := h.designates e he
    refine ⟨_, List.mem_map_of_mem hn', ?_, ?_⟩
    · split <;> exact ha
    · split
      · rename_i heq
        rw [h.node_eq hn' hn heq] at hd
        exact hc.trans hd
      · exact hd
  · intro n' hn'
    obtain ⟨n'', hn'', rfl⟩ := List.mem_map.mp hn'
    have hlt := h.fresh n'' hn''
    split <;> exact hlt

/-- `~wcscoped` takes out the entry and its element, and nothing else. -/
theorem erase_eq (h : Inv s) {e : Entry} (he : e ∈ s.idx) :
    s.erase e.addr = .ok (s.without e.addr) := by
  obtain ⟨n, hn, ha, _⟩ := h.element he
  have hnode := h.node_ok hn
  rw [ha, h.same e he] at hnode
  rw [Server.erase, h.entry_ok he]
  change (s.node e.iter >>= fun _ => _) = _
  rw [hnode, Server.without, h.same e he]
  rfl

theorem without (h : Inv s) (a : Nat) : Inv (s.without a) := by
  have hidx : (s.without a).idx.map Entry.iter = (s.idx.map Entry.iter).filter fun i => i ≠ a := by
    rw [List.filter_map]
    apply congrArg (List.map Entry.iter)
    apply List.filter_congr
    intro e he
    simp only [Function.comp, h.same e he]
  have hstats : (s.without a).stats.map Node.addr =
      (s.stats.map Node.addr).filter fun i => i ≠ a := by
    rw [List.filter_map]
    rfl
  refine ⟨⟨?_, ?_, ?_, ?_⟩, ?_, ?_, h.idle⟩
  · exact (List.filter_sublist.map _).nodup h.cids
  · exact (List.filter_sublist.map _).nodup h.addrs
  · rw [hidx, hstats]
    exact h.iters.filter _
  · intro e he
    obtain ⟨hmem, hne⟩ := List.mem_filter.mp he
    obtain ⟨n, hn, ha, hc⟩ := h.designates e hmem
    refine ⟨n, List.mem_filter.mpr ⟨hn, ?_⟩, ha, hc⟩
    rw [ha, ← h.same e hmem]
    exact hne
  · exact fun e he => h.same e (List.mem_filter.mp he).1
  · exact fun n hn => h.fresh n (List.mem_filter.mp hn).1

/-- A connection that does not hold anything while it reads. -/
theorem setConn (h : Inv s) (c : Nat) {r : Option Reader}
    (hr : ∀ r', r = some r' → r'.reading = true → r'.iidx = none) : Inv (s.setConn c r) := by
  refine ⟨⟨h.cids, h.addrs, h.iters, h.designates⟩, h.same, h.fresh, ?_⟩
  intro c' r' hc'
  by_cases hcc : c' = c
  · subst hcc
    rw [Server.setConn_self] at hc'
    exact hr r' hc'
  · rw [Server.setConn_ne s r hcc] at hc'
    exact h.idle c' r' hc'

end Inv

/-! ## What an event does -/

variable {env : Env} {s t : Server}

theorem reply_work {ended : Ended} {err : Option String} {w : Work}
    (h : reply ended = some (err, w)) : w = ended.work := by
  unfold reply at h
  split at h <;> cases h <;> rfl

theorem request_ok {c : Nat} {cid : Int} {n : Node} {ended : Ended} {err : Option String}
    {w : Work} (href : (s.initref cid).1.ref (s.initref cid).2 = .ok n)
    (hreply : reply ended = some (err, w)) : s.request c cid ended =
      .ok (((s.initref cid).1.put n.addr w.wc).setConn c (some
        ⟨false, if succeeds err w.wc then none else some (s.initref cid).2, answer err w⟩)) := by
  rw [Server.request, href]
  simp only [bind, Except.bind, hreply]

/-- A request that is processed: the session it starts with, and what it leaves. -/
theorem request_cases (hi : Inv s) {c : Nat} {cid : Int} {m : Memory} {ended : Ended}
    (h : Step env s (.request c cid m ended) t) :
    ∃ r e n err w, s.conns c = some r ∧ r.reading = true ∧
      e ∈ (s.initref cid).1.idx ∧ e.addr = (s.initref cid).2 ∧ e.cid = cid ∧
      n ∈ (s.initref cid).1.stats ∧ n.addr = e.addr ∧ n.stat.cid = cid ∧
      Commands env m ⟨n.stat, [], r.buf⟩ ended ∧ reply ended = some (err, w) ∧
      t = ((s.initref cid).1.put n.addr w.wc).setConn c
        (some ⟨false, if succeeds err w.wc then none else some e.addr, answer err w⟩) := by
  obtain ⟨⟨_, _, r, hr, hreading, hcmd⟩, hx⟩ := h
  obtain ⟨hi', _, ⟨e, he, ha, hc⟩, _⟩ := hi.initref cid
  obtain ⟨n, hn, href, hna, hnc⟩ := hi'.ref_ok he
  rw [ha] at href
  change s.request c cid ended = .ok t at hx
  cases hreply : reply ended with
  | none =>
    rw [Server.request, href] at hx
    simp only [bind, Except.bind, hreply] at hx
    cases hx
  | some p =>
    rw [request_ok href hreply] at hx
    cases hx
    exact ⟨r, e, n, p.1, p.2, hr, hreading, he, ha, hc, hn, hna, hnc.trans hc, hcmd n href, rfl,
      by rw [ha]⟩

/-- A connection that is closed: its entry and element are taken out with it. -/
theorem close_cases (hi : Inv s) {c : Nat} (h : Step env s (.close c) t) :
    ∃ r, s.conns c = some r ∧ (r.iidx = none ∧ t = s.setConn c none ∨
      ∃ e ∈ s.idx, r.iidx = some e.addr ∧ t = (s.without e.addr).setConn c none) := by
  obtain ⟨hopen, hx⟩ := h
  change s.close c = .ok t at hx
  rw [Server.close] at hx
  cases hr : s.conns c with
  | none => exact absurd hr hopen
  | some r =>
    refine ⟨r, rfl, ?_⟩
    rw [hr] at hx
    dsimp only at hx
    cases hidx : r.iidx with
    | none =>
      rw [hidx] at hx
      cases hx
      exact .inl ⟨rfl, rfl⟩
    | some a =>
      right
      rw [hidx] at hx
      dsimp only at hx
      cases hf : s.entry a with
      | error f =>
        rw [Server.erase, hf] at hx
        cases hx
      | ok e =>
        have he : e ∈ s.idx ∧ e.addr = a := by
          unfold Server.entry at hf
          split at hf
          · cases hf
          · rename_i e' hfind
            cases hf
            exact ⟨List.mem_of_find?_eq_some hfind, by simpa using List.find?_some hfind⟩
        obtain ⟨he, rfl⟩ := he
        rw [hi.erase_eq he] at hx
        cases hx
        exact ⟨e, he, rfl, rfl⟩

theorem step_inv {ev : Event} (hi : Inv s) (h : Step env s ev t) : Inv t := by
  cases ev with
  | accept c =>
    cases h.2
    exact hi.setConn c fun r' hr _ => by cases hr; rfl
  | request c cid m ended =>
    obtain ⟨r, e, n, err, w, _, _, _, _, _, hn, _, _, hcmd, hreply, rfl⟩ := request_cases hi h
    have hcid := hcmd.cid
    rw [← reply_work hreply] at hcid
    exact ((hi.initref cid).1.put hn hcid).setConn c fun r' hr hreading => by
      cases hr
      cases hreading
  | close c =>
    obtain ⟨r, _, ⟨_, rfl⟩ | ⟨e, _, _, rfl⟩⟩ := close_cases hi h
    · exact hi.setConn c fun r' hr _ => by cases hr
    · exact (hi.without e.addr).setConn c fun r' hr _ => by cases hr

/-! ## The start of a server -/

/-- The list is restored element by element. -/
theorem restore_stats (saved : List Wcstat) :
    (restore saved).stats.map Node.stat = saved ∧ (restore saved).conns = fun _ => none := by
  have key : ∀ (l : List Wcstat) (s : Server),
      (l.foldl Server.restoreOne s).stats.map Node.stat = s.stats.map Node.stat ++ l ∧
      (l.foldl Server.restoreOne s).conns = s.conns := by
    intro l
    induction l with
    | nil => exact fun s => ⟨(List.append_nil _).symm, rfl⟩
    | cons stat l ih =>
      intro s
      obtain ⟨hstats, hconns⟩ := ih (s.restoreOne stat)
      refine ⟨?_, hconns⟩
      rw [List.foldl_cons, hstats, Server.restoreOne, List.map_append, List.append_assoc]
      rfl
  exact key saved _

theorem restoreOne_inv (hi : Inv s) (stat : Wcstat) (hc : stat.cid ∉ s.idx.map Entry.cid) :
    Inv (s.restoreOne stat) ∧
    ((s.restoreOne stat).idx.map Entry.cid).Perm (stat.cid :: s.idx.map Entry.cid) := by
  have hidx : (s.restoreOne stat).idx.Perm (⟨s.next, stat.cid, s.next⟩ :: s.idx) := by
    have hall : s.idx.filter (fun e => e.cid ≠ stat.cid) = s.idx := by
      rw [List.filter_eq_self]
      intro e he
      simp only [ne_eq, decide_not, Bool.not_eq_eq_eq_not, Bool.not_true, decide_eq_false_iff_not]
      intro heq
      exact hc (heq ▸ List.mem_map_of_mem he)
    rw [Server.restoreOne, hall]
    exact List.perm_append_singleton _ _
  exact ⟨hi.add stat (List.perm_append_singleton _ _) hidx rfl rfl hc, hidx.map Entry.cid⟩

/-- A saved list with one session for each client is restored as it is. -/
theorem restore_inv (saved : List Wcstat) (h : (saved.map Wcstat.cid).Nodup) :
    Inv (restore saved) ∧ (∀ c, (restore saved).conns c = none) ∧
    ∀ n ∈ (restore saved).stats, n.stat ∈ saved := by
  have key : ∀ (l : List Wcstat) (s : Server), Inv s →
      (l.map Wcstat.cid ++ s.idx.map Entry.cid).Nodup → Inv (l.foldl Server.restoreOne s) ∧
      (l.foldl Server.restoreOne s).conns = s.conns ∧
      ∀ n ∈ (l.foldl Server.restoreOne s).stats, n ∈ s.stats ∨ n.stat ∈ l := by
    intro l
    induction l with
    | nil => exact fun s hi _ => ⟨hi, rfl, fun _ hn => .inl hn⟩
    | cons stat l ih =>
      intro s hi hnodup
      rw [List.map_cons, List.cons_append, List.nodup_cons] at hnodup
      obtain ⟨hi', hperm⟩ := restoreOne_inv hi stat fun hmem =>
        hnodup.1 (List.mem_append_right _ hmem)
      have hnodup' : (l.map Wcstat.cid ++ (s.restoreOne stat).idx.map Entry.cid).Nodup := by
        have hp := (hperm.append_left (l.map Wcstat.cid)).trans List.perm_middle
        exact hp.nodup_iff.mpr (List.nodup_cons.mpr hnodup)
      obtain ⟨hinv, hconns, hstats⟩ := ih _ hi' hnodup'
      refine ⟨hinv, hconns, fun n hn => ?_⟩
      rcases hstats n hn with hmem | hmem
      · rcases List.mem_append.mp hmem with hmem | hmem
        · exact .inl hmem
        · rw [List.mem_singleton.mp hmem]
          exact .inr List.mem_cons_self
      · exact .inr (List.mem_cons_of_mem _ hmem)
  have hempty : Inv ⟨[], [], 0, fun _ => none⟩ :=
    ⟨⟨.nil, .nil, .refl _, fun e he => absurd he List.not_mem_nil⟩,
      fun e he => absurd he List.not_mem_nil, fun n hn => absurd hn List.not_mem_nil,
      fun c r hr => by cases hr⟩
  obtain ⟨hinv, hconns, hstats⟩ := key saved _ hempty (by simpa using h)
  refine ⟨hinv, fun c => congrFun hconns c, fun n hn => ?_⟩
  rcases hstats n hn with hmem | hmem
  · exact absurd hmem List.not_mem_nil
  · exact hmem

end CppSnippets.Wap.Store
