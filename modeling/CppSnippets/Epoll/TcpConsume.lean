import CppSnippets.Epoll.TcpSend

/-!
# The network's thread as the consumer of the queue

Between two steps of the producer, whatever the sending side does over TCP comes down
to `wait` and `done` on the queue: it gives back what it has taken and nothing else,
through errors and new connections. The producer takes its turns between events.
-/
namespace CppSnippets.Epoll.TcpConsume

open CppSnippets.Lib TcpIo
open QueueRefinement hiding Event Step
open TcpSend (Holds Inv inv_flags inv_error inv_l1send inv_l1recv inv_takeNext done_spec l1send_cases)

variable {N : Nat} {s t u : TcpIo N}

/-- The producer does nothing while the event is handled. -/
def Quiet : TcpIo.Event → Prop
  | .produce _ => False
  | .prewait answers => ∀ a ∈ answers, a.meanwhile = []
  | .onEvents _ _ ops _ answers => ops = [] ∧ ∀ a ∈ answers, a.meanwhile = []
  | .lisk _ => True

/-- One operation of the consumer, beside the list of what it has been handed. -/
inductive Consume : CycleBufferQueue N × List (List Byte) → Op →
    CycleBufferQueue N × List (List Byte) → Prop
  | wait {q q' : CycleBufferQueue N} {l : List (List Byte)} (h : q.wait = .ok q') :
      Consume (q, l) .wait (q', l ++ (q'.iusing.map fun i => (q'.bufs i).data).toList)
  | done {q q' : CycleBufferQueue N} {l : List (List Byte)} (h : exec q .doneUsing = .ok q') :
      Consume (q, l) .doneUsing (q', l)

/-- The list only grows, and what stood there before makes no difference. -/
theorem consume_grows {x y : CycleBufferQueue N × List (List Byte)} {ops : List Op}
    (h : Run Consume x ops y) : ∃ more, y.2 = x.2 ++ more ∧
      ∀ l, Run Consume (x.1, l) ops (y.1, l ++ more) := by
  induction h with
  | nil =>
    refine ⟨[], (List.append_nil _).symm, fun l => ?_⟩
    rw [List.append_nil]
    exact .nil
  | snoc _ hs ih =>
    obtain ⟨more, hy, hrun⟩ := ih
    cases hs with
    | wait hw =>
      refine ⟨more ++ _, by rw [← List.append_assoc, ← hy], fun l => ?_⟩
      rw [← List.append_assoc]
      exact (hrun l).snoc (.wait hw)
    | done hd => exact ⟨more, hy, fun l => (hrun l).snoc (.done hd)⟩

/-- On one connection, by operations of the consumer alone. -/
def Consumes (s t : TcpIo N) : Prop :=
  t.past = s.past ∧ ∃ ops, Run Consume (s.q, s.conn.taken) ops (t.q, t.conn.taken)

theorem Consumes.of_eq (hpast : t.past = s.past) (hq : t.q = s.q)
    (htaken : t.conn.taken = s.conn.taken) : Consumes s t := by
  refine ⟨hpast, [], ?_⟩
  rw [hq, htaken]
  exact .nil

theorem Consumes.trans (h : Consumes s t) (k : Consumes t u) : Consumes s u := by
  obtain ⟨hpast, ops, hrun⟩ := h
  obtain ⟨hpast', ops', hrun'⟩ := k
  exact ⟨hpast'.trans hpast, ops ++ ops', hrun.append hrun'⟩

theorem consumes_done {i : Fin N} {p : Nat} (h : Holds s.q (some (i, p)))
    (hs : s.done i [] = .ok t) : Consumes s t := by
  have hu : s.q.iusing = some i := h.iusing
  unfold TcpIo.done at hs
  simp only [produce, inner_ok, bind, Except.bind] at hs
  cases hd : s.q.done i with
  | error e =>
    rw [hd] at hs
    cases hs
  | ok q =>
    rw [hd] at hs
    cases hs
    have hx : exec s.q .doneUsing = .ok q := by rw [exec, hu]; exact hd
    exact ⟨rfl, [.doneUsing], Run.single (.done hx)⟩

theorem consumes_error (h : Inv s) (hs : s.error [] = .ok t) : Consumes s t := by
  obtain ⟨q, sk, tx, conn, past⟩ := s
  unfold TcpIo.error at hs
  cases tx with
  | none =>
    cases hs
    exact .of_eq rfl rfl rfl
  | some x =>
    obtain ⟨i, p⟩ := x
    have hdone := consumes_done
      (s := ⟨q, if sk.isOpen then ⟨false, false, false⟩ else sk, some (i, p), conn, past⟩) h.holds hs
    exact (Consumes.of_eq rfl rfl rfl).trans hdone

/-- More of the buffer is on the wire, and it is still the one being sent. -/
theorem inv_more {i : Fin N} {p n : Nat} (h : Inv s) (htx : s.tx = some (i, p))
    (hlt : p + n < (s.q.bufs i).size) (sk : TcpSocket) (hsk : sk.isOpen = s.sk.isOpen) :
    Inv { s with
      sk := sk
      tx := some (i, p + n)
      conn := { s.conn with wire := s.conn.wire ++ ((s.q.bufs i).data.drop p).take n } } := by
  obtain ⟨hopen, hcur⟩ := h.sending htx
  refine ⟨?_, fun _ => hcur.more hlt, fun hc => ?_, h.past⟩
  · exact ⟨h.holds.shape, h.holds.iusing.trans (by rw [htx]; rfl)⟩
  · exact absurd (hsk.symm.trans hc) (by simp [hopen])

/-- The rest of the buffer is on the wire and the buffer is given back. -/
theorem inv_last {i : Fin N} {p : Nat} (h : Inv s) (htx : s.tx = some (i, p))
    (hs : TcpIo.done { s with
      conn := { s.conn with wire := s.conn.wire ++ (s.q.bufs i).data.drop p } } i [] = .ok t) :
    Inv t := by
  obtain ⟨hopen, hcur⟩ := h.sending htx
  obtain ⟨q, hq, rfl⟩ := done_spec (htx ▸ h.holds) hs
  have hdone := hcur.finish
  refine ⟨hq, fun _ => ⟨hdone.taken, hdone.wire, hdone.short⟩, fun hc => ?_, h.past⟩
  exact absurd hc (by simp [hopen])

theorem consumes_l1send {answers : List Reply} (h : Inv s) (hquiet : ∀ a ∈ answers, a.meanwhile = [])
    (hs : s.l1send answers = .ok t) : Consumes s t := by
  induction answers generalizing s with
  | nil =>
    cases hs
    exact .of_eq rfl rfl rfl
  | cons a as ih =>
    have ha : a.meanwhile = [] := hquiet a List.mem_cons_self
    have hrest : ∀ b ∈ as, b.meanwhile = [] := fun b hb => hquiet b (List.mem_cons_of_mem a hb)
    by_cases htx : s.tx = none
    · rw [l1send, htx] at hs
      cases hs
      exact .of_eq rfl rfl rfl
    obtain ⟨⟨i, p⟩, htx⟩ := Option.ne_none_iff_exists'.mp htx
    by_cases hout : s.sk.epollout = true
    · have hp : p < (s.q.bufs i).size := (h.sending htx).2.short _ rfl
      rcases l1send_cases htx hp hout hs with ⟨_, he⟩ | rfl | ⟨n, hn, hlt, hs⟩ | ⟨u, hd, hs⟩
      · rw [ha] at he
        have herror := consumes_error (inv_flags h s.sk.epollin false) he
        exact (Consumes.of_eq rfl rfl rfl).trans herror
      · exact .of_eq rfl rfl rfl
      · have hmore := inv_more (n := n) h htx (by omega)
          { s.sk with epollout := false } rfl
        have hgo := ih hmore hrest hs
        exact (Consumes.of_eq rfl rfl rfl).trans hgo
      · rw [ha] at hd
        have hdone := consumes_done (s := { s with
          conn := { s.conn with wire := s.conn.wire ++ (s.q.bufs i).data.drop p } }) (htx ▸ h.holds) hd
        exact ((Consumes.of_eq rfl rfl rfl).trans hdone).trans (ih (inv_last h htx hd) hrest hs)
    · rw [l1send, htx] at hs
      simp only [hout] at hs
      cases hs
      exact .of_eq rfl rfl rfl

theorem consumes_takeNext (hs : s.takeNext = .ok t) : Consumes s t := by
  unfold takeNext at hs
  cases htx : s.tx with
  | some x =>
    rw [htx] at hs
    cases hs
    exact .of_eq rfl rfl rfl
  | none =>
    rw [htx] at hs
    cases hw : s.q.wait with
    | error e =>
      rw [hw] at hs
      cases hs
    | ok q =>
      rw [hw] at hs
      have hstep : Consume (s.q, s.conn.taken) .wait
          (q, s.conn.taken ++ (q.iusing.map fun i => (q.bufs i).data).toList) := .wait hw
      cases hu : q.iusing with
      | none =>
        simp only [inner_ok, bind, Except.bind, hu, pure, Except.pure] at hs
        cases hs
        rw [hu] at hstep
        simp only [Option.map_none, Option.toList_none, List.append_nil] at hstep
        exact ⟨rfl, [.wait], Run.single hstep⟩
      | some i =>
        simp only [inner_ok, bind, Except.bind, hu, pure, Except.pure] at hs
        cases hs
        rw [hu] at hstep
        simp only [Option.map_some, Option.toList_some] at hstep
        exact ⟨rfl, [.wait], Run.single hstep⟩

theorem consumes_prewait {answers : List Reply} (h : Inv s)
    (hquiet : ∀ a ∈ answers, a.meanwhile = []) (hs : s.prewait answers = .ok t) : Consumes s t := by
  unfold prewait at hs
  cases ho : s.sk.isOpen with
  | false =>
    rw [ho] at hs
    cases hs
    exact .of_eq rfl rfl rfl
  | true =>
    rw [ho, if_pos rfl] at hs
    unfold trysendx at hs
    cases hn : s.takeNext with
    | error e =>
      rw [hn] at hs
      cases hs
    | ok u =>
      have htake := consumes_takeNext hn
      rw [hn] at hs
      by_cases htx : u.tx = none
      · simp only [bind, Except.bind, htx, if_true] at hs
        cases hs
        exact htake
      · simp only [bind, Except.bind, htx, if_false] at hs
        exact htake.trans (consumes_l1send (inv_takeNext h ho hn) hquiet hs)

theorem consumes_l1recv {fails : Bool} (h : Inv s) (hs : s.l1recv [] fails = .ok t) :
    Consumes s t := by
  unfold TcpIo.l1recv at hs
  simp only [produce, inner_ok, bind, Except.bind] at hs
  cases fails with
  | false =>
    cases hs
    exact .of_eq rfl rfl rfl
  | true =>
    have herror := consumes_error (inv_flags h false s.sk.epollout) hs
    exact (Consumes.of_eq rfl rfl rfl).trans herror

theorem consumes_onEvents {epollin epollout fails : Bool} {answers : List Reply} (h : Inv s)
    (hquiet : ∀ a ∈ answers, a.meanwhile = [])
    (hs : s.onEvents epollin epollout [] fails answers = .ok t) : Consumes s t := by
  unfold TcpIo.onEvents at hs
  have hflags := inv_flags h epollin epollout
  have hsend : ∀ {u : TcpIo N}, Inv u →
      (if u.sk.epollout then u.l1send answers else .ok u) = .ok t → Consumes u t := by
    intro u hu hs
    split at hs
    · exact consumes_l1send hu hquiet hs
    · cases hs
      exact .of_eq rfl rfl rfl
  have hsame : Consumes s { s with sk := ⟨s.sk.isOpen, epollin, epollout⟩ } := .of_eq rfl rfl rfl
  cases epollin with
  | false => exact hsame.trans (hsend hflags hs)
  | true =>
    simp only [if_true] at hs
    cases hr : TcpIo.l1recv { s with sk := ⟨s.sk.isOpen, true, epollout⟩ } [] fails with
    | error e =>
      rw [hr] at hs
      cases hs
    | ok u =>
      rw [hr] at hs
      exact hsame.trans ((consumes_l1recv hflags hr).trans (hsend (inv_l1recv hflags hr) hs))

/-- The buffers that `wait` has returned, on whichever connection. -/
def takenAll (s : TcpIo N) : List (List Byte) :=
  (s.past.map Connection.taken).flatten ++ s.conn.taken

/-- Another connection: the queue is as it was, and nothing has been taken for it. -/
theorem processLisk_cases (s : TcpIo N) (n : Nat) : s.processLisk n = s ∨
    (s.processLisk n).q = s.q ∧ takenAll (s.processLisk n) = takenAll s ∧
      (s.processLisk n).conn = .new := by
  unfold processLisk
  split
  · exact .inl rfl
  · induction n with
    | zero => exact .inl rfl
    | succ n ih =>
      rw [Function.iterate_succ_apply']
      generalize hu : accept^[n] s = u at ih ⊢
      have hsame : u.q = s.q ∧ takenAll u = takenAll s := by
        rcases ih with rfl | ⟨hq, htaken, _⟩
        · exact ⟨rfl, rfl⟩
        · exact ⟨hq, htaken⟩
      refine .inr ⟨hsame.1, ?_, rfl⟩
      rw [← hsame.2]
      simp only [takenAll, accept, Connection.new, List.map_append, List.map_cons, List.map_nil,
        List.flatten_append, List.flatten_cons, List.flatten_nil, List.append_nil]

/-- What an event does to the queue, the consumer could have done alone. -/
theorem consumes_step {ev : TcpIo.Event} (h : Inv s) (hquiet : Quiet ev)
    (hs : TcpIo.Step s ev t) : Consumes s t ∨ ∃ n, ev = .lisk n ∧ t = s.processLisk n := by
  unfold TcpIo.Step at hs
  cases ev with
  | produce op => exact hquiet.elim
  | prewait answers => exact .inl (consumes_prewait h hquiet hs)
  | onEvents epollin epollout ops fails answers =>
    obtain ⟨rfl, hquiet⟩ := hquiet
    exact .inl (consumes_onEvents h hquiet hs)
  | lisk n =>
    cases hs
    exact .inr ⟨n, rfl, rfl⟩

end CppSnippets.Epoll.TcpConsume
