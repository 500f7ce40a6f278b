import CppSnippets.Epoll.UdpEndpoint

/-!
# The feedback loop of `main.cpp`

The program as it is: both threads of the server, the client, and the datagrams between
them. Those with frames arrive in order and none is lost, as on a local link; those that
go back may be lost. A send takes its whole datagram at once. The server sends nothing
before it has heard from the client.
-/
namespace CppSnippets.Epoll

open CppSnippets.Lib VideoRoundTrip QueueHistory UdpEndpoint

structure UdpVideo where
  /-- The server's queue and the encoder's thread. -/
  encoding : Encoder.Encoding
  io : IoBasic
  /-- `has_peer` -/
  peer : Bool
  hearing : Hearing
  client : Client
  clientIo : IoBasic
  /-- The datagrams on their way to the client, and back. -/
  down : List (List Byte)
  up : List (List Byte)
  /-- The frames that the encoder's thread has handed over, which the code does not keep. -/
  frames : List Shot
  /-- What `wait` has returned to the server's sender, and to the client's. -/
  taken : List (List Byte)
  returned : List (List Byte)

namespace UdpVideo

def init (idx : UInt32) : UdpVideo :=
  ⟨Encoder.init idx, RecvPath.start 16, false, .init, .init, VideoRoundTrip.clientIo, [], [], [], [], []⟩

inductive Event where
  | encoder (ev : Encoder.Event)
  | serverTurn
  | clientTurn
  | toClient
  | toServer (now : Timeval)
  | lost
  /-- A keep-alive of the client, and one of the server. -/
  | hello (now : Timeval)
  | idle

def keepAlive : List Byte := [0xff, 0xff, 0xff, 0xff]

inductive Step : UdpVideo → Event → UdpVideo → Prop where
  | encoder {s : UdpVideo} {ev : Encoder.Event} {e : Encoder.Encoding}
      (hev : ∀ op, ev ≠ .consumer op) (hstep : Encoder.Step s.encoding ev e) :
      Step s (.encoder ev) { s with encoding := e, frames := s.frames ++ handed s.encoding.stage ev }
  | serverTurn {s : UdpVideo} {q : CycleBufferQueue 2} {io : IoBasic} {sent : List (List Byte)}
      (hpeer : s.peer = true) (hturn : turn s.encoding.bufq s.io = .ok (q, io, sent)) :
      Step s .serverTurn
        { s with
          encoding := { s.encoding with bufq := q }, io := io
          down := s.down ++ sent, taken := s.taken ++ loaded s.io q }
  | clientTurn {s : UdpVideo} {q : CycleBufferQueue 16} {io : IoBasic} {sent : List (List Byte)}
      (hturn : turn s.client.bufq s.clientIo = .ok (q, io, sent)) :
      Step s .clientTurn
        { s with
          client := { s.client with bufq := q }, clientIo := io
          up := s.up ++ sent, returned := s.returned ++ loaded s.clientIo q }
  | toClient {s : UdpVideo} {d : List Byte} {ds : List (List Byte)} {c : Client} {io : IoBasic}
      (hdown : s.down = d :: ds) (hstep : s.client.step s.clientIo (.datagram d) = .ok (c, io)) :
      Step s .toClient { s with client := c, clientIo := io, down := ds }
  | toServer {s : UdpVideo} {now : Timeval} {d : List Byte} {ds : List (List Byte)} {h : Hearing}
      {io : IoBasic} {calls : List RecvPath.Call} (hup : s.up = d :: ds)
      (hrecv : RecvPath.l2recvOne (hears now) s.hearing s.io d = .ok (h, io, calls)) :
      Step s (.toServer now) { s with hearing := h, io := io, up := ds, peer := true }
  | lost {s : UdpVideo} {d : List Byte} {l₁ l₂ : List (List Byte)} (hup : s.up = l₁ ++ d :: l₂) :
      Step s .lost { s with up := l₁ ++ l₂ }
  | hello {s : UdpVideo} {now : Timeval} {h : Hearing} {io : IoBasic} {calls : List RecvPath.Call}
      (hrecv : RecvPath.l2recvOne (hears now) s.hearing s.io keepAlive = .ok (h, io, calls)) :
      Step s (.hello now) { s with hearing := h, io := io, peer := true }
  | idle {s : UdpVideo} {c : Client} {io : IoBasic}
      (hstep : s.client.step s.clientIo (.datagram keepAlive) = .ok (c, io)) :
      Step s .idle { s with client := c, clientIo := io }

/-! ## The invariant -/

/-- The datagrams of the buffer in hand that have not left yet. -/
def unsent (io : IoBasic) : List (List Byte) :=
  match io.txbuf with
  | none => []
  | some data => fragmentsFrom data (io.txpos / fragSize)

/-- The stamp in a message. -/
def stampIn (m : List Byte) : Rptime := stampOf ((m.drop 8).take 4)

/-- What has come back, is on its way or is being sent, is some of what the client's
`wait` has returned, in order. -/
structure Back (returned : List (List Byte)) (io : IoBasic) (up : List (List Byte))
    (calls : List (Rptime × Timeval)) (heard : List (List Byte)) (flying : List (List Byte × UInt16)) :
    Prop where
  sub : (heard ++ flying.map Prod.fst ++ io.txbuf.toList).Sublist returned
  up : up = flying.map fun p => IoBasic.fragment p.1 p.2 0
  calls : calls.map Prod.fst = heard.map stampIn

structure Inv (idx : UInt32) (s : UdpVideo) : Prop where
  feeds : Feeds idx s.encoding s.frames
  served : Served (packedAll idx s.frames) s.encoding.bufq s.taken
  sends : Sends s.encoding.bufq s.io
  listening : Listening s.io
  stream : ∀ kept, s.taken = kept.map (packedAt idx) → (∀ p ∈ kept, Sound p) →
    ∃ n i, Receives idx kept n i s.client s.clientIo (s.down ++ unsent s.io)
  ready : Ready s.client.bufq
  answers : Served s.client.queued s.client.bufq s.returned
  clientSends : Sends s.client.bufq s.clientIo
  back : ∃ heard flying, Back s.returned s.clientIo s.up s.hearing.calls heard flying
  main : s.hearing.main = ServerMain.rttReset.run s.hearing.calls

variable {idx : UInt32} {s t : UdpVideo}

theorem inv_init (idx : UInt32) : Inv idx (init idx) := by
  constructor
  · exact feeds_init idx
  · exact served_init _ _
  · exact ⟨rfl, fun _ => rfl, fun _ h => (by cases h)⟩
  · exact ⟨rfl, rfl, rfl⟩
  · intro kept heq _
    obtain rfl : kept = [] := List.map_eq_nil_iff.mp heq.symm
    exact ⟨0, 0, Nat.le_refl 0, rfl, rfl, ⟨rfl, rfl, rfl⟩, rfl, fun _ h => (by cases h), fun _ => rfl⟩
  · exact ready_init
  · exact served_init _ _
  · exact ⟨rfl, fun _ => rfl, fun _ h => (by cases h)⟩
  · exact ⟨[], [], List.nil_sublist _, rfl, rfl⟩
  · rfl

/-! ## The server's side -/

/-- The frames whose buffers the server has taken. -/
theorem Inv.kept (h : Inv idx s) : ∃ kept : List (Shot × Nat), kept.Sublist s.frames.zipIdx ∧
    s.taken = kept.map (packedAt idx) ∧ ∀ p ∈ kept, Sound p := by
  obtain ⟨kept, hkept, htaken⟩ := served_kept h.served
  exact ⟨kept, hkept, htaken, fun p hp => h.feeds.good p.1 (List.fst_mem_of_mem_zipIdx (hkept.subset hp))⟩

theorem inv_encoder {ev : Encoder.Event} {e : Encoder.Encoding} (h : Inv idx s)
    (hev : ∀ op, ev ≠ .consumer op) (hstep : Encoder.Step s.encoding ev e) :
    Inv idx { s with encoding := e, frames := s.frames ++ handed s.encoding.stage ev } := by
  obtain ⟨hfeeds, hserved⟩ := feeds_step hev h.feeds h.served hstep
  have hsends := h.sends.undisturbed (encoder_undisturbed hev h.feeds.inv hstep)
  exact ⟨hfeeds, hserved, hsends, h.listening, h.stream, h.ready, h.answers, h.clientSends, h.back, h.main⟩

theorem unsent_none {io : IoBasic} (h : io.txbuf = none) : unsent io = [] := by
  rw [unsent, h]

theorem unsent_some {io : IoBasic} {data : List Byte} {i : Nat} (htx : io.txbuf = some data)
    (hpos : io.txpos = i * fragSize) : unsent io = fragmentsFrom data i := by
  rw [unsent, htx]
  dsimp only
  rw [hpos, Nat.mul_div_cancel _ (by decide)]

/-- A turn of the server, as the stream to the client sees it. -/
theorem stream_turn {io : IoBasic} {sent more : List (List Byte)} (h : Inv idx s)
    (hturned : Turned s.io io sent more) (kept : List (Shot × Nat))
    (htaken : s.taken ++ more = kept.map (packedAt idx)) (hgood : ∀ p ∈ kept, Sound p) :
    ∃ n i, Receives idx kept n i s.client s.clientIo (s.down ++ sent ++ unsent io) := by
  have hzero := h.listening.expected
  cases hturned with
  | waits htx htx' =>
    rw [List.append_nil] at htaken
    obtain ⟨n, i, hr⟩ := h.stream kept htaken hgood
    rw [unsent_none htx] at hr
    rw [unsent_none htx', List.append_nil]
    exact ⟨n, i, hr⟩
  | @loads data htx htx' hpos hin =>
    obtain ⟨k₁, k₂, rfl, h₁, h₂⟩ := List.append_eq_map_iff.mp htaken
    obtain ⟨p, ps, rfl, rfl, hnil⟩ := List.map_eq_cons_iff.mp h₂
    obtain rfl : ps = [] := List.map_eq_nil_iff.mp hnil
    obtain ⟨n, i, hr⟩ := h.stream k₁ h₁.symm fun p hp => hgood p (List.mem_append_left _ hp)
    have hmore := hr.more (hgood p (List.mem_append_right _ List.mem_cons_self))
    rw [unsent_none htx, List.append_nil] at hmore
    rw [unsent_some htx' (hpos.trans (Nat.zero_mul _).symm), List.append_nil]
    exact ⟨n, i, hmore⟩
  | @sends data k htx hpos hin htx' hpos' =>
    rw [List.append_nil] at htaken
    obtain ⟨n, i, hr⟩ := h.stream kept htaken hgood
    rw [unsent_some htx hpos, fragmentsFrom_cons (Nat.lt_of_succ_lt hin)] at hr
    rw [unsent_some htx' hpos', hzero, List.append_assoc]
    exact ⟨n, i, hr⟩
  | @ends data k htx hpos hlast htx' =>
    rw [List.append_nil] at htaken
    obtain ⟨n, i, hr⟩ := h.stream kept htaken hgood
    have hnone : fragmentsFrom data (k + 1) = [] := fragmentsFrom_end (Nat.le_of_eq hlast.symm)
    rw [unsent_some htx hpos, fragmentsFrom_cons (by omega), hnone] at hr
    rw [unsent_none htx', hzero, List.append_nil]
    exact ⟨n, i, hr⟩

theorem inv_serverTurn {q : CycleBufferQueue 2} {io : IoBasic} {sent : List (List Byte)} (h : Inv idx s)
    (hturn : turn s.encoding.bufq s.io = .ok (q, io, sent)) :
    Inv idx { s with
      encoding := { s.encoding with bufq := q }, io := io
      down := s.down ++ sent, taken := s.taken ++ loaded s.io q } := by
  obtain ⟨q', io', sent', hturn', hturned, hserved, hsends, hxh1, hxbuf, hq⟩ := turn_spec h.served h.sends
  cases hturn.symm.trans hturn'
  have hfeeds : Feeds idx { s.encoding with bufq := q } s.frames := by
    rcases hq with rfl | hwait | hdone
    · exact h.feeds
    · exact feeds_consumer .wait rfl h.feeds hwait
    · exact feeds_consumer .doneUsing rfl h.feeds hdone
  exact ⟨hfeeds, hserved, hsends, h.listening.of_eq hxh1 hxbuf, stream_turn h hturned, h.ready, h.answers,
    h.clientSends, h.back, h.main⟩

/-! ## The client's side -/

theorem inv_toClient {d : List Byte} {ds : List (List Byte)} {c : Client} {io : IoBasic} (h : Inv idx s)
    (hdown : s.down = d :: ds) (hstep : s.client.step s.clientIo (.datagram d) = .ok (c, io)) :
    Inv idx { s with client := c, clientIo := io, down := ds } := by
  have hans : Answers s.client.bufq s.returned s.client :=
    ⟨h.answers, h.answers.shape, rfl, fun _ _ => rfl⟩
  have hnext : ∀ kept, s.taken = kept.map (packedAt idx) → (∀ p ∈ kept, Sound p) →
      ∃ n i, Receives idx kept n i c io (ds ++ unsent s.io) ∧ Ready c.bufq ∧ SameSender s.clientIo io ∧
        Answers s.client.bufq s.returned c := by
    intro kept htaken hgood
    obtain ⟨n, i, hr⟩ := h.stream kept htaken hgood
    rw [hdown, List.cons_append] at hr
    obtain ⟨n', i', c', io', hstep', hr', hready, hsame, hans'⟩ := hr.next hgood h.ready hans
    cases hstep.symm.trans hstep'
    exact ⟨n', i', hr', hready, hsame, hans'⟩
  obtain ⟨kept, _, htaken, hgood⟩ := h.kept
  obtain ⟨_, _, _, hready, hsame, hans'⟩ := hnext kept htaken hgood
  obtain ⟨heard, flying, hback⟩ := h.back
  refine ⟨h.feeds, h.served, h.sends, h.listening, fun kept htaken hgood => ?_, hready, hans'.served,
    (h.clientSends.undisturbed hans'.undisturbed).received hsame, ⟨heard, flying, ?_, hback.up, hback.calls⟩,
    h.main⟩
  · obtain ⟨n, i, hr, _⟩ := hnext kept htaken hgood
    exact ⟨n, i, hr⟩
  · dsimp only
    rw [hsame.txbuf]
    exact hback.sub

/-- Everything that the client sends is a `PadInfo`. -/
theorem Inv.pad_of_returned (h : Inv idx s) {m : List Byte} (hm : m ∈ s.returned) :
    ∃ (i : UInt32) (tv : TimeVal), m = padInfo i tv := by
  obtain ⟨kept, _, htaken, hgood⟩ := h.kept
  obtain ⟨n, i, hr⟩ := h.stream kept htaken hgood
  obtain ⟨numbered, hsub, hreturned⟩ := served_sublist h.answers
  rw [hreturned] at hm
  obtain ⟨x, hx, rfl⟩ := List.mem_map.mp hm
  have hqueued := List.fst_mem_of_mem_zipIdx (hsub.subset hx)
  rw [hr.queued] at hqueued
  obtain ⟨p, _, hp⟩ := List.mem_map.mp hqueued
  exact ⟨_, _, hp.symm⟩

theorem count_pad (i : UInt32) (tv : TimeVal) : IoBasic.count (padInfo i tv) = 1 := by
  rw [IoBasic.count, padInfo_length]
  decide

/-- A turn of the client puts at most one whole `PadInfo` on the way back. -/
theorem back_turn {io : IoBasic} {sent more : List (List Byte)} {heard : List (List Byte)}
    {flying : List (List Byte × UInt16)} (h : Inv idx s) (hturned : Turned s.clientIo io sent more)
    (hback : Back s.returned s.clientIo s.up s.hearing.calls heard flying) :
    ∃ flying', Back (s.returned ++ more) io (s.up ++ sent) s.hearing.calls heard flying' := by
  have hsub := hback.sub
  have hone : ∀ data, s.clientIo.txbuf = some data → IoBasic.count data = 1 := by
    intro data htx
    rw [htx, Option.toList_some] at hsub
    obtain ⟨i, tv, rfl⟩ := h.pad_of_returned (hsub.subset (List.mem_append_right _ List.mem_cons_self))
    exact count_pad i tv
  cases hturned with
  | waits htx htx' =>
    refine ⟨flying, ?_, ?_, hback.calls⟩
    · rw [htx', List.append_nil, ← htx]
      exact hsub
    · rw [List.append_nil]
      exact hback.up
  | @loads data htx htx' hpos hin =>
    refine ⟨flying, ?_, ?_, hback.calls⟩
    · rw [htx, Option.toList_none, List.append_nil] at hsub
      rw [htx', Option.toList_some]
      exact hsub.append (List.Sublist.refl _)
    · rw [List.append_nil]
      exact hback.up
  | @sends data k htx hpos hin htx' hpos' =>
    have hcount := hone data htx
    omega
  | @ends data k htx hpos hlast htx' =>
    have hcount := hone data htx
    obtain rfl : k = 0 := by omega
    refine ⟨flying ++ [(data, s.clientIo.xh1)], ?_, ?_, hback.calls⟩
    · rw [htx, Option.toList_some] at hsub
      rw [htx', Option.toList_none, List.append_nil, List.append_nil, List.map_append, ← List.append_assoc]
      exact hsub
    · rw [hback.up, List.map_append]
      rfl

theorem inv_clientTurn {q : CycleBufferQueue 16} {io : IoBasic} {sent : List (List Byte)} (h : Inv idx s)
    (hturn : turn s.client.bufq s.clientIo = .ok (q, io, sent)) :
    Inv idx { s with
      client := { s.client with bufq := q }, clientIo := io
      up := s.up ++ sent, returned := s.returned ++ loaded s.clientIo q } := by
  obtain ⟨q', io', sent', hturn', hturned, hserved, hsends, hxh1, hxbuf, hq⟩ :=
    turn_spec h.answers h.clientSends
  cases hturn.symm.trans hturn'
  obtain ⟨heard, flying, hback⟩ := h.back
  refine ⟨h.feeds, h.served, h.sends, h.listening, fun kept htaken hgood => ?_,
    ready_turn h.answers.shape h.ready hq, hserved, hsends, ⟨heard, back_turn h hturned hback⟩, h.main⟩
  obtain ⟨n, i, hr⟩ := h.stream kept htaken hgood
  exact ⟨n, i, hr.sender rfl rfl hxh1 hxbuf⟩

/-! ## The way back -/

/-- The server hears the oldest `PadInfo` that is on its way. -/
theorem hear_next (now : Timeval) {d : List Byte} {ds : List (List Byte)} {heard : List (List Byte)}
    {flying : List (List Byte × UInt16)} (h : Inv idx s) (hup : s.up = d :: ds)
    (hback : Back s.returned s.clientIo s.up s.hearing.calls heard flying) :
    ∃ m rest io calls,
      RecvPath.l2recvOne (hears now) s.hearing s.io d = .ok (s.hearing.rtt now (stampIn m), io, calls) ∧
        SameSender s.io io ∧ Listening io ∧
        Back s.returned s.clientIo ds (s.hearing.rtt now (stampIn m)).calls (heard ++ [m]) rest := by
  obtain ⟨⟨m, echo⟩, rest, rfl, rfl, hrest⟩ := List.map_eq_cons_iff.mp (hback.up.symm.trans hup)
  have hsub := hback.sub
  have hmem : m ∈ heard ++ (((m, echo) :: rest).map Prod.fst) ++ s.clientIo.txbuf.toList :=
    List.mem_append_left _ (List.mem_append_right _ List.mem_cons_self)
  obtain ⟨i, tv, rfl⟩ := h.pad_of_returned (hsub.subset hmem)
  obtain ⟨io, calls, hrecv, hsame, hlistening⟩ := recv_pad now echo h.listening
  have hstamp : stampIn (padInfo i tv) = stamp tv := stampOf_pad i tv
  refine ⟨padInfo i tv, rest, io, calls, ?_, hsame, hlistening, ?_, hrest.symm, ?_⟩
  · rw [hstamp]
    exact hrecv
  · rw [List.map_cons] at hsub
    rw [List.append_assoc heard]
    exact hsub
  · rw [Hearing.rtt, List.map_append, List.map_append, hback.calls]
    rfl

theorem main_rtt {h : Hearing} {now : Timeval} {ts : Rptime}
    (hmain : h.main = ServerMain.rttReset.run h.calls) :
    (h.rtt now ts).main = ServerMain.rttReset.run (h.rtt now ts).calls := by
  rw [Hearing.rtt, hmain, ServerMain.run, ServerMain.run, List.foldlM_append]
  cases List.foldlM (fun s (f : Rptime × Timeval) => ServerMain.rtt s f.1 f.2) ServerMain.rttReset
    h.calls with
  | none => rfl
  | some m => simp

theorem inv_toServer {now : Timeval} {d : List Byte} {ds : List (List Byte)} {hearing : Hearing}
    {io : IoBasic} {calls : List RecvPath.Call} (h : Inv idx s) (hup : s.up = d :: ds)
    (hrecv : RecvPath.l2recvOne (hears now) s.hearing s.io d = .ok (hearing, io, calls)) :
    Inv idx { s with hearing := hearing, io := io, up := ds, peer := true } := by
  obtain ⟨heard, flying, hback⟩ := h.back
  obtain ⟨m, rest, io', calls', hrecv', hsame, hlistening, hback'⟩ := hear_next now h hup hback
  cases hrecv.symm.trans hrecv'
  have hunsent : unsent io = unsent s.io := by rw [unsent, unsent, hsame.txbuf, hsame.txpos]
  refine ⟨h.feeds, h.served, h.sends.received hsame, hlistening, ?_, h.ready, h.answers, h.clientSends,
    ⟨heard ++ [m], rest, hback'⟩, main_rtt h.main⟩
  dsimp only
  rw [hunsent]
  exact h.stream

theorem inv_lost {d : List Byte} {l₁ l₂ : List (List Byte)} (h : Inv idx s) (hup : s.up = l₁ ++ d :: l₂) :
    Inv idx { s with up := l₁ ++ l₂ } := by
  obtain ⟨heard, flying, hback⟩ := h.back
  obtain ⟨k₁, k, rfl, rfl, hk⟩ := List.append_eq_map_iff.mp (hup.symm.trans hback.up)
  obtain ⟨p, k₂, rfl, rfl, rfl⟩ := List.map_eq_cons_iff.mp hk
  refine ⟨h.feeds, h.served, h.sends, h.listening, h.stream, h.ready, h.answers, h.clientSends,
    ⟨heard, k₁ ++ k₂, ?_, ?_, hback.calls⟩, h.main⟩
  · refine List.Sublist.trans (List.Sublist.append (List.Sublist.append (List.Sublist.refl _) ?_)
      (List.Sublist.refl _)) hback.sub
    exact (List.Sublist.append (List.Sublist.refl k₁) (List.sublist_cons_self p k₂)).map Prod.fst
  · rw [List.map_append]

theorem recv_keepAlive_client (c : Client) (io : IoBasic) :
    c.step io (.datagram keepAlive) = .ok (c, io) := by
  rw [Client.step, keepAlive, IoBasic.recv_keepAlive]
  rfl

theorem inv_step {ev : Event} (h : Inv idx s) (hstep : Step s ev t) : Inv idx t := by
  cases hstep with
  | encoder hev hstep => exact inv_encoder h hev hstep
  | serverTurn _ hturn => exact inv_serverTurn h hturn
  | clientTurn hturn => exact inv_clientTurn h hturn
  | toClient hdown hstep => exact inv_toClient h hdown hstep
  | toServer hup hrecv => exact inv_toServer h hup hrecv
  | lost hup => exact inv_lost h hup
  | hello hrecv =>
    cases hrecv.symm.trans recv_keepAlive_server
    exact ⟨h.feeds, h.served, h.sends, h.listening, h.stream, h.ready, h.answers, h.clientSends, h.back,
      h.main⟩
  | idle hstep =>
    cases hstep.symm.trans (recv_keepAlive_client _ _)
    exact h

/-! ## The main result -/

/-- No thread of either side stops, whatever it does next, but for the encoder's with a
frame that has no start code or leaves no room for its `PadInfo`. -/
structure Goes (s : UdpVideo) : Prop where
  alloc : s.encoding.stage = .allocating → ∃ q, s.encoding.bufq.alloc bitstreamLen = .ok q
  commit : s.encoding.stage = .polling → ∀ frame : List Byte, frame.length ≤ bitstreamLen →
    ∃ e, Encoder.Step s.encoding (.commit frame) e
  done : ∀ frame tv, s.encoding.stage = .committed frame →
    ((∃ r, s.encoding.done tv = .ok r) ↔ ntohl frame = some 1 ∧ frame.length + 12 ≤ bitstreamLen)
  server : ∃ r, turn s.encoding.bufq s.io = .ok r
  client : ∃ r, turn s.client.bufq s.clientIo = .ok r
  down : ∀ d ds, s.down = d :: ds → ∃ r, s.client.step s.clientIo (.datagram d) = .ok r
  up : ∀ d ds now, s.up = d :: ds → ∃ r, RecvPath.l2recvOne (hears now) s.hearing s.io d = .ok r
  hello : ∀ now, ∃ r, RecvPath.l2recvOne (hears now) s.hearing s.io keepAlive = .ok r
  idle : ∃ r, s.client.step s.clientIo (.datagram keepAlive) = .ok r

theorem Inv.goes (h : Inv idx s) : Goes s := by
  constructor
  · intro hstage
    have hbuffer := h.feeds.inv.buffer
    rw [hstage] at hbuffer
    obtain ⟨_, _, q, halloc, _⟩ :=
      alloc_fill (p := []) (Nat.le_refl 2) hbuffer h.feeds.inv.capacity (Nat.le_refl _) (Nat.zero_le _)
    exact ⟨q, halloc⟩
  · intro hstage frame hfits
    obtain ⟨e, hstep, _⟩ := Encoder.commit_accepted h.feeds.inv hstage hfits
    exact ⟨e, hstep⟩
  · exact fun frame tv hstage => Encoder.done_ok_iff h.feeds.inv hstage tv
  · obtain ⟨q, io, sent, hturn, _⟩ := turn_spec h.served h.sends
    exact ⟨_, hturn⟩
  · obtain ⟨q, io, sent, hturn, _⟩ := turn_spec h.answers h.clientSends
    exact ⟨_, hturn⟩
  · intro d ds hdown
    obtain ⟨kept, _, htaken, hgood⟩ := h.kept
    obtain ⟨n, i, hr⟩ := h.stream kept htaken hgood
    rw [hdown, List.cons_append] at hr
    have hans : Answers s.client.bufq s.returned s.client :=
      ⟨h.answers, h.answers.shape, rfl, fun _ _ => rfl⟩
    obtain ⟨_, _, c, io, hstep, _⟩ := hr.next hgood h.ready hans
    exact ⟨_, hstep⟩
  · intro d ds now hup
    obtain ⟨heard, flying, hback⟩ := h.back
    obtain ⟨m, rest, io, calls, hrecv, _⟩ := hear_next now h hup hback
    exact ⟨_, hrecv⟩
  · exact fun now => ⟨_, recv_keepAlive_server⟩
  · exact ⟨_, recv_keepAlive_client _ _⟩

/-- The client has everything once nothing is on its way and nothing is being sent. -/
theorem received_all {kept : List (Shot × Nat)} {n i : Nat} {c : Client} {io : IoBasic}
    (h : Receives idx kept n i c io []) : n = kept.length := by
  by_contra hne
  have hbound := h.bound
  have hat : kept[n]? = some kept[n] := List.getElem?_eq_getElem (by omega)
  have hcoming := h.coming
  rw [List.drop_eq_getElem_cons (by omega), ahead, fragmentsFrom_cons (h.inside _ hat)] at hcoming
  cases hcoming

/-- In every run: the client's file is the first of the frames that the server has taken,
whole and in order, and all of them when nothing is left to arrive; `RTT` has been called
with the stamps of some of these frames, in order and none twice; its window is over the
last sixteen of its samples, no sum having overflowed; and no thread stops but the
encoder's, with a frame that it cannot pack. -/
theorem feedback_loop {evs : List Event} (hrun : Run Step (init idx) evs s) :
    ∃ (kept heard : List (Shot × Nat)) (n : Nat) (m : ServerMain),
      kept.Sublist s.frames.zipIdx ∧ s.taken = kept.map (packedAt idx) ∧ n ≤ kept.length ∧
      s.client.file = ((kept.take n).map fun p => p.1.frame).flatten ∧
      s.client.queued = (kept.take n).map (padOf idx) ∧
      (s.down = [] → s.io.txbuf = none → n = kept.length) ∧
      heard.Sublist (kept.take n) ∧ s.hearing.calls.map Prod.fst = heard.map (fun p => stamp p.1.tv) ∧
      s.hearing.main = some m ∧ Window (s.hearing.calls.filterMap sample) m ∧ Goes s := by
  have h : Inv idx s := hrun.invariant (P := Inv idx) (fun _ _ _ hi hs => inv_step hi hs) (inv_init idx)
  obtain ⟨kept, hkept, htaken, hgood⟩ := h.kept
  obtain ⟨n, i, hr⟩ := h.stream kept htaken hgood
  obtain ⟨messages, flying, hback⟩ := h.back
  obtain ⟨heard, hheard, hmessages⟩ : ∃ heard : List (Shot × Nat), heard.Sublist (kept.take n) ∧
      messages = heard.map (padOf idx) := by
    have hreturned : s.returned.Sublist s.client.queued := by
      obtain ⟨numbered, hsub, hreturned⟩ := served_sublist h.answers
      have hmap := hsub.map Prod.fst
      rw [List.zipIdx_map_fst] at hmap
      rw [hreturned]
      exact hmap
    have hmessages : messages.Sublist s.client.queued := by
      refine List.Sublist.trans ?_ (hback.sub.trans hreturned)
      rw [List.append_assoc]
      exact List.sublist_append_left _ _
    rw [hr.queued] at hmessages
    obtain ⟨heard, hsub, heq⟩ := List.sublist_map_iff.mp hmessages
    exact ⟨heard, hsub, heq⟩
  obtain ⟨m, hmain, hwindow⟩ :=
    ServerMain.run_window ServerMain.rttReset_window (fun _ hx => by cases hx) s.hearing.calls
  refine ⟨kept, heard, n, m, hkept, htaken, hr.bound, hr.file, hr.queued, fun hdown htx => ?_, hheard, ?_,
    h.main.trans hmain, hwindow, h.goes⟩
  · rw [hdown, unsent_none htx] at hr
    exact received_all hr
  · rw [hback.calls, hmessages, List.map_map]
    exact List.map_congr_left fun p _ => stampOf_pad (idx + .ofNat p.2) p.1.tv

/-- One frame and its `PadInfo`, there and back. -/
def oneFrame : List Event :=
  [.hello ⟨3, 0⟩, .encoder .alloc, .encoder (.commit [0, 0, 0, 1, 9, 8, 7]), .encoder (.done ⟨3, 4000⟩),
    .serverTurn, .serverTurn, .toClient, .clientTurn, .clientTurn, .toServer ⟨3, 20000⟩]

theorem run_oneFrame : ∃ s, Run Step (init 7) oneFrame s ∧ s.down = [] ∧ s.io.txbuf = none ∧
    s.taken.length = 1 ∧ s.hearing.calls.length = 1 ∧
    s.frames = [⟨[0, 0, 0, 1, 9, 8, 7], ⟨3, 4000⟩, fun _ => 0⟩] := by
  have h0 : Run Step (init 7) [] (init 7) := .nil
  have h1 := h0.snoc (show Step _ (.hello ⟨3, 0⟩) _ from .hello recv_keepAlive_server)
  have h2 := h1.snoc (show Step _ (.encoder .alloc) _ from .encoder (fun _ h => by cases h) (.alloc rfl rfl))
  have h3 := h2.snoc (show Step _ (.encoder (.commit [0, 0, 0, 1, 9, 8, 7])) _ from
    .encoder (fun _ h => by cases h) (.commit rfl (by decide) rfl rfl))
  have h4 := h3.snoc (show Step _ (.encoder (.done ⟨3, 4000⟩)) _ from
    .encoder (fun _ h => by cases h) (.done rfl rfl))
  have h5 := h4.snoc (show Step _ .serverTurn _ from .serverTurn rfl rfl)
  have h6 := h5.snoc (show Step _ .serverTurn _ from .serverTurn rfl rfl)
  have h7 := h6.snoc (show Step _ .toClient _ from .toClient rfl rfl)
  have h8 := h7.snoc (show Step _ .clientTurn _ from .clientTurn rfl)
  have h9 := h8.snoc (show Step _ .clientTurn _ from .clientTurn rfl)
  have h10 := h9.snoc (show Step _ (.toServer ⟨3, 20000⟩) _ from .toServer rfl rfl)
  exact ⟨_, h10, rfl, rfl, rfl, rfl, rfl⟩

theorem feedback_loop_one : ∃ s, Run Step (init 7) oneFrame s ∧ s.client.file = [0, 0, 0, 1, 9, 8, 7] ∧
    s.hearing.calls.map Prod.fst = [⟨3, 4⟩] ∧ Goes s := by
  obtain ⟨s, hrun, hdown, htx, hone, hcalls, hframes⟩ := run_oneFrame
  obtain ⟨kept, heard, n, m, hkept, htaken, _, hfile, _, hall, hheard, hstamps, _, _, hgoes⟩ :=
    feedback_loop hrun
  have hlen : kept.length = 1 := by rw [← List.length_map (packedAt 7), ← htaken, hone]
  rw [hall hdown htx, List.take_length] at hfile hheard
  have hframe : kept = s.frames.zipIdx := by
    apply hkept.eq_of_length
    rw [hlen, hframes]
    rfl
  have hsame : heard = kept := by
    apply hheard.eq_of_length
    rw [hlen, ← List.length_map fun p : Shot × Nat => stamp p.1.tv, ← hstamps, List.length_map, hcalls]
  rw [hframe, hframes] at hfile
  rw [hsame, hframe, hframes] at hstamps
  exact ⟨s, hrun, hfile, hstamps, hgoes⟩

end UdpVideo
end CppSnippets.Epoll
