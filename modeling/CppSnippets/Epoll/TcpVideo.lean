import CppSnippets.Epoll.QueueHistory
import CppSnippets.Epoll.TcpConsume
import CppSnippets.Epoll.TcpReceive

/-!
# Frames from the encoder to the client's file over TCP

The two threads of the server, the kernel and the client take turns in any order, an
event of the network's thread being one turn: the encoder hands frames to the queue, the
network's thread takes buffers from it and puts them on the wire in parts of any size,
and the client receives what is on the wire in chunks of any size. The queue may drop
frames; nothing else does.
-/
namespace CppSnippets.Epoll

open CppSnippets.Lib VideoRoundTrip QueueHistory

structure TcpVideo where
  tcp : TcpIo 2
  /-- `idx_g_` -/
  idx : UInt32
  stage : Encoder.Stage
  /-- The frames that the encoder's thread has handed over, which the code does not keep. -/
  frames : List Shot
  client : TcpClient

namespace TcpVideo

def init (idx : UInt32) : TcpVideo :=
  ⟨.init Nat.two_pos (fun _ => bitstreamLen) false, idx, .allocating, [], .init⟩

def encoding (s : TcpVideo) : Encoder.Encoding := ⟨s.tcp.q, s.idx, s.stage⟩

inductive Event where
  | encoder (ev : Encoder.Event)
  | network (ev : TcpIo.Event)
  | client (ev : TcpEvent)

/-- The encoder's thread takes its turns before or after an event of the network's thread,
never while it is handled. The client is on the connection that the server sends on: none
is accepted once it has received anything, and what it receives is on the wire. -/
inductive Step : TcpVideo → Event → TcpVideo → Prop where
  | encoder {s : TcpVideo} {ev : Encoder.Event} {e : Encoder.Encoding}
      (hev : ∀ op, ev ≠ .consumer op) (hstep : Encoder.Step s.encoding ev e) :
      Step s (.encoder ev)
        { s with
          tcp := { s.tcp with q := e.bufq }, idx := e.idx, stage := e.stage
          frames := s.frames ++ handed s.stage ev }
  | network {s : TcpVideo} {ev : TcpIo.Event} {t : TcpIo 2} (hquiet : TcpConsume.Quiet ev)
      (hfirst : ∀ n, ev = .lisk n → s.client.input = []) (hstep : TcpIo.Step s.tcp ev t) :
      Step s (.network ev) { s with tcp := t }
  | client {s : TcpVideo} {ev : TcpEvent} {c : TcpClient}
      (hwire : TcpReceive.Admits s.tcp.conn.wire s.client ev) (hstep : TcpClient.Step s.client ev c) :
      Step s (.client ev) { s with client := c }

/-! ## The queue between the two threads -/

open QueueRefinement hiding Event Step
open TcpConsume (Consume Consumes Quiet)

theorem served_consume {sent : List (List Byte)} {x y : CycleBufferQueue 2 × List (List Byte)}
    {op : Op} (h : Served sent x.1 x.2) (hs : Consume x op y) : Served sent y.1 y.2 := by
  cases hs with
  | wait hw => exact served_wait h hw
  | done hd => exact served_doneUsing h hd

theorem served_run {sent : List (List Byte)} {x y : CycleBufferQueue 2 × List (List Byte)}
    {ops : List Op} (h : Served sent x.1 x.2) (hrun : Run Consume x ops y) : Served sent y.1 y.2 :=
  hrun.invariant (P := fun z => Served sent z.1 z.2) (fun _ _ _ hx hs => served_consume hx hs) h

/-! ## What the encoder's thread hands over -/

/-- What the encoder's thread keeps true of its own side. -/
structure Feeding (idx : UInt32) (s : TcpVideo) : Prop where
  feeds : Feeds idx s.encoding s.frames
  long : ∀ x ∈ s.frames, 8 ≤ x.frame.length
  longStage : ∀ frame, s.stage = .committed frame → 8 ≤ frame.length

theorem feeding_init (idx : UInt32) : Feeding idx (init idx) :=
  ⟨feeds_init idx, fun _ hx => (by cases hx), fun _ hstage => (by cases hstage)⟩

/-- A frame that is too short for a header and four bytes is not among the commits. -/
def Long : Event → Prop
  | .encoder (.commit frame) => 8 ≤ frame.length
  | _ => True

variable {idx : UInt32} {s : TcpVideo}

/-- A step of the encoder's thread, on its own side and on the queue. -/
theorem encoder_step {ev : Encoder.Event} {e : Encoder.Encoding} {l : List (List Byte)}
    (hlong : Long (.encoder ev)) (hev : ∀ op, ev ≠ .consumer op) (hf : Feeding idx s)
    (hserved : Served (packedAll idx s.frames) s.tcp.q l) (hstep : Encoder.Step s.encoding ev e) :
    Feeding idx { s with
      tcp := { s.tcp with q := e.bufq }, idx := e.idx, stage := e.stage
      frames := s.frames ++ handed s.stage ev } ∧
    Served (packedAll idx (s.frames ++ handed s.stage ev)) e.bufq l := by
  obtain ⟨hfeeds, hserved'⟩ := feeds_step hev hf.feeds hserved hstep
  refine ⟨⟨hfeeds, fun x hx => ?_, fun frame hstage => ?_⟩, hserved'⟩
  · rcases List.mem_append.mp hx with hx | hx
    · exact hf.long x hx
    · exact hf.longStage x.frame (stage_of_handed hx)
  · cases hstep with
    | alloc _ _ => cases hstage
    | commit _ _ _ _ =>
      cases hstage
      exact hlong
    | done _ _ => cases hstage
    | consumer _ _ => exact absurd rfl (hev _)

/-! ## The two messages in a buffer -/

/-- The frame under its length, and the `PadInfo`. -/
def messages (idx : UInt32) (p : Shot × Nat) : List (List Byte) :=
  [be32 (.ofNat p.1.frame.length) ++ p.1.frame.drop 4, padInfo (idx + .ofNat p.2) p.1.tv]

theorem flatten_messages (idx : UInt32) (kept : List (Shot × Nat)) :
    (kept.flatMap (messages idx)).flatten = (kept.map (packedAt idx)).flatten := by
  induction kept with
  | nil => rfl
  | cons p kept ih =>
    rw [List.flatMap_cons, List.flatten_append, ih, List.map_cons, List.flatten_cons]
    simp only [messages, packedAt, packed, List.flatten_cons, List.flatten_nil, List.append_nil]

theorem isFrame_pad (idx : UInt32) (tv : TimeVal) : TcpReceive.IsFrame (padInfo idx tv) := by
  constructor
  · rw [padInfo_length]
    decide
  · rw [padInfo_length]
    decide
  · refine ⟨_, ntohl_padInfo idx tv, ?_⟩
    rw [padInfo_length]
    decide
  · intro _
    rw [padInfo_length]
    decide

section

variable {x : Shot} (hx : Encoded x)
include hx

theorem body_length : (be32 (.ofNat x.frame.length) ++ x.frame.drop 4).length = x.frame.length := by
  have hge := hx.length_ge
  rw [List.length_append, be32_length, List.length_drop]
  omega

theorem word_body : ∃ uh, ntohl (be32 (.ofNat x.frame.length) ++ x.frame.drop 4) = some uh ∧
    (uh &&& 0x00ffffff).toNat = x.frame.length ∧ uh &&& 0x80000000 = 0 := by
  have hword := word_packed 0 hx
  rw [packed, TcpReceive.ntohl_append _ (by rw [body_length hx]; exact hx.length_ge)] at hword
  exact hword

theorem flagged_body : TcpReceive.flagged (be32 (.ofNat x.frame.length) ++ x.frame.drop 4) = false := by
  obtain ⟨uh, hword, _, hflag⟩ := word_body hx
  rw [TcpReceive.flagged, hword]
  exact decide_eq_false (not_not.mpr hflag)

theorem isFrame_body (hlong : 8 ≤ x.frame.length) :
    TcpReceive.IsFrame (be32 (.ofNat x.frame.length) ++ x.frame.drop 4) := by
  have hroom := hx.room
  have hlen := body_length hx
  obtain ⟨uh, hword, hlow, _⟩ := word_body hx
  constructor
  · omega
  · omega
  · exact ⟨uh, hword, hlow.trans hlen.symm⟩
  · intro hflag
    rw [flagged_body hx] at hflag
    cases hflag

end

/-! ## The client behind the wire -/

open TcpReceive (whole fileOf queueOf)

/-- More frames behind a stream that has not reached them make no difference. -/
theorem whole_append {ps qs : List (List Byte)} (hqs : ∀ q ∈ qs, 0 < q.length) :
    ∀ n, n ≤ ps.flatten.length → whole (ps ++ qs) n = whole ps n := by
  induction ps with
  | nil =>
    intro n hn
    have hzero : n = 0 := Nat.le_zero.mp hn
    rw [List.nil_append]
    cases qs with
    | nil => rfl
    | cons q qs =>
      have hpos := hqs q List.mem_cons_self
      have hnone : whole (q :: qs) n = [] := by rw [whole, if_neg (by omega)]
      exact hnone
  | cons p ps ih =>
    intro n hn
    rw [List.flatten_cons, List.length_append] at hn
    rw [List.cons_append, whole, whole]
    split
    · rw [ih (n - p.length) (by omega)]
    · rfl

/-- The client has what it has received of these messages. -/
abbrev Holds (ps : List (List Byte)) (c : TcpClient) : Prop :=
  TcpReceive.Inv ps c.input c.toTcpReceiver

theorem client_more {ps qs : List (List Byte)} {c : TcpClient} (h : Holds ps c)
    (hqs : ∀ q ∈ qs, 0 < q.length) : Holds (ps ++ qs) c := by
  have hsame : whole (ps ++ qs) c.input.length = whole ps c.input.length :=
    whole_append hqs _ h.stream.length_le
  constructor
  · rw [List.flatten_append]
    exact h.stream.trans (List.prefix_append _ _)
  · rw [hsame]
    exact h.file
  · rw [hsame]
    exact h.queued
  · rw [hsame]
    exact h.held
  · exact h.capacity
  · exact h.ready

/-- A client that has received nothing. -/
theorem client_none {ps : List (List Byte)} {c : TcpClient} (h : Holds ps c)
    (hps : ∀ p ∈ ps, 0 < p.length) (hinput : c.input = []) : Holds [] c := by
  have hnone : whole ps c.input.length = [] := by
    rw [hinput]
    have h : whole ([] ++ ps) 0 = whole [] 0 := whole_append hps 0 (Nat.zero_le _)
    exact h
  have hfile := h.file
  have hqueued := h.queued
  have hheld := h.held
  rw [hnone] at hfile hqueued hheld
  exact ⟨hinput ▸ List.nil_prefix, hfile, hqueued, hheld, h.capacity, h.ready⟩

theorem keeps_mono (answers : List Received) : ∀ {left left' : List Byte} (r : TcpReceiver Client),
    left <+: left' → TcpReceive.Keeps left r answers → TcpReceive.Keeps left' r answers := by
  induction answers with
  | nil => exact fun _ _ _ => trivial
  | cons a as ih =>
    intro left left' r h hkeeps
    obtain ⟨hin, hfits, hrest⟩ := hkeeps
    refine ⟨hin, ?_, ?_⟩
    · cases a with
      | error => exact hfits
      | again => trivial
      | bytes d => exact ⟨hfits.1, hfits.2.1, hfits.2.2.trans h⟩
    · split at hrest
      · trivial
      · exact ih _ (h.drop _) hrest

theorem admits_mono {w w' : List Byte} (h : w <+: w') {c : TcpClient} {ev : TcpEvent}
    (hadmits : TcpReceive.Admits w c ev) : TcpReceive.Admits w' c ev := by
  cases ev with
  | onEvents epollin epollout answers => exact keeps_mono answers _ (h.drop _) hadmits
  | consume op => exact hadmits

def Good (p : Shot × Nat) : Prop := Encoded p.1 ∧ 8 ≤ p.1.frame.length

theorem isFrame_messages {kept : List (Shot × Nat)} (hgood : ∀ p ∈ kept, Good p) :
    ∀ m ∈ kept.flatMap (messages idx), TcpReceive.IsFrame m := by
  intro m hm
  obtain ⟨p, hp, hm⟩ := List.mem_flatMap.mp hm
  obtain ⟨hencoded, hlong⟩ := hgood p hp
  simp only [messages, List.mem_cons, List.not_mem_nil, or_false] at hm
  rcases hm with rfl | rfl
  · exact isFrame_body hencoded hlong
  · exact isFrame_pad _ _

theorem pos_messages {kept : List (Shot × Nat)} (hgood : ∀ p ∈ kept, Good p) :
    ∀ m ∈ kept.flatMap (messages idx), 0 < m.length := by
  intro m hm
  have hlong := (isFrame_messages hgood m hm).long
  omega

/-- The client's side, of whatever frames the buffers that were taken are made. -/
def Reads (idx : UInt32) (taken : List (List Byte)) (c : TcpClient) : Prop :=
  ∀ kept : List (Shot × Nat), taken = kept.map (packedAt idx) → (∀ p ∈ kept, Good p) →
    Holds (kept.flatMap (messages idx)) c

theorem Reads.more {taken more : List (List Byte)} {c : TcpClient} (h : Reads idx taken c) :
    Reads idx (taken ++ more) c := by
  intro kept heq hgood
  obtain ⟨k₁, k₂, rfl, h₁, _⟩ := List.append_eq_map_iff.mp heq
  rw [List.flatMap_append]
  exact client_more (h k₁ h₁.symm fun p hp => hgood p (List.mem_append_left _ hp))
    (pos_messages fun p hp => hgood p (List.mem_append_right _ hp))

theorem Reads.step {taken : List (List Byte)} {wire : List Byte} {c d : TcpClient} {ev : TcpEvent}
    (h : Reads idx taken c) (hwire : wire <+: taken.flatten)
    (hadmits : TcpReceive.Admits wire c ev) (hstep : TcpClient.Step c ev d) : Reads idx taken d := by
  intro kept heq hgood
  rw [heq, ← flatten_messages] at hwire
  obtain ⟨d', hd', _, hinv⟩ :=
    TcpReceive.next_spec (h kept heq hgood) (isFrame_messages hgood) (admits_mono hwire hadmits)
  rw [TcpClient.Step, hd'] at hstep
  exact Except.ok.inj hstep ▸ hinv

/-! ## The whole system -/

theorem wire_taken {c : Connection} {isOpen : Bool} (h : TcpSend.Exact c isOpen) :
    c.wire <+: c.taken.flatten := by
  obtain ⟨full, rest, hcarried, _⟩ := h
  rw [hcarried.wire, hcarried.taken, List.flatten_append]
  refine (List.prefix_append_right_inj _).mpr ?_
  cases rest with
  | none => exact List.nil_prefix
  | some r =>
    simp only [Option.map_some, Option.getD_some, Option.toList_some, List.flatten_cons,
      List.flatten_nil, List.append_nil]
    exact List.take_prefix _ _

structure Inv (idx : UInt32) (s : TcpVideo) : Prop where
  feeding : Feeding idx s
  sends : TcpSend.Inv s.tcp
  served : Served (packedAll idx s.frames) s.tcp.q (TcpConsume.takenAll s.tcp)
  reads : Reads idx s.tcp.conn.taken s.client

theorem inv_init (idx : UInt32) : Inv idx (init idx) := by
  constructor
  · exact feeding_init idx
  · exact TcpSend.inv_init _ _ _
  · exact served_init _ _
  · intro kept heq _
    obtain rfl : kept = [] := List.map_eq_nil_iff.mp heq.symm
    exact TcpReceive.inv_init fun _ hp => nomatch hp

theorem good_kept {kept : List (Shot × Nat)} (h : Feeding idx s)
    (hkept : kept.Sublist s.frames.zipIdx) : ∀ p ∈ kept, Good p := by
  intro p hp
  have hmem := List.fst_mem_of_mem_zipIdx (hkept.subset hp)
  exact ⟨(h.feeds.good p.1 hmem).1, h.long p.1 hmem⟩

/-- The buffers taken on the present connection. -/
theorem Inv.kept (h : Inv idx s) : ∃ kept : List (Shot × Nat), kept.Sublist s.frames.zipIdx ∧
    s.tcp.conn.taken = kept.map (packedAt idx) ∧ ∀ p ∈ kept, Good p := by
  obtain ⟨kept, hkept, heq⟩ := served_kept h.served
  obtain ⟨k₁, k₂, rfl, _, h₂⟩ := List.append_eq_map_iff.mp heq
  have hlast : k₂.Sublist s.frames.zipIdx := (List.sublist_append_right k₁ k₂).trans hkept
  exact ⟨k₂, hlast, h₂.symm, good_kept h.feeding hlast⟩

/-- The consumer leaves what the encoder's thread keeps of its side. -/
theorem feeds_run {x y : CycleBufferQueue 2 × List (List Byte)} {ops : List Op} {i : UInt32}
    {stage : Encoder.Stage} {frames : List Shot} (hrun : Run Consume x ops y)
    (h : Feeds idx ⟨x.1, i, stage⟩ frames) : Feeds idx ⟨y.1, i, stage⟩ frames := by
  refine hrun.invariant (P := fun z => Feeds idx ⟨z.1, i, stage⟩ frames) (fun _ _ _ hx hs => ?_) h
  cases hs with
  | wait hw => exact feeds_consumer .wait rfl hx hw
  | done hd => exact feeds_consumer .doneUsing rfl hx hd

theorem inv_network {ev : TcpIo.Event} {t : TcpIo 2} (h : Inv idx s) (hquiet : Quiet ev)
    (hfirst : ∀ n, ev = .lisk n → s.client.input = []) (hstep : TcpIo.Step s.tcp ev t) :
    Inv idx { s with tcp := t } := by
  have hsends := TcpSend.inv_step h.sends hstep
  rcases TcpConsume.consumes_step h.sends hquiet hstep with ⟨hpast, ops, hrun⟩ | ⟨n, rfl, rfl⟩
  · obtain ⟨more, hmore, hany⟩ := TcpConsume.consume_grows hrun
    have hall : TcpConsume.takenAll t = TcpConsume.takenAll s.tcp ++ more := by
      rw [TcpConsume.takenAll, TcpConsume.takenAll, hpast, List.append_assoc]
      exact congrArg (_ ++ ·) hmore
    constructor
    · exact ⟨feeds_run hrun h.feeding.feeds, h.feeding.long, h.feeding.longStage⟩
    · exact hsends
    · change Served _ t.q (TcpConsume.takenAll t)
      rw [hall]
      exact served_run h.served (hany _)
    · change Reads idx t.conn.taken s.client
      rw [show t.conn.taken = s.tcp.conn.taken ++ more from hmore]
      exact h.reads.more
  · rcases TcpConsume.processLisk_cases s.tcp n with heq | ⟨hq, htaken, hconn⟩
    · rw [heq]
      exact h
    · constructor
      · have hfeeds := h.feeding.feeds
        rw [encoding, ← hq] at hfeeds
        exact ⟨hfeeds, h.feeding.long, h.feeding.longStage⟩
      · exact hsends
      · have hserved := h.served
        rw [← hq, ← htaken] at hserved
        exact hserved
      · intro kept heq _
        rw [hconn] at heq
        obtain rfl : kept = [] := List.map_eq_nil_iff.mp heq.symm
        obtain ⟨old, _, hold, hgood⟩ := h.kept
        exact client_none (h.reads old hold hgood) (pos_messages hgood) (hfirst n rfl)

theorem inv_step {ev : Event} {t : TcpVideo} (hlong : Long ev) (h : Inv idx s) (hstep : Step s ev t) :
    Inv idx t := by
  cases hstep with
  | encoder hev hstep =>
    obtain ⟨hfeeding, hserved⟩ := encoder_step hlong hev h.feeding h.served hstep
    have hsends := TcpSend.inv_undisturbed h.sends (encoder_undisturbed hev h.feeding.feeds.inv hstep)
    exact ⟨hfeeding, hsends, hserved, h.reads⟩
  | network hquiet hfirst hstep => exact inv_network h hquiet hfirst hstep
  | client hwire hstep =>
    refine ⟨⟨h.feeding.feeds, h.feeding.long, h.feeding.longStage⟩, h.sends, h.served, ?_⟩
    exact h.reads.step (wire_taken h.sends.exact) hwire hstep

/-! ## The main result -/

/-- One frame; the connection is accepted after it was handed over, and the client
receives it in two chunks. -/
def oneFrame : List Event :=
  [.encoder .alloc, .encoder (.commit [0, 0, 0, 1, 9, 8, 7, 6]), .encoder (.done ⟨3, 4000⟩),
    .network (.lisk 1), .network (.prewait []), .network (.onEvents false true [] false [⟨.count 20, []⟩]),
    .client (.onEvents true false [.bytes [0, 0, 0, 8, 9]]),
    .client (.onEvents true false
      [.bytes [8, 7, 6, 0x80, 0, 0, 12, 7, 0, 0, 0, 3, 0, 4, 0]])]

theorem run_oneFrame : ∃ s, Run Step (init 7) oneFrame s ∧
    s.client.input = s.tcp.conn.taken.flatten ∧ s.tcp.conn.taken.length = 1 ∧
    s.frames = [⟨[0, 0, 0, 1, 9, 8, 7, 6], ⟨3, 4000⟩, fun _ => 0⟩] := by
  have h0 : Run Step (init 7) [] (init 7) := .nil
  have h1 := h0.snoc (show Step _ (.encoder .alloc) _ from .encoder nofun (.alloc rfl rfl))
  have h2 := h1.snoc (show Step _ (.encoder (.commit [0, 0, 0, 1, 9, 8, 7, 6])) _ from
    .encoder nofun (.commit rfl (by decide) rfl rfl))
  have h3 := h2.snoc (show Step _ (.encoder (.done ⟨3, 4000⟩)) _ from .encoder nofun (.done rfl rfl))
  have h4 := h3.snoc (show Step _ (.network (.lisk 1)) _ from .network trivial (fun _ _ => rfl) rfl)
  have h5 := h4.snoc (show Step _ (.network (.prewait [])) _ from .network nofun nofun rfl)
  have h6 := h5.snoc (show Step _ (.network (.onEvents false true [] false [⟨.count 20, []⟩])) _ from
    .network ⟨rfl, by simp⟩ nofun rfl)
  have h7 := h6.snoc (show Step _ (.client (.onEvents true false [.bytes [0, 0, 0, 8, 9]])) _ from
    .client (by decide +kernel) rfl)
  have h8 := h7.snoc (show Step _ (.client (.onEvents true false
    [.bytes [8, 7, 6, 0x80, 0, 0, 12, 7, 0, 0, 0, 3, 0, 4, 0]])) _ from
    .client (by decide +kernel) rfl)
  exact ⟨_, h8, rfl, rfl, rfl⟩

end TcpVideo
end CppSnippets.Epoll
