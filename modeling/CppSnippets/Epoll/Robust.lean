import CppSnippets.Epoll.RecvSpec
import CppSnippets.Epoll.VideoRoundTrip

/-!
# What the client and the server take from a peer

The client reads messages behind their lengths, the server records of twelve bytes.
Neither refuses a length that it cannot use: the client waits for ever before a message
of length 0 and before one that is all there in fewer than eight bytes, and it exits on
a feedback message that its queue has no room for; the server exits on a first byte
without the flag, and it counts in records whatever the message announces.
-/
namespace CppSnippets.Epoll.RecvPath

open CppSnippets.Lib VideoRoundTrip

/-! ## The client -/

def client : Side Client := ⟨.mallocBuf, fun c rb => exiting (c.unpack rb)⟩

/-- The flag of a feedback message. -/
def flagged (b : List Byte) : Bool :=
  match ntohl b with
  | some uh => uh &&& 0x80000000 != 0
  | none => false

/-- A message that is all there has eight bytes of the buffer, is not empty, and is
short enough for the queue if it is feedback. -/
def ClientFits (b : List Byte) : Prop :=
  ∀ n, announced b = some n → n ≤ b.length → 8 ≤ b.length ∧ 0 < n ∧ (flagged b = true → n ≤ 16)

/-- The length of the first message, if it is all there with eight bytes. -/
def clientTaken (b : List Byte) : Nat :=
  match announced b with
  | some n => if 8 ≤ b.length ∧ n ≤ b.length then n else 0
  | none => 0

/-- What stays behind it: the start code is written over four bytes, be the message
shorter or not. -/
def clientRest (b : List Byte) : List Byte :=
  if clientTaken b = 0 then b
  else if flagged b = true then b.drop (clientTaken b)
  else (be32 1 ++ b.drop 4).drop (clientTaken b)

theorem ntohl_isSome {b : List Byte} (h : 4 ≤ b.length) : ∃ uh, ntohl b = some uh := by
  match b, h with
  | _ :: _ :: _ :: _ :: _, _ => exact ⟨_, rfl⟩

theorem feedback_fits {c c' : Client} {p : List Byte} (hc : Ready c.bufq) (h : c.feedback p = .ok c') :
    p.length ≤ 16 := by
  unfold Client.feedback at h
  cases halloc : c.bufq.alloc p.length with
  | error e =>
    rw [halloc] at h
    cases h
  | ok q =>
    obtain ⟨_, i, _, rfl⟩ := QueueRefinement.alloc_cases halloc
    by_contra hlong
    have hput : ((c.bufq.bufs i).clear).put p = .error .put := by
      unfold BufferRef.put
      rw [dif_pos]
      rw [BufferRef.spaces, BufferRef.clear_capacity, hc.capacity]
      exact Nat.not_le.mp hlong
    simp only [halloc, bind, Except.bind, QueueRefinement.onSlot, CycleBufferQueue.fill,
      Function.update_self, hput] at h
    cases h

theorem client_run (c : Client) (rb : BufferRef) : client.unpack c rb = exiting (c.unpack rb) := rfl

theorem client_unpack {c : Client} {rb : BufferRef} {uh : UInt32} (hsize : 8 ≤ rb.size)
    (hword : ntohl rb.data = some uh) :
    c.unpack rb =
      if rb.size < (uh &&& 0x00ffffff).toNat then .ok (c, rb, 0)
      else if uh &&& 0x80000000 ≠ 0 then do
        return (← c.feedback (rb.data.take (uh &&& 0x00ffffff).toNat), rb, (uh &&& 0x00ffffff).toNat)
      else .ok ({ c with file := c.file ++ (rb.poke (be32 1)).data.take (uh &&& 0x00ffffff).toNat },
        rb.poke (be32 1), (uh &&& 0x00ffffff).toNat) := by
  rw [Client.unpack, if_neg (by omega), hword]

theorem clientTaken_eq {b : List Byte} {n : Nat} (hn : announced b = some n) :
    clientTaken b = if 8 ≤ b.length ∧ n ≤ b.length then n else 0 := by
  rw [clientTaken, hn]

theorem client_consumes {b : List Byte} (hfit : ClientFits b) : Call.Consumes ⟨b, clientTaken b⟩ := by
  intro n hn hle
  obtain ⟨hsize, hpos, _⟩ := hfit n hn hle
  rw [clientTaken_eq hn, if_pos ⟨hsize, hle⟩]
  exact ⟨hpos, le_rfl⟩

theorem clientTaken_le (b : List Byte) : clientTaken b ≤ b.length := by
  unfold clientTaken
  split
  · split
    · rename_i h
      exact h.2
    · exact Nat.zero_le _
  · exact Nat.zero_le _

/-- A message of which `unpack` takes bytes. -/
theorem client_takes {b : List Byte} (hpos : 0 < clientTaken b) :
    announced b = some (clientTaken b) ∧ 8 ≤ b.length := by
  cases hn : announced b with
  | none =>
    rw [clientTaken, hn] at hpos
    exact absurd hpos (Nat.lt_irrefl 0)
  | some n =>
    rw [clientTaken_eq hn] at hpos ⊢
    split at hpos
    · rename_i h
      exact ⟨by rw [if_pos h], h.1⟩
    · exact absurd hpos (Nat.lt_irrefl 0)

/-- `unpack` leaves everything as it is, and says so. -/
theorem client_waits {c : Client} {rb : BufferRef} (hzero : clientTaken rb.data = 0)
    (hfit : ClientFits rb.data) : c.unpack rb = .ok (c, rb, 0) := by
  by_cases hsize : rb.size < 8
  · rw [Client.unpack, if_pos hsize]
  · obtain ⟨uh, hword⟩ := ntohl_isSome (b := rb.data) (by simp only [BufferRef.size] at hsize; omega)
    have hn : announced rb.data = some (uh &&& 0x00ffffff).toNat := by rw [announced, hword, Option.map_some]
    rw [client_unpack (Nat.not_lt.mp hsize) hword, if_pos]
    by_contra hle
    have hcons := client_consumes hfit _ hn (Nat.not_lt.mp hle)
    exact absurd hzero (Nat.ne_of_gt hcons.1)

theorem client_fit {c : Client} {rb : BufferRef} (hc : Ready c.bufq) (hfit : ClientFits rb.data) :
    ∃ t rb', client.unpack c rb = .ok (t, rb', clientTaken rb.data) ∧ Ready t.bufq ∧ rb'.size = rb.size ∧
      clientTaken rb.data ≤ rb.size ∧ rb'.data.drop (clientTaken rb.data) = clientRest rb.data ∧
      Call.Consumes ⟨rb.data, clientTaken rb.data⟩ := by
  have hle := clientTaken_le rb.data
  have hcons := client_consumes hfit
  by_cases hzero : clientTaken rb.data = 0
  · refine ⟨c, rb, ?_, hc, rfl, hle, ?_, hcons⟩
    · rw [client_run, client_waits hzero hfit, hzero]
      rfl
    · rw [clientRest, if_pos hzero, hzero, List.drop_zero]
  · obtain ⟨hn, hsize⟩ := client_takes (Nat.pos_of_ne_zero hzero)
    obtain ⟨uh, hword⟩ := ntohl_isSome (b := rb.data) (by omega)
    have hlen : (uh &&& 0x00ffffff).toNat = clientTaken rb.data := by
      rw [announced, hword, Option.map_some] at hn
      exact Option.some.inj hn
    have hflag : flagged rb.data = (uh &&& 0x80000000 != 0) := by rw [flagged, hword]
    have hunpack := client_unpack (c := c) hsize hword
    have hthere : ¬rb.size < clientTaken rb.data := Nat.not_lt.mpr hle
    rw [hlen, if_neg hthere] at hunpack
    by_cases hbit : uh &&& 0x80000000 ≠ 0
    · have hfb : flagged rb.data = true := by rw [hflag, bne_iff_ne]; exact hbit
      have hshort := (hfit _ hn hle).2.2 hfb
      obtain ⟨q, hfeed, hq⟩ := feedback_spec (p := rb.data.take (clientTaken rb.data)) hc
        ((List.length_take_le _ _).trans hshort)
      refine ⟨⟨q, c.queued ++ [rb.data.take (clientTaken rb.data)], c.file⟩, rb, ?_, hq, rfl, hle, ?_, hcons⟩
      · rw [client_run, hunpack, if_pos hbit, hfeed]
        rfl
      · rw [clientRest, if_neg hzero, if_pos hfb]
    · have hfb : ¬flagged rb.data = true := by rw [hflag, bne_iff_ne]; exact hbit
      have hpoke : (rb.poke (be32 1)).data = be32 1 ++ rb.data.drop 4 := by
        have htake : (be32 1).take rb.size = be32 1 := List.take_of_length_le (by
          rw [be32_length, BufferRef.size]
          omega)
        change (be32 1).take rb.size ++ rb.data.drop 4 = _
        rw [htake]
      refine ⟨{ c with file := c.file ++ (rb.poke (be32 1)).data.take (clientTaken rb.data) },
        rb.poke (be32 1), ?_, hc, ?_, hle, ?_, hcons⟩
      · rw [client_run, hunpack, if_neg hbit]
        rfl
      · rw [BufferRef.size, hpoke, List.length_append, List.length_drop, be32_length, BufferRef.size]
        omega
      · rw [clientRest, if_neg hzero, if_neg hfb, hpoke]

theorem client_unfit {c t : Client} {rb rb' : BufferRef} {n : Nat} (hc : Ready c.bufq)
    (hfit : ¬ClientFits rb.data) (hun : client.unpack c rb = .ok (t, rb', n)) :
    ¬Call.Consumes ⟨rb.data, n⟩ := by
  intro hcons
  refine hfit fun m hm hle => ?_
  obtain ⟨hpos, htaken⟩ := hcons m hm hle
  have hrun : c.unpack rb = .ok (t, rb', n) := exiting_ok hun
  by_cases hsize : rb.size < 8
  · rw [Client.unpack, if_pos hsize] at hrun
    cases hrun
    exact absurd hpos (Nat.lt_irrefl 0)
  · obtain ⟨uh, hword⟩ := ntohl_isSome (b := rb.data) (by simp only [BufferRef.size] at hsize; omega)
    have hlen : (uh &&& 0x00ffffff).toNat = m := by
      rw [announced, hword, Option.map_some] at hm
      exact Option.some.inj hm
    have hthere : ¬rb.size < m := Nat.not_lt.mpr hle
    rw [client_unpack (Nat.not_lt.mp hsize) hword, hlen, if_neg hthere] at hrun
    have hn : n = m ∧ (uh &&& 0x80000000 ≠ 0 → m ≤ 16) := by
      split at hrun
      · cases hfeed : c.feedback (rb.data.take m) with
        | error e =>
          rw [hfeed] at hrun
          cases hrun
        | ok c' =>
          rw [hfeed] at hrun
          cases hrun
          have hshort := feedback_fits hc hfeed
          rw [List.length_take, Nat.min_eq_left hle] at hshort
          exact ⟨rfl, fun _ => hshort⟩
      · rename_i hbit
        cases hrun
        exact ⟨rfl, fun h => absurd h hbit⟩
    refine ⟨Nat.not_lt.mp hsize, hn.1 ▸ hpos, fun hfb => hn.2 ?_⟩
    rw [flagged, hword] at hfb
    exact bne_iff_ne.mp hfb

/-- The client on bytes, as long as its queue takes another message. -/
def clientSpec : Spec client fun c => Ready c.bufq where
  Fit := ClientFits
  taken := clientTaken
  rest := clientRest
  untouched h := if_pos h
  fit hc _ hfit := client_fit hc hfit
  unfit hc _ hfit hun := client_unfit hc hfit hun

theorem clientSpec_taken (b : List Byte) : clientSpec.taken b = clientTaken b := rfl

theorem clientSpec_rest (b : List Byte) : clientSpec.rest b = clientRest b := rfl

/-- The record behind a frame fits, and nothing is left of it. -/
theorem padInfo_digested (idx : UInt32) (tv : TimeVal) : clientSpec.Digests (padInfo idx tv) := by
  have hlow : ((0x80000000 ||| 12 : UInt32) &&& 0x00ffffff).toNat = 12 := by decide
  have hlen := padInfo_length idx tv
  have hn : announced (padInfo idx tv) = some 12 := by
    rw [announced, ntohl_padInfo, Option.map_some, hlow]
  have hflag : flagged (padInfo idx tv) = true := by
    rw [flagged, ntohl_padInfo]
    decide
  have htaken : clientTaken (padInfo idx tv) = 12 := by
    rw [clientTaken_eq hn, if_pos ⟨by omega, by omega⟩]
  have hrest : clientSpec.rest (padInfo idx tv) = [] := by
    rw [clientSpec_rest, clientRest, htaken, if_neg (by decide), if_pos hflag, List.drop_eq_nil_of_le (Nat.le_of_eq hlen)]
  refine .takes (List.ne_nil_of_length_pos (by omega)) (fun n hn' hle => ?_) ?_ (hrest ▸ .nothing)
  · cases hn.symm.trans hn'
    exact ⟨by omega, by decide, fun _ => by decide⟩
  · rw [clientSpec_taken]
    omega

/-- What the server sends is digested by the client. -/
theorem packed_whole (idx : UInt32) {x : Shot} (hx : Encoded x) : clientSpec.Whole (packed idx x) := by
  have hge := hx.length_ge
  have hlen := packed_length idx hx
  obtain ⟨uh, hword, hlow, hbit⟩ := word_packed idx hx
  obtain ⟨t, ht⟩ := hx.start
  have hn : announced (packed idx x) = some x.frame.length := by
    rw [announced, hword, Option.map_some, hlow]
  have hflag : ¬flagged (packed idx x) = true := by
    rw [flagged, hword, bne_iff_ne, not_not]
    exact hbit
  have htaken : clientTaken (packed idx x) = x.frame.length := by
    rw [clientTaken_eq hn, if_pos ⟨by omega, by omega⟩]
  have hrest : clientSpec.rest (packed idx x) = padInfo idx x.tv := by
    have hpoke : be32 1 ++ (packed idx x).drop 4 = x.frame ++ padInfo idx x.tv := by
      rw [packed, ← ht]
      rfl
    rw [clientSpec_rest, clientRest, htaken, if_neg (by omega), if_neg hflag, hpoke, List.drop_left]
  refine ⟨by omega, .takes (List.ne_nil_of_length_pos (by omega)) (fun n hn' hle => ?_) ?_ ?_⟩
  · cases hn.symm.trans hn'
    exact ⟨by omega, by omega, fun h => absurd h hflag⟩
  · rw [clientSpec_taken]
    omega
  · rw [hrest]
    exact padInfo_digested idx x.tv

/-! ## The server -/

/-- The loop of the server's `unpack` from `p` on, with the number of turns it may take:
the `ts` bytes that it hands to `RTT`, and where it ends. -/
def rttLoop (data : List Byte) : Nat → Nat → List (List Byte) → List (List Byte) × Nat
  | 0, p, seen => (seen, p)
  | turns + 1, p, seen =>
    if p + 12 ≤ data.length then rttLoop data turns (p + 12) (seen ++ [(data.drop (p + 8)).take 4])
    else (seen, p)

/-- The buffer begins at a multiple of four, and so does every `p`. -/
def serverUnpack (seen : List (List Byte)) (rb : BufferRef) :
    Except Stop (List (List Byte) × BufferRef × Nat) :=
  match rb.data with
  | [] => .error .outside
  | b :: _ =>
    if b &&& 0x80 = 0 then .error .unpack
    else
      let (seen, p) := rttLoop rb.data rb.size 0 seen
      .ok (seen, rb, p)

def server : Side (List (List Byte)) := ⟨.arrayBuf, serverUnpack⟩

/-- Whole records. -/
def serverTaken (b : List Byte) : Nat := 12 * (b.length / 12)

def FirstFlagged : List Byte → Prop
  | [] => True
  | x :: _ => x &&& 0x80 ≠ 0

/-- The first byte has the flag, and a message that is all there is within the records. -/
def ServerFits (b : List Byte) : Prop :=
  FirstFlagged b ∧ ∀ n, announced b = some n → n ≤ b.length → 12 ≤ b.length ∧ n ≤ serverTaken b

theorem rttLoop_end (data : List Byte) (turns : Nat) {p : Nat} (seen : List (List Byte))
    (hp : p ≤ data.length) (hle : data.length - p ≤ turns) :
    (rttLoop data turns p seen).2 = p + 12 * ((data.length - p) / 12) := by
  induction turns generalizing p seen with
  | zero =>
    rw [rttLoop]
    omega
  | succ turns ih =>
    rw [rttLoop]
    split
    · rename_i hin
      rw [ih _ hin (by omega)]
      omega
    · omega

theorem server_run {seen : List (List Byte)} {rb : BufferRef} (hne : rb.data ≠ [])
    (hflag : FirstFlagged rb.data) :
    server.unpack seen rb = .ok ((rttLoop rb.data rb.size 0 seen).1, rb, serverTaken rb.data) := by
  have hend := rttLoop_end rb.data rb.size seen (Nat.zero_le _) le_rfl
  rw [Nat.zero_add, Nat.sub_zero] at hend
  rw [serverTaken, ← hend]
  change serverUnpack seen rb = _
  unfold serverUnpack
  split
  · contradiction
  · rename_i b t hdata
    rw [hdata, FirstFlagged] at hflag
    rw [if_neg hflag]

theorem server_stops {seen : List (List Byte)} {rb : BufferRef} (hne : rb.data ≠ [])
    (hflag : ¬FirstFlagged rb.data) : server.unpack seen rb = .error .unpack := by
  change serverUnpack seen rb = _
  unfold serverUnpack
  split
  · contradiction
  · rename_i b t hdata
    rw [hdata, FirstFlagged, not_not] at hflag
    rw [if_pos hflag]

/-- The server on bytes. -/
def serverSpec : Spec server fun _ => True where
  Fit := ServerFits
  taken := serverTaken
  rest b := b.drop (serverTaken b)
  untouched {b} h := by rw [h, List.drop_zero]
  fit {s rb} _ hne hfit := by
    refine ⟨_, rb, server_run hne hfit.1, trivial, rfl, ?_, rfl, fun n hn hle => ?_⟩
    · rw [serverTaken, BufferRef.size]
      omega
    · obtain ⟨hsize, hn⟩ := hfit.2 n hn hle
      refine ⟨?_, hn⟩
      show 0 < serverTaken rb.data
      rw [serverTaken]
      omega
  unfit {s rb t rb' m} _ hne hfit hun hcons := by
    by_cases hflag : FirstFlagged rb.data
    · rw [server_run hne hflag] at hun
      cases hun
      refine hfit ⟨hflag, fun n hn hle => ?_⟩
      obtain ⟨hpos, htaken⟩ := hcons n hn hle
      refine ⟨?_, htaken⟩
      have hpos' : 0 < serverTaken rb.data := hpos
      rw [serverTaken] at hpos'
      omega
    · rw [server_stops hne hflag] at hun
      cases hun

/-! ## Every run of an endpoint -/

/-- An endpoint that has received nothing. -/
def start (recvCap : Nat) : IoBasic := ⟨none, 0, 0, 0, .mk0 recvCap, true⟩

/-- The client's sender takes a feedback message from the queue, or is done with it. -/
def ClientSends (c t : Client) : Prop :=
  ∃ io io' a, (a = Arrival.takeFeedback ∨ a = Arrival.feedbackSent) ∧ c.step io a = .ok (t, io')

theorem ready_of_sends (c t : Client) (hc : Ready c.bufq) (h : ClientSends c t) : Ready t.bufq := by
  obtain ⟨io, io', a, ha, hstep⟩ := h
  have hsilent : Arrival.silent a := by
    obtain rfl | rfl := ha
    · trivial
    · trivial
  obtain ⟨t', hstep', _, _, ht⟩ := step_silent io hc hsilent
  cases hstep.symm.trans hstep'
  exact ht

theorem settled_start (recvCap : Nat) : Settled (start recvCap) := fun _ => Spec.not_complete_nil

/-- What the client does with a datagram is what the client of the video path does. -/
theorem client_recv {c t : Client} {io io' : IoBasic} {d : List Byte} {calls : List Call}
    (h : l2recvOne client c io d = .ok (t, io', calls)) : c.step io (.datagram d) = .ok (t, io') := by
  have hsink (c : Client) (rb : BufferRef) : client.unpack c rb = exiting (Client.sink.run c rb) := rfl
  obtain ⟨taken, hrecv⟩ := recv_sink hsink h
  rw [Client.step, hrecv]
  rfl

/-- In every run of the client and in every run of the server whose datagrams meet the
condition, every state reached is robust. -/
theorem receive_path_robust {events events' : List Event} {x : Client × IoBasic}
    {y : List (List Byte) × IoBasic}
    (hclient : Run (Guarded clientSpec.Meets (Step client ClientSends)) (.init, start bitstreamLen) events x)
    (hserver : Run (Guarded serverSpec.Meets (Step server Eq)) ([], start 16) events' y) :
    clientSpec.Robust x ∧ serverSpec.Robust y := by
  constructor
  · exact Spec.robust_run ready_of_sends ready_init (settled_start _) hclient
  · exact Spec.robust_run (fun _ _ _ _ => trivial) trivial (settled_start _) hserver

/-- A frame that fills one datagram with its `PadInfo`. -/
def shot : Shot := ⟨[0, 0, 0, 1, 9, 8, 7, 6], ⟨3, 4000⟩, fun _ => 0⟩

/-- The client after a keep-alive and a frame. -/
def shown : Client × IoBasic :=
  match (Client.init).step (start bitstreamLen) (.datagram ([0x80, 0, 0, 0] ++ packed 7 shot)) with
  | .ok x => x
  | .error _ => (.init, start bitstreamLen)

/-- The client after a keep-alive and a frame, and the server after one record from the
client. -/
theorem receive_path_robust_record :
    Run (Guarded clientSpec.Meets (Step client ClientSends)) (.init, start bitstreamLen)
      [.datagram [0xff, 0xff, 0xff, 0xff], .datagram ([0x80, 0, 0, 0] ++ packed 7 shot)] shown ∧
    shown.1.file = shot.frame ∧ clientSpec.Robust shown ∧
    serverSpec.Robust ([[1, 0, 2, 0]], start 16) := by
  let record : List Byte := [0x80, 0, 0, 12, 0, 0, 0, 0, 1, 0, 2, 0]
  have hfits : ServerFits record := by
    have hflag : (0x80 : Byte) &&& 0x80 ≠ 0 := by decide
    refine ⟨hflag, fun n hn _ => ⟨by decide, ?_⟩⟩
    cases hn
    decide
  have hrest : serverSpec.rest record = [] := List.drop_eq_nil_of_le (by decide)
  have htaken : 0 < serverTaken record := by decide
  have hwhole : serverSpec.Whole record :=
    ⟨by decide, .takes (by decide) hfits htaken (hrest ▸ .nothing)⟩
  have hencoded : Encoded shot := ⟨⟨[9, 8, 7, 6], rfl⟩, by decide⟩
  have hidle : Run (Guarded clientSpec.Meets (Step client ClientSends)) (.init, start bitstreamLen)
      [.datagram [0xff, 0xff, 0xff, 0xff]] (.init, start bitstreamLen) :=
    .single ⟨.inl (Nat.zero_le 4), .datagram rfl rfl⟩
  have hframe : Guarded clientSpec.Meets (Step client ClientSends) (.init, start bitstreamLen)
      (.datagram ([0x80, 0, 0, 0] ++ packed 7 shot)) shown :=
    ⟨fun _ => packed_whole 7 hencoded, .datagram rfl rfl⟩
  have hclient := hidle.snoc hframe
  have hserver : Run (Guarded serverSpec.Meets (Step server Eq)) ([], start 16)
      [.datagram ([0x80, 0, 0, 0] ++ record)] ([[1, 0, 2, 0]], start 16) :=
    .single ⟨fun _ => hwhole, .datagram rfl rfl⟩
  obtain ⟨hshown, hheard⟩ := receive_path_robust hclient hserver
  exact ⟨hclient, rfl, hshown, hheard⟩

/-- A last fragment with twelve bytes of zeros: the client keeps a message of length 0,
and the server exits. -/
theorem receive_path_not_robust :
    ¬Handled client .init (start bitstreamLen) ([0x80, 0, 0, 0] ++ List.replicate 12 0) ∧
    ¬Handled server [] (start 16) ([0x80, 0, 0, 0] ++ List.replicate 12 0) := by
  constructor
  · intro h
    obtain ⟨_, _, _, hrecv, hcalls⟩ := h
    cases hrecv
    exact absurd (hcalls _ List.mem_cons_self 0 rfl (Nat.zero_le _)).1 (Nat.lt_irrefl 0)
  · intro h
    obtain ⟨_, _, _, hrecv, _⟩ := h
    cases hrecv

end CppSnippets.Epoll.RecvPath
