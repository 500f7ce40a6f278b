import CppSnippets.Epoll.UdpIo
import CppSnippets.Lib.Run

/-!
# Reassembly over a network that drops, doubles and reorders

A sender, a receiver, and every datagram ever sent, any of which may arrive at
any time and any number of times. The receiver knows a fragment only by its
number, so what it hands on need not be one buffer: it is a sequence of
fragments that carry the right numbers and arrived one directly after the other.
-/
namespace CppSnippets.Epoll.UdpNetwork

open CppSnippets.Lib IoBasic

variable {σ : Type}

/-- A datagram that has been sent, and the fragment it carries. -/
structure Flight where
  src : Nat
  data : List Byte
  idx : Nat
  wire : List Byte
  deriving DecidableEq

/-- A fragment in the receive buffer, with the room there was when it arrived. -/
structure Part where
  flight : Flight
  room : Nat
  deriving DecidableEq

/-- The bytes of the fragment that reached the buffer. -/
def Part.kept (p : Part) : List Byte := (p.flight.wire.drop 4).take p.room

def Part.fits (p : Part) : Prop := p.flight.wire.length ≤ 4 + p.room

/-- One call of `process_recvd`. -/
structure Delivery where
  parts : List Part
  /-- What the buffer gained since the call before. -/
  added : List Byte
  deriving DecidableEq

structure Net (σ : Type) where
  sender : IoBasic
  receiver : IoBasic
  sink : σ
  /-- The transmit buffers, in the order in which they were taken for sending. -/
  sent : List (List Byte)
  flights : List Flight
  /-- The fragments that arrived, in the order in which they did. -/
  received : List Flight
  /-- The fragments in the receive buffer that `process_recvd` has not seen. -/
  parts : List Part
  /-- How many bytes of the receive buffer it has seen and left there. -/
  left : Nat
  log : List Delivery

inductive Label where
  | load (data : List Byte)
  | send (slen : Int)
  | echo (w : UInt16)
  | deliver (k : Nat)
  | silent (r : Recv)

/-- A receive that carries no fragment. -/
def Silent : Recv → Prop
  | .error | .again => True
  | .datagram d => d = [0xff, 0xff, 0xff, 0xff]

def Net.init (sendCap recvCap : Nat) (s : σ) : Net σ where
  sender := ⟨none, 0, 0, 0, .mk0 sendCap, true⟩
  receiver := ⟨none, 0, 0, 0, .mk0 recvCap, true⟩
  sink := s
  sent := []
  flights := []
  received := []
  parts := []
  left := 0
  log := []

/-- What the arrival of `f` changes in the records. -/
def Net.accept (n : Net σ) (f : Flight) (s : σ) (io : IoBasic) (taken : Taken) : Net σ :=
  let m := { n with sink := s, receiver := io, received := n.received ++ [f] }
  let base (restarted : Bool) := if restarted then [] else n.parts
  let kept (restarted : Bool) := if restarted then 0 else n.left
  match taken with
  | .part r => { m with parts := base r ++ [⟨f, n.receiver.xbuf.spaces⟩], left := kept r }
  | .whole r rb =>
      { m with
        parts := []
        left := io.xbuf.size
        log := n.log ++ [⟨base r ++ [⟨f, n.receiver.xbuf.spaces⟩], rb.data.drop (kept r)⟩] }
  | .dropped => { m with parts := [], left := 0 }
  | .nothing | .closed | .keepAlive => m

/-- One step of the sender, of the receiver, or of the network between them. A
buffer is loaded only if the numbers of its fragments leave the flag bit free. -/
inductive Step (process : σ → BufferRef → Except Exit (σ × BufferRef)) :
    Net σ → Label → Net σ → Prop
  | load {n : Net σ} {data : List Byte} :
      n.sender.isOpen → n.sender.txbuf = none → data ≠ [] → data.length ≤ 0x7fff * fragSize →
      Step process n (.load data)
        { n with sender := n.sender.prewait data, sent := n.sent ++ [data] }
  | send {n : Net σ} {slen : Int} {data : List Byte} {io : IoBasic} {wire : List Byte} :
      n.sender.txbuf = some data → n.sender.l2send slen = .ok (io, wire) →
      Step process n (.send slen)
        { n with
          sender := io
          flights := n.flights ++
            [⟨n.sent.length - 1, data, n.sender.txpos / fragSize, wire⟩] }
  | echo {n : Net σ} {w : UInt16} :
      Step process n (.echo w) { n with sender := { n.sender with xh1 := w } }
  | deliver {n : Net σ} {k : Nat} {f : Flight} {s : σ} {io : IoBasic} {taken : Taken} :
      n.receiver.isOpen → n.flights[k]? = some f →
      l2recvOne process n.sink n.receiver (.datagram f.wire) = .ok (s, io, taken) →
      Step process n (.deliver k) (n.accept f s io taken)
  | silent {n : Net σ} {r : Recv} {s : σ} {io : IoBasic} {taken : Taken} :
      n.receiver.isOpen → Silent r →
      l2recvOne process n.sink n.receiver r = .ok (s, io, taken) →
      Step process n (.silent r) { n with sink := s, receiver := io }

/-- A flight is a fragment of the buffer it names. -/
structure WellSent (sent : List (List Byte)) (f : Flight) : Prop where
  source : sent[f.src]? = some f.data
  inside : f.idx * fragSize < f.data.length
  counted : f.data.length ≤ 0x7fff * fragSize
  carried : ∃ echo, f.wire = fragment f.data echo f.idx

/-- The last fragment of its buffer. -/
def Flight.isLast (f : Flight) : Prop := f.data.length ≤ (f.idx + 1) * fragSize

theorem WellSent.idx_lt {sent : List (List Byte)} {f : Flight} (h : WellSent sent f) :
    f.idx < 0x7fff := by
  have h1 := h.inside
  have h2 := h.counted
  exact Nat.lt_of_mul_lt_mul_right (Nat.lt_of_lt_of_le h1 h2)

theorem WellSent.mono {sent : List (List Byte)} {f : Flight} (h : WellSent sent f)
    (data : List Byte) : WellSent (sent ++ [data]) f := by
  obtain ⟨hlt, _⟩ := List.getElem?_eq_some_iff.mp h.source
  exact ⟨(List.getElem?_append_left hlt).trans h.source, h.inside, h.counted, h.carried⟩

theorem WellSent.payload {sent : List (List Byte)} {f : Flight} (h : WellSent sent f) :
    f.wire.drop 4 = chunk fragSize f.data f.idx := by
  obtain ⟨echo, he⟩ := h.carried
  rw [he]
  rfl

/-- The buffer being sent is the newest one, and the next fragment is a whole
number of fragments into it. -/
def Sending (n : Net σ) : Prop :=
  ∀ data, n.sender.txbuf = some data → n.sent[n.sent.length - 1]? = some data ∧
    data.length ≤ 0x7fff * fragSize ∧ ∃ i, n.sender.txpos = i * fragSize ∧
      n.sender.xh0 = UInt16.ofNat i ∧ i * fragSize < data.length

/-- The parts carry the numbers from 0 on. -/
def Numbered (sent : List (List Byte)) (parts : List Part) : Prop :=
  ∀ (j : Nat) (p : Part), parts[j]? = some p → WellSent sent p.flight ∧ p.flight.idx = j

/-- The receive buffer holds `left` old bytes and then those of the parts. -/
structure Assembling (sent : List (List Byte)) (received : List Flight) (parts : List Part)
    (left : Nat) (io : IoBasic) : Prop where
  expected : io.xh1 = UInt16.ofNat parts.length
  numbered : Numbered sent parts
  unfinished : ∀ p ∈ parts, ¬ p.flight.isLast
  old : left ≤ io.xbuf.size
  bytes : io.xbuf.data.drop left = (parts.map Part.kept).flatten
  adjacent : parts.map Part.flight <:+ received

/-- What a delivery consists of. -/
structure Assembled (sent : List (List Byte)) (received : List Flight) (d : Delivery) : Prop where
  numbered : Numbered sent d.parts
  lastOnly : ∀ (j : Nat) (p : Part), d.parts[j]? = some p → (p.flight.isLast ↔ j + 1 = d.parts.length)
  nonempty : d.parts ≠ []
  bytes : d.added = (d.parts.map Part.kept).flatten
  adjacent : d.parts.map Part.flight <:+: received

structure Inv (n : Net σ) : Prop where
  sending : Sending n
  flights : ∀ f ∈ n.flights, WellSent n.sent f
  assembling : n.receiver.isOpen = true →
    Assembling n.sent n.received n.parts n.left n.receiver
  log : ∀ d ∈ n.log, Assembled n.sent n.received d

/-! ## The step lemmas -/

theorem getElem?_snoc {α : Type*} {l : List α} {a b : α} {j : Nat}
    (h : (l ++ [a])[j]? = some b) : l[j]? = some b ∨ j = l.length ∧ b = a := by
  by_cases hj : j < l.length
  · rw [List.getElem?_append_left hj] at h
    exact .inl h
  · rw [List.getElem?_append_right (by omega)] at h
    obtain ⟨hlt, hb⟩ := List.getElem?_eq_some_iff.mp h
    rw [List.length_singleton] at hlt
    exact .inr ⟨by omega, by rw [← hb, List.getElem_singleton]⟩

theorem Numbered.snoc {sent : List (List Byte)} {parts : List Part} {q : Part}
    (h : Numbered sent parts) (hq : WellSent sent q.flight) (hi : q.flight.idx = parts.length) :
    Numbered sent (parts ++ [q]) := by
  intro j p hp
  obtain hp | ⟨rfl, rfl⟩ := getElem?_snoc hp
  · exact h j p hp
  · exact ⟨hq, hi⟩

theorem Numbered.mono {sent : List (List Byte)} {parts : List Part} (h : Numbered sent parts)
    (data : List Byte) : Numbered (sent ++ [data]) parts :=
  fun j p hp => ⟨(h j p hp).1.mono data, (h j p hp).2⟩

theorem assembling_empty (sent : List (List Byte)) (received : List Flight) (io : IoBasic)
    (hx : io.xh1 = 0) : Assembling sent received [] io.xbuf.size io where
  expected := hx
  numbered := fun j p h => by simp at h
  unfinished := fun p h => by simp at h
  old := Nat.le_refl _
  bytes := by
    rw [BufferRef.size, List.drop_length]
    rfl
  adjacent := List.nil_suffix

/-- The endpoint at `Pos_incr_recv__`: the next fragment is in the buffer but
not counted yet. -/
structure Arrived (sent : List (List Byte)) (received : List Flight) (parts : List Part) (q : Part)
    (left : Nat) (io : IoBasic) : Prop where
  expected : io.xh1 = UInt16.ofNat parts.length
  numbered : Numbered sent parts
  unfinished : ∀ p ∈ parts, ¬ p.flight.isLast
  next : WellSent sent q.flight
  index : q.flight.idx = parts.length
  old : left ≤ io.xbuf.size
  bytes : io.xbuf.data.drop left = ((parts ++ [q]).map Part.kept).flatten
  adjacent : (parts ++ [q]).map Part.flight <:+ received

theorem Arrived.assembled {sent : List (List Byte)} {received : List Flight} {parts : List Part}
    {q : Part} {left : Nat} {io : IoBasic} (h : Arrived sent received parts q left io)
    (hl : q.flight.isLast) :
    Assembled sent received ⟨parts ++ [q], io.xbuf.data.drop left⟩ where
  numbered := h.numbered.snoc h.next h.index
  lastOnly := by
    intro j p hp
    rw [List.length_append, List.length_singleton]
    obtain hp | ⟨rfl, rfl⟩ := getElem?_snoc hp
    · have hnot := h.unfinished p (List.mem_of_getElem? hp)
      obtain ⟨hlt, _⟩ := List.getElem?_eq_some_iff.mp hp
      exact iff_of_false hnot (by omega)
    · exact iff_of_true hl rfl
  nonempty := by simp
  bytes := h.bytes
  adjacent := h.adjacent.isInfix

/-- Past the label, the fragment is counted or the buffer is handed on. -/
theorem Arrived.posIncrRecv {process : σ → BufferRef → Except Exit (σ × BufferRef)}
    {sent : List (List Byte)} {received : List Flight} {parts : List Part} {q : Part} {left : Nat}
    {io io' : IoBasic} {s s' : σ} {r : Bool} {taken : Taken}
    (h : Arrived sent received parts q left io)
    (hx : posIncrRecv process s io (head0 q.flight.data q.flight.idx) r = .ok (s', io', taken)) :
    taken = .part r ∧ Assembling sent received (parts ++ [q]) left io' ∨
    taken = .whole r io.xbuf ∧ Assembling sent received [] io'.xbuf.size io' ∧
      Assembled sent received ⟨parts ++ [q], io.xbuf.data.drop left⟩ := by
  have hflag := head0_flag q.flight.data h.next.idx_lt
  unfold IoBasic.posIncrRecv at hx
  by_cases hl : q.flight.isLast
  · rw [if_pos (hflag.mpr hl)] at hx
    cases hp : process s io.xbuf with
    | error e => rw [hp] at hx; cases hx
    | ok x =>
      rw [hp] at hx
      cases hx
      exact .inr ⟨rfl, assembling_empty _ _ _ rfl, h.assembled hl⟩
  · rw [if_neg (fun hf => hl (hflag.mp hf))] at hx
    cases hx
    refine .inl ⟨rfl, ?_, h.numbered.snoc h.next h.index, ?_, h.old, h.bytes, h.adjacent⟩
    · rw [List.length_append, List.length_singleton, UInt16.ofNat_add]
      exact congrArg (· + 1) h.expected
    · intro p hp
      rcases List.mem_append.mp hp with hp | hp
      · exact h.unfinished p hp
      · exact List.mem_singleton.mp hp ▸ hl

theorem Numbered.length_le {sent : List (List Byte)} {parts : List Part}
    (h : Numbered sent parts) : parts.length ≤ 0x7fff := by
  cases hl : parts.length with
  | zero => exact Nat.zero_le _
  | succ k =>
    have hk : k < parts.length := by omega
    obtain ⟨hw, hi⟩ := h k parts[k] (List.getElem?_eq_getElem hk)
    have := hw.idx_lt
    omega

/-- The expected fragment goes behind the parts that are there. -/
theorem arrived_next {n : Net σ} {f : Flight}
    (h : Assembling n.sent n.received n.parts n.left n.receiver) (hf : WellSent n.sent f)
    (hi : UInt16.ofNat f.idx = n.receiver.xh1) :
    Arrived n.sent (n.received ++ [f]) n.parts ⟨f, n.receiver.xbuf.spaces⟩ n.left
      { n.receiver with xbuf := fill n.receiver.xbuf (chunk fragSize f.data f.idx) } where
  expected := h.expected
  numbered := h.numbered
  unfinished := h.unfinished
  next := hf
  index := by
    have hlt := hf.idx_lt
    have hle := h.numbered.length_le
    have hn := congrArg UInt16.toNat (hi.trans h.expected)
    rwa [UInt16.toNat_ofNat_of_lt' (by change f.idx < 65536; omega),
      UInt16.toNat_ofNat_of_lt' (by change n.parts.length < 65536; omega)] at hn
  old := by
    have := h.old
    simp only [fill, BufferRef.size, List.length_append] at this ⊢
    omega
  bytes := by
    rw [List.map_append, List.flatten_append, ← h.bytes]
    change List.drop _ (_ ++ _) = _
    rw [List.drop_append_of_le_length h.old, List.map_singleton, List.flatten_singleton,
      Part.kept, hf.payload]
  adjacent := by
    obtain ⟨t, ht⟩ := h.adjacent
    exact ⟨t, by rw [List.map_append, ← List.append_assoc, ht]; rfl⟩

/-- A fragment 0 out of turn is alone in the buffer. -/
theorem arrived_first {n : Net σ} {f : Flight} (hf : WellSent n.sent f) (hi : f.idx = 0) :
    Arrived n.sent (n.received ++ [f]) [] ⟨f, n.receiver.xbuf.spaces⟩ 0
      { n.receiver with xh1 := 0, xbuf := only n.receiver.xbuf (chunk fragSize f.data f.idx) } where
  expected := rfl
  numbered := fun j p h => by simp at h
  unfinished := fun p h => by simp at h
  next := hf
  index := hi
  old := Nat.zero_le _
  bytes := by
    rw [List.nil_append, List.map_singleton, List.flatten_singleton, Part.kept, hf.payload]
    rfl
  adjacent := List.suffix_append _ _

/-- What the arrival of a fragment keeps. -/
theorem inv_deliver {process : σ → BufferRef → Except Exit (σ × BufferRef)} {n : Net σ} {k : Nat}
    {f : Flight} {s : σ} {io : IoBasic} {taken : Taken} (h : Inv n)
    (hopen : n.receiver.isOpen = true) (hk : n.flights[k]? = some f)
    (hx : l2recvOne process n.sink n.receiver (.datagram f.wire) = .ok (s, io, taken)) :
    Inv (n.accept f s io taken) := by
  have hf := h.flights f (List.mem_of_getElem? hk)
  have hasm := h.assembling hopen
  have hlog : ∀ d ∈ n.log, Assembled n.sent (n.received ++ [f]) d := fun d hd =>
    { h.log d hd with adjacent := (h.log d hd).adjacent.trans (List.prefix_append _ _).isInfix }
  obtain ⟨echo, he⟩ := hf.carried
  rw [he, recv_fragment process n.sink n.receiver f.data echo hf.idx_lt] at hx
  split at hx
  · rename_i hi
    obtain ⟨rfl, hp⟩ | ⟨rfl, hp, hd⟩ := (arrived_next hasm hf hi).posIncrRecv hx
    · exact ⟨h.sending, h.flights, fun _ => hp, hlog⟩
    · refine ⟨h.sending, h.flights, fun _ => hp, fun d hd' => ?_⟩
      rcases List.mem_append.mp hd' with hd' | hd'
      · exact hlog d hd'
      · exact List.mem_singleton.mp hd' ▸ hd
  · split at hx
    · rename_i hi
      obtain ⟨rfl, hp⟩ | ⟨rfl, hp, hd⟩ := (arrived_first hf hi).posIncrRecv hx
      · exact ⟨h.sending, h.flights, fun _ => hp, hlog⟩
      · refine ⟨h.sending, h.flights, fun _ => hp, fun d hd' => ?_⟩
        rcases List.mem_append.mp hd' with hd' | hd'
        · exact hlog d hd'
        · exact List.mem_singleton.mp hd' ▸ hd
    · cases hx
      refine ⟨h.sending, h.flights, fun _ => ?_, hlog⟩
      exact assembling_empty n.sent (n.received ++ [f])
        { n.receiver with xh1 := 0, xbuf := n.receiver.xbuf.clear } rfl

/-- A receive without a fragment closes the receiver or leaves it as it is. -/
theorem silent_cases {process : σ → BufferRef → Except Exit (σ × BufferRef)} {s s' : σ}
    {io io' : IoBasic} {r : Recv} {taken : Taken} (hr : Silent r)
    (hx : l2recvOne process s io r = .ok (s', io', taken)) : io' = io ∨ io'.isOpen = false := by
  cases r with
  | error =>
    simp only [l2recvOne, l2close, bind, Except.bind, pure, Except.pure] at hx
    split at hx
    · cases hx
    · rename_i c hc
      cases hx
      split at hc
      · cases hc
        exact .inr rfl
      · cases hc
  | again =>
    cases hx
    exact .inl rfl
  | datagram d =>
    subst hr
    rw [recv_keepAlive] at hx
    cases hx
    exact .inl rfl

theorem sending_send {n : Net σ} {slen : Int} {data : List Byte} {io : IoBasic} {wire : List Byte}
    (h : Sending n) (hb : n.sender.txbuf = some data)
    (hx : n.sender.l2send slen = .ok (io, wire)) :
    Sending { n with sender := io } ∧
      WellSent n.sent ⟨n.sent.length - 1, data, n.sender.txpos / fragSize, wire⟩ := by
  obtain ⟨hsrc, hcount, i, hpos, hnum, hin⟩ := h data hb
  have hidx : n.sender.txpos / fragSize = i := by rw [hpos, Nat.mul_div_cancel _ (by decide)]
  rw [l2send_fragment _ slen hb hpos hnum hin] at hx
  rw [hidx]
  split at hx
  · cases hc : l2close { n.sender with xh0 := UInt16.ofNat (i + 1) } with
    | error e => rw [hc] at hx; cases hx
    | ok c =>
      rw [hc] at hx
      cases hx
      refine ⟨fun d hd => ?_, hsrc, hin, hcount, n.sender.xh1, rfl⟩
      unfold l2close at hc
      split at hc
      · cases hc
        cases hd
      · cases hc
  · split at hx
    · cases hx
      exact ⟨fun d hd => (by cases hd), hsrc, hin, hcount, n.sender.xh1, rfl⟩
    · rename_i hlt
      cases hx
      refine ⟨fun d hd => ?_, hsrc, hin, hcount, n.sender.xh1, rfl⟩
      obtain rfl : data = d := Option.some.inj (hb.symm.trans hd)
      exact ⟨hsrc, hcount, i + 1, rfl, rfl, by omega⟩

theorem inv_step {process : σ → BufferRef → Except Exit (σ × BufferRef)} {n n' : Net σ}
    {l : Label} (h : Inv n) (hs : Step process n l n') : Inv n' := by
  cases hs with
  | @load data _ hfree hne hle =>
    refine ⟨fun d hd => ?_, fun f hf => (h.flights f hf).mono data, fun ho => ?_, fun d hd => ?_⟩
    · obtain rfl : data = d := Option.some.inj hd
      refine ⟨by simp, hle, 0, rfl, rfl, ?_⟩
      rw [Nat.zero_mul]
      exact List.length_pos_iff.mpr hne
    · exact { h.assembling ho with numbered := (h.assembling ho).numbered.mono data }
    · exact { h.log d hd with numbered := (h.log d hd).numbered.mono data }
  | @send slen data io wire hb hx =>
    obtain ⟨hsend, hflight⟩ := sending_send h.sending hb hx
    refine ⟨hsend, fun f hf => ?_, h.assembling, h.log⟩
    rcases List.mem_append.mp hf with hf | hf
    · exact h.flights f hf
    · exact List.mem_singleton.mp hf ▸ hflight
  | echo => exact ⟨h.sending, h.flights, h.assembling, h.log⟩
  | deliver hopen hk hx => exact inv_deliver h hopen hk hx
  | silent hopen hr hx =>
    refine ⟨h.sending, h.flights, fun ho => ?_, h.log⟩
    obtain rfl | hclosed := silent_cases hr hx
    · exact h.assembling ho
    · rw [hclosed] at ho
      cases ho

theorem inv_run {process : σ → BufferRef → Except Exit (σ × BufferRef)} {sendCap recvCap : Nat}
    {s : σ} {ls : List Label} {n : Net σ}
    (h : Run (Step process) (Net.init sendCap recvCap s) ls n) : Inv n := by
  refine h.invariant (fun _ _ _ hi hs => inv_step hi hs) ⟨?_, ?_, ?_, ?_⟩
  · exact fun d hd => by cases hd
  · exact fun f hf => by cases hf
  · exact fun _ => assembling_empty [] [] ⟨none, 0, 0, 0, .mk0 recvCap, true⟩ rfl
  · exact fun d hd => by cases hd

/-! ## What is handed on -/

/-- Parts that all come from one buffer, none of them cut, are that buffer. -/
theorem Assembled.whole {sent : List (List Byte)} {received : List Flight} {d : Delivery}
    (h : Assembled sent received d) {src : Nat} {data : List Byte} (hsrc : sent[src]? = some data)
    (hone : ∀ p ∈ d.parts, p.flight.src = src ∧ p.fits) : d.added = data := by
  have hdata : ∀ p ∈ d.parts, WellSent sent p.flight → p.flight.data = data := by
    intro p hp hw
    have hs := hw.source
    rw [(hone p hp).1, hsrc] at hs
    exact (Option.some.inj hs).symm
  have hkept : d.parts.map Part.kept = (List.range d.parts.length).map (chunk fragSize data) := by
    apply List.ext_getElem
    · rw [List.length_map, List.length_map, List.length_range]
    intro j hj _
    rw [List.length_map] at hj
    have hmem := List.getElem_mem hj
    obtain ⟨hw, hidx⟩ := h.numbered j _ (List.getElem?_eq_getElem hj)
    rw [List.getElem_map, List.getElem_map, List.getElem_range, Part.kept,
      List.take_of_length_le, hw.payload, hdata _ hmem hw, hidx]
    have := (hone _ hmem).2
    rw [Part.fits] at this
    rw [List.length_drop]
    omega
  have hpos := List.length_pos_iff.mpr h.nonempty
  obtain ⟨k, hk⟩ : ∃ k, d.parts.length = k + 1 := ⟨d.parts.length - 1, by omega⟩
  have hlt : k < d.parts.length := by omega
  obtain ⟨hw, hidx⟩ := h.numbered k _ (List.getElem?_eq_getElem hlt)
  have hlast := (h.lastOnly k _ (List.getElem?_eq_getElem hlt)).mpr hk.symm
  rw [Flight.isLast, hdata _ (List.getElem_mem hlt) hw, hidx] at hlast
  rw [h.bytes, hkept, hk, chunks_whole hlast]

/-- Whatever the network does, `process_recvd` is given fragments with the
numbers from 0 to that of a last fragment, which arrived one directly after the
other; when they belong to one buffer they are that buffer. -/
theorem reassembly {process : σ → BufferRef → Except Exit (σ × BufferRef)} {sendCap recvCap : Nat}
    {s : σ} {ls : List Label} {n : Net σ}
    (h : Run (Step process) (Net.init sendCap recvCap s) ls n) :
    ∀ d ∈ n.log, d.parts ≠ [] ∧
      (∀ j p, d.parts[j]? = some p → WellSent n.sent p.flight ∧ p.flight.idx = j ∧
        (p.flight.isLast ↔ j + 1 = d.parts.length)) ∧
      d.parts.map Part.flight <:+: n.received ∧
      d.added = (d.parts.map Part.kept).flatten ∧
      ∀ src data, n.sent[src]? = some data → (∀ p ∈ d.parts, p.flight.src = src ∧ p.fits) →
        d.added = data := by
  intro d hd
  have ha := (inv_run h).log d hd
  refine ⟨ha.nonempty, fun j p hp => ?_, ha.adjacent, ha.bytes, fun _ _ hs ho => ha.whole hs ho⟩
  exact ⟨(ha.numbered j p hp).1, (ha.numbered j p hp).2, ha.lastOnly j p hp⟩

/-! ## Sending a whole buffer -/

/-- The datagrams of one buffer. -/
def flightsOf (src : Nat) (data : List Byte) (echo : UInt16) (k : Nat) : List Flight :=
  (List.range k).map fun i => ⟨src, data, i, fragment data echo i⟩

/-- The network after the first `k` fragments of a buffer have left. -/
def sentPart (n : Net σ) (data : List Byte) (k : Nat) : Net σ :=
  { n with
    sender := { n.sender with txbuf := some data, txpos := k * fragSize, xh0 := UInt16.ofNat k }
    sent := n.sent ++ [data]
    flights := n.flights ++ flightsOf n.sent.length data n.sender.xh1 k }

/-- The network after the whole buffer has left. -/
def sentAll (n : Net σ) (data : List Byte) : Net σ :=
  { n with
    sender := { n.sender with txbuf := none, txpos := 0, xh0 := UInt16.ofNat (count data) }
    sent := n.sent ++ [data]
    flights := n.flights ++ flightsOf n.sent.length data n.sender.xh1 (count data) }

theorem step_send {process : σ → BufferRef → Except Exit (σ × BufferRef)} (n : Net σ)
    {data : List Byte} {i : Nat} (hi : i < count data) :
    Step process (sentPart n data i) (.send 1456)
      (if i + 1 = count data then sentAll n data else sentPart n data (i + 1)) := by
  have hin := lt_count.mp hi
  have hx := l2send_fragment (sentPart n data i).sender 1456 rfl rfl rfl hin
  have hroom : ¬ (1456 : Int) < 4 + (chunk fragSize data i).length := by
    have := chunk_length_le fragSize data i
    change (chunk fragSize data i).length ≤ 1452 at this
    omega
  have hsrc : (sentPart n data i).sent.length - 1 = n.sent.length := by
    simp [sentPart]
  have hidx : (sentPart n data i).sender.txpos / fragSize = i :=
    Nat.mul_div_cancel _ (by decide)
  rw [if_neg hroom] at hx
  have hnext : flightsOf n.sent.length data n.sender.xh1 (i + 1) =
      flightsOf n.sent.length data n.sender.xh1 i ++
        [⟨n.sent.length, data, i, fragment data n.sender.xh1 i⟩] := by
    rw [flightsOf, List.range_succ, List.map_append]
    rfl
  by_cases hl : i + 1 = count data
  · rw [if_pos ((count_eq hin).mp hl)] at hx
    have hs : Step process (sentPart n data i) (.send 1456) _ := .send rfl hx
    rw [hsrc, hidx] at hs
    rw [if_pos hl]
    simpa only [sentAll, sentPart, ← hl, hnext, List.append_assoc] using hs
  · rw [if_neg fun h => hl ((count_eq hin).mpr h)] at hx
    have hs : Step process (sentPart n data i) (.send 1456) _ := .send rfl hx
    rw [hsrc, hidx] at hs
    rw [if_neg hl]
    simpa only [sentPart, hnext, List.append_assoc] using hs

/-- A free sender can always load a buffer and send all of it. -/
theorem run_send {process : σ → BufferRef → Except Exit (σ × BufferRef)} (n : Net σ)
    {data : List Byte} (hopen : n.sender.isOpen = true) (hfree : n.sender.txbuf = none)
    (hne : data ≠ []) (hle : data.length ≤ 0x7fff * fragSize) :
    ∃ ls, Run (Step process) n ls (sentAll n data) := by
  have hload : Step process n (.load data) (sentPart n data 0) := by
    have hs : Step process n (.load data) _ := .load hopen hfree hne hle
    rw [sentPart, flightsOf, List.range_zero, List.map_nil, List.append_nil, Nat.zero_mul]
    exact hs
  have hmany : ∀ k, k < count data → ∃ ls, Run (Step process) n ls (sentPart n data k) := by
    intro k
    induction k with
    | zero => exact fun _ => ⟨_, .single hload⟩
    | succ k ih =>
      intro hk
      obtain ⟨ls, hrun⟩ := ih (by omega)
      have hs := @step_send σ process n data k (by omega)
      rw [if_neg (by omega)] at hs
      exact ⟨_, hrun.snoc hs⟩
  have hpos : 0 < count data := lt_count.mpr (by rw [Nat.zero_mul]; exact List.length_pos_iff.mpr hne)
  obtain ⟨ls, hrun⟩ := hmany (count data - 1) (by omega)
  have hs := @step_send σ process n data (count data - 1) (by omega)
  rw [if_pos (by omega)] at hs
  exact ⟨_, hrun.snoc hs⟩

/-! ## Two buffers mixed -/

/-- A sink that takes everything it is given. -/
def takeAll (s : Unit) (rb : BufferRef) : Except Exit (Unit × BufferRef) := .ok (s, rb.clear)

def bufA : List Byte := List.replicate 1453 0xaa

def bufB : List Byte := List.replicate 1453 0xbb

def mixed : List Byte := List.replicate 1452 0xaa ++ [0xbb]

theorem chunk_bufA : chunk fragSize bufA 0 = List.replicate 1452 0xaa := by
  have hlen : min fragSize (1453 - 0 * fragSize) = 1452 := rfl
  rw [chunk, bufA, List.drop_replicate, List.take_replicate, hlen]

theorem chunk_bufB : chunk fragSize bufB 1 = [0xbb] := by
  have hlen : min fragSize (1453 - 1 * fragSize) = 1 := rfl
  rw [chunk, bufB, List.drop_replicate, List.take_replicate, hlen]
  rfl

/-- Both buffers leave in two fragments; the second of the first buffer and the
first of the second one are lost. -/
theorem run_mixed : ∃ ls n, Run (Step takeAll) (Net.init 1453 3000 ()) ls n ∧
    n.sent = [bufA, bufB] ∧ ∃ parts, n.log = [⟨parts, mixed⟩] := by
  have hA : bufA.length = 1453 := List.length_replicate
  have hB : bufB.length = 1453 := List.length_replicate
  have hneA : bufA ≠ [] := List.ne_nil_of_length_pos (by omega)
  have hneB : bufB ≠ [] := List.ne_nil_of_length_pos (by omega)
  have hle : 1453 ≤ 0x7fff * fragSize := by decide
  let n0 : Net Unit := Net.init 1453 3000 ()
  let n2 := sentAll (sentAll n0 bufA) bufB
  obtain ⟨lsA, hrunA⟩ := @run_send Unit takeAll n0 _ rfl rfl hneA (hA ▸ hle)
  obtain ⟨lsB, hrunB⟩ := @run_send Unit takeAll (sentAll n0 bufA) _ rfl rfl hneB (hB ▸ hle)
  have hcA : count bufA = 2 := by rw [count, hA]; rfl
  have hcB : count bufB = 2 := by rw [count, hB]; rfl
  have hfl : n2.flights = flightsOf 0 bufA 0 2 ++ flightsOf 1 bufB 0 2 := by
    change [] ++ flightsOf 0 bufA 0 (count bufA) ++ flightsOf 1 bufB 0 (count bufB) = _
    rw [hcA, hcB]
    rfl
  have h1 := recv_part takeAll () n2.receiver bufA 0 (i := 0) (by decide) rfl (by rw [hA]; decide)
  let b1 := fill n2.receiver.xbuf (chunk fragSize bufA 0)
  let io1 : IoBasic := { n2.receiver with xh1 := n2.receiver.xh1 + 1, xbuf := b1 }
  have h2 := recv_whole takeAll (s := ()) io1 bufB 0 (i := 1) (by decide)
    rfl (by rw [hB]; decide) rfl
  let f1 : Flight := ⟨0, bufA, 0, fragment bufA 0 0⟩
  let f2 : Flight := ⟨1, bufB, 1, fragment bufB 0 1⟩
  let n3 := n2.accept f1 () io1 (.part false)
  have hf1 : n2.flights[0]? = some f1 := by
    rw [hfl]
    rfl
  have hf2 : n3.flights[3]? = some f2 := by
    change n2.flights[3]? = some f2
    rw [hfl]
    rfl
  have hs1 : Step takeAll n2 (.deliver 0) n3 := .deliver rfl hf1 h1
  have hs2 : Step takeAll n3 (.deliver 3) _ := .deliver rfl hf2 h2
  have hfitA : (chunk fragSize bufA 0).length ≤ n2.receiver.xbuf.spaces := by
    rw [chunk_bufA, List.length_replicate]
    exact show 1452 ≤ 3000 by decide
  have hfitB : (chunk fragSize bufB 1).length ≤ io1.xbuf.spaces := by
    change _ ≤ b1.spaces
    rw [fill_spaces hfitA, chunk_bufA, List.length_replicate, chunk_bufB]
    exact show 1 ≤ 3000 - 1452 by decide
  have hmix : (fill io1.xbuf (chunk fragSize bufB 1)).data = mixed := by
    rw [fill_data hfitB, chunk_bufB]
    change b1.data ++ _ = _
    rw [fill_data hfitA, chunk_bufA]
    rfl
  refine ⟨_, _, ((hrunA.append hrunB).snoc hs1).snoc hs2, rfl, [⟨f1, 3000⟩, ⟨f2, b1.spaces⟩], ?_⟩
  change [(⟨_, (fill io1.xbuf (chunk fragSize bufB 1)).data.drop 0⟩ : Delivery)] = _
  rw [hmix, List.drop_zero]
  rfl

theorem reassembly_mixed : ∃ ls n, Run (Step takeAll) (Net.init 1453 3000 ()) ls n ∧
    n.log ≠ [] ∧ ∀ d ∈ n.log, d.parts ≠ [] ∧
      (∀ j p, d.parts[j]? = some p → WellSent n.sent p.flight ∧ p.flight.idx = j ∧
        (p.flight.isLast ↔ j + 1 = d.parts.length)) ∧
      d.parts.map Part.flight <:+: n.received ∧
      d.added = (d.parts.map Part.kept).flatten ∧
      ∀ src data, n.sent[src]? = some data → (∀ p ∈ d.parts, p.flight.src = src ∧ p.fits) →
        d.added = data := by
  obtain ⟨ls, n, hrun, _, parts, hlog⟩ := run_mixed
  exact ⟨ls, n, hrun, by rw [hlog]; exact List.cons_ne_nil _ _, reassembly hrun⟩

/-- What `process_recvd` is given need not be a buffer that was sent. -/
theorem reassembly_not_sent : ¬ ∀ (ls : List Label) (n : Net Unit),
    Run (Step takeAll) (Net.init 1453 3000 ()) ls n → ∀ d ∈ n.log, d.added ∈ n.sent := by
  intro h
  obtain ⟨ls, n, hrun, hsent, parts, hlog⟩ := run_mixed
  have hmem := h ls n hrun ⟨parts, mixed⟩ (by rw [hlog]; exact List.mem_singleton.mpr rfl)
  rw [hsent] at hmem
  rcases List.mem_cons.mp hmem with h | h
  · have hlast := congrArg List.getLast? h
    rw [mixed, List.getLast?_concat, bufA, List.getLast?_replicate] at hlast
    exact absurd hlast (by decide)
  · have hfirst := congrArg List.head? (List.mem_singleton.mp h)
    rw [mixed, List.head?_append, List.head?_replicate, bufB, List.head?_replicate] at hfirst
    exact absurd hfirst (by decide)

end CppSnippets.Epoll.UdpNetwork
