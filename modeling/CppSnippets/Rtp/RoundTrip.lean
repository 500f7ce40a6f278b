import CppSnippets.Rtp.Receiver

/-!
# Packetising and receiving

NAL units put into RTP packets as single units, aggregated or in fragments, with
consecutive numbers, come out of the receiver as they were.
-/
namespace CppSnippets.Rtp.RoundTrip

open CppSnippets.Lib

/-- A NAL unit that may be sent in a packet of its own. -/
structure NalUnit where
  hdr : Byte
  payload : List Byte
  typed : 1 ≤ nalType hdr ∧ nalType hdr ≤ 23

def NalUnit.bytes (u : NalUnit) : List Byte := u.hdr :: u.payload

/-- One packetisation choice: a unit in a packet of its own, several units in an
aggregation packet under the header `ind`, or one unit in a first fragment, any
number of further ones and a last one. -/
inductive Choice where
  | single (u : NalUnit)
  | stapA (ind : Byte) (us : List NalUnit)
  | fuA (u : NalUnit) (first : List Byte) (middle : List (List Byte)) (last : List Byte)

/-- What a packetiser must respect; fragments may even be empty. -/
def Choice.Ok : Choice → Prop
  | .single _ => True
  | .stapA ind us => nalType ind = 24 ∧ ∀ u ∈ us, u.bytes.length < 0x10000
  | .fuA u first middle last => first ++ middle.flatten ++ last = u.payload

def Choice.units : Choice → List NalUnit
  | .single u => [u]
  | .stapA _ us => us
  | .fuA u _ _ _ => [u]

/-- The FU indicator: `f` and `nri` of the unit, type 28. -/
def fuInd (u : NalUnit) : Byte := .ofNat (28 + nalNri u.hdr * 32 + nalF u.hdr * 128)

def fuHdr (u : NalUnit) (s e : Bool) : Byte :=
  .ofNat (nalType u.hdr + (if e then 64 else 0) + (if s then 128 else 0))

def aggregated (u : NalUnit) : List Byte := be16 (.ofNat u.bytes.length) ++ u.bytes

/-- The payloads of the packets of a choice. -/
def Choice.payloads : Choice → List (List Byte)
  | .single u => [u.bytes]
  | .stapA ind us => [ind :: us.flatMap aggregated]
  | .fuA u first middle last =>
      (fuInd u :: fuHdr u true false :: first) ::
        (middle.map (fun m => fuInd u :: fuHdr u false false :: m) ++
          [fuInd u :: fuHdr u false true :: last])

/-- What the other fields of a packet's header are. -/
structure Meta where
  m : Bool
  pt : Fin 128
  timestamp : UInt32
  ssrc : UInt32
  csrc : List UInt32
  few : csrc.length ≤ 15

/-- An RTP packet of version 2 without padding and extension. -/
def encode (k : Meta) (seq : UInt16) (payload : List Byte) : List Byte :=
  [.ofNat (128 + k.csrc.length), .ofNat (k.pt + if k.m then 128 else 0)] ++ be16 seq ++
    be32 k.timestamp ++ be32 k.ssrc ++ k.csrc.flatMap be32 ++ payload

/-- The packets of a list of payloads, numbered from `seq` on. -/
def packetise (metas : Nat → Meta) : Nat → UInt16 → List (List Byte) → List (List Byte)
  | _, _, [] => []
  | i, seq, p :: ps => encode (metas i) seq p :: packetise metas (i + 1) (seq + 1) ps

def handleAll (r : Receiver) : List (List Byte) → Receiver × List Effect
  | [] => (r, [])
  | d :: ds =>
      let (r, es) := handleDatagram r d
      let (r, more) := handleAll r ds
      (r, es ++ more)

/-- What the sink is given, from the start code on. -/
def commits (es : List Effect) : List (List Byte) := (es.filterMap Effect.commit).map Block.body

@[simp] theorem commits_append (es more : List Effect) :
    commits (es ++ more) = commits es ++ commits more := by
  simp [commits]

def startCode : List Byte := [0, 0, 0, 1]

/-! ## Headers -/

theorem cast_encode (k : Meta) (seq : UInt16) (payload : List Byte) :
    ∃ h, RtpHeader.cast (encode k seq payload) = some h ∧ h.seq = seq ∧
      (encode k seq payload).drop h.length = payload := by
  have hfew := k.few
  have hcc : (UInt8.ofNat (128 + k.csrc.length)).toNat % 16 = k.csrc.length := by
    rw [UInt8.toNat_ofNat']
    omega
  have hlen : (k.csrc.flatMap be32).length = 4 * k.csrc.length := by
    simp [List.length_flatMap, Nat.mul_comm]
  let h : RtpHeader :=
    { cc := (UInt8.ofNat (128 + k.csrc.length)).toNat % 16
      x := (UInt8.ofNat (128 + k.csrc.length)).toNat / 16 % 2 = 1
      p := (UInt8.ofNat (128 + k.csrc.length)).toNat / 32 % 2 = 1
      version := (UInt8.ofNat (128 + k.csrc.length)).toNat / 64
      pt := (UInt8.ofNat (k.pt + if k.m then 128 else 0)).toNat % 128
      m := (UInt8.ofNat (k.pt + if k.m then 128 else 0)).toNat / 128 = 1
      seq := seq
      timestamp := k.timestamp / 10
      ssrc := k.ssrc }
  have hh : h.length = 12 + (k.csrc.flatMap be32).length := by
    change 12 + 4 * ((UInt8.ofNat (128 + k.csrc.length)).toNat % 16) = _
    rw [hcc, hlen]
  refine ⟨h, ?_, rfl, ?_⟩
  · have hroom : ¬ 12 + (k.csrc.flatMap be32 ++ payload).length < h.length := by
      rw [List.length_append]
      omega
    simp only [encode, be16, be32, List.cons_append, List.nil_append, RtpHeader.cast, ofBe16_be16,
      ofBe32_be32]
    exact if_neg hroom
  · have hfix : encode k seq payload = ([.ofNat (128 + k.csrc.length),
        .ofNat (k.pt + if k.m then 128 else 0)] ++ be16 seq ++ be32 k.timestamp ++ be32 k.ssrc ++
        k.csrc.flatMap be32) ++ payload := rfl
    rw [hfix]
    apply List.drop_left'
    rw [hh]
    simp
    omega

theorem handle_encode (r : Receiver) (k : Meta) (seq : UInt16) (payload : List Byte) :
    ∃ h, handleDatagram r (encode k seq payload) =
      (⟨seq.toNat + 1, (naluIncoming r.bufp h (continues r.expseq seq.toNat) payload).1⟩,
        (naluIncoming r.bufp h (continues r.expseq seq.toNat) payload).2) := by
  obtain ⟨h, hcast, hseq, hdrop⟩ := cast_encode k seq payload
  refine ⟨h, ?_⟩
  unfold handleDatagram
  rw [hcast]
  simp only [hdrop, hseq]

theorem nalType_fuInd (u : NalUnit) : nalType (fuInd u) = 28 := by
  have := u.hdr.toNat_lt
  simp only [nalType, fuInd, nalNri, nalF, UInt8.toNat_ofNat']
  omega

/-- The header rewritten in place is the header of the unit. -/
theorem nalOfFu_fuInd (u : NalUnit) : nalOfFu (fuInd u) (fuHdr u true false) = u.hdr := by
  have := u.hdr.toNat_lt
  apply UInt8.toNat_inj.mp
  simp only [nalOfFu, nalType, nalNri, nalF, fuInd, fuHdr, UInt8.toNat_ofNat', Bool.false_eq_true,
    if_false, if_true]
  omega

theorem fuS_fuHdr (u : NalUnit) (s e : Bool) : fuS (fuHdr u s e) = s := by
  have := u.hdr.toNat_lt
  simp only [fuS, fuHdr, nalType, UInt8.toNat_ofNat']
  cases s <;> cases e <;> simp <;> omega

theorem fuE_fuHdr (u : NalUnit) (s e : Bool) : fuE (fuHdr u s e) = e := by
  have := u.hdr.toNat_lt
  simp only [fuE, fuHdr, nalType, UInt8.toNat_ofNat']
  cases s <;> cases e <;> simp <;> omega

/-! ## The three kinds of packets -/

theorem mbuffer_body (h : RtpHeader) (u : NalUnit) :
    (mbuffer h u.hdr u.payload).body = startCode ++ u.bytes := by
  rw [mbuffer, Block.put_body]
  rfl

theorem stapA_units (h : RtpHeader) (us : List NalUnit)
    (hus : ∀ u ∈ us, u.bytes.length < 0x10000) :
    commits (stapA h (us.flatMap aggregated)) = us.map fun u => startCode ++ u.bytes := by
  induction us with
  | nil =>
    rw [List.flatMap_nil, stapA]
    · rfl
    · exact fun _ _ _ h => by cases h
  | cons u us ih =>
    have hlen : (UInt16.ofNat u.bytes.length).toNat = u.bytes.length :=
      UInt16.toNat_ofNat_of_lt' (hus u List.mem_cons_self)
    have ih := ih fun v hv => hus v (List.mem_cons_of_mem _ hv)
    have htake : (u.bytes ++ us.flatMap aggregated).take u.bytes.length = u.hdr :: u.payload :=
      List.take_left
    have hdrop : (u.bytes ++ us.flatMap aggregated).drop u.bytes.length = us.flatMap aggregated :=
      List.drop_left
    have hroom : ¬ u.bytes.length > (u.bytes ++ us.flatMap aggregated).length := by
      rw [List.length_append]
      omega
    have hstap : stapA h ((u :: us).flatMap aggregated) =
        .sinkCommit (mbuffer h u.hdr u.payload) :: stapA h (us.flatMap aggregated) := by
      rw [List.flatMap_cons, aggregated, be16, List.append_assoc, List.cons_append,
        List.cons_append, List.nil_append, stapA, ofBe16_be16, hlen, if_neg hroom]
      simp only [htake, hdrop]
    rw [hstap, List.map_cons, ← mbuffer_body h u, ← ih]
    rfl

theorem nalu_single (bufp : Option Block) (h : RtpHeader) (c : Bool) (u : NalUnit) :
    (naluIncoming bufp h c u.bytes).1 = bufp ∧
      commits (naluIncoming bufp h c u.bytes).2 = [startCode ++ u.bytes] := by
  have ht := u.typed
  rw [NalUnit.bytes, naluIncoming, if_neg (by omega), if_neg (by omega), if_pos (by omega)]
  exact ⟨rfl, congrArg (fun b => [b]) (mbuffer_body h u)⟩

/-- A fragment behind what is assembled: only the end bit hands anything on. -/
theorem fuAppend_spec (b : Block) (h : RtpHeader) (fu h3 : Byte) (rest : List Byte) :
    (fuE fu = true → (fuAppend b h fu h3 rest).1 = none ∧
      commits (fuAppend b h fu h3 rest).2 = [b.body ++ rest]) ∧
    (fuE fu = false → (fuAppend b h fu h3 rest).1 = some (b.put rest) ∧
      commits (fuAppend b h fu h3 rest).2 = []) := by
  refine ⟨fun he => ?_, fun he => ?_⟩
  · simp only [fuAppend, he, if_true]
    exact ⟨trivial, congrArg (fun b => [b]) (Block.put_body b rest)⟩
  · simp only [fuAppend, he]
    exact ⟨rfl, rfl⟩

theorem nalu_first (bufp : Option Block) (h : RtpHeader) (c : Bool) (u : NalUnit)
    (first : List Byte) : ∃ b,
    (naluIncoming bufp h c (fuInd u :: fuHdr u true false :: first)).1 = some b ∧
      b.body = startCode ++ u.hdr :: first ∧
      commits (naluIncoming bufp h c (fuInd u :: fuHdr u true false :: first)).2 = [] := by
  obtain ⟨hb, hc⟩ := (fuAppend_spec (.init h u.hdr) h (fuHdr u true false) u.hdr first).2
    (fuE_fuHdr u true false)
  rw [naluIncoming, nalType_fuInd, if_neg (by decide), if_pos rfl]
  simp only [fuA, fuS_fuHdr, nalOfFu_fuInd, if_true]
  refine ⟨_, hb, ?_, hc⟩
  rw [Block.put_body]
  rfl

theorem nalu_more (b : Block) (h : RtpHeader) (u : NalUnit) (e : Bool) (data : List Byte) :
    naluIncoming (some b) h true (fuInd u :: fuHdr u false e :: data) =
      fuAppend b h (fuHdr u false e) (fuHdr u false e) data := by
  rw [naluIncoming, nalType_fuInd, if_neg (by decide), if_pos rfl]
  simp only [fuA, fuS_fuHdr]
  rfl

/-! ## Runs -/

theorem handleAll_cons (r : Receiver) (d : List Byte) (ds : List (List Byte)) :
    handleAll r (d :: ds) = ((handleAll (handleDatagram r d).1 ds).1,
      (handleDatagram r d).2 ++ (handleAll (handleDatagram r d).1 ds).2) := rfl

theorem handleAll_append (ds more : List (List Byte)) : ∀ r : Receiver,
    handleAll r (ds ++ more) =
      ((handleAll (handleAll r ds).1 more).1,
        (handleAll r ds).2 ++ (handleAll (handleAll r ds).1 more).2) := by
  induction ds with
  | nil => exact fun r => rfl
  | cons d ds ih =>
    intro r
    simp only [List.cons_append, handleAll, ih, List.append_assoc]

theorem packetise_append (metas : Nat → Meta) (ps qs : List (List Byte)) :
    ∀ (i : Nat) (seq : UInt16), packetise metas i seq (ps ++ qs) =
      packetise metas i seq ps ++
        packetise metas (i + ps.length) (seq + UInt16.ofNat ps.length) qs := by
  induction ps with
  | nil => intro i seq; simp [packetise]
  | cons p ps ih =>
    intro i seq
    rw [List.cons_append, packetise, packetise, ih, List.cons_append, List.length_cons,
      UInt16.ofNat_add, Nat.add_right_comm, Nat.add_assoc, UInt16.add_assoc,
      UInt16.add_comm (UInt16.ofNat ps.length)]
    rfl

/-- Consecutive numbers are continuous, across the wrap too. -/
theorem continues_next (seq : UInt16) : continues (seq.toNat + 1) (seq + 1).toNat = true := by
  have h : (seq + 1).toNat = (seq.toNat + 1) % 0x10000 := by
    rw [UInt16.toNat_add]
    rfl
  simp [continues, h]

/-- The receiver after the packets, and what the sink was given. -/
def Delivers (r : Receiver) (ds : List (List Byte)) (bodies : List (List Byte)) : Prop :=
  (handleAll r ds).1.bufp = none ∧ commits (handleAll r ds).2 = bodies

/-- The fragments after the first: what is assembled grows by each of them. -/
theorem run_middle (metas : Nat → Meta) (u : NalUnit) (last : List Byte)
    (middle : List (List Byte)) : ∀ (i : Nat) (seq : UInt16) (r : Receiver) (b : Block),
    r.bufp = some b → r.expseq = seq.toNat + 1 →
    Delivers r (packetise metas i (seq + 1)
        (middle.map (fun m => fuInd u :: fuHdr u false false :: m) ++
          [fuInd u :: fuHdr u false true :: last]))
      [b.body ++ middle.flatten ++ last] := by
  induction middle with
  | nil =>
    intro i seq r b hb hexp
    obtain ⟨h, hd⟩ := handle_encode r (metas i) (seq + 1) (fuInd u :: fuHdr u false true :: last)
    rw [hexp, continues_next, hb, nalu_more] at hd
    obtain ⟨hn, hc⟩ := (fuAppend_spec b h (fuHdr u false true) (fuHdr u false true) last).1
      (fuE_fuHdr u false true)
    rw [hn] at hd
    rw [Delivers, List.map_nil, List.nil_append, packetise, handleAll_cons, hd]
    exact ⟨rfl, by rw [commits_append, hc, List.flatten_nil, List.append_nil]; rfl⟩
  | cons m middle ih =>
    intro i seq r b hb hexp
    obtain ⟨h, hd⟩ := handle_encode r (metas i) (seq + 1) (fuInd u :: fuHdr u false false :: m)
    rw [hexp, continues_next, hb, nalu_more] at hd
    obtain ⟨hn, hc⟩ := (fuAppend_spec b h (fuHdr u false false) (fuHdr u false false) m).2
      (fuE_fuHdr u false false)
    obtain ⟨hr', hes⟩ := ih (i + 1) (seq + 1) ⟨(seq + 1).toNat + 1, some (b.put m)⟩ (b.put m)
      rfl rfl
    rw [hn] at hd
    rw [Delivers, List.map_cons, List.cons_append, packetise, handleAll_cons, hd]
    refine ⟨hr', ?_⟩
    rw [commits_append, hc, hes, Block.put_body, List.nil_append, List.flatten_cons,
      List.append_assoc b.body]

/-- One packetisation choice: its units reach the sink and nothing is left. -/
theorem run_choice (metas : Nat → Meta) {c : Choice} (hc : c.Ok) (i : Nat) (seq : UInt16)
    {r : Receiver} (hr : r.bufp = none) :
    Delivers r (packetise metas i seq c.payloads) (c.units.map fun u => startCode ++ u.bytes) := by
  cases c with
  | single u =>
    obtain ⟨h, hd⟩ := handle_encode r (metas i) seq u.bytes
    obtain ⟨hn, hcs⟩ := nalu_single r.bufp h (continues r.expseq seq.toNat) u
    rw [Delivers, Choice.payloads, packetise, handleAll_cons, hd]
    exact ⟨hn.trans hr, by rw [commits_append, hcs]; rfl⟩
  | stapA ind us =>
    obtain ⟨hind, hus⟩ := hc
    obtain ⟨h, hd⟩ := handle_encode r (metas i) seq (ind :: us.flatMap aggregated)
    rw [naluIncoming, if_pos hind] at hd
    rw [Delivers, Choice.payloads, packetise, handleAll_cons, hd]
    exact ⟨hr, by rw [commits_append, stapA_units h us hus]; exact List.append_nil _⟩
  | fuA u first middle last =>
    have hpayload : first ++ middle.flatten ++ last = u.payload := hc
    obtain ⟨h, hd⟩ := handle_encode r (metas i) seq (fuInd u :: fuHdr u true false :: first)
    obtain ⟨b, hb, hbody, hcs⟩ := nalu_first r.bufp h (continues r.expseq seq.toNat) u first
    rw [hb] at hd
    obtain ⟨hr', hes⟩ :=
      run_middle metas u last middle (i + 1) seq ⟨seq.toNat + 1, some b⟩ b rfl rfl
    rw [Delivers, Choice.payloads, packetise, handleAll_cons, hd]
    refine ⟨hr', ?_⟩
    rw [commits_append, hcs, hes, hbody]
    simp [Choice.units, NalUnit.bytes, ← hpayload]

/-- Whatever the choices, numbers and headers, the sink receives the units that
were sent. -/
theorem rtp_lossless (metas : Nat → Meta) (cs : List Choice) (hcs : ∀ c ∈ cs, c.Ok) :
    ∀ (i : Nat) (seq : UInt16) (r : Receiver), r.bufp = none →
      commits (handleAll r (packetise metas i seq (cs.flatMap Choice.payloads))).2 =
        (cs.flatMap Choice.units).map fun u => startCode ++ u.bytes := by
  induction cs with
  | nil => exact fun i seq r _ => rfl
  | cons c cs ih =>
    intro i seq r hr
    obtain ⟨hr', hes⟩ := run_choice metas (hcs c List.mem_cons_self) i seq hr
    have ih := ih fun c hc => hcs c (List.mem_cons_of_mem _ hc)
    rw [List.flatMap_cons, packetise_append, handleAll_append, commits_append, hes, ih _ _ _ hr',
      List.flatMap_cons, List.map_append]

/-- Every kind of packet once, across the wrap of the numbers. -/
theorem rtp_lossless_wrap : commits (handleAll .init
    (packetise (fun i => ⟨i = 4, 96, .ofNat i, 7, [1, 2], by decide⟩) 0 0xfffe
      ([.single ⟨0x67, [9], by decide⟩,
        .stapA 0x78 [⟨0x68, [], by decide⟩, ⟨0x06, [5, 6], by decide⟩],
        .fuA ⟨0x65, [1, 2, 3], by decide⟩ [1] [[2]] [3]].flatMap Choice.payloads))).2 =
    [[0, 0, 0, 1, 0x67, 9], [0, 0, 0, 1, 0x68], [0, 0, 0, 1, 0x06, 5, 6],
      [0, 0, 0, 1, 0x65, 1, 2, 3]] := by
  refine rtp_lossless _ _ (fun c hc => ?_) 0 0xfffe .init rfl
  simp only [List.mem_cons, List.not_mem_nil, or_false] at hc
  rcases hc with rfl | rfl | rfl
  · trivial
  · exact ⟨by decide, by decide⟩
  · rfl

end CppSnippets.Rtp.RoundTrip
