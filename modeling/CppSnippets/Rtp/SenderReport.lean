import CppSnippets.Rtp.Packet

/-!
# Sender reports

`rtcp_client::handle_receive_from` casts the headers of a report onto the buffer that
every datagram is received into, and swaps their fields in place. Nothing is cleared
between two datagrams, so that what lies behind a datagram was left by earlier ones.
The host is little-endian.
-/
namespace CppSnippets.Rtp

open CppSnippets.Lib

/-! ## The receive buffer -/

/-- The buffer, and the offsets in it that were read or written. -/
structure RtcpMem where
  bytes : Nat → Byte
  touched : List Nat

/-- The bytes from an offset on, the other way round. -/
def reverseAt (o len : Nat) (b : Nat → Byte) : Nat → Byte :=
  fun i => if o ≤ i ∧ i < o + len then b (2 * o + len - 1 - i) else b i

theorem reverseAt_other {o len i : Nat} (b : Nat → Byte) (h : i < o ∨ o + len ≤ i) :
    reverseAt o len b i = b i := by
  refine if_neg ?_
  omega

def readAt (o : Nat) (m : RtcpMem) : Byte × RtcpMem :=
  (m.bytes o, { m with touched := m.touched ++ [o] })

/-- A field is set to `ntohs` of itself. -/
def ntohsAt (o : Nat) (m : RtcpMem) : UInt16 × RtcpMem :=
  (ofBe16 (m.bytes o) (m.bytes (o + 1)), ⟨reverseAt o 2 m.bytes, m.touched ++ [o, o + 1]⟩)

/-- A field is set to `ntohl` of itself. -/
def ntohlAt (o : Nat) (m : RtcpMem) : UInt32 × RtcpMem :=
  (ofBe32 (m.bytes o) (m.bytes (o + 1)) (m.bytes (o + 2)) (m.bytes (o + 3)),
    ⟨reverseAt o 4 m.bytes, m.touched ++ [o, o + 1, o + 2, o + 3]⟩)

/-! ## The headers -/

/-- `rtcp_header::cast`, with the length field. -/
def rtcpHeaderCast (size : Nat) (m : RtcpMem) : Option UInt16 × RtcpMem :=
  if size < 4 then (none, m)
  else
    let (length, m) := ntohsAt 2 m
    (if size - 4 < length.toNat then none else some length, m)

structure SrSenderInfo where
  ssrc : UInt32
  ntpmsw : UInt32
  ntplsw : UInt32
  rtpts : UInt32
  spc : UInt32
  soc : UInt32

/-- `rtcp_sr_sender_info::cast`; the end of the datagram is not looked at. -/
def srSenderInfoCast (o : Nat) (m : RtcpMem) : SrSenderInfo × RtcpMem :=
  let (ssrc, m) := ntohlAt o m
  let (ntpmsw, m) := ntohlAt (o + 4) m
  let (ntplsw, m) := ntohlAt (o + 8) m
  let (rtpts, m) := ntohlAt (o + 12) m
  let (spc, m) := ntohlAt (o + 16) m
  let (soc, m) := ntohlAt (o + 20) m
  (⟨ssrc, ntpmsw, ntplsw, rtpts, spc, soc⟩, m)

/-! ## `rtcp_client` -/

/-- What the next report repeats of the last sender report: `rr_.rb.ssrc` and
`rr_.rb.lsr` as they are sent, and `ts_sr_`. -/
structure LastSr where
  ssrc : List Byte
  lsr : List Byte
  tsSr : Int
  deriving DecidableEq

inductive Handled
  | exit
  | nothing
  | senderReport (r : LastSr)

/-- `handle_receive_from` without `rreport`, which touches neither the buffer nor
what is kept of the last sender report. -/
def handleReceiveFrom (bytesRecvd : Nat) (stimestamp : Int) (m : RtcpMem) : Handled × RtcpMem :=
  if bytesRecvd = 0 then (.nothing, m)
  else
    match rtcpHeaderCast bytesRecvd m with
    | (none, m) => (.exit, m)
    | (some _, m) =>
      let (pt, m) := readAt 1 m
      if pt = 200 then
        let (si, m) := srSenderInfoCast 4 m
        (.senderReport ⟨be32 si.ssrc,
          be32 (((si.ntpmsw &&& 0xFFFF) <<< 16) ||| ((si.ntplsw >>> 16) &&& 0xFFFF)),
          stimestamp⟩, m)
      else (.nothing, m)

/-- `BufSiz` -/
def rtcpBufSiz : Nat := 1024 * 4

structure RtcpEvent where
  datagram : List Byte
  stimestamp : Int

/-- What a receive into the buffer delivers of a datagram. -/
def RtcpEvent.data (e : RtcpEvent) : List Byte := e.datagram.take rtcpBufSiz

/-- What `rtcp_client` holds that a receive changes. -/
structure RtcpReception where
  buf : Nat → Byte
  rr : LastSr

/-- The buffer after a receive: a datagram overwrites what is in its place. -/
def receivedInto (b : Nat → Byte) (d : List Byte) : Nat → Byte := fun i => d.getD i (b i)

def RtcpReception.handle (c : RtcpReception) (e : RtcpEvent) : Handled × RtcpMem :=
  handleReceiveFrom e.data.length e.stimestamp ⟨receivedInto c.buf e.data, []⟩

/-- One datagram; nothing comes after `ERR_EXIT`. -/
def RtcpReception.step (c : RtcpReception) (e : RtcpEvent) : Option RtcpReception :=
  match c.handle e with
  | (.exit, _) => none
  | (.nothing, m) => some ⟨m.bytes, c.rr⟩
  | (.senderReport r, m) => some ⟨m.bytes, r⟩

/-! ## What one datagram does -/

def octet (d : List Byte) (i : Nat) : Byte := d.getD i 0

def lengthField (d : List Byte) : Nat := (ofBe16 (octet d 2) (octet d 3)).toNat

/-- `rtcp_header::cast` refuses it. -/
def Refused (d : List Byte) : Prop := 0 < d.length ∧ (d.length < 4 ∨ d.length - 4 < lengthField d)

/-- It is taken for a sender report. -/
def TakenAsSr (d : List Byte) : Prop :=
  4 ≤ d.length ∧ lengthField d ≤ d.length - 4 ∧ octet d 1 = 200

/-- The length field and the size cover the sender info. -/
def CoversSr (d : List Byte) : Prop := 28 ≤ d.length ∧ 24 ≤ 4 * lengthField d

instance (d : List Byte) : Decidable (Refused d) := inferInstanceAs (Decidable (_ ∧ _))
instance (d : List Byte) : Decidable (TakenAsSr d) := inferInstanceAs (Decidable (_ ∧ _))

theorem low16 (x : UInt32) : (x &&& 0xFFFF).toNat = x.toNat % 65536 := by
  rw [UInt32.toNat_and]
  exact Nat.and_two_pow_sub_one_eq_mod x.toNat 16

theorem high16 (x : UInt32) : (x >>> 16).toNat = x.toNat / 65536 := by
  rw [UInt32.toNat_shiftRight]
  exact Nat.shiftRight_eq_div_pow x.toNat 16

theorem joined16 (x y : UInt32) (hx : x.toNat < 65536) (hy : y.toNat < 65536) :
    ((x <<< 16) ||| y).toNat = x.toNat * 65536 + y.toNat := by
  have hshift : (x <<< 16).toNat = x.toNat <<< 16 := by
    rw [UInt32.toNat_shiftLeft]
    refine Nat.mod_eq_of_lt ?_
    change x.toNat <<< 16 < 2 ^ 32
    rw [Nat.shiftLeft_eq]
    omega
  rw [UInt32.toNat_or, hshift, ← Nat.shiftLeft_add_eq_or_of_lt hy, Nat.shiftLeft_eq]

/-- The middle of the 64 bits of an NTP time. -/
theorem lsr_eq (a b c d e f g h : Byte) :
    ((ofBe32 a b c d &&& 0xFFFF) <<< 16) ||| ((ofBe32 e f g h >>> 16) &&& 0xFFFF) =
      ofBe32 c d e f := by
  have hc := c.toNat_lt
  have hd := d.toNat_lt
  have he := e.toNat_lt
  have hf := f.toNat_lt
  have hg := g.toNat_lt
  have hh := h.toNat_lt
  have hhigh : (ofBe32 a b c d &&& 0xFFFF).toNat = c.toNat * 256 + d.toNat := by
    rw [low16, ofBe32, UInt32.toNat_ofNat']
    omega
  have hlow : ((ofBe32 e f g h >>> 16) &&& 0xFFFF).toNat = e.toNat * 256 + f.toNat := by
    rw [low16, high16, ofBe32, UInt32.toNat_ofNat']
    omega
  apply UInt32.toNat_inj.mp
  rw [joined16 _ _ (by omega) (by omega), hhigh, hlow, ofBe32, UInt32.toNat_ofNat']
  omega

theorem receivedInto_lt {b : Nat → Byte} {d : List Byte} {i : Nat} (h : i < d.length) :
    receivedInto b d i = octet d i := by
  rw [receivedInto, octet, List.getD_eq_getElem _ _ h, List.getD_eq_getElem _ _ h]

/-- The report that a buffer holds. -/
def reportIn (b : Nat → Byte) (stimestamp : Int) : LastSr :=
  ⟨[b 4, b 5, b 6, b 7], [b 10, b 11, b 12, b 13], stimestamp⟩

variable {n : Nat} {m : RtcpMem} {t : Int}

theorem handleReceiveFrom_short (h0 : n ≠ 0) (h : n < 4) :
    handleReceiveFrom n t m = (.exit, m) := by
  rw [handleReceiveFrom, if_neg h0, rtcpHeaderCast, if_pos h]

theorem rtcpHeaderCast_eq (h : 4 ≤ n) :
    rtcpHeaderCast n m =
      (if n - 4 < (ofBe16 (m.bytes 2) (m.bytes 3)).toNat then none
        else some (ofBe16 (m.bytes 2) (m.bytes 3)),
        ⟨reverseAt 2 2 m.bytes, m.touched ++ [2, 3]⟩) := by
  rw [rtcpHeaderCast, if_neg (Nat.not_lt.mpr h)]
  rfl

theorem handleReceiveFrom_refused (h : 4 ≤ n)
    (hlen : n - 4 < (ofBe16 (m.bytes 2) (m.bytes 3)).toNat) :
    handleReceiveFrom n t m = (.exit, ⟨reverseAt 2 2 m.bytes, m.touched ++ [2, 3]⟩) := by
  have h0 : n ≠ 0 := by omega
  rw [handleReceiveFrom, if_neg h0, rtcpHeaderCast_eq h, if_pos hlen]

/-- The packet type is not among the bytes swapped before it is read. -/
theorem readAt_pt (b : Nat → Byte) (l : List Nat) :
    readAt 1 ⟨reverseAt 2 2 b, l⟩ = (b 1, ⟨reverseAt 2 2 b, l ++ [1]⟩) := by
  refine Prod.ext ?_ rfl
  change reverseAt 2 2 b 1 = b 1
  exact reverseAt_other b (by omega)

theorem handleReceiveFrom_other (h : 4 ≤ n)
    (hlen : ¬n - 4 < (ofBe16 (m.bytes 2) (m.bytes 3)).toNat) (hpt : m.bytes 1 ≠ 200) :
    handleReceiveFrom n t m =
      (.nothing, ⟨reverseAt 2 2 m.bytes, m.touched ++ [2, 3] ++ [1]⟩) := by
  have h0 : n ≠ 0 := by omega
  rw [handleReceiveFrom, if_neg h0, rtcpHeaderCast_eq h, if_neg hlen]
  simp only [readAt_pt, if_neg hpt]

/-- The four words of a sender info are those that were in its place. -/
theorem srSenderInfoCast_eq (m : RtcpMem) :
    (srSenderInfoCast 4 m).1.ssrc = ofBe32 (m.bytes 4) (m.bytes 5) (m.bytes 6) (m.bytes 7) ∧
      (srSenderInfoCast 4 m).1.ntpmsw =
        ofBe32 (m.bytes 8) (m.bytes 9) (m.bytes 10) (m.bytes 11) ∧
      (srSenderInfoCast 4 m).1.ntplsw =
        ofBe32 (m.bytes 12) (m.bytes 13) (m.bytes 14) (m.bytes 15) ∧
      (srSenderInfoCast 4 m).2.touched = m.touched ++ (List.range 24).map (4 + ·) := by
  refine ⟨rfl, ?_, ?_, ?_⟩
  · simp [srSenderInfoCast, ntohlAt, reverseAt_other]
  · simp [srSenderInfoCast, ntohlAt, reverseAt_other]
  · simp [srSenderInfoCast, ntohlAt]
    decide

theorem handleReceiveFrom_sr (h : 4 ≤ n)
    (hlen : ¬n - 4 < (ofBe16 (m.bytes 2) (m.bytes 3)).toNat) (hpt : m.bytes 1 = 200) :
    ∃ b, handleReceiveFrom n t m =
      (.senderReport (reportIn m.bytes t),
        ⟨b, m.touched ++ [2, 3] ++ [1] ++ (List.range 24).map (4 + ·)⟩) := by
  have h0 : n ≠ 0 := by omega
  obtain ⟨hssrc, hmsw, hlsw, htouched⟩ :=
    srSenderInfoCast_eq ⟨reverseAt 2 2 m.bytes, m.touched ++ [2, 3] ++ [1]⟩
  refine ⟨(srSenderInfoCast 4 ⟨reverseAt 2 2 m.bytes, m.touched ++ [2, 3] ++ [1]⟩).2.bytes, ?_⟩
  rw [handleReceiveFrom, if_neg h0, rtcpHeaderCast_eq h, if_neg hlen]
  simp only [readAt_pt, if_pos hpt, hssrc, hmsw, hlsw, lsr_eq, be32_ofBe32, ← htouched]
  simp [reverseAt_other, reportIn]

/-! ## Datagrams one after the other -/

variable {c : RtcpReception} {e : RtcpEvent}

theorem received_length (c : RtcpReception) {d : List Byte} (h : 4 ≤ d.length) :
    (ofBe16 (receivedInto c.buf d 2) (receivedInto c.buf d 3)).toNat = lengthField d := by
  rw [receivedInto_lt (by omega), receivedInto_lt (by omega), lengthField]

theorem handle_refused (h : Refused e.data) :
    (c.handle e).1 = .exit ∧ ∀ o ∈ (c.handle e).2.touched, o < e.data.length := by
  obtain ⟨h0, h⟩ := h
  by_cases h4 : e.data.length < 4
  · rw [RtcpReception.handle, handleReceiveFrom_short (by omega) h4]
    refine ⟨rfl, fun o ho => ?_⟩
    simp only [List.not_mem_nil] at ho
  · have hlen := h.resolve_left h4
    rw [← received_length c (by omega)] at hlen
    rw [RtcpReception.handle,
      handleReceiveFrom_refused (m := ⟨receivedInto c.buf e.data, []⟩) (by omega) hlen]
    refine ⟨rfl, fun o ho => ?_⟩
    simp only [List.nil_append, List.mem_cons, List.not_mem_nil, or_false] at ho
    omega

theorem handle_nothing (hr : ¬Refused e.data) (hs : ¬TakenAsSr e.data) :
    (c.handle e).1 = .nothing ∧ ∀ o ∈ (c.handle e).2.touched, o < e.data.length := by
  by_cases h0 : e.data.length = 0
  · rw [RtcpReception.handle, h0, handleReceiveFrom, if_pos rfl]
    refine ⟨rfl, fun o ho => ?_⟩
    simp only [List.not_mem_nil] at ho
  · have h4 : 4 ≤ e.data.length := by
      by_contra h
      exact hr ⟨by omega, .inl (by omega)⟩
    have hlen : ¬e.data.length - 4 < lengthField e.data := fun h => hr ⟨by omega, .inr h⟩
    have hpt : octet e.data 1 ≠ 200 := fun h => hs ⟨h4, by omega, h⟩
    rw [← received_length c h4] at hlen
    rw [← receivedInto_lt (b := c.buf) (by omega)] at hpt
    rw [RtcpReception.handle,
      handleReceiveFrom_other (m := ⟨receivedInto c.buf e.data, []⟩) h4 hlen hpt]
    refine ⟨rfl, fun o ho => ?_⟩
    simp only [List.nil_append, List.mem_append, List.mem_cons, List.not_mem_nil, or_false] at ho
    omega

theorem handle_sr (h : TakenAsSr e.data) :
    (c.handle e).1 = .senderReport (reportIn (receivedInto c.buf e.data) e.stimestamp) ∧
      (c.handle e).2.touched = [2, 3, 1] ++ (List.range 24).map (4 + ·) := by
  obtain ⟨h4, hlen, hpt⟩ := h
  have hlen' : ¬e.data.length - 4 < lengthField e.data := by omega
  rw [← received_length c h4] at hlen'
  rw [← receivedInto_lt (b := c.buf) (by omega)] at hpt
  obtain ⟨b, hb⟩ := handleReceiveFrom_sr (m := ⟨receivedInto c.buf e.data, []⟩)
    (t := e.stimestamp) h4 hlen' hpt
  rw [RtcpReception.handle, hb]
  exact ⟨rfl, rfl⟩

/-- What is kept of a sender report, said of its bytes. -/
def lastSrAfter (r : LastSr) (e : RtcpEvent) : LastSr :=
  if TakenAsSr e.data then reportIn (octet e.data) e.stimestamp else r

/-- A run over some datagrams, which ends early if the program exits. -/
def RtcpReception.run (c : RtcpReception) (es : List RtcpEvent) : Option RtcpReception :=
  es.foldlM RtcpReception.step c

/-- What is asked of the reception of a sequence of datagrams. -/
structure OnlyReceived (c : RtcpReception) (es : List RtcpEvent) : Prop where
  /-- No byte behind the datagram is read or swapped. -/
  within : ∀ before e after, es = before ++ e :: after → ∀ c', c.run before = some c' →
    ∀ o ∈ (c'.handle e).2.touched, o < e.data.length
  /-- What is stored comes from a datagram that holds the whole sender info. -/
  covered : ∀ before e after, es = before ++ e :: after → ∀ c', c.run before = some c' →
    ∀ r, (c'.handle e).1 = .senderReport r → CoversSr e.data
  /-- What is stored is that of the datagrams. -/
  stored : ∀ before after, es = before ++ after → ∀ c', c.run before = some c' →
    c'.rr = before.foldl lastSrAfter c.rr

/-- The datagrams that are handled, if none of those before them ends the program. -/
def HandledIn (es : List RtcpEvent) (e : RtcpEvent) : Prop :=
  ∃ before after, es = before ++ e :: after ∧ ∀ x ∈ before, ¬Refused x.data

/-- It is no sender report, or a whole one. -/
def SrWhole (d : List Byte) : Prop := TakenAsSr d → CoversSr d

theorem step_sr (h : TakenAsSr e.data) :
    ∃ b, c.step e = some ⟨b, reportIn (receivedInto c.buf e.data) e.stimestamp⟩ := by
  obtain ⟨hout, -⟩ := handle_sr (c := c) h
  rcases hx : c.handle e with ⟨out, m⟩
  rw [hx] at hout
  subst hout
  refine ⟨m.bytes, ?_⟩
  rw [RtcpReception.step, hx]

theorem step_nothing (hr : ¬Refused e.data) (hs : ¬TakenAsSr e.data) :
    ∃ b, c.step e = some ⟨b, c.rr⟩ := by
  obtain ⟨hout, -⟩ := handle_nothing (c := c) hr hs
  rcases hx : c.handle e with ⟨out, m⟩
  rw [hx] at hout
  subst hout
  refine ⟨m.bytes, ?_⟩
  rw [RtcpReception.step, hx]

theorem step_refused (h : Refused e.data) : c.step e = none := by
  obtain ⟨hout, -⟩ := handle_refused (c := c) h
  rcases hx : c.handle e with ⟨out, m⟩
  rw [hx] at hout
  subst hout
  rw [RtcpReception.step, hx]

theorem TakenAsSr.not_refused (h : TakenAsSr e.data) : ¬Refused e.data := by
  intro hr
  obtain ⟨h4, hlen, -⟩ := h
  obtain ⟨-, hr⟩ := hr
  omega

/-- A run gets through exactly the datagrams that are not refused. -/
theorem run_eq_some {es : List RtcpEvent} :
    (∃ c', c.run es = some c') ↔ ∀ x ∈ es, ¬Refused x.data := by
  induction es generalizing c with
  | nil => exact ⟨fun _ x hx => (nomatch hx), fun _ => ⟨c, rfl⟩⟩
  | cons e es ih =>
    rw [RtcpReception.run, List.foldlM_cons, List.forall_mem_cons]
    by_cases hr : Refused e.data
    · rw [step_refused hr]
      exact ⟨fun ⟨_, h⟩ => (nomatch h), fun h => absurd hr h.1⟩
    · have hstep : ∃ c₁, c.step e = some c₁ := by
        by_cases hs : TakenAsSr e.data
        · obtain ⟨b, hb⟩ := step_sr (c := c) hs
          exact ⟨_, hb⟩
        · obtain ⟨b, hb⟩ := step_nothing (c := c) hr hs
          exact ⟨_, hb⟩
      obtain ⟨c₁, hc₁⟩ := hstep
      rw [hc₁]
      exact (ih (c := c₁)).trans (and_iff_right hr).symm

/-- The bytes that are stored are the datagram's own if it is long enough. -/
theorem reportIn_received {b : Nat → Byte} {d : List Byte} (h : 28 ≤ d.length) :
    reportIn (receivedInto b d) = reportIn (octet d) := by
  funext t
  simp only [reportIn]
  repeat rw [receivedInto_lt (by omega)]

theorem step_stored (hw : SrWhole e.data) {c' : RtcpReception} (h : c.step e = some c') :
    c'.rr = lastSrAfter c.rr e := by
  have hr : ¬Refused e.data := by
    intro hr
    rw [step_refused hr] at h
    cases h
  by_cases hs : TakenAsSr e.data
  · obtain ⟨b, hb⟩ := step_sr (c := c) hs
    rw [hb] at h
    cases h
    rw [lastSrAfter, if_pos hs, reportIn_received (hw hs).1]
  · obtain ⟨b, hb⟩ := step_nothing (c := c) hr hs
    rw [hb] at h
    cases h
    rw [lastSrAfter, if_neg hs]

theorem run_stored {es : List RtcpEvent} (hw : ∀ x ∈ es, SrWhole x.data) {c' : RtcpReception}
    (h : c.run es = some c') : c'.rr = es.foldl lastSrAfter c.rr := by
  induction es generalizing c with
  | nil =>
    cases h
    rfl
  | cons e es ih =>
    obtain ⟨he, hes⟩ := List.forall_mem_cons.mp hw
    rw [RtcpReception.run, List.foldlM_cons] at h
    cases hc : c.step e with
    | none =>
      rw [hc] at h
      cases h
    | some c₁ =>
      rw [hc] at h
      rw [List.foldl_cons, ← step_stored he hc]
      exact ih hes h

/-- A datagram is handled properly, in any state, exactly if a report in it is whole. -/
theorem handle_proper (c : RtcpReception) (e : RtcpEvent) :
    ((∀ o ∈ (c.handle e).2.touched, o < e.data.length) ∧
      ∀ r, (c.handle e).1 = .senderReport r → CoversSr e.data) ↔ SrWhole e.data := by
  by_cases hs : TakenAsSr e.data
  · obtain ⟨hout, htouched⟩ := handle_sr (c := c) hs
    rw [hout, htouched]
    constructor
    · intro ⟨hin, hcov⟩ _
      exact hcov _ rfl
    · intro hw
      have h28 := (hw hs).1
      refine ⟨fun o ho => ?_, fun _ _ => hw hs⟩
      simp only [List.mem_append, List.mem_cons, List.not_mem_nil, or_false, List.mem_map,
        List.mem_range] at ho
      omega
  · refine ⟨fun _ h => absurd h hs, fun _ => ?_⟩
    by_cases hr : Refused e.data
    · obtain ⟨hout, hin⟩ := handle_refused (c := c) hr
      refine ⟨hin, fun r h => ?_⟩
      rw [hout] at h
      cases h
    · obtain ⟨hout, hin⟩ := handle_nothing (c := c) hr hs
      refine ⟨hin, fun r h => ?_⟩
      rw [hout] at h
      cases h

theorem onlyReceived_iff (c : RtcpReception) (es : List RtcpEvent) :
    OnlyReceived c es ↔ ∀ e, HandledIn es e → SrWhole e.data := by
  constructor
  · intro h e ⟨before, after, hes, hbefore⟩
    obtain ⟨c', hc'⟩ := (run_eq_some (c := c)).mpr hbefore
    rw [← handle_proper c' e]
    exact ⟨h.within before e after hes c' hc', h.covered before e after hes c' hc'⟩
  · intro h
    have hhandled : ∀ before e after, es = before ++ e :: after → ∀ c', c.run before = some c' →
        SrWhole e.data := fun before e after hes c' hc' =>
      h e ⟨before, after, hes, run_eq_some.mp ⟨c', hc'⟩⟩
    constructor
    · intro before e after hes c' hc'
      exact ((handle_proper c' e).mpr (hhandled before e after hes c' hc')).1
    · intro before e after hes c' hc'
      exact ((handle_proper c' e).mpr (hhandled before e after hes c' hc')).2
    · intro before after hes c' hc'
      refine run_stored (fun x hx => ?_) hc'
      obtain ⟨b₁, b₂, hb⟩ := List.append_of_mem hx
      refine h x ⟨b₁, b₂ ++ after, ?_, fun y hy => ?_⟩
      · rw [hes, hb, List.append_assoc, List.cons_append]
      · refine run_eq_some.mp ⟨c', hc'⟩ y ?_
        rw [hb]
        exact List.mem_append_left _ hy

/-- A sender report without report blocks. -/
def wholeSr : RtcpEvent := ⟨[0x80, 200, 0, 6] ++ (List.range 24).map UInt8.ofNat, 5⟩

/-- The header of a sender report, and nothing behind it. -/
def bareSr : RtcpEvent := ⟨[0x80, 200, 0, 0], 6⟩

theorem not_onlyReceived :
    ¬OnlyReceived ⟨fun _ => 0, ⟨[], [], 0⟩⟩ [wholeSr, bareSr] := by
  intro h
  have hfirst : ∀ x ∈ [wholeSr], ¬Refused x.data := by decide
  have hbare : TakenAsSr bareSr.data := by decide
  obtain ⟨c, hc⟩ := (run_eq_some (c := ⟨fun _ => 0, ⟨[], [], 0⟩⟩)).mpr hfirst
  have hlast : 27 ∈ (c.handle bareSr).2.touched := by
    rw [(handle_sr hbare).2]
    decide
  have hlt : 27 < bareSr.data.length := h.within [wholeSr] bareSr [] rfl c hc 27 hlast
  exact absurd hlt (by decide)

end CppSnippets.Rtp
