import CppSnippets.Lib.Bytes
import CppSnippets.Wap.Text
import Mathlib.Combinatorics.Enumerative.Composition

/-!
# Messages over TCP in udp-io2

`ProtocolTCP` sends an array of `int32_t` and receives into one. What the kernel answers
to `::send` and `::recv` is an argument, one result a call. `send` counts the bytes that
are sent and uses that count as an index into the array, so that it goes on four times
as far from the begin as it should.
-/
namespace CppSnippets.UdpIo2

open CppSnippets.Lib
open CppSnippets.Wap (Bytes slice slice_length slice_split)

/-- How a call ends other than by returning. -/
inductive Stop where
  /-- An access outside of the array. -/
  | outside
  /-- The kernel does not answer. -/
  | blocked
  /-- `ERR_EXIT`. -/
  | exit
  deriving DecidableEq

/-- `sizeof(data_)`. -/
def maxLength : Nat := 1024 * 80

/-! ## The code -/

/-- The loop of `ProtocolTCP::send`, `nsend` bytes being sent: what it returns, and the
bytes that the kernel takes. `data` are the bytes of the array. -/
def sendLoop (data : Bytes) (len nsend : Nat) : List Int → Except Stop (Int × Bytes)
  | [] => .error .blocked
  | n :: results =>
    -- `&buf[nsend]` is at byte `4 * nsend`
    if data.length < 4 * nsend + (len - nsend) then .error .outside
    else if n ≤ 0 then .ok (n, [])
    else
      let piece := slice data (4 * nsend) (4 * nsend + n.toNat)
      if nsend + n.toNat = len then .ok (len, piece)
      else (sendLoop data len (nsend + n.toNat) results).map fun r => (r.1, piece ++ r.2)

/-- `ProtocolTCP::send`. -/
def send (data : Bytes) (len : Nat) (results : List Int) : Except Stop (Int × Bytes) :=
  sendLoop data len 0 results

/-- The loop of `ProtocolTCP::recv`: what it returns, the bytes that it has stored, and
what is left of the stream and of the results. -/
def recvLoop (lenv : Nat) (stored stream : Bytes) :
    List Int → Except Stop (Int × Bytes × Bytes × List Int)
  | [] => .error .blocked
  | n :: results =>
    if n ≤ 0 then .ok (n, stored, stream, results)
    else if stream.length < n.toNat then .error .blocked
    else if stored.length + n.toNat = lenv then
      .ok (lenv, stored ++ stream.take n.toNat, stream.drop n.toNat, results)
    else recvLoop lenv (stored ++ stream.take n.toNat) (stream.drop n.toNat) results

/-- `ntohl(buf[0])`, as an `int`. -/
def ntohl : Bytes → Int
  | a :: b :: c :: d :: _ => Int.bmod (ofBe32 a b c d).toNat (2 ^ 32)
  | _ => 0

/-- `ProtocolTCP::recv`, into an array of `len` bytes. -/
def recv (len : Nat) (stream : Bytes) : List Int → Except Stop (Int × Bytes × Bytes × List Int)
  | [] => .error .blocked
  | n :: results =>
    if n ≠ 20 then .error .exit
    else if stream.length < 20 then .error .blocked
    else
      let lenv := ntohl (stream.take 20)
      if lenv > len ∨ lenv ≤ 20 then .error .exit
      else recvLoop lenv.toNat (stream.take 20) (stream.drop 20) results

/-! ## What is sent and received -/

/-- A message in the array: its length, with which it begins, and the bytes of the array. -/
structure Message where
  data : Bytes
  len : Nat
  size : data.length = maxLength
  admissible : 20 < len ∧ len ≤ maxLength
  header : data.take 4 = be32 (.ofNat len)

def Message.bytes (m : Message) : Bytes := m.data.take m.len

/-- A message, and in which pieces the kernel takes it and gives it back: `first` bytes
for the first `::recv`. -/
structure Transfer where
  message : Message
  sends : Composition message.len
  first : Nat
  first_pos : 0 < first ∧ first ≤ 20
  recvs : Composition (message.len - 20)

def Transfer.sent (t : Transfer) : Except Stop (Int × Bytes) :=
  send t.message.data t.message.len (t.sends.blocks.map Int.ofNat)

/-- What the messages put on the wire, one `send` after the other. -/
def sendAll : List Transfer → Except Stop Bytes
  | [] => .ok []
  | t :: ts => do
    let (ret, wire) ← t.sent
    if ret < 0 then throw .exit
    return wire ++ (← sendAll ts)

/-- What one `recv` after the other returns, and what is left of the stream. -/
def recvAll (stream : Bytes) : List Transfer → Except Stop (List (Int × Bytes) × Bytes)
  | [] => .ok ([], stream)
  | t :: ts => do
    let (ret, stored, stream, _) ←
      recv maxLength stream (Int.ofNat t.first :: t.recvs.blocks.map Int.ofNat)
    let (received, stream) ← recvAll stream ts
    return ((ret, stored) :: received, stream)

/-- The wire carries the messages in order, and each is received as it was sent. -/
def RoundTrip (ts : List Transfer) : Prop :=
  sendAll ts = .ok (ts.flatMap fun t => t.message.bytes) ∧
  recvAll (ts.flatMap fun t => t.message.bytes) ts =
    .ok (ts.map fun t => ((t.message.len : Int), t.message.bytes), [])

/-- A piece of `n` bytes that begins behind `off` bytes of the message: the call stays in
the array, and what stands at four times the offset is the same. -/
def Harmless (m : Message) (off n : Nat) : Prop :=
  4 * off + (m.len - off) ≤ m.data.length ∧
  slice m.data (4 * off) (4 * off + n) = slice m.data off (off + n)

/-- `P` of each piece, with its offset. -/
def EachPiece (P : Nat → Nat → Prop) (off : Nat) (ns : List Nat) : Prop :=
  ∀ pre n post, ns = pre ++ n :: post → P (off + pre.sum) n

/-- Every piece is harmless, and the first `::recv` returns all 20 bytes. -/
def Transfer.Ok (t : Transfer) : Prop :=
  EachPiece (Harmless t.message) 0 t.sends.blocks ∧ t.first = 20

/-! ## Sending -/

variable {m : Message}

theorem eachPiece_cons {P : Nat → Nat → Prop} {off n : Nat} {ns : List Nat} :
    EachPiece P off (n :: ns) ↔ P off n ∧ EachPiece P (off + n) ns := by
  constructor
  · intro h
    refine ⟨h [] n ns rfl, fun pre x post hns => ?_⟩
    have hx := h (n :: pre) x post (by rw [hns, List.cons_append])
    rwa [List.sum_cons, ← Nat.add_assoc] at hx
  · rintro ⟨hfirst, hrest⟩ pre x post hns
    cases pre with
    | nil =>
      obtain ⟨rfl, -⟩ := List.cons.inj hns
      exact hfirst
    | cons y pre =>
      obtain ⟨rfl, htail⟩ := List.cons.inj hns
      have hx := hrest pre x post htail
      rwa [Nat.add_assoc, ← List.sum_cons] at hx

theorem eachPiece_nil (P : Nat → Nat → Prop) (off : Nat) : EachPiece P off [] :=
  fun pre _ _ h => absurd h.symm (List.append_ne_nil_of_right_ne_nil pre (List.cons_ne_nil _ _))

theorem sendLoop_outside {off n : Nat} {results : List Int}
    (h : m.data.length < 4 * off + (m.len - off)) :
    sendLoop m.data m.len off (Int.ofNat n :: results) = .error .outside := by
  rw [sendLoop, if_pos h]

theorem sendLoop_inside {off n : Nat} {results : List Int} (hn : 0 < n)
    (h : ¬m.data.length < 4 * off + (m.len - off)) :
    sendLoop m.data m.len off (Int.ofNat n :: results) =
      if off + n = m.len then .ok ((m.len : Int), slice m.data (4 * off) (4 * off + n))
      else (sendLoop m.data m.len (off + n) results).map fun r =>
        (r.1, slice m.data (4 * off) (4 * off + n) ++ r.2) := by
  rw [sendLoop, if_neg h, if_neg (by simp only [Int.ofNat_eq_natCast]; omega)]
  rfl

/-- Either a call leaves the array, which no harmless piece does, or as many bytes are sent as
the pieces have, and these are the rest of the message if and only if all are harmless. -/
theorem sendLoop_spec {off : Nat} {ns : List Nat} (hpos : ∀ n ∈ ns, 0 < n) (hne : ns ≠ [])
    (hsum : off + ns.sum = m.len) :
    (sendLoop m.data m.len off (ns.map Int.ofNat) = .error .outside ∧
        ¬EachPiece (Harmless m) off ns) ∨
      ∃ wire : Bytes, wire.length = ns.sum ∧
        sendLoop m.data m.len off (ns.map Int.ofNat) = .ok ((m.len : Int), wire) ∧
        (wire = slice m.data off m.len ↔ EachPiece (Harmless m) off ns) := by
  have hsize : m.len ≤ m.data.length := m.size ▸ m.admissible.2
  induction ns generalizing off with
  | nil => exact absurd rfl hne
  | cons n ns ih =>
    have hn : 0 < n := hpos n List.mem_cons_self
    rw [List.sum_cons] at hsum
    rw [List.map_cons, List.sum_cons, eachPiece_cons]
    by_cases hin : m.data.length < 4 * off + (m.len - off)
    · exact .inl ⟨sendLoop_outside hin, fun h => absurd h.1.1 (Nat.not_le.mpr hin)⟩
    rw [sendLoop_inside hn hin]
    have hpiece : (slice m.data (4 * off) (4 * off + n)).length = n := by
      rw [slice_length (by omega)]
      omega
    cases ns with
    | nil =>
      rw [List.sum_nil, Nat.add_zero] at hsum
      refine .inr ⟨_, hpiece, if_pos hsum, ?_⟩
      rw [← hsum]
      exact ⟨fun hsame => ⟨⟨by omega, hsame⟩, eachPiece_nil _ _⟩, fun h => h.1.2⟩
    | cons n' ns =>
      have hn' : 0 < n' := hpos n' (List.mem_cons_of_mem _ List.mem_cons_self)
      have hmore : ¬off + n = m.len := by
        rw [List.sum_cons] at hsum
        omega
      rw [if_neg hmore]
      rcases ih (fun x hx => hpos x (List.mem_cons_of_mem _ hx)) (List.cons_ne_nil _ _)
          (by omega : off + n + (n' :: ns).sum = m.len) with ⟨hrest, hnot⟩ | ⟨wire, hwire, hrest, hiff⟩
      · exact .inl ⟨by rw [hrest]; rfl, fun h => hnot h.2⟩
      · refine .inr ⟨slice m.data (4 * off) (4 * off + n) ++ wire,
          by rw [List.length_append, hpiece, hwire], by rw [hrest]; rfl, ?_⟩
        have hlen : (slice m.data (4 * off) (4 * off + n)).length =
            (slice m.data off (off + n)).length := by
          rw [hpiece, slice_length (by omega)]
          omega
        rw [slice_split m.data (Nat.le_add_right off n) (by omega : off + n ≤ m.len), ← hiff]
        constructor
        · intro h
          obtain ⟨hsame, hbehind⟩ := List.append_inj h hlen
          exact ⟨⟨by omega, hsame⟩, hbehind⟩
        · exact fun h => congrArg₂ _ h.1.2 h.2

theorem Message.bytes_length (m : Message) : m.bytes.length = m.len := by
  rw [Message.bytes, List.length_take, m.size]
  exact Nat.min_eq_left m.admissible.2

theorem blocks_ne_nil {n : Nat} (c : Composition n) (hn : 0 < n) : c.blocks ≠ [] := by
  intro h
  have hsum := c.blocks_sum
  rw [h, List.sum_nil] at hsum
  omega

/-- What one `send` puts on the wire. -/
theorem Transfer.sent_spec (t : Transfer) :
    (t.sent = .error .outside ∧ ¬EachPiece (Harmless t.message) 0 t.sends.blocks) ∨
      ∃ wire : Bytes, wire.length = t.message.len ∧
        t.sent = .ok ((t.message.len : Int), wire) ∧
        (wire = t.message.bytes ↔ EachPiece (Harmless t.message) 0 t.sends.blocks) := by
  have h := @sendLoop_spec t.message 0 _ (fun _ => t.sends.blocks_pos)
    (blocks_ne_nil _ (Nat.zero_lt_of_lt t.message.admissible.1))
    ((Nat.zero_add _).trans t.sends.blocks_sum)
  rwa [t.sends.blocks_sum] at h

theorem sendAll_iff (ts : List Transfer) :
    sendAll ts = .ok (ts.flatMap fun t => t.message.bytes) ↔
      ∀ t ∈ ts, EachPiece (Harmless t.message) 0 t.sends.blocks := by
  induction ts with
  | nil => exact ⟨fun _ t ht => (by cases ht), fun _ => rfl⟩
  | cons t ts ih =>
    rw [List.forall_mem_cons, ← ih, List.flatMap_cons]
    rcases t.sent_spec with ⟨hsent, hnot⟩ | ⟨wire, hwire, hsent, hiff⟩
    · rw [sendAll, hsent]
      exact ⟨fun h => (by cases h), fun h => absurd h.1 hnot⟩
    have hret : ¬(t.message.len : Int) < 0 := by omega
    have hstep : sendAll (t :: ts) = (sendAll ts).map (wire ++ ·) := by
      rw [sendAll, hsent]
      simp only [bind, Except.bind, if_neg hret, pure, Except.pure]
      cases sendAll ts <;> rfl
    rw [hstep, ← hiff]
    constructor
    · intro h
      cases hrest : sendAll ts with
      | error e => rw [hrest] at h; cases h
      | ok r =>
        rw [hrest] at h
        obtain ⟨hw, hr⟩ := List.append_inj (Except.ok.inj h)
          (hwire.trans t.message.bytes_length.symm)
        exact ⟨hw, by rw [hr]⟩
    · rintro ⟨hw, hr⟩
      rw [hr, hw]
      rfl

/-! ## Receiving -/

theorem recvLoop_ok {lenv : Nat} {stored stream : Bytes} {ns : List Nat}
    (hpos : ∀ n ∈ ns, 0 < n) (hne : ns ≠ []) (hsum : stored.length + ns.sum = lenv)
    (hstream : ns.sum ≤ stream.length) :
    recvLoop lenv stored stream (ns.map Int.ofNat) =
      .ok ((lenv : Int), stored ++ stream.take ns.sum, stream.drop ns.sum, []) := by
  induction ns generalizing stored stream with
  | nil => exact absurd rfl hne
  | cons n ns ih =>
    have hn : 0 < n := hpos n List.mem_cons_self
    rw [List.sum_cons] at hsum hstream ⊢
    have hgood : ¬Int.ofNat n ≤ 0 := by
      rw [Int.ofNat_eq_natCast]
      omega
    have hthere : ¬stream.length < n := by omega
    rw [List.map_cons, recvLoop, if_neg hgood]
    rw [Int.ofNat_eq_natCast, Int.toNat_natCast, if_neg hthere]
    cases ns with
    | nil =>
      rw [List.sum_nil, Nat.add_zero] at hsum ⊢
      rw [if_pos hsum]
      rfl
    | cons n' ns =>
      have hn' : 0 < n' := hpos n' (List.mem_cons_of_mem _ List.mem_cons_self)
      have hmore : ¬stored.length + n = lenv := by
        rw [List.sum_cons] at hsum
        omega
      have hstored : (stored ++ stream.take n).length = stored.length + n := by
        rw [List.length_append, List.length_take]
        omega
      rw [if_neg hmore, ih (fun x hx => hpos x (List.mem_cons_of_mem _ hx)) (List.cons_ne_nil _ _)
        (by omega) (by rw [List.length_drop]; omega), List.append_assoc, ← List.take_add,
        List.drop_drop]

theorem ntohl_cons (a b c d : UInt8) (rest : Bytes) :
    ntohl (a :: b :: c :: d :: rest) = Int.bmod (ofBe32 a b c d).toNat (2 ^ 32) := rfl

theorem ntohl_be32 (x : UInt32) (rest : Bytes) :
    ntohl (be32 x ++ rest) = Int.bmod x.toNat (2 ^ 32) := by
  have h := ntohl_cons (.ofNat (x.toNat / 16777216)) (.ofNat (x.toNat / 65536))
    (.ofNat (x.toNat / 256)) (.ofNat x.toNat) rest
  rw [ofBe32_be32] at h
  exact h

/-- The length of a message is read back from its first four bytes. -/
theorem ntohl_message (m : Message) (rest : Bytes) :
    ntohl ((m.bytes ++ rest).take 20) = (m.len : Int) := by
  have hlen := m.admissible
  rw [maxLength] at hlen
  have hbytes : m.bytes.length = m.len := m.bytes_length
  have hhead : ((m.bytes ++ rest).take 20).take 4 = be32 (.ofNat m.len) := by
    rw [List.take_take, List.take_append_of_le_length (by omega), Message.bytes, List.take_take]
    rw [← m.header]
    congr 1
    omega
  have hsplit := List.take_append_drop 4 ((m.bytes ++ rest).take 20)
  rw [hhead] at hsplit
  have hword : (UInt32.ofNat m.len).toNat = m.len := by
    rw [UInt32.toNat_ofNat']
    omega
  rw [← hsplit, ntohl_be32, hword]
  exact Int.bmod_eq_of_le (by omega) (by omega)

/-- What `ProtocolTCP::recv` does where a message is next on the stream. -/
theorem recv_message (t : Transfer) (rest : Bytes) :
    recv maxLength (t.message.bytes ++ rest) (Int.ofNat t.first :: t.recvs.blocks.map Int.ofNat) =
      if t.first = 20 then .ok ((t.message.len : Int), t.message.bytes, rest, [])
      else .error .exit := by
  have hlen := t.message.admissible
  have hbytes := t.message.bytes_length
  by_cases hfirst : t.first = 20
  · have hthere : ¬(t.message.bytes ++ rest).length < 20 := by
      rw [List.length_append]
      omega
    have hin : ¬((t.message.len : Int) > maxLength ∨ (t.message.len : Int) ≤ 20) := by omega
    have hstored : ((t.message.bytes ++ rest).take 20).length = 20 := by
      rw [List.length_take]
      omega
    have hloop := @recvLoop_ok t.message.len ((t.message.bytes ++ rest).take 20)
      ((t.message.bytes ++ rest).drop 20) _ (fun _ => t.recvs.blocks_pos)
      (blocks_ne_nil _ (Nat.sub_pos_of_lt hlen.1)) (by rw [t.recvs.blocks_sum]; omega)
      (by rw [t.recvs.blocks_sum, List.length_drop, List.length_append]; omega)
    have hwhole : 20 + (t.message.len - 20) = t.message.bytes.length := by omega
    rw [t.recvs.blocks_sum, ← List.take_add, List.drop_drop, hwhole, List.take_left,
      List.drop_left] at hloop
    rw [recv, hfirst, if_neg (fun h => h rfl), if_neg hthere, if_pos rfl]
    simp only [ntohl_message, if_neg hin, Int.toNat_natCast]
    exact hloop
  · have hshort : Int.ofNat t.first ≠ 20 := by
      rw [Int.ofNat_eq_natCast]
      omega
    rw [recv, if_pos hshort, if_neg hfirst]

theorem recvAll_iff (ts : List Transfer) :
    recvAll (ts.flatMap fun t => t.message.bytes) ts =
        .ok (ts.map fun t => ((t.message.len : Int), t.message.bytes), []) ↔
      ∀ t ∈ ts, t.first = 20 := by
  induction ts with
  | nil => exact ⟨fun _ t ht => (by cases ht), fun _ => rfl⟩
  | cons t ts ih =>
    rw [List.forall_mem_cons, ← ih, List.flatMap_cons, recvAll, recv_message]
    by_cases hfirst : t.first = 20
    · rw [if_pos hfirst]
      simp only [bind, Except.bind, hfirst, true_and, List.map_cons]
      cases hrest : recvAll (ts.flatMap fun t => t.message.bytes) ts with
      | error e => exact ⟨fun h => (by cases h), fun h => (by cases h)⟩
      | ok r =>
        constructor
        · intro h
          obtain ⟨hreceived, hstream⟩ := Prod.mk.inj (Except.ok.inj h)
          exact congrArg Except.ok (Prod.ext (List.cons.inj hreceived).2 hstream)
        · intro h
          cases h
          rfl
    · rw [if_neg hfirst]
      exact ⟨fun h => (by cases h), fun h => absurd h.1 hfirst⟩

/-- Messages go through if and only if every piece is harmless where it begins, and the first
`::recv` of each message returns all 20 bytes. -/
theorem roundTrip_iff (ts : List Transfer) : RoundTrip ts ↔ ∀ t ∈ ts, t.Ok := by
  rw [RoundTrip, sendAll_iff, recvAll_iff]
  constructor
  · exact fun h t ht => ⟨h.1 t ht, h.2 t ht⟩
  · exact fun h => ⟨fun t ht => (h t ht).1, fun t ht => (h t ht).2⟩

/-! ## A message that is taken in two pieces -/

def pageData : Bytes := be32 4096 ++ List.replicate (maxLength - 4) 0

theorem pageData_length : pageData.length = maxLength := by
  rw [pageData, List.length_append, List.length_replicate]
  rfl

theorem pageData_header : pageData.take 4 = be32 (.ofNat 4096) := by
  rw [pageData, List.take_left' (be32_length _)]
  rfl

theorem page_admissible : 20 < 4096 ∧ 4096 ≤ maxLength := ⟨by decide, by decide⟩

/-- A message of 4096 bytes that are all zero behind the length. -/
def page : Message where
  data := pageData
  len := 4096
  size := pageData_length
  admissible := page_admissible
  header := pageData_header

theorem pieces_pos {n : Nat} (h : n ∈ [1, 4095]) : 0 < n := by
  rcases List.mem_pair.mp h with rfl | rfl <;> decide

theorem twenty_pos : 0 < 20 ∧ 20 ≤ 20 := by decide

/-- The kernel takes one byte first. -/
def pageTransfer : Transfer where
  message := page
  sends := ⟨[1, 4095], pieces_pos, rfl⟩
  first := 20
  first_pos := twenty_pos
  recvs := Composition.single 4076 (Nat.succ_pos _)

/-- Where the second byte of the length should follow, the first byte behind it does. -/
theorem page_not_harmless : ¬Harmless page 1 4095 := by
  rintro ⟨-, h⟩
  have hbyte : (slice pageData 4 4099)[1]? = (slice pageData 1 4096)[1]? :=
    congrArg (fun s : Bytes => s[1]?) h
  rw [slice, slice, List.getElem?_take, List.getElem?_take, List.getElem?_drop,
    List.getElem?_drop] at hbyte
  exact absurd hbyte (by decide)

theorem not_roundTrip : ¬∀ ts : List Transfer, RoundTrip ts := by
  intro h
  have hwire := (sendAll_iff [pageTransfer]).mp (h [pageTransfer]).1
  have hpiece := hwire pageTransfer (List.mem_singleton.mpr rfl) [1] 4095 [] rfl
  exact page_not_harmless hpiece

end CppSnippets.UdpIo2
