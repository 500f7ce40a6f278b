import CppSnippets.Lib.Bytes
import CppSnippets.Push.Http
import CppSnippets.PushProxy.Unhex

/-!
# The frame of a notification

`apack` writes `|COMMAND|ID|EXPIRY|TOKENLEN|TOKEN|PAYLOADLEN|PAYLOAD|` into a buffer that
it makes for it: the size of the buffer is an `uint32_t`, the two lengths are `uint16_t`,
and nothing bounds the payload. `decode` reads a frame by its own lengths. The JSON
library is a parameter.
-/
namespace CppSnippets.PushProxy

open CppSnippets.Lib
open CppSnippets.Push (KeyValues)
open CppSnippets.Wap (Byte Bytes bytes Trap)

/-! ## What is written -/

/-- A buffer and a pointer into it: what lies before the pointer, and what from it on. -/
structure Cursor where
  done : Bytes
  left : Bytes

/-- `memcpy` to the pointer, and the pointer behind what was written. -/
def Cursor.memcpy (p : Cursor) (data : Bytes) : Except Trap Cursor :=
  if p.left.length < data.length then .error .undefined
  else .ok ⟨p.done ++ data, p.left.drop data.length⟩

/-- The types that `pint` is called with. -/
inductive Word where
  | uint8 (x : UInt8)
  | uint32 (x : UInt32)

/-- The bytes of `i`, in network order. -/
def Word.order : Word → Bytes
  | .uint8 x => [x]
  | .uint32 x => be32 x

def pint (p : Cursor) (x : Word) : Except Trap Cursor := p.memcpy x.order

def pdata (p : Cursor) (len : UInt16) (data : Bytes) : Except Trap Cursor := do
  let p ← p.memcpy (be16 len)
  p.memcpy (data.take len.toNat)

/-- What `apack` writes from the pointer on, where `now` is the time. -/
def apackFields (now : Int) (tok aps : Bytes) (p : Cursor) : Except Trap Cursor := do
  let p ← pint p (.uint8 1)
  let p ← pint p (.uint32 1234)
  let p ← pint p (.uint32 (.ofInt (now + 86400)))
  let p ← pdata p (.ofNat tok.length) tok
  pdata p (.ofNat aps.length) aps

/-- `apack`. -/
def apack (now : Int) (tok aps : Bytes) : Except Trap Bytes :=
  if tok.length ≠ 32 then .error .assertion
  else do
    let len : UInt32 := .ofNat (1 + 2 * 4 + 2 * 2 + tok.length + aps.length)
    let p ← apackFields now tok aps ⟨[], List.replicate len.toNat 0⟩
    return p.done ++ p.left

/-- `get` of a parameter that has to be there. -/
def getParam (l : KeyValues) (name : Bytes) : Except Trap Bytes :=
  match l.lookup name with
  | some v => .ok v
  | none => .error (.thrown "EN_HTTPParam_NotFound")

/-- `on_REQUEST`: `encode` is what `json::encode` makes of `{"aps": {"alert": msg}}`. -/
def onRequest (encode : Bytes → Bytes) (now : Int) (turns : Nat) (params : KeyValues) :
    Option (Except Trap Bytes) :=
  match getParam params (bytes "devtok"), getParam params (bytes "message") with
  | .ok tok, .ok msg => (unhex turns tok).map fun r => r.bind fun tok => apack now tok (encode msg)
  | .error t, _ => some (.error t)
  | _, .error t => some (.error t)

/-! ## What is read -/

structure Frame where
  command : UInt8
  id : UInt32
  expiry : UInt32
  token : Bytes
  payload : Bytes
  deriving DecidableEq

/-- A length in two bytes and that many bytes, and what is left. -/
def readData : Bytes → Option (Bytes × Bytes)
  | a :: b :: s =>
    let len := (ofBe16 a b).toNat
    if s.length < len then none else some (s.take len, s.drop len)
  | _ => none

/-- The first frame, and what is left. -/
def decode : Bytes → Option (Frame × Bytes)
  | c :: i :: j :: k :: l :: e :: f :: g :: h :: s => do
    let (token, s) ← readData s
    let (payload, s) ← readData s
    return (⟨c, ofBe32 i j k l, ofBe32 e f g h, token, payload⟩, s)
  | _ => none

theorem readData_be16 {data : Bytes} (h : data.length < 65536) (s : Bytes) :
    readData (be16 (.ofNat data.length) ++ data ++ s) = some (data, s) := by
  have hlen : (UInt16.ofNat data.length).toNat = data.length := UInt16.toNat_ofNat_of_lt' h
  have hle : ¬(data ++ s).length < data.length := by
    rw [List.length_append]
    omega
  rw [List.append_assoc, be16, List.cons_append, List.cons_append, List.nil_append, readData,
    ofBe16_be16, hlen, if_neg hle, List.take_left,
    List.drop_left]

theorem readData_length {s data rest : Bytes} (h : readData s = some (data, rest)) :
    data.length < 65536 := by
  rw [readData.eq_def] at h
  split at h
  · dsimp only at h
    split at h
    · cases h
    · cases h
      rw [List.length_take]
      exact Nat.lt_of_le_of_lt (Nat.min_le_left _ _) (UInt16.toNat_lt _)
  · cases h

theorem payload_of_decode {s rest : Bytes} {f : Frame} (h : decode s = some (f, rest)) :
    f.payload.length < 65536 := by
  rw [decode.eq_def] at h
  split at h
  · rename_i c i j k l e f' g h' t
    cases htok : readData t with
    | none =>
      rw [htok] at h
      cases h
    | some x =>
      rw [htok] at h
      cases hdata : readData x.2 with
      | none =>
        change (readData x.2 >>= _) = _ at h
        rw [hdata] at h
        cases h
      | some y =>
        change (readData x.2 >>= _) = _ at h
        rw [hdata] at h
        cases h
        exact readData_length hdata
  · cases h

/-! ## The frame of a short payload -/

theorem memcpy_ok {p : Cursor} {data : Bytes} (h : data.length ≤ p.left.length) :
    p.memcpy data = .ok ⟨p.done ++ data, p.left.drop data.length⟩ :=
  if_neg (Nat.not_lt.mpr h)

theorem pint_ok {p : Cursor} {x : Word} (h : x.order.length ≤ p.left.length) :
    pint p x = .ok ⟨p.done ++ x.order, p.left.drop x.order.length⟩ := memcpy_ok h

theorem pdata_ok {p : Cursor} {data : Bytes} (hdata : data.length < 65536)
    (h : 2 + data.length ≤ p.left.length) : pdata p (.ofNat data.length) data =
      .ok ⟨p.done ++ (be16 (.ofNat data.length) ++ data), p.left.drop (2 + data.length)⟩ := by
  have hlen : (UInt16.ofNat data.length).toNat = data.length := UInt16.toNat_ofNat_of_lt' hdata
  rw [pdata, memcpy_ok (by rw [be16_length]; omega), hlen, List.take_length]
  change Cursor.memcpy _ _ = _
  rw [memcpy_ok (by rw [List.length_drop, be16_length]; omega), be16_length, List.append_assoc,
    List.drop_drop]

/-- The bytes of a frame. -/
def layout (now : Int) (tok aps : Bytes) : Bytes :=
  [1] ++ be32 1234 ++ be32 (.ofInt (now + 86400)) ++ (be16 (.ofNat tok.length) ++ tok) ++
    (be16 (.ofNat aps.length) ++ aps)

theorem apackFields_ok (now : Int) {tok aps left : Bytes} (htok : tok.length < 65536)
    (haps : aps.length < 65536) (hleft : left.length = 13 + tok.length + aps.length) :
    apackFields now tok aps ⟨[], left⟩ = .ok ⟨layout now tok aps, []⟩ := by
  have hcommand : pint ⟨[], left⟩ (.uint8 1) = .ok ⟨[1], left.drop 1⟩ :=
    pint_ok (by change 1 ≤ left.length; omega)
  have hid : pint ⟨[1], left.drop 1⟩ (.uint32 1234) = .ok ⟨[1] ++ be32 1234, left.drop 5⟩ := by
    rw [pint_ok (by change 4 ≤ (left.drop 1).length; rw [List.length_drop]; omega), List.drop_drop]
    rfl
  have hexpiry : pint ⟨[1] ++ be32 1234, left.drop 5⟩ (.uint32 (.ofInt (now + 86400))) =
      .ok ⟨[1] ++ be32 1234 ++ be32 (.ofInt (now + 86400)), left.drop 9⟩ := by
    rw [pint_ok (by change 4 ≤ (left.drop 5).length; rw [List.length_drop]; omega), List.drop_drop]
    rfl
  simp only [apackFields, hcommand, hid, hexpiry, bind, Except.bind]
  rw [pdata_ok htok (by rw [List.length_drop]; omega)]
  dsimp only
  have hall : left.drop (9 + (2 + tok.length) + (2 + aps.length)) = [] :=
    List.drop_eq_nil_of_le (by omega)
  rw [pdata_ok haps (by rw [List.length_drop, List.length_drop]; omega), List.drop_drop,
    List.drop_drop, hall]
  rfl

theorem apack_ok (now : Int) {tok aps : Bytes} (htok : tok.length = 32)
    (haps : aps.length < 65536) : apack now tok aps = .ok (layout now tok aps) := by
  have hlen : (UInt32.ofNat (1 + 2 * 4 + 2 * 2 + tok.length + aps.length)).toNat =
      13 + tok.length + aps.length := by
    rw [UInt32.toNat_ofNat_of_lt' (by change _ < 2 ^ 32; omega)]
  rw [apack, if_neg (by omega)]
  dsimp only
  rw [hlen, apackFields_ok now (by omega) haps (List.length_replicate ..)]
  change Except.ok _ = _
  rw [List.append_nil]

theorem decode_layout (now : Int) {tok aps : Bytes} (htok : tok.length < 65536)
    (haps : aps.length < 65536) : decode (layout now tok aps) =
      some (⟨1, 1234, .ofInt (now + 86400), tok, aps⟩, []) := by
  have hfirst := readData_be16 htok (be16 (.ofNat aps.length) ++ aps)
  have hsecond := readData_be16 haps []
  rw [List.append_nil] at hsecond
  rw [layout, List.append_assoc _ (be16 _ ++ tok), be32, be32]
  simp only [List.cons_append, List.nil_append, decode, hfirst, hsecond, ofBe32_be32,
    Option.bind_eq_bind, Option.bind_some]
  rfl

/-! ## The main result -/

/-- `apack` returns, and its frame has this token and payload and nothing behind it. -/
def Faithful (now : Int) (tok aps : Bytes) : Prop :=
  ∃ buf f, apack now tok aps = .ok buf ∧ decode buf = some (f, []) ∧ f.token = tok ∧ f.payload = aps

theorem faithful_of_short (now : Int) {tok aps : Bytes} (htok : tok.length = 32)
    (haps : aps.length < 65536) : Faithful now tok aps :=
  ⟨_, _, apack_ok now htok haps, decode_layout now (by omega) haps, rfl, rfl⟩

theorem short_of_faithful {now : Int} {tok aps : Bytes} (h : Faithful now tok aps) :
    aps.length < 65536 := by
  obtain ⟨_, f, _, hdecode, _, rfl⟩ := h
  exact payload_of_decode hdecode

/-- For every token of 32 bytes, payload and time: the frame is as it should be if and
only if the payload is shorter than 65536 bytes. -/
theorem faithful_iff (now : Int) {tok : Bytes} (htok : tok.length = 32) (aps : Bytes) :
    Faithful now tok aps ↔ aps.length < 65536 :=
  ⟨short_of_faithful, faithful_of_short now htok⟩

theorem faithful_short : Faithful 0 (List.replicate 32 0) [0x7b, 0x7d] :=
  (faithful_iff 0 (List.length_replicate ..) [0x7b, 0x7d]).mpr (by decide)

/-- The payload of an alert that has nothing to escape. -/
def plainAps (msg : Bytes) : Bytes :=
  bytes "\x7b\"aps\":\x7b\"alert\":\"" ++ msg ++ bytes "\"\x7d\x7d"

theorem length_le_plainAps (msg : Bytes) : msg.length ≤ (plainAps msg).length := by
  rw [plainAps, List.length_append, List.length_append]
  omega

theorem not_faithful : ¬Faithful 0 (List.replicate 32 0) (plainAps (List.replicate 65536 97)) := by
  intro h
  have hlong := length_le_plainAps (List.replicate 65536 97)
  rw [List.length_replicate] at hlong
  exact Nat.not_lt.mpr hlong (short_of_faithful h)

/-- A request whose token is the encoding of 32 bytes without letters, and whose payload
is short, is answered with a frame of both. -/
theorem onRequest_frame (encode : Bytes → Bytes) (now : Int) {params : KeyValues} {upper : Bool}
    {tok msg : Bytes} (hdevtok : params.lookup (bytes "devtok") = some (hex upper tok))
    (hmessage : params.lookup (bytes "message") = some msg) (htok : tok.length = 32)
    (hdecimal : ∀ c ∈ tok, Decimal c) (hshort : (encode msg).length < 65536) :
    ∃ turns, onRequest encode now turns params = some (.ok (layout now tok (encode msg))) := by
  obtain ⟨turns, hturns⟩ := undoes_of_decimal upper (by omega) hdecimal
  refine ⟨turns, ?_⟩
  rw [onRequest, getParam, hdevtok, getParam, hmessage]
  dsimp only
  rw [hturns, Option.map_some]
  change some (apack now tok (encode msg)) = _
  rw [apack_ok now htok hshort]

end CppSnippets.PushProxy
