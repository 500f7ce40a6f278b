import CppSnippets.Lib.Bytes
import CppSnippets.Lib.Parse

/-!
# The request to start a peer session

The fields of the request, one after the other: words with the low byte first, and
strings behind their length. A generator appends to what is there or fails. A
parser fails, or throws where an expectation is not met.
-/
namespace CppSnippets.Spirit

open CppSnippets.Lib

abbrev Byte := UInt8
abbrev Bytes := List Byte

/-! ## `do_generate` -/

def doGenerateByte (data : UInt8) (out : Bytes) : Option Bytes := some (out ++ [data])

def doGenerateWord (data : UInt16) (out : Bytes) : Option Bytes := some (out ++ le16 data)

/-- `length_`: `eps` fails on a size that the word cannot hold. -/
def generateLength (data : Bytes) (out : Bytes) : Option Bytes :=
  if data.length ≤ 65535 then doGenerateWord (.ofNat data.length) out else none

/-- `+byte_`, which fails on an empty container. -/
def generatePlus (data : Bytes) (out : Bytes) : Option Bytes :=
  if data.isEmpty then none else some (out ++ data)

def doGenerateString (data : Bytes) (out : Bytes) : Option Bytes :=
  generateLength data out >>= generatePlus data

/-! ## `do_parse` -/

inductive Stop where
  | failed
  /-- `qi::expectation_failure`. -/
  | expectation
  deriving DecidableEq

def doParseByte : Parser Stop Byte UInt8 := fun s =>
  match s with
  | b :: rest => .ok (b, rest)
  | [] => .error .failed

def doParseWord : Parser Stop Byte UInt16 := fun s =>
  match s with
  | b0 :: b1 :: rest => .ok (ofLe16 b0 b1, rest)
  | _ => .error .failed

/-- `raw[repeat(n) [byte_]]`, behind `>`. -/
def expectBytes (n : UInt16) : Parser Stop Byte Bytes := fun s =>
  if n.toNat ≤ s.length then .ok (s.take n.toNat, s.drop n.toNat) else .error .expectation

def doParseString : Parser Stop Byte Bytes := doParseWord >>= expectBytes

/-! ## `StartPeerSessionRequest` -/

structure StartPeerSessionRequest where
  mProtocolVersion : UInt16
  mSessionFlags : UInt16
  mMaxResponseLength : UInt16
  mMake : Bytes
  mModel : Bytes
  mSerialNumber : Bytes
  mTrackDelay : UInt8
  mHeadUnitModel : Bytes
  mCarModelYear : Bytes
  mVin : Bytes
  mVehicleMileage : UInt16
  mShoutFormat : UInt8
  mNotificationInterval : UInt8
  deriving DecidableEq

namespace StartPeerSessionRequest

def generate (r : StartPeerSessionRequest) (bytes : Bytes) : Option Bytes :=
  some bytes >>= doGenerateWord r.mProtocolVersion
    >>= doGenerateWord r.mSessionFlags
    >>= doGenerateWord r.mMaxResponseLength
    >>= doGenerateString r.mMake
    >>= doGenerateString r.mModel
    >>= doGenerateString r.mSerialNumber
    >>= doGenerateByte r.mTrackDelay
    >>= doGenerateString r.mHeadUnitModel
    >>= doGenerateString r.mCarModelYear
    >>= doGenerateString r.mVin
    >>= doGenerateWord r.mVehicleMileage
    >>= doGenerateByte r.mShoutFormat
    >>= doGenerateByte r.mNotificationInterval

/-- The request, and what is behind it, which `parse` does not look at. -/
def parse : Parser Stop Byte StartPeerSessionRequest := do
  let mProtocolVersion ← doParseWord
  let mSessionFlags ← doParseWord
  let mMaxResponseLength ← doParseWord
  let mMake ← doParseString
  let mModel ← doParseString
  let mSerialNumber ← doParseString
  let mTrackDelay ← doParseByte
  let mHeadUnitModel ← doParseString
  let mCarModelYear ← doParseString
  let mVin ← doParseString
  let mVehicleMileage ← doParseWord
  let mShoutFormat ← doParseByte
  let mNotificationInterval ← doParseByte
  pure ⟨mProtocolVersion, mSessionFlags, mMaxResponseLength, mMake, mModel, mSerialNumber,
    mTrackDelay, mHeadUnitModel, mCarModelYear, mVin, mVehicleMileage, mShoutFormat,
    mNotificationInterval⟩

end StartPeerSessionRequest

end CppSnippets.Spirit
