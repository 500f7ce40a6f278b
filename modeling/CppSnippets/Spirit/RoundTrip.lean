import CppSnippets.Spirit.PeerSession

/-!
# What is generated and what is parsed

Both sides agree on one layout. The parser takes every request whose strings fit
their length words; the generator has no output for an empty string, since `+byte_`
wants one byte at least.
-/
namespace CppSnippets.Spirit.RoundTrip

open CppSnippets.Lib StartPeerSessionRequest

/-- A string behind its length. -/
def stringText (data : Bytes) : Bytes := le16 (.ofNat data.length) ++ data

/-- The layout of a request. -/
def layout (r : StartPeerSessionRequest) : Bytes :=
  le16 r.mProtocolVersion ++ le16 r.mSessionFlags ++ le16 r.mMaxResponseLength ++
    stringText r.mMake ++ stringText r.mModel ++ stringText r.mSerialNumber ++ [r.mTrackDelay] ++
    stringText r.mHeadUnitModel ++ stringText r.mCarModelYear ++ stringText r.mVin ++
    le16 r.mVehicleMileage ++ [r.mShoutFormat] ++ [r.mNotificationInterval]

def strings (r : StartPeerSessionRequest) : List Bytes :=
  [r.mMake, r.mModel, r.mSerialNumber, r.mHeadUnitModel, r.mCarModelYear, r.mVin]

/-- Every string is at most 65535 bytes long. -/
def Fits (r : StartPeerSessionRequest) : Prop := ∀ data ∈ strings r, data.length ≤ 65535

def NoneEmpty (r : StartPeerSessionRequest) : Prop := ∀ data ∈ strings r, data ≠ []

/-! ## Parsing -/

theorem accepts_byte : Parser.Accepts doParseByte fun b s => s = [b] := by
  intro s b rest
  constructor
  · intro h
    cases s with
    | nil => cases h
    | cons c s =>
      cases h
      exact ⟨[b], rfl, rfl⟩
  · rintro ⟨_, rfl, rfl⟩
    rfl

theorem accepts_word : Parser.Accepts doParseWord fun x s => s = le16 x := by
  intro s x rest
  constructor
  · intro h
    match s, h with
    | b0 :: b1 :: s, h =>
      cases h
      exact ⟨[b0, b1], ofLe16_eq.mp rfl, rfl⟩
  · rintro ⟨_, rfl, rfl⟩
    have heq : ofLe16 (.ofNat x.toNat) (.ofNat (x.toNat / 256)) = x := ofLe16_eq.mpr rfl
    show Except.ok (ofLe16 _ _, rest) = _
    rw [heq]

theorem accepts_expectBytes (n : UInt16) :
    Parser.Accepts (expectBytes n) fun data s => s = data ∧ data.length = n.toNat := by
  intro s data rest
  show (if _ then _ else _) = _ ↔ _
  constructor
  · intro h
    split at h
    · rename_i hlen
      cases h
      exact ⟨s.take n.toNat, ⟨rfl, List.length_take_of_le hlen⟩, (List.take_append_drop _ _).symm⟩
    · cases h
  · rintro ⟨_, ⟨rfl, hlen⟩, rfl⟩
    rw [if_pos (by rw [List.length_append]; omega), ← hlen, List.take_left, List.drop_left]

theorem accepts_string :
    Parser.Accepts doParseString fun data s => data.length ≤ 65535 ∧ s = stringText data := by
  refine (accepts_word.bind accepts_expectBytes).congr fun data s => ?_
  constructor
  · rintro ⟨n, _, _, rfl, ⟨rfl, hlen⟩, rfl⟩
    have hn := n.toNat_lt
    rw [stringText, hlen, UInt16.ofNat_toNat]
    exact ⟨by omega, rfl⟩
  · rintro ⟨hlen, rfl⟩
    refine ⟨.ofNat data.length, _, _, rfl, ⟨rfl, ?_⟩, rfl⟩
    rw [UInt16.toNat_ofNat', Nat.mod_eq_of_lt (by omega)]

/-- The parser takes the layout of a request whose strings fit, and nothing else. -/
theorem accepts_parse : Parser.Accepts parse fun r s => Fits r ∧ s = layout r := by
  have hbyte : doParseByte.Accepts fun b s => True ∧ s = [b] :=
    accepts_byte.congr fun _ _ => ⟨fun h => ⟨trivial, h⟩, And.right⟩
  have hword : doParseWord.Accepts fun x s => True ∧ s = le16 x :=
    accepts_word.congr fun _ _ => ⟨fun h => ⟨trivial, h⟩, And.right⟩
  refine Parser.Accepts.congr (.of_fields (.field mProtocolVersion hword fun _ =>
    .field mSessionFlags hword fun _ => .field mMaxResponseLength hword fun _ =>
    .field mMake accepts_string fun _ => .field mModel accepts_string fun _ =>
    .field mSerialNumber accepts_string fun _ => .field mTrackDelay hbyte fun _ =>
    .field mHeadUnitModel accepts_string fun _ => .field mCarModelYear accepts_string fun _ =>
    .field mVin accepts_string fun _ => .field mVehicleMileage hword fun _ =>
    .field mShoutFormat hbyte fun _ => .field mNotificationInterval hbyte fun _ =>
    .record fun r => ?_)) fun r s => and_congr ?_ (Eq.congr rfl ?_)
  · cases r
    simp only [mk.injEq, true_and, and_assoc]
  · simp only [Fits, strings, List.forall_mem_cons, List.not_mem_nil, true_and, and_true,
      false_implies, implies_true]
  · simp only [layout, List.append_assoc, List.append_nil]

/-! ## Generating -/

theorem appends_byte (b : UInt8) : Appends (doGenerateByte b) True [b] :=
  fun _ => ⟨fun _ => rfl, fun h => absurd trivial h⟩

theorem appends_word (x : UInt16) : Appends (doGenerateWord x) True (le16 x) :=
  fun _ => ⟨fun _ => rfl, fun h => absurd trivial h⟩

theorem appends_length (data : Bytes) :
    Appends (generateLength data) (data.length ≤ 65535) (le16 (.ofNat data.length)) :=
  fun _ => ⟨fun h => if_pos h, fun h => if_neg h⟩

theorem appends_plus (data : Bytes) : Appends (generatePlus data) (data ≠ []) data := by
  intro out
  constructor
  · intro h
    exact if_neg fun h' => h (List.isEmpty_iff.mp h')
  · intro h
    exact if_pos (List.isEmpty_iff.mpr (not_not.mp h))

theorem appends_string (data : Bytes) :
    Appends (doGenerateString data) (data.length ≤ 65535 ∧ data ≠ []) (stringText data) :=
  (appends_length data).bind (appends_plus data)

/-- The generator appends the layout of a request whose strings fit and are not empty. -/
theorem appends_generate (r : StartPeerSessionRequest) :
    Appends r.generate (Fits r ∧ NoneEmpty r) (layout r) := by
  have hchain := (((((((((((((Appends.start.bind (appends_word r.mProtocolVersion)).bind
    (appends_word r.mSessionFlags)).bind (appends_word r.mMaxResponseLength)).bind
    (appends_string r.mMake)).bind (appends_string r.mModel)).bind
    (appends_string r.mSerialNumber)).bind (appends_byte r.mTrackDelay)).bind
    (appends_string r.mHeadUnitModel)).bind (appends_string r.mCarModelYear)).bind
    (appends_string r.mVin)).bind (appends_word r.mVehicleMileage)).bind
    (appends_byte r.mShoutFormat)).bind (appends_byte r.mNotificationInterval))
  refine hchain.congr ?_
  simp only [Fits, NoneEmpty, strings, List.forall_mem_cons, and_true, true_and]
  tauto

/-! ## The main result -/

/-- What the codec should do with a request: its bytes are parsed back to it, and to
the end, unless a string is too long, where there are none; and from bytes that were
parsed to it, the same bytes are generated again. -/
structure RoundTrips (r : StartPeerSessionRequest) : Prop where
  parsed : Fits r → ∃ bytes, r.generate [] = some bytes ∧ parse.run bytes = .ok (r, [])
  tooLong : ¬Fits r → r.generate [] = none
  generated : ∀ bytes rest, parse.run bytes = .ok (r, rest) →
    ∃ used, bytes = used ++ rest ∧ r.generate [] = some used

/-- The codec does so for a request if and only if none of its strings is empty, or
one of them is too long. -/
theorem roundTrips_iff (r : StartPeerSessionRequest) :
    RoundTrips r ↔ (Fits r → NoneEmpty r) := by
  have hgen := appends_generate r
  have hparse := accepts_parse
  constructor
  · intro h hfits
    obtain ⟨bytes, hbytes, _⟩ := h.parsed hfits
    exact ((hgen.some_iff []).mp hbytes).1.2
  · intro hnone
    have hlayout : Fits r → r.generate [] = some (layout r) :=
      fun hfits => (hgen.some_iff []).mpr ⟨⟨hfits, hnone hfits⟩, rfl⟩
    constructor
    · intro hfits
      exact ⟨layout r, hlayout hfits,
        (hparse _ r []).mpr ⟨layout r, ⟨hfits, rfl⟩, (List.append_nil _).symm⟩⟩
    · intro hlong
      exact (hgen []).2 fun h => hlong h.1
    · intro bytes rest hok
      obtain ⟨used, ⟨hfits, rfl⟩, rfl⟩ := (hparse bytes r rest).mp hok
      exact ⟨layout r, rfl, hlayout hfits⟩

/-- A request without a vehicle number. -/
def unnamed : StartPeerSessionRequest :=
  ⟨11404, 1, 0, [77], [77], [49], 0, [72], [50], [], 1000, 3, 1⟩

/-- It has no bytes, although the parser takes its layout. -/
theorem roundTrips_broken : Fits unnamed ∧ unnamed.generate [] = none ∧
    parse.run (layout unnamed) = .ok (unnamed, []) ∧ ¬RoundTrips unnamed := by
  have hfits : Fits unnamed := by
    simp only [Fits, strings, List.forall_mem_cons]
    decide
  refine ⟨hfits, by decide, by decide, fun h => ?_⟩
  obtain ⟨bytes, hbytes, _⟩ := h.parsed hfits
  cases hbytes

end CppSnippets.Spirit.RoundTrip
