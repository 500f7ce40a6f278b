import CppSnippets.Lib.Bytes
import CppSnippets.Wap.Text

/-!
# The frames of the chat client

A message is a head and a body, two JSON texts behind their lengths in 16 bits each.
`hello` and `ack` write frames, `do_read_size` and `do_read_data` read them. How a
tree of keys and values becomes a text is `encode`, any function at all.
-/
namespace CppSnippets.Ter.Framing

open CppSnippets.Lib
open CppSnippets.Wap (Bytes bytes isdigit signedDigits)

/-- A tree without children: `put` of each key in this order. -/
abbrev Ptree := List (Bytes × Bytes)

/-! ## What is written -/

/-- The texts of a message, after its lengths. -/
structure Texts where
  head : Bytes
  body : Bytes
  deriving DecidableEq

/-- `htons(static_cast<short>(size))` and the texts. -/
def frame (t : Texts) : Bytes :=
  be16 (.ofNat t.head.length) ++ be16 (.ofNat t.body.length) ++ t.head ++ t.body

/-- `"sequence":"([0-9]+?)"` at the begin of a text: the digits and what follows. -/
def matchSequence (s : Bytes) : Option (Bytes × Bytes) :=
  let key := bytes "\"sequence\":\""
  if key <+: s then
    let digits := (s.drop key.length).takeWhile isdigit
    match (s.drop key.length).dropWhile isdigit with
    | 34 :: rest => if digits ≠ [] then some (digits, rest) else none
    | _ => none
  else none

/-- `replace_all_regex_copy`, which takes the quotes off the number, with the matches
and bytes it may go over. -/
def unquoteSequence : Nat → Bytes → Bytes
  | 0, s => s
  | _ + 1, [] => []
  | turns + 1, b :: s =>
    match matchSequence (b :: s) with
    | some (digits, rest) => bytes "\"sequence\":" ++ digits ++ unquoteSequence turns rest
    | none => b :: unquoteSequence turns s

/-- A call of `hello` or `ack`, with what the client holds then. -/
inductive Message where
  | hello (token spotIn spotPk : Bytes)
  | ack (token : Bytes) (seqn : Int)

variable (encode : Ptree → Bytes)

def hello (token spotIn spotPk : Bytes) : Texts :=
  let head := [(bytes "method", bytes "hello"), (bytes "token", token)]
  let body := (if spotIn ≠ [] then [(bytes "spotsid", spotIn)] else []) ++
    (if spotPk ≠ [] then [(bytes "usingsid", spotPk)] else [])
  ⟨encode head, encode body⟩

def ack (token : Bytes) (seqn : Int) : Texts :=
  let head := encode [(bytes "token", token), (bytes "method", bytes "ack"),
    (bytes "sequence", signedDigits seqn)]
  ⟨unquoteSequence head.length head, bytes "\x7b\x7d"⟩

def Message.texts : Message → Texts
  | .hello token spotIn spotPk => Framing.hello encode token spotIn spotPk
  | .ack token seqn => Framing.ack encode token seqn

/-- What the messages put on the wire. -/
def written (msgs : List Message) : Bytes := msgs.flatMap fun m => frame (m.texts encode)

/-! ## What is read -/

/-- `do_read_size`: the two lengths, where four bytes are there. -/
def readSize : Bytes → Option (Nat × Nat × Bytes)
  | a :: b :: c :: d :: rest => some ((ofBe16 a b).toNat, (ofBe16 c d).toNat, rest)
  | _ => none

/-- `do_read_data`: `read_msg_`, split at `read_size_.h[0]`. -/
def readData (h0 h1 : Nat) (s : Bytes) : Option (Texts × Bytes) :=
  if s.length < h0 + h1 then none
  else some (⟨s.take h0, (s.take (h0 + h1)).drop h0⟩, s.drop (h0 + h1))

def readFrame (s : Bytes) : Option (Texts × Bytes) := do
  let (h0, h1, rest) ← readSize s
  readData h0 h1 rest

/-- The texts that are read from a stream, and what is left when it ends. -/
def readAll : Nat → Bytes → List Texts × Bytes
  | 0, s => ([], s)
  | turns + 1, s =>
    match readFrame s with
    | none => ([], s)
    | some (t, rest) => ((t :: (readAll turns rest).1), (readAll turns rest).2)

/-- Every frame takes four bytes at least, so the length bounds the turns. -/
def readBack (s : Bytes) : List Texts × Bytes := readAll s.length s

/-- Both lengths fit into 16 bits. -/
def Texts.Fits (t : Texts) : Prop := t.head.length ≤ 65535 ∧ t.body.length ≤ 65535

instance (t : Texts) : Decidable t.Fits := inferInstanceAs (Decidable (_ ∧ _))

/-! ## One frame -/

/-- A length that fits comes back from its two bytes. -/
theorem be16_length_back {n : Nat} (h : n ≤ 65535) :
    ∃ a b, be16 (.ofNat n) = [a, b] ∧ (ofBe16 a b).toNat = n := by
  refine ⟨_, _, rfl, ?_⟩
  rw [ofBe16_be16]
  exact UInt16.toNat_ofNat_of_lt' (by change n < 65536; omega)

theorem readFrame_frame {t : Texts} (h : t.Fits) (s : Bytes) : readFrame (frame t ++ s) = some (t, s) := by
  have hsize : readSize (frame t ++ s) = some (t.head.length, t.body.length, t.head ++ (t.body ++ s)) := by
    obtain ⟨a, b, hhead, hh⟩ := be16_length_back h.1
    obtain ⟨c, d, hbody, hb⟩ := be16_length_back h.2
    rw [frame, hhead, hbody]
    simp only [List.append_assoc, List.cons_append, List.nil_append, readSize, hh, hb]
  have hlen : ¬(t.head ++ (t.body ++ s)).length < t.head.length + t.body.length := by
    rw [List.length_append, List.length_append]
    omega
  have hdata : readData t.head.length t.body.length (t.head ++ (t.body ++ s)) = some (t, s) := by
    have htake : (t.head ++ (t.body ++ s)).take (t.head.length + t.body.length) = t.head ++ t.body := by
      rw [← List.append_assoc, List.take_left' (by rw [List.length_append])]
    have hdrop : (t.head ++ (t.body ++ s)).drop (t.head.length + t.body.length) = s := by
      rw [← List.append_assoc, List.drop_left' (by rw [List.length_append])]
    rw [readData, if_neg hlen, htake, hdrop, List.take_left, List.drop_left]
  rw [readFrame, hsize]
  exact hdata

/-- Whatever is read fits. -/
theorem fits_of_readFrame {s rest : Bytes} {t : Texts} (h : readFrame s = some (t, rest)) : t.Fits := by
  rw [readFrame] at h
  cases hsize : readSize s with
  | none =>
    rw [hsize] at h
    cases h
  | some r =>
    obtain ⟨h0, h1, r⟩ := r
    rw [hsize] at h
    have hbound : h0 ≤ 65535 ∧ h1 ≤ 65535 := by
      rw [readSize.eq_def] at hsize
      split at hsize
      · cases hsize
        exact ⟨Nat.le_of_lt_succ (UInt16.toNat_lt _), Nat.le_of_lt_succ (UInt16.toNat_lt _)⟩
      · cases hsize
    have hdata : readData h0 h1 r = some (t, rest) := h
    rw [readData] at hdata
    split at hdata
    · cases hdata
    · cases hdata
      rw [Texts.Fits, List.length_take, List.length_drop, List.length_take]
      omega

/-! ## A stream of frames -/

theorem readAll_frames {ts : List Texts} (h : ∀ t ∈ ts, t.Fits) {turns : Nat} (hturns : ts.length ≤ turns) :
    readAll turns (ts.flatMap frame) = (ts, []) := by
  induction ts generalizing turns with
  | nil =>
    cases turns with
    | zero => rfl
    | succ turns => rfl
  | cons t ts ih =>
    obtain ⟨turns, rfl⟩ : ∃ n, turns = n + 1 := ⟨turns - 1, by rw [List.length_cons] at hturns; omega⟩
    have hrest : readAll turns (ts.flatMap frame) = (ts, []) :=
      ih (fun t' ht' => h t' (List.mem_cons_of_mem t ht')) (by rw [List.length_cons] at hturns; omega)
    rw [readAll, List.flatMap_cons, readFrame_frame (h t List.mem_cons_self)]
    dsimp only
    rw [hrest]

theorem fits_of_readAll (turns : Nat) (s : Bytes) : ∀ t ∈ (readAll turns s).1, t.Fits := by
  induction turns generalizing s with
  | zero =>
    intro t ht
    cases ht
  | succ turns ih =>
    intro t ht
    rw [readAll] at ht
    cases hframe : readFrame s with
    | none =>
      rw [hframe] at ht
      cases ht
    | some r =>
      obtain ⟨t', rest⟩ := r
      rw [hframe] at ht
      cases List.mem_cons.mp ht with
      | inl heq => exact heq ▸ fits_of_readFrame hframe
      | inr hmem => exact ih rest t hmem

theorem length_le_flatMap_frame (ts : List Texts) : ts.length ≤ (ts.flatMap frame).length := by
  induction ts with
  | nil => exact Nat.le_refl 0
  | cons t ts ih =>
    rw [List.flatMap_cons, List.length_append, List.length_cons]
    have hframe : 4 ≤ (frame t).length := by
      rw [frame, List.length_append, List.length_append, List.length_append, be16_length, be16_length]
      omega
    omega

theorem readBack_frames {ts : List Texts} : readBack (ts.flatMap frame) = (ts, []) ↔ ∀ t ∈ ts, t.Fits := by
  constructor
  · intro h t ht
    have hall := fits_of_readAll (ts.flatMap frame).length (ts.flatMap frame)
    rw [show readAll _ _ = _ from h] at hall
    exact hall t ht
  · intro h
    exact readAll_frames h (length_le_flatMap_frame ts)

/-! ## The main result -/

/-- For every way of writing JSON and every list of messages: the reader gets exactly
the texts that were written if and only if the lengths of all of them fit. -/
theorem framing_iff (msgs : List Message) :
    readBack (written encode msgs) = (msgs.map (Message.texts encode), []) ↔
      ∀ m ∈ msgs, (m.texts encode).Fits := by
  have hwritten : written encode msgs = (msgs.map (Message.texts encode)).flatMap frame := by
    rw [List.flatMap_map]
    rfl
  rw [hwritten, readBack_frames, List.forall_mem_map]

/-- JSON of texts that have nothing to escape. -/
def plainJson (t : Ptree) : Bytes :=
  let item : Bytes × Bytes → Bytes := fun kv => bytes "\"" ++ kv.1 ++ bytes "\":\"" ++ kv.2 ++ bytes "\""
  bytes "\x7b" ++ (bytes ",").intercalate (t.map item) ++ bytes "\x7d\n"

example : ack plainJson (bytes "t") 12 =
    ⟨bytes "\x7b\"token\":\"t\",\"method\":\"ack\",\"sequence\":12\x7d\n", bytes "\x7b\x7d"⟩ := by decide +kernel

/-- The longest token that the server can send. -/
theorem framing_long : readBack (written plainJson [.hello (List.replicate 65535 97) [] []]) ≠
    ([Message.texts plainJson (.hello (List.replicate 65535 97) [] [])], []) := by
  intro h
  have hwritten : written plainJson [.hello (List.replicate 65535 97) [] []] =
      [Message.texts plainJson (.hello (List.replicate 65535 97) [] [])].flatMap frame := rfl
  rw [hwritten, readBack_frames] at h
  have hfits := (h _ (List.mem_singleton_self _)).1
  have hbrace : (bytes "\x7b").length = 1 := rfl
  simp only [Message.texts, hello, plainJson, List.map_cons, List.map_nil, List.intercalate,
    List.intersperse_cons_cons, List.intersperse_singleton, List.flatten_cons, List.length_append,
    List.length_replicate] at hfits
  omega

end CppSnippets.Ter.Framing
