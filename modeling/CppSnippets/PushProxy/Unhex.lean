import CppSnippets.Lib.Loop
import CppSnippets.Wap.Text
import Mathlib.Data.Fintype.Basic

/-!
# The device token in hexadecimal

`unhex` takes `'a'` off a letter, not `'a'` and ten, so that only the digits 0 to 9 have
their value. Its index is an `unsigned int`: from 2^32 characters on it starts again
before the end is reached.
-/
namespace CppSnippets.PushProxy

open CppSnippets.Lib
open CppSnippets.Wap (Byte Bytes Trap)

/-! ## The code -/

/-- `h -= (h <= '9' ? '0': 'a')`, where `char` is signed. -/
def nibble (h : Byte) : Byte := h - if h.toInt8 ≤ 57 then 48 else 97

/-- One turn of `unhex`, with the index and the bytes so far. -/
def unhexTurn (hs : Bytes) (s : UInt32 × Bytes) : (UInt32 × Bytes) ⊕ Except Trap Bytes :=
  let (x, buf) := s
  if (x + 1).toNat < hs.length then
    match hs[x.toNat]?, hs[(x + 1).toNat]? with
    | some h, some l => .inl (x + 2, buf ++ [nibble h <<< 4 ||| nibble l])
    | _, _ => .inr (.error .undefined)
  else .inr (.ok buf)

/-- `unhex`, in at most this many turns. -/
def unhex (turns : Nat) (hs : Bytes) : Option (Except Trap Bytes) :=
  Loop.run (unhexTurn hs) turns (0, [])

/-! ## Hexadecimal -/

/-- The digit of a number below 16. -/
def hexDigit (upper : Bool) (n : Nat) : Byte :=
  if n < 10 then .ofNat (48 + n)
  else if upper = true then .ofNat (55 + n)
  else .ofNat (87 + n)

/-- The hexadecimal encoding. -/
def hex (upper : Bool) (b : Bytes) : Bytes :=
  b.flatMap fun c => [hexDigit upper (c.toNat / 16), hexDigit upper (c.toNat % 16)]

/-- Neither digit of the byte is a letter. -/
def Decimal (c : Byte) : Prop := c.toNat / 16 < 10 ∧ c.toNat % 16 < 10

instance : DecidablePred Decimal := fun _ => inferInstanceAs (Decidable (_ ∧ _))

/-- What `unhex` makes of the two digits of a byte. -/
def readBack (upper : Bool) (c : Byte) : Byte :=
  nibble (hexDigit upper (c.toNat / 16)) <<< 4 ||| nibble (hexDigit upper (c.toNat % 16))

theorem readBack_eq_iff (upper : Bool) (c : Byte) : readBack upper c = c ↔ Decimal c := by
  have hall : ∀ upper : Bool, ∀ n : Fin 256,
      readBack upper (.ofNat n.val) = .ofNat n.val ↔ Decimal (.ofNat n.val) := by
    decide +kernel
  have h := hall upper ⟨c.toNat, c.toNat_lt⟩
  rwa [UInt8.ofNat_toNat] at h

theorem map_eq_self_iff {f : Byte → Byte} {b : Bytes} : b.map f = b ↔ ∀ c ∈ b, f c = c := by
  induction b with
  | nil => simp
  | cons c b ih => rw [List.map_cons, List.cons.injEq, ih, List.forall_mem_cons]

theorem hex_length (upper : Bool) (b : Bytes) : (hex upper b).length = 2 * b.length := by
  induction b with
  | nil => rfl
  | cons c b ih =>
    rw [hex, List.flatMap_cons, List.length_append, ← hex, ih, List.length_cons, List.length_cons,
      List.length_cons, List.length_nil]
    omega

/-! ## How the loop ends -/

variable {hs buf : Bytes} {x : UInt32}

theorem succ_toNat (hx : x.toNat + 1 < 2 ^ 32) : (x + 1).toNat = x.toNat + 1 := by
  rw [UInt32.toNat_add]
  exact Nat.mod_eq_of_lt hx

theorem turn_next {h l : Byte} (hx : x.toNat + 1 < 2 ^ 32) (hh : hs[x.toNat]? = some h)
    (hl : hs[x.toNat + 1]? = some l) :
    unhexTurn hs (x, buf) = .inl (x + 2, buf ++ [nibble h <<< 4 ||| nibble l]) := by
  have hlt : (x + 1).toNat < hs.length := by
    rw [succ_toNat hx]
    exact (List.getElem?_eq_some_iff.mp hl).1
  rw [unhexTurn, if_pos hlt, hh, succ_toNat hx, hl]

theorem turn_exit (hx : x.toNat + 1 < 2 ^ 32) (hlen : hs.length ≤ x.toNat + 1) :
    unhexTurn hs (x, buf) = .inr (.ok buf) := by
  have hnot : ¬(x + 1).toNat < hs.length := by
    rw [succ_toNat hx]
    omega
  rw [unhexTurn, if_neg hnot]

/-- The turns from behind `done` on, where the index does not start again. -/
theorem ends_from {upper : Bool} {done b : Bytes} (hx : x.toNat = done.length)
    (hlen : done.length + 2 * b.length + 1 < 2 ^ 32) :
    Loop.Ends (unhexTurn (done ++ hex upper b)) (x, buf)
      (.ok (buf ++ b.map (readBack upper))) := by
  induction b generalizing x done buf with
  | nil =>
    apply Loop.ends_exit
    rw [List.map_nil, List.append_nil]
    apply turn_exit
    · omega
    · rw [List.length_append, hex_length, List.length_nil]
      omega
  | cons c b ih =>
    rw [List.length_cons] at hlen
    let h := hexDigit upper (c.toNat / 16)
    let l := hexDigit upper (c.toNat % 16)
    have hs : done ++ hex upper (c :: b) = (done ++ [h, l]) ++ hex upper b := by
      rw [hex, List.flatMap_cons, List.append_assoc]
      rfl
    have hstep : unhexTurn (done ++ hex upper (c :: b)) (x, buf) =
        .inl (x + 2, buf ++ [readBack upper c]) := by
      apply turn_next (by omega)
      · rw [hx, List.getElem?_append_right (Nat.le_refl _), Nat.sub_self]
        rfl
      · rw [hx, List.getElem?_append_right (Nat.le_add_right _ 1), Nat.add_sub_cancel_left]
        rfl
    have hx2 : (x + 2).toNat = (done ++ [h, l]).length := by
      rw [UInt32.toNat_add, List.length_append, hx]
      exact Nat.mod_eq_of_lt (by change done.length + 2 < 2 ^ 32; omega)
    have hrest := @ih (buf ++ [readBack upper c]) _ _ hx2
      (by rw [List.length_append, List.length_cons, List.length_cons, List.length_nil]; omega)
    rw [← hs, List.append_assoc] at hrest
    exact (Loop.ends_next hstep).mpr hrest

theorem ends_hex {upper : Bool} {b : Bytes} (hlen : b.length < 2 ^ 31) :
    Loop.Ends (unhexTurn (hex upper b)) (0, []) (.ok (b.map (readBack upper))) := by
  have h := @ends_from [] 0 upper [] b rfl (by rw [List.length_nil]; omega)
  exact h

/-- From 2^32 characters on there are always two at the index, which is even. -/
theorem not_ends_long (hlen : 2 ^ 32 ≤ hs.length) (r : Except Trap Bytes) :
    ¬Loop.Ends (unhexTurn hs) (0, []) r := by
  apply Loop.not_ends (I := fun s => s.1.toNat % 2 = 0) _ rfl
  rintro ⟨x, buf⟩ heven
  have hbound := x.toNat_lt
  dsimp only at heven
  have hx : x.toNat + 1 < 2 ^ 32 := by omega
  obtain ⟨h, hh⟩ : ∃ h, hs[x.toNat]? = some h := ⟨_, List.getElem?_eq_getElem (by omega)⟩
  obtain ⟨l, hl⟩ : ∃ l, hs[x.toNat + 1]? = some l := ⟨_, List.getElem?_eq_getElem (by omega)⟩
  refine ⟨_, turn_next hx hh hl, ?_⟩
  rw [UInt32.toNat_add]
  change (x.toNat + 2) % 2 ^ 32 % 2 = 0
  omega

/-! ## The main result -/

/-- `unhex` returns the bytes whose encoding it is given. -/
def Undoes (upper : Bool) (b : Bytes) : Prop :=
  ∃ turns, unhex turns (hex upper b) = some (.ok b)

theorem map_readBack {upper : Bool} {b : Bytes} :
    b.map (readBack upper) = b ↔ ∀ c ∈ b, Decimal c := by
  simp only [map_eq_self_iff, readBack_eq_iff]

theorem undoes_of_decimal (upper : Bool) {b : Bytes} (hlen : b.length < 2 ^ 31)
    (hb : ∀ c ∈ b, Decimal c) : Undoes upper b := by
  have h := @ends_hex upper b hlen
  rw [map_readBack.mpr hb] at h
  exact h

/-- Whatever the case of the letters: `unhex` undoes the encoding of `b` if and only if
`b` has less than 2^31 bytes and no digit of them is a letter. -/
theorem undoes_iff (upper : Bool) (b : Bytes) :
    Undoes upper b ↔ b.length < 2 ^ 31 ∧ ∀ c ∈ b, Decimal c := by
  constructor
  · intro h
    have hlen : b.length < 2 ^ 31 := by
      by_contra hlong
      exact not_ends_long (by rw [hex_length]; omega) _ h
    have heq := Loop.Ends.unique (ends_hex hlen) h
    exact ⟨hlen, map_readBack.mp (Except.ok.inj heq)⟩
  · rintro ⟨hlen, hb⟩
    exact undoes_of_decimal upper hlen hb

/-- The encoding of 10 is read as 0. -/
theorem not_undoes : ¬Undoes false [10] ∧ ¬Undoes true [10] := by
  have hnot : ∀ upper, ¬Undoes upper [10] := by
    intro upper h
    have heq := Loop.Ends.unique (@ends_hex upper [10] (by decide)) h
    have hread : readBack upper 10 = 10 := (List.cons.inj (Except.ok.inj heq)).1
    exact absurd ((readBack_eq_iff upper 10).mp hread) (by decide)
  exact ⟨hnot false, hnot true⟩

end CppSnippets.PushProxy
