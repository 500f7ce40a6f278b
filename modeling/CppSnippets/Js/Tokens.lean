import CppSnippets.Js.Grammar
import Mathlib.Data.List.TakeWhile

/-!
# What the functions on tokens accept

Each of them returns at the end of a token that stands at the first byte behind the
whitespace, and a return of each comes from a token there. Only at the end of the
range do they read outside.
-/
namespace CppSnippets.Js

open CppSnippets.Lib Traced

variable {ν : Type} {after : Option Byte} {beg p t : Ptr} {c : Byte}

/-! ## Whitespace -/

theorem skipss_spaces (ws : Spaces) (t : Ptr) : skipss (ws.text ++ t) = skipss t :=
  List.dropWhile_append_of_pos ws.all

theorem skipss_cons (h : isspace c = false) (t : Ptr) : skipss (c :: t) = c :: t :=
  List.dropWhile_cons_of_neg (by simp [h])

theorem skipss_eq_nil {s : Ptr} : skipss s = [] ↔ Blank s := List.dropWhile_eq_nil_iff

theorem isspace_of_skipss {s : Ptr} (h : skipss s = c :: p) : isspace c = false := by
  have hne : s.dropWhile isspace ≠ [] := by
    rw [show s.dropWhile isspace = c :: p from h]
    exact List.cons_ne_nil c p
  have hhead := List.head_dropWhile_not isspace hne
  simpa only [show s.dropWhile isspace = c :: p from h, List.head_cons] using hhead

theorem skipss_skipss (s : Ptr) : skipss (skipss s) = skipss s := by
  cases h : skipss s with
  | nil => rfl
  | cons c p => exact skipss_cons (isspace_of_skipss h) p

/-- The whitespace that `skipss` goes over. -/
theorem exists_spaces (s : Ptr) : ∃ ws : Spaces, s = ws.text ++ skipss s :=
  ⟨⟨s.takeWhile isspace, fun _ hb => List.mem_takeWhile_imp hb⟩, List.takeWhile_append_dropWhile.symm⟩

/-- The parser may fail anywhere; it reads outside only if `P` holds. -/
def Bad (after : Option Byte) (P : Prop) : Stop → Prop
  | .fail _ => True
  | .outside => after = none ∧ P
  | .fuel => False

theorem Bad.mono {P Q : Prop} (h : P → Q) : ∀ e, Bad after P e → Bad after Q e
  | .fail _, hb => hb
  | .outside, hb => ⟨hb.1, h hb.2⟩
  | .fuel, hb => hb

/-! ## Strings -/

theorem jsaxString_cons (hs : skipss beg = c :: p) :
    (jsaxString after beg : Parse ν Ret) =
      if (c ≠ dquote ∧ c ≠ squote) ∨ (c :: p).length ≤ 1 then throw (.fail (c :: p))
      else if p.dropWhile (· ≠ c) = [] then throw (.fail (c :: p))
      else pure ⟨(p.dropWhile (· ≠ c)).tail, p, p.dropWhile (· ≠ c)⟩ := by
  simp only [jsaxString, hs, deref, pure_bind, List.tail_cons]

theorem jsaxString_returns (q : Quoted) (hs : skipss beg = q.text ++ t) :
    Returns (jsaxString after beg : Parse ν Ret) (Scalar.ret t (.str q)) [] := by
  have hs' : skipss beg = q.mark :: (q.body ++ q.mark :: t) := by
    rw [hs, Quoted.text, List.cons_append, List.append_assoc]
    rfl
  have hfind : (q.body ++ q.mark :: t).dropWhile (· ≠ q.mark) = q.mark :: t := by
    rw [List.dropWhile_append_of_pos, List.dropWhile_cons_of_neg (by simp)]
    intro b hb
    have hne : b ≠ q.mark := fun he => q.free (he ▸ hb)
    simpa using hne
  have hquote : ¬((q.mark ≠ dquote ∧ q.mark ≠ squote) ∨
      (q.mark :: (q.body ++ q.mark :: t)).length ≤ 1) := by
    rintro (⟨h1, h2⟩ | h)
    · exact q.isMark.elim h1 h2
    · simp at h
  rw [jsaxString_cons hs', hfind, if_neg hquote, if_neg (List.cons_ne_nil _ _)]
  exact returns_pure _

theorem jsaxString_meets (hs : skipss beg = c :: p) :
    Meets (jsaxString after beg : Parse ν Ret)
      (fun r ks => ks = [] ∧ ∃ q t, c :: p = Quoted.text q ++ t ∧ r = Scalar.ret t (.str q))
      (Bad after False) := by
  rw [jsaxString_cons hs]
  split
  · exact meets_throw trivial
  · rename_i hquote
    rw [not_or, not_and_or, not_not, not_not] at hquote
    split
    · exact meets_throw trivial
    · rename_i hne
      obtain ⟨m, t, hm⟩ := List.exists_cons_of_ne_nil hne
      have hmark : m = c := by
        have hhead := List.head_dropWhile_not (fun b => decide (b ≠ c)) hne
        simpa only [hm, List.head_cons, decide_eq_false_iff_not, not_not] using hhead
      subst hmark
      have hbody : ∀ b ∈ p.takeWhile (· ≠ m), b ≠ m := by
        intro b hb
        simpa using List.mem_takeWhile_imp hb
      have hp : p.takeWhile (· ≠ m) ++ m :: t = p := by
        rw [← hm]
        exact List.takeWhile_append_dropWhile
      refine meets_pure ⟨rfl, ⟨m, p.takeWhile (· ≠ m), hquote.1, fun h => hbody m h rfl⟩, t, ?_, ?_⟩
      · simp only [Quoted.text, List.cons_append, List.append_assoc, List.nil_append, hp]
      · rw [hm]
        simp only [Scalar.ret, hp, List.tail_cons]

/-! ## Numbers -/

/-- The byte may stand inside a number. -/
def numeral (b : Byte) : Bool := isdigit b || b == dot

/-- What stands behind a number does not go on with it. -/
def Stops (t : Ptr) : Prop := ∀ b ∈ t.head?, numeral b = false

theorem numeral_of_isspace (h : isspace c = true) : numeral c = false := by
  grind [isspace, isdigit, numeral]

theorem stops_cons (h : numeral c = false) (t : Ptr) : Stops (c :: t) := by
  intro b hb
  obtain rfl := Option.mem_some.mp hb
  exact h

theorem stops_spaces (ws : Spaces) (ht : Stops t) : Stops (ws.text ++ t) := by
  obtain ⟨text, hall⟩ := ws
  cases text with
  | nil => exact ht
  | cons d l => exact stops_cons (numeral_of_isspace (hall d List.mem_cons_self)) (l ++ t)

theorem dropWhile_numeral {l : List Byte} (hl : ∀ b ∈ l, numeral b = true) (ht : Stops t) :
    (l ++ t).dropWhile numeral = t := by
  rw [List.dropWhile_append_of_pos hl]
  cases t with
  | nil => rfl
  | cons b t => exact List.dropWhile_cons_of_neg (by simp [ht b rfl])

theorem range_append (l t : List Byte) : range (l ++ t) t = l := by
  rw [range, List.length_append, Nat.add_sub_cancel, List.take_left]

theorem jsaxDigital_cons (hs : skipss beg = c :: p) :
    (jsaxDigital after beg : Parse ν Ret) =
      match if c = minus ∨ c = plus then p else c :: p with
      | [] => throw (.fail (c :: p))
      | d :: q =>
          if isdigit d = false then throw (.fail (c :: p))
          else if (range (c :: p) (q.dropWhile numeral)).count dot > 1 then throw (.fail (c :: p))
          else pure ⟨q.dropWhile numeral, c :: p, q.dropWhile numeral⟩ := by
  simp only [jsaxDigital, hs, deref, pure_bind, List.tail_cons]
  rfl

theorem Number.count_dot (n : Number) : n.text.count dot ≤ 1 := by
  have hhead : n.head ≠ dot := by
    intro h
    have hd := n.isHead
    rw [h] at hd
    exact absurd hd (by decide)
  have hsign : n.sign.count dot = 0 := by
    rcases n.isSign with h | h | h <;> rw [h] <;> decide
  rw [Number.text, List.count_append, hsign, Nat.zero_add, List.count_cons_of_ne hhead]
  exact n.dots

theorem Number.numeral_tail (n : Number) : ∀ b ∈ n.tail, numeral b = true := by
  intro b hb
  rcases n.isTail b hb with h | h <;> simp [numeral, h]

/-- A number begins with a sign or with a digit, and no sign is a digit. -/
theorem Number.text_cons (n : Number) : ∃ c p, n.text = c :: p ∧
    (c = plus ∨ c = minus ∨ isdigit c = true) ∧
    (if c = minus ∨ c = plus then p else c :: p) = n.head :: n.tail := by
  rcases n.isSign with h | h | h
  · have hdigit : ¬(n.head = minus ∨ n.head = plus) := by
      rintro (he | he) <;> exact absurd (he ▸ n.isHead) (by decide)
    exact ⟨n.head, n.tail, by rw [Number.text, h]; rfl, .inr (.inr n.isHead), if_neg hdigit⟩
  · exact ⟨plus, n.head :: n.tail, by rw [Number.text, h]; rfl, .inl rfl, rfl⟩
  · exact ⟨minus, n.head :: n.tail, by rw [Number.text, h]; rfl, .inr (.inl rfl), rfl⟩

theorem jsaxDigital_returns (n : Number) (hs : skipss beg = n.text ++ t) (ht : Stops t) :
    Returns (jsaxDigital after beg : Parse ν Ret) (Scalar.ret t (.int n)) [] := by
  obtain ⟨c, p, hn, _, hunsigned⟩ := n.text_cons
  have hs' : skipss beg = c :: (p ++ t) := by rw [hs, hn]; rfl
  have hscan : (if c = minus ∨ c = plus then p ++ t else c :: (p ++ t)) =
      n.head :: (n.tail ++ t) := by
    split at hunsigned
    · rename_i h
      rw [if_pos h, hunsigned]
      rfl
    · rename_i h
      rw [if_neg h, ← List.cons_append, hunsigned]
      rfl
  have hdrop : (n.tail ++ t).dropWhile numeral = t := dropWhile_numeral n.numeral_tail ht
  have hwhole : c :: (p ++ t) = n.text ++ t := by rw [hn, List.cons_append]
  rw [jsaxDigital_cons hs', hscan, hwhole]
  simp only [hdrop, range_append, n.isHead, Nat.not_lt.mpr n.count_dot,
    Bool.true_eq_false, if_false]
  exact returns_pure _

theorem jsaxDigital_meets (hs : skipss beg = c :: p) :
    Meets (jsaxDigital after beg : Parse ν Ret)
      (fun r ks => ks = [] ∧ ∃ n t, c :: p = Number.text n ++ t ∧ r = Scalar.ret t (.int n))
      (Bad after False) := by
  rw [jsaxDigital_cons hs]
  obtain ⟨sign, hsign, hscan⟩ : ∃ sign, (sign = [] ∨ sign = [plus] ∨ sign = [minus]) ∧
      c :: p = sign ++ (if c = minus ∨ c = plus then p else c :: p) := by
    split
    · rename_i h
      rcases h with rfl | rfl
      · exact ⟨[minus], .inr (.inr rfl), rfl⟩
      · exact ⟨[plus], .inr (.inl rfl), rfl⟩
    · exact ⟨[], .inl rfl, rfl⟩
  cases hq : (if c = minus ∨ c = plus then p else c :: p) with
  | nil => exact meets_throw trivial
  | cons d q =>
    rw [hq] at hscan
    dsimp only
    split
    · exact meets_throw trivial
    · rename_i hdigit
      split
      · exact meets_throw trivial
      · rename_i hdots
        have hsplit : c :: p =
            (sign ++ d :: q.takeWhile numeral) ++ q.dropWhile numeral := by
          rw [hscan, List.append_assoc, List.cons_append, List.takeWhile_append_dropWhile]
        have hcount : (q.takeWhile numeral).count dot ≤ 1 := by
          rw [hsplit, range_append, List.count_append] at hdots
          have hle := List.count_le_count_cons (a := dot) (b := d) (l := q.takeWhile numeral)
          omega
        have htail : ∀ b ∈ q.takeWhile numeral, isdigit b = true ∨ b = dot := by
          intro b hb
          have hnum : numeral b = true := List.mem_takeWhile_imp hb
          simpa [numeral] using hnum
        refine meets_pure ⟨rfl, ⟨sign, d, q.takeWhile numeral, hsign, by simpa using hdigit, htail,
          hcount⟩, q.dropWhile numeral, hsplit, ?_⟩
        simp only [Scalar.ret, Number.text, ← hsplit]

/-! ## Booleans -/

theorem jsaxBoolean_cons (hs : skipss beg = c :: p) :
    (jsaxBoolean after beg : Parse ν Ret) =
      if c = 0x54 ∨ c = 0x74 then letters (c :: p) rue
      else if c = 0x46 ∨ c = 0x66 then letters (c :: p) alse
      else throw (.fail (c :: p)) := by
  simp only [jsaxBoolean, hs, deref, pure_bind]

theorem letters_append (rest t : List Byte) : (letters (c :: (rest ++ t)) rest : Parse ν Ret) =
    pure ⟨t, c :: (rest ++ t), t⟩ := by
  have hlen : ¬((c :: (rest ++ t)).length < rest.length + 1 ∨
      (c :: (rest ++ t)).tail.take rest.length ≠ rest) := by
    simp
  rw [letters, if_neg hlen]
  simp

theorem jsaxBoolean_returns (w : Word) (hs : skipss beg = w.text ++ t) :
    Returns (jsaxBoolean after beg : Parse ν Ret) (Scalar.ret t (.bool w)) [] := by
  have hs' : skipss beg = w.head :: (w.rest ++ t) := hs
  have hret : (letters (w.head :: (w.rest ++ t)) w.rest : Parse ν Ret) =
      pure (Scalar.ret t (.bool w)) := letters_append w.rest t
  rw [jsaxBoolean_cons hs']
  rcases w.isWord with ⟨hc, hr⟩ | ⟨hc, hr⟩
  · rw [if_pos hc, ← hr, hret]
    exact returns_pure _
  · have hnot : ¬(w.head = 0x54 ∨ w.head = 0x74) := by
      rcases hc with h | h <;> rw [h] <;> decide
    rw [if_neg hnot, if_pos hc, ← hr, hret]
    exact returns_pure _

theorem letters_meets {rest : List Byte}
    (hc : (c = 0x54 ∨ c = 0x74) ∧ rest = rue ∨ (c = 0x46 ∨ c = 0x66) ∧ rest = alse) :
    Meets (letters (c :: p) rest : Parse ν Ret)
      (fun r ks => ks = [] ∧ ∃ w t, c :: p = Word.text w ++ t ∧ r = Scalar.ret t (.bool w))
      (Bad after False) := by
  unfold letters
  split
  · exact meets_throw trivial
  · rename_i h
    rw [not_or, not_not] at h
    have htake : p.take rest.length = rest := h.2
    have hp : p = rest ++ p.drop rest.length := by
      calc p = p.take rest.length ++ p.drop rest.length := (List.take_append_drop _ _).symm
        _ = rest ++ p.drop rest.length := by rw [htake]
    refine meets_pure ⟨rfl, ⟨c, rest, hc⟩, p.drop rest.length, congrArg (c :: ·) hp, ?_⟩
    simp only [Scalar.ret, Word.text, List.cons_append, ← hp, List.drop_succ_cons]

theorem jsaxBoolean_meets (hs : skipss beg = c :: p) :
    Meets (jsaxBoolean after beg : Parse ν Ret)
      (fun r ks => ks = [] ∧ ∃ w t, c :: p = Word.text w ++ t ∧ r = Scalar.ret t (.bool w))
      (Bad after False) := by
  rw [jsaxBoolean_cons hs]
  split
  · rename_i h
    exact letters_meets (.inl ⟨h, rfl⟩)
  · split
    · rename_i h
      exact letters_meets (.inr ⟨h, rfl⟩)
    · exact meets_throw trivial

end CppSnippets.Js
