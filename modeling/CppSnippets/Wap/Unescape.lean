import CppSnippets.Wap.Glex

/-!
# The loop of `unescape`

`pos` is an `unsigned int`, and the loop ends when it is equal to `npos`, which is a
`size_t`. Where the two have one width the loop replaces each `&amp;` once. Where a
`size_t` is wider, `pos` is never `npos`: the loop erases the string four bytes at a
time, and goes on when nothing is left of it.
-/
namespace CppSnippets.Wap

/-- Each `&amp;`, from left to right, replaced once by `&`. -/
def replaceAmp : Bytes → Bytes
  | 38 :: 97 :: 109 :: 112 :: 59 :: s => 38 :: replaceAmp s
  | b :: s => b :: replaceAmp s
  | [] => []

/-- The loop ends, and leaves the string as it should be. -/
def Unescapes (env : Env) (s : Bytes) : Prop :=
  ∃ turns, unescapeFrom env turns 0 s = .ok (replaceAmp s)

/-! ## The replacement and the search -/

theorem bytes_amp : bytes "&amp;" = [38, 97, 109, 112, 59] := by decide

theorem replaceAmp_cons {b : Byte} {s : Bytes} (h : ¬bytes "&amp;" <+: b :: s) :
    replaceAmp (b :: s) = b :: replaceAmp s := by
  rw [replaceAmp]
  intro t hb ht
  refine h ⟨t, ?_⟩
  rw [bytes_amp, hb, ht]
  rfl

/-- Nothing changes before the first `&amp;`. -/
theorem replaceAmp_search (s : Bytes) :
    replaceAmp s =
      if search (bytes "&amp;") s < s.length then
        s.take (search (bytes "&amp;") s) ++
          38 :: replaceAmp (s.drop (search (bytes "&amp;") s + 5))
      else s := by
  induction s with
  | nil => rfl
  | cons b s ih =>
    by_cases hp : (bytes "&amp;").isPrefixOf (b :: s) = true
    · obtain ⟨t, ht⟩ := List.isPrefixOf_iff_prefix.mp hp
      rw [search, if_pos hp, if_pos (by rw [List.length_cons]; omega), ← ht, bytes_amp]
      rfl
    · have hnot : ¬bytes "&amp;" <+: b :: s := fun h => hp (List.isPrefixOf_iff_prefix.mpr h)
      rw [search, if_neg hp, replaceAmp_cons hnot, ih, List.length_cons]
      by_cases hs : search (bytes "&amp;") s < s.length
      · rw [if_pos hs, if_pos (Nat.succ_lt_succ hs)]
        rfl
      · rw [if_neg hs, if_neg (fun h => hs (Nat.lt_of_succ_lt_succ h))]

/-! ## One width -/

variable {env : Env} {esc done rest : Bytes} {pos : Nat}

theorem findAmp_append :
    findAmp env (done ++ rest) done.length =
      if search (bytes "&amp;") rest < rest.length then done.length + search (bytes "&amp;") rest
      else 2 ^ env.wordBits - 1 := by
  rw [findAmp, List.drop_left, List.length_append]
  by_cases hs : search (bytes "&amp;") rest < rest.length
  · rw [if_pos hs]
    exact if_pos (Nat.add_lt_add_left hs _)
  · rw [if_neg hs]
    exact if_neg (fun h => hs (Nat.lt_of_add_lt_add_left h))

/-- What `erase` leaves of the string behind an `&amp;`. -/
theorem erase_amp (hs : search (bytes "&amp;") rest < rest.length) :
    (done ++ rest).take (done.length + search (bytes "&amp;") rest + 1) =
        done ++ rest.take (search (bytes "&amp;") rest) ++ [38] ∧
      (done ++ rest).drop (done.length + search (bytes "&amp;") rest + 1 + 4) =
        rest.drop (search (bytes "&amp;") rest + 5) := by
  obtain ⟨t, ht⟩ := prefix_at_search hs
  have hone : (rest.drop (search (bytes "&amp;") rest)).take 1 = [38] := by
    rw [← ht, bytes_amp]
    rfl
  constructor
  · rw [Nat.add_assoc, List.take_length_add_append, List.take_add, hone, List.append_assoc]
  · rw [Nat.add_assoc, Nat.add_assoc, ← List.drop_drop, List.drop_left]

theorem unescapeFrom_ok (hbits : env.wordBits = 32) {turns : Nat} (hturns : rest.length < turns)
    (hlen : (done ++ rest).length < 2 ^ 32 - 1) :
    unescapeFrom env turns done.length (done ++ rest) = .ok (done ++ replaceAmp rest) := by
  induction turns generalizing done rest with
  | zero => exact absurd hturns (Nat.not_lt_zero _)
  | succ turns ih =>
    rw [unescapeFrom, findAmp_append, replaceAmp_search, hbits]
    rw [List.length_append] at hlen
    by_cases hs : search (bytes "&amp;") rest < rest.length
    · have hend := search_add_le hs
      rw [show (bytes "&amp;").length = 5 from rfl] at hend
      obtain ⟨htake, hdrop⟩ := @erase_amp done rest hs
      have hfound : (done.length + search (bytes "&amp;") rest) % 2 ^ 32 =
          done.length + search (bytes "&amp;") rest := Nat.mod_eq_of_lt (by omega)
      have hnext : (done.length + search (bytes "&amp;") rest + 1) % 2 ^ 32 =
          done.length + search (bytes "&amp;") rest + 1 := Nat.mod_eq_of_lt (by omega)
      have hpos : done.length + search (bytes "&amp;") rest + 1 =
          (done ++ rest.take (search (bytes "&amp;") rest) ++ [38]).length := by
        rw [List.length_append, List.length_append, List.length_take_of_le hs.le]
        rfl
      have hin : ¬(done ++ rest).length < done.length + search (bytes "&amp;") rest + 1 := by
        rw [List.length_append]
        omega
      simp only [if_pos hs, hfound, hnext]
      rw [if_neg (by omega), if_neg hin, htake, hdrop, hpos]
      rw [ih (by rw [List.length_drop]; omega)
        (by rw [List.length_append, ← hpos, List.length_drop]; omega)]
      rw [List.append_assoc, List.append_assoc]
      rfl
    · simp only [if_neg hs]
      rfl

/-! ## Two widths -/

/-- No position is `npos`, so that no turn is the last. -/
theorem unescapeFrom_diverges (hbits : 32 < env.wordBits) (turns : Nat) :
    unescapeFrom env turns pos esc = .error .diverges := by
  have hword : 2 ^ 33 ≤ 2 ^ env.wordBits := Nat.pow_le_pow_right (by decide) hbits
  induction turns generalizing pos esc with
  | zero => rfl
  | succ turns ih =>
    have hnpos : ¬findAmp env esc pos % 2 ^ 32 = 2 ^ env.wordBits - 1 := by
      have hlt := Nat.mod_lt (findAmp env esc pos) (by decide : 0 < 2 ^ 32)
      omega
    have hin : ¬esc.length < (findAmp env esc pos % 2 ^ 32 + 1) % 2 ^ 32 := by
      obtain ⟨k, hk⟩ := Nat.exists_eq_add_of_le hbits.le
      have hnone : (2 ^ env.wordBits - 1) % 2 ^ 32 = 2 ^ 32 - 1 := by
        have hpos : 0 < 2 ^ k := Nat.two_pow_pos k
        rw [hk, Nat.pow_add]
        omega
      rw [findAmp]
      split_ifs with hi
      · omega
      · omega
    simp only [unescapeFrom, if_neg hnpos, if_neg hin]
    exact ih

/-- The loop does what it should if and only if a `size_t` is as wide as an `unsigned int`. -/
theorem unescapes_iff (env : Env) (s : Bytes) (hs : s.length < 2 ^ env.wordBits - 1) :
    Unescapes env s ↔ env.wordBits = 32 := by
  constructor
  · rintro ⟨turns, hturns⟩
    by_contra hbits
    rw [unescapeFrom_diverges (Nat.lt_of_le_of_ne env.word_ge (Ne.symm hbits))] at hturns
    cases hturns
  · intro hbits
    rw [hbits] at hs
    exact ⟨s.length + 1, @unescapeFrom_ok env [] s hbits _ (Nat.lt_succ_self _) hs⟩

theorem unescapes_amp : Unescapes Env.ilp32 (bytes "&amp;") :=
  (unescapes_iff Env.ilp32 (bytes "&amp;") (by decide)).mpr rfl

/-- Words of 64 bits. -/
def Env.lp64 : Env := ⟨64, Nat.le_of_ble_eq_true rfl, fun _ => none, 0⟩

theorem not_unescapes :
    ¬∀ env : Env, ∀ s : Bytes, s.length < 2 ^ env.wordBits - 1 → Unescapes env s := by
  intro h
  obtain ⟨turns, hturns⟩ := h Env.lp64 (bytes "http://a/") (by decide)
  rw [unescapeFrom_diverges (by decide)] at hturns
  cases hturns

end CppSnippets.Wap
