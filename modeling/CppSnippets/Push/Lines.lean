import CppSnippets.Push.Http

/-!
# Lines in a buffer

Lines that end with CR and LF, the buffer that has received a part of them, and what it
contains as soon as it has the end of a line, or the empty line at the end of a header.
-/
namespace CppSnippets.Push

open CppSnippets.Wap (Bytes find search prefix_at_search search_le_at search_lt_iff)

def crlf : Bytes := [13, 10]

/-- Lines, each with its end. -/
def textOf (ls : List Bytes) : Bytes := ls.flatMap (· ++ crlf)

theorem find_append {l : Bytes} (h : 10 ∉ l) (rest : Bytes) :
    find 10 (l ++ 13 :: 10 :: rest) = l.length + 1 := by
  rw [Wap.find_append_of_not_mem h]
  rfl

theorem getline_line {l : Bytes} (h : 10 ∉ l) (rest : Bytes) :
    getline (l ++ crlf ++ rest) = some (l ++ [13], rest) := by
  rw [List.append_assoc]
  show getline (l ++ 13 :: 10 :: rest) = _
  rw [getline, if_neg (by simp), find_append h]
  have hcut : l ++ 13 :: 10 :: rest = l ++ [13] ++ [10] ++ rest := by simp
  have hlen : l.length + 1 = (l ++ [13]).length := by simp
  have hlen' : l.length + 1 + 1 = (l ++ [13] ++ [10]).length := by simp
  rw [hlen', hcut, List.drop_left, hlen, List.append_assoc (l ++ [13]), List.take_left]

theorem prefix_cut {a b buf : Bytes} (h : buf <+: a ++ b) (hlen : a.length ≤ buf.length) :
    ∃ rest, buf = a ++ rest ∧ rest <+: b := by
  obtain ⟨rest, rfl⟩ := List.prefix_of_prefix_length_le (List.prefix_append a b) h hlen
  exact ⟨rest, rfl, (List.prefix_append_right_inj a).mp h⟩

/-- A buffer that has an end of line has the first line. -/
theorem line_complete {l buf rest : Bytes} (hl : 10 ∉ l) (h : buf <+: l ++ crlf ++ rest)
    (hin : crlf <:+: buf) : ∃ rest', buf = l ++ crlf ++ rest' ∧ rest' <+: rest := by
  apply prefix_cut h
  by_contra hlt
  have hcut : buf <+: l ++ [13] := by
    have hp : l ++ [13] <+: l ++ crlf ++ rest := by
      rw [List.append_assoc]
      exact (List.prefix_append_right_inj l).mpr ⟨10 :: rest, rfl⟩
    apply List.prefix_of_prefix_length_le h hp
    simp only [crlf, List.length_append, List.length_cons, List.length_nil] at hlt ⊢
    omega
  have hmem : (10 : UInt8) ∈ buf := hin.subset (by decide)
  rcases List.mem_append.mp (hcut.subset hmem) with h' | h'
  · exact hl h'
  · exact absurd h' (by decide)

/-- Behind the first line, the end of a header begins at once or lies further on. -/
theorem crlf2_behind {l rest : Bytes} (hl : 10 ∉ l)
    (h : crlf ++ crlf <:+: l ++ crlf ++ rest) : crlf <+: rest ∨ crlf ++ crlf <:+: rest := by
  obtain ⟨u, v, huv⟩ := h
  have hcut : u ++ (crlf ++ crlf ++ v) = l ++ (crlf ++ rest) := by
    rw [← List.append_assoc, huv, List.append_assoc]
  rcases List.append_eq_append_iff.mp hcut with ⟨as, rfl, h⟩ | ⟨bs, rfl, h⟩
  · match as, h with
    | [], h =>
      simp only [crlf, List.cons_append, List.nil_append, List.cons.injEq, true_and] at h
      exact .inl ⟨v, h⟩
    | [_], h =>
      simp only [crlf, List.cons_append, List.nil_append, List.cons.injEq] at h
      exact absurd h.2.1 (by decide)
    | _ :: b :: _, h =>
      simp only [crlf, List.cons_append, List.nil_append, List.cons.injEq] at h
      obtain ⟨_, rfl, _⟩ := h
      exact absurd (by simp) hl
  · match bs, h with
    | [], h =>
      simp only [crlf, List.cons_append, List.nil_append, List.cons.injEq, true_and] at h
      exact .inl ⟨v, h.symm⟩
    | [_], h =>
      simp only [crlf, List.cons_append, List.nil_append, List.cons.injEq] at h
      exact absurd h.2.1 (by decide)
    | _ :: _ :: bs, h =>
      simp only [crlf, List.cons_append, List.nil_append, List.cons.injEq] at h
      exact .inr ⟨bs, v, by rw [List.append_assoc]; exact h.2.2.symm⟩

/-- A buffer that has the end of a header has all its lines. -/
theorem lines_complete {ls : List Bytes} {buf rest : Bytes} (hl : ∀ l ∈ ls, 10 ∉ l ∧ l ≠ [])
    (h : buf <+: textOf ls ++ crlf ++ rest) (hin : crlf ++ crlf <:+: buf) :
    ∃ rest', buf = textOf ls ++ crlf ++ rest' ∧ rest' <+: rest := by
  induction ls generalizing buf with
  | nil =>
    apply prefix_cut h
    have hlen := hin.length_le
    simp only [crlf, textOf, List.flatMap_nil, List.length_append, List.length_cons,
      List.length_nil] at hlen ⊢
    omega
  | cons l ls ih =>
    have hassoc : textOf (l :: ls) ++ crlf ++ rest = l ++ crlf ++ (textOf ls ++ crlf ++ rest) := by
      simp only [textOf, List.flatMap_cons, List.append_assoc]
    rw [hassoc] at h
    obtain ⟨rest₁, rfl, hrest⟩ := line_complete (hl l List.mem_cons_self).1 h
      (List.IsInfix.trans ⟨[], crlf, rfl⟩ hin)
    have hgoal : ∃ rest', rest₁ = textOf ls ++ crlf ++ rest' ∧ rest' <+: rest := by
      rcases crlf2_behind (hl l List.mem_cons_self).1 hin with hnext | hlater
      · cases ls with
        | nil => exact prefix_cut hrest hnext.length_le
        | cons y ls =>
          -- the next line is not empty
          obtain ⟨hy, hne⟩ := hl y (by simp)
          obtain ⟨v, rfl⟩ := hnext
          obtain ⟨w, hw⟩ := hrest
          match y, hy, hne with
          | [_], _, _ =>
            simp only [textOf, List.flatMap_cons, crlf, List.cons_append, List.nil_append,
              List.cons.injEq] at hw
            exact absurd hw.2.1 (by decide)
          | _ :: b :: t, hy, _ =>
            simp only [textOf, List.flatMap_cons, crlf, List.cons_append, List.cons.injEq] at hw
            exact absurd (by simp [← hw.2.1]) hy
      · exact ih (fun y hy => hl y (List.mem_cons_of_mem _ hy)) hrest hlater
    obtain ⟨rest', rfl, hr⟩ := hgoal
    refine ⟨rest', ?_, hr⟩
    simp only [textOf, List.flatMap_cons, List.append_assoc]

end CppSnippets.Push
