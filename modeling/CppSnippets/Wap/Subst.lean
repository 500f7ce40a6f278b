import CppSnippets.Wap.Glex

/-!
# Splitting a text at its marks

A text is cut at the leftmost marks that do not overlap. Two marks enclose the name of
a variable, and the last one may be alone. There is one such split of every text, and
`subst` concatenates it with the values of the variables, as long as every name that it
comes to is harmless as a format.
-/
namespace CppSnippets.Wap

/-- The mark `$$`. -/
def mark : Bytes := [36, 36]

/-- A text in pieces: up to the next mark, or to the end. -/
inductive Split where
  | plain (lit : Bytes)
  /-- A mark that no other follows. -/
  | unclosed (lit rest : Bytes)
  | var (lit name : Bytes) (s : Split)

namespace Split

def text : Split → Bytes
  | plain lit => lit
  | unclosed lit rest => lit ++ mark ++ rest
  | var lit name s => lit ++ mark ++ (name ++ mark ++ s.text)

/-- No mark begins earlier than where the text is cut. -/
def Leftmost : Split → Prop
  | plain lit => ¬mark <:+: lit
  | unclosed lit rest => ¬mark <:+: lit ++ [36] ∧ ¬mark <:+: rest
  | var lit name s => ¬mark <:+: lit ++ [36] ∧ ¬mark <:+: name ++ [36] ∧ s.Leftmost

/-- The last mark has no other behind it. -/
def Open : Split → Prop
  | plain _ => False
  | unclosed _ _ => True
  | var _ _ s => s.Open

def names : Split → List Bytes
  | plain _ => []
  | unclosed _ _ => []
  | var _ name s => name :: s.names

/-- The literal parts and the values, one behind the other. -/
def concat (vars : StrMap) : Split → Bytes
  | plain lit => lit
  | unclosed lit rest => lit ++ mark ++ rest
  | var lit name s => lit ++ (vars.find name).getD [] ++ s.concat vars

/-- The names up to the first that has no entry. -/
def reached (vars : StrMap) : Split → List Bytes
  | plain _ => []
  | unclosed _ _ => []
  | var _ name s => name :: if (vars.find name).isSome then s.reached vars else []

end Split

/-- The result that a split calls for: an exception if a mark has no counterpart or a name
no entry, and the concatenation otherwise. -/
def Split.Calls (vars : StrMap) (s : Split) (r : Except Trap Bytes) : Prop :=
  ((s.Open ∨ ∃ name ∈ s.names, vars.find name = none) ∧ ∃ what, r = .error (.thrown what)) ∨
    ((¬s.Open ∧ ∀ name ∈ s.names, vars.find name ≠ none) ∧ r = .ok (s.concat vars))

/-- `subst` returns what the only split of the text at its leftmost marks calls for. -/
def Substitutes (cont : Bytes) (vars : StrMap) : Prop :=
  ∃ s : Split, (s.Leftmost ∧ s.text = cont) ∧
    (∀ s' : Split, s'.Leftmost → s'.text = cont → s' = s) ∧ s.Calls vars (subst cont vars)

/-! ## The first mark -/

theorem bytes_mark : bytes "$$" = mark := by decide

variable {lit lit' rest rest' cont : Bytes} {vars : StrMap}

theorem mark_ne_nil : mark ≠ [] := List.cons_ne_nil _ _

theorem search_plain (h : ¬mark <:+: lit) : search mark lit = lit.length := by
  refine Nat.le_antisymm (search_le _ _) (Nat.le_of_not_lt fun hlt => h ?_)
  exact (search_lt_iff mark_ne_nil).mp hlt

theorem take_mark (lit rest : Bytes) :
    (lit ++ mark ++ rest).take (lit.length + 1) = lit ++ [36] := by
  rw [List.append_assoc, List.take_length_add_append]
  rfl

theorem drop_mark (lit rest : Bytes) : (lit ++ mark ++ rest).drop (lit.length + 2) = rest := by
  rw [List.append_assoc, ← List.drop_drop, List.drop_left]
  rfl

theorem take_lit (lit rest : Bytes) : (lit ++ mark ++ rest).take lit.length = lit := by
  rw [List.append_assoc, List.take_left]

/-- The first mark is where the text is cut. -/
theorem search_mark (h : ¬mark <:+: lit ++ [36]) (rest : Bytes) :
    search mark (lit ++ mark ++ rest) = lit.length := by
  have hlen : (lit ++ mark ++ rest).length = lit.length + 2 + rest.length := by
    rw [List.length_append, List.length_append]
    rfl
  have hle : search mark (lit ++ mark ++ rest) ≤ lit.length := by
    refine search_le_at (by omega) ?_
    rw [List.append_assoc, List.drop_left]
    exact List.prefix_append _ _
  refine Nat.le_antisymm hle (Nat.le_of_not_lt fun hlt => h ?_)
  have hcut := @search_take mark (lit ++ mark ++ rest) (lit.length + 1)
    (Nat.succ_le_succ hlt) mark_ne_nil (by omega)
  rw [take_mark] at hcut
  refine (search_lt_iff mark_ne_nil).mp ?_
  rw [hcut, List.length_append]
  exact Nat.lt_succ_of_lt hlt

/-- A text with a mark is cut at the first. -/
theorem exists_cut (h : mark <:+: cont) :
    ∃ lit rest, cont = lit ++ mark ++ rest ∧ ¬mark <:+: lit ++ [36] := by
  have hlt := (search_lt_iff mark_ne_nil).mpr h
  obtain ⟨rest, hrest⟩ := prefix_at_search hlt
  have hcont : cont = cont.take (search mark cont) ++ mark ++ rest := by
    rw [List.append_assoc, hrest, List.take_append_drop]
  refine ⟨cont.take (search mark cont), rest, hcont, fun hin => ?_⟩
  have htake : cont.take (search mark cont + 1) = cont.take (search mark cont) ++ [36] := by
    rw [List.take_add, ← hrest]
    rfl
  have hnone := @search_take_of_lt mark cont (search mark cont + 1) (Nat.lt_succ_self _)
  rw [htake] at hnone
  exact absurd ((search_lt_iff mark_ne_nil).mpr hin) (by rw [hnone]; exact Nat.lt_irrefl _)

theorem cut_unique (h : ¬mark <:+: lit ++ [36]) (h' : ¬mark <:+: lit' ++ [36])
    (heq : lit ++ mark ++ rest = lit' ++ mark ++ rest') : lit = lit' ∧ rest = rest' := by
  have hlen : lit.length = lit'.length := by
    rw [← search_mark h rest, heq, search_mark h' rest']
  have hfronts : (lit ++ mark).length = (lit' ++ mark).length := by
    rw [List.length_append, List.length_append, hlen]
  obtain ⟨hfront, hrest⟩ := List.append_inj heq hfronts
  exact ⟨List.append_cancel_right hfront, hrest⟩

/-! ## The split of a text -/

theorem exists_split (cont : Bytes) : ∃ s : Split, s.Leftmost ∧ s.text = cont := by
  induction hn : cont.length using Nat.strongRecOn generalizing cont with
  | ind n ih =>
    by_cases hin : mark <:+: cont
    · obtain ⟨lit, after, rfl, hlit⟩ := exists_cut hin
      by_cases hin' : mark <:+: after
      · obtain ⟨name, rest, rfl, hname⟩ := exists_cut hin'
        have hless : rest.length < n := by
          simp only [← hn, List.length_append, mark, List.length_cons]
          omega
        obtain ⟨s, hs, htext⟩ := ih rest.length hless rest rfl
        exact ⟨.var lit name s, ⟨hlit, hname, hs⟩, by rw [Split.text, htext]⟩
      · exact ⟨.unclosed lit after, ⟨hlit, hin'⟩, rfl⟩
    · exact ⟨.plain cont, hin, rfl⟩

theorem split_unique {s s' : Split} (hs : s.Leftmost) (hs' : s'.Leftmost)
    (h : s.text = s'.text) : s = s' := by
  induction s generalizing s' with
  | plain lit =>
    cases s' with
    | plain lit' => exact congrArg Split.plain h
    | unclosed lit' rest' => exact absurd ⟨lit', rest', h.symm⟩ hs
    | var lit' name' s' => exact absurd ⟨lit', _, h.symm⟩ hs
  | unclosed lit rest =>
    cases s' with
    | plain lit' => exact absurd ⟨lit, rest, h⟩ hs'
    | unclosed lit' rest' =>
      obtain ⟨hlit, hrest⟩ := cut_unique hs.1 hs'.1 h
      rw [hlit, hrest]
    | var lit' name' s' =>
      obtain ⟨-, hrest⟩ := cut_unique hs.1 hs'.1 h
      exact absurd ⟨name', s'.text, hrest.symm⟩ hs.2
  | var lit name s ih =>
    cases s' with
    | plain lit' => exact absurd ⟨lit, _, h⟩ hs'
    | unclosed lit' rest' =>
      obtain ⟨-, hrest⟩ := cut_unique hs.1 hs'.1 h
      exact absurd ⟨name, s.text, hrest⟩ hs'.2
    | var lit' name' s' =>
      obtain ⟨hlit, hafter⟩ := cut_unique hs.1 hs'.1 h
      obtain ⟨hname, htext⟩ := cut_unique hs.2.1 hs'.2.1 hafter
      rw [hlit, hname, ih hs.2.2 hs'.2.2 htext]

/-! ## The loop -/

/-- What the loop returns for a split, `ret` being made already. -/
def Split.outcome (vars : StrMap) (ret : Bytes) : Split → Except Trap Bytes
  | plain lit => .ok (ret ++ lit)
  | unclosed _ _ => .error (.thrown "REPL-1")
  | var lit name s =>
    if plainFormat name = false then .error .undefined
    else match vars.find name with
      | none => .error (.thrown "REPL-2")
      | some v => s.outcome vars (ret ++ lit ++ v)

theorem substFrom_plain (h : ¬mark <:+: lit) (turns : Nat) (ret : Bytes) :
    substFrom vars (turns + 1) lit ret = .ok (ret ++ lit) := by
  simp only [substFrom, bytes_mark, search_plain h, if_neg (Nat.lt_irrefl _)]

theorem mark_lt (lit rest : Bytes) : lit.length < (lit ++ mark ++ rest).length := by
  rw [List.length_append, List.length_append]
  change lit.length < lit.length + 2 + rest.length
  omega

theorem substFrom_unclosed (h : ¬mark <:+: lit ++ [36]) (h' : ¬mark <:+: rest) (turns : Nat)
    (ret : Bytes) :
    substFrom vars (turns + 1) (lit ++ mark ++ rest) ret = .error (.thrown "REPL-1") := by
  simp only [substFrom, bytes_mark, search_mark h, if_pos (mark_lt lit rest), drop_mark,
    search_plain h', if_pos (Nat.le_refl _)]

theorem substFrom_var {name : Bytes} (h : ¬mark <:+: lit ++ [36]) (h' : ¬mark <:+: name ++ [36])
    (turns : Nat) (ret : Bytes) :
    substFrom vars (turns + 1) (lit ++ mark ++ (name ++ mark ++ rest)) ret =
      if plainFormat name = false then .error .undefined
      else match vars.find name with
        | none => .error (.thrown "REPL-2")
        | some v => substFrom vars turns rest (ret ++ lit ++ v) := by
  have hclosed : ¬(name ++ mark ++ rest).length ≤ name.length := Nat.not_le.mpr (mark_lt name rest)
  cases hfind : vars.find name <;>
    simp only [substFrom, bytes_mark, search_mark h, if_pos (mark_lt lit _), drop_mark,
      search_mark h', if_neg hclosed, take_lit, hfind]

/-- With a turn for every byte and one more the loop comes to the end of the split. -/
theorem substFrom_eq {s : Split} (hs : s.Leftmost) {turns : Nat} (hturns : s.text.length ≤ turns)
    (ret : Bytes) : substFrom vars (turns + 1) s.text ret = s.outcome vars ret := by
  induction s generalizing turns ret with
  | plain lit => exact substFrom_plain hs turns ret
  | unclosed lit rest => exact substFrom_unclosed hs.1 hs.2 turns ret
  | var lit name s ih =>
    have hless : s.text.length < turns := by
      simp only [Split.text, List.length_append, mark, List.length_cons] at hturns
      omega
    obtain ⟨left, rfl⟩ := Nat.exists_eq_succ_of_ne_zero (Nat.ne_zero_of_lt hless)
    rw [Split.text, substFrom_var hs.1 hs.2.1, Split.outcome]
    cases vars.find name with
    | none => rfl
    | some v => simp only [ih hs.2.2 (Nat.le_of_lt_succ hless)]

theorem subst_text {s : Split} (hs : s.Leftmost) : subst s.text vars = s.outcome vars [] :=
  substFrom_eq hs (Nat.le_refl _) []

/-! ## What is called for -/

theorem outcome_map (s : Split) (ret : Bytes) :
    s.outcome vars ret = (s.outcome vars []).map (ret ++ ·) := by
  induction s generalizing ret with
  | plain lit => rfl
  | unclosed lit rest => rfl
  | var lit name s ih =>
    rw [Split.outcome, Split.outcome]
    by_cases hname : plainFormat name = false
    · rw [if_pos hname, if_pos hname]
      rfl
    rw [if_neg hname, if_neg hname]
    cases vars.find name with
    | none => rfl
    | some v =>
      simp only [ih (ret ++ lit ++ v), ih ([] ++ lit ++ v)]
      cases s.outcome vars [] with
      | error t => rfl
      | ok r => simp only [Except.map, List.nil_append, List.append_assoc]

/-- Behind a variable that has an entry it is the rest that decides. -/
theorem calls_var {name v : Bytes} (hfind : vars.find name = some v) (s : Split)
    (r : Except Trap Bytes) :
    (Split.var lit name s).Calls vars (r.map (lit ++ v ++ ·)) ↔ s.Calls vars r := by
  have hmissing : (∃ n ∈ name :: s.names, vars.find n = none) ↔
      ∃ n ∈ s.names, vars.find n = none := by
    simp only [List.exists_mem_cons_iff, hfind, reduceCtorEq, false_or]
  have hpresent : (∀ n ∈ name :: s.names, vars.find n ≠ none) ↔
      ∀ n ∈ s.names, vars.find n ≠ none := by
    simp only [List.forall_mem_cons, hfind, ne_eq, reduceCtorEq, not_false_eq_true, true_and]
  have hthrown : (∃ what, r.map (lit ++ v ++ ·) = .error (.thrown what)) ↔
      ∃ what, r = .error (.thrown what) := by
    cases r with
    | error t => exact Iff.rfl
    | ok a => exact ⟨fun ⟨_, h⟩ => (nomatch h), fun ⟨_, h⟩ => (nomatch h)⟩
  have hconcat : r.map (lit ++ v ++ ·) = .ok ((Split.var lit name s).concat vars) ↔
      r = .ok (s.concat vars) := by
    rw [Split.concat, hfind, Option.getD_some]
    cases r with
    | error t => exact ⟨fun h => (nomatch h), fun h => (nomatch h)⟩
    | ok a =>
      constructor
      · exact fun h => congrArg Except.ok (List.append_cancel_left (Except.ok.inj h))
      · exact fun h => congrArg (Except.map (lit ++ v ++ ·)) h
  exact or_congr (and_congr (or_congr_right hmissing) hthrown)
    (and_congr (and_congr_right' hpresent) hconcat)

theorem calls_iff (s : Split) : s.Calls vars (s.outcome vars []) ↔
    ∀ name ∈ s.reached vars, plainFormat name = true := by
  induction s with
  | plain lit =>
    have hnone : ∀ name ∈ ([] : List Bytes), vars.find name ≠ none := fun _ h => nomatch h
    exact iff_of_true (.inr ⟨⟨id, hnone⟩, rfl⟩) (fun _ h => nomatch h)
  | unclosed lit rest =>
    exact iff_of_true (.inl ⟨.inl trivial, "REPL-1", rfl⟩) (fun _ h => nomatch h)
  | var lit name s ih =>
    rw [Split.reached, List.forall_mem_cons, Split.outcome]
    by_cases hname : plainFormat name = false
    · rw [if_pos hname, hname]
      refine iff_of_false (fun h => ?_) (fun h => nomatch h.1)
      obtain ⟨-, what, hwhat⟩ | ⟨-, hwhat⟩ := h
      · cases hwhat
      · cases hwhat
    rw [if_neg hname]
    have htrue : plainFormat name = true := Bool.of_not_eq_false hname
    cases hfind : vars.find name with
    | none =>
      refine iff_of_true (.inl ⟨.inr ⟨name, List.mem_cons_self, hfind⟩, "REPL-2", rfl⟩) ⟨htrue, ?_⟩
      exact fun _ h => nomatch h
    | some v =>
      dsimp only
      rw [outcome_map, List.nil_append, calls_var hfind, ih, Option.isSome_some, if_pos rfl]
      exact (and_iff_right htrue).symm

/-- The text is substituted as claimed if and only if every name that is reached is harmless
as a format. -/
theorem substitutes_iff (cont : Bytes) (vars : StrMap) : Substitutes cont vars ↔
    ∀ s : Split, s.Leftmost → s.text = cont → ∀ name ∈ s.reached vars, plainFormat name = true := by
  constructor
  · intro h s hs htext
    obtain ⟨s', ⟨hs', htext'⟩, honly, hcalls⟩ := h
    rw [← htext', subst_text hs', calls_iff] at hcalls
    rwa [honly s hs htext]
  · intro h
    obtain ⟨s, hs, htext⟩ := exists_split cont
    refine ⟨s, ⟨hs, htext⟩, fun s' hs' htext' => split_unique hs' hs (htext'.trans htext.symm), ?_⟩
    rw [← htext, subst_text hs, calls_iff]
    exact h s hs htext

/-- A variable has the name `%n`. -/
theorem not_substitutes : ¬∀ cont vars, Substitutes cont vars := by
  intro h
  have hundefined : subst (bytes "$$%n$$") [(bytes "%n", bytes "x")] = .error .undefined := by
    decide
  obtain ⟨s, -, -, ⟨-, what, hwhat⟩ | ⟨-, hok⟩⟩ :=
    h (bytes "$$%n$$") [(bytes "%n", bytes "x")]
  · rw [hundefined] at hwhat
    cases hwhat
  · rw [hundefined] at hok
    cases hok

end CppSnippets.Wap
