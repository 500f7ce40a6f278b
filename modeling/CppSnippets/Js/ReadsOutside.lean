import CppSnippets.Js.Exact

/-!
# Where the parser reads at the end

The checks `p == end` and `beg == end` stand in front of some reads and not of others:
the one of the first bracket, the one behind a value, and the one that begins a key
are made unchecked. So the parser reads outside if and only if the range ends where
one of these is due.
-/
namespace CppSnippets.Js

open CppSnippets.Lib Traced

variable {ν : Type} {New : ν → Key → Ptr → Option ν} {nd : Option ν} {xk : Key} {beg p s : Ptr}
  {c : Byte}

/-! ## The unchecked reads -/

theorem throws_end {α : Type} {f : Byte → Parse ν α} (hs : skipss s = []) :
    Throws (deref none (skipss s) >>= f) .outside := by
  rw [hs]
  exact (throws_throw (κ := Callback ν) (α := Byte) Stop.outside).bind

theorem afterValue_throws {k : Kind} {n : Nat} {i : Int32} (hs : skipss s = []) :
    Throws (afterValue New none n nd k.ty i s) .outside := throws_end hs

theorem walk_end {array : Option ν → Ptr → Parse ν Ptr} (hs : skipss s = []) :
    Returns (jsaxWalk New none array nd s xk) [] [] := by
  have hw : jsaxWalk New none array nd s xk = pure [] := by simp only [jsaxWalk, hs]
  rw [hw]
  exact returns_pure []

/-- Behind a comma, or behind a key's colon, the range ends. -/
theorem loop_missing {k : Kind} {n : Nat} {i : Int32} (h : Head k) :
    Throws (loop New none (n + 1) nd k.ty i (c :: h.text)) .outside := by
  have hkey : Returns (jsaxKey none k.ty i (h.text ++ []) : Parse ν (Key × Ptr))
      (h.key i, h.before.text ++ []) [] := head_returns h i []
  have hblank : skipss (h.before.text ++ []) = [] := by
    rw [skipss_spaces]
    rfl
  rw [List.append_nil] at hkey
  rw [loop_cons]
  exact hkey.bind_throws ((walk_end hblank).bind_throws (afterValue_throws rfl))

theorem loop_blank {k : Kind} {n : Nat} {i : Int32} (ws : Spaces) :
    Throws (loop New none (n + 1) nd k.ty i (c :: ws.text)) .outside := by
  cases k with
  | array => exact loop_missing (.element ws)
  | object =>
    have hs : skipss ws.text = [] := skipss_eq_nil.mpr ws.all
    have hstring : Throws (jsaxString none ws.text : Parse ν Ret) .outside := throws_end hs
    rw [loop_cons, jsaxKey, if_neg (by decide)]
    exact hstring.bind.bind

theorem turn_throws {k : Kind} {h : Head k} {n : Nat} {i : Int32} {u t : Ptr}
    {ks : List (Callback ν)}
    (hwalk : Returns (jsaxWalk New none (jsaxArray none (loop New none n)) nd
      (h.before.text ++ u) (h.key i)) t ks)
    (hrest : Throws (afterValue New none n nd k.ty i t) .outside) :
    Throws (loop New none (n + 1) nd k.ty i (c :: (h.text ++ u))) .outside := by
  rw [loop_cons]
  exact (head_returns h i u).bind_throws (hwalk.bind_throws hrest)

/-! ## Texts that end too early -/

theorem unfinished_first {k : Kind} (h : Unfinished k s) (hs : ¬Blank s) :
    ∃ c p, skipss s = c :: p ∧ Begins c := by
  cases h with
  | comma k ws => exact absurd ws.all hs
  | colon h =>
    cases h with
    | member first key second before => exact key_first first key _
  | value h v ws => exact head_first h (value_first v _)
  | nested h k' hu hrest => exact head_first h ⟨k'.ty, _, rfl, begins_open k'⟩
  | more h v ws hrest => exact head_first h (value_first v _)

theorem array_throws {k : Kind} {turns : Option ν → Byte → Int32 → Ptr → Parse ν Ptr} {u : Ptr}
    (hs : skipss s = k.ty :: u) (hblank : ¬Blank u) (hu : Unfinished k u)
    (hturns : Throws (turns nd k.ty 1 (k.ty :: u)) .outside) :
    Throws (jsaxArray none turns nd s) .outside := by
  obtain ⟨c, p, hfirst, hc⟩ := unfinished_first hu hblank
  rw [jsaxArray_cons hs (open_cons k).1, hfirst]
  dsimp only
  rw [if_neg fun h => hc.2 k (h.trans (close_ne k).2.symm)]
  exact hturns

theorem loop_throws {k : Kind} (hs : Unfinished k s) : ∀ {n : Nat} {nd : Option ν} {i : Int32}
    {c : Byte}, s.length < n → Throws (loop New none n nd k.ty i (c :: s)) .outside := by
  induction hs with
  | comma k ws =>
    intro n nd i c hn
    obtain ⟨n, rfl⟩ : ∃ m, n = m + 1 := ⟨n - 1, by omega⟩
    exact loop_blank ws
  | colon h =>
    intro n nd i c hn
    obtain ⟨n, rfl⟩ : ∃ m, n = m + 1 := ⟨n - 1, by omega⟩
    exact loop_missing h
  | value h v ws =>
    intro n nd i c hn
    obtain ⟨n, rfl⟩ : ∃ m, n = m + 1 := ⟨n - 1, by omega⟩
    have hlen := length_tail h.text (v.text ++ ws.text)
    have hstops : Stops ws.text := by
      rw [← List.append_nil ws.text]
      exact stops_spaces ws fun b hb => nomatch hb
    refine turn_throws (Value.walk_returns hstops v (by omega)) ?_
    exact afterValue_throws (skipss_eq_nil.mpr ws.all)
  | @nested k h k' u hblank hrest ih =>
    intro n nd i c hn
    obtain ⟨n, rfl⟩ : ∃ m, n = m + 1 := ⟨n - 1, by omega⟩
    have hlen := length_tail h.text (k'.ty :: u)
    rw [List.length_cons] at hlen
    have hs : skipss (h.before.text ++ k'.ty :: u) = k'.ty :: u := by
      rw [skipss_spaces, skipss_cons (open_cons k').2.1]
    have hin : skipss (k'.ty :: u) = k'.ty :: u := skipss_cons (open_cons k').2.1 u
    rw [loop_cons]
    refine (head_returns h i _).bind_throws (Throws.bind ?_)
    rw [jsaxWalk_cons hs, if_pos (open_cons k').1]
    refine (returns_emit _).bind_throws (Throws.bind ?_)
    exact array_throws hin hblank hrest (ih (by omega))
  | @more k h v ws u hrest ih =>
    intro n nd i c hn
    obtain ⟨n, rfl⟩ : ∃ m, n = m + 1 := ⟨n - 1, by omega⟩
    have hlen := length_tail h.text (v.text ++ (ws.text ++ comma :: u))
    have hlen' := length_tail v.text (ws.text ++ comma :: u)
    have hlen'' := length_tail ws.text (comma :: u)
    rw [List.length_cons] at hlen''
    refine turn_throws (Value.walk_returns (stops_spaces ws (stops_cons (by decide) u)) v
      (by omega)) ?_
    rw [afterValue_comma]
    exact ih (by omega)

/-! ## The main result -/

/-- No function of the parser reads outside the range: with nothing behind it, the run
is not stopped by a read. -/
def ReadsInside (New : ν → Key → Ptr → Option ν) (nd : Option ν) (s : Ptr) : Prop :=
  (jsaxParse New none nd s).1 ≠ .error .outside

theorem parse_throws (hs : Cut s) :
    Throws (jsaxArray none (loop New none (s.length + 1)) nd s) .outside := by
  obtain hblank | ⟨ws, k, u, hu, hblank, hrest⟩ := hs
  · exact throws_end (skipss_eq_nil.mpr hblank)
  · have hlen := length_tail ws.text (k.ty :: u)
    rw [← hu, List.length_cons] at hlen
    have hsk : skipss s = k.ty :: u := by
      rw [hu, skipss_spaces, skipss_cons (open_cons k).2.1]
    exact array_throws hsk hblank hrest (loop_throws hrest (by omega))

/-- The parser stays inside the range if and only if the range does not end at its
beginning, nor inside a container right after a value, a comma or a key's colon. -/
theorem readsInside_iff (New : ν → Key → Ptr → Option ν) (nd : Option ν) (s : Ptr) :
    ReadsInside New nd s ↔ ¬Cut s := by
  unfold ReadsInside
  constructor
  · intro hin hcut
    apply hin
    have hstop : (Action.exec (jsaxArray none (loop New none (s.length + 1)) nd s) []).1 =
      .error .outside := parse_throws hcut []
    unfold jsaxParse
    rcases hx : Action.exec (jsaxArray none (loop New none (s.length + 1)) nd s) [] with ⟨r, tr⟩
    rw [hx] at hstop
    obtain rfl : r = .error .outside := hstop
    rfl
  · intro hcut hout
    have hnothing : ∀ b ∈ (none : Option Byte), b = 0 := fun b hb => nomatch hb
    obtain ⟨p, ks, hp, _⟩ | ⟨p, ks, hp⟩ | ⟨ks, _, _, hs⟩ := jsaxParse_cases New hnothing nd s
    · rw [hp] at hout
      cases hout
    · rw [hp] at hout
      cases hout
    · exact hcut hs

/-- `[1`: behind the number the loop looks for a comma at the end. -/
theorem readsInside_broken :
    ¬ReadsInside (ν := Unit) (fun _ _ _ => some ()) (some ()) [lbrack, 0x31] := by
  intro h
  exact h rfl

end CppSnippets.Js
