import CppSnippets.Lib.Loop
import CppSnippets.Push.Http

/-!
# The parameters of a request target

`path_params` with its iterators: positions in the target, where reading, moving and
searching are undefined outside of it. It does what `pathParams` does on the text, for
every target that is not empty. A target that is put together from a path and pairs is
taken apart into them again, and what stands behind the `#` changes nothing.
-/
namespace CppSnippets.Push

open CppSnippets.Lib
open CppSnippets.Wap (Byte Bytes Trap bytes find slice find_le find_append_of_not_mem slice_append)

/-! ## Iterators -/

namespace Iter

/-- `*i`. -/
def deref (s : Bytes) (i : Nat) : Except Trap Byte :=
  match s[i]? with
  | some c => .ok c
  | none => .error .undefined

/-- `++i`, and `i+1`. -/
def inc (s : Bytes) (i : Nat) : Except Trap Nat :=
  if i < s.length then .ok (i + 1) else .error .undefined

/-- `std::string(b, e)`. -/
def range (s : Bytes) (b e : Nat) : Except Trap Bytes :=
  if b ≤ e ∧ e ≤ s.length then .ok (slice s b e) else .error .undefined

/-- `std::find(b, e, c)`. -/
def findIn (s : Bytes) (b e : Nat) (c : Byte) : Except Trap Nat := do
  return b + find c (← range s b e)

end Iter

/-! ## The code -/

/-- The body of the loop: `b` and the parameters. -/
def paramsBody (g : Grammar) (s : Bytes) (e b : Nat) (params : KeyValues) :
    Except Trap (Nat × KeyValues) := do
  let b ← Iter.inc s b
  let eop ← Iter.findIn s b e 38
  let i ← Iter.findIn s b eop 61
  if i ≠ eop then do
    let key ← Iter.range s b i
    let value ← Iter.range s (← Iter.inc s i) eop
    return (eop, params ++ [(g.urldecode key, g.urldecode value)])
  else return (eop, params)

def paramsTurn (g : Grammar) (s : Bytes) (e : Nat) (st : Nat × KeyValues) :
    (Nat × KeyValues) ⊕ Except Trap KeyValues :=
  if st.1 ≠ e then
    match paramsBody g s e st.1 st.2 with
    | .ok st => .inl st
    | .error t => .inr (.error t)
  else .inr (.ok st.2)

/-- `i`, behind the slash. -/
def pathBegin (fullpath : Bytes) : Except Trap Nat := do
  if (← Iter.deref fullpath 0) = 47 then Iter.inc fullpath 0 else return 0

/-- `path_params` up to its loop: `i`, `b` and `end`. -/
def pathEnds (fullpath : Bytes) : Except Trap (Nat × Nat × Nat) := do
  let i ← pathBegin fullpath
  let e ← Iter.findIn fullpath i fullpath.length 35
  let b ← Iter.findIn fullpath i e 63
  return (i, b, e)

/-- `path_params`: what it returns, the path and the parameters, in at most this many
turns of its loop. -/
def pathParamsIn (g : Grammar) (turns : Nat) (path : Bytes) (params : KeyValues)
    (fullpath : Bytes) : Option (Except Trap (Bool × Bytes × KeyValues)) :=
  match pathEnds fullpath with
  | .error t => some (.error t)
  | .ok (i, b, e) =>
    if b = i then some (.ok (false, path, params))
    else
      match Iter.range fullpath i b with
      | .error t => some (.error t)
      | .ok path =>
        (Loop.run (paramsTurn g fullpath e) turns (b, params)).map fun r => do
          return (true, path, ← r)

/-- `path_params` returns. -/
def Returns (g : Grammar) (path : Bytes) (params : KeyValues) (fullpath : Bytes)
    (r : Bool × Bytes × KeyValues) : Prop :=
  ∃ turns, pathParamsIn g turns path params fullpath = some (.ok r)

/-! ## Iterators into a text in three parts -/

section

variable {pre mid post : Bytes}

theorem length_le_parts : pre.length + mid.length ≤ (pre ++ mid ++ post).length := by
  rw [List.length_append, List.length_append]
  omega

theorem range_parts : Iter.range (pre ++ mid ++ post) pre.length (pre.length + mid.length) = .ok mid := by
  rw [Iter.range, if_pos ⟨Nat.le_add_right _ _, length_le_parts⟩, slice_append]

theorem findIn_parts (c : Byte) :
    Iter.findIn (pre ++ mid ++ post) pre.length (pre.length + mid.length) c =
      .ok (pre.length + find c mid) := by
  rw [Iter.findIn, range_parts]
  rfl

theorem inc_inside {s : Bytes} {i : Nat} (h : i < s.length) : Iter.inc s i = .ok (i + 1) := if_pos h

/-! ## One turn -/

variable (g : Grammar)

/-- The parameter of a segment between two `&`, if there is one. -/
def segment (seg : Bytes) : KeyValues :=
  let i := find 61 seg
  if i < seg.length then [(g.urldecode (seg.take i), g.urldecode (seg.drop (i + 1)))] else []

theorem paramsFrom_cons (n : Nat) (c : Byte) (t : Bytes) : paramsFrom g (n + 1) (c :: t) =
    segment g (t.take (find 38 t)) ++ paramsFrom g n (t.drop (find 38 t)) := by
  rw [paramsFrom, segment]
  split <;> rfl

/-- A text is cut at the first of these bytes. -/
theorem cut_at_find {c : UInt8} {s : Bytes} (h : find c s < s.length) :
    ∃ key value, s = key ++ c :: value ∧ key.length = find c s := by
  have hc : s[find c s] = c := eq_of_beq (@List.findIdx_getElem _ (· == c) s h)
  refine ⟨s.take (find c s), s.drop (find c s + 1), ?_, List.length_take_of_le h.le⟩
  have hdrop : s.drop (find c s) = c :: s.drop (find c s + 1) := by
    rw [List.drop_eq_getElem_cons h, hc]
  rw [← hdrop, List.take_append_drop]

/-- The part of the body behind the search for the `&`, where the segment is `seg`. -/
theorem segment_parts {seg : Bytes} {params : KeyValues} :
    (do
      let i ← Iter.findIn (pre ++ seg ++ post) pre.length (pre.length + seg.length) 61
      if i ≠ pre.length + seg.length then do
        let key ← Iter.range (pre ++ seg ++ post) pre.length i
        let value ← Iter.range (pre ++ seg ++ post) (← Iter.inc (pre ++ seg ++ post) i)
          (pre.length + seg.length)
        return (pre.length + seg.length, params ++ [(g.urldecode key, g.urldecode value)])
      else return (pre.length + seg.length, params) : Except Trap (Nat × KeyValues)) =
      .ok (pre.length + seg.length, params ++ segment g seg) := by
  rw [findIn_parts, segment]
  have hle := find_le 61 seg
  simp only [bind, Except.bind]
  by_cases hk : find 61 seg < seg.length
  · obtain ⟨key, value, hseg, hkey⟩ := cut_at_find hk
    have hlen : seg.length = key.length + 1 + value.length := by
      rw [hseg, List.length_append, List.length_cons]
      omega
    have htake : seg.take key.length = key := by rw [hseg, List.take_left]
    have hdrop : seg.drop (key.length + 1) = value := by
      rw [hseg, ← List.drop_drop, List.drop_left, List.drop_one, List.tail_cons]
    have hfirst : Iter.range (pre ++ seg ++ post) pre.length (pre.length + key.length) = .ok key := by
      have hsplit : pre ++ seg ++ post = pre ++ key ++ (61 :: value ++ post) := by
        simp only [hseg, List.append_assoc]
      rw [hsplit, range_parts]
    have hsecond : Iter.range (pre ++ seg ++ post) (pre.length + key.length + 1)
        (pre.length + seg.length) = .ok value := by
      have hsplit : pre ++ seg ++ post = (pre ++ (key ++ [61])) ++ value ++ post := by
        simp only [hseg, List.append_assoc, List.cons_append, List.nil_append]
      have hbegin : pre.length + key.length + 1 = (pre ++ (key ++ [61])).length := by
        rw [List.length_append, List.length_append, List.length_singleton, Nat.add_assoc]
      have hend : pre.length + seg.length = (pre ++ (key ++ [61])).length + value.length := by
        rw [← hbegin, hlen]
        omega
      rw [hbegin, hend, hsplit, range_parts]
    have hinc : Iter.inc (pre ++ seg ++ post) (pre.length + key.length) =
        .ok (pre.length + key.length + 1) := inc_inside (by
      have := @length_le_parts pre seg post
      omega)
    rw [if_pos hk, ← hkey, if_pos (by omega), hfirst, hinc, htake, hdrop]
    dsimp only
    rw [hsecond]
    rfl
  · have heq : find 61 seg = seg.length := by omega
    rw [if_neg (by omega), if_neg hk, List.append_nil]
    rfl

/-- The body from the `?` or `&` at `b` on. -/
theorem paramsBody_parts {c : Byte} {t : Bytes} {params : KeyValues} :
    paramsBody g (pre ++ c :: t ++ post) (pre.length + (c :: t).length) pre.length params =
      .ok ((pre ++ c :: t.take (find 38 t)).length, params ++ segment g (t.take (find 38 t))) := by
  have hseg : (t.take (find 38 t)).length = find 38 t := List.length_take_of_le (find_le 38 t)
  have hbegin : pre.length + 1 = (pre ++ [c]).length := by rw [List.length_append]; rfl
  have hend : pre.length + (c :: t).length = (pre ++ [c]).length + t.length := by
    rw [← hbegin, List.length_cons]
    omega
  have hsplit : pre ++ c :: t ++ post = (pre ++ [c]) ++ t ++ post := by
    rw [List.append_assoc pre [c], List.singleton_append]
  have hcut : (pre ++ [c]) ++ t ++ post =
      (pre ++ [c]) ++ t.take (find 38 t) ++ (t.drop (find 38 t) ++ post) := by
    rw [List.append_assoc _ (t.take _), ← List.append_assoc (t.take _), List.take_append_drop,
      List.append_assoc]
  have hresult : (pre ++ c :: t.take (find 38 t)).length = (pre ++ [c]).length + find 38 t := by
    rw [List.length_append, List.length_cons, hseg, ← hbegin]
    omega
  have hlt : pre.length < ((pre ++ [c]) ++ t ++ post).length := by
    have := @length_le_parts (pre ++ [c]) t post
    omega
  rw [paramsBody, hend, hsplit, inc_inside hlt, hbegin, hresult]
  change (Iter.findIn _ _ _ 38 >>= _) = _
  rw [findIn_parts]
  have hrest := @segment_parts (pre ++ [c]) (t.drop (find 38 t) ++ post) g (t.take (find 38 t)) params
  rw [← hcut, hseg] at hrest
  exact hrest

/-! ## The loop -/

theorem paramsTurn_end (s : Bytes) (e : Nat) (params : KeyValues) :
    paramsTurn g s e (e, params) = .inr (.ok params) := if_neg (not_not.mpr rfl)

theorem params_ends {n : Nat} {mid params} (hn : mid.length ≤ n) :
    Loop.Ends (paramsTurn g (pre ++ mid ++ post) (pre.length + mid.length)) (pre.length, params)
      (.ok (params ++ paramsFrom g n mid)) := by
  induction n generalizing pre mid params with
  | zero =>
    obtain rfl := List.eq_nil_of_length_eq_zero (Nat.le_zero.mp hn)
    rw [paramsFrom, List.append_nil params]
    exact Loop.ends_exit (paramsTurn_end g _ pre.length params)
  | succ n ih =>
    cases mid with
    | nil =>
      rw [paramsFrom, List.append_nil params]
      exact Loop.ends_exit (paramsTurn_end g _ pre.length params)
    | cons c t =>
      let seg := t.take (find 38 t)
      let rest := t.drop (find 38 t)
      have hsplit : pre ++ c :: t ++ post = (pre ++ c :: seg) ++ rest ++ post := by
        rw [List.append_assoc pre (c :: seg), List.cons_append, List.take_append_drop]
      have hend : pre.length + (c :: t).length = (pre ++ c :: seg).length + rest.length := by
        rw [List.length_append, List.length_cons, List.length_cons, List.length_take_of_le (find_le _ _),
          List.length_drop]
        have := find_le 38 t
        omega
      have hturn : paramsTurn g (pre ++ c :: t ++ post) (pre.length + (c :: t).length)
          (pre.length, params) = .inl ((pre ++ c :: seg).length, params ++ segment g seg) := by
        have hne : pre.length ≠ pre.length + (c :: t).length := by
          rw [List.length_cons]
          omega
        rw [paramsTurn, if_pos hne, paramsBody_parts]
      have hrest : rest.length ≤ n := by
        rw [List.length_cons] at hn
        rw [List.length_drop]
        omega
      rw [Loop.ends_next hturn, paramsFrom_cons, ← List.append_assoc, hsplit, hend]
      exact ih hrest

end

/-! ## The iterators do what the text functions do -/

/-- The target without its slash. -/
theorem exists_slash {fullpath : Bytes} (h : fullpath ≠ []) : ∃ slash s, fullpath = slash ++ s ∧
    (if fullpath.head? = some 47 then fullpath.tail else fullpath) = s ∧
    pathBegin fullpath = .ok slash.length := by
  obtain ⟨c, t, rfl⟩ := List.exists_cons_of_ne_nil h
  by_cases hc : c = 47
  · subst hc
    exact ⟨[47], t, rfl, rfl, rfl⟩
  · refine ⟨[], c :: t, rfl, if_neg (by simpa using hc), ?_⟩
    change (if c = 47 then _ else _) = _
    rw [if_neg hc]
    rfl

theorem take_drop_parts (pre s : Bytes) (n : Nat) : pre ++ s = pre ++ s.take n ++ s.drop n := by
  rw [List.append_assoc, List.take_append_drop]

/-- `b` and `end`, where `t` is what lies between the slash and the `#`. -/
theorem pathEnds_eq {fullpath slash s t : Bytes} (hs : fullpath = slash ++ s)
    (hslash : pathBegin fullpath = .ok slash.length) (ht : t = s.take (find 35 s)) :
    pathEnds fullpath = .ok (slash.length, slash.length + find 63 t, slash.length + t.length) := by
  have hlen : t.length = find 35 s := by rw [ht, List.length_take_of_le (find_le 35 s)]
  have hend : Iter.findIn fullpath slash.length fullpath.length 35 = .ok (slash.length + t.length) := by
    have h := @findIn_parts slash s [] 35
    rw [List.append_nil, ← hs, ← List.length_append, ← hs] at h
    rw [h, hlen]
  have hquery : Iter.findIn fullpath slash.length (slash.length + t.length) 63 =
      .ok (slash.length + find 63 t) := by
    have h := @findIn_parts slash t (s.drop (find 35 s)) 63
    rwa [ht, ← take_drop_parts, ← hs, ← ht] at h
  simp only [pathEnds, hslash, hend, hquery, bind, Except.bind]
  rfl

/-- What `path_params` leaves behind, said by `pathParams`. -/
def outcome (g : Grammar) (path : Bytes) (params : KeyValues) (fullpath : Bytes) :
    Bool × Bytes × KeyValues :=
  match pathParams g fullpath with
  | none => (false, path, params)
  | some (p, l) => (true, p, params ++ l)

theorem returns_outcome (g : Grammar) (path : Bytes) (params : KeyValues) {fullpath : Bytes}
    (h : fullpath ≠ []) : Returns g path params fullpath (outcome g path params fullpath) := by
  obtain ⟨slash, s, hs, hstrip, hslash⟩ := exists_slash h
  let t := s.take (find 35 s)
  have hends := pathEnds_eq hs hslash (t := t) rfl
  have hle := find_le 63 t
  rw [outcome, pathParams, hstrip]
  change ∃ _, _
  simp only [pathParamsIn, hends]
  by_cases hb : find 63 t = 0
  · refine ⟨0, ?_⟩
    rw [if_pos (by omega), if_pos hb]
  · have hpath : Iter.range fullpath slash.length (slash.length + find 63 t) =
        .ok (t.take (find 63 t)) := by
      have hcut : fullpath = slash ++ t.take (find 63 t) ++ (t.drop (find 63 t) ++ s.drop (find 35 s)) := by
        rw [List.append_assoc, ← List.append_assoc (t.take _), List.take_append_drop,
          List.take_append_drop, hs]
      have hr := @range_parts slash (t.take (find 63 t)) (t.drop (find 63 t) ++ s.drop (find 35 s))
      rwa [← hcut, List.length_take_of_le hle] at hr
    have hloop := @params_ends (slash ++ t.take (find 63 t)) (s.drop (find 35 s)) g t.length
      (t.drop (find 63 t)) params (by rw [List.length_drop]; omega)
    have htext : slash ++ t.take (find 63 t) ++ t.drop (find 63 t) ++ s.drop (find 35 s) = fullpath := by
      rw [List.append_assoc slash, List.take_append_drop, List.append_assoc, List.take_append_drop, hs]
    have hend : (slash ++ t.take (find 63 t)).length + (t.drop (find 63 t)).length =
        slash.length + t.length := by
      rw [List.length_append, List.length_take_of_le hle, List.length_drop]
      omega
    rw [htext, hend, List.length_append, List.length_take_of_le hle] at hloop
    obtain ⟨turns, hturns⟩ := hloop
    refine ⟨turns, ?_⟩
    rw [if_neg (by omega), hpath, if_neg hb]
    dsimp only
    rw [hturns, Option.map_some]
    rfl

theorem Returns.unique {path : Bytes} {params : KeyValues} {fullpath : Bytes}
    {r r' : Bool × Bytes × KeyValues} (h : Returns g path params fullpath r)
    (h' : Returns g path params fullpath r') : r = r' := by
  obtain ⟨n, hn⟩ := h
  obtain ⟨n', hn'⟩ := h'
  rw [pathParamsIn] at hn hn'
  split at hn
  · cases hn
  · rename_i i b e hends
    rw [hends] at hn'
    dsimp only at hn'
    split at hn
    · rename_i hb
      rw [if_pos hb] at hn'
      exact Except.ok.inj (Option.some.inj (hn.symm.trans hn'))
    · rename_i hb
      rw [if_neg hb] at hn'
      split at hn
      · cases hn
      · rename_i p hp
        rw [hp] at hn'
        obtain ⟨x, hx, hr⟩ := Option.map_eq_some_iff.mp hn
        obtain ⟨x', hx', hr'⟩ := Option.map_eq_some_iff.mp hn'
        obtain rfl := Loop.Ends.unique ⟨n, hx⟩ ⟨n', hx'⟩
        exact Except.ok.inj (hr.symm.trans hr')

/-! ## Putting a target together -/

/-- A target: a path, pairs of keys and values, and a fragment or none. -/
structure Target where
  path : Bytes
  pairs : List (Bytes × Bytes)
  fragment : Option Bytes
  path_ne : path ≠ []
  path_clear : 63 ∉ path ∧ 35 ∉ path
  keys_clear : ∀ kv ∈ pairs, 61 ∉ kv.1 ∧ 38 ∉ kv.1 ∧ 35 ∉ kv.1
  values_clear : ∀ kv ∈ pairs, 38 ∉ kv.2 ∧ 35 ∉ kv.2

/-- The pairs, joined by `&`. -/
def query (pairs : List (Bytes × Bytes)) : Bytes :=
  ([38] : Bytes).intercalate (pairs.map fun kv => kv.1 ++ 61 :: kv.2)

def Target.text (t : Target) : Bytes :=
  47 :: t.path ++ 63 :: query t.pairs ++ t.fragment.elim [] (35 :: ·)

/-- The pairs, decoded piecewise. -/
def Target.params (g : Grammar) (t : Target) : KeyValues :=
  t.pairs.map fun kv => (g.urldecode kv.1, g.urldecode kv.2)

theorem find_of_not_mem {c : Byte} {s : Bytes} (h : c ∉ s) : find c s = s.length := by
  have := find_append_of_not_mem h []
  rwa [List.append_nil] at this

theorem find_behind {c : Byte} {s : Bytes} (h : c ∉ s) (t : Bytes) : find c (s ++ c :: t) = s.length := by
  rw [find_append_of_not_mem h, find, List.findIdx_cons, beq_self_eq_true]
  rfl

theorem segment_pair {k v : Bytes} (hk : 61 ∉ k) :
    segment g (k ++ 61 :: v) = [(g.urldecode k, g.urldecode v)] := by
  rw [segment, find_behind hk, if_pos (by rw [List.length_append, List.length_cons]; omega),
    List.take_left, ← List.drop_drop, List.drop_left, List.drop_one, List.tail_cons]

theorem query_singleton (kv : Bytes × Bytes) : query [kv] = kv.1 ++ 61 :: kv.2 := by
  rw [query, List.map_cons, List.map_nil, List.intercalate, List.intersperse_singleton,
    List.flatten_singleton]

theorem query_cons (kv : Bytes × Bytes) (pairs : List (Bytes × Bytes)) (h : pairs ≠ []) :
    query (kv :: pairs) = (kv.1 ++ 61 :: kv.2) ++ 38 :: query pairs := by
  obtain ⟨x, l, rfl⟩ := List.exists_cons_of_ne_nil h
  rw [query, query, List.map_cons, List.map_cons, List.intercalate, List.intersperse_cons_cons,
    List.flatten_cons, List.flatten_cons]
  rfl

theorem paramsFrom_query {pairs : List (Bytes × Bytes)} (hkeys : ∀ kv ∈ pairs, 61 ∉ kv.1 ∧ 38 ∉ kv.1)
    (hvalues : ∀ kv ∈ pairs, 38 ∉ kv.2) {n : Nat} (hn : (query pairs).length < n) (c : Byte) :
    paramsFrom g n (c :: query pairs) = pairs.map fun kv => (g.urldecode kv.1, g.urldecode kv.2) := by
  induction pairs generalizing n c with
  | nil =>
    obtain ⟨n, rfl⟩ := Nat.exists_eq_add_one_of_ne_zero (Nat.ne_of_gt (Nat.zero_lt_of_lt hn))
    rw [paramsFrom_cons]
    cases n <;> rfl
  | cons kv pairs ih =>
    obtain ⟨n, rfl⟩ := Nat.exists_eq_add_one_of_ne_zero (Nat.ne_of_gt (Nat.zero_lt_of_lt hn))
    obtain ⟨hk, hkamp⟩ := hkeys kv List.mem_cons_self
    have hamp : 38 ∉ kv.1 ++ 61 :: kv.2 := by
      rw [List.mem_append, List.mem_cons, not_or, not_or]
      exact ⟨hkamp, by decide, hvalues kv List.mem_cons_self⟩
    have ih' := fun (m : Nat) hm c => @ih (fun x hx => hkeys x (List.mem_cons_of_mem _ hx))
      (fun x hx => hvalues x (List.mem_cons_of_mem _ hx)) m hm c
    rw [paramsFrom_cons, List.map_cons]
    cases pairs with
    | nil =>
      rw [query_singleton, find_of_not_mem hamp, List.take_length, List.drop_length, segment_pair hk]
      cases n <;> rfl
    | cons x l =>
      rw [query_cons kv _ (List.cons_ne_nil x l)] at hn ⊢
      rw [find_behind hamp, List.take_left, List.drop_left, segment_pair hk, ih']
      · rfl
      · rw [List.length_append, List.length_cons] at hn
        omega

theorem not_mem_query {pairs : List (Bytes × Bytes)} (hkeys : ∀ kv ∈ pairs, 35 ∉ kv.1)
    (hvalues : ∀ kv ∈ pairs, 35 ∉ kv.2) : 35 ∉ query pairs := by
  induction pairs with
  | nil => exact List.not_mem_nil
  | cons kv pairs ih =>
    have hpair : 35 ∉ kv.1 ++ 61 :: kv.2 := by
      rw [List.mem_append, List.mem_cons, not_or, not_or]
      exact ⟨hkeys kv List.mem_cons_self, by decide, hvalues kv List.mem_cons_self⟩
    have ih' := ih (fun x hx => hkeys x (List.mem_cons_of_mem _ hx))
      (fun x hx => hvalues x (List.mem_cons_of_mem _ hx))
    cases pairs with
    | nil => rwa [query_singleton]
    | cons x l =>
      rw [query_cons kv _ (List.cons_ne_nil x l), List.mem_append, List.mem_cons, not_or, not_or]
      exact ⟨hpair, by decide, ih'⟩

/-- What stands before the first `#` does not depend on what stands behind it. -/
theorem take_find_hash (x f : Bytes) :
    (x ++ 35 :: f).take (find 35 (x ++ 35 :: f)) = x.take (find 35 x) := by
  induction x with
  | nil => rfl
  | cons a x ih =>
    rw [List.cons_append, find, find, List.findIdx_cons, List.findIdx_cons, ← find, ← find]
    cases a == 35 with
    | true => rfl
    | false => rw [cond_false, cond_false, List.take_succ_cons, List.take_succ_cons, ih]

/-- `pathParams` on what lies between the slash and the `#`. -/
def splitTarget (g : Grammar) (t : Bytes) : Option (Bytes × KeyValues) :=
  if find 63 t = 0 then none
  else some (t.take (find 63 t), paramsFrom g t.length (t.drop (find 63 t)))

theorem pathParams_slash (s : Bytes) : pathParams g (47 :: s) = splitTarget g (s.take (find 35 s)) := rfl

theorem pathParams_ne {c : Byte} (hc : c ≠ 47) (s : Bytes) :
    pathParams g (c :: s) = splitTarget g ((c :: s).take (find 35 (c :: s))) := by
  have hne : ¬(c :: s).head? = some 47 := by simpa using hc
  simp only [pathParams, if_neg hne]
  rfl

theorem pathParams_fragment (pre f f' : Bytes) :
    pathParams g (pre ++ 35 :: f) = pathParams g (pre ++ 35 :: f') := by
  cases pre with
  | nil =>
    rw [List.nil_append, List.nil_append, pathParams_ne (by decide), pathParams_ne (by decide)]
    rfl
  | cons c pre =>
    by_cases hc : c = 47
    · rw [hc, List.cons_append, List.cons_append, pathParams_slash, pathParams_slash, take_find_hash,
        take_find_hash]
    · rw [List.cons_append, List.cons_append, pathParams_ne hc, pathParams_ne hc, ← List.cons_append,
        ← List.cons_append, take_find_hash, take_find_hash]

theorem pathParams_target (t : Target) : pathParams g t.text = some (t.path, t.params g) := by
  have hclear : 35 ∉ t.path ++ 63 :: query t.pairs := by
    rw [List.mem_append, List.mem_cons, not_or, not_or]
    exact ⟨t.path_clear.2, by decide, not_mem_query (fun kv hkv => (t.keys_clear kv hkv).2.2)
      fun kv hkv => (t.values_clear kv hkv).2⟩
  have hcut (f : Option Bytes) : (t.path ++ 63 :: query t.pairs ++ f.elim [] (35 :: ·)).take
      (find 35 (t.path ++ 63 :: query t.pairs ++ f.elim [] (35 :: ·))) =
        t.path ++ 63 :: query t.pairs := by
    cases f with
    | none => rw [Option.elim, List.append_nil, find_of_not_mem hclear, List.take_length]
    | some f => rw [Option.elim, find_behind hclear, List.take_left]
  have hpath : 0 < t.path.length := List.length_pos_iff.mpr t.path_ne
  have hlen : (query t.pairs).length < (t.path ++ 63 :: query t.pairs).length := by
    rw [List.length_append, List.length_cons]
    omega
  have hparams := @paramsFrom_query g t.pairs
    (fun kv hkv => ⟨(t.keys_clear kv hkv).1, (t.keys_clear kv hkv).2.1⟩)
    (fun kv hkv => (t.values_clear kv hkv).1) _ hlen 63
  rw [Target.text, List.cons_append, List.cons_append, pathParams_slash, hcut, splitTarget,
    find_behind t.path_clear.1, if_neg (by omega), List.take_left, List.drop_left, hparams]
  rfl

/-! ## The main result -/

/-- Every target that is put together is taken apart into its path and pairs; on every
target that is not empty `path_params` returns; and what stands behind a `#` makes no
difference to what it returns. -/
theorem path_params_spec (g : Grammar) (path : Bytes) (params : KeyValues) :
    (∀ t : Target, Returns g path params t.text (true, t.path, params ++ t.params g)) ∧
    (∀ c s, ∃ r, Returns g path params (c :: s) r) ∧
    ∀ pre f f' r, Returns g path params (pre ++ 35 :: f) r ↔ Returns g path params (pre ++ 35 :: f') r := by
  refine ⟨fun t => ?_, fun c s => ⟨_, returns_outcome g path params (List.cons_ne_nil c s)⟩, ?_⟩
  · have hne : t.text ≠ [] := List.cons_ne_nil _ _
    have h := returns_outcome g path params hne
    rwa [outcome, pathParams_target] at h
  · intro pre f f' r
    have hreturns (f : Bytes) := returns_outcome g path params
      (List.append_ne_nil_of_right_ne_nil pre (List.cons_ne_nil 35 f))
    have hsame : outcome g path params (pre ++ 35 :: f) = outcome g path params (pre ++ 35 :: f') := by
      rw [outcome, outcome, pathParams_fragment]
    constructor
    · intro h
      rw [h.unique (hreturns f), hsame]
      exact hreturns f'
    · intro h
      rw [h.unique (hreturns f'), ← hsame]
      exact hreturns f

/-- A value with `=` in it, an empty key, and a fragment that looks like a query. -/
def pushTarget : Target where
  path := bytes "push"
  pairs := [(bytes "devtok", bytes "0f=="), ([], bytes "v"), (bytes "message", bytes "a+b")]
  fragment := some (bytes "x?y&z=1#")
  path_ne := by decide
  path_clear := by decide
  keys_clear := by decide
  values_clear := by decide

/-- A `+` is a blank. -/
def plusGrammar : Grammar :=
  ⟨fun _ => none, fun _ => none, List.map fun b => if b = 43 then 32 else b⟩

theorem path_params_push : Returns plusGrammar [] [] (bytes "/push?devtok=0f==&=v&message=a+b#x?y&z=1#")
    (true, bytes "push",
      [(bytes "devtok", bytes "0f=="), ([], bytes "v"), (bytes "message", bytes "a b")]) := by
  have h := (path_params_spec plusGrammar [] []).1 pushTarget
  have htext : pushTarget.text = bytes "/push?devtok=0f==&=v&message=a+b#x?y&z=1#" := by decide +kernel
  have hparams : pushTarget.params plusGrammar =
      [(bytes "devtok", bytes "0f=="), ([], bytes "v"), (bytes "message", bytes "a b")] := by
    decide +kernel
  rwa [htext, hparams] at h

/-- A segment without a `=` is left out, and so is all behind the `#`. -/
example : pathParamsIn ⟨fun _ => none, fun _ => none, id⟩ 5 [] [] (bytes "/a?k=v&x&=#&y=z") =
    some (.ok (true, bytes "a", [(bytes "k", bytes "v"), ([], [])])) := rfl

end CppSnippets.Push
