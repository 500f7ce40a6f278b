import CppSnippets.Js.Tokens

/-!
# The parser accepts the grammar and makes its traversal

A tree's text takes the parser to its end, by induction on the tree; and what the
parser has accepted is the text of a tree, by induction on the turns of the loop.
Every turn uses up a byte, so the model's bound on them is never met.
-/
namespace CppSnippets.Js

open CppSnippets.Lib Traced

variable {ν : Type} {New : ν → Key → Ptr → Option ν} {after : Option Byte}
  {nd : Option ν} {xk : Key} {beg p t : Ptr} {c : Byte}

/-! ## Scalars -/

theorem setScalar_returns {scan : Parse ν Ret} {r : Ret} (h : Returns scan r []) (ty : Ty) :
    Returns (setScalar scan nd xk ty) r.pos [.set nd xk r.beg r.fin ty] :=
  h.bind ((returns_emit _).bind (returns_pure r.pos))

theorem setScalar_meets {scan : Parse ν Ret} {ty : Ty} {good : Ret → Prop} {bad : Stop → Prop}
    (h : Meets scan (fun r ks => ks = [] ∧ good r) bad) :
    Meets (setScalar scan nd xk ty)
      (fun q ks => ∃ r, good r ∧ q = r.pos ∧ ks = [.set nd xk r.beg r.fin ty]) bad := by
  refine h.bind fun r ks hr => ?_
  obtain ⟨rfl, hr⟩ := hr
  exact ((returns_emit _).bind (returns_pure r.pos)).meets ⟨r, hr, rfl, rfl⟩

/-- No byte is the first one of two kinds of value. -/
theorem digit_ne {b : Byte} (hc : isdigit c = true) (hb : isdigit b = false) : c ≠ b := by
  intro h
  rw [h, hb] at hc
  cases hc

theorem jsaxWalk_cons {array : Option ν → Ptr → Parse ν Ptr} (hs : skipss beg = c :: p) :
    jsaxWalk New after array nd beg xk =
      if c = lbrace ∨ c = lbrack then do
        Traced.emit (.new nd xk (c :: p))
        let beg ← array (newNode New nd xk (c :: p)) (c :: p)
        Traced.emit (.fin nd xk (newNode New nd xk (c :: p)))
        return beg
      else if c = dquote ∨ c = squote then setScalar (jsaxString after (c :: p)) nd xk .str
      else if c = plus ∨ c = minus ∨ isdigit c then
        setScalar (jsaxDigital after (c :: p)) nd xk .int
      else if c = 0x54 ∨ c = 0x46 ∨ c = 0x74 ∨ c = 0x66 then
        setScalar (jsaxBoolean after (c :: p)) nd xk .bool
      else throw (.fail (c :: p)) := by
  simp only [jsaxWalk, hs]

theorem walk_scalar {array : Option ν → Ptr → Parse ν Ptr} (s : Scalar)
    (hs : skipss beg = s.text ++ t) (ht : Stops t) :
    Returns (jsaxWalk New after array nd beg xk) t (Value.visits New nd xk t (.scalar s)) := by
  -- the scan starts at a byte that is no whitespace, where `skipss` stays
  have hstay : skipss (s.text ++ t) = s.text ++ t := by
    rw [← hs, skipss_skipss]
  cases s with
  | str q =>
    have hs' : skipss beg = q.mark :: (q.body ++ [q.mark] ++ t) := hs
    rw [jsaxWalk_cons hs', if_neg (by rcases q.isMark with h | h <;> rw [h] <;> decide),
      if_pos q.isMark]
    exact setScalar_returns (jsaxString_returns q hstay) .str
  | int n =>
    obtain ⟨c, p, hn, hfirst, _⟩ := n.text_cons
    have hs' : skipss beg = c :: (p ++ t) := by rw [hs, Scalar.text, hn, List.cons_append]
    have hbracket : ¬(c = lbrace ∨ c = lbrack) ∧ ¬(c = dquote ∨ c = squote) := by
      rcases hfirst with rfl | rfl | h
      · decide
      · decide
      · exact ⟨not_or.mpr ⟨digit_ne h (by decide), digit_ne h (by decide)⟩,
          not_or.mpr ⟨digit_ne h (by decide), digit_ne h (by decide)⟩⟩
    rw [jsaxWalk_cons hs', if_neg hbracket.1, if_neg hbracket.2, if_pos hfirst, ← hs', hs]
    exact setScalar_returns (jsaxDigital_returns n hstay ht) .int
  | bool w =>
    have hs' : skipss beg = w.head :: (w.rest ++ t) := hs
    have hhead : w.head = 0x54 ∨ w.head = 0x46 ∨ w.head = 0x74 ∨ w.head = 0x66 := by
      rcases w.isWord with ⟨h | h, _⟩ | ⟨h | h, _⟩ <;> simp [h]
    have hother : ¬(w.head = lbrace ∨ w.head = lbrack) ∧ ¬(w.head = dquote ∨ w.head = squote) ∧
        ¬(w.head = plus ∨ w.head = minus ∨ isdigit w.head = true) := by
      rcases hhead with h | h | h | h <;> rw [h] <;> decide
    rw [jsaxWalk_cons hs', if_neg hother.1, if_neg hother.2.1, if_neg hother.2.2, if_pos hhead]
    exact setScalar_returns (jsaxBoolean_returns w hstay) .bool

/-- A nested container: `New`, what `jsax_array` does to the node, `Fin`. -/
theorem walk_container {array : Option ν → Ptr → Parse ν Ptr} {ks : List (Callback ν)}
    (hs : skipss beg = c :: p) (hc : c = lbrace ∨ c = lbrack)
    (h : Returns (array (newNode New nd xk (c :: p)) (c :: p)) t ks) :
    Returns (jsaxWalk New after array nd beg xk) t
      (.new nd xk (c :: p) :: (ks ++ [.fin nd xk (newNode New nd xk (c :: p))])) := by
  rw [jsaxWalk_cons hs, if_pos hc]
  exact (returns_emit _).bind (h.bind ((returns_emit _).bind (returns_pure t)))

/-! ## What the grammar derives, the parser accepts -/

theorem close_numeral (k : Kind) : numeral k.close = false := by cases k <;> decide

theorem head_returns {k : Kind} (h : Head k) (i : Int32) (t : Ptr) :
    Returns (jsaxKey after k.ty i (h.text ++ t) : Parse ν (Key × Ptr))
      (h.key i, h.before.text ++ t) [] := by
  cases h with
  | element before => exact returns_pure _
  | member first key second before =>
    have hs : skipss ((Head.member first key second before).text ++ t) =
        key.text ++ (second.text ++ colon :: (before.text ++ t)) := by
      have hmark : isspace key.mark = false := by
        rcases key.isMark with h | h <;> rw [h] <;> decide
      simp only [Head.text, List.append_assoc, skipss_spaces, List.cons_append]
      exact skipss_cons hmark _
    have hcolon : skipss (second.text ++ colon :: (before.text ++ t)) =
        colon :: (before.text ++ t) := by
      rw [skipss_spaces, skipss_cons (by decide)]
    have hkey : range (key.body ++ key.mark :: (second.text ++ colon :: (before.text ++ t)))
        (key.mark :: (second.text ++ colon :: (before.text ++ t))) = key.body := range_append _ _
    rw [jsaxKey, if_neg (by decide)]
    refine (jsaxString_returns key hs).bind ?_
    simp only [Scalar.ret, hcolon, hkey]
    exact returns_pure _

/-- The texts of trees are not shorter than the turns they take. -/
theorem length_tail (a b : List Byte) : b.length ≤ (a ++ b).length := by
  rw [List.length_append]
  omega

theorem open_cons (k : Kind) : (k.ty = lbrace ∨ k.ty = lbrack) ∧ isspace k.ty = false ∧
    isspace k.close = false := by
  cases k <;> decide

theorem jsaxArray_cons {turns : Option ν → Byte → Int32 → Ptr → Parse ν Ptr}
    (hs : skipss beg = c :: p) (hc : c = lbrace ∨ c = lbrack) :
    jsaxArray after turns nd beg =
      match skipss p with
      | [] => throw (.fail (c :: p))
      | d :: q => if d = c + 2 then pure q else turns nd c 1 (c :: p) := by
  have hbracket : ¬(c ≠ lbrace ∧ c ≠ lbrack) := fun h => hc.elim h.1 h.2
  cases hp : skipss p with
  | nil => simp only [jsaxArray, hs, hp, deref, incr, pure_bind, hbracket, if_false]
  | cons d q => simp only [jsaxArray, hs, hp, deref, incr, pure_bind, hbracket, if_false]

/-- The loop from a bracket or a comma on, where the key stands right behind it. -/
theorem loop_cons {n : Nat} {ty : Byte} {i : Int32} {rest : Ptr} :
    loop New after (n + 1) nd ty i (c :: rest) = (do
      let r ← jsaxKey after ty i rest
      let beg ← jsaxWalk New after (jsaxArray after (loop New after n)) nd r.2 r.1
      let c ← deref after (skipss beg)
      if c = comma then loop New after n nd ty (i + 1) (skipss beg)
      else if c ≠ ty + 2 then throw (.fail (skipss beg))
      else incr (skipss beg)) := by
  simp only [loop, incr, pure_bind]

theorem close_ne (k : Kind) : k.close ≠ comma ∧ k.close = k.ty + 2 := by
  cases k <;> decide

/-- What a turn does behind the value. -/
def afterValue (New : ν → Key → Ptr → Option ν) (after : Option Byte) (n : Nat) (nd : Option ν)
    (ty : Byte) (i : Int32) (beg : Ptr) : Parse ν Ptr := do
  let c ← deref after (skipss beg)
  if c = comma then loop New after n nd ty (i + 1) (skipss beg)
  else if c ≠ ty + 2 then throw (.fail (skipss beg))
  else incr (skipss beg)

theorem afterValue_close {k : Kind} {n : Nat} {i : Int32} (ws : Spaces) (t : Ptr) :
    afterValue New after n nd k.ty i (ws.text ++ k.close :: t) = pure t := by
  have hs : skipss (ws.text ++ k.close :: t) = k.close :: t := by
    rw [skipss_spaces, skipss_cons (open_cons k).2.2]
  simp only [afterValue, hs, deref, pure_bind, incr, (close_ne k).1, ← (close_ne k).2, if_false, ne_eq,
    not_true_eq_false]

theorem afterValue_comma {k : Kind} {n : Nat} {i : Int32} (ws : Spaces) (t : Ptr) :
    afterValue New after n nd k.ty i (ws.text ++ comma :: t) =
      loop New after n nd k.ty (i + 1) (comma :: t) := by
  have hs : skipss (ws.text ++ comma :: t) = comma :: t := by
    rw [skipss_spaces, skipss_cons (by decide)]
  simp only [afterValue, hs, deref, pure_bind, if_true]

/-- One turn: the key, the value, and what comes behind it. -/
theorem turn_returns {k : Kind} {h : Head k} {n : Nat} {i : Int32} {u q : Ptr}
    {ks ls : List (Callback ν)}
    (hwalk : Returns (jsaxWalk New after (jsaxArray after (loop New after n)) nd
      (h.before.text ++ u) (h.key i)) t ks)
    (hrest : Returns (afterValue New after n nd k.ty i t) q ls) :
    Returns (loop New after (n + 1) nd k.ty i (c :: (h.text ++ u))) q (ks ++ ls) := by
  rw [loop_cons, ← List.nil_append (ks ++ ls)]
  exact (head_returns h i u).bind (hwalk.bind hrest)

/-! ## First bytes -/

/-- The byte begins a value: it is no whitespace and closes no container. -/
def Begins (c : Byte) : Prop := isspace c = false ∧ ∀ k, c ≠ Kind.close k

theorem begins_digit (h : isdigit c = true) : Begins c := by
  refine ⟨?_, fun k hk => ?_⟩
  · cases hs : isspace c with
    | false => rfl
    | true =>
      have hn := numeral_of_isspace hs
      rw [numeral, h] at hn
      cases hn
  · have hn := close_numeral k
    rw [← hk, numeral, h] at hn
    cases hn

theorem begins_of_ne (hs : isspace c = false) (ha : c ≠ Kind.array.close)
    (ho : c ≠ Kind.object.close) : Begins c := by
  refine ⟨hs, fun k => ?_⟩
  cases k with
  | array => exact ha
  | object => exact ho

theorem Scalar.text_cons (s : Scalar) : ∃ c p, s.text = c :: p ∧ Begins c := by
  cases s with
  | str q =>
    refine ⟨q.mark, _, rfl, ?_⟩
    rcases q.isMark with h | h <;> rw [h] <;> exact begins_of_ne (by decide) (by decide) (by decide)
  | int n =>
    obtain ⟨c, p, hn, hfirst, _⟩ := n.text_cons
    refine ⟨c, p, hn, ?_⟩
    rcases hfirst with rfl | rfl | h
    · exact begins_of_ne (by decide) (by decide) (by decide)
    · exact begins_of_ne (by decide) (by decide) (by decide)
    · exact begins_digit h
  | bool w =>
    refine ⟨w.head, w.rest, rfl, ?_⟩
    rcases w.isWord with ⟨h | h, _⟩ | ⟨h | h, _⟩ <;> rw [h] <;>
      exact begins_of_ne (by decide) (by decide) (by decide)

theorem Container.text_cons (x : Container) :
    ∃ (k : Kind) (p : List Byte), x.text = k.ty :: p := by
  cases x with
  | empty k ws => exact ⟨k, _, by rw [Container.text]⟩
  | full k ms => exact ⟨k, _, by rw [Container.text]⟩

theorem begins_open (k : Kind) : Begins k.ty := by
  cases k <;> exact begins_of_ne (by decide) (by decide) (by decide)

theorem Value.text_cons (v : Value) : ∃ c p, v.text = c :: p ∧ Begins c := by
  cases v with
  | scalar s =>
    obtain ⟨c, p, hs, hc⟩ := s.text_cons
    exact ⟨c, p, by rw [Value.text, hs], hc⟩
  | container x =>
    obtain ⟨k, p, hx⟩ := x.text_cons
    exact ⟨k.ty, p, by rw [Value.text, hx], begins_open k⟩

theorem skipss_value (ws : Spaces) (v : Value) (t : Ptr) :
    skipss (ws.text ++ (v.text ++ t)) = v.text ++ t := by
  obtain ⟨c, p, hv, hc⟩ := v.text_cons
  rw [skipss_spaces, hv, List.cons_append, skipss_cons hc.1]

theorem key_first (first : Spaces) (key : Quoted) (u : Ptr) :
    ∃ c p, skipss (first.text ++ (key.text ++ u)) = c :: p ∧ Begins c := by
  obtain ⟨c, p, hk, hc⟩ := (Scalar.str key).text_cons
  have hk' : key.text = c :: p := hk
  exact ⟨c, p ++ u, by rw [skipss_spaces, hk', List.cons_append, skipss_cons hc.1], hc⟩

/-- The first byte of a head and of a value behind it. -/
theorem head_first {k : Kind} (h : Head k) {u : Ptr} (hu : ∃ c p, u = c :: p ∧ Begins c) :
    ∃ c p, skipss (h.text ++ u) = c :: p ∧ Begins c := by
  cases h with
  | element before =>
    obtain ⟨c, p, rfl, hc⟩ := hu
    exact ⟨c, p, by rw [Head.text, skipss_spaces, skipss_cons hc.1], hc⟩
  | member first key second before =>
    simp only [Head.text, List.append_assoc]
    exact key_first first key _

theorem value_first (v : Value) (t : Ptr) : ∃ c p, v.text ++ t = c :: p ∧ Begins c := by
  obtain ⟨c, p, hv, hc⟩ := v.text_cons
  exact ⟨c, p ++ t, by rw [hv, List.cons_append], hc⟩

theorem members_first {k : Kind} (ms : Members k) (t : Ptr) :
    ∃ c p, skipss (ms.text ++ t) = c :: p ∧ Begins c := by
  cases ms with
  | last h v ws =>
    rw [Members.text, List.append_assoc, List.append_assoc]
    exact head_first h (value_first v _)
  | more h v ws ms =>
    rw [Members.text, List.append_assoc, List.append_assoc]
    exact head_first h (value_first v _)

/-! ## Every tree -/

def Spaces.none : Spaces := ⟨[], by simp⟩

mutual

theorem Value.walk_returns {n : Nat} {ws : Spaces} {nd : Option ν} {xk : Key} {t : Ptr}
    (ht : Stops t) : ∀ v : Value, (v.text ++ t).length ≤ n →
    Returns (jsaxWalk New after (jsaxArray after (loop New after n)) nd (ws.text ++ (v.text ++ t))
      xk) t (v.visits New nd xk t)
  | .scalar s, _ => walk_scalar s (skipss_value ws (.scalar s) t) ht
  | .container x, hn => by
    obtain ⟨k, p, hx⟩ := x.text_cons
    have hs : skipss (ws.text ++ ((Value.container x).text ++ t)) = k.ty :: (p ++ t) := by
      rw [skipss_value, Value.text, hx, List.cons_append]
    have hbeg : k.ty :: (p ++ t) = x.text ++ t := by rw [hx, List.cons_append]
    rw [Value.text] at hn
    have harray : Returns (jsaxArray after (loop New after n) (newNode New nd xk (x.text ++ t))
        (Spaces.none.text ++ (x.text ++ t))) t
        (x.visits New (newNode New nd xk (x.text ++ t)) t) := Container.array_returns x hn
    rw [Value.visits, ← hbeg]
    rw [← hbeg] at harray
    exact walk_container hs (open_cons k).1 harray

theorem Container.array_returns {n : Nat} {ws : Spaces} {nd : Option ν} {t : Ptr} :
    ∀ x : Container, (x.text ++ t).length ≤ n →
    Returns (jsaxArray after (loop New after n) nd (ws.text ++ (x.text ++ t))) t
      (x.visits New nd t)
  | .empty k blank, _ => by
    have hs : skipss (ws.text ++ ((Container.empty k blank).text ++ t)) =
        k.ty :: (blank.text ++ k.close :: t) := by
      rw [skipss_spaces, Container.text, List.cons_append, skipss_cons (open_cons k).2.1,
        List.append_assoc]
      rfl
    have hclose : skipss (blank.text ++ k.close :: t) = k.close :: t := by
      rw [skipss_spaces, skipss_cons (open_cons k).2.2]
    rw [jsaxArray_cons hs (open_cons k).1, hclose, Container.visits]
    dsimp only
    rw [if_pos (close_ne k).2]
    exact returns_pure t
  | .full k ms, hn => by
    have htext : (Container.full k ms).text ++ t = k.ty :: (ms.text ++ k.close :: t) := by
      rw [Container.text, List.cons_append, List.append_assoc]
      rfl
    have hs : skipss (ws.text ++ ((Container.full k ms).text ++ t)) =
        k.ty :: (ms.text ++ k.close :: t) := by
      rw [skipss_spaces, htext, skipss_cons (open_cons k).2.1]
    obtain ⟨c, p, hfirst, hc⟩ := members_first ms (k.close :: t)
    rw [htext] at hn
    rw [jsaxArray_cons hs (open_cons k).1, hfirst, Container.visits]
    dsimp only
    rw [if_neg fun h => hc.2 k (h.trans (close_ne k).2.symm)]
    exact Members.loop_returns ms hn

theorem Members.loop_returns {k : Kind} {n : Nat} {nd : Option ν} {i : Int32} {c : Byte}
    {t : Ptr} : ∀ ms : Members k, (c :: (ms.text ++ k.close :: t)).length ≤ n →
    Returns (loop New after n nd k.ty i (c :: (ms.text ++ k.close :: t))) t
      (ms.visits New nd i (k.close :: t))
  | .last h v ws, hn => by
    have htext : (Members.last h v ws).text ++ k.close :: t =
        h.text ++ (v.text ++ (ws.text ++ k.close :: t)) := by
      rw [Members.text, List.append_assoc, List.append_assoc]
    have hstops : Stops (ws.text ++ k.close :: t) :=
      stops_spaces ws (stops_cons (close_numeral k) t)
    rw [htext, List.length_cons] at hn
    obtain ⟨n, rfl⟩ : ∃ m, n = m + 1 := ⟨n - 1, by omega⟩
    have hlen := length_tail h.text (v.text ++ (ws.text ++ k.close :: t))
    rw [htext, Members.visits, ← List.append_nil (v.visits New nd (h.key i) _)]
    refine turn_returns (Value.walk_returns hstops v (by omega)) ?_
    rw [afterValue_close]
    exact returns_pure t
  | .more h v ws ms, hn => by
    have htext : (Members.more h v ws ms).text ++ k.close :: t =
        h.text ++ (v.text ++ (ws.text ++ comma :: (ms.text ++ k.close :: t))) := by
      simp only [Members.text, List.append_assoc, List.cons_append]
    have hstops : Stops (ws.text ++ comma :: (ms.text ++ k.close :: t)) :=
      stops_spaces ws (stops_cons (by decide) _)
    rw [htext, List.length_cons] at hn
    obtain ⟨n, rfl⟩ : ∃ m, n = m + 1 := ⟨n - 1, by omega⟩
    have hlen := length_tail h.text (v.text ++ (ws.text ++ comma :: (ms.text ++ k.close :: t)))
    have hlen' := length_tail v.text (ws.text ++ comma :: (ms.text ++ k.close :: t))
    have hlen'' := length_tail ws.text (comma :: (ms.text ++ k.close :: t))
    rw [htext, Members.visits]
    refine turn_returns (Value.walk_returns hstops v (by omega)) ?_
    rw [afterValue_comma]
    exact Members.loop_returns ms (by omega)

end

/-! ## What the parser accepts, the grammar derives -/

theorem spaces_eq_nil {ws : Spaces} {u : Ptr} (hc : isspace c = false)
    (h : c :: p = ws.text ++ u) : ws.text = [] := by
  obtain ⟨text, hall⟩ := ws
  cases text with
  | nil => rfl
  | cons d l =>
    obtain ⟨rfl, _⟩ := List.cons.inj h
    rw [hall c List.mem_cons_self] at hc
    cases hc

/-- Behind the end there is nothing, or a byte of zero. -/
theorem deref_end_meets {α : Type} {good : α → List (Callback ν) → Prop} {P : Prop}
    {f : Byte → Parse ν α} (ha : ∀ b ∈ after, b = 0) (hP : P)
    (hf : Meets (f 0) good (Bad after P)) : Meets (deref after [] >>= f) good (Bad after P) := by
  cases after with
  | none =>
    have hstop : Meets (deref none [] : Parse ν Byte) (fun _ _ => False) (Bad none P) :=
      meets_throw ⟨rfl, hP⟩
    exact hstop.bind fun _ _ h => h.elim
  | some b =>
    obtain rfl := ha b rfl
    exact hf

theorem jsaxString_end {s : Ptr} (ha : ∀ b ∈ after, b = 0) (hs : skipss s = []) :
    Meets (jsaxString after s : Parse ν Ret) (fun _ _ => False) (Bad after (Blank s)) := by
  unfold jsaxString
  rw [hs]
  refine deref_end_meets ha (skipss_eq_nil.mp hs) ?_
  exact meets_throw trivial

/-- The key of a member, up to the value or to the end. -/
theorem jsaxKey_meets (k : Kind) {i : Int32} {s : Ptr} (ha : ∀ b ∈ after, b = 0) :
    Meets (jsaxKey after k.ty i s : Parse ν (Key × Ptr))
      (fun r ks => ks = [] ∧ ∃ (h : Head k) (t : Ptr), s = h.text ++ t ∧ skipss t = t ∧
        r = (h.key i, h.before.text ++ t))
      (Bad after (Blank s)) := by
  cases k with
  | array =>
    obtain ⟨ws, hws⟩ := exists_spaces s
    refine meets_pure ⟨rfl, .element ws, skipss s, hws, skipss_skipss s, ?_⟩
    rw [Head.before, ← hws]
    rfl
  | object =>
    rw [jsaxKey, if_neg (by decide)]
    cases hs : skipss s with
    | nil => exact (jsaxString_end ha hs).bind fun _ _ h => h.elim
    | cons c p =>
      refine ((jsaxString_meets hs).mono (fun _ _ h => h) (Bad.mono False.elim)).bind
        fun r ks hr => ?_
      obtain ⟨rfl, q, t, hq, rfl⟩ := hr
      dsimp only [Scalar.ret]
      cases ht : skipss t with
      | nil => exact meets_throw trivial
      | cons d u =>
        dsimp only
        split
        · exact meets_throw trivial
        · rename_i hd
          obtain rfl := not_not.mp hd
          obtain ⟨first, hfirst⟩ := exists_spaces s
          obtain ⟨second, hsecond⟩ := exists_spaces t
          obtain ⟨before, hbefore⟩ := exists_spaces u
          refine meets_pure ⟨rfl, .member first q second before, skipss u, ?_, skipss_skipss u, ?_⟩
          · rw [hfirst, hs, hq, hsecond, ht, hbefore]
            simp only [Head.text, List.append_assoc, List.cons_append, skipss_spaces,
              skipss_skipss]
          · rw [range_append, Head.key, Head.before, ← hbefore]

/-- What may be accepted between `beg` and `p` on a node: a container. -/
def Contains (New : ν → Key → Ptr → Option ν) (nd : Option ν) (beg p : Ptr)
    (ks : List (Callback ν)) : Prop :=
  ∃ (ws : Spaces) (x : Container), beg = ws.text ++ (x.text ++ p) ∧ ks = x.visits New nd p

theorem scalar_meets {scan : Parse ν Ret} {ty : Ty} {P : Prop}
    (h : Meets scan (fun r ks => ks = [] ∧ ∃ (s : Scalar) (t : Ptr), s.ty = ty ∧
      beg = s.text ++ t ∧ r = s.ret t) (Bad after False)) :
    Meets (setScalar scan nd xk ty)
      (fun q ks => ∃ v : Value, beg = v.text ++ q ∧ ks = v.visits New nd xk q) (Bad after P) := by
  refine (setScalar_meets h).mono (fun q ks hq => ?_) (Bad.mono False.elim)
  obtain ⟨r, ⟨s, t, rfl, hbeg, rfl⟩, rfl, rfl⟩ := hq
  have hpos : (s.ret t).pos = t := by cases s <;> rfl
  exact ⟨.scalar s, by rw [hpos, Value.text, hbeg], by rw [hpos, Value.visits]⟩

theorem container_meets {array : Option ν → Ptr → Parse ν Ptr} (hc : isspace c = false)
    (harray : ∀ nd, Meets (array nd (c :: p)) (Contains New nd (c :: p))
      (Bad after (Cut (c :: p)))) :
    Meets (do
      Traced.emit (.new nd xk (c :: p))
      let beg ← array (newNode New nd xk (c :: p)) (c :: p)
      Traced.emit (.fin nd xk (newNode New nd xk (c :: p)))
      return beg)
      (fun q ks => ∃ v : Value, c :: p = v.text ++ q ∧ ks = v.visits New nd xk q)
      (Bad after (∃ (k : Kind) (u : Ptr), c :: p = k.ty :: u ∧ ¬Blank u ∧ Unfinished k u)) := by
  refine (returns_emit _).bind_meets (((harray _).mono (fun _ _ h => h) (Bad.mono ?_)).bind
    fun q ks hq => ?_)
  · rintro (hblank | ⟨ws, k, u, hu, hrest⟩)
    · rw [hblank c List.mem_cons_self] at hc
      cases hc
    · rw [spaces_eq_nil hc hu] at hu
      exact ⟨k, u, hu, hrest⟩
  · obtain ⟨ws, x, hx, rfl⟩ := hq
    rw [spaces_eq_nil hc hx, List.nil_append] at hx
    refine ((returns_emit _).bind (returns_pure q)).meets ⟨.container x, ?_, ?_⟩
    · rw [Value.text, hx]
    · rw [Value.visits, hx]
      rfl

/-- A value, given what `jsax_array` may do. -/
theorem jsaxWalk_meets (New : ν → Key → Ptr → Option ν) (nd : Option ν) (xk : Key)
    {array : Option ν → Ptr → Parse ν Ptr} {s : Ptr}
    (harray : ∀ nd, Meets (array nd (skipss s)) (Contains New nd (skipss s))
      (Bad after (Cut (skipss s)))) :
    Meets (jsaxWalk New after array nd s xk)
      (fun q ks => skipss s = [] ∧ q = [] ∧ ks = [] ∨
        ∃ v : Value, skipss s = v.text ++ q ∧ ks = v.visits New nd xk q)
      (Bad after (∃ (k : Kind) (u : Ptr), skipss s = k.ty :: u ∧ ¬Blank u ∧ Unfinished k u)) := by
  cases hs : skipss s with
  | nil =>
    have hw : jsaxWalk New after array nd s xk = pure [] := by simp only [jsaxWalk, hs]
    rw [hw]
    exact meets_pure (.inl ⟨rfl, rfl, rfl⟩)
  | cons c p =>
    have hstay : skipss (c :: p) = c :: p := by rw [← hs, skipss_skipss]
    have hspace : isspace c = false := isspace_of_skipss hs
    rw [hs] at harray
    rw [jsaxWalk_cons hs]
    have hcons : ∀ {f : Parse ν Ptr} {P : Prop},
        Meets f (fun q ks => ∃ v : Value, c :: p = v.text ++ q ∧ ks = v.visits New nd xk q)
          (Bad after P) →
        Meets f (fun q ks => c :: p = [] ∧ q = [] ∧ ks = [] ∨
          ∃ v : Value, c :: p = v.text ++ q ∧ ks = v.visits New nd xk q) (Bad after P) :=
      fun h => h.mono (fun _ _ hv => .inr hv) fun _ hb => hb
    refine hcons ?_
    split
    · exact container_meets hspace harray
    · split
      · refine scalar_meets ((jsaxString_meets hstay).mono (fun r ks hr => ?_) fun _ h => h)
        obtain ⟨hks, q, t, hq, hr⟩ := hr
        exact ⟨hks, .str q, t, rfl, hq, hr⟩
      · split
        · refine scalar_meets ((jsaxDigital_meets hstay).mono (fun r ks hr => ?_) fun _ h => h)
          obtain ⟨hks, n, t, hn, hr⟩ := hr
          exact ⟨hks, .int n, t, rfl, hn, hr⟩
        · split
          · refine scalar_meets ((jsaxBoolean_meets hstay).mono (fun r ks hr => ?_) fun _ h => h)
            obtain ⟨hks, w, t, hw, hr⟩ := hr
            exact ⟨hks, .bool w, t, rfl, hw, hr⟩
          · exact meets_throw trivial

/-- What may be accepted from behind a bracket or a comma on: the members, and the
bracket that closes their container. -/
def Closes (New : ν → Key → Ptr → Option ν) (nd : Option ν) (k : Kind) (i : Int32) (s q : Ptr)
    (ks : List (Callback ν)) : Prop :=
  ∃ ms : Members k, s = ms.text ++ k.close :: q ∧ ks = ms.visits New nd i (k.close :: q)

theorem exists_kind (h : c = lbrace ∨ c = lbrack) : ∃ k : Kind, c = k.ty :=
  h.elim (⟨.object, ·⟩) (⟨.array, ·⟩)

/-- A container, given what the loop may do. -/
theorem jsaxArray_meets {turns : Option ν → Byte → Int32 → Ptr → Parse ν Ptr} {s : Ptr}
    (ha : ∀ b ∈ after, b = 0)
    (hturns : ∀ nd k u, skipss s = Kind.ty k :: u → Meets (turns nd k.ty 1 (k.ty :: u))
      (Closes New nd k 1 u) (Bad after (Unfinished k u))) :
    Meets (jsaxArray after turns nd s) (Contains New nd s) (Bad after (Cut s)) := by
  cases hs : skipss s with
  | nil =>
    unfold jsaxArray
    rw [hs]
    refine deref_end_meets ha (.inl (skipss_eq_nil.mp hs)) ?_
    rw [if_pos (by decide)]
    exact meets_throw trivial
  | cons c p =>
    obtain ⟨ws, hws⟩ := exists_spaces s
    rw [hs] at hws
    by_cases hc : c = lbrace ∨ c = lbrack
    swap
    · have hbracket : c ≠ lbrace ∧ c ≠ lbrack := not_or.mp hc
      simp only [jsaxArray, hs, deref, pure_bind]
      rw [if_pos hbracket]
      exact meets_throw trivial
    obtain ⟨k, rfl⟩ := exists_kind hc
    rw [jsaxArray_cons hs hc]
    cases hp : skipss p with
    | nil => exact meets_throw trivial
    | cons d q =>
      dsimp only
      obtain ⟨blank, hblank⟩ := exists_spaces p
      split
      · rename_i hd
        refine meets_pure ⟨ws, .empty k blank, ?_, by rw [Container.visits]⟩
        rw [hws, hblank, hp, hd, Container.text, (close_ne k).2]
        simp
      · refine (hturns nd k p hs).mono (fun r ks hr => ?_) (Bad.mono fun hu => ?_)
        · obtain ⟨ms, hms, rfl⟩ := hr
          refine ⟨ws, .full k ms, ?_, by rw [Container.visits]⟩
          rw [hws, hms, Container.text]
          simp
        · refine .inr ⟨ws, k, p, hws, fun hb => ?_, hu⟩
          rw [skipss_eq_nil.mpr hb] at hp
          cases hp

/-- What may come behind a value. -/
theorem afterValue_meets {k : Kind} {n : Nat} {i : Int32} (ha : ∀ b ∈ after, b = 0)
    (hloop : ∀ u, skipss p = comma :: u → Meets (loop New after n nd k.ty (i + 1) (comma :: u))
      (Closes New nd k (i + 1) u) (Bad after (Unfinished k u))) :
    Meets (afterValue New after n nd k.ty i p)
      (fun q ks => ∃ ws : Spaces, p = ws.text ++ k.close :: q ∧ ks = [] ∨
        ∃ u, p = ws.text ++ comma :: u ∧ Closes New nd k (i + 1) u q ks)
      (Bad after (Blank p ∨ ∃ (ws : Spaces) (u : Ptr), p = ws.text ++ comma :: u ∧
        Unfinished k u)) := by
  unfold afterValue
  cases hs : skipss p with
  | nil =>
    refine deref_end_meets ha (.inl (skipss_eq_nil.mp hs)) ?_
    have hzero : (0 : Byte) ≠ comma ∧ (0 : Byte) ≠ k.ty + 2 := by cases k <;> decide
    rw [if_neg hzero.1, if_pos hzero.2]
    exact meets_throw trivial
  | cons c u =>
    obtain ⟨ws, hws⟩ := exists_spaces p
    rw [hs] at hws
    simp only [deref, pure_bind]
    by_cases hcomma : c = comma
    · subst hcomma
      rw [if_pos rfl]
      exact (hloop u hs).mono (fun q ks hq => ⟨ws, .inr ⟨u, hws, hq⟩⟩)
        (Bad.mono fun hu => .inr ⟨ws, u, hws, hu⟩)
    · rw [if_neg hcomma]
      split
      · exact meets_throw trivial
      · rename_i hclose
        rw [not_not, ← (close_ne k).2] at hclose
        subst hclose
        exact meets_pure ⟨ws, .inl ⟨hws, rfl⟩⟩

theorem unfinished_head {k : Kind} (h : Head k) : Unfinished k h.text := by
  cases h with
  | element before => exact .comma .array before
  | member first key second before => exact .colon (.member first key second before)

/-- Every turn of the loop uses up the byte it starts at. -/
theorem loop_meets (ha : ∀ b ∈ after, b = 0) (n : Nat) : ∀ (nd : Option ν) (k : Kind) (i : Int32)
    (c : Byte) (s : Ptr), s.length < n →
    Meets (loop New after n nd k.ty i (c :: s)) (Closes New nd k i s)
      (Bad after (Unfinished k s)) := by
  induction n with
  | zero => exact fun _ _ _ _ s hlt => absurd hlt (Nat.not_lt_zero _)
  | succ n ih =>
    intro nd k i c s hlt
    have harray : ∀ (nd : Option ν) (u : Ptr), (skipss u).length ≤ n →
        Meets (jsaxArray after (loop New after n) nd u) (Contains New nd u) (Bad after (Cut u)) := by
      intro nd u hu
      refine jsaxArray_meets ha fun nd k v hv => ?_
      rw [hv, List.length_cons] at hu
      exact ih nd k 1 k.ty v (by omega)
    rw [loop_cons]
    refine ((jsaxKey_meets k ha).mono (fun _ _ h => h) (Bad.mono ?_)).bind fun r ks hr => ?_
    · intro hblank
      exact .comma k ⟨s, hblank⟩
    obtain ⟨rfl, h, t, rfl, hstay, rfl⟩ := hr
    have ht : skipss (h.before.text ++ t) = t := by rw [skipss_spaces, hstay]
    have hlen := length_tail h.text t
    have hwalk := jsaxWalk_meets New nd (h.key i) (s := h.before.text ++ t)
      (fun nd => harray nd _ (by rw [skipss_skipss, ht]; omega))
    rw [ht] at hwalk
    refine (hwalk.mono (fun _ _ hv => hv) (Bad.mono ?_)).bind fun q ks hq => ?_
    · rintro ⟨k', u, rfl, hu, hrest⟩
      exact .nested h k' hu hrest
    obtain ⟨rfl, rfl, rfl⟩ | ⟨v, rfl, rfl⟩ := hq
    · -- the range ends where the value should be
      rw [List.append_nil]
      refine (afterValue_meets (p := []) ha fun u hu => nomatch hu).mono (fun r ls hr => ?_)
        (Bad.mono fun _ => unfinished_head h)
      obtain ⟨ws, ⟨hnil, _⟩ | ⟨u, hnil, _⟩⟩ := hr <;> simp at hnil
    · have hlen' := length_tail v.text q
      obtain ⟨ws, hws⟩ := exists_spaces q
      have hlen'' := length_tail ws.text (skipss q)
      rw [← hws] at hlen''
      refine (afterValue_meets ha fun u hu => ih nd k (i + 1) comma u ?_).mono
        (fun r ls hr => ?_) (Bad.mono ?_)
      · rw [hu, List.length_cons] at hlen''
        omega
      · obtain ⟨ws, ⟨rfl, rfl⟩ | ⟨u, rfl, ms, rfl, rfl⟩⟩ := hr
        · refine ⟨.last h v ws, ?_, ?_⟩
          · simp only [Members.text, List.append_assoc]
          · rw [Members.visits, List.append_nil]
            rfl
        · refine ⟨.more h v ws ms, ?_, ?_⟩
          · simp only [Members.text, List.append_assoc, List.cons_append]
          · rw [Members.visits]
            rfl
      · rintro (hblank | ⟨ws, u, rfl, hu⟩)
        · exact .value h v ⟨q, hblank⟩
        · exact .more h v ws hu

theorem parse_meets (New : ν → Key → Ptr → Option ν) (ha : ∀ b ∈ after, b = 0) (nd : Option ν) (s : Ptr) :
    Meets (jsaxArray after (loop New after (s.length + 1)) nd s) (Contains New nd s)
      (Bad after (Cut s)) := by
  refine jsaxArray_meets ha fun nd k u hu => ?_
  obtain ⟨ws, hws⟩ := exists_spaces s
  have hlen := length_tail ws.text (skipss s)
  rw [← hws, hu, List.length_cons] at hlen
  exact loop_meets ha _ nd k 1 k.ty u (by omega)

/-! ## The main result -/

/-- What `jsax_parse` makes of the ways its run may end. -/
theorem jsaxParse_cases (New : ν → Key → Ptr → Option ν) (ha : ∀ b ∈ after, b = 0) (nd : Option ν) (s : Ptr) :
    (∃ p ks, jsaxParse New after nd s = (.ok (0, p), ks) ∧ Contains New nd s p ks) ∨
    (∃ p ks, jsaxParse New after nd s = (.ok (1, p), ks)) ∨
    (∃ ks, jsaxParse New after nd s = (.error .outside, ks) ∧ after = none ∧ Cut s) := by
  have hmeets := parse_meets New ha nd s
  unfold jsaxParse
  rcases hx : Action.exec (jsaxArray after (loop New after (s.length + 1)) nd s) [] with ⟨r, tr⟩
  cases r with
  | ok p =>
    obtain ⟨ks, rfl, hks⟩ := hmeets.ok hx
    exact .inl ⟨p, _, rfl, hks⟩
  | error e =>
    have hbad := hmeets.error hx
    cases e with
    | fail pos => exact .inr (.inl ⟨pos, tr, rfl⟩)
    | outside => exact .inr (.inr ⟨tr, rfl, hbad⟩)
    | fuel => exact hbad.elim

theorem jsaxParse_returns (ws : Spaces) (x : Container) {s : Ptr}
    (hs : s = ws.text ++ (x.text ++ p)) :
    jsaxParse New after nd s = (.ok (0, p), x.visits New nd p) := by
  have hlen := length_tail ws.text (x.text ++ p)
  rw [← hs] at hlen
  have hx : Returns (jsaxArray after (loop New after (s.length + 1)) nd s) p (x.visits New nd p) := by
    conv => arg 1; arg 4; rw [hs]
    exact Container.array_returns x (Nat.le_succ_of_le hlen)
  rw [jsaxParse, hx []]
  rfl

/-- With a NUL behind the range, the result is 0 and `*pos` is `p` if and only if a
container ends there, and then the callbacks are its traversal; in every other case
the parser returns something else. -/
theorem parse_exact (New : ν → Key → Ptr → Option ν) (nd : Option ν) (s : Ptr) :
    (∀ p, (jsaxParse New (some 0) nd s).1 = .ok (0, p) ↔
      ∃ (ws : Spaces) (x : Container), s = ws.text ++ (x.text ++ p)) ∧
    (∀ (ws : Spaces) (x : Container) (p : Ptr), s = ws.text ++ (x.text ++ p) →
      (jsaxParse New (some 0) nd s).2 = x.visits New nd p) ∧
    ((¬∃ (ws : Spaces) (x : Container) (p : Ptr), s = ws.text ++ (x.text ++ p)) →
      ∃ ec p, (jsaxParse New (some 0) nd s).1 = .ok (ec, p) ∧ ec ≠ 0) := by
  have hnul : ∀ b ∈ some (0 : Byte), b = 0 := fun b hb => (Option.mem_some.mp hb).symm
  have hcases := jsaxParse_cases New hnul nd s
  refine ⟨fun p => ⟨fun hp => ?_, ?_⟩, ?_, fun hnone => ?_⟩
  · obtain ⟨q, ks, hq, ws, x, hs, _⟩ | ⟨q, ks, hq⟩ | ⟨ks, _, hend, _⟩ := hcases
    · rw [hq] at hp
      cases hp
      exact ⟨ws, x, hs⟩
    · rw [hq] at hp
      cases hp
    · cases hend
  · rintro ⟨ws, x, hs⟩
    rw [jsaxParse_returns ws x hs]
  · intro ws x p hs
    rw [jsaxParse_returns ws x hs]
  · obtain ⟨q, ks, _, ws, x, hs, _⟩ | ⟨q, ks, hq⟩ | ⟨ks, _, hend, _⟩ := hcases
    · exact absurd ⟨ws, x, q, hs⟩ hnone
    · exact ⟨1, q, by rw [hq], Nat.one_ne_zero⟩
    · cases hend

end CppSnippets.Js
