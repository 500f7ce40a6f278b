import CppSnippets.Wap.Init

/-!
# On words of 32 bits everything returns

The loops of `subst` and `unescape` are the only ones that need not end. Each turn of
`subst` shortens what is left of the text; so does one of `unescape` where a `size_t` has
32 bits, however long the text is. So `wapinit` and `wapnext` do not hang there.
-/
namespace CppSnippets.Wap

open CppSnippets.Lib Action

/-! ## The two loops -/

theorem substFrom_halts (vars : StrMap) {turns : Nat} {rest ret : Bytes}
    (h : rest.length < turns) : substFrom vars turns rest ret ≠ .error .diverges := by
  induction turns generalizing rest ret with
  | zero => exact absurd h (Nat.not_lt_zero _)
  | succ turns ih =>
    simp only [substFrom]
    split
    · split
      · exact nofun
      · split
        · exact nofun
        · split
          · exact nofun
          · apply ih
            rw [List.length_drop, List.length_drop]
            omega
    · exact nofun

theorem subst_halts (cont : Bytes) (vars : StrMap) : subst cont vars ≠ .error .diverges :=
  substFrom_halts vars (Nat.lt_succ_self _)

variable {env : Env}

/-- What is found is erased, also where the position is cut to 32 bits. -/
theorem unescapeFrom_halts (hbits : env.wordBits = 32) {turns pos : Nat} {esc : Bytes}
    (h : esc.length < turns) : unescapeFrom env turns pos esc ≠ .error .diverges := by
  induction turns generalizing pos esc with
  | zero => exact absurd h (Nat.not_lt_zero _)
  | succ turns ih =>
    simp only [unescapeFrom, findAmp, hbits]
    by_cases hs : pos + search (bytes "&amp;") (esc.drop pos) < esc.length
    · have hend : pos + search (bytes "&amp;") (esc.drop pos) + 5 ≤ esc.length := by
        have hlen : (esc.drop pos).length = esc.length - pos := List.length_drop
        have hin := search_add_le (k := bytes "&amp;") (s := esc.drop pos) (by omega)
        rw [show (bytes "&amp;").length = 5 from rfl] at hin
        omega
      rw [if_pos hs]
      generalize pos + search (bytes "&amp;") (esc.drop pos) = i at hend ⊢
      split
      · exact nofun
      · split
        · exact nofun
        · apply ih
          rw [List.length_append, List.length_take, List.length_drop]
          omega
    · rw [if_neg hs]
      exact nofun

theorem unescape_halts (hbits : env.wordBits = 32) (url : Bytes) :
    unescape env url ≠ .error .diverges := unescapeFrom_halts hbits (Nat.lt_succ_self _)

/-! ## Patterns and responses -/

theorem glex_halts (ex cont : Bytes) : glex ex cont ≠ .error .diverges := by
  refine except_bind_ne ?_ fun s => ?_
  · unfold globex
    dsimp only
    split
    · exact nofun
    · split
      · exact nofun
      · split
        · exact nofun
        · split
          · exact nofun
          · split
            · exact fun h => nomatch Except.error.inj h
            · exact nofun
  · cases s with
    | none => exact fun h => nomatch Except.error.inj h
    | some s => exact nofun

theorem split1_halts (s any : Bytes) : split1 s any ≠ .error .diverges := by
  simp only [split1]
  split
  · exact nofun
  · split
    · exact nofun
    · exact nofun

theorem lexicalUnsigned_halts (s : Bytes) : lexicalUnsigned s ≠ .error .diverges := by
  unfold lexicalUnsigned
  dsimp only
  split
  · split <;> exact fun h => by cases h
  · split <;> exact fun h => by cases h
  · split <;> exact fun h => by cases h

theorem makersp_halts (text : Bytes) : makersp env text ≠ .error .diverges := by
  unfold makersp
  dsimp only
  split
  · exact nofun
  split
  · exact nofun
  split
  · exact nofun
  -- the content type, if there is one, and the length, if there is one
  split
  · refine except_bind_ne (split1_halts _ _) fun kv => ?_
    split
    · refine except_bind_ne (split1_halts _ _) fun _ => ?_
      split
      · exact except_bind_ne (lexicalUnsigned_halts _) fun _ => nofun
      · exact nofun
    · split
      · exact except_bind_ne (lexicalUnsigned_halts _) fun _ => nofun
      · exact nofun
  · split
    · exact except_bind_ne (lexicalUnsigned_halts _) fun _ => nofun
    · exact nofun

theorem setCookies_halts (jar : StrMap) (head : Head) : setCookies jar head ≠ .error .diverges := by
  induction head generalizing jar with
  | nil => exact nofun
  | cons e head ih =>
    rw [setCookies]
    split
    · refine except_bind_ne (split1_halts _ _) fun tv => ?_
      refine except_bind_ne (split1_halts _ _) fun kv => ?_
      exact ih _
    · exact ih jar

/-! ## Readers -/

/-- A reader does not hang. -/
def Pop.Halts {α : Type} (p : Pop α) : Prop := ∀ rest, p.run rest ≠ .error .diverges

namespace Pop

variable {α β : Type}

theorem Halts.pure (a : α) : Halts (pure a : Pop α) := fun _ => nofun

theorem Halts.bind {p : Pop α} {f : α → Pop β} (hp : p.Halts) (hf : ∀ a, (f a).Halts) :
    Halts (p >>= f) := by
  intro rest
  rw [StateT.run_bind]
  exact except_bind_ne (hp rest) fun a => hf a.1 a.2

theorem halts_raw (len : Nat) : (popRaw len).Halts := by
  intro rest
  rw [popRaw_run]
  split <;> exact fun h => by cases h

theorem halts_uint (size : Nat) : (popUInt size).Halts := (halts_raw size).bind fun _ => .pure _

theorem halts_int16 : popInt16.Halts := (halts_uint 2).bind fun _ => .pure _

theorem halts_chars (wide : Bool) (len : Int) : (popChars env wide len).Halts := by
  refine Halts.bind (fun _ => nofun) fun rest => ?_
  split
  · split
    · have hread : Halts (do return (env.iconv (← popRaw len.toNat)).getD []) :=
        (halts_raw _).bind fun _ => .pure _
      dsimp only
      split
      · exact Halts.bind (fun _ => fun h => by cases h) fun _ => hread
      · exact hread
    · exact halts_raw _
  · exact .pure _

theorem halts_many {p : Pop α} (hp : p.Halts) (n : Nat) : (popMany p n).Halts := by
  induction n with
  | zero => exact .pure _
  | succ n ih => exact hp.bind fun _ => ih.bind fun _ => .pure _

theorem halts_step : (popStep env).Halts := by
  have h16 : (popString16 env).Halts := halts_int16.bind fun _ => halts_chars true _
  have h8 : (popString8 env).Halts := (halts_uint 1).bind fun _ => halts_chars true _
  have hglex : (popGlex env).Halts := h8.bind fun _ => h8.bind fun _ => .pure _
  refine halts_int16.bind fun _ => h16.bind fun _ => h16.bind fun _ => h16.bind fun _ => ?_
  refine h8.bind fun _ => (halts_uint 1).bind fun n => (halts_many hglex n).bind fun _ => ?_
  exact halts_int16.bind fun _ => .pure _

theorem halts_filter : (popFilter env).Halts := by
  have hnarrow : (popNarrow8 env).Halts := (halts_uint 1).bind fun _ => halts_chars false _
  have h8 : (popString8 env).Halts := (halts_uint 1).bind fun _ => halts_chars true _
  exact hnarrow.bind fun _ => h8.bind fun _ => halts_int16.bind fun _ => .pure _

end Pop

/-! ## Actions -/

theorem stepHeads_halts (path : Bytes) (head : Head) (part : Bytes) :
    Avoids .diverges (stepHeads env path head part) := by
  induction head generalizing part with
  | nil => exact avoids_pure _
  | cons e head ih =>
    rw [stepHeads]
    split
    · exact ih _
    · split
      · exact avoids_bind (avoids_modify _) fun _ => ih _
      · exact avoids_bind avoids_get fun _ => avoids_bind (avoids_lift (subst_halts _ _)) fun _ => ih _

section

variable (hbits : env.wordBits = 32)

include hbits

theorem stepGo_halts (req : StepReq) (incBody : Bool) (trac : Nat) :
    Avoids .diverges (stepGo env req incBody trac) := by
  rw [stepGo]
  apply avoids_bind avoids_get
  intro wc
  apply avoids_bind (avoids_lift (subst_halts _ _))
  intro path
  apply avoids_bind (avoids_lift (unescape_halts hbits _))
  intro path'
  apply avoids_bind (stepHeads_halts path' req.head _)
  intro part
  apply avoids_bind (avoids_lift (subst_halts _ _))
  intro tmp
  exact avoids_bind avoids_get fun _ => avoids_pure _

theorem stepAt_halts (stepidx : Nat) : Avoids .diverges (stepAt env stepidx) := by
  rw [stepAt]
  apply avoids_bind avoids_get
  intro wc
  split
  · exact avoids_throw nofun
  · exact avoids_bind (avoids_modify _) fun _ => stepGo_halts hbits _ _ _

theorem stepFwd_halts (stepidx : Nat) : Avoids .diverges (stepFwd env stepidx) := by
  rw [stepFwd]
  apply avoids_bind avoids_get
  intro wc
  split
  · apply avoids_bind (avoids_modify _)
    intro _
    split
    · exact avoids_pure _
    · exact stepAt_halts hbits 0
  · exact stepAt_halts hbits stepidx

theorem fwd3xx_halts (rsp : Response) (step : WcStep) (trac : Nat) :
    Avoids .diverges (fwd3xx env rsp step trac) := by
  rw [fwd3xx]
  split
  · exact avoids_pure _
  · split
    · exact avoids_pure _
    · apply avoids_bind (avoids_lift (unescape_halts hbits _))
      intro path
      exact avoids_bind (stepGo_halts hbits _ _ _) fun _ => avoids_pure _

theorem autoTurn_halts (rsp : Response) (step : WcStep) (trac : Nat) (v : Bytes) :
    Avoids .diverges (autoTurn env rsp step trac v) := by
  apply avoids_tryCatch
  · apply avoids_bind (avoids_lift (glex_halts _ _))
    intro url
    split
    · exact avoids_pure _
    · apply avoids_bind (avoids_lift (unescape_halts hbits _))
      intro path
      exact avoids_bind (stepGo_halts hbits _ _ _) fun _ => avoids_pure _
  · intro t ht
    cases t with
    | thrown what => exact avoids_pure _
    | _ => exact avoids_throw ht

theorem autoFwd_halts (rsp : Response) (step : WcStep) (trac : Nat) (vs : List Bytes) :
    Avoids .diverges (autoFwd env rsp step trac vs) := by
  induction vs with
  | nil => exact avoids_pure _
  | cons v vs ih =>
    apply avoids_bind (autoTurn_halts hbits rsp step trac v)
    intro out
    cases out with
    | none => exact ih
    | some out => exact avoids_pure _

omit hbits in
theorem extractVars_halts (body : Bytes) (glexes : List (Bytes × Bytes)) :
    Avoids .diverges (extractVars body glexes) := by
  induction glexes with
  | nil => exact avoids_pure _
  | cons e glexes ih =>
    apply avoids_bind (avoids_modify _)
    intro _
    apply avoids_bind (avoids_lift (glex_halts _ _))
    intro val
    exact avoids_bind (avoids_modify _) fun _ => ih

omit hbits in
theorem pushSteps_halts (n : Nat) (rest : Bytes) : Avoids .diverges (pushSteps env n rest) := by
  induction n generalizing rest with
  | zero => exact avoids_pure _
  | succ n ih =>
    apply avoids_bind (avoids_lift (Pop.halts_step rest))
    intro a
    exact avoids_bind (avoids_modify _) fun _ => ih _

omit hbits in
theorem pushFilter_halts (idcode rest : Bytes) : Avoids .diverges (pushFilter env idcode rest) := by
  rw [pushFilter]
  split
  · have hentries : Pop.Halts (do popMany (popFilter env) (← popUInt 1)) :=
      (Pop.halts_uint 1).bind fun n => Pop.halts_many Pop.halts_filter n
    exact avoids_bind (avoids_lift (hentries rest)) fun _ => avoids_modify _
  · exact avoids_pure _

theorem wapinit_halts (content : Bytes) : Avoids .diverges (wapinit env content) := by
  rw [wapinit]
  apply avoids_bind (avoids_lift (Pop.halts_raw 4 content))
  intro idcode
  apply avoids_bind (avoids_lift (Pop.halts_uint 1 _))
  intro nstep
  dsimp only
  split
  · exact avoids_pure _
  apply avoids_bind (pushSteps_halts _ _)
  intro rest
  apply avoids_bind (avoids_lift (Pop.halts_uint 1 _))
  intro nRepeat
  apply avoids_bind (avoids_modify _)
  intro _
  apply avoids_bind (avoids_lift (Pop.halts_uint 2 _))
  intro a
  split
  · exact avoids_pure _
  · apply avoids_bind (pushFilter_halts _ _)
    intro _
    exact avoids_bind (stepFwd_halts hbits 0) fun _ => avoids_pure _

theorem wapnext_halts (content : Bytes) (stepidx : Nat) :
    Avoids .diverges (wapnext env content stepidx) := by
  have hforward : Avoids .diverges (do return .ok (← stepFwd env stepidx) : Act (Except String Bytes)) :=
    avoids_bind (stepFwd_halts hbits stepidx) fun _ => avoids_pure _
  rw [wapnext]
  dsimp only
  split
  · exact avoids_pure _
  apply avoids_bind (avoids_lift (makersp_halts _))
  intro r
  split
  · exact avoids_pure _
  apply avoids_bind avoids_get
  intro wc
  apply avoids_bind (avoids_lift (setCookies_halts _ _))
  intro jar
  apply avoids_bind (avoids_modify _)
  intro _
  apply avoids_bind avoids_get
  intro wc'
  split
  · exact avoids_throw nofun
  split
  · apply avoids_bind (fwd3xx_halts hbits _ _ _)
    intro out
    split
    · exact avoids_pure _
    · exact avoids_pure _
  split
  · apply avoids_bind (autoFwd_halts hbits _ _ _ _)
    intro out
    split
    · exact avoids_pure _
    apply avoids_bind avoids_get
    intro wc''
    split
    · exact avoids_bind (extractVars_halts _ _) fun _ => hforward
    · exact hforward
  · exact hforward

end

end CppSnippets.Wap
