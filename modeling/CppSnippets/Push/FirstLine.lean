import CppSnippets.Push.KeepAlive
import CppSnippets.Push.Malformed

/-!
# The first line of a connection

What a handler does to the request object, for any bytes: parameters come behind those
of the requests before, and only a request line has any. The first request that is handed
on has the parameters of the first line, and all later ones begin with them.
-/
namespace CppSnippets.Push.FirstLine

open CppSnippets.Lib
open CppSnippets.Wap (Bytes isspace)

variable {g : Grammar} {line : Bytes} {params : KeyValues}

/-! ## The request object -/

theorem parseStatusLine_params (g : Grammar) (m : Message) (sb : Bytes) :
    m.params <+: (parseStatusLine g m sb).2.1.params := by
  rw [parseStatusLine]
  split
  · exact List.prefix_rfl
  · split
    · exact List.prefix_rfl
    · split
      · exact List.prefix_rfl
      · exact List.prefix_append _ _

theorem parseHeaderLine_params {g : Grammar} {m m' : Message} {line : Bytes}
    {err : Option HttpParseError} (h : parseHeaderLine g m line = some (err, m')) :
    m'.params = m.params := by
  rw [parseHeaderLine] at h
  split at h
  · cases h
    rfl
  · split at h
    · split at h
      · cases h
      · split at h
        · cases h
        · cases h
          rfl
    · cases h
      rfl

theorem headerLoop_params {g : Grammar} {n : Nat} {m m' : Message} {sb rest : Bytes}
    (h : headerLoop g n m sb = .done m' rest) : m'.params = m.params := by
  induction n generalizing m sb with
  | zero =>
    cases h
    rfl
  | succ n ih =>
    rw [headerLoop] at h
    split at h
    · cases h
      rfl
    · split at h
      · cases h
        rfl
      · split at h
        · cases h
        · rename_i hline
          split at h
          · exact (ih h).trans (parseHeaderLine_params hline)
          · cases h

/-- What a handler leaves: an exception, the next operation, or a request handed on. The
parameters stay, and more may come behind them. -/
def Leaves (d d' : Connection) : Prop :=
  d.message.params <+: d'.message.params ∧
  (d'.phase = .threw ∧ d'.given = d.given ∨
    (d'.phase = .headers ∨ d'.phase = .content) ∧ d'.given = d.given ∨
    d'.phase = .methodLine ∧ d'.given = d.given ++ [d'.message])

theorem handleMethodLine_eq (g : Grammar) (d : Connection) : d.handleMethodLine g =
    ⟨.headers, (parseStatusLine g d.message d.rsbuf).2.2, (parseStatusLine g d.message d.rsbuf).2.1,
      d.given⟩ := by
  rw [Connection.handleMethodLine]
  simp only [Malformed.codeOf_success, ne_eq, not_true_eq_false, if_false]

theorem leaves_methodLine (g : Grammar) (d : Connection) : Leaves d (d.handleMethodLine g) := by
  rw [handleMethodLine_eq]
  exact ⟨parseStatusLine_params g d.message d.rsbuf, .inr (.inl ⟨.inl rfl, rfl⟩)⟩

theorem handleHeaders_params (g : Grammar) (d : Connection) :
    (d.handleHeaders g).message.params = d.message.params := by
  rw [Connection.handleHeaders]
  cases hloop : headerLoop g (d.rsbuf.length + 1) d.message d.rsbuf with
  | threw => rfl
  | error ec m rest => exact absurd hloop (Malformed.headerLoop_ne_error g _ _ _ _ _ _)
  | done m rest =>
    have hparams := headerLoop_params hloop
    dsimp only
    split
    · exact hparams
    · exact hparams

theorem leaves_headers (g : Grammar) (d : Connection) : Leaves d (d.handleHeaders g) := by
  rw [Connection.handleHeaders]
  cases hloop : headerLoop g (d.rsbuf.length + 1) d.message d.rsbuf with
  | threw => exact ⟨List.prefix_rfl, .inl ⟨rfl, rfl⟩⟩
  | error ec m rest => exact absurd hloop (Malformed.headerLoop_ne_error g _ _ _ _ _ _)
  | done m rest =>
    have hparams : d.message.params <+: m.params := (headerLoop_params hloop).symm ▸ List.prefix_rfl
    dsimp only
    split
    · exact ⟨hparams, .inr (.inr ⟨rfl, rfl⟩)⟩
    · exact ⟨hparams, .inr (.inl ⟨.inr rfl, rfl⟩)⟩

theorem leaves_handle (g : Grammar) {d : Connection} (hready : d.ready = true) :
    Leaves d (d.handle g) := by
  obtain ⟨phase, buf, m, given⟩ := d
  cases phase with
  | methodLine => exact leaves_methodLine g _
  | headers => exact leaves_headers g _
  | content => exact ⟨List.prefix_rfl, .inr (.inr ⟨rfl, rfl⟩)⟩
  | failed ec => cases hready
  | threw => cases hready

/-- Only a request line has parameters. -/
theorem handle_params (g : Grammar) {d : Connection} (hphase : d.phase ≠ .methodLine) :
    (d.handle g).message.params = d.message.params := by
  obtain ⟨phase, buf, m, given⟩ := d
  cases phase with
  | methodLine => exact absurd rfl hphase
  | headers => exact handleHeaders_params g _
  | content => rfl
  | failed ec => rfl
  | threw => rfl

/-- The parameters of the requests of a connection grow. -/
structure Grows (d : Connection) : Prop where
  given : ∀ m ∈ d.given, m.params <+: d.message.params
  chain : d.given.Pairwise fun m m' => m.params <+: m'.params

theorem Leaves.given {d d' : Connection} (h : Leaves d d') :
    d'.given = d.given ∨ d'.given = d.given ++ [d'.message] := by
  rcases h.2 with ⟨_, hsame⟩ | ⟨_, hsame⟩ | ⟨_, hmore⟩
  · exact .inl hsame
  · exact .inl hsame
  · exact .inr hmore

theorem Grows.leaves {d d' : Connection} (h : Grows d) (hleaves : Leaves d d') : Grows d' := by
  have hgiven : ∀ m ∈ d.given, m.params <+: d'.message.params :=
    fun m hm => (h.given m hm).trans hleaves.1
  rcases hleaves.given with hsame | hmore
  · rw [← hsame] at hgiven
    exact ⟨hgiven, hsame ▸ h.chain⟩
  · constructor
    · intro m hm
      rw [hmore] at hm
      rcases List.mem_append.mp hm with hm | hm
      · exact hgiven m hm
      · obtain rfl := List.mem_singleton.mp hm
        exact List.prefix_rfl
    · rw [hmore]
      refine List.pairwise_append.mpr ⟨h.chain, List.pairwise_singleton _ _, fun m hm m' hm' => ?_⟩
      rw [List.mem_singleton.mp hm']
      exact hgiven m hm

theorem not_failed_of_ready {d : Connection} (h : d.ready = true) (ec : ErrorCode) :
    d.phase ≠ .failed ec := by
  intro hphase
  rw [Connection.ready, hphase] at h
  cases h

theorem not_failed_of_reading {d : Connection} (h : d.reading = true) (ec : ErrorCode) :
    d.phase ≠ .failed ec := by
  intro hphase
  rw [Connection.reading, hphase] at h
  cases h

/-! ## The first line of a connection -/

/-- A request line that the grammar takes, with these parameters. -/
structure RequestLine (g : Grammar) (line : Bytes) (params : KeyValues) : Prop where
  oneLine : 10 ∉ line
  notBlank : (line ++ [13]).all isspace = false
  parsed : ∃ method target path, g.statusLine (line ++ [13]) = some (method, target) ∧
    pathParams g target = some (path, params)

theorem parse_first (h : RequestLine g line params) (rest : Bytes) :
    (parseStatusLine g .empty (line ++ crlf ++ rest)).2.1.params = params := by
  obtain ⟨method, target, path, hstatus, htarget⟩ := h.parsed
  have hfirst : firstLine ((line ++ crlf ++ rest).length + 1) (line ++ crlf ++ rest) =
      some (line ++ [13], rest) := by
    rw [firstLine, getline_line h.oneLine]
    dsimp only
    rw [h.notBlank]
    rfl
  rw [parseStatusLine, hfirst]
  dsimp only
  rw [hstatus]
  dsimp only
  rw [htarget]
  rfl

/-- Before the first line is there; behind it; and with the first request handed on. -/
def Opening (params : KeyValues) (evs : List Event) (d : Connection) : Prop :=
  d.phase = .methodLine ∧ d.given = [] ∧ d.message = .empty ∧ d.rsbuf = KeepAlive.received evs ∨
  d.phase ≠ .methodLine ∧ d.given = [] ∧ (d.message.params = params ∨ ∃ ec, d.phase = .failed ec) ∨
  ∃ first, d.given.head? = some first ∧ first.params = params

theorem opening_handled {evs : List Event} {d : Connection} {rest : Bytes}
    (hline : RequestLine g line params) (hready : d.ready = true)
    (hpre : KeepAlive.received evs <+: line ++ crlf ++ rest) (h : Opening params evs d) :
    Opening params (evs ++ [.handled]) (d.handle g) := by
  rcases h with ⟨hphase, hgiven, hmessage, hbuf⟩ | ⟨hphase, hgiven, hparams⟩ | ⟨first, hfirst, hparams⟩
  · obtain ⟨_, buf, _, _⟩ := d
    dsimp only at hphase hgiven hmessage hbuf
    subst hphase hgiven hmessage
    rw [← hbuf] at hpre
    obtain ⟨rest', rfl, _⟩ := line_complete hline.oneLine hpre
      ((KeepAlive.ready_methodLine _ _ _).mp hready)
    have hhandle : Connection.handle g ⟨.methodLine, line ++ crlf ++ rest', .empty, []⟩ = _ :=
      handleMethodLine_eq g _
    rw [hhandle]
    exact .inr (.inl ⟨Phase.noConfusion, rfl, .inl (parse_first hline rest')⟩)
  · have hsame := hparams.resolve_right fun ⟨ec, hec⟩ => not_failed_of_ready hready ec hec
    have hkept := (handle_params g hphase).trans hsame
    rcases (leaves_handle g hready).2 with ⟨hthrew, hnone⟩ | ⟨hnext, hnone⟩ | ⟨_, hmore⟩
    · refine .inr (.inl ⟨?_, hnone.trans hgiven, .inl hkept⟩)
      rw [hthrew]
      exact Phase.noConfusion
    · refine .inr (.inl ⟨?_, hnone.trans hgiven, .inl hkept⟩)
      rcases hnext with hnext | hnext
      · rw [hnext]
        exact Phase.noConfusion
      · rw [hnext]
        exact Phase.noConfusion
    · rw [hgiven] at hmore
      exact .inr (.inr ⟨_, by rw [hmore]; rfl, hkept⟩)
  · refine .inr (.inr ⟨first, ?_, hparams⟩)
    rcases (leaves_handle g hready).given with hsame | hmore
    · rw [hsame]
      exact hfirst
    · rw [hmore, List.head?_append, hfirst]
      rfl

theorem opening_step {evs : List Event} {ev : Event} {d d' : Connection} {rest : Bytes}
    (hline : RequestLine g line params) (hstep : Step g d ev d')
    (hpre : KeepAlive.received evs <+: line ++ crlf ++ rest) (h : Opening params evs d) :
    Opening params (evs ++ [ev]) d' := by
  cases ev with
  | received b =>
    obtain ⟨_, _, _, rfl⟩ := hstep
    rcases h with ⟨hphase, hgiven, hmessage, hbuf⟩ | hbehind | hafter
    · refine .inl ⟨hphase, hgiven, hmessage, ?_⟩
      rw [KeepAlive.received_snoc, ← hbuf]
      exact congrArg (d.rsbuf ++ ·) (List.append_nil b).symm
    · exact .inr (.inl hbehind)
    · exact .inr (.inr hafter)
  | failed value =>
    obtain ⟨_, _, rfl⟩ := hstep
    rcases h with ⟨_, hgiven, _⟩ | ⟨_, hgiven, _⟩ | hafter
    · exact .inr (.inl ⟨Phase.noConfusion, hgiven, .inr ⟨_, rfl⟩⟩)
    · exact .inr (.inl ⟨Phase.noConfusion, hgiven, .inr ⟨_, rfl⟩⟩)
    · exact .inr (.inr hafter)
  | handled =>
    obtain ⟨hready, rfl⟩ := hstep
    exact opening_handled hline hready hpre h

/-- The first request of a connection has the parameters of its first line. -/
theorem first_line {evs : List Event} {d : Connection} {rest : Bytes}
    (hline : RequestLine g line params) (h : Run (Step g) .fresh evs d)
    (hevs : KeepAlive.received evs = line ++ crlf ++ rest) {first : Message}
    (hfirst : d.given.head? = some first) : first.params = params := by
  have hopening : KeepAlive.received evs <+: line ++ crlf ++ rest → Opening params evs d := by
    refine h.history (P := fun evs d => KeepAlive.received evs <+: line ++ crlf ++ rest →
      Opening params evs d) (fun _ => .inl ⟨rfl, rfl, rfl, rfl⟩) ?_
    intro evs d ev d' ih hstep hpre
    rw [KeepAlive.received_snoc] at hpre
    have hbefore := (List.prefix_append _ _).trans hpre
    exact opening_step hline hstep hbefore (ih hbefore)
  rcases hopening (hevs ▸ List.prefix_rfl) with ⟨_, hgiven, _⟩ | ⟨_, hgiven, _⟩ | ⟨m, hm, hparams⟩
  · rw [hgiven] at hfirst
    cases hfirst
  · rw [hgiven] at hfirst
    cases hfirst
  · rw [Option.some.inj (hfirst.symm.trans hm)]
    exact hparams

end CppSnippets.Push.FirstLine
