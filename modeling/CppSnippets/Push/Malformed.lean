import CppSnippets.Push.Http

/-!
# What becomes of a malformed request

`make_error_code` answers with success for every parse error, so that no handler
sees one: a request line that does not match leaves the method and the path of the
request before, a header line that does not match is skipped, and the request is
handed to the message handler like any other.
-/
namespace CppSnippets.Push.Malformed

open CppSnippets.Lib
open CppSnippets.Wap (Bytes bytes)

variable {g : Grammar} {c d : Connection}

/-- The lines that the loop of `handle_headers` reads. -/
def headerLines : Nat → Bytes → List Bytes
  | 0, _ => []
  | n + 1, sb =>
      match getline sb with
      | none => []
      | some (line, rest) =>
        if line.isEmpty ∨ line.head? = some 13 then [] else line :: headerLines n rest

/-- The handler that is to run finds this error in its buffer. -/
def Detects (g : Grammar) (c : Connection) (err : HttpParseError) : Prop :=
  match c.phase with
  | .methodLine => (parseStatusLine g c.message c.rsbuf).1 = some err
  | .headers => err = .invalidHeaderLine ∧
      ∃ line ∈ headerLines (c.rsbuf.length + 1) c.rsbuf, g.headerLine line = none
  | _ => False

/-- The handler goes to `handle_error`, or reads on when there are only empty lines,
and the message handler is not called. -/
def Rejected (err : HttpParseError) (c d : Connection) : Prop :=
  d.given = c.given ∧
  match err with
  | .emptyLines => d.phase = .methodLine
  | _ => ∃ ec, d.phase = .failed ec

/-! ## The handlers -/

theorem codeOf_success (err : Option HttpParseError) : codeOf err = .success := by
  cases err <;> rfl

theorem handleMethodLine_phase (g : Grammar) (c : Connection) :
    (c.handleMethodLine g).phase = .headers := by
  unfold Connection.handleMethodLine
  simp only [codeOf_success, ne_eq, not_true_eq_false, if_false]

theorem headerLoop_ne_error (g : Grammar) (n : Nat) (m : Message) (sb : Bytes) (ec : ErrorCode)
    (m' : Message) (rest : Bytes) : headerLoop g n m sb ≠ .error ec m' rest := by
  induction n generalizing m sb with
  | zero =>
    intro h
    cases h
  | succ n ih =>
    rw [headerLoop]
    split
    · intro h
      cases h
    · split
      · intro h
        cases h
      · split
        · intro h
          cases h
        · rw [if_pos (codeOf_success _)]
          exact ih _ _

/-- `handle_headers` calls the message handler, waits for the content, or throws. -/
theorem handleHeaders_phase (g : Grammar) (c : Connection) :
    (c.handleHeaders g).phase = .threw ∨
    (c.handleHeaders g).phase = .content ∨
    (c.handleHeaders g).phase = .methodLine ∧ ∃ m, (c.handleHeaders g).given = c.given ++ [m] := by
  unfold Connection.handleHeaders
  split
  · exact .inl rfl
  · rename_i h
    exact absurd h (headerLoop_ne_error g _ _ _ _ _ _)
  · dsimp only
    split
    · exact .inr (.inr ⟨rfl, _, rfl⟩)
    · exact .inr (.inl rfl)

theorem handle_ne_failed (h : ∀ ec, c.phase ≠ .failed ec) (ec : ErrorCode) :
    (c.handle g).phase ≠ .failed ec := by
  unfold Connection.handle
  split
  · rw [handleMethodLine_phase]
    exact Phase.noConfusion
  · rcases handleHeaders_phase g c with h | h | ⟨h, _⟩ <;> rw [h] <;> exact Phase.noConfusion
  · exact Phase.noConfusion
  · exact h ec

/-- Only a read that fails leads to `handle_error`. -/
theorem step_ne_failed {ev : Event} (h : ∀ ec, c.phase ≠ .failed ec)
    (hs : Guarded (fun _ ev => ∀ value, ev ≠ .failed value) (Step g) c ev d) :
    ∀ ec, d.phase ≠ .failed ec := by
  obtain ⟨hev, hs⟩ := hs
  cases ev with
  | received b =>
    obtain ⟨_, _, _, rfl⟩ := hs
    exact h
  | failed value => exact absurd rfl (hev value)
  | handled =>
    obtain ⟨_, rfl⟩ := hs
    exact handle_ne_failed h

/-! ## The main result -/

/-- In no state of a connection is a malformed request rejected by the handler that
meets it, and `handle_error` is not reached later either, as long as no read
fails. -/
theorem never_rejected (g : Grammar) {c d : Connection} {err : HttpParseError}
    (hs : Step g c .handled d) (hd : Detects g c err) : ¬Rejected err c d ∧
    ∀ evs t, Run (Step g) d evs t → (∀ ev ∈ evs, ∀ value, ev ≠ .failed value) →
      ∀ ec, t.phase ≠ .failed ec := by
  obtain ⟨_, rfl⟩ := hs
  have hopen : ∀ ec, c.phase ≠ .failed ec := by
    intro ec hc
    unfold Detects at hd
    rw [hc] at hd
    exact hd
  refine ⟨?_, fun evs t hrun hev => ?_⟩
  · rintro ⟨hgiven, hphase⟩
    unfold Detects at hd
    unfold Connection.handle at hgiven hphase
    cases hc : c.phase with
    | methodLine =>
      rw [hc] at hphase
      dsimp only at hphase
      rw [handleMethodLine_phase] at hphase
      cases err with
      | emptyLines => cases hphase
      | _ =>
        obtain ⟨ec, h⟩ := hphase
        cases h
    | headers =>
      rw [hc] at hd hphase
      obtain ⟨rfl, _⟩ := hd
      obtain ⟨ec, h⟩ := hphase
      dsimp only at h
      rcases handleHeaders_phase g c with h' | h' | ⟨h', _⟩ <;> rw [h'] at h <;> cases h
    | _ =>
      rw [hc] at hd
      exact hd
  · exact (hrun.guarded_of_labels hev).invariant (P := fun t => ∀ ec, t.phase ≠ .failed ec)
      (fun _ _ _ hp hs => step_ne_failed hp hs) (handle_ne_failed hopen)

/-- On these texts the grammar is that of the proxy. -/
def sample : Grammar :=
  ⟨fun l => if l = bytes "GET /a HTTP/1.1\r" then some (bytes "GET", bytes "/a") else none,
   fun _ => none, id⟩

/-- A connection that has received this. -/
def arrived (s : Bytes) : Connection := { Connection.fresh with rsbuf := s }

theorem detects_foo (s : Bytes)
    (h : (parseStatusLine sample .empty s).1 = some .invalidStatusLine) :
    Detects sample (arrived s) .invalidStatusLine := h

theorem never_rejected_line : ¬Rejected .invalidStatusLine (arrived (bytes "FOO\r\n"))
    ((arrived (bytes "FOO\r\n")).handle sample) :=
  (never_rejected sample ⟨by decide, rfl⟩ (detects_foo _ (by decide))).1

/-- The message handler is called with a request whose only line is `FOO`, and with
one whose only header line is `foo`. -/
theorem malformed_given :
    (∃ c t, Run (Step sample) .fresh [.received (bytes "FOO\r\n\r\n\r\n")] c ∧
      Detects sample c .invalidStatusLine ∧ Run (Step sample) c ([.handled] ++ [.handled]) t ∧
      t.given = [.empty]) ∧
    ∃ c t, Run (Step sample) .fresh
        ([.received (bytes "GET /a HTTP/1.1\r\nfoo\r\n\r\n")] ++ [.handled]) c ∧
      Detects sample c .invalidHeaderLine ∧ Run (Step sample) c [.handled] t ∧
      t.given = [⟨bytes "GET", bytes "a", [], [], []⟩] := by
  have hrecv : ∀ s : Bytes, s ≠ [] → Run (Step sample) .fresh [.received s] (arrived s) :=
    fun s hs => Run.single ⟨rfl, rfl, hs, rfl⟩
  have hhandle : ∀ c : Connection, c.ready = true →
      Run (Step sample) c [.handled] (c.handle sample) :=
    fun c hc => Run.single ⟨hc, rfl⟩
  constructor
  · exact ⟨arrived (bytes "FOO\r\n\r\n\r\n"), _, hrecv _ (by decide), detects_foo _ (by decide),
      (hhandle _ (by decide)).append (hhandle _ (by decide)), by decide⟩
  · refine ⟨(arrived (bytes "GET /a HTTP/1.1\r\nfoo\r\n\r\n")).handle sample, _,
      (hrecv _ (by decide)).append (hhandle _ (by decide)), ⟨rfl, ?_⟩, hhandle _ (by decide), ?_⟩
    · exact ⟨bytes "foo\r", by decide, rfl⟩
    · decide

end CppSnippets.Push.Malformed
