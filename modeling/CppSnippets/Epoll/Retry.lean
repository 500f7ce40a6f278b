import CppSnippets.Epoll.VideoPath

/-!
# A send that would block

`send_ret_` turns `EAGAIN` into a result of zero bytes, and `l2send` takes any result
shorter than the datagram for a failure: the socket is closed, and the fragment
counter has advanced before. Every call of `l2send` from `prewait` gets one answer of
the system call here.
-/
namespace CppSnippets.Epoll.Retry

open CppSnippets.Lib IoBasic

/-- What the system call does with a datagram. -/
inductive Answer where
  | again
  | whole
  deriving DecidableEq

/-- `send_ret_`, for a datagram of `len` bytes. -/
def sendRet (len : Nat) : Answer → Int
  | .again => 0
  | .whole => len

/-- The calls of `l2send` over one buffer, one for each answer, and the datagrams that
were taken, each with the fragment counter it was sent under. -/
def sendAnswers (echo : Nat → UInt16) : List Answer → IoBasic →
    Except Exit (IoBasic × List (UInt16 × List Byte))
  | [], io => .ok (io, [])
  | a :: answers, io =>
      match io.txbuf with
      | none => .ok (io, [])
      | some data => do
          let (io', wire) ← { io with xh1 := echo io.xh0.toNat }.l2send
            (sendRet (4 + min fragSize (data.length - io.txpos)) a)
          let (io'', sends) ← sendAnswers echo answers io'
          return (io'', if a = .whole then (io.xh0, wire) :: sends else sends)

/-- What is being sent is sent on an open socket, from a position in the buffer. -/
def Ready (io : IoBasic) : Prop := ∀ data, io.txbuf = some data → io.isOpen = true ∧ io.txpos < data.length

/-- The fragments that are left of the buffer. -/
def left (io : IoBasic) : Nat :=
  match io.txbuf with
  | none => 0
  | some data => (data.length - io.txpos + (fragSize - 1)) / fragSize

/-- A call that leaves the position, the counter, the queue buffer and the socket. -/
def Keeps (io : IoBasic) (r : Except Exit (IoBasic × List (UInt16 × List Byte))) : Prop :=
  ∃ io' sends, r = .ok (io', sends) ∧ io'.txpos = io.txpos ∧ io'.xh0 = io.xh0 ∧ io'.txbuf = io.txbuf ∧
    io'.isOpen = io.isOpen

/-- Wherever a send would block nothing changes, and the wire carries what it carries
without those sends. -/
def Retries (echo : Nat → UInt16) (io : IoBasic) (answers : List Answer) : Prop :=
  (∀ before after io' sends, answers = before ++ .again :: after →
    sendAnswers echo before io = .ok (io', sends) → io'.txbuf ≠ none →
    Keeps io' (sendAnswers echo [.again] io')) ∧
  (sendAnswers echo answers io).map Prod.snd =
    (sendAnswers echo (answers.filter (· = .whole)) io).map Prod.snd

variable {echo : Nat → UInt16} {io : IoBasic} {answers : List Answer}

/-- Without a send that would block these are the sends of `sendLoop`. -/
theorem sendAnswers_whole (echo : Nat → UInt16) (turns : Nat) (io : IoBasic) :
    sendAnswers echo (List.replicate turns .whole) io = sendLoop echo turns io := by
  induction turns generalizing io with
  | zero => rfl
  | succ turns ih =>
    rw [List.replicate_succ, sendAnswers, sendLoop]
    cases io.txbuf with
    | none => rfl
    | some data =>
      dsimp only
      simp only [ih, if_true]
      rfl

/-! ## One call -/

theorem left_pos {data : List Byte} (hdata : io.txbuf = some data) (hlt : io.txpos < data.length) :
    0 < left io := by
  rw [left, hdata]
  show 0 < (data.length - io.txpos + (fragSize - 1)) / fragSize
  rw [fragSize, Nat.div_pos_iff]
  omega

theorem sending_pos {data : List Byte} (hlt : io.txpos < data.length) :
    ¬(data.isEmpty = true ∨ data.length ≤ io.txpos) := by
  intro h
  cases h with
  | inl hempty =>
    rw [List.isEmpty_iff.mp hempty] at hlt
    exact absurd hlt (Nat.not_lt_zero _)
  | inr hend => omega

/-- A send that would block closes the socket. -/
theorem l2send_again {data : List Byte} (hdata : io.txbuf = some data) (hopen : io.isOpen = true)
    (hlt : io.txpos < data.length) (len : Nat) :
    ∃ io' wire, io.l2send (sendRet len .again) = .ok (io', wire) ∧ io'.isOpen = false := by
  have hshort : sendRet len .again < 4 + ((min fragSize (data.length - io.txpos) : Nat) : Int) := by
    rw [sendRet]
    omega
  rw [l2send, hdata]
  dsimp only
  rw [if_neg (sending_pos hlt), if_pos hshort, l2close, if_pos hopen]
  exact ⟨_, _, rfl, rfl⟩

/-- A datagram that is taken leaves one fragment less. -/
theorem l2send_whole {data : List Byte} (hdata : io.txbuf = some data) (hopen : io.isOpen = true)
    (hlt : io.txpos < data.length) :
    ∃ io' wire, io.l2send (sendRet (4 + min fragSize (data.length - io.txpos)) .whole) = .ok (io', wire) ∧
      Ready io' ∧ left io' + 1 = left io := by
  have hfit : ¬sendRet (4 + min fragSize (data.length - io.txpos)) .whole <
      4 + ((min fragSize (data.length - io.txpos) : Nat) : Int) := by
    rw [sendRet]
    omega
  have hleft : left io = (data.length - io.txpos + (fragSize - 1)) / fragSize := by rw [left, hdata]
  rw [l2send, hdata]
  dsimp only
  rw [if_neg (sending_pos hlt), if_neg hfit, hleft]
  split
  · rename_i hend
    refine ⟨_, _, rfl, fun data hnone => (by cases hnone), ?_⟩
    show 0 + 1 = _
    rw [fragSize] at hend ⊢
    omega
  · rename_i hmore
    refine ⟨_, _, rfl, ?_, ?_⟩
    · intro data' hdata'
      dsimp only at hdata' ⊢
      obtain rfl : data = data' := Option.some.inj hdata'
      refine ⟨hopen, ?_⟩
      rw [fragSize] at hmore ⊢
      omega
    · rw [left]
      dsimp only
      rw [fragSize] at hmore ⊢
      omega

/-! ## A list of answers -/

theorem sendAnswers_none (hnone : io.txbuf = none) : sendAnswers echo answers io = .ok (io, []) := by
  cases answers with
  | nil => rfl
  | cons a answers => rw [sendAnswers, hnone]

theorem sendAnswers_cons {data : List Byte} {a : Answer} {io' : IoBasic} {wire : List Byte}
    (hdata : io.txbuf = some data) (hsend : { io with xh1 := echo io.xh0.toNat }.l2send
      (sendRet (4 + min fragSize (data.length - io.txpos)) a) = .ok (io', wire)) :
    sendAnswers echo (a :: answers) io = (do
      let (io'', sends) ← sendAnswers echo answers io'
      return (io'', if a = .whole then (io.xh0, wire) :: sends else sends)) := by
  rw [hdata] at hsend
  rw [sendAnswers, hdata]
  dsimp only
  rw [hsend]
  rfl

/-- A send that is taken, and the rest. -/
theorem sendAnswers_whole_cons (echo : Nat → UInt16) {data : List Byte} (hdata : io.txbuf = some data) (h : Ready io) :
    ∃ io' wire, Ready io' ∧ left io' + 1 = left io ∧ ∀ answers,
      sendAnswers echo (.whole :: answers) io = (do
        let (io'', sends) ← sendAnswers echo answers io'
        return (io'', (io.xh0, wire) :: sends)) := by
  obtain ⟨io', wire, hsend, hready, hleft⟩ :=
    @l2send_whole { io with xh1 := echo io.xh0.toNat } data hdata (h data hdata).1 (h data hdata).2
  exact ⟨io', wire, hready, hleft, fun answers => sendAnswers_cons hdata hsend⟩

theorem not_keeps {data : List Byte} (hdata : io.txbuf = some data) (h : Ready io) :
    ¬Keeps io (sendAnswers echo [.again] io) := by
  obtain ⟨io', wire, hsend, hclosed⟩ := @l2send_again { io with xh1 := echo io.xh0.toNat } data hdata
    (h data hdata).1 (h data hdata).2 (4 + min fragSize (data.length - io.txpos))
  intro hkeeps
  obtain ⟨io'', sends, heq, _, _, _, hopen⟩ := hkeeps
  rw [sendAnswers_cons hdata hsend] at heq
  cases heq
  rw [hclosed, (h data hdata).1] at hopen
  cases hopen

theorem left_eq_zero (h : Ready io) (hzero : left io = 0) : io.txbuf = none := by
  cases hdata : io.txbuf with
  | none => rfl
  | some data => exact absurd hzero (left_pos hdata (h data hdata).2).ne'

/-- A refusal before the last fragment is taken comes while something is being sent. -/
theorem refused (h : Ready io) (hmem : .again ∈ answers.take (left io)) :
    ∃ before after io' sends, answers = before ++ .again :: after ∧
      sendAnswers echo before io = .ok (io', sends) ∧ io'.txbuf ≠ none ∧
      ¬Keeps io' (sendAnswers echo [.again] io') := by
  induction answers generalizing io with
  | nil =>
    rw [List.take_nil] at hmem
    cases hmem
  | cons a answers ih =>
    cases hdata : io.txbuf with
    | none =>
      rw [left, hdata] at hmem
      cases hmem
    | some data =>
      cases a with
      | again =>
        refine ⟨[], answers, io, [], rfl, rfl, ?_, not_keeps hdata h⟩
        rw [hdata]
        exact Option.some_ne_none data
      | whole =>
        obtain ⟨io', wire, hready, hleft, hcons⟩ := sendAnswers_whole_cons echo hdata h
        rw [← hleft, List.take_succ_cons, List.mem_cons] at hmem
        obtain ⟨before, after, io'', sends, hsplit, hrun, hsome, hnot⟩ :=
          ih hready (hmem.resolve_left Answer.noConfusion)
        refine ⟨.whole :: before, after, io'', (io.xh0, wire) :: sends, ?_, ?_, hsome, hnot⟩
        · rw [hsplit, List.cons_append]
        · rw [hcons, hrun]
          rfl

/-- Once the last fragment is taken nothing is sent, whatever the answers. -/
theorem finished (h : Ready io) {before after : List Answer} {io' : IoBasic}
    {sends : List (UInt16 × List Byte)} (hmem : .again ∉ (before ++ .again :: after).take (left io))
    (hrun : sendAnswers echo before io = .ok (io', sends)) : io'.txbuf = none := by
  induction before generalizing io sends with
  | nil =>
    cases hrun
    refine left_eq_zero h ?_
    by_contra hne
    obtain ⟨n, hn⟩ := Nat.exists_eq_succ_of_ne_zero hne
    rw [hn, List.nil_append, List.take_succ_cons] at hmem
    exact hmem List.mem_cons_self
  | cons a before ih =>
    cases hdata : io.txbuf with
    | none =>
      rw [sendAnswers_none hdata] at hrun
      cases hrun
      exact hdata
    | some data =>
      obtain ⟨n, hn⟩ := Nat.exists_eq_succ_of_ne_zero (left_pos hdata (h data hdata).2).ne'
      cases a with
      | again =>
        rw [hn, List.cons_append, List.take_succ_cons] at hmem
        exact absurd List.mem_cons_self hmem
      | whole =>
        obtain ⟨io1, wire, hready, hleft, hcons⟩ := sendAnswers_whole_cons echo hdata h
        rw [← hleft, List.cons_append, List.take_succ_cons, List.mem_cons, not_or] at hmem
        rw [hcons] at hrun
        cases hrest : sendAnswers echo before io1 with
        | error e =>
          rw [hrest] at hrun
          cases hrun
        | ok r =>
          rw [hrest] at hrun
          cases hrun
          exact ih hready hmem.2 hrest

theorem sendAnswers_filter (h : Ready io) (hmem : .again ∉ answers.take (left io)) :
    sendAnswers echo answers io = sendAnswers echo (answers.filter (· = .whole)) io := by
  induction answers generalizing io with
  | nil => rfl
  | cons a answers ih =>
    cases hdata : io.txbuf with
    | none => rw [sendAnswers_none hdata, sendAnswers_none hdata]
    | some data =>
      cases a with
      | again =>
        obtain ⟨n, hn⟩ := Nat.exists_eq_succ_of_ne_zero (left_pos hdata (h data hdata).2).ne'
        rw [hn, List.take_succ_cons] at hmem
        exact absurd List.mem_cons_self hmem
      | whole =>
        obtain ⟨io', wire, hready, hleft, hcons⟩ := sendAnswers_whole_cons echo hdata h
        rw [← hleft, List.take_succ_cons, List.mem_cons, not_or] at hmem
        rw [List.filter_cons_of_pos (by decide), hcons, hcons, ih hready hmem.2]

/-! ## The main result -/

/-- From every state and for every list of answers: would-block answers change neither
the state nor the wire if and only if none of them comes before the last fragment is
taken. -/
theorem retries_iff (h : Ready io) (echo : Nat → UInt16) (answers : List Answer) :
    Retries echo io answers ↔ .again ∉ answers.take (left io) := by
  constructor
  · intro hretries hmem
    obtain ⟨before, after, io', sends, hsplit, hrun, hsome, hnot⟩ := refused h hmem
    exact hnot (hretries.1 before after io' sends hsplit hrun hsome)
  · intro hmem
    refine ⟨fun before after io' sends hsplit hrun hsome => ?_, congrArg _ (sendAnswers_filter h hmem)⟩
    rw [hsplit] at hmem
    exact absurd (finished h hmem hrun) hsome

/-- A socket that sends the three bytes of a buffer. -/
def sending : IoBasic := ⟨some [1, 2, 3], 0, 0, 0, .mk0 16, true⟩

theorem ready_sending : Ready sending := by
  intro data hdata
  cases hdata
  exact ⟨rfl, by decide⟩

theorem retries_taken : Retries (fun _ => 0) sending [.whole, .again] :=
  (retries_iff ready_sending (fun _ => 0) [.whole, .again]).mpr (by decide)

theorem retries_refused : ¬Retries (fun _ => 0) sending [.again, .whole] := by
  intro h
  have hsome : sending.txbuf ≠ none := Option.some_ne_none _
  exact not_keeps rfl ready_sending (h.1 [] [.whole] sending [] rfl rfl hsome)

end CppSnippets.Epoll.Retry
