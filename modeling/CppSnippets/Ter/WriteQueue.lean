import CppSnippets.Ter.Client

/-!
# The write queue of the chat client

A message that is in front of the queue is being written, or its write has failed
and nothing is written any more: the handler of a failed write neither takes the
message off the queue nor starts again, and a connect does not start a write. So
the queue keeps its order in every run, and it goes on after a reconnect if and
only if no write has failed.
-/
namespace CppSnippets.Ter.WriteQueue

open CppSnippets.Lib ChatClient

variable {s t : ChatClient}

/-- At most one write is outstanding, from the buffer of the message in front; the
messages are written in the order in which they came in; and what is no longer in
the queue has been written, once each. -/
structure Sound (s : ChatClient) : Prop where
  safe : s.fault = false
  oneWrite : (s.ops.only Kind.isWrite).length ≤ 1
  front : ∀ msg a, ⟨.write msg, a⟩ ∈ s.ops → s.writeMsgs.head? = some msg
  started : s.started <+: s.posted
  queue : s.posted = s.popped ++ s.writeMsgs
  popped : s.popped = s.written

/-- With a connection without errors, a message that waits is being written. -/
def Kept (s : ChatClient) : Prop :=
  s.clean = true → s.writeMsgs ≠ [] → s.ops.only Kind.isWrite ≠ []

/-- No connect succeeds after a write that failed. -/
def Ok (s : ChatClient) : Event → Prop
  | .done ⟨.connect, _⟩ .success _ _ => s.writeFailed = false
  | _ => True

/-! ## The invariant -/

def Idle (s : ChatClient) : Prop :=
  s.writeFailed = false ∧ s.writeMsgs = [] ∧ s.ops.only Kind.isWrite = [] ∧ s.started = s.popped

def Writing (s : ChatClient) : Prop :=
  s.writeFailed = false ∧ ∃ msg msgs a, s.writeMsgs = msg :: msgs ∧
    s.ops.only Kind.isWrite = [⟨.write msg, a⟩] ∧ s.started = s.popped ++ [msg]

/-- The write of the message in front has failed. -/
def Stalled (s : ChatClient) : Prop :=
  s.writeFailed = true ∧ ∃ msg msgs, s.writeMsgs = msg :: msgs ∧
    s.ops.only Kind.isWrite = [] ∧ s.started = s.popped ++ [msg]

structure Inv (s : ChatClient) : Prop where
  safe : s.fault = false
  queue : s.posted = s.popped ++ s.writeMsgs
  popped : s.popped = s.written
  progress : Idle s ∨ Writing s ∨ Stalled s

theorem Inv.sound (h : Inv s) : Sound s := by
  have hmem : ∀ msg a, ⟨.write msg, a⟩ ∈ s.ops → ⟨.write msg, a⟩ ∈ s.ops.only Kind.isWrite :=
    fun msg a hmem => Pending.mem_only.mpr ⟨hmem, rfl⟩
  obtain ⟨_, hq, hops, hstarted⟩ | ⟨_, msg, msgs, a, hq, hops, hstarted⟩ |
    ⟨_, msg, msgs, hq, hops, hstarted⟩ := h.progress
  · constructor
    · exact h.safe
    · rw [hops]
      exact Nat.zero_le _
    · intro msg a ho
      have hin := hmem msg a ho
      rw [hops] at hin
      cases hin
    · rw [h.queue, hstarted]
      exact List.prefix_append _ _
    · exact h.queue
    · exact h.popped
  · constructor
    · exact h.safe
    · rw [hops]
      exact Nat.le_refl 1
    · intro msg' a' ho
      have hin := hmem msg' a' ho
      rw [hops, List.mem_singleton] at hin
      cases hin
      rw [hq]
      rfl
    · exact ⟨msgs, by rw [h.queue, hstarted, hq, List.append_assoc]; rfl⟩
    · exact h.queue
    · exact h.popped
  · constructor
    · exact h.safe
    · rw [hops]
      exact Nat.zero_le _
    · intro msg a ho
      have hin := hmem msg a ho
      rw [hops] at hin
      cases hin
    · exact ⟨msgs, by rw [h.queue, hstarted, hq, List.append_assoc]; rfl⟩
    · exact h.queue
    · exact h.popped

theorem Inv.writing_of_mem (h : Inv s) {msg : String} {a : Bool} (ho : ⟨.write msg, a⟩ ∈ s.ops) :
    Writing s := by
  have hin : ⟨.write msg, a⟩ ∈ s.ops.only Kind.isWrite := Pending.mem_only.mpr ⟨ho, rfl⟩
  obtain ⟨_, _, hops, _⟩ | hw | ⟨_, _, _, _, hops, _⟩ := h.progress
  · rw [hops] at hin
    cases hin
  · exact hw
  · rw [hops] at hin
    cases hin

/-! ## What the handlers do -/

/-- What does not touch the queue, and closes its write at most. -/
theorem Inv.frame (h : Inv s) {ops : Pending Kind}
    (hops : ops.only Kind.isWrite = s.ops.only Kind.isWrite ∨
      ∃ on, ops.only Kind.isWrite = (s.ops.close on).only Kind.isWrite)
    (stage : Stage) (tp : Int) (calls : List String) (clean : Bool) :
    Inv { s with stage := stage, stageTp := tp, calls := calls, ops := ops, clean := clean } := by
  have hnil : s.ops.only Kind.isWrite = [] → ops.only Kind.isWrite = [] := by
    intro h0
    obtain heq | ⟨on, heq⟩ := hops
    · rw [heq, h0]
    · rw [heq]
      exact Pending.only_close_nil h0
  have hone : ∀ k a, s.ops.only Kind.isWrite = [⟨k, a⟩] → ∃ a', ops.only Kind.isWrite = [⟨k, a'⟩] := by
    intro k a h1
    obtain heq | ⟨on, heq⟩ := hops
    · exact ⟨a, heq.trans h1⟩
    · rw [heq]
      exact Pending.only_close_singleton h1
  refine ⟨h.safe, h.queue, h.popped, ?_⟩
  obtain ⟨hf, hq, h0, hst⟩ | ⟨hf, msg, msgs, a, hq, h1, hst⟩ | ⟨hf, msg, msgs, hq, h0, hst⟩ := h.progress
  · exact .inl ⟨hf, hq, hnil h0, hst⟩
  · obtain ⟨a', h1'⟩ := hone _ _ h1
    exact .inr (.inl ⟨hf, msg, msgs, a', hq, h1', hst⟩)
  · exact .inr (.inr ⟨hf, msg, msgs, hq, hnil h0, hst⟩)

theorem Inv.start (h : Inv s) {k : Kind} (hk : k.isWrite = false) (stage : Stage) (tp : Int)
    (clean : Bool) :
    Inv { s with stage := stage, stageTp := tp, ops := s.ops.start k, clean := clean } :=
  h.frame (.inl (Pending.only_start_not hk)) stage tp s.calls clean

theorem Inv.erase (h : Inv s) {o : Op Kind} (ho : o.kind.isWrite = false) :
    Inv { s with ops := s.ops.erase o } :=
  h.frame (.inl (Pending.only_erase_not ho)) s.stage s.stageTp s.calls s.clean

theorem Inv.reopen (h : Inv s) (on : Kind → Bool) {k : Kind} (hk : k.isWrite = false)
    (stage : Stage) (tp : Int) :
    Inv { s with stage := stage, stageTp := tp, ops := (s.ops.close on).start k } :=
  h.frame (.inr ⟨on, Pending.only_start_not hk⟩) stage tp s.calls s.clean

theorem inv_write (h : Inv s) (msg : String) : Inv (s.write msg) :=
  h.frame (.inl rfl) s.stage s.stageTp _ s.clean

theorem inv_timedLoop (h : Inv s) (now : Int) (hello : String) : Inv (s.timedLoop now hello) := by
  rw [timedLoop]
  cases s.stage with
  | init =>
    dsimp only
    split
    · exact h.reopen (k := .login) _ rfl .init now
    · exact h
  | connecting =>
    dsimp only
    split
    · exact h
    · exact h.reopen (k := .connect) _ rfl .connecting now
  | established =>
    dsimp only
    split
    · exact (inv_write h hello).frame (.inl rfl) _ _ _ _
    · exact h

theorem inv_doSocketError (h : Inv s) (now : Int) :
    Inv ({ s with clean := false }.doSocketError now) := by
  have hc : Inv { s with clean := false } := h.frame (.inl rfl) s.stage s.stageTp s.calls false
  rw [doSocketError]
  split
  · exact hc.frame (.inl rfl) _ _ s.calls false
  · exact hc

theorem inv_handleReadSize (h : Inv s) (ec : Outcome) (now : Int) : Inv (s.handleReadSize ec now) := by
  rw [handleReadSize]
  split
  · exact h.start rfl s.stage s.stageTp s.clean
  · exact inv_doSocketError h now

theorem inv_handleReadData (h : Inv s) (ec : Outcome) (now : Int) (ack : String) :
    Inv (s.handleReadData ec now ack) := by
  rw [handleReadData]
  split
  · exact (inv_write h ack).start rfl s.stage s.stageTp s.clean
  · exact inv_doSocketError h now

theorem inv_handleConnect (h : Inv s) (ec : Outcome) (now : Int) : Inv (s.handleConnect ec now) := by
  rw [handleConnect]
  split
  · exact h.start rfl .established now true
  · exact h

theorem inv_handleLogin (h : Inv s) (ec : Outcome) (now : Int) : Inv (s.handleLogin ec now) := by
  rw [handleLogin]
  split
  · exact h.frame (.inl rfl) _ _ s.calls s.clean
  · exact h

/-- A write that starts while none is outstanding and the last one has been taken off
the queue. -/
theorem inv_doWrite (hsafe : s.fault = false) (hqueue : s.posted = s.popped ++ s.writeMsgs)
    (hpopped : s.popped = s.written) (hfailed : s.writeFailed = false)
    (hops : s.ops.only Kind.isWrite = []) (hstarted : s.started = s.popped)
    {msg : String} {msgs : List String} (hq : s.writeMsgs = msg :: msgs) : Inv s.doWrite := by
  have hstep : s.doWrite =
      { s with ops := s.ops.start (.write msg), started := s.started ++ [msg] } := by
    rw [doWrite, hq]
  rw [hstep]
  refine ⟨hsafe, hqueue, hpopped, .inr (.inl ⟨hfailed, msg, msgs, false, hq, ?_, ?_⟩)⟩
  · rw [Pending.only_start_of rfl, hops]
    rfl
  · rw [hstarted]

theorem inv_post (h : Inv s) (msg : String) : Inv (s.post msg) := by
  have hqueue : s.posted ++ [msg] = s.popped ++ (s.writeMsgs ++ [msg]) := by
    rw [h.queue, List.append_assoc]
  rw [post]
  obtain ⟨hf, hq, hops, hst⟩ | ⟨hf, front, msgs, a, hq, hops, hst⟩ | ⟨hf, front, msgs, hq, hops, hst⟩ :=
    h.progress
  · rw [if_pos (by rw [hq]; rfl)]
    have hfirst : s.writeMsgs ++ [msg] = msg :: [] := by
      rw [hq]
      rfl
    exact inv_doWrite h.safe hqueue h.popped hf hops hst hfirst
  · rw [if_neg (by rw [hq]; exact Bool.false_ne_true)]
    refine ⟨h.safe, hqueue, h.popped, .inr (.inl ⟨hf, front, msgs ++ [msg], a, ?_, hops, hst⟩)⟩
    show s.writeMsgs ++ [msg] = _
    rw [hq, List.cons_append]
  · rw [if_neg (by rw [hq]; exact Bool.false_ne_true)]
    refine ⟨h.safe, hqueue, h.popped, .inr (.inr ⟨hf, front, msgs ++ [msg], ?_, hops, hst⟩)⟩
    show s.writeMsgs ++ [msg] = _
    rw [hq, List.cons_append]

theorem popFront_cons (s : ChatClient) {front : String} {msgs : List String}
    (h : s.writeMsgs = front :: msgs) :
    s.popFront = { s with writeMsgs := msgs, popped := s.popped ++ [front] } := by
  rw [popFront, h]

/-- The handler of a write. -/
theorem inv_handleWrite (h : Inv s) {msg : String} {a : Bool} (ho : ⟨.write msg, a⟩ ∈ s.ops)
    (ec : Outcome) (now : Int) :
    Inv ({ s with ops := s.ops.erase ⟨.write msg, a⟩ }.handleWrite msg ec now) := by
  have hsound := h.sound
  have hlast : Pending.only (s.ops.erase ⟨.write msg, a⟩) Kind.isWrite = [] :=
    Pending.only_erase_last ho rfl hsound.oneWrite
  have hfront := hsound.front msg a ho
  obtain ⟨hf, front, msgs, a', hq, _, hst⟩ := h.writing_of_mem ho
  rw [hq] at hfront
  cases hfront
  rw [handleWrite]
  split
  · have hqueue : s.posted = s.popped ++ [msg] ++ msgs := by
      rw [h.queue, hq, List.append_assoc]
      rfl
    have hpopped : s.popped ++ [msg] = s.written ++ [msg] := by
      rw [h.popped]
    dsimp only
    rw [popFront_cons { s with
      stageTp := now + 55, ops := s.ops.erase ⟨.write msg, a⟩, written := s.written ++ [msg] } hq]
    cases msgs with
    | nil => exact ⟨h.safe, hqueue, hpopped, .inl ⟨hf, rfl, hlast, hst⟩⟩
    | cons next rest =>
      split
      · apply inv_doWrite
        · exact h.safe
        · exact hqueue
        · exact hpopped
        · exact hf
        · exact hlast
        · exact hst
        · rfl
      · rename_i hempty
        exact absurd rfl hempty
  · exact ⟨h.safe, h.queue, h.popped, .inr (.inr ⟨rfl, msg, msgs, hq, hlast, hst⟩)⟩

theorem inv_step {ev : Event} (h : Inv s) (hstep : Step s ev t) : Inv t := by
  obtain ⟨hen, rfl⟩ := hstep
  cases ev with
  | timer now hello => exact inv_timedLoop h now hello
  | write msg => exact inv_write h msg
  | post msg => exact inv_post (h.frame (.inl rfl) s.stage s.stageTp _ s.clean) msg
  | done o ec now ack =>
    obtain ⟨kind, a⟩ := o
    cases kind with
    | login => exact inv_handleLogin (h.erase rfl) ec now
    | connect => exact inv_handleConnect (h.erase rfl) ec now
    | readSize => exact inv_handleReadSize (h.erase rfl) ec now
    | readData => exact inv_handleReadData (h.erase rfl) ec now ack
    | write msg => exact inv_handleWrite h hen.2.1 ec now

/-- In every run, one write at a time, in order. -/
theorem inv_run {evs : List Event} (h : Run Step init evs s) : Inv s :=
  h.invariant (fun _ _ _ hs hstep => inv_step hs hstep)
    ⟨rfl, rfl, rfl, .inl ⟨rfl, rfl, rfl, rfl⟩⟩

theorem run_sound {evs : List Event} (h : Run Step init evs s) : Sound s := (inv_run h).sound

/-! ## After a write that failed -/

/-- A failed write is an error since the last connect. -/
def Known (s : ChatClient) : Prop := s.writeFailed = true → s.clean = false

theorem doWrite_flags (s : ChatClient) :
    s.doWrite.clean = s.clean ∧ s.doWrite.writeFailed = s.writeFailed := by
  rw [doWrite]
  split <;> exact ⟨rfl, rfl⟩

theorem popFront_flags (s : ChatClient) :
    s.popFront.clean = s.clean ∧ s.popFront.writeFailed = s.writeFailed := by
  rw [popFront]
  split <;> exact ⟨rfl, rfl⟩

theorem Known.of_flags (h : Known s) (heq : t.clean = s.clean ∧ t.writeFailed = s.writeFailed) :
    Known t := by
  rw [Known, heq.1, heq.2]
  exact h

theorem Known.doSocketError (h : s.clean = false) (now : Int) : Known (s.doSocketError now) := by
  intro _
  rw [ChatClient.doSocketError]
  split
  · exact h
  · exact h

theorem known_handleWrite (h : Known s) (msg : String) (ec : Outcome) (now : Int) :
    Known (s.handleWrite msg ec now) := by
  rw [handleWrite]
  split
  · have hpop := h.of_flags (popFront_flags { s with
      stageTp := now + 55, written := s.written ++ [msg] })
    dsimp only
    split
    · exact hpop.of_flags (doWrite_flags _)
    · exact hpop
  · exact fun _ => rfl

theorem known_step {ev : Event} (h : Known s) (hok : Ok s ev) (hstep : Step s ev t) : Known t := by
  obtain ⟨_, rfl⟩ := hstep
  cases ev with
  | timer now hello =>
    show Known (timedLoop s now hello)
    rw [timedLoop]
    cases s.stage with
    | _ =>
      dsimp only
      split <;> exact h
  | write msg => exact h
  | post msg =>
    show Known (ChatClient.post _ msg)
    rw [ChatClient.post]
    dsimp only
    split
    · exact h.of_flags (doWrite_flags _)
    · exact h
  | done o ec now ack =>
    obtain ⟨kind, a⟩ := o
    cases kind with
    | login =>
      show Known (handleLogin _ ec now)
      rw [handleLogin]
      split <;> exact h
    | connect =>
      show Known (handleConnect _ ec now)
      rw [handleConnect]
      split
      · rename_i hec
        subst hec
        intro hfailed
        exact absurd hfailed (ne_true_of_eq_false hok)
      · exact h
    | readSize =>
      show Known (handleReadSize _ ec now)
      rw [handleReadSize]
      split
      · exact h
      · exact Known.doSocketError rfl now
    | readData =>
      show Known (handleReadData _ ec now ack)
      rw [handleReadData]
      split
      · exact h
      · exact Known.doSocketError rfl now
    | write msg =>
      show Known (handleWrite _ msg ec now)
      exact known_handleWrite (s := { s with ops := s.ops.erase ⟨.write msg, a⟩ }) h msg ec now

theorem Inv.kept (h : Inv s) (hknown : Known s) : Kept s := by
  intro hclean hq
  obtain ⟨_, hnil, _⟩ | ⟨_, _, _, _, _, hops, _⟩ | ⟨hfailed, _⟩ := h.progress
  · exact absurd hnil hq
  · rw [hops]
    exact List.cons_ne_nil _ _
  · rw [hknown hfailed] at hclean
    cases hclean

theorem Inv.stalled (h : Inv s) (hfailed : s.writeFailed = true) : Stalled s := by
  obtain ⟨hf, _⟩ | ⟨hf, _⟩ | hstalled := h.progress
  · rw [hf] at hfailed
    cases hfailed
  · rw [hf] at hfailed
    cases hfailed
  · exact hstalled

/-- A connect after a failed write leaves the message in front waiting. -/
theorem Inv.blocked (h : Inv s) (hfailed : s.writeFailed = true) (a : Bool) (now : Int) :
    ¬Kept ({ s with ops := s.ops.erase ⟨.connect, a⟩ }.handleConnect .success now) := by
  obtain ⟨_, msg, msgs, hq, hops, _⟩ := h.stalled hfailed
  intro hkept
  refine hkept rfl ?_ ?_
  · show s.writeMsgs ≠ []
    rw [hq]
    exact List.cons_ne_nil _ _
  · show Pending.only (Pending.start (s.ops.erase ⟨.connect, a⟩) .readSize) Kind.isWrite = []
    rw [Pending.only_start_not rfl, Pending.only_erase_not rfl, hops]

/-- Nothing is written or taken off the queue, and no write fails. -/
def SameWrites (s t : ChatClient) : Prop :=
  t.started = s.started ∧ t.popped = s.popped ∧ t.writeFailed = s.writeFailed

theorem sameWrites_doSocketError (s : ChatClient) (now : Int) :
    SameWrites s ({ s with clean := false }.doSocketError now) := by
  rw [doSocketError]
  split <;> exact ⟨rfl, rfl, rfl⟩

/-- The handlers of the other operations. -/
theorem sameWrites_handle {k : Kind} (hk : k.isWrite = false) (s : ChatClient) (ec : Outcome)
    (now : Int) (ack : String) : SameWrites s (s.handle k ec now ack) := by
  cases k with
  | login =>
    show SameWrites s (s.handleLogin ec now)
    rw [handleLogin]
    split <;> exact ⟨rfl, rfl, rfl⟩
  | connect =>
    show SameWrites s (s.handleConnect ec now)
    rw [handleConnect]
    split <;> exact ⟨rfl, rfl, rfl⟩
  | readSize =>
    show SameWrites s (s.handleReadSize ec now)
    rw [handleReadSize]
    split
    · exact ⟨rfl, rfl, rfl⟩
    · exact sameWrites_doSocketError s now
  | readData =>
    show SameWrites s (s.handleReadData ec now ack)
    rw [handleReadData]
    split
    · exact ⟨rfl, rfl, rfl⟩
    · exact sameWrites_doSocketError s now
  | write msg => cases hk

theorem Stalled.no_write (h : Stalled s) {msg : String} {a : Bool} : ⟨.write msg, a⟩ ∉ s.ops := by
  obtain ⟨_, _, _, _, hops, _⟩ := h
  exact Pending.not_mem_of_only_nil hops rfl

/-- After a failed write no step writes a message or takes one off the queue. -/
theorem sameWrites_step {ev : Event} (h : Stalled s) (hstep : Step s ev t) : SameWrites s t := by
  obtain ⟨hen, rfl⟩ := hstep
  cases ev with
  | timer now hello =>
    show SameWrites s (timedLoop s now hello)
    rw [timedLoop]
    cases s.stage with
    | _ =>
      dsimp only
      split <;> exact ⟨rfl, rfl, rfl⟩
  | write msg => exact ⟨rfl, rfl, rfl⟩
  | post msg =>
    obtain ⟨_, front, msgs, hq, _⟩ := h
    show SameWrites s (ChatClient.post _ msg)
    rw [ChatClient.post]
    dsimp only
    rw [if_neg (by rw [hq]; exact Bool.false_ne_true)]
    exact ⟨rfl, rfl, rfl⟩
  | done o ec now ack =>
    obtain ⟨kind, a⟩ := o
    by_cases hk : kind.isWrite = false
    · exact sameWrites_handle hk { s with ops := s.ops.erase ⟨kind, a⟩ } ec now ack
    · cases kind with
      | write msg => exact absurd hen.2.1 h.no_write
      | _ => exact absurd rfl hk

/-- A failed write is the last one, whatever is posted and however often the client
connects again. -/
theorem stalled_run {evs : List Event} (h : Inv s) (hfailed : s.writeFailed = true)
    (hrun : Run Step s evs t) : Stalled t ∧ t.started = s.started ∧ t.popped = s.popped := by
  have hstill : Inv t ∧ t.writeFailed = true ∧ t.started = s.started ∧ t.popped = s.popped := by
    refine hrun.invariant
      (P := fun u => Inv u ∧ u.writeFailed = true ∧ u.started = s.started ∧ u.popped = s.popped)
      (fun u ev v hu hstep => ?_) ⟨h, hfailed, rfl, rfl⟩
    obtain ⟨hinv, hf, hstarted, hpopped⟩ := hu
    obtain ⟨hstarted', hpopped', hf'⟩ := sameWrites_step (hinv.stalled hf) hstep
    exact ⟨inv_step hinv hstep, hf'.trans hf, hstarted'.trans hstarted, hpopped'.trans hpopped⟩
  exact ⟨hstill.1.stalled hstill.2.1, hstill.2.2⟩

/-! ## The main result -/

/-- As long as no connect succeeds after a failed write, the queue is sound and a
message that waits is being written; a step keeps this if and only if it is no such
connect, and the order of the queue in any case. -/
theorem write_queue {evs : List Event} (h : Run (Guarded Ok Step) init evs s) :
    Sound s ∧ Kept s ∧ ∀ ev t, Step s ev t → Sound t ∧ (Kept t ↔ Ok s ev) := by
  have hinv := inv_run h.of_guarded
  have hknown : Known s := by
    refine h.invariant (P := Known) (fun _ _ _ hs hstep => known_step hs hstep.1 hstep.2) ?_
    exact fun _ => rfl
  refine ⟨hinv.sound, hinv.kept hknown, fun ev t hstep => ?_⟩
  have hnext := inv_step hinv hstep
  refine ⟨hnext.sound, fun hkept => ?_, fun hok => hnext.kept (known_step hknown hok hstep)⟩
  by_contra hok
  obtain ⟨_, rfl⟩ := hstep
  cases ev with
  | timer now hello => exact hok trivial
  | write msg => exact hok trivial
  | post msg => exact hok trivial
  | done o ec now ack =>
    obtain ⟨kind, a⟩ := o
    cases kind with
    | connect =>
      cases ec with
      | success => exact hinv.blocked (by simpa [Ok] using hok) a now hkept
      | aborted => exact hok trivial
      | failed => exact hok trivial
    | login => exact hok trivial
    | readSize => exact hok trivial
    | readData => exact hok trivial
    | write msg => exact hok trivial

instance (s : ChatClient) : ∀ ev, Decidable (Ok s ev)
  | .done ⟨.connect, _⟩ .success _ _ => inferInstanceAs (Decidable (_ = _))
  | .done ⟨.connect, _⟩ .aborted _ _ => .isTrue trivial
  | .done ⟨.connect, _⟩ .failed _ _ => .isTrue trivial
  | .done ⟨.login, _⟩ _ _ _ => .isTrue trivial
  | .done ⟨.readSize, _⟩ _ _ _ => .isTrue trivial
  | .done ⟨.readData, _⟩ _ _ _ => .isTrue trivial
  | .done ⟨.write _, _⟩ _ _ _ => .isTrue trivial
  | .timer _ _ => .isTrue trivial
  | .write _ => .isTrue trivial
  | .post _ => .isTrue trivial

/-- The client signs in, connects and says hello. -/
def greeted : List Event :=
  [.timer 100 "", .done ⟨.login, false⟩ .success 101 "", .timer 103 "",
    .done ⟨.connect, false⟩ .success 104 "", .timer 106 "hello", .post "hello"]

theorem write_queue_greeted : Sound (greeted.foldl ChatClient.next init) ∧
    Kept (greeted.foldl ChatClient.next init) := by
  have hrun : Run (Guarded Ok Step) init greeted (greeted.foldl ChatClient.next init) :=
    Run.plays_guarded (by decide)
  obtain ⟨hsound, hkept, _⟩ := write_queue hrun
  exact ⟨hsound, hkept⟩

/-- The write and the read fail, and the client connects again. Then `hello` is in
front of the queue, what comes in waits behind it, and nothing is written. -/
def reconnected : List Event :=
  greeted ++ [.done ⟨.write "hello", false⟩ .failed 107 "", .done ⟨.readSize, false⟩ .failed 107 "",
    .timer 109 "", .done ⟨.connect, false⟩ .success 110 "", .timer 112 "again", .post "again"]

theorem kept_broken : ∃ s, Run Step init reconnected s ∧ ¬Kept s ∧ s.clean = true ∧
    s.writeMsgs = ["hello", "again"] ∧ s.ops.only Kind.isWrite = [] := by
  refine ⟨_, Run.plays (by decide), fun h => ?_, by decide, by decide, by decide⟩
  exact h (by decide) (by decide) (by decide)

end CppSnippets.Ter.WriteQueue
