import CppSnippets.Relay.WriteOrder

/-!
# Replies to connections that are gone

A connection tells the relay of its end twice, from `handle_error` and from its
destructor, and each time the relay drops only the first of its messages. A
connection with more messages in the queue stays referred to.
-/
namespace CppSnippets.Relay.Connections

open CppSnippets.Lib ApplePush

inductive Life where
  | open
  /-- `handle_error` has told the relay. -/
  | failed
  /-- The destructor has told the relay. -/
  | destroyed
  deriving DecidableEq

/-- The relay and the connections of its clients. -/
structure World where
  push : ApplePush
  life : Conn → Life

inductive Event where
  /-- An open connection reads a message. -/
  | message (c : Conn)
  /-- `handle_error` of a connection. -/
  | fail (c : Conn)
  /-- The destructor of a connection that has failed. -/
  | destroy (c : Conn)
  /-- The handler of an operation of the relay runs. -/
  | done (o : Op Kind) (ec : Outcome)

def Enabled (w : World) : Event → Prop
  | .message c => Relay.Enabled w.push (.message c) ∧ w.life c = .open
  | .fail c => Relay.Enabled w.push (.abort c) ∧ w.life c = .open
  | .destroy c => Relay.Enabled w.push (.abort c) ∧ w.life c = .failed
  | .done o ec => Relay.Enabled w.push (.done o ec)

def World.next (w : World) : Event → World
  | .message c => { w with push := w.push.next (.message c) }
  | .fail c => ⟨w.push.next (.abort c), Function.update w.life c .failed⟩
  | .destroy c => ⟨w.push.next (.abort c), Function.update w.life c .destroyed⟩
  | .done o ec => { w with push := w.push.next (.done o ec) }

instance (w : World) : ∀ ev, Decidable (Enabled w ev)
  | .message _ => inferInstanceAs (Decidable (_ ∧ _))
  | .fail _ => inferInstanceAs (Decidable (_ ∧ _))
  | .destroy _ => inferInstanceAs (Decidable (_ ∧ _))
  | .done o ec => inferInstanceAs (Decidable (Relay.Enabled w.push (.done o ec)))

abbrev Step : World → Event → World → Prop := Moves Enabled World.next

def start : World := ⟨init, fun _ => .open⟩

/-- The queue refers to open connections only. -/
def NoDangling (w : World) : Prop := ∀ e ∈ w.push.bufs, ∀ c, e.1 = some c → w.life c = .open

/-- The messages of a connection in the queue. -/
def queued (w : World) (c : Conn) : Nat := w.push.bufs.countP fun e => e.1 = some c

/-- A connection fails only while at most one of its messages is in the queue. -/
def Ok (w : World) : Event → Prop
  | .fail c => queued w c ≤ 1
  | _ => True

/-! ## The queue under the operations of the relay -/

variable {s : ApplePush} {w w' : World}

theorem writeMsg_bufs : s.writeMsg.bufs = s.bufs := by
  rw [writeMsg]
  split
  · rfl
  · split <;> rfl

theorem writeMsg_replied : s.writeMsg.replied = s.replied := by
  rw [writeMsg]
  split
  · rfl
  · split <;> rfl

theorem pushmsg_bufs (c : Conn) : (s.pushmsg c).bufs = s.bufs ++ [(some c, s.taken)] := by
  rw [pushmsg]
  dsimp only
  split
  · exact writeMsg_bufs
  · rfl
  · rfl
  · rfl

theorem handleReply_bufs : ∀ e ∈ s.handleReply.bufs, e ∈ s.bufs := by
  intro e he
  rw [handleReply, writeMsg_bufs, popFront] at he
  cases hbufs : s.bufs with
  | nil =>
    simp only [hbufs] at he
    exact he
  | cons x bufs =>
    simp only [hbufs] at he
    exact List.mem_cons_of_mem _ he

theorem handleReply_replied : s.handleReply.replied = s.replied := by
  rw [handleReply, writeMsg_replied, popFront]
  split <;> rfl

/-- Nothing is added to the queue, and only a connection in it is answered. -/
structure Answers (s t : ApplePush) : Prop where
  bufs : ∀ e ∈ t.bufs, e ∈ s.bufs
  replied : t.replied = s.replied ∨
    ∃ c msg, (some c, msg) ∈ s.bufs ∧ t.replied = s.replied ++ [(c, msg)]

theorem handle_answers (k : Kind) (ec : Outcome) : Answers s (s.handle k ec) := by
  cases k with
  | connect =>
    show Answers s (s.handleConnect ec)
    rw [handleConnect]
    by_cases hec : ec ≠ .success
    · rw [if_pos hec]
      exact ⟨fun _ he => he, .inl rfl⟩
    · rw [if_neg hec]
      exact ⟨fun _ he => by rwa [writeMsg_bufs] at he, .inl writeMsg_replied⟩
  | read =>
    show Answers s (s.handleRead ec)
    rw [handleRead]
    by_cases hec : ec ≠ .success
    · rw [if_pos hec]
      exact ⟨fun _ he => he, .inl rfl⟩
    · rw [if_neg hec]
      exact ⟨fun _ he => he, .inl rfl⟩
  | write msg =>
    show Answers s (s.handleWrite ec)
    rw [handleWrite]
    dsimp only
    split
    · exact ⟨fun _ he => he, .inl rfl⟩
    · rename_i c front bufs hbufs
      by_cases hec : ec = .aborted
      · rw [if_pos hec]
        exact ⟨fun _ he => he, .inl rfl⟩
      · rw [if_neg hec]
        cases c with
        | none => exact ⟨handleReply_bufs, .inl handleReply_replied⟩
        | some c => exact ⟨fun _ he => he, .inr ⟨c, front, by rw [hbufs]; exact List.mem_cons_self, rfl⟩⟩
  | reply c msg => exact ⟨handleReply_bufs, .inl handleReply_replied⟩

theorem forget_mem {c : Conn} {bufs : List (Option Conn × Nat)} :
    ∀ e ∈ forget c bufs, e.1 = none ∨ e ∈ bufs := by
  cases bufs with
  | nil =>
    intro e he
    cases he
  | cons x bufs =>
    intro e he
    rw [forget] at he
    by_cases hx : x.1 = some c
    · rw [if_pos hx] at he
      rcases List.mem_cons.mp he with rfl | he
      · exact .inl rfl
      · exact .inr (List.mem_cons_of_mem _ he)
    · rw [if_neg hx] at he
      rcases List.mem_cons.mp he with rfl | he
      · exact .inr List.mem_cons_self
      · exact .inr (List.mem_cons_of_mem _ (List.eraseP_subset he))

theorem countP_eraseP {α : Type*} (p : α → Bool) (l : List α) :
    (l.eraseP p).countP p = l.countP p - 1 := by
  induction l with
  | nil => rfl
  | cons x l ih =>
    by_cases hx : p x = true
    · rw [List.eraseP_cons_of_pos hx, List.countP_cons_of_pos hx]
      rfl
    · rw [List.eraseP_cons_of_neg hx, List.countP_cons_of_neg hx, List.countP_cons_of_neg hx, ih]

/-- One message of the connection less. -/
theorem forget_count (c : Conn) (bufs : List (Option Conn × Nat)) :
    (forget c bufs).countP (fun e => e.1 = some c) = bufs.countP (fun e => e.1 = some c) - 1 := by
  cases bufs with
  | nil => rfl
  | cons x bufs =>
    rw [forget]
    by_cases hx : x.1 = some c
    · rw [if_pos hx, List.countP_cons_of_neg (by simp), List.countP_cons_of_pos (by simpa using hx)]
      rfl
    · rw [if_neg hx, List.countP_cons_of_neg (by simpa using hx),
        List.countP_cons_of_neg (by simpa using hx), countP_eraseP]

/-! ## The main result -/

theorem not_queued_iff {c : Conn} : (∀ e ∈ w.push.bufs, e.1 ≠ some c) ↔ queued w c = 0 := by
  rw [queued, List.countP_eq_zero]
  constructor
  · intro h e he hc
    exact h e he (of_decide_eq_true hc)
  · intro h e he hc
    exact h e he (decide_eq_true hc)

/-- After its first notification nothing refers to a connection, if and only if at
most one message of it was in the queue. -/
theorem fail_iff {c : Conn} : (∀ e ∈ (w.next (.fail c)).push.bufs, e.1 ≠ some c) ↔ Ok w (.fail c) := by
  rw [not_queued_iff]
  show (forget c w.push.bufs).countP _ = 0 ↔ w.push.bufs.countP _ ≤ 1
  rw [forget_count]
  omega

theorem noDangling_forget {c : Conn} {life : Life} (h : NoDangling w)
    (hc : ∀ e ∈ forget c w.push.bufs, e.1 ≠ some c) :
    NoDangling ⟨w.push.abort c, Function.update w.life c life⟩ := by
  intro e he c' hc'
  have hne : c' ≠ c := by
    rintro rfl
    exact hc e he hc'
  show Function.update w.life c life c' = .open
  rw [Function.update_of_ne hne]
  rcases forget_mem e he with hnone | hmem
  · rw [hnone] at hc'
    cases hc'
  · exact h e hmem c' hc'

theorem noDangling_step {ev : Event} (h : NoDangling w) (hok : Ok w ev) (hstep : Step w ev w') :
    NoDangling w' := by
  obtain ⟨hen, rfl⟩ := hstep
  cases ev with
  | message c =>
    intro e he c' hc'
    change e ∈ (w.push.pushmsg c).bufs at he
    rw [pushmsg_bufs] at he
    rcases List.mem_append.mp he with he | he
    · exact h e he c' hc'
    · rw [List.mem_singleton.mp he] at hc'
      obtain rfl := Option.some.inj hc'
      exact hen.2
  | fail c => exact noDangling_forget h (fail_iff.mpr hok)
  | destroy c =>
    refine noDangling_forget h fun e he hec => ?_
    rcases forget_mem e he with hnone | hmem
    · rw [hnone] at hec
      cases hec
    · have hopen := h e hmem c hec
      rw [hen.2] at hopen
      cases hopen
  | done o ec =>
    intro e he c hc
    exact h e ((handle_answers (s := { w.push with ops := w.push.ops.erase o }) o.kind ec).bufs e he) c hc

theorem noDangling_run {evs : List Event} (h : Run (Guarded Ok Step) start evs w) : NoDangling w :=
  h.invariant (P := NoDangling) (fun _ _ _ hw hstep => noDangling_step hw hstep.1 hstep.2)
    (fun e he => by cases he)

/-- As long as every connection fails with at most one of its messages in the
queue, the queue refers to open connections only, and only to these is a reply
sent; a connection that fails with more is still referred to. -/
theorem no_dangling (w : World) :
    (∀ evs, Run (Guarded Ok Step) start evs w → NoDangling w ∧
      ∀ o ec w', Step w (.done o ec) w' →
        ∀ c msg, w'.push.replied = w.push.replied ++ [(c, msg)] → w.life c = .open) ∧
    ∀ c w', Step w (.fail c) w' → ((∀ e ∈ w'.push.bufs, e.1 ≠ some c) ↔ queued w c ≤ 1) := by
  constructor
  · intro evs h
    have hclean := noDangling_run h
    refine ⟨hclean, fun o ec w' hstep c msg hreplied => ?_⟩
    obtain ⟨_, rfl⟩ := hstep
    rcases (handle_answers (s := { w.push with ops := w.push.ops.erase o }) o.kind ec).replied with
      hsame | ⟨c', msg', hmem, hadd⟩
    · have hlen := congrArg List.length (hsame.symm.trans hreplied)
      rw [List.length_append] at hlen
      simp at hlen
    · obtain ⟨_, hlast⟩ := List.append_inj' (hadd.symm.trans hreplied) rfl
      cases hlast
      exact hclean _ hmem c rfl
  · intro c w' hstep
    obtain ⟨_, rfl⟩ := hstep
    exact fail_iff

instance (w : World) : ∀ ev, Decidable (Ok w ev)
  | .fail c => inferInstanceAs (Decidable (queued w c ≤ 1))
  | .message _ => .isTrue trivial
  | .destroy _ => .isTrue trivial
  | .done _ _ => .isTrue trivial

/-- Two connections with a message each; the first one goes while its message is
written. -/
def oneEach : List Event :=
  [.done ⟨.connect, false⟩ .success, .message 7, .message 8, .fail 7, .destroy 7,
    .done ⟨.write 0, false⟩ .success]

theorem no_dangling_oneEach : NoDangling (oneEach.foldl World.next start) :=
  ((no_dangling _).1 oneEach (Run.plays_guarded (by decide))).1

/-- A connection goes with three messages in the queue. -/
def threeOfOne : List Event :=
  [.done ⟨.connect, false⟩ .success, .message 7, .message 7, .message 7, .fail 7, .destroy 7,
    .done ⟨.write 0, false⟩ .success, .done ⟨.write 2, false⟩ .success]

/-- The third message is answered to the connection that is destroyed. -/
theorem dangling : ∃ w, Run Step start threeOfOne w ∧ w.life 7 = .destroyed ∧
    (some 7, 2) ∈ w.push.bufs ∧ w.push.replied = [(7, 2)] :=
  ⟨_, Run.plays (by decide), by decide, by decide, by decide⟩

end CppSnippets.Relay.Connections
