import CppSnippets.Relay.Upstream

/-!
# One write at a time

A reconnect while a message is written or answered lets the handlers of the old
socket set the stage of the new one. Without one, there is one write at a time,
and the messages are written in the order in which they came in.
-/
namespace CppSnippets.Relay.WriteOrder

open CppSnippets.Lib ApplePush

variable {s t : ApplePush}

/-- At most one write is outstanding and the stage says so, no write of the socket
is outstanding while it connects, the messages are written in the order in which
they came in, and those that were taken off the queue or answered are the written
ones, once each. -/
structure Sound (s : ApplePush) : Prop where
  oneWrite : (s.ops.only Kind.isWrite).length ≤ 1
  writing : s.stage = .writing ↔ s.ops.only Kind.isWrite ≠ []
  notConnecting : ∀ msg, ⟨.write msg, false⟩ ∈ s.ops → ⟨.connect, false⟩ ∉ s.ops
  written : s.wrote.Pairwise (· < ·)
  popped : s.popped <+: s.wrote
  replied : (s.replied.map Prod.snd).Sublist s.wrote

/-- No message is being written or answered. -/
def Idle (s : ApplePush) : Prop := s.stage ≠ .writing ∧ s.stage ≠ .replying

/-- The handler of a read that failed, and that of a connect that was aborted, run
only while no message is being written or answered. -/
def Ok (s : ApplePush) : Event → Prop
  | .done ⟨.read, _⟩ ec => ec ≠ .success → Idle s
  | .done ⟨.connect, aborted⟩ _ => aborted = true → Idle s
  | _ => True

/-! ## The invariant -/

/-- The messages that came in and were not dropped, up to their order. -/
def journal (s : ApplePush) : List Nat := s.popped ++ s.bufs.map Prod.snd

/-- Nothing is being written or answered. -/
structure Calm (s : ApplePush) : Prop where
  safe : s.fault = false
  order : (journal s).Pairwise (· < ·)
  bound : ∀ msg ∈ journal s, msg < s.taken
  connects : s.ops.count ⟨.connect, false⟩ ≤ 1
  writes : s.ops.only Kind.isWrite = []
  replies : s.ops.only Kind.isReply = []
  wrote : s.wrote = s.popped
  replied : (s.replied.map Prod.snd).Sublist s.popped

/-- The message in front is being written or answered. -/
structure Busy (s : ApplePush) (writes replies : Nat → Pending Kind → Prop)
    (answered : ApplePush → List Nat) : Prop where
  safe : s.fault = false
  order : (journal s).Pairwise (· < ·)
  bound : ∀ msg ∈ journal s, msg < s.taken
  connects : s.ops.count ⟨.connect, false⟩ = 0
  front : ∃ c msg bufs, s.bufs = (c, msg) :: bufs ∧ s.wrote = s.popped ++ [msg] ∧
    writes msg (s.ops.only Kind.isWrite) ∧ replies msg (s.ops.only Kind.isReply)
  replied : (s.replied.map Prod.snd).Sublist (answered s)

/-- The invariant of a relay in which no handler of an old socket runs while a
message is being written or answered. -/
def Inv (s : ApplePush) : Prop :=
  match s.stage with
  | .writing => Busy s (fun msg ps => ps = [⟨.write msg, false⟩]) (fun _ ps => ps = []) popped
  | .replying => Busy s (fun _ ps => ps = []) (fun msg ps => ∃ c, ps = [⟨.reply c msg, false⟩]) wrote
  | .ready => Calm s ∧ s.ops.count ⟨.connect, false⟩ = 0
  | _ => Calm s

theorem Inv.writing (h : Inv s) (hstage : s.stage = .writing) :
    Busy s (fun msg ps => ps = [⟨.write msg, false⟩]) (fun _ ps => ps = []) popped := by
  rw [Inv, hstage] at h
  exact h

theorem Inv.replying (h : Inv s) (hstage : s.stage = .replying) :
    Busy s (fun _ ps => ps = []) (fun msg ps => ∃ c, ps = [⟨.reply c msg, false⟩]) wrote := by
  rw [Inv, hstage] at h
  exact h

theorem Inv.calm (h : Inv s) (hidle : Idle s) : Calm s := by
  obtain ⟨hw, hr⟩ := hidle
  cases hstage : s.stage with
  | writing => exact absurd hstage hw
  | replying => exact absurd hstage hr
  | _ =>
    rw [Inv, hstage] at h
    first
    | exact h
    | exact h.1

theorem Inv.connecting (h : Inv s) (hc : ⟨.connect, false⟩ ∈ s.ops) :
    s.stage = .zero ∨ s.stage = .connecting := by
  have hpos := List.count_pos_iff.mpr hc
  cases hstage : s.stage with
  | zero => exact .inl rfl
  | connecting => exact .inr rfl
  | ready =>
    rw [Inv, hstage] at h
    have := h.2
    omega
  | writing =>
    have := (h.writing hstage).connects
    omega
  | replying =>
    have := (h.replying hstage).connects
    omega

theorem Inv.replying_of_mem (h : Inv s) {o : Op Kind} (hmem : o ∈ s.ops.only Kind.isReply) :
    s.stage = .replying := by
  have hne := List.ne_nil_of_mem hmem
  by_contra hr
  by_cases hw : s.stage = .writing
  · obtain ⟨_, _, _, _, _, _, hnil⟩ := (h.writing hw).front
    exact hne hnil
  · exact hne (h.calm ⟨hw, hr⟩).replies

theorem Calm.sound (h : Calm s) (hidle : Idle s) : Sound s := by
  constructor
  · rw [h.writes]
    exact Nat.zero_le _
  · constructor
    · intro hstage
      exact absurd hstage hidle.1
    · intro hne
      exact absurd h.writes hne
  · intro msg hmem
    exact absurd hmem (Pending.not_mem_of_only_nil h.writes rfl)
  · rw [h.wrote]
    exact (List.pairwise_append.mp h.order).1
  · exact ⟨[], (List.append_nil _).trans h.wrote.symm⟩
  · rw [h.wrote]
    exact h.replied

theorem journal_cut {c : Option Conn} {msg : Nat} {bufs : List (Option Conn × Nat)}
    (hbufs : s.bufs = (c, msg) :: bufs) (hwrote : s.wrote = s.popped ++ [msg]) :
    journal s = s.wrote ++ bufs.map Prod.snd := by
  rw [journal, hbufs, hwrote, List.append_assoc]
  rfl

theorem Busy.sound {writes replies : Nat → Pending Kind → Prop} {answered : ApplePush → List Nat}
    (h : Busy s writes replies answered) (hanswered : (answered s).Sublist s.wrote)
    (hone : ∀ msg ps, writes msg ps → ps.length ≤ 1)
    (hstage : ∀ msg, writes msg (s.ops.only Kind.isWrite) →
      (s.stage = .writing ↔ s.ops.only Kind.isWrite ≠ [])) : Sound s := by
  obtain ⟨c, msg, bufs, hbufs, hwrote, hwrites, _⟩ := h.front
  constructor
  · exact hone msg _ hwrites
  · exact hstage msg hwrites
  · intro _ _
    exact List.count_eq_zero.mp h.connects
  · have horder := h.order
    rw [journal_cut hbufs hwrote] at horder
    exact (List.pairwise_append.mp horder).1
  · rw [hwrote]
    exact List.prefix_append _ _
  · exact h.replied.trans hanswered

theorem Inv.sound (h : Inv s) : Sound s := by
  by_cases hw : s.stage = .writing
  · have hbusy := h.writing hw
    obtain ⟨_, _, _, _, hwrote, _⟩ := hbusy.front
    refine hbusy.sound (hwrote ▸ List.sublist_append_left _ _)
      (fun msg ps hps => by rw [hps]; exact Nat.le_refl 1) fun msg hps => ?_
    rw [hps]
    exact ⟨fun _ => List.cons_ne_nil _ _, fun _ => hw⟩
  · by_cases hr : s.stage = .replying
    · refine (h.replying hr).sound (List.Sublist.refl _) (fun msg ps hps => by rw [hps]; exact Nat.zero_le _)
        fun msg hps => ?_
      rw [hps]
      exact ⟨fun h => absurd h hw, fun h => absurd rfl h⟩
    · exact (h.calm ⟨hw, hr⟩).sound ⟨hw, hr⟩

theorem Inv.order (h : Inv s) :
    (journal s).Pairwise (· < ·) ∧ ∀ msg ∈ journal s, msg < s.taken := by
  by_cases hw : s.stage = .writing
  · exact ⟨(h.writing hw).order, (h.writing hw).bound⟩
  · by_cases hr : s.stage = .replying
    · exact ⟨(h.replying hr).order, (h.replying hr).bound⟩
    · exact ⟨(h.calm ⟨hw, hr⟩).order, (h.calm ⟨hw, hr⟩).bound⟩

/-! ## What the handlers do -/

theorem inv_connect (h : Calm s) : Inv s.connect := by
  have hk : ∀ k, Kind.isReply k = true → Kind.upstream k = false := by
    intro k hk
    rw [Kind.upstream, hk]
    rfl
  show Calm s.connect
  refine ⟨h.safe, h.order, h.bound, ?_, ?_, ?_, h.wrote, h.replied⟩
  · have hcount : ((s.ops.close Kind.upstream).start .connect).count ⟨.connect, false⟩ = 1 := by
      rw [Pending.count_start, Pending.count_close rfl, if_pos rfl]
    exact Nat.le_of_eq hcount
  · show ((s.ops.close Kind.upstream).start .connect).only _ = []
    rw [Pending.only_start_not rfl]
    exact Pending.only_close_nil h.writes
  · show ((s.ops.close Kind.upstream).start .connect).only _ = []
    rw [Pending.only_start_not rfl, Pending.only_close_not hk]
    exact h.replies

theorem writeMsg_nil (hbufs : s.bufs = []) : s.writeMsg = s := by
  rw [writeMsg]
  by_cases hstage : s.stage ≠ .ready
  · rw [if_pos hstage]
  · rw [if_neg hstage, hbufs]

theorem writeMsg_cons {c : Option Conn} {msg : Nat} {bufs : List (Option Conn × Nat)}
    (hstage : s.stage = .ready) (hbufs : s.bufs = (c, msg) :: bufs) :
    s.writeMsg = { s with
      stage := .writing, ops := s.ops.start (.write msg), wrote := s.wrote ++ [msg] } := by
  rw [writeMsg, if_neg (fun hne => hne hstage), hbufs]

theorem inv_writeMsg (h : Calm s) (hstage : s.stage = .ready)
    (hc : s.ops.count ⟨.connect, false⟩ = 0) : Inv s.writeMsg := by
  cases hbufs : s.bufs with
  | nil =>
    rw [writeMsg_nil hbufs, Inv, hstage]
    exact ⟨h, hc⟩
  | cons e bufs =>
    obtain ⟨c, msg⟩ := e
    rw [writeMsg_cons hstage hbufs]
    show Busy _ _ _ _
    refine ⟨h.safe, h.order, h.bound, ?_, ⟨c, msg, bufs, hbufs, ?_, ?_, ?_⟩, h.replied⟩
    · rw [Pending.count_start, hc, if_neg (by intro h; cases h)]
    · exact congrArg (· ++ [msg]) h.wrote
    · show (s.ops.start (.write msg)).only Kind.isWrite = _
      rw [Pending.only_start_of rfl, h.writes]
      rfl
    · show (s.ops.start (.write msg)).only Kind.isReply = []
      rw [Pending.only_start_not rfl]
      exact h.replies

/-- What is left once the message in front is written and answered. -/
theorem calm_popFront {c : Option Conn} {msg : Nat} {bufs : List (Option Conn × Nat)}
    (hsafe : s.fault = false) (horder : (journal s).Pairwise (· < ·))
    (hbound : ∀ msg ∈ journal s, msg < s.taken)
    (hc : s.ops.count ⟨.connect, false⟩ = 0) (hbufs : s.bufs = (c, msg) :: bufs)
    (hwrote : s.wrote = s.popped ++ [msg]) (hwrites : s.ops.only Kind.isWrite = [])
    (hreplies : s.ops.only Kind.isReply = []) (hreplied : (s.replied.map Prod.snd).Sublist s.wrote) :
    Calm s.popFront := by
  have hpop : s.popFront = { s with bufs := bufs, popped := s.popped ++ [msg] } := by
    rw [popFront, hbufs]
  have hjournal : journal s.popFront = journal s := by
    rw [hpop, journal_cut hbufs hwrote, hwrote]
    rfl
  rw [← hjournal] at horder hbound
  rw [hpop] at horder hbound ⊢
  refine ⟨hsafe, horder, hbound, ?_, hwrites, hreplies, hwrote, ?_⟩
  · rw [hc]
    exact Nat.zero_le _
  · show (s.replied.map Prod.snd).Sublist (s.popped ++ [msg])
    rw [← hwrote]
    exact hreplied

/-- The queue may change behind its front. -/
theorem inv_bufs (h : Inv s) {bufs : List (Option Conn × Nat)} {taken : Nat}
    (horder : (s.popped ++ bufs.map Prod.snd).Pairwise (· < ·))
    (hbound : ∀ msg ∈ s.popped ++ bufs.map Prod.snd, msg < taken)
    (hfront : ∀ c msg rest, s.bufs = (c, msg) :: rest → ∃ c' rest', bufs = (c', msg) :: rest') :
    Inv { s with bufs := bufs, taken := taken } := by
  have hcalm : Calm s → Calm { s with bufs := bufs, taken := taken } := fun h =>
    ⟨h.safe, horder, hbound, h.connects, h.writes, h.replies, h.wrote, h.replied⟩
  have hbusy : ∀ {writes replies answered}, Busy s writes replies answered →
      (s.replied.map Prod.snd).Sublist (answered { s with bufs := bufs, taken := taken }) →
      Busy { s with bufs := bufs, taken := taken } writes replies answered := by
    intro writes replies answered h hreplied
    obtain ⟨c, msg, rest, hbufs, hwrote, hw, hr⟩ := h.front
    obtain ⟨c', rest', hbufs'⟩ := hfront c msg rest hbufs
    exact ⟨h.safe, horder, hbound, h.connects, ⟨c', msg, rest', hbufs', hwrote, hw, hr⟩, hreplied⟩
  obtain ⟨stage, _⟩ := s
  cases stage with
  | zero => exact hcalm h
  | connecting => exact hcalm h
  | ready => exact ⟨hcalm h.1, h.2⟩
  | writing => exact hbusy h h.replied
  | replying => exact hbusy h h.replied

/-- Operations other than writes and replies may come and go. -/
theorem inv_ops (h : Inv s) {ops : Pending Kind}
    (hw : ops.only Kind.isWrite = s.ops.only Kind.isWrite)
    (hr : ops.only Kind.isReply = s.ops.only Kind.isReply)
    (hc : ops.count ⟨.connect, false⟩ ≤ s.ops.count ⟨.connect, false⟩) :
    Inv { s with ops := ops } := by
  have hcalm : Calm s → Calm { s with ops := ops } := fun h =>
    ⟨h.safe, h.order, h.bound, Nat.le_trans hc h.connects, hw.trans h.writes, hr.trans h.replies,
      h.wrote, h.replied⟩
  have hbusy : ∀ {writes replies answered}, Busy s writes replies answered →
      (s.replied.map Prod.snd).Sublist (answered { s with ops := ops }) →
      Busy { s with ops := ops } writes replies answered := by
    intro writes replies answered h hreplied
    obtain ⟨c, msg, rest, hbufs, hwrote, hw', hr'⟩ := h.front
    rw [← hw] at hw'
    rw [← hr] at hr'
    exact ⟨h.safe, h.order, h.bound, Nat.le_zero.mp (h.connects ▸ hc),
      ⟨c, msg, rest, hbufs, hwrote, hw', hr'⟩, hreplied⟩
  obtain ⟨stage, _⟩ := s
  cases stage with
  | zero => exact hcalm h
  | connecting => exact hcalm h
  | ready => exact ⟨hcalm h.1, Nat.le_zero.mp (h.2 ▸ hc)⟩
  | writing => exact hbusy h h.replied
  | replying => exact hbusy h h.replied

theorem inv_push (h : Inv s) (c : Conn) :
    Inv { s with bufs := s.bufs ++ [(some c, s.taken)], taken := s.taken + 1 } := by
  have horder := h.order
  have hjournal : s.popped ++ (s.bufs ++ [(some c, s.taken)]).map Prod.snd =
      journal s ++ [s.taken] := by
    rw [List.map_append, journal, List.append_assoc]
    rfl
  refine inv_bufs h ?_ ?_ ?_
  · rw [hjournal, List.pairwise_append]
    refine ⟨horder.1, List.pairwise_singleton _ _, ?_⟩
    intro x hx y hy
    rw [List.mem_singleton.mp hy]
    exact horder.2 x hx
  · intro msg hmsg
    rw [hjournal] at hmsg
    rcases List.mem_append.mp hmsg with hmsg | hmsg
    · exact Nat.lt_succ_of_lt (horder.2 msg hmsg)
    · rw [List.mem_singleton.mp hmsg]
      exact Nat.lt_succ_self _
  · intro c' msg rest hbufs
    exact ⟨c', rest ++ [(some c, s.taken)], by rw [hbufs]; rfl⟩

theorem forget_sublist (c : Conn) (bufs : List (Option Conn × Nat)) :
    ((forget c bufs).map Prod.snd).Sublist (bufs.map Prod.snd) := by
  cases bufs with
  | nil => exact List.Sublist.refl _
  | cons e bufs =>
    rw [forget]
    by_cases he : e.1 = some c
    · rw [if_pos he]
      exact List.Sublist.refl _
    · rw [if_neg he]
      exact (List.eraseP_sublist.map _).cons_cons _

theorem forget_front (c : Conn) {c' : Option Conn} {msg : Nat} {bufs : List (Option Conn × Nat)} :
    ∃ c'' bufs', forget c ((c', msg) :: bufs) = (c'', msg) :: bufs' := by
  rw [forget]
  by_cases he : c' = some c
  · exact ⟨none, bufs, if_pos he⟩
  · exact ⟨c', _, if_neg he⟩

theorem inv_abort (h : Inv s) (c : Conn) : Inv (s.abort c) := by
  have horder := h.order
  have hsub : (s.popped ++ (forget c s.bufs).map Prod.snd).Sublist (journal s) :=
    (List.Sublist.refl _).append (forget_sublist c s.bufs)
  refine inv_bufs h (horder.1.sublist hsub) (fun msg hmsg => horder.2 msg (hsub.subset hmsg)) ?_
  intro c' msg rest hbufs
  rw [hbufs]
  exact forget_front c

theorem inv_pushmsg (h : Inv s) (c : Conn) : Inv (s.pushmsg c) := by
  have hpush := inv_push h c
  obtain ⟨stage, bufs, replybuf, ops, taken, wrote, popped, replied, fault⟩ := s
  cases stage with
  | zero => exact inv_connect (s := ⟨.zero, _, _, _, _, _, _, _, _⟩) hpush
  | connecting => exact inv_connect (s := ⟨.connecting, _, _, _, _, _, _, _, _⟩) hpush
  | ready => exact inv_writeMsg (s := ⟨.ready, _, _, _, _, _, _, _, _⟩) hpush.1 rfl hpush.2
  | writing => exact hpush
  | replying => exact hpush

theorem inv_erase (h : Inv s) {o : Op Kind} (hw : o.kind.isWrite = false)
    (hr : o.kind.isReply = false) : Inv { s with ops := s.ops.erase o } :=
  inv_ops h (Pending.only_erase_not hw) (Pending.only_erase_not hr)
    (List.erase_sublist.count_le _)

theorem inv_handleConnect (h : Inv s) {aborted : Bool} {ec : Outcome}
    (hmem : ⟨.connect, aborted⟩ ∈ s.ops) (hends : Op.Ends (⟨.connect, aborted⟩ : Op Kind) ec)
    (hok : aborted = true → Idle s) :
    Inv (handleConnect { s with ops := s.ops.erase ⟨.connect, aborted⟩ } ec) := by
  have herase := inv_erase h (o := ⟨.connect, aborted⟩) rfl rfl
  have hidle : Idle s := by
    cases haborted : aborted with
    | true => exact hok haborted
    | false =>
      rw [haborted] at hmem
      rcases h.connecting hmem with hs | hs <;> exact ⟨by simp [hs], by simp [hs]⟩
  have hcalm := herase.calm hidle
  rw [handleConnect]
  by_cases hec : ec = .success
  · rw [if_neg (fun hne => hne hec)]
    have hlive : aborted = false := by
      rw [← Bool.not_eq_true]
      intro haborted
      have hab : ec = .aborted := hends.mpr haborted
      rw [hec] at hab
      cases hab
    subst hlive
    have hc : (s.ops.erase ⟨.connect, false⟩).count ⟨.connect, false⟩ = 0 := by
      rw [List.count_erase_self]
      have := (h.calm hidle).connects
      omega
    refine inv_writeMsg ⟨hcalm.safe, hcalm.order, hcalm.bound, ?_, ?_, ?_, hcalm.wrote,
      hcalm.replied⟩ rfl ?_
    · show (Pending.start (s.ops.erase _) .read).count _ ≤ 1
      rw [Pending.count_start, hc, if_neg (by intro h; cases h)]
      exact Nat.zero_le _
    · exact (Pending.only_start_not rfl).trans hcalm.writes
    · exact (Pending.only_start_not rfl).trans hcalm.replies
    · show (Pending.start (s.ops.erase _) .read).count _ = 0
      rw [Pending.count_start, hc, if_neg (by intro h; cases h)]
  · rw [if_pos hec]
    exact ⟨hcalm.safe, hcalm.order, hcalm.bound, hcalm.connects, hcalm.writes, hcalm.replies,
      hcalm.wrote, hcalm.replied⟩

theorem inv_handleRead (h : Inv s) {o : Op Kind} {ec : Outcome} (hk : o.kind = .read)
    (hok : ec ≠ .success → Idle s) : Inv (handleRead { s with ops := s.ops.erase o } ec) := by
  have herase := inv_erase h (o := o) (by rw [hk]; rfl) (by rw [hk]; rfl)
  rw [handleRead]
  by_cases hec : ec = .success
  · rw [if_neg (fun hne => hne hec)]
    refine inv_ops herase (Pending.only_start_not rfl) (Pending.only_start_not rfl) ?_
    rw [Pending.count_start, if_neg (by intro h; cases h)]
    exact Nat.le_refl _
  · rw [if_pos hec]
    exact inv_connect (herase.calm (hok hec))

/-- The message in front has been answered, or need not be. -/
theorem inv_handleReply {c : Option Conn} {msg : Nat} {bufs : List (Option Conn × Nat)}
    (hsafe : s.fault = false) (horder : (journal s).Pairwise (· < ·))
    (hbound : ∀ msg ∈ journal s, msg < s.taken)
    (hc : s.ops.count ⟨.connect, false⟩ = 0) (hbufs : s.bufs = (c, msg) :: bufs)
    (hwrote : s.wrote = s.popped ++ [msg]) (hwrites : s.ops.only Kind.isWrite = [])
    (hreplies : s.ops.only Kind.isReply = [])
    (hreplied : (s.replied.map Prod.snd).Sublist s.wrote) : Inv s.handleReply := by
  have hcalm := calm_popFront (s := { s with stage := .ready }) hsafe horder hbound hc hbufs hwrote
    hwrites hreplies hreplied
  have hpop : popFront { s with stage := .ready } =
      { s with stage := .ready, bufs := bufs, popped := s.popped ++ [msg] } := by
    rw [popFront, hbufs]
  rw [handleReply]
  refine inv_writeMsg hcalm ?_ ?_
  · rw [hpop]
  · rw [hpop]
    exact hc

theorem inv_handleWrite (h : Inv s) {msg : Nat} {aborted : Bool} {ec : Outcome}
    (hmem : ⟨.write msg, aborted⟩ ∈ s.ops) (hends : Op.Ends (⟨.write msg, aborted⟩ : Op Kind) ec) :
    Inv (handleWrite { s with ops := s.ops.erase ⟨.write msg, aborted⟩ } ec) := by
  have hstage : s.stage = .writing := by
    rw [h.sound.writing]
    exact List.ne_nil_of_mem (Pending.mem_only.mpr ⟨hmem, rfl⟩)
  obtain ⟨hsafe, horder, hbound, hc, ⟨c, front, bufs, hbufs, hwrote, hwrites, hreplies⟩, hreplied⟩ :=
    h.writing hstage
  have hone := Pending.mem_only.mpr ⟨hmem, show Kind.isWrite (.write msg) = true from rfl⟩
  rw [hwrites, List.mem_singleton] at hone
  obtain ⟨hmsg, rfl⟩ := Op.mk.inj hone
  obtain rfl := Kind.write.inj hmsg
  have hec : ec ≠ .aborted := fun h' => Bool.false_ne_true (hends.mp h')
  have hwrites' : Pending.only (s.ops.erase ⟨.write msg, false⟩) Kind.isWrite = [] := by
    rw [Pending.only_erase, hwrites]
    exact List.erase_cons_head _ _
  have hreplies' : Pending.only (s.ops.erase ⟨.write msg, false⟩) Kind.isReply = [] :=
    (Pending.only_erase_not rfl).trans hreplies
  have hc' : (s.ops.erase ⟨.write msg, false⟩).count ⟨.connect, false⟩ = 0 :=
    Nat.le_zero.mp (hc ▸ List.erase_sublist.count_le _)
  have hreplied' : ((s.replied.map Prod.snd) ++ [msg]).Sublist s.wrote := by
    rw [hwrote]
    exact hreplied.append (List.Sublist.refl _)
  rw [handleWrite]
  simp only [hbufs, if_neg hec]
  rw [journal, hbufs] at horder hbound
  cases c with
  | none =>
    show Inv (handleReply _)
    exact inv_handleReply hsafe horder hbound hc' rfl hwrote hwrites' hreplies'
      ((List.sublist_append_left _ _).trans hreplied')
  | some c =>
    show Busy _ _ _ _
    refine ⟨hsafe, horder, hbound, ?_, ⟨some c, msg, bufs, rfl, hwrote, ?_, c, ?_⟩, ?_⟩
    · rw [Pending.count_start, hc', if_neg (by intro h; cases h)]
    · exact (Pending.only_start_not rfl).trans hwrites'
    · rw [Pending.only_start_of rfl, hreplies']
      rfl
    · rw [List.map_append]
      exact hreplied'

theorem inv_done_reply (h : Inv s) {c : Conn} {msg : Nat} {aborted : Bool}
    (hmem : ⟨.reply c msg, aborted⟩ ∈ s.ops) :
    Inv (handleReply { s with ops := s.ops.erase ⟨.reply c msg, aborted⟩ }) := by
  have hin := Pending.mem_only.mpr ⟨hmem, show Kind.isReply (.reply c msg) = true from rfl⟩
  have hstage := h.replying_of_mem hin
  obtain ⟨hsafe, horder, hbound, hc, ⟨c', front, bufs, hbufs, hwrote, hwrites, c'', hreplies⟩, hreplied⟩ :=
    h.replying hstage
  rw [hreplies, List.mem_singleton] at hin
  rw [hin]
  refine inv_handleReply hsafe horder hbound (Nat.le_zero.mp (hc ▸ List.erase_sublist.count_le _))
    hbufs hwrote ((Pending.only_erase_not rfl).trans hwrites) ?_ hreplied
  show Pending.only (s.ops.erase _) Kind.isReply = []
  rw [Pending.only_erase, hreplies]
  exact List.erase_cons_head _ _

theorem inv_step {ev : Event} (h : Inv s) (hok : Ok s ev) (hstep : Step s ev t) : Inv t := by
  obtain ⟨hen, rfl⟩ := hstep
  cases ev with
  | message c => exact inv_pushmsg h c
  | abort c => exact inv_abort h c
  | done o ec =>
    obtain ⟨_, hmem, hends⟩ := hen
    obtain ⟨kind, aborted⟩ := o
    cases kind with
    | connect => exact inv_handleConnect h hmem hends hok
    | read => exact inv_handleRead h rfl hok
    | write msg => exact inv_handleWrite h hmem hends
    | reply c msg => exact inv_done_reply h hmem

theorem inv_init : Inv init := by
  apply inv_connect
  constructor
  · rfl
  · exact List.Pairwise.nil
  · intro msg hmsg
    cases hmsg
  · exact Nat.zero_le _
  · rfl
  · rfl
  · rfl
  · exact List.Sublist.refl _

theorem inv_run {evs : List Event} (h : Run (Guarded Ok Step) init evs s) : Inv s :=
  h.invariant (P := Inv) (fun _ _ _ hs hstep => inv_step hs hstep.1 hstep.2) inv_init

/-! ## A handler of an old socket in between -/

/-- With a reply outstanding while the socket is not connected, the next message
connects, and the end of the reply starts a write on that socket. -/
theorem broken_of_reply {c : Conn} {msg : Nat} {e : Option Conn × Nat}
    {bufs : List (Option Conn × Nat)} (hsafe : s.fault = false)
    (hstage : s.stage = .zero ∨ s.stage = .connecting) (hbufs : s.bufs = e :: bufs)
    (hmem : ⟨.reply c msg, false⟩ ∈ s.ops) : ∃ evs u, Run Step s evs u ∧ ¬Sound u := by
  have hpush : s.pushmsg c =
      connect { s with bufs := s.bufs ++ [(some c, s.taken)], taken := s.taken + 1 } := by
    rw [pushmsg]
    rcases hstage with hs | hs <;> simp only [hs]
  have hmem' : ⟨.reply c msg, false⟩ ∈ (s.pushmsg c).ops := by
    rw [hpush]
    exact Pending.mem_start.mpr (.inl (Pending.mem_close rfl hmem))
  have hconnect : ⟨.connect, false⟩ ∈ (s.pushmsg c).ops := by
    rw [hpush]
    exact Pending.mem_start.mpr (.inr rfl)
  have hsafe' : (s.pushmsg c).fault = false := by
    rw [hpush]
    exact hsafe
  have hmessage : Step s (.message c) (s.pushmsg c) := ⟨hsafe, rfl⟩
  have hdone : Step (s.pushmsg c) (.done ⟨.reply c msg, false⟩ .success) _ :=
    ⟨⟨hsafe', hmem', Op.ends_live (by intro h; cases h)⟩, rfl⟩
  refine ⟨_, _, (Run.single hmessage).snoc hdone, fun hsound => ?_⟩
  obtain ⟨c', next, rest, hrest⟩ : ∃ c' next rest,
      bufs ++ [(some c, s.taken)] = (c', next) :: rest := by
    cases bufs with
    | nil => exact ⟨some c, s.taken, [], rfl⟩
    | cons x bufs => exact ⟨x.1, x.2, bufs ++ [(some c, s.taken)], rfl⟩
  have hcons : (s.pushmsg c).bufs = e :: (c', next) :: rest := by
    rw [hpush, ← hrest]
    show s.bufs ++ [(some c, s.taken)] = _
    rw [hbufs]
    rfl
  have hnot := hsound.notConnecting next
  change ⟨.write next, false⟩ ∈ (handleReply _).ops → ⟨.connect, false⟩ ∉ (handleReply _).ops at hnot
  rw [handleReply, popFront] at hnot
  simp only [hcons] at hnot
  rw [writeMsg_cons rfl rfl] at hnot
  refine hnot (Pending.mem_start.mpr (.inr rfl)) (Pending.mem_start.mpr (.inl ?_))
  exact (List.mem_erase_of_ne (by intro h; cases h)).mpr hconnect

/-- A handler moves the stage away from a write or a reply that goes on. -/
theorem broken_of_stage (h : Inv s) (hidle : ¬Idle s)
    (hstage : t.stage = .zero ∨ t.stage = .connecting) (hfault : t.fault = s.fault)
    (hbufs : t.bufs = s.bufs)
    (hwrites : ∀ msg, ⟨.write msg, false⟩ ∈ s.ops → ∃ a, ⟨.write msg, a⟩ ∈ t.ops)
    (hreplies : ∀ c msg, ⟨.reply c msg, false⟩ ∈ s.ops → ⟨.reply c msg, false⟩ ∈ t.ops) :
    ∃ evs u, Run Step t evs u ∧ ¬Sound u := by
  by_cases hw : s.stage = .writing
  · refine ⟨[], t, .nil, fun hsound => ?_⟩
    obtain ⟨_, msg, _, _, _, hone, _⟩ := (h.writing hw).front
    have hmem : (⟨.write msg, false⟩ : Op Kind) ∈ s.ops.only Kind.isWrite := by
      rw [hone]
      exact List.mem_singleton.mpr rfl
    obtain ⟨a, ha⟩ := hwrites msg (Pending.mem_only.mp hmem).1
    have hwriting := hsound.writing.mpr (List.ne_nil_of_mem (Pending.mem_only.mpr ⟨ha, rfl⟩))
    rcases hstage with hs | hs <;> rw [hs] at hwriting <;> cases hwriting
  · have hr : s.stage = .replying := by
      by_contra hr
      exact hidle ⟨hw, hr⟩
    have hbusy := h.replying hr
    obtain ⟨c, msg, bufs, hfront, _, _, c', hone⟩ := hbusy.front
    have hmem : (⟨.reply c' msg, false⟩ : Op Kind) ∈ s.ops.only Kind.isReply := by
      rw [hone]
      exact List.mem_singleton.mpr rfl
    exact broken_of_reply (hfault.trans hbusy.safe) hstage (hbufs.trans hfront)
      (hreplies c' msg (Pending.mem_only.mp hmem).1)

theorem broken_of_not_ok {ev : Event} (h : Inv s) (hok : ¬Ok s ev) (hstep : Step s ev t) :
    ∃ evs u, Run Step t evs u ∧ ¬Sound u := by
  obtain ⟨hen, rfl⟩ := hstep
  cases ev with
  | message c => exact absurd trivial hok
  | abort c => exact absurd trivial hok
  | done o ec =>
    obtain ⟨_, _, hends⟩ := hen
    obtain ⟨kind, aborted⟩ := o
    have hother : ∀ {k : Kind}, k ≠ kind → ⟨k, false⟩ ∈ s.ops →
        ⟨k, false⟩ ∈ s.ops.erase ⟨kind, aborted⟩ := fun hk hmem =>
      (List.mem_erase_of_ne fun h => hk (Op.mk.inj h).1).mpr hmem
    cases kind with
    | connect =>
      change ¬(aborted = true → Idle s) at hok
      rw [Classical.not_imp] at hok
      obtain ⟨rfl, hidle⟩ := hok
      have hec : ec ≠ .success := fun h' => by
        have hab := hends.mpr rfl
        rw [h'] at hab
        cases hab
      change ∃ evs u, Run Step (handleConnect _ ec) evs u ∧ _
      rw [handleConnect, if_pos hec]
      exact broken_of_stage h hidle (.inl rfl) rfl rfl
        (fun msg hw => ⟨false, hother (by intro h; cases h) hw⟩)
        (fun c msg hr => hother (by intro h; cases h) hr)
    | read =>
      change ¬(ec ≠ .success → Idle s) at hok
      rw [Classical.not_imp] at hok
      obtain ⟨hec, hidle⟩ := hok
      change ∃ evs u, Run Step (handleRead _ ec) evs u ∧ _
      rw [handleRead, if_pos hec]
      refine broken_of_stage h hidle (.inr rfl) rfl rfl (fun msg hw => ⟨true, ?_⟩) fun c msg hr => ?_
      · exact Pending.mem_start.mpr (.inl (List.mem_map.mpr
          ⟨⟨.write msg, false⟩, hother (by intro h; cases h) hw, rfl⟩))
      · exact Pending.mem_start.mpr (.inl (Pending.mem_close rfl (hother (by intro h; cases h) hr)))
    | write msg => exact absurd trivial hok
    | reply c msg => exact absurd trivial hok

/-! ## The main result -/

/-- As long as no read fails and no aborted connect ends while a message is being
written or answered, there is one write at a time, in order; when one does, some
run goes on to a state where this no longer holds. -/
theorem machine_sound {evs : List Event} (h : Run (Guarded Ok Step) init evs s) :
    Sound s ∧ ∀ ev t, Step s ev t → ¬Ok s ev → ∃ evs' u, Run Step t evs' u ∧ ¬Sound u := by
  have hinv := inv_run h
  constructor
  · exact hinv.sound
  · intro ev t hstep hok
    exact broken_of_not_ok hinv hok hstep

instance (s : ApplePush) : ∀ ev, Decidable (Ok s ev)
  | .done ⟨.read, _⟩ _ => inferInstanceAs (Decidable (_ ≠ _ → _ ∧ _))
  | .done ⟨.connect, _⟩ _ => inferInstanceAs (Decidable (_ = _ → _ ∧ _))
  | .message _ => .isTrue trivial
  | .abort _ => .isTrue trivial
  | .done ⟨.write _, _⟩ _ => .isTrue trivial
  | .done ⟨.reply _ _, _⟩ _ => .isTrue trivial

/-- Two messages, of which the first is written and answered. -/
def served : List Event :=
  [.done ⟨.connect, false⟩ .success, .message 7, .message 8, .done ⟨.write 0, false⟩ .success,
    .done ⟨.reply 7 0, false⟩ .success]

theorem machine_sound_served : Sound (served.foldl ApplePush.next init) :=
  (machine_sound (Run.plays_guarded (by decide))).1

/-- The socket is lost while a message is written. The aborted write makes the stage
ready, so that the next message starts a write on the socket that connects, and the
end of the connect starts a second one. -/
def reconnected : List Event :=
  [.done ⟨.connect, false⟩ .success, .message 7, .done ⟨.read, false⟩ .failed,
    .done ⟨.write 0, true⟩ .aborted, .message 8]

theorem sound_broken :
    (∃ s, Run Step init reconnected s ∧ ⟨.write 0, false⟩ ∈ s.ops ∧ ⟨.connect, false⟩ ∈ s.ops) ∧
    ∃ s, Run Step init (reconnected ++ [.done ⟨.connect, false⟩ .success]) s ∧ ¬Sound s ∧
      (s.ops.only Kind.isWrite).length = 2 ∧ s.wrote = [0, 0, 0] := by
  constructor
  · exact ⟨_, Run.plays (by decide), by decide, by decide⟩
  · refine ⟨_, Run.plays (by decide), fun h => ?_, by decide, by decide⟩
    exact absurd h.oneWrite (by decide)

end CppSnippets.Relay.WriteOrder
