import CppSnippets.PushProxy.Upstream

/-!
# When the push proxy writes

No handler makes the stage idle after a handshake: only the end of a write does,
and a write starts only in the idle stage. A proxy that has no write outstanding
when it connects never writes anything.
-/
namespace CppSnippets.PushProxy.Stuck

open CppSnippets.Lib ApplePush
open CppSnippets.Push

variable {s t : ApplePush}

/-- A connected client has a message in its queue. -/
def Waiting (s : ApplePush) : Prop := ∃ d ∈ s.bufs, d.connected = true ∧ d.data ≠ []

/-- A write is outstanding, and the stage says so. -/
def Writing (s : ApplePush) : Prop :=
  s.stage = .writing ∧ ∃ c msg, ⟨.write c msg, false⟩ ∈ s.ops

/-- After a handshake, what waits is being written. -/
def NeverStuck (s : ApplePush) : Prop := s.secure = true → Waiting s → Writing s

def FrontConnected (s : ApplePush) : Prop := (s.bufs.head?.all fun d => d.connected) = true

/-- After a handshake messages come only in the idle or the writing stage, a handshake
succeeds only in these stages or with nothing waiting, and a write of an old socket
whose client is connected ends after a handshake only with nothing waiting. -/
def Ok (s : ApplePush) : Event → Prop
  | .message _ => s.secure = true → s.stage = .idle ∨ s.stage = .writing
  | .done ⟨.handshake, _⟩ ec => ec = .success → Waiting s → s.stage = .idle ∨ s.stage = .writing
  | .done ⟨.write _ _, _⟩ ec => ec = .aborted → FrontConnected s → s.secure = true → ¬Waiting s
  | _ => True

/-! ## The invariant -/

structure Inv (s : ApplePush) : Prop where
  writing : s.stage = .writing → Writing s
  link : (s.ops.only Kind.isLink).length ≤ 1
  notSecure : s.secure = true → ∀ a, ⟨.connect, a⟩ ∉ s.ops ∧ ⟨.handshake, a⟩ ∉ s.ops
  gone : ∀ d ∈ s.bufs, d.connected = false → d.client ∈ s.gone

/-- Where `connect` can be called. -/
structure Start (s : ApplePush) : Prop where
  link : s.ops.only Kind.isLink = []
  gone : ∀ d ∈ s.bufs, d.connected = false → d.client ∈ s.gone

theorem inv_connect (h : Start s) : Inv s.connect := by
  constructor
  · intro hstage
    cases hstage
  · exact Pending.only_start_first rfl (Pending.only_close_nil h.link)
  · intro hsecure
    cases hsecure
  · exact h.gone

theorem notStuck_connect : NeverStuck s.connect := by
  intro hsecure
  cases hsecure

/-- `write_msg` leaves nothing in the list that was not there. -/
theorem mem_splice_filter {bufs : List PushData} {d : PushData} :
    d ∈ splice (bufs.filter fun d => d.connected) ↔ d ∈ bufs ∧ d.connected = true := by
  rw [(splice_perm _).mem_iff, List.mem_filter]

theorem writeMsg_waiting (h : Waiting s.writeMsg) : Waiting s := by
  rw [writeMsg] at h
  by_cases hskip : s.stage ≠ .idle ∨ s.bufs = []
  · rwa [if_pos hskip] at h
  · rw [if_neg hskip] at h
    obtain ⟨d, hd, hc, hdata⟩ := h
    have hmem : d ∈ splice (s.bufs.filter fun d => d.connected) := by
      rw [writeFront] at hd
      split at hd
      · exact hd
      · split at hd <;> exact hd
    exact ⟨d, (mem_splice_filter.mp hmem).1, hc, hdata⟩

/-- What waits in the idle stage is written. -/
theorem writeMsg_writing (hstage : s.stage = .idle) (h : Waiting s) :
    s.writeMsg.stage = .writing ∧ ∃ c msg, s.writeMsg.ops = s.ops.start (.write c msg) := by
  obtain ⟨x, hx, hconn, hdata⟩ := h
  have hmem := mem_splice_filter.mpr ⟨hx, hconn⟩
  have hskip : ¬(s.stage ≠ .idle ∨ s.bufs = []) := by
    rintro (h | h)
    · exact h hstage
    · rw [h] at hx
      cases hx
  rw [writeMsg, if_neg hskip]
  cases hbufs : splice (s.bufs.filter fun d => d.connected) with
  | nil =>
    rw [hbufs] at hmem
    cases hmem
  | cons d rest =>
    rw [writeFront]
    dsimp only
    cases hd : d.data with
    | nil => exact absurd (splice_front hbufs hd x (List.mem_filter.mpr ⟨hx, hconn⟩)) hdata
    | cons msg data => exact ⟨rfl, d.client, msg, rfl⟩

/-- `write_msg` starts at most a write, and drops disconnected clients only. -/
theorem writeMsg_frame : s.writeMsg.secure = s.secure ∧ s.writeMsg.gone = s.gone ∧
    (∀ d ∈ s.writeMsg.bufs, d ∈ s.bufs) ∧
    ((s.writeMsg.stage = s.stage ∧ s.writeMsg.ops = s.ops) ∨
      s.writeMsg.stage = .writing ∧ ∃ c msg, s.writeMsg.ops = s.ops.start (.write c msg)) := by
  have hmem : ∀ d ∈ splice (s.bufs.filter fun d => d.connected), d ∈ s.bufs :=
    fun d hd => (mem_splice_filter.mp hd).1
  rw [writeMsg]
  split
  · exact ⟨rfl, rfl, fun _ hd => hd, .inl ⟨rfl, rfl⟩⟩
  · rw [writeFront]
    split
    · exact ⟨rfl, rfl, hmem, .inl ⟨rfl, rfl⟩⟩
    · split
      · exact ⟨rfl, rfl, hmem, .inl ⟨rfl, rfl⟩⟩
      · exact ⟨rfl, rfl, hmem, .inr ⟨rfl, _, _, rfl⟩⟩

theorem inv_writeMsg (h : Inv s) : Inv s.writeMsg := by
  obtain ⟨hsecure, hgone, hbufs, hcase⟩ := writeMsg_frame (s := s)
  have hgone' : ∀ d ∈ s.writeMsg.bufs, d.connected = false → d.client ∈ s.writeMsg.gone := by
    intro d hd hconn
    rw [hgone]
    exact h.gone d (hbufs d hd) hconn
  rcases hcase with ⟨hstage, hops⟩ | ⟨hstage, c, msg, hops⟩
  · refine ⟨?_, ?_, ?_, hgone'⟩
    · intro hw
      rw [hstage] at hw
      obtain ⟨_, c, msg, hmem⟩ := h.writing hw
      exact ⟨hstage.trans hw, c, msg, hops ▸ hmem⟩
    · rw [hops]
      exact h.link
    · rw [hsecure, hops]
      exact h.notSecure
  · refine ⟨?_, ?_, ?_, hgone'⟩
    · intro _
      exact ⟨hstage, c, msg, hops ▸ Pending.mem_start.mpr (.inr rfl)⟩
    · rw [hops, Pending.only_start_not rfl]
      exact h.link
    · rw [hsecure, hops]
      intro hs a
      constructor <;> intro hmem
      · rcases Pending.mem_start.mp hmem with hmem | heq
        · exact (h.notSecure hs a).1 hmem
        · cases heq
      · rcases Pending.mem_start.mp hmem with hmem | heq
        · exact (h.notSecure hs a).2 hmem
        · cases heq

/-- In the idle or the writing stage, nothing waits that is not being written. -/
theorem notStuck_writeMsg (h : Inv s) (hstage : Waiting s → s.stage = .idle ∨ s.stage = .writing) :
    NeverStuck s.writeMsg := by
  intro _ hwaiting
  have hw := writeMsg_waiting hwaiting
  rcases hstage hw with hidle | hwriting
  · obtain ⟨hs, c, msg, hops⟩ := writeMsg_writing hidle hw
    exact ⟨hs, c, msg, hops ▸ Pending.mem_start.mpr (.inr rfl)⟩
  · have hsame : s.writeMsg = s := by
      rw [writeMsg, if_pos (.inl (by simp [hwriting]))]
    rw [hsame]
    exact h.writing hwriting

/-! ## What the handlers do -/

theorem gone_post {c : Client} {msg : Nat} {bufs : List PushData} {gone : List Client}
    (h : ∀ d ∈ bufs, d.connected = false → d.client ∈ gone) :
    ∀ d ∈ post c msg bufs, d.connected = false → d.client ∈ gone := by
  induction bufs with
  | nil =>
    intro d hd hconn
    rw [List.mem_singleton.mp hd] at hconn
    cases hconn
  | cons x bufs ih =>
    obtain ⟨hx, hrest⟩ := List.forall_mem_cons.mp h
    rw [post]
    by_cases hc : x.client = c
    · rw [if_pos hc]
      exact List.forall_mem_cons.mpr ⟨hx, hrest⟩
    · rw [if_neg hc]
      exact List.forall_mem_cons.mpr ⟨hx, ih hrest⟩

theorem gone_hangUp {c : Client} {bufs : List PushData} {gone : List Client}
    (h : ∀ d ∈ bufs, d.connected = false → d.client ∈ gone) :
    ∀ d ∈ hangUp c bufs, d.connected = false → d.client ∈ c :: gone := by
  intro d hd hconn
  rcases mem_hangUp hd with ⟨x, hx, hclient, _, hsame | ⟨hc, _⟩⟩ | ⟨_, rfl⟩
  · rw [hclient]
    exact List.mem_cons_of_mem _ (h x hx (hsame.symm.trans hconn))
  · exact List.mem_cons.mpr (.inl hc)
  · exact List.mem_cons_self

/-- A client that hangs up does not wait any more, and makes no other wait. -/
theorem hangUp_waiting {c : Client} {bufs : List PushData}
    (h : ∃ d ∈ hangUp c bufs, d.connected = true ∧ d.data ≠ []) :
    ∃ d ∈ bufs, d.connected = true ∧ d.data ≠ [] := by
  obtain ⟨d, hd, hconn, hdata⟩ := h
  rcases mem_hangUp hd with ⟨x, hx, _, hsame, hconn' | ⟨_, hconn'⟩⟩ | ⟨_, rfl⟩
  · exact ⟨x, hx, hconn'.symm.trans hconn, hsame ▸ hdata⟩
  · rw [hconn'] at hconn
    cases hconn
  · cases hconn

/-- A client that posts waits, unless it has hung up. -/
theorem post_waiting {c : Client} {msg : Nat} {bufs : List PushData} {gone : List Client}
    (h : ∀ d ∈ bufs, d.connected = false → d.client ∈ gone) (hc : c ∉ gone) :
    ∃ d ∈ post c msg bufs, d.connected = true ∧ d.data ≠ [] := by
  induction bufs with
  | nil => exact ⟨⟨c, true, [msg]⟩, List.mem_cons_self, rfl, List.cons_ne_nil _ _⟩
  | cons x bufs ih =>
    obtain ⟨hx, hrest⟩ := List.forall_mem_cons.mp h
    rw [post]
    by_cases hxc : x.client = c
    · rw [if_pos hxc]
      refine ⟨_, List.mem_cons_self, ?_, by simp⟩
      show x.connected = true
      by_contra hconn
      exact hc (hxc ▸ hx (Bool.eq_false_iff.mpr hconn))
    · rw [if_neg hxc]
      obtain ⟨d, hd, hd'⟩ := ih hrest
      exact ⟨d, List.mem_cons_of_mem _ hd, hd'⟩

theorem link_erase (h : Inv s) {o : Op Kind} (hmem : o ∈ s.ops) (ho : o.kind.isLink = true) :
    Pending.only (s.ops.erase o) Kind.isLink = [] := Pending.only_erase_last hmem ho h.link

/-- The writes go on. -/
theorem writing_erase (h : Inv s) {o : Op Kind} (ho : o.kind.isLink = true)
    (hstage : s.stage = .writing) : Writing { s with ops := s.ops.erase o } := by
  obtain ⟨_, c, msg, hmem⟩ := h.writing hstage
  refine ⟨hstage, c, msg, (List.mem_erase_of_ne ?_).mpr hmem⟩
  rintro rfl
  cases ho

/-- What holds before and after every step. -/
structure Good (s : ApplePush) : Prop extends Inv s where
  notStuck : NeverStuck s

theorem good_connect (h : Start s) : Good s.connect := ⟨inv_connect h, notStuck_connect⟩

theorem good_pmessage (h : Good s) (c : Client) (hok : Ok s (.message c)) : Good (s.pmessage c) := by
  rw [pmessage]
  dsimp only
  have hinv : Inv { s with
      bufs := post c s.taken s.bufs, taken := s.taken + 1
      replies := Function.update s.replies c
        { s.replies c with posted := (s.replies c).posted ++ [s.taken] } } :=
    ⟨h.writing, h.link, h.notSecure, gone_post h.gone⟩
  by_cases hstage : s.stage = .idle
  · rw [if_pos hstage]
    exact ⟨inv_writeMsg hinv, notStuck_writeMsg hinv fun _ => .inl hstage⟩
  · rw [if_neg hstage]
    exact ⟨hinv, fun hsecure _ => h.writing ((hok hsecure).resolve_left hstage)⟩

theorem good_disconnect (h : Good s) (c : Client) : Good (s.disconnect c) := by
  rw [disconnect]
  by_cases hc : c ∈ s.gone
  · rw [if_pos hc]
    exact h
  · rw [if_neg hc]
    exact ⟨⟨h.writing, h.link, h.notSecure, gone_hangUp h.gone⟩,
      fun hsecure hwaiting => h.notStuck hsecure (hangUp_waiting hwaiting)⟩

theorem good_handleConnect (h : Good s) {aborted : Bool} {ec : Outcome}
    (hmem : ⟨.connect, aborted⟩ ∈ s.ops) :
    Good (handleConnect { s with ops := s.ops.erase ⟨.connect, aborted⟩ } ec) := by
  have hlink := link_erase h.toInv hmem rfl
  have hsecure : s.secure ≠ true := fun hs => (h.notSecure hs aborted).1 hmem
  rw [handleConnect]
  by_cases hec : ec = .success
  · rw [if_neg (fun hne => hne hec)]
    refine ⟨⟨?_, ?_, fun hs => absurd hs hsecure, h.gone⟩, fun hs => absurd hs hsecure⟩
    · intro hstage
      cases hstage
    · exact Pending.only_start_first rfl hlink
  · rw [if_pos hec]
    exact good_connect ⟨hlink, h.gone⟩

theorem good_handleHandshake (h : Good s) {aborted : Bool} {ec : Outcome}
    (hmem : ⟨.handshake, aborted⟩ ∈ s.ops)
    (hok : ec = .success → Waiting s → s.stage = .idle ∨ s.stage = .writing) :
    Good (handleHandshake { s with ops := s.ops.erase ⟨.handshake, aborted⟩ } ec) := by
  have hlink := link_erase h.toInv hmem rfl
  have hsecure : s.secure ≠ true := fun hs => (h.notSecure hs aborted).2 hmem
  rw [handleHandshake]
  by_cases hec : ec = .success
  · rw [if_neg (fun hne => hne hec)]
    have hinv : Inv { s with
        secure := true, ops := Pending.start (s.ops.erase ⟨.handshake, aborted⟩) .read } := by
      refine ⟨fun hstage => ?_, ?_, fun _ a => ⟨fun ha => ?_, fun ha => ?_⟩, h.gone⟩
      · obtain ⟨hs, c, msg, hw⟩ := writing_erase h.toInv (o := ⟨.handshake, aborted⟩) rfl hstage
        exact ⟨hs, c, msg, Pending.mem_start.mpr (.inl hw)⟩
      · exact Pending.only_start_first rfl hlink
      · rcases Pending.mem_start.mp ha with ha | ha
        · exact Pending.not_mem_of_only_nil hlink rfl ha
        · cases ha
      · rcases Pending.mem_start.mp ha with ha | ha
        · exact Pending.not_mem_of_only_nil hlink rfl ha
        · cases ha
    exact ⟨inv_writeMsg hinv, notStuck_writeMsg hinv (hok hec)⟩
  · rw [if_pos hec]
    refine ⟨⟨writing_erase h.toInv rfl, ?_, fun hs => absurd hs hsecure, h.gone⟩,
      fun hs => absurd hs hsecure⟩
    rw [hlink]
    exact Nat.zero_le _

theorem good_handleRead (h : Good s) {aborted : Bool} {ec : Outcome}
    (hmem : ⟨.read, aborted⟩ ∈ s.ops) :
    Good (handleRead { s with ops := s.ops.erase ⟨.read, aborted⟩ } ec) := by
  have hlink := link_erase h.toInv hmem rfl
  rw [handleRead]
  by_cases hec : ec = .success
  · rw [if_neg (fun hne => hne hec)]
    have hkeep : Writing s → Writing { s with
        ops := Pending.start (s.ops.erase ⟨.read, aborted⟩) .read } := fun hw => by
      obtain ⟨hs, c, msg, hmem'⟩ := writing_erase h.toInv (o := ⟨.read, aborted⟩) rfl hw.1
      exact ⟨hs, c, msg, Pending.mem_start.mpr (.inl hmem')⟩
    refine ⟨⟨fun hstage => hkeep (h.writing hstage), ?_, fun _ a => ⟨fun ha => ?_, fun ha => ?_⟩,
      h.gone⟩, fun hs hw => hkeep (h.notStuck hs hw)⟩
    · exact Pending.only_start_first rfl hlink
    · rcases Pending.mem_start.mp ha with ha | ha
      · exact Pending.not_mem_of_only_nil hlink rfl ha
      · cases ha
    · rcases Pending.mem_start.mp ha with ha | ha
      · exact Pending.not_mem_of_only_nil hlink rfl ha
      · cases ha
  · rw [if_pos hec]
    exact good_connect ⟨hlink, h.gone⟩

/-- The state in which `handle_write` looks at the list. -/
theorem inv_idle (h : Good s) {o : Op Kind} (ho : o.kind.isLink = false) :
    Inv { s with ops := s.ops.erase o, stage := .idle } := by
  refine ⟨fun hstage => ?_, ?_, fun hs a => ⟨fun ha => ?_, fun ha => ?_⟩, h.gone⟩
  · cases hstage
  · rw [Pending.only_erase_not ho]
    exact h.link
  · exact (h.notSecure hs a).1 (List.erase_subset ha)
  · exact (h.notSecure hs a).2 (List.erase_subset ha)

theorem inv_relayBack (h : Inv s) (c : Client) (msg : Nat) (ec : Outcome) :
    Inv (s.relayBack c msg ec) ∧ (s.relayBack c msg ec).stage = s.stage := by
  rw [relayBack]
  split
  · rename_i target connected front data bufs hbufs
    refine ⟨⟨h.writing, h.link, h.notSecure, fun d hd hconn => ?_⟩, rfl⟩
    have hgone := h.gone
    rw [hbufs] at hgone
    obtain ⟨hfront, hrest⟩ := List.forall_mem_cons.mp hgone
    rcases List.mem_append.mp hd with hd | hd
    · exact hrest d hd hconn
    · rw [List.mem_singleton.mp hd] at hconn ⊢
      exact hfront hconn
  · exact ⟨⟨h.writing, h.link, h.notSecure, h.gone⟩, rfl⟩

theorem good_handleWrite (h : Good s) {c : Client} {msg : Nat} {aborted : Bool} {ec : Outcome}
    (hok : ec = .aborted → FrontConnected s → s.secure = true → ¬Waiting s) :
    Good (handleWrite { s with ops := s.ops.erase ⟨.write c msg, aborted⟩ } c msg ec) := by
  have hidle := inv_idle h (o := ⟨.write c msg, aborted⟩) rfl
  rw [handleWrite]
  dsimp only
  split
  · rename_i hbufs
    refine ⟨hidle, fun _ hwaiting => ?_⟩
    obtain ⟨d, hd, _⟩ := hwaiting
    change d ∈ s.bufs at hd
    rw [hbufs] at hd
    cases hd
  · rename_i d bufs hbufs
    change s.bufs = d :: bufs at hbufs
    by_cases hd : d.connected = false
    · rw [if_pos hd]
      have hrest : Inv { s with
          ops := s.ops.erase ⟨.write c msg, aborted⟩, stage := .idle, bufs := bufs } :=
        ⟨hidle.writing, hidle.link, hidle.notSecure,
          fun x hx => h.gone x (by rw [hbufs]; exact List.mem_cons_of_mem _ hx)⟩
      exact ⟨inv_writeMsg hrest, notStuck_writeMsg hrest fun _ => .inl rfl⟩
    · rw [if_neg hd]
      by_cases hec : ec = .aborted
      · rw [if_pos hec]
        refine ⟨hidle, fun hsecure hwaiting => absurd hwaiting (hok hec ?_ hsecure)⟩
        rw [FrontConnected, hbufs]
        exact (Bool.eq_false_or_eq_true d.connected).resolve_right hd
      · rw [if_neg hec]
        obtain ⟨hinv, hstage⟩ := inv_relayBack hidle c msg ec
        exact ⟨inv_writeMsg hinv, notStuck_writeMsg hinv fun _ => .inl hstage⟩

theorem good_step {ev : Event} (h : Good s) (hok : Ok s ev) (hstep : Step s ev t) : Good t := by
  obtain ⟨hen, rfl⟩ := hstep
  cases ev with
  | connect => exact good_connect ⟨hen.2, h.gone⟩
  | message c => exact good_pmessage h c hok
  | disconnect c => exact good_disconnect h c
  | done o ec =>
    obtain ⟨_, hmem, _⟩ := hen
    obtain ⟨kind, aborted⟩ := o
    cases kind with
    | connect => exact good_handleConnect h hmem
    | handshake => exact good_handleHandshake h hmem hok
    | read => exact good_handleRead h hmem
    | write c msg => exact good_handleWrite h hok
  | perform c => exact ⟨⟨h.writing, h.link, h.notSecure, h.gone⟩, h.notStuck⟩
  | written c => exact ⟨⟨h.writing, h.link, h.notSecure, h.gone⟩, h.notStuck⟩

theorem good_run {evs : List Event} (hs : Start s) (h : Run (Guarded Ok Step) s.connect evs t) :
    Good t :=
  h.invariant (P := Good) (fun _ _ _ hg hstep => good_step hg hstep.1 hstep.2) (good_connect hs)

/-! ## A step that leaves something waiting -/

theorem stuck_of_not_ok {ev : Event} (h : Good s) (hok : ¬Ok s ev) (hstep : Step s ev t) :
    ¬NeverStuck t := by
  obtain ⟨hen, rfl⟩ := hstep
  cases ev with
  | message c =>
    change ¬(s.secure = true → s.stage = .idle ∨ s.stage = .writing) at hok
    rw [Classical.not_imp, not_or] at hok
    obtain ⟨hsecure, hidle, hwriting⟩ := hok
    change ¬NeverStuck (s.pmessage c)
    rw [pmessage]
    dsimp only
    rw [if_neg hidle]
    intro hnot
    exact hwriting (hnot hsecure (post_waiting h.gone hen.2)).1
  | done o ec =>
    obtain ⟨_, hmem, hends⟩ := hen
    obtain ⟨kind, aborted⟩ := o
    cases kind with
    | handshake =>
      change ¬(ec = .success → Waiting s → s.stage = .idle ∨ s.stage = .writing) at hok
      rw [Classical.not_imp, Classical.not_imp, not_or] at hok
      obtain ⟨hec, hwaiting, hidle, hwriting⟩ := hok
      change ¬NeverStuck (handleHandshake _ ec)
      rw [handleHandshake, if_neg (fun hne => hne hec), writeMsg, if_pos (.inl hidle)]
      intro hnot
      exact hwriting (hnot rfl hwaiting).1
    | write c msg =>
      change ¬(ec = .aborted → FrontConnected s → s.secure = true → ¬Waiting s) at hok
      rw [Classical.not_imp, Classical.not_imp, Classical.not_imp, not_not] at hok
      obtain ⟨hec, hfront, hsecure, hwaiting⟩ := hok
      change ¬NeverStuck (handleWrite _ c msg ec)
      rw [handleWrite]
      dsimp only
      obtain ⟨d, hd, hd'⟩ := hwaiting
      split
      · rename_i hbufs
        change s.bufs = [] at hbufs
        rw [hbufs] at hd
        cases hd
      · rename_i x bufs hbufs
        change s.bufs = x :: bufs at hbufs
        rw [FrontConnected, hbufs] at hfront
        have hx : x.connected = true := hfront
        rw [if_neg (by rw [hx]; intro h; cases h), if_pos hec]
        intro hnot
        have hstage := (hnot hsecure ⟨d, hd, hd'⟩).1
        cases hstage
    | connect => exact absurd trivial hok
    | read => exact absurd trivial hok
  | connect => exact absurd trivial hok
  | disconnect c => exact absurd trivial hok
  | perform c => exact absurd trivial hok
  | written c => exact absurd trivial hok

/-! ## The main results -/

/-- Nothing is being written, and the stage does not let anything be. -/
def Silent (s : ApplePush) : Prop :=
  s.ops.only Kind.isWrite = [] ∧ (s.stage = .connecting ∨ s.stage = .handshaking)

theorem silent_connect (h : s.ops.only Kind.isWrite = []) : Silent s.connect :=
  ⟨(Pending.only_start_not rfl).trans (Pending.only_close_nil h), .inl rfl⟩

theorem Silent.not_idle (h : Silent s) : s.stage ≠ .idle := by
  rcases h.2 with hs | hs <;> rw [hs] <;> intro h <;> cases h

theorem Silent.writeMsg (h : Silent s) : s.writeMsg = s := by
  rw [ApplePush.writeMsg, if_pos (.inl h.not_idle)]

theorem silent_step {ev : Event} (h : Silent s) (hstep : Step s ev t) : Silent t := by
  obtain ⟨hen, rfl⟩ := hstep
  obtain ⟨hw, hstage⟩ := h
  cases ev with
  | connect => exact silent_connect hw
  | message c =>
    show Silent (s.pmessage c)
    rw [pmessage]
    dsimp only
    rw [if_neg (Silent.not_idle ⟨hw, hstage⟩)]
    exact ⟨hw, hstage⟩
  | disconnect c =>
    show Silent (s.disconnect c)
    rw [disconnect]
    split <;> exact ⟨hw, hstage⟩
  | done o ec =>
    obtain ⟨_, hmem, _⟩ := hen
    obtain ⟨kind, aborted⟩ := o
    have herase : ∀ k, Kind.isWrite k = false →
        Pending.only (s.ops.erase ⟨k, aborted⟩) Kind.isWrite = [] :=
      fun k hk => (Pending.only_erase_not hk).trans hw
    cases kind with
    | connect =>
      show Silent (handleConnect _ ec)
      rw [handleConnect]
      split
      · exact silent_connect (herase .connect rfl)
      · exact ⟨(Pending.only_start_not rfl).trans (herase .connect rfl), .inr rfl⟩
    | handshake =>
      show Silent (handleHandshake _ ec)
      rw [handleHandshake]
      split
      · exact ⟨herase .handshake rfl, hstage⟩
      · have hsilent : Silent { s with
            secure := true, ops := Pending.start (s.ops.erase ⟨.handshake, aborted⟩) .read } :=
          ⟨(Pending.only_start_not rfl).trans (herase .handshake rfl), hstage⟩
        rw [hsilent.writeMsg]
        exact hsilent
    | read =>
      show Silent (handleRead _ ec)
      rw [handleRead]
      split
      · exact silent_connect (herase .read rfl)
      · exact ⟨(Pending.only_start_not rfl).trans (herase .read rfl), hstage⟩
    | write c msg =>
      exact absurd hmem (Pending.not_mem_of_only_nil hw rfl)
  | perform c => exact ⟨hw, hstage⟩
  | written c => exact ⟨hw, hstage⟩

/-- Nothing is ever written when nothing was being written at first. -/
theorem never_writes {evs : List Event} (hs : s.ops.only Kind.isWrite = [])
    (h : Run Step s.connect evs t) : Silent t :=
  h.invariant (P := Silent) (fun _ _ _ hsilent hstep => silent_step hsilent hstep) (silent_connect hs)

/-- Nothing waits unwritten after a handshake in any state of a run exactly as long
as the steps of the run meet the condition. -/
theorem never_stuck (s : ApplePush) (hs : Start s) :
    (∀ evs t, Run (Guarded Ok Step) s.connect evs t → NeverStuck t) ∧
    ∀ evs t ev u, Run (Guarded Ok Step) s.connect evs t → Step t ev u → ¬Ok t ev →
      ¬NeverStuck u := by
  constructor
  · intro evs t h
    exact (good_run hs h).notStuck
  · intro evs t ev u h hstep hok
    exact stuck_of_not_ok (good_run hs h) hok hstep

instance (s : ApplePush) : Decidable (Waiting s) :=
  decidable_of_iff ((s.bufs.any fun d => decide (d.connected = true ∧ d.data ≠ [])) = true)
    (List.any_eq_true.trans (exists_congr fun _ => and_congr_right fun _ => decide_eq_true_iff))

instance (s : ApplePush) : Decidable (FrontConnected s) := inferInstanceAs (Decidable (_ = _))

instance (s : ApplePush) : ∀ ev, Decidable (Ok s ev)
  | .connect => .isTrue trivial
  | .message _ => inferInstanceAs (Decidable (_ = _ → _ ∨ _))
  | .disconnect _ => .isTrue trivial
  | .done ⟨.connect, _⟩ _ => .isTrue trivial
  | .done ⟨.handshake, _⟩ _ => inferInstanceAs (Decidable (_ = _ → Waiting s → _ ∨ _))
  | .done ⟨.read, _⟩ _ => .isTrue trivial
  | .done ⟨.write _ _, _⟩ _ =>
    inferInstanceAs (Decidable (_ = _ → FrontConnected s → _ = _ → ¬Waiting s))
  | .perform _ => .isTrue trivial
  | .written _ => .isTrue trivial

/-- A proxy that has lost its socket while it was writing. -/
def lost : ApplePush :=
  ⟨.writing, [⟨7, true, [0]⟩], [⟨.write 7 0, false⟩], 1, fun _ => .empty, [], true, false⟩

/-- The aborted write ends before the handshake does, which therefore writes. -/
def reconnected : List Event :=
  [.done ⟨.connect, false⟩ .success, .done ⟨.write 7 0, true⟩ .aborted,
    .done ⟨.handshake, false⟩ .success, .message 8, .done ⟨.write 7 0, false⟩ .success]

theorem never_stuck_reconnected : NeverStuck (reconnected.foldl next lost.connect) :=
  (never_stuck lost ⟨rfl, fun d hd h => by
    rw [List.mem_singleton.mp hd] at h
    cases h⟩).1 reconnected _ (Run.plays_guarded (by decide))

/-- A proxy that has just been made. -/
def fresh : ApplePush := ⟨.halt, [], [], 0, fun _ => .empty, [], false, false⟩

/-- A message after the first handshake is never written. -/
theorem stuck : ∃ s, Run Step fresh.connect [.done ⟨.connect, false⟩ .success,
    .done ⟨.handshake, false⟩ .success, .message 7] s ∧ ¬NeverStuck s := by
  refine ⟨_, Run.plays (by decide), fun h => ?_⟩
  have hw := (h (by decide) (by decide)).1
  exact absurd hw (by decide)

end CppSnippets.PushProxy.Stuck
