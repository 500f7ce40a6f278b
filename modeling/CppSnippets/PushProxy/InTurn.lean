import CppSnippets.PushProxy.Answers
import CppSnippets.PushProxy.Stuck

/-!
# What a run of `apple_push` cannot change

A run goes on in the same way if every result is sent before the next one is put into the
buffer, which is where `Answers` applies: the queues and the results are right in every
run, and only what is received is not. What each step does to the results, to the
messages and to the clients that are gone.
-/
namespace CppSnippets.PushProxy.InTurn

open CppSnippets.Lib ApplePush
open CppSnippets.Push

variable {s t : ApplePush} {ρ ρ' : Client → Replies}

/-! ## What is kept -/

/-- Only the order of the queue, who is in it and what is being done may differ. -/
structure Kept (s t : ApplePush) : Prop where
  replies : t.replies = s.replies
  taken : t.taken = s.taken
  gone : t.gone = s.gone
  bufs : ∀ d ∈ t.bufs, d ∈ s.bufs

theorem kept_writeFront (s : ApplePush) : Kept s s.writeFront := by
  rw [writeFront]
  split
  · exact ⟨rfl, rfl, rfl, fun _ hd => hd⟩
  · split
    · exact ⟨rfl, rfl, rfl, fun _ hd => hd⟩
    · exact ⟨rfl, rfl, rfl, fun _ hd => hd⟩

theorem kept_writeMsg (s : ApplePush) : Kept s s.writeMsg := by
  have hbufs := (Stuck.writeMsg_frame (s := s)).2.2.1
  rw [writeMsg] at hbufs ⊢
  split at hbufs
  · rename_i hskip
    rw [if_pos hskip]
    exact ⟨rfl, rfl, rfl, hbufs⟩
  · rename_i hskip
    rw [if_neg hskip]
    obtain ⟨hreplies, htaken, hgone, _⟩ :=
      kept_writeFront { s with bufs := splice (s.bufs.filter fun d => d.connected) }
    exact ⟨hreplies, htaken, hgone, hbufs⟩

theorem Kept.writeMsg (h : Kept s t) : Kept s t.writeMsg := by
  have hnext := kept_writeMsg t
  constructor
  · exact hnext.replies.trans h.replies
  · exact hnext.taken.trans h.taken
  · exact hnext.gone.trans h.gone
  · exact fun d hd => h.bufs d (hnext.bufs d hd)

theorem kept_link (s : ApplePush) {k : Kind} (hk : k.isWrite = false) (ec : Outcome) :
    Kept s (s.handle k ec) := by
  have hsame : ∀ stage ops secure, Kept s { s with stage := stage, ops := ops, secure := secure } :=
    fun _ _ _ => ⟨rfl, rfl, rfl, fun _ hd => hd⟩
  cases k with
  | connect =>
    show Kept s (handleConnect _ ec)
    rw [handleConnect]
    split
    · exact hsame _ _ _
    · exact hsame _ _ _
  | handshake =>
    show Kept s (handleHandshake _ ec)
    rw [handleHandshake]
    split
    · exact hsame _ _ _
    · exact (hsame _ _ _).writeMsg
  | read =>
    show Kept s (handleRead _ ec)
    rw [handleRead]
    split
    · exact hsame _ _ _
    · exact hsame _ _ _
  | write c msg => cases hk

theorem disconnect_kept (s : ApplePush) (c : Client) :
    (s.disconnect c).replies = s.replies ∧ (s.disconnect c).taken = s.taken := by
  rw [disconnect]
  split
  · exact ⟨rfl, rfl⟩
  · exact ⟨rfl, rfl⟩

theorem perform_kept (r : Replies) : r.perform.statuses = r.statuses ∧ r.perform.posted = r.posted := by
  rw [Replies.perform]
  split
  · exact ⟨rfl, rfl⟩
  · exact ⟨rfl, rfl⟩

/-! ## Results and messages -/

/-- The same results and messages, whatever the clients have received. -/
def Alike (ρ ρ' : Client → Replies) : Prop :=
  ∀ c, (ρ' c).statuses = (ρ c).statuses ∧ (ρ' c).posted = (ρ c).posted

def withReplies (s : ApplePush) (ρ : Client → Replies) : ApplePush := { s with replies := ρ }

/-- With replies that are sent in turn, the state is one of which `Answers` speaks. -/
def Calm (s : ApplePush) : Prop := ∃ ρ, Alike s.replies ρ ∧ Answers.Inv (withReplies s ρ)

theorem Alike.update (h : Alike ρ ρ') (c : Client) {r r' : Replies} (hstatuses : r'.statuses = r.statuses)
    (hposted : r'.posted = r.posted) : Alike (Function.update ρ c r) (Function.update ρ' c r') := by
  intro x
  by_cases hx : x = c
  · rw [hx, Function.update_self, Function.update_self]
    exact ⟨hstatuses, hposted⟩
  · rw [Function.update_of_ne hx, Function.update_of_ne hx]
    exact h x

/-- What a client receives changes nothing of this. -/
theorem Alike.sent (h : Alike ρ ρ') (c : Client) {r : Replies} (hstatuses : r.statuses = (ρ c).statuses)
    (hposted : r.posted = (ρ c).posted) : Alike (Function.update ρ c r) ρ' := by
  intro x
  by_cases hx : x = c
  · rw [hx, Function.update_self, hstatuses, hposted]
    exact h c
  · rw [Function.update_of_ne hx]
    exact h x

theorem writeMsg_withReplies (ht : t = withReplies s ρ) : t.writeMsg = withReplies s.writeMsg ρ := by
  subst ht
  have hstage : (withReplies s ρ).stage = s.stage := rfl
  have hbufs : (withReplies s ρ).bufs = s.bufs := rfl
  rw [writeMsg, writeMsg, hstage, hbufs]
  split
  · rfl
  · rw [writeFront, writeFront]
    dsimp only
    split
    · rfl
    · split
      · rfl
      · rfl

theorem pmessage_withReplies (h : Alike s.replies ρ) (c : Client) :
    ∃ ρ', (withReplies s ρ).pmessage c = withReplies (s.pmessage c) ρ' ∧
      Alike (s.pmessage c).replies ρ' := by
  have hupdate : Alike
      (Function.update s.replies c { s.replies c with posted := (s.replies c).posted ++ [s.taken] })
      (Function.update ρ c { ρ c with posted := (ρ c).posted ++ [s.taken] }) :=
    h.update c (h c).1 (congrArg (· ++ [s.taken]) (h c).2)
  have hstage : (withReplies s ρ).stage = s.stage := rfl
  rw [pmessage, pmessage]
  dsimp only
  rw [hstage]
  split
  · refine ⟨_, writeMsg_withReplies rfl, ?_⟩
    rw [(kept_writeMsg _).replies]
    exact hupdate
  · exact ⟨_, rfl, hupdate⟩

theorem handleWrite_withReplies (h : Alike s.replies ρ) (c : Client) (msg : Nat) (ec : Outcome) :
    ∃ ρ', (withReplies s ρ).handleWrite c msg ec = withReplies (s.handleWrite c msg ec) ρ' ∧
      Alike (s.handleWrite c msg ec).replies ρ' := by
  have hbufs : (withReplies s ρ).bufs = s.bufs := rfl
  rw [handleWrite, handleWrite]
  dsimp only
  rw [hbufs]
  split
  · exact ⟨ρ, rfl, h⟩
  · split
    · refine ⟨ρ, writeMsg_withReplies rfl, ?_⟩
      rw [(kept_writeMsg _).replies]
      exact h
    · split
      · exact ⟨ρ, rfl, h⟩
      · rename_i d bufs hfront _ _
        rw [relayBack, relayBack]
        dsimp only
        rw [hfront]
        obtain ⟨client, connected, data⟩ := d
        cases data with
        | nil =>
          refine ⟨ρ, writeMsg_withReplies rfl, ?_⟩
          rw [(kept_writeMsg _).replies]
          exact h
        | cons front data =>
          refine ⟨_, writeMsg_withReplies rfl, ?_⟩
          rw [(kept_writeMsg _).replies]
          exact h.update client (congrArg (· ++ [_]) (h client).1) (h client).2

theorem disconnect_withReplies (s : ApplePush) (ρ : Client → Replies) (c : Client) :
    (withReplies s ρ).disconnect c = withReplies (s.disconnect c) ρ := by
  have hgone : (withReplies s ρ).gone = s.gone := rfl
  rw [disconnect, disconnect, hgone]
  split
  · rfl
  · rfl

theorem link_withReplies (s : ApplePush) (ρ : Client → Replies) {k : Kind} (hk : k.isWrite = false)
    (ec : Outcome) : (withReplies s ρ).handle k ec = withReplies (s.handle k ec) ρ := by
  cases k with
  | connect =>
    show handleConnect _ ec = withReplies (handleConnect _ ec) ρ
    rw [handleConnect, handleConnect]
    split
    · rfl
    · rfl
  | handshake =>
    show handleHandshake _ ec = withReplies (handleHandshake _ ec) ρ
    rw [handleHandshake, handleHandshake]
    split
    · rfl
    · exact writeMsg_withReplies rfl
  | read =>
    show handleRead _ ec = withReplies (handleRead _ ec) ρ
    rw [handleRead, handleRead]
    split
    · rfl
    · rfl
  | write c msg => cases hk

/-- What is sent in turn goes on when something else happens. -/
theorem next_withReplies (h : Alike s.replies ρ) {ev : Event} (hperform : ∀ c, ev ≠ .perform c)
    (hwritten : ∀ c, ev ≠ .written c) :
    ∃ ρ', (withReplies s ρ).next ev = withReplies (s.next ev) ρ' ∧ Alike (s.next ev).replies ρ' := by
  cases ev with
  | connect => exact ⟨ρ, rfl, h⟩
  | message c => exact pmessage_withReplies h c
  | disconnect c =>
    refine ⟨ρ, disconnect_withReplies s ρ c, ?_⟩
    show Alike (disconnect s c).replies ρ
    rw [(disconnect_kept s c).1]
    exact h
  | done o ec =>
    obtain ⟨k, a⟩ := o
    by_cases hk : k.isWrite = true
    · cases k with
      | write c msg =>
        exact handleWrite_withReplies (s := { s with ops := s.ops.erase ⟨.write c msg, a⟩ }) h c msg ec
      | connect => cases hk
      | handshake => cases hk
      | read => cases hk
    · have hlink := Bool.eq_false_iff.mpr hk
      refine ⟨ρ, link_withReplies { s with ops := s.ops.erase ⟨k, a⟩ } ρ hlink ec, ?_⟩
      show Alike (handle { s with ops := s.ops.erase ⟨k, a⟩ } k ec).replies ρ
      rw [(kept_link _ hlink ec).replies]
      exact h
  | perform c => exact absurd rfl (hperform c)
  | written c => exact absurd rfl (hwritten c)

theorem Calm.next (h : Calm s) (ev : Event) (henabled : Enabled s ev) : Calm (s.next ev) := by
  obtain ⟨ρ, halike, hinv⟩ := h
  have hmoves : (∀ c, ev ≠ .perform c) → (∀ c, ev ≠ .written c) → Enabled (withReplies s ρ) ev →
      Answers.Ok (withReplies s ρ) ev → Calm (s.next ev) := by
    intro hperform hwritten hmay hok
    obtain ⟨ρ', hnext, hlater⟩ := next_withReplies halike hperform hwritten
    refine ⟨ρ', hlater, ?_⟩
    rw [← hnext]
    exact Answers.inv_step hinv hok ⟨hmay, rfl⟩
  cases ev with
  | connect => exact hmoves (fun _ => Event.noConfusion) (fun _ => Event.noConfusion) henabled trivial
  | message c => exact hmoves (fun _ => Event.noConfusion) (fun _ => Event.noConfusion) henabled trivial
  | disconnect c =>
    exact hmoves (fun _ => Event.noConfusion) (fun _ => Event.noConfusion) henabled trivial
  | done o ec => exact hmoves (fun _ => Event.noConfusion) (fun _ => Event.noConfusion) henabled trivial
  | perform c =>
    exact ⟨ρ, halike.sent c (perform_kept _).1 (perform_kept _).2, hinv⟩
  | written c => exact ⟨ρ, halike.sent c rfl rfl, hinv⟩

theorem calm_fresh (stage : Stage) : Calm (Answers.fresh stage) :=
  ⟨_, fun _ => ⟨rfl, rfl⟩, Answers.inv_fresh stage⟩

/-- What holds of the queues and the results in any run. -/
structure Sound (s : ApplePush) : Prop where
  own : ∀ c, ∀ st ∈ (s.replies c).statuses, st.carrier = c ∧ st.written = st.msg
  order : ∀ c, (s.replies c).statuses.map Status.msg <+: (s.replies c).posted
  held : ∀ d ∈ s.bufs,
    (s.replies d.client).statuses.map Status.msg ++ d.data = (s.replies d.client).posted
  nodup : (s.bufs.map PushData.client).Nodup
  gone : ∀ d ∈ s.bufs, d.connected = false → d.client ∈ s.gone
  front : ∀ c msg a, ⟨.write c msg, a⟩ ∈ s.ops →
    ∃ d bufs data, s.bufs = d :: bufs ∧ d.client = c ∧ d.data = msg :: data

theorem Calm.sound (h : Calm s) : Sound s := by
  obtain ⟨ρ, halike, hrecords, hwrites⟩ := h
  constructor
  · intro c
    rw [← (halike c).1]
    exact hrecords.own c
  · intro c
    rw [← (halike c).1, ← (halike c).2]
    exact hrecords.order c
  · intro d hd
    rw [← (halike d.client).1, ← (halike d.client).2]
    exact hrecords.held d hd
  · exact hrecords.nodup
  · exact hrecords.gone
  · exact hwrites.front

/-! ## One write -/

/-- What the end of a write does: there is no result, the write is left for another time,
or the client in front gets a result. -/
def WriteEnds (d : PushData) (bufs : List PushData) (msg : Nat) (ec : Outcome) (s t : ApplePush) : Prop :=
  t.gone = s.gone ∧
  (d.connected = false ∧ t.replies = s.replies ∧ (∀ x ∈ t.bufs, x ∈ bufs) ∨
    ec = .aborted ∧ t.replies = s.replies ∧ t.bufs = s.bufs ∨
    ec ≠ .aborted ∧ t.replies = Function.update s.replies d.client
        ((s.replies d.client).relayBack ⟨d.client, msg, msg, decide (ec = .success)⟩) ∧
      ∀ x ∈ t.bufs, x.client ∈ s.bufs.map PushData.client)

theorem writeEnds_handleWrite {d : PushData} {bufs : List PushData} {data : List Nat} {msg : Nat}
    (hbufs : s.bufs = d :: bufs) (hdata : d.data = msg :: data) (ec : Outcome) :
    WriteEnds d bufs msg ec s (s.handleWrite d.client msg ec) := by
  rw [handleWrite]
  dsimp only
  rw [hbufs]
  dsimp only
  split
  · rename_i hconn
    have hkept := kept_writeMsg { s with stage := .idle, bufs := bufs }
    exact ⟨hkept.gone, .inl ⟨hconn, hkept.replies, hkept.bufs⟩⟩
  · split
    · rename_i haborted
      exact ⟨rfl, .inr (.inl ⟨haborted, rfl, hbufs.symm⟩)⟩
    · rename_i haborted
      obtain ⟨client, connected, _⟩ := d
      obtain rfl : _ = msg :: data := hdata
      refine ⟨(kept_writeMsg _).gone, .inr (.inr ⟨haborted, (kept_writeMsg _).replies, fun x hx => ?_⟩)⟩
      rw [hbufs]
      rcases List.mem_append.mp ((kept_writeMsg _).bufs x hx) with hx | hx
      · exact List.mem_cons_of_mem _ (List.mem_map_of_mem hx)
      · rw [List.mem_singleton.mp hx]
        exact List.mem_cons_self

theorem WriteEnds.replies_other {d : PushData} {bufs : List PushData} {msg : Nat} {ec : Outcome}
    (h : WriteEnds d bufs msg ec s t) {c : Client} (hc : c ≠ d.client) : t.replies c = s.replies c := by
  rcases h.2 with ⟨_, hreplies, _⟩ | ⟨_, hreplies, _⟩ | ⟨_, hreplies, _⟩
  · rw [hreplies]
  · rw [hreplies]
  · rw [hreplies, Function.update_of_ne hc]

theorem WriteEnds.posted {d : PushData} {bufs : List PushData} {msg : Nat} {ec : Outcome}
    (h : WriteEnds d bufs msg ec s t) (c : Client) : (t.replies c).posted = (s.replies c).posted := by
  by_cases hc : c = d.client
  · rcases h.2 with ⟨_, hreplies, _⟩ | ⟨_, hreplies, _⟩ | ⟨_, hreplies, _⟩
    · rw [hreplies]
    · rw [hreplies]
    · rw [hreplies, hc, Function.update_self]
      rfl
  · rw [h.replies_other hc]

/-- Nobody comes in. -/
theorem WriteEnds.clients {d : PushData} {bufs : List PushData} {msg : Nat} {ec : Outcome}
    (h : WriteEnds d bufs msg ec s t) (hbufs : s.bufs = d :: bufs) :
    ∀ x ∈ t.bufs, x.client ∈ s.bufs.map PushData.client := by
  rcases h.2 with ⟨_, _, hrest⟩ | ⟨_, _, hsame⟩ | ⟨_, _, hrest⟩
  · intro x hx
    rw [hbufs]
    exact List.mem_cons_of_mem _ (List.mem_map_of_mem (hrest x hx))
  · exact fun x hx => List.mem_map_of_mem (hsame ▸ hx)
  · exact hrest

/-! ## The steps of `apple_push` -/

/-- There is no result, and `more` comes in; who is new has not been here before. -/
structure Quiet (s t : ApplePush) (more : Client → List Nat) : Prop where
  statuses : ∀ c, (t.replies c).statuses = (s.replies c).statuses
  posted : ∀ c, (t.replies c).posted = (s.replies c).posted ++ more c
  gone : ∀ c ∈ s.gone, c ∈ t.gone
  clients : ∀ d ∈ t.bufs, d.client ∈ s.bufs.map PushData.client ∨ d.client ∉ s.gone

theorem Quiet.same (h : Quiet s t fun _ => []) (c : Client) :
    (t.replies c).posted = (s.replies c).posted := by
  rw [h.posted, List.append_nil]

/-- Nothing comes in. -/
theorem quiet_none (hreplies : t.replies = s.replies) (hgone : ∀ c ∈ s.gone, c ∈ t.gone)
    (hclients : ∀ d ∈ t.bufs, d.client ∈ s.bufs.map PushData.client ∨ d.client ∉ s.gone) :
    Quiet s t fun _ => [] := by
  refine ⟨fun c => ?_, fun c => ?_, hgone, hclients⟩
  · rw [hreplies]
  · rw [hreplies, List.append_nil]

theorem quiet_bufs (hreplies : t.replies = s.replies) (hgone : t.gone = s.gone)
    (hbufs : ∀ d ∈ t.bufs, d ∈ s.bufs) : Quiet s t fun _ => [] :=
  quiet_none hreplies (fun _ hc => hgone ▸ hc) fun d hd => .inl (List.mem_map_of_mem (hbufs d hd))

theorem quiet_disconnect (s : ApplePush) (c : Client) : Quiet s (s.disconnect c) fun _ => [] := by
  rw [disconnect]
  split
  · exact quiet_bufs rfl rfl fun _ hd => hd
  · rename_i hc
    refine quiet_none rfl (fun x hx => List.mem_cons_of_mem _ hx) fun d hd => ?_
    rcases mem_hangUp hd with ⟨x, hx, hclient, _⟩ | ⟨_, rfl⟩
    · rw [hclient]
      exact .inl (List.mem_map_of_mem hx)
    · exact .inr hc

theorem Quiet.writeMsg {more : Client → List Nat} (h : Quiet s t more) : Quiet s t.writeMsg more := by
  refine ⟨fun c => ?_, fun c => ?_, fun c hc => ?_, fun d hd => h.clients d ((kept_writeMsg _).bufs d hd)⟩
  · rw [(kept_writeMsg _).replies]
    exact h.statuses c
  · rw [(kept_writeMsg _).replies]
    exact h.posted c
  · rw [(kept_writeMsg _).gone]
    exact h.gone c hc

/-- A message goes to the queue of its client. -/
def posting (s : ApplePush) (c : Client) : ApplePush :=
  { s with
    bufs := post c s.taken s.bufs, taken := s.taken + 1
    replies := Function.update s.replies c
      { s.replies c with posted := (s.replies c).posted ++ [s.taken] } }

theorem pmessage_eq (s : ApplePush) (c : Client) :
    s.pmessage c = if s.stage = .idle then (posting s c).writeMsg else posting s c := rfl

theorem quiet_posting (s : ApplePush) {c : Client} (hc : c ∉ s.gone) :
    Quiet s (posting s c) fun x => if x = c then [s.taken] else [] := by
  refine ⟨fun x => ?_, fun x => ?_, fun _ hx => hx, fun d hd => ?_⟩
  · show (Function.update s.replies c _ x).statuses = _
    by_cases hx : x = c
    · rw [hx, Function.update_self]
    · rw [Function.update_of_ne hx]
  · show (Function.update s.replies c _ x).posted = _
    by_cases hx : x = c
    · rw [if_pos hx, hx, Function.update_self]
    · rw [if_neg hx, Function.update_of_ne hx, List.append_nil]
  · have hmem : d.client ∈ (post c s.taken s.bufs).map PushData.client := List.mem_map_of_mem hd
    rcases post_clients c s.taken s.bufs with hsame | ⟨_, hmore⟩
    · rw [hsame] at hmem
      exact .inl hmem
    · rw [hmore] at hmem
      rcases List.mem_append.mp hmem with hmem | hmem
      · exact .inl hmem
      · rw [List.mem_singleton.mp hmem]
        exact .inr hc

theorem quiet_pmessage (s : ApplePush) {c : Client} (hc : c ∉ s.gone) :
    Quiet s (s.pmessage c) fun x => if x = c then [s.taken] else [] := by
  rw [pmessage_eq]
  split
  · exact (quiet_posting s hc).writeMsg
  · exact quiet_posting s hc

theorem pmessage_taken (s : ApplePush) (c : Client) : (s.pmessage c).taken = s.taken + 1 := by
  rw [pmessage_eq]
  split
  · rw [(kept_writeMsg _).taken]
    rfl
  · rfl

theorem pmessage_gone (s : ApplePush) (c : Client) : (s.pmessage c).gone = s.gone := by
  rw [pmessage_eq]
  split
  · exact (kept_writeMsg _).gone
  · rfl

theorem quiet_sent (s : ApplePush) (c : Client) {r : Replies}
    (hstatuses : r.statuses = (s.replies c).statuses) (hposted : r.posted = (s.replies c).posted) :
    Quiet s { s with replies := Function.update s.replies c r } fun _ => [] := by
  have hsame : Alike (Function.update s.replies c r) s.replies :=
    Alike.sent (fun _ => ⟨rfl, rfl⟩) c hstatuses hposted
  refine ⟨fun x => (hsame x).1.symm, fun x => ?_, fun _ hx => hx, fun d hd => ?_⟩
  · rw [List.append_nil]
    exact (hsame x).2.symm
  · exact .inl (List.mem_map_of_mem hd)

theorem handleWrite_taken (s : ApplePush) (c : Client) (msg : Nat) (ec : Outcome) :
    (s.handleWrite c msg ec).taken = s.taken := by
  rw [handleWrite]
  dsimp only
  split
  · rfl
  · split
    · exact (kept_writeMsg _).taken
    · split
      · rfl
      · rw [(kept_writeMsg _).taken, relayBack]
        split
        · rfl
        · rfl

end CppSnippets.PushProxy.InTurn
