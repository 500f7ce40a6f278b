import CppSnippets.PushProxy.Upstream

/-!
# What the clients receive

The results are sent from one buffer a client, and a later result overwrites it
before an earlier one is on the socket. Which message a result is about is right in
any case: there is one write at a time, and the entry in front is the one written.
-/
namespace CppSnippets.PushProxy.Answers

open CppSnippets.Lib ApplePush
open CppSnippets.Push
open CppSnippets.Wap (Bytes bytes)

variable {s t : ApplePush} {r : Replies}

def Status.text (st : Status) : Bytes := statusText st.ok

/-- What every client has received is the results of its messages, one for each, in
the order of the messages. -/
structure Answered (s : ApplePush) : Prop where
  received : ∀ c, (s.replies c).received <+: (s.replies c).statuses.map Status.text
  own : ∀ c, ∀ st ∈ (s.replies c).statuses, st.carrier = c ∧ st.written = st.msg
  order : ∀ c, (s.replies c).statuses.map Status.msg <+: (s.replies c).posted

/-- A send is written to the socket only while the last result that was put into the
buffer is the same as its own. -/
def Ok (s : ApplePush) : Event → Prop
  | .perform c =>
    (s.replies c).statuses.getLast?.map Status.ok =
      (s.replies c).statuses[(s.replies c).received.length]?.map Status.ok
  | _ => True

/-! ## The send queue of a client -/

/-- The sends that are queued are those of the last results, the first one of which
may have been received already. -/
structure Queued (r : Replies) : Prop where
  buffer : ∀ st, r.statuses.getLast? = some st → ∃ rest, r.replybuf = Status.text st ++ rest
  received : r.received <+: r.statuses.map Status.text
  sends : ∃ k, r.received.length = k + (if r.performed then 1 else 0) ∧
    r.writeLs = (r.statuses.drop k).map fun st => (Status.text st).length

theorem queued_empty : Queued .empty := by
  refine ⟨fun st h => ?_, List.prefix_rfl, 0, rfl, rfl⟩
  cases h

theorem queued_relayBack (h : Queued r) (st : Status) : Queued (r.relayBack st) := by
  obtain ⟨_, hreceived, k, hlen, hsends⟩ := h
  have hle : k ≤ r.statuses.length := by
    have hle := hreceived.length_le
    rw [List.length_map] at hle
    omega
  refine ⟨fun st' hlast => ?_, ?_, k, hlen, ?_⟩
  · change (r.statuses ++ [st]).getLast? = some st' at hlast
    rw [List.getLast?_append_of_ne_nil _ (List.cons_ne_nil _ _)] at hlast
    obtain rfl := Option.some.inj hlast
    exact ⟨[0] ++ r.replybuf.drop ((statusText st.ok).length + 1), List.append_assoc _ _ _⟩
  · show r.received <+: (r.statuses ++ [st]).map Status.text
    rw [List.map_append]
    exact hreceived.trans (List.prefix_append _ _)
  · show r.writeLs ++ [(statusText st.ok).length] = ((r.statuses ++ [st]).drop k).map _
    rw [List.drop_append_of_le_length hle, List.map_append, hsends]
    rfl

theorem queued_handleWrite (h : Queued r) (hperformed : r.performed = true) :
    Queued r.handleWrite := by
  obtain ⟨hbuffer, hreceived, k, hlen, hsends⟩ := h
  rw [hperformed] at hlen
  refine ⟨hbuffer, hreceived, k + 1, hlen, ?_⟩
  show r.writeLs.tail = _
  rw [hsends, ← List.map_tail, List.tail_drop]
  rfl

/-- The send that is next on the socket. -/
theorem perform_received (h : Queued r) (hne : r.writeLs ≠ []) (hperformed : r.performed = false) :
    ∃ st, r.statuses[r.received.length]? = some st ∧
      r.perform = { r with
        performed := true
        received := r.received ++ [r.replybuf.take (Status.text st).length] } := by
  obtain ⟨_, _, k, hlen, hsends⟩ := h
  rw [hperformed] at hlen
  obtain rfl : r.received.length = k := hlen
  have hlt : r.received.length < r.statuses.length := by
    by_contra hge
    rw [List.drop_eq_nil_of_le (Nat.le_of_not_lt hge)] at hsends
    exact hne hsends
  refine ⟨r.statuses[r.received.length], List.getElem?_eq_getElem hlt, ?_⟩
  rw [List.drop_eq_getElem_cons hlt, List.map_cons] at hsends
  rw [Replies.perform, hsends]

theorem take_text {a b : Bool} {rest : Bytes} :
    (statusText a ++ rest).take (statusText b).length = statusText b ↔ a = b := by
  have hok : statusText true = [79, 75] := by decide
  have hfail : statusText false = [70, 65, 73, 76] := by decide
  constructor
  · cases a <;> cases b <;> simp [hok, hfail]
  · rintro rfl
    exact List.take_left

/-- The result is received as it was if and only if the buffer still has it. -/
theorem queued_perform_iff (h : Queued r) (hne : r.writeLs ≠ []) (hperformed : r.performed = false) :
    r.perform.received <+: r.perform.statuses.map Status.text ↔
      r.statuses.getLast?.map Status.ok = r.statuses[r.received.length]?.map Status.ok := by
  obtain ⟨st, hst, hperform⟩ := perform_received h hne hperformed
  obtain ⟨last, hlast⟩ : ∃ last, r.statuses.getLast? = some last := by
    cases hnil : r.statuses.getLast? with
    | none =>
      rw [List.getLast?_eq_none_iff.mp hnil] at hst
      cases hst
    | some last => exact ⟨last, rfl⟩
  obtain ⟨rest, hbuffer⟩ := h.buffer last hlast
  have hlt := (List.getElem?_eq_some_iff.mp hst).1
  have hcut : r.statuses.map Status.text = r.received ++
      (Status.text st :: (r.statuses.drop (r.received.length + 1)).map Status.text) := by
    have htake := List.prefix_iff_eq_take.mp h.received
    conv_lhs => rw [← List.take_append_drop r.received.length (r.statuses.map Status.text)]
    rw [← htake, ← List.map_drop, List.drop_eq_getElem_cons hlt, List.map_cons]
    rw [(List.getElem?_eq_some_iff.mp hst).2]
  rw [hperform, hlast, hst]
  show r.received ++ [r.replybuf.take (Status.text st).length] <+: r.statuses.map Status.text ↔
    some last.ok = some st.ok
  rw [hcut, List.prefix_append_right_inj, List.cons_prefix_cons, hbuffer, Option.some.injEq]
  exact ⟨fun h => take_text.mp h.1, fun h => ⟨take_text.mpr h, List.nil_prefix⟩⟩

theorem queued_perform (h : Queued r) (hne : r.writeLs ≠ []) (hperformed : r.performed = false)
    (hok : r.statuses.getLast?.map Status.ok = r.statuses[r.received.length]?.map Status.ok) :
    Queued r.perform := by
  have hreceived := (queued_perform_iff h hne hperformed).mpr hok
  obtain ⟨st, _, hperform⟩ := perform_received h hne hperformed
  rw [hperform] at hreceived ⊢
  obtain ⟨k, hlen, hsends⟩ := h.sends
  refine ⟨h.buffer, hreceived, k, ?_, hsends⟩
  rw [hperformed] at hlen
  show (r.received ++ [_]).length = k + 1
  rw [List.length_append]
  exact congrArg (· + 1) hlen

/-! ## The invariant -/

/-- What the entries, the replies and the clients that are gone say about each
other. -/
structure Records (s : ApplePush) : Prop where
  queued : ∀ c, Queued (s.replies c)
  own : ∀ c, ∀ st ∈ (s.replies c).statuses, st.carrier = c ∧ st.written = st.msg
  order : ∀ c, (s.replies c).statuses.map Status.msg <+: (s.replies c).posted
  nodup : (s.bufs.map PushData.client).Nodup
  held : ∀ d ∈ s.bufs,
    (s.replies d.client).statuses.map Status.msg ++ d.data = (s.replies d.client).posted
  unknown : ∀ c, c ∉ s.gone → c ∉ s.bufs.map PushData.client → (s.replies c).posted = []
  gone : ∀ d ∈ s.bufs, d.connected = false → d.client ∈ s.gone

/-- There is one write at a time, of the first message of the entry in front. -/
structure Writes (s : ApplePush) : Prop where
  one : (s.ops.only Kind.isWrite).length ≤ 1
  idle : s.stage = .idle → s.ops.only Kind.isWrite = []
  front : ∀ c msg a, ⟨.write c msg, a⟩ ∈ s.ops →
    ∃ d bufs data, s.bufs = d :: bufs ∧ d.client = c ∧ d.data = msg :: data

structure Inv (s : ApplePush) : Prop where
  records : Records s
  writes : Writes s

theorem Records.answered (h : Records s) : Answered s :=
  ⟨fun c => (h.queued c).received, h.own, h.order⟩

/-- Entries of disconnected clients may be dropped, and the others moved. -/
theorem records_bufs (h : Records s) {bufs : List PushData}
    (hnodup : (bufs.map PushData.client).Nodup) (hsub : ∀ d ∈ bufs, d ∈ s.bufs)
    (hkeep : ∀ d ∈ s.bufs, d.connected = true → d ∈ bufs) : Records { s with bufs := bufs } := by
  refine ⟨h.queued, h.own, h.order, hnodup, fun d hd => h.held d (hsub d hd), ?_,
    fun d hd => h.gone d (hsub d hd)⟩
  intro c hgone hnot
  refine h.unknown c hgone fun hmem => ?_
  obtain ⟨d, hd, rfl⟩ := List.mem_map.mp hmem
  refine hnot (List.mem_map_of_mem (hkeep d hd ?_))
  by_contra hconn
  exact hgone (h.gone d hd (Bool.eq_false_iff.mpr hconn))

theorem writes_none (h : s.ops.only Kind.isWrite = []) : Writes s := by
  refine ⟨?_, fun _ => h, fun c msg a hmem => absurd hmem (Pending.not_mem_of_only_nil h rfl)⟩
  rw [h]
  exact Nat.zero_le 1

/-- `write_msg` looks for the next message only when nothing is being written. -/
theorem inv_writeMsg (h : Records s) (hw : Writes s) : Inv s.writeMsg := by
  rw [writeMsg]
  by_cases hskip : s.stage ≠ .idle ∨ s.bufs = []
  · rw [if_pos hskip]
    exact ⟨h, hw⟩
  · rw [if_neg hskip]
    rw [not_or, not_not] at hskip
    have hperm := splice_perm (s.bufs.filter fun d => d.connected)
    have hrecords : Records { s with bufs := splice (s.bufs.filter fun d => d.connected) } := by
      refine records_bufs h ?_ (fun d hd => ?_) fun d hd hconn => ?_
      · rw [(hperm.map _).nodup_iff]
        exact h.nodup.sublist (List.filter_sublist.map _)
      · exact List.mem_of_mem_filter (hperm.mem_iff.mp hd)
      · exact hperm.mem_iff.mpr (List.mem_filter.mpr ⟨hd, hconn⟩)
    have hnone := hw.idle hskip.1
    rw [writeFront]
    split
    · exact ⟨⟨hrecords.queued, hrecords.own, hrecords.order, hrecords.nodup, hrecords.held,
        hrecords.unknown, hrecords.gone⟩, writes_none hnone⟩
    · rename_i d bufs hbufs
      split
      · exact ⟨hrecords, writes_none hnone⟩
      · rename_i msg data hdata
        refine ⟨⟨hrecords.queued, hrecords.own, hrecords.order, hrecords.nodup, hrecords.held,
          hrecords.unknown, hrecords.gone⟩, ?_, fun hstage => ?_, ?_⟩
        · exact Pending.only_start_first rfl hnone
        · cases hstage
        · intro c' msg' a hmem
          rcases Pending.mem_start.mp hmem with hmem | heq
          · exact absurd hmem (Pending.not_mem_of_only_nil hnone rfl)
          · obtain ⟨rfl, rfl⟩ := Kind.write.inj (Op.mk.inj heq).1
            exact ⟨d, bufs, data, hbufs, rfl, hdata⟩

/-! ## What the handlers do -/

theorem inv_ops (h : Inv s) {ops : Pending Kind} {stage : Stage} {secure : Bool}
    (hone : (ops.only Kind.isWrite).length ≤ 1)
    (hidle : stage = .idle → ops.only Kind.isWrite = [])
    (hmem : ∀ c msg a, ⟨.write c msg, a⟩ ∈ ops → ∃ a', ⟨.write c msg, a'⟩ ∈ s.ops) :
    Inv { s with ops := ops, stage := stage, secure := secure } := by
  obtain ⟨⟨hq, ho, hord, hn, hh, hu, hg⟩, hw⟩ := h
  refine ⟨⟨hq, ho, hord, hn, hh, hu, hg⟩, hone, hidle, fun c msg a hin => ?_⟩
  obtain ⟨a', hin'⟩ := hmem c msg a hin
  exact hw.front c msg a' hin'

theorem inv_connect (h : Inv s) : Inv s.connect := by
  refine inv_ops h ?_ (fun hstage => ?_) fun c msg a hin => ?_
  · rw [Pending.only_start_not rfl, Pending.only_close_length]
    exact h.writes.one
  · cases hstage
  · rcases Pending.mem_start.mp hin with hin | heq
    · exact Pending.mem_of_mem_close hin
    · cases heq

theorem mem_start_erase {k : Kind} {o : Op Kind} {c : Client} {msg : Nat} {a : Bool}
    (hk : k.isWrite = false) (h : ⟨.write c msg, a⟩ ∈ Pending.start (s.ops.erase o) k) :
    ∃ a', ⟨.write c msg, a'⟩ ∈ s.ops := by
  rcases Pending.mem_start.mp h with hin | heq
  · exact ⟨a, List.erase_subset hin⟩
  · obtain ⟨rfl, _⟩ := Op.mk.inj heq
    cases hk

theorem inv_erase (h : Inv s) {o : Op Kind} (ho : o.kind.isWrite = false) :
    Inv { s with ops := s.ops.erase o } := by
  refine inv_ops h ?_ (fun hstage => ?_) fun c msg a hin => ⟨a, List.erase_subset hin⟩
  · rw [Pending.only_erase_not ho]
    exact h.writes.one
  · rw [Pending.only_erase_not ho]
    exact h.writes.idle hstage

/-- Another operation ends and the next one starts, in a stage that is not idle or
the same. -/
theorem inv_start (h : Inv s) {o : Op Kind} {k : Kind} {stage : Stage} {secure : Bool}
    (ho : o.kind.isWrite = false) (hk : k.isWrite = false)
    (hstage : stage = .idle → s.stage = .idle) :
    Inv { s with ops := Pending.start (s.ops.erase o) k, stage := stage, secure := secure } := by
  refine inv_ops h ?_ (fun hidle => ?_) fun c msg a hin => mem_start_erase hk hin
  · rw [Pending.only_start_not hk, Pending.only_erase_not ho]
    exact h.writes.one
  · rw [Pending.only_start_not hk, Pending.only_erase_not ho]
    exact h.writes.idle (hstage hidle)

theorem inv_link (h : Inv s) {k : Kind} {aborted : Bool} {ec : Outcome} (hk : k.isWrite = false) :
    Inv (handle { s with ops := s.ops.erase ⟨k, aborted⟩ } k ec) := by
  have herase := inv_erase h (o := ⟨k, aborted⟩) hk
  cases k with
  | connect =>
    show Inv (handleConnect _ ec)
    rw [handleConnect]
    split
    · exact inv_connect herase
    · exact inv_start h hk rfl (fun hstage => by cases hstage)
  | handshake =>
    show Inv (handleHandshake _ ec)
    rw [handleHandshake]
    split
    · exact herase
    · have hstart : Inv { s with
          secure := true, ops := Pending.start (s.ops.erase ⟨.handshake, aborted⟩) .read } :=
        inv_start h hk rfl id
      exact inv_writeMsg hstart.records hstart.writes
  | read =>
    show Inv (handleRead _ ec)
    rw [handleRead]
    split
    · exact inv_connect herase
    · exact inv_start h hk rfl id
  | write c msg => cases hk

/-- The replies to a client may go on. -/
theorem records_replies (h : Records s) {c : Client} {r : Replies} (hr : Queued r)
    (hstatuses : r.statuses = (s.replies c).statuses) (hposted : r.posted = (s.replies c).posted) :
    Records { s with replies := Function.update s.replies c r } := by
  have hkept : ∀ c', (Function.update s.replies c r c').statuses = (s.replies c').statuses ∧
      (Function.update s.replies c r c').posted = (s.replies c').posted := by
    rw [Function.forall_update_iff s.replies fun c' r => r.statuses = (s.replies c').statuses ∧
      r.posted = (s.replies c').posted]
    exact ⟨⟨hstatuses, hposted⟩, fun c' _ => ⟨rfl, rfl⟩⟩
  refine ⟨?_, fun c' => ?_, fun c' => ?_, h.nodup, fun d hd => ?_, fun c' => ?_, h.gone⟩
  · exact (Function.forall_update_iff s.replies fun _ => Queued).mpr ⟨hr, fun c' _ => h.queued c'⟩
  · show ∀ st ∈ (Function.update s.replies c r c').statuses, _
    rw [(hkept c').1]
    exact h.own c'
  · show (Function.update s.replies c r c').statuses.map _ <+: (Function.update s.replies c r c').posted
    rw [(hkept c').1, (hkept c').2]
    exact h.order c'
  · show (Function.update s.replies c r d.client).statuses.map _ ++ d.data =
      (Function.update s.replies c r d.client).posted
    rw [(hkept _).1, (hkept _).2]
    exact h.held d hd
  · show c' ∉ s.gone → _ → (Function.update s.replies c r c').posted = []
    rw [(hkept c').2]
    exact h.unknown c'

theorem inv_disconnect (h : Inv s) (c : Client) : Inv (s.disconnect c) := by
  rw [disconnect]
  by_cases hc : c ∈ s.gone
  · rw [if_pos hc]
    exact h
  rw [if_neg hc]
  obtain ⟨hrecords, hwrites⟩ := h
  refine ⟨⟨hrecords.queued, hrecords.own, hrecords.order, ?_, ?_, ?_, ?_⟩, hwrites.one, hwrites.idle, ?_⟩
  · exact nodup_clients hrecords.nodup (hangUp_clients c s.bufs)
  · intro d hd
    rcases mem_hangUp hd with ⟨x, hx, hclient, hdata, _⟩ | ⟨hnot, rfl⟩
    · rw [hclient, hdata]
      exact hrecords.held x hx
    · have hposted := hrecords.unknown c hc hnot
      have hnone := List.prefix_nil.mp (hposted ▸ hrecords.order c)
      show (s.replies c).statuses.map Status.msg ++ [] = (s.replies c).posted
      rw [hnone, hposted]
      rfl
  · intro c' hc' hnot
    rw [List.mem_cons, not_or] at hc'
    exact hrecords.unknown c' hc'.2 fun hmem => hnot (mem_clients hmem (hangUp_clients c s.bufs))
  · intro d hd hconn
    rcases mem_hangUp hd with ⟨x, hx, hclient, _, hsame | ⟨hc', _⟩⟩ | ⟨_, rfl⟩
    · rw [hclient]
      exact List.mem_cons_of_mem _ (hrecords.gone x hx (hsame.symm.trans hconn))
    · exact List.mem_cons.mpr (.inl hc')
    · exact List.mem_cons_self
  · intro c' msg a hmem
    obtain ⟨d, bufs, data, hbufs, hclient, hdata⟩ := hwrites.front c' msg a hmem
    obtain ⟨d', bufs', hhang, hclient', hdata'⟩ := hangUp_front c d bufs
    exact ⟨d', bufs', data, by rw [hbufs, hhang], hclient'.trans hclient, hdata'.trans hdata⟩

/-- A message goes to the end of the entry of its client. -/
theorem records_post (h : Records s) {c : Client} (hc : c ∉ s.gone) :
    Records { s with
      bufs := post c s.taken s.bufs, taken := s.taken + 1
      replies := Function.update s.replies c
        { s.replies c with posted := (s.replies c).posted ++ [s.taken] } } := by
  have hq := h.queued c
  refine ⟨?_, ?_, ?_, ?_, fun d hd => ?_, fun c' hgone hnot => ?_, fun d hd hconn => ?_⟩
  · refine (Function.forall_update_iff s.replies fun _ => Queued).mpr ⟨?_, fun c' _ => h.queued c'⟩
    exact ⟨hq.buffer, hq.received, hq.sends⟩
  · exact (Function.forall_update_iff s.replies fun c r => ∀ st ∈ r.statuses,
      st.carrier = c ∧ st.written = st.msg).mpr ⟨h.own c, fun c' _ => h.own c'⟩
  · exact (Function.forall_update_iff s.replies fun _ r => r.statuses.map Status.msg <+: r.posted).mpr
      ⟨(h.order c).trans (List.prefix_append _ _), fun c' _ => h.order c'⟩
  · exact nodup_clients h.nodup (post_clients c s.taken s.bufs)
  · show (Function.update s.replies c _ d.client).statuses.map _ ++ d.data =
      (Function.update s.replies c _ d.client).posted
    rcases mem_post h.nodup hd with ⟨hd, hne⟩ | ⟨x, hx, rfl, rfl⟩ | ⟨hnot, rfl⟩
    · rw [Function.update_of_ne hne]
      exact h.held d hd
    · rw [Function.update_self, ← List.append_assoc]
      exact congrArg (· ++ [s.taken]) (h.held x hx)
    · have hposted := h.unknown c hc hnot
      have hnone := List.prefix_nil.mp (hposted ▸ h.order c)
      rw [Function.update_self, hnone, hposted]
  · have hne : c' ≠ c := by
      rintro rfl
      exact hnot (mem_clients_post c' s.taken s.bufs)
    show (Function.update s.replies c _ c').posted = []
    rw [Function.update_of_ne hne]
    exact h.unknown c' hgone fun hmem => hnot (mem_clients hmem (post_clients c s.taken s.bufs))
  · rcases mem_post h.nodup hd with ⟨hd, _⟩ | ⟨x, hx, rfl, rfl⟩ | ⟨_, rfl⟩
    · exact h.gone d hd hconn
    · exact h.gone x hx hconn
    · cases hconn

theorem inv_pmessage (h : Inv s) {c : Client} (hc : c ∉ s.gone) : Inv (s.pmessage c) := by
  obtain ⟨hrecords, hwrites⟩ := h
  have hpost := records_post hrecords hc
  have hfront : ∀ c' msg a, ⟨.write c' msg, a⟩ ∈ s.ops →
      ∃ d bufs data, post c s.taken s.bufs = d :: bufs ∧ d.client = c' ∧ d.data = msg :: data := by
    intro c' msg a hmem
    obtain ⟨d, bufs, data, hbufs, hclient, hdata⟩ := hwrites.front c' msg a hmem
    obtain ⟨d', bufs', hpost, hclient', _, more, hmore⟩ := post_front c s.taken d bufs
    refine ⟨d', bufs', data ++ more, by rw [hbufs, hpost], hclient'.trans hclient, ?_⟩
    rw [← hmore, hdata]
    rfl
  rw [pmessage]
  dsimp only
  split
  · exact inv_writeMsg hpost ⟨hwrites.one, hwrites.idle, hfront⟩
  · exact ⟨hpost, hwrites.one, hwrites.idle, hfront⟩

/-- The result of the message in front is put into the buffer of its client. -/
theorem records_relayBack (h : Records s) {d : PushData} {bufs : List PushData} {data : List Nat}
    {msg : Nat} (hbufs : s.bufs = d :: bufs) (hdata : d.data = msg :: data) (ec : Outcome) :
    Records (s.relayBack d.client msg ec) := by
  obtain ⟨c, connected, _⟩ := d
  obtain rfl : _ = msg :: data := hdata
  have hmem : ⟨c, connected, msg :: data⟩ ∈ s.bufs := hbufs ▸ List.mem_cons_self
  have hnodup := h.nodup
  rw [hbufs, List.map_cons, List.nodup_cons] at hnodup
  have hother : c ∉ bufs.map PushData.client := hnodup.1
  have hposted : (s.replies c).statuses.map Status.msg ++ msg :: data = (s.replies c).posted :=
    h.held _ hmem
  have hmap : ∀ st : Status, st.msg = msg → ((s.replies c).statuses ++ [st]).map Status.msg ++ data =
      (s.replies c).posted := by
    rintro st rfl
    rw [List.map_append, List.append_assoc]
    exact hposted
  have htold : ∀ st : Status, st.msg = msg →
      ((s.replies c).statuses ++ [st]).map Status.msg <+: (s.replies c).posted :=
    fun st hst => ⟨data, hmap st hst⟩
  have hperm : ((bufs ++ [(⟨c, connected, data⟩ : PushData)]).map PushData.client).Perm
      (s.bufs.map PushData.client) := by
    rw [hbufs, List.map_append]
    exact List.perm_append_singleton c _
  rw [relayBack, hbufs]
  dsimp only
  refine ⟨?_, ?_, ?_, ?_, fun d hd => ?_, fun c' hgone hnot => ?_, fun d hd hconn => ?_⟩
  · exact (Function.forall_update_iff s.replies fun _ => Queued).mpr
      ⟨queued_relayBack (h.queued c) _, fun c' _ => h.queued c'⟩
  · refine (Function.forall_update_iff s.replies fun c r => ∀ st ∈ r.statuses,
      st.carrier = c ∧ st.written = st.msg).mpr ⟨fun st hst => ?_, fun c' _ => h.own c'⟩
    rcases List.mem_append.mp hst with hst | hst
    · exact h.own c st hst
    · rw [List.mem_singleton.mp hst]
      exact ⟨rfl, rfl⟩
  · exact (Function.forall_update_iff s.replies fun _ r => r.statuses.map Status.msg <+: r.posted).mpr
      ⟨htold _ rfl, fun c' _ => h.order c'⟩
  · exact hperm.nodup_iff.mpr h.nodup
  · show (Function.update s.replies c _ d.client).statuses.map _ ++ d.data =
      (Function.update s.replies c _ d.client).posted
    rcases List.mem_append.mp hd with hd | hd
    · have hne : d.client ≠ c := by
        intro heq
        exact hother (heq ▸ List.mem_map_of_mem hd)
      rw [Function.update_of_ne hne]
      exact h.held d (hbufs ▸ List.mem_cons_of_mem _ hd)
    · rw [List.mem_singleton.mp hd, Function.update_self]
      exact hmap _ rfl
  · have hnot' := fun hin => hnot (hperm.mem_iff.mpr hin)
    have hne : c' ≠ c := by
      rintro rfl
      exact hnot' (List.mem_map_of_mem hmem)
    show (Function.update s.replies c _ c').posted = []
    rw [Function.update_of_ne hne]
    exact h.unknown c' hgone hnot'
  · rcases List.mem_append.mp hd with hd | hd
    · exact h.gone d (hbufs ▸ List.mem_cons_of_mem _ hd) hconn
    · obtain rfl := List.mem_singleton.mp hd
      have hgone := h.gone _ hmem
      exact hgone hconn

theorem inv_handleWrite (h : Inv s) {c : Client} {msg : Nat} {a : Bool} {ec : Outcome}
    (ho : ⟨.write c msg, a⟩ ∈ s.ops) :
    Inv (handleWrite { s with ops := s.ops.erase ⟨.write c msg, a⟩ } c msg ec) := by
  obtain ⟨hrecords, hwrites⟩ := h
  obtain ⟨d, bufs, data, hbufs, rfl, hdata⟩ := hwrites.front c msg a ho
  -- it was the only write
  have hnone : Pending.only (s.ops.erase ⟨.write d.client msg, a⟩) Kind.isWrite = [] :=
    Pending.only_erase_last ho rfl hwrites.one
  have hidle : Records { s with
      stage := .idle, bufs := d :: bufs, ops := s.ops.erase ⟨.write d.client msg, a⟩ } := by
    rw [← hbufs]
    exact ⟨hrecords.queued, hrecords.own, hrecords.order, hrecords.nodup, hrecords.held,
      hrecords.unknown, hrecords.gone⟩
  rw [handleWrite]
  dsimp only
  rw [hbufs]
  dsimp only
  split
  · rename_i hconn
    refine inv_writeMsg (records_bufs hidle ?_ (fun x hx => ?_) fun x hx hx' => ?_) (writes_none hnone)
    · exact hidle.nodup.of_cons
    · exact List.mem_cons_of_mem _ hx
    · rcases List.mem_cons.mp hx with rfl | hx
      · rw [hconn] at hx'
        cases hx'
      · exact hx
  · split
    · exact ⟨hidle, writes_none hnone⟩
    · refine inv_writeMsg (records_relayBack hidle rfl hdata ec) (writes_none ?_)
      obtain ⟨_, _, _⟩ := d
      obtain rfl : _ = msg :: data := hdata
      exact hnone

/-! ## The main result -/

theorem inv_perform (h : Inv s) {c : Client} (hne : (s.replies c).writeLs ≠ [])
    (hperformed : (s.replies c).performed = false) (hok : Ok s (.perform c)) :
    Inv (s.next (.perform c)) := by
  have hqueued := queued_perform (h.records.queued c) hne hperformed hok
  obtain ⟨st, _, hperform⟩ := perform_received (h.records.queued c) hne hperformed
  rw [hperform] at hqueued
  refine ⟨?_, h.writes.one, h.writes.idle, h.writes.front⟩
  rw [next, hperform]
  exact records_replies h.records hqueued rfl rfl

theorem inv_step {ev : Event} (h : Inv s) (hok : Ok s ev) (hstep : Step s ev t) : Inv t := by
  obtain ⟨henabled, rfl⟩ := hstep
  cases ev with
  | connect => exact inv_connect h
  | message c => exact inv_pmessage h henabled.2
  | disconnect c => exact inv_disconnect h c
  | done o ec =>
    obtain ⟨k, a⟩ := o
    by_cases hk : k.isWrite = true
    · cases k with
      | write c msg => exact inv_handleWrite h henabled.2.1
      | connect => cases hk
      | handshake => cases hk
      | read => cases hk
    · exact inv_link h (Bool.eq_false_iff.mpr hk)
  | perform c => exact inv_perform h henabled.2.2.1 henabled.2.2.2 hok
  | written c =>
    have hrecords := records_replies h.records
      (queued_handleWrite (h.records.queued c) henabled.2.2) rfl rfl
    exact ⟨hrecords, h.writes.one, h.writes.idle, h.writes.front⟩

/-- A proxy that has just been made; what its stage is at first is not set. -/
def fresh (stage : Stage) : ApplePush := ⟨stage, [], [], 0, fun _ => .empty, [], false, false⟩

theorem inv_fresh (stage : Stage) : Inv (fresh stage) := by
  refine ⟨⟨fun _ => queued_empty, fun _ st hst => ?_, fun _ => List.prefix_rfl, List.nodup_nil,
    fun d hd => ?_, fun _ _ _ => rfl, fun d hd => ?_⟩, writes_none rfl⟩
  · cases hst
  · cases hd
  · cases hd

theorem inv_run {stage : Stage} {evs : List Event} (h : Run (Guarded Ok Step) (fresh stage) evs s) :
    Inv s :=
  h.invariant (P := Inv) (fun _ _ _ hs hstep => inv_step hs hstep.1 hstep.2) (inv_fresh stage)

/-- What is read from the buffer is another result than the one that was sent. -/
theorem not_answered {ev : Event} (h : Inv s) (hstep : Step s ev t) (hok : ¬Ok s ev) : ¬Answered t := by
  obtain ⟨henabled, rfl⟩ := hstep
  cases ev with
  | perform c =>
    intro hanswered
    have hreceived : (Function.update s.replies c (s.replies c).perform c).received <+:
        (Function.update s.replies c (s.replies c).perform c).statuses.map Status.text :=
      hanswered.received c
    rw [Function.update_self] at hreceived
    exact hok ((queued_perform_iff (h.records.queued c) henabled.2.2.1 henabled.2.2.2).mp hreceived)
  | connect => exact absurd trivial hok
  | message _ => exact absurd trivial hok
  | disconnect _ => exact absurd trivial hok
  | done _ _ => exact absurd trivial hok
  | written _ => exact absurd trivial hok

/-- The clients receive their results as long as the steps of a run meet the condition,
and no longer. -/
theorem replies_right {stage : Stage} {evs : List Event}
    (h : Run (Guarded Ok Step) (fresh stage) evs s) :
    Answered s ∧ ∀ ev t, Step s ev t → (Answered t ↔ Ok s ev) := by
  have hinv := inv_run h
  refine ⟨hinv.records.answered, fun ev t hstep => ⟨fun hanswered => ?_, fun hok => ?_⟩⟩
  · by_contra hok
    exact not_answered hinv hstep hok hanswered
  · exact (inv_step hinv hok hstep).records.answered

instance (s : ApplePush) : ∀ ev, Decidable (Ok s ev)
  | .perform _ => inferInstanceAs (Decidable (_ = _))
  | .connect => .isTrue trivial
  | .message _ => .isTrue trivial
  | .disconnect _ => .isTrue trivial
  | .done _ _ => .isTrue trivial
  | .written _ => .isTrue trivial

/-- The socket is ready, the client has sent two messages, and the first has been
written. -/
def ready : List Event :=
  [.message 7, .connect, .done ⟨.connect, false⟩ .success, .done ⟨.write 7 0, true⟩ .aborted,
    .done ⟨.handshake, false⟩ .success, .message 7, .done ⟨.write 7 0, false⟩ .success]

/-- The first result is on the socket of the client before the second one is known. -/
def inTurn : List Event :=
  ready ++ [.perform 7, .done ⟨.write 7 1, false⟩ .failed, .written 7, .perform 7]

theorem replies_right_inTurn : Answered (inTurn.foldl next (fresh .idle)) :=
  (replies_right (Run.plays_guarded (by decide))).1

/-- The second result is known before the first one is on the socket. -/
def overwritten : List Event := ready ++ [.done ⟨.write 7 1, false⟩ .failed, .perform 7]

/-- The client receives the beginning of the second result as the first. -/
theorem replies_overwritten : ∃ s, Run Step (fresh .idle) overwritten s ∧
    (s.replies 7).received = [bytes "FA"] ∧ ¬Answered s := by
  refine ⟨_, Run.plays (by decide), by decide, fun h => ?_⟩
  have hreceived := h.received 7
  exact absurd hreceived (by decide)

end CppSnippets.PushProxy.Answers
