import CppSnippets.PushRelay.Upstream

/-!
# Replies to the right client

The entry in front of the list, the message that is written and the reply stay in
step as long as the socket is not lost in the middle of a write or a reply, and as
long as the list is not walked with the entry of a disconnected client in it.
-/
namespace CppSnippets.PushRelay.ReplyMatch

open CppSnippets.Lib ApplePush
open CppSnippets.Push

variable {s t : ApplePush}

/-- Every result went to the client whose message was written, every message taken
off a queue was the one written, and none that was written with success was written
again. -/
structure Matched (s : ApplePush) : Prop where
  safe : s.fault = false
  reply : ∀ c msg target, .replied c msg target ∈ s.log → target = c
  pop : ∀ msg front, .popped msg front ∈ s.log → front = msg
  once : s.log.Pairwise fun a b => ∀ c msg, a = .succeeded c msg → ∀ c', b ≠ .started c' msg

/-- No message is being written or answered. -/
def Idle (s : ApplePush) : Prop := s.stage ≠ .writing ∧ s.stage ≠ .replying

def AllConnected (s : ApplePush) : Prop := ∀ d ∈ s.bufs, d.connected = true

def FrontConnected (s : ApplePush) : Prop := (s.bufs.head?.all fun d => d.connected) = true

/-- A read fails only while no message is being written or answered, and no client
in the list is disconnected when `write_msg` walks it. -/
def Ok (s : ApplePush) : Event → Prop
  | .message _ => s.stage = .ready → AllConnected s
  | .disconnect _ => True
  | .done ⟨.connect, _⟩ ec => ec = .success → AllConnected s
  | .done ⟨.read, _⟩ ec => ec ≠ .success → Idle s
  | .done ⟨.write _ _, _⟩ _ => FrontConnected s
  | .done ⟨.reply _ _, _⟩ _ => AllConnected s

/-! ## The invariant -/

/-- What holds in every stage. -/
structure Base (s : ApplePush) : Prop where
  matched : Matched s
  nodup : (queued s.bufs).Nodup
  bound : ∀ msg ∈ queued s.bufs, msg < s.taken
  old : ∀ c msg, .succeeded c msg ∈ s.log → msg < s.taken
  link : (s.ops.only Kind.isLink).length ≤ 1

/-- Nothing is being written or answered. -/
structure Calm (s : ApplePush) : Prop extends Base s where
  writes : s.ops.only Kind.isWrite = []
  replies : s.ops.only Kind.isReply = []
  fresh : ∀ c msg, .succeeded c msg ∈ s.log → msg ∉ queued s.bufs

/-- The first message of the entry in front is being written or answered. -/
structure Busy (s : ApplePush) (writes replies : Client → Nat → Pending Kind)
    (answered : Prop) : Prop extends Base s where
  front : ∃ d bufs msg data, s.bufs = d :: bufs ∧ d.data = msg :: data ∧
    s.ops.only Kind.isWrite = writes d.client msg ∧
    s.ops.only Kind.isReply = replies d.client msg ∧
    ∀ c m, .succeeded c m ∈ s.log → m ∈ queued s.bufs → answered ∧ m = msg

/-- The invariant of a relay that does not lose its socket in between. -/
def Inv (s : ApplePush) : Prop :=
  (∀ a, ⟨.connect, a⟩ ∈ s.ops → s.stage = .connecting) ∧
  match s.stage with
  | .writing => Busy s (fun c msg => [⟨.write c msg, false⟩]) (fun _ _ => []) False
  | .replying => Busy s (fun _ _ => []) (fun c msg => [⟨.reply c msg, false⟩]) True
  | _ => Calm s

theorem Inv.writing (h : Inv s) (hstage : s.stage = .writing) :
    Busy s (fun c msg => [⟨.write c msg, false⟩]) (fun _ _ => []) False := by
  obtain ⟨_, h⟩ := h
  rw [hstage] at h
  exact h

theorem Inv.replying (h : Inv s) (hstage : s.stage = .replying) :
    Busy s (fun _ _ => []) (fun c msg => [⟨.reply c msg, false⟩]) True := by
  obtain ⟨_, h⟩ := h
  rw [hstage] at h
  exact h

theorem Inv.calm (h : Inv s) (hidle : Idle s) : Calm s := by
  obtain ⟨_, h⟩ := h
  obtain ⟨hw, hr⟩ := hidle
  cases hstage : s.stage with
  | writing => exact absurd hstage hw
  | replying => exact absurd hstage hr
  | _ =>
    rw [hstage] at h
    exact h

theorem Inv.base (h : Inv s) : Base s := by
  by_cases hw : s.stage = .writing
  · exact (h.writing hw).toBase
  · by_cases hr : s.stage = .replying
    · exact (h.replying hr).toBase
    · exact (h.calm ⟨hw, hr⟩).toBase

theorem Inv.writing_of_mem (h : Inv s) {o : Op Kind} (hmem : o ∈ s.ops.only Kind.isWrite) :
    s.stage = .writing := by
  have hne := List.ne_nil_of_mem hmem
  by_contra hw
  by_cases hr : s.stage = .replying
  · obtain ⟨_, _, _, _, _, _, hnil, _⟩ := (h.replying hr).front
    exact hne hnil
  · exact hne (h.calm ⟨hw, hr⟩).writes

theorem Inv.replying_of_mem (h : Inv s) {o : Op Kind} (hmem : o ∈ s.ops.only Kind.isReply) :
    s.stage = .replying := by
  have hne := List.ne_nil_of_mem hmem
  by_contra hr
  by_cases hw : s.stage = .writing
  · obtain ⟨_, _, _, _, _, _, _, hnil, _⟩ := (h.writing hw).front
    exact hne hnil
  · exact hne (h.calm ⟨hw, hr⟩).replies

/-- No connect is outstanding once the socket is connected. -/
def NoConnect (s : ApplePush) : Prop := ∀ a, ⟨.connect, a⟩ ∉ s.ops

theorem Inv.noConnect (h : Inv s) (hstage : s.stage ≠ .connecting) : NoConnect s :=
  fun a hmem => hstage (h.1 a hmem)

/-! ## What the handlers do -/

/-- An entry of the log that is right by itself. -/
def Fine : Entry → Prop
  | .replied c _ target => target = c
  | .popped msg front => front = msg
  | _ => True

theorem matched_append {e : Entry} (h : Matched s) (hfault : t.fault = s.fault)
    (hlog : t.log = s.log ++ [e]) (hfine : Fine e)
    (hstart : ∀ c msg, e = .started c msg → ∀ c', .succeeded c' msg ∉ s.log) : Matched t := by
  constructor
  · rw [hfault]
    exact h.safe
  · intro c msg target hmem
    rw [hlog] at hmem
    rcases List.mem_append.mp hmem with hmem | hmem
    · exact h.reply c msg target hmem
    · rw [← List.mem_singleton.mp hmem] at hfine
      exact hfine
  · intro msg front hmem
    rw [hlog] at hmem
    rcases List.mem_append.mp hmem with hmem | hmem
    · exact h.pop msg front hmem
    · rw [← List.mem_singleton.mp hmem] at hfine
      exact hfine
  · rw [hlog]
    refine List.pairwise_append.mpr ⟨h.once, List.pairwise_singleton _ _, ?_⟩
    intro a ha b hb c msg hsucceeded c' hstarted
    rw [List.mem_singleton.mp hb] at hstarted
    rw [hsucceeded] at ha
    exact hstart c' msg hstarted c ha

theorem link_close (ps : Pending Kind) (h : ps.only Kind.isLink = []) :
    (((ps.close Kind.upstream).start .connect).only Kind.isLink).length ≤ 1 :=
  Pending.only_start_first rfl (Pending.only_close_nil h)

theorem inv_connect (h : Calm s) (hlink : s.ops.only Kind.isLink = []) : Inv s.connect := by
  have hk : ∀ k, Kind.isReply k = true → Kind.upstream k = false := by
    intro k hk
    rw [Kind.upstream, hk]
    rfl
  refine ⟨fun _ _ => rfl, ?_⟩
  show Calm s.connect
  refine ⟨⟨⟨h.matched.safe, h.matched.reply, h.matched.pop, h.matched.once⟩, h.nodup, h.bound,
    h.old, link_close s.ops hlink⟩, ?_, ?_, h.fresh⟩
  · show ((s.ops.close Kind.upstream).start .connect).only _ = []
    rw [Pending.only_start_not rfl]
    exact Pending.only_close_nil h.writes
  · show ((s.ops.close Kind.upstream).start .connect).only _ = []
    rw [Pending.only_start_not rfl, Pending.only_close_not hk]
    exact h.replies

theorem noConnect_start {ps : Pending Kind} {k : Kind} (h : ∀ a, ⟨.connect, a⟩ ∉ ps)
    (hk : k ≠ .connect) : ∀ a, ⟨.connect, a⟩ ∉ ps.start k := by
  intro a hmem
  rcases Pending.mem_start.mp hmem with hmem | heq
  · exact h a hmem
  · exact hk (Op.mk.inj heq).1.symm

theorem writeMsg_ready (hstage : s.stage = .ready) (hne : s.bufs ≠ []) (hall : AllConnected s) :
    s.writeMsg = writeFront { s with bufs := splice s.bufs } := by
  rw [writeMsg, if_neg (by rintro (h | h); exacts [h hstage, hne h]), if_neg]
  intro hany
  obtain ⟨d, hd, hdis⟩ := List.any_eq_true.mp hany
  rw [hall d hd] at hdis
  cases hdis

theorem writeFront_nil {d : PushData} {bufs : List PushData} (hbufs : s.bufs = d :: bufs)
    (hdata : d.data = []) : s.writeFront = s := by
  rw [writeFront, hbufs]
  dsimp only
  rw [hdata]

theorem writeFront_cons {d : PushData} {bufs : List PushData} {msg : Nat} {data : List Nat}
    (hbufs : s.bufs = d :: bufs) (hdata : d.data = msg :: data) :
    s.writeFront = { s with
      stage := .writing, ops := s.ops.start (.write d.client msg)
      log := s.log ++ [.started d.client msg] } := by
  rw [writeFront, hbufs]
  dsimp only
  rw [hdata]

theorem inv_writeMsg (h : Calm s) (hstage : s.stage = .ready) (hall : AllConnected s)
    (hconn : NoConnect s) : Inv s.writeMsg := by
  by_cases hne : s.bufs = []
  · rw [writeMsg, if_pos (.inr hne)]
    refine ⟨fun a ha => absurd ha (hconn a), ?_⟩
    rw [hstage]
    exact h
  · have hperm := queued_perm (splice_perm s.bufs)
    rw [writeMsg_ready hstage hne hall]
    cases hbufs : splice s.bufs with
    | nil =>
      have hlen := (splice_perm s.bufs).length_eq
      rw [hbufs] at hlen
      exact absurd (List.length_eq_zero_iff.mp hlen.symm) hne
    | cons d rest =>
      rw [hbufs] at hperm
      have hbase : ∀ msg, msg ∈ queued (d :: rest) ↔ msg ∈ queued s.bufs := fun msg => hperm.mem_iff
      cases hdata : d.data with
      | nil =>
        rw [writeFront_nil rfl hdata]
        refine ⟨fun a ha => absurd ha (hconn a), ?_⟩
        rw [hstage]
        exact ⟨⟨⟨h.matched.safe, h.matched.reply, h.matched.pop, h.matched.once⟩,
          hperm.nodup_iff.mpr h.nodup, fun msg hm => h.bound msg ((hbase msg).mp hm), h.old, h.link⟩,
          h.writes, h.replies, fun c msg hs hm => h.fresh c msg hs ((hbase msg).mp hm)⟩
      | cons msg data =>
        have hmsg : msg ∈ queued s.bufs := by
          rw [← hbase, queued, List.flatMap_cons, hdata]
          exact List.mem_append_left _ List.mem_cons_self
        rw [writeFront_cons rfl hdata]
        refine ⟨fun a ha => absurd ha (noConnect_start hconn (by intro h; cases h) a), ?_⟩
        show Busy _ _ _ _
        refine ⟨⟨?_, hperm.nodup_iff.mpr h.nodup, fun m hm => h.bound m ((hbase m).mp hm), ?_, ?_⟩,
          d, rest, msg, data, rfl, hdata, ?_, ?_, ?_⟩
        · refine matched_append h.matched rfl rfl trivial fun c m hs c' => ?_
          cases hs
          exact fun hold => h.fresh c' msg hold hmsg
        · intro c m hm
          rcases List.mem_append.mp hm with hm | hm
          · exact h.old c m hm
          · cases List.mem_singleton.mp hm
        · rw [Pending.only_start_not rfl]
          exact h.link
        · rw [Pending.only_start_of rfl, h.writes]
          rfl
        · rw [Pending.only_start_not rfl]
          exact h.replies
        · intro c m hm hin
          rcases List.mem_append.mp hm with hm | hm
          · exact absurd ((hbase m).mp hin) (h.fresh c m hm)
          · cases List.mem_singleton.mp hm

/-- The entries may change as long as the one in front keeps its client and its
first message, and every message is new or was there. -/
theorem inv_bufs (h : Inv s) {bufs : List PushData} {taken : Nat} (htaken : s.taken ≤ taken)
    (hnodup : (queued bufs).Nodup) (hbound : ∀ msg ∈ queued bufs, msg < taken)
    (hold : ∀ msg ∈ queued bufs, msg ∈ queued s.bufs ∨ s.taken ≤ msg)
    (hfront : ∀ d rest msg data, s.bufs = d :: rest → d.data = msg :: data →
      ∃ d' rest' data', bufs = d' :: rest' ∧ d'.data = msg :: data' ∧ d'.client = d.client) :
    Inv { s with bufs := bufs, taken := taken } := by
  have hbase : Base { s with bufs := bufs, taken := taken } := by
    obtain ⟨hm, _, _, ho, hl⟩ := h.base
    exact ⟨⟨hm.safe, hm.reply, hm.pop, hm.once⟩, hnodup, hbound,
      fun c msg hs => Nat.lt_of_lt_of_le (ho c msg hs) htaken, hl⟩
  have hqueued : ∀ c msg, .succeeded c msg ∈ s.log → msg ∈ queued bufs → msg ∈ queued s.bufs := by
    intro c msg hs hmem
    refine (hold msg hmem).resolve_right fun hge => ?_
    exact absurd (h.base.old c msg hs) (Nat.not_lt.mpr hge)
  have hcalm : Calm s → Calm { s with bufs := bufs, taken := taken } := fun hc =>
    ⟨hbase, hc.writes, hc.replies, fun c msg hs hmem => hc.fresh c msg hs (hqueued c msg hs hmem)⟩
  have hbusy : ∀ {writes replies answered}, Busy s writes replies answered →
      Busy { s with bufs := bufs, taken := taken } writes replies answered := by
    intro writes replies answered hb
    obtain ⟨d, rest, msg, data, hbufs, hdata, hw, hr, hs⟩ := hb.front
    obtain ⟨d', rest', data', hbufs', hdata', hclient⟩ := hfront d rest msg data hbufs hdata
    rw [← hclient] at hw hr
    exact ⟨hbase, d', rest', msg, data', hbufs', hdata', hw, hr,
      fun c m hm hmem => hs c m hm (hqueued c m hm hmem)⟩
  refine ⟨h.1, ?_⟩
  obtain ⟨_, h⟩ := h
  obtain ⟨stage, _⟩ := s
  cases stage with
  | zero => exact hcalm h
  | connecting => exact hcalm h
  | ready => exact hcalm h
  | writing => exact hbusy h
  | replying => exact hbusy h

theorem inv_post (h : Inv s) (c : Client) :
    Inv { s with bufs := post c s.taken s.bufs, taken := s.taken + 1 } := by
  have hperm := queued_post c s.taken s.bufs
  have hbase := h.base
  refine inv_bufs h (Nat.le_succ _) ?_ ?_ ?_ ?_
  · refine hperm.nodup_iff.mpr (List.nodup_cons.mpr ⟨fun hmem => ?_, hbase.nodup⟩)
    exact Nat.lt_irrefl _ (hbase.bound _ hmem)
  · intro msg hmem
    rcases List.mem_cons.mp (hperm.mem_iff.mp hmem) with rfl | hmem
    · exact Nat.lt_succ_self _
    · exact Nat.lt_succ_of_lt (hbase.bound msg hmem)
  · intro msg hmem
    rcases List.mem_cons.mp (hperm.mem_iff.mp hmem) with rfl | hmem
    · exact .inr (Nat.le_refl _)
    · exact .inl hmem
  · intro d rest msg data hbufs hdata
    obtain ⟨d', rest', hpost, hclient, _, hprefix⟩ := post_front c s.taken d rest
    rw [hdata] at hprefix
    obtain ⟨more, hmore⟩ := hprefix
    exact ⟨d', rest', data ++ more, by rw [hbufs, hpost], hmore.symm, hclient⟩

theorem inv_disconnect (h : Inv s) (c : Client) : Inv (s.disconnect c) := by
  have hqueued := queued_hangUp c s.bufs
  refine inv_bufs h (Nat.le_refl _) (hqueued ▸ h.base.nodup) (hqueued ▸ h.base.bound)
    (fun msg hmem => .inl (hqueued ▸ hmem)) ?_
  intro d rest msg data hbufs hdata
  obtain ⟨d', rest', hhang, hclient, hdata'⟩ := hangUp_front c d rest
  exact ⟨d', rest', data, by rw [hbufs, hhang], hdata'.trans hdata, hclient⟩

theorem connected_post {c : Client} {msg : Nat} {bufs : List PushData}
    (h : ∀ d ∈ bufs, d.connected = true) : ∀ d ∈ post c msg bufs, d.connected = true := by
  induction bufs with
  | nil =>
    intro d hd
    cases List.mem_singleton.mp hd
    rfl
  | cons x bufs ih =>
    obtain ⟨hx, hrest⟩ := List.forall_mem_cons.mp h
    rw [post]
    by_cases hc : x.client = c
    · rw [if_pos hc]
      exact List.forall_mem_cons.mpr ⟨hx, hrest⟩
    · rw [if_neg hc]
      exact List.forall_mem_cons.mpr ⟨hx, ih hrest⟩

theorem inv_pmessage (h : Inv s) (c : Client) (hok : s.stage = .ready → AllConnected s) :
    Inv (s.pmessage c) := by
  have hpost := inv_post h c
  rw [pmessage]
  by_cases hstage : s.stage = .ready
  · refine inv_writeMsg (hpost.calm ⟨?_, ?_⟩) hstage (connected_post (hok hstage))
      (hpost.noConnect ?_) <;> simp [hstage]
  · rw [writeMsg, if_pos (.inl hstage)]
    exact hpost

theorem calm_erase (h : Calm s) {o : Op Kind} (hw : o.kind.isWrite = false)
    (hr : o.kind.isReply = false) : Calm { s with ops := s.ops.erase o } :=
  ⟨⟨⟨h.matched.safe, h.matched.reply, h.matched.pop, h.matched.once⟩, h.nodup, h.bound, h.old,
    Nat.le_trans (List.erase_sublist.filter _).length_le h.link⟩,
    (Pending.only_erase_not hw).trans h.writes, (Pending.only_erase_not hr).trans h.replies, h.fresh⟩

/-- There is one connect or read at a time. -/
theorem link_erase (h : Base s) {o : Op Kind} (hmem : o ∈ s.ops) (ho : o.kind.isLink = true) :
    Pending.only (s.ops.erase o) Kind.isLink = [] := Pending.only_erase_last hmem ho h.link

theorem noConnect_of_link (h : s.ops.only Kind.isLink = []) : NoConnect s :=
  fun _ => Pending.not_mem_of_only_nil h rfl

theorem inv_handleConnect (h : Inv s) {aborted : Bool} {ec : Outcome}
    (hmem : ⟨.connect, aborted⟩ ∈ s.ops) (hok : ec = .success → AllConnected s) :
    Inv (handleConnect { s with ops := s.ops.erase ⟨.connect, aborted⟩ } ec) := by
  have hstage := h.1 aborted hmem
  have hcalm := calm_erase (h.calm ⟨by simp [hstage], by simp [hstage]⟩)
    (o := ⟨.connect, aborted⟩) rfl rfl
  have hlink := link_erase h.base hmem rfl
  have hconn := noConnect_of_link (s := { s with ops := s.ops.erase ⟨.connect, aborted⟩ }) hlink
  rw [handleConnect]
  by_cases hec : ec = .success
  · rw [if_neg (fun hne => hne hec)]
    refine inv_writeMsg ⟨⟨⟨hcalm.matched.safe, hcalm.matched.reply, hcalm.matched.pop,
      hcalm.matched.once⟩, hcalm.nodup, hcalm.bound, hcalm.old, ?_⟩, ?_, ?_, hcalm.fresh⟩ rfl
      (hok hec) (noConnect_start hconn (by intro h; cases h))
    · exact Pending.only_start_first rfl hlink
    · exact (Pending.only_start_not rfl).trans hcalm.writes
    · exact (Pending.only_start_not rfl).trans hcalm.replies
  · rw [if_pos hec]
    refine ⟨fun a ha => absurd ha (hconn a), ?_⟩
    exact ⟨⟨⟨hcalm.matched.safe, hcalm.matched.reply, hcalm.matched.pop, hcalm.matched.once⟩,
      hcalm.nodup, hcalm.bound, hcalm.old, hcalm.link⟩, hcalm.writes, hcalm.replies, hcalm.fresh⟩

theorem inv_ops (h : Inv s) {ops : Pending Kind}
    (hw : ops.only Kind.isWrite = s.ops.only Kind.isWrite)
    (hr : ops.only Kind.isReply = s.ops.only Kind.isReply)
    (hlink : (ops.only Kind.isLink).length ≤ 1)
    (hconn : ∀ a, ⟨.connect, a⟩ ∈ ops → s.stage = .connecting) : Inv { s with ops := ops } := by
  have hbase : Base { s with ops := ops } := by
    obtain ⟨hm, hn, hb, ho, _⟩ := h.base
    exact ⟨⟨hm.safe, hm.reply, hm.pop, hm.once⟩, hn, hb, ho, hlink⟩
  have hcalm : Calm s → Calm { s with ops := ops } := fun hc =>
    ⟨hbase, hw.trans hc.writes, hr.trans hc.replies, hc.fresh⟩
  have hbusy : ∀ {writes replies answered}, Busy s writes replies answered →
      Busy { s with ops := ops } writes replies answered := by
    intro writes replies answered hb
    obtain ⟨d, rest, msg, data, hbufs, hdata, hw', hr', hs⟩ := hb.front
    exact ⟨hbase, d, rest, msg, data, hbufs, hdata, hw.trans hw', hr.trans hr', hs⟩
  refine ⟨hconn, ?_⟩
  obtain ⟨_, h⟩ := h
  obtain ⟨stage, _⟩ := s
  cases stage with
  | zero => exact hcalm h
  | connecting => exact hcalm h
  | ready => exact hcalm h
  | writing => exact hbusy h
  | replying => exact hbusy h

theorem inv_handleRead (h : Inv s) {aborted : Bool} {ec : Outcome}
    (hmem : ⟨.read, aborted⟩ ∈ s.ops) (hok : ec ≠ .success → Idle s) :
    Inv (handleRead { s with ops := s.ops.erase ⟨.read, aborted⟩ } ec) := by
  have hlink := link_erase h.base hmem rfl
  rw [handleRead]
  by_cases hec : ec = .success
  · rw [if_neg (fun hne => hne hec)]
    refine inv_ops h ?_ ?_ ?_ ?_
    · exact (Pending.only_start_not rfl).trans (Pending.only_erase_not rfl)
    · exact (Pending.only_start_not rfl).trans (Pending.only_erase_not rfl)
    · exact Pending.only_start_first rfl hlink
    · intro a ha
      rcases Pending.mem_start.mp ha with ha | ha
      · exact h.1 a (List.erase_subset ha)
      · cases ha
  · rw [if_pos hec]
    exact inv_connect (calm_erase (h.calm (hok hec)) (o := ⟨.read, aborted⟩) rfl rfl) hlink

/-- The first message of the entry in front has been answered, or need not be. -/
theorem inv_handleReply {d : PushData} {bufs : List PushData} {msg : Nat} {data : List Nat}
    (h : Base s) (hbufs : s.bufs = d :: bufs) (hdata : d.data = msg :: data)
    (hwrites : s.ops.only Kind.isWrite = []) (hreplies : s.ops.only Kind.isReply = [])
    (hold : ∀ c m, .succeeded c m ∈ s.log → m ∈ queued s.bufs → m = msg)
    (hall : AllConnected s) (hconn : NoConnect s) : Inv (s.handleReply msg) := by
  obtain ⟨c, connected, _⟩ := d
  obtain rfl : _ = msg :: data := hdata
  have hqueued : queued s.bufs = msg :: queued (⟨c, connected, data⟩ :: bufs) := by
    rw [hbufs]
    rfl
  have hnodup := h.nodup
  rw [hqueued, List.nodup_cons] at hnodup
  rw [handleReply, popData, hbufs]
  refine inv_writeMsg ⟨⟨?_, hnodup.2, ?_, ?_, h.link⟩, hwrites, hreplies, ?_⟩ rfl ?_ hconn
  · exact matched_append h.matched rfl rfl (show Fine (.popped msg msg) from rfl)
      (fun _ _ hs => by cases hs)
  · intro m hm
    apply h.bound
    rw [hqueued]
    exact List.mem_cons_of_mem _ hm
  · intro c' m hm
    rcases List.mem_append.mp hm with hm | hm
    · exact h.old c' m hm
    · cases List.mem_singleton.mp hm
  · intro c' m hm hin
    rcases List.mem_append.mp hm with hm | hm
    · have hmsg := hold c' m hm (by rw [hqueued]; exact List.mem_cons_of_mem _ hin)
      rw [hmsg] at hin
      exact hnodup.1 hin
    · cases List.mem_singleton.mp hm
  · intro x hx
    unfold AllConnected at hall
    rw [hbufs] at hall
    obtain ⟨hd, hrest⟩ := List.forall_mem_cons.mp hall
    rcases List.mem_cons.mp hx with rfl | hx
    · exact hd
    · exact hrest x hx

/-- A write that ended with success is noted. -/
theorem matched_noted (h : Matched s) (c : Client) (msg : Nat) (ec : Outcome) :
    Matched { s with log := if ec = .success then s.log ++ [.succeeded c msg] else s.log } := by
  by_cases hs : ec = .success
  · simp only [if_pos hs]
    exact matched_append h rfl rfl trivial (fun _ _ hstart => by cases hstart)
  · simp only [if_neg hs]
    exact h

theorem succeeded_noted {log : List Entry} {c c' : Client} {msg m : Nat} {ec : Outcome}
    (hm : Entry.succeeded c' m ∈ if ec = .success then log ++ [.succeeded c msg] else log) :
    Entry.succeeded c' m ∈ log ∨ m = msg := by
  by_cases hs : ec = .success
  · rw [if_pos hs] at hm
    rcases List.mem_append.mp hm with hm | hm
    · exact .inl hm
    · cases List.mem_singleton.mp hm
      exact .inr rfl
  · rw [if_neg hs] at hm
    exact .inl hm

theorem inv_handleWrite (h : Inv s) {c : Client} {msg : Nat} {aborted : Bool} {ec : Outcome}
    (hmem : ⟨.write c msg, aborted⟩ ∈ s.ops)
    (hends : Op.Ends (⟨.write c msg, aborted⟩ : Op Kind) ec)
    (hok : FrontConnected s) :
    Inv (handleWrite { s with ops := s.ops.erase ⟨.write c msg, aborted⟩ } c msg ec) := by
  have hone := Pending.mem_only.mpr ⟨hmem, show Kind.isWrite (.write c msg) = true from rfl⟩
  have hstage := h.writing_of_mem hone
  have hbusy := h.writing hstage
  obtain ⟨d, bufs, front, data, hbufs, hdata, hwrites, hreplies, hold⟩ := hbusy.front
  rw [hwrites, List.mem_singleton] at hone
  obtain ⟨hkind, rfl⟩ := Op.mk.inj hone
  obtain ⟨rfl, rfl⟩ := Kind.write.inj hkind
  have hec : ec ≠ .aborted := fun h' => Bool.false_ne_true (hends.mp h')
  have hd : d.connected = true := by
    rw [FrontConnected, hbufs] at hok
    exact hok
  rw [handleWrite]
  simp only [hbufs, if_neg hec, if_pos hd]
  refine ⟨fun a ha => ?_, ?_⟩
  · rcases Pending.mem_start.mp ha with ha | ha
    · exact absurd (h.1 a (List.erase_subset ha)) (by simp [hstage])
    · cases ha
  show Busy _ _ _ _
  have hmsg : msg ∈ queued s.bufs := by
    rw [hbufs, queued, List.flatMap_cons, hdata]
    exact List.mem_append_left _ List.mem_cons_self
  refine ⟨⟨?_, ?_, ?_, ?_, ?_⟩, d, bufs, msg, data, rfl, hdata, ?_, ?_, ?_⟩
  · have hmatched := matched_noted hbusy.matched d.client msg ec
    exact matched_append hmatched rfl rfl (show Fine (.replied d.client msg d.client) from rfl)
      (fun _ _ hs => by cases hs)
  · exact hbufs ▸ hbusy.nodup
  · exact hbufs ▸ hbusy.bound
  · intro c m hm
    rcases List.mem_append.mp hm with hm | hm
    · rcases succeeded_noted hm with hm | rfl
      · exact hbusy.old c m hm
      · exact hbusy.bound _ hmsg
    · cases List.mem_singleton.mp hm
  · rw [Pending.only_start_not rfl, Pending.only_erase_not rfl]
    exact hbusy.link
  · rw [Pending.only_start_not rfl, Pending.only_erase, hwrites]
    exact List.erase_cons_head _ _
  · rw [Pending.only_start_of rfl, Pending.only_erase_not rfl, hreplies]
    rfl
  · intro c m hm hin
    rcases List.mem_append.mp hm with hm | hm
    · rcases succeeded_noted hm with hm | rfl
      · exact absurd (hold c m hm (hbufs ▸ hin)).1 not_false
      · exact ⟨trivial, rfl⟩
    · cases List.mem_singleton.mp hm

theorem inv_done_reply (h : Inv s) {target : Client} {msg : Nat} {aborted : Bool}
    (hmem : ⟨.reply target msg, aborted⟩ ∈ s.ops) (hok : AllConnected s) :
    Inv (handleReply { s with ops := s.ops.erase ⟨.reply target msg, aborted⟩ } msg) := by
  have hone := Pending.mem_only.mpr ⟨hmem, show Kind.isReply (.reply target msg) = true from rfl⟩
  have hstage := h.replying_of_mem hone
  have hbusy := h.replying hstage
  obtain ⟨d, bufs, front, data, hbufs, hdata, hwrites, hreplies, hold⟩ := hbusy.front
  rw [hreplies, List.mem_singleton] at hone
  obtain ⟨hkind, rfl⟩ := Op.mk.inj hone
  obtain ⟨rfl, rfl⟩ := Kind.reply.inj hkind
  have hbase : Base { s with ops := s.ops.erase ⟨.reply d.client msg, false⟩ } :=
    ⟨⟨hbusy.matched.safe, hbusy.matched.reply, hbusy.matched.pop, hbusy.matched.once⟩,
      hbusy.nodup, hbusy.bound, hbusy.old,
      Nat.le_trans (List.erase_sublist.filter _).length_le hbusy.link⟩
  refine inv_handleReply hbase hbufs hdata ((Pending.only_erase_not rfl).trans hwrites) ?_
    (fun c m hm hin => (hold c m hm hin).2) hok fun a ha => ?_
  · show Pending.only (s.ops.erase _) Kind.isReply = []
    rw [Pending.only_erase, hreplies]
    exact List.erase_cons_head _ _
  · exact absurd (h.1 a (List.erase_subset ha)) (by simp [hstage])

theorem inv_step {ev : Event} (h : Inv s) (hok : Ok s ev) (hstep : Step s ev t) : Inv t := by
  obtain ⟨hen, rfl⟩ := hstep
  cases ev with
  | message c => exact inv_pmessage h c hok
  | disconnect c => exact inv_disconnect h c
  | done o ec =>
    obtain ⟨_, hmem, hends⟩ := hen
    obtain ⟨kind, aborted⟩ := o
    cases kind with
    | connect => exact inv_handleConnect h hmem hok
    | read => exact inv_handleRead h hmem hok
    | write c msg => exact inv_handleWrite h hmem hends hok
    | reply target msg => exact inv_done_reply h hmem hok

theorem inv_init : Inv init := by
  apply inv_connect
  · refine ⟨⟨⟨rfl, ?_, ?_, List.Pairwise.nil⟩, List.nodup_nil, ?_, ?_, Nat.zero_le _⟩, rfl, rfl, ?_⟩
    · intro c msg target hmem
      cases hmem
    · intro msg front hmem
      cases hmem
    · intro msg hmem
      cases hmem
    · intro c msg hmem
      cases hmem
    · intro c msg hmem
      cases hmem
  · rfl

/-! ## The main result -/

/-- The replies match the messages as long as no read fails while a message is being
written or answered, and no client in the list is disconnected when it is walked. -/
theorem replies_match {evs : List Event} (h : Run (Guarded Ok Step) init evs s) : Matched s := by
  have hinv : Inv s :=
    h.invariant (P := Inv) (fun _ _ _ hs hstep => inv_step hs hstep.1 hstep.2) inv_init
  exact hinv.base.matched

instance (s : ApplePush) : Decidable (AllConnected s) := decidable_of_iff _ List.all_eq_true

instance (s : ApplePush) : Decidable (FrontConnected s) := inferInstanceAs (Decidable (_ = _))

instance (s : ApplePush) : ∀ ev, Decidable (Ok s ev)
  | .message _ => inferInstanceAs (Decidable (_ = _ → AllConnected s))
  | .disconnect _ => .isTrue trivial
  | .done ⟨.connect, _⟩ _ => inferInstanceAs (Decidable (_ = _ → AllConnected s))
  | .done ⟨.read, _⟩ _ => inferInstanceAs (Decidable (_ ≠ _ → _ ∧ _))
  | .done ⟨.write _ _, _⟩ _ => inferInstanceAs (Decidable (FrontConnected s))
  | .done ⟨.reply _ _, _⟩ _ => inferInstanceAs (Decidable (AllConnected s))

/-- Two clients; the first message is written with success, the second is not. -/
def served : List Event :=
  [.done ⟨.connect, false⟩ .success, .message 7, .message 8, .done ⟨.write 7 0, false⟩ .success,
    .done ⟨.reply 7 0, false⟩ .success, .done ⟨.write 8 1, false⟩ .failed]

theorem replies_match_served : Matched (served.foldl ApplePush.next init) :=
  replies_match (Run.plays_guarded (by decide))

/-- The socket is lost while a message is answered. -/
def lostReplying : List Event :=
  [.done ⟨.connect, false⟩ .success, .message 7, .done ⟨.write 7 0, false⟩ .success,
    .done ⟨.read, false⟩ .failed, .done ⟨.connect, false⟩ .success]

/-- The socket is lost while a message is written, and another client comes. -/
def lostWriting : List Event :=
  [.done ⟨.connect, false⟩ .success, .message 7, .done ⟨.read, false⟩ .failed,
    .done ⟨.write 7 0, true⟩ .aborted, .message 8, .done ⟨.connect, false⟩ .success,
    .done ⟨.write 7 0, false⟩ .success, .done ⟨.reply 7 0, false⟩ .success,
    .done ⟨.write 7 0, false⟩ .success]

/-- A client hangs up before the list is walked. -/
def hungUp : List Event := [.disconnect 7, .message 8, .done ⟨.connect, false⟩ .success]

/-- A message is written again after its write ended with success; the result of a
write goes to another client; and the list is walked on from an erased entry. -/
theorem replies_mismatch :
    (∃ s, Run Step init lostReplying s ∧ ¬Matched s ∧
      s.log = [.started 7 0, .succeeded 7 0, .replied 7 0 7, .started 7 0]) ∧
    (∃ s, Run Step init lostWriting s ∧ ¬Matched s ∧ .replied 7 0 8 ∈ s.log) ∧
    ∃ s, Run Step init hungUp s ∧ ¬Matched s ∧ s.fault = true := by
  refine ⟨⟨_, Run.plays (by decide), fun h => ?_, by decide⟩,
    ⟨_, Run.plays (by decide), fun h => ?_, by decide⟩,
    ⟨_, Run.plays (by decide), fun h => ?_, by decide⟩⟩
  · have hcut := List.pairwise_append.mp (show List.Pairwise _
      ([Entry.started 7 0, .succeeded 7 0] ++ [.replied 7 0 7, .started 7 0]) from h.once)
    exact hcut.2.2 (.succeeded 7 0) (by decide) (.started 7 0) (by decide) 7 0 rfl 7 rfl
  · exact absurd (h.reply 7 0 8 (by decide)) (by decide)
  · exact absurd h.safe (by decide)

end CppSnippets.PushRelay.ReplyMatch
