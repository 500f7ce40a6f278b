import CppSnippets.Push.FirstLine
import CppSnippets.PushProxy.InTurn
import CppSnippets.PushProxy.Proxy

/-!
# What becomes of the requests of a connection

In every run of the proxy each request that is handed on becomes one message, each
message is written upstream once at most and in the order of its client, and all frames
of a connection have the token and the alert of its first request: the parameters of a
request are looked up in those of all the requests before.
-/
namespace CppSnippets.PushProxy.Relayed

open CppSnippets.Lib ApplePush Proxy
open CppSnippets.PushProxy.InTurn
open CppSnippets.Push
open CppSnippets.Push.FirstLine
open CppSnippets.Wap (Bytes bytes)

variable {s t : ApplePush} {params : KeyValues} {L : Libraries} {p q : Proxy}

/-! ## The invariant -/

/-- `OK` was put into the client's buffer for what was written for it, but for one more
message whose write ended after it had gone. -/
def Delivered (p : Proxy) (c : Client) : Prop :=
  p.pushedFor c = p.okFor c ∨
    c ∈ p.apple.gone ∧ c ∉ p.apple.bufs.map PushData.client ∧
      ∃ n, p.pushedFor c = p.okFor c ++ [n] ∧
        (p.apple.replies c).statuses.map Status.msg ++ [n] <+: (p.apple.replies c).posted

/-- The messages of a client are its requests, in order. -/
structure Numbered (s : ApplePush) (taken : List Taken) : Prop where
  next : s.taken = taken.length
  messages : ∀ c, (s.replies c).posted.map (taken[·]?) = (taken.filter fun x => x.client = c).map some
  increasing : ∀ c, (s.replies c).posted.Pairwise (· < ·)

structure Inv (L : Libraries) (p : Proxy) : Prop where
  calm : Calm p.apple
  gone : ∀ c ∈ p.apple.gone, ∃ ec, (p.conns c).phase = .failed ec
  grows : ∀ c, Grows (p.conns c)
  requests : ∀ c, (p.takenFrom c).map Taken.request = (p.conns c).given
  frames : ∀ x ∈ p.taken, onRequest L.encode x.now L.turns x.request.params = some (.ok x.frame)
  numbered : Numbered p.apple p.taken
  delivered : ∀ c, Delivered p c

theorem inv_start (stage : Stage) : Inv L (start stage) := by
  constructor
  · exact calm_fresh stage
  · intro c hc
    cases hc
  · intro c
    exact ⟨fun m hm => absurd hm List.not_mem_nil, List.Pairwise.nil⟩
  · exact fun c => rfl
  · intro x hx
    cases hx
  · exact ⟨rfl, fun c => rfl, fun c => List.Pairwise.nil⟩
  · exact fun c => .inl rfl

theorem delivered_quiet {more : Client → List Nat} (h : ∀ c, Delivered p c)
    (hquiet : Quiet p.apple q.apple more) (hpushed : q.pushed = p.pushed) (c : Client) :
    Delivered q c := by
  have hfor : q.pushedFor c = p.pushedFor c := by rw [pushedFor, pushedFor, hpushed]
  have hok : q.okFor c = p.okFor c := by rw [okFor, okFor, hquiet.statuses]
  rw [Delivered, hfor, hok]
  rcases h c with hsame | ⟨hgone, hnot, n, heq, hprefix⟩
  · exact .inl hsame
  · refine .inr ⟨hquiet.gone c hgone, fun hmem => ?_, n, heq, ?_⟩
    · obtain ⟨d, hd, rfl⟩ := List.mem_map.mp hmem
      rcases hquiet.clients d hd with hmem | hnew
      · exact hnot hmem
      · exact hnew hgone
    · rw [hquiet.statuses, hquiet.posted]
      exact hprefix.trans (List.prefix_append _ _)

theorem Numbered.same {taken : List Taken} (h : Numbered s taken)
    (hposted : ∀ c, (t.replies c).posted = (s.replies c).posted) (hnext : t.taken = s.taken) :
    Numbered t taken := by
  refine ⟨hnext.trans h.next, fun c => ?_, fun c => ?_⟩
  · rw [hposted]
    exact h.messages c
  · rw [hposted]
    exact h.increasing c

/-- Only what `apple_push` does on its own changes. -/
theorem inv_apple (h : Inv L p) {apple : ApplePush} (hcalm : Calm apple)
    (hquiet : Quiet p.apple apple fun _ => []) (hgone : apple.gone = p.apple.gone)
    (htaken : apple.taken = p.apple.taken) : Inv L { p with apple := apple } := by
  refine ⟨hcalm, ?_, h.grows, h.requests, h.frames, h.numbered.same hquiet.same htaken,
    delivered_quiet h.delivered hquiet rfl⟩
  rw [hgone]
  exact h.gone

/-- A connection that has not failed is still there. -/
theorem Inv.here (h : Inv L p) {c : Client} (hopen : ∀ ec, (p.conns c).phase ≠ .failed ec) :
    c ∉ p.apple.gone := by
  intro hgone
  obtain ⟨ec, hec⟩ := h.gone c hgone
  exact hopen ec hec

theorem Inv.gone_update (h : Inv L p) {c : Client} (d : Connection) {x : Client} (hx : x ∈ p.apple.gone)
    (hne : x ≠ c) : ∃ ec, (Function.update p.conns c d x).phase = .failed ec := by
  rw [Function.update_of_ne hne]
  exact h.gone x hx

theorem Inv.grows_update (h : Inv L p) (c : Client) {d : Connection} (hgrows : Grows d) :
    ∀ x, Grows (Function.update p.conns c d x) :=
  (Function.forall_update_iff p.conns fun _ => Grows).mpr ⟨hgrows, fun x _ => h.grows x⟩

theorem Inv.requests_update (h : Inv L p) (c : Client) {d : Connection}
    (hgiven : d.given = (p.conns c).given) (x : Client) :
    (p.takenFrom x).map Taken.request = (Function.update p.conns c d x).given := by
  rw [h.requests x]
  by_cases hx : x = c
  · rw [hx, Function.update_self, hgiven]
  · rw [Function.update_of_ne hx]

/-- A connection goes on without a request. -/
theorem inv_conn (h : Inv L p) {c : Client} {d : Connection} (hgiven : d.given = (p.conns c).given)
    (hgrows : Grows d) (hopen : ∀ ec, (p.conns c).phase ≠ .failed ec) :
    Inv L { p with conns := Function.update p.conns c d } := by
  refine ⟨h.calm, fun x hx => h.gone_update d hx ?_, h.grows_update c hgrows,
    h.requests_update c hgiven, h.frames, h.numbered, h.delivered⟩
  intro heq
  exact h.here hopen (heq ▸ hx)

/-- A read of a connection fails. -/
theorem inv_failed (h : Inv L p) (c : Client) {ec : ErrorCode} (hfault : p.apple.fault = false) :
    Inv L { p with
      conns := Function.update p.conns c ((p.conns c).handleError ec)
      apple := p.apple.disconnect c } := by
  have hquiet := quiet_disconnect p.apple c
  have hgrows : Grows ((p.conns c).handleError ec) := ⟨(h.grows c).given, (h.grows c).chain⟩
  refine ⟨h.calm.next (.disconnect c) hfault, fun x hx => ?_, h.grows_update c hgrows,
    h.requests_update c rfl, h.frames, h.numbered.same hquiet.same (disconnect_kept _ c).2,
    delivered_quiet h.delivered hquiet rfl⟩
  show ∃ ec', (Function.update p.conns c _ x).phase = .failed ec'
  by_cases hxc : x = c
  · rw [hxc, Function.update_self]
    exact ⟨ec, rfl⟩
  · refine h.gone_update _ ?_ hxc
    change x ∈ (disconnect p.apple c).gone at hx
    rw [disconnect] at hx
    split at hx
    · exact hx
    · exact (List.mem_cons.mp hx).resolve_left hxc

theorem Numbered.message {taken : List Taken} (h : Numbered s taken) {x : Taken}
    (hgone : x.client ∉ s.gone) : Numbered (s.pmessage x.client) (taken ++ [x]) := by
  have hquiet := quiet_pmessage s hgone
  have hbound : ∀ c, ∀ n ∈ (s.replies c).posted, n < taken.length := by
    intro c n hn
    have hmem : taken[n]? ∈ (s.replies c).posted.map (taken[·]?) := List.mem_map_of_mem hn
    rw [h.messages c] at hmem
    obtain ⟨y, _, hy⟩ := List.mem_map.mp hmem
    exact (List.getElem?_eq_some_iff.mp hy.symm).1
  have hkept : ∀ c, (s.replies c).posted.map ((taken ++ [x])[·]?) =
      (s.replies c).posted.map (taken[·]?) :=
    fun c => List.map_congr_left fun n hn => List.getElem?_append_left (hbound c n hn)
  refine ⟨?_, fun c => ?_, fun c => ?_⟩
  · rw [pmessage_taken, h.next, List.length_append]
    rfl
  · rw [hquiet.posted, List.map_append, hkept, h.messages, List.filter_append, List.map_append]
    congr 1
    by_cases hc : c = x.client
    · have hlast : (taken ++ [x])[taken.length]? = some x := List.getElem?_concat_length
      rw [if_pos hc, List.filter_singleton, decide_eq_true hc.symm, h.next, List.map_singleton, hlast]
      rfl
    · rw [if_neg hc, List.filter_singleton, decide_eq_false (Ne.symm hc)]
      rfl
  · rw [hquiet.posted]
    by_cases hc : c = x.client
    · rw [if_pos hc]
      refine List.pairwise_append.mpr ⟨h.increasing c, List.pairwise_singleton _ _, fun n hn m hm => ?_⟩
      rw [List.mem_singleton.mp hm, h.next]
      exact hbound c n hn
    · rw [if_neg hc, List.append_nil]
      exact h.increasing c

/-- A request is handed on, and its frame goes to the queue. -/
theorem inv_request (h : Inv L p) {c : Client} {d : Connection} {now : Int}
    (hopen : ∀ ec, (p.conns c).phase ≠ .failed ec) (hfault : p.apple.fault = false) (hgrows : Grows d)
    (hgiven : d.given = (p.conns c).given ++ [d.message])
    (hq : request L { p with conns := Function.update p.conns c d } c d.message now = some q) :
    Inv L q := by
  have hhere := h.here hopen
  rw [request] at hq
  split at hq
  · rename_i frame hframe
    cases hq
    have hquiet := quiet_pmessage p.apple hhere
    refine ⟨h.calm.next (.message c) ⟨hfault, hhere⟩, fun x hx => ?_, h.grows_update c hgrows,
      fun x => ?_, fun x hx => ?_, ?_, delivered_quiet h.delivered hquiet rfl⟩
    · rw [pmessage_gone] at hx
      apply h.gone_update d hx
      exact fun heq => hhere (heq ▸ hx)
    · show ((p.taken ++ [(⟨c, d.message, now, frame⟩ : Taken)]).filter fun y => y.client = x).map _ =
        (Function.update p.conns c d x).given
      have hbefore : (p.taken.filter fun y => y.client = x).map Taken.request = (p.conns x).given :=
        h.requests x
      rw [List.filter_append, List.map_append, hbefore]
      by_cases hx : x = c
      · rw [hx, Function.update_self, hgiven, List.filter_singleton, decide_eq_true rfl]
        rfl
      · rw [Function.update_of_ne hx, List.filter_singleton, decide_eq_false (Ne.symm hx)]
        exact List.append_nil _
    · rcases List.mem_append.mp hx with hx | hx
      · exact h.frames x hx
      · rw [List.mem_singleton.mp hx]
        exact hframe
    · exact h.numbered.message (x := ⟨c, d.message, now, frame⟩) hhere
  · cases hq

theorem inv_handled (h : Inv L p) {c : Client} {now : Int} (hready : (p.conns c).ready = true)
    (hfault : p.apple.fault = false) (hq : p.handled L c now = some q) : Inv L q := by
  have hopen := not_failed_of_ready hready
  have hleaves := leaves_handle L.grammar hready
  have hgrows := (h.grows c).leaves hleaves
  rw [Proxy.handled] at hq
  dsimp only at hq
  generalize (p.conns c).handle L.grammar = d at hq hleaves hgrows
  rcases hleaves.2 with ⟨hphase, _⟩ | ⟨hphase, hgiven⟩ | ⟨hphase, hgiven⟩
  · rw [hphase] at hq
    cases hq
  · have hnone : d.given.drop (p.conns c).given.length = [] := by rw [hgiven, List.drop_length]
    rw [hnone] at hq
    have hq' : q = { p with conns := Function.update p.conns c d } := by
      rcases hphase with hphase | hphase
      · rw [hphase] at hq
        exact (Option.some.inj hq).symm
      · rw [hphase] at hq
        exact (Option.some.inj hq).symm
    rw [hq']
    exact inv_conn h hgiven hgrows hopen
  · have hone : d.given.drop (p.conns c).given.length = [d.message] := by rw [hgiven, List.drop_left]
    rw [hone, hphase] at hq
    exact inv_request h hopen hfault hgrows hgiven hq

/-! ## The writes -/

theorem pushedFor_written (p : Proxy) (apple : ApplePush) (c x : Client) (msg : Nat) (ec : Outcome) :
    pushedFor { p with apple := apple, pushed := p.pushed ++ succeeded (.write c msg) ec } x =
      p.pushedFor x ++ if x = c ∧ ec = .success then [msg] else [] := by
  rw [pushedFor, pushedFor, List.filter_append, List.map_append]
  congr 1
  by_cases hec : ec = .success
  · rw [hec]
    show ([(c, msg)].filter _).map Prod.snd = _
    by_cases hx : x = c
    · rw [if_pos ⟨hx, rfl⟩, List.filter_singleton, decide_eq_true hx.symm]
      rfl
    · rw [if_neg fun h => hx h.1, List.filter_singleton, decide_eq_false (Ne.symm hx)]
      rfl
  · rw [if_neg fun h => hec h.2]
    cases ec with
    | success => exact absurd rfl hec
    | aborted => rfl
    | failed => rfl

/-- The results of the others, and who is not there, stay. -/
theorem delivered_other (h : Delivered p c) (hpushed : q.pushedFor c = p.pushedFor c)
    (hreplies : q.apple.replies c = p.apple.replies c) (hgone : q.apple.gone = p.apple.gone)
    (hclients : ∀ d ∈ q.apple.bufs, d.client ∈ p.apple.bufs.map PushData.client) : Delivered q c := by
  rw [Delivered, hpushed, okFor, hreplies, hgone]
  rcases h with hsame | ⟨hin, hnot, hmore⟩
  · exact .inl hsame
  · refine .inr ⟨hin, fun hmem => hnot ?_, hmore⟩
    obtain ⟨d, hd, rfl⟩ := List.mem_map.mp hmem
    exact hclients d hd

variable {d : PushData} {bufs : List PushData} {data : List Nat} {msg : Nat} {ec : Outcome}

/-- The write succeeded for a client that had gone: there is no result. -/
theorem delivered_gone (hsound : Sound p.apple) (hbufs : p.apple.bufs = d :: bufs)
    (hdata : d.data = msg :: data) (hhere : p.pushedFor d.client = p.okFor d.client)
    (hconn : d.connected = false) (hgone : q.apple.gone = p.apple.gone)
    (hreplies : q.apple.replies = p.apple.replies) (hrest : ∀ x ∈ q.apple.bufs, x ∈ bufs)
    (hpushed : q.pushedFor d.client = p.pushedFor d.client ++ [msg]) : Delivered q d.client := by
  have hmem : d ∈ p.apple.bufs := hbufs ▸ List.mem_cons_self
  have hnodup := hsound.nodup
  rw [hbufs, List.map_cons, List.nodup_cons] at hnodup
  refine .inr ⟨?_, fun hin => ?_, msg, ?_, ?_⟩
  · rw [hgone]
    exact hsound.gone d hmem hconn
  · obtain ⟨y, hy, hclient⟩ := List.mem_map.mp hin
    exact hnodup.1 (hclient ▸ List.mem_map_of_mem (hrest y hy))
  · rw [hpushed, hhere, okFor, okFor, hreplies]
  · have hheld := hsound.held d hmem
    rw [hreplies, ← hheld, hdata]
    exact (List.prefix_append_right_inj _).mpr ⟨data, rfl⟩

theorem delivered_front (hsound : Sound p.apple) (hbufs : p.apple.bufs = d :: bufs)
    (hdata : d.data = msg :: data) (hhere : p.pushedFor d.client = p.okFor d.client)
    (hends : WriteEnds d bufs msg ec p.apple q.apple)
    (hpushed : q.pushedFor d.client = p.pushedFor d.client ++ if ec = .success then [msg] else []) :
    Delivered q d.client := by
  have hquiet : q.apple.replies = p.apple.replies → ec ≠ .success → Delivered q d.client := by
    intro hreplies hec
    rw [if_neg hec, List.append_nil] at hpushed
    refine .inl ?_
    rw [hpushed, hhere, okFor, okFor, hreplies]
  rcases hends.2 with ⟨hconn, hreplies, hrest⟩ | ⟨haborted, hreplies, _⟩ | ⟨_, hreplies, _⟩
  · by_cases hec : ec = .success
    · rw [if_pos hec] at hpushed
      exact delivered_gone hsound hbufs hdata hhere hconn hends.1 hreplies hrest hpushed
    · exact hquiet hreplies hec
  · apply hquiet hreplies
    rw [haborted]
    exact Outcome.noConfusion
  · refine .inl ?_
    rw [hpushed, hhere, okFor, okFor, hreplies, Function.update_self]
    show _ = (((p.apple.replies d.client).statuses ++ [_]).filter Status.ok).map Status.msg
    rw [List.filter_append, List.map_append, List.filter_singleton]
    congr 1
    by_cases hec : ec = .success
    · rw [if_pos hec, decide_eq_true hec]
      rfl
    · rw [if_neg hec, decide_eq_false hec]
      rfl

theorem delivered_written (h : ∀ c, Delivered p c) (hsound : Sound p.apple)
    (hbufs : p.apple.bufs = d :: bufs) (hdata : d.data = msg :: data)
    (hends : WriteEnds d bufs msg ec p.apple t) (x : Client) :
    Delivered { p with apple := t, pushed := p.pushed ++ succeeded (.write d.client msg) ec } x := by
  have hpushed := pushedFor_written p t d.client x msg ec
  by_cases hx : x = d.client
  · subst hx
    -- it has an entry, and has had all results so far
    have hhere : p.pushedFor d.client = p.okFor d.client := by
      apply (h d.client).resolve_right
      intro hnot
      exact hnot.2.1 (List.mem_map_of_mem (hbufs ▸ List.mem_cons_self))
    simp only [true_and] at hpushed
    exact delivered_front hsound hbufs hdata hhere hends hpushed
  · rw [if_neg fun hand => hx hand.1, List.append_nil] at hpushed
    exact delivered_other (h x) hpushed (hends.replies_other hx) hends.1 (hends.clients hbufs)

/-- A write has ended. -/
theorem inv_written (h : Inv L p) {c : Client} {msg : Nat} {a : Bool} {ec : Outcome}
    (henabled : Enabled p.apple (.done ⟨.write c msg, a⟩ ec)) :
    Inv L { p with
      apple := p.apple.next (.done ⟨.write c msg, a⟩ ec)
      pushed := p.pushed ++ succeeded (.write c msg) ec } := by
  have hsound := h.calm.sound
  obtain ⟨d, bufs, data, hbufs, rfl, hdata⟩ := hsound.front c msg a henabled.2.1
  have hends : WriteEnds d bufs msg ec p.apple (p.apple.next (.done ⟨.write d.client msg, a⟩ ec)) :=
    writeEnds_handleWrite (s := { p.apple with ops := p.apple.ops.erase ⟨.write d.client msg, a⟩ })
      hbufs hdata ec
  refine ⟨h.calm.next _ henabled, ?_, h.grows, h.requests, h.frames, h.numbered.same hends.posted ?_,
    delivered_written h.delivered hsound hbufs hdata hends⟩
  · rw [hends.1]
    exact h.gone
  · exact handleWrite_taken _ _ _ _

theorem inv_done (h : Inv L p) {o : Op Kind} {ec : Outcome} (henabled : Enabled p.apple (.done o ec)) :
    Inv L { p with
      apple := p.apple.next (.done o ec), pushed := p.pushed ++ succeeded o.kind ec } := by
  obtain ⟨k, a⟩ := o
  by_cases hk : k.isWrite = true
  · cases k with
    | write c msg => exact inv_written h henabled
    | connect => cases hk
    | handshake => cases hk
    | read => cases hk
  · have hk := Bool.eq_false_iff.mpr hk
    have hnone : succeeded k ec = [] := by
      cases k with
      | write c msg => cases hk
      | connect => rfl
      | handshake => rfl
      | read => rfl
    obtain ⟨hreplies, htaken, hgone, hbufs⟩ :=
      kept_link { p.apple with ops := p.apple.ops.erase ⟨k, a⟩ } hk ec
    have hinv := inv_apple h (h.calm.next _ henabled) (quiet_bufs hreplies hgone hbufs) hgone htaken
    show Inv L { p with apple := _, pushed := p.pushed ++ succeeded k ec }
    rw [hnone, List.append_nil]
    exact hinv

theorem upstream_some {ev : Event} (hq : p.upstream ev = some q) :
    Enabled p.apple ev ∧ q = { p with apple := p.apple.next ev } := by
  rw [upstream] at hq
  split at hq
  · rename_i henabled
    exact ⟨henabled, (Option.some.inj hq).symm⟩
  · cases hq

theorem inv_step (h : Inv L p) {ev : ProxyEvent} (hq : p.next L ev = some q) : Inv L q := by
  cases ev with
  | received c b =>
    change (if _ then some _ else none) = some q at hq
    split at hq
    · rename_i hreads
      cases hq
      exact inv_conn h rfl ⟨(h.grows c).given, (h.grows c).chain⟩ (not_failed_of_reading hreads.1)
    · cases hq
  | failed c value =>
    change (if _ then some _ else none) = some q at hq
    split at hq
    · rename_i hreads
      cases hq
      exact inv_failed h c hreads.2.2
    · cases hq
  | handled c now =>
    change (if _ then _ else none) = some q at hq
    split at hq
    · rename_i hready
      exact inv_handled h hready.1 hready.2 hq
    · cases hq
  | connect =>
    obtain ⟨henabled, rfl⟩ := upstream_some hq
    exact inv_apple h (h.calm.next _ henabled) (quiet_bufs rfl rfl fun _ hd => hd) rfl rfl
  | done o ec =>
    obtain ⟨q', hq', rfl⟩ := Option.map_eq_some_iff.mp hq
    obtain ⟨henabled, rfl⟩ := upstream_some hq'
    exact inv_done h henabled
  | perform c =>
    obtain ⟨henabled, rfl⟩ := upstream_some hq
    obtain ⟨hstatuses, hposted⟩ := perform_kept (p.apple.replies c)
    exact inv_apple h (h.calm.next _ henabled) (quiet_sent p.apple c hstatuses hposted) rfl rfl
  | written c =>
    obtain ⟨henabled, rfl⟩ := upstream_some hq
    exact inv_apple h (h.calm.next _ henabled) (quiet_sent p.apple c rfl rfl) rfl rfl

theorem inv_run {stage : Stage} {evs : List ProxyEvent} (h : Run (Proxy.Step L) (start stage) evs p) :
    Inv L p :=
  h.invariant (P := Inv L) (fun _ _ _ hp hstep => inv_step hp hstep) (inv_start stage)

/-! ## A connection in a run of the proxy -/

theorem handled_conns {c : Client} {now : Int} (hq : p.handled L c now = some q) :
    q.conns = Function.update p.conns c ((p.conns c).handle L.grammar) := by
  rw [Proxy.handled] at hq
  dsimp only at hq
  split at hq
  · cases hq
  · cases hq
    rfl
  · split at hq
    · cases hq
      rfl
    · rw [request] at hq
      split at hq
      · cases hq
        rfl
      · cases hq

/-- What a step does to the connection `c`, in the words of the connection. -/
def Follows (L : Libraries) (ev : ProxyEvent) (p q : Proxy) (c : Client) : Prop :=
  q.conns c = p.conns c ∧ receivedFrom c [ev] = [] ∨
    ∃ ev', Push.Step L.grammar (p.conns c) ev' (q.conns c) ∧
      KeepAlive.received [ev'] = receivedFrom c [ev]

/-- Something happens to the connection `c'` only. -/
theorem follows_update {ev : ProxyEvent} (ev' : Push.Event) (c' : Client) {d : Connection}
    (hconns : q.conns = Function.update p.conns c' d) (hstep : Push.Step L.grammar (p.conns c') ev' d)
    (hsame : KeepAlive.received [ev'] = receivedFrom c' [ev])
    (hother : ∀ c, c ≠ c' → receivedFrom c [ev] = []) (c : Client) : Follows L ev p q c := by
  rw [Follows, hconns]
  by_cases hc : c = c'
  · rw [hc, Function.update_self]
    exact .inr ⟨ev', hstep, hsame⟩
  · rw [Function.update_of_ne hc]
    exact .inl ⟨rfl, hother c hc⟩

theorem conn_step {ev : ProxyEvent} (hq : p.next L ev = some q) (c : Client) : Follows L ev p q c := by
  cases ev with
  | received c' b =>
    change (if _ then some _ else none) = some q at hq
    split at hq
    · rename_i hreads
      cases hq
      apply follows_update (.received b) c' rfl
      · exact ⟨hreads.1, hreads.2.1, hreads.2.2, rfl⟩
      · show b ++ [] = (if c' = c' then b else []) ++ []
        rw [if_pos rfl]
      · intro c hc
        show (if c' = c then b else []) ++ [] = []
        rw [if_neg (Ne.symm hc)]
        rfl
    · cases hq
  | failed c' value =>
    change (if _ then some _ else none) = some q at hq
    split at hq
    · rename_i hreads
      cases hq
      exact follows_update (.failed value) c' rfl ⟨hreads.1, hreads.2.1, rfl⟩ rfl (fun _ _ => rfl) c
    · cases hq
  | handled c' now =>
    change (if _ then _ else none) = some q at hq
    split at hq
    · rename_i hready
      exact follows_update .handled c' (handled_conns hq) ⟨hready.1, rfl⟩ rfl (fun _ _ => rfl) c
    · cases hq
  | connect =>
    obtain ⟨_, rfl⟩ := upstream_some hq
    exact .inl ⟨rfl, rfl⟩
  | done o ec =>
    obtain ⟨q', hq', rfl⟩ := Option.map_eq_some_iff.mp hq
    obtain ⟨_, rfl⟩ := upstream_some hq'
    exact .inl ⟨rfl, rfl⟩
  | perform c' =>
    obtain ⟨_, rfl⟩ := upstream_some hq
    exact .inl ⟨rfl, rfl⟩
  | written c' =>
    obtain ⟨_, rfl⟩ := upstream_some hq
    exact .inl ⟨rfl, rfl⟩

theorem conn_run {stage : Stage} {evs : List ProxyEvent} (h : Run (Proxy.Step L) (start stage) evs p)
    (c : Client) : ∃ evs', Run (Push.Step L.grammar) .fresh evs' (p.conns c) ∧
      KeepAlive.received evs' = receivedFrom c evs := by
  refine h.history (P := fun evs p => ∃ evs', Run (Push.Step L.grammar) .fresh evs' (p.conns c) ∧
    KeepAlive.received evs' = receivedFrom c evs) ⟨[], .nil, rfl⟩ ?_
  intro evs p ev q ih hstep
  obtain ⟨evs', hrun, hreceived⟩ := ih
  have happend : receivedFrom c (evs ++ [ev]) = receivedFrom c evs ++ receivedFrom c [ev] :=
    List.flatMap_append
  rw [happend]
  rcases conn_step hstep c with ⟨hsame, hnone⟩ | ⟨ev', hconn, hmore⟩
  · rw [hsame, hnone, List.append_nil]
    exact ⟨evs', hrun, hreceived⟩
  · refine ⟨evs' ++ [ev'], hrun.snoc hconn, ?_⟩
    rw [KeepAlive.received_snoc, hreceived, hmore]

/-! ## The frames of a connection -/

theorem getParam_ok {name v : Bytes} (h : getParam params name = .ok v) :
    params.lookup name = some v := by
  rw [getParam] at h
  split at h
  · rename_i hlookup
    rw [hlookup, Except.ok.inj h]
  · cases h

/-- What a request has to have for a frame to be made of it. -/
theorem onRequest_ok {encode : Bytes → Bytes} {now : Int} {turns : Nat} {frame : Bytes}
    (h : onRequest encode now turns params = some (.ok frame)) :
    ∃ hexed tok msg, params.lookup (bytes "devtok") = some hexed ∧
      params.lookup (bytes "message") = some msg ∧ unhex turns hexed = some (.ok tok) ∧
      apack now tok (encode msg) = .ok frame := by
  rw [onRequest] at h
  cases hdevtok : getParam params (bytes "devtok") with
  | error trap =>
    rw [hdevtok] at h
    cases h
  | ok hexed =>
    cases hmessage : getParam params (bytes "message") with
    | error trap =>
      rw [hdevtok, hmessage] at h
      cases h
    | ok msg =>
      rw [hdevtok, hmessage] at h
      obtain ⟨r, hunhex, hpack⟩ := Option.map_eq_some_iff.mp h
      cases r with
      | error trap => cases hpack
      | ok tok => exact ⟨hexed, tok, msg, getParam_ok hdevtok, getParam_ok hmessage, hunhex, hpack⟩

theorem onRequest_eq {encode : Bytes → Bytes} {now : Int} {turns : Nat} {hexed tok msg : Bytes}
    (hdevtok : params.lookup (bytes "devtok") = some hexed)
    (hmessage : params.lookup (bytes "message") = some msg) (htok : unhex turns hexed = some (.ok tok)) :
    onRequest encode now turns params = some (apack now tok (encode msg)) := by
  rw [onRequest, getParam, hdevtok, getParam, hmessage]
  dsimp only
  rw [htok]
  rfl

theorem apack_token {now : Int} {tok aps frame : Bytes} (h : apack now tok aps = .ok frame) :
    tok.length = 32 := by
  rw [apack] at h
  split at h
  · cases h
  · rename_i hlen
    exact not_not.mp hlen

/-- A frame can be told from what comes behind it. -/
theorem decode_layout_append (now : Int) {tok aps : Bytes} (htok : tok.length < 65536)
    (haps : aps.length < 65536) (rest : Bytes) : decode (layout now tok aps ++ rest) =
      some (⟨1, 1234, .ofInt (now + 86400), tok, aps⟩, rest) := by
  have hfirst := readData_be16 htok (be16 (.ofNat aps.length) ++ aps ++ rest)
  have hsecond := readData_be16 haps rest
  rw [layout, be32, be32]
  simp only [List.append_assoc, List.cons_append, List.nil_append] at hfirst hsecond ⊢
  simp only [decode, hfirst, hsecond, ofBe32_be32, Option.bind_eq_bind, Option.bind_some]
  rfl

/-! ## The main result -/

/-- These frames are for the device and with the alert of these parameters, whatever the
requests had in them; where the payload is short the other side reads both. -/
def Aimed (L : Libraries) (params : KeyValues) (xs : List Taken) : Prop :=
  ∃ hexed tok msg, params.lookup (bytes "devtok") = some hexed ∧
    params.lookup (bytes "message") = some msg ∧ unhex L.turns hexed = some (.ok tok) ∧
    ∀ x ∈ xs, apack x.now tok (L.encode msg) = .ok x.frame ∧
      ((L.encode msg).length < 65536 → ∀ rest, decode (x.frame ++ rest) =
        some (⟨1, 1234, .ofInt (x.now + 86400), tok, L.encode msg⟩, rest))

/-- What became of the requests of a client. -/
structure Served (L : Libraries) (evs : List ProxyEvent) (p : Proxy) (c : Client) : Prop where
  /-- Each request handed on is a message. -/
  requests : (p.takenFrom c).map Taken.request = (p.conns c).given
  messages : (p.apple.replies c).posted.map (p.taken[·]?) = (p.takenFrom c).map some
  /-- They are written in order and none twice. -/
  increasing : (p.apple.replies c).posted.Pairwise (· < ·)
  pushed : (p.pushedFor c).Sublist (p.apple.replies c).posted
  results : (p.apple.replies c).statuses.map Status.msg <+: (p.apple.replies c).posted
  own : ∀ st ∈ (p.apple.replies c).statuses, st.carrier = c ∧ st.written = st.msg
  /-- While it is connected, `OK` has been put into its buffer for what was written. -/
  acknowledged : c ∉ p.apple.gone → p.pushedFor c = p.okFor c
  target : ∀ first, (p.conns c).given.head? = some first → Aimed L first.params (p.takenFrom c)
  line : ∀ line params rest, RequestLine L.grammar line params →
    receivedFrom c evs = line ++ crlf ++ rest → p.takenFrom c ≠ [] → Aimed L params (p.takenFrom c)

theorem aimed_first (h : Inv L p) {c : Client} {first : Message}
    (hfirst : (p.conns c).given.head? = some first) : Aimed L first.params (p.takenFrom c) := by
  have hmem : ∀ x ∈ p.takenFrom c, x ∈ p.taken := fun x hx => List.mem_of_mem_filter hx
  obtain ⟨x₀, hx₀, rfl⟩ : ∃ x ∈ p.takenFrom c, x.request = first := by
    have hin := List.mem_of_mem_head? hfirst
    rw [← h.requests c] at hin
    exact List.mem_map.mp hin
  obtain ⟨hexed, tok, msg, hdevtok, hmessage, hunhex, hpack⟩ := onRequest_ok (h.frames x₀ (hmem x₀ hx₀))
  have hall : ∀ m ∈ (p.conns c).given, x₀.request.params <+: m.params := by
    have hchain := (h.grows c).chain
    obtain ⟨ms, hms⟩ := List.head?_eq_some_iff.mp hfirst
    rw [hms, List.pairwise_cons] at hchain
    intro m hm
    rw [hms] at hm
    rcases List.mem_cons.mp hm with rfl | hm
    · exact List.prefix_rfl
    · exact hchain.1 m hm
  refine ⟨hexed, tok, msg, hdevtok, hmessage, hunhex, fun x hx => ?_⟩
  have hparams : x₀.request.params <+: x.request.params :=
    hall _ (h.requests c ▸ List.mem_map_of_mem hx)
  have hframe := h.frames x (hmem x hx)
  rw [onRequest_eq (hparams.lookup_eq_some hdevtok) (hparams.lookup_eq_some hmessage) hunhex] at hframe
  have hpacked := Option.some.inj hframe
  refine ⟨hpacked, fun hshort rest => ?_⟩
  have htok := apack_token hpacked
  rw [apack_ok x.now htok hshort] at hpacked
  rw [← Except.ok.inj hpacked]
  exact decode_layout_append x.now (by omega) hshort rest

theorem pushed_sublist (h : Inv L p) (c : Client) :
    (p.pushedFor c).Sublist (p.apple.replies c).posted := by
  rcases h.delivered c with hsame | ⟨_, _, n, hmore, hprefix⟩
  · rw [hsame]
    exact (List.filter_sublist.map _).trans (h.calm.sound.order c).sublist
  · rw [hmore]
    exact ((List.filter_sublist.map _).append_right [n]).trans hprefix.sublist

/-- In every run of the proxy, for every client. -/
theorem requests_served {stage : Stage} {evs : List ProxyEvent}
    (h : Run (Proxy.Step L) (start stage) evs p) (c : Client) : Served L evs p c := by
  have hinv := inv_run h
  refine ⟨hinv.requests c, hinv.numbered.messages c, hinv.numbered.increasing c, pushed_sublist hinv c,
    hinv.calm.sound.order c, hinv.calm.sound.own c, fun hhere => ?_,
    fun first hfirst => aimed_first hinv hfirst, ?_⟩
  · exact (hinv.delivered c).resolve_right fun hgone => hhere hgone.1
  · intro line params rest hline hreceived hne
    obtain ⟨evs', hrun, hevs⟩ := conn_run h c
    obtain ⟨first, hfirst⟩ : ∃ first, (p.conns c).given.head? = some first := by
      rw [← hinv.requests c]
      cases htaken : p.takenFrom c with
      | nil => exact absurd htaken hne
      | cons x xs => exact ⟨x.request, rfl⟩
    rw [← first_line hline hrun (hevs.trans hreceived) hfirst]
    exact aimed_first hinv hfirst

/-- A target with the token of 32 equal bytes, in digits, and a message. -/
def targetOf (digit : Wap.Byte) (msg : Bytes) : Bytes :=
  bytes "/a?devtok=" ++ List.replicate 64 digit ++ bytes "&message=" ++ msg

def lineOf (target : Bytes) : Bytes := bytes "GET " ++ target ++ bytes " HTTP/1.1"

/-- What the library finds in the lines of two requests. -/
def twoLines : Libraries where
  grammar := {
    statusLine := fun line =>
      if line = lineOf (targetOf 49 (bytes "one")) ++ [13] then
        some (bytes "GET", targetOf 49 (bytes "one"))
      else if line = lineOf (targetOf 50 (bytes "two")) ++ [13] then
        some (bytes "GET", targetOf 50 (bytes "two"))
      else none
    headerLine := fun _ => none
    urldecode := id }
  encode := plainAps
  turns := 33

/-- A client asks for one message to each of two devices. -/
def twoRequests : List ProxyEvent :=
  [.received 7 (lineOf (targetOf 49 (bytes "one")) ++ bytes "\r\nHost: x\r\n\r\n"),
    .handled 7 0, .handled 7 100, .done ⟨.write 7 0, false⟩ .success,
    .received 7 (lineOf (targetOf 50 (bytes "two")) ++ bytes "\r\nHost: x\r\n\r\n"),
    .handled 7 150, .handled 7 200, .perform 7, .written 7, .done ⟨.write 7 1, false⟩ .success]

def afterTwo : Option Proxy :=
  twoRequests.foldlM (fun p ev => if True then p.next twoLines ev else none) (start .idle)

theorem afterTwo_isSome : afterTwo.isSome = true := by decide +kernel

/-- Both go to the first device, with the first message. -/
theorem requests_served_two : ∃ p, Run (Proxy.Step twoLines) (start .idle) twoRequests p ∧
    p.pushedFor 7 = [0, 1] ∧
    (p.taken.map fun x => (decode x.frame).map fun f => (f.1.expiry, f.1.token, f.1.payload)) =
      [some (86500, List.replicate 32 17, plainAps (bytes "one")),
        some (86600, List.replicate 32 17, plainAps (bytes "one"))] ∧
    Served twoLines twoRequests p 7 := by
  have hguarded : Run (Guarded (fun _ _ => True) (Proxy.Step twoLines)) (start .idle) twoRequests
      (afterTwo.get afterTwo_isSome) := Run.of_foldlM_some (Option.some_get afterTwo_isSome).symm
  refine ⟨afterTwo.get afterTwo_isSome, hguarded.of_guarded, ?_, ?_,
    requests_served hguarded.of_guarded 7⟩
  · decide +kernel
  · decide +kernel

end CppSnippets.PushProxy.Relayed
