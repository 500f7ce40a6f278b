import CppSnippets.Lib.Run
import CppSnippets.Rtsp.Answer

/-!
# Four requests and their answers

However the answers are cut into reads, and wherever an error comes: each request goes out
when the answer to the one before it has come in whole, and at no other time, with what
that answer says of the stream and the session. The answers are ones whose length the
client finds.
-/
namespace CppSnippets.Rtsp

open CppSnippets.Lib
open CppSnippets.Wap (Byte Bytes Env bytes)
open CppSnippets.Ter.Http (findFirst findFirst_eq_none)
open CppSnippets.Push (crlf textOf lines_complete)

/-! ## The four answers -/

/-- What the server answers, and what is to become of it. -/
structure Server where
  cfg : Config
  answer : Action → Answer
  ok : ∀ a, (answer a).Ok

namespace Server

variable (v : Server)

def sessionAfter (a : Action) (session : Bytes) : Bytes := ((v.answer a).head v.cfg.env session).session

/-- `session_` before the answer to this request. -/
def sessionBefore : Action → Bytes
  | .options => []
  | .describe => v.sessionAfter .options []
  | .setup => v.sessionAfter .describe (v.sessionAfter .options [])
  | .play => setupSession
      (v.sessionAfter .setup (v.sessionAfter .describe (v.sessionAfter .options [])))
      (v.answer .setup).bytes

def description : Description := describe v.cfg.fromBase64 (v.answer .describe).bytes

def requests : List Bytes :=
  [Client.optionsText v.cfg 1, Client.describeText v.cfg 2,
    Client.setupText v.cfg 3 v.description.streamid,
    Client.playText v.cfg 4 (v.sessionBefore .play)]

def answers : List Bytes :=
  [(v.answer .options).bytes, (v.answer .describe).bytes, (v.answer .setup).bytes,
    (v.answer .play).bytes]

/-- The parameter sets, once they have been read. -/
def sprops : List (Bytes × Bytes) :=
  if v.description.sps = [] then [] else [(v.description.sps, v.description.pps)]

end Server

/-- How many requests were sent before the one of this action. -/
def index : Action → Nat
  | .options => 0
  | .describe => 1
  | .setup => 2
  | .play => 3

/-- The request whose answer is being read. -/
def awaited : Phase → Option Action
  | .head a | .body a _ => some a
  | _ => none

def chunkOf : Client.Event → Option Bytes
  | .received chunk => some chunk
  | _ => none

/-- Reads give what the server has answered, in order. -/
def Keeps (v : Server) (c : Client) (ev : Client.Event) : Prop :=
  ∀ a ∈ awaited c.phase, ∀ chunk ∈ chunkOf ev, c.response ++ chunk <+: (v.answer a).bytes

/-- The request of this action is the last that was sent. -/
structure Sent (v : Server) (a : Action) (c : Client) : Prop where
  sent : c.sent = v.requests.take (index a + 1)
  cseq : c.cseq = index a + 2
  sprops : c.sprops = if index a < 2 then [] else v.sprops
  started : c.started = if index a < 3 then 0 else 1

/-- What holds in this phase. -/
def Good (v : Server) (c : Client) : Phase → Prop
  | .connecting => c.sent = [] ∧ c.cseq = 1 ∧ c.session = [] ∧ c.sprops = [] ∧ c.started = 0 ∧ c.input = []
  | .writing a => Sent v a c ∧ c.input = (v.answers.take (index a)).flatten ∧ c.session = v.sessionBefore a
  | .head a => Sent v a c ∧ c.input = (v.answers.take (index a)).flatten ++ c.response ∧
      c.session = v.sessionBefore a ∧ c.response <+: (v.answer a).bytes ∧
      ¬crlf ++ crlf <:+: c.response
  | .body a need => Sent v a c ∧ c.input = (v.answers.take (index a)).flatten ++ c.response ∧
      c.session = v.sessionAfter a (v.sessionBefore a) ∧ c.response <+: (v.answer a).bytes ∧
      0 < need ∧ c.response.length + need = (v.answer a).bytes.length
  | .playing => c.sent = v.requests ∧ c.input = v.answers.flatten ∧ c.sprops = v.sprops ∧ c.started = 1
  | .failed => False

/-- After an error all is as it was in some phase. -/
def Inv (v : Server) (c : Client) : Prop := ∃ ph, Good v c ph ∧ (c.phase = ph ∨ c.phase = .failed)

variable {v : Server} {c d : Client}

theorem answers_take (a : Action) : (v.answers.take (index a + 1)).flatten =
    (v.answers.take (index a)).flatten ++ (v.answer a).bytes := by
  cases a <;> simp [index, Server.answers]

theorem inv_start : Inv v .start := ⟨.connecting, ⟨rfl, rfl, rfl, rfl, rfl, rfl⟩, .inl rfl⟩

/-- An answer that has come in whole. -/
theorem onSuccess_good {a : Action} (hs : Sent v a c)
    (hinput : c.input = (v.answers.take (index a)).flatten ++ c.response)
    (hsession : c.session = v.sessionAfter a (v.sessionBefore a))
    (hresponse : c.response = (v.answer a).bytes) : Inv v (c.onSuccess v.cfg a) := by
  rw [hresponse, ← answers_take] at hinput
  obtain ⟨hsent, hcseq, hsprops, hstarted⟩ := hs
  cases a with
  | options =>
    refine ⟨.writing .describe, ⟨⟨?_, ?_, hsprops, hstarted⟩, hinput, hsession⟩, .inl rfl⟩
    · simp only [Client.onSuccess, Client.send, hsent, hcseq]
      rfl
    · simp only [Client.onSuccess, Client.send, hcseq, index]
  | describe =>
    refine ⟨.writing .setup, ⟨⟨?_, ?_, ?_, hstarted⟩, hinput, hsession⟩, .inl rfl⟩
    · simp only [Client.onSuccess, Client.send, hsent, hcseq, hresponse]
      rfl
    · simp only [Client.onSuccess, Client.send, hcseq, index]
    · simp only [Client.onSuccess, Client.send, hresponse, hsprops]
      rfl
  | setup =>
    refine ⟨.writing .play, ⟨⟨?_, ?_, hsprops, ?_⟩, hinput, ?_⟩, .inl rfl⟩
    · simp only [Client.onSuccess, Client.send, hsent, hcseq, hresponse, hsession]
      rfl
    · simp only [Client.onSuccess, Client.send, hcseq, index]
    · simp only [Client.onSuccess, Client.send, hstarted]
      rfl
    · simp only [Client.onSuccess, Client.send, hresponse, hsession]
      rfl
  | play => exact ⟨.playing, ⟨hsent, hinput, hsprops, hstarted⟩, .inl rfl⟩

/-- The part of an answer that has the end of its head. -/
theorem head_complete {a : Action} {p : Bytes} (hp : p <+: (v.answer a).bytes)
    (hin : crlf ++ crlf <:+: p) (session : Bytes) :
    parseHead v.cfg.env p session =
      ((v.answer a).bytes.length - p.length, v.sessionAfter a session) := by
  have hr := v.ok a
  have hlines : ∀ l ∈ (v.answer a).lines, 10 ∉ l ∧ l ≠ [] := by
    intro l hl
    obtain ⟨hten, hne⟩ := hr.line l hl
    refine ⟨hten, ?_⟩
    rintro rfl
    exact hne rfl
  obtain ⟨rest, hrest, hbody⟩ := lines_complete hlines hp hin
  exact parseHead_spec hr session hrest hbody

theorem headRead_inv {a : Action} (hs : Sent v a c)
    (hinput : c.input = (v.answers.take (index a)).flatten ++ c.response)
    (hsession : c.session = v.sessionBefore a) (hphase : c.phase = .head a)
    (hpre : c.response <+: (v.answer a).bytes) : Inv v (c.headRead v.cfg a) := by
  unfold Client.headRead
  cases hf : findFirst (crlf ++ crlf) c.response with
  | none =>
    refine ⟨.head a, ⟨hs, hinput, hsession, hpre, fun hin => ?_⟩, .inl hphase⟩
    have hlt := (Wap.search_lt_iff (by decide)).mpr hin
    rw [findFirst_eq_none.mp hf] at hlt
    exact Nat.lt_irrefl _ hlt
  | some e =>
    have hin : crlf ++ crlf <:+: c.response :=
      (Wap.search_lt_iff (by decide)).mp (Ter.Http.findFirst_eq_some.mp hf).1
    simp only [head_complete hpre hin, hsession]
    have hle := hpre.length_le
    split
    · rename_i hneed
      have hall : c.response = (v.answer a).bytes := hpre.eq_of_length (by omega)
      exact onSuccess_good ⟨hs.sent, hs.cseq, hs.sprops, hs.started⟩ hinput rfl hall
    · rename_i hneed
      refine ⟨.body a _, ⟨⟨hs.sent, hs.cseq, hs.sprops, hs.started⟩, hinput, rfl, hpre, ?_, ?_⟩, .inl rfl⟩
      · omega
      · change c.response.length + _ = _
        omega

theorem Sent.phase {a : Action} (h : Sent v a c) (ph : Phase) : Sent v a { c with phase := ph } :=
  ⟨h.sent, h.cseq, h.sprops, h.started⟩

theorem inv_failed {ph : Phase} (h : Good v c ph) : Inv v { c with phase := .failed } := by
  refine ⟨ph, ?_, .inr rfl⟩
  cases ph with
  | connecting => exact h
  | writing a => exact ⟨h.1.phase _, h.2⟩
  | head a => exact ⟨h.1.phase _, h.2⟩
  | body a need => exact ⟨h.1.phase _, h.2⟩
  | playing => exact h
  | failed => exact h

theorem inv_received {a : Action} {chunk : Bytes} (h : Good v c (.head a)) (hphase : c.phase = .head a)
    (hkeeps : c.response ++ chunk <+: (v.answer a).bytes) : Inv v (Client.headRead v.cfg
      { c with response := c.response ++ chunk, input := c.input ++ chunk } a) := by
  obtain ⟨hs, hinput, hsession, _, _⟩ := h
  refine headRead_inv ⟨hs.sent, hs.cseq, hs.sprops, hs.started⟩ ?_ hsession hphase hkeeps
  rw [hinput, List.append_assoc]

theorem inv_body {a : Action} {need : Nat} {chunk : Bytes} (h : Good v c (.body a need))
    (hle : chunk.length ≤ need) (hkeeps : c.response ++ chunk <+: (v.answer a).bytes) : Inv v
      (if chunk.length = need then Client.onSuccess v.cfg
          { c with response := c.response ++ chunk, input := c.input ++ chunk } a
        else { c with
          response := c.response ++ chunk, input := c.input ++ chunk
          phase := .body a (need - chunk.length) }) := by
  obtain ⟨hs, hinput, hsession, _, hpos, hneed⟩ := h
  have hinput' : c.input ++ chunk = (v.answers.take (index a)).flatten ++ (c.response ++ chunk) := by
    rw [hinput, List.append_assoc]
  split
  · refine onSuccess_good ⟨hs.sent, hs.cseq, hs.sprops, hs.started⟩ hinput' hsession ?_
    exact hkeeps.eq_of_length (by rw [List.length_append]; omega)
  · refine ⟨.body a (need - chunk.length),
      ⟨⟨hs.sent, hs.cseq, hs.sprops, hs.started⟩, hinput', hsession, hkeeps, by omega, ?_⟩, .inl rfl⟩
    change (c.response ++ chunk).length + (need - chunk.length) = _
    rw [List.length_append]
    omega

theorem inv_connected (h : Good v c .connecting) :
    Inv v (c.send .options (Client.optionsText v.cfg c.cseq)) := by
  obtain ⟨hsent, hcseq, hsession, hsprops, hstarted, hinput⟩ := h
  refine ⟨.writing .options, ⟨⟨?_, ?_, hsprops, hstarted⟩, hinput, hsession⟩, .inl rfl⟩
  · simp only [Client.send, hcseq, hsent]
    rfl
  · simp only [Client.send, hcseq, index]

theorem inv_wrote {a : Action} (h : Good v c (.writing a)) :
    Inv v { c with phase := .head a, response := [] } := by
  obtain ⟨hs, hinput, hsession⟩ := h
  refine ⟨.head a, ⟨⟨hs.sent, hs.cseq, hs.sprops, hs.started⟩, ?_, hsession, List.nil_prefix,
    fun hin => ?_⟩, .inl rfl⟩
  · exact hinput.trans (List.append_nil _).symm
  · have hlen : (crlf ++ crlf).length ≤ 0 := hin.length_le
    exact absurd hlen (by decide)

theorem inv_step {ev : Client.Event} (h : Inv v c) (hkeeps : Keeps v c ev)
    (hstep : Client.Step v.cfg c ev d) : Inv v d := by
  obtain ⟨ph, hgood, hph | hph⟩ := h
  · obtain ⟨phase, cseq, session, response, sent, sprops, started, input⟩ := c
    obtain rfl : phase = ph := hph
    unfold Client.Step Client.next at hstep
    cases phase with
    | connecting =>
      cases ev with
      | connected => exact Option.some.inj hstep ▸ inv_connected hgood
      | error => exact Option.some.inj hstep ▸ inv_failed hgood
      | wrote => cases hstep
      | received chunk => cases hstep
    | writing a =>
      cases ev with
      | wrote => exact Option.some.inj hstep ▸ inv_wrote hgood
      | error => exact Option.some.inj hstep ▸ inv_failed hgood
      | connected => cases hstep
      | received chunk => cases hstep
    | head a =>
      cases ev with
      | received chunk =>
        simp only at hstep
        split at hstep
        · cases hstep
        · exact Option.some.inj hstep ▸ inv_received hgood rfl (hkeeps a rfl chunk rfl)
      | error => exact Option.some.inj hstep ▸ inv_failed hgood
      | connected => cases hstep
      | wrote => cases hstep
    | body a need =>
      cases ev with
      | received chunk =>
        simp only at hstep
        split at hstep
        · cases hstep
        · rename_i hfit
          rw [not_or, Nat.not_lt] at hfit
          exact Option.some.inj hstep ▸ inv_body hgood hfit.2 (hkeeps a rfl chunk rfl)
      | error => exact Option.some.inj hstep ▸ inv_failed hgood
      | connected => cases hstep
      | wrote => cases hstep
    | playing => cases ev <;> cases hstep
    | failed => exact hgood.elim
  · unfold Client.Step Client.next at hstep
    rw [hph] at hstep
    cases ev <;> cases hstep

/-! ## What the reads have given -/

instance (v : Server) (c : Client) (ev : Client.Event) : Decidable (Keeps v c ev) :=
  inferInstanceAs (Decidable (∀ a ∈ awaited c.phase, ∀ chunk ∈ chunkOf ev, _))

end CppSnippets.Rtsp
