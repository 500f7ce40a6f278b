import CppSnippets.Lib.Run
import CppSnippets.Wap.Effects

/-!
# The commands of a request

`wcreader::commands` goes through the body of a request: white space, a command
line, and as many bytes of content as the line announces. The position where the
next turn starts is computed from that number and may lie anywhere. A turn
records the ranges that it hands to `std::find`, `value_p`, `wapinit` and
`wapnext`; one that starts outside the body, or hands bytes behind the body to a
reader, ends as undefined. `value_p` looks five bytes behind a line that does not
have its key: what lies behind the body is a parameter.
-/
namespace CppSnippets.Wap

open CppSnippets.Lib

/-- A pair of pointers, as offsets into the body. -/
structure Range where
  first : Int
  second : Int
  deriving DecidableEq

/-- The range is one of a string of this length. -/
def Range.Within (r : Range) (size : Nat) : Prop :=
  0 ≤ r.first ∧ r.first ≤ r.second ∧ r.second ≤ size

instance (r : Range) (size : Nat) : Decidable (r.Within size) := by
  unfold Range.Within
  infer_instance

/-- The body of a request and the memory behind it. -/
structure Memory where
  body : Bytes
  behind : Bytes

namespace Memory

/-- `bodydata` ends with a null byte. -/
def all (m : Memory) : Bytes := m.body ++ 0 :: m.behind

def size (m : Memory) : Nat := m.body.length

end Memory

/-- `cmdp`: a command line with its line feed. -/
structure Line where
  first : Nat
  second : Nat
  deriving DecidableEq

def Line.text (m : Memory) (l : Line) : Bytes := slice m.all l.first l.second

/-- The head of the loop. -/
def cmdLine (m : Memory) (pos : Nat) : Line :=
  let first := skipspace m.body pos
  let second := first + find 10 (m.body.drop first)
  ⟨first, if second < m.size then second + 1 else second⟩

/-- `value_p`: where the value of the key begins and ends. When the line does not
have the key, `std::search` answers with its end, which is not tested for. -/
def valueP (m : Memory) (k : Bytes) (l : Line) : Option Line :=
  let p := l.first + search k (l.text m) + k.length
  if m.all.getD p 0 = 61 then
    some ⟨p + 1, p + 1 + (slice m.all (p + 1) l.second).findIdx isspace⟩
  else none

/-- `atoi(val.first)`. -/
def valueInt (env : Env) (m : Memory) (val : Line) : Int := atoi env (m.all.drop val.first)

/-- The announced size of the content, 0 when `value_p` finds none. -/
def announced (env : Env) (m : Memory) (l : Line) : Int :=
  match valueP m (bytes "size") l with
  | none => 0
  | some val => valueInt env m val

/-- What `commands` does with a command line. -/
inductive Deed where
  /-- Return this error. -/
  | refuse (err : String)
  /-- Set the variables of a `Ch-Variables` line. -/
  | setVars (imei imsi smsc : Bytes)
  /-- Hand the content of a `Ch-Init` to `wapinit`. -/
  | init
  /-- Hand the content of a `Ch-Response` to `wapnext`. -/
  | next (trac : Nat)
  /-- Nothing: another name. -/
  | skip
  deriving DecidableEq

/-- The content of the command is handed on. -/
def Deed.handsContent : Deed → Bool
  | .init | .next _ => true
  | _ => false

/-- The branches of `commands` on the name of the command and its fields. -/
def deed (env : Env) (m : Memory) (l : Line) (wc : Wcstat) : Deed :=
  let cname := (word (l.text m)).1
  if cname = bytes "Ch-Variables" then
    match valueP m (bytes "IMEI") l, valueP m (bytes "IMSI") l, valueP m (bytes "SMSC") l with
    | some imei, some imsi, some smsc => .setVars (imei.text m) (imsi.text m) (smsc.text m)
    | _, _, _ => .refuse "Ch vars error"
  else if cname = bytes "Ch-Response" ∨ cname = bytes "Ch-Init" then
    match valueP m (bytes "trac") l with
    | none => .refuse "trac error"
    | some val =>
      let trac := (toUnsigned (valueInt env m val)).toNat
      if cname = bytes "Ch-Init" then
        if trac ≠ 0 then .refuse "trac should zero" else .init
      else if trac = 0 ∨ wc.steps.length < trac then .refuse "trac val error"
      else .next trac
  else .skip

/-- What the loop works on: the session, its own `vars`, and the answer. -/
structure Work where
  wc : Wcstat
  vars : StrMap
  out : Bytes
  deriving DecidableEq

/-- How a turn ends. -/
inductive Outcome where
  /-- Only white space was left. -/
  | finished (w : Work)
  /-- `commands` returns this error. -/
  | refused (err : String) (w : Work)
  /-- The run of `commands` ends here. -/
  | trapped (t : Trap) (w : Work)
  /-- The next turn starts here. -/
  | onward (pos : Int) (w : Work)
  deriving DecidableEq

/-- `wapinit` or `wapnext` on the session, whose returned error is ignored. -/
def handOver (f : Act (Except String Bytes)) (pos : Int) (w : Work) : Outcome :=
  match f.exec w.wc with
  | (.error t, wc) => .trapped t { w with wc := wc }
  | (.ok (.error _), wc) => .onward pos { w with wc := wc }
  | (.ok (.ok out), wc) => .onward pos { w with wc := wc, out := out }

/-- The session that `Ch-Init` starts with. -/
def Work.restart (w : Work) : Work := { w with wc := { Wcstat.new w.wc.cid with vars := w.vars } }

/-- What the turn does once its line is read and the end of its content computed.
From an inverted range `wapinit` can pop nothing. -/
def perform (env : Env) (m : Memory) (l : Line) (endc : Int) (w : Work) : Deed → Outcome
  | .refuse err => .refused err w
  | .skip => .onward endc w
  | .setVars imei imsi smsc =>
      let vars := ((w.vars.assign (bytes "IMEI") imei).assign (bytes "IMSI") imsi).assign
        (bytes "SMSC") smsc
      .onward endc { w with vars := vars, wc := { w.wc with vars := w.wc.vars.insert vars } }
  | .init =>
      if m.size < endc then .trapped .undefined w.restart
      else handOver (wapinit env (slice m.body l.second endc.toNat)) endc w.restart
  | .next trac =>
      if (⟨l.second, endc⟩ : Range).Within m.size then
        handOver (wapnext env (slice m.body l.second endc.toNat) trac) endc w
      else .trapped .undefined w

/-- A turn of the loop of `commands`. -/
structure Turn where
  /-- The command line, unless the loop ends. -/
  line : Option Line
  /-- The ranges handed to `find`, `value_p`, `wapinit` and `wapnext`. -/
  ranges : List Range
  outcome : Outcome
  deriving DecidableEq

def turn (env : Env) (m : Memory) (pos : Int) (w : Work) : Turn :=
  if pos < 0 ∨ (m.size : Int) < pos then ⟨none, [⟨pos, m.size⟩], .trapped .undefined w⟩
  else
    let l := cmdLine m pos.toNat
    let scanned : Range := ⟨l.first, m.size⟩
    if l.second ≤ l.first then ⟨none, [scanned], .finished w⟩
    else
      let endc := l.second + announced env m l
      let d := deed env m l w.wc
      let content : List Range := if d.handsContent then [⟨l.second, endc⟩] else []
      ⟨some l, [scanned, ⟨l.first, l.second⟩] ++ content, perform env m l endc w d⟩

/-- How the loop ends: `commands` returns an error or none, or its run ends. -/
inductive Ended where
  | returned (err : Option String) (w : Work)
  | trapped (t : Trap) (w : Work)
  deriving DecidableEq

def Outcome.work : Outcome → Work
  | .finished w | .refused _ w | .trapped _ w | .onward _ w => w

def Ended.work : Ended → Work
  | .returned _ w | .trapped _ w => w

/-- The loop of `commands`, for at most this many turns. -/
def loop (env : Env) (m : Memory) : Nat → Int → Work → Option Ended
  | 0, _, _ => none
  | n + 1, pos, w =>
      match (turn env m pos w).outcome with
      | .finished w => some (.returned none w)
      | .refused err w => some (.returned (some err) w)
      | .trapped t w => some (.trapped t w)
      | .onward pos w => loop env m n pos w

/-- `commands` on a body ends in this way. -/
def Commands (env : Env) (m : Memory) (w : Work) (e : Ended) : Prop :=
  ∃ fuel, loop env m fuel 0 w = some e

/-- The turns that the loop comes to: a turn, its line and where it leads. -/
def TurnStep (env : Env) (m : Memory) (s : Int × Work) (l : Line) (t : Int × Work) : Prop :=
  (turn env m s.1 s.2).line = some l ∧ (turn env m s.1 s.2).outcome = .onward t.1 t.2

variable {env : Env} {m : Memory}

/-! ## The command line of a turn -/

theorem le_first (m : Memory) (pos : Nat) : pos ≤ (cmdLine m pos).first :=
  le_skipspace m.body pos

theorem first_le (m : Memory) (pos : Nat) (h : pos ≤ m.size) : (cmdLine m pos).first ≤ m.size :=
  skipspace_le m.body h

theorem second_le (m : Memory) (pos : Nat) (h : pos ≤ m.size) :
    (cmdLine m pos).second ≤ m.size := by
  have hf := first_le m pos h
  have hn := find_le 10 (m.body.drop (cmdLine m pos).first)
  have hsize : m.size = m.body.length := rfl
  rw [List.length_drop] at hn
  simp only [cmdLine] at hf hn ⊢
  split <;> omega

/-- A line starts with a byte that is no space, so that no position before it
finds a line behind it. -/
theorem first_le_of_le (m : Memory) (pos pos' : Nat) (hpos : pos ≤ m.size)
    (hline : (cmdLine m pos).first < (cmdLine m pos).second)
    (h : pos' ≤ (cmdLine m pos).first) : (cmdLine m pos').first ≤ (cmdLine m pos).first := by
  have hlt : (cmdLine m pos).first < m.body.length := by
    have := second_le m pos hpos
    unfold Memory.size at this
    omega
  exact skipspace_le_of_not_isspace h hlt (not_isspace_skipspace hlt)

/-! ## What a turn does -/

theorem turn_outside {pos : Int} {w : Work} (h : pos < 0 ∨ (m.size : Int) < pos) :
    turn env m pos w = ⟨none, [⟨pos, m.size⟩], .trapped .undefined w⟩ := by
  rw [turn, if_pos h]

/-- A turn that has a line. -/
theorem turn_at {pos : Nat} {l : Line} (w : Work) (hpos : pos ≤ m.size) (he : cmdLine m pos = l)
    (hl : l.first < l.second) : turn env m pos w = ⟨some l,
      [⟨l.first, m.size⟩, ⟨l.first, l.second⟩] ++
        (if (deed env m l w.wc).handsContent then [⟨l.second, l.second + announced env m l⟩] else []),
      perform env m l (l.second + announced env m l) w (deed env m l w.wc)⟩ := by
  subst he
  rw [turn, if_neg (by omega), Int.toNat_natCast]
  dsimp only
  rw [if_neg (by omega)]

/-- A turn at a position from which only white space is left. -/
theorem turn_at_end {pos : Nat} (w : Work) (hpos : pos ≤ m.size)
    (hl : (cmdLine m pos).second ≤ (cmdLine m pos).first) :
    turn env m pos w = ⟨none, [⟨(cmdLine m pos).first, m.size⟩], .finished w⟩ := by
  rw [turn, if_neg (by omega), Int.toNat_natCast]
  dsimp only
  rw [if_pos hl]

theorem turn_spec {pos : Int} {w : Work} {l : Line} (h : (turn env m pos w).line = some l) :
    0 ≤ pos ∧ pos ≤ m.size ∧ l = cmdLine m pos.toNat ∧ l.first < l.second ∧
    turn env m pos w = ⟨some l,
      [⟨l.first, m.size⟩, ⟨l.first, l.second⟩] ++
        (if (deed env m l w.wc).handsContent then [⟨l.second, l.second + announced env m l⟩] else []),
      perform env m l (l.second + announced env m l) w (deed env m l w.wc)⟩ := by
  by_cases hout : pos < 0 ∨ (m.size : Int) < pos
  · rw [turn_outside hout] at h
    cases h
  · obtain ⟨p, rfl⟩ := Int.eq_ofNat_of_zero_le (show 0 ≤ pos by omega)
    have hp : p ≤ m.size := by omega
    by_cases hl : (cmdLine m p).first < (cmdLine m p).second
    · have heq := @turn_at env m p _ w hp rfl hl
      rw [heq] at h
      cases h
      exact ⟨by omega, by omega, rfl, hl, heq⟩
    · rw [turn_at_end w hp (by omega)] at h
      cases h

theorem turn_line {pos : Int} {w : Work} {l : Line} (h : (turn env m pos w).line = some l) :
    0 ≤ pos ∧ pos ≤ m.size ∧ l = cmdLine m pos.toNat ∧ l.first < l.second := by
  obtain ⟨h0, h1, hl, hlt, _⟩ := turn_spec h
  exact ⟨h0, h1, hl, hlt⟩

theorem turn_eq {pos : Int} {w : Work} {l : Line} (h : (turn env m pos w).line = some l) :
    turn env m pos w = ⟨some l,
      [⟨l.first, m.size⟩, ⟨l.first, l.second⟩] ++
        (if (deed env m l w.wc).handsContent then [⟨l.second, l.second + announced env m l⟩] else []),
      perform env m l (l.second + announced env m l) w (deed env m l w.wc)⟩ :=
  (turn_spec h).2.2.2.2

/-- The line is empty only at the end of the body. -/
theorem first_eq_size {pos : Nat} (hpos : pos ≤ m.size)
    (hl : (cmdLine m pos).second ≤ (cmdLine m pos).first) : (cmdLine m pos).first = m.size := by
  have hfirst := first_le m pos hpos
  have hsize : m.size = m.body.length := rfl
  by_contra hne
  have hfind := find_le 10 (m.body.drop (cmdLine m pos).first)
  obtain ⟨b, rest, hb⟩ : ∃ b rest, m.body.drop (cmdLine m pos).first = b :: rest := by
    apply List.exists_cons_of_ne_nil
    rw [Ne, List.drop_eq_nil_iff]
    omega
  have hlen := congrArg List.length hb
  rw [List.length_drop, List.length_cons] at hlen
  simp only [cmdLine] at hl hlen hfirst hne
  split at hl <;> omega

theorem turn_end {pos : Int} {w : Work} (h0 : 0 ≤ pos) (h1 : pos ≤ m.size)
    (h : (turn env m pos w).line = none) :
    (cmdLine m pos.toNat).first = m.size ∧
    turn env m pos w = ⟨none, [⟨m.size, m.size⟩], .finished w⟩ := by
  obtain ⟨p, rfl⟩ := Int.eq_ofNat_of_zero_le h0
  have hp : p ≤ m.size := by omega
  have hl : (cmdLine m p).second ≤ (cmdLine m p).first := by
    by_contra hlt
    rw [turn_at w hp rfl (by omega)] at h
    cases h
  have hend := first_eq_size hp hl
  have heq := @turn_at_end env m p w hp hl
  rw [hend] at heq
  exact ⟨hend, heq⟩

/-- Where a turn that goes on leads. -/
theorem onward_pos {l : Line} {endc : Int} {w w' : Work} {d : Deed} {p : Int}
    (h : perform env m l endc w d = .onward p w') : p = endc := by
  have hand : ∀ {f w₀}, handOver f endc w₀ = .onward p w' → p = endc := by
    intro f w₀ hf
    unfold handOver at hf
    split at hf
    · cases hf
    · injection hf with h1 _
      exact h1.symm
    · injection hf with h1 _
      exact h1.symm
  cases d with
  | refuse err => cases h
  | skip =>
    injection h with h1 _
    exact h1.symm
  | setVars imei imsi smsc =>
    injection h with h1 _
    exact h1.symm
  | init =>
    rw [perform] at h
    split at h
    · cases h
    · exact hand h
  | next trac =>
    rw [perform] at h
    split at h
    · exact hand h
    · cases h

theorem step_pos {s t : Int × Work} {l : Line} (h : TurnStep env m s l t) :
    t.1 = l.second + announced env m l := by
  obtain ⟨hline, hout⟩ := h
  rw [turn_eq hline] at hout
  exact onward_pos hout

theorem handOver_wc (f : Act (Except String Bytes)) (pos : Int) (w : Work) :
    (handOver f pos w).work.wc = (f.exec w.wc).2 := by
  unfold handOver
  split <;> rename_i h <;> rw [h] <;> rfl

/-- The client of a session never changes. -/
theorem perform_cid (l : Line) (endc : Int) (w : Work) (d : Deed) :
    (perform env m l endc w d).work.wc.cid = w.wc.cid := by
  cases d with
  | refuse err => rfl
  | skip => rfl
  | setVars imei imsi smsc => rfl
  | init =>
    rw [perform]
    split
    · rfl
    · rw [handOver_wc]
      exact (wapinit_spec env _ w.restart.wc).cid
  | next trac =>
    rw [perform]
    split
    · rw [handOver_wc]
      exact (wapnext_spec env _ trac w.wc).cid
    · rfl

/-- What a turn does to the work: nothing, or what its command asks for. -/
theorem turn_work (pos : Int) (w : Work) :
    (turn env m pos w).outcome.work = w ∨ ∃ l, (turn env m pos w).line = some l ∧
      (turn env m pos w).outcome =
        perform env m l (l.second + announced env m l) w (deed env m l w.wc) := by
  by_cases hout : pos < 0 ∨ (m.size : Int) < pos
  · rw [turn_outside hout]
    exact .inl rfl
  · cases hl : (turn env m pos w).line with
    | some l => exact .inr ⟨l, rfl, by rw [turn_eq hl]⟩
    | none =>
      rw [(turn_end (by omega) (by omega) hl).2]
      exact .inl rfl

theorem turn_cid (pos : Int) (w : Work) :
    (turn env m pos w).outcome.work.wc.cid = w.wc.cid := by
  rcases @turn_work env m pos w with h | ⟨l, _, h⟩
  · rw [h]
  · rw [h, perform_cid]

/-! ## The loop and its fuel -/

theorem loop_mono {n : Nat} {pos : Int} {w : Work} {e : Ended} (h : loop env m n pos w = some e)
    (k : Nat) : loop env m (n + k) pos w = some e := by
  induction n generalizing pos w with
  | zero => cases h
  | succ n ih =>
    rw [Nat.add_right_comm]
    rw [loop] at h ⊢
    cases ho : (turn env m pos w).outcome with
    | onward p w' =>
      rw [ho] at h
      exact ih h
    | _ =>
      rw [ho] at h
      exact h

theorem line_of_onward {pos p : Int} {w w' : Work}
    (h : (turn env m pos w).outcome = .onward p w') : ∃ l, (turn env m pos w).line = some l := by
  by_cases hout : pos < 0 ∨ (m.size : Int) < pos
  · rw [turn_outside hout] at h
    cases h
  · cases hl : (turn env m pos w).line with
    | some l => exact ⟨l, rfl⟩
    | none =>
      rw [(turn_end (by omega) (by omega) hl).2] at h
      cases h

/-- The turns that the loop of `commands` comes to. -/
def Reached (env : Env) (m : Memory) (w : Work) (s : Int × Work) : Prop :=
  ∃ ls, Run (TurnStep env m) (0, w) ls s

theorem Reached.snoc {w : Work} {s t : Int × Work} {l : Line} (h : Reached env m w s)
    (hs : TurnStep env m s l t) : Reached env m w t := by
  obtain ⟨ls, hr⟩ := h
  exact ⟨ls ++ [l], hr.snoc hs⟩

/-- What holds of the work at the start, and after every turn of it, holds
wherever the loop comes to. -/
theorem Reached.invariant {P : Work → Prop} {w : Work} {s : Int × Work}
    (hturn : ∀ s p w', Reached env m w s → P s.2 →
      (turn env m s.1 s.2).outcome = .onward p w' → P w')
    (h0 : P w) (h : Reached env m w s) : P s.2 := by
  obtain ⟨ls, hr⟩ := h
  have hboth : Reached env m w s ∧ P s.2 := by
    refine Run.invariant (P := fun s => Reached env m w s ∧ P s.2) ?_ hr ⟨⟨[], .nil⟩, h0⟩
    rintro s l t ⟨hs, hp⟩ hstep
    exact ⟨hs.snoc hstep, hturn s t.1 t.2 hs hp hstep.2⟩
  exact hboth.2

/-- The end of the loop, if a turn is the last one. -/
def Outcome.ended : Outcome → Option Ended
  | .finished w => some (.returned none w)
  | .refused err w => some (.returned (some err) w)
  | .trapped t w => some (.trapped t w)
  | .onward _ _ => none

/-- The loop ends with a turn that it comes to. -/
theorem Commands.last {w : Work} {e : Ended} (h : Commands env m w e) :
    ∃ s, Reached env m w s ∧ (turn env m s.1 s.2).outcome.ended = some e := by
  obtain ⟨fuel, hf⟩ := h
  have key : ∀ n (s : Int × Work), Reached env m w s → loop env m n s.1 s.2 = some e →
      ∃ s, Reached env m w s ∧ (turn env m s.1 s.2).outcome.ended = some e := by
    intro n
    induction n with
    | zero =>
      intro s _ h
      cases h
    | succ n ih =>
      intro s hs h
      rw [loop] at h
      cases ho : (turn env m s.1 s.2).outcome with
      | onward p w' =>
        rw [ho] at h
        obtain ⟨l, hl⟩ := line_of_onward ho
        exact ih (p, w') (hs.snoc ⟨hl, ho⟩) h
      | _ =>
        rw [ho] at h
        exact ⟨s, hs, by rw [ho]; exact h⟩
  exact key fuel (0, w) ⟨[], .nil⟩ hf

/-- A last turn that the loop comes to is where it ends. -/
theorem Reached.commands {w : Work} {s : Int × Work} {e : Ended} (h : Reached env m w s)
    (he : (turn env m s.1 s.2).outcome.ended = some e) : Commands env m w e := by
  have hlast : loop env m 1 s.1 s.2 = some e := by
    rw [loop]
    cases ho : (turn env m s.1 s.2).outcome <;> rw [ho] at he <;> exact he
  obtain ⟨ls, hr⟩ := h
  have key : ∀ {ls : List Line} {v : Int × Work}, Run (TurnStep env m) (0, w) ls v →
      ∀ k, loop env m k v.1 v.2 = some e → ∃ fuel, loop env m fuel 0 w = some e := by
    intro ls v hr
    induction hr with
    | nil => exact fun k hk => ⟨k, hk⟩
    | snoc _ hs ih =>
      intro k hk
      refine ih (k + 1) ?_
      rw [loop, hs.2]
      exact hk
  exact key hr 1 hlast

theorem ended_work {o : Outcome} {e : Ended} (h : o.ended = some e) : e.work = o.work := by
  cases o <;> cases h <;> rfl

theorem Commands.cid {w : Work} {e : Ended} (h : Commands env m w e) :
    e.work.wc.cid = w.wc.cid := by
  obtain ⟨s, hs, he⟩ := h.last
  have hcid : s.2.wc.cid = w.wc.cid := by
    refine hs.invariant (P := fun v => v.wc.cid = w.wc.cid) ?_ rfl
    intro s p w' _ hp ho
    have ht := @turn_cid env m s.1 s.2
    rw [ho] at ht
    exact ht.trans hp
  rw [ended_work he, turn_cid, hcid]

/-- `commands` ends in one way only. -/
theorem Commands.unique {w : Work} {e e' : Ended} (h : Commands env m w e)
    (h' : Commands env m w e') : e = e' := by
  obtain ⟨n, hn⟩ := h
  obtain ⟨k, hk⟩ := h'
  have hle := loop_mono hn k
  rw [Nat.add_comm, loop_mono hk n] at hle
  exact (Option.some.inj hle).symm

end CppSnippets.Wap
