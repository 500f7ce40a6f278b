import Mathlib.Data.List.GetD
import CppSnippets.Wap.Commands

/-!
# Framing of commands

A body in the shape of `part_add` (a command line with the size of its content,
the content, an empty line) is read back by the loop of `commands` line by line,
whatever bytes the contents consist of. The loop may stop at a command that it
refuses; nothing else makes it leave the frames.
-/
namespace CppSnippets.Wap.Framing

open CppSnippets.Lib

/-! ## The shape of `part_add` -/

/-- A command line: the name, the size of the content and other fields. -/
def header (name : Bytes) (size : Nat) (fields : List (Bytes × Bytes)) : Bytes :=
  name ++ bytes " size=" ++ digits size ++
  (fields.flatMap fun f => bytes " " ++ f.1 ++ bytes "=" ++ f.2) ++ bytes "\r\n"

def frame (name : Bytes) (fields : List (Bytes × Bytes)) (content : Bytes) : Bytes :=
  header name content.length fields ++ content ++ bytes "\r\n\r\n"

theorem partAdd_eq_frame (out : Bytes) (chn : String) (seconds : Int) (trac : Nat) (incBody : Bool)
    (wc : Wcstat) (cont : Bytes) :
    partAdd out chn seconds trac incBody wc cont = out ++ frame (bytes chn)
      [(bytes "gap", signedDigits seconds), (bytes "trac", digits trac),
        (bytes "inc_body", digits incBody.toNat), (bytes "maxd", digits wc.maxdownload.toNat)]
      cont := by
  have hgap : bytes " gap=" = bytes " " ++ bytes "gap" ++ bytes "=" := rfl
  have htrac : bytes " trac=" = bytes " " ++ bytes "trac" ++ bytes "=" := rfl
  have hinc : bytes " inc_body=" = bytes " " ++ bytes "inc_body" ++ bytes "=" := rfl
  have hmaxd : bytes " maxd=" = bytes " " ++ bytes "maxd" ++ bytes "=" := rfl
  rw [partAdd, hgap, htrac, hinc, hmaxd]
  simp [frame, header]

/-- The commands that the server accepts. -/
inductive CmdName where
  | variables
  | response
  | init
  deriving DecidableEq

def CmdName.text : CmdName → Bytes
  | .variables => bytes "Ch-Variables"
  | .response => bytes "Ch-Response"
  | .init => bytes "Ch-Init"

/-- A command and its content. The fields are text of one line, and the size of
the content is an `int`. -/
structure Part where
  name : CmdName
  fields : List (Bytes × Bytes)
  content : Bytes
  oneLine : ∀ f ∈ fields, 10 ∉ f.1 ∧ 10 ∉ f.2
  small : content.length < 2 ^ 31

namespace Part

def line (p : Part) : Bytes := header p.name.text p.content.length p.fields

def text (p : Part) : Bytes := frame p.name.text p.fields p.content

/-- The pointers to the line of a command that starts at this offset. -/
def lineAt (p : Part) (pos : Nat) : Line := ⟨pos, pos + p.line.length⟩

theorem text_eq (p : Part) : p.text = p.line ++ (p.content ++ bytes "\r\n\r\n") :=
  List.append_assoc _ _ _

end Part

/-- The body of a request with these commands. -/
def body (ps : List Part) : Bytes := ps.flatMap Part.text

/-- Where the lines of the commands lie, and where their contents end. -/
def layout (pos : Nat) : List Part → List (Line × Nat)
  | [] => []
  | p :: ps =>
      let endc := pos + p.line.length + p.content.length
      (p.lineAt pos, endc) :: layout (endc + 4) ps

/-- The ranges that a turn at one of these lines hands on; a turn behind the last one
looks at the end of the body only. -/
def rangesAt (env : Env) (m : Memory) (wc : Wcstat) : Option (Line × Nat) → List Range
  | none => [⟨m.size, m.size⟩]
  | some (l, endc) => [⟨l.first, m.size⟩, ⟨l.first, l.second⟩] ++
      if (deed env m l wc).handsContent then [⟨l.second, endc⟩] else []

/-- The branches of `commands` on each of these lines, in order, as long as they
let the loop go on. -/
def follow (env : Env) (m : Memory) : List (Line × Nat) → Work → Ended
  | [], w => .returned none w
  | (l, endc) :: cs, w =>
      match perform env m l endc w (deed env m l w.wc) with
      | .finished w => .returned none w
      | .refused err w => .returned (some err) w
      | .trapped t w => .trapped t w
      | .onward _ w => follow env m cs w

/-! ## A line in its place -/

theorem name_cons (c : CmdName) : ∃ b t, c.text = b :: t ∧ isspace b = false := by
  cases c <;> exact ⟨67, _, rfl, rfl⟩

theorem line_cons (p : Part) : ∃ b t, p.line = b :: t ∧ isspace b = false := by
  obtain ⟨b, t, hb, hs⟩ := name_cons p.name
  refine ⟨b, t ++ bytes " size=" ++ digits p.content.length ++
    (p.fields.flatMap fun f => bytes " " ++ f.1 ++ bytes "=" ++ f.2) ++ bytes "\r\n", ?_, hs⟩
  rw [Part.line, header, hb]
  rfl

/-- The line is text without a line feed, and a line feed. -/
theorem line_eq (p : Part) : ∃ t, p.line = t ++ [10] ∧ 10 ∉ t := by
  refine ⟨p.name.text ++ bytes " size=" ++ digits p.content.length ++
    (p.fields.flatMap fun f => bytes " " ++ f.1 ++ bytes "=" ++ f.2) ++ [13], ?_, ?_⟩
  · simp [Part.line, header, show bytes "\r\n" = [13, 10] from rfl]
  · intro h
    simp only [List.mem_append, List.mem_flatMap] at h
    rcases h with (((h | h) | h) | ⟨f, hf, h⟩) | h
    · revert h
      cases p.name <;> decide
    · exact absurd h (by decide)
    · exact absurd (isdigit_of_mem_digits h) (by decide)
    · obtain ⟨h1, h2⟩ := p.oneLine f hf
      rcases h with ((h | h) | h) | h
      · exact absurd h (by decide)
      · exact h1 h
      · exact absurd h (by decide)
      · exact h2 h
    · exact absurd h (by decide)

variable {env : Env} {m : Memory} {pre gap rest : Bytes} {p : Part}

/-- The command line that the loop finds behind spaces. -/
theorem cmdLine_at (hm : m.body = pre ++ gap ++ (p.line ++ rest))
    (hgap : ∀ b ∈ gap, isspace b = true) :
    cmdLine m pre.length = p.lineAt (pre ++ gap).length := by
  obtain ⟨b, t, hb, hs⟩ := line_cons p
  obtain ⟨u, hu, hnl⟩ := line_eq p
  have hfirst : skipspace m.body pre.length = (pre ++ gap).length := by
    rw [hm, skipspace_append pre hgap, hb, List.cons_append, List.findIdx_cons, hs,
      List.length_append]
    rfl
  have hfind : find 10 (m.body.drop (pre ++ gap).length) = u.length := by
    rw [hm, List.drop_left, hu, List.append_assoc, find_append_of_not_mem hnl]
    rfl
  have hlen : p.line.length = u.length + 1 := by rw [hu, List.length_append]; rfl
  have hsize : m.size = (pre ++ gap).length + (p.line.length + rest.length) := by
    rw [Memory.size, hm]
    simp only [List.length_append]
  simp only [cmdLine, hfirst, hfind]
  rw [if_pos (by omega), Part.lineAt, hlen]
  rfl

theorem text_at (hm : m.body = pre ++ (p.line ++ rest)) :
    (p.lineAt pre.length).text m = p.line := by
  have hall : m.all = pre ++ p.line ++ (rest ++ 0 :: m.behind) := by
    rw [Memory.all, hm]
    simp only [List.append_assoc]
  rw [Line.text, hall]
  exact slice_append _ _ _

/-- What follows the size on its line. -/
theorem after_size (p : Part) : ∃ c s, (p.fields.flatMap fun f =>
    bytes " " ++ f.1 ++ bytes "=" ++ f.2) ++ bytes "\r\n" = c :: s ∧ isdigit c = false := by
  cases p.fields with
  | nil => exact ⟨13, [10], rfl, rfl⟩
  | cons f fs => exact ⟨32, _, rfl, rfl⟩

/-- The first `size` of the line is the key that `part_add` wrote. -/
theorem search_size (c : CmdName) (s : Bytes) :
    search (bytes "size") (c.text ++ bytes " size=" ++ s) = c.text.length + 1 := by
  cases c <;> rfl

theorem announced_at (hm : m.body = pre ++ (p.line ++ rest)) :
    announced env m (p.lineAt pre.length) = p.content.length := by
  obtain ⟨c, s, hs, hc⟩ := after_size p
  have hline : p.line = p.name.text ++ bytes " size=" ++ (digits p.content.length ++ c :: s) := by
    rw [Part.line, header, ← hs]
    simp only [List.append_assoc]
  -- the value lies behind the equality sign
  have hall : m.all = (pre ++ p.name.text ++ bytes " size") ++
      61 :: (digits p.content.length ++ c :: (s ++ rest ++ 0 :: m.behind)) := by
    rw [Memory.all, hm, hline, show bytes " size=" = bytes " size" ++ [61] from rfl]
    simp
  have hlen : (pre ++ p.name.text ++ bytes " size").length =
      pre.length + (p.name.text.length + 1) + 4 := by
    simp only [List.length_append]
    rfl
  have hget : m.all.getD (pre.length + (p.name.text.length + 1) + 4) 0 = 61 := by
    rw [hall, ← hlen, List.getD_append_right _ _ _ _ (Nat.le_refl _), Nat.sub_self]
    rfl
  have hdrop : m.all.drop (pre.length + (p.name.text.length + 1) + 4 + 1) =
      digits p.content.length ++ c :: (s ++ rest ++ 0 :: m.behind) := by
    rw [hall, ← hlen, ← List.drop_drop, List.drop_left]
    rfl
  have hvalue : ∃ second, valueP m (bytes "size") (p.lineAt pre.length) =
      some ⟨pre.length + (p.name.text.length + 1) + 4 + 1, second⟩ := by
    rw [valueP, text_at hm, hline, search_size]
    exact ⟨_, if_pos hget⟩
  obtain ⟨second, hvalue⟩ := hvalue
  rw [announced, hvalue]
  simp only [valueInt, hdrop]
  exact atoi_digits env p.small hc _

/-- A turn at a framed command takes up its line and its content, and does what the
command asks for. -/
theorem turn_framed (w : Work) (hm : m.body = pre ++ gap ++ (p.line ++ rest))
    (hgap : ∀ b ∈ gap, isspace b = true) :
    turn env m pre.length w =
      let l := p.lineAt (pre ++ gap).length
      let endc := l.second + p.content.length
      ⟨some l, rangesAt env m w.wc (some (l, endc)),
        perform env m l endc w (deed env m l w.wc)⟩ := by
  obtain ⟨b, t, hb, _⟩ := line_cons p
  have hsize : pre.length ≤ m.size := by
    rw [Memory.size, hm]
    simp
  have hlt : (p.lineAt (pre ++ gap).length).first < (p.lineAt (pre ++ gap).length).second := by
    simp only [Part.lineAt, hb, List.length_cons]
    omega
  rw [turn_at w hsize (cmdLine_at hm hgap) hlt, announced_at hm]
  rfl

/-- Behind the last command the loop finds the end of the body. -/
theorem turn_behind (w : Work) (hm : m.body = pre ++ gap) (hgap : ∀ b ∈ gap, isspace b = true) :
    turn env m pre.length w = ⟨none, rangesAt env m w.wc none, .finished w⟩ := by
  have hsize : m.size = (pre ++ gap).length := by rw [Memory.size, hm]
  have hpos : pre.length ≤ m.size := by
    rw [hsize, List.length_append]
    omega
  have hfirst : (cmdLine m pre.length).first = m.size := by
    change skipspace m.body pre.length = m.size
    have hskip := skipspace_append pre hgap []
    rw [List.append_nil] at hskip
    rw [hm, hskip, hsize, List.length_append]
    rfl
  rw [turn_at_end w hpos (hfirst ▸ second_le m pre.length hpos), hfirst]
  rfl

/-! ## The whole body -/

theorem body_cons (p : Part) (ps : List Part) :
    body (p :: ps) = p.line ++ (p.content ++ bytes "\r\n\r\n" ++ body ps) := by
  rw [body, List.flatMap_cons, Part.text_eq, List.append_assoc]
  rfl

theorem crlf_isspace : ∀ b ∈ bytes "\r\n\r\n", isspace b = true := List.all_eq_true.mp (by decide)

/-- The body goes on behind the content of a command and the spaces that end it. -/
theorem behind_part {ps : List Part}
    (hm : m.body = pre ++ gap ++ (p.line ++ (p.content ++ bytes "\r\n\r\n" ++ body ps))) :
    m.body = pre ++ gap ++ p.line ++ p.content ++ bytes "\r\n\r\n" ++ body ps ∧
      (pre ++ gap ++ p.line ++ p.content).length =
        (pre ++ gap).length + p.line.length + p.content.length ∧
      (pre ++ gap ++ p.line ++ p.content ++ bytes "\r\n\r\n").length =
        (pre ++ gap).length + p.line.length + p.content.length + 4 := by
  refine ⟨?_, ?_, ?_⟩
  · rw [hm]
    simp only [List.append_assoc]
  · simp only [List.length_append]
  · simp only [List.length_append]
    rfl

theorem loop_layout (ps : List Part) {pre gap : Bytes} (w : Work)
    (hm : m.body = pre ++ gap ++ body ps) (hgap : ∀ b ∈ gap, isspace b = true) :
    loop env m (ps.length + 1) pre.length w =
      some (follow env m (layout (pre ++ gap).length ps) w) := by
  induction ps generalizing pre gap w with
  | nil =>
    rw [loop, turn_behind w (hm.trans (List.append_nil _)) hgap]
    rfl
  | cons p ps ih =>
    rw [body_cons] at hm
    rw [List.length_cons, loop, turn_framed w hm hgap, layout, follow]
    dsimp only [Part.lineAt]
    cases ho : perform env m ⟨(pre ++ gap).length, (pre ++ gap).length + p.line.length⟩
        ((pre ++ gap).length + p.line.length + p.content.length : Nat) w
        (deed env m ⟨(pre ++ gap).length, (pre ++ gap).length + p.line.length⟩ w.wc) with
    | finished w' => rfl
    | refused err w' => rfl
    | trapped t w' => rfl
    | onward pos w' =>
      obtain ⟨hnext, hlen, hlen'⟩ := behind_part hm
      have hrest := ih w' hnext crlf_isspace
      rw [hlen, hlen'] at hrest
      rw [onward_pos ho]
      exact hrest

/-- The turns that the loop comes to are at the lines of the layout, one after the other. -/
theorem run_layout {ps : List Part} {w : Work} {ls : List Line} {s : Int × Work}
    (hm : m.body = body ps) (h : Run (TurnStep env m) (0, w) ls s) :
    ls = ((layout 0 ps).take ls.length).map Prod.fst ∧
    ∃ pre gap, s.1 = (pre.length : Nat) ∧ (∀ b ∈ gap, isspace b = true) ∧
      m.body = pre ++ gap ++ body (ps.drop ls.length) ∧
      (layout 0 ps).drop ls.length = layout (pre ++ gap).length (ps.drop ls.length) := by
  induction h with
  | nil => exact ⟨rfl, [], [], rfl, fun _ hb => absurd hb List.not_mem_nil, hm, rfl⟩
  | snoc hr hs ih =>
    rename_i ls s l t
    obtain ⟨hls, pre, gap, hpos, hgap, hbody, hdrop⟩ := ih
    obtain ⟨pos, w'⟩ := s
    obtain rfl : pos = (pre.length : Nat) := hpos
    obtain ⟨hline, hout⟩ := hs
    cases hps : ps.drop ls.length with
    | nil =>
      rw [hps] at hbody
      rw [turn_behind w' (hbody.trans (List.append_nil _)) hgap] at hline
      cases hline
    | cons p qs =>
      rw [hps, body_cons] at hbody
      rw [hps, layout] at hdrop
      rw [turn_framed w' hbody hgap] at hline hout
      cases hline
      obtain ⟨hnext, hlen, hlen'⟩ := behind_part hbody
      have hqs : ps.drop (ls.length + 1) = qs := by
        rw [← List.drop_drop, hps]
        rfl
      have hlast : (layout 0 ps)[ls.length]? = some (p.lineAt (pre ++ gap).length,
          (pre ++ gap).length + p.line.length + p.content.length) := by
        rw [← List.head?_drop, hdrop]
        rfl
      have hcount (l : Line) : (ls ++ [l]).length = ls.length + 1 := by
        rw [List.length_append, List.length_singleton]
      rw [hcount, hqs]
      refine ⟨?_, pre ++ gap ++ p.line ++ p.content, bytes "\r\n\r\n", ?_, crlf_isspace, hnext, ?_⟩
      · rw [List.take_add_one, hlast, List.map_append, ← hls]
        rfl
      · rw [hlen]
        exact onward_pos hout
      · rw [← List.drop_drop, hdrop, hlen']
        rfl

/-- The lines and the contents lie where the layout says. -/
theorem layout_slices (ps : List Part) {pre : Bytes} (hm : m.body = pre ++ body ps) :
    (layout pre.length ps).map (fun c => (c.1.text m, slice m.body c.1.second c.2)) =
      ps.map fun p => (p.line, p.content) := by
  induction ps generalizing pre with
  | nil => rfl
  | cons p ps ih =>
    rw [body_cons] at hm
    have hcontent : slice m.body (pre.length + p.line.length)
        (pre.length + p.line.length + p.content.length) = p.content := by
      have hs := slice_append (pre ++ p.line) p.content (bytes "\r\n\r\n" ++ body ps)
      rw [List.length_append] at hs
      rw [hm]
      simpa only [List.append_assoc] using hs
    have hrest := @ih (pre ++ p.line ++ p.content ++ bytes "\r\n\r\n") (by
      rw [hm]
      simp only [List.append_assoc])
    have hlen : (pre ++ p.line ++ p.content ++ bytes "\r\n\r\n").length =
        pre.length + p.line.length + p.content.length + 4 := by
      simp only [List.length_append]
      rfl
    rw [hlen] at hrest
    rw [layout, List.map_cons, List.map_cons, hrest]
    simp only [Part.lineAt, hcontent]
    rw [show Line.text m ⟨pre.length, pre.length + p.line.length⟩ = p.line from text_at hm]

/-- For every list of commands with any contents, every session and whatever lies
behind the body: these lines and these contents are where the layout says; the turns
that the loop comes to take them up in this order and hand on these ranges; and it does
with each what its branches do. -/
theorem framing (env : Env) (ps : List Part) (behind : Bytes) (w : Work) :
    let m : Memory := ⟨body ps, behind⟩
    (layout 0 ps).map (fun c => (c.1.text m, slice m.body c.1.second c.2)) =
        ps.map (fun p => (p.line, p.content)) ∧
    (∀ ls s, Run (TurnStep env m) (0, w) ls s →
      ls = ((layout 0 ps).take ls.length).map Prod.fst ∧
      (turn env m s.1 s.2).line = ((layout 0 ps)[ls.length]?).map Prod.fst ∧
      (turn env m s.1 s.2).ranges = rangesAt env m s.2.wc (layout 0 ps)[ls.length]?) ∧
    ∀ e, Commands env m w e ↔ e = follow env m (layout 0 ps) w := by
  intro m
  have hloop := @loop_layout env m ps [] [] w rfl (fun _ hb => absurd hb List.not_mem_nil)
  refine ⟨@layout_slices m ps [] rfl, fun ls s hr => ?_, fun e => ?_⟩
  · obtain ⟨hls, pre, gap, hpos, hgap, hbody, hdrop⟩ := run_layout rfl hr
    refine ⟨hls, ?_⟩
    rw [hpos, ← List.head?_drop, hdrop]
    cases hps : ps.drop ls.length with
    | nil =>
      rw [hps] at hbody
      rw [turn_behind s.2 (hbody.trans (List.append_nil _)) hgap]
      exact ⟨rfl, rfl⟩
    | cons p qs =>
      rw [hps, body_cons] at hbody
      rw [turn_framed s.2 hbody hgap]
      exact ⟨rfl, rfl⟩
  · constructor
    · intro h
      exact h.unique ⟨_, hloop⟩
    · rintro rfl
      exact ⟨_, hloop⟩

/-- A field and contents that look like sizes and commands. -/
def lookalikes : List Part :=
  [⟨.variables, [(bytes "IMEI", bytes "1"), (bytes "IMSI", bytes "size=9"), (bytes "SMSC", bytes "3")],
      bytes "\nCh-Init size=99 trac=1\r\n", by decide, by decide⟩,
    ⟨.response, [(bytes "trac", bytes "0")], bytes "\r\n size=2\n", by decide, by decide⟩]

/-- The second command is refused; until then the loop has not left the frames. -/
theorem framing_lookalikes :
    let m : Memory := ⟨body lookalikes, []⟩
    (layout 0 lookalikes).map (fun c => (c.1.text m, slice m.body c.1.second c.2)) =
      [(bytes "Ch-Variables size=25 IMEI=1 IMSI=size=9 SMSC=3\r\n", bytes "\nCh-Init size=99 trac=1\r\n"),
        (bytes "Ch-Response size=10 trac=0\r\n", bytes "\r\n size=2\n")] ∧
    (∃ s, Run (TurnStep .ilp32 m) (0, ⟨.new 1, [], []⟩) [⟨0, 48⟩] s ∧
      (turn .ilp32 m s.1 s.2).line = some ⟨77, 105⟩) ∧
    ∃ w, Commands .ilp32 m ⟨.new 1, [], []⟩ (.returned (some "trac val error") w) ∧
      w.vars.find (bytes "IMSI") = some (bytes "size=9") := by
  obtain ⟨hslices, hturns, hends⟩ := framing .ilp32 lookalikes [] ⟨.new 1, [], []⟩
  have hfirst : Run (TurnStep .ilp32 ⟨body lookalikes, []⟩) (0, ⟨.new 1, [], []⟩) [⟨0, 48⟩] (73,
      (turn .ilp32 ⟨body lookalikes, []⟩ 0 ⟨.new 1, [], []⟩).outcome.work) :=
    .single ⟨by decide +kernel, by decide +kernel⟩
  obtain ⟨_, hline, _⟩ := hturns _ _ hfirst
  exact ⟨hslices.trans (by decide +kernel), ⟨_, hfirst, hline.trans (by decide +kernel)⟩,
    (follow .ilp32 ⟨body lookalikes, []⟩ (layout 0 lookalikes) ⟨.new 1, [], []⟩).work,
    (hends _).mpr (by decide +kernel), by decide +kernel⟩

end CppSnippets.Wap.Framing
