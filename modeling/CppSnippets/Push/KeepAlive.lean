import CppSnippets.Push.Lines

/-!
# Requests that follow one another on a connection

The `request` object is not cleared between requests: parameters and header lines
of one request stay for all later ones, and so does the length of a content. What
the message handler is given does not depend on the requests before if and only if
none of them had parameters or header lines. A request without header lines is
handed on only once the terminator of a later header has arrived.
-/
namespace CppSnippets.Push.KeepAlive

open CppSnippets.Lib
open CppSnippets.Wap (Bytes bytes isspace find search prefix_at_search search_le_at
  search_add_le search_lt_iff)

/-- A well-formed request, with the text of its header lines and what the grammar
finds in them. -/
structure HttpRequest (g : Grammar) where
  line : Bytes
  method : Bytes
  target : Bytes
  path : Bytes
  params : KeyValues
  headers : List (Bytes × Bytes × Bytes)
  content : Bytes
  oneLine : 10 ∉ line
  notBlank : (line ++ [13]).all isspace = false
  statusLine : g.statusLine (line ++ [13]) = some (method, target)
  targetOk : pathParams g target = some (path, params)
  headerText : ∀ h ∈ headers, 10 ∉ h.1 ∧ h.1 ≠ [] ∧ h.1.head? ≠ some 13
  headerLine : ∀ h ∈ headers, g.headerLine (h.1 ++ [13]) = some h.2
  length : ∀ h ∈ headers, iequals h.2.1 (bytes "Content-Length") = true →
    lexicalInt h.2.2 = some (content.length : Int)
  noLength : (∀ h ∈ headers, iequals h.2.1 (bytes "Content-Length") = false) → content = []

variable {g : Grammar}

namespace HttpRequest

/-- The header lines. -/
def block (hs : List (Bytes × Bytes × Bytes)) : Bytes := hs.flatMap fun h => h.1 ++ crlf

/-- What follows the request line. -/
def afterLine (r : HttpRequest g) : Bytes := block r.headers ++ crlf ++ r.content

def text (r : HttpRequest g) : Bytes := r.line ++ crlf ++ r.afterLine

def message (r : HttpRequest g) : Message :=
  ⟨r.method, r.path, r.params, r.headers.map Prod.snd, r.content⟩

end HttpRequest

open HttpRequest

/-- The bytes of requests that follow one another. -/
def stream (rs : List (HttpRequest g)) : Bytes := rs.flatMap text

/-- What parsing a text alone yields, with a request object that is new. -/
def alone (g : Grammar) (text : Bytes) : Option Message :=
  let (_, m, rest) := parseStatusLine g .empty text
  match headerLoop g (rest.length + 1) m rest with
  | .done m rest => if m.content.length ≤ rest.length then some (fillContent m rest).1 else none
  | _ => none

/-- The bytes that a connection has received. -/
def received (evs : List Event) : Bytes :=
  evs.flatMap fun ev => match ev with
    | .received b => b
    | _ => []

/-- The number of requests that are handed on: a last one without header lines is
still waited for. -/
def answered (rs : List (HttpRequest g)) : Nat :=
  match rs.getLast? with
  | none => 0
  | some r => if r.headers = [] then rs.length - 1 else rs.length

/-- However the bytes arrive: the message handler is given what each request yields
alone, one after the other, the parsing of each request starts at its first byte,
and all are handed on that are not still waited for. -/
structure Isolated (g : Grammar) (rs : List (HttpRequest g)) : Prop where
  same : ∀ evs c, Run (Step g) .fresh evs c → received evs <+: stream rs →
    ∀ (k : Nat) (m : Message), c.given[k]? = some m →
      ∃ r : HttpRequest g, rs[k]? = some r ∧ alone g r.text = some m
  starts : ∀ evs c, Run (Step g) .fresh evs c → received evs <+: stream rs →
    c.phase = .methodLine → received evs = stream (rs.take c.given.length) ++ c.rsbuf
  all : ∀ evs c, Run (Step g) .fresh evs c → (∀ ev ∈ evs, ∀ value, ev ≠ .failed value) →
    received evs = stream rs → c.ready = false → c.given.length = answered rs

theorem block_eq (hs : List (Bytes × Bytes × Bytes)) : block hs = textOf (hs.map Prod.fst) := by
  rw [block, textOf, List.flatMap_map]

/-- A buffer that has the end of a header has all header lines. -/
theorem block_complete {hs : List (Bytes × Bytes × Bytes)} {buf rest : Bytes}
    (hh : ∀ h ∈ hs, 10 ∉ h.1 ∧ h.1 ≠ [] ∧ h.1.head? ≠ some 13)
    (h : buf <+: block hs ++ crlf ++ rest) (hin : crlf ++ crlf <:+: buf) :
    ∃ rest', buf = block hs ++ crlf ++ rest' ∧ rest' <+: rest := by
  rw [block_eq] at h ⊢
  refine lines_complete (fun l hl => ?_) h hin
  obtain ⟨x, hx, rfl⟩ := List.mem_map.mp hl
  exact ⟨(hh x hx).1, (hh x hx).2.1⟩

/-! ## What the handlers do with a well-formed request -/

theorem parse_line (r : HttpRequest g) (m : Message) (rest : Bytes) :
    parseStatusLine g m (r.line ++ crlf ++ rest) =
      (none, { m with method := r.method, path := r.path, params := m.params ++ r.params }, rest) := by
  have hfirst : firstLine ((r.line ++ crlf ++ rest).length + 1) (r.line ++ crlf ++ rest) =
      some (r.line ++ [13], rest) := by
    rw [firstLine, getline_line r.oneLine]
    dsimp only
    rw [r.notBlank]
    rfl
  rw [parseStatusLine, hfirst]
  dsimp only
  rw [r.statusLine]
  dsimp only
  rw [r.targetOk]

/-- A header line, in a request with this length of content. -/
def addHeader (n : Nat) (m : Message) (h : Bytes × Bytes × Bytes) : Message :=
  { m with
    content := if iequals h.2.1 (bytes "Content-Length") then resize m.content n else m.content
    headers := m.headers ++ [h.2] }

/-- The request object after the header lines. -/
def withHeaders (r : HttpRequest g) (m : Message) : Message :=
  r.headers.foldl (addHeader r.content.length) m

theorem header_loop (r : HttpRequest g) (m : Message) (rest : Bytes) :
    headerLoop g ((block r.headers ++ crlf ++ rest).length + 1) m (block r.headers ++ crlf ++ rest) =
      .done (withHeaders r m) rest := by
  have key : ∀ (hs : List (Bytes × Bytes × Bytes)) (m : Message) (n : Nat),
      (∀ h ∈ hs, h ∈ r.headers) → (block hs ++ crlf ++ rest).length < n →
      headerLoop g n m (block hs ++ crlf ++ rest) =
        .done (hs.foldl (addHeader r.content.length) m) rest := by
    intro hs
    induction hs with
    | nil =>
      intro m n _ hn
      obtain ⟨n, rfl⟩ := Nat.exists_eq_add_of_lt hn
      have hline : getline (crlf ++ rest) = some ([13], rest) :=
        getline_line (l := []) List.not_mem_nil rest
      change headerLoop g (0 + n + 1) m (crlf ++ rest) = _
      rw [headerLoop, hline]
      rfl
    | cons x hs ih =>
      intro m n hmem hn
      obtain ⟨n, rfl⟩ := Nat.exists_eq_add_of_lt hn
      obtain ⟨hx, hne, hhead⟩ := r.headerText x (hmem x List.mem_cons_self)
      have hassoc : block (x :: hs) ++ crlf ++ rest =
          x.1 ++ crlf ++ (block hs ++ crlf ++ rest) := by
        simp only [block, List.flatMap_cons, List.append_assoc]
      have hempty : ¬((x.1 ++ [13]).isEmpty = true ∨ (x.1 ++ [13]).head? = some 13) := by
        obtain ⟨b, t, hb⟩ := List.exists_cons_of_ne_nil hne
        rw [hb] at hhead ⊢
        simpa using hhead
      have hparse : parseHeaderLine g m (x.1 ++ [13]) =
          some (none, addHeader r.content.length m x) := by
        rw [parseHeaderLine, r.headerLine x (hmem x List.mem_cons_self)]
        dsimp only
        by_cases hcl : iequals x.2.1 (bytes "Content-Length") = true
        · rw [if_pos hcl, r.length x (hmem x List.mem_cons_self) hcl]
          dsimp only
          rw [if_neg (by omega), addHeader, if_pos hcl, Int.toNat_natCast]
        · rw [if_neg hcl, addHeader, if_neg hcl]
      rw [hassoc, headerLoop, getline_line hx]
      dsimp only
      rw [if_neg hempty, hparse]
      dsimp only
      rw [if_pos (show codeOf none = .success from rfl)]
      have hlen := congrArg List.length hassoc
      simp only [List.length_append] at hlen hn ⊢
      exact ih _ _ (fun h hh => hmem h (List.mem_cons_of_mem _ hh)) (by
        simp only [List.length_append]
        have : 0 < crlf.length := by decide
        omega)
  exact key r.headers m _ (fun _ h => h) (Nat.lt_succ_self _)

theorem withHeaders_text (r : HttpRequest g) (m : Message) :
    withHeaders r m = ⟨m.method, m.path, m.params, m.headers ++ r.headers.map Prod.snd,
      (withHeaders r m).content⟩ := by
  have key : ∀ (hs : List (Bytes × Bytes × Bytes)) (m : Message),
      hs.foldl (addHeader r.content.length) m = ⟨m.method, m.path, m.params,
        m.headers ++ hs.map Prod.snd, (hs.foldl (addHeader r.content.length) m).content⟩ := by
    intro hs
    induction hs with
    | nil => intro m; simp
    | cons x hs ih =>
      intro m
      rw [List.foldl_cons, ih]
      simp [addHeader]
  exact key r.headers m

/-- A request has the length of its content in its header lines, or no content. -/
theorem content_length (r : HttpRequest g) {m : Message} (hm : m.content = []) :
    (withHeaders r m).content.length = r.content.length := by
  have key : ∀ (hs : List (Bytes × Bytes × Bytes)) (m : Message),
      (hs.foldl (addHeader r.content.length) m).content.length =
        if ∃ h ∈ hs, iequals h.2.1 (bytes "Content-Length") = true then r.content.length
        else m.content.length := by
    intro hs
    induction hs with
    | nil => intro m; simp
    | cons x hs ih =>
      intro m
      rw [List.foldl_cons, ih]
      by_cases hlater : ∃ h ∈ hs, iequals h.2.1 (bytes "Content-Length") = true
      · obtain ⟨h, hh, hcl⟩ := hlater
        rw [if_pos ⟨h, hh, hcl⟩, if_pos ⟨h, List.mem_cons_of_mem _ hh, hcl⟩]
      · rw [if_neg hlater]
        by_cases hx : iequals x.2.1 (bytes "Content-Length") = true
        · rw [if_pos ⟨x, List.mem_cons_self, hx⟩, addHeader, if_pos hx]
          exact resize_length _ _
        · rw [if_neg, addHeader, if_neg hx]
          rintro ⟨h, hh, hcl⟩
          rcases List.mem_cons.mp hh with rfl | hh
          · exact hx hcl
          · exact hlater ⟨h, hh, hcl⟩
  rw [withHeaders, key]
  by_cases hcl : ∃ h ∈ r.headers, iequals h.2.1 (bytes "Content-Length") = true
  · rw [if_pos hcl]
  · rw [if_neg hcl, hm, r.noLength fun h hh => by
      rw [Bool.eq_false_iff]
      exact fun h' => hcl ⟨h, hh, h'⟩]

theorem fill_content {m : Message} {content : Bytes} (h : m.content.length = content.length)
    (rest : Bytes) : fillContent m (content ++ rest) = ({ m with content := content }, rest) := by
  have hdrop : m.content.drop (content ++ rest).length = [] := by
    apply List.drop_eq_nil_of_le
    simp only [List.length_append]
    omega
  rw [fillContent, hdrop, h, List.take_left, List.drop_left, List.append_nil]

/-- The request object has nothing left from earlier requests, apart from what
every request overwrites. -/
def Blank (m : Message) : Prop := m.params = [] ∧ m.headers = [] ∧ m.content = []

theorem empty_blank : Blank .empty := ⟨rfl, rfl, rfl⟩

/-- The request object after the request line, and after the header lines. -/
def withLine (r : HttpRequest g) (m : Message) : Message :=
  { m with method := r.method, path := r.path, params := m.params ++ r.params }

theorem message_of_blank (r : HttpRequest g) {m : Message} (hm : Blank m) :
    { withHeaders r (withLine r m) with content := r.content } = r.message := by
  obtain ⟨hp, hh, _⟩ := hm
  rw [withHeaders_text]
  simp [withLine, message, hp, hh]

/-- A request without parameters and header lines leaves nothing. -/
theorem message_blank {r : HttpRequest g} (hp : r.params = []) (hh : r.headers = []) :
    Blank r.message := by
  refine ⟨hp, ?_, ?_⟩
  · show r.headers.map Prod.snd = []
    rw [hh]
    rfl
  · exact r.noLength fun x hx => by
      rw [hh] at hx
      cases hx

theorem alone_text (r : HttpRequest g) : alone g r.text = some r.message := by
  have hlen := content_length r (m := withLine r .empty) rfl
  have hfill := fill_content hlen []
  rw [List.append_nil] at hfill
  rw [alone, text, parse_line]
  dsimp only
  rw [afterLine, header_loop]
  dsimp only
  change (if (withHeaders r (withLine r .empty)).content.length ≤ r.content.length then
    some (fillContent (withHeaders r (withLine r .empty)) r.content).1 else none) = _
  rw [if_pos (Nat.le_of_eq hlen), hfill, message_of_blank r empty_blank]

/-! ## The connection along the stream -/

theorem ready_methodLine (buf : Bytes) (m : Message) (given : List Message) :
    Connection.ready ⟨.methodLine, buf, m, given⟩ = true ↔ crlf <:+: buf := by
  rw [← search_lt_iff (show crlf ≠ [] by decide)]
  exact decide_eq_true_iff

theorem ready_headers (buf : Bytes) (m : Message) (given : List Message) :
    Connection.ready ⟨.headers, buf, m, given⟩ = true ↔ crlf ++ crlf <:+: buf := by
  rw [← search_lt_iff (show crlf ++ crlf ≠ [] by decide)]
  exact decide_eq_true_iff

theorem ready_content (buf : Bytes) (m : Message) (given : List Message) :
    Connection.ready ⟨.content, buf, m, given⟩ = true ↔ m.content.length ≤ buf.length :=
  decide_eq_true_iff

theorem line_handled (r : HttpRequest g) (m : Message) (given : List Message) (rest : Bytes) :
    Connection.handle g ⟨.methodLine, r.line ++ crlf ++ rest, m, given⟩ =
      ⟨.headers, rest, withLine r m, given⟩ := by
  show Connection.handleMethodLine g _ = _
  rw [Connection.handleMethodLine, parse_line]
  rfl

theorem headers_handled (r : HttpRequest g) (m : Message) (given : List Message) (rest : Bytes) :
    Connection.handle g ⟨.headers, block r.headers ++ crlf ++ rest, m, given⟩ =
      if (withHeaders r m).content.length ≤ rest.length
      then Connection.handleContent ⟨.headers, rest, withHeaders r m, given⟩
      else ⟨.content, rest, withHeaders r m, given⟩ := by
  show Connection.handleHeaders g _ = _
  rw [Connection.handleHeaders, header_loop]

theorem content_handled (phase : Phase) {m : Message} {content : Bytes}
    (h : m.content.length = content.length) (given : List Message) (rest : Bytes) :
    Connection.handleContent ⟨phase, content ++ rest, m, given⟩ =
      ⟨.methodLine, rest, { m with content := content }, given ++ [{ m with content := content }]⟩ := by
  rw [Connection.handleContent, fill_content h]

theorem stream_drop {rs : List (HttpRequest g)} {k : Nat} {r : HttpRequest g}
    (h : rs[k]? = some r) : stream (rs.drop k) = r.text ++ stream (rs.drop (k + 1)) := by
  obtain ⟨hk, rfl⟩ := List.getElem?_eq_some_iff.mp h
  rw [List.drop_eq_getElem_cons hk]
  exact List.flatMap_cons

theorem stream_take {rs : List (HttpRequest g)} {k : Nat} {r : HttpRequest g}
    (h : rs[k]? = some r) : stream (rs.take (k + 1)) = stream (rs.take k) ++ r.text := by
  rw [List.take_add_one, h, stream, List.flatMap_append]
  exact congrArg _ (List.append_nil r.text)

theorem stream_cut (rs : List (HttpRequest g)) (k : Nat) :
    stream rs = stream (rs.take k) ++ stream (rs.drop k) := by
  rw [stream, stream, stream, ← List.flatMap_append, List.take_append_drop]

/-- The stream, cut behind the first line of a request. -/
theorem stream_at {rs : List (HttpRequest g)} {k : Nat} {r : HttpRequest g}
    (h : rs[k]? = some r) : stream rs = stream (rs.take k) ++
      (r.line ++ crlf ++ (r.afterLine ++ stream (rs.drop (k + 1)))) := by
  rw [stream_cut rs k, stream_drop h, text]
  simp only [List.append_assoc]

theorem afterLine_append (r : HttpRequest g) (rest : Bytes) :
    r.afterLine ++ rest = block r.headers ++ crlf ++ (r.content ++ rest) := by
  rw [afterLine, List.append_assoc]

theorem afterLine_terminated {r : HttpRequest g} (h : r.headers ≠ []) :
    crlf ++ crlf <:+: r.afterLine := by
  obtain ⟨init, x, hx⟩ := (List.eq_nil_or_concat r.headers).resolve_left h
  refine ⟨block init ++ x.1, r.content, ?_⟩
  rw [afterLine, hx]
  simp only [block, List.concat_eq_append, List.flatMap_append, List.flatMap_cons,
    List.flatMap_nil, List.append_assoc, List.append_nil]

theorem text_terminated (r : HttpRequest g) : crlf ++ crlf <:+: r.text := by
  by_cases h : r.headers = []
  · refine ⟨r.line, r.content, ?_⟩
    rw [text, afterLine, h]
    simp only [block, List.flatMap_nil, List.nil_append, List.append_assoc]
  · exact (afterLine_terminated h).trans (List.suffix_append _ _).isInfix

theorem answered_le (rs : List (HttpRequest g)) : answered rs ≤ rs.length := by
  rw [answered]
  cases rs.getLast? with
  | none => exact Nat.zero_le _
  | some r =>
    dsimp only
    by_cases h : r.headers = []
    · rw [if_pos h]
      exact Nat.sub_le _ _
    · rw [if_neg h]

/-- A request that is handed on has the end of a header behind its first line. -/
theorem terminated_of_lt {rs : List (HttpRequest g)} {k : Nat} {r : HttpRequest g}
    (h : rs[k]? = some r) (hk : k < answered rs) :
    crlf ++ crlf <:+: r.afterLine ++ stream (rs.drop (k + 1)) := by
  by_cases hr : r.headers = []
  · have hlt : k + 1 < rs.length := by
      by_contra hge
      obtain ⟨hlt, rfl⟩ := List.getElem?_eq_some_iff.mp h
      have hlast : rs.getLast? = some rs[k] := by
        rw [List.getLast?_eq_getElem?, ← h]
        congr 1
        omega
      rw [answered, hlast] at hk
      dsimp only at hk
      rw [if_pos hr] at hk
      omega
    rw [stream_drop (List.getElem?_eq_getElem hlt)]
    refine (text_terminated rs[k + 1]).trans ⟨r.afterLine, stream (rs.drop (k + 1 + 1)), ?_⟩
    rw [List.append_assoc]
  · exact (afterLine_terminated hr).trans (List.prefix_append _ _).isInfix

/-- A last request without header lines has no end of a header behind its first
line. -/
theorem lt_of_terminated {rs : List (HttpRequest g)} {k : Nat} {r : HttpRequest g} {buf : Bytes}
    (h : rs[k]? = some r) (hbuf : buf <+: r.afterLine ++ stream (rs.drop (k + 1)))
    (hin : crlf ++ crlf <:+: buf) : k < answered rs := by
  obtain ⟨hlt, rfl⟩ := List.getElem?_eq_some_iff.mp h
  by_contra hge
  cases hlast : rs.getLast? with
  | none =>
    rw [List.getLast?_eq_none_iff] at hlast
    rw [hlast] at hlt
    exact Nat.not_lt_zero _ hlt
  | some r =>
    rw [answered, hlast] at hge
    dsimp only at hge
    by_cases hr : r.headers = []
    · rw [if_pos hr] at hge
      have hk : k + 1 = rs.length := by omega
      have hkr : rs[k] = r := by
        rw [List.getLast?_eq_getElem?, List.getElem?_eq_some_iff] at hlast
        obtain ⟨_, rfl⟩ := hlast
        congr 1
        omega
      have hcontent : r.content = [] := r.noLength fun x hx => by
        rw [hr] at hx
        cases hx
      rw [hkr, hk, List.drop_length, afterLine, hr, hcontent] at hbuf
      have hlen : (crlf ++ crlf).length ≤ crlf.length := by
        have h := hin.length_le.trans hbuf.length_le
        simpa only [block, stream, List.drop_nil, List.flatMap_nil, List.nil_append,
          List.append_nil] using h
      exact absurd hlen (by decide)
    · rw [if_neg hr] at hge
      exact hge hlt

/-- No request but the last one handed on leaves anything in the request object. -/
def LeavesNothing (rs : List (HttpRequest g)) : Prop :=
  ∀ (k : Nat) (r : HttpRequest g), k + 1 < answered rs → rs[k]? = some r →
    r.params = [] ∧ r.headers = []

/-- Where a connection is in the stream, with the bytes it has received. -/
def Place (rs : List (HttpRequest g)) (evs : List Event) (c : Connection) : Prop :=
  let k := c.given.length
  let done := stream (rs.take k)
  match c.phase with
  | .methodLine => received evs = done ++ c.rsbuf ∧ (k < answered rs → Blank c.message)
  | .headers => ∃ r m, rs[k]? = some r ∧ received evs = done ++ (r.line ++ crlf ++ c.rsbuf) ∧
      c.message = withLine r m ∧ (k < answered rs → Blank m)
  | .content => ∃ r m, rs[k]? = some r ∧ k < answered rs ∧ Blank m ∧
      received evs = done ++ (r.line ++ crlf ++ (block r.headers ++ crlf ++ c.rsbuf)) ∧
      c.message = withHeaders r (withLine r m)
  | .failed _ => ∃ value, .failed value ∈ evs
  | .threw => False

/-- The invariant of a connection that receives requests of which none leaves
anything. -/
structure Follows (rs : List (HttpRequest g)) (evs : List Event) (c : Connection) : Prop where
  bound : c.given.length ≤ answered rs
  given : c.given = (rs.take c.given.length).map message
  place : Place rs evs c

theorem received_snoc (evs : List Event) (ev : Event) :
    received (evs ++ [ev]) = received evs ++ received [ev] := by
  simp only [received, List.flatMap_append]

theorem received_quiet {evs : List Event} {ev : Event} (h : ∀ b, ev ≠ .received b) :
    received (evs ++ [ev]) = received evs := by
  rw [received_snoc]
  cases ev with
  | received b => exact absurd rfl (h b)
  | failed _ => exact List.append_nil _
  | handled => exact List.append_nil _

theorem given_snoc {rs : List (HttpRequest g)} {given : List Message} {r : HttpRequest g}
    (h : given = (rs.take given.length).map message) (hr : rs[given.length]? = some r) :
    given ++ [r.message] = (rs.take (given ++ [r.message]).length).map message := by
  rw [List.length_append, List.length_singleton, List.take_add_one, hr, List.map_append, ← h]
  rfl

/-- A request has arrived whole and is handed on. -/
theorem follows_content {rs : List (HttpRequest g)} (hrs : LeavesNothing rs) {evs : List Event}
    {m : Message} {given : List Message} {buf : Bytes} {r : HttpRequest g} (phase : Phase)
    (hr : rs[given.length]? = some r) (hk : given.length < answered rs) (hm : Blank m)
    (hgiven : given = (rs.take given.length).map message)
    (hall : received evs = stream (rs.take given.length) ++
      (r.line ++ crlf ++ (block r.headers ++ crlf ++ buf)))
    (hbuf : buf <+: r.content ++ stream (rs.drop (given.length + 1)))
    (hlen : (withHeaders r (withLine r m)).content.length ≤ buf.length) :
    Follows rs evs (Connection.handleContent ⟨phase, buf, withHeaders r (withLine r m), given⟩) := by
  have hcontent : (withHeaders r (withLine r m)).content.length = r.content.length :=
    content_length r hm.2.2
  rw [hcontent] at hlen
  obtain ⟨rest, rfl, _⟩ := prefix_cut hbuf hlen
  rw [content_handled phase hcontent, message_of_blank r hm]
  have hsnoc := given_snoc hgiven hr
  refine ⟨?_, hsnoc, ?_, ?_⟩
  · rw [List.length_append]
    exact hk
  · rw [List.length_append, List.length_singleton, stream_take hr, hall, text, afterLine]
    simp only [List.append_assoc]
  · intro hk'
    rw [List.length_append, List.length_singleton] at hk'
    obtain ⟨hp, hh⟩ := hrs _ r hk' hr
    exact message_blank hp hh

theorem follows_received {rs : List (HttpRequest g)} {evs : List Event} {c : Connection}
    (h : Follows rs evs c) (hreading : c.reading = true) (b : Bytes) :
    Follows rs (evs ++ [.received b]) { c with rsbuf := c.rsbuf ++ b } := by
  have hb : received (evs ++ [.received b]) = received evs ++ b := by
    rw [received_snoc]
    exact congrArg _ (List.append_nil b)
  refine ⟨h.bound, h.given, ?_⟩
  obtain ⟨_, _, hplace⟩ := h
  obtain ⟨phase, buf, m, given⟩ := c
  cases phase with
  | methodLine =>
    obtain ⟨hall, hm⟩ := hplace
    exact ⟨by rw [hb, hall, List.append_assoc], hm⟩
  | headers =>
    obtain ⟨r, m, hr, hall, hm⟩ := hplace
    exact ⟨r, m, hr, by rw [hb, hall]; simp only [List.append_assoc], hm⟩
  | content =>
    obtain ⟨r, m, hr, hk, hblank, hall, hm⟩ := hplace
    exact ⟨r, m, hr, hk, hblank, by rw [hb, hall]; simp only [List.append_assoc], hm⟩
  | failed ec => exact absurd hreading Bool.false_ne_true
  | threw => exact hplace.elim

theorem follows_handled {rs : List (HttpRequest g)} (hrs : LeavesNothing rs) {evs : List Event}
    {c : Connection} (hpre : received evs <+: stream rs) (h : Follows rs evs c)
    (hready : c.ready = true) : Follows rs (evs ++ [.handled]) (c.handle g) := by
  have hquiet : received (evs ++ [.handled]) = received evs :=
    received_quiet fun b hb => by cases hb
  obtain ⟨hbound, hgiven, hplace⟩ := h
  obtain ⟨phase, buf, m, given⟩ := c
  cases phase with
  | methodLine =>
    obtain ⟨hall, hm⟩ := hplace
    rw [ready_methodLine] at hready
    -- there is a next request, and its line has arrived
    have hk : given.length < rs.length := by
      by_contra hge
      rw [stream_cut rs given.length, hall, List.prefix_append_right_inj,
        List.drop_eq_nil_of_le (Nat.le_of_not_lt hge)] at hpre
      have hlen : crlf.length ≤ 0 := hready.length_le.trans hpre.length_le
      exact absurd hlen (by decide)
    have hr := List.getElem?_eq_getElem hk
    rw [stream_at hr, hall, List.prefix_append_right_inj] at hpre
    obtain ⟨rest, rfl, _⟩ := line_complete rs[given.length].oneLine hpre hready
    rw [line_handled]
    exact ⟨hbound, hgiven, _, m, hr, by rw [hquiet, hall], rfl, hm⟩
  | headers =>
    obtain ⟨r, m₀, hr, hall, hm, hblank⟩ := hplace
    dsimp only at hm
    subst hm
    rw [ready_headers] at hready
    rw [stream_at hr, hall, List.prefix_append_right_inj, List.prefix_append_right_inj] at hpre
    have hk := lt_of_terminated hr hpre hready
    rw [afterLine_append] at hpre
    obtain ⟨rest, rfl, hrest⟩ := block_complete r.headerText hpre hready
    rw [headers_handled]
    by_cases hlen : (withHeaders r (withLine r m₀)).content.length ≤ rest.length
    · rw [if_pos hlen]
      exact follows_content hrs .headers hr hk (hblank hk) hgiven (hquiet.trans hall) hrest hlen
    · rw [if_neg hlen]
      exact ⟨hbound, hgiven, r, m₀, hr, hk, hblank hk, hquiet.trans hall, rfl⟩
  | content =>
    obtain ⟨r, m₀, hr, hk, hblank, hall, hm⟩ := hplace
    dsimp only at hm
    subst hm
    rw [ready_content] at hready
    rw [stream_at hr, hall, List.prefix_append_right_inj, List.prefix_append_right_inj,
      afterLine_append, List.prefix_append_right_inj] at hpre
    exact follows_content hrs .content hr hk hblank hgiven (hquiet.trans hall) hpre hready
  | failed ec => exact absurd hready Bool.false_ne_true
  | threw => exact absurd hready Bool.false_ne_true

theorem follows_fresh (rs : List (HttpRequest g)) : Follows rs [] .fresh := by
  refine ⟨Nat.zero_le _, rfl, ?_⟩
  show [] = stream (rs.take 0) ++ [] ∧ _
  exact ⟨rfl, fun _ => empty_blank⟩

theorem follows_run {rs : List (HttpRequest g)} (hrs : LeavesNothing rs) {evs : List Event}
    {c : Connection} (h : Run (Step g) .fresh evs c) (hpre : received evs <+: stream rs) :
    Follows rs evs c := by
  refine Run.history (P := fun evs c => received evs <+: stream rs → Follows rs evs c)
    (fun _ => follows_fresh rs) ?_ h hpre
  intro evs c ev d ih hstep hpre
  have hshort : received evs <+: received (evs ++ [ev]) := by
    rw [received_snoc]
    exact List.prefix_append _ _
  have hc := ih (hshort.trans hpre)
  cases ev with
  | received b =>
    obtain ⟨hreading, _, _, rfl⟩ := hstep
    exact follows_received hc hreading b
  | failed value =>
    obtain ⟨_, _, rfl⟩ := hstep
    exact ⟨hc.bound, hc.given, value, List.mem_append_right _ (List.mem_singleton.mpr rfl)⟩
  | handled =>
    obtain ⟨hready, rfl⟩ := hstep
    exact follows_handled hrs (hshort.trans hpre) hc hready

/-- At the end of the stream a connection that waits has handed on what it can. -/
theorem follows_all {rs : List (HttpRequest g)} {evs : List Event} {c : Connection}
    (h : Follows rs evs c) (hok : ∀ ev ∈ evs, ∀ value, ev ≠ .failed value)
    (hall : received evs = stream rs) (hready : c.ready = false) :
    c.given.length = answered rs := by
  obtain ⟨hbound, _, hplace⟩ := h
  obtain ⟨phase, buf, m, given⟩ := c
  refine Nat.le_antisymm hbound ?_
  by_contra hlt
  have hk : given.length < rs.length := by
    have hle := answered_le rs
    dsimp only at hlt
    omega
  have hr := List.getElem?_eq_getElem hk
  rw [stream_at hr] at hall
  rw [← Bool.not_eq_true] at hready
  cases phase with
  | methodLine =>
    obtain ⟨hall', _⟩ := hplace
    rw [hall', List.append_cancel_left_eq] at hall
    refine hready ((ready_methodLine buf m given).mpr ?_)
    rw [show buf = _ from hall]
    exact ⟨rs[given.length].line, _, rfl⟩
  | headers =>
    obtain ⟨r, _, hr', hall', _⟩ := hplace
    obtain rfl : rs[given.length] = r := Option.some.inj (hr.symm.trans hr')
    rw [hall', List.append_cancel_left_eq, List.append_cancel_left_eq] at hall
    refine hready ((ready_headers buf m given).mpr ?_)
    rw [show buf = _ from hall]
    exact terminated_of_lt hr (Nat.lt_of_not_le hlt)
  | content =>
    obtain ⟨r, m₀, hr', _, hblank, hall', hm⟩ := hplace
    obtain rfl : rs[given.length] = r := Option.some.inj (hr.symm.trans hr')
    have hbuf : buf = rs[given.length].content ++ stream (rs.drop (given.length + 1)) := by
      rw [hall', List.append_cancel_left_eq, List.append_cancel_left_eq, afterLine_append,
        List.append_cancel_left_eq] at hall
      exact hall
    refine hready ((ready_content buf m given).mpr ?_)
    rw [show m = _ from hm, content_length (m := withLine rs[given.length] m₀) _ hblank.2.2, hbuf,
      List.length_append]
    exact Nat.le_add_right _ _
  | failed ec =>
    obtain ⟨value, hv⟩ := hplace
    exact hok _ hv value rfl
  | threw => exact hplace.elim

/-! ## What a request leaves -/

theorem handled_step {c : Connection} (h : c.ready = true) : Step g c .handled (c.handle g) :=
  ⟨h, rfl⟩

/-- With everything received, the next request is read up to its content, whatever
the request object has in it. -/
theorem served_headers {rs : List (HttpRequest g)} {k : Nat} {r : HttpRequest g}
    (hr : rs[k]? = some r) (hk : k < answered rs) (m : Message) (given : List Message) :
    Run (Step g) ⟨.methodLine, stream (rs.drop k), m, given⟩ [.handled, .handled]
      (if (withHeaders r (withLine r m)).content.length ≤
          (r.content ++ stream (rs.drop (k + 1))).length
      then Connection.handleContent
        ⟨.headers, r.content ++ stream (rs.drop (k + 1)), withHeaders r (withLine r m), given⟩
      else ⟨.content, r.content ++ stream (rs.drop (k + 1)), withHeaders r (withLine r m), given⟩) := by
  have hbuf : stream (rs.drop k) = r.line ++ crlf ++ (r.afterLine ++ stream (rs.drop (k + 1))) := by
    rw [stream_drop hr, text, List.append_assoc]
  have hline := handled_step (g := g) ((ready_methodLine (stream (rs.drop k)) m given).mpr
    ⟨r.line, _, hbuf.symm⟩)
  have hterm := handled_step (g := g) ((ready_headers _ (withLine r m) given).mpr
    (terminated_of_lt hr hk))
  rw [hbuf, line_handled, ← hbuf] at hline
  rw [afterLine_append, headers_handled, ← afterLine_append] at hterm
  exact (Run.single hline).snoc hterm

/-- A request after ones that leave nothing is handed on as it is. -/
theorem served {rs : List (HttpRequest g)} {k : Nat} {r : HttpRequest g}
    (hr : rs[k]? = some r) (hk : k < answered rs) {m : Message} (hm : Blank m)
    (given : List Message) :
    Run (Step g) ⟨.methodLine, stream (rs.drop k), m, given⟩ [.handled, .handled]
      ⟨.methodLine, stream (rs.drop (k + 1)), r.message, given ++ [r.message]⟩ := by
  have hrun := served_headers hr hk m given
  have hlen := content_length r (m := withLine r m) hm.2.2
  rw [if_pos (by rw [hlen, List.length_append]; exact Nat.le_add_right _ _),
    content_handled .headers hlen, message_of_blank r hm] at hrun
  exact hrun

/-- The whole stream arrives, and a number of handlers run. -/
def atOnce (rs : List (HttpRequest g)) (n : Nat) : List Event :=
  .received (stream rs) :: List.replicate n .handled

theorem received_atOnce (rs : List (HttpRequest g)) (n : Nat) :
    received (atOnce rs n) = stream rs := by
  rw [atOnce, received, List.flatMap_cons, List.flatMap_replicate]
  simp

theorem atOnce_ok (rs : List (HttpRequest g)) (n : Nat) :
    ∀ ev ∈ atOnce rs n, ∀ value, ev ≠ .failed value := by
  rintro ev hev value rfl
  rcases List.mem_cons.mp hev with h | h
  · cases h
  · have h' := List.eq_of_mem_replicate h
    cases h'

/-- The request object of the request before. -/
def LastOf (rs : List (HttpRequest g)) (k : Nat) (m : Message) : Prop :=
  (k = 0 ∧ Blank m) ∨ ∃ j r, k = j + 1 ∧ rs[j]? = some r ∧ m = HttpRequest.message r

theorem text_ne_nil (r : HttpRequest g) : r.text ≠ [] := by
  have h := (text_terminated r).length_le
  intro hnil
  rw [hnil] at h
  exact absurd h (by decide)

/-- As long as no request before leaves anything, the requests are handed on as
they are. -/
theorem reached {rs : List (HttpRequest g)} (hne : rs ≠ []) :
    ∀ k ≤ answered rs,
      (∀ (j : Nat) (r : HttpRequest g), j + 1 < k → rs[j]? = some r →
        r.params = [] ∧ r.headers = []) →
      ∃ m, Run (Step g) .fresh (atOnce rs (2 * k))
          ⟨.methodLine, stream (rs.drop k), m, (rs.take k).map message⟩ ∧ LastOf rs k m := by
  intro k
  induction k with
  | zero =>
    intro _ _
    refine ⟨.empty, ?_, .inl ⟨rfl, empty_blank⟩⟩
    have hstream : stream rs ≠ [] := by
      obtain ⟨r, rs', rfl⟩ := List.exists_cons_of_ne_nil hne
      intro hnil
      exact text_ne_nil r (List.append_eq_nil_iff.mp hnil).1
    have hfresh : Step g .fresh (.received (stream rs)) ⟨.methodLine, stream rs, .empty, []⟩ :=
      ⟨rfl, rfl, hstream, rfl⟩
    exact Run.single hfresh
  | succ k ih =>
    intro hk hbefore
    obtain ⟨m, hrun, hlast⟩ := ih (Nat.le_of_succ_le hk)
      fun j r hj => hbefore j r (Nat.lt_succ_of_lt hj)
    have hlt : k < rs.length := Nat.lt_of_lt_of_le hk (answered_le rs)
    have hr := List.getElem?_eq_getElem hlt
    have hm : Blank m := by
      rcases hlast with ⟨_, hm⟩ | ⟨j, r, rfl, hj, rfl⟩
      · exact hm
      · obtain ⟨hp, hh⟩ := hbefore j r (Nat.lt_succ_self _) hj
        exact message_blank hp hh
    refine ⟨_, ?_, .inr ⟨k, _, rfl, hr, rfl⟩⟩
    have hserved := hrun.append (served hr hk hm ((rs.take k).map message))
    have hlabels : atOnce rs (2 * (k + 1)) = atOnce rs (2 * k) ++ [.handled, .handled] := by
      rw [atOnce, atOnce, Nat.mul_succ, ← List.replicate_append_replicate]
      rfl
    have hgiven : (rs.take (k + 1)).map message = (rs.take k).map message ++ [rs[k].message] := by
      rw [List.take_add_one, hr, List.map_append]
      rfl
    rw [hlabels, hgiven]
    exact hserved

theorem leavesNothing_of_isolated {rs : List (HttpRequest g)} (h : Isolated g rs) :
    LeavesNothing rs := by
  intro k
  induction k using Nat.strong_induction_on with
  | _ k ih =>
  intro r hk hr
  have hlt : k + 1 < rs.length := Nat.lt_of_lt_of_le hk (answered_le rs)
  have hne : rs ≠ [] := by
    rintro rfl
    exact Nat.not_lt_zero _ hlt
  obtain ⟨m, hrun, hlast⟩ := reached hne (k + 1) (Nat.le_of_lt hk)
    fun j r hj => ih j (Nat.lt_of_succ_lt_succ hj) r (Nat.lt_trans hj hk)
  obtain rfl : m = r.message := by
    rcases hlast with ⟨h0, _⟩ | ⟨j, r', hj, hr', rfl⟩
    · cases h0
    · obtain rfl : k = j := Nat.succ.inj hj
      rw [Option.some.inj (hr'.symm.trans hr)]
  have hr' := List.getElem?_eq_getElem hlt
  have hserved := hrun.append (served_headers hr' hk r.message ((rs.take (k + 1)).map message))
  have hreceived : received (atOnce rs (2 * (k + 1)) ++ [.handled, .handled]) = stream rs := by
    rw [← received_atOnce rs (2 * (k + 1))]
    simp [received]
  have hlen : ((rs.take (k + 1)).map message).length = k + 1 := by
    rw [List.length_map, List.length_take]
    omega
  by_cases hcontent : (withHeaders rs[k + 1] (withLine rs[k + 1] r.message)).content.length ≤
      (rs[k + 1].content ++ stream (rs.drop (k + 1 + 1))).length
  · -- what is handed on has the parameters and the header lines of both
    rw [if_pos hcontent, Connection.handleContent] at hserved
    dsimp only at hserved
    obtain ⟨r'', hr'', halone⟩ := h.same _ _ hserved
      (hreceived ▸ List.prefix_rfl) (k + 1) _ (by
        rw [List.getElem?_append_right (Nat.le_of_eq hlen), hlen, Nat.sub_self]
        rfl)
    obtain rfl : rs[k + 1] = r'' := Option.some.inj (hr'.symm.trans hr'')
    rw [alone_text] at halone
    have hmsg := Option.some.inj halone
    have hparams := congrArg Message.params hmsg
    have hheaders := congrArg Message.headers hmsg
    rw [fillContent, withHeaders_text] at hparams hheaders
    simp only [message, withLine, List.self_eq_append_left, List.map_eq_nil_iff] at hparams hheaders
    exact ⟨hparams, hheaders⟩
  · -- the connection waits for a content of the request before
    rw [if_neg hcontent] at hserved
    have hall := h.all _ _ hserved ?_ hreceived ?_
    · dsimp only at hall
      omega
    · intro ev hev value hval
      rcases List.mem_append.mp hev with hev | hev
      · exact atOnce_ok rs _ ev hev value hval
      · rw [hval] at hev
        simp at hev
    · rw [← Bool.not_eq_true, ready_content]
      exact hcontent

/-- What the message handler is given is what each request yields alone, if and
only if no request but the last one handed on has parameters or header lines. -/
theorem isolated_iff (g : Grammar) (rs : List (HttpRequest g)) :
    Isolated g rs ↔ ∀ (k : Nat) (r : HttpRequest g), k + 1 < answered rs → rs[k]? = some r →
      r.params = [] ∧ r.headers = [] := by
  constructor
  · exact leavesNothing_of_isolated
  · intro hrs
    constructor
    · intro evs c h hpre k m hm
      have hc := follows_run hrs h hpre
      rw [hc.given, List.getElem?_map, List.getElem?_take] at hm
      by_cases hk : k < c.given.length
      · rw [if_pos hk] at hm
        obtain ⟨r, hr, rfl⟩ := Option.map_eq_some_iff.mp hm
        exact ⟨r, hr, alone_text r⟩
      · rw [if_neg hk] at hm
        cases hm
    · intro evs c h hpre hphase
      have hplace := (follows_run hrs h hpre).place
      rw [Place, hphase] at hplace
      exact hplace.1
    · intro evs c h hok hall hready
      exact follows_all (follows_run hrs h (hall ▸ List.prefix_rfl)) hok hall hready

/-- What the library finds in the lines of `hostRequest`. -/
def hostGrammar : Grammar where
  statusLine line :=
    if line = bytes "GET /a HTTP/1.1\r" then some (bytes "GET", bytes "/a") else none
  headerLine line := if line = bytes "Host: x\r" then some (bytes "Host", bytes "x") else none
  urldecode s := s

def hostRequest : HttpRequest hostGrammar where
  line := bytes "GET /a HTTP/1.1"
  method := bytes "GET"
  target := bytes "/a"
  path := bytes "a"
  params := []
  headers := [(bytes "Host: x", bytes "Host", bytes "x")]
  content := []
  oneLine := by decide
  notBlank := by decide
  statusLine := by decide
  targetOk := by decide
  headerText := by simp; decide
  headerLine := by simp; decide
  length := by simp; decide
  noLength := fun _ => rfl

/-- The second of two equal requests is given with the header line of both. -/
theorem isolated_broken : ¬Isolated hostGrammar [hostRequest, hostRequest] := by
  intro h
  have hnone := leavesNothing_of_isolated h 0 hostRequest (by decide) rfl
  exact absurd hnone.2 (by decide)

end CppSnippets.Push.KeepAlive
