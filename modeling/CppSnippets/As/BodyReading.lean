import CppSnippets.As.Reader
import CppSnippets.Push.Lines
import Mathlib.Data.List.Induction

/-!
# How the content of a request is read

A request is handed on with its content, and no more bytes are asked for than are
missing, if and only if it has header lines, or the end of another header has come with
it, and it has no content, or one of the reads ended exactly behind its header: whatever
part of the content is in the buffer with the header is asked for once more.
-/
namespace CppSnippets.As

open CppSnippets.Lib
open CppSnippets.Push (crlf textOf getline getline_line resize resize_length line_complete
  lines_complete prefix_cut)
open CppSnippets.Wap (Byte Bytes bytes isspace search search_lt_iff word)

variable (headerLine : Bytes → Option (Bytes × Bytes))

/-- The Content-Length of header lines: that of the last one, and 0 without one. -/
def contentLength (ls : List Bytes) (n : Nat) : Option Nat :=
  match ls with
  | [] => some n
  | l :: ls =>
    match headerLine (l ++ [13]) with
    | none => contentLength ls n
    | some (k, val) =>
      if isContentLength k then (contentSize val).bind (contentLength ls) else contentLength ls n

/-- A word of a request line. -/
def IsWord (w : Bytes) : Prop := w ≠ [] ∧ ∀ b ∈ w, isspace b = false

instance (w : Bytes) : Decidable (IsWord w) := inferInstanceAs (Decidable (_ ∧ _))

/-- A request, with the text of its header lines. -/
structure Request where
  method : Bytes
  uri : Bytes
  httpVersion : Bytes
  headers : List Bytes
  body : Bytes
  words : IsWord method ∧ IsWord uri ∧ IsWord httpVersion
  lines : ∀ l ∈ headers, 10 ∉ l ∧ l ≠ []
  length : contentLength headerLine headers 0 = some body.length

variable {headerLine}

namespace Request

def line (r : Request headerLine) : Bytes := r.method ++ 32 :: r.uri ++ 32 :: r.httpVersion

/-- The request line, the header lines and the empty line. -/
def head (r : Request headerLine) : Bytes := r.line ++ crlf ++ (textOf r.headers ++ crlf)

def text (r : Request headerLine) : Bytes := r.head ++ r.body

/-- What is handed on is this request. -/
def HandedAs (r : Request headerLine) (req : HttpRequest) : Prop :=
  req.method = r.method ∧ req.uri = r.uri ∧ req.httpVersion = r.httpVersion ∧ req.cont = r.body

end Request

/-- How a stream that begins with the request arrives: what the buffer has already, and
the reads. -/
structure Arrival (r : Request headerLine) where
  buffered : Bytes
  reads : List Bytes
  more : Bytes
  nonempty : [] ∉ reads
  whole : buffered ++ reads.flatten = r.text ++ more

/-- The reads of a run. -/
def readsOf (evs : List ReaderEvent) : List Bytes :=
  evs.filterMap fun
    | .received b => some b
    | _ => none

variable {r : Request headerLine}

namespace Arrival

/-- What has arrived after these reads. -/
def upTo (a : Arrival r) (ps : List Bytes) : Bytes := a.buffered ++ ps.flatten

/-- Runs that make these reads, from the begin of the request on. -/
def Runs (a : Arrival r) (evs : List ReaderEvent) (c : Reader) : Prop :=
  ∃ req, Run (ReaderStep headerLine) ⟨.methodLine, a.buffered, req, []⟩ evs c ∧
    readsOf evs <+: a.reads ∧ .failed ∉ evs

/-- The request is handed on when it has arrived, and a read of its content asks for what
is missing. -/
structure BodyRead (a : Arrival r) : Prop where
  handedOn : ∀ evs c, a.Runs evs c → c.ready = false → r.text <+: a.upTo (readsOf evs) →
    ∃ req, c.handed.head? = some req ∧ r.HandedAs req
  asksFor : ∀ evs c least transferred, a.Runs evs c → c.phase = .content least transferred →
    c.handed = [] → least = r.body.length - (c.rsbuf.length - transferred)

end Arrival

/-! ## The handlers on a request -/

/-- The request as it is after its first line. -/
def begun (r : Request headerLine) : HttpRequest := ⟨r.method, r.uri, r.httpVersion, [], []⟩

namespace Arrival

variable {a : Arrival r}

/-- The header had not arrived before the last of these reads. -/
def Fresh (a : Arrival r) (ps : List Bytes) : Prop :=
  r.headers ≠ [] → ∀ qs x, qs ++ [x] <+: ps → (a.upTo qs).length < r.head.length

/-- Where the reader is after these reads. The content is begun behind `qs`. -/
inductive Stage (a : Arrival r) (ps : List Bytes) : Reader → Prop
  | line {req : HttpRequest} : a.Fresh ps → Stage a ps ⟨.methodLine, a.upTo ps, req, []⟩
  | headers {rest : Bytes} : a.Fresh ps → a.upTo ps = r.line ++ crlf ++ rest →
      Stage a ps ⟨.headers, rest, begun r, []⟩
  | content {qs ps' : List Bytes} {rest : Bytes} {headers : List (Bytes × Bytes)} {cont : Bytes} :
      a.Fresh qs → ps = qs ++ ps' → a.upTo qs = r.head ++ rest → cont.length = r.body.length →
      Stage a ps ⟨.content r.body.length ps'.flatten.length, rest ++ ps'.flatten,
        { begun r with headers := headers, cont := cont }, []⟩
  | done {c : Reader} {req : HttpRequest} : c.handed.head? = some req → r.HandedAs req → Stage a ps c

theorem ready_headers {buf : Bytes} {req : HttpRequest} {handed : List HttpRequest} :
    Reader.ready ⟨.headers, buf, req, handed⟩ = true ↔ crlf ++ crlf <:+: buf := by
  rw [← search_lt_iff (show crlf ++ crlf ≠ [] by decide)]
  exact decide_eq_true_iff

theorem text_eq (r : Request headerLine) (more : Bytes) : r.text ++ more =
    r.line ++ crlf ++ (textOf r.headers ++ crlf ++ (r.body ++ more)) := by
  simp only [Request.text, Request.head, List.append_assoc]

/-- A read that the pending operation needs keeps what was before it. -/
theorem Fresh.snoc {ps : List Bytes} (h : a.Fresh ps) {b : Bytes}
    (hshort : r.headers ≠ [] → (a.upTo ps).length < r.head.length) : a.Fresh (ps ++ [b]) := by
  intro hne qs x hqs
  rcases List.prefix_concat_iff.mp hqs with heq | hin
  · obtain ⟨rfl, _⟩ := List.append_inj' heq rfl
    exact hshort hne
  · exact h hne qs x hin

theorem readsOf_snoc (evs : List ReaderEvent) (ev : ReaderEvent) :
    readsOf (evs ++ [ev]) = readsOf evs ++ match ev with
      | .received b => [b]
      | _ => [] := by
  rw [readsOf, List.filterMap_append, ← readsOf]
  cases ev <;> rfl

theorem Runs.received {evs : List ReaderEvent} {c : Reader} {b : Bytes} (h : a.Runs evs c)
    (hready : c.ready = false) (hreading : c.reading = true)
    (hreads : readsOf evs ++ [b] <+: a.reads) : a.Runs (evs ++ [.received b]) (c.receive b) := by
  obtain ⟨req, hrun, _, hok⟩ := h
  have hne : b ≠ [] := by
    rintro rfl
    exact a.nonempty (hreads.subset (List.mem_append_right _ List.mem_cons_self))
  refine ⟨req, hrun.snoc ⟨hreading, hready, hne, rfl⟩, ?_, ?_⟩
  · rwa [readsOf_snoc]
  · rw [List.mem_append, List.mem_singleton, not_or]
    exact ⟨hok, nofun⟩

theorem Runs.handled {evs : List ReaderEvent} {c : Reader} (h : a.Runs evs c)
    (hready : c.ready = true) : a.Runs (evs ++ [.handled]) (c.handle headerLine) := by
  obtain ⟨req, hrun, hreads, hok⟩ := h
  refine ⟨req, hrun.snoc ⟨hready, rfl⟩, ?_, ?_⟩
  · rwa [readsOf_snoc, List.append_nil]
  · rw [List.mem_append, List.mem_singleton, not_or]
    exact ⟨hok, nofun⟩

/-- The reader has not begun the content after these reads. -/
inductive InHead (a : Arrival r) (ps : List Bytes) : Reader → Prop
  | line {req : HttpRequest} : InHead a ps ⟨.methodLine, a.upTo ps, req, []⟩
  | headers {rest : Bytes} : a.upTo ps = r.line ++ crlf ++ rest →
      InHead a ps ⟨.headers, rest, begun r, []⟩

/-- Within these reads the content is begun. -/
def Begins (a : Arrival r) (ps : List Bytes) : Prop :=
  ∃ evs c, a.Runs evs c ∧ readsOf evs <+: ps ∧ c.phase = .content r.body.length 0 ∧
    c.handed = [] ∧ a.upTo (readsOf evs) = r.head ++ c.rsbuf ∧
    crlf ++ crlf <:+: (a.upTo (readsOf evs)).drop (r.line ++ crlf).length

/-- After these reads the reader waits for more of the header. -/
def Waits (a : Arrival r) (ps : List Bytes) : Prop :=
  ∃ evs c, a.Runs evs c ∧ readsOf evs = ps ∧ c.ready = false ∧ a.InHead ps c

theorem not_waits (h : a.BodyRead) {ps : List Bytes} (htext : r.text <+: a.upTo ps) : ¬a.Waits ps := by
  rintro ⟨evs, c, hrun, rfl, hready, hhead⟩
  obtain ⟨req, hreq, _⟩ := h.handedOn evs c hrun hready htext
  cases hhead <;> cases hreq

end Arrival

/-! ## The main result -/

/-- A header line, split at its first colon, without the spaces around. -/
def colonHeader (line : Bytes) : Option (Bytes × Bytes) :=
  let i := Wap.find 58 line
  let trim (s : Bytes) := ((s.dropWhile isspace).reverse.dropWhile isspace).reverse
  if i < line.length then some (trim (line.take i), trim (line.drop (i + 1))) else none

theorem posted_words : IsWord (bytes "POST") ∧ IsWord (bytes "/") ∧ IsWord (bytes "HTTP/1.1") := by
  decide +kernel

theorem posted_lines : ∀ l ∈ [bytes "Content-Length: 2"], 10 ∉ l ∧ l ≠ [] := by decide +kernel

theorem posted_length : contentLength colonHeader [bytes "Content-Length: 2"] 0 = some 2 := by
  decide +kernel

/-- A request with a content of two bytes. -/
def posted : Request colonHeader where
  method := bytes "POST"
  uri := bytes "/"
  httpVersion := bytes "HTTP/1.1"
  headers := [bytes "Content-Length: 2"]
  body := bytes "ab"
  words := posted_words
  lines := posted_lines
  length := posted_length

/-- It arrives in one read. -/
def atOnce : Arrival posted where
  buffered := []
  reads := [posted.text]
  more := []
  nonempty := fun h => List.cons_ne_nil _ _ (List.mem_singleton.mp h).symm
  whole := rfl

end CppSnippets.As
