import CppSnippets.Lib.Run
import CppSnippets.Lib.Shared
import CppSnippets.Wap.Text

/-!
# The writers of the echo server

A request is answered by the writer of its socket, which the map of the sender
designates with a weak pointer. Every outstanding write holds a shared pointer to
its writer, and a writer that goes takes the entry of its socket out of the map. A
socket is known by its native handle, which is not used again while a writer has it.
`requested` and `written` are ghost: the responses to the requests of a socket, and
those whose write was started. A call through a null pointer is a fault, after which
nothing is said.
-/
namespace CppSnippets.As

open CppSnippets.Lib
open CppSnippets.Wap (Bytes bytes)

/-- The native handle of a socket. -/
abbrev Socket := Nat

structure HttpRequest where
  method : Bytes
  uri : Bytes
  httpVersion : Bytes
  headers : List (Bytes × Bytes)
  cont : Bytes

/-- What `work` answers: the request itself. -/
def HttpRequest.echo (req : HttpRequest) : Bytes :=
  req.method ++ bytes " " ++ req.uri ++ bytes " " ++ req.httpVersion ++ bytes "\r\n" ++
    (req.headers.flatMap fun kv => kv.1 ++ bytes ": " ++ kv.2 ++ bytes "\r\n") ++ bytes "\r\n" ++
    req.cont

/-- `socwriter`. -/
structure Socwriter where
  soc : Socket
  ls : List Bytes

/-- An outstanding `async_write`, with the writer that its handler points to. -/
structure Write where
  writer : Nat
  soc : Socket
  deriving DecidableEq

structure Sender where
  workers : Shared Socwriter
  /-- `hired_`. -/
  hired : Socket → Option Nat
  writes : List Write
  requested : Socket → List Bytes
  written : Socket → List Bytes
  fault : Bool

namespace Sender

def start : Sender := ⟨.empty, fun _ => none, [], fun _ => [], fun _ => [], false⟩

def finish (s : Sender) (soc : Socket) : Sender :=
  { s with hired := Function.update s.hired soc none }

/-- A shared pointer to a writer goes, and with the last one the writer, whose
destructor calls `finish`. -/
def drop (s : Sender) (id : Nat) : Sender :=
  let t := { s with workers := s.workers.release id }
  match s.workers.objects id with
  | none => t
  | some w => if s.workers.uses id = 1 then t.finish w.soc else t

/-- `async_write` of the first string of a writer. -/
def asyncWrite (s : Sender) (id : Nat) (w : Socwriter) : Sender :=
  match w.ls with
  | [] => { s with fault := true }
  | x :: _ =>
    { s with
      workers := s.workers.acquire id
      writes := s.writes ++ [⟨id, w.soc⟩]
      written := Function.update s.written w.soc (s.written w.soc ++ [x]) }

/-- `socwriter::send`. -/
def send (s : Sender) (id : Nat) (x : Bytes) : Sender :=
  match s.workers.objects id with
  | none => { s with fault := true }
  | some w =>
    let push := fun w : Socwriter => { w with ls := w.ls ++ [x] }
    let t := { s with workers := s.workers.modify id push }
    if w.ls = [] then t.asyncWrite id (push w) else t

/-- `socwriter::writeb`. -/
def writeb (s : Sender) (id : Nat) (err : Bool) : Sender :=
  if err = true then s
  else
    match s.workers.objects id with
    | none => { s with fault := true }
    | some w =>
      let pop := fun w : Socwriter => { w with ls := w.ls.tail }
      let t := { s with workers := s.workers.modify id pop }
      if (pop w).ls ≠ [] then t.asyncWrite id (pop w) else t

/-- `lock` of a weak pointer. -/
def lock (s : Sender) (id : Nat) : Sender × Option Nat :=
  match s.workers.objects id with
  | none => (s, none)
  | some _ => ({ s with workers := s.workers.acquire id }, some id)

/-- `associate`: a new writer, or the one that the map designates, in which case the
new one goes. -/
def associate (s : Sender) (soc : Socket) : Sender × Option Nat :=
  let ker := s.workers.next
  let s := { s with workers := s.workers.make ⟨soc, []⟩ }
  match s.hired soc with
  | none => ({ s with hired := Function.update s.hired soc (some ker) }, some ker)
  | some w =>
    let (s, locked) := s.lock w
    (s.drop ker, locked)

/-- `work`: the function that `associate` returns is called and goes. -/
def work (s : Sender) (soc : Socket) (req : HttpRequest) : Sender :=
  let s := { s with
    requested := Function.update s.requested soc (s.requested soc ++ [req.echo]) }
  match s.associate soc with
  | (s, none) => { s with fault := true }
  | (s, some fn) => (s.send fn req.echo).drop fn

end Sender

inductive Event where
  /-- A request was read from a socket. -/
  | request (soc : Socket) (req : HttpRequest)
  /-- The handler of a write runs. -/
  | done (w : Write) (err : Bool)

def Enabled (s : Sender) : Event → Prop
  | .request _ _ => s.fault = false
  | .done w _ => s.fault = false ∧ w ∈ s.writes

def Sender.next (s : Sender) : Event → Sender
  | .request soc req => s.work soc req
  | .done w err => ({ s with writes := s.writes.erase w }.writeb w.writer err).drop w.writer

instance (s : Sender) : ∀ ev, Decidable (Enabled s ev)
  | .request _ _ => inferInstanceAs (Decidable (_ = _))
  | .done _ _ => inferInstanceAs (Decidable (_ ∧ _))

abbrev Step : Sender → Event → Sender → Prop := Moves Enabled Sender.next

end CppSnippets.As
