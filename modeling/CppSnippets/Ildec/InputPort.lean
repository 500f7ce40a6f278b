import Mathlib.Logic.Function.Basic
import CppSnippets.Lib.Run

/-!
# The input port of the decoder

Two of the buffers of the port are used in turn: one is at the decoder and the
other one takes the next frame. `send` runs in the thread of the sender and
`callback` in one of the decoder; the lock that both would take is commented out
in `send`. So both are given in their parts: `send` tests the flags, copies the
frame and hands the buffer over; `callback` clears the flags and hands the other
buffer over. The frames are numbered in the order of `send`.
-/
namespace CppSnippets.Ildec

open CppSnippets.Lib

/-- `BufferEx`, with what has been copied to it. -/
structure BufferEx (φ : Type*) where
  used : Bool
  copyed : Bool
  content : Option (Nat × φ)

/-- Both flags are 0. -/
def BufferEx.Free {φ : Type*} (b : BufferEx φ) : Prop := b.used = false ∧ b.copyed = false

/-- What is left of a call of `send`. -/
inductive Sender (m : Nat) (φ : Type*) where
  | idle
  /-- The buffer has been chosen, and the frame is being copied. -/
  | chosen (b : Fin (m + 2)) (doempty : Bool) (frame : Nat × φ)
  | copied (b : Fin (m + 2))

/-- `InputPort`, with at least two buffers. -/
structure InputPort (m : Nat) (φ : Type*) where
  bufs : Fin (m + 2) → BufferEx φ
  sender : Sender m φ
  /-- The buffer whose callback is running. -/
  callback : Option (Fin (m + 2))
  /-- The exit `both used`. -/
  exited : Bool
  /-- The buffers at the decoder. -/
  owned : List (Fin (m + 2))
  sent : List φ
  /-- The frames that the decoder got. -/
  delivered : List (Nat × φ)

namespace InputPort

variable {m : Nat} {φ : Type*}

/-- `begin()`. -/
def first (m : Nat) : Fin (m + 2) := ⟨0, Nat.succ_pos _⟩

/-- `begin() + (size()+1)/2`. -/
def second (m : Nat) : Fin (m + 2) := ⟨(m + 2 + 1) / 2, by omega⟩

/-- The other one of the two buffers, as `callback` sees it. -/
def other (b : Fin (m + 2)) : Fin (m + 2) := if b = first m then second m else first m

/-- Streaming, with all flags 0. -/
def init (m : Nat) (φ : Type*) : InputPort m φ :=
  ⟨fun _ => ⟨false, false, none⟩, .idle, none, false, [], [], []⟩

/-- `send`, up to the choice of the buffer. -/
def send (s : InputPort m φ) (frame : φ) : InputPort m φ :=
  let k := s.sent.length
  let s := { s with sent := s.sent ++ [frame] }
  let i := first m
  let j := second m
  if !(s.bufs i).used && !(s.bufs j).used then { s with sender := .chosen i true (k, frame) }
  else if !(s.bufs i).used then { s with sender := .chosen i false (k, frame) }
  else if !(s.bufs j).used then { s with sender := .chosen j false (k, frame) }
  else { s with exited := true }

/-- `copydata`. -/
def copydata (s : InputPort m φ) (b : Fin (m + 2)) (frame : Nat × φ) : InputPort m φ :=
  { s with bufs := Function.update s.bufs b { s.bufs b with copyed := true, content := some frame } }

def emptyThisBuffer (s : InputPort m φ) (b : Fin (m + 2)) : InputPort m φ :=
  { s with
    bufs := Function.update s.bufs b { s.bufs b with used := true }
    owned := s.owned ++ [b]
    delivered := s.delivered ++ (s.bufs b).content.toList }

/-- The next part of `send`. -/
def proceed (s : InputPort m φ) : InputPort m φ :=
  match s.sender with
  | .idle => s
  | .chosen b doempty frame =>
    { s.copydata b frame with sender := if doempty then .copied b else .idle }
  | .copied b => { s.emptyThisBuffer b with sender := .idle }

/-- `callback`: the flags of the buffer. -/
def clear (s : InputPort m φ) (b : Fin (m + 2)) : InputPort m φ :=
  { s with
    bufs := Function.update s.bufs b { s.bufs b with used := false, copyed := false }
    owned := s.owned.erase b
    callback := some b }

/-- `callback`: the other buffer. -/
def resume (s : InputPort m φ) (b : Fin (m + 2)) : InputPort m φ :=
  let j := other b
  if (s.bufs j).copyed then { s.emptyThisBuffer j with callback := none }
  else { s with callback := none }

end InputPort

inductive Event (m : Nat) (φ : Type*) where
  /-- A call of `send` begins. -/
  | send (frame : φ)
  | proceed
  /-- The callback of a buffer at the decoder begins. -/
  | done (b : Fin (m + 2))
  | resume (b : Fin (m + 2))

variable {m : Nat} {φ : Type*}

def Sender.busy : Sender m φ → Bool
  | .idle => false
  | _ => true

/-- One thread sends, and the callbacks take the lock. -/
def Enabled (s : InputPort m φ) : Event m φ → Prop
  | .send _ => s.exited = false ∧ s.sender.busy = false
  | .proceed => s.exited = false ∧ s.sender.busy = true
  | .done b => s.exited = false ∧ s.callback = none ∧ b ∈ s.owned
  | .resume b => s.exited = false ∧ s.callback = some b

instance (s : InputPort m φ) : ∀ ev, Decidable (Enabled s ev)
  | .send _ => inferInstanceAs (Decidable (_ ∧ _))
  | .proceed => inferInstanceAs (Decidable (_ ∧ _))
  | .done _ => inferInstanceAs (Decidable (_ ∧ _ ∧ _))
  | .resume _ => inferInstanceAs (Decidable (_ ∧ _))

def InputPort.next (s : InputPort m φ) : Event m φ → InputPort m φ
  | .send frame => s.send frame
  | .proceed => s.proceed
  | .done b => s.clear b
  | .resume b => s.resume b

def Step : InputPort m φ → Event m φ → InputPort m φ → Prop := Moves Enabled InputPort.next

end CppSnippets.Ildec
