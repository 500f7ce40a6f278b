import CppSnippets.Lib.Traced
import Mathlib.Data.List.Basic

/-!
# `js.cc`: the parser

A pointer into the range is the list of the bytes from it to the end, so that two
pointers into one range are equal if and only if the lists are. What a read at the
end finds is an argument: a byte, or nothing, and then the read stops the run, as a
move beyond the end does. A node is what `New` made of its parent, the key and the
place, or the static `jsax_nullnode`; callbacks do not throw, and the locale is `C`.
-/
namespace CppSnippets.Js

open CppSnippets.Lib

abbrev Byte := UInt8
abbrev Ptr := List Byte

abbrev lbrace : Byte := 0x7b
abbrev lbrack : Byte := 0x5b
abbrev colon : Byte := 0x3a
abbrev comma : Byte := 0x2c
abbrev dquote : Byte := 0x22
abbrev squote : Byte := 0x27
abbrev plus : Byte := 0x2b
abbrev minus : Byte := 0x2d
abbrev dot : Byte := 0x2e

def isspace (b : Byte) : Bool := b == 0x20 || (0x09 ≤ b && b ≤ 0x0d)

def isdigit (b : Byte) : Bool := 0x30 ≤ b && b ≤ 0x39

inductive Stop where
  /-- `jsax_fail`, with its `pos` -/
  | fail (pos : Ptr)
  /-- A read at or beyond the end. -/
  | outside
  /-- The model's own bound on the turns of the loop. -/
  | fuel

/-- The `ty` of `Set`. -/
inductive Ty where
  | str
  | int
  | bool
  deriving DecidableEq

/-- A `jsax_key_t`: an index is an `int`. -/
inductive Key where
  | index (i : Int32)
  | name (k : List Byte)
  deriving DecidableEq

/-- A call of a node, with the pointers it is given; `none` is `jsax_nullnode`. -/
inductive Callback (ν : Type) where
  | new (nd : Option ν) (k : Key) (beg : Ptr)
  | fin (nd : Option ν) (k : Key) (child : Option ν)
  | set (nd : Option ν) (k : Key) (beg fin : Ptr) (ty : Ty)
  deriving DecidableEq

section

variable {ν : Type} (New : ν → Key → Ptr → Option ν) (after : Option Byte)

abbrev Parse (ν α : Type) := Traced Stop (Callback ν) α

/-- `*p` -/
def deref : Ptr → Parse ν Byte
  | b :: _ => pure b
  | [] => match after with
    | some b => pure b
    | none => throw .outside

/-- `p + 1` -/
def incr : Ptr → Parse ν Ptr
  | _ :: p => pure p
  | [] => throw .outside

/-- The bytes from one pointer to another. -/
def range (beg fin : Ptr) : List Byte := beg.take (beg.length - fin.length)

def skipss (beg : Ptr) : Ptr := beg.dropWhile isspace

/-- What the functions on scalars return: the position behind, and `ret`. -/
structure Ret where
  pos : Ptr
  beg : Ptr
  fin : Ptr

def jsaxString (beg : Ptr) : Parse ν Ret := do
  let sbeg := skipss beg
  let c ← deref after sbeg
  if (c ≠ dquote ∧ c ≠ squote) ∨ sbeg.length ≤ 1 then throw (.fail sbeg)
  else
    let p := sbeg.tail.dropWhile (· ≠ c)
    if p = [] then throw (.fail sbeg) else return ⟨p.tail, sbeg.tail, p⟩

def jsaxDigital (beg : Ptr) : Parse ν Ret := do
  let sbeg := skipss beg
  let c ← deref after sbeg
  match if c = minus ∨ c = plus then sbeg.tail else sbeg with
  | [] => throw (.fail sbeg)
  | d :: p =>
      if isdigit d = false then throw (.fail sbeg)
      else
        let p := p.dropWhile fun b => isdigit b || b == dot
        if (range sbeg p).count dot > 1 then throw (.fail sbeg) else return ⟨p, sbeg, p⟩

/-- A branch of `jsax_boolean`: the letters that must follow the first one. -/
def letters (sbeg : Ptr) (rest : List Byte) : Parse ν Ret :=
  if sbeg.length < rest.length + 1 ∨ sbeg.tail.take rest.length ≠ rest then throw (.fail sbeg)
  else
    let p := sbeg.drop (rest.length + 1)
    pure ⟨p, sbeg, p⟩

/-- `rue` -/
def rue : List Byte := [0x72, 0x75, 0x65]

/-- `alse` -/
def alse : List Byte := [0x61, 0x6c, 0x73, 0x65]

def jsaxBoolean (beg : Ptr) : Parse ν Ret := do
  let sbeg := skipss beg
  let c ← deref after sbeg
  if c = 0x54 ∨ c = 0x74 then letters sbeg rue
  else if c = 0x46 ∨ c = 0x66 then letters sbeg alse
  else throw (.fail sbeg)

/-- The node that `jsax_new` leaves in `jc`: a null node makes itself. -/
def newNode (nd : Option ν) (xk : Key) (beg : Ptr) : Option ν :=
  nd.bind fun n => New n xk beg

/-- A scalar, and the `jsax_set` behind the switch. -/
def setScalar (scan : Parse ν Ret) (nd : Option ν) (xk : Key) (ty : Ty) : Parse ν Ptr := do
  let ret ← scan
  Traced.emit (.set nd xk ret.beg ret.fin ty)
  return ret.pos

/-- `jsax_walk`, given `jsax_array`. -/
def jsaxWalk (array : Option ν → Ptr → Parse ν Ptr) (nd : Option ν) (beg : Ptr) (xk : Key) :
    Parse ν Ptr :=
  match skipss beg with
  | [] => pure []
  | c :: p =>
      if c = lbrace ∨ c = lbrack then do
        Traced.emit (.new nd xk (c :: p))
        let beg ← array (newNode New nd xk (c :: p)) (c :: p)
        Traced.emit (.fin nd xk (newNode New nd xk (c :: p)))
        return beg
      else if c = dquote ∨ c = squote then setScalar (jsaxString after (c :: p)) nd xk .str
      else if c = plus ∨ c = minus ∨ isdigit c then
        setScalar (jsaxDigital after (c :: p)) nd xk .int
      else if c = 0x54 ∨ c = 0x46 ∨ c = 0x74 ∨ c = 0x66 then
        setScalar (jsaxBoolean after (c :: p)) nd xk .bool
      else throw (.fail (c :: p))

/-- The key of the next member: `xk.u.i` is `i` after its increment. -/
def jsaxKey (ty : Byte) (i : Int32) (beg : Ptr) : Parse ν (Key × Ptr) :=
  if ty = lbrack then pure (.index i, beg)
  else do
    let ret ← jsaxString after beg
    match skipss ret.pos with
    | [] => throw (.fail [])
    | c :: p =>
        if c ≠ colon then throw (.fail (c :: p))
        else return (.name (range ret.beg ret.fin), p)

/-- `jsax_array` up to its loop. -/
def jsaxArray (loop : Option ν → Byte → Int32 → Ptr → Parse ν Ptr) (nd : Option ν) (beg : Ptr) :
    Parse ν Ptr := do
  let sbeg := skipss beg
  let c ← deref after sbeg
  if c ≠ lbrace ∧ c ≠ lbrack then throw (.fail sbeg)
  else
    let p ← incr sbeg
    match skipss p with
    | [] => throw (.fail sbeg)
    | d :: q => if d = c + 2 then return q else loop nd c 1 sbeg

/-- The loop of `jsax_array` and what follows it, from a bracket or a comma on. -/
def loop : Nat → Option ν → Byte → Int32 → Ptr → Parse ν Ptr
  | 0, _, _, _, _ => throw .fuel
  | fuel + 1, nd, ty, i, beg => do
      let beg ← incr beg
      let (xk, beg) ← jsaxKey after ty i beg
      let beg ← jsaxWalk New after (jsaxArray after (loop fuel)) nd beg xk
      let beg := skipss beg
      let c ← deref after beg
      if c = comma then loop fuel nd ty (i + 1) beg
      else if c ≠ ty + 2 then throw (.fail beg)
      else incr beg

/-- `ec` and `*pos`, and the callbacks made. A read outside has no result of its own. -/
def jsaxParse (nd : Option ν) (beg : Ptr) : Except Stop (Nat × Ptr) × List (Callback ν) :=
  match Action.exec (jsaxArray after (loop New after (beg.length + 1)) nd beg) [] with
  | (.ok p, calls) => (.ok (0, p), calls)
  | (.error (.fail pos), calls) => (.ok (1, pos), calls)
  | (.error e, calls) => (.error e, calls)

end

end CppSnippets.Js
