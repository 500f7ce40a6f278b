import CppSnippets.Js.Parser

/-!
# The grammar of `js.cc` and its depth-first traversal

A syntax tree keeps every byte of its text, whitespace and quotation marks
included, and its tokens carry the proofs that they are tokens. `visits` is the
traversal of a tree whose text is followed by `rest`; `Unfinished` says which texts
end inside a container although nothing in them is wrong.
-/
namespace CppSnippets.Js

/-! ## Tokens -/

structure Spaces where
  text : List Byte
  all : ∀ b ∈ text, isspace b = true

/-- A text between two quotation marks of one kind, without that mark. -/
structure Quoted where
  mark : Byte
  body : List Byte
  isMark : mark = dquote ∨ mark = squote
  free : mark ∉ body

def Quoted.text (q : Quoted) : List Byte := q.mark :: (q.body ++ [q.mark])

/-- An optional sign, a digit, then digits with at most one dot. -/
structure Number where
  sign : List Byte
  head : Byte
  tail : List Byte
  isSign : sign = [] ∨ sign = [plus] ∨ sign = [minus]
  isHead : isdigit head = true
  isTail : ∀ b ∈ tail, isdigit b = true ∨ b = dot
  dots : tail.count dot ≤ 1

def Number.text (n : Number) : List Byte := n.sign ++ n.head :: n.tail

/-- `True`, `true`, `False` or `false`. -/
structure Word where
  head : Byte
  rest : List Byte
  isWord : (head = 0x54 ∨ head = 0x74) ∧ rest = rue ∨ (head = 0x46 ∨ head = 0x66) ∧ rest = alse

def Word.text (w : Word) : List Byte := w.head :: w.rest

inductive Scalar where
  | str (q : Quoted)
  | int (n : Number)
  | bool (w : Word)

namespace Scalar

def text : Scalar → List Byte
  | .str q => q.text
  | .int n => n.text
  | .bool w => w.text

def ty : Scalar → Ty
  | .str _ => .str
  | .int _ => .int
  | .bool _ => .bool

/-- The position behind the scalar and its range: that of a string is its body. -/
def ret (rest : Ptr) : Scalar → Ret
  | .str q => ⟨rest, q.body ++ q.mark :: rest, q.mark :: rest⟩
  | .int n => ⟨rest, n.text ++ rest, rest⟩
  | .bool w => ⟨rest, w.text ++ rest, rest⟩

end Scalar

/-! ## Trees -/

inductive Kind where
  | array
  | object

def Kind.ty : Kind → Byte
  | .array => lbrack
  | .object => lbrace

def Kind.close (k : Kind) : Byte := k.ty + 2

/-- What stands before a value. -/
inductive Head : Kind → Type
  | element (before : Spaces) : Head .array
  | member (first : Spaces) (key : Quoted) (second before : Spaces) : Head .object

namespace Head

variable {k : Kind}

/-- The whitespace right before the value. -/
def before : Head k → Spaces
  | .element before => before
  | .member _ _ _ before => before

def text : Head k → List Byte
  | .element before => before.text
  | .member first key second before =>
      first.text ++ (key.text ++ (second.text ++ colon :: before.text))

/-- The key of the `i`th value. -/
def key (i : Int32) : Head k → Key
  | .element _ => .index i
  | .member _ key _ _ => .name key.body

end Head

mutual

inductive Value where
  | scalar (s : Scalar)
  | container (c : Container)

inductive Container where
  | empty (k : Kind) (ws : Spaces)
  | full (k : Kind) (ms : Members k)

inductive Members : Kind → Type
  | last {k : Kind} (h : Head k) (v : Value) (ws : Spaces) : Members k
  | more {k : Kind} (h : Head k) (v : Value) (ws : Spaces) (ms : Members k) : Members k

end

mutual

def Value.text : Value → List Byte
  | .scalar s => s.text
  | .container c => c.text

def Container.text : Container → List Byte
  | .empty k ws => k.ty :: (ws.text ++ [k.close])
  | .full k ms => k.ty :: (ms.text ++ [k.close])

def Members.text {k : Kind} : Members k → List Byte
  | .last h v ws => h.text ++ (v.text ++ ws.text)
  | .more h v ws ms => h.text ++ (v.text ++ (ws.text ++ comma :: ms.text))

end

section

variable {ν : Type} (New : ν → Key → Ptr → Option ν)

mutual

/-- `New` at the start and `Fin` at the end of a nested container, `Set` for a scalar. -/
def Value.visits (nd : Option ν) (xk : Key) (rest : Ptr) : Value → List (Callback ν)
  | .scalar s => [.set nd xk (s.ret rest).beg (s.ret rest).fin s.ty]
  | .container c =>
      let beg := c.text ++ rest
      .new nd xk beg :: (c.visits (newNode New nd xk beg) rest ++
        [.fin nd xk (newNode New nd xk beg)])

def Container.visits (nd : Option ν) (rest : Ptr) : Container → List (Callback ν)
  | .empty _ _ => []
  | .full k ms => ms.visits nd 1 (k.close :: rest)

def Members.visits {k : Kind} (nd : Option ν) (i : Int32) (rest : Ptr) :
    Members k → List (Callback ν)
  | .last h v ws => v.visits nd (h.key i) (ws.text ++ rest)
  | .more h v ws ms =>
      v.visits nd (h.key i) (ws.text ++ comma :: (ms.text ++ rest)) ++ ms.visits nd (i + 1) rest

end

end

/-! ## Texts that end too early -/

def Blank (s : List Byte) : Prop := ∀ b ∈ s, isspace b = true

/-- What may stand behind the bracket or a comma of a container of kind `k` when the
text ends: a value and no more, a key and its colon, a container that ends too early
itself, or such a text behind another comma. Behind a comma nothing may stand. -/
inductive Unfinished : Kind → List Byte → Prop
  | comma (k : Kind) (ws : Spaces) : Unfinished k ws.text
  | colon (h : Head .object) : Unfinished .object h.text
  | value {k : Kind} (h : Head k) (v : Value) (ws : Spaces) :
      Unfinished k (h.text ++ (v.text ++ ws.text))
  | nested {k : Kind} (h : Head k) (k' : Kind) {s : List Byte} :
      ¬Blank s → Unfinished k' s → Unfinished k (h.text ++ k'.ty :: s)
  | more {k : Kind} (h : Head k) (v : Value) (ws : Spaces) {s : List Byte} :
      Unfinished k s → Unfinished k (h.text ++ (v.text ++ (ws.text ++ Js.comma :: s)))

/-- The range ends at its beginning, or inside a container right after a value, a
comma or the colon of a key, in each case after optional whitespace. -/
def Cut (s : List Byte) : Prop :=
  Blank s ∨ ∃ (ws : Spaces) (k : Kind) (t : List Byte),
    s = ws.text ++ k.ty :: t ∧ ¬Blank t ∧ Unfinished k t

end CppSnippets.Js
