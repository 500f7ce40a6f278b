import CppSnippets.Wap.Text

/-!
# Patterns, variables and entities in texts

`glex.hpp` looks for `start$stop` in a text, where `*` in either half stands for
any bytes, and returns what lies in place of the `$`; `subst` replaces
`$$name$$` by the value of a variable; `unescape` turns `&amp;` into `&`. Ranges
are offsets into the text searched.
-/
namespace CppSnippets.Wap

/-- `_matchres`: the pieces of `pat` one after the other, each at its first
occurrence from offset `b` of `cont`. The result is where the last one ends. -/
def matchres (cont : Bytes) : Nat → Bytes → Nat → Option Nat
  | 0, _, b => some b
  | n + 1, pat, b =>
      if pat.isEmpty then some b
      else
        let star := find 42 pat
        if star = 0 then matchres cont n (pat.drop 1) b
        else
          let at' := b + search (pat.take star) (cont.drop b)
          if cont.length ≤ at' then none
          else matchres cont n (pat.drop (star + 1)) (at' + star)

/-- `psearch`: the first match of `pat` in `cont`, as its begin and its end. -/
def psearch (pat cont : Bytes) : Option (Nat × Nat) :=
  let star := find 42 pat
  if pat.length ≤ star then
    let b := search pat cont
    if cont.length ≤ b then none else some (b, b + pat.length)
  else if star = 0 then (matchres cont pat.length (pat.drop 1) 0).map fun e => (0, e)
  else
    let b := search (pat.take star) cont
    if cont.length ≤ b then none
    else (matchres cont pat.length (pat.drop (star + 1)) (b + star)).map fun e => (b, e)

/-- `globex`: what stands for the `$` of `pat` in `cont`, nearest to the first
match of the half after it. A pattern without `$` is its own result. -/
def globex (pat cont : Bytes) : Except Trap (Option Bytes) :=
  let p := find 36 pat
  if pat.length ≤ p then .ok (some pat)
  else
    let start := pat.take p
    let stop := pat.drop (p + 1)
    match if start.isEmpty then some (0, 0) else psearch start cont with
    | none => .ok none
    | some res0 =>
      let rest := cont.drop res0.2
      match if stop.isEmpty then some (rest.length, rest.length) else psearch stop rest with
      | none => .ok none
      | some res1 =>
        let stopBegin := res0.2 + res1.1
        if start.isEmpty then .ok (some (slice cont res0.2 stopBegin))
        else
          -- the last match of the half before `$`, searched backwards
          match psearch start.reverse (slice cont res0.1 stopBegin).reverse with
          | none => .error .assertion
          | some back => .ok (some (slice cont (stopBegin - back.1) stopBegin))

def glex (ex cont : Bytes) : Except Trap Bytes := do
  match ← globex ex cont with
  | none => .error (.thrown "Ex null")
  | some s => .ok s

/-- A format that takes no argument: up to its NUL each `%` stands before another. -/
def plainFormat : Bytes → Bool
  | [] => true
  | 0 :: _ => true
  | 37 :: 37 :: s => plainFormat s
  | 37 :: _ => false
  | _ :: s => plainFormat s

/-- The loop of `subst`, on what is left of the text. The name of a variable is
the format of a `printf` that has no argument. -/
def substFrom (vars : StrMap) : Nat → Bytes → Bytes → Except Trap Bytes
  | 0, _, _ => .error .diverges
  | n + 1, rest, ret =>
      let dollar2 := bytes "$$"
      let p := search dollar2 rest
      if p < rest.length then
        let after := rest.drop (p + 2)
        let q := search dollar2 after
        if after.length ≤ q then .error (.thrown "REPL-1")
        else if plainFormat (after.take q) = false then .error .undefined
        else
          match vars.find (after.take q) with
          | none => .error (.thrown "REPL-2")
          | some v => substFrom vars n (after.drop (q + 2)) (ret ++ rest.take p ++ v)
      else .ok (ret ++ rest)

def subst (cont : Bytes) (vars : StrMap) : Except Trap Bytes :=
  substFrom vars (cont.length + 1) cont []

/-- `esc.find("&amp;", pos)` as a `size_t`. -/
def findAmp (env : Env) (esc : Bytes) (pos : Nat) : Nat :=
  let i := pos + search (bytes "&amp;") (esc.drop pos)
  if i < esc.length then i else 2 ^ env.wordBits - 1

/-- The loop of `unescape`, whose `pos` is an `unsigned int`. -/
def unescapeFrom (env : Env) : Nat → Nat → Bytes → Except Trap Bytes
  | 0, _, _ => .error .diverges
  | n + 1, pos, esc =>
      let found := findAmp env esc pos % 2 ^ 32
      if found = 2 ^ env.wordBits - 1 then .ok esc
      else
        let pos := (found + 1) % 2 ^ 32
        if esc.length < pos then .error (.thrown "basic_string::erase")
        else unescapeFrom env n pos (esc.take pos ++ esc.drop (pos + 4))

def unescape (env : Env) (url : Bytes) : Except Trap Bytes :=
  unescapeFrom env (url.length + 1) 0 url

end CppSnippets.Wap
