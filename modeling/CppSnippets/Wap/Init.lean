import CppSnippets.Wap.Session

/-!
# Reading the script of a session

`wapinit` reads a binary content: an id, the number of steps, each step with its
request and what to extract, the number of repetitions and an optional filter.
The `pop_*` functions read from the rest of the content and throw when it is too
short for a number; a string whose length does not fit is read as empty.
-/
namespace CppSnippets.Wap

open CppSnippets.Lib

/-- A reader of what is left in a `probuf`. -/
abbrev Pop (α : Type) := StateT Bytes (Except Trap) α

/-- `pop_raw`. -/
def popRaw (len : Nat) : Pop Bytes := do
  let rest ← get
  if len > rest.length then throw (.thrown "protocol data error")
  set (rest.drop len)
  return rest.take len

/-- `pop_int` of an unsigned type of this many bytes, in network order. -/
def popUInt (size : Nat) : Pop Nat := do
  return (← popRaw size).foldl (fun n b => 256 * n + b.toNat) 0

/-- `pop_int<int16_t>`. -/
def popInt16 : Pop Int := do
  return Int.bmod (← popUInt 2) (2 ^ 16)

/-- `pop_string`, after its length: `wide` says that the characters are 16 bits,
which are then converted. The vector that is read into has `len / 2` of them. -/
def popChars (env : Env) (wide : Bool) (len : Int) : Pop Bytes := do
  if 0 < len ∧ len ≤ (← get).length then
    if wide then
      if len % 2 = 1 then throw .undefined
      return (env.iconv (← popRaw len.toNat)).getD []
    else popRaw len.toNat
  else return []

/-- `pop_string<int16_t, int16_t>`. -/
def popString16 (env : Env) : Pop Bytes := do popChars env true (← popInt16)

/-- `pop_string<uint8_t, int16_t>`. -/
def popString8 (env : Env) : Pop Bytes := do popChars env true (← popUInt 1)

/-- `pop_string<uint8_t, int8_t>`. -/
def popNarrow8 (env : Env) : Pop Bytes := do popChars env false (← popUInt 1)

/-- What `p` reads this many times. -/
def popMany {α : Type} (p : Pop α) : Nat → Pop (List α)
  | 0 => return []
  | n + 1 => do
      let a ← p
      return a :: (← popMany p n)

/-- A keyword and its pattern. -/
def popGlex (env : Env) : Pop (Bytes × Bytes) := do
  let kw ← popString8 env
  let ex ← popString8 env
  return (kw, ex)

/-- The body of the loop over the steps. -/
def popStep (env : Env) : Pop WcStep := do
  let _ ← popInt16
  let qfirst := (← popString16 env) ++ bytes "\r\n"
  let qhead := (← popString16 env) ++ bytes "\r\n\r\n"
  let qbody ← popString16 env
  let _ ← popString8 env
  let glex ← popMany (popGlex env) (← popUInt 1)
  let seconds ← popInt16
  return ⟨.init qfirst qhead qbody seconds, glex⟩

/-- One entry of the message filter. -/
def popFilter (env : Env) : Pop Unit := do
  let _ ← popNarrow8 env
  let _ ← popString8 env
  let _ ← popInt16

/-- The loop over the steps: those read before an exception stay. The result is
what is left of the content. -/
def pushSteps (env : Env) : Nat → Bytes → Act Bytes
  | 0, rest => pure rest
  | n + 1, rest => do
      let (step, rest) ← Action.lift ((popStep env).run rest)
      modify fun wc => { wc with steps := wc.steps ++ [step] }
      pushSteps env n rest

/-- The filter at the end of the content: the id and the bytes that were read. -/
def pushFilter (env : Env) (idcode rest : Bytes) : Act Unit := do
  if 0 < rest.length then
    let (_, left) ← Action.lift
      ((do popMany (popFilter env) (← popUInt 1) : Pop (List Unit)).run rest)
    let block := idcode ++ rest.take (rest.length - left.length)
    modify fun wc => { wc with smblock := block }

/-- `wapinit`, on the content of the command. -/
def wapinit (env : Env) (content : Bytes) : Act (Except String Bytes) := do
  let (idcode, rest) ← Action.lift ((popRaw 4).run content)
  let (nstep, rest) ← Action.lift ((popUInt 1).run rest)
  if nstep = 0 ∨ 16 < nstep then return .error "Steps count error"
  let rest ← pushSteps env nstep rest
  let (nRepeat, rest) ← Action.lift ((popUInt 1).run rest)
  modify fun wc => { wc with nRepeat := .ofNat nRepeat }
  let (_, rest) ← Action.lift ((popUInt 2).run rest)
  if nRepeat = 0 ∨ 8 < nRepeat then return .error "Repeat count error"
  pushFilter env idcode rest
  return .ok (← stepFwd env 0)

/-! ## The readers, run -/

theorem popRaw_run (len : Nat) (rest : Bytes) : (popRaw len).run rest =
    if len > rest.length then .error (.thrown "protocol data error")
    else .ok (rest.take len, rest.drop len) := by
  simp only [popRaw, StateT.run_bind]
  by_cases h : len > rest.length
  · simp [h]; rfl
  · simp [h]; rfl

theorem popByte_run (rest : Bytes) : (popUInt 1).run rest = match rest with
    | [] => .error (.thrown "protocol data error")
    | b :: r => .ok (b.toNat, r) := by
  rw [popUInt, StateT.run_bind, popRaw_run]
  cases rest with
  | nil => rfl
  | cons b r => simp

theorem popMany_succ {α : Type} (p : Pop α) (n : Nat) (rest : Bytes) :
    (popMany p (n + 1)).run rest = match p.run rest with
      | .error t => .error t
      | .ok (a, r) => match (popMany p n).run r with
        | .error t => .error t
        | .ok (l, r') => .ok (a :: l, r') := by
  rw [popMany, StateT.run_bind]
  cases p.run rest with
  | error t => rfl
  | ok a =>
    change Except.bind ((popMany p n).run a.2) (fun q => .ok (a.1 :: q.1, q.2)) = _
    dsimp only
    cases (popMany p n).run a.2 <;> rfl

end CppSnippets.Wap
