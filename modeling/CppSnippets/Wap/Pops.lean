import CppSnippets.Wap.Init

/-!
# Fields behind their length

`pop_string` reads a length and then as many bytes, if the length is positive and the
bytes are there. If they are not, it throws nothing and the string is empty, and what
follows is read from behind the length. A string of 16 bit characters is read into a
vector that has no room for the last byte of an odd length.
-/
namespace CppSnippets.Wap

/-- A field of a content: a number of this many bytes, or a string behind its length. -/
inductive Field where
  | raw (len : Nat)
  | string16
  | string8
  | narrow8

def Field.pop (env : Env) : Field → Pop Bytes
  | .raw len => popRaw len
  | .string16 => popString16 env
  | .string8 => popString8 env
  | .narrow8 => popNarrow8 env

/-- The bytes that the length takes. -/
def Field.header : Field → Nat
  | .raw _ => 0
  | .string16 => 2
  | .string8 => 1
  | .narrow8 => 1

/-- A number in network order. -/
def number (s : Bytes) : Nat := s.foldl (fun n b => 256 * n + b.toNat) 0

def Field.announced (buf : Bytes) : Field → Int
  | .raw len => len
  | .string16 => Int.bmod (number (buf.take 2)) (2 ^ 16)
  | .string8 => number (buf.take 1)
  | .narrow8 => number (buf.take 1)

/-- The characters have 16 bits. -/
def Field.wide : Field → Bool
  | .string16 => true
  | .string8 => true
  | _ => false

/-- The length and all that it announces is there. -/
def Field.Complete (buf : Bytes) (f : Field) : Prop :=
  f.header ≤ buf.length ∧ 0 ≤ f.announced buf ∧ f.header + f.announced buf ≤ buf.length

def Field.behind (buf : Bytes) (f : Field) : Bytes :=
  buf.drop (f.header + (f.announced buf).toNat)

/-- An error, or the length and exactly what it announces is read. -/
def Field.InStep (env : Env) (buf : Bytes) (f : Field) : Prop :=
  match (f.pop env).run buf with
  | .error t => t = .thrown "protocol data error"
  | .ok (_, rest) => f.Complete buf ∧ rest = f.behind buf

/-- Each field that is read, one behind the other, is read so. -/
def InSteps (env : Env) : List Field → Bytes → Prop
  | [], _ => True
  | f :: fs, buf =>
    f.InStep env buf ∧ ∀ s rest, (f.pop env).run buf = .ok (s, rest) → InSteps env fs rest

/-- No length is there, or all that it announces: an even number of bytes where the
characters have 16 bits. -/
def Field.Fits (buf : Bytes) : Field → Prop
  | .raw _ => True
  | f => buf.length < f.header ∨ f.Complete buf ∧ (f.wide = true → f.announced buf % 2 = 0)

/-- Every field fits where those before it end, as far as they are complete. -/
def AllFit : List Field → Bytes → Prop
  | [], _ => True
  | f :: fs, buf => f.Fits buf ∧ (f.Complete buf → AllFit fs (f.behind buf))

/-! ## The readers, run -/

theorem popUInt_run (size : Nat) (buf : Bytes) : (popUInt size).run buf =
    if size > buf.length then .error (.thrown "protocol data error")
    else .ok (number (buf.take size), buf.drop size) := by
  rw [popUInt, StateT.run_bind, popRaw_run]
  by_cases h : size > buf.length
  · rw [if_pos h, if_pos h]
    rfl
  · rw [if_neg h, if_neg h]
    rfl

theorem popInt16_run (buf : Bytes) : popInt16.run buf =
    if 2 > buf.length then .error (.thrown "protocol data error")
    else .ok (Int.bmod (number (buf.take 2)) (2 ^ 16), buf.drop 2) := by
  rw [popInt16, StateT.run_bind, popUInt_run]
  by_cases h : 2 > buf.length
  · rw [if_pos h, if_pos h]
    rfl
  · rw [if_neg h, if_neg h]
    rfl

theorem popChars_short (env : Env) (wide : Bool) {len : Int} {rest : Bytes}
    (h : ¬(0 < len ∧ len ≤ rest.length)) : (popChars env wide len).run rest = .ok ([], rest) := by
  rw [popChars, StateT.run_bind]
  change ((if 0 < len ∧ len ≤ rest.length then _ else _ : Pop Bytes)).run rest = _
  rw [if_neg h]
  rfl

theorem popChars_odd (env : Env) {len : Int} {rest : Bytes} (h : 0 < len ∧ len ≤ rest.length)
    (hodd : len % 2 = 1) : (popChars env true len).run rest = .error .undefined := by
  rw [popChars, StateT.run_bind]
  change ((if 0 < len ∧ len ≤ rest.length then _ else _ : Pop Bytes)).run rest = _
  rw [if_pos h, if_pos rfl, if_pos hodd]
  rfl

/-- A length that is announced and there is read. -/
theorem popChars_whole (env : Env) {wide : Bool} {len : Int} {rest : Bytes}
    (h : 0 < len ∧ len ≤ rest.length) (heven : wide = true → ¬len % 2 = 1) :
    ∃ s, (popChars env wide len).run rest = .ok (s, rest.drop len.toNat) := by
  have hthere : ¬len.toNat > rest.length := by omega
  have hraw := popRaw_run len.toNat rest
  rw [if_neg hthere] at hraw
  rw [popChars, StateT.run_bind]
  change ∃ s, ((if 0 < len ∧ len ≤ rest.length then _ else _ : Pop Bytes)).run rest = _
  rw [if_pos h]
  cases wide with
  | false => exact ⟨_, hraw⟩
  | true =>
    refine ⟨(env.iconv (rest.take len.toNat)).getD [], ?_⟩
    rw [if_pos rfl, if_neg (heven rfl)]
    rw [StateT.run_bind, hraw]
    rfl

/-! ## Fields -/

variable {env : Env} {buf : Bytes} {f : Field}

theorem bind_run {α β : Type} {p : Pop α} {g : α → Pop β} {a : α} {rest : Bytes}
    (h : p.run buf = .ok (a, rest)) : (p >>= g).run buf = (g a).run rest := by
  rw [StateT.run_bind, h]
  rfl

theorem bind_error {α β : Type} {p : Pop α} {g : α → Pop β} {t : Trap}
    (h : p.run buf = .error t) : (p >>= g).run buf = .error t := by
  rw [StateT.run_bind, h]
  rfl

/-- Without its length a string is an error. -/
theorem string_short (hf : ∀ len, f ≠ .raw len) (h : f.header > buf.length) :
    (f.pop env).run buf = .error (.thrown "protocol data error") := by
  cases f with
  | raw len => exact absurd rfl (hf len)
  | string16 => exact bind_error ((popInt16_run buf).trans (if_pos h))
  | string8 => exact bind_error ((popUInt_run 1 buf).trans (if_pos h))
  | narrow8 => exact bind_error ((popUInt_run 1 buf).trans (if_pos h))

/-- A string is its length and then the characters. -/
theorem string_run (hf : ∀ len, f ≠ .raw len) (h : ¬f.header > buf.length) :
    (f.pop env).run buf = (popChars env f.wide (f.announced buf)).run (buf.drop f.header) := by
  cases f with
  | raw len => exact absurd rfl (hf len)
  | string16 => exact bind_run ((popInt16_run buf).trans (if_neg h))
  | string8 => exact bind_run ((popUInt_run 1 buf).trans (if_neg h))
  | narrow8 => exact bind_run ((popUInt_run 1 buf).trans (if_neg h))

theorem behind_eq : f.behind buf = (buf.drop f.header).drop (f.announced buf).toNat :=
  List.drop_drop.symm

theorem raw_run (len : Nat) : ((Field.raw len).pop env).run buf =
    if len > buf.length then .error (.thrown "protocol data error")
    else .ok (buf.take len, buf.drop len) := popRaw_run len buf

theorem raw_behind (len : Nat) : (Field.raw len).behind buf = buf.drop len := by
  rw [behind_eq]
  rfl

theorem inStep_raw (len : Nat) : (Field.raw len).InStep env buf := by
  rw [Field.InStep, raw_run]
  by_cases h : len > buf.length
  · rw [if_pos h]
  · rw [if_neg h]
    have hlen : ((0 : Nat) : Int) + (len : Int) ≤ buf.length := by omega
    exact ⟨⟨Nat.zero_le _, Int.natCast_nonneg len, hlen⟩, (raw_behind len).symm⟩

/-- What is there of a string whose length is there. -/
theorem complete_iff (h : ¬f.header > buf.length) : f.Complete buf ↔
    0 ≤ f.announced buf ∧ f.announced buf ≤ (buf.drop f.header).length := by
  rw [Field.Complete, List.length_drop]
  omega

/-- A string that is not complete is empty. -/
theorem string_empty (hf : ∀ len, f ≠ .raw len) (hhead : ¬f.header > buf.length)
    (h : ¬f.Complete buf) : (f.pop env).run buf = .ok ([], buf.drop f.header) := by
  rw [complete_iff hhead] at h
  rw [string_run hf hhead, popChars_short env f.wide (by omega)]

theorem string_odd (hf : ∀ len, f ≠ .raw len) (h : f.Complete buf)
    (hodd : f.wide = true ∧ f.announced buf % 2 = 1) : (f.pop env).run buf = .error .undefined := by
  have hhead : ¬f.header > buf.length := Nat.not_lt.mpr h.1
  rw [complete_iff hhead] at h
  rw [string_run hf hhead, hodd.1, popChars_odd env (by omega) hodd.2]

theorem string_whole (hf : ∀ len, f ≠ .raw len) (h : f.Complete buf)
    (heven : f.wide = true → f.announced buf % 2 = 0) :
    ∃ s, (f.pop env).run buf = .ok (s, f.behind buf) := by
  have hhead : ¬f.header > buf.length := Nat.not_lt.mpr h.1
  rw [complete_iff hhead] at h
  rw [string_run hf hhead, behind_eq]
  by_cases hzero : f.announced buf = 0
  · exact ⟨[], by rw [popChars_short env f.wide (by omega), hzero]; rfl⟩
  · exact popChars_whole env (by omega) (fun hw => by have := heven hw; omega)

theorem inStep_string (hf : ∀ len, f ≠ .raw len) : f.InStep env buf ↔
    buf.length < f.header ∨ f.Complete buf ∧ (f.wide = true → f.announced buf % 2 = 0) := by
  rw [Field.InStep]
  by_cases hhead : f.header > buf.length
  · rw [string_short hf hhead]
    exact iff_of_true rfl (.inl hhead)
  by_cases hcomplete : f.Complete buf
  · by_cases hodd : f.wide = true ∧ f.announced buf % 2 = 1
    · have hbad : ¬(f.wide = true → f.announced buf % 2 = 0) := fun heven => by
        have := heven hodd.1
        omega
      rw [string_odd hf hcomplete hodd]
      exact iff_of_false (fun h => nomatch h) (fun h => h.elim hhead fun h => hbad h.2)
    · have heven : f.wide = true → f.announced buf % 2 = 0 := fun hw => by
        have hne : ¬f.announced buf % 2 = 1 := fun h => hodd ⟨hw, h⟩
        omega
      obtain ⟨s, hs⟩ := @string_whole env buf f hf hcomplete heven
      rw [hs]
      exact iff_of_true ⟨hcomplete, rfl⟩ (.inr ⟨hcomplete, heven⟩)
  · rw [string_empty hf hhead hcomplete]
    exact iff_of_false (fun h => hcomplete h.1) (fun h => h.elim hhead fun h => hcomplete h.1)

theorem inStep_iff : f.InStep env buf ↔ f.Fits buf := by
  cases f with
  | raw len => exact iff_of_true (inStep_raw len) trivial
  | string16 => exact inStep_string (fun _ h => nomatch h)
  | string8 => exact inStep_string (fun _ h => nomatch h)
  | narrow8 => exact inStep_string (fun _ h => nomatch h)

/-- A field that fits is read as soon as it is complete. -/
theorem read_of_fits (hfits : f.Fits buf) (h : f.Complete buf) :
    ∃ s, (f.pop env).run buf = .ok (s, f.behind buf) := by
  have hhead : ¬buf.length < f.header := Nat.not_lt.mpr h.1
  cases f with
  | raw len =>
    have hlen : ¬len > buf.length := by
      have hle : ((0 : Nat) : Int) + (len : Int) ≤ buf.length := h.2.2
      omega
    exact ⟨_, by rw [raw_run, if_neg hlen, raw_behind]⟩
  | string16 => exact string_whole (fun _ h => nomatch h) h (hfits.resolve_left hhead).2
  | string8 => exact string_whole (fun _ h => nomatch h) h (hfits.resolve_left hhead).2
  | narrow8 => exact string_whole (fun _ h => nomatch h) h (hfits.resolve_left hhead).2

/-- Fields are read in step if and only if each fits where it begins. -/
theorem inSteps_iff (env : Env) (fs : List Field) (buf : Bytes) :
    InSteps env fs buf ↔ AllFit fs buf := by
  induction fs generalizing buf with
  | nil => exact Iff.rfl
  | cons f fs ih =>
    rw [InSteps, AllFit, inStep_iff]
    refine and_congr_right (fun hfits => ?_)
    constructor
    · intro h hcomplete
      obtain ⟨s, hs⟩ := read_of_fits hfits hcomplete
      exact (ih (f.behind buf)).mp (h s _ hs)
    · intro h s rest hrun
      have hstep : f.InStep env buf := inStep_iff.mpr hfits
      rw [Field.InStep, hrun] at hstep
      obtain ⟨hcomplete, hrest⟩ := hstep
      rw [hrest]
      exact (ih (f.behind buf)).mpr (h hcomplete)

/-- Five characters are announced, and one is there. -/
theorem not_inSteps : ¬∀ env : Env, ∀ fs buf, InSteps env fs buf := by
  intro h
  have hstep : Field.narrow8.InStep Env.ilp32 [5, 97] := (h Env.ilp32 [.narrow8] [5, 97]).1
  have hrest : ([97] : Bytes) = [] := hstep.2
  exact absurd hrest (List.cons_ne_nil _ _)

end CppSnippets.Wap
