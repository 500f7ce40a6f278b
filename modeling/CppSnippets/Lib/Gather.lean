import Mathlib.Data.List.Basic
import Mathlib.Data.List.Induction

/-!
# A reader that asks after each chunk

Chunks are gathered in a buffer, and a function of the buffer is asked after each one
until it answers. Where the answer to a longer buffer may differ, so may what is
answered for one stream cut in two ways; it does not where the function agrees with a
stable one in the moments in which it is asked.
-/
namespace CppSnippets.Lib

variable {α β : Type*}

/-- The first answer of `f`, `buf` being gathered so far. -/
def gather (f : List α → Option β) (buf : List α) : List (List α) → Option β
  | [] => none
  | c :: cs =>
    match f (buf ++ c) with
    | some b => some b
    | none => gather f (buf ++ c) cs

variable {f g : List α → Option β}

theorem gather_snoc (buf : List α) (cs : List (List α)) (c : List α) :
    gather f buf (cs ++ [c]) = (gather f buf cs).or (f (buf ++ cs.flatten ++ c)) := by
  induction cs generalizing buf with
  | nil =>
    simp only [List.nil_append, gather, List.flatten_nil, List.append_nil, Option.none_or]
    cases f (buf ++ c) <;> rfl
  | cons d cs ih =>
    rw [List.cons_append, gather, gather]
    cases f (buf ++ d) with
    | some b => rfl
    | none =>
      show gather f (buf ++ d) (cs ++ [c]) = _
      rw [ih, List.flatten_cons, List.append_assoc buf d]

/-- `g` says what every cut of `s` is answered, if it is stable and `f` agrees with it
whenever `g` has not answered before. -/
theorem gather_eq {Chunk : List α → Prop} {s : List α} (hnil : g [] = none)
    (hstable : ∀ p q b, g p = some b → g (p ++ q) = some b)
    (hagree : ∀ p c, Chunk c → p ++ c <+: s → g p = none → f (p ++ c) = g (p ++ c))
    {cs : List (List α)} (hcs : ∀ c ∈ cs, Chunk c) (hs : cs.flatten <+: s) :
    gather f [] cs = g cs.flatten := by
  induction cs using List.reverseRecOn with
  | nil => exact hnil.symm
  | append_singleton cs c ih =>
    rw [List.flatten_append, List.flatten_singleton] at hs
    have hbefore := ih (fun d hd => hcs d (List.mem_append_left _ hd))
      ((List.prefix_append _ _).trans hs)
    rw [gather_snoc, List.nil_append, hbefore, List.flatten_append, List.flatten_singleton]
    cases hg : g cs.flatten with
    | some b => exact (hstable _ c b hg).symm
    | none => exact hagree _ c (hcs c (List.mem_append_right _ List.mem_cons_self)) hs hg

end CppSnippets.Lib
