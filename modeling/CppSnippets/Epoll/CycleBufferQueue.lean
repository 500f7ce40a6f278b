import CppSnippets.Epoll.Buffer
import Mathlib.Data.List.Iterate
import Mathlib.Data.List.Nodup
import Mathlib.Logic.Function.Basic
import Mathlib.Logic.Function.Iterate

/-!
# `cycle_buffer_queue`

The ring of `N` buffers between one producer and one consumer, translated from
`buffer.hpp`. An iterator is a slot, and `none` stands for `end()`. Each
operation is one atomic step. The source holds the mutex over `alloc` and `wait`;
that `done` and `fail`, which take no lock, are atomic too is assumed.
`wait(millis)` with a positive timeout is a failed `wait(0)`, which changes
nothing, followed by a second one, so only `wait(0)` is modelled.
-/
namespace CppSnippets.Epoll

structure CycleBufferQueue (N : Nat) where
  bufs : Fin N → BufferRef
  ip : Fin N
  ialloc : Option (Fin N)
  iusing : Option (Fin N)

namespace CycleBufferQueue

variable {N : Nat}

def incr (i : Fin N) : Fin N :=
  if h : i.val + 1 = N then ⟨0, by omega⟩ else ⟨i.val + 1, by omega⟩

def decr (i : Fin N) : Fin N :=
  if i.val = 0 then ⟨N - 1, Nat.sub_lt (Fin.pos i) Nat.one_pos⟩
  else ⟨i.val - 1, Nat.lt_of_le_of_lt (Nat.sub_le _ _) i.isLt⟩

/-- Neither allocated nor empty: the test of `_findusable`. -/
def usable (q : CycleBufferQueue N) (p : Fin N) : Bool :=
  q.ialloc ≠ some p && !(q.bufs p).isEmpty

/-- The loop of `_findusable(p, eop)`, with the number of slots it may visit. -/
def findusable (q : CycleBufferQueue N) : Nat → Fin N → Fin N → Option (Fin N)
  | 0, _, _ => none
  | n + 1, p, eop =>
      if p ≠ eop then
        if q.usable p then some p else findusable q n (incr p) eop
      else if q.usable p then some p else none

/-- The slot at `ip_` is emptied and becomes the allocated one. -/
def allocSlot (q : CycleBufferQueue N) (siz : Nat) : Except Exit (CycleBufferQueue N) := do
  let b ← (q.bufs q.ip).consume (q.bufs q.ip).size
  b.reserve siz
  return { q with bufs := Function.update q.bufs q.ip b, ialloc := some q.ip }

def alloc (q : CycleBufferQueue N) (siz : Nat) : Except Exit (CycleBufferQueue N) :=
  if q.ialloc ≠ none then .error .assertion
  else if q.iusing = some q.ip then
    -- the consumer holds the slot at `ip_`: skip over it
    if q.iusing = some (incr q.ip) then .error .gt1Using
    else allocSlot { q with ip := incr q.ip } siz
  else allocSlot q siz

def wait (q : CycleBufferQueue N) : Except Exit (CycleBufferQueue N) :=
  if q.iusing ≠ none then .error .assertion
  else .ok { q with iusing := q.findusable N q.ip (decr q.ip) }

def done (q : CycleBufferQueue N) (j : Fin N) : Except Exit (CycleBufferQueue N) :=
  if some j = q.ialloc then
    if some q.ip ≠ q.ialloc then .error .fatalIp
    else .ok { q with ip := incr j, ialloc := none }
  else if some j = q.iusing then do
    let b ← (q.bufs j).consume (q.bufs j).size
    return { q with bufs := Function.update q.bufs j b, iusing := none }
  else .error .fatalIter

/-- Nothing is emptied and `ip_` stays, whichever of the two buffers failed. -/
def fail (q : CycleBufferQueue N) (j : Fin N) : Except Exit (CycleBufferQueue N) :=
  if some j = q.ialloc then
    if some q.ip ≠ q.ialloc then .error .fatalIp
    else .ok { q with ialloc := none }
  else if some j = q.iusing then .ok { q with iusing := none }
  else .error .fatalIter

/-- The producer writes into the buffer it was given. -/
def fill (q : CycleBufferQueue N) (j : Fin N) (p : List Byte) :
    Except Exit (CycleBufferQueue N) := do
  let b ← (q.bufs j).put p
  return { q with bufs := Function.update q.bufs j b }

/-- A freshly constructed queue over buffers of the given capacities. -/
def init (h : 0 < N) (capacity : Fin N → Nat) : CycleBufferQueue N :=
  ⟨fun i => .mk0 (capacity i), ⟨0, h⟩, none, none⟩

/-! ## The cyclic order of the slots -/

theorem incr_val (i : Fin N) : (incr i).val = (i.val + 1) % N := by
  unfold incr
  split
  · rename_i h
    rw [h, Nat.mod_self]
  · rw [Nat.mod_eq_of_lt (by omega)]

theorem iterate_incr_val (i : Fin N) (k : Nat) : (incr^[k] i).val = (i.val + k) % N := by
  induction k with
  | zero => rw [Function.iterate_zero, id_eq, Nat.add_zero, Nat.mod_eq_of_lt i.isLt]
  | succ k ih => rw [Function.iterate_succ_apply', incr_val, ih, Nat.mod_add_mod, Nat.add_assoc]

theorem iterate_incr_self (i : Fin N) : incr^[N] i = i := by
  apply Fin.ext
  rw [iterate_incr_val, Nat.add_mod_right, Nat.mod_eq_of_lt i.isLt]

theorem iterate_incr_inj {i : Fin N} {j k : Nat} (hj : j < N) (hk : k < N)
    (h : incr^[j] i = incr^[k] i) : j = k := by
  have hv := congrArg Fin.val h
  rw [iterate_incr_val, iterate_incr_val] at hv
  have hi := i.isLt
  rcases Nat.lt_or_ge (i.val + j) N with hj' | hj' <;>
    rcases Nat.lt_or_ge (i.val + k) N with hk' | hk'
  · rw [Nat.mod_eq_of_lt hj', Nat.mod_eq_of_lt hk'] at hv
    omega
  · rw [Nat.mod_eq_of_lt hj', Nat.mod_eq_sub_mod hk', Nat.mod_eq_of_lt (by omega)] at hv
    omega
  · rw [Nat.mod_eq_sub_mod hj', Nat.mod_eq_of_lt (by omega), Nat.mod_eq_of_lt hk'] at hv
    omega
  · rw [Nat.mod_eq_sub_mod hj', Nat.mod_eq_of_lt (by omega), Nat.mod_eq_sub_mod hk',
      Nat.mod_eq_of_lt (by omega)] at hv
    omega

theorem decr_eq (i : Fin N) : decr i = incr^[N - 1] i := by
  have hi := i.isLt
  apply Fin.ext
  rw [iterate_incr_val]
  unfold decr
  split
  · rename_i h
    rw [h, Nat.zero_add, Nat.mod_eq_of_lt (by omega)]
  · rw [Nat.mod_eq_sub_mod (by omega), Nat.mod_eq_of_lt (by omega)]
    change i.val - 1 = i.val + (N - 1) - N
    omega

/-- The other slots, in the order `_findusable` visits them after `p`. -/
def after (p : Fin N) : List (Fin N) := List.iterate incr (incr p) (N - 1)

/-- All slots from `p` on. -/
def order (p : Fin N) : List (Fin N) := p :: after p

theorem order_eq_iterate (p : Fin N) : order p = List.iterate incr p N := by
  have hp := p.isLt
  obtain ⟨n, rfl⟩ : ∃ n, N = n + 1 := ⟨N - 1, by omega⟩
  rfl

theorem mem_after {p i : Fin N} : i ∈ after p ↔ i ≠ p := by
  have hp := p.isLt
  have hi := i.isLt
  unfold after
  rw [List.mem_iterate]
  constructor
  · rintro ⟨m, hm, rfl⟩ h
    rw [← Function.iterate_succ_apply] at h
    exact absurd (iterate_incr_inj (i := p) (j := m + 1) (k := 0) (by omega) (by omega) h) (by omega)
  · intro h
    have hne : i.val ≠ p.val := fun hv => h (Fin.ext hv)
    refine ⟨(i.val + N - p.val - 1) % N, ?_, ?_⟩
    · rcases Nat.lt_or_ge (i.val + N - p.val - 1) N with hlt | hge
      · rw [Nat.mod_eq_of_lt hlt]
        omega
      · rw [Nat.mod_eq_sub_mod hge, Nat.mod_eq_of_lt (by omega)]
        omega
    · apply Fin.ext
      rw [← Function.iterate_succ_apply, iterate_incr_val, Nat.succ_eq_add_one, ← Nat.add_assoc,
        Nat.add_right_comm, Nat.add_mod_mod,
        show p.val + 1 + (i.val + N - p.val - 1) = i.val + N by omega, Nat.add_mod_right,
        Nat.mod_eq_of_lt hi]

theorem nodup_after (p : Fin N) : (after p).Nodup := by
  have hp := p.isLt
  unfold after
  rw [← List.range_map_iterate]
  refine List.Nodup.map_on (fun j hj k hk h => ?_) List.nodup_range
  rw [List.mem_range] at hj hk
  exact iterate_incr_inj (by omega) (by omega) h

theorem nodup_order (p : Fin N) : (order p).Nodup :=
  List.nodup_cons.mpr ⟨fun h => mem_after.mp h rfl, nodup_after p⟩

/-- Advancing the start moves the first slot to the end. -/
theorem order_incr (p : Fin N) : order (incr p) = after p ++ [p] := by
  have hp := p.isLt
  obtain ⟨n, rfl⟩ : ∃ n, N = n + 1 := ⟨N - 1, by omega⟩
  have hlast : incr^[n] (incr p) = p := by
    rw [← Function.iterate_succ_apply]
    exact iterate_incr_self p
  rw [order_eq_iterate, List.iterate_add, hlast]
  rfl

theorem incr_ne (hN : 2 ≤ N) (p : Fin N) : incr p ≠ p := by
  intro h
  have := iterate_incr_inj (i := p) (j := 1) (k := 0) (by omega) (by omega) h
  omega

/-- The scan visits the slots in order, up to and including the last one. -/
theorem findusable_eq_find (q : CycleBufferQueue N) (n : Nat) :
    ∀ p : Fin N, (∀ k < n, incr^[k] p ≠ incr^[n] p) →
      q.findusable (n + 1) p (incr^[n] p) = (List.iterate incr p (n + 1)).find? q.usable := by
  induction n with
  | zero =>
    intro p _
    simp only [findusable, Function.iterate_zero, id_eq, ne_eq, not_true_eq_false, if_false,
      List.iterate, List.find?]
    cases q.usable p <;> rfl
  | succ n ih =>
    intro p h
    have h0 : p ≠ incr^[n + 1] p := h 0 (by omega)
    rw [findusable, if_pos h0, List.iterate, List.find?]
    cases hu : q.usable p with
    | true => rfl
    | false =>
      rw [Function.iterate_succ_apply]
      refine ih (incr p) fun k hk => ?_
      rw [← Function.iterate_succ_apply, ← Function.iterate_succ_apply]
      exact h (k + 1) (by omega)

/-- The scan of `wait` finds the first usable slot from `ip_` on. -/
theorem findusable_order (q : CycleBufferQueue N) :
    q.findusable N q.ip (decr q.ip) = (order q.ip).find? q.usable := by
  have hp := q.ip.isLt
  obtain ⟨n, rfl⟩ : ∃ n, N = n + 1 := ⟨N - 1, by omega⟩
  rw [decr_eq, order_eq_iterate]
  refine findusable_eq_find q n q.ip fun k hk h => ?_
  have := iterate_incr_inj (by omega) (by omega) h
  omega

end CycleBufferQueue
end CppSnippets.Epoll
