import CppSnippets.Epoll.CycleBufferQueue

/-!
# The deadline of a wait

`cycle_buffer_queue::wait` gives its milliseconds to `pthread_cond_type::wait`, which
takes them for microseconds and adds them to the nanoseconds of the clock without a carry.
-/
namespace CppSnippets.Epoll

/-! ## `pthread_cond_type` -/

structure Timespec where
  sec : Int
  nsec : Int
  deriving DecidableEq

/-- What `clock_gettime` gives. -/
structure ClockReading extends Timespec where
  nsec_nonneg : 0 ≤ nsec
  nsec_lt : nsec < 1000000000

/-- The width of `long`, which is the type of `tv_nsec`. -/
inductive LongWidth
  | bits32
  | bits64

/-- `long += unsigned`: of 64 bits the `unsigned` is one of its values, of 32 bits both
operands become unsigned. -/
def LongWidth.addUnsigned : LongWidth → Int → UInt32 → Int
  | .bits32, n, u => (n + u.toNat).bmod (2 ^ 32)
  | .bits64, n, u => (n + u.toNat).bmod (2 ^ 64)

/-- The timespec that `wait` passes to `pthread_cond_timedwait`. -/
def condDeadline (long : LongWidth) (now : ClockReading) (microsec : UInt32) : Timespec :=
  ⟨now.sec, long.addUnsigned now.nsec (1000 * microsec)⟩

/-! ## `cycle_buffer_queue::wait` -/

namespace CycleBufferQueue

variable {N : Nat}

/-- `wait`, and the deadlines that it waits for. The mutex is free while it waits, and
others may then change the queue. -/
def waitFor (long : LongWidth) (now : ClockReading)
    (meanwhile : CycleBufferQueue N → CycleBufferQueue N) (q : CycleBufferQueue N)
    (millis : UInt32) : Except Exit (CycleBufferQueue N × List Timespec) :=
  if q.iusing ≠ none then .error .assertion
  else
    match q.findusable N q.ip (decr q.ip) with
    | some j => .ok ({ q with iusing := some j }, [])
    | none =>
      if 0 < millis then
        let q' := meanwhile q
        .ok ({ q' with iusing := q'.findusable N q'.ip (decr q'.ip) },
          [condDeadline long now millis])
      else .ok ({ q with iusing := none }, [])

end CycleBufferQueue

/-! ## The deadline that was asked for -/

/-- In nanoseconds. -/
def Timespec.total (t : Timespec) : Int := 1000000000 * t.sec + t.nsec

structure Timespec.Due (now : ClockReading) (millis : UInt32) (t : Timespec) : Prop where
  nsec_nonneg : 0 ≤ t.nsec
  nsec_lt : t.nsec < 1000000000
  total : t.total = now.total + 1000000 * millis.toNat

/-- Every deadline of a wait is the one asked for. -/
def DeadlinesDue {N : Nat} (long : LongWidth) (now : ClockReading)
    (meanwhile : CycleBufferQueue N → CycleBufferQueue N) (q : CycleBufferQueue N)
    (millis : UInt32) : Prop :=
  ∀ q' ds, q.waitFor long now meanwhile millis = .ok (q', ds) →
    ∀ d ∈ ds, Timespec.Due now millis d

/-- Either way the sum is exact up to multiples of 2 ^ 32. -/
theorem addUnsigned_eq (long : LongWidth) (n : Int) (u : UInt32) :
    ∃ k : Int, long.addUnsigned n u = n + u.toNat + 4294967296 * k := by
  cases long with
  | bits32 =>
    have hmod : (n + u.toNat).bmod (2 ^ 32) % 4294967296 = (n + u.toNat) % 4294967296 :=
      Int.bmod_emod
    rw [LongWidth.addUnsigned]
    refine ⟨((n + u.toNat).bmod (2 ^ 32) - (n + u.toNat)) / 4294967296, ?_⟩
    generalize (n + u.toNat).bmod (2 ^ 32) = b at hmod ⊢
    omega
  | bits64 =>
    have hmod : (n + u.toNat).bmod (2 ^ 64) % 18446744073709551616 =
        (n + u.toNat) % 18446744073709551616 := Int.bmod_emod
    rw [LongWidth.addUnsigned]
    refine ⟨((n + u.toNat).bmod (2 ^ 64) - (n + u.toNat)) / 4294967296, ?_⟩
    generalize (n + u.toNat).bmod (2 ^ 64) = b at hmod ⊢
    omega

/-- No deadline is right: within the second, the thousandfold of a number of milliseconds
is short of what it should be by less than a wrap. -/
theorem not_due (long : LongWidth) (now : ClockReading) {millis : UInt32} (h : 0 < millis) :
    ¬Timespec.Due now millis (condDeadline long now millis) := by
  intro hdue
  have hlt := hdue.nsec_lt
  have htotal := hdue.total
  have h0 := now.nsec_nonneg
  have hpos : 0 < millis.toNat := UInt32.lt_iff_toNat_lt.mp h
  simp only [condDeadline, Timespec.total] at hlt htotal
  have hsecond : millis.toNat < 1000 := by omega
  have hmul : (1000 * millis).toNat = 1000 * millis.toNat := by
    rw [UInt32.toNat_mul]
    exact Nat.mod_eq_of_lt (by change 1000 * millis.toNat < 4294967296; omega)
  obtain ⟨k, hk⟩ := addUnsigned_eq long now.nsec (1000 * millis)
  rw [hmul] at hk
  omega

theorem deadlinesDue_iff {N : Nat} (long : LongWidth) (now : ClockReading)
    (meanwhile : CycleBufferQueue N → CycleBufferQueue N) (q : CycleBufferQueue N)
    (millis : UInt32) :
    DeadlinesDue long now meanwhile q millis ↔
      millis = 0 ∨ q.findusable N q.ip (CycleBufferQueue.decr q.ip) ≠ none ∨ q.iusing ≠ none := by
  rw [DeadlinesDue, CycleBufferQueue.waitFor]
  by_cases hiusing : q.iusing ≠ none
  · rw [if_pos hiusing]
    exact iff_of_true (fun _ _ h => (nomatch h)) (.inr (.inr hiusing))
  · rw [if_neg hiusing]
    cases hfind : q.findusable N q.ip (CycleBufferQueue.decr q.ip) with
    | some j =>
      refine iff_of_true (fun _ _ h d hd => ?_) (.inr (.inl (Option.some_ne_none j)))
      cases h
      cases hd
    | none =>
      by_cases hmillis : 0 < millis
      · rw [if_pos hmillis]
        constructor
        · intro h
          have hdue := h _ _ rfl _ (List.mem_singleton.mpr rfl)
          exact absurd hdue (not_due long now hmillis)
        · intro h
          have hzero : millis = 0 := h.resolve_right fun h => h.elim (· rfl) hiusing
          rw [hzero] at hmillis
          exact absurd hmillis (by decide)
      · rw [if_neg hmillis]
        have hzero : millis = 0 := by
          rw [UInt32.lt_iff_toNat_lt] at hmillis
          refine UInt32.toNat_inj.mp ?_
          have : (0 : UInt32).toNat = 0 := rfl
          omega
        refine iff_of_true (fun _ _ h d hd => ?_) (.inl hzero)
        cases h
        cases hd

/-- The last millisecond of a second. -/
def lateReading : ClockReading := ⟨⟨7, 999999999⟩, by decide, by decide⟩

def emptyQueue : CycleBufferQueue 2 := .init Nat.two_pos fun _ => 8

/-- The deadline is no timespec, whatever the width of `long`. -/
theorem not_deadlinesDue :
    (∀ long, ¬DeadlinesDue long lateReading id emptyQueue 6) ∧
      ∀ long, condDeadline long lateReading 6 = ⟨7, 1000005999⟩ := by
  have hfind : emptyQueue.findusable 2 emptyQueue.ip (CycleBufferQueue.decr emptyQueue.ip) =
      none := by
    decide
  constructor
  · intro long h
    refine not_due long lateReading (by decide) (h emptyQueue _ ?_ _ (List.mem_singleton.mpr rfl))
    rw [CycleBufferQueue.waitFor, hfind]
    rfl
  · intro long
    cases long <;> decide

end CppSnippets.Epoll
