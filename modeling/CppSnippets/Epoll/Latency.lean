import CppSnippets.Lib.LastOf
import Mathlib.Algebra.Order.BigOperators.Group.Finset
import Mathlib.Algebra.Order.Ring.Int

/-!
# The latency window of the feedback

`ServerMain::RTT` takes the age of each feedback into a ring of sixteen slots and adjusts
the sum over them by what the slot changes. A feedback from the future leaves both alone.
-/
namespace CppSnippets.Epoll

open CppSnippets.Lib

/-! ## `rptime` -/

structure Timeval where
  sec : Int
  usec : Int

structure Rptime where
  sec : UInt16
  msec : UInt16

/-- Both parts go through `short` into their sixteen bits. -/
def Rptime.ofTimeval (tv : Timeval) : Rptime :=
  ⟨UInt16.ofInt (tv.sec.tmod 10000), UInt16.ofInt (tv.usec.tdiv 1000)⟩

/-- As an `int` it is at most 65600535. -/
def milliseconds (rt : Rptime) : UInt32 :=
  UInt32.ofNat (rt.sec.toNat * 1000 + rt.msec.toNat)

/-! ## `ServerMain` -/

/-- The members that `RTT` uses. -/
structure ServerMain where
  latencySum : Int
  latency : Fin 16 → Int
  latencyI : UInt32

/-- A result, when it is one that an `int` has. -/
def inInt (n : Int) : Option Int :=
  if -2147483648 ≤ n ∧ n < 2147483648 then some n else none

theorem inInt_of_range {n : Int} (hlow : -2147483648 ≤ n) (hhigh : n < 2147483648) :
    inInt n = some n :=
  if_pos ⟨hlow, hhigh⟩

theorem toInt_of_lt {x : UInt32} (h : x.toNat < 2147483648) : x.toInt32.toInt = x.toNat :=
  BitVec.toInt_eq_toNat_of_lt (by change 2 * x.toNat < 2 ^ 32; omega)

theorem and_eq_mod (i : UInt32) : (i &&& 0x0f).toNat = i.toNat % 16 := by
  rw [UInt32.toNat_and]
  exact Nat.and_two_pow_sub_one_eq_mod _ 4

/-- `latency_i & 0x0f` -/
def slot (i : UInt32) : Fin 16 :=
  ⟨(i &&& 0x0f).toNat, by rw [and_eq_mod]; exact Nat.mod_lt _ (by decide)⟩

namespace ServerMain

def rttReset : ServerMain := ⟨0, fun _ => 0, 0⟩

/-- `RTT`, where `uptime::elapsed` gives `now`; none is an overflow of an `int`. -/
def rtt (s : ServerMain) (ts : Rptime) (now : Timeval) : Option ServerMain := do
  let msec2 := milliseconds (.ofTimeval now)
  let msec1 := milliseconds ts
  if msec2 < msec1 then return s
  let i := slot s.latencyI
  let millis := s.latency i
  let latency := Function.update s.latency i (msec2 - msec1).toInt32.toInt
  let diff ← inInt (latency i - millis)
  let latencySum ← inInt (s.latencySum + diff)
  return ⟨latencySum, latency, s.latencyI + 1⟩

/-- A timestamp for each call of `RTT`, and what the clock gives in it. -/
def run (s : ServerMain) (fs : List (Rptime × Timeval)) : Option ServerMain :=
  fs.foldlM (fun s f => s.rtt f.1 f.2) s

end ServerMain

/-! ## The samples -/

/-- How old the feedback is, unless it is from the future. -/
def sample (f : Rptime × Timeval) : Option Int :=
  let msec2 := milliseconds (.ofTimeval f.2)
  let msec1 := milliseconds f.1
  if msec1 ≤ msec2 then some ((msec2.toNat : Int) - msec1.toNat) else none

/-- The sum and the slots after these samples. -/
structure Window (xs : List Int) (s : ServerMain) : Prop where
  index : s.latencyI.toNat = xs.length % 4294967296
  last : LastOf xs s.latency
  sum : s.latencySum = ∑ j, s.latency j

/-- The range of a sample. -/
def Fresh (x : Int) : Prop := 0 ≤ x ∧ x ≤ 65600535

theorem milliseconds_le (rt : Rptime) : (milliseconds rt).toNat ≤ 65600535 := by
  have hsec := rt.sec.toNat_lt
  have hmsec := rt.msec.toNat_lt
  have hmod := Nat.mod_le (rt.sec.toNat * 1000 + rt.msec.toNat) (2 ^ 32)
  rw [milliseconds, UInt32.toNat_ofNat']
  omega

theorem fresh_of_sample {f : Rptime × Timeval} {x : Int} (h : sample f = some x) : Fresh x := by
  have h2 := milliseconds_le (.ofTimeval f.2)
  simp only [sample, Option.ite_none_right_eq_some, Option.some.injEq,
    UInt32.le_iff_toNat_le] at h
  constructor <;> omega

/-- The sixteen slots together stay far below the bound of an `int`. -/
theorem sum_range {slots : Fin 16 → Int} (h : ∀ j, Fresh (slots j)) :
    0 ≤ ∑ j, slots j ∧ ∑ j, slots j ≤ 1049608560 := by
  constructor
  · exact Finset.sum_nonneg fun j _ => (h j).1
  · have hle := Finset.sum_le_card_nsmul Finset.univ slots 65600535 fun j _ => (h j).2
    rw [Finset.card_univ, Fintype.card_fin] at hle
    exact hle

section

variable {xs : List Int} {s : ServerMain} {f : Rptime × Timeval} {x : Int}

theorem Window.fresh (h : Window xs s) (hxs : ∀ y ∈ xs, Fresh y) (j : Fin 16) :
    Fresh (s.latency j) := by
  obtain hzero | hmem := h.last.eq_zero_or_mem j
  · rw [hzero]
    constructor <;> decide
  · exact hxs _ hmem

/-- The wrap of `latency_i` is a multiple of the sixteen slots. -/
theorem Window.slot_val (h : Window xs s) : (slot s.latencyI).val = xs.length % 16 := by
  change (s.latencyI &&& 0x0f).toNat = _
  rw [and_eq_mod, h.index]
  exact Nat.mod_mod_of_dvd _ (by decide)

theorem Window.put (h : Window xs s) {i : Fin 16} (hi : i.val = xs.length % 16) (x : Int) :
    Window (xs ++ [x])
      ⟨s.latencySum + (x - s.latency i), Function.update s.latency i x, s.latencyI + 1⟩ := by
  constructor
  · rw [UInt32.toNat_add, h.index, List.length_append, List.length_singleton]
    change (_ % 4294967296 + 1) % 4294967296 = _
    omega
  · exact h.last.put hi x
  · rw [sum_update, h.sum]

/-- Neither the difference nor the sum overflows. -/
theorem Window.put_range (h : Window xs s) (hxs : ∀ y ∈ xs, Fresh y) (hx : Fresh x)
    (i : Fin 16) :
    inInt (x - s.latency i) = some (x - s.latency i) ∧
      inInt (s.latencySum + (x - s.latency i)) = some (s.latencySum + (x - s.latency i)) := by
  have hnew : ∀ j, Fresh (Function.update s.latency i x j) := by
    intro j
    by_cases hji : j = i
    · rw [hji, Function.update_self]
      exact hx
    · rw [Function.update_of_ne hji]
      exact h.fresh hxs j
  have hrange := sum_range hnew
  rw [sum_update, ← h.sum] at hrange
  obtain ⟨hlow, hhigh⟩ := h.fresh hxs i
  obtain ⟨hxlow, hxhigh⟩ := hx
  constructor <;> apply inInt_of_range <;> omega

theorem sample_eq (h : sample f = some x) :
    ¬milliseconds (.ofTimeval f.2) < milliseconds f.1 ∧
      (milliseconds (.ofTimeval f.2) - milliseconds f.1).toInt32.toInt = x := by
  simp only [sample, Option.ite_none_right_eq_some, Option.some.injEq] at h
  obtain ⟨hle, rfl⟩ := h
  have hsub := UInt32.toNat_sub_of_le _ _ hle
  have h2 := milliseconds_le (.ofTimeval f.2)
  refine ⟨UInt32.not_lt.mpr hle, ?_⟩
  rw [UInt32.le_iff_toNat_le] at hle
  rw [toInt_of_lt (by omega)]
  omega

namespace ServerMain

theorem rtt_rejected (h : sample f = none) : s.rtt f.1 f.2 = some s := by
  have hlt : milliseconds (.ofTimeval f.2) < milliseconds f.1 := by
    simpa [sample] using h
  simp only [rtt, hlt, ↓reduceIte]
  rfl

theorem rtt_accepted (h : Window xs s) (hxs : ∀ y ∈ xs, Fresh y) (hx : sample f = some x) :
    ∃ s', s.rtt f.1 f.2 = some s' ∧ Window (xs ++ [x]) s' := by
  obtain ⟨hlt, hslot⟩ := sample_eq hx
  obtain ⟨hdiff, hadd⟩ := h.put_range hxs (fresh_of_sample hx) (slot s.latencyI)
  refine ⟨_, ?_, h.put h.slot_val x⟩
  simp only [rtt, hlt, ↓reduceIte, hslot, Function.update_self, hdiff, hadd,
    Option.bind_eq_bind, Option.bind_some]
  rfl

theorem run_window (h : Window xs s) (hxs : ∀ y ∈ xs, Fresh y) (fs : List (Rptime × Timeval)) :
    ∃ s', s.run fs = some s' ∧ Window (xs ++ fs.filterMap sample) s' := by
  induction fs generalizing xs s with
  | nil => exact ⟨s, rfl, by rwa [List.filterMap_nil, List.append_nil]⟩
  | cons f fs ih =>
    cases hx : sample f with
    | none =>
      obtain ⟨s', hrun, hwindow⟩ := ih h hxs
      refine ⟨s', ?_, ?_⟩
      · rw [run, List.foldlM_cons, rtt_rejected hx]
        exact hrun
      · rwa [List.filterMap_cons_none hx]
    | some x =>
      obtain ⟨s₁, hstep, h₁⟩ := rtt_accepted h hxs hx
      have hxs₁ : ∀ y ∈ xs ++ [x], Fresh y := by
        intro y hy
        obtain hy | hy := List.mem_append.mp hy
        · exact hxs y hy
        · rw [List.mem_singleton.mp hy]
          exact fresh_of_sample hx
      obtain ⟨s', hrun, hwindow⟩ := ih h₁ hxs₁
      refine ⟨s', ?_, ?_⟩
      · rw [run, List.foldlM_cons, hstep]
        exact hrun
      · rwa [List.filterMap_cons_some hx, List.append_cons]

theorem rttReset_window : Window [] rttReset := by
  constructor
  · rfl
  · exact .zero
  · exact Finset.sum_const_zero.symm

end ServerMain

end

/-- Since `RTT_reset` no sum overflows, the slots hold the last samples and the sum is
theirs, and what is rejected leaves the state as it is. -/
theorem latency_window (fs : List (Rptime × Timeval)) :
    ∃ s, ServerMain.rttReset.run fs = some s ∧ Window (fs.filterMap sample) s ∧
      ∀ f, sample f = none → s.rtt f.1 f.2 = some s := by
  obtain ⟨s, hrun, hwindow⟩ :=
    ServerMain.run_window ServerMain.rttReset_window (fun _ h => (nomatch h)) fs
  exact ⟨s, hrun, hwindow, fun _ hf => ServerMain.rtt_rejected hf⟩

end CppSnippets.Epoll
