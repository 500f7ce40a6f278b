import Mathlib.Algebra.Order.Ring.Int
import Mathlib.Tactic.Linarith

/-!
# The pacing of udp-io2

`Main` holds four short numbers: how long it waits, how large a message is, and how many
messages are left of either phase. What is assigned to a short is kept beside what the
short then holds, and a division by zero or a product that is no `int` ends the run.
-/
namespace CppSnippets.UdpIo2

inductive Fault where
  /-- A division by zero. -/
  | division
  /-- A result that is no `int`, which is undefined. -/
  | overflow
  deriving DecidableEq

/-! ## The code -/

def int (x : Int) : Except Fault Int :=
  if -2 ^ 31 ≤ x ∧ x < 2 ^ 31 then .ok x else .error .overflow

def div (a b : Int) : Except Fault Int := if b = 0 then .error .division else .ok (a.tdiv b)

def short (x : Int) : Int := x.bmod (2 ^ 16)

def unsignedShort (x : Int) : Int := x % 2 ^ 16

def unsigned (x : Int) : Int := x % 2 ^ 32

/-- An assignment to a short: the value, and what the field then holds. -/
structure Store where
  value : Int
  field : Int
  deriving DecidableEq

structure Main where
  npf : Int
  nif : Int
  wmills : Int
  bytes1 : Int
  deriving DecidableEq

/-- `Main(int sfd, int Nps, int Kps)`. -/
def Main.make (Nps Kps : Int) : Except Fault (Main × List Store) := do
  let wmills ← div 1000 Nps
  let bytes ← int (Kps * 1024)
  let bytes ← div bytes Nps
  let bytes1 := min (max bytes (1024 * 4)) (1024 * 56)
  return (⟨short 0, short 0, short wmills, unsignedShort bytes1⟩,
    [⟨wmills, short wmills⟩, ⟨bytes1, unsignedShort bytes1⟩])

/-- What `rand()` returns where one call of `do_send` asks for it. -/
structure Draws where
  frames : Nat
  packets : Nat
  length : Nat

/-- The beginning of `do_send`: both phases start again when both are over. -/
def Main.refill (m : Main) (d : Draws) : Except Fault (Main × List Store) :=
  if m.nif ≤ 0 ∧ m.npf ≤ 0 then do
    let nif : Int := 3 + d.frames % 3
    let rate ← div 1000 m.wmills
    let product ← int (rate * (100 + d.packets % 200))
    let npf ← div product 100
    return ({ m with nif := short nif, npf := short npf }, [⟨nif, short nif⟩, ⟨npf, short npf⟩])
  else return (m, [])

/-- Which phase it is, and the length that follows. -/
def Main.phase (m : Main) (d : Draws) : Main × List Store × Int :=
  if m.nif > 0 then
    let nif := m.nif - 1
    ({ m with nif := short nif }, [⟨nif, short nif⟩],
      if short nif = 0 then unsigned (m.bytes1 + (d.length % 1000 - 1500)) else m.bytes1)
  else if m.npf > 0 then
    let npf := m.npf - 1
    ({ m with npf := short npf }, [⟨npf, short npf⟩],
      unsigned (m.bytes1 + (d.length % 3000 - 1500)))
  else (m, [], m.bytes1)

def clamp (length : Int) : Int :=
  if length > 1024 * 56 then unsigned (min (56 * 1024) (length.bmod (2 ^ 32))) else length

/-- `do_send`: what it stores, and the length of the message that it sends. -/
def Main.doSend (m : Main) (d : Draws) : Except Fault (Main × List Store × Int) := do
  let (m, refilled) ← m.refill d
  let (m, counted, length) := m.phase d
  return (m, refilled ++ counted, clamp length)

def Main.run (m : Main) : List Draws → Except Fault (List Store × List Int)
  | [] => return ([], [])
  | d :: ds => do
    let (m, stores, length) ← m.doSend d
    let (more, lengths) ← m.run ds
    return (stores ++ more, length :: lengths)

/-! ## What is claimed of a run -/

/-- What a user can ask for. -/
structure Settings where
  Nps : Int
  Kps : Int
  Nps_pos : 0 < Nps ∧ Nps < 2 ^ 31
  Kps_pos : 0 < Kps ∧ Kps < 2 ^ 31

/-- The whole run: what is stored in shorts, and the lengths that are sent. -/
def Settings.run (s : Settings) (ds : List Draws) : Except Fault (List Store × List Int) := do
  let (m, stores) ← Main.make s.Nps s.Kps
  let (more, lengths) ← m.run ds
  return (stores ++ more, lengths)

def Store.Whole (s : Store) : Prop := s.field = s.value

def Admissible (length : Int) : Prop := 20 ≤ length ∧ length ≤ 56 * 1024

/-- A run without a fault that cuts no value and keeps the lengths within their bounds. -/
def Settings.Clean (s : Settings) (ds : List Draws) : Prop :=
  ∃ stores lengths, s.run ds = .ok (stores, lengths) ∧
    (∀ st ∈ stores, st.Whole) ∧ ∀ length ∈ lengths, Admissible length

/-! ## One step -/

variable {m : Main} {d : Draws}

theorem Store.Whole.of_eq {value field : Int} (h : field = value) : Store.Whole ⟨value, field⟩ := h

theorem short_eq {x : Int} (h : -32768 ≤ x ∧ x < 32768) : short x = x :=
  Int.bmod_eq_of_le (by omega) (by omega)

theorem int_eq {x : Int} (h : -2 ^ 31 ≤ x ∧ x < 2 ^ 31) : int x = .ok x := if_pos h

theorem div_pos {a b : Int} (ha : 0 ≤ a) (hb : 0 < b) : div a b = .ok (a / b) := by
  rw [div, if_neg hb.ne', Int.tdiv_eq_ediv_of_nonneg ha]

/-- The shorts of a sender that waits at all. -/
structure Main.Inv (m : Main) : Prop where
  npf : 0 ≤ m.npf ∧ m.npf ≤ 2990
  nif : 0 ≤ m.nif ∧ m.nif ≤ 5
  wmills : 1 ≤ m.wmills ∧ m.wmills ≤ 1000
  bytes1 : 1024 * 4 ≤ m.bytes1 ∧ m.bytes1 ≤ 1024 * 56

theorem Main.Inv.counters (h : m.Inv) {npf nif : Int} (hnpf : 0 ≤ npf ∧ npf ≤ 2990)
    (hnif : 0 ≤ nif ∧ nif ≤ 5) : Main.Inv { m with npf := npf, nif := nif } :=
  ⟨hnpf, hnif, h.wmills, h.bytes1⟩

theorem rate_bounds {w : Int} (h : 1 ≤ w ∧ w ≤ 1000) : 1 ≤ 1000 / w ∧ 1000 / w ≤ 1000 :=
  ⟨Int.le_ediv_of_mul_le (by omega) (by omega), Int.ediv_le_self w (by omega)⟩

theorem product_bounds {q p : Int} (hq : 1 ≤ q ∧ q ≤ 1000) (hp : 100 ≤ p ∧ p < 300) :
    0 ≤ q * p ∧ q * p ≤ 299000 := by
  have hlow : 0 ≤ q * p := Int.mul_nonneg (by omega) (by omega)
  have hhigh : q * p ≤ 1000 * 299 := Int.mul_le_mul hq.2 (by omega) (by omega) (by omega)
  exact ⟨hlow, by omega⟩

theorem refill_over (h : m.Inv) (hover : m.nif ≤ 0 ∧ m.npf ≤ 0) :
    m.refill d = .ok
      ({ m with
          nif := short (3 + d.frames % 3)
          npf := short (1000 / m.wmills * (100 + d.packets % 200) / 100) },
        [⟨3 + d.frames % 3, short (3 + d.frames % 3)⟩,
          ⟨1000 / m.wmills * (100 + d.packets % 200) / 100,
            short (1000 / m.wmills * (100 + d.packets % 200) / 100)⟩]) := by
  have hwait := h.wmills
  have hrate : div 1000 m.wmills = .ok (1000 / m.wmills) := div_pos (by omega) (by omega)
  have hbounds := product_bounds (p := 100 + d.packets % 200) (rate_bounds h.wmills) (by omega)
  have hproduct := @int_eq (1000 / m.wmills * (100 + d.packets % 200)) (by omega)
  have hnpf := @div_pos (1000 / m.wmills * (100 + d.packets % 200)) 100 hbounds.1 (by decide)
  rw [Main.refill, if_pos hover, hrate]
  simp only [bind, Except.bind, hproduct, hnpf]
  rfl

theorem refill_ok (h : m.Inv) (d : Draws) :
    ∃ m' stores, m.refill d = .ok (m', stores) ∧ m'.Inv ∧ ∀ st ∈ stores, st.Whole := by
  by_cases hover : m.nif ≤ 0 ∧ m.npf ≤ 0
  · have hbounds := product_bounds (p := 100 + d.packets % 200) (rate_bounds h.wmills) (by omega)
    have hnif : short (3 + d.frames % 3) = 3 + d.frames % 3 := short_eq (by omega)
    have hnpf : short (1000 / m.wmills * (100 + d.packets % 200) / 100) =
        1000 / m.wmills * (100 + d.packets % 200) / 100 := short_eq (by omega)
    have hnif' : 0 ≤ short (3 + d.frames % 3) ∧ short (3 + d.frames % 3) ≤ 5 := by omega
    have hnpf' : 0 ≤ short (1000 / m.wmills * (100 + d.packets % 200) / 100) ∧
        short (1000 / m.wmills * (100 + d.packets % 200) / 100) ≤ 2990 := by omega
    refine ⟨_, _, refill_over h hover, h.counters hnpf' hnif', ?_⟩
    rw [List.forall_mem_cons, List.forall_mem_singleton]
    exact ⟨.of_eq hnif, .of_eq hnpf⟩
  · exact ⟨m, [], if_neg hover, h, fun st hst => (by cases hst)⟩

theorem phase_frame (h : m.Inv) (hnif : m.nif > 0) (d : Draws) :
    m.phase d = ({ m with nif := m.nif - 1 }, [⟨m.nif - 1, m.nif - 1⟩],
      if m.nif - 1 = 0 then unsigned (m.bytes1 + (d.length % 1000 - 1500)) else m.bytes1) := by
  have hwhole : short (m.nif - 1) = m.nif - 1 := short_eq (by have := h.nif; omega)
  simp only [Main.phase, if_pos hnif, hwhole]

theorem phase_packet (h : m.Inv) (hnif : ¬m.nif > 0) (hnpf : m.npf > 0) (d : Draws) :
    m.phase d = ({ m with npf := m.npf - 1 }, [⟨m.npf - 1, m.npf - 1⟩],
      unsigned (m.bytes1 + (d.length % 3000 - 1500))) := by
  have hwhole : short (m.npf - 1) = m.npf - 1 := short_eq (by have := h.npf; omega)
  simp only [Main.phase, if_neg hnif, if_pos hnpf, hwhole]

/-- A phase counts one message, whose length is at most 1500 bytes off. -/
theorem phase_ok (h : m.Inv) (d : Draws) :
    (m.phase d).1.Inv ∧ (∀ st ∈ (m.phase d).2.1, st.Whole) ∧
      20 ≤ (m.phase d).2.2 ∧ (m.phase d).2.2 < 2 ^ 31 := by
  have hbytes := h.bytes1
  by_cases hnif : m.nif > 0
  · have hleft : 0 ≤ m.nif - 1 ∧ m.nif - 1 ≤ 5 := by have := h.nif; omega
    rw [phase_frame h hnif]
    refine ⟨h.counters h.npf hleft, List.forall_mem_singleton.mpr rfl, ?_⟩
    dsimp only
    rw [unsigned]
    split_ifs <;> omega
  by_cases hnpf : m.npf > 0
  · have hleft : 0 ≤ m.npf - 1 ∧ m.npf - 1 ≤ 2990 := by have := h.npf; omega
    rw [phase_packet h hnif hnpf]
    refine ⟨h.counters hleft h.nif, List.forall_mem_singleton.mpr rfl, ?_⟩
    dsimp only
    rw [unsigned]
    omega
  · have hlength : 20 ≤ m.bytes1 ∧ m.bytes1 < 2 ^ 31 := by omega
    rw [Main.phase, if_neg hnif, if_neg hnpf]
    exact ⟨h, fun st hst => (by cases hst), hlength⟩

theorem clamp_admissible {length : Int} (h : 20 ≤ length ∧ length < 2 ^ 31) :
    Admissible (clamp length) := by
  rw [clamp]
  split_ifs with hlong
  · have hint : length.bmod (2 ^ 32) = length := Int.bmod_eq_of_le (by omega) (by omega)
    rw [hint, unsigned]
    constructor <;> omega
  · exact ⟨h.1, by omega⟩

theorem doSend_ok (h : m.Inv) (d : Draws) :
    ∃ m' stores length, m.doSend d = .ok (m', stores, length) ∧ m'.Inv ∧
      (∀ st ∈ stores, st.Whole) ∧ Admissible length := by
  obtain ⟨m₁, refilled, hrefill, hinv, hrefilled⟩ := refill_ok h d
  obtain ⟨hinv', hcounted, hlength⟩ := phase_ok hinv d
  refine ⟨_, refilled ++ (m₁.phase d).2.1, _, ?_, hinv', ?_, clamp_admissible hlength⟩
  · rw [Main.doSend, hrefill]
    rfl
  · exact List.forall_mem_append.mpr ⟨hrefilled, hcounted⟩

/-! ## Whole runs -/

theorem run_ok (h : m.Inv) (ds : List Draws) :
    ∃ stores lengths, m.run ds = .ok (stores, lengths) ∧ (∀ st ∈ stores, st.Whole) ∧
      ∀ length ∈ lengths, Admissible length := by
  induction ds generalizing m with
  | nil => exact ⟨[], [], rfl, fun st hst => (by cases hst), fun l hl => (by cases hl)⟩
  | cons d ds ih =>
    obtain ⟨m', stores, length, hstep, hinv, hstores, hlength⟩ := doSend_ok h d
    obtain ⟨more, lengths, hrun, hmore, hlengths⟩ := ih hinv
    refine ⟨stores ++ more, length :: lengths, ?_, List.forall_mem_append.mpr ⟨hstores, hmore⟩,
      List.forall_mem_cons.mpr ⟨hlength, hlengths⟩⟩
    rw [Main.run, hstep]
    simp only [bind, Except.bind, hrun]
    rfl

/-- Without a wait the first `do_send` divides by zero. -/
theorem run_division (hover : m.nif ≤ 0 ∧ m.npf ≤ 0) (hzero : m.wmills = 0) (d : Draws)
    (ds : List Draws) : m.run (d :: ds) = .error .division := by
  have hrefill : m.refill d = .error .division := by
    rw [Main.refill, if_pos hover, hzero]
    rfl
  rw [Main.run, Main.doSend, hrefill]
  rfl

variable {s : Settings}

theorem make_overflow (h : ¬s.Kps * 1024 < 2 ^ 31) : Main.make s.Nps s.Kps = .error .overflow := by
  have hint : int (s.Kps * 1024) = .error .overflow := if_neg (fun hin => h hin.2)
  rw [Main.make, div_pos (by decide) s.Nps_pos.1]
  simp only [bind, Except.bind, hint]

/-- The numbers that the constructor stores. -/
theorem make_ok (h : s.Kps * 1024 < 2 ^ 31) :
    ∃ m stores, Main.make s.Nps s.Kps = .ok (m, stores) ∧ m.npf = 0 ∧ m.nif = 0 ∧
      m.wmills = 1000 / s.Nps ∧ (1024 * 4 ≤ m.bytes1 ∧ m.bytes1 ≤ 1024 * 56) ∧
      ∀ st ∈ stores, st.Whole := by
  have hNps := s.Nps_pos
  have hKps := s.Kps_pos
  have hbytes : unsignedShort (min (max (s.Kps * 1024 / s.Nps) (1024 * 4)) (1024 * 56)) =
      min (max (s.Kps * 1024 / s.Nps) (1024 * 4)) (1024 * 56) := by
    rw [unsignedShort]
    omega
  have hlow : 0 ≤ 1000 / s.Nps := Int.ediv_nonneg (by decide) hNps.1.le
  have hhigh : 1000 / s.Nps ≤ 1000 := Int.ediv_le_self s.Nps (by decide)
  have hwmills : short (1000 / s.Nps) = 1000 / s.Nps := short_eq (by omega)
  have hint : int (s.Kps * 1024) = .ok (s.Kps * 1024) := int_eq (by omega)
  have hdiv : div (s.Kps * 1024) s.Nps = .ok (s.Kps * 1024 / s.Nps) := div_pos (by omega) hNps.1
  have hmake : Main.make s.Nps s.Kps = .ok
      (⟨0, 0, 1000 / s.Nps, min (max (s.Kps * 1024 / s.Nps) (1024 * 4)) (1024 * 56)⟩,
        [⟨1000 / s.Nps, 1000 / s.Nps⟩,
          ⟨min (max (s.Kps * 1024 / s.Nps) (1024 * 4)) (1024 * 56),
            min (max (s.Kps * 1024 / s.Nps) (1024 * 4)) (1024 * 56)⟩]) := by
    rw [Main.make, div_pos (by decide) hNps.1]
    simp only [bind, Except.bind, hint, hdiv, hwmills, hbytes]
    rfl
  refine ⟨_, _, hmake, rfl, rfl, rfl, ⟨?_, ?_⟩, ?_⟩
  · dsimp only
    omega
  · dsimp only
    omega
  · exact List.forall_mem_cons.mpr ⟨rfl, List.forall_mem_singleton.mpr rfl⟩

/-- A run is clean if and only if the bytes a second are an `int`, and some time is waited
between two messages as soon as there is one. -/
theorem clean_iff (s : Settings) (ds : List Draws) :
    s.Clean ds ↔ s.Kps * 1024 < 2 ^ 31 ∧ (s.Nps ≤ 1000 ∨ ds = []) := by
  have hNps := s.Nps_pos
  by_cases hK : s.Kps * 1024 < 2 ^ 31
  · obtain ⟨m, stores, hmake, hnpf, hnif, hwmills, hbytes, hstores⟩ := make_ok hK
    have hrun : s.run ds = (m.run ds).bind fun r => .ok (stores ++ r.1, r.2) := by
      rw [Settings.run, hmake]
      rfl
    by_cases hN : s.Nps ≤ 1000
    · have hpos : 1 ≤ 1000 / s.Nps := Int.le_ediv_of_mul_le hNps.1 (by omega)
      have hself : 1000 / s.Nps ≤ 1000 := Int.ediv_le_self s.Nps (by decide)
      have hinv : m.Inv := ⟨by omega, by omega, by omega, hbytes⟩
      obtain ⟨more, lengths, hmore, hwhole, hlengths⟩ := run_ok hinv ds
      refine iff_of_true ⟨stores ++ more, lengths, ?_,
        List.forall_mem_append.mpr ⟨hstores, hwhole⟩, hlengths⟩ ⟨hK, .inl hN⟩
      rw [hrun, hmore]
      rfl
    cases ds with
    | nil =>
      refine iff_of_true ⟨stores, [], ?_, hstores, fun l hl => (by cases hl)⟩ ⟨hK, .inr rfl⟩
      rw [hrun, Main.run]
      exact congrArg (fun more => Except.ok (more, ([] : List Int))) (List.append_nil stores)
    | cons d ds =>
      have hzero : m.wmills = 0 := by
        rw [hwmills]
        exact Int.ediv_eq_zero_of_lt (by decide) (by omega)
      refine iff_of_false ?_ (by rintro ⟨-, h | h⟩ <;> [exact hN h; cases h])
      rintro ⟨all, lengths, hclean, -⟩
      rw [hrun, run_division (by omega) hzero] at hclean
      cases hclean
  · refine iff_of_false ?_ (fun h => hK h.1)
    rintro ⟨all, lengths, hclean, -⟩
    rw [Settings.run, make_overflow hK] at hclean
    cases hclean

theorem fast_pos : 0 < (1001 : Int) ∧ (1001 : Int) < 2 ^ 31 := by decide

theorem small_pos : 0 < (1 : Int) ∧ (1 : Int) < 2 ^ 31 := by decide

/-- 1001 packets and one kilobyte a second. -/
def fast : Settings := ⟨1001, 1, fast_pos, small_pos⟩

theorem not_clean : ¬∀ s : Settings, ∀ ds, s.Clean ds := by
  intro h
  obtain ⟨stores, lengths, hrun, -⟩ := h fast [⟨0, 0, 0⟩]
  have hdivision : fast.run [⟨0, 0, 0⟩] = .error .division := by decide
  rw [hdivision] at hrun
  cases hrun

end CppSnippets.UdpIo2
