import Mathlib.Algebra.Order.Ring.Int
import Mathlib.Data.List.Chain

/-!
# The cached broken-down time

`timestamp::uptime` adds the seconds since its last call to the cached time as long as
they stay within the minute, and otherwise means to break the time down again. It does so
with the time of the last call, which it only then replaces.
-/
namespace CppSnippets.Epoll

/-- `struct tm` -/
structure Tm where
  sec : Int
  min : Int
  hour : Int
  mday : Int
  mon : Int
  year : Int
  wday : Int
  yday : Int
  isdst : Int
  deriving DecidableEq

/-- `localtime_r` as a function of its time. There are no leap seconds, within a minute
only the seconds change, and sixty-four years make another year. -/
structure Localtime where
  tm : Int → Tm
  sec_range : ∀ t, 0 ≤ (tm t).sec ∧ (tm t).sec ≤ 59
  same_minute : ∀ t x, 0 ≤ x → (tm t).sec + x ≤ 59 →
    tm (t + x) = { tm t with sec := (tm t).sec + x }
  far : ∀ t u, t + 2000000000 ≤ u → (tm u).year ≠ (tm t).year

/-! ## `timestamp` -/

structure Timestamp where
  tm : Tm
  time : Int
  deriving DecidableEq

/-- The value of an integer as an `unsigned`. -/
def unsigned (n : Int) : Int := n % 2 ^ 32

/-- The value of an `unsigned` as an `int`. -/
def int (n : Int) : Int := n.bmod (2 ^ 32)

variable (lt : Localtime)

/-- `timestamp()`, where the clock reads `t`. -/
def Timestamp.make (t : Int) : Timestamp := ⟨lt.tm t, t⟩

/-- `uptime`, where the clock reads `ct`. -/
def Timestamp.uptime (s : Timestamp) (ct : Int) : Timestamp :=
  let x := unsigned (ct - s.time)
  let tm := if unsigned (x + s.tm.sec) > 59 then lt.tm s.time else s.tm
  ⟨{ tm with sec := int (tm.sec + x) }, ct⟩

/-- The states after each of some calls. -/
def Timestamp.run (s : Timestamp) (cts : List Int) : List Timestamp :=
  cts.scanl (Timestamp.uptime lt) s

/-- After each call the cached time is that of the current second. -/
def UpToDate (t : Int) (cts : List Int) : Prop :=
  ∀ s ∈ Timestamp.run lt (.make lt t) cts, s.tm = lt.tm s.time

/-- A reading in the minute of the one before it. -/
def SameMinute (p ct : Int) : Prop := (lt.tm p).sec + (ct - p) ≤ 59

variable {lt} {s : Timestamp} {p ct : Int}

/-- From an exact time both branches start at the broken-down time of the last call. -/
theorem uptime_of_exact (h : s.tm = lt.tm s.time) :
    s.uptime lt ct =
      ⟨{ lt.tm s.time with sec := int ((lt.tm s.time).sec + unsigned (ct - s.time)) }, ct⟩ := by
  rw [Timestamp.uptime]
  dsimp only
  rw [h, ite_self]

/-- What the seconds become is exact below the bound of an `int`. -/
theorem int_unsigned {n d : Int} (h0 : 0 ≤ n + d) (h : n + d < 2 ^ 31) :
    int (n + unsigned d) = n + d := by
  have hwrap : int (n + unsigned d) = (n + d).bmod (2 ^ 32) := Int.add_emod_bmod d (2 ^ 32)
  rw [hwrap]
  exact Int.bmod_eq_of_le (by omega) (by omega)

theorem uptime_exact_iff (h : s.tm = lt.tm s.time) (hle : s.time ≤ ct) :
    (s.uptime lt ct).tm = lt.tm ct ↔ SameMinute lt s.time ct := by
  obtain ⟨h0, h59⟩ := lt.sec_range s.time
  have hct : ct = s.time + (ct - s.time) := by omega
  rw [uptime_of_exact h, SameMinute]
  dsimp only
  constructor
  · intro htm
    by_contra hlate
    by_cases hfar : s.time + 2000000000 ≤ ct
    · exact lt.far s.time ct hfar (congrArg Tm.year htm).symm
    · have hsec := congrArg Tm.sec htm
      dsimp only at hsec
      rw [int_unsigned (by omega) (by omega)] at hsec
      have := (lt.sec_range ct).2
      omega
  · intro hsame
    rw [int_unsigned (by omega) (by omega), hct, lt.same_minute _ _ (by omega) hsame, ← hct]

theorem mem_run (s : Timestamp) (cts : List Int) : s ∈ s.run lt cts := by
  cases cts with
  | nil => exact List.mem_singleton.mpr rfl
  | cons ct cts =>
    rw [Timestamp.run, List.scanl_cons]
    exact List.mem_cons_self

theorem run_exact_iff {cts : List Int} (h : s.tm = lt.tm s.time)
    (hle : (s.time :: cts).IsChain (· ≤ ·)) :
    (∀ u ∈ s.run lt cts, u.tm = lt.tm u.time) ↔ (s.time :: cts).IsChain (SameMinute lt) := by
  induction cts generalizing s with
  | nil =>
    refine iff_of_true (fun u hu => ?_) (List.isChain_singleton _)
    obtain rfl := List.mem_singleton.mp hu
    exact h
  | cons ct cts ih =>
    obtain ⟨hct, hrest⟩ := List.isChain_cons_cons.mp hle
    have hstep := uptime_exact_iff h hct
    have hrun : s.run lt (ct :: cts) = s :: (s.uptime lt ct).run lt cts := List.scanl_cons ..
    have hfirst : s.uptime lt ct ∈ (s.uptime lt ct).run lt cts := mem_run _ _
    rw [hrun, List.forall_mem_cons, and_iff_right h, List.isChain_cons_cons]
    constructor
    · intro hall
      have hexact : (s.uptime lt ct).tm = lt.tm ct := hall _ hfirst
      exact ⟨hstep.mp hexact, (ih hexact hrest).mp hall⟩
    · intro ⟨hsame, hchain⟩
      exact (ih (hstep.mpr hsame) hrest).mpr hchain

theorem upToDate_iff (lt : Localtime) (t : Int) (cts : List Int)
    (hle : (t :: cts).IsChain (· ≤ ·)) :
    UpToDate lt t cts ↔ (t :: cts).IsChain (SameMinute lt) := by
  have hstart : (Timestamp.make lt t).tm = lt.tm (Timestamp.make lt t).time := rfl
  exact run_exact_iff hstart hle

/-! ## A clock on universal time -/

/-- The day of the Gregorian calendar, in years that begin in March. -/
structure Civil where
  year : Int
  /-- From March on. -/
  month : Int
  mday : Int
  /-- The days since the first of March. -/
  day : Int

def civilOfDays (days : Int) : Civil :=
  let z := days + 719468
  let doe := z % 146097
  let yoe := (doe - doe / 1460 + doe / 36524 - doe / 146096) / 365
  let doy := doe - (365 * yoe + yoe / 4 - yoe / 100)
  let mp := (5 * doy + 2) / 153
  ⟨yoe + 400 * (z / 146097), mp, doy - (153 * mp + 2) / 5 + 1, doy⟩

/-- `gmtime`, of the minute and the second in it. -/
def gmtime (minute sec : Int) : Tm :=
  let days := minute / 1440
  let c := civilOfDays days
  let leap := if c.year % 4 = 0 ∧ (c.year % 100 ≠ 0 ∨ c.year % 400 = 0) then 1 else 0
  let march := decide (c.month < 10)
  { sec
    min := minute % 60
    hour := minute / 60 % 24
    mday := c.mday
    mon := if march then c.month + 2 else c.month - 10
    year := if march then c.year - 1900 else c.year - 1899
    wday := (days + 4) % 7
    yday := if march then c.day + 59 + leap else c.day - 306
    isdst := 0 }

/-- Four hundred years have 146097 days, and the year of a day is not far from its share. -/
theorem civil_year (days : Int) :
    146097 * (civilOfDays days).year ≤ 400 * (days + 719468) + 300000 ∧
      400 * (days + 719468) ≤ 146097 * (civilOfDays days).year + 300000 := by
  simp only [civilOfDays]
  omega

theorem gmtime_far (t u : Int) (h : t + 2000000000 ≤ u) :
    (gmtime (u / 60) (u % 60)).year ≠ (gmtime (t / 60) (t % 60)).year := by
  obtain ⟨ht, -⟩ := civil_year (t / 60 / 1440)
  obtain ⟨-, hu⟩ := civil_year (u / 60 / 1440)
  simp only [gmtime]
  split <;> split <;> omega

theorem gmtime_same_minute (t x : Int) (h0 : 0 ≤ x) (h : t % 60 + x ≤ 59) :
    gmtime ((t + x) / 60) ((t + x) % 60) =
      { gmtime (t / 60) (t % 60) with sec := t % 60 + x } := by
  have hminute : (t + x) / 60 = t / 60 := by omega
  have hsec : (t + x) % 60 = t % 60 + x := by omega
  rw [hminute, hsec]
  rfl

theorem sec_of_minute (t : Int) : 0 ≤ t % 60 ∧ t % 60 ≤ 59 := by
  omega

def utc : Localtime where
  tm t := gmtime (t / 60) (t % 60)
  sec_range := sec_of_minute
  same_minute := gmtime_same_minute
  far := gmtime_far

theorem upToDate_first : UpToDate utc 0 [10, 59] ↔ [0, 10, 59].IsChain (SameMinute utc) :=
  upToDate_iff utc 0 [10, 59] (by decide)

/-- The first second of the next minute is the sixtieth of the one before. -/
theorem not_upToDate :
    ¬UpToDate utc 0 [60] ∧
      ((Timestamp.make utc 0).uptime utc 60).tm = ⟨60, 0, 0, 1, 0, 70, 4, 0, 0⟩ ∧
      utc.tm 60 = ⟨0, 1, 0, 1, 0, 70, 4, 0, 0⟩ := by
  have hcached : ((Timestamp.make utc 0).uptime utc 60).tm = ⟨60, 0, 0, 1, 0, 70, 4, 0, 0⟩ := by
    decide
  have hexact : utc.tm 60 = ⟨0, 1, 0, 1, 0, 70, 4, 0, 0⟩ := by
    decide
  refine ⟨fun h => ?_, hcached, hexact⟩
  have hlast : (Timestamp.make utc 0).uptime utc 60 ∈ (Timestamp.make utc 0).run utc [60] :=
    List.mem_cons_of_mem _ (List.mem_singleton.mpr rfl)
  have htm : ((Timestamp.make utc 0).uptime utc 60).tm = utc.tm 60 := h _ hlast
  rw [hcached, hexact] at htm
  exact absurd htm (by decide)

end CppSnippets.Epoll
