import Mathlib.Data.List.Chain
import Mathlib.Data.List.Induction
import CppSnippets.Rtp.Statis

/-!
# Expected and received

The counters follow an account in natural numbers: the first sequence number, the
highest one with the turns of the 16-bit number, and how many packets were counted.
The number of turns begins with 1, since 0 stands for no packet, and nothing takes
this away again, so 65536 packets more are expected than there are. So a report is
never right; and the assertion fails only when that many packets were counted twice.
-/
namespace CppSnippets.Rtp.Accounting

open CppSnippets.Lib RtpStatisInfo

/-- The account of a stream of packets. -/
structure Tally where
  first : Nat
  /-- The highest sequence number, with 65536 for every turn. -/
  high : Nat
  count : Nat
  deriving DecidableEq

/-- Below the highest number a packet is late, or the number has turned. After 65535
turns the counter of turns is back at 0, and the next packet begins a new account. -/
def Tally.next : Option Tally → UInt16 → Option Tally
  | none, seq => some ⟨seq.toNat, seq.toNat, 1⟩
  | some t, seq =>
    if t.high / 65536 = 65535 then some ⟨seq.toNat, seq.toNat, 1⟩
    else if seq.toNat < t.high % 65536 then
      if t.high % 65536 - seq.toNat < 0x0fff then some t
      else some ⟨t.first, (t.high / 65536 + 1) * 65536 + seq.toNat, t.count + 1⟩
    else some ⟨t.first, t.high / 65536 * 65536 + seq.toNat, t.count + 1⟩

def tally (seqs : List UInt16) : Option Tally := seqs.foldl Tally.next none

/-- How many packets there are from the first to the highest number. -/
def Tally.span (t : Tally) : Nat := t.high + 1 - t.first

/-- At most 65536 packets were counted beyond one for each number, in 32-bit words. -/
def Bounded (seqs : List UInt16) : Prop :=
  ∀ t ∈ tally seqs, t.count % 2 ^ 32 ≤ (t.span + 65536) % 2 ^ 32

/-- In order and without loss. -/
def InOrder (seqs : List UInt16) : Prop := seqs.IsChain fun a b => b = a + 1

/-- What a report should be: it does not fail, and with packets in order it has
nothing lost, and all that were received expected. -/
structure Meets (seqs : List UInt16) (o : Outcome) : Prop where
  asserted : o ≠ .assertion
  accurate : InOrder seqs → seqs ≠ [] → ∃ r, o = .sent r ∧ r.lost = 0 ∧ r.rb.cumulative = 0 ∧
    r.rb.fraction = 0 ∧ r.expected.toNat = seqs.length

/-! ## The counters and the account -/

/-- The account holds together. -/
structure Tally.Valid (t : Tally) : Prop where
  first_lt : t.first < 65536
  first_le : t.first ≤ t.high
  high_lt : t.high < 2 ^ 32
  count_pos : 0 < t.count

/-- The counters are the account in words; the turns are counted from 1. -/
structure Represents (s : RtpStatisInfo) (t : Tally) : Prop where
  valid : t.Valid
  base : s.baseSeq = .ofNat t.first
  max : s.maxSeq = .ofNat t.high
  cycles : s.cycles = .ofNat (t.high / 65536 + 1)
  received : s.received = .ofNat t.count

/-- The counters before and after the first packet. -/
def Counts (s : RtpStatisInfo) : Option Tally → Prop
  | none => s.cycles = 0 ∧ s.received = 0
  | some t => Represents s t

theorem ofNat_toNat_add (q : Nat) (seq : UInt16) : UInt16.ofNat (q * 65536 + seq.toNat) = seq := by
  have hseq := seq.toNat_lt
  apply UInt16.toNat_inj.mp
  rw [UInt16.toNat_ofNat']
  omega

theorem counts_first (s : RtpStatisInfo) (seq : UInt16) :
    Represents { s with cycles := 1, baseSeq := seq.toUInt32, maxSeq := seq, received := 1 }
      ⟨seq.toNat, seq.toNat, 1⟩ := by
  have hseq := seq.toNat_lt
  constructor
  · exact ⟨hseq, Nat.le_refl _, Nat.lt_trans hseq (by decide), Nat.one_pos⟩
  · show seq.toUInt32 = .ofNat seq.toNat
    apply UInt32.toNat_inj.mp
    rw [UInt32.toNat_ofNat', Nat.mod_eq_of_lt (by omega)]
    rfl
  · exact UInt16.ofNat_toNat.symm
  · show (1 : UInt16) = .ofNat (seq.toNat / 65536 + 1)
    rw [Nat.div_eq_of_lt hseq]
    rfl
  · rfl

/-- The end of `statis` leaves the counters. -/
theorem Represents.arrive {s : RtpStatisInfo} {t : Tally} (h : Represents s t)
    (timestamp now : UInt32) : Represents (s.arrive timestamp now) t :=
  ⟨h.valid, h.base, h.max, h.cycles, h.received⟩

theorem Represents.cycles_zero {s : RtpStatisInfo} {t : Tally} (h : Represents s t) :
    s.cycles = 0 ↔ t.high / 65536 = 65535 := by
  have hhigh := h.valid.high_lt
  rw [h.cycles, ← UInt16.toNat_inj, UInt16.toNat_ofNat']
  show (t.high / 65536 + 1) % 65536 = 0 ↔ _
  omega

theorem Represents.max_toNat {s : RtpStatisInfo} {t : Tally} (h : Represents s t) :
    s.maxSeq.toNat = t.high % 65536 := by
  rw [h.max, UInt16.toNat_ofNat']

theorem counts_statis {s : RtpStatisInfo} {o : Option Tally} (h : Counts s o) (seq : UInt16)
    (timestamp now : UInt32) : Counts (s.statis seq timestamp now) (Tally.next o seq) := by
  have hseq := seq.toNat_lt
  rw [statis]
  cases o with
  | none =>
    rw [if_pos h.1]
    exact (counts_first s seq).arrive timestamp now
  | some t =>
    have hrep : Represents s t := h
    rw [Tally.next]
    by_cases hturns : t.high / 65536 = 65535
    · rw [if_pos (hrep.cycles_zero.mpr hturns), if_pos hturns]
      exact (counts_first s seq).arrive timestamp now
    · rw [if_neg fun h0 => hturns (hrep.cycles_zero.mp h0), if_neg hturns]
      have hlt : seq < s.maxSeq ↔ seq.toNat < t.high % 65536 := by
        rw [UInt16.lt_iff_toNat_lt, hrep.max_toNat]
      obtain ⟨hfirst, hle, hhigh, hpos⟩ := hrep.valid
      have hcount : s.received + 1 = .ofNat (t.count + 1) := by
        rw [hrep.received, UInt32.ofNat_add]
        rfl
      by_cases hlate : seq.toNat < t.high % 65536
      · rw [if_pos (hlt.mpr hlate), if_pos hlate, hrep.max_toNat]
        split
        · exact hrep
        · apply Represents.arrive
          constructor
          · exact ⟨hfirst, by dsimp only; omega, by dsimp only; omega, Nat.succ_pos _⟩
          · exact hrep.base
          · exact (ofNat_toNat_add _ seq).symm
          · show s.cycles + 1 = .ofNat (((t.high / 65536 + 1) * 65536 + seq.toNat) / 65536 + 1)
            rw [show ((t.high / 65536 + 1) * 65536 + seq.toNat) / 65536 + 1 = t.high / 65536 + 1 + 1 by
              omega, UInt16.ofNat_add, hrep.cycles]
            rfl
          · exact hcount
      · rw [if_neg fun h' => hlate (hlt.mp h'), if_neg hlate]
        apply Represents.arrive
        constructor
        · exact ⟨hfirst, by dsimp only; omega, by dsimp only; omega, Nat.succ_pos _⟩
        · exact hrep.base
        · exact (ofNat_toNat_add _ seq).symm
        · show s.cycles = .ofNat ((t.high / 65536 * 65536 + seq.toNat) / 65536 + 1)
          rw [show (t.high / 65536 * 65536 + seq.toNat) / 65536 = t.high / 65536 by omega]
          exact hrep.cycles
        · exact hcount

theorem Represents.extendedMax {s : RtpStatisInfo} {t : Tally} (h : Represents s t) :
    s.extendedMax = .ofNat (t.high + 65536) := by
  have hhigh := h.valid.high_lt
  have hcycles : s.cycles.toNat = (t.high / 65536 + 1) % 65536 := by
    rw [h.cycles, UInt16.toNat_ofNat']
  apply UInt32.toNat_inj.mp
  rw [RtpStatisInfo.extendedMax, UInt32.toNat_or, UInt32.toNat_shiftLeft, UInt16.toNat_toUInt32,
    UInt16.toNat_toUInt32, UInt32.toNat_ofNat', h.max_toNat, hcycles]
  show ((t.high / 65536 + 1) % 65536) <<< 16 % 2 ^ 32 ||| t.high % 65536 = _
  have hlow : t.high % 65536 < 2 ^ 16 := Nat.mod_lt _ (by decide)
  have hturns : ((t.high / 65536 + 1) % 65536) <<< 16 % 2 ^ 32 = ((t.high / 65536 + 1) % 65536) <<< 16 := by
    rw [Nat.shiftLeft_eq]
    omega
  rw [hturns, ← Nat.shiftLeft_add_eq_or_of_lt hlow, Nat.shiftLeft_eq]
  omega

/-- The turns that are counted from 1 make 65536 packets more. -/
theorem Represents.expected {s : RtpStatisInfo} {t : Tally} (h : Represents s t) :
    s.expected = .ofNat (t.span + 65536) := by
  have hle := h.valid.first_le
  rw [RtpStatisInfo.expected, h.extendedMax, h.base, ← UInt32.ofNat_sub (by omega), Tally.span,
    show t.high + 1 - t.first + 65536 = t.high + 65536 - t.first + 1 by omega, UInt32.ofNat_add]
  rfl

/-! ## Packets in order -/

theorem tally_append (seqs : List UInt16) (seq : UInt16) :
    tally (seqs ++ [seq]) = Tally.next (tally seqs) seq := by
  rw [tally, List.foldl_append]
  rfl

theorem tally_valid {seqs : List UInt16} {t : Tally} (h : tally seqs = some t) : t.Valid := by
  have hcounts : ∀ seqs : List UInt16, Counts (seqs.foldl (fun s seq => s.statis seq 0 0) init)
      (tally seqs) := by
    intro seqs
    induction seqs using List.reverseRecOn with
    | nil => exact ⟨rfl, rfl⟩
    | append_singleton seqs seq ih =>
      rw [List.foldl_append, tally_append]
      exact counts_statis ih seq 0 0
  have hrep := hcounts seqs
  rw [h] at hrep
  exact hrep.valid

/-- Packets in order leave no gap, and each is counted once. -/
theorem tally_inOrder {seqs : List UInt16} {seq : UInt16} (h : InOrder (seqs ++ [seq])) :
    ∃ t, tally (seqs ++ [seq]) = some t ∧ t.high % 65536 = seq.toNat ∧ t.count = t.span := by
  have hseq := seq.toNat_lt
  have hfresh : ∃ t, some (Tally.mk seq.toNat seq.toNat 1) = some t ∧ t.high % 65536 = seq.toNat ∧
      t.count = t.span :=
    ⟨_, rfl, Nat.mod_eq_of_lt hseq, (Nat.add_sub_cancel_left _ _).symm⟩
  induction seqs using List.reverseRecOn generalizing seq with
  | nil => exact hfresh
  | append_singleton seqs prev ih =>
    have hprev := prev.toNat_lt
    rw [InOrder, List.isChain_append] at h
    obtain ⟨hchain, _, hlast⟩ := h
    have hnext : seq = prev + 1 := hlast prev (by simp) seq rfl
    obtain ⟨t, ht, hhigh, hcount⟩ := ih hchain hprev
      ⟨_, rfl, Nat.mod_eq_of_lt hprev, (Nat.add_sub_cancel_left _ _).symm⟩
    have hle := (tally_valid ht).first_le
    have hone : seq.toNat = (prev.toNat + 1) % 65536 := by
      rw [hnext, UInt16.toNat_add]
      rfl
    rw [Tally.span] at hcount
    rw [tally_append, ht, Tally.next]
    split
    · exact hfresh
    · split
      · rw [if_neg (by omega)]
        exact ⟨_, rfl, by dsimp only; omega, by rw [Tally.span]; dsimp only; omega⟩
      · exact ⟨_, rfl, by dsimp only; omega, by rw [Tally.span]; dsimp only; omega⟩

/-! ## Reports -/

/-- What a report that is due comes to. -/
theorem rreport_due {c : RtcpClient} (hdue : c.tsRr + 100 < c.tsSr) (ts : UInt32) :
    ((c.rreport ts).2 = .assertion ↔ c.rtpsi.received ≠ 0 ∧ ¬c.rtpsi.received ≤ c.rtpsi.expected) ∧
    ∀ r, (c.rreport ts).2 = .sent r →
      r.lost = (c.rtpsi.expected - c.rtpsi.received).toInt32 := by
  rw [RtcpClient.rreport, if_pos hdue]
  dsimp only
  by_cases hzero : c.rtpsi.received = 0
  · rw [if_pos hzero]
    refine ⟨⟨fun h => ?_, fun h => absurd hzero h.1⟩, fun r h => ?_⟩
    · cases h
    · cases h
  · rw [if_neg hzero]
    by_cases hle : c.rtpsi.received ≤ c.rtpsi.expected
    · rw [if_pos hle]
      refine ⟨⟨fun h => ?_, fun h => absurd hle h.2⟩, fun r h => ?_⟩
      · cases h
      · cases h
        rfl
    · rw [if_neg hle]
      refine ⟨⟨fun _ => ⟨hzero, hle⟩, fun _ => rfl⟩, fun r h => ?_⟩
      cases h

/-- A report leaves what `statis` counts. -/
theorem counts_rreport {c : RtcpClient} {o : Option Tally} (h : Counts c.rtpsi o) (ts : UInt32) :
    Counts (c.rreport ts).1.rtpsi o := by
  rw [RtcpClient.rreport]
  split
  · dsimp only
    split
    · exact h
    · split
      · cases o with
        | none => exact h
        | some t =>
          have hrep : Represents c.rtpsi t := h
          exact ⟨hrep.valid, hrep.base, hrep.max, hrep.cycles, hrep.received⟩
      · exact h
  · exact h

theorem seqs_append (evs : List Rtcp.Event) (ev : Rtcp.Event) :
    Rtcp.seqs (evs ++ [ev]) = Rtcp.seqs evs ++ Rtcp.seqs [ev] := List.filterMap_append

/-- The counters are the account of the packets of the run. -/
theorem counts_run {evs : List Rtcp.Event} {c : RtcpClient} (h : Run Rtcp.Step RtcpClient.init evs c) :
    Counts c.rtpsi (tally (Rtcp.seqs evs)) := by
  refine h.history (P := fun evs c => Counts c.rtpsi (tally (Rtcp.seqs evs))) ⟨rfl, rfl⟩ ?_
  rintro evs c ev _ hcounts ⟨_, rfl⟩
  rw [seqs_append]
  cases ev with
  | rtp seq timestamp now =>
    show Counts (c.rtpsi.statis seq timestamp now) (tally (Rtcp.seqs evs ++ [seq]))
    rw [tally_append]
    exact counts_statis hcounts seq timestamp now
  | rtcp now sr =>
    show Counts (Rtcp.next c (.rtcp now sr)).rtpsi (tally (Rtcp.seqs evs ++ []))
    rw [List.append_nil]
    have hreport := counts_rreport hcounts now
    cases sr with
    | none => exact hreport
    | some ts => exact hreport

/-- The assertion fails when too many packets are counted twice. -/
theorem asserted_iff {c : RtcpClient} {seqs : List UInt16} (h : Counts c.rtpsi (tally seqs))
    (hdue : c.tsRr + 100 < c.tsSr) (ts : UInt32) :
    (c.rreport ts).2 ≠ .assertion ↔ Bounded seqs := by
  rw [Ne, (rreport_due hdue ts).1, Bounded]
  cases htally : tally seqs with
  | none =>
    rw [htally] at h
    refine ⟨fun _ t ht => ?_, fun _ hr => hr.1 h.2⟩
    cases ht
  | some t =>
    rw [htally] at h
    have hrep : Represents c.rtpsi t := h
    have hle : c.rtpsi.received ≤ c.rtpsi.expected ↔
        t.count % 2 ^ 32 ≤ (t.span + 65536) % 2 ^ 32 := by
      rw [UInt32.le_iff_toNat_le, hrep.received, hrep.expected, UInt32.toNat_ofNat', UInt32.toNat_ofNat']
    have hzero : c.rtpsi.received = 0 ↔ t.count % 2 ^ 32 = 0 := by
      rw [hrep.received, ← UInt32.toNat_inj, UInt32.toNat_ofNat']
      exact Iff.rfl
    rw [hle, Ne, hzero]
    constructor
    · intro hnot t' ht'
      cases ht'
      by_contra hgt
      exact hnot ⟨by omega, hgt⟩
    · rintro hall ⟨_, hgt⟩
      exact hgt (hall t rfl)

/-- With packets in order 65536 are reported lost. -/
theorem lost_inOrder {c : RtcpClient} {seqs : List UInt16} (h : Counts c.rtpsi (tally seqs))
    (hdue : c.tsRr + 100 < c.tsSr) (ts : UInt32) (horder : InOrder seqs) (hne : seqs ≠ []) {r : Report}
    (hr : (c.rreport ts).2 = .sent r) : r.lost = 65536 := by
  rw [← List.dropLast_append_getLast hne] at h horder
  obtain ⟨t, ht, _, hcount⟩ := tally_inOrder horder
  rw [ht] at h
  have hrep : Represents c.rtpsi t := h
  rw [(rreport_due hdue ts).2 r hr, hrep.expected, hrep.received, hcount,
    ← UInt32.ofNat_sub (Nat.le_add_right _ _), Nat.add_sub_cancel_left]
  rfl

/-! ## The main result -/

/-- After any packets and reports, the next report that is due is what it should be if
and only if the packets were not in order and the account is bounded. -/
theorem report_iff {evs : List Rtcp.Event} {c : RtcpClient} (h : Run Rtcp.Step RtcpClient.init evs c)
    (hdue : c.tsRr + 100 < c.tsSr) (ts : UInt32) : Meets (Rtcp.seqs evs) (c.rreport ts).2 ↔
      (InOrder (Rtcp.seqs evs) → Rtcp.seqs evs = []) ∧ Bounded (Rtcp.seqs evs) := by
  have hcounts := counts_run h
  constructor
  · rintro ⟨hasserted, haccurate⟩
    refine ⟨fun horder => ?_, (asserted_iff hcounts hdue ts).mp hasserted⟩
    by_contra hne
    obtain ⟨r, hr, hlost, _⟩ := haccurate horder hne
    rw [lost_inOrder hcounts hdue ts horder hne hr] at hlost
    exact absurd hlost (by decide)
  · rintro ⟨horder, hbounded⟩
    refine ⟨(asserted_iff hcounts hdue ts).mpr hbounded, fun h' hne => ?_⟩
    exact absurd (horder h') hne

/-- Two packets with a gap, and a sender report. -/
def gap : List Rtcp.Event := [.rtp 0 0 0, .rtp 5 0 0, .rtcp 900 (some 1000)]

theorem report_iff_gap : Meets (Rtcp.seqs gap)
    ((gap.foldl Rtcp.next RtcpClient.init).rreport 1100).2 := by
  have hrun : Run Rtcp.Step RtcpClient.init gap (gap.foldl Rtcp.next RtcpClient.init) :=
    Run.plays (by decide)
  refine (report_iff hrun (by decide) 1100).mpr ⟨?_, ?_⟩
  · exact fun h => absurd h (by unfold InOrder; decide)
  · unfold Bounded
    decide

/-! ## One packet, and one packet again and again -/

theorem tally_copies (seq : UInt16) (n : Nat) :
    tally (List.replicate (n + 1) seq) = some ⟨seq.toNat, seq.toNat, n + 1⟩ := by
  have hseq := seq.toNat_lt
  induction n with
  | zero => rfl
  | succ n ih =>
    rw [List.replicate_succ', tally_append, ih, Tally.next, if_neg (by dsimp only; omega),
      if_neg (by dsimp only; omega)]
    dsimp only
    rw [Nat.div_eq_of_lt hseq, Nat.zero_mul, Nat.zero_add]

theorem plays_copies (c : RtcpClient) (seq : UInt16) (timestamp now : UInt32) (n : Nat) :
    Plays Rtcp.Enabled Rtcp.next c (List.replicate n (.rtp seq timestamp now)) := by
  induction n generalizing c with
  | zero => trivial
  | succ n ih => exact ⟨trivial, ih _⟩

theorem seqs_copies (seq : UInt16) (timestamp now : UInt32) (n : Nat) :
    Rtcp.seqs (List.replicate n (.rtp seq timestamp now)) = List.replicate n seq := by
  induction n with
  | zero => rfl
  | succ n ih =>
    rw [List.replicate_succ, List.replicate_succ, ← ih]
    rfl

/-- Packets leave the times of the reports. -/
theorem times_copies (c : RtcpClient) (seq : UInt16) (timestamp now : UInt32) (n : Nat) :
    ((List.replicate n (Rtcp.Event.rtp seq timestamp now)).foldl Rtcp.next c).tsRr = c.tsRr ∧
      ((List.replicate n (Rtcp.Event.rtp seq timestamp now)).foldl Rtcp.next c).tsSr = c.tsSr := by
  induction n generalizing c with
  | zero => exact ⟨rfl, rfl⟩
  | succ n ih => exact ih _

/-- After copies of one packet, a sender report makes a report due. -/
theorem run_copies (seq : UInt16) (n : Nat) : ∃ c, Run Rtcp.Step RtcpClient.init
    (List.replicate n (.rtp seq 0 0) ++ [.rtcp 900 (some 1000)]) c ∧ c.tsRr + 100 < c.tsSr := by
  have hrun := Run.plays (plays_copies RtcpClient.init seq 0 0 n)
  obtain ⟨hrr, hsr⟩ := times_copies RtcpClient.init seq 0 0 n
  generalize (List.replicate n (Rtcp.Event.rtp seq 0 0)).foldl Rtcp.next RtcpClient.init = c
    at hrun hrr hsr
  have hnot : c.rreport 900 = (c, .notDue) := by
    rw [RtcpClient.rreport, hrr, hsr, if_neg (by decide)]
  refine ⟨{ c with tsSr := 1000 }, hrun.snoc ⟨?_, ?_⟩, ?_⟩
  · show (c.rreport 900).2 ≠ .assertion
    rw [hnot]
    exact fun h => by cases h
  · have hnext : Rtcp.next c (.rtcp 900 (some 1000)) = { (c.rreport 900).1 with tsSr := 1000 } := rfl
    rw [hnext, hnot]
  · show c.tsRr + 100 < 1000
    rw [hrr]
    decide

/-- Copies of one packet reach the assertion once there are 65538 of them. -/
theorem copies_bounded_iff (seq : UInt16) {n : Nat} (hn : n + 1 < 2 ^ 32) :
    Bounded (List.replicate (n + 1) seq) ↔ n ≤ 65536 := by
  have hspan : (Tally.mk seq.toNat seq.toNat (n + 1)).span = 1 := Nat.add_sub_cancel_left _ _
  rw [Bounded, tally_copies]
  constructor
  · intro h
    have hle := h _ rfl
    rw [hspan] at hle
    dsimp only at hle
    omega
  · intro hle t ht
    cases ht
    rw [hspan]
    dsimp only
    omega

theorem copies_fail (seq : UInt16) {n : Nat} (hn : n + 1 < 2 ^ 32) (hmany : 65536 < n) (ts : UInt32) :
    ∃ c, Run Rtcp.Step RtcpClient.init
      (List.replicate (n + 1) (.rtp seq 0 0) ++ [.rtcp 900 (some 1000)]) c ∧
      c.tsRr + 100 < c.tsSr ∧ (c.rreport ts).2 = .assertion := by
  obtain ⟨c, hrun, hdue⟩ := run_copies seq (n + 1)
  refine ⟨c, hrun, hdue, ?_⟩
  have hcounts := counts_run hrun
  have hseqs : Rtcp.seqs [.rtcp 900 (some 1000)] = [] := rfl
  rw [seqs_append, seqs_copies, hseqs, List.append_nil] at hcounts
  by_contra hne
  have hle := (copies_bounded_iff seq hn).mp ((asserted_iff hcounts hdue ts).mp hne)
  omega

/-- The first packet is reported with 65536 lost; and 65538 copies of it make the
assertion fail. -/
theorem meets_broken :
    (∃ c, Run Rtcp.Step RtcpClient.init [.rtp 7 0 0, .rtcp 900 (some 1000)] c ∧
      c.tsRr + 100 < c.tsSr ∧ InOrder [7] ∧ ¬Meets [7] (c.rreport 1100).2 ∧
      ∃ r, (c.rreport 1100).2 = .sent r ∧ r.expected = 65537 ∧ r.lost = 65536 ∧
        r.rb.cumulative = 65536 ∧ r.rb.fraction = 255) ∧
    ∃ c, Run Rtcp.Step RtcpClient.init
      (List.replicate 65538 (.rtp 7 0 0) ++ [.rtcp 900 (some 1000)]) c ∧
      c.tsRr + 100 < c.tsSr ∧ (c.rreport 1100).2 = .assertion := by
  constructor
  · have hrun : Run Rtcp.Step RtcpClient.init [.rtp 7 0 0, .rtcp 900 (some 1000)] _ :=
      Run.plays (by decide)
    have horder : InOrder [7] := List.isChain_singleton _
    refine ⟨_, hrun, by decide, horder, fun h => ?_, _, rfl, by decide, by decide, by decide, by decide⟩
    obtain ⟨r, hr, hlost, _⟩ := h.accurate horder (List.cons_ne_nil _ _)
    cases hr
    exact absurd hlost (by decide)
  · exact copies_fail 7 (n := 65537) (by decide) (by decide) 1100

end CppSnippets.Rtp.Accounting
