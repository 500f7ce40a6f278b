import CppSnippets.Rtp.RoundTrip
import Mathlib.Data.List.Induction

/-!
# From the units to the decoder

What `hgs-jni.cpp` does with each `mbuffer` that the network hands on: the parameter
sets are kept until both are there, the decoder is set up with them once, and from then
on it is given the IDR units and nothing else. A buffer is its bytes from
`begin_startbytes()` to `end()`; the decoder itself is what it has been given.
-/
namespace CppSnippets.Rtp

/-- `nal_header()` -/
def nalHeader (b : List Byte) : Byte := b.getD 4 0

/-- `Main::Args`, as far as the units go. -/
structure Args where
  sps : List Byte
  pps : List Byte

namespace Args

def complete (a : Args) : Bool := !a.sps.isEmpty && !a.pps.isEmpty

def init (a : Args) (b : List Byte) : Args × Bool :=
  let h := nalHeader b
  if nalNri h < 3 then (a, false)
  else if nalType h = 7 then ({ a with sps := b }, { a with sps := b }.complete)
  else if nalType h = 8 then ({ a with pps := b }, { a with pps := b }.complete)
  else (a, false)

end Args

/-- `Main`: what `vdec.setup` was called with, and every `vdec.input` since. -/
structure Main where
  args : Args
  inputs : List (List Byte)

def Main.input (m : Main) (b : List Byte) : Main :=
  let h := nalHeader b
  if nalNri h < 3 ∨ nalType h ≠ 5 then m else { m with inputs := m.inputs ++ [b] }

/-- `main_` and `tmpargs_` -/
structure Player where
  main : Option Main
  tmpargs : Option Args

namespace Player

/-- After `hgs_init`. -/
def start : Player := ⟨none, some ⟨[], []⟩⟩

/-- `nwk_dataincoming`; `none` is its `ERR_EXIT`. -/
def nwkDataincoming (s : Player) (b : List Byte) : Option Player :=
  match s.main, s.tmpargs with
  | some m, _ => some { s with main := some (m.input b) }
  | none, some a =>
      let r := a.init b
      some (if r.2 then ⟨some ⟨r.1, []⟩, none⟩ else ⟨none, some r.1⟩)
  | none, none => none

def feed (s : Player) (bs : List (List Byte)) : Option Player := bs.foldlM nwkDataincoming s

/-! ## What has been fed -/

/-- A unit of this type that is not thrown away for its `nri`. -/
def isType (t : Nat) (b : List Byte) : Bool := nalType (nalHeader b) = t && 3 ≤ nalNri (nalHeader b)

/-- The last one of this type, empty when there is none. -/
def lastOf (t : Nat) (bs : List (List Byte)) : List Byte := ((bs.filter (isType t)).getLast?).getD []

/-- There has been a unit of either kind of parameter set. -/
def Ready (bs : List (List Byte)) : Prop := (∃ b ∈ bs, isType 7 b = true) ∧ ∃ b ∈ bs, isType 8 b = true

theorem Ready.mono {bs cs : List (List Byte)} (h : Ready bs) (hsub : bs <+: cs) : Ready cs := by
  obtain ⟨⟨b, hb, h7⟩, c, hc, h8⟩ := h
  exact ⟨⟨b, hsub.subset hb, h7⟩, c, hsub.subset hc, h8⟩

/-- The unit that completes the parameter sets is one and the same. -/
theorem ready_unique {pre pre' post post' : List (List Byte)} {b b' : List Byte}
    (heq : pre ++ b :: post = pre' ++ b' :: post') (hpre : ¬Ready pre) (hready : Ready (pre ++ [b]))
    (hpre' : ¬Ready pre') (hready' : Ready (pre' ++ [b'])) : pre = pre' ∧ b = b' ∧ post = post' := by
  have hshort : ∀ {p p' q q' : List (List Byte)} {c c' : List Byte}, p ++ c :: q = p' ++ c' :: q' →
      Ready (p ++ [c]) → ¬Ready p' → p'.length ≤ p.length := by
    intro p p' q q' c c' h hp hp'
    by_contra hlt
    have hfirst : p ++ [c] <+: p ++ c :: q := ⟨q, by simp⟩
    have hsecond : p' <+: p ++ c :: q := h ▸ List.prefix_append _ _
    refine hp' (hp.mono (List.prefix_of_prefix_length_le hfirst hsecond ?_))
    rw [List.length_append, List.length_singleton]
    omega
  have hlen : pre.length = pre'.length :=
    Nat.le_antisymm (hshort heq.symm hready' hpre) (hshort heq hready hpre')
  obtain ⟨hsame, hrest⟩ := List.append_inj heq hlen
  obtain ⟨hb, hpost⟩ := List.cons.inj hrest
  exact ⟨hsame, hb, hpost⟩

theorem lastOf_snoc (t : Nat) (bs : List (List Byte)) (b : List Byte) :
    lastOf t (bs ++ [b]) = if isType t b = true then b else lastOf t bs := by
  rw [lastOf, List.filter_append, List.filter_singleton]
  cases isType t b with
  | true => simp
  | false => simp [lastOf]

theorem lastOf_eq_nil {t : Nat} {bs : List (List Byte)} (hne : ∀ b ∈ bs, b ≠ []) :
    lastOf t bs = [] ↔ ∀ b ∈ bs, isType t b = false := by
  rw [lastOf]
  cases hl : (bs.filter (isType t)).getLast? with
  | none =>
    have hnil := List.getLast?_eq_none_iff.mp hl
    exact iff_of_true rfl fun b hb => by simpa using List.filter_eq_nil_iff.mp hnil b hb
  | some b =>
    obtain ⟨hb, ht⟩ := List.mem_filter.mp (List.mem_of_getLast? hl)
    refine iff_of_false (hne b hb) fun hall => ?_
    rw [hall b hb] at ht
    cases ht

theorem ready_iff {bs : List (List Byte)} (hne : ∀ b ∈ bs, b ≠ []) :
    Ready bs ↔ Args.complete ⟨lastOf 7 bs, lastOf 8 bs⟩ = true := by
  have hsome : ∀ t, (∃ b ∈ bs, isType t b = true) ↔ ¬lastOf t bs = [] := by
    intro t
    rw [lastOf_eq_nil hne]
    simp
  rw [Ready, hsome, hsome, Args.complete]
  simp

/-- Before the decoder is there: the parameter sets so far. -/
theorem init_lastOf (bs : List (List Byte)) (b : List Byte) :
    (Args.init ⟨lastOf 7 bs, lastOf 8 bs⟩ b).1 = ⟨lastOf 7 (bs ++ [b]), lastOf 8 (bs ++ [b])⟩ ∧
    ((Args.init ⟨lastOf 7 bs, lastOf 8 bs⟩ b).2 = true →
      Args.complete ⟨lastOf 7 (bs ++ [b]), lastOf 8 (bs ++ [b])⟩ = true) ∧
    (Args.complete ⟨lastOf 7 bs, lastOf 8 bs⟩ = false →
      Args.complete ⟨lastOf 7 (bs ++ [b]), lastOf 8 (bs ++ [b])⟩ = true →
        (Args.init ⟨lastOf 7 bs, lastOf 8 bs⟩ b).2 = true) := by
  rw [lastOf_snoc, lastOf_snoc]
  unfold Args.init
  by_cases hnri : nalNri (nalHeader b) < 3
  · have hno : ∀ t, isType t b = false := by
      intro t
      simp [isType, Nat.not_le.mpr hnri]
    simp [hno, hnri]
  · have hyes : ∀ t, isType t b = decide (nalType (nalHeader b) = t) := by
      intro t
      simp [isType, Nat.not_lt.mp hnri]
    by_cases h7 : nalType (nalHeader b) = 7
    · simp [hyes, hnri, h7]
    · by_cases h8 : nalType (nalHeader b) = 8
      · simp [hyes, hnri, h8]
      · simp [hyes, hnri, h7, h8]

theorem input_filter (a : Args) (l : List (List Byte)) (b : List Byte) :
    Main.input ⟨a, l.filter (isType 5)⟩ b = ⟨a, (l ++ [b]).filter (isType 5)⟩ := by
  rw [List.filter_append, List.filter_singleton, Main.input]
  by_cases hskip : nalNri (nalHeader b) < 3 ∨ nalType (nalHeader b) ≠ 5
  · have hno : isType 5 b = false := by
      simp only [isType, Bool.and_eq_false_iff, decide_eq_false_iff_not]
      omega
    rw [if_pos hskip, hno]
    simp
  · have hyes : isType 5 b = true := by
      simp only [isType, Bool.and_eq_true, decide_eq_true_eq]
      omega
    rw [if_neg hskip, hyes]
    simp

/-! ## The run -/

/-- What the player is after these units. -/
def Played (bs : List (List Byte)) (s : Player) : Prop :=
  ¬Ready bs ∧ s = ⟨none, some ⟨lastOf 7 bs, lastOf 8 bs⟩⟩ ∨
    ∃ pre b post, bs = pre ++ b :: post ∧ ¬Ready pre ∧ Ready (pre ++ [b]) ∧
      s = ⟨some ⟨⟨lastOf 7 (pre ++ [b]), lastOf 8 (pre ++ [b])⟩, post.filter (isType 5)⟩, none⟩

theorem played_start : Played [] start := .inl ⟨fun h => (by simpa using h.1), rfl⟩

theorem played_step {bs : List (List Byte)} {b : List Byte} {s : Player} (h : Played bs s)
    (hne : ∀ c ∈ bs ++ [b], c ≠ []) : ∃ t, s.nwkDataincoming b = some t ∧ Played (bs ++ [b]) t := by
  rcases h with ⟨hnot, rfl⟩ | ⟨pre, c, post, rfl, hpre, hready, rfl⟩
  · obtain ⟨hargs, hok, hfirst⟩ := init_lastOf bs b
    have hbs : ∀ c ∈ bs, c ≠ [] := fun c hc => hne c (List.mem_append_left _ hc)
    have hbefore : Args.complete ⟨lastOf 7 bs, lastOf 8 bs⟩ = false := by
      rw [ready_iff hbs] at hnot
      simpa using hnot
    cases hb : (Args.init ⟨lastOf 7 bs, lastOf 8 bs⟩ b).2 with
    | true =>
      refine ⟨⟨some ⟨(Args.init ⟨lastOf 7 bs, lastOf 8 bs⟩ b).1, []⟩, none⟩, ?_, ?_⟩
      · simp only [nwkDataincoming, hb, if_true]
      · rw [hargs]
        exact .inr ⟨bs, b, [], rfl, hnot, (ready_iff hne).mpr (hok hb), rfl⟩
    | false =>
      refine ⟨⟨none, some (Args.init ⟨lastOf 7 bs, lastOf 8 bs⟩ b).1⟩, ?_, ?_⟩
      · simp only [nwkDataincoming, hb, Bool.false_eq_true, if_false]
      · rw [hargs]
        refine .inl ⟨fun hr => ?_, rfl⟩
        have hset := hfirst hbefore ((ready_iff hne).mp hr)
        rw [hb] at hset
        cases hset
  · refine ⟨_, rfl, .inr ⟨pre, c, post ++ [b], by simp, hpre, hready, ?_⟩⟩
    rw [input_filter]

theorem feed_played (bs : List (List Byte)) (hne : ∀ b ∈ bs, b ≠ []) :
    ∃ s, start.feed bs = some s ∧ Played bs s := by
  induction bs using List.reverseRecOn with
  | nil => exact ⟨start, rfl, played_start⟩
  | append_singleton bs b ih =>
    obtain ⟨s, hs, hplayed⟩ := ih fun c hc => hne c (List.mem_append_left _ hc)
    obtain ⟨t, ht, hnext⟩ := played_step hplayed hne
    refine ⟨t, ?_, hnext⟩
    rw [feed, List.foldlM_append, show bs.foldlM nwkDataincoming start = some s from hs]
    simpa using ht

/-! ## Behind the receiver -/

open RoundTrip

/-- `sprop_parameter_sets`: the one buffer it commits. Both sets go into it, under the
header of the first; an empty first set has no header to be read and commits none. -/
def spropParameterSets (sps pps : List Byte) : Option (List Byte) :=
  match sps with
  | [] => none
  | h :: rest => some ((((Block.init ⟨0, false, false, 0, 0, false, 0, 0, 0⟩ h).put rest).put
      startCode).put pps).body

/-- Whole choices leave nothing behind, whatever comes after them. -/
theorem delivers_choices (metas : Nat → Meta) (cs : List Choice) (hcs : ∀ c ∈ cs, c.Ok) :
    ∀ (i : Nat) (seq : UInt16) (r : Receiver), r.bufp = none →
      Delivers r (packetise metas i seq (cs.flatMap Choice.payloads))
        ((cs.flatMap Choice.units).map fun u => startCode ++ u.bytes) := by
  induction cs with
  | nil => exact fun i seq r hr => ⟨hr, rfl⟩
  | cons c cs ih =>
    intro i seq r hr
    obtain ⟨hr', hes⟩ := run_choice metas (hcs c List.mem_cons_self) i seq hr
    obtain ⟨hend, hmore⟩ := ih (fun c hc => hcs c (List.mem_cons_of_mem _ hc))
      (i + c.payloads.length) (seq + .ofNat c.payloads.length) _ hr'
    rw [List.flatMap_cons, packetise_append, Delivers, handleAll_append]
    refine ⟨hend, ?_⟩
    rw [commits_append, hes, hmore, List.flatMap_cons, List.map_append]

/-- What comes before the units of the stream. -/
def units (sps pps : List Byte) (us : List NalUnit) : List (List Byte) :=
  (spropParameterSets sps pps).toList ++ us.map fun u => startCode ++ u.bytes

theorem units_ne_nil {sps pps : List Byte} {us : List NalUnit} : ∀ b ∈ units sps pps us, b ≠ [] := by
  intro b hb
  rcases List.mem_append.mp hb with hb | hb
  · cases sps with
    | nil => cases hb
    | cons h rest =>
      obtain rfl := Option.mem_some.mp (Option.mem_toList.mp hb)
      simp
  · obtain ⟨u, _, rfl⟩ := List.mem_map.mp hb
    exact List.cons_ne_nil _ _

theorem isType_unit (t : Nat) (u : NalUnit) :
    isType t (startCode ++ u.bytes) = true ↔ nalType u.hdr = t ∧ 3 ≤ nalNri u.hdr := by
  simp [isType, nalHeader, startCode, NalUnit.bytes]

theorem isType_sprop {t : Nat} {h : Byte} {rest pps b : List Byte}
    (hb : spropParameterSets (h :: rest) pps = some b) (ht : nalType h ≠ t) : isType t b = false := by
  obtain rfl := Option.some.inj hb
  simp [isType, nalHeader, ht]

/-- From packets of any kind, whatever the session description said: the decoder is set up
at the first unit that completes the parameter sets, with the last of each; it is then
given every IDR unit that follows, in order, and nothing else. The sets of the
description are not enough: a stream without a picture parameter set of its own is not decoded. -/
theorem decoder_fed (metas : Nat → Meta) (cs : List Choice) (hcs : ∀ c ∈ cs, c.Ok) (i : Nat)
    (seq : UInt16) (sps pps : List Byte) :
    ∃ s, start.feed ((spropParameterSets sps pps).toList ++
        commits (handleAll .init (packetise metas i seq (cs.flatMap Choice.payloads))).2) = some s ∧
      (¬Ready (units sps pps (cs.flatMap Choice.units)) → s.main = none) ∧
      (∀ pre b post, units sps pps (cs.flatMap Choice.units) = pre ++ b :: post → ¬Ready pre →
        Ready (pre ++ [b]) → s.main = some
          ⟨⟨lastOf 7 (pre ++ [b]), lastOf 8 (pre ++ [b])⟩, post.filter (isType 5)⟩) ∧
      ((∀ h ∈ sps.head?, nalType h ≠ 8) →
        (∀ u ∈ cs.flatMap Choice.units, nalType u.hdr = 8 → nalNri u.hdr < 3) → s.main = none) := by
  obtain ⟨_, hcommits⟩ := delivers_choices metas cs hcs i seq .init rfl
  rw [hcommits]
  have hne : ∀ b ∈ units sps pps (cs.flatMap Choice.units), b ≠ [] := units_ne_nil
  obtain ⟨s, hs, hplayed⟩ := feed_played _ hne
  have hmain : ¬Ready (units sps pps (cs.flatMap Choice.units)) → s.main = none := by
    intro hnot
    rcases hplayed with ⟨_, rfl⟩ | ⟨pre, b, post, heq, _, hready, _⟩
    · rfl
    · rw [units] at hnot
      exact absurd (hready.mono ⟨post, by rw [List.append_assoc]; exact heq.symm⟩) hnot
  refine ⟨s, hs, hmain, fun pre b post heq hpre hready => ?_, fun hsps hus => hmain ?_⟩
  · rcases hplayed with ⟨hnot, _⟩ | ⟨pre', b', post', heq', hpre', hready', rfl⟩
    · exact absurd (hready.mono ⟨post, by rw [List.append_assoc]; exact heq.symm⟩) hnot
    · obtain ⟨rfl, rfl, rfl⟩ := ready_unique (heq'.symm.trans heq) hpre' hready' hpre hready
      rfl
  · rintro ⟨_, b, hb, h8⟩
    rcases List.mem_append.mp hb with hb | hb
    · cases sps with
      | nil => cases hb
      | cons h rest =>
        have hno := isType_sprop (t := 8) (Option.mem_toList.mp hb) (hsps h rfl)
        rw [hno] at h8
        cases h8
    · obtain ⟨u, hu, rfl⟩ := List.mem_map.mp hb
      obtain ⟨htype, hnri⟩ := (isType_unit 8 u).mp h8
      have := hus u hu htype
      omega

/-- Both sets in one packet, a second sequence parameter set that comes too late, and two
pictures, of which the decoder is given the one that stands alone. -/
theorem decoder_fed_late : (start.feed ((spropParameterSets [] []).toList ++
      commits (handleAll .init (packetise (fun i => ⟨i = 2, 96, .ofNat i, 7, [], by decide⟩) 0 9
        ([.stapA 0x78 [⟨0x67, [1], by decide⟩, ⟨0x68, [2], by decide⟩], .single ⟨0x67, [3], by decide⟩,
          .fuA ⟨0x65, [4, 5], by decide⟩ [4] [] [5], .single ⟨0x41, [6], by decide⟩].flatMap
            Choice.payloads))).2)).bind Player.main =
    some ⟨⟨[0, 0, 0, 1, 0x67, 1], [0, 0, 0, 1, 0x68, 2]⟩, [[0, 0, 0, 1, 0x65, 4, 5]]⟩ := by
  obtain ⟨s, hs, _, hmain, _⟩ := decoder_fed (fun i => ⟨i = 2, 96, .ofNat i, 7, [], by decide⟩)
    [.stapA 0x78 [⟨0x67, [1], by decide⟩, ⟨0x68, [2], by decide⟩], .single ⟨0x67, [3], by decide⟩,
      .fuA ⟨0x65, [4, 5], by decide⟩ [4] [] [5], .single ⟨0x41, [6], by decide⟩]
    (by
      intro c hc
      simp only [List.mem_cons, List.not_mem_nil, or_false] at hc
      rcases hc with rfl | rfl | rfl | rfl
      · exact ⟨by decide, by decide⟩
      · trivial
      · rfl
      · trivial) 0 9 [] []
  rw [hs]
  refine hmain [[0, 0, 0, 1, 0x67, 1]] [0, 0, 0, 1, 0x68, 2] _ rfl ?_ ?_
  · rintro ⟨_, b, hb, h8⟩
    rw [List.mem_singleton.mp hb] at h8
    exact absurd h8 (by decide)
  · exact ⟨⟨_, List.mem_cons_self, by decide⟩, _, List.mem_cons_of_mem _ List.mem_cons_self, by decide⟩

end Player
end CppSnippets.Rtp
