import CppSnippets.Rtp.Receiver
import CppSnippets.Lib.Run
import Mathlib.Data.List.Chain
import Mathlib.Data.List.Sublists

/-!
# NAL units out of FU-A fragments

What the receiver assembles from fragments when datagrams are lost, doubled and
reordered. The unit being assembled is given up when a gap is seen on one of its
fragments, but neither when the gap is seen on another packet nor when a number
is far behind the expected one; while neither happens to a unit that is being
assembled, every unit handed on is whole.
-/
namespace CppSnippets.Rtp.Integrity

open CppSnippets.Lib

/-- An FU-A fragment as the receiver takes it apart. -/
structure Frag where
  rtpH : RtpHeader
  h1 : Byte
  fu : Byte
  data : List Byte
  deriving DecidableEq

def fragOf (d : List Byte) : Option Frag :=
  match RtpHeader.cast d with
  | none => none
  | some h =>
      match d.drop h.length with
      | h1 :: fu :: data => if nalType h1 = 28 then some ⟨h, h1, fu, data⟩ else none
      | _ => none

/-- The receiver, the RTP datagrams it has handled and the units it has handed
on out of fragments. -/
structure Session where
  rx : Receiver
  handled : List (List Byte)
  units : List Block

def Session.init : Session := ⟨.init, [], []⟩

def observe (s : Session) (d : List Byte) : Session :=
  let (rx, es) := handleDatagram s.rx d
  { rx := rx
    handled := if (RtpHeader.cast d).isSome then s.handled ++ [d] else s.handled
    units := if (fragOf d).isSome then s.units ++ es.filterMap Effect.commit else s.units }

def Step (s : Session) (d : List Byte) (s' : Session) : Prop := s' = observe s d

/-! ## Whole units -/

/-- `b` continues the unit after `a`. -/
def Follows (a b : Frag) : Prop :=
  b.rtpH.seq = a.rtpH.seq + 1 ∧ fuE a.fu = false ∧ fuS b.fu = false

instance (a b : Frag) : Decidable (Follows a b) := inferInstanceAs (Decidable (_ ∧ _))

/-- A start fragment and its continuations, with the bytes they make up. -/
structure Assembly (fs : List Frag) (body : List Byte) : Prop where
  start : ∃ f rest, fs = f :: rest ∧ fuS f.fu = true ∧
    body = [0, 0, 0, 1, nalOfFu f.h1 f.fu] ++ (fs.map Frag.data).flatten
  chain : fs.IsChain Follows

/-- The unit is what a start fragment, its continuations and their end carry. -/
def Whole (handled : List (List Byte)) (b : Block) : Prop :=
  ∃ (ds : List (List Byte)) (fs : List Frag), ds.Sublist handled ∧ ds.map fragOf = fs.map some ∧ Assembly fs b.body ∧
    ∃ f, fs.getLast? = some f ∧ fuE f.fu = true

/-- The RTP datagram handled last is a fragment. -/
def LastIsFrag (s : Session) : Prop := (s.handled.getLast?.bind fragOf).isSome = true

/-- A continuation that finds a unit half assembled either carries the expected
number, and then comes directly after a fragment, or is not taken for one that
does. -/
def Sound (s : Session) (d : List Byte) : Prop :=
  ∀ f ∈ fragOf d, fuS f.fu = false → s.rx.bufp.isSome = true →
    if f.rtpH.seq.toNat = s.rx.expseq % 0x10000 then LastIsFrag s
    else jumpsBack s.rx.expseq f.rtpH.seq.toNat = false

instance (s : Session) : Decidable (LastIsFrag s) := inferInstanceAs (Decidable (_ = true))

instance (s : Session) (d : List Byte) : Decidable (Sound s d) :=
  inferInstanceAs (Decidable (∀ f ∈ fragOf d, _ → _ → _))

theorem Assembly.single {f : Frag} (hs : fuS f.fu = true) :
    Assembly [f] ([0, 0, 0, 1, nalOfFu f.h1 f.fu] ++ f.data) :=
  ⟨⟨f, [], rfl, hs, by simp⟩, .singleton f⟩

theorem Assembly.snoc {fs : List Frag} {body : List Byte} {a b : Frag} (h : Assembly fs body)
    (ha : fs.getLast? = some a) (hab : Follows a b) : Assembly (fs ++ [b]) (body ++ b.data) := by
  obtain ⟨f, rest, rfl, hs, rfl⟩ := h.start
  refine ⟨⟨f, rest ++ [b], rfl, hs, by simp⟩, h.chain.append (.singleton b) ?_⟩
  intro x hx y hy
  obtain rfl : a = x := Option.some.inj (ha.symm.trans hx)
  obtain rfl : b = y := Option.some.inj hy
  exact hab

/-! ## What one datagram does -/

theorem handle_frag {r : Receiver} {d : List Byte} {f : Frag} (h : fragOf d = some f) :
    (RtpHeader.cast d).isSome = true ∧ handleDatagram r d =
      (⟨f.rtpH.seq.toNat + 1, (fuA r.bufp f.rtpH f.h1 (continues r.expseq f.rtpH.seq.toNat)
        (f.fu :: f.data)).1⟩,
       (fuA r.bufp f.rtpH f.h1 (continues r.expseq f.rtpH.seq.toNat) (f.fu :: f.data)).2) := by
  unfold fragOf at h
  split at h
  · cases h
  · rename_i hd hc
    split at h
    · rename_i h1 fu data hp
      split at h
      · rename_i ht
        cases h
        refine ⟨by rw [hc]; rfl, ?_⟩
        unfold handleDatagram
        rw [hc]
        simp only [hp, naluIncoming, ht]
        rfl
      · cases h
    · cases h

/-- No other datagram touches the unit being assembled. -/
theorem handle_other {r : Receiver} {d : List Byte} (h : fragOf d = none) :
    (handleDatagram r d).1.bufp = r.bufp := by
  unfold handleDatagram
  unfold fragOf at h
  cases hc : RtpHeader.cast d with
  | none => rfl
  | some hd =>
    rw [hc] at h
    show (naluIncoming r.bufp hd _ (d.drop hd.length)).1 = r.bufp
    cases hp : d.drop hd.length with
    | nil => rfl
    | cons h1 data =>
      rw [naluIncoming]
      by_cases h24 : nalType h1 = 24
      · rw [if_pos h24]
      · rw [if_neg h24]
        by_cases h28 : nalType h1 = 28
        · rw [if_pos h28]
          cases data with
          | nil => rfl
          | cons fu rest => simp [hp, h28] at h
        · rw [if_neg h28]
          split <;> rfl

/-- An appended fragment completes the unit or leaves it assembled so far. -/
theorem fuAppend_cases (b : Block) (rtpH : RtpHeader) (fu h3 : Byte) (rest : List Byte) :
    (fuE fu = true ∧ (fuAppend b rtpH fu h3 rest).1 = none ∧
      (fuAppend b rtpH fu h3 rest).2.filterMap Effect.commit = [b.put rest]) ∨
    (fuE fu = false ∧ (fuAppend b rtpH fu h3 rest).1 = some (b.put rest) ∧
      (fuAppend b rtpH fu h3 rest).2.filterMap Effect.commit = []) := by
  unfold fuAppend
  cases he : fuE fu with
  | true => exact .inl ⟨rfl, rfl, rfl⟩
  | false => exact .inr ⟨rfl, rfl, rfl⟩

/-- What a fragment does to the unit being assembled: it starts a new one,
continues the one that is there, or nothing is assembled any more. -/
theorem fuA_cases (bufp : Option Block) (f : Frag) (c : Bool) :
    (fuS f.fu = true ∧ fuA bufp f.rtpH f.h1 c (f.fu :: f.data) =
      fuAppend (.init f.rtpH (nalOfFu f.h1 f.fu)) f.rtpH f.fu (nalOfFu f.h1 f.fu) f.data) ∨
    (fuS f.fu = false ∧ c = true ∧ ∃ b, bufp = some b ∧
      fuA bufp f.rtpH f.h1 c (f.fu :: f.data) = fuAppend b f.rtpH f.fu f.fu f.data) ∨
    fuA bufp f.rtpH f.h1 c (f.fu :: f.data) = (none, []) := by
  cases hs : fuS f.fu with
  | true => exact .inl ⟨rfl, by simp only [fuA, hs, if_true]⟩
  | false =>
    cases c with
    | false => exact .inr (.inr (by simp [fuA, hs]))
    | true =>
      cases bufp with
      | none => exact .inr (.inr (by simp [fuA, hs]))
      | some b => exact .inr (.inl ⟨rfl, rfl, b, rfl, by simp [fuA, hs]⟩)

/-! ## Runs -/

/-- The unit being assembled is made of handled fragments; when the last datagram
was one, it is the last of them and its number is the one before the expected. -/
structure Inv (s : Session) : Prop where
  units : ∀ b ∈ s.units, Whole s.handled b
  current : ∀ b, s.rx.bufp = some b → ∃ (ds : List (List Byte)) (fs : List Frag) (f : Frag),
    ds.Sublist s.handled ∧ ds.map fragOf = fs.map some ∧ Assembly fs b.body ∧ fs.getLast? = some f ∧
    fuE f.fu = false ∧ (LastIsFrag s → s.rx.expseq = f.rtpH.seq.toNat + 1)

theorem Whole.mono {handled more : List (List Byte)} {b : Block} (h : Whole handled b) :
    Whole (handled ++ more) b := by
  obtain ⟨ds, fs, hsub, hrest⟩ := h
  exact ⟨ds, fs, hsub.trans (List.sublist_append_left _ _), hrest⟩

/-- The expected number is the one after the last. -/
theorem seq_next {a b : UInt16} {exp : Nat} (hexp : exp = a.toNat + 1)
    (h : b.toNat = exp % 0x10000) : b = a + 1 := by
  apply UInt16.toNat_inj.mp
  rw [h, hexp, UInt16.toNat_add]
  rfl

/-- A fragment that the unit takes in follows the last one it took. -/
theorem follows_of_sound {s : Session} {d : List Byte} {f g : Frag} {b : Block} (hd : Sound s d)
    (hf : fragOf d = some f) (hb : s.rx.bufp = some b) (hs : fuS f.fu = false)
    (hc : continues s.rx.expseq f.rtpH.seq.toNat = true) (hg : fuE g.fu = false)
    (hexp : LastIsFrag s → s.rx.expseq = g.rtpH.seq.toNat + 1) : Follows g f := by
  have hsound := hd f hf hs (by rw [hb]; rfl)
  by_cases hseq : f.rtpH.seq.toNat = s.rx.expseq % 0x10000
  · rw [if_pos hseq] at hsound
    exact ⟨seq_next (hexp hsound) hseq, hg, hs⟩
  · rw [if_neg hseq] at hsound
    simp only [continues, hseq, hsound, decide_false, Bool.or_self] at hc
    cases hc

/-- A fragment appended to what is assembled keeps the invariant. -/
theorem inv_append {s : Session} {d : List Byte} {f : Frag} {b : Block} {h3 : Byte}
    {ds : List (List Byte)} {fs : List Frag} (h : Inv s) (hf : fragOf d = some f)
    (hsub : ds.Sublist s.handled) (hmap : ds.map fragOf = fs.map some)
    (hasm : Assembly (fs ++ [f]) (b.body ++ f.data)) :
    Inv ⟨⟨f.rtpH.seq.toNat + 1, (fuAppend b f.rtpH f.fu h3 f.data).1⟩, s.handled ++ [d],
      s.units ++ (fuAppend b f.rtpH f.fu h3 f.data).2.filterMap Effect.commit⟩ := by
  have hsub' : (ds ++ [d]).Sublist (s.handled ++ [d]) := hsub.append (List.Sublist.refl _)
  have hmap' : (ds ++ [d]).map fragOf = (fs ++ [f]).map some := by
    rw [List.map_append, List.map_append, hmap]
    simp [hf]
  have hlast : (fs ++ [f]).getLast? = some f := List.getLast?_concat
  rw [← Block.put_body] at hasm
  obtain ⟨he, hbufp, hcommit⟩ | ⟨he, hbufp, hcommit⟩ := fuAppend_cases b f.rtpH f.fu h3 f.data
  · refine ⟨fun c hc => ?_, fun c hc => ?_⟩
    · rw [hcommit] at hc
      rcases List.mem_append.mp hc with hc | hc
      · exact (h.units c hc).mono
      · rw [List.mem_singleton.mp hc]
        exact ⟨ds ++ [d], fs ++ [f], hsub', hmap', hasm, f, hlast, he⟩
    · rw [hbufp] at hc
      cases hc
  · refine ⟨fun c hc => ?_, fun c hc => ?_⟩
    · rw [hcommit, List.append_nil] at hc
      exact (h.units c hc).mono
    · rw [hbufp] at hc
      cases hc
      exact ⟨ds ++ [d], fs ++ [f], f, hsub', hmap', hasm, hlast, he, fun _ => rfl⟩

theorem inv_other {s : Session} {d : List Byte} (h : Inv s) (hf : fragOf d = none) :
    Inv (observe s d) := by
  have hbufp := handle_other (r := s.rx) hf
  have hunits : (observe s d).units = s.units := by simp [observe, hf]
  cases hc : RtpHeader.cast d with
  | none =>
    have hs : observe s d = s := by
      unfold observe handleDatagram
      simp [hf, hc]
    rw [hs]
    exact h
  | some hd =>
    have hhandled : (observe s d).handled = s.handled ++ [d] := by simp [observe, hc]
    refine ⟨fun b hb => ?_, fun b hb => ?_⟩
    · rw [hhandled]
      exact (h.units b (hunits ▸ hb)).mono
    · obtain ⟨ds, fs, f, hsub, hmap, hasm, hlast, hopen, _⟩ := h.current b (hbufp ▸ hb)
      refine ⟨ds, fs, f, ?_, hmap, hasm, hlast, hopen, fun hl => ?_⟩
      · rw [hhandled]
        exact hsub.trans (List.sublist_append_left _ _)
      · rw [LastIsFrag, hhandled, List.getLast?_concat, Option.bind_some, hf] at hl
        cases hl

theorem inv_step {s s' : Session} {d : List Byte} (h : Inv s) (hd : Sound s d)
    (hstep : Step s d s') : Inv s' := by
  obtain rfl := hstep
  cases hf : fragOf d with
  | none => exact inv_other h hf
  | some f =>
    obtain ⟨hcast, hhandle⟩ := handle_frag (r := s.rx) hf
    simp only [observe, hcast, hhandle, hf, Option.isSome_some, if_true]
    obtain ⟨hs, hfu⟩ | ⟨hs, hc, b, hb, hfu⟩ | hfu :=
      fuA_cases s.rx.bufp f (continues s.rx.expseq f.rtpH.seq.toNat)
    · rw [hfu]
      have hnil : ([] : List (List Byte)).map fragOf = ([] : List Frag).map some := rfl
      exact inv_append h hf (List.nil_sublist _) hnil (Assembly.single hs)
    · obtain ⟨ds, fs, g, hsub, hmap, hasm, hlast, hg, hexp⟩ := h.current b hb
      rw [hfu]
      exact inv_append h hf hsub hmap (hasm.snoc hlast (follows_of_sound hd hf hb hs hc hg hexp))
    · rw [hfu]
      refine ⟨fun b hb => (h.units b (by simpa using hb)).mono, fun b hb => by cases hb⟩

/-- While every continuation that finds a unit half assembled is sound, every
unit handed on out of fragments is whole. -/
theorem fu_integrity {ds : List (List Byte)} {s : Session}
    (h : Run (Guarded Sound Step) .init ds s) : ∀ b ∈ s.units, Whole s.handled b := by
  have hinv : Inv s := by
    refine h.invariant (P := Inv) (fun _ _ _ hi hs => inv_step hi hs.1 hs.2) ⟨?_, ?_⟩
    · exact fun b hb => by cases hb
    · exact fun b hb => by cases hb
  exact hinv.units

/-- An FU-A fragment of a unit of type 5, with number `seq` and the given bits. -/
def fragment (seq : UInt16) (fu data : Byte) : List Byte :=
  [0x80, 0x60] ++ be16 seq ++ [0, 0, 0, 0, 0, 0, 0, 0, 0x7c, fu, data]

theorem fu_integrity_wrap : ∃ s, Run (Guarded Sound Step) .init
    [fragment 0xffff 0x85 1, fragment 0 0x05 2, fragment 1 0x45 3] s ∧
    s.units.map Block.body = [[0, 0, 0, 1, 0x65, 1, 2, 3]] ∧
    ∀ b ∈ s.units, Whole s.handled b := by
  let s1 := observe .init (fragment 0xffff 0x85 1)
  let s2 := observe s1 (fragment 0 0x05 2)
  let s3 := observe s2 (fragment 1 0x45 3)
  have h1 : Sound .init (fragment 0xffff 0x85 1) := by decide
  have h2 : Sound s1 (fragment 0 0x05 2) := by decide
  have h3 : Sound s2 (fragment 1 0x45 3) := by decide
  have h0 : Run (Guarded Sound Step) .init [] .init := .nil
  have hrun := ((h0.snoc ⟨h1, rfl⟩).snoc ⟨h2, rfl⟩).snoc ⟨h3, rfl⟩
  exact ⟨s3, hrun, by decide, fu_integrity hrun⟩

/-- A number far behind the expected one is taken for the next: the unit handed
on is the start of one unit and the end of another. -/
theorem fu_integrity_broken : ¬ ∀ (ds : List (List Byte)) (s : Session), Run Step .init ds s →
    ∀ b ∈ s.units, Whole s.handled b := by
  intro h
  let d1 := fragment 9000 0x85 1
  let d2 := fragment 5 0x45 2
  let s := observe (observe .init d1) d2
  have hrun : Run Step .init [d1, d2] s :=
    ((Run.nil (s := Session.init)).snoc rfl).snoc rfl
  have hunits : s.units.map Block.body = [[0, 0, 0, 1, 0x65, 1, 2]] := by decide
  obtain ⟨b, hb⟩ : ∃ b, b ∈ s.units := by
    cases hu : s.units with
    | nil => rw [hu] at hunits; cases hunits
    | cons b _ => exact ⟨b, List.mem_cons_self⟩
  obtain ⟨ds, fs, hsub, hmap, hasm, g, hlast, hend⟩ := h _ s hrun b hb
  obtain ⟨f, rest, rfl, hstart, _⟩ := hasm.start
  have hend1 : ∀ x ∈ fragOf d1, fuE x.fu = false := by decide
  have hstart2 : ∀ x ∈ fragOf d2, fuS x.fu = false := by decide
  have hseq : ∀ x ∈ fragOf d1, ∀ y ∈ fragOf d2, y.rtpH.seq ≠ x.rtpH.seq + 1 := by decide
  have hhandled : s.handled = [d1, d2] := by decide
  have hcases : ds ∈ [[], [d1], [d2], [d1, d2]] := List.mem_sublists.mpr (hhandled ▸ hsub)
  simp only [List.mem_cons, List.not_mem_nil, or_false] at hcases
  rcases hcases with rfl | rfl | rfl | rfl
  · cases hmap
  · obtain ⟨hf, hrest⟩ := List.cons.inj hmap
    obtain rfl := List.map_eq_nil_iff.mp hrest.symm
    obtain rfl : f = g := Option.some.inj hlast
    exact absurd hend (by rw [hend1 f hf]; decide)
  · obtain ⟨hf, _⟩ := List.cons.inj hmap
    exact absurd hstart (by rw [hstart2 f hf]; decide)
  · obtain ⟨hf, hrest⟩ := List.cons.inj hmap
    cases rest with
    | nil => cases hrest
    | cons f2 _ =>
      have hfollows := (List.isChain_cons_cons.mp hasm.chain).1
      exact hseq f hf f2 (List.cons.inj hrest).1 hfollows.1

end CppSnippets.Rtp.Integrity
