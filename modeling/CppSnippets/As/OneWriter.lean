import CppSnippets.As.Sender
import Mathlib.Data.List.Nodup

/-!
# One writer a socket

A request on a socket that has a writer makes a second writer, which goes at once and
takes the entry of the first one out of the map; a third request then gets a writer of
its own. Without a second request while a response is being written there is one
writer a socket. That no pointer in the map is dangling holds in any case.
-/
namespace CppSnippets.As.OneWriter

open CppSnippets.Lib Sender
open CppSnippets.Wap (Bytes bytes)

variable {s t : Sender} {soc : Socket} {req : HttpRequest} {id : Nat} {w : Socwriter}

/-- A socket has at most one writer and one write, the map designates the writer as long as
it lives, and the responses are written in the order of their requests. -/
structure Sound (s : Sender) : Prop where
  oneWriter : ∀ id id' w w', s.workers.objects id = some w → s.workers.objects id' = some w' →
    w.soc = w'.soc → id = id'
  designated : ∀ id w, s.workers.objects id = some w → s.hired w.soc = some id
  oneWrite : ∀ soc, (s.writes.filter fun w => w.soc = soc).length ≤ 1
  order : ∀ soc, s.written soc <+: s.requested soc

/-- A request is read from a socket only while no response is being written to it. -/
def Ok (s : Sender) : Event → Prop
  | .request soc _ => soc ∉ s.writes.map Write.soc
  | .done _ _ => True

/-! ## What a step does -/

theorem drop_more (h : 1 < s.workers.uses id) :
    s.drop id = { s with workers := s.workers.release id } := by
  rw [drop]
  split
  · rfl
  · rw [if_neg (Nat.ne_of_gt h)]

theorem drop_last (hw : s.workers.objects id = some w) (h : s.workers.uses id = 1) :
    s.drop id = { s with
      workers := s.workers.release id, hired := Function.update s.hired w.soc none } := by
  rw [drop, hw]
  dsimp only
  rw [if_pos h]
  rfl

/-- The handler of the write holds a pointer, and the one of the caller goes. -/
theorem drop_asyncWrite {x : Bytes} {ls : List Bytes} (hw : s.workers.objects id ≠ none)
    (hls : w.ls = x :: ls) : (s.asyncWrite id w).drop id = { s with
      writes := s.writes ++ [⟨id, w.soc⟩]
      written := Function.update s.written w.soc (s.written w.soc ++ [x]) } := by
  have huses : 1 < (s.workers.acquire id).uses id := by
    rw [ne_eq, s.workers.counted] at hw
    show 1 < Function.update s.workers.uses id _ id
    rw [Function.update_self, if_neg hw]
    omega
  rw [asyncWrite, hls]
  dsimp only
  rw [drop_more huses]
  dsimp only
  rw [Shared.release_acquire]

/-- The sender after a request whose socket has no entry. -/
def hire (s : Sender) (soc : Socket) (x : Bytes) : Sender :=
  { s with
    workers := s.workers.make ⟨soc, [x]⟩
    hired := Function.update s.hired soc (some s.workers.next)
    writes := s.writes ++ [⟨s.workers.next, soc⟩]
    requested := Function.update s.requested soc (s.requested soc ++ [x])
    written := Function.update s.written soc (s.written soc ++ [x]) }

theorem work_hire (h : s.hired soc = none) : s.work soc req = hire s soc req.echo := by
  have hmake : (s.workers.make ⟨soc, []⟩).objects s.workers.next = some ⟨soc, []⟩ :=
    Function.update_self ..
  have hwriter : (s.workers.make ⟨soc, [req.echo]⟩).objects s.workers.next ≠ none := by
    show Function.update s.workers.objects s.workers.next _ s.workers.next ≠ none
    rw [Function.update_self]
    exact Option.some_ne_none _
  rw [work, associate, h]
  dsimp only
  rw [send, hmake]
  dsimp only
  rw [if_pos rfl, Shared.modify_make, drop_asyncWrite hwriter rfl]
  rfl

/-- The sender after a request whose socket has an entry. -/
def overtake (s : Sender) (soc : Socket) (id : Nat) (x : Bytes) : Sender :=
  { s with
    workers := s.workers.skip.modify id fun w => { w with ls := w.ls ++ [x] }
    hired := Function.update s.hired soc none
    requested := Function.update s.requested soc (s.requested soc ++ [x]) }

theorem associate_hired (h : s.hired soc = some id) (hw : s.workers.objects id = some w) :
    s.associate soc = ({ s with
      workers := s.workers.skip.acquire id, hired := Function.update s.hired soc none }, some id) := by
  have hne : s.workers.next ≠ id := Nat.ne_of_gt (Shared.lt_next hw)
  have hold : (s.workers.make ⟨soc, []⟩).objects id = some w :=
    (Function.update_of_ne hne.symm ..).trans hw
  have hmake : ((s.workers.make ⟨soc, []⟩).acquire id).objects s.workers.next = some ⟨soc, []⟩ :=
    Function.update_self ..
  have huses : ((s.workers.make ⟨soc, []⟩).acquire id).uses s.workers.next = 1 :=
    (Function.update_of_ne hne ..).trans (Function.update_self ..)
  rw [associate, h]
  dsimp only
  rw [lock, hold]
  dsimp only
  rw [drop_last hmake huses]
  dsimp only
  rw [Shared.acquire_release_of_ne hne, Shared.release_make]

theorem work_overtake (h : s.hired soc = some id) (hw : s.workers.objects id = some w)
    (hls : w.ls ≠ []) : s.work soc req = overtake s soc id req.echo := by
  have huses : 1 < (s.workers.skip.acquire id).uses id := by
    have hpos : s.workers.skip.uses id ≠ 0 := Nat.ne_of_gt (Shared.uses_pos hw)
    show 1 < Function.update s.workers.uses id _ id
    rw [Function.update_self, if_neg hpos]
    omega
  have hassociate := associate_hired (s := { s with
    requested := Function.update s.requested soc (s.requested soc ++ [req.echo]) }) h hw
  rw [work, hassociate]
  dsimp only
  have hold : (s.workers.skip.acquire id).objects id = some w := hw
  rw [send, hold]
  dsimp only
  rw [if_neg hls, Shared.modify_acquire, drop_more huses]
  dsimp only
  rw [Shared.release_acquire]
  rfl

/-- The handler of a write that is the last of its writer. -/
theorem done_last {p : Write} {err : Bool} (hw : s.workers.objects p.writer = some w)
    (huses : s.workers.uses p.writer = 1) (hlast : err = true ∨ w.ls.tail = []) :
    s.next (.done p err) = { s with
      workers := s.workers.release p.writer, writes := s.writes.erase p
      hired := Function.update s.hired w.soc none } := by
  show (writeb { s with writes := s.writes.erase p } p.writer err).drop p.writer = _
  rw [writeb]
  by_cases herr : err = true
  · rw [if_pos herr]
    exact drop_last hw huses
  · have hpop : (s.workers.modify p.writer fun w => { w with ls := w.ls.tail }).objects p.writer =
        some { w with ls := w.ls.tail } := by
      show Function.update s.workers.objects p.writer _ p.writer = _
      rw [Function.update_self, hw]
      rfl
    rw [if_neg herr, hw]
    dsimp only
    rw [if_neg (not_not.mpr (hlast.resolve_left herr))]
    refine Eq.trans (drop_last hpop huses) ?_
    dsimp only
    rw [Shared.release_modify (Nat.le_of_eq huses)]

/-- The handler of a write with more to follow. -/
theorem done_more {p : Write} {err : Bool} {x y : Bytes} {ls : List Bytes}
    (hw : s.workers.objects p.writer = some ⟨soc, x :: y :: ls⟩) (herr : err = false) :
    s.next (.done p err) = { s with
      workers := s.workers.modify p.writer fun w => { w with ls := w.ls.tail }
      writes := s.writes.erase p ++ [⟨p.writer, soc⟩]
      written := Function.update s.written soc (s.written soc ++ [y]) } := by
  have hpop : (s.workers.modify p.writer fun w => { w with ls := w.ls.tail }).objects p.writer ≠ none := by
    show Function.update s.workers.objects p.writer _ p.writer ≠ none
    rw [Function.update_self, hw]
    exact Option.some_ne_none _
  show (writeb { s with writes := s.writes.erase p } p.writer err).drop p.writer = _
  rw [writeb, if_neg (by rw [herr]; exact Bool.false_ne_true), hw]
  dsimp only
  rw [if_pos (show (x :: y :: ls).tail ≠ [] from List.cons_ne_nil y ls)]
  exact drop_asyncWrite hpop rfl

/-! ## The pointers -/

/-- Every writer has one write outstanding, which has the only pointer to it, and the
map has no dangling pointer. -/
structure Counted (s : Sender) : Prop where
  held : ∀ id w, s.workers.objects id = some w →
    s.workers.uses id = 1 ∧ w.ls ≠ [] ∧ ⟨id, w.soc⟩ ∈ s.writes
  writes : ∀ p ∈ s.writes, ∃ w, s.workers.objects p.writer = some w ∧ w.soc = p.soc
  nodup : (s.writes.map Write.writer).Nodup
  hired : ∀ soc id, s.hired soc = some id → ∃ w, s.workers.objects id = some w ∧ w.soc = soc
  safe : s.fault = false

theorem request_cases (h : Counted s) (soc : Socket) (req : HttpRequest) :
    (s.hired soc = none ∧ s.work soc req = hire s soc req.echo) ∨
      ∃ id w, s.workers.objects id = some w ∧ w.soc = soc ∧
        s.work soc req = overtake s soc id req.echo := by
  cases hsoc : s.hired soc with
  | none => exact .inl ⟨rfl, work_hire hsoc⟩
  | some id =>
    obtain ⟨w, hw, hwsoc⟩ := h.hired soc id hsoc
    exact .inr ⟨id, w, hw, hwsoc, work_overtake hsoc hw (h.held id w hw).2.1⟩

theorem counted_hire (h : Counted s) (hsoc : s.hired soc = none) (x : Bytes) :
    Counted (hire s soc x) := by
  have hnew : ∀ p ∈ s.writes, p.writer ≠ s.workers.next := by
    intro p hp
    obtain ⟨w, hw, _⟩ := h.writes p hp
    exact Nat.ne_of_lt (Shared.lt_next hw)
  have hself : (hire s soc x).workers.objects s.workers.next = some ⟨soc, [x]⟩ :=
    Function.update_self ..
  have hold : ∀ id w, s.workers.objects id = some w → (hire s soc x).workers.objects id = some w :=
    fun id w hw => (Function.update_of_ne (Nat.ne_of_lt (Shared.lt_next hw)) ..).trans hw
  refine ⟨fun id w hw => ?_, fun p hp => ?_, ?_, fun soc' id hid => ?_, h.safe⟩
  · rcases Shared.of_update hw with ⟨rfl, heq⟩ | ⟨hne, hw⟩
    · obtain rfl := Option.some.inj heq
      exact ⟨Function.update_self .., List.cons_ne_nil _ _,
        List.mem_append_right _ (List.mem_singleton_self _)⟩
    · obtain ⟨huses, hls, hwrite⟩ := h.held id w hw
      exact ⟨(Function.update_of_ne hne ..).trans huses, hls, List.mem_append_left _ hwrite⟩
  · rcases List.mem_append.mp hp with hp | hp
    · obtain ⟨w, hw, hwsoc⟩ := h.writes p hp
      exact ⟨w, hold _ _ hw, hwsoc⟩
    · rw [List.mem_singleton.mp hp]
      exact ⟨_, hself, rfl⟩
  · show ((s.writes ++ [_]).map Write.writer).Nodup
    rw [List.map_append, List.map_singleton, ← List.concat_eq_append]
    refine h.nodup.concat fun hmem => ?_
    obtain ⟨p, hp, heq⟩ := List.mem_map.mp hmem
    exact hnew p hp heq
  · rcases Shared.of_update hid with ⟨rfl, heq⟩ | ⟨_, hid⟩
    · rw [← Option.some.inj heq]
      exact ⟨_, hself, rfl⟩
    · obtain ⟨w, hw, hwsoc⟩ := h.hired soc' id hid
      exact ⟨w, hold _ _ hw, hwsoc⟩

theorem counted_overtake (h : Counted s) (hw : s.workers.objects id = some w) (x : Bytes) :
    Counted (overtake s soc id x) := by
  have hkept : ∀ id' w', s.workers.objects id' = some w' →
      ∃ w'', (overtake s soc id x).workers.objects id' = some w'' ∧ w''.soc = w'.soc := by
    intro id' w' hw'
    obtain ⟨w'', hw'', rfl | rfl⟩ :=
      Shared.objects_modify (h := s.workers.skip) (fun w => { w with ls := w.ls ++ [x] }) hw'
    · exact ⟨w'', hw'', rfl⟩
    · exact ⟨_, hw'', rfl⟩
  refine ⟨fun id' w' hw' => ?_, fun p hp => ?_, h.nodup, fun soc' id' hid => ?_, h.safe⟩
  · rcases Shared.of_update hw' with ⟨rfl, hw'⟩ | ⟨_, hw'⟩
    · rw [show s.workers.skip.objects id' = some w from hw] at hw'
      obtain rfl := Option.some.inj hw'
      obtain ⟨huses, _, hwrite⟩ := h.held id' w hw
      exact ⟨huses, List.append_ne_nil_of_right_ne_nil _ (List.cons_ne_nil _ _), hwrite⟩
    · exact h.held id' w' hw'
  · obtain ⟨w', hw', hsoc⟩ := h.writes p hp
    obtain ⟨w'', hw'', hsoc'⟩ := hkept p.writer w' hw'
    exact ⟨w'', hw'', hsoc'.trans hsoc⟩
  · rcases Shared.of_update hid with ⟨_, hid⟩ | ⟨_, hid⟩
    · cases hid
    · obtain ⟨w', hw', hsoc⟩ := h.hired soc' id' hid
      obtain ⟨w'', hw'', hsoc'⟩ := hkept id' w' hw'
      exact ⟨w'', hw'', hsoc'.trans hsoc⟩

theorem counted_last (h : Counted s) {p : Write} (hp : p ∈ s.writes)
    (hw : s.workers.objects p.writer = some w) : Counted { s with
      workers := s.workers.release p.writer, writes := s.writes.erase p
      hired := Function.update s.hired w.soc none } := by
  have hrelease := Shared.objects_release (Nat.le_of_eq (h.held p.writer w hw).1)
  have hother : ∀ q ∈ s.writes.erase p, q ∈ s.writes ∧ q.writer ≠ p.writer := by
    intro q hq
    have hmem := (h.nodup.of_map _).mem_erase_iff.mp hq
    exact ⟨hmem.2, fun heq => hmem.1 (List.inj_on_of_nodup_map h.nodup hmem.2 hp heq)⟩
  have hkept : ∀ {id' w'}, id' ≠ p.writer → s.workers.objects id' = some w' →
      (s.workers.release p.writer).objects id' = some w' := by
    intro id' w' hne hw'
    rw [hrelease, Function.update_of_ne hne]
    exact hw'
  refine ⟨fun id' w' hw' => ?_, fun q hq => ?_, ?_, fun soc' id' hid => ?_, h.safe⟩
  · change (s.workers.release p.writer).objects id' = some w' at hw'
    rw [hrelease] at hw'
    rcases Shared.of_update hw' with ⟨_, heq⟩ | ⟨hne, hw'⟩
    · cases heq
    · obtain ⟨huses, hls, hwrite⟩ := h.held id' w' hw'
      refine ⟨(Function.update_of_ne hne ..).trans huses, hls, ?_⟩
      exact (h.nodup.of_map _).mem_erase_iff.mpr ⟨fun heq => hne (congrArg Write.writer heq), hwrite⟩
  · obtain ⟨hq, hne⟩ := hother q hq
    obtain ⟨w', hw', hsoc⟩ := h.writes q hq
    exact ⟨w', hkept hne hw', hsoc⟩
  · exact h.nodup.sublist ((List.erase_sublist ..).map _)
  · rcases Shared.of_update hid with ⟨_, heq⟩ | ⟨hne, hid⟩
    · cases heq
    · obtain ⟨w', hw', hsoc⟩ := h.hired soc' id' hid
      refine ⟨w', hkept ?_ hw', hsoc⟩
      rintro rfl
      rw [hw] at hw'
      exact hne (hsoc.symm.trans (congrArg Socwriter.soc (Option.some.inj hw'.symm)))

theorem counted_more (h : Counted s) {p : Write} (hp : p ∈ s.writes) {x y : Bytes} {ls : List Bytes}
    (hw : s.workers.objects p.writer = some ⟨p.soc, x :: y :: ls⟩) : Counted { s with
      workers := s.workers.modify p.writer fun w => { w with ls := w.ls.tail }
      writes := s.writes.erase p ++ [⟨p.writer, p.soc⟩]
      written := Function.update s.written p.soc (s.written p.soc ++ [y]) } := by
  have hperm : (s.writes.erase p ++ [p]).Perm s.writes :=
    (List.perm_append_singleton p _).trans (List.perm_cons_erase hp).symm
  have hkept : ∀ id' w', s.workers.objects id' = some w' →
      ∃ w'', (s.workers.modify p.writer fun w => { w with ls := w.ls.tail }).objects id' = some w'' ∧
        w''.soc = w'.soc := by
    intro id' w' hw'
    obtain ⟨w'', hw'', rfl | rfl⟩ :=
      Shared.objects_modify (fun w : Socwriter => { w with ls := w.ls.tail }) hw'
    · exact ⟨w'', hw'', rfl⟩
    · exact ⟨_, hw'', rfl⟩
  refine ⟨fun id' w' hw' => ?_, fun q hq => ?_, ?_, fun soc' id' hid => ?_, h.safe⟩
  · rcases Shared.of_update hw' with ⟨rfl, heq⟩ | ⟨_, hw'⟩
    · rw [hw] at heq
      obtain rfl := Option.some.inj heq
      exact ⟨(h.held _ _ hw).1, List.cons_ne_nil _ _, hperm.mem_iff.mpr hp⟩
    · obtain ⟨huses, hls, hwrite⟩ := h.held id' w' hw'
      exact ⟨huses, hls, hperm.mem_iff.mpr hwrite⟩
  · obtain ⟨w', hw', hsoc⟩ := h.writes q (hperm.mem_iff.mp hq)
    obtain ⟨w'', hw'', hsoc'⟩ := hkept q.writer w' hw'
    exact ⟨w'', hw'', hsoc'.trans hsoc⟩
  · exact ((hperm.map _).nodup_iff).mpr h.nodup
  · obtain ⟨w', hw', hsoc⟩ := h.hired soc' id' hid
    obtain ⟨w'', hw'', hsoc'⟩ := hkept id' w' hw'
    exact ⟨w'', hw'', hsoc'.trans hsoc⟩

theorem done_cases (h : Counted s) {p : Write} (hp : p ∈ s.writes) (err : Bool) :
    (∃ w, s.workers.objects p.writer = some w ∧ (err = true ∨ w.ls.tail = [])) ∨
      ∃ x y ls, s.workers.objects p.writer = some ⟨p.soc, x :: y :: ls⟩ ∧ err = false := by
  obtain ⟨⟨soc, ls⟩, hw, rfl⟩ := h.writes p hp
  cases err with
  | true => exact .inl ⟨_, hw, .inl rfl⟩
  | false =>
    match ls with
    | [] => exact .inl ⟨_, hw, .inr rfl⟩
    | [x] => exact .inl ⟨_, hw, .inr rfl⟩
    | x :: y :: ls => exact .inr ⟨x, y, ls, hw, rfl⟩

theorem counted_step {ev : Event} (h : Counted s) (hstep : Step s ev t) : Counted t := by
  obtain ⟨henabled, rfl⟩ := hstep
  cases ev with
  | request soc req =>
    show Counted (s.work soc req)
    rcases request_cases h soc req with ⟨hsoc, heq⟩ | ⟨id, w, hw, _, heq⟩
    · rw [heq]
      exact counted_hire h hsoc _
    · rw [heq]
      exact counted_overtake h hw _
  | done p err =>
    have hp := henabled.2
    rcases done_cases h hp err with ⟨w, hw, hlast⟩ | ⟨x, y, ls, hw, herr⟩
    · rw [done_last hw (h.held _ w hw).1 hlast]
      exact counted_last h hp hw
    · rw [done_more hw herr]
      exact counted_more h hp hw

theorem counted_start : Counted start := by
  refine ⟨fun id w hw => ?_, fun p hp => ?_, List.nodup_nil, fun soc id hid => ?_, rfl⟩
  · cases hw
  · cases hp
  · cases hid

/-- No call goes through a null pointer, and every pointer in the map is to a writer
of its socket. -/
theorem counted_run {evs : List Event} (h : Run Step start evs s) : Counted s :=
  h.invariant (P := Counted) (fun _ _ _ hs hstep => counted_step hs hstep) counted_start

/-! ## The main result -/

/-- Every writer writes one response, and the map designates it. -/
structure Single (s : Sender) : Prop where
  designated : ∀ id w, s.workers.objects id = some w → s.hired w.soc = some id
  single : ∀ id w, s.workers.objects id = some w → w.ls.tail = []
  order : s.written = s.requested

theorem single_hire (h : Single s) (hsoc : s.hired soc = none) (x : Bytes) :
    Single (hire s soc x) := by
  refine ⟨fun id w hw => ?_, fun id w hw => ?_, ?_⟩
  · rcases Shared.of_update hw with ⟨rfl, heq⟩ | ⟨_, hw⟩
    · obtain rfl := Option.some.inj heq
      exact Function.update_self ..
    · have hdesignated := h.designated id w hw
      have hne : w.soc ≠ soc := by
        rintro rfl
        rw [hsoc] at hdesignated
        cases hdesignated
      exact (Function.update_of_ne hne ..).trans hdesignated
  · rcases Shared.of_update hw with ⟨_, heq⟩ | ⟨_, hw⟩
    · rw [← Option.some.inj heq]
      rfl
    · exact h.single id w hw
  · show Function.update s.written soc _ = Function.update s.requested soc _
    rw [h.order]

theorem single_last (hc : Counted s) (h : Single s) {p : Write}
    (hw : s.workers.objects p.writer = some w) : Single { s with
      workers := s.workers.release p.writer, writes := s.writes.erase p
      hired := Function.update s.hired w.soc none } := by
  have hrelease := Shared.objects_release (Nat.le_of_eq (hc.held p.writer w hw).1)
  have hold : ∀ {id' w'}, (s.workers.release p.writer).objects id' = some w' →
      id' ≠ p.writer ∧ s.workers.objects id' = some w' := by
    intro id' w' hw'
    rw [hrelease] at hw'
    rcases Shared.of_update hw' with ⟨_, heq⟩ | hw'
    · cases heq
    · exact hw'
  refine ⟨fun id' w' hw' => ?_, fun id' w' hw' => h.single id' w' (hold hw').2, h.order⟩
  obtain ⟨hne, hw'⟩ := hold hw'
  have hdesignated := h.designated id' w' hw'
  have hsoc : w'.soc ≠ w.soc := by
    intro heq
    rw [heq, h.designated _ w hw] at hdesignated
    exact hne (Option.some.inj hdesignated).symm
  exact (Function.update_of_ne hsoc ..).trans hdesignated

theorem single_step {ev : Event} (hc : Counted s) (h : Single s) (hok : Ok s ev)
    (hstep : Step s ev t) : Single t := by
  obtain ⟨henabled, rfl⟩ := hstep
  cases ev with
  | request soc req =>
    show Single (s.work soc req)
    rcases request_cases hc soc req with ⟨hsoc, heq⟩ | ⟨id, w, hw, rfl, _⟩
    · rw [heq]
      exact single_hire h hsoc _
    · exact absurd (List.mem_map_of_mem (hc.held id w hw).2.2) hok
  | done p err =>
    obtain ⟨w, hw, _⟩ := hc.writes p henabled.2
    rw [done_last hw (hc.held _ w hw).1 (.inr (h.single _ w hw))]
    exact single_last hc h hw

theorem sound_of_single (hc : Counted s) (h : Single s) : Sound s := by
  refine ⟨fun id id' w w' hw hw' hsoc => ?_, h.designated, fun soc => ?_, fun soc => ?_⟩
  · have hdesignated := h.designated id w hw
    rw [hsoc, h.designated id' w' hw'] at hdesignated
    exact (Option.some.inj hdesignated).symm
  · have hsame : ∀ p ∈ s.writes.filter fun w => w.soc = soc, s.hired soc = some p.writer := by
      intro p hp
      obtain ⟨hmem, hsoc⟩ := List.mem_filter.mp hp
      obtain ⟨w, hw, hwsoc⟩ := hc.writes p hmem
      rw [← of_decide_eq_true hsoc, ← hwsoc]
      exact h.designated _ w hw
    have hnodup := hc.nodup.sublist ((List.filter_sublist (p := fun w : Write => w.soc = soc)).map _)
    cases hfilter : s.writes.filter fun w => w.soc = soc with
    | nil => exact Nat.zero_le 1
    | cons p ps =>
      cases ps with
      | nil => exact Nat.le_refl 1
      | cons q ps =>
        rw [hfilter] at hsame hnodup
        have heq := (hsame p List.mem_cons_self).symm.trans
          (hsame q (List.mem_cons_of_mem _ List.mem_cons_self))
        rw [List.map_cons, List.nodup_cons, List.map_cons, Option.some.inj heq] at hnodup
        exact absurd List.mem_cons_self hnodup.1
  · exact ⟨[], (List.append_nil _).trans (congrFun h.order soc)⟩

theorem single_run {evs : List Event} (h : Run (Guarded Ok Step) start evs s) :
    Counted s ∧ Single s := by
  refine h.invariant (P := fun s => Counted s ∧ Single s) (fun _ _ _ hs hstep => ?_)
    ⟨counted_start, ?_⟩
  · exact ⟨counted_step hs.1 hstep.2, single_step hs.1 hs.2 hstep.1 hstep.2⟩
  · refine ⟨fun id w hw => ?_, fun id w hw => ?_, rfl⟩
    · cases hw
    · cases hw

/-- A second request takes the writer of the first one out of the map. -/
theorem not_sound {ev : Event} (hc : Counted s) (h : Single s) (hstep : Step s ev t)
    (hok : ¬Ok s ev) : ¬Sound t := by
  obtain ⟨_, rfl⟩ := hstep
  cases ev with
  | done p err => exact absurd trivial hok
  | request soc req =>
    intro hsound
    obtain ⟨p, hp, rfl⟩ := List.mem_map.mp (not_not.mp hok)
    obtain ⟨w, hw, hsoc⟩ := hc.writes p hp
    have hhired := h.designated _ w hw
    rw [hsoc] at hhired
    have hovertake : s.next (.request p.soc req) = overtake s p.soc p.writer req.echo :=
      work_overtake hhired hw (hc.held _ w hw).2.1
    have hnone : (overtake s p.soc p.writer req.echo).hired p.soc = none := Function.update_self ..
    rw [hovertake] at hsound
    obtain ⟨w', hw', hwsoc⟩ : ∃ w', (overtake s p.soc p.writer req.echo).workers.objects p.writer =
        some w' ∧ w'.soc = p.soc := by
      obtain ⟨w', hw', rfl | rfl⟩ := Shared.objects_modify (h := s.workers.skip)
        (fun w => { w with ls := w.ls ++ [req.echo] }) hw
      · exact ⟨w', hw', hsoc⟩
      · exact ⟨_, hw', hsoc⟩
    have hdesignated := hsound.designated _ w' hw'
    rw [hwsoc, hnone] at hdesignated
    cases hdesignated

/-- There is one writer a socket as long as the steps of a run meet the condition, and
no longer. -/
theorem one_writer {evs : List Event} (h : Run (Guarded Ok Step) start evs s) :
    Sound s ∧ ∀ ev t, Step s ev t → (Sound t ↔ Ok s ev) := by
  obtain ⟨hc, hs⟩ := single_run h
  refine ⟨sound_of_single hc hs, fun ev t hstep => ⟨fun hsound => ?_, fun hok => ?_⟩⟩
  · by_contra hok
    exact not_sound hc hs hstep hok hsound
  · exact sound_of_single (counted_step hc hstep) (single_step hc hs hok hstep)

instance (s : Sender) : ∀ ev, Decidable (Ok s ev)
  | .request _ _ => inferInstanceAs (Decidable (_ ∉ _))
  | .done _ _ => .isTrue trivial

def get (uri : String) : HttpRequest := ⟨bytes "GET", bytes uri, bytes "HTTP/1.1", [], []⟩

/-- Two sockets, and a second request on the first one after its response. -/
def inTurn : List Event :=
  [.request 3 (get "/a"), .request 4 (get "/b"), .done ⟨0, 3⟩ false, .request 3 (get "/c"),
    .done ⟨1, 4⟩ true]

theorem one_writer_inTurn : Sound (inTurn.foldl next start) :=
  (one_writer (Run.plays_guarded (by decide))).1

/-- Three requests on one socket while the first response is being written. -/
def pipelined : List Event :=
  [.request 3 (get "/a"), .request 3 (get "/b"), .request 3 (get "/c")]

/-- The third response is written by a writer of its own while the first one still is,
and the second one comes after both. -/
theorem two_writers : ∃ s, Run Step start pipelined s ∧ ¬Sound s ∧
    s.writes = [⟨0, 3⟩, ⟨2, 3⟩] ∧ s.hired 3 = some 2 ∧
    s.written 3 = [(get "/a").echo, (get "/c").echo] := by
  refine ⟨_, Run.plays (by decide), fun h => ?_, by decide, by decide, by decide⟩
  exact absurd (h.oneWrite 3) (by decide)

end CppSnippets.As.OneWriter
