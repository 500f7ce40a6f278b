import CppSnippets.PushProxy.Upstream
import CppSnippets.PushRelay.Upstream

/-!
# `write_msg`, loop by loop

Both upstream sides drop the entries of clients that are gone, bring the first entry
with a message to the front and write from there, by walking a list that they change.
An iterator is the entries it has passed and those from its own on. The states of the
two upstream sides say what `write_msg` leaves and whether it went wrong; here is why.
-/
namespace CppSnippets.Push

/-- The first loop of the proxy, which goes on from what `erase` returns. -/
def eraseNext (passed : List PushData) : List PushData → List PushData
  | [] => passed
  | d :: rest => if d.connected then eraseNext (passed ++ [d]) rest else eraseNext passed rest

/-- The first loop of the relay: `++i` follows also where the entry of `i` is erased,
and `none` is that. -/
def eraseStay (passed : List PushData) : List PushData → Option (List PushData)
  | [] => some passed
  | d :: rest => if d.connected then eraseStay (passed ++ [d]) rest else none

/-- The second loop. -/
def spliceFirst (passed : List PushData) : List PushData → List PushData
  | [] => passed
  | d :: rest =>
    if !d.data.isEmpty then (if passed = [] then d :: rest else d :: (passed ++ rest))
    else spliceFirst (passed ++ [d]) rest

/-- What `write_msg` is for: the entries that stay, in the order they get, and the
message that is written with its client. -/
inductive Chosen (bufs : List PushData) : List PushData → Option (Client × Nat) → Prop where
  | first {passed rest : List PushData} {c : Client} {connected : Bool} {msg : Nat} {data : List Nat}
      (hlive : bufs.filter PushData.connected = passed ++ ⟨c, connected, msg :: data⟩ :: rest)
      (hempty : ∀ d ∈ passed, d.data = []) :
      Chosen bufs (⟨c, connected, msg :: data⟩ :: (passed ++ rest)) (some (c, msg))
  | nothing (hempty : ∀ d ∈ bufs.filter PushData.connected, d.data = []) :
      Chosen bufs (bufs.filter PushData.connected) none

/-! ## What the loops do -/

theorem eraseNext_eq (passed bufs : List PushData) :
    eraseNext passed bufs = passed ++ bufs.filter PushData.connected := by
  induction bufs generalizing passed with
  | nil => rw [eraseNext, List.filter_nil, List.append_nil]
  | cons d rest ih =>
    rw [eraseNext, List.filter_cons]
    split
    · rw [ih, List.append_assoc, List.singleton_append]
    · exact ih passed

theorem eraseStay_eq (passed bufs : List PushData) :
    eraseStay passed bufs =
      if ∀ d ∈ bufs, d.connected = true then some (passed ++ bufs) else none := by
  induction bufs generalizing passed with
  | nil => rw [eraseStay, if_pos fun _ h => absurd h List.not_mem_nil, List.append_nil]
  | cons d rest ih =>
    rw [eraseStay, ih]
    simp only [List.forall_mem_cons, List.append_assoc, List.singleton_append]
    by_cases hd : d.connected = true
    · rw [if_pos hd]
      simp only [hd, true_and]
    · rw [if_neg hd, if_neg fun h => hd h.1]

theorem spliceFirst_eq {passed : List PushData} (hempty : ∀ d ∈ passed, d.data.isEmpty = true)
    (bufs : List PushData) : spliceFirst passed bufs = splice (passed ++ bufs) := by
  induction bufs generalizing passed with
  | nil =>
    rw [spliceFirst, splice, List.append_nil, List.dropWhile_eq_nil_iff.mpr hempty]
  | cons d rest ih =>
    rw [spliceFirst]
    cases hd : d.data.isEmpty with
    | true =>
      rw [if_neg (by decide), ih, List.append_assoc, List.singleton_append]
      intro x hx
      rw [List.mem_append, List.mem_singleton] at hx
      exact hx.elim (hempty x) fun hx => hx ▸ hd
    | false =>
      have hnot : ¬d.data.isEmpty = true := by
        rw [hd]
        exact Bool.false_ne_true
      rw [if_pos (by decide), splice, List.dropWhile_append_of_pos hempty,
        List.dropWhile_cons_of_neg (p := fun d : PushData => d.data.isEmpty) hnot,
        List.takeWhile_append_of_pos hempty,
        List.takeWhile_cons_of_neg (p := fun d : PushData => d.data.isEmpty) hnot, List.append_nil]
      split
      · rename_i hpassed
        rw [hpassed]
        rfl
      · rfl

/-- The message in front of a list. -/
def frontMsg : List PushData → Option (Client × Nat)
  | ⟨c, _, msg :: _⟩ :: _ => some (c, msg)
  | _ => none

theorem chosen_splice (bufs : List PushData) :
    Chosen bufs (splice (bufs.filter PushData.connected))
      (frontMsg (splice (bufs.filter PushData.connected))) := by
  have hsplit := List.takeWhile_append_dropWhile (p := fun d : PushData => d.data.isEmpty)
    (l := bufs.filter PushData.connected)
  have hpassed : ∀ d ∈ (bufs.filter PushData.connected).takeWhile fun d => d.data.isEmpty, d.data = [] :=
    fun d hd => List.isEmpty_iff.mp (List.mem_takeWhile_imp (p := fun d : PushData => d.data.isEmpty) hd)
  cases hdrop : (bufs.filter PushData.connected).dropWhile fun d => d.data.isEmpty with
  | nil =>
    have hall : ∀ d ∈ bufs.filter PushData.connected, d.data = [] :=
      fun d hd => List.isEmpty_iff.mp (List.dropWhile_eq_nil_iff.mp hdrop d hd)
    have hsame : splice (bufs.filter PushData.connected) = bufs.filter PushData.connected := by
      rw [splice, hdrop]
    rw [hsame]
    have hfront : frontMsg (bufs.filter PushData.connected) = none := by
      cases hlive : bufs.filter PushData.connected with
      | nil => rfl
      | cons d rest =>
        obtain ⟨c, connected, data⟩ := d
        rw [hlive] at hall
        obtain rfl : data = [] := hall _ List.mem_cons_self
        rfl
    rw [hfront]
    exact .nothing hall
  | cons d rest =>
    have hne := List.head?_dropWhile_not (fun d : PushData => d.data.isEmpty)
      (bufs.filter PushData.connected)
    rw [hdrop, List.head?_cons] at hne
    obtain ⟨c, connected, data⟩ := d
    cases data with
    | nil => cases hne
    | cons msg data =>
      rw [hdrop] at hsplit
      have hfront : splice (bufs.filter PushData.connected) = ⟨c, connected, msg :: data⟩ ::
          (((bufs.filter PushData.connected).takeWhile fun d => d.data.isEmpty) ++ rest) := by
        rw [splice, hdrop]
      rw [hfront]
      exact .first hsplit.symm hpassed

theorem splice_eq_nil {bufs : List PushData} : splice bufs = [] ↔ bufs = [] := by
  constructor
  · intro h
    have hperm := splice_perm bufs
    rw [h] at hperm
    exact hperm.symm.eq_nil
  · intro h
    rw [h]
    rfl

end CppSnippets.Push

namespace CppSnippets.PushProxy.ApplePush

open CppSnippets.Push

/-- `write_msg` of the proxy; `none` is the front of an empty list. -/
def writeMsgLoops (s : ApplePush) : Option ApplePush :=
  if s.stage ≠ .idle ∨ s.bufs = [] then some s
  else
    let s := { s with bufs := spliceFirst [] (eraseNext [] s.bufs) }
    match s.bufs with
    | [] => none
    | d :: _ =>
      match d.data with
      | [] => some s
      | msg :: _ => some { s with stage := .writing, ops := s.ops.start (.write d.client msg) }

/-- What `write_msg` leaves where it may write. -/
def wrote (s : ApplePush) (bufs : List PushData) : Option (Client × Nat) → ApplePush
  | none => { s with bufs := bufs }
  | some (c, msg) => { s with bufs := bufs, stage := .writing, ops := s.ops.start (.write c msg) }

theorem writeMsgLoops_eq (s : ApplePush) (hrun : ¬(s.stage ≠ .idle ∨ s.bufs = [])) :
    s.writeMsgLoops =
      if splice (s.bufs.filter PushData.connected) = [] then none
      else some (s.wrote (splice (s.bufs.filter PushData.connected))
        (frontMsg (splice (s.bufs.filter PushData.connected)))) := by
  rw [writeMsgLoops, if_neg hrun, eraseNext_eq, List.nil_append,
    spliceFirst_eq (fun _ h => absurd h List.not_mem_nil), List.nil_append]
  cases splice (s.bufs.filter PushData.connected) with
  | nil => rfl
  | cons d rest =>
    rw [if_neg (List.cons_ne_nil d rest)]
    obtain ⟨c, connected, data⟩ := d
    cases data with
    | nil => rfl
    | cons msg data => rfl

/-- The loops leave what the state of the upstream side says. -/
theorem writeMsg_eq (s : ApplePush) :
    s.writeMsg = s.writeMsgLoops.getD { s with bufs := [], fault := true } := by
  by_cases hrun : s.stage ≠ .idle ∨ s.bufs = []
  · rw [writeMsg, if_pos hrun, writeMsgLoops, if_pos hrun]
    rfl
  · rw [writeMsg, if_neg hrun, writeMsgLoops_eq s hrun, writeFront]
    show (match splice (s.bufs.filter PushData.connected) with | [] => _ | d :: rest => _) = _
    cases splice (s.bufs.filter PushData.connected) with
    | nil => rfl
    | cons d rest =>
      rw [if_neg (List.cons_ne_nil d rest)]
      obtain ⟨c, connected, data⟩ := d
      cases data with
      | nil => rfl
      | cons msg data => rfl

/-- Nothing goes wrong; and where it may write, the right entries stay in the right
order and the right write is started. -/
def Served (s : ApplePush) : Prop :=
  ∃ t, s.writeMsgLoops = some t ∧
    (s.stage = .idle → ∃ bufs msg, Chosen s.bufs bufs msg ∧ t = s.wrote bufs msg)

theorem served_iff (s : ApplePush) :
    Served s ↔ s.stage ≠ .idle ∨ s.bufs = [] ∨ ∃ d ∈ s.bufs, d.connected = true := by
  by_cases hrun : s.stage ≠ .idle ∨ s.bufs = []
  · refine iff_of_true ⟨s, by rw [writeMsgLoops, if_pos hrun], fun hidle => ?_⟩ ?_
    · have hbufs := hrun.resolve_left fun h => h hidle
      have hchosen := chosen_splice s.bufs
      rw [hbufs] at hchosen ⊢
      exact ⟨[], none, hchosen, by rw [wrote, ← hbufs]⟩
    · exact hrun.imp_right .inl
  · rw [not_or] at hrun
    have hlive : splice (s.bufs.filter PushData.connected) = [] ↔ ¬∃ d ∈ s.bufs, d.connected = true := by
      rw [splice_eq_nil, List.filter_eq_nil_iff]
      simp only [not_exists, not_and]
    rw [or_iff_right hrun.1, or_iff_right hrun.2, Served, writeMsgLoops_eq s (not_or.mpr hrun)]
    split
    · rename_i hnone
      refine iff_of_false ?_ (hlive.mp hnone)
      intro h
      obtain ⟨t, ht, _⟩ := h
      cases ht
    · rename_i hsome
      refine iff_of_true ⟨_, rfl, fun _ => ?_⟩ (not_not.mp fun h => hsome (hlive.mpr h))
      exact ⟨_, _, chosen_splice s.bufs, rfl⟩

end CppSnippets.PushProxy.ApplePush

namespace CppSnippets.PushRelay.ApplePush

open CppSnippets.Push

/-- `write_msg` of the relay; `none` is an iterator that is used after its entry is
erased, or the front of an empty list. -/
def writeMsgLoops (s : ApplePush) : Option ApplePush :=
  if s.stage ≠ .ready ∨ s.bufs = [] then some s
  else do
    let bufs ← eraseStay [] s.bufs
    let s := { s with bufs := spliceFirst [] bufs }
    match s.bufs with
    | [] => none
    | d :: _ =>
      match d.data with
      | [] => some s
      | msg :: _ =>
        some { s with
          stage := .writing, ops := s.ops.start (.write d.client msg)
          log := s.log ++ [.started d.client msg] }

/-- What `write_msg` leaves where it may write. -/
def wrote (s : ApplePush) (bufs : List PushData) : Option (Client × Nat) → ApplePush
  | none => { s with bufs := bufs }
  | some (c, msg) =>
    { s with
      bufs := bufs, stage := .writing, ops := s.ops.start (.write c msg)
      log := s.log ++ [.started c msg] }

theorem writeMsgLoops_eq (s : ApplePush) (hrun : ¬(s.stage ≠ .ready ∨ s.bufs = [])) :
    s.writeMsgLoops =
      if ∀ d ∈ s.bufs, d.connected = true then some (s.wrote (splice s.bufs) (frontMsg (splice s.bufs)))
      else none := by
  have hne : splice s.bufs ≠ [] := fun h => hrun (.inr (splice_eq_nil.mp h))
  rw [writeMsgLoops, if_neg hrun, eraseStay_eq, List.nil_append]
  split
  · rw [Option.bind_eq_bind, Option.bind_some, spliceFirst_eq (fun _ h => absurd h List.not_mem_nil),
      List.nil_append]
    generalize splice s.bufs = bufs at hne ⊢
    cases bufs with
    | nil => exact absurd rfl hne
    | cons d rest =>
      obtain ⟨c, connected, data⟩ := d
      cases data with
      | nil => rfl
      | cons msg data => rfl
  · rfl

/-- The loops leave what the state of the upstream side says. -/
theorem writeMsg_eq (s : ApplePush) : s.writeMsg = s.writeMsgLoops.getD { s with fault := true } := by
  by_cases hrun : s.stage ≠ .ready ∨ s.bufs = []
  · rw [writeMsg, if_pos hrun, writeMsgLoops, if_pos hrun]
    rfl
  · have hne : splice s.bufs ≠ [] := fun h => hrun (.inr (splice_eq_nil.mp h))
    have hany : (s.bufs.any fun d => !d.connected) = true ↔ ¬∀ d ∈ s.bufs, d.connected = true := by
      rw [List.any_eq_true]
      push Not
      simp only [Bool.not_eq_true', ne_eq, Bool.not_eq_true]
    rw [writeMsg, if_neg hrun, writeMsgLoops_eq s hrun]
    by_cases hall : ∀ d ∈ s.bufs, d.connected = true
    · rw [if_neg fun h => hany.mp h hall, if_pos hall, writeFront]
      show (match splice s.bufs with | [] => _ | d :: rest => _) = _
      generalize splice s.bufs = bufs at hne ⊢
      cases bufs with
      | nil => exact absurd rfl hne
      | cons d rest =>
        obtain ⟨c, connected, data⟩ := d
        cases data with
        | nil => rfl
        | cons msg data => rfl
    · rw [if_pos (hany.mpr hall), if_neg hall]
      rfl

/-- Nothing goes wrong; and where it may write, the right entries stay in the right
order and the right write is started. -/
def Served (s : ApplePush) : Prop :=
  ∃ t, s.writeMsgLoops = some t ∧
    (s.stage = .ready → ∃ bufs msg, Chosen s.bufs bufs msg ∧ t = s.wrote bufs msg)

theorem served_iff (s : ApplePush) :
    Served s ↔ s.stage ≠ .ready ∨ ∀ d ∈ s.bufs, d.connected = true := by
  by_cases hrun : s.stage ≠ .ready ∨ s.bufs = []
  · refine iff_of_true ⟨s, by rw [writeMsgLoops, if_pos hrun], fun hready => ?_⟩ (hrun.imp_right ?_)
    · have hbufs := hrun.resolve_left fun h => h hready
      have hchosen := chosen_splice s.bufs
      rw [hbufs] at hchosen ⊢
      exact ⟨[], none, hchosen, by rw [wrote, ← hbufs]⟩
    · intro hbufs d hd
      rw [hbufs] at hd
      cases hd
  · rw [not_or] at hrun
    rw [or_iff_right hrun.1, Served, writeMsgLoops_eq s (not_or.mpr hrun)]
    split
    · rename_i hall
      have hchosen := chosen_splice s.bufs
      rw [List.filter_eq_self.mpr hall] at hchosen
      exact iff_of_true ⟨_, rfl, fun _ => ⟨_, _, hchosen, rfl⟩⟩ hall
    · rename_i hnot
      refine iff_of_false ?_ hnot
      intro h
      obtain ⟨t, ht, _⟩ := h
      cases ht

end CppSnippets.PushRelay.ApplePush

namespace CppSnippets.Push

/-- The proxy goes wrong where all clients of its entries are gone, the relay where
one of them is, and nowhere else. -/
theorem write_msg_served_iff (s : PushProxy.ApplePush) (r : PushRelay.ApplePush) :
    (s.Served ↔ s.stage ≠ .idle ∨ s.bufs = [] ∨ ∃ d ∈ s.bufs, d.connected = true) ∧
    (r.Served ↔ r.stage ≠ .ready ∨ ∀ d ∈ r.bufs, d.connected = true) :=
  ⟨PushProxy.ApplePush.served_iff s, PushRelay.ApplePush.served_iff r⟩

/-- The only client is gone; and one of two is. -/
theorem write_msg_not_served :
    ¬PushProxy.ApplePush.Served
      { stage := .idle, bufs := [⟨0, false, [0]⟩], ops := [], taken := 1, replies := fun _ => .empty
        gone := [0], secure := true, fault := false } ∧
    ¬PushRelay.ApplePush.Served
      { stage := .ready, bufs := [⟨0, false, []⟩, ⟨1, true, [0]⟩], replybuf := "", ops := [], taken := 1
        log := [], fault := false } := by
  constructor
  · intro h
    obtain ⟨t, ht, _⟩ := h
    cases ht
  · intro h
    obtain ⟨t, ht, _⟩ := h
    cases ht

end CppSnippets.Push
