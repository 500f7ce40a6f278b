import CppSnippets.Lib.Run
import Mathlib.Data.List.Pairwise
import Mathlib.Data.List.Sort
import Mathlib.Tactic.Basic

/-!
# A numbered queue that may lose its oldest messages

The purpose of a bounded ring between one producer and one consumer, free of
slots: messages are numbered by the order of their pushes, the consumer takes
the oldest one that is still pending, and the queue may at any time give up the
oldest pending message. A message that was taken is released, or handed back,
in which case it is pending again. The log records what the consumer saw.
-/
namespace CppSnippets.Lib

variable {M : Type*}

/-- What happened to message number `n`. -/
inductive FifoEvent (M : Type*) where
  | delivered (n : Nat) (m : M)
  | handedBack (n : Nat)
  | dropped (n : Nat)

structure LossyFifo (M : Type*) where
  sent : List M
  pending : List (Nat × M)
  taken : Option (Nat × M)
  log : List (FifoEvent M)

namespace LossyFifo

def empty : LossyFifo M := ⟨[], [], none, []⟩

inductive Label (M : Type*) where
  | push (m : M)
  | lose (m : M)
  | drop
  | take
  | release
  | giveBack

inductive Step : LossyFifo M → Label M → LossyFifo M → Prop
  | push (q : LossyFifo M) (m : M) : Step q (.push m)
      { q with sent := q.sent ++ [m], pending := q.pending ++ [(q.sent.length, m)] }
  | lose (q : LossyFifo M) (m : M) : Step q (.lose m) { q with sent := q.sent ++ [m] }
  | drop (q : LossyFifo M) (p : Nat × M) (ps : List (Nat × M)) (h : q.pending = p :: ps) :
      Step q .drop { q with pending := ps, log := q.log ++ [.dropped p.1] }
  | take (q : LossyFifo M) (p : Nat × M) (ps : List (Nat × M)) (h : q.pending = p :: ps)
      (ht : q.taken = none) : Step q .take
      { q with pending := ps, taken := some p, log := q.log ++ [.delivered p.1 p.2] }
  | release (q : LossyFifo M) (p : Nat × M) (ht : q.taken = some p) :
      Step q .release { q with taken := none }
  | giveBack (q : LossyFifo M) (p : Nat × M) (ht : q.taken = some p) : Step q .giveBack
      { q with pending := p :: q.pending, taken := none, log := q.log ++ [.handedBack p.1] }

/-- `n` is answered in `l`: delivered again, or given up by the queue. -/
def Answered (n : Nat) (l : List (FifoEvent M)) : Prop :=
  (∃ m, .delivered n m ∈ l) ∨ .dropped n ∈ l

/-- The numbers the consumer was handed, in order. -/
def received : List (FifoEvent M) → List Nat
  | [] => []
  | .delivered n _ :: l => n :: received l
  | _ :: l => received l

theorem received_append (l k : List (FifoEvent M)) :
    received (l ++ k) = received l ++ received k := by
  induction l with
  | nil => rfl
  | cons e l ih => cases e <;> simp [received, ih]

theorem mem_received {l : List (FifoEvent M)} {n : Nat} :
    n ∈ received l ↔ ∃ m, .delivered n m ∈ l := by
  induction l with
  | nil => simp [received]
  | cons e l ih => cases e <;> simp [received, ih, exists_or]

theorem Answered.append {n : Nat} {l : List (FifoEvent M)} (h : Answered n l)
    (k : List (FifoEvent M)) : Answered n (l ++ k) := by
  rcases h with ⟨m, hm⟩ | hd
  · exact Or.inl ⟨m, List.mem_append_left _ hm⟩
  · exact Or.inr (List.mem_append_left _ hd)

/-- Appending to a list splits it at its new element or before it. -/
theorem split_concat {α : Type*} {log l k : List α} {x e : α} (h : log ++ [e] = l ++ x :: k) :
    (k = [] ∧ x = e ∧ log = l) ∨ ∃ k', k = k' ++ [e] ∧ log = l ++ x :: k' := by
  rcases List.eq_nil_or_concat k with rfl | ⟨k', y, rfl⟩
  · obtain ⟨hl, hx⟩ := List.append_inj' h rfl
    exact Or.inl ⟨rfl, (List.cons.inj hx).1.symm, hl⟩
  · rw [List.concat_eq_append, ← List.cons_append, ← List.append_assoc] at h
    obtain ⟨hl, hy⟩ := List.append_inj' h rfl
    obtain rfl := (List.cons.inj hy).1
    exact Or.inr ⟨k', List.concat_eq_append, hl⟩

/-- What holds of the queue along every run. -/
structure Inv (q : LossyFifo M) : Prop where
  sorted : q.pending.Pairwise (fun p r => p.1 < r.1)
  pendingSent : ∀ p ∈ q.pending, q.sent[p.1]? = some p.2
  takenSent : ∀ p, q.taken = some p → q.sent[p.1]? = some p.2
  takenFirst : ∀ p, q.taken = some p → ∀ r ∈ q.pending, p.1 < r.1
  logSent : ∀ n m, .delivered n m ∈ q.log → q.sent[n]? = some m
  nondecreasing : (received q.log).Pairwise (· ≤ ·)
  seenPending : ∀ n ∈ received q.log, ∀ p ∈ q.pending, n ≤ p.1
  seenTaken : ∀ n ∈ received q.log, ∀ p, q.taken = some p → n ≤ p.1
  waiting : ∀ l n k, q.log = l ++ .handedBack n :: k →
    Answered n k ∨ ∃ m, (n, m) ∈ q.pending
  inOrder : ∀ l n k, q.log = l ++ .handedBack n :: k →
    ∀ k₁ n' m k₂, k = k₁ ++ .delivered n' m :: k₂ → n < n' → Answered n k₁

theorem inv_empty : Inv (empty : LossyFifo M) := by
  constructor <;> simp [empty, received]

theorem getElem?_push {l : List M} {n : Nat} {m x : M} (h : l[n]? = some m) :
    (l ++ [x])[n]? = some m := by
  rw [List.getElem?_append_left (List.getElem?_eq_some_iff.mp h).1]
  exact h

theorem lt_of_sent {l : List M} {n : Nat} {m : M} (h : l[n]? = some m) : n < l.length :=
  (List.getElem?_eq_some_iff.mp h).1

theorem inv_push {q : LossyFifo M} (h : Inv q) (m : M) : Inv
    { q with sent := q.sent ++ [m], pending := q.pending ++ [(q.sent.length, m)] } := by
  have hlast : ∀ p ∈ q.pending, p.1 < q.sent.length := fun p hp => lt_of_sent (h.pendingSent p hp)
  have hseen : ∀ n ∈ received q.log, n < q.sent.length := by
    intro n hn
    obtain ⟨x, hx⟩ := mem_received.mp hn
    exact lt_of_sent (h.logSent n x hx)
  have hmem : ∀ r, r ∈ q.pending ++ [(q.sent.length, m)] →
      r ∈ q.pending ∨ r = (q.sent.length, m) := by simp
  refine ⟨?_, ?_, fun p hp => getElem?_push (h.takenSent p hp), ?_,
    fun n x hx => getElem?_push (h.logSent n x hx), h.nondecreasing, ?_, h.seenTaken, ?_, h.inOrder⟩
  · refine List.pairwise_append.mpr ⟨h.sorted, by simp, fun p hp r hr => ?_⟩
    obtain rfl := List.mem_singleton.mp hr
    exact hlast p hp
  · intro p hp
    rcases hmem p hp with hp | rfl
    · exact getElem?_push (h.pendingSent p hp)
    · simp
  · intro p hp r hr
    rcases hmem r hr with hr | rfl
    · exact h.takenFirst p hp r hr
    · exact lt_of_sent (h.takenSent p hp)
  · intro n hn p hp
    rcases hmem p hp with hp | rfl
    · exact h.seenPending n hn p hp
    · exact Nat.le_of_lt (hseen n hn)
  · intro l n k hl
    rcases h.waiting l n k hl with ha | ⟨x, hx⟩
    · exact Or.inl ha
    · exact Or.inr ⟨x, List.mem_append_left _ hx⟩

theorem inv_lose {q : LossyFifo M} (h : Inv q) (m : M) : Inv { q with sent := q.sent ++ [m] } :=
  ⟨h.sorted, fun p hp => getElem?_push (h.pendingSent p hp),
    fun p hp => getElem?_push (h.takenSent p hp), h.takenFirst,
    fun n x hx => getElem?_push (h.logSent n x hx), h.nondecreasing, h.seenPending, h.seenTaken,
    h.waiting, h.inOrder⟩

theorem inv_drop {q : LossyFifo M} (h : Inv q) {p : Nat × M} {ps : List (Nat × M)}
    (hp : q.pending = p :: ps) :
    Inv { q with pending := ps, log := q.log ++ [.dropped p.1] } := by
  have hsub : ∀ r ∈ ps, r ∈ q.pending := fun r hr => hp ▸ List.mem_cons_of_mem p hr
  have hrec : received (q.log ++ [.dropped p.1]) = received q.log := by
    rw [received_append]; simp [received]
  refine ⟨(List.pairwise_cons.mp (hp ▸ h.sorted)).2, fun r hr => h.pendingSent r (hsub r hr),
    h.takenSent, fun t ht r hr => h.takenFirst t ht r (hsub r hr), ?_, hrec ▸ h.nondecreasing,
    ?_, ?_, ?_, ?_⟩
  · intro n m hm
    simp only [List.mem_append, List.mem_singleton, reduceCtorEq, or_false] at hm
    exact h.logSent n m hm
  · simp only [hrec]
    exact fun n hn r hr => h.seenPending n hn r (hsub r hr)
  · simp only [hrec]
    exact h.seenTaken
  · intro l n k hl
    rcases split_concat hl with ⟨_, he, _⟩ | ⟨k', rfl, hl'⟩
    · cases he
    · rcases h.waiting l n k' hl' with ha | ⟨m, hm⟩
      · exact Or.inl (ha.append _)
      · rw [hp] at hm
        rcases List.mem_cons.mp hm with rfl | hm
        · exact Or.inl (Or.inr (by simp))
        · exact Or.inr ⟨m, hm⟩
  · intro l n k hl k₁ n' m k₂ hk hlt
    rcases split_concat hl with ⟨_, he, _⟩ | ⟨k', rfl, hl'⟩
    · cases he
    · rcases split_concat hk with ⟨_, he, _⟩ | ⟨k₂', rfl, hk'⟩
      · cases he
      · exact h.inOrder l n k' hl' k₁ n' m k₂' hk' hlt

/-- The oldest pending message is the one taken, so nothing handed back is overtaken. -/
theorem inv_take {q : LossyFifo M} (h : Inv q) {p : Nat × M} {ps : List (Nat × M)}
    (hp : q.pending = p :: ps) :
    Inv { q with pending := ps, taken := some p, log := q.log ++ [.delivered p.1 p.2] } := by
  have hsub : ∀ r ∈ ps, r ∈ q.pending := fun r hr => hp ▸ List.mem_cons_of_mem p hr
  have hpm : p ∈ q.pending := hp ▸ List.mem_cons_self
  obtain ⟨hfirst, hsorted⟩ := List.pairwise_cons.mp (hp ▸ h.sorted)
  have hrec : received (q.log ++ [.delivered p.1 p.2]) = received q.log ++ [p.1] := by
    rw [received_append]; simp [received]
  have hmem : ∀ n, n ∈ received (q.log ++ [.delivered p.1 p.2]) → n ∈ received q.log ∨ n = p.1 := by
    intro n hn
    rw [hrec] at hn
    simpa using hn
  refine ⟨hsorted, fun r hr => h.pendingSent r (hsub r hr), ?_, ?_, ?_, ?_, ?_, ?_, ?_, ?_⟩
  · intro t ht
    obtain rfl := Option.some.inj ht
    exact h.pendingSent p hpm
  · intro t ht r hr
    obtain rfl := Option.some.inj ht
    exact hfirst r hr
  · intro n m hm
    rcases List.mem_append.mp hm with hm | hm
    · exact h.logSent n m hm
    · cases List.mem_singleton.mp hm
      exact h.pendingSent p hpm
  · rw [hrec]
    refine List.pairwise_append.mpr ⟨h.nondecreasing, by simp, fun n hn k hk => ?_⟩
    obtain rfl := List.mem_singleton.mp hk
    exact h.seenPending n hn p hpm
  · intro n hn r hr
    rcases hmem n hn with hn | rfl
    · exact h.seenPending n hn r (hsub r hr)
    · exact Nat.le_of_lt (hfirst r hr)
  · intro n hn t ht
    obtain rfl := Option.some.inj ht
    rcases hmem n hn with hn | rfl
    · exact h.seenPending n hn p hpm
    · exact Nat.le_refl _
  · intro l n k hl
    rcases split_concat hl with ⟨_, he, _⟩ | ⟨k', rfl, hl'⟩
    · cases he
    · rcases h.waiting l n k' hl' with ha | ⟨m, hm⟩
      · exact Or.inl (ha.append _)
      · rw [hp] at hm
        rcases List.mem_cons.mp hm with rfl | hm
        · exact Or.inl (Or.inl ⟨m, by simp⟩)
        · exact Or.inr ⟨m, hm⟩
  · intro l n k hl k₁ n' m k₂ hk hlt
    rcases split_concat hl with ⟨_, he, _⟩ | ⟨k', rfl, hl'⟩
    · cases he
    · rcases split_concat hk with ⟨_, he, rfl⟩ | ⟨k₂', rfl, hk'⟩
      · -- the newest delivery: a number still pending would be older than its head
        cases he
        rcases h.waiting l n k' hl' with ha | ⟨x, hx⟩
        · exact ha
        · rw [hp] at hx
          rcases List.mem_cons.mp hx with rfl | hx
          · exact absurd hlt (Nat.lt_irrefl _)
          · exact absurd hlt (Nat.lt_asymm (hfirst _ hx))
      · exact h.inOrder l n k' hl' k₁ n' m k₂' hk' hlt

theorem inv_release {q : LossyFifo M} (h : Inv q) : Inv { q with taken := none } :=
  ⟨h.sorted, h.pendingSent, fun _ ht => absurd ht (by simp), fun _ ht => absurd ht (by simp),
    h.logSent, h.nondecreasing, h.seenPending, fun _ _ _ ht => absurd ht (by simp), h.waiting,
    h.inOrder⟩

/-- A message handed back is older than everything pending. -/
theorem inv_giveBack {q : LossyFifo M} (h : Inv q) {p : Nat × M} (ht : q.taken = some p) : Inv
    { q with pending := p :: q.pending, taken := none, log := q.log ++ [.handedBack p.1] } := by
  have hrec : received (q.log ++ [.handedBack p.1]) = received q.log := by
    rw [received_append]; simp [received]
  refine ⟨List.pairwise_cons.mpr ⟨h.takenFirst p ht, h.sorted⟩, ?_, fun _ he => absurd he (by simp),
    fun _ he => absurd he (by simp), ?_, hrec ▸ h.nondecreasing, ?_,
    fun _ _ _ he => absurd he (by simp), ?_, ?_⟩
  · intro r hr
    rcases List.mem_cons.mp hr with rfl | hr
    · exact h.takenSent r ht
    · exact h.pendingSent r hr
  · intro n m hm
    simp only [List.mem_append, List.mem_singleton, reduceCtorEq, or_false] at hm
    exact h.logSent n m hm
  · simp only [hrec]
    intro n hn r hr
    rcases List.mem_cons.mp hr with rfl | hr
    · exact h.seenTaken n hn r ht
    · exact h.seenPending n hn r hr
  · intro l n k hl
    rcases split_concat hl with ⟨_, he, _⟩ | ⟨k', rfl, hl'⟩
    · cases he
      exact Or.inr ⟨p.2, List.mem_cons_self⟩
    · rcases h.waiting l n k' hl' with ha | ⟨m, hm⟩
      · exact Or.inl (ha.append _)
      · exact Or.inr ⟨m, List.mem_cons_of_mem p hm⟩
  · intro l n k hl k₁ n' m k₂ hk hlt
    rcases split_concat hl with ⟨rfl, _, _⟩ | ⟨k', rfl, hl'⟩
    · simp at hk
    · rcases split_concat hk with ⟨_, he, _⟩ | ⟨k₂', rfl, hk'⟩
      · cases he
      · exact h.inOrder l n k' hl' k₁ n' m k₂' hk' hlt

theorem inv_step (q : LossyFifo M) (a : Label M) (r : LossyFifo M) (h : Inv q)
    (hs : Step q a r) : Inv r := by
  cases hs with
  | push m => exact inv_push h m
  | lose m => exact inv_lose h m
  | drop p ps hp => exact inv_drop h hp
  | take p ps hp _ => exact inv_take h hp
  | release p _ => exact inv_release h
  | giveBack p ht => exact inv_giveBack h ht

theorem inv_run {as : List (Label M)} {q : LossyFifo M} (h : Run Step empty as q) : Inv q :=
  h.invariant inv_step inv_empty

/-- Without hand-backs every message is taken at most once: strictness on top of `Inv`. -/
structure Fresh (q : LossyFifo M) : Prop where
  increasing : (received q.log).Pairwise (· < ·)
  beyond : ∀ n ∈ received q.log, ∀ p ∈ q.pending, n < p.1

theorem fresh_step (q : LossyFifo M) (a : Label M) (r : LossyFifo M)
    (h : Inv q ∧ Fresh q) (hs : Guarded (fun _ b => b ≠ .giveBack) Step q a r) :
    Inv r ∧ Fresh r := by
  obtain ⟨hinv, hinc, hbeyond⟩ := h
  obtain ⟨hne, hs⟩ := hs
  refine ⟨inv_step q a r hinv hs, ?_⟩
  cases hs with
  | push m =>
    refine ⟨hinc, fun n hn p hp => ?_⟩
    rcases List.mem_append.mp hp with hp | hp
    · exact hbeyond n hn p hp
    · obtain ⟨x, hx⟩ := mem_received.mp hn
      obtain rfl := List.mem_singleton.mp hp
      exact lt_of_sent (hinv.logSent n x hx)
  | lose m => exact ⟨hinc, hbeyond⟩
  | drop p ps hp =>
    have hrec : received (q.log ++ [.dropped p.1]) = received q.log := by
      rw [received_append]; simp [received]
    refine ⟨?_, ?_⟩
    · simp only [hrec]
      exact hinc
    · simp only [hrec]
      exact fun n hn r hr => hbeyond n hn r (hp ▸ List.mem_cons_of_mem p hr)
  | take p ps hp _ =>
    have hrec : received (q.log ++ [.delivered p.1 p.2]) = received q.log ++ [p.1] := by
      rw [received_append]; simp [received]
    have hpm : p ∈ q.pending := hp ▸ List.mem_cons_self
    have hfirst := (List.pairwise_cons.mp (hp ▸ hinv.sorted)).1
    refine ⟨?_, ?_⟩
    · simp only [hrec]
      refine List.pairwise_append.mpr ⟨hinc, by simp, fun n hn k hk => ?_⟩
      obtain rfl := List.mem_singleton.mp hk
      exact hbeyond n hn p hpm
    · simp only [hrec]
      intro n hn r hr
      rcases List.mem_append.mp hn with hn | hn
      · exact hbeyond n hn r (hp ▸ List.mem_cons_of_mem p hr)
      · obtain rfl := List.mem_singleton.mp hn
        exact hfirst r hr
  | release p _ => exact ⟨hinc, hbeyond⟩
  | giveBack p _ => exact absurd rfl hne

/-- The messages the consumer was handed, with their numbers, in order. -/
def deliveries : List (FifoEvent M) → List (M × Nat)
  | [] => []
  | .delivered n m :: l => (m, n) :: deliveries l
  | _ :: l => deliveries l

theorem mem_deliveries {l : List (FifoEvent M)} {m : M} {n : Nat} :
    (m, n) ∈ deliveries l ↔ .delivered n m ∈ l := by
  induction l with
  | nil => simp [deliveries]
  | cons e l ih => cases e <;> simp [deliveries, ih, and_comm]

theorem map_deliveries (l : List (FifoEvent M)) : (deliveries l).map Prod.snd = received l := by
  induction l with
  | nil => rfl
  | cons e l ih => cases e <;> simp [deliveries, received, ih]

/-- Elements of a list at increasing positions are a part of it, in its order. -/
theorem sublist_zipIdx {α : Type*} {l : List α} {k : List (α × Nat)}
    (hinc : (k.map Prod.snd).Pairwise (· < ·)) (hk : ∀ p ∈ k, l[p.2]? = some p.1) :
    k.Sublist l.zipIdx := by
  let r : α × Nat → α × Nat → Prop := fun p q => p.2 < q.2
  have hantisymm : Std.Antisymm r := ⟨fun p q hpq hqp => absurd hqp (Nat.lt_asymm hpq)⟩
  have hkr : k.Pairwise r := List.pairwise_map.mp hinc
  have hlr : l.zipIdx.Pairwise r := by
    have hrange : (l.zipIdx.map Prod.snd).Pairwise (· < ·) := by
      rw [List.zipIdx_map_snd]
      exact List.pairwise_lt_range'
    exact List.pairwise_map.mp hrange
  have hnodup : k.Nodup := by
    refine hkr.imp fun {p q} hpq => ?_
    rintro rfl
    exact Nat.lt_irrefl _ hpq
  have hsub : k ⊆ l.zipIdx := fun p hp => List.mem_zipIdx_iff_getElem?.mpr (hk p hp)
  exact List.sublist_of_subperm_of_pairwise (List.subperm_of_subset hnodup hsub) hkr hlr

/-- What a queue without hand-backs delivers is a part of what was sent, in its order. -/
theorem deliveries_sublist {q : LossyFifo M} (h : Inv q) (hf : Fresh q) :
    (deliveries q.log).Sublist q.sent.zipIdx := by
  refine sublist_zipIdx ?_ fun p hp => ?_
  · rw [map_deliveries]
    exact hf.increasing
  · exact h.logSent p.2 p.1 (mem_deliveries.mp hp)

/-- Without hand-backs the numbers received are strictly increasing. -/
theorem received_increasing {as : List (Label M)} {q : LossyFifo M}
    (h : Run (Guarded (fun _ b => b ≠ .giveBack) Step) empty as q) :
    (received q.log).Pairwise (· < ·) :=
  (h.invariant fresh_step ⟨inv_empty, ⟨by simp [empty, received], by simp [empty]⟩⟩).2.increasing

end LossyFifo
end CppSnippets.Lib
