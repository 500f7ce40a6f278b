import CppSnippets.Epoll.QueueRefinement

/-!
# Safety of the ring under producer and consumer, and its failure path

Without `fail` the ring is safe in every run. `fail` is not: it leaves what was
written in the aborted buffer, where the test for non-empty slots takes it for a
committed message, and it leaves a handed-back message behind messages that are
younger when the producer has skipped its slot. The condition under which
neither happens is on the state in which `fail` is called.
-/
namespace CppSnippets.Epoll.QueueSafety

open CppSnippets.Lib
open CycleBufferQueue QueueRefinement

variable {N : Nat}

def Op.isFail : Op → Bool
  | .failAlloc | .failUsing => true
  | _ => false

/-- The number of a delivery. -/
def delivery : Event → Option Nat
  | .delivered n _ => n
  | _ => none

theorem delivery_lift (l : List (FifoEvent (List Byte))) :
    (l.map liftEvent).filterMap delivery = LossyFifo.received l := by
  induction l with
  | nil => rfl
  | cons e l ih =>
    cases e <;> simp [List.filterMap_cons, liftEvent, delivery, LossyFifo.received, ih]

/-- Every delivery is the exact content of some commit. -/
def Committed (r : Ring N) : Prop :=
  ∀ n m, .delivered n m ∈ r.log → ∃ k, n = some k ∧ r.commits[k]? = some m

theorem committed_of_refines {r : Ring N} {a : LossyFifo (List Byte)} (h : Refines r a)
    (ha : LossyFifo.Inv a) : Committed r := by
  intro n m hm
  rw [h.log] at hm
  obtain ⟨e, he, hem⟩ := List.mem_map.mp hm
  cases e with
  | delivered k x =>
    cases hem
    exact ⟨k, rfl, h.sent ▸ ha.logSent k _ he⟩
  | handedBack k => cases hem
  | dropped k => cases hem

/-! ## Runs without `fail` -/

theorem follows_step {r : Ring N} {a : LossyFifo (List Byte)} {op : Op} {r' : Ring N}
    (h : Refines r a) (hop : Op.isFail op = false) (hs : Step r op r') : Follows a r' := by
  obtain ⟨q', hx, rfl⟩ := hs
  cases op with
  | alloc siz => exact follows_alloc h hx
  | fill p => exact follows_fill h hx
  | doneAlloc => exact follows_doneAlloc h hx
  | wait => exact follows_wait h hx
  | doneUsing => exact follows_doneUsing h hx
  | failAlloc => cases hop
  | failUsing => cases hop

theorem refines_run (hN : 0 < N) {capacity : Fin N → Nat} {ops : List Op} {r : Ring N}
    (h : Run Step (Ring.init hN capacity) ops r) (hops : ∀ op ∈ ops, Op.isFail op = false) :
    ∃ ls a, Run (Guarded (fun _ l => l ≠ .giveBack) LossyFifo.Step) LossyFifo.empty ls a ∧
      Refines r a :=
  (h.guarded_of_labels hops).simulate (R := Refines)
    (fun _ _ _ _ hR hs => follows_step hR hs.1 hs.2) (refines_init hN capacity)

/-- What the producer does leaves the buffer in use as it is. -/
theorem producer_frame {q q' : CycleBufferQueue N} {op : Op} {u : Fin N} (hs : Shape q)
    (hp : op.byProducer = true) (hu : q.iusing = some u) (hx : exec q op = .ok q') :
    q'.bufs u = q.bufs u ∧ q'.iusing = some u := by
  cases op with
  | alloc siz =>
    obtain ⟨_, i, hi, rfl⟩ := alloc_cases hx
    have hne : q.iusing ≠ some i := by rcases hi with ⟨rfl, h⟩ | ⟨rfl, _, h⟩ <;> exact h
    have hui : u ≠ i := fun he => hne (he ▸ hu)
    exact ⟨Function.update_of_ne hui _ _, hu⟩
  | fill p =>
    obtain ⟨j, b, hj, _, rfl⟩ := fill_cases hx
    have huj : u ≠ j := fun he => hs.distinct j hj (he ▸ hu)
    exact ⟨Function.update_of_ne huj _ _, hu⟩
  | doneAlloc =>
    obtain ⟨_, rfl⟩ := doneAlloc_cases hx
    exact ⟨rfl, hu⟩
  | failAlloc =>
    obtain ⟨_, rfl⟩ := failAlloc_cases hx
    exact ⟨rfl, hu⟩
  | wait => cases hp
  | doneUsing => cases hp
  | failUsing => cases hp

/-- The two fatal checks cannot fire in a queue of this shape. -/
theorem no_fatal (hN : 2 ≤ N) {q : CycleBufferQueue N} (hs : Shape q) (op : Op) :
    exec q op ≠ .error .gt1Using ∧ exec q op ≠ .error .fatalIp := by
  have hslot : ∀ (p : CycleBufferQueue N) siz, allocSlot p siz ≠ .error .gt1Using ∧
      allocSlot p siz ≠ .error .fatalIp := by
    intro p siz
    simp only [allocSlot, BufferRef.consume_size, bind, Except.bind, BufferRef.reserve, pure,
      Except.pure]
    split <;> rename_i h <;> split at h <;> cases h <;> simp
  have hdone : ∀ j, q.done j ≠ .error .gt1Using ∧ q.done j ≠ .error .fatalIp := by
    intro j
    unfold CycleBufferQueue.done
    split
    · rename_i hj
      rw [if_neg (by rw [hs.allocAtIp j hj.symm] at hj; exact not_not.mpr hj)]
      simp
    · rw [BufferRef.consume_size]
      split <;> simp [bind, Except.bind, pure, Except.pure]
  have hfail : ∀ j, q.fail j ≠ .error .gt1Using ∧ q.fail j ≠ .error .fatalIp := by
    intro j
    unfold CycleBufferQueue.fail
    split
    · rename_i hj
      rw [if_neg (by rw [hs.allocAtIp j hj.symm] at hj; exact not_not.mpr hj)]
      simp
    · split <;> simp
  have honSlot : ∀ (i : Option (Fin N)) f, (∀ j, f j ≠ .error .gt1Using ∧ f j ≠ .error .fatalIp) →
      onSlot i f ≠ .error .gt1Using ∧ onSlot i f ≠ .error .fatalIp := by
    intro i f hf
    cases i with
    | none => simp [onSlot]
    | some j => exact hf j
  cases op with
  | alloc siz =>
    change q.alloc siz ≠ _ ∧ q.alloc siz ≠ _
    unfold CycleBufferQueue.alloc
    split
    · simp
    · split
      · rename_i hu
        rw [if_neg fun h => incr_ne hN q.ip (Option.some.inj (h.symm.trans hu))]
        exact hslot _ _
      · exact hslot _ _
  | fill p =>
    refine honSlot _ _ fun j => ?_
    simp only [CycleBufferQueue.fill, bind, Except.bind, BufferRef.put, pure, Except.pure]
    split <;> rename_i h <;> split at h <;> cases h <;> simp
  | doneAlloc => exact honSlot _ _ hdone
  | wait =>
    change q.wait ≠ _ ∧ q.wait ≠ _
    unfold CycleBufferQueue.wait
    split <;> simp
  | doneUsing => exact honSlot _ _ hdone
  | failAlloc => exact honSlot _ _ hfail
  | failUsing => exact honSlot _ _ hfail

/-- Any interleaving of producer and consumer keeps the two buffers apart and
the committed messages intact, in order and undoubled. -/
theorem queue_safe (hN : 2 ≤ N) {capacity : Fin N → Nat} {ops : List Op} {r : Ring N}
    (hrun : Run Step (Ring.init (by omega) capacity) ops r)
    (hops : ∀ op ∈ ops, Op.isFail op = false) :
    (∀ i, r.q.ialloc = some i → r.q.iusing ≠ some i) ∧
    (∀ op u r', op.byProducer = true → r.q.iusing = some u → Step r op r' →
      r'.q.bufs u = r.q.bufs u) ∧
    (∀ op, exec r.q op ≠ .error .gt1Using ∧ exec r.q op ≠ .error .fatalIp) ∧
    Committed r ∧ (r.log.filterMap delivery).Pairwise (· < ·) := by
  obtain ⟨ls, a, hrunA, href⟩ := refines_run _ hrun hops
  refine ⟨href.shape.distinct, ?_, no_fatal hN href.shape, ?_, ?_⟩
  · rintro op u r' hp hu ⟨q', hx, rfl⟩
    rw [observe_q]
    exact (producer_frame href.shape hp hu hx).1
  · exact committed_of_refines href (LossyFifo.inv_run hrunA.of_guarded)
  · rw [href.log, delivery_lift]
    exact LossyFifo.received_increasing hrunA

/-! ## Executing a list of operations -/

/-- The operations one after the other, as long as each is allowed where it is. -/
def execAll (allowed : Ring N → Op → Bool) (r : Ring N) : List Op → Option (Ring N)
  | [] => some r
  | op :: ops =>
      if allowed r op then
        match exec r.q op with
        | .error _ => none
        | .ok q' => execAll allowed (observe r q' op) ops
      else none

theorem run_of_execAll {allowed : Ring N → Op → Bool} {s : Ring N} (ops : List Op) :
    ∀ {before : List Op} {r r' : Ring N},
      Run (Guarded (fun r op => allowed r op = true) Step) s before r →
      execAll allowed r ops = some r' →
      Run (Guarded (fun r op => allowed r op = true) Step) s (before ++ ops) r' := by
  induction ops with
  | nil =>
    intro before r r' h he
    cases he
    simpa using h
  | cons op ops ih =>
    intro before r r' h he
    unfold execAll at he
    split at he
    · rename_i hok
      cases hx : exec r.q op with
      | error e => rw [hx] at he; cases he
      | ok q' =>
        rw [hx] at he
        have := ih (h.snoc ⟨hok, q', hx, rfl⟩) he
        rwa [List.append_assoc] at this
    · cases he

theorem exists_run {allowed : Ring N → Op → Bool} {s : Ring N} {ops : List Op} {l : List Event}
    {cs : List (List Byte)}
    (h : (execAll allowed s ops).map (fun r => (r.log, r.commits)) = some (l, cs)) :
    ∃ r, Run (Guarded (fun r op => allowed r op = true) Step) s ops r ∧ r.log = l ∧
      r.commits = cs := by
  obtain ⟨r, hr, hl⟩ := Option.map_eq_some_iff.mp h
  exact ⟨r, run_of_execAll ops .nil hr, congrArg Prod.fst hl, congrArg Prod.snd hl⟩

/-- Two messages committed and the first one taken, in a ring of two buffers. -/
theorem queue_safe_two : ∃ r : Ring 2,
    r.log = [.delivered (some 0) [1]] ∧ (∀ i, r.q.ialloc = some i → r.q.iusing ≠ some i) ∧
    Committed r := by
  obtain ⟨r, hr, hl, _⟩ := exists_run (show (execAll (fun _ _ => true)
    (Ring.init (by decide) fun _ => 8 : Ring 2)
    [.alloc 4, .fill [1], .doneAlloc, .alloc 4, .fill [2], .doneAlloc, .wait]).map
      (fun r => (r.log, r.commits)) = some ([.delivered (some 0) [1]], [[1], [2]]) from rfl)
  have hsafe := queue_safe (by decide) hr.of_guarded (by decide)
  exact ⟨r, hl, hsafe.1, hsafe.2.2.2.1⟩

/-! ## Runs with `fail` -/

/-- The handed-back message comes before every message committed after it,
unless an `alloc` has recycled its slot in the meantime. -/
def Redelivered (r : Ring N) : Prop :=
  ∀ l n k, r.log = l ++ .handedBack (some n) :: k →
    ∀ k₁ n' m k₂, k = k₁ ++ .delivered (some n') m :: k₂ → n < n' →
      (∃ m', .delivered (some n) m' ∈ k₁) ∨ .recycled (some n) ∈ k₁

/-- `fail` finds nothing in the aborted buffer, and the buffer handed back is
the one the next scan would return. -/
def failsCleanly (r : Ring N) : Op → Bool
  | .failAlloc => r.q.ialloc.all fun i => (r.q.bufs i).isEmpty
  | .failUsing => r.q.findusable N r.q.ip (decr r.q.ip) = r.q.iusing
  | _ => true

theorem refines_guarded (hN : 0 < N) {capacity : Fin N → Nat} {ops : List Op} {r : Ring N}
    (h : Run (Guarded (fun r op => failsCleanly r op = true) Step) (Ring.init hN capacity) ops r) :
    ∃ ls a, Run LossyFifo.Step LossyFifo.empty ls a ∧ Refines r a := by
  refine h.simulate (fun s op t x hR hs => ?_) (refines_init hN capacity)
  have hfollow : ∀ {t : Ring N}, Follows x t → ∃ ls y, Run LossyFifo.Step x ls y ∧ Refines t y := by
    rintro t ⟨ls, y, hrun, hy⟩
    exact ⟨ls, y, hrun.of_guarded, hy⟩
  obtain ⟨hok, hstep⟩ := hs
  cases op with
  | failAlloc =>
    obtain ⟨q', hx, rfl⟩ := hstep
    refine hfollow (follows_failAlloc hR (fun i hi => ?_) hx)
    simpa [failsCleanly, hi] using hok
  | failUsing =>
    obtain ⟨q', hx, rfl⟩ := hstep
    obtain ⟨b, hb, hrb⟩ := giveBack_failUsing hR (of_decide_eq_true hok) hx
    exact ⟨[.giveBack], b, Run.single hb, hrb⟩
  | alloc siz => exact hfollow (follows_step hR rfl hstep)
  | fill p => exact hfollow (follows_step hR rfl hstep)
  | doneAlloc => exact hfollow (follows_step hR rfl hstep)
  | wait => exact hfollow (follows_step hR rfl hstep)
  | doneUsing => exact hfollow (follows_step hR rfl hstep)

theorem liftEvent_injective : Function.Injective liftEvent := by
  intro a b h
  cases a <;> cases b <;> cases h <;> rfl

/-- A split of the lifted log is the lift of a split. -/
theorem map_split {l : List (FifoEvent (List Byte))} {l₁ l₂ : List Event}
    {e : FifoEvent (List Byte)} (h : l.map liftEvent = l₁ ++ liftEvent e :: l₂) :
    ∃ k₁ k₂, l = k₁ ++ e :: k₂ ∧ k₁.map liftEvent = l₁ ∧ k₂.map liftEvent = l₂ := by
  obtain ⟨k₁, k, rfl, h₁, hk⟩ := List.map_eq_append_iff.mp h
  obtain ⟨e', k₂, rfl, he, h₂⟩ := List.map_eq_cons_iff.mp hk
  obtain rfl := liftEvent_injective he
  exact ⟨k₁, k₂, rfl, h₁, h₂⟩

theorem redelivered_of_refines {r : Ring N} {a : LossyFifo (List Byte)} (h : Refines r a)
    (ha : LossyFifo.Inv a) : Redelivered r := by
  intro l n k hl k₁ n' m k₂ hk hlt
  rw [h.log] at hl
  obtain ⟨l', k', hl', _, hk'⟩ := map_split (e := .handedBack n) hl
  rw [hk] at hk'
  obtain ⟨k₁', k₂', hk₁, hk₁', _⟩ := map_split (e := .delivered n' m) hk'
  subst hk₁'
  rcases ha.inOrder l' n k' hl' k₁' n' m k₂' hk₁ hlt with ⟨x, hx⟩ | hx
  · exact Or.inl ⟨x, List.mem_map_of_mem (f := liftEvent) hx⟩
  · exact Or.inr (List.mem_map_of_mem (f := liftEvent) hx)

/-- Where every `fail` is clean, only committed messages are delivered and a
message handed back is delivered again before younger ones. -/
theorem fail_path (hN : 0 < N) {capacity : Fin N → Nat} {ops : List Op} {r : Ring N}
    (hrun : Run (Guarded (fun r op => failsCleanly r op = true) Step) (Ring.init hN capacity) ops r) :
    Committed r ∧ Redelivered r := by
  obtain ⟨ls, a, hrunA, href⟩ := refines_guarded hN hrun
  have ha := LossyFifo.inv_run hrunA
  exact ⟨committed_of_refines href ha, redelivered_of_refines href ha⟩

/-- A message taken, handed back untouched and taken again. -/
theorem fail_path_again : ∃ r : Ring 2,
    r.log = [.delivered (some 0) [1], .handedBack (some 0), .delivered (some 0) [1]] ∧
    Committed r ∧ Redelivered r := by
  obtain ⟨r, hr, hl, _⟩ := exists_run (show (execAll failsCleanly
    (Ring.init (by decide) fun _ => 8 : Ring 2)
    [.alloc 4, .fill [1], .doneAlloc, .wait, .alloc 4, .failAlloc, .failUsing, .wait]).map
      (fun r => (r.log, r.commits)) =
        some ([.delivered (some 0) [1], .handedBack (some 0), .delivered (some 0) [1]], [[1]])
    from rfl)
  exact ⟨r, hl, fail_path (by decide) hr⟩

/-- An aborted buffer with one byte in it is delivered like a message; and with
three buffers a message handed back after the producer skipped it is overtaken
by a younger one, though nothing recycled it. -/
theorem fail_path_broken :
    ¬ ((∀ (ops : List Op) (r : Ring 2), Run Step (Ring.init (by decide) fun _ => 8) ops r →
        Committed r) ∨
      (∀ (ops : List Op) (r : Ring 3), Run Step (Ring.init (by decide) fun _ => 8) ops r →
        Redelivered r)) := by
  rintro (h | h)
  · obtain ⟨r, hr, hl, _⟩ := exists_run (show (execAll (fun _ _ => true)
      (Ring.init (by decide) fun _ => 8 : Ring 2) [.alloc 4, .fill [1], .failAlloc, .wait]).map
        (fun r => (r.log, r.commits)) = some ([.delivered none [1]], []) from rfl)
    obtain ⟨k, hk, _⟩ := h _ r hr.of_guarded none [1] (by rw [hl]; exact List.mem_singleton.mpr rfl)
    cases hk
  · obtain ⟨r, hr, hl, _⟩ := exists_run (show (execAll (fun _ _ => true)
      (Ring.init (by decide) fun _ => 8 : Ring 3)
      [.alloc 4, .fill [0], .doneAlloc, .alloc 4, .fill [1], .doneAlloc, .alloc 4, .fill [2],
        .doneAlloc, .wait, .alloc 4, .fill [3], .doneAlloc, .failUsing, .wait]).map
        (fun r => (r.log, r.commits)) = some ([.delivered (some 0) [0], .recycled (some 1),
          .handedBack (some 0), .delivered (some 2) [2]], [[0], [1], [2], [3]]) from rfl)
    have hsplit := h _ r hr.of_guarded [.delivered (some 0) [0], .recycled (some 1)] 0
      [.delivered (some 2) [2]] hl [] 2 [2] [] rfl (by decide)
    rcases hsplit with ⟨m, hm⟩ | hm
    · cases hm
    · cases hm

end CppSnippets.Epoll.QueueSafety
