import CppSnippets.Epoll.CycleBufferQueue
import CppSnippets.Lib.LossyFifo

/-!
# The ring of buffers is a lossy queue

Producer and consumer operations as one step function, observed by a history
that the code does not keep: the number of the commit each slot holds, the
committed contents, and what `wait` handed out. The pending messages of the
abstract queue are the live slots in cyclic order from `ip_`; a slot that the
producer skips is always the one in use, which is not live.
-/
namespace CppSnippets.Epoll.QueueRefinement

open CppSnippets.Lib
open CycleBufferQueue

variable {N : Nat}

inductive Op where
  | alloc (siz : Nat)
  | fill (p : List Byte)
  | doneAlloc
  | wait
  | doneUsing
  | failAlloc
  | failUsing

/-- The producer's operations; the others are the consumer's. -/
def Op.byProducer : Op → Bool
  | .alloc _ | .fill _ | .doneAlloc | .failAlloc => true
  | .wait | .doneUsing | .failUsing => false

/-- An operation on `ialloc_` or `iusing_` needs that iterator to be a slot. -/
def onSlot (i : Option (Fin N)) (f : Fin N → Except Exit (CycleBufferQueue N)) :
    Except Exit (CycleBufferQueue N) :=
  match i with
  | none => .error .assertion
  | some j => f j

def exec (q : CycleBufferQueue N) : Op → Except Exit (CycleBufferQueue N)
  | .alloc siz => q.alloc siz
  | .fill p => onSlot q.ialloc (q.fill · p)
  | .doneAlloc => onSlot q.ialloc q.done
  | .wait => q.wait
  | .doneUsing => onSlot q.iusing q.done
  | .failAlloc => onSlot q.ialloc q.fail
  | .failUsing => onSlot q.iusing q.fail

/-- What `wait` returned, what was handed back and what an `alloc` recycled,
each with the number of the commit that wrote the slot. -/
inductive Event where
  | delivered (n : Option Nat) (m : List Byte)
  | handedBack (n : Option Nat)
  | recycled (n : Option Nat)

structure Ring (N : Nat) where
  q : CycleBufferQueue N
  /-- The commit a slot's contents come from, if they were committed. -/
  stamp : Fin N → Option Nat
  commits : List (List Byte)
  log : List Event

def Ring.init (h : 0 < N) (capacity : Fin N → Nat) : Ring N :=
  ⟨CycleBufferQueue.init h capacity, fun _ => none, [], []⟩

/-- The history after an operation that took the queue to `q'`. -/
def observe (r : Ring N) (q' : CycleBufferQueue N) : Op → Ring N
  | .alloc _ => ⟨q', Function.update r.stamp q'.ip none, r.commits,
      r.log ++ if (r.q.bufs q'.ip).isEmpty then [] else [.recycled (r.stamp q'.ip)]⟩
  | .doneAlloc => match r.q.ialloc with
    | none => { r with q := q' }
    | some j => ⟨q', Function.update r.stamp j (some r.commits.length),
        r.commits ++ [(r.q.bufs j).data], r.log⟩
  | .wait => match q'.iusing with
    | none => { r with q := q' }
    | some j => { r with q := q', log := r.log ++ [.delivered (r.stamp j) (r.q.bufs j).data] }
  | .failUsing => match r.q.iusing with
    | none => { r with q := q' }
    | some j => { r with q := q', log := r.log ++ [.handedBack (r.stamp j)] }
  | .fill _ | .doneUsing | .failAlloc => { r with q := q' }

@[simp] theorem observe_q (r : Ring N) (q' : CycleBufferQueue N) (op : Op) :
    (observe r q' op).q = q' := by
  cases op with
  | doneAlloc => cases h : r.q.ialloc <;> simp [observe, h]
  | wait => cases h : q'.iusing <;> simp [observe, h]
  | failUsing => cases h : r.q.iusing <;> simp [observe, h]
  | alloc siz => rfl
  | fill p => rfl
  | doneUsing => rfl
  | failAlloc => rfl

def Step (r : Ring N) (op : Op) (r' : Ring N) : Prop :=
  ∃ q', exec r.q op = .ok q' ∧ r' = observe r q' op

/-! ## What each operation does -/

theorem onSlot_ok {i : Option (Fin N)} {f : Fin N → Except Exit (CycleBufferQueue N)}
    {q' : CycleBufferQueue N} (h : onSlot i f = .ok q') : ∃ j, i = some j ∧ f j = .ok q' := by
  cases i with
  | none => cases h
  | some j => exact ⟨j, rfl, h⟩

/-- The used slot is not taken for the allocated one. -/
theorem not_ialloc {q : CycleBufferQueue N} {j : Fin N} (hj : q.iusing = some j)
    (hne : q.ialloc = none ∨ q.ialloc ≠ q.iusing) : some j ≠ q.ialloc := by
  intro he
  rcases hne with hn | hn
  · rw [hn] at he
    cases he
  · exact hn (he.symm.trans hj.symm)

theorem alloc_cases {q q' : CycleBufferQueue N} {siz : Nat} (h : q.alloc siz = .ok q') :
    q.ialloc = none ∧ ∃ i, (i = q.ip ∧ q.iusing ≠ some q.ip ∨
        i = incr q.ip ∧ q.iusing = some q.ip ∧ q.iusing ≠ some (incr q.ip)) ∧
      q' = ⟨Function.update q.bufs i (q.bufs i).clear, i, some i, q.iusing⟩ := by
  have hslot : ∀ {p p' : CycleBufferQueue N}, allocSlot p siz = .ok p' →
      p' = ⟨Function.update p.bufs p.ip (p.bufs p.ip).clear, p.ip, some p.ip, p.iusing⟩ := by
    intro p p' hp
    simp only [allocSlot, BufferRef.consume_size, bind, Except.bind, BufferRef.reserve,
      BufferRef.clear_capacity, pure, Except.pure] at hp
    split at hp
    · cases hp
    · cases hp
      rfl
  unfold CycleBufferQueue.alloc at h
  split at h
  · cases h
  · rename_i hnone
    refine ⟨not_not.mp hnone, ?_⟩
    split at h
    · rename_i hu
      split at h
      · cases h
      · rename_i hne
        exact ⟨incr q.ip, Or.inr ⟨rfl, hu, hne⟩, hslot h⟩
    · rename_i hu
      exact ⟨q.ip, Or.inl ⟨rfl, hu⟩, hslot h⟩

theorem fill_cases {q q' : CycleBufferQueue N} {p : List Byte}
    (h : exec q (.fill p) = .ok q') : ∃ j b, q.ialloc = some j ∧ (q.bufs j).put p = .ok b ∧
      q' = { q with bufs := Function.update q.bufs j b } := by
  obtain ⟨j, hj, h⟩ := onSlot_ok h
  unfold CycleBufferQueue.fill at h
  cases hb : (q.bufs j).put p with
  | error e => rw [hb] at h; cases h
  | ok b =>
    rw [hb] at h
    cases h
    exact ⟨j, b, hj, hb, rfl⟩

theorem doneAlloc_cases {q q' : CycleBufferQueue N} (h : exec q .doneAlloc = .ok q') :
    q.ialloc = some q.ip ∧ q' = { q with ip := incr q.ip, ialloc := none } := by
  obtain ⟨j, hj, h⟩ := onSlot_ok h
  unfold CycleBufferQueue.done at h
  rw [if_pos hj.symm] at h
  split at h
  · cases h
  · rename_i hip
    have hip' : q.ialloc = some q.ip := (not_not.mp hip).symm
    obtain rfl : q.ip = j := Option.some.inj (hip'.symm.trans hj)
    cases h
    exact ⟨hip', rfl⟩

theorem wait_cases {q q' : CycleBufferQueue N} (h : q.wait = .ok q') :
    q.iusing = none ∧ q' = { q with iusing := (order q.ip).find? q.usable } := by
  unfold CycleBufferQueue.wait at h
  split at h
  · cases h
  · rename_i hu
    cases h
    exact ⟨not_not.mp hu, by rw [findusable_order]⟩

theorem doneUsing_cases {q q' : CycleBufferQueue N} (hne : q.ialloc = none ∨ q.ialloc ≠ q.iusing)
    (h : exec q .doneUsing = .ok q') : ∃ j, q.iusing = some j ∧
      q' = { q with bufs := Function.update q.bufs j (q.bufs j).clear, iusing := none } := by
  obtain ⟨j, hj, h⟩ := onSlot_ok h
  refine ⟨j, hj, ?_⟩
  unfold CycleBufferQueue.done at h
  rw [if_neg (not_ialloc hj hne), if_pos hj.symm, BufferRef.consume_size] at h
  cases h
  rfl

theorem failAlloc_cases {q q' : CycleBufferQueue N} (h : exec q .failAlloc = .ok q') :
    q.ialloc = some q.ip ∧ q' = { q with ialloc := none } := by
  obtain ⟨j, hj, h⟩ := onSlot_ok h
  unfold CycleBufferQueue.fail at h
  rw [if_pos hj.symm] at h
  split at h
  · cases h
  · rename_i hip
    cases h
    exact ⟨(not_not.mp hip).symm, rfl⟩

theorem failUsing_cases {q q' : CycleBufferQueue N} (hne : q.ialloc = none ∨ q.ialloc ≠ q.iusing)
    (h : exec q .failUsing = .ok q') : ∃ j, q.iusing = some j ∧ q' = { q with iusing := none } := by
  obtain ⟨j, hj, h⟩ := onSlot_ok h
  refine ⟨j, hj, ?_⟩
  unfold CycleBufferQueue.fail at h
  rw [if_neg (not_ialloc hj hne), if_pos hj.symm] at h
  cases h
  rfl

/-! ## The shape of the queue -/

/-- The allocated slot is the one at `ip_`, and the used slot is another one
and holds a message. -/
structure Shape (q : CycleBufferQueue N) : Prop where
  allocAtIp : ∀ i, q.ialloc = some i → i = q.ip
  distinct : ∀ i, q.ialloc = some i → q.iusing ≠ some i
  usingFull : ∀ i, q.iusing = some i → (q.bufs i).isEmpty = false

theorem Shape.apart {q : CycleBufferQueue N} (h : Shape q) :
    q.ialloc = none ∨ q.ialloc ≠ q.iusing := by
  cases ha : q.ialloc with
  | none => exact Or.inl rfl
  | some i => exact Or.inr (h.distinct i ha).symm

theorem shape_init (h : 0 < N) (capacity : Fin N → Nat) :
    Shape (CycleBufferQueue.init h capacity) := by
  constructor <;> intro i hi <;> cases hi

theorem usable_iff {q : CycleBufferQueue N} {i : Fin N} :
    q.usable i = true ↔ q.ialloc ≠ some i ∧ (q.bufs i).isEmpty = false := by
  simp [usable]

theorem shape_step {q q' : CycleBufferQueue N} {op : Op} (hs : Shape q)
    (h : exec q op = .ok q') : Shape q' := by
  cases op with
  | alloc siz =>
    obtain ⟨_, i, hi, rfl⟩ := alloc_cases h
    have hne : q.iusing ≠ some i := by rcases hi with ⟨rfl, hu⟩ | ⟨rfl, _, hu⟩ <;> exact hu
    refine ⟨fun k hk => (Option.some.inj hk).symm, ?_, fun k hk => ?_⟩
    · rintro k hk
      rw [← Option.some.inj hk]
      exact hne
    · have hki : k ≠ i := fun he => hne (he ▸ hk)
      simp only [Function.update_of_ne hki]
      exact hs.usingFull k hk
  | fill p =>
    obtain ⟨j, b, hj, _, rfl⟩ := fill_cases h
    refine ⟨hs.allocAtIp, hs.distinct, fun k hk => ?_⟩
    have hkj : k ≠ j := fun he => hs.distinct j hj (he ▸ hk)
    simp only [Function.update_of_ne hkj]
    exact hs.usingFull k hk
  | doneAlloc =>
    obtain ⟨_, rfl⟩ := doneAlloc_cases h
    exact ⟨fun _ hk => absurd hk (by simp), fun _ hk => absurd hk (by simp), hs.usingFull⟩
  | wait =>
    obtain ⟨_, rfl⟩ := wait_cases h
    have hfound : ∀ i, (order q.ip).find? q.usable = some i →
        q.ialloc ≠ some i ∧ (q.bufs i).isEmpty = false :=
      fun i hi => usable_iff.mp (List.find?_some hi)
    exact ⟨hs.allocAtIp, fun i hi hu => (hfound i hu).1 hi, fun i hi => (hfound i hi).2⟩
  | doneUsing =>
    obtain ⟨_, _, rfl⟩ := doneUsing_cases hs.apart h
    exact ⟨hs.allocAtIp, fun _ _ hk => absurd hk (by simp), fun _ hk => absurd hk (by simp)⟩
  | failAlloc =>
    obtain ⟨_, rfl⟩ := failAlloc_cases h
    exact ⟨fun _ hk => absurd hk (by simp), fun _ hk => absurd hk (by simp), hs.usingFull⟩
  | failUsing =>
    obtain ⟨_, _, rfl⟩ := failUsing_cases hs.apart h
    exact ⟨hs.allocAtIp, fun _ _ hk => absurd hk (by simp), fun _ hk => absurd hk (by simp)⟩

/-! ## Pending messages -/

/-- A slot whose message is committed and not in the consumer's hands. -/
def live (q : CycleBufferQueue N) (i : Fin N) : Bool := q.usable i && q.iusing ≠ some i

def Ring.entry (r : Ring N) (i : Fin N) : Option Nat × List Byte := (r.stamp i, (r.q.bufs i).data)

def Ring.pending (r : Ring N) : List (Option Nat × List Byte) :=
  ((order r.q.ip).filter (live r.q)).map r.entry

def lift (p : Nat × List Byte) : Option Nat × List Byte := (some p.1, p.2)

def liftEvent : FifoEvent (List Byte) → Event
  | .delivered n m => .delivered (some n) m
  | .handedBack n => .handedBack (some n)
  | .dropped n => .recycled (some n)

/-- The ring holds what the abstract queue says is pending, taken and sent. -/
structure Refines (r : Ring N) (a : LossyFifo (List Byte)) : Prop where
  shape : Shape r.q
  sent : r.commits = a.sent
  pending : r.pending = a.pending.map lift
  taken : r.q.iusing.map r.entry = a.taken.map lift
  log : r.log = a.log.map liftEvent

theorem live_iff {q : CycleBufferQueue N} {i : Fin N} : live q i = true ↔
    q.ialloc ≠ some i ∧ (q.bufs i).isEmpty = false ∧ q.iusing ≠ some i := by
  simp [live, usable, and_assoc]

theorem not_live_iff {q : CycleBufferQueue N} {i : Fin N} : live q i = false ↔
    q.ialloc = some i ∨ (q.bufs i).isEmpty = true ∨ q.iusing = some i := by
  rw [← Bool.not_eq_true, live_iff]
  simp only [not_and_or, not_not, Bool.not_eq_false]

/-- Pending messages agree when the slots from some start do. -/
theorem pending_congr {r r' : Ring N} {l : List (Fin N)}
    (hlive : ∀ i ∈ l, live r'.q i = live r.q i)
    (hentry : ∀ i ∈ l, live r.q i = true → r'.entry i = r.entry i) :
    (l.filter (live r'.q)).map r'.entry = (l.filter (live r.q)).map r.entry := by
  rw [List.filter_congr hlive]
  refine List.map_congr_left fun i hi => ?_
  obtain ⟨hil, hli⟩ := List.mem_filter.mp hi
  exact hentry i hil hli

/-- Skipping the used slot does not change which slots are pending, nor their order. -/
theorem live_skip {q : CycleBufferQueue N} (hu : q.iusing = some q.ip) :
    (order (incr q.ip)).filter (live q) = (order q.ip).filter (live q) := by
  have hdead : live q q.ip = false := not_live_iff.mpr (Or.inr (Or.inr hu))
  rw [order_incr, List.filter_append, order, List.filter_cons, hdead]
  simp [hdead]

theorem refines_init (h : 0 < N) (capacity : Fin N → Nat) :
    Refines (Ring.init h capacity) (.empty) := by
  refine ⟨shape_init h capacity, rfl, ?_, rfl, rfl⟩
  have hdead : ∀ i, live (Ring.init h capacity).q i = false :=
    fun i => not_live_iff.mpr (Or.inr (Or.inl rfl))
  simp [Ring.pending, hdead, LossyFifo.empty]

/-! ## Every operation is followed by the abstract queue -/

/-- The abstract queue keeps up with the ring by steps that hand nothing back. -/
def Follows (a : LossyFifo (List Byte)) (r' : Ring N) : Prop :=
  ∃ ls b, Run (Guarded (fun _ l => l ≠ .giveBack) LossyFifo.Step) a ls b ∧ Refines r' b

theorem Follows.stay {a : LossyFifo (List Byte)} {r' : Ring N} (h : Refines r' a) : Follows a r' :=
  ⟨[], a, .nil, h⟩

theorem Follows.step {a b : LossyFifo (List Byte)} {l : LossyFifo.Label (List Byte)} {r' : Ring N}
    (hl : l ≠ .giveBack) (hs : LossyFifo.Step a l b) (h : Refines r' b) : Follows a r' :=
  ⟨[l], b, Run.single ⟨hl, hs⟩, h⟩

theorem entry_update_stamp {r : Ring N} {q' : CycleBufferQueue N} {i k : Fin N} {x : Option Nat}
    (hk : k ≠ i) (hb : q'.bufs k = r.q.bufs k) (cs : List (List Byte)) (l : List Event) :
    Ring.entry ⟨q', Function.update r.stamp i x, cs, l⟩ k = r.entry k := by
  simp only [Ring.entry, Function.update_of_ne hk, hb]

theorem follows_alloc {r : Ring N} {a : LossyFifo (List Byte)} {q' : CycleBufferQueue N} {siz : Nat}
    (h : Refines r a) (hx : r.q.alloc siz = .ok q') : Follows a (observe r q' (.alloc siz)) := by
  have hshape := shape_step h.shape (show exec r.q (.alloc siz) = .ok q' from hx)
  obtain ⟨hnone, i, hi, rfl⟩ := alloc_cases hx
  have hne : r.q.iusing ≠ some i := by rcases hi with ⟨rfl, hu⟩ | ⟨rfl, _, hu⟩ <;> exact hu
  -- skipped or not, the pending slots are those from `i` on
  have hold : r.pending = ((order i).filter (live r.q)).map r.entry := by
    rcases hi with ⟨rfl, _⟩ | ⟨rfl, hu, _⟩
    · rfl
    · rw [live_skip hu]
      rfl
  set r' := observe r ⟨Function.update r.q.bufs i (r.q.bufs i).clear, i, some i, r.q.iusing⟩
    (.alloc siz) with hr'
  have hlive : ∀ k, k ≠ i → live r'.q k = live r.q k := by
    intro k hk
    simp [r', observe, live, usable, hnone, Function.update_of_ne hk, hk.symm]
  have hdead : live r'.q i = false := not_live_iff.mpr (Or.inl rfl)
  have hentry : ∀ k, k ≠ i → r'.entry k = r.entry k := by
    intro k hk
    exact entry_update_stamp hk (Function.update_of_ne hk _ _) _ _
  have hnew : r'.pending = ((after i).filter (live r.q)).map r.entry := by
    have hcongr : ((after i).filter (live r'.q)).map r'.entry =
        ((after i).filter (live r.q)).map r.entry :=
      pending_congr (fun k hk => hlive k (mem_after.mp hk)) fun k hk _ => hentry k (mem_after.mp hk)
    rw [← hcongr]
    change ((order i).filter (live r'.q)).map r'.entry = _
    rw [order, List.filter_cons, hdead]
    rfl
  have htaken : r'.q.iusing.map r'.entry = a.taken.map lift := by
    rw [← h.taken]
    change r.q.iusing.map r'.entry = _
    cases hu : r.q.iusing with
    | none => rfl
    | some u => exact congrArg some (hentry u fun he => hne (he ▸ hu))
  have hpend := h.pending
  rw [hold, order, List.filter_cons] at hpend
  cases hempty : (r.q.bufs i).isEmpty with
  | true =>
    have hli : live r.q i = false := not_live_iff.mpr (Or.inr (Or.inl hempty))
    rw [hli] at hpend
    refine .stay ⟨hshape, h.sent, hnew.trans hpend, htaken, ?_⟩
    rw [← h.log, hr']
    simp [observe, hempty]
  | false =>
    have hli : live r.q i = true := live_iff.mpr ⟨by simp [hnone], hempty, hne⟩
    rw [hli, if_pos rfl, List.map_cons] at hpend
    cases hp : a.pending with
    | nil => rw [hp] at hpend; cases hpend
    | cons p ps =>
      rw [hp, List.map_cons] at hpend
      obtain ⟨hhead, htail⟩ := List.cons.inj hpend
      refine .step (by simp) (.drop a p ps hp) ⟨hshape, h.sent, hnew.trans htail, htaken, ?_⟩
      have hstamp : r.stamp i = some p.1 := congrArg Prod.fst hhead
      rw [List.map_append, ← h.log, hr']
      simp [observe, hempty, hstamp, liftEvent]

theorem follows_fill {r : Ring N} {a : LossyFifo (List Byte)} {q' : CycleBufferQueue N}
    {p : List Byte} (h : Refines r a) (hx : exec r.q (.fill p) = .ok q') :
    Follows a (observe r q' (.fill p)) := by
  have hshape := shape_step h.shape hx
  obtain ⟨j, b, hj, _, rfl⟩ := fill_cases hx
  set r' := observe r { r.q with bufs := Function.update r.q.bufs j b } (.fill p)
  have hdead : ∀ q : CycleBufferQueue N, q.ialloc = some j → live q j = false :=
    fun q hq => not_live_iff.mpr (Or.inl hq)
  have hlive : ∀ k, live r'.q k = live r.q k := by
    intro k
    by_cases hk : k = j
    · subst hk
      rw [hdead r'.q hj, hdead r.q hj]
    · simp [r', observe, live, usable, Function.update_of_ne hk]
  have hentry : ∀ k, k ≠ j → r'.entry k = r.entry k := by
    intro k hk
    simp [r', observe, Ring.entry, Function.update_of_ne hk]
  refine .stay ⟨hshape, h.sent, ?_, ?_, h.log⟩
  · rw [← h.pending]
    refine pending_congr (fun k _ => hlive k) fun k _ hk => hentry k ?_
    rintro rfl
    rw [hdead r.q hj] at hk
    cases hk
  · rw [← h.taken]
    change r.q.iusing.map r'.entry = _
    cases hu : r.q.iusing with
    | none => rfl
    | some u => exact congrArg some (hentry u fun he => h.shape.distinct j hj (he ▸ hu))

theorem follows_doneAlloc {r : Ring N} {a : LossyFifo (List Byte)} {q' : CycleBufferQueue N}
    (h : Refines r a) (hx : exec r.q .doneAlloc = .ok q') : Follows a (observe r q' .doneAlloc) := by
  have hshape := shape_step h.shape hx
  obtain ⟨hip, rfl⟩ := doneAlloc_cases hx
  set r' := observe r { r.q with ip := incr r.q.ip, ialloc := none } .doneAlloc with hr'
  have hobs : r' = ⟨{ r.q with ip := incr r.q.ip, ialloc := none },
      Function.update r.stamp r.q.ip (some r.commits.length),
      r.commits ++ [(r.q.bufs r.q.ip).data], r.log⟩ := by
    rw [hr']
    simp only [observe, hip]
  have hq : r'.q = { r.q with ip := incr r.q.ip, ialloc := none } := by rw [hobs]
  have hne := h.shape.distinct _ hip
  have hlive : ∀ k, k ≠ r.q.ip → live r'.q k = live r.q k := by
    intro k hk
    simp [hq, live, usable, hip, hk.symm]
  have hentry : ∀ k, k ≠ r.q.ip → r'.entry k = r.entry k := by
    intro k hk
    rw [hobs]
    exact entry_update_stamp hk rfl (r.commits ++ [(r.q.bufs r.q.ip).data]) r.log
  have hself : r'.entry r.q.ip = (some r.commits.length, (r.q.bufs r.q.ip).data) := by
    rw [hobs]
    simp [Ring.entry]
  have hold : r.pending = ((after r.q.ip).filter (live r.q)).map r.entry := by
    have hdead : live r.q r.q.ip = false := not_live_iff.mpr (Or.inl hip)
    rw [Ring.pending, order, List.filter_cons, hdead]
    rfl
  have hrest : ((after r.q.ip).filter (live r'.q)).map r'.entry = a.pending.map lift := by
    rw [← h.pending, hold]
    exact pending_congr (fun k hk => hlive k (mem_after.mp hk)) fun k hk _ => hentry k (mem_after.mp hk)
  have hnew : r'.pending = a.pending.map lift ++
      ([r.q.ip].filter (live r'.q)).map r'.entry := by
    rw [← hrest, ← List.map_append, ← List.filter_append, ← order_incr]
    simp only [Ring.pending, hq]
  have htaken : r'.q.iusing.map r'.entry = a.taken.map lift := by
    rw [← h.taken, hq]
    change r.q.iusing.map r'.entry = _
    cases hu : r.q.iusing with
    | none => rfl
    | some u => exact congrArg some (hentry u fun he => hne (he ▸ hu))
  have hsent : r'.commits = a.sent ++ [(r.q.bufs r.q.ip).data] := by rw [hobs, ← h.sent]
  have hlog : r'.log = a.log.map liftEvent := by rw [hobs]; exact h.log
  cases hempty : (r.q.bufs r.q.ip).isEmpty with
  | true =>
    have hdead : live r'.q r.q.ip = false := not_live_iff.mpr (Or.inr (Or.inl (by rw [hq]; exact hempty)))
    refine .step (by simp) (.lose a (r.q.bufs r.q.ip).data) ⟨hq ▸ hshape, hsent, ?_, htaken, hlog⟩
    rw [hnew]
    simp [hdead]
  | false =>
    have hli : live r'.q r.q.ip = true :=
      live_iff.mpr ⟨by simp [hq], by rw [hq]; exact hempty, by rw [hq]; exact hne⟩
    refine .step (by simp) (.push a (r.q.bufs r.q.ip).data) ⟨hq ▸ hshape, hsent, ?_, htaken, hlog⟩
    rw [hnew]
    simp [hli, hself, lift, h.sent]

/-- Taking the first usable slot out of the consumer's reach or back into it. -/
theorem filter_found {q : CycleBufferQueue N} {j : Fin N}
    (hf : (order q.ip).find? q.usable = some j) :
    (order q.ip).filter q.usable =
      j :: (order q.ip).filter (fun i => q.usable i && decide (some j ≠ some i)) := by
  have hhead : ((order q.ip).filter q.usable).head? = some j := by rw [List.head?_filter, hf]
  cases hl : (order q.ip).filter q.usable with
  | nil => rw [hl] at hhead; cases hhead
  | cons i rest =>
    rw [hl] at hhead
    obtain rfl := Option.some.inj hhead
    have hnodup : (i :: rest).Nodup := hl ▸ (nodup_order q.ip).filter q.usable
    have hni : i ∉ rest := (List.nodup_cons.mp hnodup).1
    have hrest : rest.filter (fun k => decide (some i ≠ some k)) = rest := by
      refine List.filter_eq_self.mpr fun k hk => ?_
      simp only [ne_eq, Option.some.injEq, decide_not, Bool.not_eq_eq_eq_not, Bool.not_true,
        decide_eq_false_iff_not]
      exact fun he => hni (he ▸ hk)
    have hsplit : (order q.ip).filter (fun k => q.usable k && decide (some i ≠ some k)) =
        (i :: rest).filter (fun k => decide (some i ≠ some k)) := by
      rw [← hl, List.filter_filter]
      exact List.filter_congr fun k _ => Bool.and_comm _ _
    rw [hsplit, List.filter_cons_of_neg (by simp), hrest]

theorem follows_wait {r : Ring N} {a : LossyFifo (List Byte)} {q' : CycleBufferQueue N}
    (h : Refines r a) (hx : r.q.wait = .ok q') : Follows a (observe r q' .wait) := by
  have hshape := shape_step h.shape (show exec r.q .wait = .ok q' from hx)
  obtain ⟨hnone, rfl⟩ := wait_cases hx
  have htn : a.taken = none := by
    have ht := h.taken
    rw [hnone] at ht
    exact Option.map_eq_none_iff.mp ht.symm
  have husable : live r.q = r.q.usable := by
    funext i
    simp [live, hnone]
  cases hf : (order r.q.ip).find? r.q.usable with
  | none =>
    rw [hf] at hshape
    have hsame : ({ r.q with iusing := none } : CycleBufferQueue N) = r.q := by rw [← hnone]
    refine .stay ?_
    simp only [observe, hsame]
    exact h
  | some j =>
    rw [hf] at hshape
    have hpend := h.pending
    rw [Ring.pending, husable, filter_found hf, List.map_cons] at hpend
    cases hp : a.pending with
    | nil => rw [hp] at hpend; cases hpend
    | cons p ps =>
      rw [hp, List.map_cons] at hpend
      obtain ⟨hhead, htail⟩ := List.cons.inj hpend
      refine .step (by simp) (.take a p ps hp htn) ⟨hshape, h.sent, htail, ?_, ?_⟩
      · exact congrArg some hhead
      · have hstamp : r.stamp j = some p.1 := congrArg Prod.fst hhead
        have hdata : (r.q.bufs j).data = p.2 := congrArg Prod.snd hhead
        rw [List.map_append, ← h.log]
        simp [observe, hstamp, hdata, liftEvent]

theorem follows_doneUsing {r : Ring N} {a : LossyFifo (List Byte)} {q' : CycleBufferQueue N}
    (h : Refines r a) (hx : exec r.q .doneUsing = .ok q') : Follows a (observe r q' .doneUsing) := by
  have hshape := shape_step h.shape hx
  obtain ⟨j, hj, rfl⟩ := doneUsing_cases h.shape.apart hx
  have ht := h.taken
  rw [hj] at ht
  obtain ⟨p, hp, _⟩ := Option.map_eq_some_iff.mp ht.symm
  set r' := observe r ⟨Function.update r.q.bufs j (r.q.bufs j).clear, r.q.ip, r.q.ialloc, none⟩
    .doneUsing
  have hlive : ∀ k, live r'.q k = live r.q k := by
    intro k
    by_cases hk : k = j
    · subst hk
      have h1 : live r.q k = false := not_live_iff.mpr (Or.inr (Or.inr hj))
      have h2 : live r'.q k = false :=
        not_live_iff.mpr (Or.inr (Or.inl (by simp [r', observe, BufferRef.isEmpty])))
      rw [h1, h2]
    · simp [r', observe, live, usable, hj, Function.update_of_ne hk, Ne.symm hk]
  refine .step (by simp) (.release a p hp) ⟨hshape, h.sent, ?_, rfl, h.log⟩
  rw [← h.pending]
  refine pending_congr (fun k _ => hlive k) fun k _ hk => ?_
  have hkj : k ≠ j := fun he => (live_iff.mp hk).2.2 (he ▸ hj)
  simp [r', observe, Ring.entry, Function.update_of_ne hkj]

/-- An aborted buffer that nothing was written to stays out of sight. -/
theorem follows_failAlloc {r : Ring N} {a : LossyFifo (List Byte)} {q' : CycleBufferQueue N}
    (h : Refines r a) (hc : ∀ i, r.q.ialloc = some i → (r.q.bufs i).isEmpty = true)
    (hx : exec r.q .failAlloc = .ok q') : Follows a (observe r q' .failAlloc) := by
  have hshape := shape_step h.shape hx
  obtain ⟨hip, rfl⟩ := failAlloc_cases hx
  set r' := observe r { r.q with ialloc := none } .failAlloc
  have hlive : ∀ k, live r'.q k = live r.q k := by
    intro k
    by_cases hk : k = r.q.ip
    · subst hk
      have h1 : live r.q r.q.ip = false := not_live_iff.mpr (Or.inl hip)
      have h2 : live r'.q r.q.ip = false := not_live_iff.mpr (Or.inr (Or.inl (hc _ hip)))
      rw [h1, h2]
    · simp [r', observe, live, usable, hip, Ne.symm hk]
  refine .stay ⟨hshape, h.sent, ?_, h.taken, h.log⟩
  rw [← h.pending]
  exact pending_congr (fun k _ => hlive k) fun k _ _ => rfl

/-- A message handed back from the first usable slot is the oldest one again. -/
theorem giveBack_failUsing {r : Ring N} {a : LossyFifo (List Byte)} {q' : CycleBufferQueue N}
    (h : Refines r a) (hc : r.q.findusable N r.q.ip (decr r.q.ip) = r.q.iusing)
    (hx : exec r.q .failUsing = .ok q') :
    ∃ b, LossyFifo.Step a .giveBack b ∧ Refines (observe r q' .failUsing) b := by
  have hshape := shape_step h.shape hx
  obtain ⟨j, hj, rfl⟩ := failUsing_cases h.shape.apart hx
  rw [findusable_order, hj] at hc
  have ht := h.taken
  rw [hj] at ht
  obtain ⟨p, hp, hpj⟩ := Option.map_eq_some_iff.mp ht.symm
  have hpj' : r.entry j = lift p := hpj.symm
  have hobs : observe r { r.q with iusing := none } .failUsing =
      ⟨{ r.q with iusing := none }, r.stamp, r.commits, r.log ++ [.handedBack (r.stamp j)]⟩ := by
    simp only [observe, hj]
  rw [hobs]
  refine ⟨_, .giveBack a p hp, hshape, h.sent, ?_, rfl, ?_⟩
  · have hlive' : live ({ r.q with iusing := none } : CycleBufferQueue N) = r.q.usable := by
      funext i
      simp [live, usable]
    have hlive : live r.q = fun i => r.q.usable i && decide (some j ≠ some i) := by
      funext i
      simp [live, hj]
    have hpend := h.pending
    rw [Ring.pending, hlive] at hpend
    simp only [Ring.pending, hlive']
    rw [filter_found hc, List.map_cons, List.map_cons, ← hpend]
    exact congrArg (· :: _) hpj'
  · have hstamp : r.stamp j = some p.1 := congrArg Prod.fst hpj'
    rw [List.map_append, ← h.log]
    simp [hstamp, liftEvent]

end CppSnippets.Epoll.QueueRefinement
