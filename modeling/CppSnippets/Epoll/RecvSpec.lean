import CppSnippets.Epoll.RecvPath
import CppSnippets.Lib.Run

/-!
# Which datagrams the receive path handles

What a side does with the bytes of its buffer is said once, by its `Spec`. From this
follows for both sides the same condition on a datagram, under which the receive path
returns and leaves no message that is all there, and that no other datagram has this.
-/
namespace CppSnippets.Epoll.RecvPath

open CppSnippets.Lib

variable {σ : Type}

/-! ## What a side digests -/

/-- What `unpack` does with a buffer as far as its bytes say: where they fit, it is done
with `taken` of them and leaves `rest`; where they do not, it stops or leaves a
message that is all there. -/
structure Spec (side : Side σ) (Inv : σ → Prop) where
  Fit : List Byte → Prop
  taken : List Byte → Nat
  rest : List Byte → List Byte
  untouched : ∀ {b}, taken b = 0 → rest b = b
  fit : ∀ {s rb}, Inv s → rb.data ≠ [] → Fit rb.data →
    ∃ t rb', side.unpack s rb = .ok (t, rb', taken rb.data) ∧ Inv t ∧ rb'.size = rb.size ∧
      taken rb.data ≤ rb.size ∧ rb'.data.drop (taken rb.data) = rest rb.data ∧
      Call.Consumes ⟨rb.data, taken rb.data⟩
  unfit : ∀ {s rb t rb' n}, Inv s → rb.data ≠ [] → ¬Fit rb.data →
    side.unpack s rb = .ok (t, rb', n) → ¬Call.Consumes ⟨rb.data, n⟩

namespace Spec

variable {side : Side σ} {Inv : σ → Prop}

/-- The bytes fit at every call of `unpack`. -/
inductive Digests (spec : Spec side Inv) : List Byte → Prop
  | nothing : Digests spec []
  | waits {b : List Byte} : b ≠ [] → spec.Fit b → spec.taken b = 0 → Digests spec b
  | takes {b : List Byte} :
      b ≠ [] → spec.Fit b → 0 < spec.taken b → Digests spec (spec.rest b) → Digests spec b

/-- Nothing stops the side when the last fragment is there. -/
def Whole (spec : Spec side Inv) (b : List Byte) : Prop := 12 ≤ b.length ∧ spec.Digests b

/-- The condition on a datagram, in the state that it meets. -/
def Ok (spec : Spec side Inv) (io : IoBasic) : List Byte → Prop
  | [] => True
  | b0 :: b1 :: _ :: _ :: p =>
    let p := p.take io.xbuf.spaces
    if ofBe16 b0 b1 = 0xffff then p.length ≤ 4 ∨ side.kind = .arrayBuf
    else
      let head0 := ofBe16 b0 b1
      head0 &&& 0x8000 ≠ 0 →
        if head0 &&& 0x7fff = io.xh1 then spec.Whole (io.xbuf.data ++ p)
        else head0 &&& 0x7fff = 0 → spec.Whole p
  | _ => side.kind = .arrayBuf

variable (spec : Spec side Inv) {s t : σ} {rb left : BufferRef} {calls : List Call} {turns : Nat}
  {io io' : IoBasic} {d : List Byte}

variable {spec}

theorem Digests.front {b : List Byte} (h : spec.Digests b) (hne : b ≠ []) :
    spec.Fit b ∧ (0 < spec.taken b → spec.Digests (spec.rest b)) := by
  cases h with
  | nothing => contradiction
  | waits _ hfit hzero => exact ⟨hfit, fun hpos => absurd hzero (by omega)⟩
  | takes _ hfit _ hrest => exact ⟨hfit, fun _ => hrest⟩

theorem not_complete_nil : ¬Complete [] := by
  intro h
  obtain ⟨n, hn, _⟩ := h
  cases hn

/-! ## `process_recvd` -/

theorem processLoop_nil (side : Side σ) (turns : Nat) (s : σ) (hnil : rb.data = []) :
    processLoop side turns s rb = .ok (s, rb, []) := by
  cases turns with
  | zero => rfl
  | succ turns =>
    have hempty : rb.isEmpty = true := List.isEmpty_iff.mpr hnil
    rw [processLoop, if_pos hempty]

theorem processLoop_takes {rb' c : BufferRef} {n : Nat} (hne : rb.data ≠ [])
    (hun : side.unpack s rb = .ok (t, rb', n)) (hpos : 0 < n) (hle : n ≤ rb'.size)
    (hc : rb'.consume n = .ok c) :
    processLoop side (turns + 1) s rb =
      (processLoop side turns t c).map fun r => (r.1, r.2.1, ⟨rb.data, n⟩ :: r.2.2) := by
  have hempty : ¬rb.isEmpty = true := fun h => hne (List.isEmpty_iff.mp h)
  rw [processLoop, if_neg hempty]
  simp only [hun]
  rw [if_pos hpos, if_neg (by omega)]
  simp only [hc]
  cases processLoop side turns t c with
  | error e => rfl
  | ok r => rfl

theorem processLoop_waits {rb' : BufferRef} (hne : rb.data ≠ [])
    (hun : side.unpack s rb = .ok (t, rb', 0)) :
    processLoop side (turns + 1) s rb = .ok (t, rb', [⟨rb.data, 0⟩]) := by
  have hempty : ¬rb.isEmpty = true := fun h => hne (List.isEmpty_iff.mp h)
  rw [processLoop, if_neg hempty]
  simp only [hun]
  rfl

/-- The first call of a loop that returns is among its calls. -/
theorem processLoop_first (hne : rb.data ≠ []) (h : processLoop side (turns + 1) s rb = .ok (t, left, calls)) :
    ∃ u rb' n, side.unpack s rb = .ok (u, rb', n) ∧ ⟨rb.data, n⟩ ∈ calls := by
  have hempty : ¬rb.isEmpty = true := fun h => hne (List.isEmpty_iff.mp h)
  rw [processLoop, if_neg hempty] at h
  cases hun : side.unpack s rb with
  | error e =>
    rw [hun] at h
    cases h
  | ok r =>
    obtain ⟨u, rb', n⟩ := r
    refine ⟨u, rb', n, rfl, ?_⟩
    simp only [hun] at h
    split at h
    · split at h
      · cases h
      · split at h
        · cases h
        · split at h
          · cases h
          · cases h
            exact List.mem_cons_self
    · cases h
      exact List.mem_cons_self

/-- What is left of a buffer that `unpack` takes bytes of. -/
theorem exists_consumed {rb' : BufferRef} {n : Nat} (hsize : rb'.size = rb.size) (hpos : 0 < n)
    (htaken : n ≤ rb.size) (hle : rb.size ≤ turns + 1) :
    ∃ c, rb'.consume n = .ok c ∧ c.data = rb'.data.drop n ∧ c.size ≤ turns := by
  obtain ⟨c, hc, hcd, _⟩ := BufferRef.consume_ok (b := rb') n (by omega)
  have hlen : rb'.data.length = rb.size := hsize
  refine ⟨c, hc, hcd, ?_⟩
  rw [BufferRef.size, hcd, List.length_drop]
  omega

theorem process_of_digests (hs : Inv s) (hle : rb.size ≤ turns) (h : spec.Digests rb.data) :
    ∃ t left calls, processLoop side turns s rb = .ok (t, left, calls) ∧
      (∀ c ∈ calls, c.Consumes) ∧ Inv t ∧ ¬Complete left.data := by
  induction turns generalizing s rb with
  | zero =>
    have hnil : rb.data = [] := List.eq_nil_of_length_eq_zero (Nat.le_zero.mp hle)
    refine ⟨s, rb, [], rfl, fun _ h => absurd h List.not_mem_nil, hs, ?_⟩
    rw [hnil]
    exact not_complete_nil
  | succ turns ih =>
    by_cases hnil : rb.data = []
    · refine ⟨s, rb, [], processLoop_nil side _ s hnil, fun _ h => absurd h List.not_mem_nil, hs, ?_⟩
      rw [hnil]
      exact not_complete_nil
    obtain ⟨hfit, hmore⟩ := h.front hnil
    obtain ⟨t, rb', hun, ht, hsize, htaken, hrest, hcons⟩ := spec.fit hs hnil hfit
    by_cases hpos : 0 < spec.taken rb.data
    · obtain ⟨c, hc, hcd, hcs⟩ := exists_consumed hsize hpos htaken hle
      obtain ⟨u, left, calls, hloop, hall, hu, hleft⟩ := ih ht hcs (hcd ▸ hrest ▸ hmore hpos)
      refine ⟨u, left, ⟨rb.data, spec.taken rb.data⟩ :: calls, ?_, ?_, hu, hleft⟩
      · rw [processLoop_takes hnil hun hpos (hsize ▸ htaken) hc, hloop]
        rfl
      · exact List.forall_mem_cons.mpr ⟨hcons, hall⟩
    · have hzero : spec.taken rb.data = 0 := by omega
      rw [hzero] at hun hrest hcons
      rw [List.drop_zero, spec.untouched hzero] at hrest
      refine ⟨t, rb', [⟨rb.data, 0⟩], processLoop_waits hnil hun, ?_, ht, ?_⟩
      · exact List.forall_mem_singleton.mpr hcons
      · rw [hrest]
        intro h
        obtain ⟨n, hn, hle⟩ := h
        exact Nat.lt_irrefl 0 (hcons n hn hle).1

theorem digests_of_process (hs : Inv s) (hle : rb.size ≤ turns)
    (h : processLoop side turns s rb = .ok (t, left, calls)) (hcalls : ∀ c ∈ calls, c.Consumes) :
    spec.Digests rb.data := by
  induction turns generalizing s rb calls with
  | zero =>
    have hnil : rb.data = [] := List.eq_nil_of_length_eq_zero (Nat.le_zero.mp hle)
    rw [hnil]
    exact .nothing
  | succ turns ih =>
    by_cases hnil : rb.data = []
    · rw [hnil]
      exact .nothing
    by_cases hfit : spec.Fit rb.data
    · obtain ⟨u, rb', hun, hu, hsize, htaken, hrest, _⟩ := spec.fit hs hnil hfit
      by_cases hpos : 0 < spec.taken rb.data
      · obtain ⟨c, hc, hcd, hcs⟩ := exists_consumed hsize hpos htaken hle
        rw [processLoop_takes hnil hun hpos (hsize ▸ htaken) hc] at h
        cases hloop : processLoop side turns u c with
        | error e =>
          rw [hloop] at h
          cases h
        | ok r =>
          rw [hloop] at h
          cases h
          refine .takes hnil hfit hpos ?_
          rw [← hrest, ← hcd]
          exact ih hu hcs hloop fun c hc => hcalls c (List.mem_cons_of_mem _ hc)
      · exact .waits hnil hfit (by omega)
    · obtain ⟨u, rb', n, hun, hmem⟩ := processLoop_first hnil h
      exact absurd (hcalls _ hmem) (spec.unfit hs hnil hfit hun)

/-! ## `l2recv_one` -/

theorem l2close_ok (hkind : side.kind = .arrayBuf) (hopen : io.isOpen = true) :
    l2close side.kind io = .ok { io with txbuf := none, xbuf := io.xbuf.clear, isOpen := false } := by
  rw [hkind, l2close, IoBasic.l2close, if_pos hopen]
  rfl

theorem kind_of_l2close (h : l2close side.kind io = .ok io') : side.kind = .arrayBuf := by
  cases hkind : side.kind with
  | mallocBuf =>
    rw [hkind] at h
    cases h
  | arrayBuf => rfl

theorem recv_fragment (side : Side σ) (s : σ) (io : IoBasic) {b0 b1 : Byte} (c e : Byte) (p : List Byte)
    (h : ofBe16 b0 b1 ≠ 0xffff) :
    l2recvOne side s io (b0 :: b1 :: c :: e :: p) =
      if ofBe16 b0 b1 &&& 0x7fff = io.xh1 then
        posIncrRecv side s { io with xbuf := IoBasic.fill io.xbuf p } (ofBe16 b0 b1)
      else if ofBe16 b0 b1 &&& 0x7fff = 0 then
        posIncrRecv side s { io with xh1 := 0, xbuf := IoBasic.only io.xbuf p } (ofBe16 b0 b1)
      else .ok (s, { io with xh1 := 0, xbuf := io.xbuf.clear }, []) := by
  rw [l2recvOne]
  simp only [if_neg h, IoBasic.commit_take, IoBasic.consume_fill, BufferRef.consume_size]
  rfl

theorem posIncrRecv_of_whole (spec : Spec side Inv) {head0 : UInt16} (hs : Inv s) (hnext : io.xh1 + 1 ≠ 0)
    (hlast : head0 &&& 0x8000 ≠ 0 → spec.Whole io.xbuf.data) :
    ∃ t io' calls, posIncrRecv side s io head0 = .ok (t, io', calls) ∧
      (∀ c ∈ calls, c.Consumes) ∧ Inv t ∧ Settled io' := by
  by_cases hflag : head0 &&& 0x8000 ≠ 0
  · obtain ⟨hsize, hdig⟩ := hlast hflag
    obtain ⟨t, left, calls, hloop, hcons, ht, hleft⟩ := process_of_digests hs le_rfl hdig
    refine ⟨t, { io with xh1 := 0, xbuf := left }, calls, ?_, hcons, ht, fun _ => hleft⟩
    have hthere : ¬io.xbuf.size < 12 := Nat.not_lt.mpr hsize
    rw [posIncrRecv, if_pos hflag, if_neg hthere, processRecvd, hloop]
  · refine ⟨s, { io with xh1 := io.xh1 + 1 }, [], ?_, fun _ h => absurd h List.not_mem_nil, hs, ?_⟩
    · rw [posIncrRecv, if_neg hflag]
    · exact fun hzero => absurd hzero hnext

theorem whole_of_posIncrRecv {head0 : UInt16} (hs : Inv s)
    (h : posIncrRecv side s io head0 = .ok (t, io', calls)) (hcalls : ∀ c ∈ calls, c.Consumes)
    (hflag : head0 &&& 0x8000 ≠ 0) : spec.Whole io.xbuf.data := by
  rw [posIncrRecv, if_pos hflag] at h
  split at h
  · cases h
  · rename_i hsize
    refine ⟨Nat.not_lt.mp hsize, ?_⟩
    split at h
    · cases h
    · rename_i hloop
      cases h
      exact digests_of_process hs le_rfl hloop hcalls

theorem low_add_one_ne_zero (head0 : UInt16) : (head0 &&& 0x7fff) + 1 ≠ 0 := by
  intro h
  have hlow := low15 head0
  have hn := congrArg UInt16.toNat h
  rw [UInt16.toNat_add, hlow] at hn
  change (head0.toNat % 0x8000 + 1) % 65536 = 0 at hn
  omega

theorem recv_of_ok (hs : Inv s) (hopen : io.isOpen = true) (hsettled : Settled io)
    (hok : spec.Ok io d) :
    ∃ t io' calls, l2recvOne side s io d = .ok (t, io', calls) ∧ (∀ c ∈ calls, c.Consumes) ∧
      Inv t ∧ Settled io' := by
  have hclosed (hkind : side.kind = .arrayBuf) :
      ∃ t io' calls, ((l2close side.kind io).map fun io => (s, io, ([] : List Call))) = .ok (t, io', calls) ∧
        (∀ c ∈ calls, c.Consumes) ∧ Inv t ∧ Settled io' := by
    rw [l2close_ok hkind hopen]
    exact ⟨s, _, [], rfl, fun _ h => absurd h List.not_mem_nil, hs, fun _ => not_complete_nil⟩
  match d, hok with
  | [], _ => exact ⟨s, io, [], rfl, fun _ h => absurd h List.not_mem_nil, hs, hsettled⟩
  | [_], hkind => exact hclosed hkind
  | [_, _], hkind => exact hclosed hkind
  | [_, _, _], hkind => exact hclosed hkind
  | b0 :: b1 :: c :: e :: p, hok =>
    by_cases hones : ofBe16 b0 b1 = 0xffff
    · rw [Ok, if_pos hones] at hok
      rw [l2recvOne, if_pos hones]
      split
      · exact hclosed (hok.resolve_left (by omega))
      · exact ⟨s, io, [], rfl, fun _ h => absurd h List.not_mem_nil, hs, hsettled⟩
    · rw [Ok, if_neg hones] at hok
      rw [recv_fragment side s io c e p hones]
      by_cases hexp : ofBe16 b0 b1 &&& 0x7fff = io.xh1
      · rw [if_pos hexp]
        refine posIncrRecv_of_whole spec hs (hexp ▸ low_add_one_ne_zero _) fun hflag => ?_
        have hwhole := hok hflag
        rwa [if_pos hexp] at hwhole
      · rw [if_neg hexp]
        split
        · rename_i hzero
          have hnext : (0 : UInt16) + 1 ≠ 0 := by decide
          refine posIncrRecv_of_whole spec hs hnext fun hflag => ?_
          have hwhole := hok hflag
          rw [if_neg hexp] at hwhole
          exact hwhole hzero
        · exact ⟨s, _, [], rfl, fun _ h => absurd h List.not_mem_nil, hs, fun _ => not_complete_nil⟩

theorem ok_of_handled (hs : Inv s) (h : Handled side s io d) : spec.Ok io d := by
  obtain ⟨t, io', calls, hrecv, hcalls⟩ := h
  have hclosed (hclose : ((l2close side.kind io).map fun io => (s, io, ([] : List Call))) =
      .ok (t, io', calls)) : side.kind = .arrayBuf := by
    cases hl : l2close side.kind io with
    | error e =>
      rw [hl] at hclose
      cases hclose
    | ok io'' => exact kind_of_l2close hl
  match d, hrecv with
  | [], _ => exact trivial
  | [_], hrecv => exact hclosed hrecv
  | [_, _], hrecv => exact hclosed hrecv
  | [_, _, _], hrecv => exact hclosed hrecv
  | b0 :: b1 :: c :: e :: p, hrecv =>
    by_cases hones : ofBe16 b0 b1 = 0xffff
    · rw [Ok, if_pos hones]
      rw [l2recvOne, if_pos hones] at hrecv
      split at hrecv
      · exact .inr (hclosed hrecv)
      · exact .inl (by omega)
    · rw [Ok, if_neg hones]
      rw [recv_fragment side s io c e p hones] at hrecv
      intro head0 hflag
      by_cases hexp : ofBe16 b0 b1 &&& 0x7fff = io.xh1
      · rw [if_pos hexp] at hrecv ⊢
        exact whole_of_posIncrRecv hs hrecv hcalls hflag
      · rw [if_neg hexp] at hrecv ⊢
        intro hzero
        rw [if_pos hzero] at hrecv
        exact whole_of_posIncrRecv hs hrecv hcalls hflag

/-- A datagram is handled in the states of the invariant if and only if it meets the
condition. -/
theorem handled_iff (hs : Inv s) (hopen : io.isOpen = true) (hsettled : Settled io) :
    Handled side s io d ↔ spec.Ok io d := by
  constructor
  · exact ok_of_handled hs
  · intro hok
    obtain ⟨t, io', calls, hrecv, hcalls, _⟩ := recv_of_ok hs hopen hsettled hok
    exact ⟨t, io', calls, hrecv, hcalls⟩

/-! ## Runs -/

end Spec

/-- What happens at an endpoint: a datagram arrives, or its own sender goes on. -/
inductive Event where
  | datagram (d : List Byte)
  | sender

/-- The sender uses the queue, and fields of its own. -/
inductive Step (side : Side σ) (Sends : σ → σ → Prop) : σ × IoBasic → Event → σ × IoBasic → Prop where
  | datagram {s t : σ} {io io' : IoBasic} {d : List Byte} {calls : List Call} :
      io.isOpen = true → l2recvOne side s io d = .ok (t, io', calls) →
      Step side Sends (s, io) (.datagram d) (t, io')
  | sender {s t : σ} {io : IoBasic} (txbuf : Option (List Byte)) (txpos : Nat) (xh0 : UInt16) :
      Sends s t → Step side Sends (s, io) .sender (t, { io with txbuf := txbuf, txpos := txpos, xh0 := xh0 })

namespace Spec

variable {side : Side σ} {Inv : σ → Prop}

/-- The datagrams of a run meet the condition in the states in which they arrive. -/
def Meets (spec : Spec side Inv) (x : σ × IoBasic) : Event → Prop
  | .datagram d => spec.Ok x.2 d
  | .sender => True

/-- In this state every message that is all there is consumed, and whatever datagram
arrives next is handled if and only if it meets the condition. -/
def Robust (spec : Spec side Inv) (x : σ × IoBasic) : Prop :=
  Settled x.2 ∧ ∀ d, x.2.isOpen = true → (Handled side x.1 x.2 d ↔ spec.Ok x.2 d)

theorem settled_step {spec : Spec side Inv} {Sends : σ → σ → Prop} (hsends : ∀ s t, Inv s → Sends s t → Inv t)
    {x y : σ × IoBasic} {e : Event} (hx : Inv x.1 ∧ Settled x.2)
    (h : Guarded spec.Meets (Step side Sends) x e y) : Inv y.1 ∧ Settled y.2 := by
  obtain ⟨hok, hstep⟩ := h
  cases hstep with
  | datagram hopen hrecv =>
    obtain ⟨t, io', calls, hrecv', _, ht, hsettled⟩ := recv_of_ok hx.1 hopen hx.2 hok
    cases hrecv.symm.trans hrecv'
    exact ⟨ht, hsettled⟩
  | sender _ _ _ hsend => exact ⟨hsends _ _ hx.1 hsend, hx.2⟩

theorem robust_run {spec : Spec side Inv} {Sends : σ → σ → Prop} (hsends : ∀ s t, Inv s → Sends s t → Inv t)
    {x y : σ × IoBasic} {events : List Event} (hx : Inv x.1) (hstart : Settled x.2)
    (hrun : Run (Guarded spec.Meets (Step side Sends)) x events y) : spec.Robust y := by
  have hy := hrun.invariant (P := fun x : σ × IoBasic => Inv x.1 ∧ Settled x.2)
    (fun _ _ _ hx h => settled_step hsends hx h) ⟨hx, hstart⟩
  exact ⟨hy.2, fun d hopen => handled_iff hy.1 hopen hy.2⟩

end Spec

end CppSnippets.Epoll.RecvPath
