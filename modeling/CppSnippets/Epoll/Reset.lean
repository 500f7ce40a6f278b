import CppSnippets.Epoll.UdpIo
import CppSnippets.Epoll.CycleBufferQueue

/-!
# The reset of a connection

`l2close` empties the receive buffer by assigning a new one to it. The buffers are
three pointers, and the storage belongs to what they point into: `array_buf` has it as
a member, so that it lives as long as its object, and `malloc_buf` gets it from
`malloc` and frees it. The endpoint elsewhere keeps the bytes of the buffer alone; here
are the pointers. `xdata()` is an empty struct.
-/
namespace CppSnippets.Epoll.Reset

/-- An object of a buffer type: the socket's, or a temporary. -/
inductive Obj where
  | xbuf
  | temporary (n : Nat)
  deriving DecidableEq

/-- What a pointer may point into. -/
inductive Storage where
  | null
  /-- The member `array_` of an object. -/
  | array (o : Obj)
  /-- The result of the `n`-th `malloc`. -/
  | heap (n : Nat)
  deriving DecidableEq

structure Pointer where
  storage : Storage
  offset : Nat
  deriving DecidableEq

/-- The three pointers of a `buffer_ref`. -/
structure Ref where
  beginPtr : Pointer
  endPtr : Pointer
  /-- `end_` -/
  limit : Pointer
  deriving DecidableEq

inductive Kind where
  | mallocBuf
  | arrayBuf
  deriving DecidableEq

/-- What is alive: the heap blocks and the objects. -/
structure Memory where
  mallocs : Nat
  blocks : List Nat
  objects : List Obj

def Memory.Live (m : Memory) : Storage → Prop
  | .null => False
  | .array o => o ∈ m.objects
  | .heap n => n ∈ m.blocks

/-- `Capacity` as bytes that the storage of the kind has. -/
def Kind.capacity (cap : Nat) : Kind → Nat
  | .mallocBuf => cap
  | .arrayBuf => 4 * ((cap + 3) / 4)

/-- Which calls of `malloc` return a block. -/
abbrev Malloc := Nat → Bool

def Memory.malloc (m : Memory) (ok : Malloc) : Storage × Memory :=
  if ok m.mallocs then
    (.heap m.mallocs, { m with mallocs := m.mallocs + 1, blocks := m.mallocs :: m.blocks })
  else (.null, { m with mallocs := m.mallocs + 1 })

/-- The default constructor of a temporary. -/
def construct (kind : Kind) (cap : Nat) (ok : Malloc) (o : Obj) (m : Memory) : Ref × Memory :=
  let (s, m) := match kind with
    | .mallocBuf => m.malloc ok
    | .arrayBuf => (.array o, m)
  (⟨⟨s, 0⟩, ⟨s, 0⟩, ⟨s, kind.capacity cap⟩⟩, { m with objects := o :: m.objects })

/-- The destructor: `malloc_buf` frees what `begin()` points to. -/
def destroy (kind : Kind) (o : Obj) (r : Ref) (m : Memory) : Memory :=
  let blocks := match kind, r.beginPtr.storage with
    | .mallocBuf, .heap n => m.blocks.erase n
    | _, _ => m.blocks
  { m with blocks := blocks, objects := m.objects.erase o }

/-- `malloc_buf::operator=` of two objects, in calls at most `fuel` deep: `end_` is this
object's own, and `rhs` is assigned a new buffer in the same way. It gives this buffer,
the other one and the memory. -/
def moveAssign (cap : Nat) (ok : Malloc) : Nat → Ref → Ref → Memory → Option (Ref × Ref × Memory)
  | 0, _, _, _ => none
  | fuel + 1, this, rhs, m => do
    let this : Ref := ⟨rhs.beginPtr, rhs.endPtr, this.limit⟩
    let o := .temporary m.objects.length
    let (tmp, m) := construct .mallocBuf cap ok o m
    let (rhs, tmp, m) ← moveAssign cap ok fuel rhs tmp m
    return (this, rhs, destroy .mallocBuf o tmp m)

/-- The assignment from an rvalue: `array_buf` has the implicit one, which copies the
pointers. -/
def assign (kind : Kind) (cap : Nat) (ok : Malloc) (fuel : Nat) (this rhs : Ref) (m : Memory) :
    Option (Ref × Ref × Memory) :=
  match kind with
  | .mallocBuf => moveAssign cap ok fuel this rhs m
  | .arrayBuf => some (rhs, rhs, m)

/-- A socket with its `io_basic`, as `l2close` uses them. -/
structure Endpoint (N : Nat) where
  isOpen : Bool
  txque : CycleBufferQueue N
  txbuf : Option (Fin N)
  xbuf : Ref
  /-- `l2xdata().sin_port` -/
  port : UInt16
  memory : Memory

variable {N : Nat}

/-- The receive buffer of the socket is assigned a new one. -/
def resetXbuf (kind : Kind) (cap : Nat) (ok : Malloc) (fuel : Nat) (s : Endpoint N) : Option (Endpoint N) := do
  let o := .temporary s.memory.objects.length
  let (tmp, m) := construct kind cap ok o s.memory
  let (xbuf, tmp, m) ← assign kind cap ok fuel s.xbuf tmp m
  return { s with xbuf := xbuf, memory := destroy kind o tmp m }

/-- The buffer being sent goes back to the queue. -/
def Endpoint.failTxbuf (s : Endpoint N) : Except Exit (Endpoint N) :=
  match s.txbuf with
  | none => .ok s
  | some j => do return { s with txque := ← s.txque.fail j, txbuf := none }

/-- `l2close`; `none` is no end within the fuel. -/
def l2close (kind : Kind) (cap : Nat) (ok : Malloc) (fuel : Nat) (s : Endpoint N) :
    Option (Except Exit (Endpoint N)) :=
  if s.isOpen then
    match s.failTxbuf with
    | .error e => some (.error e)
    | .ok s => do
      let s ← resetXbuf kind cap ok fuel s
      return .ok { s with port := 0, isOpen := false }
  else some (.error .assertion)

/-- The receive buffer is empty, with all of its own storage. -/
structure OwnStorage (kind : Kind) (cap : Nat) (s : Endpoint N) : Prop where
  empty : s.xbuf.endPtr = s.xbuf.beginPtr
  room : s.xbuf.limit = ⟨s.xbuf.beginPtr.storage, s.xbuf.beginPtr.offset + kind.capacity cap⟩
  live : s.memory.Live s.xbuf.beginPtr.storage
  own : ∀ o, s.xbuf.beginPtr.storage = .array o → o = .xbuf

/-- It ends, with the socket closed, nothing being sent and the buffer as new. -/
def Resets (kind : Kind) (cap : Nat) (ok : Malloc) (s : Endpoint N) : Prop :=
  ∃ fuel t, l2close kind cap ok fuel s = some (.ok t) ∧ t.isOpen = false ∧ t.txbuf = none ∧
    OwnStorage kind cap t

variable {kind : Kind} {cap fuel : Nat} {ok : Malloc} {s t : Endpoint N}

/-! ## The two assignments -/

/-- The assignment of a `malloc_buf` calls itself for the buffer it makes, whatever
`malloc` returns. -/
theorem moveAssign_none (this rhs : Ref) (m : Memory) : moveAssign cap ok fuel this rhs m = none := by
  induction fuel generalizing this rhs m with
  | zero => rfl
  | succ fuel ih =>
    rw [moveAssign]
    dsimp only
    rw [ih]
    rfl

theorem resetXbuf_malloc : resetXbuf .mallocBuf cap ok fuel s = none := by
  rw [resetXbuf]
  dsimp only
  rw [assign, moveAssign_none]
  rfl

/-- The assignment of an `array_buf` leaves the pointers in the temporary. -/
theorem resetXbuf_array (h : resetXbuf .arrayBuf cap ok fuel s = some t) :
    ∃ n, t = { s with
      xbuf := ⟨⟨.array (.temporary n), 0⟩, ⟨.array (.temporary n), 0⟩,
        ⟨.array (.temporary n), Kind.arrayBuf.capacity cap⟩⟩
      memory := t.memory } := by
  cases h
  exact ⟨_, rfl⟩

theorem l2close_ok (h : l2close kind cap ok fuel s = some (.ok t)) :
    s.isOpen = true ∧ ∃ s' t', s.failTxbuf = .ok s' ∧ resetXbuf kind cap ok fuel s' = some t' ∧
      t = { t' with port := 0, isOpen := false } := by
  rw [l2close] at h
  split at h
  · rename_i hopen
    split at h
    · cases h
    · rename_i s' hfail
      cases hreset : resetXbuf kind cap ok fuel s' with
      | none =>
        rw [hreset] at h
        cases h
      | some t' =>
        rw [hreset] at h
        cases h
        exact ⟨hopen, s', t', hfail, hreset, rfl⟩
  · cases h

/-! ## The endpoint that keeps the bytes -/

/-- The two agree on what is open, what is sent and how long the buffer is. -/
structure View (s : Endpoint N) (io : IoBasic) : Prop where
  isOpen : s.isOpen = io.isOpen
  sending : s.txbuf.isSome = io.txbuf.isSome
  size : s.xbuf.beginPtr.offset + io.xbuf.size = s.xbuf.endPtr.offset
  capacity : s.xbuf.beginPtr.offset + io.xbuf.capacity = s.xbuf.limit.offset

theorem failTxbuf_ok (h : s.failTxbuf = .ok t) :
    t = { s with txque := t.txque, txbuf := none } := by
  rw [Endpoint.failTxbuf] at h
  cases hbuf : s.txbuf with
  | none =>
    rw [hbuf] at h
    cases h
    rw [← hbuf]
  | some j =>
    rw [hbuf] at h
    dsimp only at h
    cases hfail : s.txque.fail j with
    | error e =>
      rw [hfail] at h
      cases h
    | ok q =>
      rw [hfail] at h
      cases h
      rfl

/-- As far as `l2close` ends, the endpoint that keeps the bytes ends in the same state. -/
theorem l2close_view {io : IoBasic} (hview : View s io) (hcap : io.xbuf.capacity = kind.capacity cap)
    (h : l2close kind cap ok fuel s = some (.ok t)) : ∃ io', io.l2close = .ok io' ∧ View t io' := by
  obtain ⟨hopen, s', t', hfail, hreset, rfl⟩ := l2close_ok h
  cases kind with
  | mallocBuf =>
    rw [resetXbuf_malloc] at hreset
    cases hreset
  | arrayBuf =>
    obtain ⟨n, ht⟩ := resetXbuf_array hreset
    rw [ht, failTxbuf_ok hfail]
    refine ⟨_, if_pos (hview.isOpen ▸ hopen), rfl, rfl, rfl, ?_⟩
    dsimp only
    rw [BufferRef.clear_capacity, Nat.zero_add]
    exact hcap

/-! ## The main result -/

theorem mallocBuf_not_resets (cap : Nat) (ok : Malloc) (s : Endpoint N) : ¬Resets .mallocBuf cap ok s := by
  intro h
  obtain ⟨fuel, t, hclose, _⟩ := h
  obtain ⟨_, s', t', _, hreset, _⟩ := l2close_ok hclose
  rw [resetXbuf_malloc] at hreset
  cases hreset

theorem arrayBuf_not_resets (cap : Nat) (ok : Malloc) (s : Endpoint N) : ¬Resets .arrayBuf cap ok s := by
  intro h
  obtain ⟨fuel, t, hclose, _, _, hstorage⟩ := h
  obtain ⟨_, s', t', _, hreset, rfl⟩ := l2close_ok hclose
  obtain ⟨n, ht⟩ := resetXbuf_array hreset
  have hpointer : t'.xbuf.beginPtr.storage = .array (.temporary n) := by rw [ht]
  cases hstorage.own _ hpointer

/-- No state is reset, with either kind of buffer, whatever `malloc` returns. -/
theorem never_resets (kind : Kind) (cap : Nat) (ok : Malloc) (s : Endpoint N) : ¬Resets kind cap ok s := by
  cases kind with
  | mallocBuf => exact mallocBuf_not_resets cap ok s
  | arrayBuf => exact arrayBuf_not_resets cap ok s

/-- The client and the server, as they are made. -/
theorem not_reset_at_start :
    ¬Resets .mallocBuf 3110400 (fun _ => true)
      (⟨true, .init (by decide) fun _ => 16, none, ⟨⟨.heap 0, 0⟩, ⟨.heap 0, 0⟩, ⟨.heap 0, 3110400⟩⟩, 9990,
        ⟨1, [0], [.xbuf]⟩⟩ : Endpoint 16) ∧
    ¬Resets .arrayBuf 16 (fun _ => true)
      (⟨true, .init (by decide) fun _ => 3110400, none,
        ⟨⟨.array .xbuf, 0⟩, ⟨.array .xbuf, 0⟩, ⟨.array .xbuf, 16⟩⟩, 0, ⟨0, [], [.xbuf]⟩⟩ : Endpoint 2) :=
  ⟨mallocBuf_not_resets _ _ _, arrayBuf_not_resets _ _ _⟩

end CppSnippets.Epoll.Reset
