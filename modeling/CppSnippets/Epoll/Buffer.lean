import Mathlib.Data.List.Basic

/-!
# `buffer_ref` and the exits of the network code

A `buffer_ref` is a range of used bytes followed by free space up to a fixed
end. The pointers are kept as the used bytes and the capacity, and the range is
well formed by construction. Every `ERR_EXIT` and `BOOST_ASSERT` that the
modelled functions reach is a value of `Exit`, so that an exit is a result and
not a missing case.
-/
namespace CppSnippets.Epoll

abbrev Byte := UInt8

/-- Where the process stops. -/
inductive Exit where
  /-- A `BOOST_ASSERT` on an iterator that must be, or must not be, `end()`. -/
  | assertion
  /-- `buffer_ref:put %u > %u` -/
  | put
  /-- `buffer_ref:consume %u` -/
  | consume
  /-- `buffer_ref:commit %u %u` -/
  | commit
  /-- `size %u %u`, from `reserve` -/
  | reserve
  /-- `gt1 using` -/
  | gt1Using
  /-- `fatal %p %p`: `ip_` differs from `ialloc_` -/
  | fatalIp
  /-- `fatal %p %p %p`: the iterator is neither the allocated nor the used one -/
  | fatalIter
  /-- `bs_buf startbytes %08x` -/
  | startbytes
  /-- `%d %u`, from `process_recvd`: the sink claims more than there is -/
  | processRecvd
  deriving DecidableEq

structure BufferRef where
  data : List Byte
  capacity : Nat
  fits : data.length ≤ capacity

namespace BufferRef

def mk0 (capacity : Nat) : BufferRef := ⟨[], capacity, Nat.zero_le _⟩

def size (b : BufferRef) : Nat := b.data.length

def isEmpty (b : BufferRef) : Bool := b.data.isEmpty

/-- The length of `spaces()`. -/
def spaces (b : BufferRef) : Nat := b.capacity - b.size

def put (b : BufferRef) (p : List Byte) : Except Exit BufferRef :=
  if h : p.length > b.spaces then .error .put
  else .ok ⟨b.data ++ p, b.capacity, by
    have := b.fits
    simp only [spaces, size] at h
    rw [List.length_append]
    omega⟩

/-- The bytes a receive call has written at `spaces()`, added to the range. -/
def commit (b : BufferRef) (sub : List Byte) : Except Exit BufferRef :=
  if h : sub.length > b.spaces then .error .commit
  else .ok ⟨b.data ++ sub, b.capacity, by
    have := b.fits
    simp only [spaces, size] at h
    rw [List.length_append]
    omega⟩

def consume (b : BufferRef) (len : Nat) : Except Exit BufferRef :=
  if len > b.size then .error .consume
  else .ok ⟨b.data.drop len, b.capacity, by
    have := b.fits
    rw [List.length_drop]
    omega⟩

def reserve (b : BufferRef) (siz : Nat) : Except Exit Unit :=
  if siz > b.capacity then .error .reserve else .ok ()

/-- The bytes at `begin()` overwritten. -/
def poke (b : BufferRef) (p : List Byte) : BufferRef :=
  ⟨p.take b.size ++ b.data.drop p.length, b.capacity, by
    have := b.fits
    rw [List.length_append, List.length_take, List.length_drop, size]
    omega⟩

/-- The range emptied, its storage kept. -/
def clear (b : BufferRef) : BufferRef := ⟨[], b.capacity, Nat.zero_le _⟩

@[simp] theorem clear_data (b : BufferRef) : b.clear.data = [] := rfl
@[simp] theorem clear_capacity (b : BufferRef) : b.clear.capacity = b.capacity := rfl

theorem ext_data {b c : BufferRef} (hd : b.data = c.data) (hc : b.capacity = c.capacity) : b = c := by
  cases b
  cases c
  simp only at hd hc
  subst hd hc
  rfl

/-- `consume(size())`, as the queue calls it, never exits. -/
@[simp] theorem consume_size (b : BufferRef) : b.consume b.size = .ok b.clear := by
  have h : ¬ b.size > b.size := Nat.lt_irrefl _
  simp only [consume, h, if_false]
  exact congrArg Except.ok (ext_data List.drop_length rfl)

theorem put_ok {b : BufferRef} {p : List Byte} (h : p.length ≤ b.spaces) :
    ∃ c, b.put p = .ok c ∧ c.data = b.data ++ p ∧ c.capacity = b.capacity := by
  unfold put
  rw [dif_neg (Nat.not_lt.mpr h)]
  exact ⟨_, rfl, rfl, rfl⟩

theorem consume_ok {b : BufferRef} (len : Nat) (h : len ≤ b.size) :
    ∃ c, b.consume len = .ok c ∧ c.data = b.data.drop len ∧ c.capacity = b.capacity := by
  unfold consume
  rw [if_neg (Nat.not_lt.mpr h)]
  exact ⟨_, rfl, rfl, rfl⟩

theorem consume_cases {b c : BufferRef} {len : Nat} (h : b.consume len = .ok c) :
    len ≤ b.size ∧ c.data = b.data.drop len ∧ c.capacity = b.capacity := by
  unfold consume at h
  split at h
  · cases h
  · cases h
    exact ⟨by omega, rfl, rfl⟩

end BufferRef
end CppSnippets.Epoll
