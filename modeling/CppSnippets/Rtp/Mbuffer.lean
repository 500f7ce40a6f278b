import CppSnippets.Lib.Heap
import CppSnippets.Rtp.Packet
import Mathlib.Algebra.Order.Ring.Int

/-!
# `mbuffer` in memory

The three fields of an `mbuffer` and the block that it owns: `put` makes the block grow
by `realloc`, and a move hands it over by copying the fields and clearing those of the
source. Allocation succeeds, and what `put` is given lies outside of the blocks. Below
2 GiB an object is what the receiver takes it for, a `Block` whose sizes are numbers.
-/
namespace CppSnippets.Rtp

open CppSnippets.Lib

abbrev Memory := Heap Byte

structure Mbuffer where
  base : Option Nat
  size : UInt32
  capacity : UInt32

namespace Mbuffer

/-- `mbuffer()`, and what a move leaves behind. -/
def null : Mbuffer := ⟨none, 0, 0⟩

/-- `init(rh, nh)`, with the bytes of the two headers. -/
def init (rh : Vector Byte 16) (nh : Byte) (mem : Memory) : Option (Mbuffer × Memory) := do
  let id := mem.next
  let mem := mem.malloc (List.replicate 2048 0)
  let mem ← mem.write id 0 rh.toList
  let mem ← mem.write id 16 [0, 0, 0, 1]
  let mem ← mem.write id 20 [nh]
  return (⟨some id, 21, 2048⟩, mem)

def put (m : Mbuffer) (p : List Byte) (mem : Memory) : Option (Mbuffer × Memory) := do
  let id ← m.base
  let siz := UInt32.ofNat p.length
  if m.capacity - m.size < siz then
    let capacity := m.capacity + (siz + 2047) / 1024 * 1024
    let id' := mem.next
    let mem ← mem.realloc id capacity.toNat 0
    let mem ← mem.write id' m.size.toNat (p.take siz.toNat)
    return (⟨some id', m.size + siz, capacity⟩, mem)
  else
    let mem ← mem.write id m.size.toNat (p.take siz.toNat)
    return ({ m with size := m.size + siz }, mem)

/-- `~mbuffer()` -/
def freeBase (m : Mbuffer) (mem : Memory) : Option Memory :=
  match m.base with
  | none => some mem
  | some id => mem.free id

/-- `empty()` -/
def isEmpty (m : Mbuffer) : Bool := m.size == 0

end Mbuffer

/-! ## Some objects -/

/-- The objects that have been constructed and not destroyed, and the memory. -/
structure Mbuffers where
  objs : Nat → Option Mbuffer
  mem : Memory

inductive MbufferOp
  | make (i : Nat) (rh : Vector Byte 16) (nh : Byte)
  | makeNull (i : Nat)
  | put (i : Nat) (p : List Byte)
  /-- Construction of `i` from `std::move(j)`. -/
  | makeFrom (i j : Nat)
  /-- `i = std::move(j)` -/
  | assign (i j : Nat)
  | destroy (i : Nat)

namespace Mbuffers

def start : Mbuffers := ⟨fun _ => none, .empty⟩

def set (w : Mbuffers) (i : Nat) (m : Mbuffer) (mem : Memory) : Mbuffers :=
  ⟨Function.update w.objs i (some m), mem⟩

/-- One operation; there is no result where a pointer is used that does not allow it. -/
def step (w : Mbuffers) : MbufferOp → Option Mbuffers
  | .make i rh nh => do
    if (w.objs i).isSome then none
    let (m, mem) ← Mbuffer.init rh nh w.mem
    return w.set i m mem
  | .makeNull i => do
    if (w.objs i).isSome then none
    return w.set i .null w.mem
  | .put i p => do
    let m ← w.objs i
    let (m, mem) ← m.put p w.mem
    return w.set i m mem
  | .makeFrom i j => do
    if (w.objs i).isSome then none
    let rhs ← w.objs j
    return (w.set i rhs w.mem).set j .null w.mem
  | .assign i j => do
    let m ← w.objs i
    let rhs ← w.objs j
    if i = j then return w
    let mem ← m.freeBase w.mem
    return (w.set i rhs mem).set j .null mem
  | .destroy i => do
    let m ← w.objs i
    let mem ← m.freeBase w.mem
    return ⟨Function.update w.objs i none, mem⟩

end Mbuffers

/-! ## What the objects are for -/

/-- What each object holds: its header and the data put behind it, or nothing. -/
abbrev Contents := Nat → Option (List Byte)

/-- The same operations on contents. Data go only behind a header, and stay below 2 ^ 31
bytes. -/
def Contents.step (a : Contents) : MbufferOp → Option Contents
  | .make i rh nh =>
    if a i = none then
      some (Function.update a i (some (rh.toList ++ [0, 0, 0, 1] ++ [nh])))
    else none
  | .makeNull i => if a i = none then some (Function.update a i (some [])) else none
  | .put i p =>
    match a i with
    | none => none
    | some c =>
      if c ≠ [] ∧ (c ++ p).length < 2 ^ 31 then some (Function.update a i (some (c ++ p)))
      else none
  | .makeFrom i j =>
    match a i, a j with
    | none, some c => some (Function.update (Function.update a i (some c)) j (some []))
    | _, _ => none
  | .assign i j =>
    match a i, a j with
    | some _, some c =>
      if i = j then some a
      else some (Function.update (Function.update a i (some c)) j (some []))
    | _, _ => none
  | .destroy i =>
    match a i with
    | none => none
    | some _ => some (Function.update a i none)

/-! ## One object -/

/-- An object holds some contents: nothing, or the first bytes of its block. The last
bound keeps the capacity below 2 ^ 32. -/
inductive Mbuffer.Holds (mem : Memory) : Mbuffer → List Byte → Prop
  | null : Mbuffer.Holds mem .null []
  | block (id : Nat) (size capacity : UInt32) (c rest : List Byte) :
      mem.blocks id = some (c ++ rest) → size.toNat = c.length →
      capacity.toNat = (c ++ rest).length → 21 ≤ c.length → c.length < 2 ^ 31 →
      2 * capacity.toNat ≤ 3 * c.length + 8188 → Mbuffer.Holds mem ⟨some id, size, capacity⟩ c

namespace Mbuffer

variable {m : Mbuffer} {mem mem' : Memory} {c p : List Byte} {id : Nat}

theorem Holds.lt_next (hm : Holds mem m c) (hid : m.base = some id) : id < mem.next := by
  cases hm with
  | null => cases hid
  | block id' size capacity c rest hb _ _ _ _ _ =>
    cases hid
    exact Heap.lt_next hb

/-- What an object holds depends on its own block only. -/
theorem Holds.frame (hm : Holds mem m c)
    (h : ∀ id, m.base = some id → mem'.blocks id = mem.blocks id) : Holds mem' m c := by
  cases hm with
  | null => exact .null
  | block id size capacity c rest hb hsize hcap hpos hlt hbound =>
    exact .block id size capacity c rest ((h id rfl).trans hb) hsize hcap hpos hlt hbound

/-- The capacity that a block grows to. -/
theorem grown {size capacity siz : UInt32} (hsize : size.toNat ≤ capacity.toNat)
    (hgrow : capacity - size < siz) (hlt : size.toNat + siz.toNat < 2 ^ 31)
    (hbound : 2 * capacity.toNat ≤ 3 * size.toNat + 8188) :
    (capacity + (siz + 2047) / 1024 * 1024).toNat =
        capacity.toNat + (siz.toNat + 2047) / 1024 * 1024 ∧
      2 * (capacity.toNat + (siz.toNat + 2047) / 1024 * 1024) ≤
        3 * (size.toNat + siz.toNat) + 8188 := by
  rw [UInt32.lt_iff_toNat_lt, UInt32.toNat_sub_of_le _ _ (UInt32.le_iff_toNat_le.mpr hsize)]
    at hgrow
  have hsum : (siz + 2047).toNat = siz.toNat + 2047 := by
    rw [UInt32.toNat_add]
    exact Nat.mod_eq_of_lt (by change siz.toNat + 2047 < 2 ^ 32; omega)
  have hround : ((siz + 2047) / 1024 * 1024).toNat = (siz.toNat + 2047) / 1024 * 1024 := by
    rw [UInt32.toNat_mul, UInt32.toNat_div, hsum]
    exact Nat.mod_eq_of_lt (by change (siz.toNat + 2047) / 1024 * 1024 < 2 ^ 32; omega)
  rw [UInt32.toNat_add, hround]
  have hfit : capacity.toNat + (siz.toNat + 2047) / 1024 * 1024 < 2 ^ 32 := by omega
  exact ⟨Nat.mod_eq_of_lt hfit, by omega⟩

theorem init_spec (rh : Vector Byte 16) (nh : Byte) (mem : Memory) :
    ∃ m' mem', init rh nh mem = some (m', mem') ∧
      Holds mem' m' (rh.toList ++ [0, 0, 0, 1] ++ [nh]) ∧ m'.base = some mem.next ∧
      Heap.Touches mem mem.next mem' := by
  have hrh : rh.toList.length = 16 := Vector.length_toList
  unfold init
  obtain ⟨raw, hraw, hlen⟩ : ∃ raw, List.replicate 2048 (0 : Byte) = raw ∧ raw.length = 2048 :=
    ⟨_, rfl, List.length_replicate⟩
  rw [hraw]
  have h0 := mem.malloc_self raw
  have ht0 := mem.malloc_touches raw mem.next
  obtain ⟨mem₁, hw₁, ht₁, h₁⟩ := Heap.write_append (c := []) 0 rh.toList h0 rfl
    (by omega)
  obtain ⟨mem₂, hw₂, ht₂, h₂⟩ := Heap.write_append 16 [0, 0, 0, 1] h₁
    (by rw [List.nil_append, hrh])
    (by rw [List.length_drop, hrh, hlen]; decide)
  obtain ⟨mem₃, hw₃, ht₃, h₃⟩ := Heap.write_append 20 [nh] h₂
    (by rw [List.nil_append, List.length_append, hrh]; rfl)
    (by rw [List.length_drop, List.length_drop, hrh, hlen, List.length_singleton]; decide)
  rw [List.nil_append] at h₃
  refine ⟨⟨some mem.next, 21, 2048⟩, mem₃, ?_, ?_, rfl, ((ht0.trans ht₁).trans ht₂).trans ht₃⟩
  · simp only [hw₁, hw₂, hw₃, Option.bind_eq_bind, Option.bind_some]
    rfl
  · have hhead : (rh.toList ++ [0, 0, 0, 1] ++ [nh]).length = 21 := by
      rw [List.length_append, List.length_append, hrh]
      rfl
    refine .block mem.next 21 2048 _ _ h₃ hhead.symm ?_ hhead.ge (by omega) ?_
    · rw [List.length_append, hhead, List.length_drop, List.length_drop, List.length_drop, hrh,
        hlen]
      rfl
    · rw [hhead]
      decide

theorem toNat_length (hlt : p.length < 2 ^ 31) : (UInt32.ofNat p.length).toNat = p.length := by
  rw [UInt32.toNat_ofNat']
  exact Nat.mod_eq_of_lt (by omega)

/-- The end of `put`: the data go behind the contents, for which there is room. -/
theorem append_spec {size capacity : UInt32} {rest : List Byte}
    (hb : mem.blocks id = some (c ++ rest)) (hsize : size.toNat = c.length)
    (hcap : capacity.toNat = (c ++ rest).length) (hpos : 21 ≤ c.length)
    (hlt : (c ++ p).length < 2 ^ 31) (hroom : p.length ≤ rest.length)
    (hbound : 2 * capacity.toNat ≤ 3 * (c ++ p).length + 8188) :
    ∃ mem', mem.write id size.toNat (p.take (UInt32.ofNat p.length).toNat) = some mem' ∧
      Heap.Touches mem id mem' ∧
      Holds mem' ⟨some id, size + UInt32.ofNat p.length, capacity⟩ (c ++ p) := by
  rw [List.length_append] at hlt hcap
  have hsiz : (UInt32.ofNat p.length).toNat = p.length := toNat_length (by omega)
  obtain ⟨mem', hw, ht, hb'⟩ := Heap.write_append size.toNat p hb hsize hroom
  refine ⟨mem', by rw [hsiz, List.take_length, hw], ht, ?_⟩
  refine .block id _ _ _ _ hb' ?_ ?_ ?_ ?_ hbound
  · rw [UInt32.toNat_add, hsiz, hsize, List.length_append]
    exact Nat.mod_eq_of_lt (by omega)
  · rw [List.length_append, List.length_append, List.length_drop]
    omega
  · rw [List.length_append]
    omega
  · rw [List.length_append]
    omega

/-- Growth leaves the contents in front of a longer rest. -/
theorem realloc_spec (capacity' : UInt32) {rest : List Byte}
    (hb : mem.blocks id = some (c ++ rest)) (hle : (c ++ rest).length ≤ capacity'.toNat) :
    ∃ mem' fill, mem.realloc id capacity'.toNat 0 = some mem' ∧ Heap.Touches mem id mem' ∧
      mem'.blocks mem.next = some (c ++ (rest ++ fill)) ∧
      capacity'.toNat = (c ++ (rest ++ fill)).length := by
  obtain ⟨mem', hr, ht, hb'⟩ := Heap.realloc_eq hb hle (0 : Byte)
  rw [List.append_assoc] at hb'
  refine ⟨mem', _, hr, ht, hb', ?_⟩
  rw [← List.append_assoc, List.length_append, List.length_replicate]
  omega

theorem put_spec (hm : Holds mem m c) (hc : c ≠ []) (hlt : (c ++ p).length < 2 ^ 31) :
    ∃ id m' mem', m.put p mem = some (m', mem') ∧ Holds mem' m' (c ++ p) ∧
      m.base = some id ∧ Heap.Touches mem id mem' ∧
      (m'.base = some id ∨ m'.base = some mem.next) := by
  cases hm with
  | null => exact absurd rfl hc
  | block id size capacity c rest hb hsize hcap hpos _ hbound =>
    have hsum : (c ++ p).length = c.length + p.length := List.length_append
    have hcap' : capacity.toNat = c.length + rest.length := by rw [hcap, List.length_append]
    have hsiz : (UInt32.ofNat p.length).toNat = p.length := toNat_length (by omega)
    simp only [put, Option.bind_eq_bind, Option.bind_some]
    by_cases hgrow : capacity - size < UInt32.ofNat p.length
    · obtain ⟨hnew, hbound'⟩ := grown (by omega) hgrow (by omega) (by omega)
      generalize capacity + (UInt32.ofNat p.length + 2047) / 1024 * 1024 = capacity' at hnew ⊢
      obtain ⟨mem₁, fill, hr, ht₁, hb₁, hwhole⟩ := realloc_spec capacity' hb
        (by rw [← hcap]; omega)
      have hlen := hwhole
      rw [List.length_append] at hlen
      obtain ⟨mem₂, hw, ht₂, hm₂⟩ := append_spec (p := p) hb₁ hsize hwhole hpos hlt
        (by omega) (by omega)
      refine ⟨id, ⟨some mem.next, size + UInt32.ofNat p.length, capacity'⟩, mem₂, ?_, hm₂, rfl,
        ht₁.trans_new ht₂, .inr rfl⟩
      rw [if_pos hgrow, hr, Option.bind_some, hw]
      rfl
    · have hroom := hgrow
      rw [UInt32.lt_iff_toNat_lt, hsiz,
        UInt32.toNat_sub_of_le _ _ (UInt32.le_iff_toNat_le.mpr (by omega))] at hroom
      obtain ⟨mem₁, hw, ht, hm₁⟩ := append_spec (p := p) hb hsize hcap hpos hlt (by omega)
        (by omega)
      refine ⟨id, ⟨some id, size + UInt32.ofNat p.length, capacity⟩, mem₁, ?_, hm₁, rfl, ht,
        .inl rfl⟩
      rw [if_neg hgrow, hw]
      rfl

/-- `free` of a block that nothing else is kept in. -/
theorem freeBase_spec (hm : Holds mem m c) :
    ∃ mem', m.freeBase mem = some mem' ∧
      ∀ id, m.base ≠ some id → id < mem.next → mem'.blocks id = mem.blocks id := by
  cases hm with
  | null => exact ⟨mem, rfl, fun _ _ _ => rfl⟩
  | block id size capacity c rest hb _ _ _ _ _ =>
    refine ⟨mem.erase id, Heap.free_eq hb, fun id' hne hlt => ?_⟩
    exact (mem.erase_touches id).others id' (fun heq => hne (congrArg some heq.symm)) hlt

/-! ## The blocks of the receiver -/

/-- The object is this block, whose header is these bytes in memory. -/
structure Represents (rh : Vector Byte 16) (mem : Memory) (m : Mbuffer) (b : Block) : Prop where
  holds : Holds mem m (rh.toList ++ b.body)
  capacity : m.capacity.toNat = b.capacity

variable {rh : Vector Byte 16} {b : Block}

theorem length_header (rh : Vector Byte 16) (b : Block) : (rh.toList ++ b.body).length = b.size := by
  rw [List.length_append, Vector.length_toList, Block.size]

/-- The size, and what is known of the capacity. -/
theorem Represents.sizes (h : Represents rh mem m b) : m.size.toNat = b.size ∧
    b.size ≤ b.capacity ∧ 2 * b.capacity ≤ 3 * b.size + 8188 := by
  obtain ⟨hm, hcap⟩ := h
  have hlen := length_header rh b
  generalize rh.toList ++ b.body = c at hm hlen
  cases hm with
  | null =>
    have hpos : 16 ≤ b.size := Nat.le_add_right _ _
    rw [← hlen] at hpos
    exact absurd hpos (by decide)
  | block id size capacity c rest _ hsize _ _ _ hbound =>
    exact ⟨hsize.trans hlen, b.fits, by dsimp only at hcap; omega⟩

theorem init_capacity {nh : Byte} (h : init rh nh mem = some (m, mem')) : m.capacity = 2048 := by
  obtain ⟨mem₁, _, h⟩ := Option.bind_eq_some_iff.mp h
  obtain ⟨mem₂, _, h⟩ := Option.bind_eq_some_iff.mp h
  obtain ⟨mem₃, _, h⟩ := Option.bind_eq_some_iff.mp h
  cases h
  rfl

theorem put_capacity {m' : Mbuffer} (h : m.put p mem = some (m', mem')) : m'.capacity =
    if m.capacity - m.size < UInt32.ofNat p.length then
      m.capacity + (UInt32.ofNat p.length + 2047) / 1024 * 1024
    else m.capacity := by
  obtain ⟨id, _, h⟩ := Option.bind_eq_some_iff.mp h
  dsimp only at h
  split at h
  · rename_i hgrow
    rw [if_pos hgrow]
    obtain ⟨mem₁, _, h⟩ := Option.bind_eq_some_iff.mp h
    obtain ⟨mem₂, _, h⟩ := Option.bind_eq_some_iff.mp h
    cases h
    rfl
  · rename_i hgrow
    rw [if_neg hgrow]
    obtain ⟨mem₁, _, h⟩ := Option.bind_eq_some_iff.mp h
    cases h
    rfl

theorem init_represents (h : RtpHeader) (rh : Vector Byte 16) (nh : Byte) (mem : Memory) :
    ∃ m' mem', init rh nh mem = some (m', mem') ∧ Represents rh mem' m' (Block.init h nh) := by
  obtain ⟨m', mem', hinit, hm, _⟩ := init_spec rh nh mem
  rw [List.append_assoc] at hm
  refine ⟨m', mem', hinit, hm, ?_⟩
  rw [init_capacity hinit]
  rfl

/-- With its 32-bit sizes an object does what the block does. -/
theorem put_represents (h : Represents rh mem m b) (hlt : b.size + p.length < 2 ^ 31) :
    ∃ m' mem', m.put p mem = some (m', mem') ∧ Represents rh mem' m' (b.put p) := by
  obtain ⟨hsize, hfits, hbound⟩ := h.sizes
  have hwhole : (rh.toList ++ b.body ++ p).length = b.size + p.length := by
    rw [List.length_append, length_header]
  have hne : rh.toList ++ b.body ≠ [] := by
    apply List.ne_nil_of_length_pos
    rw [length_header]
    exact Nat.lt_of_lt_of_le (by decide) (Nat.le_add_right 16 _)
  obtain ⟨_, m', mem', hput, hm', _⟩ := put_spec (p := p) h.holds hne (hwhole ▸ hlt)
  rw [List.append_assoc] at hm'
  refine ⟨m', mem', hput, by rwa [Block.put_body], ?_⟩
  have hsiz : (UInt32.ofNat p.length).toNat = p.length := toNat_length (by omega)
  have hroom : (m.capacity - m.size).toNat = b.capacity - b.size := by
    rw [UInt32.toNat_sub_of_le _ _ (UInt32.le_iff_toNat_le.mpr (by rw [hsize, h.capacity]; exact hfits)),
      hsize, h.capacity]
  rw [put_capacity hput, Block.put]
  by_cases hgrow : b.capacity - b.size < p.length
  · have hgrow' : m.capacity - m.size < UInt32.ofNat p.length := by
      rw [UInt32.lt_iff_toNat_lt, hroom, hsiz]
      exact hgrow
    obtain ⟨hnew, _⟩ := grown (by rw [hsize, h.capacity]; exact hfits) hgrow'
      (by rw [hsize, hsiz]; omega) (by rw [hsize, h.capacity]; exact hbound)
    rw [if_pos hgrow', dif_pos hgrow, hnew, hsiz, h.capacity]
  · have hgrow' : ¬m.capacity - m.size < UInt32.ofNat p.length := by
      rw [UInt32.lt_iff_toNat_lt, hroom, hsiz]
      exact hgrow
    rw [if_neg hgrow', dif_neg hgrow, h.capacity]

/-- So does one that is filled bit by bit, as from fragments. -/
theorem puts_represent (h : Represents rh mem m b) (ps : List (List Byte))
    (hlt : b.size + ps.flatten.length < 2 ^ 31) :
    ∃ m' mem', ps.foldlM (fun (x : Mbuffer × Memory) p => x.1.put p x.2) (m, mem) = some (m', mem') ∧
      Represents rh mem' m' (ps.foldl Block.put b) := by
  induction ps generalizing m mem b with
  | nil => exact ⟨m, mem, rfl, h⟩
  | cons p ps ih =>
    rw [List.flatten_cons, List.length_append] at hlt
    obtain ⟨m₁, mem₁, hput, h₁⟩ := put_represents (p := p) h (by omega)
    have hsize : (b.put p).size = b.size + p.length := by
      rw [Block.size, Block.put_body, List.length_append, Block.size, Nat.add_assoc]
    obtain ⟨m', mem', hputs, h'⟩ := ih h₁ (by omega)
    refine ⟨m', mem', ?_, h'⟩
    rw [List.foldlM_cons]
    simp only [hput, Option.bind_eq_bind, Option.bind_some]
    exact hputs

end Mbuffer

/-! ## All objects -/

namespace Mbuffers

/-- The objects hold some contents, each in a block of its own. -/
structure Holds (w : Mbuffers) (a : Contents) : Prop where
  absent : ∀ i, a i = none → w.objs i = none
  present : ∀ i c, a i = some c → ∃ m, w.objs i = some m ∧ m.Holds w.mem c
  apart : ∀ i j m m' id, w.objs i = some m → w.objs j = some m' → m.base = some id →
    m'.base = some id → i = j

variable {w : Mbuffers} {a : Contents} {i j : Nat} {m m' rhs : Mbuffer} {mem' : Memory}
  {c : List Byte}

theorem Holds.of_present (h : w.Holds a) (hi : a i = some c) (hm : w.objs i = some m) :
    m.Holds w.mem c := by
  obtain ⟨m', hm', hc⟩ := h.present i c hi
  obtain rfl := Option.some.inj (hm'.symm.trans hm)
  exact hc

theorem Holds.lt_next (h : w.Holds a) (hm : w.objs i = some m) {id : Nat} (hid : m.base = some id) :
    id < w.mem.next := by
  cases ha : a i with
  | none => cases (h.absent i ha).symm.trans hm
  | some c => exact (h.of_present ha hm).lt_next hid

/-- An object changes, with a block that no other one has. -/
theorem Holds.set (h : w.Holds a) (hm : m'.Holds mem' c)
    (hothers : ∀ j m id, j ≠ i → w.objs j = some m → m.base = some id →
      mem'.blocks id = w.mem.blocks id ∧ m'.base ≠ some id) :
    (w.set i m' mem').Holds (Function.update a i (some c)) := by
  constructor
  · intro k hk
    by_cases hki : k = i
    · rw [hki, Function.update_self] at hk
      cases hk
    · rw [Function.update_of_ne hki] at hk
      exact (Function.update_of_ne hki _ _).trans (h.absent k hk)
  · intro k d hk
    by_cases hki : k = i
    · rw [hki, Function.update_self] at hk
      cases hk
      exact ⟨m', by rw [hki]; exact Function.update_self .., hm⟩
    · rw [Function.update_of_ne hki] at hk
      obtain ⟨m, hmk, hd⟩ := h.present k d hk
      refine ⟨m, (Function.update_of_ne hki _ _).trans hmk, hd.frame fun id hid => ?_⟩
      exact (hothers k m id hki hmk hid).1
  · intro k l mk ml id hk hl hidk hidl
    change Function.update w.objs i (some m') k = some mk at hk
    change Function.update w.objs i (some m') l = some ml at hl
    by_cases hki : k = i
    · by_cases hli : l = i
      · exact hki.trans hli.symm
      · rw [hki, Function.update_self] at hk
        rw [Function.update_of_ne hli] at hl
        cases hk
        exact absurd hidk (hothers l ml id hli hl hidl).2
    · rw [Function.update_of_ne hki] at hk
      by_cases hli : l = i
      · rw [hli, Function.update_self] at hl
        cases hl
        exact absurd hidl (hothers k mk id hki hk hidk).2
      · rw [Function.update_of_ne hli] at hl
        exact h.apart k l mk ml id hk hl hidk hidl

/-- Construction or assignment from an object, when the block of the target is gone. -/
theorem Holds.move (h : w.Holds a) (hj : a j = some c) (hrhs : w.objs j = some rhs) (hij : i ≠ j)
    (hmem : ∀ k m id, k ≠ i → w.objs k = some m → m.base = some id →
      mem'.blocks id = w.mem.blocks id) :
    ((w.set i rhs mem').set j .null mem').Holds
      (Function.update (Function.update a i (some c)) j (some [])) := by
  have hnull : (w.set j .null w.mem).Holds (Function.update a j (some [])) :=
    h.set .null fun _ _ _ _ _ _ => ⟨rfl, fun h => (nomatch h)⟩
  have hmoved : ((w.set j .null w.mem).set i rhs mem').Holds
      (Function.update (Function.update a j (some [])) i (some c)) := hnull.set
    ((h.of_present hj hrhs).frame fun id hid => hmem j rhs id hij.symm hrhs hid)
    (by
      intro k m id hki hk hid
      change Function.update w.objs j (some .null) k = some m at hk
      by_cases hkj : k = j
      · rw [hkj, Function.update_self] at hk
        cases hk
        cases hid
      · rw [Function.update_of_ne hkj] at hk
        exact ⟨hmem k m id hki hk hid, fun hid' => hkj (h.apart k j m rhs id hk hrhs hid hid')⟩)
  have hsame : (w.set i rhs mem').set j .null mem' = (w.set j .null w.mem).set i rhs mem' := by
    simp only [Mbuffers.set, Function.update_comm hij.symm]
  rw [hsame, Function.update_comm hij]
  exact hmoved

theorem Holds.erase (h : w.Holds a) (hm : w.objs i = some m)
    (hmem : ∀ id, m.base ≠ some id → id < w.mem.next → mem'.blocks id = w.mem.blocks id) :
    Holds ⟨Function.update w.objs i none, mem'⟩ (Function.update a i none) := by
  constructor
  · intro k hk
    by_cases hki : k = i
    · rw [hki]
      exact Function.update_self ..
    · rw [Function.update_of_ne hki] at hk
      exact (Function.update_of_ne hki _ _).trans (h.absent k hk)
  · intro k c hk
    by_cases hki : k = i
    · rw [hki, Function.update_self] at hk
      cases hk
    · rw [Function.update_of_ne hki] at hk
      obtain ⟨mk, hmk, hc⟩ := h.present k c hk
      refine ⟨mk, (Function.update_of_ne hki _ _).trans hmk, hc.frame fun id hid => ?_⟩
      exact hmem id (fun hid' => hki (h.apart k i mk m id hmk hm hid hid')) (h.lt_next hmk hid)
  · intro k l mk ml id hk hl hidk hidl
    change Function.update w.objs i none k = some mk at hk
    change Function.update w.objs i none l = some ml at hl
    by_cases hki : k = i
    · rw [hki, Function.update_self] at hk
      cases hk
    · by_cases hli : l = i
      · rw [hli, Function.update_self] at hl
        cases hl
      · rw [Function.update_of_ne hki] at hk
        rw [Function.update_of_ne hli] at hl
        exact h.apart k l mk ml id hk hl hidk hidl

/-! ## Each operation, and a run -/

theorem step_make {rh : Vector Byte 16} {nh : Byte} {a' : Contents} (h : w.Holds a)
    (ha : a.step (.make i rh nh) = some a') :
    ∃ w', w.step (.make i rh nh) = some w' ∧ w'.Holds a' := by
  rw [Contents.step] at ha
  split at ha
  · rename_i hi
    cases ha
    have hobj : (w.objs i).isSome = false := by rw [h.absent i hi]; rfl
    obtain ⟨m, mem', hinit, hm, hbase, ht⟩ := Mbuffer.init_spec rh nh w.mem
    refine ⟨w.set i m mem', ?_, h.set hm ?_⟩
    · simp [step, hobj, hinit]
    · intro j mj id hji hmj hid
      have hlt := h.lt_next hmj hid
      refine ⟨ht.others id (Nat.ne_of_lt hlt) hlt, fun hid' => ?_⟩
      rw [hbase] at hid'
      cases hid'
      exact lt_irrefl _ hlt
  · cases ha

theorem step_put {p : List Byte} {a' : Contents} (h : w.Holds a)
    (ha : a.step (.put i p) = some a') :
    ∃ w', w.step (.put i p) = some w' ∧ w'.Holds a' := by
  rw [Contents.step] at ha
  cases hi : a i with
  | none =>
    rw [hi] at ha
    cases ha
  | some c =>
    simp only [hi] at ha
    split at ha
    · rename_i hc
      cases ha
      obtain ⟨m, hobj, hm⟩ := h.present i c hi
      obtain ⟨id, m', mem', hput, hm', hid, ht, hbase⟩ := Mbuffer.put_spec hm hc.1 hc.2
      refine ⟨w.set i m' mem', ?_, h.set hm' ?_⟩
      · simp [step, hobj, hput]
      · intro j mj idj hji hmj hidj
        have hlt := h.lt_next hmj hidj
        have hne : idj ≠ id := by
          intro heq
          rw [heq] at hidj
          exact hji (h.apart j i mj m id hmj hobj hidj hid)
        refine ⟨ht.others idj hne hlt, fun hidm => ?_⟩
        rcases hbase with hbase | hbase
        · exact hne (Option.some.inj (hidm.symm.trans hbase))
        · exact Nat.ne_of_lt hlt (Option.some.inj (hidm.symm.trans hbase))
    · cases ha

theorem step_makeFrom {a' : Contents} (h : w.Holds a) (ha : a.step (.makeFrom i j) = some a') :
    ∃ w', w.step (.makeFrom i j) = some w' ∧ w'.Holds a' := by
  rw [Contents.step] at ha
  cases hi : a i with
  | some _ =>
    simp only [hi] at ha
    cases ha
  | none =>
    cases hj : a j with
    | none =>
      simp only [hi, hj] at ha
      cases ha
    | some c =>
      simp only [hi, hj] at ha
      cases ha
      have hij : i ≠ j := by
        intro heq
        rw [heq, hj] at hi
        cases hi
      have hobj : (w.objs i).isSome = false := by rw [h.absent i hi]; rfl
      obtain ⟨rhs, hrhs, -⟩ := h.present j c hj
      refine ⟨(w.set i rhs w.mem).set j .null w.mem, ?_, ?_⟩
      · simp [step, hobj, hrhs]
      · exact h.move hj hrhs hij fun _ _ _ _ _ _ => rfl

theorem step_assign {a' : Contents} (h : w.Holds a) (ha : a.step (.assign i j) = some a') :
    ∃ w', w.step (.assign i j) = some w' ∧ w'.Holds a' := by
  rw [Contents.step] at ha
  cases hi : a i with
  | none =>
    simp only [hi] at ha
    cases ha
  | some d =>
    cases hj : a j with
    | none =>
      simp only [hi, hj] at ha
      cases ha
    | some c =>
      obtain ⟨m, hm, hd⟩ := h.present i d hi
      obtain ⟨rhs, hrhs, -⟩ := h.present j c hj
      simp only [hi, hj] at ha
      split at ha
      · rename_i hij
        cases ha
        exact ⟨w, by simp [step, hrhs, hij], h⟩
      · rename_i hij
        cases ha
        obtain ⟨mem', hfree, hmem⟩ := Mbuffer.freeBase_spec hd
        refine ⟨(w.set i rhs mem').set j .null mem', ?_, ?_⟩
        · simp [step, hm, hrhs, hij, hfree]
        · refine h.move hj hrhs hij fun k mk id hki hmk hid => ?_
          exact hmem id (fun hid' => hki (h.apart k i mk m id hmk hm hid hid')) (h.lt_next hmk hid)

theorem step_holds {op : MbufferOp} {a' : Contents} (h : w.Holds a) (ha : a.step op = some a') :
    ∃ w', w.step op = some w' ∧ w'.Holds a' := by
  cases op with
  | make i rh nh => exact step_make h ha
  | put i p => exact step_put h ha
  | makeFrom i j => exact step_makeFrom h ha
  | assign i j => exact step_assign h ha
  | makeNull i =>
    rw [Contents.step] at ha
    split at ha
    · rename_i hi
      cases ha
      have hobj : (w.objs i).isSome = false := by rw [h.absent i hi]; rfl
      refine ⟨w.set i .null w.mem, by simp [step, hobj], ?_⟩
      exact h.set .null fun _ _ _ _ _ _ => ⟨rfl, fun h => (nomatch h)⟩
    · cases ha
  | destroy i =>
    rw [Contents.step] at ha
    cases hi : a i with
    | none =>
      simp only [hi] at ha
      cases ha
    | some c =>
      simp only [hi] at ha
      cases ha
      obtain ⟨m, hm, hc⟩ := h.present i c hi
      obtain ⟨mem', hfree, hmem⟩ := Mbuffer.freeBase_spec hc
      exact ⟨⟨Function.update w.objs i none, mem'⟩, by simp [step, hm, hfree], h.erase hm hmem⟩

def run (w : Mbuffers) (ops : List MbufferOp) : Option Mbuffers := ops.foldlM step w

end Mbuffers

def Contents.run (a : Contents) (ops : List MbufferOp) : Option Contents :=
  ops.foldlM Contents.step a

namespace Mbuffers

variable {w : Mbuffers} {a a' : Contents}

theorem run_holds {ops : List MbufferOp} (h : w.Holds a) (ha : a.run ops = some a') :
    ∃ w', w.run ops = some w' ∧ w'.Holds a' := by
  induction ops generalizing w a with
  | nil =>
    cases ha
    exact ⟨w, rfl, h⟩
  | cons op ops ih =>
    rw [Contents.run, List.foldlM_cons] at ha
    cases hop : a.step op with
    | none =>
      rw [hop] at ha
      cases ha
    | some b =>
      rw [hop] at ha
      obtain ⟨u, hu, hb⟩ := step_holds h hop
      obtain ⟨w', hw', ha'⟩ := ih hb ha
      refine ⟨w', ?_, ha'⟩
      rw [run, List.foldlM_cons, hu]
      exact hw'

theorem start_holds : start.Holds fun _ => none := by
  constructor
  · exact fun _ _ => rfl
  · intro _ _ h
    cases h
  · intro _ _ _ _ _ h
    cases h

end Mbuffers

/-! ## What is seen of an object -/

namespace Mbuffer

/-- The bytes from the RTP header to `end()`. -/
def contents (m : Mbuffer) (mem : Memory) : Option (List Byte) :=
  match m.base with
  | none => some []
  | some id => (mem.blocks id).map fun b => b.take m.size.toNat

/-- The fields and the block of an object are right for some contents. -/
structure Right (mem : Memory) (m : Mbuffer) (c : List Byte) : Prop where
  size_le : m.size ≤ m.capacity
  size : m.size.toNat = c.length
  contents : m.contents mem = some c
  capacity : ∀ id, m.base = some id → ∃ b, mem.blocks id = some b ∧ b.length = m.capacity.toNat
  empty : c = [] → m = .null ∧ m.isEmpty = true

theorem Holds.right {mem : Memory} {m : Mbuffer} {c : List Byte} (hm : Holds mem m c) :
    Right mem m c := by
  cases hm with
  | null =>
    constructor
    · exact UInt32.le_refl _
    · rfl
    · rfl
    · intro _ h
      cases h
    · exact fun _ => ⟨rfl, rfl⟩
  | block id size capacity c rest hb hsize hcap hpos _ _ =>
    constructor
    · rw [UInt32.le_iff_toNat_le, hsize, hcap, List.length_append]
      omega
    · exact hsize
    · simp only [Mbuffer.contents, hb, Option.map_some, hsize, List.take_left]
    · intro id' hid
      cases hid
      exact ⟨_, hb, hcap.symm⟩
    · intro hc
      rw [hc] at hpos
      cases hpos

end Mbuffer

/-- Whatever sequence of operations has a meaning on contents is carried out, and every
object then holds its contents. -/
theorem mbuffers_run (ops : List MbufferOp) (a : Contents)
    (h : Contents.run (fun _ => none) ops = some a) :
    ∃ w, Mbuffers.start.run ops = some w ∧ (∀ i, a i = none → w.objs i = none) ∧
      ∀ i c, a i = some c → ∃ m, w.objs i = some m ∧ m.Right w.mem c := by
  obtain ⟨w, hw, hholds⟩ := Mbuffers.run_holds Mbuffers.start_holds h
  refine ⟨w, hw, hholds.absent, fun i c hi => ?_⟩
  obtain ⟨m, hm, hc⟩ := hholds.present i c hi
  exact ⟨m, hm, hc.right⟩

/-- A unit is assembled, handed on and assigned to where another one was. -/
def someOps : List MbufferOp :=
  [.make 0 (Vector.replicate 16 5) 0x65, .put 0 [7, 8], .makeFrom 1 0, .put 1 [9],
    .make 2 (Vector.replicate 16 6) 0x41, .assign 2 1]

theorem mbuffers_run_some :
    ∃ w m, Mbuffers.start.run someOps = some w ∧ w.objs 2 = some m ∧
      m.Right w.mem (List.replicate 16 5 ++ [0, 0, 0, 1, 0x65, 7, 8, 9]) := by
  obtain ⟨w, hw, -, hpresent⟩ := mbuffers_run someOps _ rfl
  obtain ⟨m, hm, hright⟩ := hpresent 2 _ rfl
  exact ⟨w, m, hw, hm, hright⟩

end CppSnippets.Rtp
