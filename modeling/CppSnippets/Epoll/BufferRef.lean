import CppSnippets.Epoll.Buffer
import Mathlib.Algebra.Order.Ring.Int
import Mathlib.Data.List.Induction

/-!
# The pointers of a `buffer_ref`

`buffer_ref` on addresses: three pointers, and memory in which `put` copies, `consume`
moves and the caller of `spaces` writes. What has been appended and consumed so far is
kept beside them as a history. Pointers and sizes have 64 bits, `unsigned` has 32.
-/
namespace CppSnippets.Epoll

/-! ## Memory -/

def bytesAt (mem : Int → Byte) (a : Int) (n : Nat) : List Byte :=
  (List.range n).map fun i : Nat => mem (a + i)

def memcpy (mem : Int → Byte) (a : Int) (l : List Byte) : Int → Byte :=
  fun x => if a ≤ x then l.getD (x - a).toNat (mem x) else mem x

def memmove (mem : Int → Byte) (dst src : Int) (n : Nat) : Int → Byte :=
  fun x => if dst ≤ x ∧ x < dst + n then mem (src + (x - dst)) else mem x

theorem bytesAt_length (mem : Int → Byte) (a : Int) (n : Nat) : (bytesAt mem a n).length = n := by
  rw [bytesAt, List.length_map, List.length_range]

theorem bytesAt_congr {mem mem' : Int → Byte} {a : Int} {n : Nat}
    (h : ∀ x, a ≤ x → x < a + n → mem' x = mem x) : bytesAt mem' a n = bytesAt mem a n := by
  refine List.map_congr_left fun i hi => ?_
  have hi := List.mem_range.mp hi
  exact h _ (by omega) (by omega)

theorem bytesAt_add (mem : Int → Byte) (a : Int) (m n : Nat) :
    bytesAt mem a (m + n) = bytesAt mem a m ++ bytesAt mem (a + m) n := by
  rw [bytesAt, List.range_add, List.map_append, List.map_map]
  refine congrArg (bytesAt mem a m ++ ·) (List.map_congr_left fun i _ => ?_)
  rw [Function.comp_apply, Int.natCast_add, ← Int.add_assoc]

theorem drop_bytesAt (mem : Int → Byte) (a : Int) {k n : Nat} (h : k ≤ n) :
    (bytesAt mem a n).drop k = bytesAt mem (a + k) (n - k) := by
  obtain ⟨m, rfl⟩ := Nat.exists_eq_add_of_le h
  rw [bytesAt_add, Nat.add_sub_cancel_left, List.drop_left' (bytesAt_length mem a k)]

theorem bytesAt_memcpy (mem : Int → Byte) (a : Int) (l : List Byte) :
    bytesAt (memcpy mem a l) a l.length = l := by
  refine List.ext_getElem (bytesAt_length _ _ _) fun i _ hi => ?_
  simp only [bytesAt, List.getElem_map, List.getElem_range, memcpy]
  have hpos : (a + i - a).toNat = i := by omega
  rw [if_pos (by omega), hpos, List.getD_eq_getElem?_getD, List.getElem?_eq_getElem hi,
    Option.getD_some]

theorem bytesAt_memmove (mem : Int → Byte) (dst src : Int) (n : Nat) :
    bytesAt (memmove mem dst src n) dst n = bytesAt mem src n := by
  refine List.map_congr_left fun i hi => ?_
  have hi := List.mem_range.mp hi
  have hsrc : src + (dst + i - dst) = src + i := by omega
  rw [memmove, if_pos (by omega), hsrc]

/-- The move of `consume`, which is left out when nothing or everything is consumed. -/
theorem bytesAt_moved (mem : Int → Byte) (a : Int) {len n : Nat} (h : len ≤ n) :
    bytesAt (if len > 0 ∧ len < n then memmove mem a (a + len) (n - len) else mem) a (n - len) =
      bytesAt mem (a + len) (n - len) := by
  by_cases hmove : len > 0 ∧ len < n
  · rw [if_pos hmove]
    exact bytesAt_memmove mem a (a + len) (n - len)
  · rw [if_neg hmove]
    by_cases h0 : len = 0
    · rw [h0, Int.natCast_zero, Int.add_zero]
    · have hall : n - len = 0 := by omega
      rw [hall]
      rfl

/-! ## `buffer_ref` -/

structure BufferPtrs where
  begin_ : Int
  cur_ : Int
  end_ : Int
  mem : Int → Byte
  /-- All bytes appended so far, and how many of them have been consumed. -/
  appended : List Byte
  consumed : Nat

inductive Stop
  | exit (e : Exit)
  /-- The negation of the least `int`. -/
  | overflow
  deriving DecidableEq

inductive BufferOp
  /-- `spaces()`, with what the caller then leaves in this range. -/
  | spaces (bytes : Int → Byte)
  /-- Of a range, or of the buffer itself. -/
  | commit (sub : Option (Int × Int)) (len : UInt32)
  | put (p : List Byte) (h : p.length < 2 ^ 32)
  | consume (len : UInt32)

namespace BufferPtrs

def start (b e e2 : Int) (mem : Int → Byte) : BufferPtrs :=
  ⟨b, e, e2, mem, bytesAt mem b (e - b).toNat, 0⟩

/-- `size_fr` -/
def sizeFr (s : BufferPtrs) (p : Int) : Nat := ((s.end_ - p) % 2 ^ 32).toNat

def size (s : BufferPtrs) : Nat := (s.cur_ - s.begin_).toNat

/-- The size of a range, which is unsigned. -/
def rangeSize (sub : Int × Int) : Nat := ((sub.2 - sub.1) % 2 ^ 64).toNat

/-- `advance_end(len)`, behind bytes that are in their place. -/
def advance (s : BufferPtrs) (len : Nat) : BufferPtrs :=
  { s with cur_ := s.cur_ + len, appended := s.appended ++ bytesAt s.mem s.cur_ len }

/-- `int(len)` -/
def toInt (len : UInt32) : Int :=
  if len.toNat < 2147483648 then len.toNat else len.toNat - 4294967296

/-- `-int(len)` -/
def negInt (len : UInt32) : Except Stop Int :=
  if toInt len = -2147483648 then .error .overflow else .ok (-toInt len)

def commit (s : BufferPtrs) (len : UInt32) : Option (Int × Int) → Except Stop BufferPtrs
  | none => .ok (s.advance len.toNat)
  | some sub =>
    if sub.1 ≠ s.cur_ ∨ len.toNat > s.sizeFr s.cur_ ∨ rangeSize sub ≠ s.sizeFr s.cur_ then
      .error (.exit .commit)
    else .ok (s.advance len.toNat)

def put (s : BufferPtrs) (p : List Byte) : Except Stop BufferPtrs :=
  if p.length > s.sizeFr s.cur_ then .error (.exit .put)
  else .ok { s with
    mem := memcpy s.mem s.cur_ p
    cur_ := s.cur_ + p.length
    appended := s.appended ++ p }

def consume (s : BufferPtrs) (len : UInt32) : Except Stop BufferPtrs :=
  if len.toNat > s.size then .error (.exit .consume)
  else do
    let mem :=
      if len.toNat > 0 ∧ len.toNat < s.size then
        memmove s.mem s.begin_ (s.begin_ + len.toNat) (s.size - len.toNat)
      else s.mem
    let n ← negInt len
    return { s with mem, cur_ := s.cur_ + n, consumed := s.consumed + len.toNat }

def step (s : BufferPtrs) : BufferOp → Except Stop BufferPtrs
  | .spaces bytes =>
    .ok { s with mem := fun x => if s.cur_ ≤ x ∧ x < s.end_ then bytes x else s.mem x }
  | .commit sub len => s.commit len sub
  | .put p _ => s.put p
  | .consume len => s.consume len

def run (s : BufferPtrs) (ops : List BufferOp) : Except Stop BufferPtrs := ops.foldlM step s

/-! ## What is asked of it -/

/-- The pointers are in order, those at the ends have not moved, and the content is what
was appended less what was consumed. -/
structure Sound (b e2 : Int) (s : BufferPtrs) : Prop where
  begin_eq : s.begin_ = b
  end_eq : s.end_ = e2
  begin_le : s.begin_ ≤ s.cur_
  cur_le : s.cur_ ≤ s.end_
  consumed_le : s.consumed ≤ s.appended.length
  content : bytesAt s.mem s.begin_ s.size = s.appended.drop s.consumed

/-- The buffer itself is committed within its bounds, and less than 2 ^ 31 bytes are
consumed at once (unless `consume` exits). -/
def Allowed (s : BufferPtrs) : BufferOp → Prop
  | .commit none len => s.cur_ + len.toNat ≤ s.end_
  | .consume len => s.size < len.toNat ∨ len.toNat < 2147483648
  | _ => True

variable {b e2 : Int} {s t : BufferPtrs} {op : BufferOp}

theorem Sound.advance (h : Sound b e2 s) {len : Nat} (hle : s.cur_ + len ≤ s.end_) :
    Sound b e2 (s.advance len) := by
  have hbegin := h.begin_le
  have hsize : (s.advance len).size = s.size + len := by
    simp only [BufferPtrs.advance, size]
    omega
  have hcur : s.begin_ + s.size = s.cur_ := by
    simp only [size]
    omega
  constructor
  · exact h.begin_eq
  · exact h.end_eq
  · simp only [BufferPtrs.advance]
    omega
  · exact hle
  · simp only [BufferPtrs.advance, List.length_append]
    have := h.consumed_le
    omega
  · rw [hsize, bytesAt_add]
    change bytesAt s.mem s.begin_ s.size ++ bytesAt s.mem (s.begin_ + s.size) len =
      (s.appended ++ bytesAt s.mem s.cur_ len).drop s.consumed
    rw [h.content, hcur, List.drop_append_of_le_length h.consumed_le]

/-- Changes of memory in the free space. -/
theorem Sound.of_mem (h : Sound b e2 s) {mem : Int → Byte}
    (hmem : ∀ x, x < s.cur_ → mem x = s.mem x) : Sound b e2 { s with mem } := by
  have hbegin := h.begin_le
  constructor
  · exact h.begin_eq
  · exact h.end_eq
  · exact h.begin_le
  · exact h.cur_le
  · exact h.consumed_le
  · refine (bytesAt_congr fun x _ hx => hmem x ?_).trans h.content
    simp only [size] at hx
    omega

theorem sizeFr_le (h : Sound b e2 s) : s.cur_ + s.sizeFr s.cur_ ≤ s.end_ := by
  have hcur := h.cur_le
  have hmod := Int.emod_nonneg (s.end_ - s.cur_) (b := 2 ^ 32) (by decide)
  have hle : (s.end_ - s.cur_) % 2 ^ 32 ≤ s.end_ - s.cur_ := by omega
  simp only [sizeFr]
  omega

/-! ## One operation -/

theorem negInt_low {len : UInt32} (h : len.toNat < 2147483648) :
    negInt len = .ok (-(len.toNat : Int)) := by
  rw [negInt, toInt, if_pos h, if_neg (by omega)]

/-- From 2 ^ 31 on the `int` is negative, and what is added is positive. -/
theorem negInt_high {len : UInt32} {n : Int} (h : ¬len.toNat < 2147483648)
    (hn : negInt len = .ok n) : n = 4294967296 - len.toNat := by
  rw [negInt, toInt, if_neg h] at hn
  split at hn
  · cases hn
  · cases hn
    omega

theorem Sound.consume (h : Sound b e2 s) {len : Nat} (hle : len ≤ s.size) :
    Sound b e2 { s with
      mem := if len > 0 ∧ len < s.size then
          memmove s.mem s.begin_ (s.begin_ + len) (s.size - len)
        else s.mem
      cur_ := s.cur_ + -(len : Int)
      consumed := s.consumed + len } := by
  have hbegin := h.begin_le
  have hcur := h.cur_le
  have hcontent := congrArg List.length h.content
  rw [bytesAt_length, List.length_drop] at hcontent
  have hconsumed := h.consumed_le
  have hsize : (s.size : Int) = s.cur_ - s.begin_ := by
    simp only [size]
    omega
  constructor
  · exact h.begin_eq
  · exact h.end_eq
  · dsimp only
    omega
  · dsimp only
    omega
  · dsimp only
    omega
  · have hsize' : (s.cur_ + -(len : Int) - s.begin_).toNat = s.size - len := by omega
    change bytesAt _ s.begin_ (s.cur_ + -(len : Int) - s.begin_).toNat =
      s.appended.drop (s.consumed + len)
    rw [hsize', ← List.drop_drop, ← h.content, drop_bytesAt _ _ hle]
    exact bytesAt_moved s.mem s.begin_ hle

theorem Sound.put (h : Sound b e2 s) {p : List Byte} (hroom : s.cur_ + p.length ≤ s.end_) :
    Sound b e2 { s with
      mem := memcpy s.mem s.cur_ p
      cur_ := s.cur_ + p.length
      appended := s.appended ++ p } := by
  have hcopied : Sound b e2 { s with mem := memcpy s.mem s.cur_ p } :=
    h.of_mem fun _ hx => if_neg (by omega)
  have hadvanced := hcopied.advance hroom
  rwa [BufferPtrs.advance, bytesAt_memcpy] at hadvanced

/-- The end moves forward, by more bytes than were appended. -/
theorem Sound.not_consume (h : Sound b e2 s) {len : UInt32} (hle : len.toNat ≤ s.size)
    (hhigh : ¬len.toNat < 2147483648) (hx : s.consume len = .ok t) : ¬Sound b e2 t := by
  intro ht
  rw [BufferPtrs.consume, if_neg (by omega)] at hx
  cases hn : negInt len with
  | error e =>
    rw [hn] at hx
    cases hx
  | ok n =>
    rw [hn] at hx
    cases hx
    have hmoved := negInt_high hhigh hn
    have hcontent := congrArg List.length ht.content
    have hbefore := congrArg List.length h.content
    have hbegin := h.begin_le
    have hlt := len.toNat_lt
    rw [bytesAt_length, List.length_drop] at hcontent hbefore
    simp only [size] at hcontent hbefore hle
    omega

/-- After one more operation all is well exactly if it was allowed. -/
theorem step_ok_iff (h : Sound b e2 s) (hx : s.step op = .ok t) : Sound b e2 t ↔ s.Allowed op := by
  cases op with
  | spaces bytes =>
    cases hx
    exact iff_of_true (h.of_mem fun _ hx => if_neg (by omega)) trivial
  | put p hp =>
    simp only [step, BufferPtrs.put] at hx
    split at hx
    · cases hx
    · cases hx
      have hroom := sizeFr_le h
      exact iff_of_true (h.put (by omega)) trivial
  | commit sub len =>
    cases sub with
    | none =>
      cases hx
      exact ⟨fun ht => ht.cur_le, fun hle => h.advance hle⟩
    | some sub =>
      simp only [step, commit] at hx
      split at hx
      · cases hx
      · cases hx
        have hroom := sizeFr_le h
        exact iff_of_true (h.advance (by omega)) trivial
  | consume len =>
    by_cases hsize : len.toNat > s.size
    · rw [step, BufferPtrs.consume, if_pos hsize] at hx
      cases hx
    · by_cases hlow : len.toNat < 2147483648
      · rw [step, BufferPtrs.consume, if_neg hsize, negInt_low hlow] at hx
        cases hx
        exact iff_of_true (h.consume (by omega)) (.inr hlow)
      · refine iff_of_false (h.not_consume (by omega) hlow hx) ?_
        simp only [Allowed]
        omega

theorem negInt_error {len : UInt32} {e : Stop} (hn : negInt len = .error e) :
    e = .overflow ∧ ¬len.toNat < 2147483648 := by
  rw [negInt] at hn
  split at hn
  · rename_i hmin
    cases hn
    refine ⟨rfl, fun hlow => ?_⟩
    rw [toInt, if_pos hlow] at hmin
    omega
  · cases hn

/-- The ways in which an operation stops: an exit was allowed, an overflow was not. -/
theorem allowed_of_stop {e : Stop} (hx : s.step op = .error e) :
    e = .overflow ∧ ¬s.Allowed op ∨ e ≠ .overflow ∧ s.Allowed op := by
  cases op with
  | spaces bytes => cases hx
  | put p hp =>
    simp only [step, BufferPtrs.put] at hx
    split at hx
    · cases hx
      exact .inr ⟨nofun, trivial⟩
    · cases hx
  | commit sub len =>
    cases sub with
    | none => cases hx
    | some sub =>
      simp only [step, commit] at hx
      split at hx
      · cases hx
        exact .inr ⟨nofun, trivial⟩
      · cases hx
  | consume len =>
    simp only [step, BufferPtrs.consume] at hx
    split at hx
    · rename_i hsize
      cases hx
      exact .inr ⟨nofun, .inl hsize⟩
    · rename_i hsize
      cases hn : negInt len with
      | ok n =>
        rw [hn] at hx
        cases hx
      | error e' =>
        rw [hn] at hx
        cases hx
        obtain ⟨rfl, hhigh⟩ := negInt_error hn
        exact .inl ⟨rfl, fun h => h.elim hsize hhigh⟩

/-! ## Any sequence of operations -/

/-- No operation is undefined, and all is well in every state that is reached. -/
def KeepsSound (b e2 : Int) (s : BufferPtrs) (ops : List BufferOp) : Prop :=
  ∀ before after, ops = before ++ after →
    s.run before ≠ .error .overflow ∧ ∀ t, s.run before = .ok t → Sound b e2 t

/-- Every operation that is reached is allowed. -/
def AllAllowed (s : BufferPtrs) (ops : List BufferOp) : Prop :=
  ∀ before op after, ops = before ++ op :: after → ∀ t, s.run before = .ok t → t.Allowed op

theorem run_snoc (s : BufferPtrs) (ops : List BufferOp) (op : BufferOp) :
    s.run (ops ++ [op]) = (s.run ops).bind fun t => t.step op := by
  rw [run, List.foldlM_append]
  change ((s.run ops).bind fun t => (t.step op).bind pure) = _
  congr 1
  funext t
  cases t.step op <;> rfl

theorem start_sound {b e e2 : Int} (mem : Int → Byte) (hbe : b ≤ e) (hee : e ≤ e2) :
    Sound b e2 (start b e e2 mem) := by
  constructor
  · rfl
  · rfl
  · exact hbe
  · exact hee
  · exact Nat.zero_le _
  · rfl

theorem keepsSound_of_allowed {ops : List BufferOp} (h : Sound b e2 s) (hall : AllAllowed s ops) :
    KeepsSound b e2 s ops := by
  intro before
  induction before using List.reverseRecOn with
  | nil =>
    intro after _
    refine ⟨nofun, fun t ht => ?_⟩
    cases ht
    exact h
  | append_singleton before op ih =>
    intro after hops
    rw [List.append_assoc, List.singleton_append] at hops
    obtain ⟨hno, hsound⟩ := ih _ hops
    rw [run_snoc]
    cases hrun : s.run before with
    | error e =>
      rw [hrun] at hno
      exact ⟨hno, nofun⟩
    | ok t =>
      have hallowed := hall before op after hops t hrun
      constructor
      · intro hx
        rcases allowed_of_stop hx with ⟨-, hnot⟩ | ⟨hne, -⟩
        · exact hnot hallowed
        · exact hne rfl
      · intro u hu
        exact (step_ok_iff (hsound t hrun) hu).mpr hallowed

theorem allowed_of_keepsSound {ops : List BufferOp} (hk : KeepsSound b e2 s ops) :
    AllAllowed s ops := by
  intro before op after hops t hrun
  have ht := (hk before (op :: after) hops).2 t hrun
  obtain ⟨hno, hsound⟩ := hk (before ++ [op]) after (by rw [hops, List.append_assoc]; rfl)
  rw [run_snoc, hrun] at hno hsound
  cases hstep : t.step op with
  | ok u => exact (step_ok_iff ht hstep).mp (hsound u hstep)
  | error e =>
    rcases allowed_of_stop hstep with ⟨rfl, -⟩ | ⟨-, hallowed⟩
    · exact absurd hstep hno
    · exact hallowed

theorem keepsSound_iff (b e e2 : Int) (mem : Int → Byte) (ops : List BufferOp) (hbe : b ≤ e)
    (hee : e ≤ e2) :
    KeepsSound b e2 (start b e e2 mem) ops ↔ AllAllowed (start b e e2 mem) ops :=
  ⟨allowed_of_keepsSound, keepsSound_of_allowed (start_sound mem hbe hee)⟩

/-- Four bytes received into the free space, one taken out, and one put in. -/
def someOps : List BufferOp :=
  [.spaces fun x => .ofNat (x.toNat + 65), .commit (some (0, 8)) 4, .consume 1, .put [1] (by decide)]

theorem keepsSound_some :
    KeepsSound 0 8 (start 0 0 8 fun _ => 0) someOps ↔ AllAllowed (start 0 0 8 fun _ => 0) someOps :=
  keepsSound_iff 0 0 8 (fun _ => 0) someOps (by decide) (by decide)

/-- Nine bytes of a buffer of eight are committed. -/
theorem not_keepsSound : ¬KeepsSound 0 8 (start 0 0 8 fun _ => 0) [.commit none 9] := by
  intro h
  have hlast := (h [.commit none 9] [] rfl).2 _ rfl
  have hle : (0 + 9 : Int) ≤ 8 := hlast.cur_le
  omega

end BufferPtrs
end CppSnippets.Epoll
