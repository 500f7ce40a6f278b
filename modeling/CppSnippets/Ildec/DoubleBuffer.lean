import CppSnippets.Ildec.InputPort

/-!
# The two buffers in turn

As long as `send` and `callback` run one after the other, in any order, the frame
in the buffer that is not at the decoder is the newest one, and it follows as soon
as the decoder gives the other buffer back. A callback that runs while `send` copies
finds nothing to hand over, and the frame stays behind.
-/
namespace CppSnippets.Ildec.DoubleBuffer

open CppSnippets.Lib InputPort

variable {m : Nat} {φ : Type*} {s t : InputPort m φ}

/-- A frame waits in this buffer. -/
def Waits (s : InputPort m φ) (b : Fin (m + 2)) : Prop :=
  (s.bufs b).copyed = true ∧ (s.bufs b).used = false

/-- No call of `send` or `callback` is running. -/
def Still (s : InputPort m φ) : Prop := s.sender = .idle ∧ s.callback = none

/-- The exit is not reached; no frame is copied to a buffer of the decoder; at most
one buffer is outstanding; with no call running, nothing waits while none is
outstanding; the frames reach the decoder in the order in which they were sent, each
at most once; and the last one sent has reached it or waits. -/
structure Sound (s : InputPort m φ) : Prop where
  noExit : s.exited = false
  notOwned : ∀ b doempty frame, s.sender = .chosen b doempty frame → b ∉ s.owned
  oneOutstanding : s.owned.length ≤ 1
  waiting : Still s → ∀ b, Waits s b → s.owned ≠ []
  order : (s.delivered.map Prod.fst).Pairwise (· < ·)
  frames : ∀ p ∈ s.delivered, s.sent[p.1]? = some p.2
  last : Still s → ∀ k frame, s.sent.length = k + 1 → s.sent[k]? = some frame →
    (k, frame) ∈ s.delivered ∨ ∃ b, Waits s b ∧ (s.bufs b).content = some (k, frame)

/-- A call begins only while the other one is not running. -/
def Ok (s : InputPort m φ) : Event m φ → Prop
  | .send _ => s.callback = none
  | .done _ => s.sender.busy = false
  | _ => True

/-! ## The invariant -/

/-- The number and the frame that was sent last, which the decoder has not got. -/
def Newest (s : InputPort m φ) (frame : Nat × φ) : Prop :=
  s.sent.length = frame.1 + 1 ∧ s.sent[frame.1]? = some frame.2 ∧
    ∀ p ∈ s.delivered, p.1 < frame.1

/-- The decoder has got all that was sent last. -/
def UpToDate (s : InputPort m φ) : Prop :=
  ∀ k frame, s.sent.length = k + 1 → s.sent[k]? = some frame → (k, frame) ∈ s.delivered

/-- The buffer that is not at the decoder. -/
def Pend (s : InputPort m φ) (b : Fin (m + 2)) : Prop :=
  (s.bufs b).Free ∧ UpToDate s ∨ Waits s b ∧ ∃ frame, (s.bufs b).content = some frame ∧ Newest s frame

/-- One of the two buffers. -/
def Turn (b : Fin (m + 2)) : Prop := b = first m ∨ b = second m

/-- Where `send` and `callback` are. -/
inductive Phase (s : InputPort m φ) : Prop
  | quiet : Still s → s.owned = [] → (s.bufs (first m)).Free → (s.bufs (second m)).Free →
      UpToDate s → Phase s
  | busy (b : Fin (m + 2)) : Still s → Turn b → s.owned = [b] → (s.bufs b).used = true →
      Pend s (other b) → Phase s
  | fill (frame : Nat × φ) : s.sender = .chosen (first m) true frame → s.callback = none →
      s.owned = [] → (s.bufs (first m)).Free → (s.bufs (second m)).Free → Newest s frame → Phase s
  | follow (b : Fin (m + 2)) (frame : Nat × φ) : s.sender = .chosen (other b) false frame →
      s.callback = none → Turn b → s.owned = [b] → (s.bufs b).used = true →
      (s.bufs (other b)).used = false → Newest s frame → Phase s
  | filled (frame : Nat × φ) : s.sender = .copied (first m) → s.callback = none → s.owned = [] →
      Waits s (first m) → (s.bufs (first m)).content = some frame → (s.bufs (second m)).Free →
      Newest s frame → Phase s
  | called (b : Fin (m + 2)) : s.sender = .idle → s.callback = some b → Turn b → s.owned = [] →
      (s.bufs b).Free → Pend s (other b) → Phase s

structure Inv (s : InputPort m φ) : Prop where
  noExit : s.exited = false
  order : (s.delivered.map Prod.fst).Pairwise (· < ·)
  frames : ∀ p ∈ s.delivered, s.sent[p.1]? = some p.2
  rest : ∀ b, ¬Turn b → (s.bufs b).Free
  phase : Phase s

/-! ## Buffers -/

theorem first_ne_second : first m ≠ second m := by
  intro h
  have hval := congrArg Fin.val h
  simp only [first, second] at hval
  omega

theorem other_first : other (first m) = second m := if_pos rfl

theorem other_second : other (second m) = first m := if_neg first_ne_second.symm

theorem Turn.other_ne {b : Fin (m + 2)} (h : Turn b) : other b ≠ b := by
  obtain rfl | rfl := h
  · rw [other_first]
    exact first_ne_second.symm
  · rw [other_second]
    exact first_ne_second

theorem Turn.other {b : Fin (m + 2)} (h : Turn b) : Turn (other b) := by
  obtain rfl | rfl := h
  · exact .inr other_first
  · exact .inl other_second

theorem Turn.other_other {b : Fin (m + 2)} (h : Turn b) : InputPort.other (InputPort.other b) = b := by
  obtain rfl | rfl := h
  · rw [other_first, other_second]
  · rw [other_second, other_first]

theorem BufferEx.Free.not_waits {b : Fin (m + 2)} (h : (s.bufs b).Free) : ¬Waits s b := by
  intro hw
  rw [Waits, h.2] at hw
  cases hw.1

/-! ## The newest frame -/

theorem Newest.eq {p : Nat × φ} (h : Newest s p) {k : Nat} {frame : φ} (hk : s.sent.length = k + 1)
    (hframe : s.sent[k]? = some frame) : p = (k, frame) := by
  obtain ⟨hlen, hsent, _⟩ := h
  have hnum : p.1 = k := by omega
  rw [hnum, hframe] at hsent
  exact Prod.ext hnum (Option.some.inj hsent).symm

theorem Pend.last {b : Fin (m + 2)} (h : Pend s b) {k : Nat} {frame : φ}
    (hk : s.sent.length = k + 1) (hframe : s.sent[k]? = some frame) :
    (k, frame) ∈ s.delivered ∨ ∃ b, Waits s b ∧ (s.bufs b).content = some (k, frame) := by
  obtain ⟨_, hup⟩ | ⟨hw, p, hcont, hnew⟩ := h
  · exact .inl (hup k frame hk hframe)
  · exact .inr ⟨b, hw, by rw [hcont, hnew.eq hk hframe]⟩

/-- A new frame is behind those that the decoder has got. -/
theorem newest_send (h : Inv s) (frame : φ) (t : InputPort m φ) (hsent : t.sent = s.sent ++ [frame])
    (hdelivered : t.delivered = s.delivered) : Newest t (s.sent.length, frame) := by
  refine ⟨?_, ?_, ?_⟩
  · rw [hsent, List.length_append]
    rfl
  · rw [hsent]
    exact List.getElem?_concat_length
  · intro p hp
    rw [hdelivered] at hp
    exact (List.getElem?_eq_some_iff.mp (h.frames p hp)).1

theorem frames_send (h : Inv s) (frame : φ) : ∀ p ∈ s.delivered, (s.sent ++ [frame])[p.1]? = some p.2 := by
  intro p hp
  have hsent := h.frames p hp
  rw [List.getElem?_append_left (List.getElem?_eq_some_iff.mp hsent).1]
  exact hsent

theorem Inv.sound_still (h : Inv s) (hstill : Still s) (hlen : s.owned.length ≤ 1)
    (hwait : ∀ b, Waits s b → s.owned ≠ [])
    (hlast : ∀ k frame, s.sent.length = k + 1 → s.sent[k]? = some frame →
      (k, frame) ∈ s.delivered ∨ ∃ b, Waits s b ∧ (s.bufs b).content = some (k, frame)) :
    Sound s := by
  refine ⟨h.noExit, ?_, hlen, fun _ => hwait, h.order, h.frames, fun _ => hlast⟩
  intro b doempty frame hs
  rw [hstill.1] at hs
  cases hs

theorem Inv.sound_within (h : Inv s) (hcall : ¬Still s) (hlen : s.owned.length ≤ 1)
    (hnot : ∀ b doempty frame, s.sender = .chosen b doempty frame → b ∉ s.owned) : Sound s :=
  ⟨h.noExit, hnot, hlen, fun hstill => absurd hstill hcall, h.order, h.frames,
    fun hstill => absurd hstill hcall⟩

theorem not_still_of_busy (h : s.sender.busy = true) : ¬Still s := by
  intro hstill
  rw [hstill.1] at h
  cases h

theorem Inv.sound (h : Inv s) : Sound s := by
  have hturn : ∀ b, Waits s b → Turn b := by
    intro b hw
    by_contra hb
    exact BufferEx.Free.not_waits (h.rest b hb) hw
  have hnone : s.owned = [] → ∀ b, b ∉ s.owned := by
    intro howned b hb
    rw [howned] at hb
    cases hb
  have hle : ∀ {bs : List (Fin (m + 2))}, s.owned = bs → bs.length ≤ 1 → s.owned.length ≤ 1 := by
    rintro _ rfl hlen
    exact hlen
  cases h.phase with
  | quiet hstill howned hfirst hsecond hup =>
    refine h.sound_still hstill (hle howned (Nat.zero_le _)) ?_ fun k frame hk hframe => ?_
    · intro b hw
      obtain rfl | rfl := hturn b hw
      · exact absurd hw (BufferEx.Free.not_waits hfirst)
      · exact absurd hw (BufferEx.Free.not_waits hsecond)
    · exact .inl (hup k frame hk hframe)
  | busy b hstill hb howned hused hpend =>
    refine h.sound_still hstill (hle howned (Nat.le_refl 1)) ?_ fun _ _ => hpend.last
    intro c _
    rw [howned]
    exact List.cons_ne_nil _ _
  | fill frame hs hc howned hfirst hsecond hnew =>
    have hcall := not_still_of_busy (s := s) (by rw [hs]; rfl)
    exact h.sound_within hcall (hle howned (Nat.zero_le _)) fun b _ _ _ => hnone howned b
  | follow b frame hs hc hb howned hused hother hnew =>
    have hcall := not_still_of_busy (s := s) (by rw [hs]; rfl)
    refine h.sound_within hcall (hle howned (Nat.le_refl 1)) ?_
    intro c doempty frame' hs'
    rw [hs] at hs'
    cases hs'
    rw [howned, List.mem_singleton]
    exact hb.other_ne
  | filled frame hs hc howned hw hcont hsecond hnew =>
    have hcall := not_still_of_busy (s := s) (by rw [hs]; rfl)
    exact h.sound_within hcall (hle howned (Nat.zero_le _)) fun b _ _ _ => hnone howned b
  | called b hs hc hb howned hfree hpend =>
    have hcall : ¬Still s := fun hstill => by
      rw [hstill.2] at hc
      cases hc
    exact h.sound_within hcall (hle howned (Nat.zero_le _)) fun b _ _ _ => hnone howned b

/-! ## What a part of a call does -/

theorem inv_send (h : Inv s) (hidle : s.sender.busy = false) (hc : s.callback = none) (frame : φ) :
    Inv (s.send frame) := by
  have hframes := frames_send h frame
  rw [send]
  dsimp only
  cases h.phase with
  | quiet hstill howned hfirst hsecond hup =>
    rw [hfirst.1, hsecond.1, if_pos (by rfl)]
    refine ⟨h.noExit, h.order, hframes, h.rest, ?_⟩
    exact .fill _ rfl hc howned hfirst hsecond (newest_send h frame _ rfl rfl)
  | busy b hstill hb howned hused hpend =>
    have hother : (s.bufs (other b)).used = false := by
      obtain ⟨hfree, _⟩ | ⟨hw, _⟩ := hpend
      · exact hfree.1
      · exact hw.2
    have hfollow : ∀ t : InputPort m φ, t = { s with
        sent := s.sent ++ [frame], sender := .chosen (other b) false (s.sent.length, frame) } →
        Inv t := by
      rintro t rfl
      refine ⟨h.noExit, h.order, hframes, h.rest, ?_⟩
      exact .follow b _ rfl hc hb howned hused hother (newest_send h frame _ rfl rfl)
    obtain rfl | rfl := hb
    · rw [other_first] at hother hfollow
      rw [hused, hother, if_neg (by decide), if_neg (by decide), if_pos (by rfl)]
      exact hfollow _ rfl
    · rw [other_second] at hother hfollow
      rw [hused, hother, if_neg (by decide), if_pos (by rfl)]
      exact hfollow _ rfl
  | fill _ hs => rw [hs] at hidle; cases hidle
  | follow _ _ hs => rw [hs] at hidle; cases hidle
  | filled _ hs => rw [hs] at hidle; cases hidle
  | called b _ hcall =>
    rw [hc] at hcall
    cases hcall

/-- The newest frame is handed over while the other buffer is free. -/
theorem inv_emptyThisBuffer {b : Fin (m + 2)} {frame : Nat × φ} (h : Inv s) (hb : Turn b)
    (howned : s.owned = []) (hcont : (s.bufs b).content = some frame) (hnew : Newest s frame)
    (hfree : (s.bufs (other b)).Free) {sender : Sender m φ} (hs : sender = .idle)
    {callback : Option (Fin (m + 2))} (hc : callback = none) :
    Inv { s.emptyThisBuffer b with sender := sender, callback := callback } := by
  have hdelivered : (s.emptyThisBuffer b).delivered = s.delivered ++ [frame] := by
    rw [emptyThisBuffer, hcont]
    rfl
  have hbufs : ∀ c, c ≠ b → (s.emptyThisBuffer b).bufs c = s.bufs c :=
    fun c hc => Function.update_of_ne hc _ _
  obtain ⟨hlen, hsent, hbelow⟩ := hnew
  constructor
  · exact h.noExit
  · show ((s.emptyThisBuffer b).delivered.map Prod.fst).Pairwise (· < ·)
    rw [hdelivered, List.map_append, List.pairwise_append]
    refine ⟨h.order, List.pairwise_singleton _ _, ?_⟩
    intro x hx y hy
    obtain ⟨p, hp, rfl⟩ := List.mem_map.mp hx
    rw [List.map_singleton, List.mem_singleton] at hy
    rw [hy]
    exact hbelow p hp
  · intro p hp
    change p ∈ (s.emptyThisBuffer b).delivered at hp
    rw [hdelivered, List.mem_append, List.mem_singleton] at hp
    obtain hp | rfl := hp
    · exact h.frames p hp
    · exact hsent
  · intro c hc
    show ((s.emptyThisBuffer b).bufs c).Free
    rw [hbufs c (by rintro rfl; exact hc hb)]
    exact h.rest c hc
  · refine .busy b ⟨hs, hc⟩ hb ?_ ?_ (.inl ⟨?_, ?_⟩)
    · show s.owned ++ [b] = [b]
      rw [howned]
      rfl
    · show ((s.emptyThisBuffer b).bufs b).used = true
      rw [emptyThisBuffer]
      dsimp only
      rw [Function.update_self]
    · show ((s.emptyThisBuffer b).bufs (other b)).Free
      rw [hbufs _ hb.other_ne]
      exact hfree
    · intro k f hk hf
      show (k, f) ∈ (s.emptyThisBuffer b).delivered
      have heq : frame = (k, f) := Newest.eq ⟨hlen, hsent, hbelow⟩ hk hf
      rw [hdelivered, heq]
      exact List.mem_append_right _ (List.mem_singleton.mpr rfl)

/-- The frame is copied: it waits for what `send` or `callback` does next. -/
theorem bufs_copydata (s : InputPort m φ) (b : Fin (m + 2)) (frame : Nat × φ) :
    ((s.copydata b frame).bufs b).copyed = true ∧
      ((s.copydata b frame).bufs b).used = (s.bufs b).used ∧
      ((s.copydata b frame).bufs b).content = some frame ∧
      ∀ c, c ≠ b → (s.copydata b frame).bufs c = s.bufs c := by
  rw [copydata]
  dsimp only
  rw [Function.update_self]
  exact ⟨rfl, rfl, rfl, fun c hc => Function.update_of_ne hc _ _⟩

theorem inv_proceed (h : Inv s) : Inv s.proceed := by
  rw [proceed]
  cases h.phase with
  | quiet hstill =>
    rw [hstill.1]
    exact h
  | busy b hstill =>
    rw [hstill.1]
    exact h
  | fill frame hs hc howned hfirst hsecond hnew =>
    obtain ⟨hcopyed, hused, hcont, hbufs⟩ := bufs_copydata s (first m) frame
    rw [hs]
    refine ⟨h.noExit, h.order, h.frames, fun c hc => ?_, ?_⟩
    · show ((s.copydata (first m) frame).bufs c).Free
      rw [hbufs c (by rintro rfl; exact hc (.inl rfl))]
      exact h.rest c hc
    · refine .filled frame rfl hc howned ⟨hcopyed, hused.trans hfirst.1⟩ hcont ?_ hnew
      show ((s.copydata (first m) frame).bufs (second m)).Free
      rw [hbufs _ first_ne_second.symm]
      exact hsecond
  | follow b frame hs hc hb howned hused hother hnew =>
    obtain ⟨hcopyed, hused', hcont, hbufs⟩ := bufs_copydata s (other b) frame
    rw [hs]
    refine ⟨h.noExit, h.order, h.frames, fun c hc => ?_, ?_⟩
    · show ((s.copydata (other b) frame).bufs c).Free
      rw [hbufs c (by rintro rfl; exact hc hb.other)]
      exact h.rest c hc
    · refine .busy b ⟨rfl, hc⟩ hb howned ?_ (.inr ⟨⟨hcopyed, hused'.trans hother⟩, frame, hcont, hnew⟩)
      show ((s.copydata (other b) frame).bufs b).used = true
      rw [hbufs b hb.other_ne.symm]
      exact hused
  | filled frame hs hc howned hw hcont hsecond hnew =>
    rw [hs]
    have hfree : (s.bufs (other (first m))).Free := by
      rw [other_first]
      exact hsecond
    exact inv_emptyThisBuffer h (.inl rfl) howned hcont hnew hfree rfl hc
  | called b hs =>
    rw [hs]
    exact h

/-- The flags of the buffer that comes back. -/
theorem bufs_clear (s : InputPort m φ) (b : Fin (m + 2)) :
    ((s.clear b).bufs b).Free ∧ ∀ c, c ≠ b → (s.clear b).bufs c = s.bufs c := by
  rw [clear]
  dsimp only
  rw [Function.update_self]
  exact ⟨⟨rfl, rfl⟩, fun c hc => Function.update_of_ne hc _ _⟩

theorem inv_clear (h : Inv s) (hs : s.sender.busy = false) {b : Fin (m + 2)} (hmem : b ∈ s.owned) :
    Inv (s.clear b) := by
  have hnil : s.owned ≠ [] := List.ne_nil_of_mem hmem
  obtain ⟨hfree, hbufs⟩ := bufs_clear s b
  cases h.phase with
  | busy c hstill hc howned hused hpend =>
    rw [howned, List.mem_singleton] at hmem
    subst hmem
    refine ⟨h.noExit, h.order, h.frames, fun c hturn => ?_, ?_⟩
    · rw [hbufs c (by rintro rfl; exact hturn hc)]
      exact h.rest c hturn
    · refine .called b hstill.1 rfl hc ?_ hfree ?_
      · show s.owned.erase b = []
        rw [howned, List.erase_cons_head]
      · have hother : (s.clear b).bufs (other b) = s.bufs (other b) := hbufs _ hc.other_ne
        rw [Pend, Waits, hother]
        exact hpend
  | quiet _ howned => exact absurd howned hnil
  | fill _ _ _ howned => exact absurd howned hnil
  | filled _ _ _ howned => exact absurd howned hnil
  | called _ _ _ _ howned => exact absurd howned hnil
  | follow _ _ hs' =>
    rw [hs'] at hs
    cases hs

theorem inv_resume (h : Inv s) {b : Fin (m + 2)} (hcall : s.callback = some b) : Inv (s.resume b) := by
  rw [resume]
  dsimp only
  cases h.phase with
  | called c hs hc hturn howned hfree hpend =>
    rw [hcall] at hc
    cases hc
    obtain ⟨hother, hup⟩ | ⟨hw, frame, hcont, hnew⟩ := hpend
    · rw [if_neg (by rw [hother.2]; exact Bool.false_ne_true)]
      refine ⟨h.noExit, h.order, h.frames, h.rest, ?_⟩
      obtain rfl | rfl := hturn
      · rw [other_first] at hother
        exact .quiet ⟨hs, rfl⟩ howned hfree hother hup
      · rw [other_second] at hother
        exact .quiet ⟨hs, rfl⟩ howned hother hfree hup
    · rw [if_pos hw.1]
      have hback : (s.bufs (other (other b))).Free := by
        rw [hturn.other_other]
        exact hfree
      exact inv_emptyThisBuffer h hturn.other howned hcont hnew hback hs rfl
  | quiet hstill =>
    rw [hstill.2] at hcall
    cases hcall
  | busy _ hstill =>
    rw [hstill.2] at hcall
    cases hcall
  | fill _ _ hc =>
    rw [hc] at hcall
    cases hcall
  | follow _ _ _ hc =>
    rw [hc] at hcall
    cases hcall
  | filled _ _ hc =>
    rw [hc] at hcall
    cases hcall

theorem inv_step {ev : Event m φ} (h : Inv s) (hok : Ok s ev) (hstep : Step s ev t) : Inv t := by
  obtain ⟨hen, rfl⟩ := hstep
  cases ev with
  | send frame => exact inv_send h hen.2 hok frame
  | proceed => exact inv_proceed h
  | done b => exact inv_clear h hok hen.2.2
  | resume b => exact inv_resume h hen.2

theorem inv_init : Inv (init m φ) := by
  constructor
  · rfl
  · exact List.Pairwise.nil
  · intro p hp
    cases hp
  · intro b _
    exact ⟨rfl, rfl⟩
  · refine .quiet ⟨rfl, rfl⟩ rfl ⟨rfl, rfl⟩ ⟨rfl, rfl⟩ ?_
    intro k frame hk
    cases hk

/-! ## The main result -/

/-- For every number of buffers and every order of the calls that do not overlap. -/
theorem double_buffer {evs : List (Event m φ)} (h : Run (Guarded Ok Step) (init m φ) evs s) :
    Sound s := by
  have hinv : Inv s := h.invariant (P := Inv)
    (fun _ _ _ hs hstep => inv_step hs hstep.1 hstep.2) inv_init
  exact hinv.sound

instance (s : InputPort m φ) : ∀ ev, Decidable (Ok s ev)
  | .send _ => inferInstanceAs (Decidable (_ = _))
  | .done _ => inferInstanceAs (Decidable (_ = _))
  | .proceed => .isTrue trivial
  | .resume _ => .isTrue trivial

/-- Three frames, of which the third replaces the second one while the first one is
being decoded. -/
def replaced : List (Event 0 String) :=
  [.send "a", .proceed, .proceed, .send "b", .proceed, .send "c", .proceed, .done 0, .resume 0]

theorem double_buffer_replaced : Sound (replaced.foldl InputPort.next (init 0 String)) :=
  double_buffer (Run.plays_guarded (by decide))

/-- The decoder gives the first frame back while the second one is being copied.
Then the second one waits with no buffer outstanding, and it follows the third. -/
def overlapped : List (Event 0 String) :=
  [.send "a", .proceed, .proceed, .send "b", .done 0, .resume 0, .proceed]

theorem double_buffer_broken : (∃ s, Run Step (init 0 String) overlapped s ∧ ¬Sound s) ∧
    ∃ s, Run Step (init 0 String)
      (overlapped ++ [.send "c", .proceed, .proceed, .done 0, .resume 0]) s ∧
      ¬Sound s ∧ s.delivered = [(0, "a"), (2, "c"), (1, "b")] := by
  constructor
  · refine ⟨_, Run.plays (by decide), fun h => ?_⟩
    exact h.waiting ⟨rfl, rfl⟩ 1 ⟨rfl, rfl⟩ rfl
  · refine ⟨_, Run.plays (by decide), fun h => ?_, rfl⟩
    exact absurd h.order (by decide)

end CppSnippets.Ildec.DoubleBuffer
