import CppSnippets.Wap.Commands
import CppSnippets.Wap.Halts

/-!
# How far the scan of a body may go

The loop of `commands` moves by a number that the client chose. It ends, moves
forward only and stays inside the body exactly when that number, on each line
the loop comes to, leaves the next position behind the start of the line and not
behind the end of the body; and not before the end of the line either where the
content is handed on. What the content is handed to returns on words of 32 bits; on
wider ones `unescape` may hang, wherever the scan has come to.
-/
namespace CppSnippets.Wap.Scan

open CppSnippets.Lib

variable {env : Env} {m : Memory}

/-! ## The condition on the announced size -/

/-- The size `v` on this line, in this session, leads forward and not behind the
body. -/
def SizeOk (env : Env) (m : Memory) (l : Line) (wc : Wcstat) : Prop :=
  let v := announced env m l
  match deed env m l wc with
  | .refuse _ => True
  | .init | .next _ => 0 ≤ v ∧ l.second + v ≤ m.size
  | .setVars _ _ _ | .skip => -((l.second : Int) - l.first) < v ∧ l.second + v ≤ m.size

theorem size_of_hands {l : Line} {wc : Wcstat} (h : SizeOk env m l wc)
    (hd : (deed env m l wc).handsContent = true) :
    0 ≤ announced env m l ∧ l.second + announced env m l ≤ m.size := by
  unfold SizeOk at h
  revert h hd
  cases deed env m l wc with
  | refuse err => exact fun _ hd => Bool.noConfusion hd
  | init => exact fun h _ => h
  | next trac => exact fun h _ => h
  | setVars imei imsi smsc => exact fun _ hd => Bool.noConfusion hd
  | skip => exact fun _ hd => Bool.noConfusion hd

/-- A content was handed on, and the run never comes back. -/
def Hangs (e : Ended) : Prop := ∃ w, e = .trapped .diverges w

/-- The scan ends, its command lines lie one behind the other, and every range
it hands on is one of the body. -/
structure Scans (env : Env) (m : Memory) (w : Work) : Prop where
  terminates : ∃ e, Commands env m w e ∧ (env.wordBits = 32 → ¬Hangs e)
  increasing : ∀ s t l l', Reached env m w s → TurnStep env m s l t →
    (turn env m t.1 t.2).line = some l' → l.first < l'.first
  inside : ∀ s, Reached env m w s → ∀ r ∈ (turn env m s.1 s.2).ranges, r.Within m.size

/-! ## No turn hangs -/

theorem handOver_halts {f : Act (Except String Bytes)} (hf : Action.Avoids .diverges f) (pos : Int)
    (w w' : Work) : handOver f pos w ≠ .trapped .diverges w' := by
  have h := hf.never w.wc
  unfold handOver
  split
  · rename_i t wc heq
    rw [heq] at h
    exact fun he => h (congrArg _ (Outcome.trapped.inj he).1)
  · intro he
    cases he
  · intro he
    cases he

theorem perform_halts (hbits : env.wordBits = 32) (l : Line) (endc : Int) (w w' : Work) (d : Deed) :
    perform env m l endc w d ≠ .trapped .diverges w' := by
  cases d with
  | refuse err =>
    intro he
    cases he
  | skip =>
    intro he
    cases he
  | setVars imei imsi smsc =>
    intro he
    cases he
  | init =>
    rw [perform]
    split
    · intro he
      cases he
    · exact handOver_halts (wapinit_halts hbits _) _ _ _
  | next trac =>
    rw [perform]
    split
    · exact handOver_halts (wapnext_halts hbits _ _) _ _ _
    · intro he
      cases he

theorem turn_halts (hbits : env.wordBits = 32) (pos : Int) (w w' : Work) :
    (turn env m pos w).outcome ≠ .trapped .diverges w' := by
  rw [turn]
  split
  · intro he
    cases he
  · dsimp only
    split
    · intro he
      cases he
    · exact perform_halts hbits _ _ _ _ _

theorem loop_halts (hbits : env.wordBits = 32) {fuel : Nat} {pos : Int} {w : Work} {e : Ended}
    (h : loop env m fuel pos w = some e) : ¬Hangs e := by
  induction fuel generalizing pos w with
  | zero => cases h
  | succ fuel ih =>
    rw [loop] at h
    split at h
    · cases h
      intro hangs
      obtain ⟨_, he⟩ := hangs
      cases he
    · cases h
      intro hangs
      obtain ⟨_, he⟩ := hangs
      cases he
    · rename_i t v ho
      cases h
      intro hangs
      obtain ⟨w', he⟩ := hangs
      cases he
      exact turn_halts hbits _ _ _ ho
    · exact ih h

/-! ## Sizes that are right keep the scan right -/

/-- A turn whose line announces a right size leads forward in the body. -/
theorem step_forward {s t : Int × Work} {l : Line} (hs : TurnStep env m s l t)
    (hok : SizeOk env m l s.2.wc) : (l.first : Int) < t.1 ∧ t.1 ≤ m.size := by
  have hpos := step_pos hs
  obtain ⟨hline, hout⟩ := hs
  obtain ⟨_, _, _, hl⟩ := turn_line hline
  rw [turn_eq hline] at hout
  unfold SizeOk at hok
  revert hok hout
  cases deed env m l s.2.wc with
  | refuse err =>
    intro _ hout
    cases hout
  | init => simp only; omega
  | next trac => simp only; omega
  | setVars imei imsi smsc => simp only; omega
  | skip => simp only; omega

variable {w : Work}

/-- Every turn that is reached starts inside the body. -/
theorem reached_inside (hok : ∀ s l, Reached env m w s → (turn env m s.1 s.2).line = some l →
      SizeOk env m l s.2.wc) {s : Int × Work} (h : Reached env m w s) :
    0 ≤ s.1 ∧ s.1 ≤ m.size := by
  obtain ⟨ls, hr⟩ := h
  cases hr with
  | nil => exact ⟨Int.le_refl _, Int.natCast_nonneg _⟩
  | snoc hr hs =>
    have hfwd := step_forward hs (hok _ _ ⟨_, hr⟩ hs.1)
    omega

/-- The scan ends: what is left of the body gets shorter. -/
theorem loop_ends (hok : ∀ s l, Reached env m w s → (turn env m s.1 s.2).line = some l →
      SizeOk env m l s.2.wc) {s : Int × Work} (h : Reached env m w s) :
    ∃ fuel e, loop env m fuel s.1 s.2 = some e := by
  induction hn : (m.size - s.1).toNat using Nat.strongRecOn generalizing s with
  | ind n ih =>
    cases ho : (turn env m s.1 s.2).outcome with
    | finished w' => exact ⟨1, _, by rw [loop, ho]⟩
    | refused err w' => exact ⟨1, _, by rw [loop, ho]⟩
    | trapped t w' => exact ⟨1, _, by rw [loop, ho]⟩
    | onward p w' =>
      have hin := reached_inside hok h
      cases hl : (turn env m s.1 s.2).line with
      | none =>
        rw [(turn_end hin.1 hin.2 hl).2] at ho
        cases ho
      | some l =>
        have hs : TurnStep env m s l (p, w') := ⟨hl, ho⟩
        have hfwd := step_forward hs (hok s l h hl)
        obtain ⟨_, _, hle, _⟩ := turn_line hl
        have hge := le_first m s.1.toNat
        rw [← hle] at hge
        obtain ⟨fuel, e, he⟩ := ih _ (by simp only at hfwd; omega) (h.snoc hs) rfl
        exact ⟨fuel + 1, e, by rw [loop, ho]; exact he⟩

theorem scans_of_sizes (hok : ∀ s l, Reached env m w s → (turn env m s.1 s.2).line = some l →
      SizeOk env m l s.2.wc) : Scans env m w := by
  have h0 : Reached env m w (0, w) := ⟨[], .nil⟩
  refine ⟨?_, ?_, ?_⟩
  · obtain ⟨fuel, e, he⟩ := loop_ends hok h0
    exact ⟨e, ⟨fuel, he⟩, fun hbits => loop_halts hbits he⟩
  · intro s t l l' hr hs hl'
    have hfwd := step_forward hs (hok s l hr hs.1)
    obtain ⟨_, _, hle, _⟩ := turn_line hl'
    have hge := le_first m t.1.toNat
    rw [← hle] at hge
    omega
  · intro s hr r hmem
    have hin := reached_inside hok hr
    cases hl : (turn env m s.1 s.2).line with
    | none =>
      rw [(turn_end hin.1 hin.2 hl).2] at hmem
      rw [List.mem_singleton.mp hmem]
      exact ⟨Int.natCast_nonneg _, Int.le_refl _, Int.le_refl _⟩
    | some l =>
      have hsize := hok s l hr hl
      obtain ⟨_, _, hle, hlt⟩ := turn_line hl
      have hsecond := second_le m s.1.toNat (by omega)
      rw [← hle] at hsecond
      rw [turn_eq hl] at hmem
      simp only [List.cons_append, List.nil_append, List.mem_cons] at hmem
      rcases hmem with rfl | rfl | hmem
      · exact ⟨Int.natCast_nonneg _, by simp only; omega, Int.le_refl _⟩
      · exact ⟨Int.natCast_nonneg _, by simp only; omega, by simp only; omega⟩
      · split at hmem
        · rename_i hd
          rw [List.mem_singleton.mp hmem]
          have hv := size_of_hands hsize hd
          exact ⟨by simp only; omega, by simp only; omega, hv.2⟩
        · cases hmem

/-! ## A scan that is right has right sizes -/

/-- Where the content is not handed on, the next turn shows where the size leads. -/
theorem forward_of_scans (h : Scans env m w) {s : Int × Work} {l : Line} {t : Int × Work}
    (hr : Reached env m w s) (hs : TurnStep env m s l t) :
    -((l.second : Int) - l.first) < announced env m l ∧
      l.second + announced env m l ≤ m.size := by
  have hpos := step_pos hs
  have hrt := hr.snoc hs
  obtain ⟨h0, h1, rfl, hlt⟩ := turn_line hs.1
  have hin : 0 ≤ t.1 ∧ t.1 ≤ m.size := by
    by_contra hout
    have hw := h.inside _ hrt
    rw [turn_outside (by omega)] at hw
    have hwithin := hw _ List.mem_cons_self
    simp only [Range.Within] at hwithin
    omega
  refine ⟨?_, by omega⟩
  by_contra hback
  have hfirst := first_le_of_le m s.1.toNat t.1.toNat (by omega) hlt (by omega)
  cases hl' : (turn env m t.1 t.2).line with
  | none =>
    have hend := (turn_end hin.1 hin.2 hl').1
    have hsecond := second_le m s.1.toNat (by omega)
    omega
  | some l' =>
    have hinc := h.increasing _ _ _ _ hr hs hl'
    obtain ⟨_, _, rfl, _⟩ := turn_line hl'
    omega

theorem sizes_of_scans (h : Scans env m w) {s : Int × Work} {l : Line} (hr : Reached env m w s)
    (hl : (turn env m s.1 s.2).line = some l) : SizeOk env m l s.2.wc := by
  have heq := turn_eq hl
  have hcontent : (deed env m l s.2.wc).handsContent = true →
      0 ≤ announced env m l ∧ l.second + announced env m l ≤ m.size := by
    intro hd
    have hranges := h.inside s hr
    rw [heq, if_pos hd] at hranges
    have hwithin := hranges ⟨l.second, l.second + announced env m l⟩ (by simp)
    simp only [Range.Within] at hwithin
    omega
  have honward : ∀ w', perform env m l (l.second + announced env m l) s.2 (deed env m l s.2.wc) =
      .onward (l.second + announced env m l) w' →
      -((l.second : Int) - l.first) < announced env m l ∧
        l.second + announced env m l ≤ m.size := by
    intro w' hout
    exact forward_of_scans h hr (t := (_, w')) ⟨hl, by rw [heq, hout]⟩
  unfold SizeOk
  revert hcontent honward
  cases deed env m l s.2.wc with
  | refuse err => exact fun _ _ => trivial
  | init => exact fun hcontent _ => hcontent rfl
  | next trac => exact fun hcontent _ => hcontent rfl
  | setVars imei imsi smsc => exact fun _ honward => honward _ rfl
  | skip => exact fun _ honward => honward _ rfl

/-- For every session, every body and whatever lies behind it, the scan is right
if and only if each command line it comes to announces a right size. -/
theorem scan_iff (env : Env) (m : Memory) (w : Work) :
    Scans env m w ↔ ∀ s l, Reached env m w s → (turn env m s.1 s.2).line = some l →
      SizeOk env m l s.2.wc := by
  constructor
  · intro h s l hr hl
    exact sizes_of_scans h hr hl
  · exact scans_of_sizes

/-- A line whose size is its own negative length is read for ever; one whose size
is more than is left has its content read behind the body. -/
theorem scan_broken :
    ¬Scans .ilp32 ⟨bytes "X size=-11\n", []⟩ ⟨.new 1, [], []⟩ ∧
    ¬Scans .ilp32 ⟨bytes "Ch-Init size=99 trac=0\n", []⟩ ⟨.new 1, [], []⟩ := by
  have h0 : ∀ m w, Reached .ilp32 m w (0, w) := fun m w => ⟨[], .nil⟩
  constructor
  · intro h
    have hs : TurnStep .ilp32 ⟨bytes "X size=-11\n", []⟩ (0, ⟨.new 1, [], []⟩) ⟨0, 11⟩
        (0, ⟨.new 1, [], []⟩) := ⟨by decide, by decide⟩
    exact absurd (h.increasing _ _ _ ⟨0, 11⟩ (h0 _ _) hs hs.1) (Nat.lt_irrefl 0)
  · intro h
    have hin := h.inside _ (h0 _ _) ⟨23, 122⟩ (by decide)
    exact absurd hin (by decide)

end CppSnippets.Wap.Scan
