import CppSnippets.Lib.Run
import CppSnippets.Wproc.CheckProcs

/-!
# The supervisor of a directory

The loop of `main`: a check of the directory, one `waitpid` that does not block, and
a restart of the process that was waited for. Beside the list of the program stands
what the system knows: the children that have not been waited for, whose ids it does
not give to others. Children end at any time, which `waitpid` may then say of any of
them; the directory changes at any time.
-/
namespace CppSnippets.Wproc

open CppSnippets.Lib

variable {Name : Type}

/-! ## The loop -/

/-- What is done for each process when `waitpid` has returned this id. The phones are
told, too. -/
def crash (fork : List (Effect Name) → Int) (pid : Int) (p : Proc Name)
    (trace : List (Effect Name)) : Proc Name × List (Effect Name) :=
  if p.pid_ = pid then (p.stop trace).1.start fork (p.stop trace).2 else (p, trace)

/-- The `for_each` over the list. -/
def crashAll (fork : List (Effect Name) → Int) (pid : Int) :
    List (Proc Name) → List (Effect Name) → List (Proc Name) × List (Effect Name)
  | [], trace => ([], trace)
  | p :: ps, trace =>
    let first := crash fork pid p trace
    let rest := crashAll fork pid ps first.2
    (first.1 :: rest.1, rest.2)

/-- A child that has not been waited for, and whether it was sent the signal that ends it. -/
structure Child (Name : Type) where
  pid : Int
  path : Path Name
  killed : Bool
  deriving DecidableEq

/-- The system does what it was asked for. -/
def perform (fork : List (Effect Name) → Int) (trace : List (Effect Name))
    (children : List (Child Name)) : Effect Name → List (Child Name)
  | .spawn path =>
    if 0 < fork trace then children ++ [⟨fork trace, path, false⟩] else children
  | .kill _ .sigterm => children
  | .kill pid .sigkill =>
    children.map fun c => if c.pid = pid then { c with killed := true } else c

def performAll (fork : List (Effect Name) → Int) :
    List (Effect Name) → List (Child Name) → List (Effect Name) → List (Child Name)
  | _, children, [] => children
  | trace, children, e :: effects =>
    performAll fork (trace ++ [e]) (perform fork trace children e) effects

/-- `fork` does not answer with the id of a child that has not been waited for. -/
def Fresh (fork : List (Effect Name) → Int) :
    List (Effect Name) → List (Child Name) → List (Effect Name) → Prop
  | _, _, [] => True
  | trace, children, e :: effects =>
    (∀ path, e = .spawn path → 0 < fork trace → fork trace ∉ children.map Child.pid) ∧
    Fresh fork (trace ++ [e]) (perform fork trace children e) effects

/-- The program and its children. -/
structure Supervisor (Name : Type) where
  procs : List (Proc Name)
  trace : List (Effect Name)
  children : List (Child Name)
  /-- `check_procs` has returned, and `waitpid` is next. -/
  checked : Bool

inductive Round (Name : Type)
  /-- The walk met this tree. -/
  | check (node : Node Name)
  | waited (pid : Int)
  /-- `waitpid` has nothing to say. -/
  | nothing

def Supervisor.init : Supervisor Name := ⟨[], [], [], false⟩

/-- The steps of the loop over this path. -/
inductive Supervise [DecidableEq Name] (path : Path Name) :
    Supervisor Name → Round Name → Supervisor Name → Prop
  | check {s : Supervisor Name} {fork : List (Effect Name) → Int} {node : Node Name}
      {procs : List (Proc Name)} {effects : List (Effect Name)} (hturn : s.checked = false)
      (hwalk : (files path node).Nodup)
      (hcheck : checkProcs fork path node s.procs s.trace = (procs, s.trace ++ effects))
      (hfresh : Fresh fork s.trace s.children effects) :
      Supervise path s (.check node)
        ⟨procs, s.trace ++ effects, performAll fork s.trace s.children effects, true⟩
  | waited {s : Supervisor Name} {fork : List (Effect Name) → Int} {pid : Int}
      {procs : List (Proc Name)} {effects : List (Effect Name)} (hturn : s.checked = true)
      (hpid : pid ∈ s.children.map Child.pid)
      (hcrash : crashAll fork pid s.procs s.trace = (procs, s.trace ++ effects))
      (hfresh : Fresh fork s.trace (s.children.filter fun c => c.pid ≠ pid) effects) :
      Supervise path s (.waited pid)
        ⟨procs, s.trace ++ effects,
          performAll fork s.trace (s.children.filter fun c => c.pid ≠ pid) effects, false⟩
  | nothing {s : Supervisor Name} (hturn : s.checked = true) :
      Supervise path s .nothing { s with checked := false }

/-- The children that were not ended are the processes of the list that were started,
each under its id and its path. -/
structure Supervised (s : Supervisor Name) : Prop where
  paths : (s.procs.map Proc.path_).Nodup
  pids : (s.children.map Child.pid).Nodup
  positive : ∀ c ∈ s.children, 0 < c.pid
  live : ∀ pid path, ⟨pid, path, false⟩ ∈ s.children ↔ 0 < pid ∧ ⟨path, pid⟩ ∈ s.procs

/-! ## What the system does -/

variable {fork : List (Effect Name) → Int} {trace : List (Effect Name)}
  {children : List (Child Name)}

theorem performAll_append (es fs : List (Effect Name)) :
    performAll fork trace children (es ++ fs) =
      performAll fork (trace ++ es) (performAll fork trace children es) fs := by
  induction es generalizing trace children with
  | nil => rw [List.append_nil]; rfl
  | cons e es ih =>
    rw [List.cons_append, performAll, ih, List.append_assoc]
    rfl

theorem Fresh.append {es fs : List (Effect Name)} (h : Fresh fork trace children (es ++ fs)) :
    Fresh fork trace children es ∧
      Fresh fork (trace ++ es) (performAll fork trace children es) fs := by
  induction es generalizing trace children with
  | nil =>
    rw [List.append_nil]
    exact ⟨trivial, h⟩
  | cons e es ih =>
    obtain ⟨hes, hfs⟩ := ih h.2
    rw [List.append_assoc] at hfs
    exact ⟨⟨h.1, hes⟩, hfs⟩

/-- Starting some files adds the children that `fork` made. -/
theorem mem_performAll_spawn {fs : List (Path Name)} {c : Child Name} :
    c ∈ performAll fork trace children (fs.map .spawn) ↔ c ∈ children ∨
      ∃ before f after, fs = before ++ f :: after ∧ 0 < fork (trace ++ before.map .spawn) ∧
        c = ⟨fork (trace ++ before.map .spawn), f, false⟩ := by
  induction fs generalizing trace children with
  | nil => simp [performAll]
  | cons f fs ih =>
    rw [List.map_cons, performAll, ih]
    have hfirst : c ∈ perform fork trace children (.spawn f) ↔
        c ∈ children ∨ 0 < fork trace ∧ c = ⟨fork trace, f, false⟩ := by
      rw [perform]
      by_cases hpos : 0 < fork trace
      · simp [hpos]
      · simp [hpos]
    rw [hfirst, or_assoc]
    refine or_congr_right ?_
    constructor
    · rintro (⟨hpos, rfl⟩ | ⟨before, g, after, rfl, hpos, rfl⟩)
      · exact ⟨[], f, fs, rfl, by simpa using hpos, by simp⟩
      · rw [List.append_assoc] at hpos ⊢
        exact ⟨f :: before, g, after, rfl, hpos, rfl⟩
    · rintro ⟨before, g, after, hsplit, hpos, rfl⟩
      cases before with
      | nil =>
        obtain ⟨rfl, rfl⟩ := List.cons.inj hsplit
        left
        simpa using hpos
      | cons b before =>
        obtain ⟨rfl, rfl⟩ := List.cons.inj hsplit
        right
        refine ⟨before, g, after, rfl, ?_, ?_⟩
        · rw [List.append_assoc]
          exact hpos
        · rw [List.append_assoc]
          rfl

/-- Ids stay distinct and positive as long as `fork` gives fresh ones. -/
theorem pids_performAll {effects : List (Effect Name)} (hfresh : Fresh fork trace children effects)
    (hpids : (children.map Child.pid).Nodup) (hpos : ∀ c ∈ children, 0 < c.pid) :
    ((performAll fork trace children effects).map Child.pid).Nodup ∧
      ∀ c ∈ performAll fork trace children effects, 0 < c.pid := by
  induction effects generalizing trace children with
  | nil => exact ⟨hpids, hpos⟩
  | cons e effects ih =>
    obtain ⟨hnew, hrest⟩ := hfresh
    refine ih hrest ?_ ?_
    · cases e with
      | spawn path =>
        rw [perform]
        by_cases hlt : 0 < fork trace
        · rw [if_pos hlt, List.map_append]
          refine List.nodup_append.mpr ⟨hpids, List.nodup_singleton _, ?_⟩
          intro a ha b hb heq
          rw [heq, List.mem_singleton.mp hb] at ha
          exact hnew path rfl hlt ha
        · rw [if_neg hlt]
          exact hpids
      | kill pid sig =>
        cases sig with
        | sigterm => exact hpids
        | sigkill =>
          have hsame : (perform fork trace children (.kill pid .sigkill)).map Child.pid =
              children.map Child.pid := by
            rw [perform, List.map_map]
            refine List.map_congr_left fun c _ => ?_
            simp only [Function.comp]
            split <;> rfl
          rw [hsame]
          exact hpids
    · intro c hc
      cases e with
      | spawn path =>
        rw [perform] at hc
        by_cases hlt : 0 < fork trace
        · rw [if_pos hlt] at hc
          rcases List.mem_append.mp hc with hc | hc
          · exact hpos c hc
          · rw [List.mem_singleton.mp hc]
            exact hlt
        · rw [if_neg hlt] at hc
          exact hpos c hc
      | kill pid sig =>
        cases sig with
        | sigterm => exact hpos c hc
        | sigkill =>
          obtain ⟨c', hc', rfl⟩ := List.mem_map.mp hc
          have := hpos c' hc'
          split <;> exact this

/-- Stopping some processes ends the children with their ids. -/
theorem mem_performAll_signals {ps : List (Proc Name)} {pid : Int} {path : Path Name} :
    ⟨pid, path, false⟩ ∈ performAll fork trace children (ps.flatMap Proc.signals) ↔
      ⟨pid, path, false⟩ ∈ children ∧ ∀ p ∈ ps, 0 < p.pid_ → p.pid_ ≠ pid := by
  induction ps generalizing trace children with
  | nil => simp [performAll]
  | cons p ps ih =>
    rw [List.flatMap_cons, performAll_append, ih, List.forall_mem_cons, ← and_assoc]
    refine and_congr_left fun _ => ?_
    unfold Proc.signals
    by_cases hp : 0 < p.pid_
    · rw [if_pos hp]
      simp only [performAll, perform, List.mem_map]
      constructor
      · rintro ⟨c, hc, heq⟩
        split at heq
        · cases heq
        · rename_i hne
          subst heq
          exact ⟨hc, fun _ => Ne.symm hne⟩
      · rintro ⟨hc, hne⟩
        exact ⟨_, hc, if_neg (Ne.symm (hne hp))⟩
    · rw [if_neg hp]
      simp [performAll, hp]

theorem mem_signals {p : Proc Name} {pid : Int} {sig : Signal} (h : .kill pid sig ∈ p.signals) :
    0 < p.pid_ ∧ p.pid_ = pid := by
  unfold Proc.signals at h
  split at h
  · rename_i hpos
    rcases List.mem_cons.mp h with h | h
    · cases h
      exact ⟨hpos, rfl⟩
    · cases List.mem_singleton.mp h
      exact ⟨hpos, rfl⟩
  · cases h

theorem spawn_not_mem_signals (p : Proc Name) (file : Path Name) : .spawn file ∉ p.signals := by
  unfold Proc.signals
  split <;> simp

/-- No two processes of the list have an id in common. -/
theorem Supervised.pid_inj {s : Supervisor Name} (h : Supervised s) {p q : Proc Name}
    (hp : p ∈ s.procs) (hq : q ∈ s.procs) (hpos : 0 < p.pid_) (heq : p.pid_ = q.pid_) : p = q := by
  have hcp : ⟨p.pid_, p.path_, false⟩ ∈ s.children := (h.live _ _).mpr ⟨hpos, hp⟩
  have hcq : ⟨q.pid_, q.path_, false⟩ ∈ s.children := (h.live _ _).mpr ⟨heq ▸ hpos, hq⟩
  have hsame := List.inj_on_of_nodup_map h.pids hcp hcq heq
  exact List.inj_on_of_nodup_map h.paths hp hq (congrArg Child.path hsame)

theorem crashAll_absent {pid : Int} {ps : List (Proc Name)} (h : ∀ p ∈ ps, p.pid_ ≠ pid) :
    crashAll fork pid ps trace = (ps, trace) := by
  induction ps with
  | nil => rfl
  | cons p ps ih =>
    obtain ⟨hp, hps⟩ := List.forall_mem_cons.mp h
    rw [crashAll, crash, if_neg hp, ih hps]

/-- The process that was waited for is signalled and started again, where it stands. -/
theorem crashAll_present {pid : Int} {l l' : List (Proc Name)} {p : Proc Name} (hpos : 0 < pid)
    (hp : p.pid_ = pid) (hl : ∀ q ∈ l, q.pid_ ≠ pid) (hl' : ∀ q ∈ l', q.pid_ ≠ pid) :
    crashAll fork pid (l ++ p :: l') trace =
      (l ++ ((Proc.ofPath p.path_).start fork (trace ++ p.signals)).1 :: l',
        trace ++ (p.signals ++ [.spawn p.path_])) := by
  induction l with
  | nil =>
    have hstop : p.stop trace = (Proc.ofPath p.path_, trace ++ p.signals) := by
      rw [Proc.stop, Proc.signals, if_pos (hp ▸ hpos), if_pos (hp ▸ hpos)]
      rfl
    rw [List.nil_append, crashAll, crash, if_pos hp, hstop, crashAll_absent hl', ← List.append_assoc]
    rfl
  | cons q l ih =>
    obtain ⟨hq, hl⟩ := List.forall_mem_cons.mp hl
    rw [List.cons_append, crashAll, crash, if_neg hq, ih hl]
    rfl

/-! ## A check -/

/-- A process that is started, with the id that `fork` gave. -/
theorem start_ofPath {f path : Path Name} {pid : Int} :
    0 < pid ∧ ⟨path, pid⟩ = ((Proc.ofPath f).start fork trace).1 ↔
      0 < fork trace ∧ (⟨pid, path, false⟩ : Child Name) = ⟨fork trace, f, false⟩ := by
  unfold Proc.start Proc.ofPath
  dsimp only
  by_cases hf : 0 < fork trace
  · rw [if_pos hf, Proc.mk.injEq, Child.mk.injEq]
    constructor
    · rintro ⟨_, rfl, rfl⟩
      exact ⟨hf, rfl, rfl, rfl⟩
    · rintro ⟨_, rfl, rfl, _⟩
      exact ⟨hf, rfl, rfl⟩
  · rw [if_neg hf, Proc.mk.injEq]
    constructor
    · rintro ⟨hpid, _, rfl⟩
      exact absurd hpid (Int.lt_irrefl 0)
    · intro h
      exact absurd h.1 hf

variable [DecidableEq Name]

/-- The list after a check: the processes whose files are still there, and those of the
new files. -/
theorem mem_checked {fs : List (Path Name)} {procs : List (Proc Name)}
    {result : List (Proc Name) × List (Effect Name)}
    (hspec : Checked fork fs procs trace result) (hfs : fs.Nodup) {q : Proc Name} :
    q ∈ result.1 ↔ (q ∈ procs ∧ q.path_ ∈ fs) ∨
      ∃ before f after, newFiles procs fs = before ++ f :: after ∧
        q = ((Proc.ofPath f).start fork (trace ++ before.map .spawn)).1 := by
  have hinj : ∀ {p p'}, p ∈ result.1 → p' ∈ result.1 → p.path_ = p'.path_ → p = p' := by
    intro p p' hp hp'
    exact List.inj_on_of_nodup_map (hspec.listed ▸ hfs) hp hp'
  constructor
  · intro hq
    have hpath : q.path_ ∈ fs := hspec.listed ▸ List.mem_map_of_mem hq
    by_cases hold : q.path_ ∈ procs.map Proc.path_
    · obtain ⟨p, hp, hpq⟩ := List.mem_map.mp hold
      rw [hinj hq (hspec.kept p hp (hpq ▸ hpath)) hpq.symm]
      exact .inl ⟨hp, hpq ▸ hpath⟩
    · obtain ⟨before, after, rfl⟩ := List.append_of_mem hpath
      have hstarted := hspec.started before q.path_ after rfl hold
      refine .inr ⟨newFiles procs before, q.path_, newFiles procs after, ?_, ?_⟩
      · rw [newFiles, List.filter_append]
        exact congrArg _ (newFiles_cons_new hold)
      · exact hinj hq hstarted (Proc.start_path fork (Proc.ofPath q.path_) _).symm
  · rintro (⟨hq, hpath⟩ | ⟨before, f, after, hsplit, rfl⟩)
    · exact hspec.kept q hq hpath
    · obtain ⟨l, l', rfl, rfl, htail⟩ := List.filter_eq_append_iff.mp hsplit
      obtain ⟨m, m', rfl, hm, hf, _⟩ := List.filter_eq_cons_iff.mp htail
      have hbefore : newFiles procs (l ++ m) = newFiles procs l := by
        rw [newFiles, List.filter_append, List.filter_eq_nil_iff.mpr hm, List.append_nil]
        rfl
      have hstarted := hspec.started (l ++ m) f m' (List.append_assoc l m _).symm
        (of_decide_eq_true hf)
      rw [hbefore] at hstarted
      exact hstarted

variable {path : Path Name} {s t : Supervisor Name}

/-- What a check asks for. -/
theorem check_effects {node : Node Name} {procs : List (Proc Name)} {effects : List (Effect Name)}
    (h : Supervised s) (hwalk : (files path node).Nodup)
    (hcheck : checkProcs fork path node s.procs s.trace = (procs, s.trace ++ effects)) :
    Checked fork (files path node) s.procs s.trace (procs, s.trace ++ effects) ∧
    effects = (newFiles s.procs (files path node)).map .spawn ++
      (vanished s.procs (files path node)).flatMap Proc.signals := by
  have hspec := checkProcs_spec fork path node s.procs s.trace hwalk h.paths
  rw [hcheck] at hspec
  have heffects := hspec.effects
  rw [List.append_assoc] at heffects
  exact ⟨hspec, List.append_cancel_left heffects⟩

theorem supervised_check {node : Node Name} (h : Supervised s)
    (hstep : Supervise path s (.check node) t) : Supervised t := by
  cases hstep with
  | check hturn hwalk hcheck hfresh =>
    rename_i fork procs effects
    obtain ⟨hspec, rfl⟩ := check_effects h hwalk hcheck
    obtain ⟨hpids, hpos⟩ := pids_performAll hfresh h.pids h.positive
    obtain ⟨hstarted, _⟩ := pids_performAll hfresh.append.1 h.pids h.positive
    refine ⟨?_, hpids, hpos, fun pid file => ?_⟩
    · exact hspec.listed ▸ hwalk
    · dsimp only
      rw [performAll_append, mem_performAll_signals, mem_checked hspec hwalk]
      have hnew : ∀ {before f after}, newFiles s.procs (files path node) = before ++ f :: after →
          f ∈ files path node := by
        intro before f after hsplit
        have hmem : f ∈ newFiles s.procs (files path node) := by
          rw [hsplit]
          exact List.mem_append_right _ List.mem_cons_self
        exact (List.mem_filter.mp hmem).1
      -- the two ways in which a child is there are the two in which a process is listed
      have hways : ⟨pid, file, false⟩ ∈ performAll fork s.trace s.children
            ((newFiles s.procs (files path node)).map .spawn) ∧ file ∈ files path node ↔
          0 < pid ∧ ((⟨file, pid⟩ ∈ s.procs ∧ file ∈ files path node) ∨
            ∃ before f after, newFiles s.procs (files path node) = before ++ f :: after ∧
              ⟨file, pid⟩ = ((Proc.ofPath f).start fork (s.trace ++ before.map .spawn)).1) := by
        rw [mem_performAll_spawn, h.live]
        constructor
        · rintro ⟨⟨hpid, hp⟩ | ⟨before, f, after, hsplit, hf⟩, hfile⟩
          · exact ⟨hpid, .inl ⟨hp, hfile⟩⟩
          · obtain ⟨hpid, hp⟩ := start_ofPath.mpr hf
            exact ⟨hpid, .inr ⟨before, f, after, hsplit, hp⟩⟩
        · rintro ⟨hpid, ⟨hp, hfile⟩ | ⟨before, f, after, hsplit, hp⟩⟩
          · exact ⟨.inl ⟨hpid, hp⟩, hfile⟩
          · have hf := start_ofPath.mp ⟨hpid, hp⟩
            have hfile : file = f := congrArg Child.path hf.2
            exact ⟨.inr ⟨before, f, after, hsplit, hf⟩, hfile ▸ hnew hsplit⟩
      rw [← hways]
      refine and_congr_right fun hchild => ⟨fun hkept => ?_, fun hfile p hp hpid heq => ?_⟩
      · rcases mem_performAll_spawn.mp hchild with hc | ⟨before, f, after, hsplit, hf⟩
        · obtain ⟨hpid, hp⟩ := (h.live _ _).mp hc
          by_contra hfile
          exact hkept ⟨file, pid⟩ (mem_vanished.mpr ⟨hp, hfile⟩) hpid rfl
        · have hfile : file = f := congrArg Child.path hf.2
          exact hfile ▸ hnew hsplit
      · obtain ⟨hp, hgone⟩ := mem_vanished.mp hp
        have hc : ⟨p.pid_, p.path_, false⟩ ∈ s.children := (h.live _ _).mpr ⟨hpid, hp⟩
        have hsame := List.inj_on_of_nodup_map hstarted (mem_performAll_spawn.mpr (.inl hc)) hchild
          heq
        have hpath : p.path_ = file := congrArg Child.path hsame
        exact hgone (hpath ▸ hfile)

/-! ## After a wait -/

/-- What a wait leads to. Either no process of the list has the id, or one has it. -/
theorem waited_cases {pid : Int} (h : Supervised s) (hstep : Supervise path s (.waited pid) t) :
    0 < pid ∧ ∃ fork : List (Effect Name) → Int, ((∀ p ∈ s.procs, p.pid_ ≠ pid) ∧
        t = ⟨s.procs, s.trace, s.children.filter fun c => c.pid ≠ pid, false⟩ ∨
      ∃ l p l', s.procs = l ++ p :: l' ∧ p.pid_ = pid ∧ (∀ q ∈ l ++ l', q.pid_ ≠ pid) ∧
        Fresh fork s.trace (s.children.filter fun c => c.pid ≠ pid)
          (p.signals ++ [.spawn p.path_]) ∧
        t = ⟨l ++ ((Proc.ofPath p.path_).start fork (s.trace ++ p.signals)).1 :: l',
          s.trace ++ (p.signals ++ [.spawn p.path_]),
          performAll fork s.trace (s.children.filter fun c => c.pid ≠ pid)
            (p.signals ++ [.spawn p.path_]), false⟩) := by
  cases hstep with
  | waited hturn hpid hcrash hfresh =>
    rename_i fork procs effects
    obtain ⟨c, hc, rfl⟩ := List.mem_map.mp hpid
    have hpos := h.positive c hc
    refine ⟨hpos, fork, ?_⟩
    by_cases hany : ∃ p ∈ s.procs, p.pid_ = c.pid
    · right
      obtain ⟨p, hp, hpid⟩ := hany
      obtain ⟨l, l', hsplit⟩ := List.append_of_mem hp
      have hothers : ∀ q ∈ l ++ l', q.pid_ ≠ c.pid := by
        intro q hq hqpid
        have hmem : q ∈ s.procs := by
          rw [hsplit]
          exact List.perm_middle.mem_iff.mpr (List.mem_cons_of_mem _ hq)
        have hsame : q = p := h.pid_inj hmem hp (hqpid ▸ hpos) (hqpid.trans hpid.symm)
        have hnodup := (hsplit ▸ h.paths).of_map
        exact (List.nodup_middle.mp hnodup).notMem (hsame ▸ hq)
      have hall : crashAll fork c.pid (l ++ p :: l') s.trace = _ := crashAll_present hpos hpid
        (fun q hq => hothers q (List.mem_append_left _ hq))
        (fun q hq => hothers q (List.mem_append_right _ hq))
      rw [← hsplit, hcrash, Prod.mk.injEq] at hall
      obtain ⟨rfl, heffects⟩ := hall
      obtain rfl := List.append_cancel_left heffects
      exact ⟨l, p, l', hsplit, hpid, hothers, hfresh, rfl⟩
    · left
      have hnone : ∀ p ∈ s.procs, p.pid_ ≠ c.pid := fun p hp hpid => hany ⟨p, hp, hpid⟩
      rw [crashAll_absent hnone, Prod.mk.injEq] at hcrash
      obtain ⟨rfl, htrace⟩ := hcrash
      have hnil : effects = [] := by simpa using htrace
      subst hnil
      exact ⟨hnone, by rw [List.append_nil]; rfl⟩

theorem supervised_waited {pid : Int} (h : Supervised s)
    (hstep : Supervise path s (.waited pid) t) : Supervised t := by
  obtain ⟨hpos, fork, hcases⟩ := waited_cases h hstep
  have hrest : ((s.children.filter fun c => c.pid ≠ pid).map Child.pid).Nodup :=
    (List.filter_sublist.map _).nodup h.pids
  have hrestpos : ∀ c ∈ s.children.filter fun c => c.pid ≠ pid, 0 < c.pid :=
    fun c hc => h.positive c (List.mem_filter.mp hc).1
  have hlive : ∀ id file, ⟨id, file, false⟩ ∈ (s.children.filter fun c => c.pid ≠ pid) ↔
      0 < id ∧ ⟨file, id⟩ ∈ s.procs ∧ id ≠ pid := by
    intro id file
    rw [List.mem_filter, h.live, and_assoc, decide_eq_true_eq]
  rcases hcases with ⟨hnone, rfl⟩ | ⟨l, p, l', hsplit, hp, hothers, hfresh, rfl⟩
  · refine ⟨h.paths, hrest, hrestpos, fun id file => ?_⟩
    rw [hlive]
    exact and_congr_right fun _ => and_iff_left_of_imp fun hmem => hnone _ hmem
  · obtain ⟨hpids, hpositive⟩ := pids_performAll hfresh hrest hrestpos
    refine ⟨?_, hpids, hpositive, fun id file => ?_⟩
    · have hpaths := h.paths
      rw [hsplit] at hpaths
      rw [List.map_append, List.map_cons] at hpaths ⊢
      rw [Proc.start_path]
      exact hpaths
    · have hspawn : ∀ children : List (Child Name), ⟨id, file, false⟩ ∈
            performAll fork (s.trace ++ p.signals) children [.spawn p.path_] ↔
          ⟨id, file, false⟩ ∈ children ∨
            0 < id ∧ ⟨file, id⟩ = ((Proc.ofPath p.path_).start fork (s.trace ++ p.signals)).1 := by
        intro children
        rw [start_ofPath, performAll, performAll, perform]
        by_cases hf : 0 < fork (s.trace ++ p.signals)
        · simp [hf]
        · simp [hf]
      have hsignals : ⟨id, file, false⟩ ∈ performAll fork s.trace
          (s.children.filter fun c => c.pid ≠ pid) ([p].flatMap Proc.signals) ↔ _ :=
        mem_performAll_signals
      rw [List.flatMap_singleton] at hsignals
      have hmem : ⟨file, id⟩ ∈ s.procs ∧ id ≠ pid ↔ ⟨file, id⟩ ∈ l ++ l' := by
        rw [hsplit, List.perm_middle.mem_iff, List.mem_cons]
        constructor
        · rintro ⟨rfl | hmem, hne⟩
          · exact absurd hp hne
          · exact hmem
        · intro hmem
          exact ⟨.inr hmem, hothers _ hmem⟩
      dsimp only
      rw [performAll_append, hspawn, hsignals, hlive, hmem, List.perm_middle.mem_iff, List.mem_cons,
        List.forall_mem_singleton]
      constructor
      · rintro (⟨⟨hid, hmem⟩, _⟩ | ⟨hid, hq⟩)
        · exact ⟨hid, .inr hmem⟩
        · exact ⟨hid, .inl hq⟩
      · rintro ⟨hid, hq | hq⟩
        · exact .inr ⟨hid, hq⟩
        · exact .inl ⟨⟨hid, hq⟩, fun _ heq => hothers _ hq (heq ▸ hp)⟩

/-! ## The main results -/

theorem supervised_step {ev : Round Name} (h : Supervised s) (hstep : Supervise path s ev t) :
    Supervised t := by
  cases ev with
  | check node => exact supervised_check h hstep
  | waited pid => exact supervised_waited h hstep
  | nothing =>
    cases hstep
    exact ⟨h.paths, h.pids, h.positive, h.live⟩

theorem supervised_run {evs : List (Round Name)} (hrun : Run (Supervise path) .init evs s) :
    Supervised s := by
  have h₀ : Supervised (Supervisor.init : Supervisor Name) :=
    ⟨.nil, .nil, nofun, fun pid file => by simp [Supervisor.init]⟩
  exact hrun.invariant (fun _ _ _ h hstep => supervised_step h hstep) h₀

/-- Whatever the directory holds from check to check and whichever child ends when: the
children that run are those of the list, each for its file, and after a check the list
is the files. A check signals only children that run and whose file is gone. A wait for
a child that had been ended asks for nothing; for any other it signals the id, which is
no longer the child's, and starts the file again. -/
theorem supervised (path : Path Name) {evs : List (Round Name)} {s : Supervisor Name}
    (hrun : Run (Supervise path) .init evs s) :
    Supervised s ∧
    (∀ node t, Supervise path s (.check node) t → t.procs.map Proc.path_ = files path node ∧
      ∃ effects, t.trace = s.trace ++ effects ∧ ∀ pid sig, .kill pid sig ∈ effects →
        ∃ file, ⟨pid, file, false⟩ ∈ s.children ∧ file ∉ files path node) ∧
    ∀ pid t, Supervise path s (.waited pid) t → ∃ c ∈ s.children, c.pid = pid ∧
      t.trace = s.trace ++
        if c.killed then [] else [.kill pid .sigterm, .kill pid .sigkill, .spawn c.path] := by
  have h := supervised_run hrun
  refine ⟨h, fun node t hstep => ?_, fun pid t hstep => ?_⟩
  · cases hstep with
    | check hturn hwalk hcheck hfresh =>
      obtain ⟨hspec, rfl⟩ := check_effects h hwalk hcheck
      refine ⟨hspec.listed, _, rfl, fun pid sig hkill => ?_⟩
      rcases List.mem_append.mp hkill with hkill | hkill
      · obtain ⟨_, _, hspawn⟩ := List.mem_map.mp hkill
        cases hspawn
      · obtain ⟨p, hp, hkill⟩ := List.mem_flatMap.mp hkill
        obtain ⟨hmem, hgone⟩ := mem_vanished.mp hp
        obtain ⟨hpos, rfl⟩ := mem_signals hkill
        exact ⟨p.path_, (h.live _ _).mpr ⟨hpos, hmem⟩, hgone⟩
  · have hmem : pid ∈ s.children.map Child.pid := by
      cases hstep
      assumption
    obtain ⟨hpos, fork, ⟨hnone, rfl⟩ | ⟨l, p, l', hsplit, hp, _, _, rfl⟩⟩ := waited_cases h hstep
    · obtain ⟨c, hc, rfl⟩ := List.mem_map.mp hmem
      refine ⟨c, hc, rfl, ?_⟩
      cases hk : c.killed with
      | true => exact (List.append_nil _).symm
      | false =>
        have hlive := (h.live c.pid c.path).mp (by rw [← hk]; exact hc)
        exact absurd rfl (hnone _ hlive.2)
    · have hlisted : p ∈ s.procs := by
        rw [hsplit]
        exact List.mem_append_right _ List.mem_cons_self
      refine ⟨⟨p.pid_, p.path_, false⟩, (h.live _ _).mpr ⟨hp ▸ hpos, hlisted⟩, hp, ?_⟩
      rw [Proc.signals, if_pos (hp ▸ hpos), hp]
      rfl

/-- One file, whose process is waited for and started again. -/
def oneFile : Node Nat := .directory (.cons 1 .regular .nil)

/-- Ids are given in turn. -/
def nextId (trace : List (Effect Nat)) : Int := 70 + trace.length

def started : Supervisor Nat :=
  ⟨[⟨[0, 1], 70⟩], [.spawn [0, 1]], [⟨70, [0, 1], false⟩], true⟩

def restarted : Supervisor Nat :=
  ⟨[⟨[0, 1], 73⟩],
    [.spawn [0, 1], .kill 70 .sigterm, .kill 70 .sigkill, .spawn [0, 1]],
    [⟨73, [0, 1], false⟩], false⟩

theorem run_restarted : Run (Supervise [0]) .init [.check oneFile, .waited 70] restarted := by
  have hchecked : checkProcs nextId [0] oneFile [] [] =
      ([⟨[0, 1], 70⟩], [] ++ [.spawn [0, 1]]) := by decide
  have hfresh : Fresh nextId [] [] [.spawn [0, 1]] :=
    ⟨fun _ _ _ => List.not_mem_nil, trivial⟩
  have hwalk : (files [0] oneFile).Nodup := by decide
  have hcheck : Supervise [0] .init (.check oneFile) _ := .check rfl hwalk hchecked hfresh
  have hcrashed : crashAll nextId 70 started.procs started.trace = ([⟨[0, 1], 73⟩],
      started.trace ++ [.kill 70 .sigterm, .kill 70 .sigkill, .spawn [0, 1]]) := by decide
  have hwaited : Supervise [0] started (.waited 70) restarted :=
    .waited rfl (by decide) hcrashed ⟨nofun, nofun, fun _ _ _ => by decide, trivial⟩
  exact (Run.single hcheck).snoc hwaited

theorem supervised_restarted : Supervised restarted := (supervised [0] run_restarted).1

/-! ## A start that fails -/

/-- A process that was not started stays as it is while its file is there. -/
theorem not_started_step {ev : Round Name} (h : Supervised s) {p : Proc Name} (hp : p ∈ s.procs)
    (hpid : p.pid_ = 0) (hstep : Supervise path s ev t)
    (hthere : ∀ node, ev = .check node → p.path_ ∈ files path node) :
    p ∈ t.procs ∧ ∃ effects, t.trace = s.trace ++ effects ∧ .spawn p.path_ ∉ effects := by
  cases ev with
  | check node =>
    cases hstep with
    | check hturn hwalk hcheck hfresh =>
      obtain ⟨hspec, rfl⟩ := check_effects h hwalk hcheck
      refine ⟨hspec.kept p hp (hthere node rfl), _, rfl, fun hspawn => ?_⟩
      rcases List.mem_append.mp hspawn with hspawn | hspawn
      · obtain ⟨f, hf, heq⟩ := List.mem_map.mp hspawn
        cases heq
        exact of_decide_eq_true (List.mem_filter.mp hf).2 (List.mem_map_of_mem hp)
      · obtain ⟨q, _, hspawn⟩ := List.mem_flatMap.mp hspawn
        exact spawn_not_mem_signals q _ hspawn
  | waited pid =>
    obtain ⟨hpos, fork, ⟨_, rfl⟩ | ⟨l, q, l', hsplit, hq, _, _, rfl⟩⟩ := waited_cases h hstep
    · exact ⟨hp, [], (List.append_nil _).symm, List.not_mem_nil⟩
    · have hne : p ≠ q := by
        intro heq
        rw [heq] at hpid
        omega
      have hmem : q ∈ s.procs := by
        rw [hsplit]
        exact List.mem_append_right _ List.mem_cons_self
      refine ⟨?_, _, rfl, fun hspawn => ?_⟩
      · rw [hsplit] at hp
        have hothers := (List.mem_cons.mp (List.perm_middle.mem_iff.mp hp)).resolve_left hne
        exact List.perm_middle.mem_iff.mpr (List.mem_cons_of_mem _ hothers)
      · rcases List.mem_append.mp hspawn with hspawn | hspawn
        · exact spawn_not_mem_signals q _ hspawn
        · have hpath : p.path_ = q.path_ := Effect.spawn.inj (List.mem_singleton.mp hspawn)
          exact hne (List.inj_on_of_nodup_map h.paths hp hmem hpath)
  | nothing =>
    cases hstep
    exact ⟨hp, [], (List.append_nil _).symm, List.not_mem_nil⟩

/-- A file for which `fork` has failed once is not started again, however many checks
and waits follow, until a check does not find it. -/
theorem not_started_again (path : Path Name) {evs later : List (Round Name)}
    {s t : Supervisor Name} (hrun : Run (Supervise path) .init evs s) {p : Proc Name}
    (hp : p ∈ s.procs) (hpid : p.pid_ = 0) (hlater : Run (Supervise path) s later t)
    (hthere : ∀ node, .check node ∈ later → p.path_ ∈ files path node) :
    p ∈ t.procs ∧ ∃ effects, t.trace = s.trace ++ effects ∧ .spawn p.path_ ∉ effects := by
  have hguarded := hlater.guarded_of_labels (L := fun ev =>
    ∀ node, ev = .check node → p.path_ ∈ files path node)
    fun ev hev node heq => hthere node (heq ▸ hev)
  have h₀ : Supervised s ∧ p ∈ s.procs ∧
      ∃ effects, s.trace = s.trace ++ effects ∧ .spawn p.path_ ∉ effects :=
    ⟨supervised_run hrun, hp, [], (List.append_nil _).symm, List.not_mem_nil⟩
  refine (hguarded.invariant (P := fun u => Supervised u ∧ p ∈ u.procs ∧
    ∃ effects, u.trace = s.trace ++ effects ∧ .spawn p.path_ ∉ effects) ?_ h₀).2
  rintro u ev v ⟨hu, hmem, effects, htrace, hnot⟩ ⟨hlabel, hstep⟩
  obtain ⟨hkept, more, htrace', hnot'⟩ := not_started_step hu hmem hpid hstep hlabel
  refine ⟨supervised_step hu hstep, hkept, effects ++ more, ?_, ?_⟩
  · rw [htrace', htrace, List.append_assoc]
  · intro hspawn
    rcases List.mem_append.mp hspawn with h | h
    · exact hnot h
    · exact hnot' h

/-- One file, for which `fork` fails. -/
def failed (checked : Bool) : Supervisor Nat := ⟨[⟨[0, 1], 0⟩], [.spawn [0, 1]], [], checked⟩

theorem run_failed : Run (Supervise [0]) .init [.check oneFile] (failed true) := by
  have hchecked : checkProcs (fun _ => -1) [0] oneFile [] [] =
      ([⟨[0, 1], 0⟩], [] ++ [.spawn [0, 1]]) := by decide
  have hfresh : Fresh (fun _ => -1) [] [] [.spawn [0, 1]] :=
    ⟨fun _ _ _ => List.not_mem_nil, trivial⟩
  have hwalk : (files [0] oneFile).Nodup := by decide
  have hcheck : Supervise [0] .init (.check oneFile) _ := .check rfl hwalk hchecked hfresh
  exact Run.single hcheck

theorem run_failed_later : Run (Supervise [0]) (failed true) [.nothing, .check oneFile]
    (failed true) := by
  have hnothing : Supervise [0] (failed true) .nothing (failed false) := .nothing rfl
  have hchecked : checkProcs (fun _ => 70) [0] oneFile (failed false).procs (failed false).trace =
      ((failed false).procs, (failed false).trace ++ []) := by decide
  have hwalk : (files [0] oneFile).Nodup := by decide
  have hcheck : Supervise [0] (failed false) (.check oneFile) (failed true) :=
    .check rfl hwalk hchecked trivial
  exact (Run.single hnothing).snoc hcheck

theorem not_started_again_one :
    ∃ effects, (failed true).trace = (failed true).trace ++ effects ∧
      .spawn [0, 1] ∉ effects := by
  have hthere : ∀ node, Round.check node ∈ [Round.nothing, .check oneFile] →
      (⟨[0, 1], 0⟩ : Proc Nat).path_ ∈ files [0] node := by
    intro node hnode
    rcases List.mem_cons.mp hnode with hnode | hnode
    · cases hnode
    · cases List.mem_singleton.mp hnode
      decide
  exact (not_started_again [0] run_failed (List.mem_singleton.mpr rfl) rfl run_failed_later
    hthere).2

end CppSnippets.Wproc
