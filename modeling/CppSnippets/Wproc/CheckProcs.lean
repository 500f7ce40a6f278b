import Mathlib.Data.List.Basic
import Mathlib.Data.List.Nodup

/-!
# The processes of a directory

`check_procs` walks a directory tree and keeps one process for each regular file in
it. The entries of the last check are moved aside first. A file that has one takes it
over, any other file is started, and what is left aside when the walk is over belongs
to files that have vanished and is stopped.
-/
namespace CppSnippets.Wproc

/-! ## The tree and the walk -/

/-- The elements of a path, which are what its `==` compares. -/
abbrev Path (Name : Type) := List Name

mutual

/-- What a path leads to, a directory with its entries in the order of its iterator. -/
inductive Node (Name : Type)
  | directory (entries : Entries Name)
  | regular
  | other

inductive Entries (Name : Type)
  | nil
  | cons (name : Name) (node : Node Name) (rest : Entries Name)

end

variable {Name σ : Type}

mutual

/-- `walk`, where `fn` changes a state of its caller. -/
def walk (fn : σ → Path Name → σ) (path : Path Name) : Node Name → σ → σ
  | .directory entries, s => walkEntries fn path entries s
  | .regular, s => fn s path
  | .other, s => s

def walkEntries (fn : σ → Path Name → σ) (path : Path Name) : Entries Name → σ → σ
  | .nil, s => s
  | .cons name node rest, s => walkEntries fn path rest (walk fn (path ++ [name]) node s)

end

mutual

/-- The regular files under a path. -/
def files (path : Path Name) : Node Name → List (Path Name)
  | .directory entries => entryFiles path entries
  | .regular => [path]
  | .other => []

def entryFiles (path : Path Name) : Entries Name → List (Path Name)
  | .nil => []
  | .cons name node rest => files (path ++ [name]) node ++ entryFiles path rest

end

mutual

/-- The walk calls `fn` once for each regular file. -/
theorem walk_eq_foldl (fn : σ → Path Name → σ) (path : Path Name) :
    ∀ (node : Node Name) (s : σ), walk fn path node s = (files path node).foldl fn s
  | .directory entries, s => by
    rw [walk, files]
    exact walkEntries_eq_foldl fn path entries s
  | .regular, _ => rfl
  | .other, _ => rfl

theorem walkEntries_eq_foldl (fn : σ → Path Name → σ) (path : Path Name) :
    ∀ (entries : Entries Name) (s : σ),
      walkEntries fn path entries s = (entryFiles path entries).foldl fn s
  | .nil, _ => rfl
  | .cons name node rest, s => by
    rw [walkEntries, entryFiles, List.foldl_append, walk_eq_foldl fn (path ++ [name]) node s]
    exact walkEntries_eq_foldl fn path rest _

end

/-! ## Processes -/

structure Proc (Name : Type) where
  path_ : Path Name
  pid_ : Int
  deriving DecidableEq

inductive Signal
  | sigterm
  | sigkill
  deriving DecidableEq

/-- What the program asks of the system. -/
inductive Effect (Name : Type)
  | spawn (path : Path Name)
  | kill (pid : Int) (sig : Signal)
  deriving DecidableEq

/-- `proc(path)`. -/
def Proc.ofPath (path : Path Name) : Proc Name := ⟨path, 0⟩

/-- `proc::start`; `fork` answers by what was asked so far. -/
def Proc.start (fork : List (Effect Name) → Int) (p : Proc Name) (trace : List (Effect Name)) :
    Proc Name × List (Effect Name) :=
  let pid := fork trace
  (if 0 < pid then { p with pid_ := pid } else p, trace ++ [.spawn p.path_])

/-- `proc::stop`. -/
def Proc.stop (p : Proc Name) (trace : List (Effect Name)) : Proc Name × List (Effect Name) :=
  if 0 < p.pid_ then
    ({ p with pid_ := 0 }, trace ++ [.kill p.pid_ .sigterm, .kill p.pid_ .sigkill])
  else (p, trace)

theorem Proc.start_path (fork : List (Effect Name) → Int) (p : Proc Name)
    (trace : List (Effect Name)) : (p.start fork trace).1.path_ = p.path_ := by
  unfold Proc.start
  dsimp only
  split <;> rfl

/-- The signals by which a process is stopped. -/
def Proc.signals (p : Proc Name) : List (Effect Name) :=
  if 0 < p.pid_ then [.kill p.pid_ .sigterm, .kill p.pid_ .sigkill] else []

theorem Proc.stop_trace (p : Proc Name) (trace : List (Effect Name)) :
    (p.stop trace).2 = trace ++ p.signals := by
  unfold Proc.stop Proc.signals
  split
  · rfl
  · exact (List.append_nil trace).symm

theorem foldl_stop (ps : List (Proc Name)) (trace : List (Effect Name)) :
    ps.foldl (fun tr p => (p.stop tr).2) trace = trace ++ ps.flatMap Proc.signals := by
  induction ps generalizing trace with
  | nil => exact (List.append_nil trace).symm
  | cons p ps ih => rw [List.foldl_cons, ih, Proc.stop_trace, List.flatMap_cons, List.append_assoc]

/-! ## One check -/

/-- The lists while the walk goes on. -/
structure Checking (Name : Type) where
  oldps : List (Proc Name)
  procs : List (Proc Name)
  trace : List (Effect Name)

variable [DecidableEq Name] {fork : List (Effect Name) → Int}

/-- What `check_procs` does for one regular file. -/
def visit (fork : List (Effect Name) → Int) (s : Checking Name) (path : Path Name) :
    Checking Name :=
  match s.oldps.find? (fun p => p.path_ = path) with
  | none =>
    let started := (Proc.ofPath path).start fork s.trace
    { s with procs := s.procs ++ [started.1], trace := started.2 }
  | some i =>
    { s with procs := s.procs ++ [i], oldps := s.oldps.eraseP fun p => p.path_ = path }

/-- `check_procs`: the new list, and what was asked of the system. -/
def checkProcs (fork : List (Effect Name) → Int) (path : Path Name) (node : Node Name)
    (procs : List (Proc Name)) (trace : List (Effect Name)) :
    List (Proc Name) × List (Effect Name) :=
  let s := walk (visit fork) path node ⟨procs, [], trace⟩
  (s.procs, s.oldps.foldl (fun tr p => (p.stop tr).2) s.trace)

/-- The files that have no process yet. -/
def newFiles (old : List (Proc Name)) (fs : List (Path Name)) : List (Path Name) :=
  fs.filter fun f => f ∉ old.map Proc.path_

/-- The processes whose file is gone. -/
def vanished (old : List (Proc Name)) (fs : List (Path Name)) : List (Proc Name) :=
  old.filter fun p => p.path_ ∉ fs

variable {s : Checking Name} {f : Path Name} {fs : List (Path Name)} {old : List (Proc Name)}

theorem visit_new (hf : f ∉ s.oldps.map Proc.path_) :
    visit fork s f = { s with
      procs := s.procs ++ [((Proc.ofPath f).start fork s.trace).1]
      trace := s.trace ++ [.spawn f] } := by
  have hfind : s.oldps.find? (fun p => p.path_ = f) = none := by
    rw [List.find?_eq_none]
    intro p hp hpath
    exact hf (List.mem_map.mpr ⟨p, hp, of_decide_eq_true hpath⟩)
  rw [visit, hfind]
  rfl

/-- Erasing the entry of a path leaves the entries of all others. -/
theorem eraseP_path (hold : (old.map Proc.path_).Nodup) :
    old.eraseP (fun p => p.path_ = f) = vanished old [f] := by
  induction old with
  | nil => rfl
  | cons p old ih =>
    obtain ⟨hp, hold⟩ := List.nodup_cons.mp hold
    by_cases hpf : p.path_ = f
    · have hothers : vanished old [f] = old := by
        refine List.filter_eq_self.mpr fun q hq => decide_eq_true ?_
        intro hqf
        rw [List.mem_singleton, ← hpf] at hqf
        exact hp (List.mem_map.mpr ⟨q, hq, hqf⟩)
      rw [List.eraseP_cons_of_pos (by simp [hpf])]
      rw [vanished, List.filter_cons_of_neg (by simp [hpf])]
      exact hothers.symm
    · rw [List.eraseP_cons_of_neg (by simp [hpf]), ih hold]
      rw [vanished, vanished, List.filter_cons_of_pos (by simp [hpf])]

theorem visit_present (hold : (s.oldps.map Proc.path_).Nodup) {p : Proc Name} (hp : p ∈ s.oldps) :
    visit fork s p.path_ = { s with
      procs := s.procs ++ [p], oldps := vanished s.oldps [p.path_] } := by
  have hfind : s.oldps.find? (fun q => q.path_ = p.path_) = some p := by
    cases hq : s.oldps.find? (fun q => q.path_ = p.path_) with
    | none => exact absurd (decide_eq_true rfl) (List.find?_eq_none.mp hq p hp)
    | some q =>
      have hpath : q.path_ = p.path_ := by simpa using List.find?_some hq
      have hmem : q ∈ s.oldps := List.mem_of_find?_eq_some hq
      rw [List.inj_on_of_nodup_map hold hmem hp hpath]
  rw [visit, hfind, ← eraseP_path hold]

/-! ## The walk over the files -/

theorem mem_vanished {p : Proc Name} : p ∈ vanished old fs ↔ p ∈ old ∧ p.path_ ∉ fs := by
  rw [vanished, List.mem_filter, decide_eq_true_eq]

theorem vanished_vanished (f : Path Name) (fs : List (Path Name)) (old : List (Proc Name)) :
    vanished (vanished old [f]) fs = vanished old (f :: fs) := by
  rw [vanished, vanished, vanished, List.filter_filter]
  refine List.filter_congr fun p _ => ?_
  rw [← Bool.decide_and, decide_eq_decide, List.mem_singleton, List.mem_cons, not_or]
  exact and_comm

theorem vanished_paths (hold : (old.map Proc.path_).Nodup) :
    ((vanished old fs).map Proc.path_).Nodup :=
  List.Nodup.sublist (List.filter_sublist.map Proc.path_) hold

/-- Which files are new does not depend on the entry of a file that is not among them. -/
theorem newFiles_vanished (hf : f ∉ fs) : newFiles (vanished old [f]) fs = newFiles old fs := by
  refine List.filter_congr fun g hg => decide_eq_decide.mpr (not_congr ?_)
  simp only [List.mem_map, mem_vanished, List.mem_singleton]
  constructor
  · intro ⟨p, hp, hpath⟩
    exact ⟨p, hp.1, hpath⟩
  · intro ⟨p, hp, hpath⟩
    refine ⟨p, ⟨hp, ?_⟩, hpath⟩
    intro hpf
    rw [← hpf, hpath] at hf
    exact hf hg

theorem newFiles_cons_new (hf : f ∉ old.map Proc.path_) :
    newFiles old (f :: fs) = f :: newFiles old fs :=
  List.filter_cons_of_pos (decide_eq_true hf)

theorem newFiles_cons_present (hf : f ∈ old.map Proc.path_) :
    newFiles old (f :: fs) = newFiles old fs :=
  List.filter_cons_of_neg (by simpa using hf)

/-- What the walk over some files has done, against the lists before it. -/
structure Walked (fork : List (Effect Name) → Int) (fs : List (Path Name))
    (s t : Checking Name) : Prop where
  listed : t.procs.map Proc.path_ = s.procs.map Proc.path_ ++ fs
  aside : t.oldps = vanished s.oldps fs
  earlier : ∀ p ∈ s.procs, p ∈ t.procs
  kept : ∀ p ∈ s.oldps, p.path_ ∈ fs → p ∈ t.procs
  started : ∀ before f after, fs = before ++ f :: after → f ∉ s.oldps.map Proc.path_ →
    ((Proc.ofPath f).start fork (s.trace ++ (newFiles s.oldps before).map .spawn)).1 ∈ t.procs
  trace : t.trace = s.trace ++ (newFiles s.oldps fs).map .spawn

/-- A first file that is new, then the others. -/
theorem Walked.cons_new {t : Checking Name} (hf : f ∉ s.oldps.map Proc.path_)
    (h : Walked fork fs (visit fork s f) t) : Walked fork (f :: fs) s t := by
  rw [visit_new hf] at h
  constructor
  · rw [h.listed, List.map_append, List.append_assoc]
    show _ ++ ([((Proc.ofPath f).start fork s.trace).1.path_] ++ fs) = _
    rw [Proc.start_path]
    rfl
  · rw [h.aside, ← vanished_vanished]
    congr 1
    refine (List.filter_eq_self.mpr fun p hp => decide_eq_true ?_).symm
    intro hpf
    exact hf (List.mem_map.mpr ⟨p, hp, List.mem_singleton.mp hpf⟩)
  · intro p hp
    exact h.earlier p (List.mem_append_left _ hp)
  · intro p hp hpath
    have hne : p.path_ ≠ f := fun hpf => hf (List.mem_map.mpr ⟨p, hp, hpf⟩)
    exact h.kept p hp (List.mem_of_ne_of_mem hne hpath)
  · intro before g after hfs hg
    cases before with
    | nil =>
      obtain ⟨rfl, rfl⟩ := List.cons.inj hfs
      have hnone : (newFiles s.oldps []).map Effect.spawn = [] := rfl
      rw [hnone, List.append_nil]
      exact h.earlier _ (List.mem_append_right _ (List.mem_singleton.mpr rfl))
    | cons b before =>
      obtain ⟨rfl, hrest⟩ := List.cons.inj hfs
      have hlater := h.started before g after hrest hg
      rw [newFiles_cons_new hf, List.map_cons]
      rwa [List.append_assoc] at hlater
  · rw [h.trace, newFiles_cons_new hf, List.map_cons, List.append_assoc]
    rfl

/-- A first file that has a process, then the others. -/
theorem Walked.cons_present {t : Checking Name} (hold : (s.oldps.map Proc.path_).Nodup)
    {p : Proc Name} (hp : p ∈ s.oldps) (hfs : p.path_ ∉ fs)
    (h : Walked fork fs (visit fork s p.path_) t) : Walked fork (p.path_ :: fs) s t := by
  rw [visit_present hold hp] at h
  have hpaths : p.path_ ∈ s.oldps.map Proc.path_ := List.mem_map_of_mem hp
  constructor
  · rw [h.listed, List.map_append, List.append_assoc]
    rfl
  · rw [h.aside]
    exact vanished_vanished _ _ _
  · intro q hq
    exact h.earlier q (List.mem_append_left _ hq)
  · intro q hq hpath
    by_cases hqp : q.path_ = p.path_
    · rw [List.inj_on_of_nodup_map hold hq hp hqp]
      exact h.earlier p (List.mem_append_right _ (List.mem_singleton.mpr rfl))
    · have hqs : q ∈ vanished s.oldps [p.path_] :=
        mem_vanished.mpr ⟨hq, fun hm => hqp (List.mem_singleton.mp hm)⟩
      exact h.kept q hqs (List.mem_of_ne_of_mem hqp hpath)
  · intro before g after hsplit hg
    cases before with
    | nil =>
      obtain ⟨rfl, -⟩ := List.cons.inj hsplit
      exact absurd hpaths hg
    | cons b before =>
      obtain ⟨rfl, hrest⟩ := List.cons.inj hsplit
      have hg' : g ∉ (vanished s.oldps [p.path_]).map Proc.path_ := by
        intro hm
        obtain ⟨q, hq, rfl⟩ := List.mem_map.mp hm
        exact hg (List.mem_map_of_mem (mem_vanished.mp hq).1)
      have hbefore : p.path_ ∉ before := by
        intro hm
        rw [hrest] at hfs
        exact hfs (List.mem_append_left _ hm)
      have hlater := h.started before g after hrest hg'
      rw [newFiles_cons_present hpaths]
      rwa [newFiles_vanished hbefore] at hlater
  · rw [h.trace, newFiles_cons_present hpaths, newFiles_vanished hfs]

theorem foldl_visit (hfs : fs.Nodup) (hold : (s.oldps.map Proc.path_).Nodup) :
    Walked fork fs s (fs.foldl (visit fork) s) := by
  induction fs generalizing s with
  | nil =>
    constructor
    · exact (List.append_nil _).symm
    · exact (List.filter_eq_self.mpr fun _ _ => rfl).symm
    · exact fun _ hp => hp
    · intro _ _ hp
      cases hp
    · intro before g after hsplit
      exact absurd hsplit.symm (List.append_ne_nil_of_right_ne_nil _ (List.cons_ne_nil _ _))
    · exact (List.append_nil _).symm
  | cons f fs ih =>
    obtain ⟨hf, hrest⟩ := List.nodup_cons.mp hfs
    rw [List.foldl_cons]
    by_cases hnew : f ∈ s.oldps.map Proc.path_
    · obtain ⟨p, hp, rfl⟩ := List.mem_map.mp hnew
      refine Walked.cons_present hold hp hf (ih hrest ?_)
      rw [visit_present hold hp]
      exact vanished_paths hold
    · refine Walked.cons_new hnew (ih hrest ?_)
      rw [visit_new hnew]
      exact hold

/-! ## A check as a whole -/

/-- The processes of a directory are those of its files, old and new. -/
structure Checked (fork : List (Effect Name) → Int) (fs : List (Path Name))
    (procs : List (Proc Name)) (trace : List (Effect Name))
    (result : List (Proc Name) × List (Effect Name)) : Prop where
  listed : result.1.map Proc.path_ = fs
  kept : ∀ p ∈ procs, p.path_ ∈ fs → p ∈ result.1
  started : ∀ before f after, fs = before ++ f :: after → f ∉ procs.map Proc.path_ →
    ((Proc.ofPath f).start fork (trace ++ (newFiles procs before).map .spawn)).1 ∈ result.1
  effects : result.2 = trace ++ (newFiles procs fs).map .spawn ++
    (vanished procs fs).flatMap Proc.signals

theorem checkProcs_spec (fork : List (Effect Name) → Int) (path : Path Name) (node : Node Name)
    (procs : List (Proc Name)) (trace : List (Effect Name)) (hwalk : (files path node).Nodup)
    (hprocs : (procs.map Proc.path_).Nodup) :
    Checked fork (files path node) procs trace (checkProcs fork path node procs trace) := by
  have h : Walked fork (files path node) ⟨procs, [], trace⟩ _ := foldl_visit hwalk hprocs
  rw [checkProcs, walk_eq_foldl]
  constructor
  · exact h.listed
  · exact h.kept
  · exact h.started
  · dsimp only
    rw [foldl_stop, h.aside, h.trace]

/-- A directory with a file that has a process and a directory below it with a new one. -/
def someTree : Node Nat :=
  .directory (.cons 1 .regular (.cons 2 (.directory (.cons 3 .regular (.cons 4 .other .nil))) .nil))

def someProcs : List (Proc Nat) := [⟨[0, 9], 60⟩, ⟨[0, 1], 50⟩]

theorem checkProcs_some :
    Checked (fun _ => 70) (files [0] someTree) someProcs []
        (checkProcs (fun _ => 70) [0] someTree someProcs []) ∧
      checkProcs (fun _ => 70) [0] someTree someProcs [] =
        ([⟨[0, 1], 50⟩, ⟨[0, 2, 3], 70⟩],
          [.spawn [0, 2, 3], .kill 60 .sigterm, .kill 60 .sigkill]) :=
  ⟨checkProcs_spec (fun _ => 70) [0] someTree someProcs [] (by decide) (by decide), by decide⟩

end CppSnippets.Wproc
