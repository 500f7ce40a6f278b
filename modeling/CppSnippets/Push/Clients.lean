import Mathlib.Data.List.Basic
import Mathlib.Data.List.Nodup
import Mathlib.Data.List.Perm.Basic
import Mathlib.Data.List.TakeWhile

/-!
# The queues of the clients

Every client that has sent something has an entry with its messages, shared by the
handler of its connection and the list of the upstream side. A message is known by
the number at which it came in.
-/
namespace CppSnippets.Push

abbrev Client := Nat

/-- `push_data`. -/
structure PushData where
  client : Client
  connected : Bool
  data : List Nat
  deriving DecidableEq

/-- `append` to the entry of a client, which its first message puts at the end. -/
def post (c : Client) (msg : Nat) : List PushData → List PushData
  | [] => [⟨c, true, [msg]⟩]
  | d :: bufs =>
    if d.client = c then { d with data := d.data ++ [msg] } :: bufs else d :: post c msg bufs

/-- `disconnect` of the entry of a client; an error before any message leaves one. -/
def hangUp (c : Client) : List PushData → List PushData
  | [] => [⟨c, false, []⟩]
  | d :: bufs => if d.client = c then { d with connected := false } :: bufs else d :: hangUp c bufs

/-- The first entry that has a message goes to the front. -/
def splice (bufs : List PushData) : List PushData :=
  match bufs.dropWhile fun d => d.data.isEmpty with
  | [] => bufs
  | d :: rest => d :: ((bufs.takeWhile fun d => d.data.isEmpty) ++ rest)

/-- All messages of the entries. -/
def queued (bufs : List PushData) : List Nat := bufs.flatMap PushData.data

variable {c : Client} {msg : Nat} {d : PushData} {bufs rest : List PushData}

theorem queued_post (c : Client) (msg : Nat) (bufs : List PushData) :
    (queued (post c msg bufs)).Perm (msg :: queued bufs) := by
  induction bufs with
  | nil => exact List.Perm.refl _
  | cons d bufs ih =>
    rw [post]
    by_cases hd : d.client = c
    · rw [if_pos hd]
      show (d.data ++ [msg] ++ queued bufs).Perm (msg :: (d.data ++ queued bufs))
      rw [List.append_assoc]
      exact List.perm_middle
    · rw [if_neg hd]
      show (d.data ++ queued (post c msg bufs)).Perm (msg :: (d.data ++ queued bufs))
      exact (ih.append_left d.data).trans List.perm_middle

theorem queued_hangUp (c : Client) (bufs : List PushData) : queued (hangUp c bufs) = queued bufs := by
  induction bufs with
  | nil => rfl
  | cons d bufs ih =>
    rw [hangUp]
    by_cases hd : d.client = c
    · rw [if_pos hd]
      rfl
    · rw [if_neg hd]
      exact congrArg (d.data ++ ·) ih

/-- The entry in front stays in front, and its messages stay its first ones. -/
theorem post_front (c : Client) (msg : Nat) (d : PushData) (bufs : List PushData) :
    ∃ d' bufs', post c msg (d :: bufs) = d' :: bufs' ∧ d'.client = d.client ∧
      d'.connected = d.connected ∧ d.data <+: d'.data := by
  rw [post]
  by_cases hd : d.client = c
  · exact ⟨_, _, if_pos hd, rfl, rfl, List.prefix_append _ _⟩
  · exact ⟨_, _, if_neg hd, rfl, rfl, List.prefix_rfl⟩

theorem hangUp_front (c : Client) (d : PushData) (bufs : List PushData) :
    ∃ d' bufs', hangUp c (d :: bufs) = d' :: bufs' ∧ d'.client = d.client ∧ d'.data = d.data := by
  rw [hangUp]
  by_cases hd : d.client = c
  · exact ⟨_, _, if_pos hd, rfl, rfl⟩
  · exact ⟨_, _, if_neg hd, rfl, rfl⟩

theorem post_clients (c : Client) (msg : Nat) (bufs : List PushData) :
    (post c msg bufs).map PushData.client = bufs.map PushData.client ∨
      c ∉ bufs.map PushData.client ∧
        (post c msg bufs).map PushData.client = bufs.map PushData.client ++ [c] := by
  induction bufs with
  | nil => exact .inr ⟨List.not_mem_nil, rfl⟩
  | cons d bufs ih =>
    rw [post]
    by_cases hd : d.client = c
    · rw [if_pos hd]
      exact .inl rfl
    · rw [if_neg hd, List.map_cons, List.map_cons]
      rcases ih with ih | ⟨hnot, ih⟩
      · exact .inl (congrArg _ ih)
      · refine .inr ⟨?_, congrArg _ ih⟩
        rw [List.mem_cons, not_or]
        exact ⟨Ne.symm hd, hnot⟩

theorem hangUp_clients (c : Client) (bufs : List PushData) :
    (hangUp c bufs).map PushData.client = bufs.map PushData.client ∨
      c ∉ bufs.map PushData.client ∧
        (hangUp c bufs).map PushData.client = bufs.map PushData.client ++ [c] := by
  induction bufs with
  | nil => exact .inr ⟨List.not_mem_nil, rfl⟩
  | cons d bufs ih =>
    rw [hangUp]
    by_cases hd : d.client = c
    · rw [if_pos hd]
      exact .inl rfl
    · rw [if_neg hd, List.map_cons, List.map_cons]
      rcases ih with ih | ⟨hnot, ih⟩
      · exact .inl (congrArg _ ih)
      · refine .inr ⟨?_, congrArg _ ih⟩
        rw [List.mem_cons, not_or]
        exact ⟨Ne.symm hd, hnot⟩

/-- The clients of a list that stays as it is or gets a new one at the end. -/
theorem nodup_clients {clients clients' : List Client} (h : clients.Nodup)
    (hmore : clients' = clients ∨ c ∉ clients ∧ clients' = clients ++ [c]) : clients'.Nodup := by
  rcases hmore with rfl | ⟨hnot, rfl⟩
  · exact h
  · refine List.nodup_append.mpr ⟨h, List.nodup_singleton c, fun x hx y hy => ?_⟩
    rw [List.mem_singleton.mp hy]
    rintro rfl
    exact hnot hx

theorem mem_clients {clients clients' : List Client} {x : Client} (hx : x ∈ clients)
    (hmore : clients' = clients ∨ c ∉ clients ∧ clients' = clients ++ [c]) : x ∈ clients' := by
  rcases hmore with rfl | ⟨_, rfl⟩
  · exact hx
  · exact List.mem_append_left _ hx

theorem mem_clients_post (c : Client) (msg : Nat) (bufs : List PushData) :
    c ∈ (post c msg bufs).map PushData.client := by
  induction bufs with
  | nil => exact List.mem_singleton_self c
  | cons d bufs ih =>
    rw [post]
    by_cases hd : d.client = c
    · rw [if_pos hd]
      exact List.mem_cons.mpr (.inl hd.symm)
    · rw [if_neg hd]
      exact List.mem_cons_of_mem _ ih

/-- An entry after a post is that of another client, or has the message last. -/
theorem mem_post (hnodup : (bufs.map PushData.client).Nodup) (h : d ∈ post c msg bufs) :
    (d ∈ bufs ∧ d.client ≠ c) ∨
      (∃ x ∈ bufs, x.client = c ∧ d = { x with data := x.data ++ [msg] }) ∨
      c ∉ bufs.map PushData.client ∧ d = ⟨c, true, [msg]⟩ := by
  induction bufs with
  | nil => exact .inr (.inr ⟨List.not_mem_nil, List.mem_singleton.mp h⟩)
  | cons x bufs ih =>
    rw [List.map_cons, List.nodup_cons] at hnodup
    rw [post] at h
    by_cases hx : x.client = c
    · rw [if_pos hx] at h
      rcases List.mem_cons.mp h with rfl | h
      · exact .inr (.inl ⟨x, List.mem_cons_self, hx, rfl⟩)
      · refine .inl ⟨List.mem_cons_of_mem _ h, fun hc => hnodup.1 ?_⟩
        rw [hx, ← hc]
        exact List.mem_map_of_mem h
    · rw [if_neg hx] at h
      rcases List.mem_cons.mp h with rfl | h
      · exact .inl ⟨List.mem_cons_self, hx⟩
      · rcases ih hnodup.2 h with ⟨hd, hc⟩ | ⟨y, hy, hy'⟩ | ⟨hnot, hd⟩
        · exact .inl ⟨List.mem_cons_of_mem _ hd, hc⟩
        · exact .inr (.inl ⟨y, List.mem_cons_of_mem _ hy, hy'⟩)
        · refine .inr (.inr ⟨?_, hd⟩)
          rw [List.map_cons, List.mem_cons, not_or]
          exact ⟨Ne.symm hx, hnot⟩

/-- An entry after a client hung up was there, maybe connected, or is a new one
without messages. -/
theorem mem_hangUp (h : d ∈ hangUp c bufs) :
    (∃ x ∈ bufs, d.client = x.client ∧ d.data = x.data ∧
      (d.connected = x.connected ∨ d.client = c ∧ d.connected = false)) ∨
      c ∉ bufs.map PushData.client ∧ d = ⟨c, false, []⟩ := by
  induction bufs with
  | nil => exact .inr ⟨List.not_mem_nil, List.mem_singleton.mp h⟩
  | cons x bufs ih =>
    rw [hangUp] at h
    by_cases hx : x.client = c
    · rw [if_pos hx] at h
      rcases List.mem_cons.mp h with rfl | h
      · exact .inl ⟨x, List.mem_cons_self, rfl, rfl, .inr ⟨hx, rfl⟩⟩
      · exact .inl ⟨d, List.mem_cons_of_mem _ h, rfl, rfl, .inl rfl⟩
    · rw [if_neg hx] at h
      rcases List.mem_cons.mp h with rfl | h
      · exact .inl ⟨d, List.mem_cons_self, rfl, rfl, .inl rfl⟩
      · rcases ih h with ⟨y, hy, hy'⟩ | ⟨hnot, hd⟩
        · exact .inl ⟨y, List.mem_cons_of_mem _ hy, hy'⟩
        · refine .inr ⟨?_, hd⟩
          rw [List.map_cons, List.mem_cons, not_or]
          exact ⟨Ne.symm hx, hnot⟩

theorem splice_perm (bufs : List PushData) : (splice bufs).Perm bufs := by
  rw [splice]
  cases h : bufs.dropWhile fun d => d.data.isEmpty with
  | nil => exact List.Perm.refl _
  | cons d rest =>
    dsimp only
    calc d :: ((bufs.takeWhile fun d => d.data.isEmpty) ++ rest)
      _ |>.Perm ((bufs.takeWhile fun d => d.data.isEmpty) ++ d :: rest) := List.perm_middle.symm
      _ = bufs := by rw [← h, List.takeWhile_append_dropWhile]

/-- The entry in front has no message only when none has. -/
theorem splice_front (h : splice bufs = d :: rest) (hd : d.data = []) :
    ∀ x ∈ bufs, x.data = [] := by
  rw [splice] at h
  cases hdrop : bufs.dropWhile fun d => d.data.isEmpty with
  | nil =>
    intro x hx
    exact List.isEmpty_iff.mp (List.dropWhile_eq_nil_iff.mp hdrop x hx)
  | cons y ys =>
    rw [hdrop] at h
    obtain ⟨rfl, _⟩ := List.cons.inj h
    have hne := List.head?_dropWhile_not (fun d : PushData => d.data.isEmpty) bufs
    rw [hdrop] at hne
    simp [hd] at hne

theorem queued_perm {bufs' : List PushData} (h : bufs.Perm bufs') :
    (queued bufs).Perm (queued bufs') := List.Perm.flatMap_right _ h

end CppSnippets.Push
