import Mathlib
import Stylewire.Proofs.Walk

set_option autoImplicit false

/-! # A walk comes to an end

Here the walk is taken apart into steps. A state of it is the list of the directories that wait,
with the real directories entered and the scripts found so far. A step enters the first directory
that waits, or passes over it if there is no directory at its path (`WalkStep`).

Each real directory is entered once at most, and only then are its entries added to those that
wait. So the *work* that is left, the directories that wait and the entries of the real directories
not yet entered, gets less with every step (`WalkStep.work_lt`). This counts real directories and
not the paths that lead to them, of which links make as many as one likes
(`leadsTo_loopedTree`). It follows that every walk ends, after a number of steps that the size of
the tree tells (`walk_terminates`).
-/

namespace Stylewire

open FileTree

/-! ## Steps -/

/-- What a walk knows: the directories that wait, the real directories entered so far, and the
scripts found so far. -/
structure WalkState where
  pending : List Pending
  visited : List (List Text)
  found : List Path

/-- One step of a walk. It takes the first directory that waits. -/
inductive WalkStep (fs : FileTree) (ignored : Path → Bool → Bool) : WalkState → WalkState → Prop
  | enter {dir : Pending} {pending : List Pending} {visited : List (List Text)}
      {found : List Path} {place : List Text} {entries : List (Text × Node)}
      (hres : fs.resolve dir.path = .ok (place, .directory entries))
      (hnew : place ∉ visited) :
      WalkStep fs ignored ⟨dir :: pending, visited, found⟩
        ⟨subdirectories fs dir.isRoot (countedEntries fs ignored dir.path entries) ++ pending,
          place :: visited, found ++ scriptsOf (countedEntries fs ignored dir.path entries)⟩
  | pass {dir : Pending} {pending : List Pending} {visited : List (List Text)}
      {found : List Path}
      (hno : ∀ place entries, fs.resolve dir.path ≠ .ok (place, .directory entries)) :
      WalkStep fs ignored ⟨dir :: pending, visited, found⟩ ⟨pending, visited, found⟩

/-- A number of steps, one after the other. -/
inductive WalkSteps (fs : FileTree) (ignored : Path → Bool → Bool) :
    Nat → WalkState → WalkState → Prop
  | refl (w : WalkState) : WalkSteps fs ignored 0 w w
  | step {n : Nat} {w w₁ w₂ : WalkState} (hstep : WalkStep fs ignored w w₁)
      (hrest : WalkSteps fs ignored n w₁ w₂) : WalkSteps fs ignored (n + 1) w w₂

/-- How a walk ends, if it ends in this state: no directory waits any more, or the first one has
been entered before. -/
def WalkState.outcome? (fs : FileTree) (w : WalkState) : Option (Except Error (List Path)) :=
  match w.pending with
  | [] => some (.ok w.found)
  | dir :: _ =>
      match fs.resolve dir.path with
      | .ok (place, .directory _) =>
          if w.visited.contains place then some (.error (.linkCycle dir.path)) else none
      | _ => none

section Steps

variable {fs : FileTree} {ignored : Path → Bool → Bool}

/-- In every state the walk ends or goes on. -/
theorem exists_walkStep_or_outcome (fs : FileTree) (ignored : Path → Bool → Bool) (w : WalkState) :
    (∃ w', WalkStep fs ignored w w') ∨
      w.outcome? fs = some (walkFrom fs ignored w.pending w.visited w.found) := by
  obtain ⟨pending, visited, found⟩ := w
  cases pending with
  | nil =>
      right
      rw [walkFrom]
      rfl
  | cons dir pending =>
      by_cases hdir : ∃ place entries, fs.resolve dir.path = .ok (place, .directory entries)
      · obtain ⟨place, entries, hres⟩ := hdir
        by_cases hv : place ∈ visited
        · right
          have hcontains : visited.contains place = true := by simpa using hv
          rw [walkFrom_cycle hres hcontains]
          simp only [WalkState.outcome?, hres, hcontains, if_true]
        · exact Or.inl ⟨_, .enter hres hv⟩
      · left
        refine ⟨_, .pass fun place entries hres => ?_⟩
        exact hdir ⟨place, entries, hres⟩

/-- Where a walk goes on, it does not end. -/
theorem WalkStep.outcome?_eq_none {w w' : WalkState} (h : WalkStep fs ignored w w') :
    w.outcome? fs = none := by
  cases h with
  | @enter dir pending visited found place entries hres hnew =>
      have hcontains : visited.contains place = false := by simpa using hnew
      simp only [WalkState.outcome?, hres, hcontains]
      rfl
  | pass hno =>
      unfold WalkState.outcome?
      dsimp only
      split
      · rename_i place entries hres
        exact absurd hres (hno place entries)
      · rfl

/-- A step does not change what the walk ends with. -/
theorem WalkStep.walkFrom_eq {w w' : WalkState} (h : WalkStep fs ignored w w') :
    walkFrom fs ignored w.pending w.visited w.found =
      walkFrom fs ignored w'.pending w'.visited w'.found := by
  cases h with
  | enter hres hnew => exact walkFrom_directory hres (by simpa using hnew)
  | pass hno => exact walkFrom_other hno

/-! ## The directories that are left -/

theorem mem_unvisited_iff {visited : List (List Text)} {place : List Text} :
    place ∈ fs.unvisited visited ↔ place ∈ fs.root.directories ∧ place ∉ visited := by
  rw [unvisited, List.mem_filter]
  simp

/-- Entering a directory takes it from those that are left. -/
theorem unvisited_cons (fs : FileTree) (place : List Text) (visited : List (List Text)) :
    fs.unvisited (place :: visited) = (fs.unvisited visited).filter fun q => !(q == place) := by
  simp only [unvisited, List.filter_filter, List.contains_cons, Bool.not_or]

/-- No step adds to the directories that are left. -/
theorem WalkStep.unvisited_subset {w w' : WalkState} (h : WalkStep fs ignored w w')
    {q : List Text} (hq : q ∈ fs.unvisited w'.visited) : q ∈ fs.unvisited w.visited := by
  cases h with
  | enter _ _ =>
      rw [unvisited_cons, List.mem_filter] at hq
      exact hq.1
  | pass _ => exact hq

theorem WalkSteps.unvisited_subset {n : Nat} {w w' : WalkState} (h : WalkSteps fs ignored n w w')
    {q : List Text} (hq : q ∈ fs.unvisited w'.visited) : q ∈ fs.unvisited w.visited := by
  induction h with
  | refl w => exact hq
  | step hstep _ ih => exact hstep.unvisited_subset (ih hq)

/-- The first directory that waits is the real directory `place`, and it has not been entered. -/
def WalkState.Enters (fs : FileTree) (w : WalkState) (place : List Text) : Prop :=
  ∃ dir pending entries, w.pending = dir :: pending ∧
    fs.resolve dir.path = .ok (place, .directory entries) ∧ place ∉ w.visited

theorem WalkState.Enters.mem_unvisited {w : WalkState} {place : List Text} (h : w.Enters fs place) :
    place ∈ fs.unvisited w.visited := by
  obtain ⟨dir, pending, entries, -, hres, hnew⟩ := h
  exact mem_unvisited_iff.2 ⟨mem_directories_of_at? (at?_of_resolve hres), hnew⟩

/-- **Along the recursion the directories that are left get fewer.** Once a directory is entered, it
is left no more, and none comes in its place. -/
theorem WalkState.Enters.unvisited_ssubset {w w' : WalkState} {place : List Text}
    (h : w.Enters fs place) {n : Nat} (hsteps : WalkSteps fs ignored (n + 1) w w') :
    (∀ q ∈ fs.unvisited w'.visited, q ∈ fs.unvisited w.visited) ∧
      place ∈ fs.unvisited w.visited ∧ place ∉ fs.unvisited w'.visited := by
  refine ⟨fun q hq => hsteps.unvisited_subset hq, h.mem_unvisited, fun hmem => ?_⟩
  obtain ⟨dir, pending, entries, hpending, hres, -⟩ := h
  cases hsteps with
  | step hstep hrest =>
      have hleft := hrest.unvisited_subset hmem
      cases hstep with
      | enter hres' _ =>
          obtain ⟨rfl, -⟩ := List.cons.inj hpending
          rw [hres] at hres'
          cases hres'
          exact (mem_unvisited_iff.1 hleft).2 List.mem_cons_self
      | pass hno =>
          obtain ⟨rfl, -⟩ := List.cons.inj hpending
          exact hno place entries hres

end Steps

/-! ## The work that is left -/

/-- The number of entries of the directory at a real place. -/
def FileTree.entryCount (fs : FileTree) (place : List Text) : Nat :=
  match fs.root.at? place with
  | some (.directory entries) => entries.length
  | _ => 0

/-- The number of entries of the directories at some real places. -/
def FileTree.entriesAt (fs : FileTree) : List (List Text) → Nat
  | [] => 0
  | place :: places => fs.entryCount place + fs.entriesAt places

/-- The work that is left in a state: the directories that wait, and the entries of those not yet
entered, each of which may come to wait once. -/
def WalkState.work (fs : FileTree) (w : WalkState) : Nat :=
  w.pending.length + fs.entriesAt (fs.unvisited w.visited)

section Work

variable {fs : FileTree} {ignored : Path → Bool → Bool}

theorem entriesAt_filter_le (fs : FileTree) (keep : List Text → Bool) (places : List (List Text)) :
    fs.entriesAt (places.filter keep) ≤ fs.entriesAt places := by
  induction places with
  | nil => exact Nat.le_refl 0
  | cons q places ih =>
      rw [List.filter_cons]
      split
      · simp only [entriesAt]
        omega
      · simp only [entriesAt]
        omega

/-- Entering a directory takes all its entries from those that are left. -/
theorem entriesAt_filter_ne (fs : FileTree) {place : List Text} {places : List (List Text)}
    (h : place ∈ places) :
    fs.entriesAt (places.filter fun q => !(q == place)) + fs.entryCount place ≤
      fs.entriesAt places := by
  induction places with
  | nil => cases h
  | cons q places ih =>
      by_cases hq : q = place
      · have hle := entriesAt_filter_le fs (fun q => !(q == place)) places
        rw [List.filter_cons_of_neg (by simp [hq]), entriesAt, hq]
        omega
      · have hmem : place ∈ places := (List.mem_cons.1 h).resolve_left (Ne.symm hq)
        have hle := ih hmem
        rw [List.filter_cons_of_pos (by simp [hq]), entriesAt, entriesAt]
        omega

/-- At most all entries of a directory are directories to enter. -/
theorem length_subdirectories_le (fs : FileTree) (ignored : Path → Bool → Bool) (dir : Path)
    (isRoot : Bool) (entries : List (Text × Node)) :
    (subdirectories fs isRoot (countedEntries fs ignored dir entries)).length ≤
      entries.length := by
  rw [subdirectories, List.length_map]
  calc
    _ ≤ (countedEntries fs ignored dir entries).length := List.length_filter_le _ _
    _ ≤ ((entries.filter fun e => !isSkippedName e.1).map fun e =>
          (Path.join dir e.1, fs.isDirectory (Path.join dir e.1))).length :=
        List.length_filter_le _ _
    _ = (entries.filter fun e => !isSkippedName e.1).length := List.length_map _
    _ ≤ entries.length := List.length_filter_le _ _

/-- **Every step leaves less work.** -/
theorem WalkStep.work_lt {w w' : WalkState} (h : WalkStep fs ignored w w') :
    w'.work fs < w.work fs := by
  cases h with
  | @enter dir pending visited found place entries hres hnew =>
      have hat := at?_of_resolve hres
      have hcount : fs.entryCount place = entries.length := by
        rw [entryCount, hat]
      have hleft : place ∈ fs.unvisited visited :=
        mem_unvisited_iff.2 ⟨mem_directories_of_at? hat, hnew⟩
      have hentries := entriesAt_filter_ne fs hleft
      have hsub := length_subdirectories_le fs ignored dir.path dir.isRoot entries
      simp only [WalkState.work, List.length_append, List.length_cons, unvisited_cons]
      omega
  | pass hno =>
      simp only [WalkState.work, List.length_cons]
      omega

/-- The number of steps is at most the work there was. -/
theorem WalkSteps.add_work_le {n : Nat} {w w' : WalkState} (h : WalkSteps fs ignored n w w') :
    n + w'.work fs ≤ w.work fs := by
  induction h with
  | refl w => omega
  | step hstep _ ih =>
      have hlt := hstep.work_lt
      omega

/-- From every state a walk comes to its end. -/
theorem exists_walkSteps_outcome (fs : FileTree) (ignored : Path → Bool → Bool) (w : WalkState) :
    ∃ n w', WalkSteps fs ignored n w w' ∧ (¬ ∃ w'', WalkStep fs ignored w' w'') ∧
      w'.outcome? fs = some (walkFrom fs ignored w.pending w.visited w.found) := by
  -- On the work that is left, not on the recursion of the walk.
  induction hwork : w.work fs using Nat.strongRecOn generalizing w with
  | ind k ih =>
      rcases exists_walkStep_or_outcome fs ignored w with ⟨w₁, hstep⟩ | houtcome
      · have hlt := hstep.work_lt
        rw [hwork] at hlt
        obtain ⟨n, w', hsteps, hend, houtcome⟩ := ih (w₁.work fs) hlt w₁ rfl
        exact ⟨n + 1, w', .step hstep hsteps, hend, by rw [houtcome, hstep.walkFrom_eq]⟩
      · refine ⟨0, w, .refl w, ?_, houtcome⟩
        rintro ⟨w', hstep⟩
        rw [hstep.outcome?_eq_none] at houtcome
        cases houtcome

end Work

/-! ## Names without end -/

/-- The names lead from one real directory to another, if each is looked up, links and all, in the
directory that those before it lead to. -/
inductive FileTree.LeadsTo (fs : FileTree) : List Text → List Text → List Text → Prop
  | here (place : List Text) : fs.LeadsTo place [] place
  | down {place next last names : List Text} {n : Text} {entries entries' : List (Text × Node)}
      (hat : fs.root.at? place = some (.directory entries)) (hn : n ∈ entries.map Prod.fst)
      (hnext : fs.follow 40 place [n] = .ok next)
      (hdir : fs.root.at? next = some (.directory entries'))
      (hnames : fs.LeadsTo next names last) : fs.LeadsTo place (n :: names) last

/-- A directory that holds a link to itself and nothing else. -/
def loopedTree : FileTree where
  root := .directory [(['l'], .link ['.'])]
  working := []

/-- One real directory has paths of any length. -/
theorem leadsTo_loopedTree (n : Nat) : loopedTree.LeadsTo [] (List.replicate n ['l']) [] := by
  induction n with
  | zero => exact .here []
  | succ n ih =>
      have hnext : loopedTree.follow 40 [] [['l']] = .ok [] := by cbv
      exact .down rfl (by simp) hnext rfl ih

/-- **Every walk ends.** From any state, a run makes at most as many steps as there are directories
that wait and entries in the real directories not yet entered. It comes to an end, with the answer
of `walkFrom`. From the step that enters a directory on, the set of the real directories that are
left is strictly smaller. Yet there is a tree in which names of any number lead to directories. -/
theorem walk_terminates (fs : FileTree) (ignored : Path → Bool → Bool) (w : WalkState) :
    (∀ n w', WalkSteps fs ignored n w w' →
      n ≤ w.pending.length + fs.entriesAt (fs.unvisited w.visited)) ∧
    (∃ n w', WalkSteps fs ignored n w w' ∧ (¬ ∃ w'', WalkStep fs ignored w' w'') ∧
      w'.outcome? fs = some (walkFrom fs ignored w.pending w.visited w.found)) ∧
    (∀ place, w.Enters fs place → ∀ n w', WalkSteps fs ignored (n + 1) w w' →
      (∀ q ∈ fs.unvisited w'.visited, q ∈ fs.unvisited w.visited) ∧
        place ∈ fs.unvisited w.visited ∧ place ∉ fs.unvisited w'.visited) ∧
    ∃ looped : FileTree, ∀ k, ∃ names : List Text, names.length = k ∧
      looped.LeadsTo [] names [] := by
  refine ⟨fun n w' hsteps => ?_, exists_walkSteps_outcome fs ignored w,
    fun place henters n w' hsteps => henters.unvisited_ssubset hsteps, loopedTree, fun k => ?_⟩
  · have hle := hsteps.add_work_le
    rw [WalkState.work, WalkState.work] at hle
    omega
  · exact ⟨List.replicate k ['l'], List.length_replicate, leadsTo_loopedTree k⟩

end Stylewire
