import Stylewire.Proofs.PathOrder
import Stylewire.Proofs.Walk

set_option autoImplicit false

/-! # The tree of a walk

A walk keeps a list of directories that wait and a list of real directories it has entered.
`Walks` says what it does without either: to walk through a directory is to take its scripts
and to walk through the directories to enter from there, and to walk through several
directories is to walk through one after the other. Such a walk enters some real directories
and finds some scripts, and `walkFrom` succeeds if and only if no real directory is entered
twice (`walkFrom_eq_ok_iff`).

From the tree one reads off which scripts are found: those that count in a directory that can
be `Entered` from the start (`Walks.mem_iff`).
-/

namespace Stylewire

open FileTree

/-! ## The entries that count -/

/-- The directory at a path has an entry of this name. -/
def FileTree.Lists (fs : FileTree) (dir : Path) (n : Text) : Prop :=
  ∃ place entries, fs.resolve dir = .ok (place, .directory entries) ∧
    n ∈ entries.map Prod.fst

theorem FileTree.Lists.properName {fs : FileTree} {dir : Path} {n : Text} (h : fs.Lists dir n)
    (hproper : fs.root.Proper) : ProperName n := by
  obtain ⟨place, entries, hres, hn⟩ := h
  obtain ⟨e, he, rfl⟩ := List.mem_map.1 hn
  have hentries : ProperEntries entries := hproper.at? (resolve_eq_ok_iff.1 hres).2
  exact (hentries.of_mem he).1

/-- An entry of a directory that is not left out, for its name or by the ignore rules. -/
structure Counts (fs : FileTree) (ignored : Path → Bool → Bool) (dir : Path) (n : Text)
    (isDirectory : Bool) : Prop where
  listed : fs.Lists dir n
  visible : isSkippedName n = false
  kind : fs.isDirectory (Path.join dir n) = isDirectory
  kept : ignored (Path.join dir n) isDirectory = false

section Entries

variable {fs : FileTree} {ignored : Path → Bool → Bool} {dir : Path} {place : List Text}
  {entries : List (Text × Node)} (hres : fs.resolve dir = .ok (place, .directory entries))

include hres

theorem lists_iff {n : Text} : fs.Lists dir n ↔ n ∈ entries.map Prod.fst := by
  constructor
  · rintro ⟨place', entries', hres', hn⟩
    rw [hres] at hres'
    cases hres'
    exact hn
  · intro hn
    exact ⟨place, entries, hres, hn⟩

theorem mem_countedEntries {p : Path} {isDirectory : Bool} :
    (p, isDirectory) ∈ countedEntries fs ignored dir entries ↔
      ∃ n, Counts fs ignored dir n isDirectory ∧ p = Path.join dir n := by
  rw [countedEntries_eq, List.mem_filter, List.mem_map]
  constructor
  · rintro ⟨⟨n, hn, heq⟩, hkept⟩
    obtain ⟨hlisted, hvisible⟩ := List.mem_filter.1 hn
    cases heq
    exact ⟨n, ⟨(lists_iff hres).2 hlisted, by simpa using hvisible, rfl, by simpa using hkept⟩, rfl⟩
  · rintro ⟨n, ⟨hlisted, hvisible, hkind, hkept⟩, rfl⟩
    refine ⟨⟨n, List.mem_filter.2 ⟨(lists_iff hres).1 hlisted, by simp [hvisible]⟩, ?_⟩,
      by simp [hkept]⟩
    rw [hkind]

/-- The directories to enter are the entries that count and are directories. Below the root
they have no settings of their own. -/
theorem mem_subdirectories {isRoot : Bool} {d : Pending} :
    d ∈ subdirectories fs isRoot (countedEntries fs ignored dir entries) ↔
      ∃ n, Counts fs ignored dir n true ∧
        (isRoot = true ∨ Settings.file? fs (Path.join dir n) = none) ∧
        d = ⟨Path.join dir n, false⟩ := by
  unfold subdirectories
  rw [List.mem_map]
  constructor
  · rintro ⟨⟨p, isDirectory⟩, hmem, rfl⟩
    obtain ⟨hcounted, hcond⟩ := List.mem_filter.1 hmem
    rw [Bool.and_eq_true, Bool.or_eq_true, Option.isNone_iff_eq_none] at hcond
    obtain ⟨rfl, hown⟩ := hcond
    obtain ⟨n, hn, rfl⟩ := (mem_countedEntries hres).1 hcounted
    exact ⟨n, hn, hown, rfl⟩
  · rintro ⟨n, hn, hown, rfl⟩
    refine ⟨(Path.join dir n, true),
      List.mem_filter.2 ⟨(mem_countedEntries hres).2 ⟨n, hn, rfl⟩, ?_⟩, rfl⟩
    rw [Bool.and_eq_true, Bool.or_eq_true, Option.isNone_iff_eq_none]
    exact ⟨rfl, hown⟩

theorem mem_scriptsOf {p : Path} :
    p ∈ scriptsOf (countedEntries fs ignored dir entries) ↔
      ∃ n, Counts fs ignored dir n false ∧ isScript p = true ∧ p = Path.join dir n := by
  unfold scriptsOf
  rw [List.mem_map]
  constructor
  · rintro ⟨⟨q, isDirectory⟩, hmem, rfl⟩
    obtain ⟨hcounted, hcond⟩ := List.mem_filter.1 hmem
    rw [Bool.and_eq_true, Bool.not_eq_true'] at hcond
    obtain ⟨rfl, hscript⟩ := hcond
    obtain ⟨n, hn, rfl⟩ := (mem_countedEntries hres).1 hcounted
    exact ⟨n, hn, hscript, rfl⟩
  · rintro ⟨n, hn, hscript, rfl⟩
    refine ⟨(Path.join dir n, false),
      List.mem_filter.2 ⟨(mem_countedEntries hres).2 ⟨n, hn, rfl⟩, ?_⟩, rfl⟩
    simpa using hscript

end Entries

/-! ## Walks -/

/-- `Walks fs ignored dirs places scripts`: to walk through the directories `dirs` is to enter
the real directories `places`, and it finds `scripts`. -/
inductive Walks (fs : FileTree) (ignored : Path → Bool → Bool) :
    List Pending → List (List Text) → List Path → Prop
  | nil : Walks fs ignored [] [] []
  | other {dir : Pending} {rest : List Pending} {places : List (List Text)} {scripts : List Path}
      (hno : ∀ place entries, fs.resolve dir.path ≠ .ok (place, .directory entries))
      (hrest : Walks fs ignored rest places scripts) :
      Walks fs ignored (dir :: rest) places scripts
  | enter {dir : Pending} {rest : List Pending} {place : List Text} {entries : List (Text × Node)}
      {places places' : List (List Text)} {scripts scripts' : List Path}
      (hres : fs.resolve dir.path = .ok (place, .directory entries))
      (hsub : Walks fs ignored
        (subdirectories fs dir.isRoot (countedEntries fs ignored dir.path entries))
        places scripts)
      (hrest : Walks fs ignored rest places' scripts') :
      Walks fs ignored (dir :: rest) (place :: (places ++ places'))
        (scriptsOf (countedEntries fs ignored dir.path entries) ++ (scripts ++ scripts'))

namespace Walks

variable {fs : FileTree} {ignored : Path → Bool → Bool}

/-- One walk after the other. -/
theorem append {dirs dirs' : List Pending} {places places' : List (List Text)}
    {scripts scripts' : List Path} (h : Walks fs ignored dirs places scripts)
    (h' : Walks fs ignored dirs' places' scripts') :
    Walks fs ignored (dirs ++ dirs') (places ++ places') (scripts ++ scripts') := by
  induction h with
  | nil => exact h'
  | other hno _ ih => exact .other hno ih
  | enter hres hsub _ _ ih =>
      simp only [List.cons_append, List.append_assoc]
      exact .enter hres hsub ih

/-- A walk through one directory, from what is found there and entered from there. -/
theorem single {dir : Pending} {place : List Text} {entries : List (Text × Node)}
    (hres : fs.resolve dir.path = .ok (place, .directory entries)) {sub : List Pending}
    (hsub : subdirectories fs dir.isRoot (countedEntries fs ignored dir.path entries) = sub)
    {found : List Path} (hfound : scriptsOf (countedEntries fs ignored dir.path entries) = found)
    {places : List (List Text)} {scripts : List Path} (h : Walks fs ignored sub places scripts) :
    Walks fs ignored [dir] (place :: places) (found ++ scripts) := by
  subst hsub hfound
  simpa using Walks.enter hres h .nil

/-- A walk through more directories is one walk after the other. -/
theorem exists_of_append {dirs dirs' : List Pending} {places : List (List Text)}
    {scripts : List Path} (h : Walks fs ignored (dirs ++ dirs') places scripts) :
    ∃ places₁ scripts₁ places₂ scripts₂, Walks fs ignored dirs places₁ scripts₁ ∧
      Walks fs ignored dirs' places₂ scripts₂ ∧ places = places₁ ++ places₂ ∧
      scripts = scripts₁ ++ scripts₂ := by
  induction dirs generalizing places scripts with
  | nil => exact ⟨[], [], places, scripts, .nil, h, rfl, rfl⟩
  | cons dir dirs ih =>
      cases h with
      | other hno hrest =>
          obtain ⟨places₁, scripts₁, places₂, scripts₂, h₁, h₂, rfl, rfl⟩ := ih hrest
          exact ⟨places₁, scripts₁, places₂, scripts₂, .other hno h₁, h₂, rfl, rfl⟩
      | enter hres hsub hrest =>
          obtain ⟨places₁, scripts₁, places₂, scripts₂, h₁, h₂, rfl, rfl⟩ := ih hrest
          exact ⟨_, _, places₂, scripts₂, .enter hres hsub h₁, h₂, by simp, by simp⟩

/-- The directories that wait can be walked through first, if none of the places has been
entered and none is entered twice. -/
theorem walkFrom_append {dirs : List Pending} {places : List (List Text)} {scripts : List Path}
    (h : Walks fs ignored dirs places scripts) (hnodup : places.Nodup) {rest : List Pending}
    {visited : List (List Text)} (hnew : ∀ place ∈ places, place ∉ visited)
    (found : List Path) :
    walkFrom fs ignored (dirs ++ rest) visited found =
      walkFrom fs ignored rest (places.reverse ++ visited) (found ++ scripts) := by
  induction h generalizing rest visited found with
  | nil => simp
  | other hno _ ih =>
      rw [List.cons_append, walkFrom_other hno]
      exact ih hnodup hnew found
  | @enter dir rest' place entries places₁ places₂ scripts₁ scripts₂ hres _ _ ihsub ihrest =>
      rw [List.nodup_cons, List.nodup_append, List.mem_append, not_or] at hnodup
      obtain ⟨⟨hplace₁, hplace₂⟩, hnodup₁, hnodup₂, hdisjoint⟩ := hnodup
      have hplace : visited.contains place = false := by
        have hmem : place ∉ visited := hnew place (by simp)
        simpa using hmem
      have hnew₁ : ∀ q ∈ places₁, q ∉ place :: visited := by
        intro q hq hmem
        rcases List.mem_cons.1 hmem with rfl | hmem
        · exact hplace₁ hq
        · exact hnew q (by simp [hq]) hmem
      have hnew₂ : ∀ q ∈ places₂, q ∉ places₁.reverse ++ place :: visited := by
        intro q hq hmem
        rcases List.mem_append.1 hmem with hmem | hmem
        · exact hdisjoint q (List.mem_reverse.1 hmem) q hq rfl
        · rcases List.mem_cons.1 hmem with rfl | hmem
          · exact hplace₂ hq
          · exact hnew q (by simp [hq]) hmem
      rw [List.cons_append, walkFrom_directory hres hplace, ihsub hnodup₁ hnew₁,
        ihrest hnodup₂ hnew₂]
      simp

/-- A walk that succeeds enters no directory twice. -/
theorem exists_of_walkFrom {dirs : List Pending} {visited : List (List Text)}
    {found scripts : List Path} (h : walkFrom fs ignored dirs visited found = .ok scripts) :
    ∃ places scripts', Walks fs ignored dirs places scripts' ∧ places.Nodup ∧
      (∀ place ∈ places, place ∉ visited) ∧ scripts = found ++ scripts' := by
  fun_induction walkFrom fs ignored dirs visited found with
  | case1 visited found =>
      obtain rfl := Except.ok.inj h
      exact ⟨[], [], .nil, List.nodup_nil, by simp, by simp⟩
  | case2 visited found dir pending place entries hres hv => cases h
  | case3 visited found dir pending place entries hres hv _ counted ih =>
      obtain ⟨places, scripts', hwalk, hnodup, hnew, rfl⟩ := ih h
      obtain ⟨places₁, scripts₁, places₂, scripts₂, h₁, h₂, rfl, rfl⟩ := hwalk.exists_of_append
      refine ⟨_, _, .enter hres h₁ h₂, ?_, ?_, by simp [counted]⟩
      · rw [List.nodup_cons]
        exact ⟨fun hmem => hnew place hmem (by simp), hnodup⟩
      · intro q hq hmem
        rcases List.mem_cons.1 hq with rfl | hq
        · exact hv (by simpa using hmem)
        · exact hnew q hq (by simp [hmem])
  | case4 visited found dir pending hno ih =>
      obtain ⟨places, scripts', hwalk, hrest⟩ := ih h
      exact ⟨places, scripts', .other hno hwalk, hrest⟩

end Walks

/-- **What makes a walk succeed**: it enters no real directory twice. -/
theorem walkFrom_eq_ok_iff {fs : FileTree} {ignored : Path → Bool → Bool} {dirs : List Pending}
    {scripts : List Path} :
    walkFrom fs ignored dirs [] [] = .ok scripts ↔
      ∃ places, Walks fs ignored dirs places scripts ∧ places.Nodup := by
  constructor
  · intro h
    obtain ⟨places, scripts', hwalk, hnodup, -, rfl⟩ := Walks.exists_of_walkFrom h
    exact ⟨places, by simpa using hwalk, hnodup⟩
  · rintro ⟨places, hwalk, hnodup⟩
    have hnew : ∀ place ∈ places, place ∉ ([] : List (List Text)) := by simp
    calc
      walkFrom fs ignored dirs [] [] = walkFrom fs ignored (dirs ++ []) [] [] := by
        rw [List.append_nil]
      _ = walkFrom fs ignored [] (places.reverse ++ []) ([] ++ scripts) :=
        hwalk.walkFrom_append hnodup hnew []
      _ = .ok scripts := by rw [walkFrom, List.nil_append]

/-- A walk fails for one reason only. -/
theorem exists_of_walkFrom_error {fs : FileTree} {ignored : Path → Bool → Bool}
    {dirs : List Pending} {visited : List (List Text)} {found : List Path} {e : Error}
    (h : walkFrom fs ignored dirs visited found = .error e) : ∃ p, e = .linkCycle p := by
  fun_induction walkFrom fs ignored dirs visited found with
  | case1 visited found => cases h
  | case2 visited found dir pending place entries hres hv =>
      exact ⟨dir.path, (Except.error.inj h).symm⟩
  | case3 visited found dir pending place entries hres hv _ counted ih => exact ih h
  | case4 visited found dir pending hno ih => exact ih h

/-! ## What a walk finds -/

/-- The directories below one that waits that are entered from there, by the names on the
way. -/
inductive Entered (fs : FileTree) (ignored : Path → Bool → Bool) : Pending → List Text → Prop
  | here (dir : Pending) : Entered fs ignored dir []
  | down {dir : Pending} {n : Text} {names : List Text}
      (hn : Counts fs ignored dir.path n true)
      (hown : dir.isRoot = true ∨ Settings.file? fs (Path.join dir.path n) = none)
      (hnames : Entered fs ignored ⟨Path.join dir.path n, false⟩ names) :
      Entered fs ignored dir (n :: names)

theorem Entered.properName {fs : FileTree} {ignored : Path → Bool → Bool} {dir : Pending}
    {names : List Text} (hproper : fs.root.Proper) (h : Entered fs ignored dir names) :
    ∀ n ∈ names, ProperName n := by
  induction h with
  | here dir => simp
  | @down dir n names hn _ _ ih =>
      intro m hm
      rcases List.mem_cons.1 hm with rfl | hm
      · exact hn.listed.properName hproper
      · exact ih m hm

theorem Entered.properName_concat {fs : FileTree} {ignored : Path → Bool → Bool} {dir : Pending}
    {names : List Text} {n : Text} {isDirectory : Bool} (hproper : fs.root.Proper)
    (h : Entered fs ignored dir names)
    (hn : Counts fs ignored (Path.descend dir.path names) n isDirectory) :
    ∀ m ∈ names ++ [n], ProperName m := by
  intro m hm
  rcases List.mem_append.1 hm with hm | hm
  · exact h.properName hproper m hm
  · obtain rfl := List.mem_singleton.1 hm
    exact hn.listed.properName hproper

/-- The script is an entry that counts of a directory entered. -/
def Collected (fs : FileTree) (ignored : Path → Bool → Bool) (dir : Pending) (p : Path) : Prop :=
  ∃ names n, Entered fs ignored dir names ∧
    Counts fs ignored (Path.descend dir.path names) n false ∧ isScript p = true ∧
    p = Path.descend dir.path (names ++ [n])

/-- In a proper tree the names of a script below the start are proper. -/
theorem Collected.exists_names {fs : FileTree} {ignored : Path → Bool → Bool} {dir : Pending}
    {p : Path} (hproper : fs.root.Proper) (h : Collected fs ignored dir p) :
    ∃ names, (∀ n ∈ names, ProperName n) ∧ p = Path.descend dir.path names := by
  obtain ⟨names, n, hentered, hn, -, rfl⟩ := h
  exact ⟨names ++ [n], hentered.properName_concat hproper hn, rfl⟩

/-- A script of a directory is one of its entries or comes from one of the directories to
enter. -/
theorem collected_iff {fs : FileTree} {ignored : Path → Bool → Bool} {dir : Pending}
    {place : List Text} {entries : List (Text × Node)}
    (hres : fs.resolve dir.path = .ok (place, .directory entries)) {p : Path} :
    Collected fs ignored dir p ↔
      p ∈ scriptsOf (countedEntries fs ignored dir.path entries) ∨
        ∃ d ∈ subdirectories fs dir.isRoot (countedEntries fs ignored dir.path entries),
          Collected fs ignored d p := by
  rw [mem_scriptsOf hres]
  constructor
  · rintro ⟨names, n, hentered, hn, hscript, rfl⟩
    cases hentered with
    | here => exact Or.inl ⟨n, hn, hscript, rfl⟩
    | @down _ m names hm hown hnames =>
        exact Or.inr ⟨_, (mem_subdirectories hres).2 ⟨m, hm, hown, rfl⟩, names, n, hnames, hn,
          hscript, rfl⟩
  · rintro (⟨n, hn, hscript, rfl⟩ | ⟨d, hd, names, n, hnames, hn, hscript, rfl⟩)
    · exact ⟨[], n, .here dir, hn, hscript, rfl⟩
    · obtain ⟨m, hm, hown, rfl⟩ := (mem_subdirectories hres).1 hd
      exact ⟨m :: names, n, .down hm hown hnames, hn, hscript, rfl⟩

/-- Nothing is collected where there is no directory. -/
theorem not_collected {fs : FileTree} {ignored : Path → Bool → Bool} {dir : Pending}
    (hno : ∀ place entries, fs.resolve dir.path ≠ .ok (place, .directory entries)) (p : Path) :
    ¬ Collected fs ignored dir p := by
  rintro ⟨names, n, hentered, hn, -⟩
  cases hentered with
  | here =>
      obtain ⟨place, entries, hres, -⟩ := hn.listed
      exact hno place entries hres
  | down hm _ _ =>
      obtain ⟨place, entries, hres, -⟩ := hm.listed
      exact hno place entries hres

/-- **The scripts that a walk finds.** -/
theorem Walks.mem_iff {fs : FileTree} {ignored : Path → Bool → Bool} {dirs : List Pending}
    {places : List (List Text)} {scripts : List Path} (h : Walks fs ignored dirs places scripts)
    (p : Path) : p ∈ scripts ↔ ∃ d ∈ dirs, Collected fs ignored d p := by
  induction h with
  | nil => simp
  | @other dir rest places scripts hno _ ih =>
      have hdir : ¬ Collected fs ignored dir p := not_collected hno p
      simp only [List.mem_cons, exists_eq_or_imp, hdir, false_or]
      exact ih
  | @enter dir rest place entries places₁ places₂ scripts₁ scripts₂ hres _ _ ihsub ihrest =>
      rw [List.mem_append, List.mem_append, ihsub, ihrest, ← or_assoc, ← collected_iff hres]
      simp only [List.mem_cons, exists_eq_or_imp]

/-! ## The scripts of a project -/

/-- What the ignore file of a project and the given patterns leave out. -/
def ignoring (fs : FileTree) (root : Path) (settings : Settings) (exclude : IgnoreRules) :
    Path → Bool → Bool := fun p isDirectory =>
  (if settings.disableIgnoreFile then (⟨root, []⟩ : IgnoreRules) else .load fs root).ignores p
    isDirectory || exclude.ignores p isDirectory

theorem collectScripts_eq (fs : FileTree) (root : Path) (settings : Settings) :
    collectScripts fs root settings =
      (IgnoreRules.ofPatterns root settings.exclude).bind fun exclude =>
        (walkFrom fs (ignoring fs root settings exclude) [⟨root, true⟩] [] []).map
          (·.mergeSort Path.le) := rfl

/-- What makes it succeed to collect the scripts of a project, and which they are. -/
theorem collectScripts_eq_ok_iff {fs : FileTree} {root : Path} {settings : Settings}
    {scripts : List Path} :
    collectScripts fs root settings = .ok scripts ↔
      ∃ exclude, IgnoreRules.ofPatterns root settings.exclude = .ok exclude ∧
        ∃ places found, Walks fs (ignoring fs root settings exclude) [⟨root, true⟩] places found ∧
          places.Nodup ∧ scripts = found.mergeSort Path.le := by
  rw [collectScripts_eq]
  cases IgnoreRules.ofPatterns root settings.exclude with
  | error e => simp [Except.bind]
  | ok exclude =>
      simp only [Except.bind, Except.ok.injEq, exists_eq_left']
      constructor
      · intro h
        cases hwalk : walkFrom fs (ignoring fs root settings exclude) [⟨root, true⟩] [] [] with
        | error e =>
            rw [hwalk] at h
            cases h
        | ok found =>
            rw [hwalk] at h
            obtain ⟨places, hplaces, hnodup⟩ := walkFrom_eq_ok_iff.1 hwalk
            exact ⟨places, found, hplaces, hnodup, (Except.ok.inj h).symm⟩
      · rintro ⟨places, found, hplaces, hnodup, rfl⟩
        rw [walkFrom_eq_ok_iff.2 ⟨places, hplaces, hnodup⟩]
        rfl

end Stylewire
