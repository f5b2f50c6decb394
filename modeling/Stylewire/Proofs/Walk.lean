import Stylewire.Project.Walk
import Stylewire.Proofs.FileTree

set_option autoImplicit false

/-! # What a walk depends on and what it finds

A walk looks at the shape of the tree and at the ignore file. So two trees of the same shape
with the same ignore file have the same scripts (`collectScripts_congr`).

Every directory is entered once, and so every script is found under one path only: if there are
no links at or below the root, then no two of the scripts lead to the same file
(`Found.eq_of_target`). No path to a file of another name leads to one of them
(`Found.target_ne`), and so writing scripts leaves the ignore file and the settings file
alone.
-/

namespace Stylewire

open FileTree

/-! ## One directory after the other -/

theorem walkFrom_directory {fs : FileTree} {ignored : Path → Bool → Bool} {dir : Pending}
    {pending : List Pending} {visited : List (List Text)} {found : List Path}
    {place : List Text} {entries : List (Text × Node)}
    (hres : fs.resolve dir.path = .ok (place, .directory entries))
    (hv : visited.contains place = false) :
    walkFrom fs ignored (dir :: pending) visited found =
      walkFrom fs ignored
        (subdirectories fs dir.isRoot (countedEntries fs ignored dir.path entries) ++ pending)
        (place :: visited)
        (found ++ scriptsOf (countedEntries fs ignored dir.path entries)) := by
  rw [walkFrom]
  split
  · rename_i place' entries' hres'
    rw [hres] at hres'
    cases hres'
    rw [dif_neg (by rw [hv]; simp)]
  · rename_i hno
    exact absurd hres (hno place entries)

theorem walkFrom_cycle {fs : FileTree} {ignored : Path → Bool → Bool} {dir : Pending}
    {pending : List Pending} {visited : List (List Text)} {found : List Path}
    {place : List Text} {entries : List (Text × Node)}
    (hres : fs.resolve dir.path = .ok (place, .directory entries))
    (hv : visited.contains place = true) :
    walkFrom fs ignored (dir :: pending) visited found = .error (.linkCycle dir.path) := by
  rw [walkFrom]
  split
  · rename_i place' entries' hres'
    rw [hres] at hres'
    cases hres'
    rw [dif_pos hv]
  · rename_i hno
    exact absurd hres (hno place entries)

theorem walkFrom_other {fs : FileTree} {ignored : Path → Bool → Bool} {dir : Pending}
    {pending : List Pending} {visited : List (List Text)} {found : List Path}
    (hno : ∀ place entries, fs.resolve dir.path ≠ .ok (place, .directory entries)) :
    walkFrom fs ignored (dir :: pending) visited found =
      walkFrom fs ignored pending visited found := by
  rw [walkFrom]
  split
  · rename_i place entries hres
    exact absurd hres (hno place entries)
  · rfl

/-! ## Trees of the same shape -/

theorem FileTree.SameShape.resolve_directory {fs fs' : FileTree} (h : SameShape fs fs') {p : Path}
    {place : List Text} {entries : List (Text × Node)}
    (hres : fs.resolve p = .ok (place, .directory entries)) :
    ∃ entries', fs'.resolve p = .ok (place, .directory entries') ∧
      entries'.map Prod.fst = entries.map Prod.fst := by
  obtain ⟨htarget, hat⟩ := resolve_eq_ok_iff.1 hres
  obtain ⟨entries', hat', hnames⟩ := h.at?_directory hat
  exact ⟨entries', resolve_eq_ok_iff.2 ⟨by rw [← h.target_congr, htarget], hat'⟩, hnames⟩

/-- The entries that count depend on the names of the entries. -/
theorem countedEntries_eq (fs : FileTree) (ignored : Path → Bool → Bool) (dir : Path)
    (entries : List (Text × Node)) :
    countedEntries fs ignored dir entries =
      (((entries.map Prod.fst).filter fun n => !isSkippedName n).map fun n =>
        (Path.join dir n, fs.isDirectory (Path.join dir n))).filter
          fun e => !ignored e.1 e.2 := by
  have hnames : (entries.map Prod.fst).filter (fun n => !isSkippedName n) =
      (entries.filter fun e => !isSkippedName e.1).map Prod.fst := List.filter_map
  rw [hnames, List.map_map]
  rfl

theorem countedEntries_congr {fs fs' : FileTree} (h : SameShape fs fs')
    (ignored : Path → Bool → Bool) (dir : Path) {entries entries' : List (Text × Node)}
    (hnames : entries'.map Prod.fst = entries.map Prod.fst) :
    countedEntries fs ignored dir entries = countedEntries fs' ignored dir entries' := by
  rw [countedEntries_eq, countedEntries_eq, hnames, h.isDirectory_congr]

theorem subdirectories_congr {fs fs' : FileTree} (h : SameKinds fs fs') (isRoot : Bool)
    (counted : List (Path × Bool)) :
    subdirectories fs isRoot counted = subdirectories fs' isRoot counted := by
  unfold subdirectories Settings.file?
  rw [h.isFile_congr]

/-- A walk through a tree of the same shape finds the same scripts. -/
theorem walkFrom_congr {fs fs' : FileTree} (h : SameShape fs fs')
    (ignored : Path → Bool → Bool) (pending : List Pending) (visited : List (List Text))
    (found : List Path) :
    walkFrom fs ignored pending visited found = walkFrom fs' ignored pending visited found := by
  -- Along the walk through `fs`: in each case the walk through `fs'` takes the same branch.
  fun_induction walkFrom fs ignored pending visited found with
  | case1 visited found => rw [walkFrom]
  | case2 visited found dir pending place entries hres hv =>
      obtain ⟨entries', hres', -⟩ := h.resolve_directory hres
      rw [walkFrom_cycle hres' hv]
  | case3 visited found dir pending place entries hres hv _ counted ih =>
      obtain ⟨entries', hres', hnames⟩ := h.resolve_directory hres
      rw [walkFrom_directory hres' (by simpa using hv), ← countedEntries_congr h _ _ hnames,
        ← subdirectories_congr h.sameKinds]
      exact ih
  | case4 visited found dir pending hno ih =>
      rw [walkFrom_other, ih]
      intro place entries' hres'
      obtain ⟨entries, hres, -⟩ := h.symm.resolve_directory hres'
      exact hno place entries hres

/-- **A tree of the same shape with the same ignore file** has the same scripts. -/
theorem collectScripts_congr {fs fs' : FileTree} (h : SameShape fs fs') {root : Path}
    (hc : ∀ place, fs.target (Path.join root ".gitignore".toList) = .ok place →
      fs'.fileAt? place = fs.fileAt? place) (settings : Settings) :
    collectScripts fs' root settings = collectScripts fs root settings := by
  have hload : IgnoreRules.load fs' root = IgnoreRules.load fs root := by
    rw [IgnoreRules.load, IgnoreRules.load, read_congr (h.sameKinds.file_congr hc)]
  unfold collectScripts
  rw [hload]
  simp only [walkFrom_congr h]

/-- A tree of the same shape with the same settings file has the same settings. -/
theorem load_congr {fs fs' : FileTree} (h : SameShape fs fs') {root : Path}
    (hc : ∀ n ∈ Settings.fileNames, ∀ place, fs.target (Path.join root n) = .ok place →
      fs'.fileAt? place = fs.fileAt? place) :
    Settings.load fs' root = Settings.load fs root := by
  have hload : Settings.load? fs' root = Settings.load? fs root := by
    unfold Settings.load? Settings.file?
    -- The shape decides which of the names is a file, so the same file is read in both trees.
    rw [← h.isFile_congr]
    cases hfind : (Settings.fileNames.map (Path.join root)).find? fs.isFile with
    | none => rfl
    | some p =>
        obtain ⟨n, hn, rfl⟩ := List.mem_map.1 (List.mem_of_find?_eq_some hfind)
        simp only [readText_congr (h.sameKinds.file_congr (hc n hn))]
  rw [Settings.load, Settings.load, hload]

/-- The names of the settings files are not those of scripts. They lie on regular paths, if the
root does. -/
theorem fileNames_join {n : Path} (hn : n ∈ Settings.fileNames) {root : Path} (hroot : root ≠ []) :
    ∃ dir m, Path.join root n = Path.join dir m ∧ ProperName m ∧ isScript m = false ∧ dir ≠ [] ∧
      ∀ fs : FileTree, fs.RegularAt root → fs.RegularAt dir := by
  have hplain : ProperName "bellagonia.toml".toList := by decide
  have hhidden : ProperName ".bellagonia.toml".toList := by decide
  have hconfig : ProperName ".config".toList := by decide
  rcases List.mem_cons.1 hn with rfl | hn
  · exact ⟨root, _, rfl, hplain, by decide, hroot, fun _ => id⟩
  · rcases List.mem_cons.1 hn with rfl | hn
    · exact ⟨root, _, rfl, hhidden, by decide, hroot, fun _ => id⟩
    · -- The third name is a path of two parts, so the directory is one below the root.
      obtain rfl := List.mem_singleton.1 hn
      have hparts : ".config/bellagonia.toml".toList =
          ".config".toList ++ '/' :: "bellagonia.toml".toList := by decide
      have hdir : Path.join root ".config".toList ≠ [] := by
        obtain ⟨u, hjoin⟩ := exists_join_eq_append hconfig.isAbsolute_eq_false root
        rw [hjoin]
        exact List.append_ne_nil_of_left_ne_nil hroot u
      rw [hparts]
      exact ⟨Path.join root ".config".toList, _,
        join_append (by decide) (by decide) (by decide) root, hplain, by decide,
        hdir, fun _ hreg => hreg.join hroot hconfig⟩

/-! ## Where the scripts lie -/

/-- Each of the scripts found is an entry of a directory entered, on a regular path. Its path is
that of the directory with the name behind it; `pathOf` gives the path under which a directory was
entered, of which there is only one. -/
def Found (fs : FileTree) (visited : List (List Text)) (found : List Path) : Prop :=
  ∃ pathOf : List Text → Path, ∀ p ∈ found, isScript p = true ∧ ∃ place ∈ visited,
    fs.target (pathOf place) = .ok place ∧ fs.RegularAt (pathOf place) ∧
      ∃ name, ProperName name ∧ p = Path.join (pathOf place) name

theorem ne_nil_of_target {fs : FileTree} {p : Path} {place : List Text}
    (h : fs.target p = .ok place) : p ≠ [] := by
  rintro rfl
  cases h

/-- The entries that count have names that the directory lists. -/
theorem exists_of_mem_countedEntries {fs : FileTree} {ignored : Path → Bool → Bool} {dir : Path}
    {entries : List (Text × Node)} {e : Path × Bool}
    (h : e ∈ countedEntries fs ignored dir entries) :
    ∃ name ∈ entries.map Prod.fst, e.1 = Path.join dir name := by
  rw [countedEntries_eq, List.mem_filter] at h
  obtain ⟨name, hname, rfl⟩ := List.mem_map.1 h.1
  exact ⟨name, (List.mem_filter.1 hname).1, rfl⟩

section Enter

variable {fs : FileTree} {dir : Path} {place : List Text} {entries : List (Text × Node)}
  (hreg : fs.RegularAt dir) (hres : fs.resolve dir = .ok (place, .directory entries))

include hreg hres

/-- The entries of a directory on a regular path have proper names. -/
theorem properName_of_regularAt {name : Text} (hname : name ∈ entries.map Prod.fst) :
    ProperName name := by
  obtain ⟨e, he, rfl⟩ := List.mem_map.1 hname
  have hentries : RegularEntries entries := hreg place _ hres
  exact (hentries.of_mem he).1

/-- From a regular path only regular paths are entered. -/
theorem regularAt_subdirectories {ignored : Path → Bool → Bool} {isRoot : Bool} {d : Pending}
    (hd : d ∈ subdirectories fs isRoot (countedEntries fs ignored dir entries)) :
    fs.RegularAt d.path := by
  unfold subdirectories at hd
  obtain ⟨e, he, rfl⟩ := List.mem_map.1 hd
  obtain ⟨name, hname, heq⟩ := exists_of_mem_countedEntries (List.mem_filter.1 he).1
  show fs.RegularAt e.1
  rw [heq]
  exact hreg.join (ne_nil_of_target (resolve_eq_ok_iff.1 hres).1)
    (properName_of_regularAt hreg hres hname)

/-- Entering one more directory. -/
theorem Found.enter {visited : List (List Text)} {found : List Path} (h : Found fs visited found)
    (ignored : Path → Bool → Bool) (hv : place ∉ visited) :
    Found fs (place :: visited)
      (found ++ scriptsOf (countedEntries fs ignored dir entries)) := by
  obtain ⟨pathOf, hfound⟩ := h
  refine ⟨fun q => if q = place then dir else pathOf q, fun p hp => ?_⟩
  rcases List.mem_append.1 hp with hp | hp
  · -- A directory entered before is not the new one, so its path is still the same.
    obtain ⟨hscript, q, hq, hrest⟩ := hfound p hp
    have hne : q ≠ place := by
      intro heq
      exact hv (heq ▸ hq)
    refine ⟨hscript, q, List.mem_cons_of_mem _ hq, ?_⟩
    simp only [if_neg hne]
    exact hrest
  · unfold scriptsOf at hp
    obtain ⟨e, he, rfl⟩ := List.mem_map.1 hp
    obtain ⟨he, hscript⟩ := List.mem_filter.1 he
    obtain ⟨name, hname, heq⟩ := exists_of_mem_countedEntries he
    rw [Bool.and_eq_true] at hscript
    refine ⟨hscript.2, place, List.mem_cons_self, ?_⟩
    simp only [if_true]
    exact ⟨(resolve_eq_ok_iff.1 hres).1, hreg, name, properName_of_regularAt hreg hres hname, heq⟩

end Enter

/-- What holds of the scripts found so far holds of all in the end. -/
theorem Found.walk {fs : FileTree} {ignored : Path → Bool → Bool} {pending : List Pending}
    {visited : List (List Text)} {found scripts : List Path} (h : Found fs visited found)
    (hreg : ∀ d ∈ pending, fs.RegularAt d.path)
    (hwalk : walkFrom fs ignored pending visited found = .ok scripts) :
    ∃ visited', Found fs visited' scripts := by
  fun_induction walkFrom fs ignored pending visited found with
  | case1 visited found =>
      obtain rfl := Except.ok.inj hwalk
      exact ⟨visited, h⟩
  | case2 visited found dir pending place entries hres hv => cases hwalk
  | case3 visited found dir pending place entries hres hv _ counted ih =>
      have hdir := hreg dir List.mem_cons_self
      refine ih (h.enter hdir hres ignored (by simpa using hv)) (fun d hd => ?_) hwalk
      rcases List.mem_append.1 hd with hd | hd
      · exact regularAt_subdirectories hdir hres hd
      · exact hreg d (List.mem_cons_of_mem dir hd)
  | case4 visited found dir pending hno ih =>
      exact ih h (fun d hd => hreg d (List.mem_cons_of_mem dir hd)) hwalk

/-- The scripts of a project are what the walk finds, sorted. -/
theorem exists_of_collectScripts {fs : FileTree} {root : Path} {settings : Settings}
    {scripts : List Path} (h : collectScripts fs root settings = .ok scripts) :
    ∃ ignored found, walkFrom fs ignored [⟨root, true⟩] [] [] = .ok found ∧
      scripts = found.mergeSort Path.le := by
  unfold collectScripts at h
  cases hexclude : IgnoreRules.ofPatterns root settings.exclude with
  | error e =>
      rw [hexclude] at h
      cases h
  | ok exclude =>
      rw [hexclude] at h
      simp only [bind, Except.bind] at h
      split at h
      · cases h
      · rename_i found hwalk
        exact ⟨_, found, hwalk, (Except.ok.inj h).symm⟩

theorem found_collectScripts {fs : FileTree} {root : Path} {settings : Settings}
    {scripts : List Path} (hreg : fs.RegularAt root)
    (h : collectScripts fs root settings = .ok scripts) : ∃ visited, Found fs visited scripts := by
  obtain ⟨ignored, found, hwalk, rfl⟩ := exists_of_collectScripts h
  have hstart : Found fs [] [] := ⟨fun _ => [], by simp⟩
  obtain ⟨visited, pathOf, hfound⟩ := hstart.walk (by simpa using hreg) hwalk
  exact ⟨visited, pathOf, fun p hp => hfound p (List.mem_mergeSort.1 hp)⟩

/-- Where there is no directory, there are no scripts. -/
theorem collectScripts_eq_nil {fs : FileTree} {root : Path} {settings : Settings}
    {scripts : List Path} (hno : ∀ place entries, fs.resolve root ≠ .ok (place, .directory entries))
    (h : collectScripts fs root settings = .ok scripts) : scripts = [] := by
  obtain ⟨ignored, found, hwalk, rfl⟩ := exists_of_collectScripts h
  rw [walkFrom_other hno, walkFrom] at hwalk
  rw [← Except.ok.inj hwalk, List.mergeSort_nil]

/-- Whether an entry is a script depends on its name. -/
theorem isScript_join {n : Text} (hn : ProperName n) (dir : Path) :
    isScript (Path.join dir n) = isScript n := by
  have hjoin : Path.join [] n = n := by simp [Path.join]
  have hname : Path.fileName? n = some n := by simpa only [hjoin] using fileName?_join hn []
  unfold isScript Path.extension?
  rw [fileName?_join hn, hname]

section Regular

variable {fs : FileTree} {visited : List (List Text)} {scripts : List Path}
  (h : Found fs visited scripts)

include h

/-- A script lies at the place of a directory with its file name behind it. -/
theorem Found.exists_place :
    ∃ pathOf : List Text → Path, ∀ p ∈ scripts, ∀ r, fs.target p = .ok r →
      ∃ place name, r = place ++ [name] ∧ p = Path.join (pathOf place) name ∧
        isScript name = true := by
  obtain ⟨pathOf, hfound⟩ := h
  refine ⟨pathOf, fun p hp r htarget => ?_⟩
  obtain ⟨hscript, place, -, hdir, hreg, name, hname, rfl⟩ := hfound p hp
  obtain ⟨place', hdir', hr⟩ := hreg.target_join (ne_nil_of_target hdir) hname htarget
  rw [hdir] at hdir'
  obtain rfl := Except.ok.inj hdir'
  exact ⟨place, name, hr, rfl, by rw [← isScript_join hname, hscript]⟩

/-- **No two of the scripts found lead to the same file.** -/
theorem Found.eq_of_target {p p' : Path} (hp : p ∈ scripts) (hp' : p' ∈ scripts)
    {r : List Text} (htarget : fs.target p = .ok r) (htarget' : fs.target p' = .ok r) :
    p = p' := by
  obtain ⟨pathOf, hplace⟩ := h.exists_place
  obtain ⟨place, name, hr, hjoin, -⟩ := hplace p hp r htarget
  obtain ⟨place', name', hr', hjoin', -⟩ := hplace p' hp' r htarget'
  obtain ⟨rfl, hname⟩ := List.append_inj' (hr.symm.trans hr') rfl
  obtain rfl : name = name' := by simpa using hname
  rw [hjoin, hjoin']

/-- A regular path whose name is not that of a script leads to none of them. -/
theorem Found.target_ne {dir p : Path} {n : Text} (hreg : fs.RegularAt dir) (hdir : dir ≠ [])
    (hn : ProperName n) (hno : isScript n = false) (hp : p ∈ scripts) {r : List Text}
    (htarget : fs.target p = .ok r) : fs.target (Path.join dir n) ≠ .ok r := by
  intro hother
  obtain ⟨pathOf, hplace⟩ := h.exists_place
  obtain ⟨place, name, hr, -, hscript⟩ := hplace p hp r htarget
  obtain ⟨q, -, hr'⟩ := hreg.target_join hdir hn hother
  obtain ⟨-, hname⟩ := List.append_inj' (hr.symm.trans hr') rfl
  obtain rfl : name = n := by simpa using hname
  rw [hno] at hscript
  cases hscript

end Regular

end Stylewire
