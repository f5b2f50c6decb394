import Stylewire.Proofs.Convergence
import Stylewire.Proofs.WalkTree

set_option autoImplicit false

/-! # Projects inside a project

A directory with a settings file of its own is a project inside the project. A walk looks for
the settings file of a directory before it enters it, but not when it comes from the root. So
a project that lies directly in the root is walked through like any other directory
(`update_enters_project_below_root`), and one that lies deeper is not entered: no path below it is
collected or reported, and an update writes only through the paths that its scan reports
(`deep_projects_left_alone`). This is about paths: a link that lies elsewhere in the project and
leads to a script of a deep project is collected under its own path, and an update writes through
it.
-/

namespace Stylewire

open FileTree

/-! ## What a walk leaves out -/

/-- The path lies below a directory, `depth` levels below the root, with settings of its own. -/
def LiesInProject (fs : FileTree) (root : Path) (depth : Nat) (p : Path) : Prop :=
  ∃ above below : List Text, above.length = depth ∧ below ≠ [] ∧
    (∀ n ∈ above ++ below, ProperName n) ∧
    (Settings.file? fs (Path.descend root above)).isSome = true ∧
    Path.components p = Path.components (Path.descend root (above ++ below))

/-- The directories entered have no settings of their own, but for the start and what lies
directly in the root. -/
theorem Entered.file?_eq_none {fs : FileTree} {ignored : Path → Bool → Bool} {dir : Pending}
    {names above below : List Text} (h : Entered fs ignored dir names)
    (hnames : names = above ++ below) (hdepth : (if dir.isRoot then 1 else 0) < above.length) :
    Settings.file? fs (Path.descend dir.path above) = none := by
  induction h generalizing above with
  | here dir =>
      obtain ⟨rfl, -⟩ := List.append_eq_nil_iff.1 hnames.symm
      simp at hdepth
  | @down dir n names hn hown _ ih =>
      cases above with
      | nil => simp at hdepth
      | cons m above =>
          obtain ⟨rfl, hrest⟩ := List.cons.inj hnames
          cases above with
          | nil =>
              have hbelow : dir.isRoot ≠ true := by
                intro hroot
                simp [hroot] at hdepth
              exact hown.resolve_left hbelow
          | cons k above => exact ih hrest (by simp)

/-- A script that is collected lies in no project two or more levels below the root. -/
theorem Collected.not_liesInProject {fs : FileTree} {ignored : Path → Bool → Bool} {root p : Path}
    (hproper : fs.root.Proper) (h : Collected fs ignored ⟨root, true⟩ p) {depth : Nat}
    (hdepth : 2 ≤ depth) : ¬ LiesInProject fs root depth p := by
  rintro ⟨above, below, rfl, hbelow, hnames, hfile, hcomponents⟩
  obtain ⟨entered, n, hentered, hn, -, rfl⟩ := h
  -- The components of the path give the names on the way, so `above` is the way to one of the
  -- directories entered.
  have hway : entered ++ [n] = above ++ below :=
    Path.eq_of_components_descend (hentered.properName_concat hproper hn) hnames hcomponents
  obtain ⟨rest, last, rfl⟩ := (List.eq_nil_or_concat below).resolve_left hbelow
  rw [List.concat_eq_append, ← List.append_assoc] at hway
  obtain ⟨hentered', -⟩ := List.append_inj' hway rfl
  have hnone := hentered.file?_eq_none hentered' hdepth
  rw [hnone] at hfile
  cases hfile

theorem mem_collectScripts {fs : FileTree} {root : Path} {settings : Settings}
    {scripts : List Path} (h : collectScripts fs root settings = .ok scripts) :
    ∃ exclude, IgnoreRules.ofPatterns root settings.exclude = .ok exclude ∧
      ∀ p, p ∈ scripts ↔ Collected fs (ignoring fs root settings exclude) ⟨root, true⟩ p := by
  obtain ⟨exclude, hexclude, places, found, hwalk, -, rfl⟩ := collectScripts_eq_ok_iff.1 h
  refine ⟨exclude, hexclude, fun p => ?_⟩
  rw [List.mem_mergeSort, hwalk.mem_iff]
  simp

/-! ## What a scan reports -/

namespace Scan

/-- The scripts that a scan names. -/
def reported (s : Scan) : List Path :=
  s.files.map FileChange.path ++ s.oversized ++ s.malformed.map MalformedSource.path

theorem reported_addModule {s : Scan} {p q : Path} {before : Text} {m : WiredModule}
    (h : q ∈ (s.addModule p before m).reported) : q ∈ s.reported ∨ q = p := by
  have hfiles : ∀ b : Bool, q ∈ (if b = true then s.files ++ [⟨p, before, m.outcome⟩]
      else s.files).map FileChange.path → q ∈ s.files.map FileChange.path ∨ q = p := by
    intro b hq
    cases b with
    | true => simpa using hq
    | false => exact Or.inl hq
  have hmalformed : ∀ n : Nat, q ∈ (if 0 < n then s.malformed ++ [⟨p, n⟩]
      else s.malformed).map MalformedSource.path →
        q ∈ s.malformed.map MalformedSource.path ∨ q = p := by
    intro n hq
    split at hq
    · simpa using hq
    · exact Or.inl hq
  unfold reported addModule at h
  simp only [List.mem_append] at h
  unfold reported
  rw [List.mem_append, List.mem_append]
  rcases h with (h | h) | h
  · exact (hfiles _ h).imp_left fun hq => Or.inl (Or.inl hq)
  · exact Or.inl (Or.inl (Or.inr h))
  · exact (hmalformed _ h).imp_left Or.inr

/-- A visit reports no other script. -/
theorem reported_visit {fs : FileTree} {settings : Settings} {state state' : Session × Scan}
    {p q : Path} (h : visit fs settings state p = .ok state') (hq : q ∈ state'.2.reported) :
    q ∈ state.2.reported ∨ q = p := by
  obtain ⟨session, s⟩ := state
  rw [visit_eq (isFile_of_visit h)] at h
  obtain rfl := Except.ok.inj h
  split at hq
  · simp only [reported, List.mem_append] at hq ⊢
    rcases hq with (hq | hq | hq) | hq
    · exact Or.inl (Or.inl (Or.inl hq))
    · exact Or.inl (Or.inl (Or.inr hq))
    · split at hq
      · exact Or.inr (List.mem_singleton.1 hq)
      · cases hq
    · exact Or.inl (Or.inr hq)
  · split at hq
    · exact Or.inl hq
    · exact reported_addModule hq

theorem reported_foldlM {fs : FileTree} {settings : Settings} {scripts : List Path}
    {state state' : Session × Scan} (h : scripts.foldlM (visit fs settings) state = .ok state')
    {q : Path} (hq : q ∈ state'.2.reported) : q ∈ state.2.reported ∨ q ∈ scripts := by
  induction scripts generalizing state with
  | nil =>
      obtain rfl := Except.ok.inj h
      exact Or.inl hq
  | cons p scripts ih =>
      rw [List.foldlM_cons] at h
      cases hvisit : visit fs settings state p with
      | error e =>
          rw [hvisit] at h
          cases h
      | ok state₁ =>
          rw [hvisit] at h
          rcases ih h with hq₁ | hq₁
          · rcases reported_visit hvisit hq₁ with hq₂ | rfl
            · exact Or.inl hq₂
            · exact Or.inr List.mem_cons_self
          · exact Or.inr (List.mem_cons_of_mem p hq₁)

/-- A scan reports only scripts that are collected. -/
theorem exists_of_reported {fs : FileTree} {root : Path} {settings : Settings} {s : Scan}
    (h : run fs root settings = .ok s) :
    ∃ scripts, collectScripts fs root settings = .ok scripts ∧ ∀ q ∈ s.reported, q ∈ scripts := by
  obtain ⟨rules, scripts, hrules, hscripts, -⟩ := exists_of_run h
  refine ⟨scripts, hscripts, fun q hq => ?_⟩
  unfold run at h
  rw [hrules, hscripts] at h
  simp only [bind, Except.bind] at h
  split at h
  · cases h
  · rename_i state hfold
    obtain rfl := Except.ok.inj h
    exact (reported_foldlM hfold hq).resolve_left (by simp [reported])

/-- The scripts that a scan changes are files. -/
theorem isFile_of_mem_files {fs : FileTree} {root : Path} {settings : Settings} {s : Scan}
    (h : run fs root settings = .ok s) : ∀ f ∈ s.files, fs.isFile f.path = true := by
  obtain ⟨rules, scripts, hrules, hscripts, hfile⟩ := exists_of_run h
  obtain ⟨s', hrun, hfiles, -⟩ := run_spec hrules hscripts hfile
  rw [h] at hrun
  obtain rfl := Except.ok.inj hrun
  intro f hf
  rw [hfiles] at hf
  exact hfile f.path (mem_changes.1 hf).1

end Scan

/-! ## What an update writes -/

/-- Watching leaves the tree as it is. -/
theorem tree_watch (c : Command.Context) (doing : String) (r : RunResult) :
    (c.watch doing r).tree = r.tree := by
  unfold Command.Context.watch
  split
  · rfl
  · rfl

/-- After an update the tree is as before, or the files of the scan are written. -/
theorem tree_update {fs : FileTree} {root : Path} {settings : Settings} {s : Scan}
    (hload : Settings.load fs root = .ok settings) (hrun : Scan.run fs root settings = .ok s)
    (color verbose dryRun watch : Bool) :
    (Command.run ⟨fs, root, color, verbose⟩ (.update dryRun watch)).tree = fs ∨
      (Command.run ⟨fs, root, color, verbose⟩ (.update dryRun watch)).tree = (s.write fs).1 := by
  have hmap : ∀ r : RunResult, ((Command.Context.mk fs root color verbose).finish
      ((Except.ok r).map fun r => if watch && !dryRun && r.failure.isNone then
        (Command.Context.mk fs root color verbose).watch "updating" r else r)).tree = r.tree := by
    intro r
    show (if (watch && !dryRun && r.failure.isNone) = true then
      (Command.Context.mk fs root color verbose).watch "updating" r else r).tree = r.tree
    split
    · exact tree_watch _ _ r
    · rfl
  unfold Command.run Command.runUpdate
  simp only [hload, hrun, bind, Except.bind]
  by_cases hclean : s.isClean = true
  · rw [if_pos hclean]
    exact Or.inl (hmap _)
  · rw [if_neg hclean]
    cases dryRun with
    | true => exact Or.inl (hmap _)
    | false =>
        right
        cases hwrite : s.write fs with
        | mk tree failure =>
            cases failure with
            | none => exact hmap _
            | some e => exact hmap _

/-- An update changes a file only through the path of a change that its scan tells of. -/
theorem exists_of_update {fs : FileTree} {root : Path} {color verbose dryRun watch : Bool}
    {place : List Text}
    (h : (Command.run ⟨fs, root, color, verbose⟩ (.update dryRun watch)).tree.content? place ≠
      fs.content? place) :
    ∃ settings s, Settings.load fs root = .ok settings ∧ Scan.run fs root settings = .ok s ∧
      ∃ f ∈ s.files, fs.target f.path = .ok place := by
  cases hload : Settings.load fs root with
  | error e =>
      unfold Command.run Command.runUpdate at h
      simp only [hload] at h
      exact absurd rfl h
  | ok settings =>
      cases hrun : Scan.run fs root settings with
      | error e =>
          unfold Command.run Command.runUpdate at h
          simp only [hload, bind, Except.bind, hrun] at h
          exact absurd rfl h
      | ok s =>
          rcases tree_update hload hrun color verbose dryRun watch with hsame | hwritten
          · rw [hsame] at h
            exact absurd rfl h
          · rw [hwritten] at h
            refine ⟨settings, s, rfl, hrun, Classical.byContradiction fun hno => h ?_⟩
            have hkept := ((Scan.writeAll_spec fs (Scan.isFile_of_mem_files hrun)).2 place).1
              fun f hf htarget => hno ⟨f, hf, htarget⟩
            rw [Scan.write, content?, content?, hkept]

/-! ## Projects below the root -/

/-- What the inner project holds: a script with its stylesheet, and one more project. -/
def innerEntries : List (Text × Node) :=
  [("bellagonia.toml".toList, .file (.text [])), ("a.css".toList, .file (.text [])),
    ("a.js".toList, .file (.text "directive(x, y)".toList)),
    ("deep".toList, .directory
      [("bellagonia.toml".toList, .file (.text [])), ("b.js".toList, .file (.text []))])]

/-- What the outer project holds: its settings and the inner project. -/
def outerEntries : List (Text × Node) :=
  [("bellagonia.toml".toList, .file (.text
      "directive_sources=['**']\nmax_file_size=70\n[resolver]\nextensions=['.css']".toList)),
    ("sub".toList, .directory innerEntries)]

/-- A project in a project in a project. -/
def nestedProject : FileTree := Scan.flatProject outerEntries

theorem resolve_inner :
    nestedProject.resolve "p/sub".toList =
      .ok ([['p'], "sub".toList], .directory innerEntries) := by
  cbv

/-- What is left out of it: only what is left out everywhere. -/
def nestedIgnored : Path → Bool → Bool :=
  ignoring nestedProject ['p'] Scan.smallFiles ⟨['p'], []⟩

/-- The walk enters the inner project, but not the one below it. -/
theorem collectScripts_nestedProject :
    collectScripts nestedProject ['p'] Scan.smallFiles = .ok ["p/sub/a.js".toList] := by
  have hinner : subdirectories nestedProject false
      (countedEntries nestedProject nestedIgnored "p/sub".toList innerEntries) = [] := by cbv
  have hinner' : scriptsOf (countedEntries nestedProject nestedIgnored "p/sub".toList
      innerEntries) = ["p/sub/a.js".toList] := by cbv
  have houter : subdirectories nestedProject true
      (countedEntries nestedProject nestedIgnored ['p'] outerEntries) =
        [⟨"p/sub".toList, false⟩] := by cbv
  have houter' : scriptsOf (countedEntries nestedProject nestedIgnored ['p'] outerEntries) =
      [] := by cbv
  have hwalk : Walks nestedProject nestedIgnored [⟨['p'], true⟩]
      [[['p']], [['p'], "sub".toList]] ([] ++ (["p/sub/a.js".toList] ++ [])) :=
    .single (Scan.resolve_flatProject outerEntries) houter houter'
      (.single resolve_inner hinner hinner' .nil)
  exact collectScripts_eq_ok_iff.2 ⟨⟨['p'], []⟩, rfl, _, _, hwalk, by decide, by cbv⟩

/-- The script of the inner project is one that an update changes. -/
theorem run_nestedProject :
    ∃ s, Scan.run nestedProject ['p'] Scan.smallFiles = .ok s ∧
      s.files = [⟨"p/sub/a.js".toList, "directive(x, y)".toList,
        Wiring.wire {} "directive(x, y)".toList "./a.css".toList⟩] := by
  have heval : (Scan.smallFiles.rules.map fun r =>
      r.autoStyles && ["p/sub/a.js".toList].all r.sources.isMatch) = .ok true := by cbv
  obtain ⟨rules, hrules, hauto, hmatch⟩ := Scan.exists_rules heval
  have hw : rules.wiring = {} := Scan.wiring_of_rules hrules rfl
  have hread : nestedProject.readText "p/sub/a.js".toList =
      .ok "directive(x, y)".toList := by cbv
  have hsheet : nestedProject.resolve "p/sub/a.css".toList =
      .ok ([['p'], "sub".toList, "a.css".toList], .file (.text [])) := by cbv
  have hsibling : Stylesheet.sibling? Scan.smallFiles.extensions nestedProject.isFile
      "p/sub/a.js".toList = some ⟨"p/sub/a.css".toList, "./a.css".toList⟩ :=
    Scan.sibling?_cons (by decide +kernel : Path.parent? _ = some "p/sub".toList)
      (by decide +kernel : Stylesheet.baseName? _ = some ['a']) [] hsheet
  have hcall : rules.wiring.hasCall "directive(x, y)".toList = true := by
    rw [hw]
    decide +kernel
  have hchange := Scan.change?_of_read hread (by decide)
    (Rules.eligible?_eq_some_iff.2
      ⟨⟨hauto, by decide +kernel, hcall, hmatch _ (by simp)⟩, hsibling⟩)
  rw [hw] at hchange
  obtain ⟨s, hrun, hfiles, -⟩ := Scan.run_spec hrules collectScripts_nestedProject
    (List.forall_mem_singleton.2 (by cbv))
  refine ⟨s, hrun, ?_⟩
  rw [hfiles, List.filterMap_cons, hchange (by decide +kernel)]
  rfl

/-- **Deep projects are left alone.** The scripts collected are those that count in a directory
entered, and none of their paths lies in a project two or more levels below the root. So a scan
reports no path in such a project. If an update changes a file, then its own scan tells of a change
at a path that leads to the file, and that path does not lie in such a project either. -/
theorem deep_projects_left_alone {fs : FileTree} (hproper : fs.root.Proper) (root : Path)
    (settings : Settings) :
    (∀ scripts, collectScripts fs root settings = .ok scripts →
      (∃ exclude, IgnoreRules.ofPatterns root settings.exclude = .ok exclude ∧
        ∀ p, p ∈ scripts ↔ Collected fs (ignoring fs root settings exclude) ⟨root, true⟩ p) ∧
      ∀ p ∈ scripts, ∀ depth, 2 ≤ depth → ¬ LiesInProject fs root depth p) ∧
    (∀ s, Scan.run fs root settings = .ok s →
      ∀ p ∈ s.reported, ∀ depth, 2 ≤ depth → ¬ LiesInProject fs root depth p) ∧
    ∀ color verbose dryRun watch place,
      (Command.run ⟨fs, root, color, verbose⟩ (.update dryRun watch)).tree.content? place ≠
        fs.content? place →
      ∃ own s, Settings.load fs root = .ok own ∧ Scan.run fs root own = .ok s ∧
        ∃ f ∈ s.files, fs.target f.path = .ok place ∧
          ∀ depth, 2 ≤ depth → ¬ LiesInProject fs root depth f.path := by
  have hcollected : ∀ {settings : Settings} {scripts : List Path},
      collectScripts fs root settings = .ok scripts → ∀ p ∈ scripts,
        ∀ depth, 2 ≤ depth → ¬ LiesInProject fs root depth p := by
    intro settings scripts hscripts p hp depth hdepth
    obtain ⟨exclude, -, hmem⟩ := mem_collectScripts hscripts
    exact ((hmem p).1 hp).not_liesInProject hproper hdepth
  have hreported : ∀ {settings : Settings} {s : Scan}, Scan.run fs root settings = .ok s →
      ∀ p ∈ s.reported, ∀ depth, 2 ≤ depth → ¬ LiesInProject fs root depth p := by
    intro settings s hrun p hp
    obtain ⟨scripts, hscripts, hmem⟩ := Scan.exists_of_reported hrun
    exact hcollected hscripts p (hmem p hp)
  refine ⟨fun scripts hscripts => ⟨mem_collectScripts hscripts, hcollected hscripts⟩,
    fun s hrun => hreported hrun, ?_⟩
  intro color verbose dryRun watch place hchanged
  obtain ⟨own, s, hload, hrun, f, hf, htarget⟩ := exists_of_update hchanged
  refine ⟨own, s, hload, hrun, f, hf, htarget, hreported hrun f.path ?_⟩
  unfold Scan.reported
  simp only [List.mem_append, List.mem_map]
  exact Or.inl (Or.inl ⟨f, hf, rfl⟩)

/-- The innermost project lies two levels below the root, and its script is not collected. -/
theorem deep_projects_left_alone_nestedProject :
    nestedProject.root.Proper ∧ LiesInProject nestedProject ['p'] 2 "p/sub/deep/b.js".toList ∧
      ∃ scripts, collectScripts nestedProject ['p'] Scan.smallFiles = .ok scripts ∧
        scripts ≠ [] ∧ "p/sub/deep/b.js".toList ∉ scripts := by
  have hproper : nestedProject.root.Proper := by
    simp only [nestedProject, Scan.flatProject, outerEntries, innerEntries, Node.Proper,
      ProperEntries]
    decide
  have hlies : LiesInProject nestedProject ['p'] 2 "p/sub/deep/b.js".toList :=
    ⟨["sub".toList, "deep".toList], ["b.js".toList], rfl, by decide, by decide, by cbv,
      by decide +kernel⟩
  refine ⟨hproper, hlies, _, collectScripts_nestedProject, by decide, fun hmem => ?_⟩
  have halone := (deep_projects_left_alone hproper ['p'] Scan.smallFiles).1 _
    collectScripts_nestedProject
  exact halone.2 _ hmem 2 (Nat.le_refl 2) hlies

/-- The inner project lies directly in the root. Its script is collected, the scan reports it,
and the update writes it. -/
theorem update_enters_project_below_root :
    LiesInProject nestedProject ['p'] 1 "p/sub/a.js".toList ∧
      (∃ scripts, collectScripts nestedProject ['p'] Scan.smallFiles = .ok scripts ∧
        "p/sub/a.js".toList ∈ scripts) ∧
      (∃ s, Scan.run nestedProject ['p'] Scan.smallFiles = .ok s ∧
        "p/sub/a.js".toList ∈ s.reported) ∧
      Settings.load nestedProject ['p'] = .ok Scan.smallFiles ∧
      (Command.run ⟨nestedProject, ['p'], false, false⟩ (.update false false)).tree.content?
        [['p'], "sub".toList, "a.js".toList] =
          some (.text (Wiring.wire {} "directive(x, y)".toList "./a.css".toList).code) ∧
      nestedProject.content? [['p'], "sub".toList, "a.js".toList] =
        some (.text "directive(x, y)".toList) := by
  obtain ⟨s, hrun, hfiles⟩ := run_nestedProject
  have hload : Settings.load nestedProject ['p'] = .ok Scan.smallFiles := by cbv
  have hbefore : nestedProject.content? [['p'], "sub".toList, "a.js".toList] =
      some (.text "directive(x, y)".toList) := rfl
  have htarget : nestedProject.target "p/sub/a.js".toList =
      .ok [['p'], "sub".toList, "a.js".toList] := by cbv
  obtain ⟨fs', hwrite, -, hcontent⟩ := (write_spec htarget
    (rfl : nestedProject.fileAt? _ = some (.text "directive(x, y)".toList))
    (Wiring.wire {} "directive(x, y)".toList "./a.css".toList).code).2 rfl
  have hwritten : s.write nestedProject = (fs', none) := by
    rw [Scan.write, hfiles, Scan.writeAll, hwrite]
    rfl
  refine ⟨⟨["sub".toList], ["a.js".toList], rfl, by decide, by decide, by cbv, by decide +kernel⟩,
    ⟨_, collectScripts_nestedProject, by decide⟩, ⟨s, hrun, ?_⟩, hload, ?_, hbefore⟩
  · rw [Scan.reported, hfiles]
    simp
  · rw [Scan.tree_of_update hload hrun hwritten, content?, hcontent, if_pos rfl]
    rfl

end Stylewire
