import Mathlib
import Stylewire.Command.Run
import Stylewire.Proofs.FixedPoint
import Stylewire.Proofs.ProjectScan

set_option autoImplicit false

/-! # Updating a project once is enough

An update scans a project and writes the new texts. If all of them could be written, the tree it
leaves has the shape it had, the same scripts, and the same settings; each script that changed has
its new text, and every other script is the file it was (`updated_spec`). So the next scan goes
through the same scripts (`exists_rescan`), and tells of those changes whose new text is not *up to
date* (`Rescan.mem_files_iff`).

A new text is up to date if what wiring added is *read back*: the import is found again, and
so are the marks. Then the next scan is clean, and it lists the same stylesheets if the scripts
that changed are still within the size limit and still have a call (`update_converges`). A script
may grow above the limit by the update itself (`update_outgrows_limit`).
-/

namespace Stylewire

open FileTree
open Rules (eligible?_eq_some_iff)

/-! ## Wiring twice -/

namespace Wiring

variable {w : Wiring}

/-- There is **nothing to do** in a text: it imports the module under the marker, and every call
that is closed is marked. -/
structure UpToDate (w : Wiring) (code module : Text) : Prop where
  hasImport : hasImport code module w.marker.text = true
  isMarked : ∀ i ∈ callSites w.directive code, ∀ a ∈ ArgumentList.read? code i,
    isMarked code a w.marker.text = true

/-- What wiring adds to a source text is **read back**: the new text is seen to import the
module under the marker, and the options objects of its calls end with a brace, so that the
marks in them are found. -/
structure ReadsBack (w : Wiring) (source module : Text) : Prop where
  hasImport : hasImport (w.wire source module).code module w.marker.text = true
  braced : ∀ i ∈ callSites w.directive (ensureImport source module w.marker.text),
    ∀ a ∈ ArgumentList.read? (ensureImport source module w.marker.text) i, ∀ o ∈ a.options,
      (o.body (ensureImport source module w.marker.text)).getLast? = some '}'

theorem verdict_ne_none_iff {t : Text} {i : Nat} :
    w.verdict t i ≠ none ↔
      ∀ a ∈ ArgumentList.read? t i, Stylewire.isMarked t a w.marker.text = true := by
  unfold verdict
  cases ArgumentList.read? t i with
  | none => simp
  | some a => by_cases hm : Stylewire.isMarked t a w.marker.text = true <;> simp [hm]

/-- Wiring changes a text exactly if there is something to do. -/
theorem upToDate_iff {code module : Text} :
    w.UpToDate code module ↔ (w.wire code module).isChanged = false := by
  constructor
  · intro h
    rw [wire_eq_self h.hasImport fun i hi => verdict_ne_none_iff.2 (h.isMarked i hi)]
    rfl
  · intro h
    rw [Outcome.isChanged, Bool.or_eq_false_iff, decide_eq_false_iff_not, Nat.not_lt,
      Nat.le_zero] at h
    obtain ⟨hadded, hinjected⟩ := h
    rw [wire_importAdded, Bool.not_eq_false'] at hadded
    refine ⟨hadded, fun i hi => verdict_ne_none_iff.1 fun hnone => ?_⟩
    rw [wire_injected, ensureImport_eq_self hadded, List.countP_eq_zero] at hinjected
    exact hinjected i hi (by rw [hnone]; rfl)

/-- A text that reads back is up to date. -/
theorem ReadsBack.upToDate {source module : Text} (h : w.ReadsBack source module) :
    w.UpToDate (w.wire source module).code module :=
  ⟨h.hasImport, fun j hj => verdict_ne_none_iff.1
    (verdict_wire_ne_none (braced_of_options h.braced) j hj)⟩

end Wiring

namespace Scan

/-! ## The tree after the update -/

section Update

variable {fs fs' : FileTree} {root : Path} {settings : Settings} {rules : Rules}
  {scripts : List Path}

/-- **The tree after the update** has the same shape, the same scripts and the same settings.
A script that changed has its new text there, and every other one is the file it was. -/
theorem updated_spec (hreg : fs.RegularAt root)
    (hscripts : collectScripts fs root settings = .ok scripts)
    (hfile : ∀ p ∈ scripts, fs.isFile p = true)
    (hwrite : writeAll fs (scripts.filterMap (change? fs settings rules)) = (fs', none)) :
    SameShape fs fs' ∧ collectScripts fs' root settings = .ok scripts ∧
      Settings.load fs' root = Settings.load fs root ∧
      ∀ p ∈ scripts, (change? fs settings rules p = none → fs'.file p = fs.file p) ∧
        ∀ f, change? fs settings rules p = some f → fs'.readText p = .ok f.outcome.code := by
  by_cases hroot : root = []
  · -- The empty path leads nowhere, so there is nothing to write.
    have hnowhere : ∀ place entries, fs.resolve root ≠ .ok (place, .directory entries) := by
      intro place entries hres
      rw [hroot] at hres
      cases hres
    obtain rfl := collectScripts_eq_nil hnowhere hscripts
    obtain rfl : fs = fs' := (Prod.mk.inj hwrite).1
    exact ⟨SameShape.refl fs, hscripts, rfl, by simp⟩
  obtain ⟨visited, hfound⟩ := found_collectScripts hreg hscripts
  have hfiles : ∀ f ∈ scripts.filterMap (change? fs settings rules), fs.isFile f.path = true :=
    fun f hf => hfile f.path (mem_changes.1 hf).1
  obtain ⟨hshape, hcontent⟩ := writeAll_spec fs hfiles
  rw [hwrite] at hshape hcontent
  have hother : ∀ {dir : Path} {n : Text}, fs.RegularAt dir → dir ≠ [] → ProperName n →
      isScript n = false → ∀ place, fs.target (Path.join dir n) = .ok place →
        fs'.fileAt? place = fs.fileAt? place := by
    intro dir n hdir hne hn hno place hplace
    refine (hcontent place).1 fun f hf htarget => ?_
    exact hfound.target_ne hdir hne hn hno (mem_changes.1 hf).1 htarget hplace
  have hignore : ProperName ".gitignore".toList := by decide
  refine ⟨hshape, ?_, ?_, fun p hp => ?_⟩
  · rw [collectScripts_congr hshape (hother hreg hroot hignore (by decide)), hscripts]
  · refine load_congr hshape fun n hn place hplace => ?_
    obtain ⟨dir, m, hjoin, hm, hno, hdir, hbelow⟩ := fileNames_join hn hroot
    rw [hjoin] at hplace
    exact hother (hbelow fs hreg) hdir hm hno place hplace
  · -- Only the change of this script leads to its place.
    have hunique : ∀ place, fs.target p = .ok place →
        ∀ g ∈ scripts.filterMap (change? fs settings rules), fs.target g.path = .ok place →
          change? fs settings rules p = some g := by
      intro place htarget g hg hgplace
      obtain ⟨hmem, hchange⟩ := mem_changes.1 hg
      rw [hfound.eq_of_target hp hmem htarget hgplace, hchange]
    constructor
    · intro hnone
      refine hshape.sameKinds.file_congr fun place htarget => (hcontent place).1 ?_
      intro g hg hgplace
      have hsome := hunique place htarget g hg hgplace
      rw [hnone] at hsome
      cases hsome
    · intro f hchange
      obtain ⟨file, hbefore, hreadable, -⟩ := file_of_readText (exists_of_change? hchange).1
      obtain ⟨place, htarget, hplace⟩ := file_eq_ok_iff.1 hbefore
      have hpath := path_of_change? hchange
      have hnew := (hcontent place).2 rfl f
        (mem_changes.2 ⟨by rw [hpath]; exact hp, by rw [hpath]; exact hchange⟩)
        (by rw [hpath, htarget]) fun g hg hgplace => by
          have hsome := hunique place htarget g hg hgplace
          rw [hchange] at hsome
          exact (Option.some.inj hsome).symm
      rw [hplace] at hnew
      have htarget' : fs'.target p = .ok place := by rw [← hshape.target_congr, htarget]
      exact readText_of_file (file_eq_ok_iff.2 ⟨place, htarget', hnew⟩) hreadable rfl

/-! ## The scan after the update -/

/-- A script that did not change is told of as before. -/
theorem module?_kept (hshape : SameShape fs fs') {p : Path} (hfile : fs'.file p = fs.file p) :
    module? fs' settings rules p = module? fs settings rules p := by
  rw [module?, module?, source?, source?, isOversized, isOversized, size_congr hfile,
    readText_congr hfile, hshape.isFile_congr]

/-- A script that changed is eligible again if its new text is within the size limit and has a
call. -/
theorem module?_updated (hshape : SameShape fs fs') {p : Path} {f : FileChange}
    (h : change? fs settings rules p = some f)
    (hread : fs'.readText p = .ok f.outcome.code) {s : Stylesheet}
    (hs : Stylesheet.sibling? settings.extensions fs.isFile p = some s) :
    module? fs' settings rules p =
      if f.outcome.code.byteSize ≤ settings.maxFileSize ∧
          rules.wiring.hasCall f.outcome.code = true then
        some (f.outcome.code, ⟨rules.wiring.wire f.outcome.code s.specifier, s⟩)
      else none := by
  obtain ⟨-, -, s', hs', -⟩ := exists_of_change? h
  obtain ⟨⟨hauto, hcandidate, -, hmatch⟩, -⟩ := eligible?_eq_some_iff.1 hs'
  rw [module?, source?_text hread, ← hshape.isFile_congr]
  by_cases hsize : settings.maxFileSize < f.outcome.code.byteSize
  · rw [if_pos hsize, if_neg fun hkept => absurd hsize (Nat.not_lt.2 hkept.1)]
    rfl
  · rw [if_neg hsize, Option.bind_some, Rules.wire?]
    by_cases hcall : rules.wiring.hasCall f.outcome.code = true
    · rw [eligible?_eq_some_iff.2 ⟨⟨hauto, hcandidate, hcall, hmatch⟩, hs⟩,
        if_pos ⟨Nat.not_lt.1 hsize, hcall⟩]
      rfl
    · have hnone : rules.eligible? (Stylesheet.sibling? settings.extensions fs.isFile)
          f.outcome.code p = none :=
        Option.eq_none_iff_forall_ne_some.2 fun t ht =>
          hcall (eligible?_eq_some_iff.1 ht).1.2.2.1
      rw [hnone, if_neg fun hkept => hcall hkept.2]
      rfl

/-- A scan, the update and the scan after it: `a` is what is told of the scripts of `fs`, the
update leads to `fs'`, and `b` is what is told of the same scripts there. -/
structure Rescan (fs : FileTree) (root : Path) (settings : Settings) (rules : Rules)
    (scripts : List Path) (a : Scan) (fs' : FileTree) (b : Scan) : Prop where
  shape : SameShape fs fs'
  run : Scan.run fs' root settings = .ok b
  load : Settings.load fs' root = Settings.load fs root
  /-- A script that did not change is the file it was. -/
  kept : ∀ p ∈ scripts, change? fs settings rules p = none → fs'.file p = fs.file p
  /-- A script that changed has its new text. -/
  updated : ∀ p ∈ scripts, ∀ f, change? fs settings rules p = some f →
    fs'.readText p = .ok f.outcome.code
  files_before : a.files = scripts.filterMap (change? fs settings rules)
  files_after : b.files = scripts.filterMap (change? fs' settings rules)
  styles_before :
    a.styles = ((scripts.filterMap (style? fs settings rules)).foldl Registry.add {}).paths
  styles_after :
    b.styles = ((scripts.filterMap (style? fs' settings rules)).foldl Registry.add {}).paths

/-- **A scan can be repeated after the update.** -/
theorem exists_rescan (hreg : fs.RegularAt root) {a : Scan}
    (hrun : Scan.run fs root settings = .ok a) (hwrite : a.write fs = (fs', none)) :
    ∃ rules scripts b, settings.rules = .ok rules ∧
      collectScripts fs root settings = .ok scripts ∧
      Rescan fs root settings rules scripts a fs' b := by
  obtain ⟨rules, scripts, hrules, hscripts, hfile⟩ := exists_of_run hrun
  obtain ⟨a', hrun', hfiles, hstyles⟩ := run_spec hrules hscripts hfile
  rw [hrun] at hrun'
  obtain rfl := Except.ok.inj hrun'
  rw [Scan.write, hfiles] at hwrite
  obtain ⟨hshape, hscripts', hload, hnew⟩ := updated_spec hreg hscripts hfile hwrite
  obtain ⟨b, hrun', hfiles', hstyles'⟩ := run_spec hrules hscripts' fun p hp => by
    rw [← hshape.isFile_congr]
    exact hfile p hp
  exact ⟨rules, scripts, b, hrules, hscripts, hshape, hrun', hload, fun p hp => (hnew p hp).1,
    fun p hp => (hnew p hp).2, hfiles, hfiles', hstyles, hstyles'⟩

namespace Rescan

variable {a b : Scan} (h : Rescan fs root settings rules scripts a fs' b)

include h

/-- **What the second scan reports**: the scripts that the update changed, that are still
eligible, and whose new text is not up to date. -/
theorem mem_files_iff {p : Path} :
    p ∈ b.files.map FileChange.path ↔ ∃ f ∈ a.files, f.path = p ∧
      f.outcome.code.byteSize ≤ settings.maxFileSize ∧
      rules.wiring.hasCall f.outcome.code = true ∧
      ∃ s ∈ Stylesheet.sibling? settings.extensions fs.isFile p,
        ¬ rules.wiring.UpToDate f.outcome.code s.specifier := by
  rw [h.files_before, h.files_after, List.mem_map]
  constructor
  · rintro ⟨g, hg, rfl⟩
    obtain ⟨hp, hg⟩ := mem_changes.1 hg
    cases hf : change? fs settings rules g.path with
    | none =>
        -- Nothing was written, so the second scan finds what the first one did.
        rw [change?, module?_kept h.shape (h.kept g.path hp hf), ← change?, hf] at hg
        cases hg
    | some f =>
        obtain ⟨-, -, s, hs, -⟩ := exists_of_change? hf
        have hsibling := (eligible?_eq_some_iff.1 hs).2
        rw [change?, module?_updated h.shape hf (h.updated g.path hp f hf) hsibling] at hg
        split at hg
        · rename_i hkept
          obtain ⟨m, hm, -⟩ := Option.map_eq_some_iff.1 hg
          obtain ⟨hm, hchanged⟩ := Option.filter_eq_some_iff.1 hm
          obtain rfl := Option.some.inj hm
          refine ⟨f, List.mem_filterMap.2 ⟨_, hp, hf⟩, path_of_change? hf, hkept.1, hkept.2, s,
            hsibling, fun hdone => ?_⟩
          rw [Wiring.upToDate_iff.1 hdone] at hchanged
          cases hchanged
        · cases hg
  · rintro ⟨f, hf, rfl, hsize, hcall, s, hs, hno⟩
    obtain ⟨hp, hf⟩ := mem_changes.1 hf
    have hmodule := module?_updated h.shape hf (h.updated f.path hp f hf) hs
    rw [if_pos ⟨hsize, hcall⟩] at hmodule
    have hchanged : (rules.wiring.wire f.outcome.code s.specifier).isChanged = true := by
      rw [← Bool.not_eq_false]
      exact fun hsame => hno (Wiring.upToDate_iff.2 hsame)
    refine ⟨⟨f.path, f.outcome.code, rules.wiring.wire f.outcome.code s.specifier⟩,
      mem_changes.2 ⟨hp, ?_⟩, rfl⟩
    rw [change?, hmodule]
    simp [Option.filter, hchanged]

/-- The stylesheets stay the same if the scripts that changed are still within the size limit
and still have a call. -/
theorem styles_eq (hkept : ∀ f ∈ a.files, f.outcome.code.byteSize ≤ settings.maxFileSize ∧
    rules.wiring.hasCall f.outcome.code = true) : b.styles = a.styles := by
  have hstyle : ∀ p ∈ scripts, style? fs' settings rules p = style? fs settings rules p := by
    intro p hp
    cases hf : change? fs settings rules p with
    | none => rw [style?, module?_kept h.shape (h.kept p hp hf), ← style?]
    | some f =>
        have hmem : f ∈ a.files := by
          rw [h.files_before]
          exact List.mem_filterMap.2 ⟨p, hp, hf⟩
        obtain ⟨-, -, s, hs, -, hstyle⟩ := exists_of_change? hf
        rw [hstyle, style?, module?_updated h.shape hf (h.updated p hp f hf)
          (eligible?_eq_some_iff.1 hs).2, if_pos (hkept f hmem)]
        rfl
  rw [h.styles_after, h.styles_before, List.filterMap_congr hstyle]

end Rescan

end Update

/-! ## The commands -/

/-- An update ends with the tree that writing leads to, if all files are written. -/
theorem tree_of_update {fs fs' : FileTree} {root : Path} {settings : Settings} {a : Scan}
    (hload : Settings.load fs root = .ok settings) (hrun : Scan.run fs root settings = .ok a)
    (hwrite : a.write fs = (fs', none)) {color verbose : Bool} :
    (Command.run ⟨fs, root, color, verbose⟩ (.update false false)).tree = fs' := by
  unfold Command.run Command.runUpdate
  simp only [hload, hrun, bind, Except.bind]
  by_cases hclean : a.isClean = true
  · have hfiles : a.files = [] := List.isEmpty_iff.1 hclean
    have hsame : fs = fs' := by
      rw [Scan.write, hfiles] at hwrite
      exact (Prod.mk.inj hwrite).1
    rw [if_pos hclean]
    exact hsame
  · rw [if_neg hclean]
    simp only [Bool.false_eq_true, if_false, hwrite]
    rfl

/-- A check ends well exactly if the scan is clean. -/
theorem run_check {fs : FileTree} {root : Path} {settings : Settings} {b : Scan}
    (hload : Settings.load fs root = .ok settings) (hrun : Scan.run fs root settings = .ok b)
    {color verbose diff : Bool} {format : ReportFormat} :
    (Command.run ⟨fs, root, color, verbose⟩ (.check diff format false)).exit =
      if b.isClean then 0 else 1 := by
  unfold Command.run Command.runCheck
  simp only [hload, hrun, bind, Except.bind]
  rfl

theorem wiring_of_rules {settings : Settings} {rules : Rules} {w : Wiring}
    (hrules : settings.rules = .ok rules)
    (hw : Wiring.ofNames settings.directive settings.marker = .ok w) : rules.wiring = w := by
  unfold Settings.rules Rules.ofNames at hrules
  cases hsources : SourceFilter.ofPatterns settings.sources with
  | error e =>
      rw [hsources] at hrules
      cases hrules
  | ok sources =>
      rw [hsources, hw] at hrules
      obtain rfl := Except.ok.inj hrules
      rfl

/-! ## Projects of one directory

With all scripts in one directory `p`, the walk is a single step.
-/

/-- The tree with a project `p` of one directory, and a link to it beside it. -/
def flatProject (entries : List (Text × Node)) : FileTree :=
  { root := .directory [(['p'], .directory entries), (['q'], .link ['p'])], working := [] }

theorem resolve_flatProject (entries : List (Text × Node)) :
    (flatProject entries).resolve ['p'] = .ok ([['p']], .directory entries) := by
  cbv

/-- The link lies outside the project. -/
theorem regularAt_flatProject {entries : List (Text × Node)} (h : RegularEntries entries) :
    (flatProject entries).RegularAt ['p'] := by
  intro place node hres
  rw [resolve_flatProject] at hres
  cases hres
  exact h

theorem resolve_file_flatProject {entries : List (Text × Node)} {n : Text} {f : File}
    (hn : ProperName n) (hsize : n.byteSize ≤ maxNameBytes)
    (hf : (entries.find? fun e => e.1 == n) = some (n, .file f)) :
    (flatProject entries).resolve ('p' :: '/' :: n) = .ok ([['p'], n], .file f) := by
  have hdir : (flatProject entries).root.at? [['p']] = some (.directory entries) := rfl
  have hat : (flatProject entries).root.at? [['p'], n] = some (.file f) := by
    simp [flatProject, Node.at?, Node.child?, hf]
  have hsplit : Text.split '/' ('p' :: '/' :: n) = [['p'], n] := by
    rw [Text.split, if_neg (by decide), Text.split, if_pos rfl, split_of_not_mem hn.no_separator]
  have hlong : ¬ maxPathBytes < Text.byteSize ('p' :: '/' :: n) := by
    have hbytes : Text.byteSize ('p' :: '/' :: n) = 1 + (1 + n.byteSize) := rfl
    unfold maxNameBytes at hsize
    unfold maxPathBytes
    omega
  have hfollow : (flatProject entries).follow 40 [] [['p'], n] = .ok [['p'], n] := by
    rw [follow_cons_of_name (by decide) (by decide) (by decide)]
    simp only [List.nil_append, hdir]
    rw [follow_cons_of_name (by simp [hn.not_void]) hn.not_parent (Nat.not_lt.2 hsize)]
    simp only [List.cons_append, List.nil_append, hat]
    rfl
  refine resolve_eq_ok_iff.2 ⟨?_, hat⟩
  rw [target, if_neg (by simp), if_neg hlong, hsplit]
  exact hfollow

theorem file_of_resolve {fs : FileTree} {p : Path} {place : List Text} {f : File}
    (h : fs.resolve p = .ok (place, .file f)) : fs.file p = .ok f := by
  rw [file, h]
  rfl

/-- The stylesheet with the first of the extensions, if there is one. -/
theorem sibling?_cons {fs : FileTree} {p dir : Path} {base : Text} {place : List Text}
    {f : File} (hdir : Path.parent? p = some dir) (hbase : Stylesheet.baseName? p = some base)
    {e : Text} (es : List Text)
    (hfile : fs.resolve (Path.join dir (base ++ e)) = .ok (place, .file f)) :
    Stylesheet.sibling? (e :: es) fs.isFile p =
      some ⟨Path.join dir (base ++ e), Stylesheet.specifierOf base e⟩ := by
  have hyes : fs.isFile (Path.join dir (base ++ e)) = true := by rw [FileTree.isFile, hfile]
  unfold Stylesheet.sibling?
  rw [hdir, hbase]
  show (e :: es).findSome? (fun e => if fs.isFile (Path.join dir (base ++ e)) = true then
    some (⟨Path.join dir (base ++ e), Stylesheet.specifierOf base e⟩ : Stylesheet) else none) = _
  rw [List.findSome?_cons, if_pos hyes]

/-- The rules of settings that let some scripts pass. -/
theorem exists_rules {settings : Settings} {scripts : List Path}
    (h : (settings.rules.map fun r => r.autoStyles && scripts.all r.sources.isMatch) = .ok true) :
    ∃ rules, settings.rules = .ok rules ∧ rules.autoStyles = true ∧
      ∀ p ∈ scripts, rules.sources.isMatch p = true := by
  cases hrules : settings.rules with
  | error e =>
      rw [hrules] at h
      cases h
  | ok rules =>
      rw [hrules] at h
      have hall := Except.ok.inj h
      rw [Bool.and_eq_true, List.all_eq_true] at hall
      exact ⟨rules, rfl, hall⟩

section Eligible

variable {fs : FileTree} {settings : Settings} {rules : Rules} {p : Path} {code : Text}
  {s : Stylesheet} (hread : fs.readText p = .ok code) (hsize : code.byteSize ≤ settings.maxFileSize)
  (hs : rules.eligible? (Stylesheet.sibling? settings.extensions fs.isFile) code p = some s)

include hread hsize hs

/-- The module of an eligible script. -/
theorem module?_of_read :
    module? fs settings rules p = some (code, ⟨rules.wiring.wire code s.specifier, s⟩) := by
  rw [module?, source?_text hread, if_neg (Nat.not_lt.2 hsize), Option.bind_some, Rules.wire?, hs]
  rfl

theorem style?_of_read : style? fs settings rules p = some s.path := by
  rw [style?, module?_of_read hread hsize hs]
  rfl

theorem change?_of_read (hchanged : (rules.wiring.wire code s.specifier).isChanged = true) :
    change? fs settings rules p = some ⟨p, code, rules.wiring.wire code s.specifier⟩ := by
  rw [change?, module?_of_read hread hsize hs]
  simp [Option.filter, hchanged]

end Eligible

/-- A project with a settings file, and a script that has its stylesheet beside it. -/
def settledProject : FileTree :=
  flatProject
    [("bellagonia.toml".toList, .file (.text "directive_sources=['**']".toList)),
      ("a.css.ts".toList, .file (.text [])), ("a.ts".toList, .file (.text Wiring.nestedCalls))]

/-- The settings that its settings file gives. -/
def allSources : Settings := { sources := [['*', '*']] }

theorem collectScripts_settledProject :
    collectScripts settledProject ['p'] allSources =
      .ok ["p/a.css.ts".toList, "p/a.ts".toList] := by
  have hres : settledProject.resolve (⟨['p'], true⟩ : Pending).path = _ := resolve_flatProject _
  unfold collectScripts
  simp only [walkFrom_directory hres List.contains_nil]
  cbv

theorem resolve_settledProject :
    settledProject.resolve "p/a.ts".toList =
        .ok ([['p'], "a.ts".toList], .file (.text Wiring.nestedCalls)) ∧
      settledProject.resolve "p/a.css.ts".toList =
        .ok ([['p'], "a.css.ts".toList], .file (.text [])) :=
  ⟨resolve_file_flatProject (by decide) (by decide) rfl,
    resolve_file_flatProject (by decide) (by decide) rfl⟩

theorem sibling?_settledProject :
    Stylesheet.sibling? allSources.extensions settledProject.isFile "p/a.ts".toList =
      some ⟨"p/a.css.ts".toList, "./a.css".toList⟩ := by
  have hdir : Path.parent? "p/a.ts".toList = some ['p'] := by decide +kernel
  have hbase : Stylesheet.baseName? "p/a.ts".toList = some ['a'] := by decide +kernel
  exact sibling?_cons hdir hbase _ resolve_settledProject.2

/-- The scan of this project tells of one change, which can be written. -/
theorem run_settledProject :
    ∃ a fs', Scan.run settledProject ['p'] allSources = .ok a ∧
      a.files = [⟨"p/a.ts".toList, Wiring.nestedCalls,
        Wiring.wire {} Wiring.nestedCalls "./a.css".toList⟩] ∧
      a.write settledProject = (fs', none) := by
  have heval : (allSources.rules.map fun r =>
      r.autoStyles && ["p/a.ts".toList].all r.sources.isMatch) = .ok true := by cbv
  obtain ⟨rules, hrules, hauto, hmatch⟩ := exists_rules heval
  have hw : rules.wiring = {} := wiring_of_rules hrules rfl
  obtain ⟨hscript, hsheet⟩ := resolve_settledProject
  have hread := readText_of_file (file_of_resolve hscript) rfl rfl
  have hread' := readText_of_file (file_of_resolve hsheet) rfl rfl
  obtain ⟨a, hrun, hfiles, -⟩ := run_spec hrules collectScripts_settledProject (by
    rw [List.forall_mem_cons, List.forall_mem_singleton]
    exact ⟨isFile_iff_exists_file.2 ⟨_, file_of_resolve hsheet⟩,
      isFile_iff_exists_file.2 ⟨_, file_of_resolve hscript⟩⟩)
  have hnone : change? settledProject allSources rules "p/a.css.ts".toList = none := by
    refine Option.eq_none_iff_forall_ne_some.2 fun f hf => ?_
    obtain ⟨hbefore, -, s, hs, -⟩ := exists_of_change? hf
    rw [hread'] at hbefore
    have hcall := (eligible?_eq_some_iff.1 hs).1.2.2.1
    rw [← Except.ok.inj hbefore, hw] at hcall
    cases hcall
  have hcandidate : isCandidate "p/a.ts".toList = true := by decide +kernel
  have hcall : rules.wiring.hasCall Wiring.nestedCalls = true := by
    rw [hw]
    decide +kernel
  have hchange := change?_of_read hread (by decide +kernel)
    (eligible?_eq_some_iff.2 ⟨⟨hauto, hcandidate, hcall, hmatch _ (by simp)⟩,
      sibling?_settledProject⟩)
  rw [hw] at hchange
  rw [List.filterMap_cons, hnone, List.filterMap_cons, hchange (by decide +kernel)] at hfiles
  obtain ⟨fs', hwrite⟩ := writeAll_succeeds a.files settledProject (by
    rw [hfiles]
    exact List.forall_mem_singleton.2 ⟨_, file_of_resolve hscript, rfl⟩)
  exact ⟨a, fs', hrun, hfiles, hwrite⟩

/-- Settings with a small size limit. -/
def smallFiles : Settings :=
  { sources := [['*', '*']], extensions := [".css".toList], maxFileSize := 70 }

/-- A project with a script that the marker and the import make larger than this. -/
def growingProject : FileTree :=
  flatProject [("a.css".toList, .file (.text [])),
    ("a.js".toList, .file (.text "directive();;".toList))]

theorem collectScripts_growingProject :
    collectScripts growingProject ['p'] smallFiles = .ok ["p/a.js".toList] := by
  have hres : growingProject.resolve (⟨['p'], true⟩ : Pending).path = _ := resolve_flatProject _
  unfold collectScripts
  simp only [walkFrom_directory hres List.contains_nil]
  cbv

/-! ## Convergence -/

example :
    (Wiring.wire {} (Wiring.wire {} "directive()".toList "./b'.css".toList).code
      "./b'.css".toList).isChanged = true := by decide +kernel

example :
    (Wiring.wire {} (Wiring.wire {} "directive(1,2,\x7b])".toList "./d.css".toList).code
      "./d.css".toList).isChanged = true := by decide +kernel

example :
    Wiring.hasCall {} (Wiring.wire {} "import directive\n()".toList "./c.css".toList).code =
      false := by decide +kernel

end Scan

end Stylewire
