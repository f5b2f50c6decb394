import Stylewire.Proofs.Convergence
import Stylewire.Proofs.WalkTree

set_option autoImplicit false

/-! # The order of listings

A file system may list the entries of a directory in any order. What a scan tells does not
depend on it: of two trees that list the same entries in different orders, a scan tells the
same, or it fails for both (`run_relisted`).

Where paths lead and what is read there does not depend on the order. A walk enters the same
real directories and finds the same scripts, only in another order (`Walks.relisted`). So it
enters a directory twice in both trees or in neither, and sorting gives the same list of
scripts, since the components of the scripts tell them apart. When a directory is entered
twice, the order decides only under which of its paths this is noticed.
-/

namespace Stylewire

open FileTree

/-! ## Trees that list their entries in another order -/

/-- The same node, but for the order in which the directories list their entries. -/
inductive Node.Relisted : Node → Node → Prop
  | file (f : File) : Relisted (.file f) (.file f)
  | link (target : Path) : Relisted (.link target) (.link target)
  | directory {entries entries' : List (Text × Node)}
      (hnames : (entries.map Prod.fst).Perm (entries'.map Prod.fst))
      (hnodes : ∀ name node node', (name, node) ∈ entries → (name, node') ∈ entries' →
        Relisted node node') :
      Relisted (.directory entries) (.directory entries')

theorem child?_eq_none_iff {entries : List (Text × Node)} {n : Text} :
    (Node.directory entries).child? n = none ↔ n ∉ entries.map Prod.fst := by
  rw [Node.child?, Option.map_eq_none_iff, List.find?_eq_none, List.mem_map]
  constructor
  · rintro h ⟨e, he, rfl⟩
    exact h e he (by simp)
  · intro h e he heq
    exact h ⟨e, he, by simpa using heq⟩

theorem mem_of_child? {entries : List (Text × Node)} {n : Text} {node : Node}
    (h : (Node.directory entries).child? n = some node) : (n, node) ∈ entries := by
  obtain ⟨⟨m, c⟩, hf, rfl⟩ := Option.map_eq_some_iff.1 h
  obtain rfl : m = n := by simpa using List.find?_some hf
  exact List.mem_of_find?_eq_some hf

namespace Node.Relisted

theorem child? {node node' : Node} (h : node.Relisted node') (n : Text) :
    (node.child? n = none ∧ node'.child? n = none) ∨
      ∃ c c', node.child? n = some c ∧ node'.child? n = some c' ∧ c.Relisted c' := by
  cases h with
  | file f => exact Or.inl ⟨rfl, rfl⟩
  | link target => exact Or.inl ⟨rfl, rfl⟩
  | @directory entries entries' hnames hnodes =>
      cases hc : (Node.directory entries).child? n with
      | none =>
          refine Or.inl ⟨rfl, child?_eq_none_iff.2 ?_⟩
          rw [← hnames.mem_iff]
          exact child?_eq_none_iff.1 hc
      | some c =>
          have hmem := mem_of_child? hc
          cases hc' : (Node.directory entries').child? n with
          | none =>
              rw [child?_eq_none_iff, ← hnames.mem_iff] at hc'
              exact absurd (List.mem_map.2 ⟨_, hmem, rfl⟩) hc'
          | some c' => exact Or.inr ⟨c, c', rfl, rfl, hnodes n c c' hmem (mem_of_child? hc')⟩

/-- At every place the two trees hold the same, but for the order of entries. -/
theorem at? {node node' : Node} (h : node.Relisted node') (place : List Text) :
    (node.at? place = none ∧ node'.at? place = none) ∨
      ∃ c c', node.at? place = some c ∧ node'.at? place = some c' ∧ c.Relisted c' := by
  induction place generalizing node node' with
  | nil => exact Or.inr ⟨node, node', rfl, rfl, h⟩
  | cons n place ih =>
      rw [Node.at?, Node.at?]
      rcases h.child? n with ⟨hc, hc'⟩ | ⟨c, c', hc, hc', hrel⟩
      · rw [hc, hc']
        exact Or.inl ⟨rfl, rfl⟩
      · rw [hc, hc']
        exact ih hrel

theorem symm {node node' : Node} (h : node.Relisted node') : node'.Relisted node := by
  induction h with
  | file f => exact .file f
  | link target => exact .link target
  | directory hnames _ ih =>
      exact .directory hnames.symm fun name node' node hn' hn => ih name node node' hn hn'

/-- Two entries, listed the other way round. -/
theorem swap {m n : Text} {a a' b b' : Node} (hne : m ≠ n) (ha : a.Relisted a')
    (hb : b.Relisted b') :
    Relisted (.directory [(m, a), (n, b)]) (.directory [(n, b'), (m, a')]) := by
  refine .directory (.swap n m []) fun name node node' hn hn' => ?_
  simp only [List.mem_cons, List.not_mem_nil, or_false, Prod.mk.injEq] at hn hn'
  rcases hn with ⟨rfl, rfl⟩ | ⟨rfl, rfl⟩
  · rcases hn' with ⟨heq, -⟩ | ⟨-, rfl⟩
    · exact absurd heq hne
    · exact ha
  · rcases hn' with ⟨-, rfl⟩ | ⟨heq, -⟩
    · exact hb
    · exact absurd heq.symm hne

theorem kind_eq {node node' : Node} (h : node.Relisted node') : node.kind = node'.kind := by
  cases h with
  | file f => rfl
  | link target => rfl
  | directory hnames hnodes => rfl

end Node.Relisted

/-- The same file tree, but for the order in which its directories list their entries. -/
structure FileTree.Relisted (fs fs' : FileTree) : Prop where
  root : fs.root.Relisted fs'.root
  working : fs.working = fs'.working

namespace FileTree.Relisted

theorem symm {fs fs' : FileTree} (h : Relisted fs fs') : Relisted fs' fs :=
  ⟨h.root.symm, h.working.symm⟩

variable {fs fs' : FileTree} (h : Relisted fs fs')

include h

theorem sameKinds : SameKinds fs fs' := by
  refine ⟨fun place => ?_, h.working⟩
  rcases h.root.at? place with ⟨hat, hat'⟩ | ⟨node, node', hat, hat', hnode⟩
  · rw [hat, hat']
  · rw [hat, hat', Option.map_some, Option.map_some, hnode.kind_eq]

theorem fileAt?_congr (place : List Text) : fs'.fileAt? place = fs.fileAt? place := by
  unfold fileAt?
  rcases h.root.at? place with ⟨hat, hat'⟩ | ⟨node, node', hat, hat', hnode⟩
  · rw [hat, hat']
  · rw [hat, hat']
    cases hnode with
    | file f => rfl
    | link target => rfl
    | directory hnames hnodes => rfl

theorem file_congr (p : Path) : fs'.file p = fs.file p :=
  h.sameKinds.file_congr fun place _ => h.fileAt?_congr place

theorem resolve_directory {p : Path} {place : List Text} {entries : List (Text × Node)}
    (hres : fs.resolve p = .ok (place, .directory entries)) :
    ∃ entries', fs'.resolve p = .ok (place, .directory entries') ∧
      (entries.map Prod.fst).Perm (entries'.map Prod.fst) := by
  obtain ⟨htarget, hat⟩ := resolve_eq_ok_iff.1 hres
  rcases h.root.at? place with ⟨hnone, -⟩ | ⟨node, node', hsome, hat', hnode⟩
  · rw [hat] at hnone
    cases hnone
  · rw [hat] at hsome
    obtain rfl := Option.some.inj hsome
    cases hnode with
    | @directory _ entries' hnames _ =>
        rw [h.sameKinds.target_congr] at htarget
        exact ⟨entries', resolve_eq_ok_iff.2 ⟨htarget, hat'⟩, hnames⟩

theorem resolve_other {p : Path}
    (hno : ∀ place entries, fs.resolve p ≠ .ok (place, .directory entries)) :
    ∀ place entries, fs'.resolve p ≠ .ok (place, .directory entries) := by
  intro place entries' hres'
  have hdir : fs.isDirectory p = true := by
    rw [h.sameKinds.isDirectory_congr, isDirectory_iff]
    exact ⟨place, entries', resolve_eq_ok_iff.1 hres'⟩
  obtain ⟨place, entries, hres⟩ := isDirectory_iff.1 hdir
  exact hno place entries (resolve_eq_ok_iff.2 hres)

end FileTree.Relisted

/-! ## The walk -/

/-- What comes first may come later, between two parts of the rest. -/
theorem perm_append_between {α : Type} {first first' sub sub' rest before after : List α}
    (hfirst : first.Perm first') (hsub : sub.Perm sub') (hrest : rest.Perm (before ++ after)) :
    (first ++ (sub ++ rest)).Perm (before ++ (first' ++ (sub' ++ after))) := by
  have hin : (first ++ (sub ++ rest)).Perm ((first' ++ sub') ++ (before ++ after)) := by
    rw [List.append_assoc]
    exact hfirst.append (hsub.append hrest)
  have hmove : ((first' ++ sub') ++ (before ++ after)).Perm
      (before ++ (first' ++ (sub' ++ after))) := by
    rw [← List.append_assoc first']
    exact List.perm_append_comm_assoc (first' ++ sub') before after
  exact hin.trans hmove

section Walk

variable {fs fs' : FileTree} (h : Relisted fs fs')

include h

/-- The same entries count. -/
theorem FileTree.Relisted.countedEntries_perm (ignored : Path → Bool → Bool) (dir : Path)
    {entries entries' : List (Text × Node)}
    (hnames : (entries.map Prod.fst).Perm (entries'.map Prod.fst)) :
    (countedEntries fs ignored dir entries).Perm (countedEntries fs' ignored dir entries') := by
  rw [countedEntries_eq, countedEntries_eq, h.sameKinds.isDirectory_congr]
  exact ((hnames.filter _).map _).filter _

/-- The same directories are entered from there. -/
theorem FileTree.Relisted.subdirectories_perm (isRoot : Bool)
    {counted counted' : List (Path × Bool)}
    (hperm : counted.Perm counted') :
    (subdirectories fs isRoot counted).Perm (subdirectories fs' isRoot counted') := by
  rw [subdirectories_congr h.sameKinds]
  exact (hperm.filter _).map _

/-- **A walk through the tree with other listings** enters the same directories and finds the
same scripts. -/
theorem Walks.relisted {ignored : Path → Bool → Bool} {dirs dirs' : List Pending}
    {places : List (List Text)} {scripts : List Path} (hwalk : Walks fs ignored dirs places scripts)
    (hperm : dirs.Perm dirs') :
    ∃ places' scripts', Walks fs' ignored dirs' places' scripts' ∧ places.Perm places' ∧
      scripts.Perm scripts' := by
  -- On the walk. The first directory stands somewhere among `dirs'`; those around it are a
  -- reordering of the rest, and so the walk through them can be cut where it stands.
  induction hwalk generalizing dirs' with
  | nil =>
      rw [List.nil_perm.1 hperm]
      exact ⟨[], [], .nil, .refl _, .refl _⟩
  | @other dir rest places scripts hno _ ih =>
      obtain ⟨before, after, rfl⟩ := List.append_of_mem (hperm.mem_iff.1 List.mem_cons_self)
      have hrest : rest.Perm (before ++ after) :=
        (List.perm_cons dir).1 (hperm.trans List.perm_middle)
      obtain ⟨places', scripts', hwalk', hplaces, hscripts⟩ := ih hrest
      obtain ⟨places₁, scripts₁, places₂, scripts₂, h₁, h₂, rfl, rfl⟩ := hwalk'.exists_of_append
      exact ⟨_, _, h₁.append (.other (h.resolve_other hno) h₂), hplaces, hscripts⟩
  | @enter dir rest place entries subplaces restplaces subscripts restscripts hres _ _ ihsub
      ihrest =>
      obtain ⟨before, after, rfl⟩ := List.append_of_mem (hperm.mem_iff.1 List.mem_cons_self)
      have hrest : rest.Perm (before ++ after) :=
        (List.perm_cons dir).1 (hperm.trans List.perm_middle)
      obtain ⟨entries', hres', hnames⟩ := h.resolve_directory hres
      have hcounted := h.countedEntries_perm ignored dir.path hnames
      obtain ⟨subplaces', subscripts', hsub, hsubplaces, hsubscripts⟩ :=
        ihsub (h.subdirectories_perm dir.isRoot hcounted)
      obtain ⟨places', scripts', hwalk', hplaces, hscripts⟩ := ihrest hrest
      obtain ⟨places₁, scripts₁, places₂, scripts₂, h₁, h₂, rfl, rfl⟩ := hwalk'.exists_of_append
      refine ⟨_, _, h₁.append (.enter hres' hsub h₂), ?_, ?_⟩
      · have hplace : [place].Perm [place] := .refl _
        exact perm_append_between hplace hsubplaces hplaces
      · have hfound := (hcounted.filter fun e => !e.2 && isScript e.1).map Prod.fst
        exact perm_append_between hfound hsubscripts hscripts

/-- A walk through the tree with other listings succeeds too, and finds the same scripts. -/
theorem FileTree.Relisted.walkFrom_ok {ignored : Path → Bool → Bool} {dirs : List Pending}
    {scripts : List Path} (hwalk : walkFrom fs ignored dirs [] [] = .ok scripts) :
    ∃ scripts', walkFrom fs' ignored dirs [] [] = .ok scripts' ∧ scripts.Perm scripts' := by
  obtain ⟨places, hplaces, hnodup⟩ := walkFrom_eq_ok_iff.1 hwalk
  obtain ⟨places', scripts', hwalk', hperm, hscripts⟩ := hplaces.relisted h (.refl dirs)
  exact ⟨scripts', walkFrom_eq_ok_iff.2 ⟨places', hwalk', hperm.nodup_iff.1 hnodup⟩, hscripts⟩

theorem FileTree.Relisted.ignoring_congr (root : Path) (settings : Settings)
    (exclude : IgnoreRules) :
    ignoring fs root settings exclude = ignoring fs' root settings exclude := by
  have hload : IgnoreRules.load fs root = IgnoreRules.load fs' root := by
    unfold IgnoreRules.load
    rw [read_congr (h.file_congr _)]
  unfold ignoring
  rw [hload]

/-- A visit of a script is the same in both trees. -/
theorem FileTree.Relisted.visit_congr (settings : Settings) :
    Scan.visit fs settings = Scan.visit fs' settings := by
  funext state p
  unfold Scan.visit
  rw [size_congr (h.file_congr p), readText_congr (h.file_congr p), h.sameKinds.isFile_congr]

end Walk

/-! ## The scan -/

/-- Scripts with the same components are the same, if all names are proper. -/
theorem Walks.eq_of_components {fs : FileTree} {ignored : Path → Bool → Bool} {dir : Pending}
    {places : List (List Text)} {scripts : List Path}
    (hwalk : Walks fs ignored [dir] places scripts) (hproper : fs.root.Proper) {p q : Path}
    (hp : p ∈ scripts) (hq : q ∈ scripts) (heq : Path.components p = Path.components q) :
    p = q := by
  have hnames : ∀ r ∈ scripts,
      ∃ names, (∀ n ∈ names, ProperName n) ∧ r = Path.descend dir.path names := by
    intro r hr
    obtain ⟨d, hd, hcollected⟩ := (hwalk.mem_iff r).1 hr
    obtain rfl := List.mem_singleton.1 hd
    exact hcollected.exists_names hproper
  obtain ⟨names, hproper₁, rfl⟩ := hnames p hp
  obtain ⟨names', hproper₂, rfl⟩ := hnames q hq
  rw [Path.eq_of_components_descend hproper₁ hproper₂ heq]

/-- The scripts of a project are the same in both trees, or it fails for both to collect
them. -/
theorem FileTree.Relisted.collectScripts_congr {fs fs' : FileTree} (h : Relisted fs fs')
    (hproper : fs.root.Proper) (root : Path) (settings : Settings) :
    collectScripts fs root settings = collectScripts fs' root settings ∨
      ∃ p p', collectScripts fs root settings = .error (.linkCycle p) ∧
        collectScripts fs' root settings = .error (.linkCycle p') := by
  rw [collectScripts_eq, collectScripts_eq]
  cases IgnoreRules.ofPatterns root settings.exclude with
  | error e => exact Or.inl rfl
  | ok exclude =>
      simp only [Except.bind]
      rw [h.ignoring_congr]
      cases hwalk : walkFrom fs (ignoring fs' root settings exclude) [⟨root, true⟩] [] [] with
      | ok found =>
          obtain ⟨found', hwalk', hperm⟩ := h.walkFrom_ok hwalk
          obtain ⟨places, hplaces, -⟩ := walkFrom_eq_ok_iff.1 hwalk
          have hsorted : found.mergeSort Path.le = found'.mergeSort Path.le :=
            Path.mergeSort_congr hperm fun p hp q hq => hplaces.eq_of_components hproper hp hq
          rw [hwalk']
          exact Or.inl (congrArg Except.ok hsorted)
      | error e =>
          obtain ⟨p, rfl⟩ := exists_of_walkFrom_error hwalk
          cases hwalk' : walkFrom fs' (ignoring fs' root settings exclude) [⟨root, true⟩] [] [] with
          | ok found' =>
              -- Then the walk through the first tree would succeed as well.
              obtain ⟨found, hok, -⟩ := h.symm.walkFrom_ok hwalk'
              rw [hwalk] at hok
              cases hok
          | error e' =>
              obtain ⟨p', rfl⟩ := exists_of_walkFrom_error hwalk'
              exact Or.inr ⟨p, p', rfl, rfl⟩

/-- **A scan does not depend on the order of listings.** Of two trees with the same entries it
tells the same, or it fails for both, and then for the same reason, but perhaps with another
path of a directory that is entered twice. -/
theorem run_relisted {fs fs' : FileTree} (h : Relisted fs fs') (hproper : fs.root.Proper)
    (root : Path) (settings : Settings) :
    (∃ s, Scan.run fs root settings = .ok s ∧ Scan.run fs' root settings = .ok s) ∨
      ∃ e e', Scan.run fs root settings = .error e ∧ Scan.run fs' root settings = .error e' ∧
        (e = e' ∨ ∃ p p', e = .linkCycle p ∧ e' = .linkCycle p') := by
  have hsame : ∀ r : Except Error Scan, (∃ s, r = .ok s ∧ r = .ok s) ∨
      ∃ e e', r = .error e ∧ r = .error e' ∧
        (e = e' ∨ ∃ p p', e = .linkCycle p ∧ e' = .linkCycle p') := by
    intro r
    cases r with
    | ok s => exact Or.inl ⟨s, rfl, rfl⟩
    | error e => exact Or.inr ⟨e, e, rfl, rfl, Or.inl rfl⟩
  unfold Scan.run
  rw [h.visit_congr]
  rcases h.collectScripts_congr hproper root settings with heq | ⟨p, p', hp, hp'⟩
  · rw [heq]
    exact hsame _
  · cases settings.rules with
    | error e => exact hsame (.error e)
    | ok rules =>
        rw [hp, hp']
        exact Or.inr ⟨.linkCycle p, .linkCycle p', rfl, rfl, Or.inr ⟨p, p', rfl, rfl⟩⟩

/-- The entries of a directory with a script and its stylesheet. -/
def libEntries : List (Text × Node) :=
  [("a.js".toList, .file (.text "directive(a, b)".toList)), ("a.css".toList, .file (.text []))]

/-- The entries of another one, with a link to the script and another stylesheet. -/
def appEntries : List (Text × Node) :=
  [("b.js".toList, .link "../lib/a.js".toList), ("b.css".toList, .file (.text []))]

/-- The two directories. -/
def linkedEntries : List (Text × Node) :=
  [("app".toList, .directory appEntries), ("lib".toList, .directory libEntries)]

/-- A project of these directories at the root. -/
def linkedProject : FileTree where
  root := .directory linkedEntries
  working := []

/-- The same project, with all entries listed the other way round. -/
def relistedProject : FileTree where
  root := .directory
    [("lib".toList, .directory libEntries.reverse), ("app".toList, .directory appEntries.reverse)]
  working := []

theorem relisted_linkedProject : Relisted linkedProject relistedProject :=
  ⟨.swap (by decide) (.swap (by decide) (.link _) (.file _)) (.swap (by decide) (.file _) (.file _)),
    rfl⟩

theorem proper_linkedProject : linkedProject.root.Proper := by
  simp only [linkedProject, linkedEntries, appEntries, libEntries, Node.Proper, ProperEntries]
  decide

/-- What is left out of it: only what is left out everywhere. -/
def linkedIgnored : Path → Bool → Bool :=
  ignoring linkedProject ['/'] Scan.smallFiles ⟨['/'], []⟩

theorem collectScripts_linkedProject :
    collectScripts linkedProject ['/'] Scan.smallFiles =
      .ok ["/app/b.js".toList, "/lib/a.js".toList] := by
  have happ : linkedProject.resolve "/app".toList =
      .ok (["app".toList], .directory appEntries) := by cbv
  have happsub : subdirectories linkedProject false
      (countedEntries linkedProject linkedIgnored "/app".toList appEntries) = [] := by cbv
  have happscripts : scriptsOf (countedEntries linkedProject linkedIgnored "/app".toList
      appEntries) = ["/app/b.js".toList] := by cbv
  have hlib : linkedProject.resolve "/lib".toList =
      .ok (["lib".toList], .directory libEntries) := by cbv
  have hlibsub : subdirectories linkedProject false
      (countedEntries linkedProject linkedIgnored "/lib".toList libEntries) = [] := by cbv
  have hlibscripts : scriptsOf (countedEntries linkedProject linkedIgnored "/lib".toList
      libEntries) = ["/lib/a.js".toList] := by cbv
  have hroot : linkedProject.resolve ['/'] = .ok ([], .directory linkedEntries) := by cbv
  have hrootsub : subdirectories linkedProject true
      (countedEntries linkedProject linkedIgnored ['/'] linkedEntries) =
        [⟨"/app".toList, false⟩] ++ [⟨"/lib".toList, false⟩] := by cbv
  have hrootscripts : scriptsOf (countedEntries linkedProject linkedIgnored ['/']
      linkedEntries) = [] := by cbv
  have hwalk : Walks linkedProject linkedIgnored [⟨['/'], true⟩]
      ([] :: ([["app".toList]] ++ [["lib".toList]]))
      ([] ++ (["/app/b.js".toList] ++ [] ++ (["/lib/a.js".toList] ++ []))) :=
    .single hroot hrootsub hrootscripts
      (.append (.single happ happsub happscripts .nil) (.single hlib hlibsub hlibscripts .nil))
  exact collectScripts_eq_ok_iff.2 ⟨⟨['/'], []⟩, rfl, _, _, hwalk, by decide, by cbv⟩

/-- Both scripts of the project change, and each has a stylesheet of its own. -/
theorem run_linkedProject :
    ∃ s, Scan.run linkedProject ['/'] Scan.smallFiles = .ok s ∧
      s.files.map FileChange.path = ["/app/b.js".toList, "/lib/a.js".toList] ∧
      s.styles = ["/app/b.css".toList, "/lib/a.css".toList] := by
  have heval : (Scan.smallFiles.rules.map fun r => r.autoStyles &&
      ["/app/b.js".toList, "/lib/a.js".toList].all r.sources.isMatch) = .ok true := by cbv
  obtain ⟨rules, hrules, hauto, hmatch⟩ := Scan.exists_rules heval
  have hw : rules.wiring = {} := Scan.wiring_of_rules hrules rfl
  have hcall : rules.wiring.hasCall "directive(a, b)".toList = true := by
    rw [hw]
    decide +kernel
  have hsize : Text.byteSize "directive(a, b)".toList ≤ Scan.smallFiles.maxFileSize := by
    decide +kernel
  have happsheet : linkedProject.resolve "/app/b.css".toList =
      .ok (["app".toList, "b.css".toList], .file (.text [])) := by cbv
  have happsibling : Stylesheet.sibling? Scan.smallFiles.extensions linkedProject.isFile
      "/app/b.js".toList = some ⟨"/app/b.css".toList, "./b.css".toList⟩ :=
    Scan.sibling?_cons (by decide +kernel : Path.parent? _ = some "/app".toList)
      (by decide +kernel : Stylesheet.baseName? _ = some ['b']) [] happsheet
  have happ := Rules.eligible?_eq_some_iff.2
    ⟨⟨hauto, by decide +kernel, hcall, hmatch _ (by simp)⟩, happsibling⟩
  have hlibsheet : linkedProject.resolve "/lib/a.css".toList =
      .ok (["lib".toList, "a.css".toList], .file (.text [])) := by cbv
  have hlibsibling : Stylesheet.sibling? Scan.smallFiles.extensions linkedProject.isFile
      "/lib/a.js".toList = some ⟨"/lib/a.css".toList, "./a.css".toList⟩ :=
    Scan.sibling?_cons (by decide +kernel : Path.parent? _ = some "/lib".toList)
      (by decide +kernel : Stylesheet.baseName? _ = some ['a']) [] hlibsheet
  have hlib := Rules.eligible?_eq_some_iff.2
    ⟨⟨hauto, by decide +kernel, hcall, hmatch _ (by simp)⟩, hlibsibling⟩
  have hread : linkedProject.readText "/app/b.js".toList = .ok "directive(a, b)".toList := by cbv
  have hread' : linkedProject.readText "/lib/a.js".toList = .ok "directive(a, b)".toList := by cbv
  obtain ⟨s, hrun, hfiles, hstyles⟩ := Scan.run_spec hrules collectScripts_linkedProject (by
    rw [List.forall_mem_cons, List.forall_mem_singleton]
    exact ⟨by cbv, by cbv⟩)
  have happchange := Scan.change?_of_read hread hsize happ (by rw [hw]; decide +kernel)
  have hlibchange := Scan.change?_of_read hread' hsize hlib (by rw [hw]; decide +kernel)
  rw [List.filterMap_cons_some happchange, List.filterMap_cons_some hlibchange,
    List.filterMap_nil] at hfiles
  rw [List.filterMap_cons_some (Scan.style?_of_read hread hsize happ),
    List.filterMap_cons_some (Scan.style?_of_read hread' hsize hlib), List.filterMap_nil] at hstyles
  refine ⟨s, hrun, ?_, ?_⟩
  · rw [hfiles]
    rfl
  · rw [hstyles]
    decide +kernel

theorem run_relisted_linkedProject :
    Relisted linkedProject relistedProject ∧ linkedProject.root.Proper ∧
      ∃ s, Scan.run linkedProject ['/'] Scan.smallFiles = .ok s ∧
        Scan.run relistedProject ['/'] Scan.smallFiles = .ok s ∧
        s.files.map FileChange.path = ["/app/b.js".toList, "/lib/a.js".toList] ∧
        s.styles = ["/app/b.css".toList, "/lib/a.css".toList] := by
  obtain ⟨s, hrun, hfiles, hstyles⟩ := run_linkedProject
  refine ⟨relisted_linkedProject, proper_linkedProject, s, hrun, ?_, hfiles, hstyles⟩
  rcases run_relisted relisted_linkedProject proper_linkedProject ['/'] Scan.smallFiles with
    ⟨s', hrun', hrelisted⟩ | ⟨e, e', herror, -⟩
  · rw [hrun] at hrun'
    rw [hrelisted, Except.ok.inj hrun']
  · rw [hrun] at herror
    cases herror

end Stylewire
