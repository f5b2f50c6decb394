import Mathlib
import Stylewire.Proofs.WalkWays

set_option autoImplicit false

/-! # When a walk reports a cycle

A walk fails when it comes to a real directory that it has entered before. It remembers all
directories it has entered, not only those on the way to where it is. So it fails for one of two
reasons (`linkCycle_iff_circular_or_aliased`):

* the tree is *circular*: a way leads on from a directory back to it;
* a directory is *aliased*: two ways lead to it, and neither of them leads on from the other.

An aliased directory is no cycle, and yet the walk reports one (`linkCycle_without_cycle`).
-/

namespace Stylewire

open FileTree

section Reasons

variable (fs : FileTree) (ignored : Path → Bool → Bool) (start : Pending)

/-- Some way leads from a directory back to it: the walk would enter a directory again on the way
down from it. -/
def Circular : Prop :=
  ∃ names more place, more ≠ [] ∧ Comes fs ignored start names place ∧
    Comes fs ignored start (names ++ more) place

/-- Two ways lead to the same directory, and neither of them leads on from the other. -/
def Aliased : Prop :=
  ∃ names names' place, ¬ names <+: names' ∧ ¬ names' <+: names ∧
    Comes fs ignored start names place ∧ Comes fs ignored start names' place

end Reasons

variable {fs : FileTree} {ignored : Path → Bool → Bool}

/-- Two ways to one directory make the tree circular or the directory aliased. -/
theorem circular_or_aliased_iff {start : Pending} :
    Circular fs ignored start ∨ Aliased fs ignored start ↔
      ∃ names names' place, names ≠ names' ∧ Comes fs ignored start names place ∧
        Comes fs ignored start names' place := by
  constructor
  · rintro (⟨names, more, place, hmore, hcomes, hcomes'⟩ |
      ⟨names, names', place, hno, -, hcomes, hcomes'⟩)
    · refine ⟨names, names ++ more, place, ?_, hcomes, hcomes'⟩
      intro heq
      exact hmore (by simpa using heq)
    · refine ⟨names, names', place, ?_, hcomes, hcomes'⟩
      rintro rfl
      exact hno List.prefix_rfl
  · rintro ⟨names, names', place, hne, hcomes, hcomes'⟩
    by_cases hon : names <+: names'
    · obtain ⟨more, rfl⟩ := hon
      exact Or.inl ⟨names, more, place, by rintro rfl; simp at hne, hcomes, hcomes'⟩
    · by_cases hback : names' <+: names
      · obtain ⟨more, rfl⟩ := hback
        exact Or.inl ⟨names', more, place, by rintro rfl; simp at hne, hcomes', hcomes⟩
      · exact Or.inr ⟨names, names', place, hon, hback, hcomes, hcomes'⟩

/-! ## A failure has two ways to one directory -/

/-- What holds while a walk goes on. Every directory that waits lies on a way from the start, and
so does every directory that has been entered. Those that wait lie apart from each other, and none
of them lies on the way to a directory that has been entered. -/
structure Underway (fs : FileTree) (ignored : Path → Bool → Bool) (start : Pending)
    (pending : List Pending) (visited : List (List Text)) : Prop where
  waiting : ∀ d ∈ pending, ∃ names, Entered fs ignored start names ∧ d = start.below names
  entered : ∀ place ∈ visited, ∃ names, Comes fs ignored start names place ∧
    ∀ d ∈ pending, ¬ Path.components d.path <+: Path.components (start.below names).path
  apart : pending.Pairwise fun d d' => Path.Apart d.path d'.path

theorem underway_start (fs : FileTree) (ignored : Path → Bool → Bool) (start : Pending) :
    Underway fs ignored start [start] [] := by
  refine ⟨fun d hd => ?_, fun place hplace => absurd hplace List.not_mem_nil,
    List.pairwise_singleton _ _⟩
  obtain rfl := List.mem_singleton.1 hd
  exact ⟨[], .here d, by simp [Pending.below]⟩

/-- Passing over a path that leads to no directory. -/
theorem Underway.pass {start dir : Pending} {pending : List Pending}
    {visited : List (List Text)} (h : Underway fs ignored start (dir :: pending) visited) :
    Underway fs ignored start pending visited := by
  refine ⟨fun d hd => h.waiting d (List.mem_cons_of_mem dir hd), fun place hplace => ?_,
    (List.pairwise_cons.1 h.apart).2⟩
  obtain ⟨names, hcomes, hno⟩ := h.entered place hplace
  exact ⟨names, hcomes, fun d hd => hno d (List.mem_cons_of_mem dir hd)⟩

/-- Entering a directory. -/
theorem Underway.enter (horderly : fs.Orderly) {start dir : Pending} {pending : List Pending}
    {visited : List (List Text)} (h : Underway fs ignored start (dir :: pending) visited)
    {place : List Text} {entries : List (Text × Node)}
    (hres : fs.resolve dir.path = .ok (place, .directory entries)) :
    Underway fs ignored start
      (subdirectories fs dir.isRoot (countedEntries fs ignored dir.path entries) ++ pending)
      (place :: visited) := by
  obtain ⟨hfirst, hapart⟩ := List.pairwise_cons.1 h.apart
  have hsub : ∀ d ∈ subdirectories fs dir.isRoot (countedEntries fs ignored dir.path entries),
      Path.components dir.path <+: Path.components d.path := by
    intro d hd
    obtain ⟨n, hn, heq⟩ := exists_name_of_subdirectory horderly hres hd
    rw [heq]
    exact Path.prefix_join hn dir.path
  obtain ⟨way, hway, hdir⟩ := h.waiting dir List.mem_cons_self
  refine ⟨fun d hd => ?_, fun q hq => ?_, ?_⟩
  · rcases List.mem_append.1 hd with hd | hd
    · -- The way to the directory, gone on by one name.
      obtain ⟨n, hn, hown, rfl⟩ := (mem_subdirectories hres).1 hd
      rw [hdir] at hn hown
      refine ⟨way ++ [n], hway.concat hn hown, ?_⟩
      rw [hdir, Pending.below, Pending.below, Path.descend_append]
      simp
    · exact h.waiting d (List.mem_cons_of_mem dir hd)
  · rcases List.mem_cons.1 hq with rfl | hq
    · refine ⟨way, ⟨hway, entries, by rw [← hdir]; exact hres⟩, fun d hd hprefix => ?_⟩
      rw [← hdir] at hprefix
      rcases List.mem_append.1 hd with hd | hd
      · -- A directory to enter has one component more than the directory it is an entry of.
        obtain ⟨n, hn, heq⟩ := exists_name_of_subdirectory horderly hres hd
        have hlength := hprefix.length_le
        rw [heq, Path.components_join hn, List.length_append, List.length_singleton] at hlength
        omega
      · exact (hfirst d hd).2 hprefix
    · obtain ⟨names, hcomes, hno⟩ := h.entered q hq
      refine ⟨names, hcomes, fun d hd hprefix => ?_⟩
      rcases List.mem_append.1 hd with hd | hd
      · exact hno dir List.mem_cons_self ((hsub d hd).trans hprefix)
      · exact hno d (List.mem_cons_of_mem dir hd) hprefix
  · rw [List.pairwise_append]
    refine ⟨pairwise_subdirectories horderly hres ignored dir.isRoot, hapart, fun d hd d' hd' => ?_⟩
    exact (hfirst d' hd').below (hsub d hd) List.prefix_rfl

/-- **A walk that fails** has come to a directory by two ways. -/
theorem Underway.exists_ways (horderly : fs.Orderly) {start : Pending} {pending : List Pending}
    {visited : List (List Text)} {found : List Path}
    (h : Underway fs ignored start pending visited) {p : Path}
    (hwalk : walkFrom fs ignored pending visited found = .error (.linkCycle p)) :
    ∃ names names' place, names ≠ names' ∧ Comes fs ignored start names place ∧
      Comes fs ignored start names' place ∧ p = (start.below names').path := by
  fun_induction walkFrom fs ignored pending visited found with
  | case1 visited found => cases hwalk
  | case2 visited found dir pending place entries hres hv =>
      obtain rfl : dir.path = p := by simpa using hwalk
      obtain ⟨names', hentered, hdir⟩ := h.waiting dir List.mem_cons_self
      obtain ⟨names, hcomes, hno⟩ := h.entered place (by simpa using hv)
      have hne : names ≠ names' := by
        rintro rfl
        exact hno dir List.mem_cons_self (hdir ▸ List.prefix_rfl)
      exact ⟨names, names', place, hne, hcomes, ⟨hentered, entries, hdir ▸ hres⟩, by rw [← hdir]⟩
  | case3 visited found dir pending place entries hres hv _ counted ih =>
      exact ih (h.enter horderly hres) hwalk
  | case4 visited found dir pending hno ih => exact ih h.pass hwalk

/-! ## A success has one way to every directory -/

/-- A walk enters the directory at the end of every way. -/
theorem Walks.mem_of_comes {dirs : List Pending} {places : List (List Text)} {scripts : List Path}
    (hwalk : Walks fs ignored dirs places scripts) {d : Pending} (hd : d ∈ dirs)
    {names : List Text} {place : List Text} (h : Comes fs ignored d names place) :
    place ∈ places := by
  induction hwalk generalizing d names with
  | nil => cases hd
  | other hno _ ih =>
      rcases List.mem_cons.1 hd with rfl | hd
      · obtain ⟨place', entries, hres⟩ := h.exists_resolve
        exact absurd hres (hno place' entries)
      · exact ih hd h
  | @enter dir rest here entries places₁ places₂ scripts₁ scripts₂ hres _ _ ihsub ihrest =>
      rcases List.mem_cons.1 hd with rfl | hd
      · cases names with
        | nil =>
            rw [h.eq_of_nil hres]
            exact List.mem_cons_self
        | cons n names =>
            obtain ⟨sub, hsub, -, hcomes⟩ := h.exists_subdirectory hres
            exact List.mem_cons_of_mem _ (List.mem_append_left _ (ihsub hsub hcomes))
      · exact List.mem_cons_of_mem _ (List.mem_append_right _ (ihrest hd h))

/-- **A walk that enters no directory twice** has one way to each. -/
theorem Walks.eq_of_comes (horderly : fs.Orderly) {dirs : List Pending}
    {places : List (List Text)} {scripts : List Path}
    (hwalk : Walks fs ignored dirs places scripts) (hnodup : places.Nodup) {d d' : Pending}
    (hd : d ∈ dirs) (hd' : d' ∈ dirs) {names names' : List Text} {place : List Text}
    (h : Comes fs ignored d names place) (h' : Comes fs ignored d' names' place) :
    d = d' ∧ names = names' := by
  induction hwalk generalizing d d' names names' with
  | nil => cases hd
  | @other dir rest places scripts hno _ ih =>
      have hrest : ∀ {e : Pending} {way : List Text}, e ∈ dir :: rest →
          Comes fs ignored e way place → e ∈ rest := by
        intro e way he hcomes
        rcases List.mem_cons.1 he with rfl | he
        · obtain ⟨place', entries, hres⟩ := hcomes.exists_resolve
          exact absurd hres (hno place' entries)
        · exact he
      exact ih hnodup (hrest hd h) (hrest hd' h') h h'
  | @enter dir rest here entries places₁ places₂ scripts₁ scripts₂ hres hsub hrest ihsub ihrest =>
      rw [List.nodup_cons, List.nodup_append, List.mem_append, not_or] at hnodup
      obtain ⟨⟨hnot₁, hnot₂⟩, hnodup₁, hnodup₂, hdisjoint⟩ := hnodup
      -- A way from the first directory ends there or below it, but not where one from the rest
      -- ends.
      have hbelow : ∀ {n : Text} {way : List Text}, Comes fs ignored dir (n :: way) place →
          place ∈ places₁ := by
        intro n way hcomes
        obtain ⟨sub, hmem, -, hcomes'⟩ := hcomes.exists_subdirectory hres
        exact hsub.mem_of_comes hmem hcomes'
      have hfirst : ∀ {way : List Text}, Comes fs ignored dir way place → place ∉ places₂ := by
        intro way hcomes hmem
        cases way with
        | nil => exact hnot₂ (hcomes.eq_of_nil hres ▸ hmem)
        | cons n way => exact hdisjoint place (hbelow hcomes) place hmem rfl
      rcases List.mem_cons.1 hd with rfl | hmem
      · rcases List.mem_cons.1 hd' with rfl | hmem'
        · refine ⟨rfl, ?_⟩
          cases names with
          | nil =>
              cases names' with
              | nil => rfl
              | cons n' names' => exact absurd (h.eq_of_nil hres ▸ hbelow h') hnot₁
          | cons n names =>
              cases names' with
              | nil => exact absurd (h'.eq_of_nil hres ▸ hbelow h) hnot₁
              | cons n' names' =>
                  obtain ⟨sub, hin, rfl, hcomes⟩ := h.exists_subdirectory hres
                  obtain ⟨sub', hin', rfl, hcomes'⟩ := h'.exists_subdirectory hres
                  obtain ⟨heq, rfl⟩ := ihsub hnodup₁ hin hin' hcomes hcomes'
                  have hn := h.entered.properName horderly.proper n List.mem_cons_self
                  have hn' := h'.entered.properName horderly.proper n' List.mem_cons_self
                  rw [Path.join_inj hn hn' (congrArg Pending.path heq)]
        · exact absurd (hrest.mem_of_comes hmem' h') (hfirst h)
      · rcases List.mem_cons.1 hd' with rfl | hmem'
        · exact absurd (hrest.mem_of_comes hmem h) (hfirst h')
        · exact ihrest hnodup₂ hmem hmem' h h'

/-! ## Reasons of a failure -/

theorem walkFrom_linkCycle_iff (horderly : fs.Orderly) {start : Pending} :
    (∃ p, walkFrom fs ignored [start] [] [] = .error (.linkCycle p)) ↔
      Circular fs ignored start ∨ Aliased fs ignored start := by
  rw [circular_or_aliased_iff]
  constructor
  · rintro ⟨p, hwalk⟩
    obtain ⟨names, names', place, hne, hcomes, hcomes', -⟩ :=
      (underway_start fs ignored start).exists_ways horderly hwalk
    exact ⟨names, names', place, hne, hcomes, hcomes'⟩
  · rintro ⟨names, names', place, hne, hcomes, hcomes'⟩
    cases hwalk : walkFrom fs ignored [start] [] [] with
    | error e =>
        obtain ⟨p, rfl⟩ := exists_of_walkFrom_error hwalk
        exact ⟨p, rfl⟩
    | ok scripts =>
        -- Then there would be one way to each directory.
        obtain ⟨places, hwalks, hnodup⟩ := walkFrom_eq_ok_iff.1 hwalk
        have hmem : start ∈ [start] := List.mem_singleton.2 rfl
        exact absurd (hwalks.eq_of_comes horderly hnodup hmem hmem hcomes hcomes').2 hne

/-- With patterns that are in order, collecting the scripts fails as the walk does. -/
theorem collectScripts_eq_error_iff {root : Path} {settings : Settings} {exclude : IgnoreRules}
    (hexclude : IgnoreRules.ofPatterns root settings.exclude = .ok exclude) {e : Error} :
    collectScripts fs root settings = .error e ↔
      walkFrom fs (ignoring fs root settings exclude) [⟨root, true⟩] [] [] = .error e := by
  rw [collectScripts_eq, hexclude]
  simp only [Except.bind]
  cases walkFrom fs (ignoring fs root settings exclude) [⟨root, true⟩] [] [] with
  | error e' => simp [Except.map]
  | ok found => simp [Except.map]

/-- **When a walk reports a cycle.** With patterns that are in order, collecting the scripts of a
project fails with a cycle exactly if the tree is circular from the root or one of the directories
is aliased. So a cycle is always reported, but not every report is one. The path reported is that
of the second of two ways to a directory, and without a report the scripts are collected. -/
theorem linkCycle_iff_circular_or_aliased (horderly : fs.Orderly) {root : Path}
    {settings : Settings} {exclude : IgnoreRules}
    (hexclude : IgnoreRules.ofPatterns root settings.exclude = .ok exclude) :
    ((∃ p, collectScripts fs root settings = .error (.linkCycle p)) ↔
      Circular fs (ignoring fs root settings exclude) ⟨root, true⟩ ∨
        Aliased fs (ignoring fs root settings exclude) ⟨root, true⟩) ∧
    (∀ p, collectScripts fs root settings = .error (.linkCycle p) →
      ∃ names names' place, names ≠ names' ∧
        Comes fs (ignoring fs root settings exclude) ⟨root, true⟩ names place ∧
        Comes fs (ignoring fs root settings exclude) ⟨root, true⟩ names' place ∧
        p = Path.descend root names') ∧
    ((¬ ∃ p, collectScripts fs root settings = .error (.linkCycle p)) →
      ∃ scripts, collectScripts fs root settings = .ok scripts) := by
  refine ⟨?_, fun p hp => ?_, fun hno => ?_⟩
  · simp only [collectScripts_eq_error_iff hexclude]
    exact walkFrom_linkCycle_iff horderly
  · have hwalk := (collectScripts_eq_error_iff hexclude).1 hp
    exact (underway_start fs _ ⟨root, true⟩).exists_ways horderly hwalk
  · cases hscripts : collectScripts fs root settings with
    | ok scripts => exact ⟨scripts, rfl⟩
    | error e =>
        have hwalk := (collectScripts_eq_error_iff hexclude).1 hscripts
        obtain ⟨p, rfl⟩ := exists_of_walkFrom_error hwalk
        exact absurd ⟨p, hscripts⟩ hno

/-! ## A directory and a link to it -/

/-- A project with an empty directory, and a link to it beside it. -/
def aliasedEntries : List (Text × Node) := [(['a'], .directory []), (['b'], .link ['a'])]

/-- The tree with this project. -/
def aliasedProject : FileTree where
  root := .directory [(['p'], .directory aliasedEntries)]
  working := []

/-- What is left out of it: only what is left out everywhere. -/
def aliasedIgnored : Path → Bool → Bool := ignoring aliasedProject ['p'] {} ⟨['p'], []⟩

theorem orderly_aliasedProject : aliasedProject.Orderly := by
  have hp : ProperName ['p'] := by decide
  have ha : ProperName ['a'] := by decide
  have hb : ProperName ['b'] := by decide
  refine ⟨⟨hp, ⟨ha, trivial, hb, trivial, trivial⟩, trivial⟩, ?_⟩
  exact ⟨by decide, ⟨by decide, ⟨List.nodup_nil, trivial⟩, trivial, trivial⟩, trivial⟩

theorem resolve_aliasedProject :
    aliasedProject.resolve ['p'] = .ok ([['p']], .directory aliasedEntries) := by cbv

theorem resolve_alias {p : Path} (hp : p ∈ ["p/a".toList, "p/b".toList]) :
    aliasedProject.resolve p = .ok ([['p'], ['a']], .directory []) := by
  simp only [List.mem_cons, List.not_mem_nil, or_false] at hp
  rcases hp with rfl | rfl <;> cbv

theorem subdirectories_aliasedProject :
    subdirectories aliasedProject true
      (countedEntries aliasedProject aliasedIgnored ['p'] aliasedEntries) =
        [⟨"p/a".toList, false⟩, ⟨"p/b".toList, false⟩] := by cbv

/-- The ways of the project: to its root, or by one name to the directory. -/
theorem Comes.of_aliasedProject {names : List Text} {place : List Text}
    (h : Comes aliasedProject aliasedIgnored ⟨['p'], true⟩ names place) :
    (names = [] ∧ place = [['p']]) ∨ (names.length = 1 ∧ place = [['p'], ['a']]) := by
  cases names with
  | nil => exact Or.inl ⟨rfl, h.eq_of_nil resolve_aliasedProject⟩
  | cons n names =>
      obtain ⟨d, hd, -, hcomes⟩ := h.exists_subdirectory resolve_aliasedProject
      rw [subdirectories_aliasedProject] at hd
      have hpath : d.path ∈ ["p/a".toList, "p/b".toList] := List.mem_map_of_mem hd
      cases names with
      | nil => exact Or.inr ⟨rfl, hcomes.eq_of_nil (resolve_alias hpath)⟩
      | cons m names =>
          -- Nothing lies below the directory.
          obtain ⟨e, he, -⟩ := hcomes.exists_subdirectory (resolve_alias hpath)
          cases he

/-- Both names lead to the directory. -/
theorem comes_alias {n : Text} (hn : n ∈ [['a'], ['b']]) :
    Comes aliasedProject aliasedIgnored ⟨['p'], true⟩ [n] [['p'], ['a']] := by
  have hpath : Path.join ['p'] n ∈ ["p/a".toList, "p/b".toList] := List.mem_map_of_mem hn
  have hkept : aliasedIgnored (Path.join ['p'] n) true = false := by
    simp only [List.mem_cons, List.not_mem_nil, or_false] at hn
    rcases hn with rfl | rfl <;> cbv
  have hvisible : isSkippedName n = false := by
    simp only [List.mem_cons, List.not_mem_nil, or_false] at hn
    rcases hn with rfl | rfl <;> decide
  have hkind : aliasedProject.isDirectory (Path.join ['p'] n) = true :=
    isDirectory_iff.2 ⟨_, _, resolve_eq_ok_iff.1 (resolve_alias hpath)⟩
  have hcounts : Counts aliasedProject aliasedIgnored ['p'] n true :=
    ⟨⟨_, _, resolve_aliasedProject, hn⟩, hvisible, hkind, hkept⟩
  exact ⟨.down hcounts (Or.inl rfl) (.here _), [], resolve_alias hpath⟩

theorem linkCycle_iff_circular_or_aliased_aliasedProject :
    aliasedProject.Orderly ∧ IgnoreRules.ofPatterns ['p'] [] = .ok ⟨['p'], []⟩ ∧
      Aliased aliasedProject aliasedIgnored ⟨['p'], true⟩ ∧
      ∃ p, collectScripts aliasedProject ['p'] {} = .error (.linkCycle p) := by
  have haliased : Aliased aliasedProject aliasedIgnored ⟨['p'], true⟩ :=
    ⟨[['a']], [['b']], _, by decide, by decide, comes_alias (by decide), comes_alias (by decide)⟩
  have hexclude : IgnoreRules.ofPatterns ['p'] ({} : Settings).exclude = .ok ⟨['p'], []⟩ := rfl
  refine ⟨orderly_aliasedProject, rfl, haliased, ?_⟩
  exact (linkCycle_iff_circular_or_aliased orderly_aliasedProject hexclude).1.2 (Or.inr haliased)

/-- **A report without a cycle.** No way of the project leads back to a directory on it, but the
directory and the link to it are two ways to one directory, and collecting the scripts fails. -/
theorem linkCycle_without_cycle :
    aliasedProject.Orderly ∧ IgnoreRules.ofPatterns ['p'] [] = .ok ⟨['p'], []⟩ ∧
      ¬ Circular aliasedProject aliasedIgnored ⟨['p'], true⟩ ∧
      collectScripts aliasedProject ['p'] {} = .error (.linkCycle "p/b".toList) := by
  refine ⟨orderly_aliasedProject, rfl, ?_, ?_⟩
  · rintro ⟨names, more, place, hmore, hcomes, hcomes'⟩
    have hlength : 0 < more.length := List.length_pos_iff.2 hmore
    rcases hcomes.of_aliasedProject with ⟨rfl, rfl⟩ | ⟨hone, rfl⟩
    · rcases hcomes'.of_aliasedProject with ⟨hnil, -⟩ | ⟨-, hplace⟩
      · exact hmore hnil
      · exact absurd hplace (by decide)
    · rcases hcomes'.of_aliasedProject with ⟨-, hplace⟩ | ⟨htwo, -⟩
      · exact absurd hplace (by decide)
      · rw [List.length_append] at htwo
        omega
  · -- The walk enters the directory first and then comes to it by the link.
    have hexclude : IgnoreRules.ofPatterns ['p'] ({} : Settings).exclude = .ok ⟨['p'], []⟩ := rfl
    have hignored : ignoring aliasedProject ['p'] {} ⟨['p'], []⟩ = aliasedIgnored := rfl
    have hfirst : aliasedProject.resolve (⟨"p/a".toList, false⟩ : Pending).path =
        .ok ([['p'], ['a']], .directory []) := resolve_alias (by decide)
    have hsecond : aliasedProject.resolve (⟨"p/b".toList, false⟩ : Pending).path =
        .ok ([['p'], ['a']], .directory []) := resolve_alias (by decide)
    rw [collectScripts_eq_error_iff hexclude, hignored,
      walkFrom_directory resolve_aliasedProject rfl, subdirectories_aliasedProject,
      List.append_nil, walkFrom_directory hfirst rfl]
    exact walkFrom_cycle hsecond rfl

end Stylewire
