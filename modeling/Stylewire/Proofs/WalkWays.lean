import Stylewire.Proofs.WalkTree

set_option autoImplicit false

/-! # The ways of a walk

A walk goes down from its start by the names of directories. In an *orderly* tree, where names can
stand in paths and no directory lists a name twice, different ways have different paths: two
entries of one directory lie *apart*, and so does all that lies below them
(`Path.Apart.below`). So a walk finds no script twice, and the scripts of a project come in strictly
ascending order (`pairwise_collectScripts`).

`Comes` is a way with the real directory it ends at. Links may lead two ways to the same one.
-/

namespace Stylewire

open FileTree

/-! ## Orderly trees -/

mutual

/-- No directory from the node on lists a name twice. -/
def Node.Distinct : Node → Prop
  | .file _ => True
  | .directory entries => (entries.map Prod.fst).Nodup ∧ DistinctEntries entries
  | .link _ => True

/-- No directory from the entries on lists a name twice. -/
def DistinctEntries : List (Text × Node) → Prop
  | [] => True
  | (_, node) :: entries => node.Distinct ∧ DistinctEntries entries

end

theorem DistinctEntries.of_mem {entries : List (Text × Node)} (h : DistinctEntries entries)
    {e : Text × Node} (he : e ∈ entries) : e.2.Distinct := by
  induction entries with
  | nil => cases he
  | cons a entries ih =>
      obtain ⟨name, node⟩ := a
      rw [DistinctEntries] at h
      rcases List.mem_cons.1 he with rfl | he
      · exact h.1
      · exact ih h.2 he

theorem Node.Distinct.at? {node n : Node} (h : node.Distinct) {place : List Text}
    (hn : node.at? place = some n) : n.Distinct := by
  induction place generalizing node with
  | nil =>
      obtain rfl := Option.some.inj hn
      exact h
  | cons name place ih =>
      obtain ⟨entries, m, child, rfl, hf, hrest⟩ := FileTree.at?_cons_eq_some hn
      rw [Node.Distinct] at h
      exact ih (h.2.of_mem (List.mem_of_find?_eq_some hf)) hrest

/-- A file tree is **orderly** if its names can stand in paths and no directory lists a name
twice. -/
structure FileTree.Orderly (fs : FileTree) : Prop where
  proper : fs.root.Proper
  distinct : fs.root.Distinct

/-! ## Paths that lie apart -/

namespace Path

/-- Neither of the paths lies on the way to the other. -/
def Apart (p q : Path) : Prop :=
  ¬ components p <+: components q ∧ ¬ components q <+: components p

/-- Entries of one directory lie apart. -/
theorem apart_join {n m : Text} (hn : ProperName n) (hm : ProperName m) (hne : n ≠ m)
    (dir : Path) : Apart (join dir n) (join dir m) := by
  have hno : ∀ {n m : Text}, ProperName n → ProperName m → n ≠ m →
      ¬ components (join dir n) <+: components (join dir m) := by
    intro n m hn hm hne hprefix
    rw [components_join hn, components_join hm, List.prefix_append_right_inj] at hprefix
    have heq : [Component.name n] = [Component.name m] := hprefix.eq_of_length rfl
    exact hne (by simpa using heq)
  exact ⟨hno hn hm hne, hno hm hn (Ne.symm hne)⟩

/-- What lies below paths that lie apart lies apart. -/
theorem Apart.below {p q p' q' : Path} (h : Apart p q) (hp : components p <+: components p')
    (hq : components q <+: components q') : Apart p' q' := by
  have hno : ¬ (components p <+: components q ∨ components q <+: components p) := by
    rintro (hpq | hqp)
    · exact h.1 hpq
    · exact h.2 hqp
  constructor
  · intro hprefix
    exact hno (List.prefix_or_prefix_of_prefix (hp.trans hprefix) hq)
  · intro hprefix
    exact hno (List.prefix_or_prefix_of_prefix hp (hq.trans hprefix))

theorem Apart.components_ne {p q : Path} (h : Apart p q) : components p ≠ components q := by
  intro heq
  exact h.1 (heq ▸ List.prefix_rfl)

/-- Different names lead to different paths. -/
theorem join_inj {n m : Text} (hn : ProperName n) (hm : ProperName m) {dir : Path}
    (h : join dir n = join dir m) : n = m := by
  by_cases heq : n = m
  · exact heq
  · exact absurd (congrArg components h) (apart_join hn hm heq dir).components_ne

theorem prefix_join {n : Text} (hn : ProperName n) (dir : Path) :
    components dir <+: components (join dir n) := by
  rw [components_join hn]
  exact List.prefix_append _ _

theorem prefix_descend {names : List Text} (h : ∀ n ∈ names, ProperName n) (dir : Path) :
    components dir <+: components (descend dir names) := by
  rw [components_descend h]
  exact List.prefix_append _ _

end Path

/-! ## The entries of a directory -/

section Entries

variable {fs : FileTree} (h : fs.Orderly) {dir : Path} {place : List Text}
  {entries : List (Text × Node)} (hres : fs.resolve dir = .ok (place, .directory entries))

include h hres

theorem pairwise_countedEntries (ignored : Path → Bool → Bool) :
    (countedEntries fs ignored dir entries).Pairwise fun e e' => Path.Apart e.1 e'.1 := by
  have hdistinct : (Node.directory entries).Distinct := h.distinct.at? (resolve_eq_ok_iff.1 hres).2
  rw [Node.Distinct] at hdistinct
  have hproper : ∀ n ∈ entries.map Prod.fst, ProperName n := by
    intro n hn
    exact FileTree.Lists.properName ⟨place, entries, hres, hn⟩ h.proper
  have hnames : (entries.map Prod.fst).Pairwise fun n m =>
      Path.Apart (Path.join dir n) (Path.join dir m) :=
    List.Pairwise.imp_of_mem
      (fun hn hm hne => Path.apart_join (hproper _ hn) (hproper _ hm) hne dir) hdistinct.1
  rw [countedEntries_eq]
  refine List.Pairwise.filter _ (List.pairwise_map.2 ?_)
  exact hnames.filter _

/-- The directories to enter lie apart. -/
theorem pairwise_subdirectories (ignored : Path → Bool → Bool) (isRoot : Bool) :
    (subdirectories fs isRoot (countedEntries fs ignored dir entries)).Pairwise
      fun d d' => Path.Apart d.path d'.path :=
  List.pairwise_map.2 ((pairwise_countedEntries h hres ignored).filter _)

/-- The scripts of a directory lie apart. -/
theorem pairwise_scriptsOf (ignored : Path → Bool → Bool) :
    (scriptsOf (countedEntries fs ignored dir entries)).Pairwise Path.Apart :=
  List.pairwise_map.2 ((pairwise_countedEntries h hres ignored).filter _)

/-- The directories to enter are named entries of the directory. -/
theorem exists_name_of_subdirectory {ignored : Path → Bool → Bool} {isRoot : Bool} {d : Pending}
    (hd : d ∈ subdirectories fs isRoot (countedEntries fs ignored dir entries)) :
    ∃ n, ProperName n ∧ d.path = Path.join dir n := by
  obtain ⟨n, hn, -, rfl⟩ := (mem_subdirectories hres).1 hd
  exact ⟨n, hn.listed.properName h.proper, rfl⟩

end Entries

/-! ## No script is found twice -/

theorem Collected.prefix_components {fs : FileTree} {ignored : Path → Bool → Bool} {dir : Pending}
    {p : Path} (hproper : fs.root.Proper) (h : Collected fs ignored dir p) :
    Path.components dir.path <+: Path.components p := by
  obtain ⟨names, hnames, rfl⟩ := h.exists_names hproper
  exact Path.prefix_descend hnames dir.path

/-- The scripts that a walk finds have different components, if its directories lie apart. -/
theorem Walks.pairwise_components {fs : FileTree} (h : fs.Orderly) {ignored : Path → Bool → Bool}
    {dirs : List Pending} {places : List (List Text)} {scripts : List Path}
    (hwalk : Walks fs ignored dirs places scripts)
    (hapart : dirs.Pairwise fun d d' => Path.Apart d.path d'.path) :
    scripts.Pairwise fun p q => Path.components p ≠ Path.components q := by
  induction hwalk with
  | nil => exact List.Pairwise.nil
  | other _ _ ih => exact ih (List.pairwise_cons.1 hapart).2
  | @enter dir rest place entries places₁ places₂ scripts₁ scripts₂ hres hsub hrest ihsub ihrest =>
      obtain ⟨hfirst, hapart⟩ := List.pairwise_cons.1 hapart
      have hdirs := pairwise_subdirectories h hres ignored dir.isRoot
      have hown : ∀ p ∈ scriptsOf (countedEntries fs ignored dir.path entries) ++ scripts₁,
          Collected fs ignored dir p := by
        intro p hp
        rw [collected_iff hres]
        rcases List.mem_append.1 hp with hp | hp
        · exact Or.inl hp
        · exact Or.inr ((hsub.mem_iff p).1 hp)
      rw [← List.append_assoc, List.pairwise_append, List.pairwise_append]
      refine ⟨⟨?_, ihsub hdirs, ?_⟩, ihrest hapart, ?_⟩
      · exact (pairwise_scriptsOf h hres ignored).imp Path.Apart.components_ne
      · -- A script beside the directories to enter, and one from such a directory: the entry that
        -- leads to the second is a directory, so it is not the first.
        intro p hp q hq
        obtain ⟨n, hn, -, rfl⟩ := (mem_scriptsOf hres).1 hp
        obtain ⟨d, hd, hcollected⟩ := (hsub.mem_iff q).1 hq
        obtain ⟨m, hm, -, rfl⟩ := (mem_subdirectories hres).1 hd
        have hne : n ≠ m := by
          rintro rfl
          have hkind := hn.kind.symm.trans hm.kind
          cases hkind
        have hjoin := Path.apart_join (hn.listed.properName h.proper)
          (hm.listed.properName h.proper) hne dir.path
        exact (hjoin.below List.prefix_rfl (hcollected.prefix_components h.proper)).components_ne
      · intro p hp q hq
        obtain ⟨d, hd, hcollected⟩ := (hrest.mem_iff q).1 hq
        exact ((hfirst d hd).below ((hown p hp).prefix_components h.proper)
          (hcollected.prefix_components h.proper)).components_ne

namespace Path

/-- The path comes before the other one, and its components are not the same. -/
def Precedes (p q : Path) : Prop := le q p = false

instance (p q : Path) : Decidable (Precedes p q) := inferInstanceAs (Decidable (_ = false))

theorem Precedes.components_ne {p q : Path} (h : Precedes p q) : components p ≠ components q := by
  intro heq
  have hself : le p p = true := by simpa using le_total p p
  have hle : le q p = le p p := by rw [le, le, heq]
  rw [Precedes, hle, hself] at h
  cases h

theorem precedes_of_le {p q : Path} (hle : le p q = true) (hne : components p ≠ components q) :
    Precedes p q := by
  rw [Precedes, ← Bool.not_eq_true]
  intro hge
  exact hne (components_eq_of_le hle hge)

end Path

/-- **The scripts of a project come in strictly ascending order.** -/
theorem pairwise_collectScripts {fs : FileTree} (h : fs.Orderly) {root : Path}
    {settings : Settings} {scripts : List Path}
    (hscripts : collectScripts fs root settings = .ok scripts) :
    scripts.Pairwise Path.Precedes := by
  obtain ⟨exclude, -, places, found, hwalk, -, rfl⟩ := collectScripts_eq_ok_iff.1 hscripts
  have hfound := hwalk.pairwise_components h (List.pairwise_singleton _ _)
  have hsorted : (found.mergeSort Path.le).Pairwise
      fun p q => Path.components p ≠ Path.components q :=
    hfound.perm (List.mergeSort_perm found Path.le).symm Ne.symm
  exact ((Path.pairwise_mergeSort found).and hsorted).imp fun hpq =>
    Path.precedes_of_le hpq.1 hpq.2

/-! ## Ways and where they end -/

/-- The directory that waits after going down from `start` by the names. -/
def Pending.below (start : Pending) (names : List Text) : Pending :=
  ⟨Path.descend start.path names, start.isRoot && names.isEmpty⟩

/-- A way can be gone on by one more directory. -/
theorem Entered.concat {fs : FileTree} {ignored : Path → Bool → Bool} {start : Pending}
    {names : List Text} (h : Entered fs ignored start names) {n : Text}
    (hn : Counts fs ignored (start.below names).path n true)
    (hown : (start.below names).isRoot = true ∨
      Settings.file? fs (Path.join (start.below names).path n) = none) :
    Entered fs ignored start (names ++ [n]) := by
  induction h with
  | here start =>
      refine .down hn ?_ (.here _)
      rcases hown with hroot | hnone
      · exact Or.inl (by simpa [Pending.below] using hroot)
      · exact Or.inr hnone
  | @down start m names hm hmown _ ih =>
      refine .down hm hmown (ih hn ?_)
      rcases hown with hroot | hnone
      · simp [Pending.below] at hroot
      · exact Or.inr hnone

/-- The way leads from `start`, through directories that are entered, to the real directory
`place`. -/
structure Comes (fs : FileTree) (ignored : Path → Bool → Bool) (start : Pending)
    (names : List Text) (place : List Text) : Prop where
  entered : Entered fs ignored start names
  resolved : ∃ entries, fs.resolve (start.below names).path = .ok (place, .directory entries)

/-- A way goes on from one of the directories to enter. -/
theorem Comes.exists_subdirectory {fs : FileTree} {ignored : Path → Bool → Bool} {start : Pending}
    {n : Text} {names : List Text} {place : List Text}
    (h : Comes fs ignored start (n :: names) place) {place' : List Text}
    {entries : List (Text × Node)}
    (hres : fs.resolve start.path = .ok (place', .directory entries)) :
    ∃ d ∈ subdirectories fs start.isRoot (countedEntries fs ignored start.path entries),
      d = ⟨Path.join start.path n, false⟩ ∧ Comes fs ignored d names place := by
  obtain ⟨hentered, hplace⟩ := h
  cases hentered with
  | down hn hown hnames =>
      exact ⟨_, (mem_subdirectories hres).2 ⟨n, hn, hown, rfl⟩, rfl, hnames, hplace⟩

/-- A way without names ends where it starts. -/
theorem Comes.eq_of_nil {fs : FileTree} {ignored : Path → Bool → Bool} {start : Pending}
    {place : List Text} (h : Comes fs ignored start [] place) {place' : List Text}
    {entries : List (Text × Node)}
    (hres : fs.resolve start.path = .ok (place', .directory entries)) : place = place' := by
  obtain ⟨-, entries', hplace⟩ := h
  have heq : fs.resolve start.path = .ok (place, .directory entries') := hplace
  rw [hres] at heq
  cases heq
  rfl

/-- A way starts at a directory. -/
theorem Comes.exists_resolve {fs : FileTree} {ignored : Path → Bool → Bool} {start : Pending}
    {names : List Text} {place : List Text} (h : Comes fs ignored start names place) :
    ∃ place' entries, fs.resolve start.path = .ok (place', .directory entries) := by
  obtain ⟨hentered, entries, hres⟩ := h
  cases hentered with
  | here => exact ⟨place, entries, hres⟩
  | down hn _ _ =>
      obtain ⟨place', entries', hres', -⟩ := hn.listed
      exact ⟨place', entries', hres'⟩

end Stylewire
