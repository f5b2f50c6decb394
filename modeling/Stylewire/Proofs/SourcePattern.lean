import Mathlib.Data.List.Forall2
import Stylewire.SourceFilter
import Stylewire.Proofs.GlobLookup
import Stylewire.Proofs.GlobStart

set_option autoImplicit false

/-! # Where source patterns match

A pattern that is not anchored gets `**/` in front, and its glob is matched against the whole path.
The main statement says what comes out of this: the pattern's own tokens match the path from the
start of one of its segments on, never from within one, and directories in front of a path take no
match away.

This rests on looking a path up for a glob being the same as matching all of it by the tokens. There
are two exceptions to that, and the main statement says where they lie. The empty pattern becomes
`**/` alone, which is taken to stand for everything. And a path whose last segment is `..` has no
file name, so it is not found where the file name is asked for.
-/

namespace Stylewire

open Text

/-! ## The text of a pattern -/

/-- The pattern without the `./` it may start with. -/
def ownText (pattern : Text) : Text :=
  match pattern with
  | '.' :: '/' :: p => p
  | p => p

/-- The text starts with a `/` or with a `**` that stands for directories. -/
def Anchored (p : Text) : Prop := ['/'] <+: p ∨ Glob.OpensDirs p

instance (p : Text) : Decidable (Anchored p) :=
  inferInstanceAs (Decidable (['/'] <+: p ∨ Glob.OpensDirs p))

/-- The path with `/` for every separator. -/
def slashed (path : Path) : Text := path.map fun c => if c = '\\' then '/' else c

theorem slashed_below (dir path : Path) :
    slashed (dir ++ '/' :: path) = slashed dir ++ '/' :: slashed path := by
  simp [slashed]

theorem suffixPattern_of_not_anchored {pattern : Text} (h : ¬ Anchored (ownText pattern)) :
    suffixPattern pattern = ['*', '*', '/'] ++ ownText pattern := by
  refine if_neg fun hany => h ?_
  rw [Bool.or_eq_true, Bool.or_eq_true, List.isPrefixOf_iff_prefix, List.isPrefixOf_iff_prefix,
    beq_iff_eq] at hany
  rcases hany with (hslash | hdirs) | hstars
  · exact Or.inl hslash
  · exact Or.inr (Or.inr hdirs)
  · exact Or.inr (Or.inl hstars)

namespace SourceFilter

/-! ## Filters and their globs -/

theorem mapM_eq_ok_iff {α β ε : Type} {f : α → Except ε β} {xs : List α} {ys : List β} :
    xs.mapM f = .ok ys ↔ List.Forall₂ (fun x y => f x = .ok y) xs ys := by
  induction xs generalizing ys with
  | nil =>
      rw [List.mapM_nil, List.forall₂_nil_left_iff]
      constructor
      · intro h
        exact (Except.ok.inj h).symm
      · rintro rfl
        rfl
  | cons x xs ih =>
      rw [List.mapM_cons, List.forall₂_cons_left_iff]
      cases hx : f x with
      | error e =>
          refine iff_of_false (fun h => nomatch h) ?_
          rintro ⟨y, zs, hy, -, -⟩
          cases hy
      | ok y =>
          cases hxs : xs.mapM f with
          | error e =>
              refine iff_of_false (fun h => nomatch h) ?_
              rintro ⟨z, zs, -, hzs, -⟩
              rw [ih.2 hzs] at hxs
              cases hxs
          | ok zs =>
              constructor
              · intro h
                exact ⟨y, zs, rfl, ih.1 hxs, (Except.ok.inj h).symm⟩
              · rintro ⟨z, us, hz, hus, rfl⟩
                rw [ih.2 hus] at hxs
                obtain rfl := Except.ok.inj hz
                obtain rfl := Except.ok.inj hxs
                rfl

theorem ofPatterns_eq_ok_iff {patterns : List Text} {f : SourceFilter} :
    ofPatterns patterns = .ok f ↔
      f.patterns = patterns ∧ List.Forall₂ (fun p g => globOf p = .ok g) patterns f.globs ∧
        ∀ g ∈ f.globs, g.Shallow := by
  rw [← Glob.checkAll_eq_ok_iff, ← mapM_eq_ok_iff]
  unfold ofPatterns
  constructor
  · intro h
    split at h
    · cases h
    · rename_i globs hglobs
      split at h
      · cases h
      · rename_i hcheck
        obtain rfl := Except.ok.inj h
        exact ⟨rfl, hglobs, hcheck⟩
  · rintro ⟨rfl, hglobs, hcheck⟩
    rw [hglobs]
    simp only [hcheck]

theorem ofPatterns_single_iff {pattern : Text} {f : SourceFilter} :
    ofPatterns [pattern] = .ok f ↔
      ∃ g, globOf pattern = .ok g ∧ g.Shallow ∧ f = ⟨[pattern], [g]⟩ := by
  rw [ofPatterns_eq_ok_iff, List.forall₂_cons_left_iff]
  constructor
  · rintro ⟨hpatterns, ⟨g, gs, hg, hgs, hglobs⟩, hshallow⟩
    rw [List.forall₂_nil_left_iff] at hgs
    subst hgs
    refine ⟨g, hg, hshallow g (by simp [hglobs]), ?_⟩
    rw [← hpatterns, ← hglobs]
  · rintro ⟨g, hg, hshallow, rfl⟩
    exact ⟨rfl, ⟨g, [], hg, .nil, rfl⟩, List.forall_mem_singleton.2 hshallow⟩

theorem exists_of_globOf {pattern : Text} {d : Glob} (hown : ¬ Anchored (ownText pattern))
    (h : globOf pattern = .ok d) :
    ∃ g, Glob.parse false (ownText pattern) = .ok g ∧ d = .leadingDirs :: g := by
  rw [globOf, suffixPattern_of_not_anchored hown,
    Glob.parse_dirs fun hdirs => hown (Or.inr hdirs)] at h
  cases hparse : Glob.parse false (ownText pattern) with
  | error e =>
      rw [hparse] at h
      cases h
  | ok g =>
      rw [hparse] at h
      exact ⟨g, rfl, (Except.ok.inj h).symm⟩

theorem isMatch_single (pattern : Text) (g : Glob) (path : Path) :
    (⟨[pattern], [g]⟩ : SourceFilter).isMatch path = g.accepts (slashed path).bytes := by
  rw [isMatch]
  exact Bool.or_false _

/-- A property holds of one of the globs exactly if it holds of the glob of one of the patterns. -/
theorem exists_glob_iff {patterns : List Text} {globs : List Glob}
    (h : List.Forall₂ (fun p g => globOf p = .ok g) patterns globs) (P : Glob → Prop) :
    (∃ g ∈ globs, P g) ↔ ∃ p ∈ patterns, ∃ g, globOf p = .ok g ∧ P g := by
  induction h with
  | nil => simp
  | @cons p g patterns globs hp _ ih =>
      have hhead : (∃ g', globOf p = .ok g' ∧ P g') ↔ P g := by
        constructor
        · rintro ⟨g', hg', hP⟩
          rw [hp] at hg'
          rwa [Except.ok.inj hg']
        · intro hP
          exact ⟨g, hp, hP⟩
      rw [List.exists_mem_cons_iff, List.exists_mem_cons_iff, ih, hhead]

/-- **A filter of several patterns** matches where the filter of one of them does. -/
theorem isMatch_iff_exists {patterns : List Text} {f : SourceFilter}
    (h : ofPatterns patterns = .ok f) {path : Path} :
    f.isMatch path = true ↔
      ∃ p ∈ patterns, ∃ f', ofPatterns [p] = .ok f' ∧ f'.isMatch path = true := by
  obtain ⟨-, hglobs, hshallow⟩ := ofPatterns_eq_ok_iff.1 h
  have hone : ∀ p, (∃ f', ofPatterns [p] = .ok f' ∧ f'.isMatch path = true) ↔
      ∃ g, globOf p = .ok g ∧ g.Shallow ∧ g.accepts (slashed path).bytes = true := by
    intro p
    constructor
    · rintro ⟨f', hf', hmatch⟩
      obtain ⟨g, hg, hg', rfl⟩ := ofPatterns_single_iff.1 hf'
      exact ⟨g, hg, hg', isMatch_single p g path ▸ hmatch⟩
    · rintro ⟨g, hg, hg', haccepts⟩
      exact ⟨_, ofPatterns_single_iff.2 ⟨g, hg, hg', rfl⟩, isMatch_single p g path ▸ haccepts⟩
  calc f.isMatch path = true
      ↔ ∃ g ∈ f.globs, g.accepts (slashed path).bytes = true := List.any_eq_true
    _ ↔ ∃ g ∈ f.globs, g.Shallow ∧ g.accepts (slashed path).bytes = true := by
        refine exists_congr fun g => and_congr_right fun hg => ?_
        exact (and_iff_right (hshallow g hg)).symm
    _ ↔ ∃ p ∈ patterns, ∃ g, globOf p = .ok g ∧ g.Shallow ∧
          g.accepts (slashed path).bytes = true := exists_glob_iff hglobs _
    _ ↔ ∃ p ∈ patterns, ∃ f', ofPatterns [p] = .ok f' ∧ f'.isMatch path = true :=
        exists_congr fun p => and_congr_right fun _ => (hone p).symm

/-- What the filter of one pattern matches, if the pattern is not anchored. -/
theorem isMatch_iff_of_not_anchored {pattern : Text} {f : SourceFilter}
    (h : ofPatterns [pattern] = .ok f) (hown : ¬ Anchored (ownText pattern)) :
    ∃ g, Glob.parse false (ownText pattern) = .ok g ∧
      (∀ path, Glob.MatchesWhole (.leadingDirs :: g) (slashed path).bytes →
        (f.isMatch path = true ↔ g.AtSegment (slashed path))) ∧
      ∀ path, f.isMatch path = true ↔ ownText pattern = [] ∨
        (g.AtSegment (slashed path) ∧ ¬ ((slashed path).EndsInParent ∧ g.FoundByName)) := by
  obtain ⟨d, hd, -, rfl⟩ := ofPatterns_single_iff.1 h
  obtain ⟨g, hg, rfl⟩ := exists_of_globOf hown hd
  refine ⟨g, hg, ?_, ?_⟩
  · intro path hwhole
    rw [isMatch_single, ← Glob.matches_dirs_iff]
    exact hwhole
  · intro path
    rw [isMatch_single, ← Glob.parse_eq_nil_iff hg]
    by_cases hne : g = []
    · -- The glob is `**/` alone.
      subst hne
      exact iff_of_true rfl (Or.inl rfl)
    · rw [Glob.accepts_dirs_iff hne, or_iff_right hne]

/-- **A pattern that is not anchored matches the end of a path from the start of a segment on**,
wherever looking the path up comes to matching all of it by the tokens. It does so but for two
cases: the empty pattern, which is taken to stand for every path, and a path that ends in the
segment `..`, which is not found for a pattern that ends in a dot unless the pattern is a text with
a separator. In these cases, too, what is matched is said exactly, and directories in front of a
path keep every match. Several patterns match what one of them does. -/
theorem isMatch_iff_atSegment :
    (∀ (pattern : Text) (f : SourceFilter), ofPatterns [pattern] = .ok f →
      ¬ Anchored (ownText pattern) →
      ∃ g, Glob.parse false (ownText pattern) = .ok g ∧
        (∀ path, Glob.MatchesWhole (.leadingDirs :: g) (slashed path).bytes →
          (f.isMatch path = true ↔ g.AtSegment (slashed path))) ∧
        (∀ path, Glob.MatchesWhole (.leadingDirs :: g) (slashed path).bytes ↔
          (ownText pattern = [] → (slashed path).IsDirs) ∧
            ¬ (g.AtSegment (slashed path) ∧ (slashed path).EndsInParent ∧ g.FoundByName)) ∧
        (∀ path, f.isMatch path = true ↔ ownText pattern = [] ∨
          (g.AtSegment (slashed path) ∧ ¬ ((slashed path).EndsInParent ∧ g.FoundByName))) ∧
        ∀ dir path, f.isMatch path = true → f.isMatch (dir ++ '/' :: path) = true) ∧
    ∀ (patterns : List Text) (f : SourceFilter), ofPatterns patterns = .ok f →
      ∀ path, f.isMatch path = true ↔
        ∃ p ∈ patterns, ∃ f', ofPatterns [p] = .ok f' ∧ f'.isMatch path = true := by
  constructor
  · intro pattern f hf hown
    obtain ⟨g, hg, hwhole, hmatch⟩ := isMatch_iff_of_not_anchored hf hown
    refine ⟨g, hg, hwhole, ?_, hmatch, ?_⟩
    · intro path
      rw [Glob.matchesWhole_dirs_iff, Glob.parse_eq_nil_iff hg]
    · intro dir path h
      rw [hmatch] at h ⊢
      rcases h with hempty | ⟨hseg, hparent⟩
      · exact Or.inl hempty
      · -- The last segment of the path is the same, and so is the start of the match.
        rw [slashed_below]
        refine Or.inr ⟨hseg.append _, ?_⟩
        rintro ⟨hbelow, hfound⟩
        exact hparent ⟨Glob.endsInParent_of_below hbelow, hfound⟩
  · intro patterns f hf path
    exact isMatch_iff_exists hf

/-- The tokens of the pattern `./d/*.ts`. -/
def scriptTokens : Glob :=
  [.literal 'd', .literal '/', .anyRun, .literal '.', .literal 't', .literal 's']

/-- The filter of the pattern `./d/*.ts`. -/
def scriptsBelow : SourceFilter := ⟨["./d/*.ts".toList], [.leadingDirs :: scriptTokens]⟩

theorem isMatch_iff_atSegment_scriptsBelow :
    (ofPatterns ["./d/*.ts".toList] = .ok scriptsBelow ∧ ¬ Anchored (ownText "./d/*.ts".toList) ∧
      (∀ path, Glob.MatchesWhole (.leadingDirs :: scriptTokens) (slashed path).bytes) ∧
      (∀ path, scriptsBelow.isMatch path = true ↔ scriptTokens.AtSegment (slashed path)) ∧
      ∀ dir, scriptsBelow.isMatch (dir ++ '/' :: "d/a.ts".toList) = true) ∧
    ∃ f, ofPatterns ["./d/*.ts".toList, "..".toList] = .ok f ∧
      ∀ path, scriptsBelow.isMatch path = true → f.isMatch path = true := by
  have hone : ofPatterns ["./d/*.ts".toList] = .ok scriptsBelow := by cbv
  have hown : ¬ Anchored (ownText "./d/*.ts".toList) := by decide
  have htokens : Glob.parse false (ownText "./d/*.ts".toList) = .ok scriptTokens := by cbv
  have htwo : ofPatterns ["./d/*.ts".toList, "..".toList] =
      .ok ⟨["./d/*.ts".toList, "..".toList],
        scriptsBelow.globs ++ [[.leadingDirs, .literal '.', .literal '.']]⟩ := by cbv
  obtain ⟨g, hg, hmatch, hwhole, -, hdirs⟩ := isMatch_iff_atSegment.1 _ _ hone hown
  obtain rfl : scriptTokens = g := Except.ok.inj (htokens.symm.trans hg)
  -- The pattern is not empty, and it ends in no dot.
  have hevery : ∀ path,
      Glob.MatchesWhole (.leadingDirs :: scriptTokens) (slashed path).bytes := by
    intro path
    rw [hwhole]
    refine ⟨fun hempty => absurd hempty (by decide), ?_⟩
    rintro ⟨-, -, hlast, -⟩
    simp [scriptTokens] at hlast
  refine ⟨⟨hone, hown, hevery, fun path => hmatch path (hevery path),
    fun dir => hdirs dir _ (by cbv)⟩, _, htwo, fun path hpath => ?_⟩
  exact (isMatch_iff_atSegment.2 _ _ htwo path).2 ⟨_, List.mem_cons_self, _, hone, hpath⟩

-- The two cases in which a path is not looked up as the tokens say: the empty pattern, and a path
-- without a file name.
example : (ofPatterns [[]]).map (·.isMatch ['x']) = .ok true := by cbv

example : (ofPatterns [['.', '.']]).map (·.isMatch ['.', '.']) = .ok false := by cbv

end SourceFilter

end Stylewire
