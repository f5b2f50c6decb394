import Stylewire.Glob.Parser

set_option autoImplicit false

/-! # Directories in front of a glob

Putting `**/` in front of the text of a glob puts the token for leading directories in front of its
tokens, and does nothing else to them (`parse_dirs`). This is not plain: how the reader takes a `**`
depends on the tokens of the branch before it and on the character before it, and both are others
now. The reader with the token and the one without it go side by side, and their states differ in
that one token only (`Branches.startWith`). The one `**` they could read in different ways is one at
the very start, before a `/` or the end.
-/

namespace Stylewire

namespace Glob

/-- The text starts with a `**` that stands for directories. -/
def OpensDirs (q : Text) : Prop := q = ['*', '*'] ∨ ['*', '*', '/'] <+: q

instance (q : Text) : Decidable (OpensDirs q) :=
  inferInstanceAs (Decidable (q = ['*', '*'] ∨ ['*', '*', '/'] <+: q))

namespace Branches

/-! ## A token at the very start -/

/-- The groups with the token at the start of the branch the outermost one stands in. -/
def startGroups (t : GlobToken) :
    List (List (List GlobToken) × List GlobToken) → List (List (List GlobToken) × List GlobToken)
  | [] => []
  | [e] => [(e.1, e.2 ++ [t])]
  | e :: f :: es => e :: startGroups t (f :: es)

/-- The branches with the token at the very start of the glob. Branches are kept in reverse, so it
comes last in the outermost one. -/
def startWith (t : GlobToken) (b : Branches) : Branches :=
  match b.enclosing with
  | [] => ⟨b.current ++ [t], []⟩
  | e :: es => ⟨b.current, startGroups t (e :: es)⟩

/-- Something has been read. -/
def Started (b : Branches) : Prop := b.current ≠ [] ∨ b.enclosing ≠ []

variable {b b' : Branches} {t : GlobToken}

theorem push_startWith (t : GlobToken) (b : Branches) (a : GlobToken) :
    (b.startWith t).push a = (b.push a).startWith t := by
  obtain ⟨current, enclosing⟩ := b
  cases enclosing with
  | nil => rfl
  | cons e es => rfl

theorem openGroup_startWith (t : GlobToken) (b : Branches) :
    (b.startWith t).openGroup = b.openGroup.startWith t := by
  obtain ⟨current, enclosing⟩ := b
  cases enclosing with
  | nil => rfl
  | cons e es => rfl

theorem comma_startWith (t : GlobToken) (b : Branches) :
    (b.startWith t).comma = b.comma.startWith t := by
  obtain ⟨current, enclosing⟩ := b
  match enclosing with
  | [] => rfl
  | [e] => rfl
  | e :: f :: es => rfl

theorem closeGroup_startWith (t : GlobToken) (b : Branches) :
    (b.startWith t).closeGroup = b.closeGroup.map (startWith t) := by
  obtain ⟨current, enclosing⟩ := b
  match enclosing with
  | [] => rfl
  | [e] => rfl
  | e :: f :: es => rfl

theorem finish_startWith (t : GlobToken) (b : Branches) :
    (b.startWith t).finish = b.finish.map (t :: ·) := by
  obtain ⟨current, enclosing⟩ := b
  match enclosing with
  | [] =>
      show Except.ok (current ++ [t]).reverse = Except.ok (t :: current.reverse)
      rw [List.reverse_append]
      rfl
  | [e] => rfl
  | e :: f :: es => rfl

theorem pushDirs_startWith (hb : b.Started) (t dirs : GlobToken) :
    (b.startWith t).pushDirs dirs = (b.pushDirs dirs).startWith t := by
  obtain ⟨current, enclosing⟩ := b
  cases enclosing with
  | nil =>
      cases current with
      | nil => simp [Started] at hb
      | cons a current => cases a <;> rfl
  | cons e es =>
      cases current with
      | nil => rfl
      | cons a current => cases a <;> rfl

theorem isEmpty_enclosing_startWith (t : GlobToken) (b : Branches) :
    (b.startWith t).enclosing.isEmpty = b.enclosing.isEmpty := by
  obtain ⟨current, enclosing⟩ := b
  match enclosing with
  | [] => rfl
  | [e] => rfl
  | e :: f :: es => rfl

theorem isEmpty_current_startWith (hb : b.Started) (t : GlobToken) :
    (b.startWith t).current.isEmpty = b.current.isEmpty := by
  obtain ⟨current, enclosing⟩ := b
  cases enclosing with
  | nil =>
      cases current with
      | nil => simp [Started] at hb
      | cons a current => rfl
  | cons e es => rfl

/-- A `**` is read in the same way, whether the token stands at the very start or not, unless it
comes first itself and stands for directories. -/
theorem doubleStar_startWith {prev prev' : Option Char} {rest : Text}
    (h : (b.Started ∧ prev' = prev) ∨ (¬ b.Started ∧ ¬ OpensDirs ('*' :: '*' :: rest)))
    (t : GlobToken) :
    (b.startWith t).doubleStar prev' rest =
      ((b.doubleStar prev rest).1.startWith t, (b.doubleStar prev rest).2) := by
  rcases h with ⟨hb, rfl⟩ | ⟨hb, hdirs⟩
  · unfold doubleStar
    simp only [isEmpty_current_startWith hb, isEmpty_enclosing_startWith, push_startWith,
      pushDirs_startWith hb]
    repeat' split
    all_goals rfl
  · -- Nothing has been read, and the `**` is two stars for both readers.
    obtain ⟨current, enclosing⟩ := b
    obtain ⟨rfl, rfl⟩ : current = [] ∧ enclosing = [] := by simpa [Started] using hb
    cases rest with
    | nil => exact absurd (Or.inl rfl) hdirs
    | cons c rest =>
        have hc : c ≠ '/' := by
          rintro rfl
          exact hdirs (Or.inr ⟨rest, rfl⟩)
        simp [doubleStar, startWith, push, hc]

/-! ## What has been read stays -/

theorem started_push (b : Branches) (a : GlobToken) : (b.push a).Started := Or.inl (by simp [push])

theorem started_openGroup (b : Branches) : b.openGroup.Started := Or.inr (by simp [openGroup])

theorem started_comma (b : Branches) : b.comma.Started := by
  obtain ⟨current, enclosing⟩ := b
  cases enclosing with
  | nil => exact started_push _ _
  | cons e es => exact Or.inr (by simp [comma])

theorem started_closeGroup (h : b.closeGroup = .ok b') : b'.Started := by
  obtain ⟨current, enclosing⟩ := b
  cases enclosing with
  | nil => cases h
  | cons e es =>
      obtain rfl := Except.ok.inj h
      exact Or.inl (by simp)

theorem started_pushDirs (hb : b.Started) (dirs : GlobToken) : (b.pushDirs dirs).Started := by
  unfold pushDirs
  split
  · exact hb
  · exact hb
  · exact Or.inl (by simp)
  · exact hb

theorem started_doubleStar {prev : Option Char} {rest : Text} {takes : Bool}
    (h : b.doubleStar prev rest = (b', takes)) : b'.Started := by
  have hfirst : (b.doubleStar prev rest).1 = b' := by rw [h]
  rw [← hfirst]
  unfold doubleStar
  by_cases hcurrent : b.current.isEmpty = true
  · rw [if_pos hcurrent]
    repeat' split
    all_goals exact started_push _ _
  · have hb : b.Started := Or.inl (by simpa using hcurrent)
    rw [if_neg hcurrent]
    repeat' split
    all_goals first
      | exact started_push _ _
      | exact started_pushDirs hb _

end Branches

/-! ## The two readers side by side -/

open Branches

/-- How a `[` is read where it opens a class. -/
theorem parseFrom_class (lenient : Bool) (b : Branches) (prev : Option Char) (q : Text) :
    parseFrom lenient b prev true ('[' :: q) =
      match membersRanges (classText q).members with
      | .error e => .error e
      | .ok ranges =>
          match (classText q).rest with
          | some r =>
              parseFrom lenient (b.push (.oneOf (classText q).negated ranges)) (some ']') true r
          | none =>
              if lenient then parseFrom lenient (b.push (.literal '[')) (some '[') false q
              else .error .unclosedClass := by
  rw [parseFrom]
  simp only [if_true]
  cases membersRanges (classText q).members with
  | error e => rfl
  | ok ranges =>
      cases hrest : (classText q).rest with
      | none => simp only
      | some r => simp only

/-- **The two readers go side by side**, whatever has been read, or from the start. -/
theorem parseFrom_startWith {lenient : Bool} {b : Branches} {prev prev' : Option Char}
    {classes : Bool} {q : Text}
    (h : (b.Started ∧ prev' = prev) ∨ (¬ b.Started ∧ ¬ OpensDirs q)) (t : GlobToken) :
    parseFrom lenient (b.startWith t) prev' classes q =
      (parseFrom lenient b prev classes q).map (t :: ·) := by
  -- The induction follows the reader without the token. Behind its first step something has been
  -- read, and the character before the rest is the same for both.
  fun_induction parseFrom lenient b prev classes q generalizing prev' with
  | case1 b prev classes => rw [parseFrom, finish_startWith]
  | case2 b prev classes q ih =>
      rw [parseFrom, push_startWith, ih (Or.inl ⟨started_push b _, rfl⟩)]
  | case3 b prev classes b' takes hstar =>
      rw [parseFrom]
      simp only [doubleStar_startWith h, hstar]
      rw [finish_startWith]
  | case4 b prev classes b' c q hstar ih =>
      rw [parseFrom]
      simp only [doubleStar_startWith h, hstar, if_true]
      exact ih (Or.inl ⟨started_doubleStar hstar, rfl⟩)
  | case5 b prev classes b' takes c q htakes hstar ih =>
      rw [parseFrom]
      simp only [doubleStar_startWith h, hstar, if_neg htakes]
      exact ih (Or.inl ⟨started_doubleStar hstar, rfl⟩)
  | case6 b prev classes q hone ih =>
      rw [parseFrom, push_startWith]
      · exact ih (Or.inl ⟨started_push b _, rfl⟩)
      · exact hone
  -- The parts of a class hang on the text alone.
  | case7 b prev q parts e =>
      rename_i hranges
      rw [parseFrom_class, hranges]
      rfl
  | case8 b prev q parts ranges hranges r hrest hlt =>
      rename_i ih
      have hclass : (classText q).rest = _ := hrest
      rw [parseFrom_class, hranges]
      simp only [hclass, push_startWith]
      exact ih (Or.inl ⟨started_push b _, rfl⟩)
  | case9 b prev q parts ranges hranges hrest hlenient =>
      rename_i ih
      have hclass : (classText q).rest = _ := hrest
      rw [parseFrom_class, hranges]
      simp only [hclass, push_startWith, if_pos hlenient]
      exact ih (Or.inl ⟨started_push b _, rfl⟩)
  | case10 b prev q parts ranges hranges hrest =>
      rename_i hlenient
      have hclass : (classText q).rest = none := hrest
      rw [parseFrom_class, hranges]
      simp only [hclass, if_neg hlenient]
      rfl
  | case11 b prev classes q hclasses ih =>
      rw [parseFrom, if_neg hclasses, push_startWith, ih (Or.inl ⟨started_push b _, rfl⟩)]
  | case12 b prev classes q ih =>
      rw [parseFrom, openGroup_startWith, ih (Or.inl ⟨started_openGroup b, rfl⟩)]
  | case13 b prev classes q e hclose =>
      rw [parseFrom, closeGroup_startWith, hclose]
      rfl
  | case14 b prev classes q b' hclose ih =>
      rw [parseFrom, closeGroup_startWith, hclose]
      exact ih (Or.inl ⟨started_closeGroup hclose, rfl⟩)
  | case15 b prev classes q ih =>
      rw [parseFrom, comma_startWith, ih (Or.inl ⟨started_comma b, rfl⟩)]
  | case16 b prev classes =>
      rw [parseFrom]
      rfl
  | case17 b prev classes c q ih =>
      rw [parseFrom, push_startWith]
      exact ih (Or.inl ⟨started_push b _, rfl⟩)
  | case18 b prev classes c q h1 h2 h3 h4 h5 h6 h7 h8 ih =>
      rw [parseFrom, push_startWith, ih (Or.inl ⟨started_push b _, rfl⟩)]
      all_goals assumption

/-- **Directories in front of a text** are a token in front of its tokens. -/
theorem parse_dirs {q : Text} (hq : ¬ OpensDirs q) (lenient : Bool) :
    parse lenient (['*', '*', '/'] ++ q) = (parse lenient q).map (.leadingDirs :: ·) := by
  have hstart : ¬ ({} : Branches).Started := by simp [Started]
  calc parse lenient (['*', '*', '/'] ++ q)
      = parseFrom lenient (startWith .leadingDirs {}) (some '/') true q := by
        rw [parse, List.cons_append, List.cons_append, List.cons_append, List.nil_append, parseFrom]
        rfl
    _ = (parse lenient q).map (.leadingDirs :: ·) :=
        parseFrom_startWith (Or.inr ⟨hstart, hq⟩) _

/-! ## Tokens of a text -/

theorem finish_ne_nil {b : Branches} {g : Glob} (hb : b.Started) (h : b.finish = .ok g) :
    g ≠ [] := by
  obtain ⟨current, enclosing⟩ := b
  cases enclosing with
  | nil =>
      obtain rfl := Except.ok.inj h
      simpa [Started] using hb
  | cons e es => cases h

/-- Whatever is read leaves a token, or leads to an error. -/
theorem parseFrom_ne_nil {lenient : Bool} {b : Branches} {prev : Option Char} {classes : Bool}
    {q : Text} {g : Glob} (hb : b.Started ∨ q ≠ [])
    (h : parseFrom lenient b prev classes q = .ok g) : g ≠ [] := by
  fun_induction parseFrom lenient b prev classes q with
  | case1 b prev classes => exact finish_ne_nil (hb.resolve_right (by simp)) h
  | case2 b prev classes q ih => exact ih (Or.inl (started_push b _)) h
  | case3 b prev classes b' takes hstar => exact finish_ne_nil (started_doubleStar hstar) h
  | case4 b prev classes b' c q hstar ih => exact ih (Or.inl (started_doubleStar hstar)) h
  | case5 b prev classes b' takes c q htakes hstar ih =>
      exact ih (Or.inl (started_doubleStar hstar)) h
  | case6 b prev classes q hone ih => exact ih (Or.inl (started_push b _)) h
  | case7 => cases h
  | case8 =>
      rename_i ih
      exact ih (Or.inl (started_push _ _)) h
  | case9 =>
      rename_i ih
      exact ih (Or.inl (started_push _ _)) h
  | case10 => cases h
  | case11 b prev classes q hclasses ih => exact ih (Or.inl (started_push b _)) h
  | case12 b prev classes q ih => exact ih (Or.inl (started_openGroup b)) h
  | case13 => cases h
  | case14 b prev classes q b' hclose ih => exact ih (Or.inl (started_closeGroup hclose)) h
  | case15 b prev classes q ih => exact ih (Or.inl (started_comma b)) h
  | case16 => cases h
  | case17 b prev classes c q ih => exact ih (Or.inl (started_push b _)) h
  | case18 b prev classes c q h1 h2 h3 h4 h5 h6 h7 h8 ih =>
      exact ih (Or.inl (started_push b _)) h

/-- A text has no tokens only if it is empty. -/
theorem parse_eq_nil_iff {lenient : Bool} {q : Text} {g : Glob} (h : parse lenient q = .ok g) :
    g = [] ↔ q = [] := by
  constructor
  · intro hg
    exact Decidable.byContradiction fun hq => parseFrom_ne_nil (Or.inr hq) h hg
  · rintro rfl
    rw [parse, parseFrom] at h
    exact (Except.ok.inj h).symm

end Glob

end Stylewire
