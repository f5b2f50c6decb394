import Stylewire.Glob.Basic

set_option autoImplicit false

/-! # What a glob matches

`Matches` says token by token what a glob matches: the bytes of a path are cut into one piece for
each token. Nothing is said there about how a match is found.

The matcher goes from the end of the glob to its start and keeps one mark for each rest of the path.
A list of marks *decides* a property of rests if the mark of every rest says whether it has the
property (`Decides`). Each step takes marks that decide a property to marks that decide the property
of having a piece for the token in front (`decides_marksBefore`), so the mark of the whole path
decides whether the glob matches (`isMatch_iff`).
-/

namespace Stylewire

namespace Glob

/-! ## Matches by tokens -/

mutual

/-- The token matches the bytes. -/
def TokenMatches : GlobToken → List UInt8 → Prop
  | .literal c, bs => bs = String.utf8EncodeChar c
  | .anyOne, bs => ∃ b, bs = [b] ∧ b ≠ slash
  | .anyRun, bs => ∀ b ∈ bs, b ≠ slash
  | .leadingDirs, bs => bs = [] ∨ ∃ dirs, bs = dirs ++ [slash]
  | .innerDirs, bs => bs = [slash] ∨ ∃ dirs, bs = slash :: (dirs ++ [slash])
  | .everythingBelow, bs => ∃ below, bs = slash :: below
  | .oneOf negated ranges, bs => ∃ b, bs = [b] ∧ ranges.any (inRange b) ≠ negated
  | .alternates branches, bs => (allVoid branches = true ∧ bs = []) ∨ SomeMatches branches bs

/-- A branch with content matches the bytes. -/
def SomeMatches : List (List GlobToken) → List UInt8 → Prop
  | [], _ => False
  | g :: gs, bs => (isVoidBranch g = false ∧ Matches g bs) ∨ SomeMatches gs bs

/-- The tokens, one after the other, match the bytes. -/
def Matches : List GlobToken → List UInt8 → Prop
  | [], bs => bs = []
  | t :: ts, bs => ∃ u v, bs = u ++ v ∧ TokenMatches t u ∧ Matches ts v

end

/-- A group without content has no branch to match. -/
theorem not_someMatches_of_allVoid {branches : List (List GlobToken)}
    (h : allVoid branches = true) (bs : List UInt8) : ¬ SomeMatches branches bs := by
  induction branches with
  | nil => simp [SomeMatches]
  | cons g gs ih =>
      rw [allVoid, Bool.and_eq_true] at h
      simp [SomeMatches, h.1, ih h.2]

theorem matches_append {g h : List GlobToken} {bs : List UInt8} :
    Matches (g ++ h) bs ↔ ∃ u v, bs = u ++ v ∧ Matches g u ∧ Matches h v := by
  induction g generalizing bs with
  | nil =>
      constructor
      · intro hh
        exact ⟨[], bs, rfl, rfl, hh⟩
      · rintro ⟨u, v, rfl, rfl, hh⟩
        exact hh
  | cons t ts ih =>
      simp only [List.cons_append, Matches, ih]
      constructor
      · rintro ⟨u, w, rfl, ht, v, x, rfl, hts, hh⟩
        exact ⟨u ++ v, x, by simp, ⟨u, v, rfl, ht, hts⟩, hh⟩
      · rintro ⟨w, x, rfl, ⟨u, v, rfl, ht, hts⟩, hh⟩
        exact ⟨u, v ++ x, by simp, ht, v, x, rfl, hts, hh⟩

/-! ## Marks -/

/-- The marks decide the property of the rests of the path. -/
def Decides (P : List UInt8 → Prop) : List UInt8 → List Bool → Prop
  | [], [m] => (m = true ↔ P [])
  | b :: path, m :: marks => (m = true ↔ P (b :: path)) ∧ Decides P path marks
  | _, _ => False

/-- The rest has a piece of a kind in front, before a rest with the property. -/
def Before (L P : List UInt8 → Prop) (r : List UInt8) : Prop := ∃ u v, r = u ++ v ∧ L u ∧ P v

theorem before_nothing {P : List UInt8 → Prop} {r : List UInt8} : Before (· = []) P r ↔ P r := by
  constructor
  · rintro ⟨u, v, rfl, rfl, hv⟩
    exact hv
  · intro hr
    exact ⟨[], r, rfl, rfl, hr⟩

theorem before_or {L M P : List UInt8 → Prop} {r : List UInt8} :
    Before (fun u => L u ∨ M u) P r ↔ Before L P r ∨ Before M P r := by
  constructor
  · rintro ⟨u, v, hr, hu | hu, hv⟩
    · exact Or.inl ⟨u, v, hr, hu, hv⟩
    · exact Or.inr ⟨u, v, hr, hu, hv⟩
  · rintro (⟨u, v, hr, hu, hv⟩ | ⟨u, v, hr, hu, hv⟩)
    · exact ⟨u, v, hr, Or.inl hu, hv⟩
    · exact ⟨u, v, hr, Or.inr hu, hv⟩

theorem before_before {L M P : List UInt8 → Prop} {r : List UInt8} :
    Before L (Before M P) r ↔ Before (Before L M) P r := by
  constructor
  · rintro ⟨u, w, rfl, hu, v, x, rfl, hv, hx⟩
    exact ⟨u ++ v, x, by simp, ⟨u, v, rfl, hu, hv⟩, hx⟩
  · rintro ⟨w, x, rfl, ⟨u, v, rfl, hu, hv⟩, hx⟩
    exact ⟨u, v ++ x, by simp, hu, v, x, rfl, hv, hx⟩

theorem before_empty {L P : List UInt8 → Prop} : Before L P [] ↔ L [] ∧ P [] := by
  constructor
  · rintro ⟨u, v, heq, hu, hv⟩
    obtain ⟨rfl, rfl⟩ := List.append_eq_nil_iff.1 heq.symm
    exact ⟨hu, hv⟩
  · rintro ⟨hu, hv⟩
    exact ⟨[], [], rfl, hu, hv⟩

/-- A piece in front of a rest that is not empty is itself empty, or has the first byte. -/
theorem before_cons {L P : List UInt8 → Prop} {b : UInt8} {r : List UInt8} :
    Before L P (b :: r) ↔ (L [] ∧ P (b :: r)) ∨ Before (fun u => L (b :: u)) P r := by
  constructor
  · rintro ⟨u, v, heq, hu, hv⟩
    cases u with
    | nil =>
        obtain rfl : b :: r = v := heq
        exact Or.inl ⟨hu, hv⟩
    | cons a u =>
        obtain ⟨rfl, rfl⟩ := List.cons.inj heq
        exact Or.inr ⟨u, v, rfl, hu, hv⟩
  · rintro (⟨hu, hv⟩ | ⟨u, v, rfl, hu, hv⟩)
    · exact ⟨[], b :: r, rfl, hu, hv⟩
    · exact ⟨b :: u, v, rfl, hu, hv⟩

theorem before_congr {L M P : List UInt8 → Prop} (h : ∀ u, L u ↔ M u) {r : List UInt8} :
    Before L P r ↔ Before M P r := by
  have hfun : L = M := funext fun u => propext (h u)
  rw [hfun]

/-- A byte of a kind, as a piece. -/
def Single (kind : UInt8 → Bool) (u : List UInt8) : Prop := ∃ b, u = [b] ∧ kind b = true

theorem before_single_iff {kind : UInt8 → Bool} {P : List UInt8 → Prop} {r : List UInt8} :
    Before (Single kind) P r ↔ ∃ b v, r = b :: v ∧ kind b = true ∧ P v := by
  constructor
  · rintro ⟨u, v, rfl, ⟨b, rfl, hb⟩, hv⟩
    exact ⟨b, v, rfl, hb, hv⟩
  · rintro ⟨b, v, rfl, hb, hv⟩
    exact ⟨[b], v, rfl, ⟨b, rfl, hb⟩, hv⟩

section Steps

variable {P Q : List UInt8 → Prop} {path : List UInt8} {marks others : List Bool}

theorem Decides.head (h : Decides P path marks) : marks.headD false = true ↔ P path := by
  cases path with
  | nil =>
      match marks, h with
      | [m], h => exact h
  | cons b path =>
      match marks, h with
      | m :: marks, h => exact h.1

theorem Decides.congr (h : Decides P path marks) (hPQ : ∀ r, P r ↔ Q r) : Decides Q path marks := by
  have hfun : P = Q := funext fun r => propext (hPQ r)
  rwa [← hfun]

theorem decides_endMarks (path : List UInt8) : Decides (· = []) path (endMarks path) := by
  induction path with
  | nil => simp [endMarks, Decides]
  | cons b path ih => simp [endMarks, Decides, ih]

theorem Decides.beforeByte (h : Decides P path marks) (kind : UInt8 → Bool) :
    Decides (Before (Single kind) P) path (beforeByte kind path marks) := by
  induction path generalizing marks with
  | nil => simp [Glob.beforeByte, Decides, before_empty, Single]
  | cons b path ih =>
      match marks, h with
      | m :: marks, h =>
          refine ⟨?_, ih h.2⟩
          rw [Bool.and_eq_true, h.2.head, before_single_iff]
          constructor
          · rintro ⟨hb, hrest⟩
            exact ⟨b, path, rfl, hb, hrest⟩
          · rintro ⟨a, v, heq, ha, hv⟩
            obtain ⟨rfl, rfl⟩ := List.cons.inj heq
            exact ⟨ha, hv⟩

theorem Decides.beforeBytes (h : Decides P path marks) (bs : List UInt8) :
    Decides (Before (· = bs) P) path (beforeBytes path bs marks) := by
  induction bs with
  | nil => exact h.congr fun r => before_nothing.symm
  | cons b bs ih =>
      show Decides _ path (Glob.beforeByte (· == b) path (Glob.beforeBytes path bs marks))
      refine (ih.beforeByte (· == b)).congr fun r => ?_
      rw [before_before]
      refine before_congr fun u => ?_
      rw [before_single_iff]
      constructor
      · rintro ⟨a, v, rfl, ha, rfl⟩
        rw [beq_iff_eq.1 ha]
      · rintro rfl
        exact ⟨b, bs, rfl, by simp, rfl⟩

/-- A piece without separators is empty, or it has a byte other than `/` before such a piece. -/
theorem Decides.beforeRun (h : Decides P path marks) :
    Decides (Before (fun u => ∀ b ∈ u, b ≠ slash) P) path (beforeRun path marks) := by
  induction path generalizing marks with
  | nil =>
      match marks, h with
      | [m], h =>
          show m = true ↔ _
          rw [before_empty]
          exact h.trans (by simp)
  | cons b path ih =>
      match marks, h with
      | m :: marks, h =>
          have hlater := ih h.2
          refine ⟨?_, hlater⟩
          rw [Bool.or_eq_true, Bool.and_eq_true, h.1, hlater.head, before_cons, bne_iff_ne]
          refine or_congr (by simp) ?_
          constructor
          · rintro ⟨hb, u, v, rfl, hu, hv⟩
            exact ⟨u, v, rfl, List.forall_mem_cons.2 ⟨hb, hu⟩, hv⟩
          · rintro ⟨u, v, rfl, hu, hv⟩
            obtain ⟨hb, hu⟩ := List.forall_mem_cons.1 hu
            exact ⟨hb, u, v, rfl, hu, hv⟩

/-- A piece that ends in `/` is a single one, or it has any byte before such a piece. -/
theorem Decides.beforeSlash (h : Decides P path marks) :
    Decides (Before (fun u => ∃ dirs, u = dirs ++ [slash]) P) path (beforeSlash path marks) := by
  induction path generalizing marks with
  | nil => simp [Glob.beforeSlash, Decides, before_empty]
  | cons b path ih =>
      match marks, h with
      | m :: marks, h =>
          have hlater := ih h.2
          refine ⟨?_, hlater⟩
          rw [Bool.or_eq_true, Bool.and_eq_true, h.2.head, hlater.head, before_cons, beq_iff_eq]
          constructor
          · rintro (⟨rfl, hhere⟩ | ⟨u, v, rfl, ⟨dirs, rfl⟩, hv⟩)
            · exact Or.inr ⟨[], path, rfl, ⟨[], rfl⟩, hhere⟩
            · exact Or.inr ⟨dirs ++ [slash], v, rfl, ⟨b :: dirs, rfl⟩, hv⟩
          · rintro (⟨⟨dirs, hdirs⟩, -⟩ | ⟨u, v, rfl, ⟨dirs, hdirs⟩, hv⟩)
            · simp at hdirs
            · cases dirs with
              | nil =>
                  obtain ⟨rfl, rfl⟩ := List.cons.inj hdirs
                  exact Or.inl ⟨rfl, hv⟩
              | cons a dirs =>
                  obtain ⟨-, rfl⟩ := List.cons.inj hdirs
                  exact Or.inr ⟨dirs ++ [slash], v, rfl, ⟨dirs, rfl⟩, hv⟩

theorem Decides.either (h : Decides P path marks) (h' : Decides Q path others) :
    Decides (fun r => P r ∨ Q r) path (either marks others) := by
  induction path generalizing marks others with
  | nil =>
      match marks, others, h, h' with
      | [m], [n], h, h' =>
          show (m || n) = true ↔ _
          rw [Bool.or_eq_true]
          exact or_congr h h'
  | cons b path ih =>
      match marks, others, h, h' with
      | m :: marks, n :: others, h, h' =>
          refine ⟨?_, ih h.2 h'.2⟩
          rw [Bool.or_eq_true, h.1, h'.1]

/-- Nothing, or a piece that ends in `/`. -/
theorem Decides.beforeDirs (h : Decides P path marks) :
    Decides (Before (fun u => u = [] ∨ ∃ dirs, u = dirs ++ [slash]) P) path
      (Glob.either marks (Glob.beforeSlash path marks)) := by
  refine (h.either h.beforeSlash).congr fun r => ?_
  rw [before_or, before_nothing]

theorem Decides.beforeAnything (h : Decides P path marks) :
    Decides (Before (fun _ => True) P) path (beforeAnything marks) := by
  induction path generalizing marks with
  | nil =>
      match marks, h with
      | [m], h =>
          show (m || false) = true ↔ _
          rw [Bool.or_false, before_empty]
          exact h.trans (by simp)
  | cons b path ih =>
      match marks, h with
      | m :: marks, h =>
          have hlater := ih h.2
          refine ⟨?_, hlater⟩
          rw [Bool.or_eq_true, h.1, hlater.head, before_cons]
          simp

theorem Decides.nowhere (h : Decides P path marks) :
    Decides (fun _ => False) path (marks.map fun _ => false) := by
  induction path generalizing marks with
  | nil =>
      match marks, h with
      | [m], _ => simp [Decides]
  | cons b path ih =>
      match marks, h with
      | m :: marks, h => exact ⟨by simp, ih h.2⟩

end Steps

/-! ## The matcher -/

mutual

/-- **One step of the matcher** puts a piece for the token in front. -/
theorem decides_marksBefore {P : List UInt8 → Prop} {path : List UInt8} {marks : List Bool}
    (h : Decides P path marks) (t : GlobToken) :
    Decides (Before (TokenMatches t) P) path (marksBefore path t marks) := by
  match t with
  | .literal c =>
      rw [marksBefore]
      exact (h.beforeBytes _).congr fun r => before_congr fun u => by rw [TokenMatches]
  | .anyOne =>
      rw [marksBefore]
      refine (h.beforeByte _).congr fun r => before_congr fun u => ?_
      simp [TokenMatches, Single]
  | .anyRun =>
      rw [marksBefore]
      exact h.beforeRun.congr fun r => before_congr fun u => by rw [TokenMatches]
  | .leadingDirs =>
      rw [marksBefore]
      exact h.beforeDirs.congr fun r => before_congr fun u => by rw [TokenMatches]
  | .innerDirs =>
      rw [marksBefore]
      refine (h.beforeDirs.beforeByte _).congr fun r => ?_
      rw [before_before]
      -- The first `/` and the directories behind it are one piece.
      refine before_congr fun u => ?_
      rw [TokenMatches, before_single_iff]
      constructor
      · rintro ⟨b, v, rfl, hb, rfl | ⟨dirs, rfl⟩⟩
        · exact Or.inl (by rw [beq_iff_eq.1 hb])
        · exact Or.inr ⟨dirs, by rw [beq_iff_eq.1 hb]⟩
      · rintro (rfl | ⟨dirs, rfl⟩)
        · exact ⟨slash, [], rfl, by simp, Or.inl rfl⟩
        · exact ⟨slash, dirs ++ [slash], rfl, by simp, Or.inr ⟨dirs, rfl⟩⟩
  | .everythingBelow =>
      rw [marksBefore]
      refine (h.beforeAnything.beforeByte _).congr fun r => ?_
      rw [before_before]
      refine before_congr fun u => ?_
      rw [TokenMatches, before_single_iff]
      constructor
      · rintro ⟨b, below, rfl, hb, -⟩
        exact ⟨below, by rw [beq_iff_eq.1 hb]⟩
      · rintro ⟨below, rfl⟩
        exact ⟨slash, below, rfl, by simp, trivial⟩
  | .oneOf negated ranges =>
      rw [marksBefore]
      refine (h.beforeByte _).congr fun r => before_congr fun u => ?_
      simp [TokenMatches, Single]
  | .alternates branches =>
      rw [marksBefore]
      -- A group without content stands for the empty piece.
      by_cases hvoid : allVoid branches = true
      · rw [if_pos hvoid]
        refine h.congr fun r => before_nothing.symm.trans (before_congr fun u => ?_)
        simp [TokenMatches, hvoid, not_someMatches_of_allVoid hvoid]
      · rw [if_neg hvoid]
        refine (decides_marksBeforeSome h branches).congr fun r => before_congr fun u => ?_
        simp [TokenMatches, hvoid]

theorem decides_marksBeforeSome {P : List UInt8 → Prop} {path : List UInt8} {marks : List Bool}
    (h : Decides P path marks) (branches : List (List GlobToken)) :
    Decides (Before (SomeMatches branches) P) path (marksBeforeSome path branches marks) := by
  match branches with
  | [] =>
      rw [marksBeforeSome]
      refine h.nowhere.congr fun r => ?_
      simp [SomeMatches, Before]
  | g :: gs =>
      rw [marksBeforeSome]
      have hgs := decides_marksBeforeSome h gs
      -- A branch without content does not count.
      by_cases hvoid : isVoidBranch g = true
      · rw [if_pos hvoid]
        refine hgs.congr fun r => before_congr fun u => ?_
        simp [SomeMatches, hvoid]
      · rw [if_neg hvoid]
        refine ((decides_marksBeforeAll h g).either hgs).congr fun r => ?_
        rw [← before_or]
        refine before_congr fun u => ?_
        simp [SomeMatches, hvoid]

theorem decides_marksBeforeAll {P : List UInt8 → Prop} {path : List UInt8} {marks : List Bool}
    (h : Decides P path marks) (g : List GlobToken) :
    Decides (Before (Matches g) P) path (marksBeforeAll path g marks) := by
  match g with
  | [] =>
      rw [marksBeforeAll]
      exact h.congr fun r => before_nothing.symm.trans (before_congr fun u => by rw [Matches])
  | t :: ts =>
      rw [marksBeforeAll]
      refine (decides_marksBefore (decides_marksBeforeAll h ts) t).congr fun r => ?_
      rw [before_before]
      exact before_congr fun u => by rw [Matches, Before]

end

/-- **The matcher finds the matches by tokens.** -/
theorem isMatch_iff {g : Glob} {path : List UInt8} :
    g.isMatch path = true ↔ g = [.leadingDirs] ∨ Matches g path := by
  have hmarks := (decides_marksBeforeAll (decides_endMarks path) g).head
  have hwhole : Before (Matches g) (· = []) path ↔ Matches g path := by
    constructor
    · rintro ⟨u, v, rfl, hu, rfl⟩
      rwa [List.append_nil]
    · intro hpath
      exact ⟨path, [], by simp, hpath, rfl⟩
  unfold isMatch
  split
  · simp
  · rename_i hne
    rw [hmarks, hwhole]
    exact (or_iff_right hne).symm

end Glob

end Stylewire
