import Stylewire.Proofs.ByteText
import Stylewire.Proofs.ImportPlacement
import Stylewire.Proofs.SessionRun

set_option autoImplicit false

/-! # Call sites and the new import

The calls of a text are looked up once the import is in place. The new text is the old one, cut in
two, with one piece between the parts, so most call sites stay where they are or move by the size of
the piece. There are two exceptions:

* the piece quotes a module path, and a call in the path is a call of the new text;
* the cut may go through the head of a call, between the name and its parenthesis (`CutHead`). This
  call is lost, and there is at most one of them.

`callOffsets_ensureImport` lists the call sites of the new text by these rules, and tells when the
old ones are all there are.
-/

namespace Stylewire

open Brackets

/-! ## Byte offsets in a text put together -/

namespace Text

theorem byteOffset_append_left {a : Text} {i : Nat} (b : Text) (hi : i ≤ a.length) :
    (a ++ b).byteOffset i = a.byteOffset i := by
  rw [byteOffset_eq, byteOffset_eq, List.take_append_of_le_length hi]

theorem byteOffset_append_right (a b : Text) (i : Nat) :
    (a ++ b).byteOffset (a.length + i) = a.byteSize + b.byteOffset i := by
  rw [byteOffset_eq, byteOffset_eq, List.take_length_add_append, byteSize_append]

/-- Two starts of a text with the same size are the same. -/
theorem eq_of_byteSize_eq {u v u' v' : Text} (h : u ++ v = u' ++ v')
    (hsize : u.byteSize = u'.byteSize) : u = u' := by
  have hu : (u ++ v).byteOffset u.length = u.byteSize := byteOffset_append u v
  have hu' : (u ++ v).byteOffset u'.length = u'.byteSize := by rw [h, byteOffset_append]
  have hlen := congrArg List.length h
  simp only [List.length_append] at hlen
  refine (List.append_inj h ?_).1
  rcases Nat.lt_trichotomy u.length u'.length with hlt | heq | hlt
  · have := byteOffset_lt (t := u ++ v) hlt (by rw [List.length_append]; omega)
    omega
  · exact heq
  · have := byteOffset_lt (t := u ++ v) hlt (by rw [List.length_append]; omega)
    omega

end Text

/-- The byte offsets of the calls of a text. -/
def callOffsets (name : Identifier) (t : Text) : List Nat := (callSites name t).map t.byteOffset

/-! ## Cutting a text anywhere -/

/-- The cut between `a` and `b` goes through the head of a call, which starts at the byte
offset `o`. -/
def CutHead (name : Identifier) (a b : Text) (o : Nat) : Prop :=
  ∃ u h h' v, a = u ++ h ∧ b = h' ++ '(' :: v ∧ h ≠ [] ∧ IsHead name (h ++ h') ∧ o = u.byteSize

/-- **The call sites of a text cut anywhere.** At most one call has its head on both sides of the
cut, and it is a call of neither part. -/
theorem exists_sitesFrom_append (name : Identifier) (pos : Nat) (prev : Option Char) (a b : Text) :
    ∃ lost, sitesFrom name pos prev (a ++ b) = sitesFrom name pos prev a ++
        (lost ++ sitesFrom name (pos + a.length) (Text.lastFrom prev a) b) ∧
      lost.length ≤ 1 ∧
      ∀ i ∈ lost, ∃ u h h' v, a = u ++ h ∧ b = h' ++ '(' :: v ∧ h ≠ [] ∧
        IsHead name (h ++ h') ∧ i = pos + u.length := by
  induction a generalizing pos prev with
  | nil => exact ⟨[], rfl, Nat.zero_le 1, fun i hi => absurd hi List.not_mem_nil⟩
  | cons c a ih =>
      obtain ⟨lost, heq, hlen, hlost⟩ := ih (pos + 1) (some c)
      have hpos : pos + (c :: a).length = pos + 1 + a.length := by
        rw [List.length_cons]
        omega
      have hshift : ∀ i ∈ lost, ∃ u h h' v, c :: a = u ++ h ∧ b = h' ++ '(' :: v ∧ h ≠ [] ∧
          IsHead name (h ++ h') ∧ i = pos + u.length := by
        intro i hi
        obtain ⟨u, h, h', v, rfl, hb, hne, hh, rfl⟩ := hlost i hi
        refine ⟨c :: u, h, h', v, rfl, hb, hne, hh, ?_⟩
        rw [List.length_cons]
        omega
      by_cases hpart : isCall name prev (c :: a) = true
      · have hwhole : isCall name prev (c :: (a ++ b)) = true := by
          obtain ⟨hclear, h, k, hh, ht⟩ := isCall_iff.1 hpart
          refine isCall_iff.2 ⟨hclear, h, k ++ b, hh, ?_⟩
          rw [← List.cons_append, ht]
          simp
        rw [List.cons_append, hpos, Text.lastFrom_cons, sitesFrom, sitesFrom, if_pos hwhole,
          if_pos hpart, heq]
        exact ⟨lost, rfl, hlen, hshift⟩
      · by_cases hwhole : isCall name prev (c :: a ++ b) = true
        · -- The parenthesis stands in `b`, so `c :: a` is a part of the head and has no calls.
          obtain ⟨hclear, h, k, hh, ht⟩ := isCall_iff.1 hwhole
          obtain ⟨x, rfl, rfl⟩ : ∃ x, h = c :: a ++ x ∧ b = x ++ '(' :: k := by
            rcases List.append_eq_append_iff.1 ht with hx | ⟨y, ha, hk⟩
            · exact hx
            · cases y with
              | nil => exact ⟨[], by rw [ha]; simp, by simpa using hk.symm⟩
              | cons e y =>
                  obtain ⟨rfl, -⟩ := List.cons.inj hk
                  exact absurd (isCall_iff.2 ⟨hclear, h, y, hh, ha⟩) hpart
          have hnone : '(' ∉ c :: a := fun hmem => hh.not_mem (List.mem_append_left x hmem)
          refine ⟨[pos], ?_, Nat.le_refl 1, ?_⟩
          · have hcall := sitesFrom_call hclear hh pos k
            rw [List.append_assoc] at hcall
            rw [hcall, sitesFrom_eq_nil hnone, List.nil_append, List.singleton_append,
              hh.sitesFrom_inside (by simp)]
            congr 2
            rw [List.length_append]
            omega
          · intro i hi
            obtain rfl := List.mem_singleton.1 hi
            exact ⟨[], c :: a, x, k, rfl, rfl, by simp, hh, rfl⟩
        · rw [List.cons_append] at hwhole ⊢
          rw [hpos, Text.lastFrom_cons, sitesFrom, sitesFrom, if_neg hwhole, if_neg hpart]
          exact ⟨lost, heq, hlen, hshift⟩

/-- A call that lies before the cut as a whole has no part behind it. -/
theorem not_cutHead {name : Identifier} {a : Text} {i : Nat} (hi : i ∈ callSites name a) (b : Text) :
    ¬ CutHead name a b (a.byteOffset i) := by
  rw [callSites_eq] at hi
  obtain ⟨u, s, rfl, rfl, hcall⟩ := mem_sitesFrom.1 hi
  obtain ⟨-, h, k, hh, rfl⟩ := isCall_iff.1 hcall
  rintro ⟨u', g, g', v, ha, -, -, hg, ho⟩
  rw [Nat.zero_add, Text.byteOffset_append] at ho
  obtain rfl := Text.eq_of_byteSize_eq ha ho
  -- The rest of `a` would be a part of a head, and yet it holds a parenthesis.
  obtain rfl := List.append_cancel_left ha
  exact hg.not_mem (by simp)

/-- Only whether an identifier ends before a text counts for the calls in it. -/
theorem sitesFrom_congr_prev {name : Identifier} {prev prev' : Option Char}
    (h : isClear prev = isClear prev') (pos : Nat) (t : Text) :
    sitesFrom name pos prev t = sitesFrom name pos prev' t := by
  cases t with
  | nil => rfl
  | cons c t =>
      have hcall : isCall name prev (c :: t) = isCall name prev' (c :: t) := by
        unfold isCall
        rw [h]
        rfl
      rw [sitesFrom, sitesFrom, hcall]

/-- At the start of a text or the end of a line, what stands before does not count. -/
theorem sitesFrom_lineEnd {name : Identifier} {b : Text} (hb : LineEnd b) (prev : Option Char)
    (pos : Nat) : sitesFrom name pos prev b = sitesFrom name pos none b := by
  cases b with
  | nil => rfl
  | cons c b =>
      obtain rfl := hb c rfl
      have hno : ∀ p, isCall name p ('\n' :: b) = false := fun _ => isCall_cons_eq_false (by decide)
      rw [sitesFrom, sitesFrom, hno, hno]

theorem map_byteOffset_append (a b : Text) (sites : List Nat) :
    (sites.map (a.length + ·)).map (a ++ b).byteOffset =
      (sites.map b.byteOffset).map (a.byteSize + ·) := by
  rw [List.map_map, List.map_map]
  exact List.map_congr_left fun i _ => Text.byteOffset_append_right a b i

/-- The calls of the first part of a text have the offsets they have in the part. -/
theorem map_byteOffset_callSites (name : Identifier) (a b : Text) :
    (callSites name a).map (a ++ b).byteOffset = callOffsets name a :=
  List.map_congr_left fun _ hi =>
    Text.byteOffset_append_left b (Nat.le_of_lt (lt_length_of_mem_callSites hi))

/-- The call sites of a text cut at the end of a line, or at its start. -/
theorem exists_callOffsets_append (name : Identifier) {a b : Text} (hb : a = [] ∨ LineEnd b) :
    ∃ lost, callOffsets name (a ++ b) =
        callOffsets name a ++ (lost ++ (callOffsets name b).map (a.byteSize + ·)) ∧
      lost.length ≤ 1 ∧ ∀ o ∈ lost, CutHead name a b o := by
  obtain ⟨lost, heq, hlen, hlost⟩ := exists_sitesFrom_append name 0 none a b
  have hbehind : sitesFrom name (0 + a.length) (Text.lastFrom none a) b =
      (callSites name b).map (a.length + ·) := by
    rw [callSites_eq, ← sitesFrom_add, Nat.zero_add, Nat.add_zero]
    rcases hb with rfl | hb
    · rfl
    · exact sitesFrom_lineEnd hb _ _
  refine ⟨lost.map (a ++ b).byteOffset, ?_, by rw [List.length_map]; exact hlen, ?_⟩
  · rw [callOffsets, callSites_eq, heq, ← callSites_eq, hbehind, List.map_append, List.map_append,
      map_byteOffset_callSites, map_byteOffset_append]
    rfl
  · intro o ho
    obtain ⟨i, hi, rfl⟩ := List.mem_map.1 ho
    obtain ⟨u, h, h', v, rfl, hbeq, hne, hh, rfl⟩ := hlost i hi
    refine ⟨u, h, h', v, rfl, hbeq, hne, hh, ?_⟩
    rw [Nat.zero_add, List.append_assoc, Text.byteOffset_append]

/-- **The call sites of a text cut at a separator**: a character that has no part in any head. -/
theorem callOffsets_separator (name : Identifier) {c : Char} (hident : isIdentChar c = false)
    (hblank : isBlank c = false) (hparen : c ≠ '(') (a b : Text) :
    callOffsets name (a ++ c :: b) =
      callOffsets name a ++ (callOffsets name b).map ((a ++ [c]).byteSize + ·) := by
  have hclear : isClear (some c) = isClear none := by simp [isClear, hident]
  have hsites : callSites name (a ++ c :: b) =
      callSites name a ++ (callSites name b).map ((a ++ [c]).length + ·) := by
    rw [callSites_eq, callSites_eq, callSites_eq, sitesFrom_append (apart_cons hident hblank hparen),
      sitesFrom, isCall_cons_eq_false hident, if_neg Bool.false_ne_true,
      sitesFrom_congr_prev hclear, ← sitesFrom_add, List.length_append, Nat.zero_add]
    rfl
  have hcut : a ++ c :: b = a ++ [c] ++ b := by simp
  rw [callOffsets, hsites, List.map_append, map_byteOffset_callSites]
  congr 1
  rw [hcut, map_byteOffset_append]
  rfl

/-- Text without parentheses behind a line break holds no calls. -/
theorem callOffsets_plain (name : Identifier) (a : Text) {g : Text} (hg : '(' ∉ g)
    (ha : Apart g) : callOffsets name (a ++ g) = callOffsets name a := by
  have hsites : callSites name (a ++ g) = callSites name a := by
    rw [callSites_eq, callSites_eq, sitesFrom_append ha, sitesFrom_eq_nil hg, List.append_nil]
  rw [callOffsets, hsites]
  exact map_byteOffset_callSites name a g

theorem callOffsets_newline (name : Identifier) (t : Text) :
    callOffsets name ('\n' :: t) = (callOffsets name t).map (1 + ·) := by
  have hclear : isClear (some '\n') = isClear none := rfl
  have hsites : callSites name ('\n' :: t) = (callSites name t).map (1 + ·) := by
    rw [callSites_eq, callSites_eq, sitesFrom, isCall_cons_eq_false (by decide),
      if_neg Bool.false_ne_true, ← sitesFrom_add, sitesFrom_congr_prev hclear]
  rw [callOffsets, hsites]
  exact map_byteOffset_append ['\n'] t _

/-! ## The piece that is put in -/

/-- The text `s` that is put in between `a` and `b`: the import, on a line of its own at the start of
the text or behind the end of a line. -/
inductive Piece (module marker : Text) : (a s b : Text) → Prop
  | start (t : Text) : Piece module marker [] (importStatement module marker ++ ['\n']) t
  | behind (a : Text) {b : Text} : LineEnd b →
      Piece module marker a ('\n' :: importStatement module marker) b

/-- An import that is not found is put in as one piece. -/
theorem exists_piece {t module marker : Text} (hno : hasImport t module marker = false) :
    ∃ a s b, t = a ++ b ∧ a.length = importPlace t ∧
      ensureImport t module marker = a ++ (s ++ b) ∧ Piece module marker a s b := by
  rw [ensureImport_of_lastImportEnd? hno, importPlace]
  cases hlast : lastImportEnd? t with
  | none => exact ⟨[], _, t, rfl, rfl, by simp, .start t⟩
  | some i =>
      obtain ⟨a, b, rfl, rfl, hb, -⟩ := lastImportEnd?_eq_some hlast
      exact ⟨a, _, b, rfl, rfl, by simp, .behind a hb⟩

/-- The statement up to the module path. -/
def importHead (marker : Text) : Text :=
  importWord ++ [' ', '*', ' ', 'a', 's', ' '] ++ marker ++ [' '] ++ fromWord ++ [' ']

theorem importStatement_eq_head (module marker : Text) :
    importStatement module marker = importHead marker ++ '\'' :: (module ++ ['\'']) := by
  simp [importStatement, importHead]

theorem not_mem_importHead (marker : Identifier) : '(' ∉ importHead marker.text := by
  have hmarker : '(' ∉ marker.text := marker.not_mem_text (by decide)
  simp [importHead, importWord, fromWord, hmarker]

/-- The calls of a text that quotes a module path. -/
theorem callOffsets_quoted (name : Identifier) (g module b : Text) :
    callOffsets name (g ++ '\'' :: (module ++ '\'' :: b)) =
      callOffsets name g ++ ((callOffsets name module).map ((g ++ ['\'']).byteSize + ·) ++
        (callOffsets name b).map ((g ++ '\'' :: (module ++ ['\''])).byteSize + ·)) := by
  have hident : isIdentChar '\'' = false := by decide
  have hblank : isBlank '\'' = false := by decide
  have hparen : '\'' ≠ '(' := by decide
  have hcut : g ++ '\'' :: (module ++ ['\'']) = (g ++ ['\'']) ++ (module ++ ['\'']) := by simp
  rw [callOffsets_separator name hident hblank hparen,
    callOffsets_separator name hident hblank hparen, List.map_append, List.map_map, hcut,
    Text.byteSize_append (g ++ ['\''])]
  simp only [Function.comp_def, Nat.add_assoc]

/-- **The calls of a text with the import put in**: those before it, those in the module path and
those behind it. -/
theorem Piece.callOffsets_eq {module a s b : Text} {marker : Identifier}
    (h : Piece module marker.text a s b) (name : Identifier) :
    ∃ g g', s = g ++ (module ++ g') ∧ callOffsets name (a ++ (s ++ b)) =
      callOffsets name a ++ ((callOffsets name module).map ((a ++ g).byteSize + ·) ++
        (callOffsets name b).map ((a ++ s).byteSize + ·)) := by
  have hparen := not_mem_importHead marker
  cases h with
  | start =>
      refine ⟨importHead marker.text ++ ['\''], ['\'', '\n'], ?_, ?_⟩
      · rw [importStatement_eq_head]
        simp
      · have hcut : [] ++ (importStatement module marker.text ++ ['\n'] ++ b) =
            importHead marker.text ++ '\'' :: (module ++ '\'' :: ('\n' :: b)) := by
          rw [importStatement_eq_head]
          simp
        have hnone : ∀ t : Text, '(' ∉ t → callOffsets name t = [] := by
          intro t ht
          rw [callOffsets, callSites_eq, sitesFrom_eq_nil ht]
          rfl
        have hsize : Text.byteSize ([] ++ (importStatement module marker.text ++ ['\n'])) =
            Text.byteSize (importHead marker.text ++ '\'' :: (module ++ ['\''])) + 1 := by
          rw [List.nil_append, Text.byteSize_append, importStatement_eq_head]
          rfl
        rw [hcut, callOffsets_quoted, hnone _ hparen, hnone [] List.not_mem_nil,
          callOffsets_newline, List.map_map, hsize]
        simp only [Function.comp_def, Nat.add_assoc, List.nil_append]
  | behind a hb =>
      refine ⟨'\n' :: (importHead marker.text ++ ['\'']), ['\''], ?_, ?_⟩
      · rw [importStatement_eq_head]
        simp
      · have hcut : a ++ ('\n' :: importStatement module marker.text ++ b) =
            (a ++ '\n' :: importHead marker.text) ++ '\'' :: (module ++ '\'' :: b) := by
          rw [importStatement_eq_head]
          simp
        have hapart : Apart ('\n' :: importHead marker.text) := by
          refine ⟨rfl, ?_⟩
          have hhead : ∃ r, importHead marker.text = 'i' :: r := ⟨_, rfl⟩
          obtain ⟨r, hr⟩ := hhead
          rw [← List.singleton_append, Text.drop_blanks_append (forall_mem_of_all (by decide)), hr,
            Text.drop_blanks_cons (by decide)]
          simp
        rw [hcut, callOffsets_quoted, callOffsets_plain name a (by simpa using hparen) hapart,
          importStatement_eq_head]
        simp

/-! ## Old and new call sites -/

/-- An offset at `k` or behind moves by `n`. -/
def shiftBehind (k n o : Nat) : Nat := if k ≤ o then n + o else o

/-- What becomes of the call sites when the piece `s`, which quotes the module path, is put in
between `a` and `b`. -/
structure SitesMoved (name : Identifier) (module a s b : Text) (kept lost moved inPath : List Nat) :
    Prop where
  /-- The old text has three kinds of call sites. -/
  old : callOffsets name (a ++ b) = kept ++ (lost ++ moved)
  /-- In the new text those behind the piece have moved, and those in the path stand for the
  lost ones. -/
  new : callOffsets name (a ++ (s ++ b)) = kept ++ (inPath ++ moved.map (s.byteSize + ·))
  /-- The calls that are kept have their heads before the piece. -/
  before : ∀ o ∈ kept, o < a.byteSize ∧ ¬ CutHead name a b o
  /-- A call is lost because the piece goes through its head. -/
  cut : ∀ o ∈ lost, o < a.byteSize ∧ CutHead name a b o
  lost_le : lost.length ≤ 1
  behind : ∀ o ∈ moved, a.byteSize ≤ o
  /-- The calls in the path stand where the path is quoted. -/
  path : ∃ g g', s = g ++ (module ++ g') ∧
    inPath = (callOffsets name module).map ((a ++ g).byteSize + ·)

theorem CutHead.lt {name : Identifier} {a b : Text} {o : Nat} (h : CutHead name a b o) :
    o < a.byteSize := by
  obtain ⟨u, g, -, -, rfl, -, hne, -, rfl⟩ := h
  obtain ⟨c, g, rfl⟩ := List.exists_cons_of_ne_nil hne
  have hc : 0 < c.utf8Size := Char.utf8Size_pos c
  rw [Text.byteSize_append, Text.byteSize]
  omega

theorem lt_byteSize_of_mem_callOffsets {name : Identifier} {t : Text} {o : Nat}
    (h : o ∈ callOffsets name t) : o < t.byteSize := by
  obtain ⟨i, hi, rfl⟩ := List.mem_map.1 h
  have hlt := lt_length_of_mem_callSites hi
  have := Text.byteOffset_lt hlt hlt
  rwa [Text.byteOffset_length] at this

theorem Piece.exists_sitesMoved {module a s b : Text} {marker : Identifier}
    (h : Piece module marker.text a s b) (name : Identifier) :
    ∃ kept lost moved inPath, SitesMoved name module a s b kept lost moved inPath := by
  have hb : a = [] ∨ LineEnd b := by
    cases h with
    | start => exact .inl rfl
    | behind a hb => exact .inr hb
  obtain ⟨lost, hold, hlen, hcut⟩ := exists_callOffsets_append name hb
  obtain ⟨g, g', hs, hnew⟩ := h.callOffsets_eq name
  refine ⟨callOffsets name a, lost, (callOffsets name b).map (a.byteSize + ·),
    (callOffsets name module).map ((a ++ g).byteSize + ·), hold, ?_, ?_, ?_, hlen, ?_,
    g, g', hs, rfl⟩
  · rw [hnew, List.map_map, Text.byteSize_append a s]
    simp only [Function.comp_def, Nat.add_assoc, Nat.add_left_comm s.byteSize a.byteSize]
  · intro o ho
    obtain ⟨i, hi, rfl⟩ := List.mem_map.1 ho
    exact ⟨lt_byteSize_of_mem_callOffsets ho, not_cutHead hi b⟩
  · exact fun o ho => ⟨(hcut o ho).lt, hcut o ho⟩
  · intro o ho
    obtain ⟨x, -, rfl⟩ := List.mem_map.1 ho
    exact Nat.le_add_right _ _

namespace SitesMoved

variable {name : Identifier} {module a s b : Text} {kept lost moved inPath : List Nat}
  (h : SitesMoved name module a s b kept lost moved inPath)

include h

/-- The calls in the path lie in the piece. -/
theorem inPath_bounds {o : Nat} (ho : o ∈ inPath) : a.byteSize ≤ o ∧ o < (a ++ s).byteSize := by
  obtain ⟨g, g', rfl, rfl⟩ := h.path
  obtain ⟨x, hx, rfl⟩ := List.mem_map.1 ho
  have hlt := lt_byteSize_of_mem_callOffsets hx
  simp only [Text.byteSize_append]
  omega

theorem map_shiftBehind : (callOffsets name (a ++ b)).map (shiftBehind a.byteSize s.byteSize) =
    kept ++ (lost ++ moved.map (s.byteSize + ·)) := by
  have hstay : ∀ l : List Nat, (∀ o ∈ l, o < a.byteSize) →
      l.map (shiftBehind a.byteSize s.byteSize) = l := by
    intro l hl
    calc l.map (shiftBehind a.byteSize s.byteSize) = l.map id :=
          List.map_congr_left fun o ho => if_neg (Nat.not_le_of_lt (hl o ho))
      _ = l := List.map_id l
  have hmove : moved.map (shiftBehind a.byteSize s.byteSize) = moved.map (s.byteSize + ·) :=
    List.map_congr_left fun o ho => if_pos (h.behind o ho)
  rw [h.old, List.map_append, List.map_append, hstay kept fun o ho => (h.before o ho).1,
    hstay lost fun o ho => (h.cut o ho).1, hmove]

/-- **When the old call sites are all there are**: no call is lost, and the path holds none. -/
theorem callOffsets_eq_map_iff : callOffsets name (a ++ (s ++ b)) =
    (callOffsets name (a ++ b)).map (shiftBehind a.byteSize s.byteSize) ↔
      lost = [] ∧ inPath = [] := by
  rw [h.map_shiftBehind, h.new, List.append_cancel_left_eq, List.append_cancel_right_eq]
  constructor
  · -- A call in the path lies behind the cut, and a lost one before it.
    rintro rfl
    have hnil : inPath = [] := by
      refine List.eq_nil_iff_forall_not_mem.2 fun o ho => ?_
      have hlow := (h.inPath_bounds ho).1
      have hhigh := (h.cut o ho).1
      omega
    exact ⟨hnil, hnil⟩
  · rintro ⟨rfl, rfl⟩
    rfl

/-- The calls in the piece are those in the path. -/
theorem mem_inPath_iff {o : Nat} : (o ∈ callOffsets name (a ++ (s ++ b)) ∧ a.byteSize ≤ o ∧
    o < (a ++ s).byteSize) ↔ o ∈ inPath := by
  rw [h.new]
  constructor
  · rintro ⟨ho, hlow, hhigh⟩
    rcases List.mem_append.1 ho with ho | ho
    · have := (h.before o ho).1
      omega
    · rcases List.mem_append.1 ho with ho | ho
      · exact ho
      · obtain ⟨x, hx, rfl⟩ := List.mem_map.1 ho
        have := h.behind x hx
        rw [Text.byteSize_append] at hhigh
        omega
  · intro ho
    exact ⟨by simp [ho], h.inPath_bounds ho⟩

end SitesMoved

theorem hasCall_iff_callOffsets {name : Identifier} {t : Text} :
    hasCall name t = true ↔ callOffsets name t ≠ [] := by
  rw [hasCall_iff, callOffsets, Ne, Ne, List.map_eq_nil_iff]

/-- **What the new import does to the call sites.** If the import is found, the text stays as it is.
Otherwise the import is put in as one piece `s` between `a` and `b`. The call sites of the new text
are those of the old one whose heads lie before the piece, those of the module path, and those of
the old one behind the piece, which move by its size. At most one call site is lost, that of a call
whose head the piece goes through. So the old call sites, moved, are all there are exactly if no
call is lost and the path holds none. Then the new text has a call exactly if the old one has, and
none of its calls lies in the piece. -/
theorem callOffsets_ensureImport (w : Wiring) (source module : Text) :
    let t := ensureImport source module w.marker.text
    (hasImport source module w.marker.text = true → t = source) ∧
      (hasImport source module w.marker.text = false →
        ∃ a s b kept lost moved inPath, source = a ++ b ∧ a.length = importPlace source ∧
          t = a ++ (s ++ b) ∧ Piece module w.marker.text a s b ∧
          SitesMoved w.directive module a s b kept lost moved inPath ∧
          (callOffsets w.directive t =
              (callOffsets w.directive source).map (shiftBehind a.byteSize s.byteSize) ↔
            lost = [] ∧ inPath = []) ∧
          (lost = [] ∧ inPath = [] →
            (w.hasCall source = true ↔ callOffsets w.directive t ≠ []) ∧
            ∀ o ∈ callOffsets w.directive t, o < a.byteSize ∨ (a ++ s).byteSize ≤ o)) := by
  intro t
  refine ⟨Wiring.ensureImport_eq_self, fun hno => ?_⟩
  obtain ⟨a, s, b, hsource, hplace, ht, hpiece⟩ := exists_piece hno
  change t = a ++ (s ++ b) at ht
  obtain ⟨kept, lost, moved, inPath, hmoved⟩ := hpiece.exists_sitesMoved w.directive
  have hall := hmoved.callOffsets_eq_map_iff
  rw [← hsource, ← ht] at hall
  refine ⟨a, s, b, kept, lost, moved, inPath, hsource, hplace, ht, hpiece, hmoved, hall, ?_⟩
  intro hnone
  constructor
  · rw [Wiring.hasCall, hasCall_iff_callOffsets, hall.2 hnone, Ne, Ne, List.map_eq_nil_iff]
  · intro o ho
    by_cases hlow : a.byteSize ≤ o
    · refine .inr (Nat.le_of_not_lt fun hhigh => ?_)
      rw [ht] at ho
      have hmem := hmoved.mem_inPath_iff.1 ⟨ho, hlow, hhigh⟩
      rw [hnone.2] at hmem
      cases hmem
    · exact .inl (Nat.lt_of_not_le hlow)

/-- A call in the module path becomes a call of the text, and a call whose parenthesis stands on the
line behind the last import is lost. -/
theorem callOffsets_not_shifted :
    (callOffsets .directive "x".toList = [] ∧
      callOffsets .directive
        (ensureImport "x".toList "./directive(a).css".toList Identifier.styles.text) = [28]) ∧
    callOffsets .directive "import a from 'a'; directive\n(b)".toList = [19] ∧
      callOffsets .directive (ensureImport "import a from 'a'; directive\n(b)".toList
        "./m.css".toList Identifier.styles.text) = [] := by
  decide +kernel

end Stylewire
