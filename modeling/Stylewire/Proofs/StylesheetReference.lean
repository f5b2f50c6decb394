import Stylewire.Proofs.FileTree
import Stylewire.Stylesheet.Tags

set_option autoImplicit false

/-! # References to stylesheets

A page refers to a stylesheet by what lies below a base directory. The reference is put together
from the components that are left when those of the base are taken away, so it is written in a
normal form, whatever the path looks like. Put behind the base again it leads to the same
components (`components_join_written`).

The components that are left never start with the root or with a `.`, unless the base is the empty
path and nothing is taken away. That is the one case in which the reference can be an absolute path.

Segments are compared as a whole: a path that goes on within the last segment of the base is not
below it (`not_below_of_longer_segment`).
-/

namespace Stylewire

namespace Text

/-! ## Parts put together -/

/-- The characters of a part are those of the text, and none is a separator. -/
theorem of_mem_split {sep : Char} {t w : Text} (h : w ∈ split sep t) {x : Char} (hx : x ∈ w) :
    x ∈ t ∧ x ≠ sep := by
  induction t generalizing w with
  | nil =>
      obtain rfl : w = [] := by simpa [split] using h
      cases hx
  | cons c t ih =>
      have hlater : ∀ {v : Text}, v ∈ split sep t → x ∈ v → x ∈ c :: t ∧ x ≠ sep := by
        intro v hv hxv
        have hboth := ih hv hxv
        exact ⟨List.mem_cons_of_mem c hboth.1, hboth.2⟩
      rw [split] at h
      by_cases hc : c = sep
      · rw [if_pos hc] at h
        rcases List.mem_cons.1 h with rfl | hw
        · cases hx
        · exact hlater hw hx
      · rw [if_neg hc] at h
        obtain ⟨v, ws, hsplit⟩ := List.exists_cons_of_ne_nil (split_ne_nil sep t)
        rw [hsplit] at h hlater
        rcases List.mem_cons.1 h with rfl | hw
        · rcases List.mem_cons.1 hx with rfl | hv
          · exact ⟨List.mem_cons_self, hc⟩
          · exact hlater List.mem_cons_self hv
        · exact hlater (List.mem_cons_of_mem v hw) hx

theorem join_cons {sep w : Text} {ws : List Text} (hne : ws ≠ []) :
    join sep (w :: ws) = w ++ sep ++ join sep ws := by
  obtain ⟨v, vs, rfl⟩ := List.exists_cons_of_ne_nil hne
  rfl

theorem join_concat {sep w : Text} {ws : List Text} (hne : ws ≠ []) :
    join sep (ws ++ [w]) = join sep ws ++ sep ++ w := by
  induction ws with
  | nil => exact absurd rfl hne
  | cons v vs ih =>
      cases vs with
      | nil => rfl
      | cons u us =>
          calc join sep (v :: u :: us ++ [w])
              = v ++ sep ++ join sep (u :: us ++ [w]) := rfl
            _ = v ++ sep ++ (join sep (u :: us) ++ sep ++ w) := by rw [ih (by simp)]
            _ = join sep (v :: u :: us) ++ sep ++ w := by
                rw [join, List.append_assoc, List.append_assoc, List.append_assoc,
                  List.append_assoc, List.append_assoc]

theorem mem_of_mem_join {sep : Text} {ws : List Text} {x : Char} (h : x ∈ join sep ws) :
    x ∈ sep ∨ ∃ w ∈ ws, x ∈ w := by
  induction ws with
  | nil => simp [join] at h
  | cons w ws ih =>
      by_cases hne : ws = []
      · subst hne
        exact Or.inr ⟨w, List.mem_cons_self, h⟩
      · rw [join_cons hne, List.mem_append, List.mem_append] at h
        rcases h with (hw | hsep) | hrest
        · exact Or.inr ⟨w, List.mem_cons_self, hw⟩
        · exact Or.inl hsep
        · rcases ih hrest with hsep | ⟨v, hv, hx⟩
          · exact Or.inl hsep
          · exact Or.inr ⟨v, List.mem_cons_of_mem w hv, hx⟩

/-- Parts without separators are read back as they were joined. -/
theorem split_join_parts {sep : Char} {ws : List Text} (hne : ws ≠ [])
    (h : ∀ w ∈ ws, sep ∉ w) : split sep (join [sep] ws) = ws := by
  induction ws with
  | nil => exact absurd rfl hne
  | cons w ws ih =>
      have hw : split sep w = [w] := split_of_not_mem (h w List.mem_cons_self)
      cases ws with
      | nil => exact hw
      | cons v ws =>
          have hrest := ih (by simp) fun u hu => h u (List.mem_cons_of_mem w hu)
          calc split sep (join [sep] (w :: v :: ws))
              = split sep (w ++ sep :: join [sep] (v :: ws)) := by
                rw [join, List.append_assoc, List.singleton_append]
            _ = split sep w ++ split sep (join [sep] (v :: ws)) := split_append sep w _
            _ = w :: v :: ws := by rw [hw, hrest, List.singleton_append]

/-- Between two texts the last part of the one and the first part of the other grow together. -/
theorem split_append_parts {sep : Char} {u v a b : Text} {us vs : List Text}
    (hu : split sep u = us ++ [a]) (hv : split sep v = b :: vs) :
    split sep (u ++ v) = us ++ (a ++ b) :: vs := by
  induction u generalizing us a with
  | nil =>
      obtain ⟨rfl, rfl⟩ : us = [] ∧ a = [] := by
        rw [split] at hu
        cases us with
        | nil => exact ⟨rfl, (List.cons.inj hu).1.symm⟩
        | cons w us => simp at hu
      exact hv
  | cons c u ih =>
      rw [split] at hu
      rw [List.cons_append, split]
      by_cases hc : c = sep
      · rw [if_pos hc] at hu ⊢
        cases us with
        | nil => exact absurd (List.cons.inj hu).2 (split_ne_nil sep u)
        | cons w us =>
            obtain ⟨rfl, hrest⟩ := List.cons.inj hu
            rw [ih hrest]
            rfl
      · rw [if_neg hc] at hu ⊢
        obtain ⟨w, ws, hsplit⟩ := List.exists_cons_of_ne_nil (split_ne_nil sep u)
        rw [hsplit] at hu
        -- The first part of `u` is the last one, too, or it stays as it is.
        cases us with
        | nil =>
            obtain ⟨rfl, rfl⟩ : c :: w = a ∧ ws = [] := List.cons.inj hu
            have hone : split sep u = [] ++ [w] := hsplit
            rw [ih hone]
            rfl
        | cons w' us =>
            obtain ⟨rfl, rfl⟩ : c :: w = w' ∧ ws = us ++ [a] := List.cons.inj hu
            have hmore : split sep u = (w :: us) ++ [a] := hsplit
            rw [ih hmore]
            rfl

end Text

namespace Path

/-! ## Components put together -/

/-- The parts of a path that are components, the leading one apart. -/
def properParts (p : Path) : List Text := (Text.split '/' p).filter (!isVoidPart ·)

theorem components_eq (p : Path) :
    components p = leading p ++ (properParts p).map partComponent := rfl

theorem text_partComponent (w : Text) : (partComponent w).text = w := by
  unfold partComponent
  by_cases hw : w = ['.', '.']
  · rw [if_pos hw, hw]
    rfl
  · rw [if_neg hw]
    rfl

theorem of_mem_properParts {p : Path} {w : Text} (h : w ∈ properParts p) :
    '/' ∉ w ∧ isVoidPart w = false := by
  obtain ⟨hmem, hvoid⟩ := List.mem_filter.1 h
  exact ⟨fun hsep => (Text.of_mem_split hmem hsep).2 rfl, by simpa using hvoid⟩

theorem filter_eq_self_of_parts {ps : List Text} (h : ∀ w ∈ ps, isVoidPart w = false) :
    ps.filter (!isVoidPart ·) = ps :=
  List.filter_eq_self.2 fun w hw => by rw [h w hw]; rfl

/-- Only the empty path has no components. -/
theorem components_ne_nil {p : Path} (hp : p ≠ []) : components p ≠ [] := by
  rw [components_eq, leading]
  by_cases habs : isAbsolute p = true
  · simp [habs]
  · by_cases hdot : (Text.split '/' p).head? = some ['.']
    · simp [habs, hdot]
    · obtain ⟨w, ws, hsplit⟩ := List.exists_cons_of_ne_nil (split_ne_nil '/' p)
      have hvoid : isVoidPart w = false := by
        obtain ⟨c, t, rfl⟩ := List.exists_cons_of_ne_nil hp
        have hc : c ≠ '/' := by
          rintro rfl
          exact habs rfl
        rw [Text.split, if_neg hc] at hsplit
        obtain ⟨v, vs, hrest⟩ := List.exists_cons_of_ne_nil (split_ne_nil '/' t)
        rw [hrest] at hsplit
        obtain ⟨rfl, -⟩ := List.cons.inj hsplit
        have hne : c :: v ≠ ['.'] := by
          intro e
          rw [Text.split, if_neg hc, hrest, List.head?_cons, e] at hdot
          exact hdot rfl
        simpa [isVoidPart] using hne
      simp [properParts, hsplit, hvoid]

theorem isAbsolute_append {p : Path} (hp : p ≠ []) (t : Text) :
    isAbsolute (p ++ t) = isAbsolute p := by
  obtain ⟨c, u, rfl⟩ := List.exists_cons_of_ne_nil hp
  rfl

/-- The leading component hangs on the first character and the first part alone. -/
theorem leading_congr {p q : Path} (habs : isAbsolute p = isAbsolute q)
    (hhead : (Text.split '/' p).head? = some ['.'] ↔ (Text.split '/' q).head? = some ['.']) :
    leading p = leading q := by
  rw [leading, leading, habs]
  simp only [hhead]

/-- The parts of a relative path stand behind those of the path it is joined with, of which an empty
last one may be missing. -/
theorem exists_split_join {p q : Path} (hp : p ≠ []) (hq : isAbsolute q = false) :
    ∃ us, us ≠ [] ∧ Text.split '/' (join p q) = us ++ Text.split '/' q ∧
      (Text.split '/' p = us ∨ Text.split '/' p = us ++ [[]]) := by
  have hempty : p.isEmpty = false := by simpa using hp
  by_cases hend : p.endsWith '/' = true
  · obtain ⟨u, rfl⟩ := List.getLast?_eq_some_iff.1 (by simpa [Text.endsWith] using hend)
    refine ⟨Text.split '/' u, split_ne_nil '/' u, ?_, Or.inr (split_append '/' u [])⟩
    rw [join, hq, hend, Bool.or_true, if_neg (by simp), if_pos rfl, List.append_assoc,
      List.singleton_append, split_append]
  · refine ⟨Text.split '/' p, split_ne_nil '/' p, ?_, Or.inl rfl⟩
    rw [join, hq, hempty, Bool.false_or, if_neg (by simp), if_neg hend, List.append_assoc,
      List.singleton_append, split_append]

theorem isAbsolute_join {p q : Path} (hp : p ≠ []) (hq : isAbsolute q = false) :
    isAbsolute (join p q) = isAbsolute p := by
  have hempty : p.isEmpty = false := by simpa using hp
  rw [join, hq, hempty, Bool.false_or, if_neg (by simp)]
  split
  · exact isAbsolute_append hp q
  · rw [List.append_assoc]
    exact isAbsolute_append hp _

/-- **A relative path behind another one** adds the components among its parts. -/
theorem components_join_relative {p q : Path} (hp : p ≠ []) (hq : isAbsolute q = false) :
    components (join p q) = components p ++ (properParts q).map partComponent := by
  obtain ⟨us, hne, hjoin, hparts⟩ := exists_split_join hp hq
  have hproper : properParts (join p q) = properParts p ++ properParts q := by
    unfold properParts
    rw [hjoin, List.filter_append]
    rcases hparts with h | h
    · rw [h]
    · rw [h, List.filter_append]
      simp [isVoidPart]
  have hhead : (Text.split '/' (join p q)).head? = (Text.split '/' p).head? := by
    obtain ⟨w, ws, rfl⟩ := List.exists_cons_of_ne_nil hne
    rw [hjoin]
    rcases hparts with h | h
    · rw [h]
      rfl
    · rw [h]
      rfl
  have hlead : leading (join p q) = leading p :=
    leading_congr (isAbsolute_join hp hq) (by rw [hhead])
  rw [components_eq, hlead, hproper, List.map_append, ← List.append_assoc, ← components_eq]

/-! ## Components written out -/

/-- The components in normal form, with one separator between two of them. -/
def written (cs : List Component) : Text := Text.join ['/'] (cs.map Component.text)

theorem map_text_parts (ps : List Text) : (ps.map partComponent).map Component.text = ps := by
  rw [List.map_map]
  exact (List.map_congr_left fun w _ => text_partComponent w).trans (List.map_id ps)

section Parts

variable {ps : List Text} (hslash : ∀ w ∈ ps, '/' ∉ w) (hproper : ∀ w ∈ ps, isVoidPart w = false)

include hslash hproper

theorem isAbsolute_join_parts : isAbsolute (Text.join ['/'] ps) = false := by
  cases ps with
  | nil => rfl
  | cons w ws =>
      have hw := hproper w List.mem_cons_self
      have hsep := hslash w List.mem_cons_self
      cases w with
      | nil => cases hw
      | cons c w =>
          have hc : c ≠ '/' := fun e => hsep (by simp [e])
          cases ws with
          | nil => simpa [Text.join, isAbsolute] using hc
          | cons v ws => simpa [Text.join, isAbsolute] using hc

theorem properParts_join_parts : properParts (Text.join ['/'] ps) = ps := by
  by_cases hne : ps = []
  · subst hne
    rfl
  · rw [properParts, Text.split_join_parts hne hslash, filter_eq_self_of_parts hproper]

theorem leading_join_parts : leading (Text.join ['/'] ps) = [] := by
  have hhead : (Text.split '/' (Text.join ['/'] ps)).head? ≠ some ['.'] := by
    by_cases hne : ps = []
    · subst hne
      decide
    · rw [Text.split_join_parts hne hslash]
      intro hdot
      have hvoid := hproper _ (List.mem_of_head? hdot)
      cases hvoid
  rw [leading, isAbsolute_join_parts hslash hproper, if_neg hhead]
  rfl

/-- **Components are read back** as they are written, whether they start at the root, with a `.` or
with a part. -/
theorem components_written {lead : List Component}
    (hlead : lead = [] ∨ lead = [.root] ∨ lead = [.current]) :
    components (written (lead ++ ps.map partComponent)) = lead ++ ps.map partComponent := by
  have hparts := properParts_join_parts hslash hproper
  rw [written, List.map_append, map_text_parts]
  rcases hlead with rfl | rfl | rfl
  · show components (Text.join ['/'] ps) = _
    rw [components_eq, hparts, leading_join_parts hslash hproper]
  · show components (Text.join ['/'] (['/'] :: ps)) = _
    cases ps with
    | nil => decide
    | cons w ws =>
        -- The text of the root is a separator, and another one follows it.
        show components ('/' :: '/' :: Text.join ['/'] (w :: ws)) = _
        have hvoid : properParts ('/' :: '/' :: Text.join ['/'] (w :: ws)) =
            properParts (Text.join ['/'] (w :: ws)) := by
          simp [properParts, Text.split, isVoidPart]
        rw [components_eq, hvoid, hparts]
        rfl
  · show components (Text.join ['/'] (['.'] :: ps)) = _
    have hsplit : Text.split '/' (Text.join ['/'] (['.'] :: ps)) = ['.'] :: ps := by
      refine Text.split_join_parts (by simp) fun w hw => ?_
      rcases List.mem_cons.1 hw with rfl | hw
      · decide
      · exact hslash w hw
    have hrel : isAbsolute (Text.join ['/'] (['.'] :: ps)) = false := by
      cases ps <;> rfl
    rw [components_eq, leading, hrel, properParts, hsplit, List.head?_cons, if_pos rfl,
      List.filter_cons_of_neg (by decide), filter_eq_self_of_parts hproper]
    rfl

end Parts

/-! ## Below a base -/

theorem leading_cases (p : Path) :
    leading p = [] ∨ leading p = [.root] ∨ leading p = [.current] := by
  unfold leading
  split
  · exact Or.inr (Or.inl rfl)
  · split
    · exact Or.inr (Or.inr rfl)
    · exact Or.inl rfl

/-- What is left of the components below a base that is not empty are parts: what a path starts
with belongs to the base. -/
theorem exists_parts_below {base p : Path} {rest : List Component} (hbase : base ≠ [])
    (h : components p = components base ++ rest) :
    ∃ ps : List Text, rest = ps.map partComponent ∧
      ∀ w ∈ ps, '/' ∉ w ∧ isVoidPart w = false := by
  have hlen : (leading p).length ≤ (components base).length := by
    have hpos := List.length_pos_iff.2 (components_ne_nil hbase)
    rcases leading_cases p with hl | hl | hl
    all_goals
      rw [hl]
      simp only [List.length_nil, List.length_singleton]
      omega
  have hsuffix : ∃ m, (properParts p).map partComponent = m ++ rest := by
    rw [components_eq] at h
    rcases List.append_eq_append_iff.1 h with ⟨m, -, hm⟩ | ⟨m, hm, hrest⟩
    · exact ⟨m, hm⟩
    · -- The base takes at least what the path starts with.
      have hm0 : m = [] := by
        rw [hm, List.length_append] at hlen
        exact List.length_eq_zero_iff.1 (by omega)
      subst hm0
      exact ⟨[], hrest.symm⟩
  obtain ⟨m, hm⟩ := hsuffix
  obtain ⟨us, ps, hus, -, hps⟩ := List.map_eq_append_iff.1 hm
  refine ⟨ps, hps.symm, fun w hw => of_mem_properParts (p := p) ?_⟩
  rw [hus]
  exact List.mem_append_right us hw

/-- **What is written below a base leads back**: joined with the base it has the components of the
path. -/
theorem components_join_written {base p : Path} {rest : List Component}
    (h : components p = components base ++ rest) :
    components (join base (written rest)) = components p := by
  by_cases hbase : base = []
  · -- All components are left, so the path itself is written, and it may be absolute.
    subst hbase
    have hjoin : join [] (written rest) = written rest := by
      unfold join
      split <;> rfl
    have hrest : rest = components p := h.symm
    rw [hjoin, hrest, components_eq]
    exact components_written (fun w hw => (of_mem_properParts hw).1)
      (fun w hw => (of_mem_properParts hw).2) (leading_cases p)
  · obtain ⟨ps, rfl, hps⟩ := exists_parts_below hbase h
    have hslash : ∀ w ∈ ps, '/' ∉ w := fun w hw => (hps w hw).1
    have hproper : ∀ w ∈ ps, isVoidPart w = false := fun w hw => (hps w hw).2
    have hwritten : written (ps.map partComponent) = Text.join ['/'] ps := by
      rw [written, map_text_parts]
    calc components (join base (written (ps.map partComponent)))
        = components (join base (Text.join ['/'] ps)) := by rw [hwritten]
      _ = components base ++ (properParts (Text.join ['/'] ps)).map partComponent :=
          components_join_relative hbase (isAbsolute_join_parts hslash hproper)
      _ = components p := by rw [properParts_join_parts hslash hproper, h]

theorem partComponent_injective {w v : Text} (h : partComponent w = partComponent v) : w = v := by
  rw [← text_partComponent w, h, text_partComponent]

/-- The path is written as the base, and goes on within its last segment. -/
def LongerSegment (base p : Path) : Prop :=
  ∃ (us : List Text) (a : Text) (c : Char) (t : Text), Text.split '/' base = us ++ [a] ∧
    isVoidPart a = false ∧ c ≠ '/' ∧ p = base ++ c :: t

/-- The components of a path around one of its parts. -/
theorem components_of_split {p : Path} {us vs : List Text} {w : Text}
    (h : Text.split '/' p = us ++ w :: vs) (hw : isVoidPart w = false) :
    components p = leading p ++ (us.filter (!isVoidPart ·)).map partComponent ++
      partComponent w :: (vs.filter (!isVoidPart ·)).map partComponent := by
  rw [components_eq, properParts, h, List.filter_append,
    List.filter_cons_of_pos (by rw [hw]; rfl)]
  simp

/-- **Segments are compared as a whole.** A path that goes on within the last segment of another one
is not below it. -/
theorem not_below_of_longer_segment {base p : Path} (h : LongerSegment base p) :
    ¬ components base <+: components p := by
  obtain ⟨us, a, c, t, hsplit, ha, hc, rfl⟩ := h
  have hane : a ≠ [] := by
    rintro rfl
    cases ha
  have hbase : base ≠ [] := by
    rintro rfl
    have hlast := congrArg List.getLast? hsplit
    rw [List.getLast?_concat] at hlast
    exact hane (Option.some.inj hlast).symm
  obtain ⟨b, vs, hrest⟩ : ∃ b vs, Text.split '/' (c :: t) = (c :: b) :: vs := by
    obtain ⟨b, vs, hb⟩ := List.exists_cons_of_ne_nil (split_ne_nil '/' t)
    exact ⟨b, vs, by rw [Text.split, if_neg hc, hb]⟩
  have hlong : Text.split '/' (base ++ c :: t) = us ++ (a ++ c :: b) :: vs :=
    Text.split_append_parts hsplit hrest
  have hvoid : isVoidPart (a ++ c :: b) = false := by
    obtain ⟨x, y, rfl⟩ := List.exists_cons_of_ne_nil hane
    simp [isVoidPart]
  -- The two paths start with the same component: neither of the two segments is a dot.
  have hlead : leading (base ++ c :: t) = leading base := by
    refine leading_congr (isAbsolute_append hbase _) ?_
    have hne : ∀ {w : Text}, isVoidPart w = false → w ≠ ['.'] := by
      rintro w hw rfl
      cases hw
    rw [hlong, hsplit]
    cases us with
    | nil => simp [hne ha, hne hvoid]
    | cons w us => simp
  rw [components_of_split hsplit ha, components_of_split hlong hvoid, hlead,
    List.prefix_append_right_inj, List.cons_prefix_cons]
  rintro ⟨hsame, -⟩
  have := congrArg List.length (partComponent_injective hsame)
  simp at this

theorem below?_eq_some_iff {base p : Path} {rest : List Component} :
    below? base p = some rest ↔ components p = components base ++ rest := by
  unfold below?
  constructor
  · intro h
    split at h
    · rename_i hprefix
      obtain ⟨k, hk⟩ := List.isPrefixOf_iff_prefix.1 hprefix
      obtain rfl : _ = rest := Option.some.inj h
      rw [← hk, List.drop_left]
    · cases h
  · intro h
    rw [h, if_pos (List.isPrefixOf_iff_prefix.2 (List.prefix_append _ _)), List.drop_left]

theorem below?_eq_none {base p : Path} (h : ¬ components base <+: components p) :
    below? base p = none := by
  rw [below?, if_neg (by rwa [List.isPrefixOf_iff_prefix])]

end Path

namespace TagOptions

open Stylewire.Path

/-! ## References -/

/-- The reference to a path below the base. -/
theorem href_of_below {o : TagOptions} {base p : Path} (hbase : o.base = some base)
    {rest : List Component} (h : components p = components base ++ rest) :
    o.href p = o.lead ++ written rest := by
  unfold href
  rw [hbase, Option.bind_some, below?_eq_some_iff.2 h]
  rfl

/-- Any other path is referred to as it is written. -/
theorem href_of_not_below {o : TagOptions} {p : Path}
    (h : ∀ base, o.base = some base → ¬ components base <+: components p) : o.href p = p := by
  unfold href
  cases hbase : o.base with
  | none => rfl
  | some base =>
      rw [Option.bind_some, below?_eq_none (h base hbase)]

/-! ## Lines -/

/-- The line that loads the stylesheet with the reference. -/
def entry (o : TagOptions) (ref : Text) : Text :=
  match o.mode with
  | .links => "<link rel=\"stylesheet\" href=\"".toList ++ ref ++ "\">".toList
  | .imports => "@import url(\"".toList ++ ref ++ "\");".toList

/-- The lines of the markup for some references: one for each, and two around them where imports
stand in a `style` element. -/
def lines (o : TagOptions) (refs : List Text) : List Text :=
  match o.mode with
  | .links => refs.map o.entry
  | .imports => "<style>".toList :: (refs.map o.entry ++ ["</style>".toList])

/-- **The markup has one entry for each path**, in the order of the paths. -/
theorem render_eq_join_lines (o : TagOptions) {paths : List Path} (hne : paths ≠ []) :
    o.render paths = Text.join ['\n'] (o.lines (paths.map o.href)) := by
  have hempty : paths.isEmpty = false := by simpa using hne
  unfold render lines
  rw [hempty, if_neg (by simp), List.map_map]
  cases hmode : o.mode with
  | links =>
      simp only [Function.comp_def, entry, hmode]
  | imports =>
      have hentries : paths.map (o.entry ∘ o.href) ≠ [] := by simpa using hne
      simp only
      rw [Text.join_cons (by simp), Text.join_concat hentries]
      simp only [Function.comp_def, entry, hmode]
      simp

/-- A reference is made of characters of the lead and of the path, and of those of `/` and `.`. -/
theorem not_mem_href {o : TagOptions} {p : Path} {x : Char} (hx : x ≠ '/' ∧ x ≠ '.')
    (hlead : x ∉ o.lead) (hp : x ∉ p) : x ∉ o.href p := by
  have hcomponent : ∀ c ∈ components p, x ∉ c.text := by
    intro c hc
    rw [components_eq, List.mem_append, List.mem_map] at hc
    rcases hc with hc | ⟨w, hw, rfl⟩
    · rcases leading_cases p with hl | hl | hl
      all_goals
        rw [hl] at hc
        simp only [List.not_mem_nil, List.mem_singleton] at hc
      · rw [hc]
        simpa [Component.text] using hx.1
      · rw [hc]
        simpa [Component.text] using hx.2
    · rw [text_partComponent]
      exact fun hmem => hp (Text.of_mem_split (List.mem_filter.1 hw).1 hmem).1
  unfold href
  split
  · rename_i rest hrest
    obtain ⟨base, -, hbelow⟩ := Option.bind_eq_some_iff.1 hrest
    have hsub := below?_eq_some_iff.1 hbelow
    intro hmem
    rcases List.mem_append.1 hmem with hmem | hmem
    · exact hlead hmem
    · rcases Text.mem_of_mem_join hmem with hsep | ⟨w, hw, hmem⟩
      · exact hx.1 (List.mem_singleton.1 hsep)
      · obtain ⟨c, hc, rfl⟩ := List.mem_map.1 hw
        exact hcomponent c (by rw [hsub]; exact List.mem_append_right _ hc) hmem
  · exact hp

/-- The markup is read back line by line if no line breaks come with the paths. -/
theorem split_render {o : TagOptions} {paths : List Path} (hne : paths ≠ [])
    (hlead : '\n' ∉ o.lead) (hpaths : ∀ p ∈ paths, '\n' ∉ p) :
    Text.split '\n' (o.render paths) = o.lines (paths.map o.href) := by
  have hentry : ∀ w ∈ (paths.map o.href).map o.entry, '\n' ∉ w := by
    intro w hw
    obtain ⟨ref, href, rfl⟩ := List.mem_map.1 hw
    obtain ⟨p, hp, rfl⟩ := List.mem_map.1 href
    have hclean := not_mem_href (by decide) hlead (hpaths p hp)
    unfold entry
    split
    · simp [hclean]
    · simp [hclean]
  rw [render_eq_join_lines o hne]
  apply Text.split_join_parts
  · unfold lines
    split
    · simpa using hne
    · simp
  · intro w hw
    unfold lines at hw
    split at hw
    · exact hentry w hw
    · rw [List.mem_cons, List.mem_append, List.mem_singleton] at hw
      rcases hw with rfl | hw | rfl
      · decide
      · exact hentry w hw
      · decide

/-- **A reference leads back to the stylesheet.** Below the base it is the lead and a text that,
joined with the base, has the components of the path. Any other path is referred to as it is
written, also one that goes on within the last segment of the base. The markup has one entry for
each path, in the order of the paths, and if no line breaks come with the paths, it has one line for
each. -/
theorem href_leads_back (o : TagOptions) :
    (∀ base p, o.base = some base → components base <+: components p →
      ∃ r, o.href p = o.lead ++ r ∧ components (join base r) = components p) ∧
    (∀ p, (∀ base, o.base = some base → ¬ components base <+: components p) → o.href p = p) ∧
    (∀ base p, o.base = some base → LongerSegment base p → o.href p = p) ∧
    o.render [] = [] ∧
    ∀ paths, paths ≠ [] →
      o.render paths = Text.join ['\n'] (o.lines (paths.map o.href)) ∧
      ('\n' ∉ o.lead → (∀ p ∈ paths, '\n' ∉ p) →
        Text.split '\n' (o.render paths) = o.lines (paths.map o.href)) := by
  refine ⟨?_, fun p => href_of_not_below, ?_, rfl, ?_⟩
  · rintro base p hbase ⟨rest, hrest⟩
    exact ⟨written rest, href_of_below hbase hrest.symm, components_join_written hrest.symm⟩
  · intro base p hbase hlonger
    apply href_of_not_below
    intro base' hbase'
    obtain rfl : base = base' := Option.some.inj (hbase.symm.trans hbase')
    exact not_below_of_longer_segment hlonger
  · intro paths hne
    exact ⟨render_eq_join_lines o hne, split_render hne⟩

/-- References below `/app`. -/
def appTags : TagOptions := ⟨some "/app".toList, "/assets/".toList, .links⟩

theorem href_leads_back_appTags :
    components "/app".toList <+: components "/app//css/./x.css".toList ∧
      (∃ r, appTags.href "/app//css/./x.css".toList = "/assets/".toList ++ r ∧
        components (join "/app".toList r) = components "/app//css/./x.css".toList) ∧
      LongerSegment "/app".toList "/apple/x.css".toList ∧
      appTags.href "/apple/x.css".toList = "/apple/x.css".toList ∧
      Text.split '\n' (appTags.render ["/app//css/./x.css".toList, "/apple/x.css".toList]) =
        ["<link rel=\"stylesheet\" href=\"/assets/css/x.css\">".toList,
          "<link rel=\"stylesheet\" href=\"/apple/x.css\">".toList] := by
  obtain ⟨hbelow, -, hlonger, -, hrender⟩ := href_leads_back appTags
  have hpre : components "/app".toList <+: components "/app//css/./x.css".toList :=
    List.isPrefixOf_iff_prefix.1 (by decide)
  have hsegment : LongerSegment "/app".toList "/apple/x.css".toList :=
    ⟨[[]], "app".toList, 'l', "e/x.css".toList, by decide, by decide, by decide, by decide⟩
  refine ⟨hpre, hbelow _ _ rfl hpre, hsegment, hlonger _ _ rfl hsegment, ?_⟩
  have hlines := (hrender ["/app//css/./x.css".toList, "/apple/x.css".toList] (by simp)).2
    (by decide) (by decide)
  rw [hlines]
  decide

end TagOptions

end Stylewire
