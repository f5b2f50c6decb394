import Stylewire.Proofs.ImportInsertion

set_option autoImplicit false

/-! # Where an import is put in

`ensureImport` puts the new import behind the last import line of a text (`importPlace`). Let `w` be
the text behind the word `import` of that line and the blanks that follow it. A line break of `w`
is **free** if it does not lie between the first brace of the line and the bracket that closes it
(`FreeBreak`):

```
{ a,          this line break lies in braces
  b }         this one is free
from 'x'
```

The new import stands at the first free line break of `w`, or at the end of the text
(`LastImport.lastImportEnd?_eq`). A binding goes on to its from clause whatever its layout is, so it
is torn apart exactly if it has a free line break, and this happens to the last binding only
(`ensureImport_splits_iff`).
-/

namespace Stylewire

open Brackets

/-- The position at which an import is put into a text: behind its last import, or else at the
start. -/
def importPlace (t : Text) : Nat := (lastImportEnd? t).getD 0

theorem ensureImport_of_importPlace {t module marker : Text} {k : Nat}
    (hno : hasImport t module marker = false) (hk : lastImportEnd? t = some k) :
    ensureImport t module marker =
      t.take (importPlace t) ++ '\n' :: (importStatement module marker ++ t.drop (importPlace t)) := by
  rw [ensureImport_of_lastImportEnd? hno, importPlace, hk]
  rfl

/-! ## Free line breaks -/

/-- Place `n` of the text lies between the first brace of its first line and the bracket that closes
this brace. -/
def InBraces (w : Text) (n : Nat) : Prop :=
  ∃ g i c r, w = g ++ '{' :: (i ++ c :: r) ∧ '\n' ∉ g ∧ '{' ∉ g ∧ all.Balanced i ∧
    all.isClosing c = true ∧ g.length < n ∧ n ≤ g.length + i.length

/-- At place `n` of the text stands a line break which is not in braces. -/
def FreeBreak (w : Text) (n : Nat) : Prop := w[n]? = some '\n' ∧ ¬ InBraces w n

/-- Place `n` is that of the first free line break, or the end of the text if there is none. -/
structure FirstFree (w : Text) (n : Nat) : Prop where
  le_length : n ≤ w.length
  least : ∀ j, FreeBreak w j → n ≤ j
  free : n < w.length → FreeBreak w n

/-- A text is cut at its first brace in one way. -/
theorem cut_first_brace {g g' x x' : Text} (hg : '{' ∉ g) (hg' : '{' ∉ g')
    (h : g ++ '{' :: x = g' ++ '{' :: x') : g = g' ∧ x = x' := by
  have hplain : ∀ {y : Text}, '{' ∉ y → ∀ c ∈ y, (c == '{') = false := by
    intro y hy c hc
    rw [beq_eq_false_iff_ne]
    rintro rfl
    exact hy hc
  obtain ⟨rfl, -, rfl⟩ := Text.cut_first (p := (· == '{')) (hplain hg) rfl (hplain hg') rfl h
  exact ⟨rfl, rfl⟩

theorem not_mem_line (t : Text) : '\n' ∉ t.takeWhile (· != '\n') := by
  intro hmem
  have := List.all_eq_true.1 List.all_takeWhile _ hmem
  simp at this

/-- The first brace of the first line. -/
theorem mem_line_iff {w : Text} :
    '{' ∈ w.takeWhile (· != '\n') ↔ ∃ g x, w = g ++ '{' :: x ∧ '\n' ∉ g ∧ '{' ∉ g := by
  obtain ⟨l, r, hcut, hl, -⟩ := exists_lineEnd_cut w
  constructor
  · intro hmem
    obtain ⟨g, x, hgx, hg⟩ := List.eq_append_cons_of_mem hmem
    refine ⟨g, x ++ r, ?_, fun hc => not_mem_line w (by rw [hgx]; simp [hc]), hg⟩
    rw [hcut, hl, hgx]
    simp
  · rintro ⟨g, x, rfl, hline, -⟩
    have hhead : ∀ c ∈ g, (c != '\n') = true := by
      intro c hc
      rw [bne_iff_ne]
      rintro rfl
      exact hline hc
    rw [List.takeWhile_append_of_pos hhead]
    simp

/-- The line break behind the first line is free if the braces of the line are closed on it, or
never. -/
theorem firstFree_line {w : Text}
    (hclosed : ∀ g i c x, w = g ++ '{' :: (i ++ c :: x) → '\n' ∉ g → '{' ∉ g → all.Balanced i →
      all.isClosing c = true → g.length + 1 + i.length < (w.takeWhile (· != '\n')).length) :
    FirstFree w (w.takeWhile (· != '\n')).length := by
  obtain ⟨l, r, hcut, hl, hr⟩ := exists_lineEnd_cut w
  have hplain : '\n' ∉ l := by
    rw [hl]
    exact not_mem_line w
  rw [← hl] at hclosed ⊢
  rw [hcut] at hclosed ⊢
  constructor
  · simp
  · rintro j ⟨hbreak, -⟩
    refine Nat.le_of_not_lt fun hj => hplain ?_
    rw [List.getElem?_append_left hj] at hbreak
    exact List.mem_of_getElem? hbreak
  · intro hlt
    cases r with
    | nil => simp at hlt
    | cons c r =>
        obtain rfl := hr c rfl
        refine ⟨by simp, ?_⟩
        rintro ⟨g, i, e, x, heq, hline, hbrace, hi, he, hlow, hhigh⟩
        have := hclosed g i e x heq hline hbrace hi he
        omega

/-- Behind braces, the first free line break is the first one behind the closing bracket. -/
theorem firstFree_braces {g i x : Text} {c : Char} (hline : '\n' ∉ g) (hbrace : '{' ∉ g)
    (hi : all.Balanced i) (hc : all.isClosing c = true) :
    FirstFree (g ++ '{' :: (i ++ c :: x))
      (g.length + 1 + i.length + ((c :: x).takeWhile (· != '\n')).length) := by
  obtain ⟨l, r, hcut, hl, hr⟩ := exists_lineEnd_cut (c :: x)
  have hplain : '\n' ∉ l := by
    rw [hl]
    exact not_mem_line _
  have heq : g ++ '{' :: (i ++ c :: x) = (g ++ '{' :: i) ++ (l ++ r) := by
    rw [← hcut]
    simp
  have hlen : (g ++ '{' :: i).length = g.length + 1 + i.length := by
    simp only [List.length_append, List.length_cons]
    omega
  rw [← hl]
  constructor
  · rw [heq, List.length_append, hlen, List.length_append]
    omega
  · -- Before the brace no line break stands, behind it they are in braces, and then comes `l`.
    rintro j ⟨hbreak, hfree⟩
    refine Nat.le_of_not_lt fun hj => ?_
    by_cases hlow : j < (g ++ '{' :: i).length
    · by_cases hin : g.length < j
      · exact hfree ⟨g, i, c, x, rfl, hline, hbrace, hi, hc, hin, by omega⟩
      · rw [List.getElem?_append] at hbreak
        by_cases hjg : j < g.length
        · rw [if_pos hjg] at hbreak
          exact hline (List.mem_of_getElem? hbreak)
        · obtain rfl : j = g.length := by omega
          simp at hbreak
    · rw [heq, List.getElem?_append_right (Nat.le_of_not_lt hlow),
        List.getElem?_append_left (by omega)] at hbreak
      exact hplain (List.mem_of_getElem? hbreak)
  · intro hlt
    rw [heq, List.length_append, hlen, List.length_append] at hlt
    constructor
    · rw [heq, List.getElem?_append_right (by omega), List.getElem?_append_right (by omega)]
      cases r with
      | nil =>
          rw [List.length_nil] at hlt
          omega
      | cons e r =>
          obtain rfl := hr e rfl
          have hzero : g.length + 1 + i.length + l.length - (g ++ '{' :: i).length - l.length = 0 := by
            omega
          rw [hzero]
          rfl
    · -- The braces of a place are those of `g` and `i`, and the place is behind them.
      rintro ⟨g', i', c', x', hsame, -, hbrace', hi', hc', -, hhigh⟩
      obtain ⟨rfl, hrest⟩ := cut_first_brace hbrace hbrace' hsame
      obtain ⟨rfl, -, -⟩ := hi.cut_unique hi' hc hc' hrest
      omega

/-! ## The last import line -/

/-- The text `t` is cut around the word `import` of its last import line and the blanks `b` behind
the word. -/
structure LastImport (t p b w : Text) : Prop where
  eq : t = p ++ (importWord ++ (b ++ w))
  blank : ∀ c ∈ b, isBlank c = true
  first : ∀ c ∈ w.head?, isBlank c = false
  line : (importLine.findAll t).getLast? =
    some ⟨p.length, p.length + 6 + b.length + (w.takeWhile (· != '\n')).length⟩

theorem exists_lastImport {t : Text} (h : importLine.findAll t ≠ []) :
    ∃ p b w, LastImport t p b w := by
  obtain ⟨line, hline⟩ := Option.isSome_iff_exists.1 (List.getLast?_isSome.2 h)
  obtain ⟨p, v, n, ht, rfl, hn⟩ := Recognizer.exists_of_mem_findFrom (List.mem_of_getLast? hline)
  obtain ⟨-, b, w, rfl, -, hb, hw, rfl⟩ := exists_cut_of_importLine hn
  refine ⟨p, b, w, ht, hb, hw, ?_⟩
  rw [hline, Nat.zero_add]
  simp only [Option.some.injEq, Match.mk.injEq, true_and]
  omega

namespace LastImport

variable {t p b w : Text} (h : LastImport t p b w)

include h

theorem length_eq : t.length = p.length + 6 + b.length + w.length := by
  have hsix : importWord.length = 6 := rfl
  rw [h.eq, List.length_append, List.length_append, List.length_append]
  omega

theorem drop_eq (n : Nat) : t.drop (p.length + 6 + b.length + n) = w.drop n := by
  have hlen : (p ++ (importWord ++ b)).length = p.length + 6 + b.length := by
    have hsix : importWord.length = 6 := rfl
    rw [List.length_append, List.length_append]
    omega
  have heq : t = p ++ (importWord ++ b) ++ w := by
    rw [h.eq]
    simp
  rw [heq, ← hlen, ← List.drop_drop, List.drop_left]

/-- The text that an import line matches. -/
theorem slice_eq : t.slice p.length
    (p.length + 6 + b.length + (w.takeWhile (· != '\n')).length) =
      importWord ++ b ++ w.takeWhile (· != '\n') := by
  obtain ⟨l, r, hcut, hl, -⟩ := exists_lineEnd_cut w
  have hsix : importWord.length = 6 := rfl
  have heq : t = p ++ (importWord ++ b ++ l ++ r) := by
    rw [h.eq]
    conv => lhs; rw [hcut]
    simp
  rw [← hl, Text.slice, heq, List.drop_left]
  refine List.take_left' ?_
  rw [List.length_append, List.length_append]
  omega

/-- The first brace of the import line, and the bracket that closes it. -/
theorem closing?_iff {g x : Text} (hw : w = g ++ '{' :: x) {j : Nat} :
    all.closing? t (p.length + 6 + b.length + g.length) = some j ↔
      ∃ i c r, x = i ++ c :: r ∧ all.Balanced i ∧ all.isClosing c = true ∧
        j = p.length + 6 + b.length + (g.length + 1 + i.length) := by
  have hsix : importWord.length = 6 := rfl
  have heq : t = (p ++ (importWord ++ (b ++ g))) ++ '{' :: x := by
    rw [h.eq, hw]
    simp
  have hlen : (p ++ (importWord ++ (b ++ g))).length = p.length + 6 + b.length + g.length := by
    simp only [List.length_append]
    omega
  rw [closing?_eq_some_iff]
  constructor
  · rintro ⟨q, o, i, c, r, hcut, hq, rfl, -, hi, hc⟩
    obtain ⟨-, hrest⟩ := List.append_inj (heq.symm.trans hcut) (hlen.trans hq)
    obtain ⟨-, rfl⟩ := List.cons.inj hrest
    exact ⟨i, c, r, rfl, hi, hc, by omega⟩
  · rintro ⟨i, c, r, rfl, hi, hc, rfl⟩
    exact ⟨_, '{', i, c, r, heq, hlen.symm, by omega, by decide, hi, hc⟩

theorem not_mem_importWord : '{' ∉ importWord ++ b := by
  intro hc
  rcases List.mem_append.1 hc with hc | hc
  · exact absurd hc (by decide)
  · exact absurd (h.blank _ hc) (by decide)

/-- An import line without braces ends the import. -/
theorem lastImportEnd?_of_not_mem (hbrace : '{' ∉ w.takeWhile (· != '\n')) :
    lastImportEnd? t =
      some (p.length + 6 + b.length + (w.takeWhile (· != '\n')).length) := by
  have hnone : '{' ∉ importWord ++ b ++ w.takeWhile (· != '\n') := by
    intro hc
    rcases List.mem_append.1 hc with hc | hc
    · exact h.not_mem_importWord hc
    · exact hbrace hc
  unfold lastImportEnd?
  rw [h.line]
  simp only [Option.bind_eq_bind, Option.bind_some, h.slice_eq]
  rw [if_neg hnone]
  rfl

/-- An import line with a brace goes on to the line on which the brace is closed. -/
theorem lastImportEnd?_of_brace {g x : Text} (hw : w = g ++ '{' :: x) (hline : '\n' ∉ g)
    (hg : '{' ∉ g) :
    lastImportEnd? t =
      match all.closing? t (p.length + 6 + b.length + g.length) with
      | some last =>
          if p.length + 6 + b.length + (w.takeWhile (· != '\n')).length ≤ last then
            some (last + ((t.drop last).takeWhile (· != '\n')).length)
          else some (p.length + 6 + b.length + (w.takeWhile (· != '\n')).length)
      | none => some (p.length + 6 + b.length + (w.takeWhile (· != '\n')).length) := by
  have hmem : '{' ∈ w.takeWhile (· != '\n') := mem_line_iff.2 ⟨g, x, hw, hline, hg⟩
  obtain ⟨g', y, hgy, hg'⟩ := List.eq_append_cons_of_mem hmem
  obtain ⟨l, r, hcut, hl, -⟩ := exists_lineEnd_cut w
  -- The first brace of the line is the first brace of `w`.
  obtain rfl : g' = g := by
    have heq : g' ++ '{' :: (y ++ r) = g ++ '{' :: x := by
      rw [← hw, hcut, hl, hgy]
      simp
    exact (cut_first_brace hg' hg heq).1
  have hfirst : (importWord ++ b ++ w.takeWhile (· != '\n')).takeWhile (· != '{') =
      importWord ++ b ++ g' := by
    have hplain : '{' ∉ importWord ++ b ++ g' := by
      intro hc
      rcases List.mem_append.1 hc with hc | hc
      · exact h.not_mem_importWord hc
      · exact hg hc
    rw [hgy, ← List.append_assoc, Text.takeWhile_ne hplain]
  have hpos : p.length + (importWord ++ b ++ g').length = p.length + 6 + b.length + g'.length := by
    have hsix : importWord.length = 6 := rfl
    rw [List.length_append, List.length_append]
    omega
  unfold lastImportEnd?
  rw [h.line]
  simp only [Option.bind_eq_bind, Option.bind_some, h.slice_eq]
  rw [if_pos (List.mem_append_right _ hmem), hfirst, hpos]
  rfl

/-- **The last import ends at the first free line break** behind its word, or at the end of the
text. -/
theorem lastImportEnd?_eq :
    ∃ n, lastImportEnd? t = some (p.length + 6 + b.length + n) ∧ FirstFree w n := by
  by_cases hbrace : '{' ∈ w.takeWhile (· != '\n')
  · -- The line has a brace: what counts is where it is closed.
    obtain ⟨g, x, hw, hline, hg⟩ := mem_line_iff.1 hbrace
    rw [h.lastImportEnd?_of_brace hw hline hg]
    cases hlast : all.closing? t (p.length + 6 + b.length + g.length) with
    | none =>
        refine ⟨_, rfl, firstFree_line ?_⟩
        intro g' i c y hw' _ hg' hi hc
        obtain ⟨rfl, hrest⟩ := cut_first_brace hg hg' (hw.symm.trans hw')
        have hsome := (h.closing?_iff hw).2 ⟨i, c, y, hrest, hi, hc, rfl⟩
        rw [hlast] at hsome
        cases hsome
    | some last =>
        obtain ⟨i, c, y, rfl, hi, hc, rfl⟩ := (h.closing?_iff hw).1 hlast
        dsimp only
        split
        · refine ⟨_, ?_, by rw [hw]; exact firstFree_braces hline hg hi hc⟩
          have hdrop : w.drop (g.length + 1 + i.length) = c :: y := by
            have hsplit : w = (g ++ '{' :: i) ++ c :: y := by rw [hw]; simp
            rw [hsplit]
            refine List.drop_left' ?_
            rw [List.length_append, List.length_cons]
            omega
          rw [h.drop_eq, hdrop, Nat.add_assoc]
        · rename_i hearly
          refine ⟨_, rfl, firstFree_line ?_⟩
          intro g' i' c' y' hw' _ hg' hi' hc'
          obtain ⟨rfl, hrest'⟩ := cut_first_brace hg hg' (hw.symm.trans hw')
          obtain ⟨rfl, -, -⟩ := hi.cut_unique hi' hc hc' hrest'
          omega
  · rw [h.lastImportEnd?_of_not_mem hbrace]
    refine ⟨_, rfl, firstFree_line ?_⟩
    intro g i c x hw hline hg _ _
    exact absurd (mem_line_iff.2 ⟨g, i ++ c :: x, hw, hline, hg⟩) hbrace

/-- No import starts behind the start of `w`. -/
theorem start_le {u v : Text} {n : Nat} (ht : t = u ++ v)
    (hv : importLine (Text.lastFrom none u) v = some n) : u.length ≤ p.length + 6 + b.length := by
  obtain ⟨m, hm, hstart⟩ := exists_mem_findFrom 0 ht hv (Nat.zero_le _)
  have hstop := stop_le_of_getLast? h.line (by dsimp only; omega) m hm
  dsimp only at hstop
  refine Nat.le_of_not_lt fun hlt => ?_
  -- The line break before the import would stand on the last import line.
  obtain ⟨hprev, -⟩ := exists_cut_of_importLine hv
  obtain ⟨l, r, hcut, hl, -⟩ := exists_lineEnd_cut w
  have hsix : importWord.length = 6 := rfl
  have heq : (p ++ (importWord ++ b)) ++ w = u ++ v := by
    rw [← ht, h.eq]
    simp
  rcases List.append_eq_append_iff.1 heq with ⟨x, rfl, hx⟩ | ⟨x, hx, -⟩
  · rw [← hl] at hstop
    rw [List.length_append, List.length_append, List.length_append] at hlt hstart
    have hpre : x <+: l :=
      List.prefix_of_prefix_length_le ⟨v, hx.symm⟩ ⟨r, hcut.symm⟩ (by omega)
    obtain ⟨y, c, hy⟩ := (List.eq_nil_or_concat x).resolve_left (by rintro rfl; simp at hlt; omega)
    have hbreak : c = '\n' := by
      rw [hy, List.concat_eq_append, ← List.append_assoc, Text.lastFrom_concat] at hprev
      simpa [atLineStart] using hprev
    have hmem : '\n' ∈ l := hpre.subset (by rw [hy, hbreak]; simp)
    rw [hl] at hmem
    exact not_mem_line w hmem
  · have hlen := congrArg List.length hx
    simp only [List.length_append] at hlen
    omega

end LastImport

/-! ## Bindings that are torn apart -/

/-- Texts that start in the same way have the same parts there. -/
theorem Text.slice_congr {t t' : Text} {i j k : Nat} (h : t'.take k = t.take k) (hj : j ≤ k) :
    t'.slice i j = t.slice i j := by
  have htake : t'.take j = t.take j := by
    calc t'.take j = (t'.take k).take j := by rw [List.take_take, Nat.min_eq_left hj]
      _ = (t.take k).take j := by rw [h]
      _ = t.take j := by rw [List.take_take, Nat.min_eq_left hj]
  rw [slice, slice, ← List.drop_take, ← List.drop_take, htake]

/-- Where a binding is found, there is an import line, and the binding ends in the text. -/
theorem exists_of_mem_bindings {t : Text} {m : Match} (hm : m ∈ importBinding.findAll t) :
    ∃ u v n, t = u ++ v ∧ m.start = u.length ∧ m.stop ≤ t.length ∧
      importLine (Text.lastFrom none u) v = some n := by
  obtain ⟨u, v, n, ht, rfl, hread⟩ := Recognizer.exists_of_mem_findFrom hm
  unfold importBinding at hread
  obtain ⟨hprev, hread⟩ := Option.ite_none_right_eq_some.1 hread
  obtain ⟨x, hx, rfl⟩ := Option.map_eq_some_iff.1 hread
  have hle := length_le_of_importBinding? hx
  obtain ⟨⟨w, k⟩, hafter, -⟩ := Option.bind_eq_some_iff.1 hx
  refine ⟨u, v, 6 + k + (w.takeWhile (· != '\n')).length, ht, by simp, ?_, ?_⟩
  · rw [ht, List.length_append]
    dsimp only
    omega
  · rw [importLine, if_pos hprev, hafter]
    rfl

namespace LastImport

variable {t p b w : Text} (h : LastImport t p b w)

include h

/-- The new import stands behind the start of every binding. -/
theorem start_lt_importPlace {m : Match} (hm : m ∈ importBinding.findAll t) :
    m.start < importPlace t := by
  obtain ⟨u, v, n, ht, hstart, -, hline⟩ := exists_of_mem_bindings hm
  obtain ⟨k, hk, hfree⟩ := h.lastImportEnd?_eq
  have hle := h.start_le ht hline
  rw [importPlace, hk, Option.getD_some, hstart]
  -- A binding may start with `w`, but `w` does not start with a line break then.
  rcases Nat.lt_or_eq_of_le hle with hlt | heq
  · omega
  · obtain ⟨-, b', w', hv, -⟩ := exists_cut_of_importLine hline
    have hw : w = v := by
      have hdrop := h.drop_eq 0
      rw [Nat.add_zero, ← heq, ht, List.drop_left] at hdrop
      exact hdrop.symm
    have hpos : k ≠ 0 := by
      rintro rfl
      have hbreak := (hfree.free (by rw [hw, hv]; simp [importWord])).1
      rw [hw, hv] at hbreak
      exact absurd hbreak (by simp [importWord])
    omega

theorem importPlace_le : importPlace t ≤ t.length := by
  obtain ⟨k, hk, hfree⟩ := h.lastImportEnd?_eq
  have hle := hfree.le_length
  rw [importPlace, hk, Option.getD_some, h.length_eq]
  omega

/-- **A binding is torn apart exactly if it has a free line break.** -/
theorem importPlace_lt_stop_iff {m : Match} (hm : m ∈ importBinding.findAll t) :
    importPlace t < m.stop ↔ ∃ n, FreeBreak w n ∧ p.length + 6 + b.length + n < m.stop := by
  obtain ⟨k, hk, hfree⟩ := h.lastImportEnd?_eq
  obtain ⟨-, -, -, -, -, hstop, -⟩ := exists_of_mem_bindings hm
  rw [importPlace, hk, Option.getD_some]
  constructor
  · intro hlt
    have hlen := h.length_eq
    exact ⟨k, hfree.free (by omega), hlt⟩
  · rintro ⟨n, hn, hlt⟩
    have hle := hfree.least n hn
    omega

/-- Only the last binding goes on behind the new import. -/
theorem getLast?_of_importPlace_lt {m : Match} (hm : m ∈ importBinding.findAll t)
    (hlt : importPlace t < m.stop) : (importBinding.findAll t).getLast? = some m := by
  obtain ⟨before, after, hsplit⟩ := List.append_of_mem hm
  have hpair := importBinding.pairwise_findFrom 0 0 none t
  rw [← Recognizer.findAll, hsplit] at hpair
  rcases List.eq_nil_or_concat after with rfl | ⟨init, last, rfl⟩
  · rw [hsplit, List.getLast?_concat]
  · have hlast : last ∈ importBinding.findAll t := by
      rw [hsplit]
      simp
    have hle : m.stop ≤ last.start :=
      List.rel_of_pairwise_cons (List.pairwise_append.1 hpair).2.1 (by simp)
    have hstart := h.start_lt_importPlace hlast
    omega

end LastImport

/-- **When the new import tears a binding apart.** The import goes to one place, `importPlace t`.
It lies inside a binding of the text exactly if the binding has a free line break, one that stands
behind the last word `import` and its blanks and not in the braces opened on that line. This can
only be the last binding. All other bindings keep their text and their place. -/
theorem ensureImport_splits_iff {t module : Text} (marker : Identifier)
    (hno : hasImport t module marker.text = false) {m : Match}
    (hm : m ∈ importBinding.findAll t) :
    let k := importPlace t
    let t' := ensureImport t module marker.text
    t' = t.take k ++ '\n' :: (importStatement module marker.text ++ t.drop k) ∧
      ∃ p b w, LastImport t p b w ∧
        ((m.start < k ∧ k < m.stop) ↔
          ∃ n, FreeBreak w n ∧ p.length + 6 + b.length + n < m.stop) ∧
        (m.start < k ∧ k < m.stop → (importBinding.findAll t).getLast? = some m) ∧
        (¬ (m.start < k ∧ k < m.stop) → t'.slice m.start m.stop = t.slice m.start m.stop) := by
  intro k t'
  obtain ⟨u, v, n, ht, hstart, -, hline⟩ := exists_of_mem_bindings hm
  have hlines : importLine.findAll t ≠ [] := by
    obtain ⟨line, hmem, -⟩ := exists_mem_findFrom 0 ht hline (Nat.zero_le _)
    exact List.ne_nil_of_mem hmem
  obtain ⟨p, b, w, h⟩ := exists_lastImport hlines
  obtain ⟨e, he, -⟩ := h.lastImportEnd?_eq
  have htext : t' = t.take k ++ '\n' :: (importStatement module marker.text ++ t.drop k) :=
    ensureImport_of_importPlace hno he
  have hbefore : m.start < k := h.start_lt_importPlace hm
  refine ⟨htext, p, b, w, h, ?_, fun hin => h.getLast?_of_importPlace_lt hm hin.2, fun hout => ?_⟩
  · rw [← h.importPlace_lt_stop_iff hm]
    exact and_iff_right hbefore
  · -- The binding ends before the new import, and there the texts are the same.
    have hle : k ≤ t.length := h.importPlace_le
    refine Text.slice_congr (k := k) ?_ (by omega)
    rw [htext, List.take_left' (by rw [List.length_take_of_le hle])]

/-- Two imports with braces. The word of the second one stands on a line of its own. -/
def bracedImports : Text :=
  "import d, \x7b\n  a\n\x7d from './a'\nimport\n  \x7b b,\n    c \x7d from './c'\nb()".toList

theorem ensureImport_splits_iff_bracedImports :
    let m : Match := ⟨29, 61⟩
    let module := "./m.css".toList
    let t' := ensureImport bracedImports module Identifier.styles.text
    hasImport bracedImports module Identifier.styles.text = false ∧
      m ∈ importBinding.findAll bracedImports ∧ importPlace bracedImports = 61 ∧
      t'.slice m.start m.stop = bracedImports.slice m.start m.stop ∧
      ∃ p b w, LastImport bracedImports p b w ∧
        ¬ ∃ n, FreeBreak w n ∧ p.length + 6 + b.length + n < m.stop := by
  intro m module t'
  have hno : hasImport bracedImports module Identifier.styles.text = false := by decide +kernel
  have hm : m ∈ importBinding.findAll bracedImports := by decide +kernel
  have hplace : importPlace bracedImports = 61 := by decide +kernel
  obtain ⟨-, p, b, w, hlast, hiff, -, hkept⟩ := ensureImport_splits_iff .styles hno hm
  have hout : ¬ (m.start < importPlace bracedImports ∧ importPlace bracedImports < m.stop) := by
    rw [hplace]
    decide
  exact ⟨hno, hm, hplace, hkept hout, p, b, w, hlast, mt hiff.2 hout⟩

/-- An import that goes on behind its first line without braces is torn apart. -/
theorem ensureImport_splits_wrappedImport :
    let t := "import a\nfrom 'x'".toList
    let module := "./m.css".toList
    let m : Match := ⟨0, 17⟩
    hasImport t module Identifier.styles.text = false ∧ m ∈ importBinding.findAll t ∧
      m.start < importPlace t ∧ importPlace t < m.stop ∧
      ensureImport t module Identifier.styles.text =
        "import a\nimport * as $styles from './m.css'\nfrom 'x'".toList := by
  decide +kernel

end Stylewire
