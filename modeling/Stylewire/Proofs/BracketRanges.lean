import Stylewire.Proofs.Occurrence
import Stylewire.Splice

set_option autoImplicit false

/-! # The ranges of brackets

A bracket that is closed spans a range, from its own offset to that of its closing bracket. The
text may be unbalanced and may mix up kinds: two ranges never cross, and no two of them end at the
same place. What makes it so is that the depth moves by one at most. A bracket opened inside a range
leads to a level that the range has to leave again before it ends
(`exists_closingByte?_of_inside`).

A bracket *encloses* an offset if it is still open there (`Encloses`). So a bracket that is never
closed keeps all those open that enclose it.

A range depends on the depths inside it only. A splice inside a range that keeps the depth of what
it replaces and closes no bracket it has not opened moves the end of the range, and does no more
(`closingByte?_splice`).
-/

namespace Stylewire

namespace Text

/-- Of two cuts of a text, the one at the smaller offset comes first. -/
theorem exists_between {a b u v : Text} (h : a ++ b = u ++ v) (hle : a.byteSize ≤ u.byteSize) :
    ∃ w, u = a ++ w ∧ b = w ++ v := by
  rcases List.append_eq_append_iff.1 h with hleft | ⟨w, rfl, rfl⟩
  · exact hleft
  · rw [byteSize_append] at hle
    have hw : w = [] := by
      by_contra hne
      have := byteSize_pos hne
      omega
    subst hw
    exact ⟨[], by simp, by simp⟩

theorem byteSize_concat {a : Char} (ha : isAscii a = true) (p : Text) :
    byteSize (p ++ [a]) = p.byteSize + 1 := by
  rw [byteSize_append, byteSize_ascii ha]
  rfl

end Text

namespace Brackets

variable {s : Brackets} {t : Text} {i j c d : Nat}

/-! ## Open brackets -/

/-- An opening bracket of the set stands at the byte offset. -/
def OpensAt (s : Brackets) (t : Text) (i : Nat) : Prop :=
  ∃ o, s.isOpening o = true ∧ t.OccursAt [o] i

/-- The bracket opened at `i` is still open at the offset `j`: from the one to the other, the depth
never falls below the level behind the bracket. -/
def Encloses (s : Brackets) (t : Text) (i j : Nat) : Prop :=
  ∃ (p : Text) (o : Char) (x r : Text), t = p ++ o :: (x ++ r) ∧ i = p.byteSize ∧
    j = i + 1 + x.byteSize ∧ s.isOpening o = true ∧ s.Above 0 x

theorem opensAt_iff :
    s.OpensAt t i ↔ ∃ (p : Text) (o : Char) (r : Text), t = p ++ o :: r ∧ i = p.byteSize ∧
      s.isOpening o = true := by
  constructor
  · rintro ⟨o, ho, hat⟩
    obtain ⟨p, r, rfl, rfl⟩ := (Text.occursAt_iff (by simp)).1 hat
    exact ⟨p, o, r, rfl, rfl, ho⟩
  · rintro ⟨p, o, r, rfl, rfl, ho⟩
    exact ⟨o, ho, Text.occursAt_append p [o] r⟩

/-- The depth stays above the level, or there is a first closing bracket that leads below it. -/
theorem above_or_exists_return {e : Int} (he : 0 ≤ e) (x : Text) :
    s.Above e x ∨
      ∃ y a z, x = y ++ a :: z ∧ s.Above e y ∧ e + s.depth y = 0 ∧ s.isClosing a = true := by
  induction x generalizing e with
  | nil => exact Or.inl he
  | cons b x ih =>
      have hw := neg_one_le_weight s b
      by_cases hb : e + s.weight b < 0
      · exact Or.inr ⟨[], b, x, rfl, he, by rw [depth_nil]; omega, isClosing_of_weight (by omega)⟩
      · rcases ih (e := e + s.weight b) (by omega) with habove | ⟨y, a, z, rfl, hy, hdy, ha⟩
        · exact Or.inl ⟨he, habove⟩
        · exact Or.inr ⟨b :: y, a, z, rfl, ⟨he, hy⟩, by rw [depth_cons]; omega, ha⟩

/-- No start of the text leads below the level. -/
theorem above_iff_starts {e : Int} {x : Text} :
    s.Above e x ↔ ∀ u, u <+: x → 0 ≤ e + s.depth u := by
  constructor
  · rintro h u ⟨v, rfl⟩
    exact (above_append.1 h).1.nonneg_end
  · intro h
    have he : 0 ≤ e := by simpa using h [] List.nil_prefix
    rcases above_or_exists_return he x with habove | ⟨y, a, z, rfl, -, hdy, ha⟩
    · exact habove
    · -- The start that ends with the closing bracket would lead below.
      have hlow := h (y ++ [a]) ⟨z, by simp⟩
      rw [depth_append, depth_cons, depth_nil, weight_of_isClosing ha] at hlow
      omega

/-- **A bracket opened before another one** encloses it, or is closed before it. -/
theorem encloses_or_closed (hi : s.OpensAt t i) (hj : s.OpensAt t j) (hij : i < j) :
    s.Encloses t i j ∨ ∃ c, s.closingByte? t i = some c ∧ c < j := by
  obtain ⟨p, o, r, rfl, rfl, ho⟩ := opensAt_iff.1 hi
  obtain ⟨q, o', r', heq, rfl, -⟩ := opensAt_iff.1 hj
  have hsize := Text.byteSize_concat (isAscii_of_isOpening ho) p
  have hcut : (p ++ [o]) ++ r = q ++ o' :: r' := by simpa using heq
  obtain ⟨x, rfl, rfl⟩ := Text.exists_between hcut (by omega)
  have hend : Text.byteSize (p ++ [o] ++ x) = p.byteSize + 1 + x.byteSize := by
    rw [Text.byteSize_append, hsize]
  rcases above_or_exists_return (s := s) (Int.le_refl 0) x with habove | ⟨y, a, z, rfl, hy, hdy, ha⟩
  · exact Or.inl ⟨p, o, x, o' :: r', rfl, rfl, hend, ho, habove⟩
  · refine Or.inr ⟨p.byteSize + 1 + y.byteSize, ?_, ?_⟩
    · refine closingByte?_eq_some_iff.2 ⟨p, o, y, a, z ++ o' :: r', by simp, rfl, rfl, ho, ?_, ha⟩
      exact ⟨hy, by omega⟩
    · rw [hend, Text.byteSize_append]
      have := Text.byteSize_pos (List.cons_ne_nil a z)
      omega

/-! ## Ranges do not cross -/

theorem lt_of_closingByte? (h : s.closingByte? t i = some c) : i < c := by
  obtain ⟨p, o, x, a, r, -, -, rfl, -⟩ := closingByte?_eq_some_iff.1 h
  omega

theorem opensAt_of_closingByte? (h : s.closingByte? t i = some c) : s.OpensAt t i := by
  obtain ⟨p, o, x, a, r, ht, hi, -, ho, -⟩ := closingByte?_eq_some_iff.1 h
  exact opensAt_iff.2 ⟨p, o, x ++ a :: r, ht, hi, ho⟩

/-- **A bracket opened inside a range is closed inside it.** -/
theorem exists_closingByte?_of_inside (h : s.closingByte? t i = some c) (hj : s.OpensAt t j)
    (hij : i < j) (hjc : j < c) : ∃ d, s.closingByte? t j = some d ∧ j < d ∧ d < c := by
  obtain ⟨p, o, x, a, r, rfl, rfl, rfl, ho, hx, ha⟩ := closingByte?_eq_some_iff.1 h
  obtain ⟨q, o', k, heq, rfl, ho'⟩ := opensAt_iff.1 hj
  have hsize := Text.byteSize_concat (isAscii_of_isOpening ho) p
  have hsize' := Text.byteSize_concat (isAscii_of_isOpening ho')
  -- The offset `j` cuts the balanced text of the range into `y` and what starts with `o'`.
  have hcut : (p ++ [o]) ++ (x ++ a :: r) = q ++ o' :: k := by simpa using heq
  obtain ⟨y, rfl, hrest⟩ := Text.exists_between hcut (by omega)
  rw [Text.byteSize_append, hsize] at hjc ⊢
  have hcut' : (y ++ [o']) ++ k = x ++ a :: r := by simpa using hrest.symm
  obtain ⟨z, rfl, rfl⟩ := Text.exists_between hcut' (by rw [hsize']; omega)
  -- No end of a balanced text has a positive depth, so what is opened there is closed there.
  have hclosed : s.Closed (o' :: z) := by
    have := hx.closed
    rw [List.append_assoc] at this
    exact this.of_append_right
  obtain ⟨x', a', r', rfl, hx', ha'⟩ := hclosed.exists_closing ho'
  refine ⟨p.byteSize + 1 + y.byteSize + 1 + x'.byteSize, ?_, by omega, ?_⟩
  · refine closingByte?_eq_some_iff.2
      ⟨p ++ [o] ++ y, o', x', a', r' ++ a :: r, by simp, ?_, rfl, ho', hx', ha'⟩
    rw [Text.byteSize_append, hsize]
  · have hpos := Text.byteSize_pos (List.cons_ne_nil a' r')
    rw [Text.byteSize_append, hsize', Text.byteSize_append]
    omega

/-- A closing bracket opens nothing. -/
theorem ne_of_opensAt (h : s.closingByte? t i = some c) (hj : s.OpensAt t j) : j ≠ c := by
  obtain ⟨p, o, x, a, r, rfl, rfl, rfl, ho, -, ha⟩ := closingByte?_eq_some_iff.1 h
  obtain ⟨q, o', k, heq, rfl, ho'⟩ := opensAt_iff.1 hj
  intro hsize
  have hcut : (p ++ [o] ++ x) ++ a :: r = q ++ o' :: k := by simpa using heq
  obtain rfl := Text.eq_of_byteSize_eq hcut (by
    rw [Text.byteSize_append, Text.byteSize_concat (isAscii_of_isOpening ho), hsize])
  obtain ⟨rfl, -⟩ := List.cons.inj (List.append_cancel_left hcut)
  rw [isOpening_eq_false_of_isClosing ha] at ho'
  cases ho'

/-- **Two ranges** lie inside one another, or one behind the other. -/
theorem nested_or_disjoint (hi : s.closingByte? t i = some c) (hj : s.closingByte? t j = some d)
    (hij : i < j) : d < c ∨ c < j := by
  have hopen := opensAt_of_closingByte? hj
  have hne := ne_of_opensAt hi hopen
  by_cases hjc : j < c
  · obtain ⟨e, he, -, hec⟩ := exists_closingByte?_of_inside hi hopen hij hjc
    obtain rfl : d = e := Option.some.inj (hj.symm.trans he)
    exact Or.inl hec
  · exact Or.inr (by omega)

theorem eq_of_closingByte? (hi : s.closingByte? t i = some c) (hj : s.closingByte? t j = some c) :
    i = j := by
  have hic := lt_of_closingByte? hi
  have hjc := lt_of_closingByte? hj
  rcases Nat.lt_trichotomy i j with hij | hij | hij
  · have := nested_or_disjoint hi hj hij
    omega
  · exact hij
  · have := nested_or_disjoint hj hi hij
    omega

/-- A bracket is not closed before an offset that it encloses. -/
theorem Encloses.le_closing (h : s.Encloses t i j) (hc : s.closingByte? t i = some c) : j ≤ c := by
  obtain ⟨p, o, x, r, rfl, rfl, rfl, ho, hx⟩ := h
  obtain ⟨y, a, k, hrest, rfl, hy, ha⟩ := (closingByte?_append_iff ho).1 hc
  by_contra hlt
  have hsize := Text.byteSize_concat (isAscii_of_isClosing ha) y
  have hcut : (y ++ [a]) ++ k = x ++ r := by simpa using hrest.symm
  obtain ⟨z, rfl, -⟩ := Text.exists_between hcut (by omega)
  -- The closing bracket would lead below the level behind the opening one.
  have hlow := above_iff_starts.1 hx (y ++ [a]) ⟨z, rfl⟩
  rw [depth_append, hy.depth_eq, depth_cons, weight_of_isClosing ha, depth_nil] at hlow
  omega

/-- **A bracket that is never closed** keeps all those open that enclose it. -/
theorem closingByte?_eq_none_of_encloses (h : s.Encloses t i j) (hj : s.OpensAt t j)
    (hnone : s.closingByte? t j = none) : s.closingByte? t i = none := by
  have hij : i < j := by
    obtain ⟨p, o, x, r, -, -, rfl, -⟩ := h
    omega
  cases hc : s.closingByte? t i with
  | none => rfl
  | some c =>
      have hjc : j < c := Nat.lt_of_le_of_ne (h.le_closing hc) (ne_of_opensAt hc hj)
      obtain ⟨d, hd, -⟩ := exists_closingByte?_of_inside hc hj hij hjc
      rw [hnone] at hd
      cases hd

/-! ## Splices inside a range -/

/-- The text before a splice, what it replaces, and the text behind it. -/
theorem splice_cut {e : Splice} (he : e.start ≤ e.stop) (t : Text) :
    t = t.take e.start ++ (t.slice e.start e.stop ++ t.drop e.stop) := by
  have hdrop : t.drop e.stop = (t.drop e.start).drop (e.stop - e.start) := by
    rw [List.drop_drop, Nat.add_sub_cancel' he]
  rw [Text.slice, hdrop, List.take_append_drop, List.take_append_drop]

/-- **A splice inside a range** moves its end by the difference in size, if the new text has the
depth of the old one and closes no bracket it has not opened. -/
theorem closingByte?_splice (h : s.closingByte? t i = some c) {e : Splice}
    (he : e.start ≤ e.stop) (hi : i < t.byteOffset e.start) (hc : t.byteOffset e.stop ≤ c)
    (hdepth : s.depth e.replacement = s.depth (t.slice e.start e.stop))
    (habove : ∀ u, u <+: e.replacement → 0 ≤ s.depth u) :
    ∃ c', s.closingByte? (e.apply t) i = some c' ∧
      c' + (t.slice e.start e.stop).byteSize = c + e.replacement.byteSize := by
  have hcut := splice_cut he t
  have hstop : t.byteOffset e.stop = t.byteOffset e.start + (t.slice e.start e.stop).byteSize := by
    have htake : t.take e.stop = t.take e.start ++ t.slice e.start e.stop := by
      rw [Text.slice, ← List.take_add, Nat.add_sub_cancel' he]
    rw [Text.byteOffset_eq, Text.byteOffset_eq, htake, Text.byteSize_append]
  rw [hstop] at hc
  rw [Text.byteOffset_eq] at hi hc
  unfold Splice.apply
  generalize t.take e.start = u, t.slice e.start e.stop = w, t.drop e.stop = v at *
  obtain ⟨p, o, x, a, r, ht, rfl, rfl, ho, hx, ha⟩ := closingByte?_eq_some_iff.1 h
  have hsize := Text.byteSize_concat (isAscii_of_isOpening ho) p
  -- The splice lies in the balanced text `x` of the range: it replaces `w` between `y` and `z`.
  have hbefore : (p ++ [o]) ++ (x ++ a :: r) = u ++ (w ++ v) := by
    rw [← hcut, ht]
    simp
  obtain ⟨y, rfl, hinner⟩ := Text.exists_between hbefore (by omega)
  rw [Text.byteSize_append, hsize] at hc
  have hbehind : (y ++ w) ++ v = x ++ a :: r := by simpa using hinner.symm
  obtain ⟨z, rfl, rfl⟩ := Text.exists_between hbehind (by rw [Text.byteSize_append]; omega)
  rw [List.append_assoc] at hx
  have hx' : s.Balanced (y ++ (e.replacement ++ z)) :=
    hx.replace (above_iff_starts.2 (by simpa using habove)) hdepth
  refine ⟨p.byteSize + 1 + Text.byteSize (y ++ (e.replacement ++ z)), ?_, ?_⟩
  · exact closingByte?_eq_some_iff.2 ⟨p, o, _, a, r, by simp, rfl, rfl, ho, hx', ha⟩
  · simp only [Text.byteSize_append]
    omega

/-! ## All ranges of a text -/

/-- **The ranges of a text are laminar**, whatever the text is. A bracket opened inside a range is
closed inside it. Different brackets are closed at different places, and two ranges lie inside one
another or one behind the other. Of two opening brackets the first one encloses the second, or is
closed before it, and a bracket that is never closed keeps all those open that enclose it. A splice
inside a range that keeps the depth and closes no bracket it has not opened moves the end of the
range by the difference in size. -/
theorem closingByte?_laminar (s : Brackets) (t : Text) :
    (∀ i j c, s.closingByte? t i = some c → s.OpensAt t j → i < j → j < c →
      ∃ d, s.closingByte? t j = some d ∧ j < d ∧ d < c) ∧
    (∀ i j c, s.closingByte? t i = some c → s.closingByte? t j = some c → i = j) ∧
    (∀ i j c d, s.closingByte? t i = some c → s.closingByte? t j = some d → i < j →
      d < c ∨ c < j) ∧
    (∀ i j, s.OpensAt t i → s.OpensAt t j → i < j →
      (s.Encloses t i j ∧ (s.closingByte? t j = none → s.closingByte? t i = none)) ∨
      ∃ c, s.closingByte? t i = some c ∧ c < j) ∧
    (∀ i c (e : Splice), s.closingByte? t i = some c → e.start ≤ e.stop →
      i < t.byteOffset e.start → t.byteOffset e.stop ≤ c →
      s.depth e.replacement = s.depth (t.slice e.start e.stop) →
      (∀ u, u <+: e.replacement → 0 ≤ s.depth u) →
      ∃ c', s.closingByte? (e.apply t) i = some c' ∧
        c' + (t.slice e.start e.stop).byteSize = c + e.replacement.byteSize) := by
  refine ⟨fun i j c => exists_closingByte?_of_inside, fun i j c => eq_of_closingByte?,
    fun i j c d => nested_or_disjoint, ?_, ?_⟩
  · intro i j hi hj hij
    rcases encloses_or_closed hi hj hij with hencl | hclosed
    · exact Or.inl ⟨hencl, closingByte?_eq_none_of_encloses hencl hj⟩
    · exact Or.inr hclosed
  · intro i c e h he hi hc hdepth habove
    exact closingByte?_splice h he hi hc hdepth habove

/-- A text with a bracket closed by one of another kind, and with two that are never closed. -/
def mixedText : Text := "[(é[a\x7db)\x7b".toList

/-- The splice that puts a parenthesis and a pair of braces in place of `[a`. -/
def bracketSplice : Splice := ⟨3, 5, ['(', '{', '}']⟩

theorem closingByte?_laminar_mixedText :
    all.closingByte? mixedText 1 = some 8 ∧ all.OpensAt mixedText 4 ∧
      (∃ d, all.closingByte? mixedText 4 = some d ∧ 4 < d ∧ d < 8) ∧
      all.OpensAt mixedText 0 ∧ all.OpensAt mixedText 9 ∧ all.closingByte? mixedText 9 = none ∧
      ((all.Encloses mixedText 0 9 ∧
          (all.closingByte? mixedText 9 = none → all.closingByte? mixedText 0 = none)) ∨
        ∃ c, all.closingByte? mixedText 0 = some c ∧ c < 9) ∧
      ∃ c', all.closingByte? (bracketSplice.apply mixedText) 1 = some c' ∧ c' + 2 = 8 + 3 := by
  obtain ⟨hinside, -, -, hopen, hsplice⟩ := closingByte?_laminar all mixedText
  have hclose : all.closingByte? mixedText 1 = some 8 := by decide
  have hfour : all.OpensAt mixedText 4 :=
    ⟨'[', rfl, Text.occursAt_append "[(é".toList ['['] "a\x7db)\x7b".toList⟩
  have hzero : all.OpensAt mixedText 0 :=
    ⟨'[', rfl, Text.occursAt_append [] ['['] "(é[a\x7db)\x7b".toList⟩
  have hnine : all.OpensAt mixedText 9 :=
    ⟨'{', rfl, Text.occursAt_append "[(é[a\x7db)".toList ['{'] []⟩
  refine ⟨hclose, hfour, hinside 1 4 8 hclose hfour (by decide) (by decide), hzero, hnine,
    by decide, hopen 0 9 hzero hnine (by decide), ?_⟩
  refine hsplice 1 8 bracketSplice hclose (by decide) (by decide) (by decide) (by decide) ?_
  intro u hu
  have habove : all.Above 0 bracketSplice.replacement :=
    ⟨by decide, by decide, by decide, show (0 : Int) ≤ _ by decide⟩
  simpa using above_iff_starts.1 habove u hu

end Brackets

end Stylewire
