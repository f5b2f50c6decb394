import Stylewire.Bracket

set_option autoImplicit false

/-! # Balanced texts and the closing bracket

A text is *balanced* if it closes every bracket it opens and no other one: its depth is zero
and the depth never falls below zero on the way (`Brackets.Balanced`). The bracket that closes
an opening one is the closing bracket behind the balanced text that follows it
(`closing?_eq_some_iff`), and a text is cut in at most one way into a balanced text, a closing
bracket and a rest (`Balanced.cut_unique`). All statements count brackets only, so they hold
for texts in which kinds are mixed up, too.
-/

namespace Stylewire

/-- A property of the characters of a text is checked for one after the other, and not for every
character there is. -/
theorem forall_mem_of_all {p : Char → Prop} [DecidablePred p] {t : Text}
    (h : (t.all fun c => decide (p c)) = true) : ∀ c ∈ t, p c := by
  simpa using h

namespace Brackets

variable {s : Brackets}

/-! ## Weights -/

theorem weight_of_isOpening {c : Char} (h : s.isOpening c = true) : s.weight c = 1 := by
  simp [weight, h]

theorem isOpening_eq_false_of_isClosing {c : Char} (h : s.isClosing c = true) :
    s.isOpening c = false := by
  cases s with
  | all =>
      simp only [isClosing, Bool.or_eq_true, beq_iff_eq] at h
      rcases h with (rfl | rfl) | rfl <;> decide
  | braces =>
      simp only [isClosing, beq_iff_eq] at h
      subst h
      decide

theorem weight_of_isClosing {c : Char} (h : s.isClosing c = true) : s.weight c = -1 := by
  simp [weight, h, isOpening_eq_false_of_isClosing h]

theorem isClosing_of_weight {c : Char} (h : s.weight c = -1) : s.isClosing c = true := by
  unfold weight at h
  split at h
  · simp at h
  · split at h
    · assumption
    · simp at h

/-- A single character moves the depth down by one at most. -/
theorem neg_one_le_weight (s : Brackets) (c : Char) : -1 ≤ s.weight c := by
  unfold weight
  split
  · omega
  · split <;> omega

/-- All characters but the six brackets have no weight. -/
theorem weight_eq_zero {c : Char} (h : ∀ a ∈ ['(', '{', '[', ')', '}', ']'], c ≠ a) :
    s.weight c = 0 := by
  simp only [List.mem_cons, List.not_mem_nil, or_false, forall_eq_or_imp, forall_eq] at h
  obtain ⟨h1, h2, h3, h4, h5, h6⟩ := h
  cases s <;> simp [weight, isOpening, isClosing, h1, h2, h3, h4, h5, h6]

theorem weight_of_isBlank {c : Char} (hc : isBlank c = true) : s.weight c = 0 := by
  refine weight_eq_zero fun a ha hca => ?_
  have hno : ∀ a ∈ ['(', '{', '[', ')', '}', ']'], isBlank a = false :=
    forall_mem_of_all (by decide)
  rw [hca, hno a ha] at hc
  cases hc

theorem weight_of_isIdentChar {c : Char} (hc : isIdentChar c = true) : s.weight c = 0 := by
  refine weight_eq_zero fun a ha hca => ?_
  have hno : ∀ a ∈ ['(', '{', '[', ')', '}', ']'], isIdentChar a = false :=
    forall_mem_of_all (by decide)
  rw [hca, hno a ha] at hc
  cases hc

/-- A text of characters without weight has depth zero. -/
theorem depth_eq_zero_of_weight {t : Text} (h : ∀ c ∈ t, s.weight c = 0) : s.depth t = 0 := by
  induction t with
  | nil => rfl
  | cons c t ih =>
      rw [depth_cons, h c (by simp), ih (fun a ha => h a (by simp [ha]))]
      rfl

/-! ## Staying above a level -/

/-- Counted from `d`, the depth never falls below zero on the way through the text. -/
def Above (s : Brackets) : (d : Int) → Text → Prop
  | d, [] => 0 ≤ d
  | d, c :: t => 0 ≤ d ∧ s.Above (d + s.weight c) t

theorem Above.nonneg {d : Int} {t : Text} (h : s.Above d t) : 0 ≤ d := by
  cases t with
  | nil => exact h
  | cons c t => exact h.1

theorem above_append {d : Int} {t u : Text} :
    s.Above d (t ++ u) ↔ s.Above d t ∧ s.Above (d + s.depth t) u := by
  induction t generalizing d with
  | nil =>
      simp only [List.nil_append, Above, depth_nil, Int.add_zero]
      exact ⟨fun h => ⟨h.nonneg, h⟩, fun h => h.2⟩
  | cons c t ih =>
      simp only [List.cons_append, Above, depth_cons, ih, ← Int.add_assoc, and_assoc]

theorem Above.nonneg_end {d : Int} {t : Text} (h : s.Above d t) : 0 ≤ d + s.depth t := by
  have h' : s.Above d (t ++ []) := by simpa using h
  exact (above_append.1 h').2

theorem Above.mono {d e : Int} {t : Text} (h : s.Above d t) (hde : d ≤ e) : s.Above e t := by
  induction t generalizing d e with
  | nil => exact Int.le_trans h hde
  | cons c t ih => exact ⟨Int.le_trans h.1 hde, ih h.2 (by omega)⟩

theorem above_of_weight {d : Int} {t : Text} (hd : 0 ≤ d) (h : ∀ c ∈ t, s.weight c = 0) :
    s.Above d t := by
  induction t with
  | nil => exact hd
  | cons c t ih =>
      refine ⟨hd, ?_⟩
      rw [h c (by simp), Int.add_zero]
      exact ih (fun a ha => h a (by simp [ha]))

/-! ## Balanced texts -/

/-- A text is **balanced** if it closes every bracket it opens and no other one. -/
structure Balanced (s : Brackets) (t : Text) : Prop where
  above : s.Above 0 t
  depth_eq : s.depth t = 0

namespace Balanced

theorem nil : s.Balanced [] := ⟨Int.le_refl 0, rfl⟩

theorem append {t u : Text} (ht : s.Balanced t) (hu : s.Balanced u) : s.Balanced (t ++ u) := by
  refine ⟨above_append.2 ⟨ht.above, ?_⟩, ?_⟩
  · rw [ht.depth_eq]
    exact hu.above
  · rw [depth_append, ht.depth_eq, hu.depth_eq]
    rfl

theorem of_weight {t : Text} (h : ∀ c ∈ t, s.weight c = 0) : s.Balanced t :=
  ⟨above_of_weight (Int.le_refl 0) h, depth_eq_zero_of_weight h⟩

theorem of_all {t : Text} (h : (t.all fun c => decide (s.weight c = 0)) = true) : s.Balanced t :=
  of_weight (forall_mem_of_all h)

/-- What follows a balanced part of a balanced text is balanced. -/
theorem of_append_right {t u : Text} (h : s.Balanced (t ++ u)) (ht : s.Balanced t) :
    s.Balanced u := by
  have ha := (above_append.1 h.above).2
  have hd := h.depth_eq
  rw [ht.depth_eq] at ha
  rw [depth_append, ht.depth_eq] at hd
  exact ⟨by simpa using ha, by omega⟩

/-- The start of a balanced text is balanced if its depth is zero. -/
theorem of_append_left {t u : Text} (h : s.Balanced (t ++ u)) (hd : s.depth t = 0) :
    s.Balanced t :=
  ⟨(above_append.1 h.above).1, hd⟩

/-- A balanced text in a pair of brackets. -/
theorem group {t : Text} {o c : Char} (ho : s.isOpening o = true) (ht : s.Balanced t)
    (hc : s.isClosing c = true) : s.Balanced (o :: (t ++ [c])) := by
  have hwo := weight_of_isOpening ho
  have hwc := weight_of_isClosing hc
  refine ⟨⟨Int.le_refl 0, above_append.2 ⟨ht.above.mono (by omega), ?_⟩⟩, ?_⟩
  · rw [ht.depth_eq, hwo]
    exact ⟨by omega, by simp [Above, hwc]⟩
  · simp [ht.depth_eq, hwo, hwc]

/-- A stretch of a balanced text may be replaced by a text of the same depth that closes no bracket
it has not opened. -/
theorem replace {t w u v : Text} (h : s.Balanced (t ++ (w ++ v))) (hu : s.Above 0 u)
    (hd : s.depth u = s.depth w) : s.Balanced (t ++ (u ++ v)) := by
  obtain ⟨ht, hwv⟩ := above_append.1 h.above
  have hv : s.Above (0 + s.depth t + s.depth w) v := (above_append.1 hwv).2
  refine ⟨above_append.2 ⟨ht, above_append.2 ⟨hu.mono hwv.nonneg, ?_⟩⟩, ?_⟩
  · rw [hd]
    exact hv
  · calc s.depth (t ++ (u ++ v)) = s.depth (t ++ (w ++ v)) := by
          rw [depth_append, depth_append, depth_append, depth_append, hd]
      _ = 0 := h.depth_eq

/-- A balanced text may be put anywhere into a balanced text. -/
theorem insert {t u v : Text} (h : s.Balanced (t ++ v)) (hu : s.Balanced u) :
    s.Balanced (t ++ (u ++ v)) :=
  replace (w := []) h hu.above (by rw [hu.depth_eq, depth_nil])

end Balanced

/-! ## Finding the closing bracket -/

/-- From a level above zero, the search stops at the first closing bracket that leads below
the level `d` it started from. -/
theorem closeFrom_eq_some_iff {d : Int} (hd : 0 ≤ d) {pos j : Nat} {t : Text} :
    s.closeFrom (d + 1) pos t = some j ↔
      ∃ x c r, t = x ++ c :: r ∧ j = pos + x.length ∧ s.Above d x ∧ d + s.depth x = 0 ∧
        s.isClosing c = true := by
  induction t generalizing d pos with
  | nil => simp [closeFrom]
  | cons a t ih =>
      have hw := neg_one_le_weight s a
      rw [closeFrom]
      by_cases h0 : d + 1 + s.weight a = 0
      · -- The search stops at `a`. A cut further on would have `a` in its text `x`, which does
        -- not fall below the level.
        rw [if_pos h0]
        constructor
        · intro h
          obtain rfl : pos = j := by simpa using h
          exact ⟨[], a, t, rfl, rfl, hd, by simp; omega, isClosing_of_weight (by omega)⟩
        · rintro ⟨x, c, r, ht, rfl, hx, hdx, -⟩
          cases x with
          | nil => rfl
          | cons b x =>
              obtain ⟨rfl, -⟩ : a = b ∧ t = x ++ c :: r := by simpa using ht
              have := hx.2.nonneg
              omega
      · rw [if_neg h0, show d + 1 + s.weight a = d + s.weight a + 1 by omega,
          ih (by omega)]
        constructor
        · rintro ⟨x, c, r, rfl, rfl, hx, hdx, hc⟩
          refine ⟨a :: x, c, r, rfl, ?_, ⟨hd, hx⟩, ?_, hc⟩
          · rw [List.length_cons]
            omega
          · rw [depth_cons]
            omega
        · rintro ⟨x, c, r, ht, rfl, hx, hdx, hc⟩
          cases x with
          | nil =>
              obtain ⟨rfl, -⟩ : a = c ∧ t = r := by simpa using ht
              rw [weight_of_isClosing hc] at h0
              simp at hdx
              omega
          | cons b x =>
              obtain ⟨rfl, rfl⟩ : a = b ∧ t = x ++ c :: r := by simpa using ht
              refine ⟨x, c, r, rfl, ?_, hx.2, ?_, hc⟩
              · rw [List.length_cons]
                omega
              · rw [depth_cons] at hdx
                omega

/-- Behind an opening bracket the search finds the closing bracket after a balanced text. -/
theorem closeFrom_one_eq_some_iff {pos j : Nat} {t : Text} :
    s.closeFrom 1 pos t = some j ↔
      ∃ x c r, t = x ++ c :: r ∧ j = pos + x.length ∧ s.Balanced x ∧ s.isClosing c = true := by
  rw [show (1 : Int) = 0 + 1 from rfl, closeFrom_eq_some_iff (Int.le_refl 0)]
  constructor
  · rintro ⟨x, c, r, rfl, rfl, hx, hdx, hc⟩
    exact ⟨x, c, r, rfl, rfl, ⟨hx, by omega⟩, hc⟩
  · rintro ⟨x, c, r, rfl, rfl, hx, hc⟩
    exact ⟨x, c, r, rfl, rfl, hx.above, by rw [hx.depth_eq]; rfl, hc⟩

/-- A text is cut in at most one way into a balanced text, a closing bracket and a rest. -/
theorem Balanced.cut_unique {x y r q : Text} {c e : Char} (hx : s.Balanced x)
    (hy : s.Balanced y) (hc : s.isClosing c = true) (he : s.isClosing e = true)
    (h : x ++ c :: r = y ++ e :: q) : x = y ∧ c = e ∧ r = q := by
  have h1 : s.closeFrom 1 0 (x ++ c :: r) = some (0 + x.length) :=
    closeFrom_one_eq_some_iff.2 ⟨x, c, r, rfl, rfl, hx, hc⟩
  have h2 : s.closeFrom 1 0 (x ++ c :: r) = some (0 + y.length) :=
    closeFrom_one_eq_some_iff.2 ⟨y, e, q, h, rfl, hy, he⟩
  have hl : x.length = y.length := by
    rw [h1] at h2
    simpa using h2
  obtain ⟨rfl, h'⟩ := List.append_inj h hl
  exact ⟨rfl, by simpa using h'⟩

/-- **The closing bracket**: it stands behind the balanced text after the opening one. -/
theorem closing?_eq_some_iff {t : Text} {i j : Nat} :
    s.closing? t i = some j ↔
      ∃ p o x c r, t = p ++ o :: (x ++ c :: r) ∧ i = p.length ∧ j = i + 1 + x.length ∧
        s.isOpening o = true ∧ s.Balanced x ∧ s.isClosing c = true := by
  constructor
  · intro h
    unfold closing? at h
    split at h
    · cases h
    · rename_i o k hk
      split at h
      · rename_i ho
        have hw := weight_of_isOpening ho
        rw [closeFrom, if_neg (by omega), hw, Int.zero_add, closeFrom_one_eq_some_iff] at h
        obtain ⟨x, c, r, rfl, rfl, hx, hc⟩ := h
        have hi : i < t.length := by
          rw [← Nat.not_le, ← List.drop_eq_nil_iff, hk]
          simp
        refine ⟨t.take i, o, x, c, r, ?_, by simp; omega, rfl, ho, hx, hc⟩
        rw [← hk, List.take_append_drop]
      · cases h
  · rintro ⟨p, o, x, c, r, rfl, rfl, rfl, ho, hx, hc⟩
    have hw := weight_of_isOpening ho
    unfold closing?
    rw [List.drop_left]
    simp only [ho, if_true]
    rw [closeFrom, if_neg (by omega), hw, Int.zero_add, closeFrom_one_eq_some_iff]
    exact ⟨x, c, r, rfl, rfl, hx, hc⟩

/-! ## Openings that are closed -/

/-- If the depth falls back to the level `d` started from, there is a closing bracket that
leads there first. -/
theorem exists_return {d : Int} {t : Text} (hd : 0 ≤ d) (h : d + 1 + s.depth t ≤ 0) :
    ∃ x c r, t = x ++ c :: r ∧ s.Above d x ∧ d + s.depth x = 0 ∧ s.isClosing c = true := by
  induction t generalizing d with
  | nil =>
      simp only [depth_nil] at h
      omega
  | cons a t ih =>
      rw [depth_cons] at h
      have hw := neg_one_le_weight s a
      by_cases h0 : d + 1 + s.weight a = 0
      · exact ⟨[], a, t, rfl, hd, by simp; omega, isClosing_of_weight (by omega)⟩
      · obtain ⟨x, c, r, rfl, hx, hdx, hc⟩ := ih (d := d + s.weight a) (by omega) (by omega)
        exact ⟨a :: x, c, r, rfl, ⟨hd, hx⟩, by rw [depth_cons]; omega, hc⟩

/-- Every opening bracket of the text is closed in it: no end of the text has a positive
depth. -/
def Closed (s : Brackets) : Text → Prop
  | [] => True
  | c :: t => s.depth (c :: t) ≤ 0 ∧ s.Closed t

theorem closed_of_above {d : Int} {t : Text} (h : s.Above d t) (hd : d + s.depth t = 0) :
    s.Closed t := by
  induction t generalizing d with
  | nil => trivial
  | cons c t ih =>
      have h0 := h.nonneg
      refine ⟨by omega, ih h.2 ?_⟩
      rw [depth_cons] at hd
      omega

/-- A balanced text closes all its opening brackets. -/
theorem Balanced.closed {t : Text} (h : s.Balanced t) : s.Closed t :=
  closed_of_above h.above (by rw [h.depth_eq]; rfl)

/-- The end of a text that closes all its opening brackets closes all of its own. -/
theorem Closed.of_append_right {t u : Text} (h : s.Closed (t ++ u)) : s.Closed u := by
  induction t with
  | nil => exact h
  | cons c t ih => exact ih h.2

/-- An opening bracket of such a text, its balanced text and its closing bracket. -/
theorem Closed.exists_closing {o : Char} {t : Text} (h : s.Closed (o :: t))
    (ho : s.isOpening o = true) :
    ∃ x c r, t = x ++ c :: r ∧ s.Balanced x ∧ s.isClosing c = true := by
  have h1 := h.1
  rw [depth_cons, weight_of_isOpening ho] at h1
  obtain ⟨x, c, r, rfl, hx, hd, hc⟩ := exists_return (s := s) (Int.le_refl 0)
    (show 0 + 1 + s.depth t ≤ 0 by omega)
  exact ⟨x, c, r, rfl, ⟨hx, by omega⟩, hc⟩

end Brackets

end Stylewire
