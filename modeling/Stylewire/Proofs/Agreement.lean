import Stylewire.Proofs.OptionsObject

set_option autoImplicit false

/-! # Texts that agree outside parentheses

While the calls of a text are marked one after the other, the text changes between the
parentheses of calls that have been handled already. `Agree` relates two texts that differ in
such places only: between some parentheses and their closing brackets, where each of them has
a balanced text. Whether an enclosing call is closed and whether it is marked is the same for
both (`Agree.calls`, `Agree.marked_iff`), since neither is decided inside of parentheses.
-/

namespace Stylewire

open Brackets

/-- The two texts agree outside of some parentheses, and both close these with the same
bracket. -/
inductive Agree : Text → Text → Prop
  | nil : Agree [] []
  | cons (c : Char) {t t' : Text} : Agree t t' → Agree (c :: t) (c :: t')
  | paren {x x' t t' : Text} {c : Char} : all.Balanced x → all.Balanced x' →
      all.isClosing c = true → Agree t t' → Agree ('(' :: (x ++ c :: t)) ('(' :: (x' ++ c :: t'))

namespace Agree

theorem refl (t : Text) : Agree t t := by
  induction t with
  | nil => exact .nil
  | cons c t ih => exact .cons c ih

theorem symm {t t' : Text} (h : Agree t t') : Agree t' t := by
  induction h with
  | nil => exact .nil
  | cons c _ ih => exact .cons c ih
  | paren hx hx' hc _ ih => exact .paren hx' hx hc ih

theorem prepend {t t' : Text} (h : Agree t t') (a : Text) : Agree (a ++ t) (a ++ t') := by
  induction a with
  | nil => exact h
  | cons c a ih => exact .cons c ih

/-! ## Cutting both texts at the same place -/

theorem cons_left {c : Char} {t u : Text} (h : Agree (c :: t) u) (hc : c ≠ '(') :
    ∃ t', u = c :: t' ∧ Agree t t' := by
  cases h with
  | cons _ h => exact ⟨_, rfl, h⟩
  | paren => exact absurd rfl hc

/-- A text without parentheses stands at the start of both. -/
theorem plain_left {a t u : Text} (h : Agree (a ++ t) u) (ha : '(' ∉ a) :
    ∃ t', u = a ++ t' ∧ Agree t t' := by
  induction a generalizing u with
  | nil => exact ⟨u, rfl, h⟩
  | cons c a ih =>
      rw [List.mem_cons, not_or] at ha
      obtain ⟨u, rfl, h'⟩ := h.cons_left (Ne.symm ha.1)
      obtain ⟨t', rfl, ht⟩ := ih h' ha.2
      exact ⟨t', rfl, ht⟩

/-- Where the depth, counted from `d`, is back to zero without having been below, no
parenthesis is open: there both texts can be cut. -/
theorem append_left {d : Int} {a t u : Text} (h : Agree (a ++ t) u) (ha : all.Above d a)
    (hd : d + all.depth a = 0) : ∃ a' t', u = a' ++ t' ∧ Agree a a' ∧ Agree t t' := by
  generalize hat : a ++ t = s at h
  induction h generalizing d a with
  | nil =>
      obtain ⟨rfl, rfl⟩ := List.append_eq_nil_iff.1 hat
      exact ⟨[], [], rfl, .nil, .nil⟩
  | cons c hs ih =>
      cases a with
      | nil =>
          subst hat
          exact ⟨[], _, rfl, .nil, .cons c hs⟩
      | cons e a =>
          obtain ⟨rfl, rfl⟩ : e = c ∧ a ++ t = _ := by simpa using hat
          rw [depth_cons] at hd
          obtain ⟨a', t', rfl, haa, htt⟩ := ih ha.2 (by omega) rfl
          exact ⟨e :: a', t', rfl, .cons e haa, htt⟩
  | @paren x x' s s' c hx hx' hc hs ih =>
      cases a with
      | nil =>
          subst hat
          exact ⟨[], _, rfl, .nil, .paren hx hx' hc hs⟩
      | cons e a =>
          obtain ⟨rfl, hat'⟩ : e = '(' ∧ a ++ t = x ++ c :: s := by simpa using hat
          have hw : all.weight '(' = 1 := by decide
          rw [depth_cons, hw] at hd
          rcases List.append_eq_append_iff.1 hat' with ⟨w, rfl, hw'⟩ | ⟨w, rfl, hw'⟩
          · -- A cut inside the parentheses is at a positive depth.
            have h1 := (above_append.1 hx.above).1.nonneg_end
            have h2 := ha.nonneg
            omega
          · cases w with
            | nil =>
                have h1 := hx.depth_eq
                have h2 := ha.nonneg
                rw [List.append_nil] at hd
                omega
            | cons e w =>
                obtain ⟨rfl, rfl⟩ : c = e ∧ s = w ++ t := by simpa using hw'
                have hwc := weight_of_isClosing hc
                have haw : all.Above d w := by
                  have hlevel := (above_append.1 ha.2).2.2
                  rw [hx.depth_eq, hw, hwc] at hlevel
                  exact hlevel.mono (by omega)
                have hdw : d + all.depth w = 0 := by
                  rw [depth_append, depth_cons, hx.depth_eq, hwc] at hd
                  omega
                obtain ⟨w', t', rfl, hww, htt⟩ := ih haw hdw rfl
                exact ⟨'(' :: (x' ++ c :: w'), t', by simp, .paren hx hx' hc hww, htt⟩

/-! ## What both texts share -/

theorem lastFrom_eq {t t' : Text} (h : Agree t t') (prev : Option Char) :
    Text.lastFrom prev t = Text.lastFrom prev t' := by
  induction h generalizing prev with
  | nil => rfl
  | cons c _ ih => exact ih (some c)
  | @paren x x' t t' c _ _ _ _ ih =>
      rw [Text.lastFrom_cons, Text.lastFrom_cons, Text.lastFrom_append, Text.lastFrom_append,
        Text.lastFrom_cons, Text.lastFrom_cons, ih]

theorem getLast?_eq {t t' : Text} (h : Agree t t') : t.getLast? = t'.getLast? := by
  rw [← Text.lastFrom_none, ← Text.lastFrom_none, h.lastFrom_eq]

theorem head?_eq {t t' : Text} (h : Agree t t') : t.head? = t'.head? := by
  cases h <;> rfl

theorem depth_eq {t t' : Text} (h : Agree t t') : all.depth t = all.depth t' := by
  induction h with
  | nil => rfl
  | cons c _ ih => rw [depth_cons, depth_cons, ih]
  | paren hx hx' _ _ ih =>
      simp only [depth_cons, depth_append, hx.depth_eq, hx'.depth_eq, ih]

theorem above {t t' : Text} (h : Agree t t') {d : Int} (ht : all.Above d t) :
    all.Above d t' := by
  induction h generalizing d with
  | nil => exact ht
  | cons c _ ih => exact ⟨ht.1, ih ht.2⟩
  | paren hx hx' _ _ ih =>
      have hw : all.weight '(' = 1 := by decide
      have hrest := (above_append.1 ht.2).2
      rw [hx.depth_eq] at hrest
      refine ⟨ht.1, above_append.2 ⟨hx'.above.mono (by have := ht.1; omega), ?_⟩⟩
      rw [hx'.depth_eq]
      exact ⟨hrest.1, ih hrest.2⟩

theorem balanced {t t' : Text} (h : Agree t t') (ht : all.Balanced t) : all.Balanced t' :=
  ⟨h.above ht.above, by rw [← h.depth_eq, ht.depth_eq]⟩

/-- Above depth zero no comma separates. -/
theorem separators_eq_zero {d : Int} {t : Text} (ht : all.Above d t) :
    separators (d + 1) t = 0 := by
  induction t generalizing d with
  | nil => rfl
  | cons c t ih =>
      have h0 := ht.1
      rw [separators, if_neg (by omega), show d + 1 + all.weight c = d + all.weight c + 1 by omega,
        ih ht.2]

theorem separators_eq {t t' : Text} (h : Agree t t') {d : Int} (ht : all.Above d t) :
    separators d t = separators d t' := by
  induction h generalizing d with
  | nil => rfl
  | cons c _ ih => rw [separators, separators, ih ht.2]
  | paren hx hx' _ _ ih =>
      have hw : all.weight '(' = 1 := by decide
      have h0 := ht.1
      have hrest := (above_append.1 ht.2).2.2
      rw [hx.depth_eq] at hrest
      simp only [separators, separators_append, hw, hx.depth_eq, hx'.depth_eq,
        separators_eq_zero (hx.above.mono h0), separators_eq_zero (hx'.above.mono h0)]
      rw [hw] at hrest
      rw [ih hrest]

/-- Both texts can be cut behind a balanced text and a closing bracket. -/
theorem balanced_left {x r u : Text} {c : Char} (h : Agree (x ++ c :: r) u)
    (hx : all.Balanced x) (hc : all.isClosing c = true) :
    ∃ x' r', u = x' ++ c :: r' ∧ Agree x x' ∧ Agree r r' ∧ all.Balanced x' := by
  obtain ⟨x', u', rfl, hxx, hu⟩ := h.append_left hx.above (by rw [hx.depth_eq]; rfl)
  have hne : c ≠ '(' := by
    rintro rfl
    cases hc
  obtain ⟨r', rfl, hrr⟩ := hu.cons_left hne
  exact ⟨x', r', rfl, hxx, hrr, hxx.balanced hx⟩

/-! ## What is decided alike -/

/-- Blanks hold no parenthesis. -/
theorem paren_not_mem_of_isBlank {b : Text} (hb : ∀ c ∈ b, isBlank c = true) : '(' ∉ b :=
  fun h => ne_of_isBlank (hb _ h) (by decide) rfl

/-- The objects among the arguments correspond to each other. -/
theorem objectArgument {x x' y b z : Text} {c : Char} (h : Agree x x')
    (hobj : ObjectArgument x y b c z) :
    ∃ y' b' z', ObjectArgument x' y' b' c z' ∧ Agree b b' ∧
      separators 0 y = separators 0 y' := by
  obtain ⟨rfl, ⟨a, w, rfl, ha, hlast, hw⟩, hb, hc⟩ := hobj
  have hblank : ∀ e ∈ w, isBlank e = true := fun e he => isBlank_of_isAsciiBlank (hw e he)
  rw [List.append_assoc] at h
  -- Cut the second text where the first one is cut: behind the arguments before, behind the
  -- blanks, behind the brace and at the bracket that closes it.
  obtain ⟨a', t₁, rfl, haa, h₁⟩ := h.append_left ha.above (by rw [ha.depth_eq]; rfl)
  obtain ⟨t₂, rfl, h₂⟩ := h₁.plain_left (paren_not_mem_of_isBlank hblank)
  obtain ⟨t₃, rfl, h₃⟩ := h₂.cons_left (by decide)
  obtain ⟨b', z', rfl, hbb, -, hb'⟩ := h₃.balanced_left hb hc
  refine ⟨a' ++ w, b', z', ⟨by simp, ⟨a', w, rfl, haa.balanced ha, ?_, hw⟩, hb', hc⟩, hbb, ?_⟩
  · refine hlast.imp (fun hnil => ?_) (fun hcomma => ?_)
    · subst hnil
      cases haa
      rfl
    · rw [← haa.getLast?_eq, hcomma]
  · rw [separators_append, separators_append, haa.separators_eq ha.above, haa.depth_eq]

/-- The assign blocks of two objects correspond to each other. -/
theorem assignBlock {b b' u k x w : Text} {c : Char} (h : Agree b b')
    (hblock : AssignBlock b u k x c w) :
    ∃ u' x' w', AssignBlock b' u' k x' c w' ∧ Agree x x' := by
  obtain ⟨rfl, hu, hclear, hk, hx, hc⟩ := hblock
  have hkey : '(' ∉ k := fun hm => absurd (hk.weight_eq_zero hm) (by decide)
  obtain ⟨u', t₁, rfl, huu, h₁⟩ := h.append_left hu.above (by rw [hu.depth_eq]; rfl)
  obtain ⟨t₂, rfl, h₂⟩ := h₁.plain_left hkey
  obtain ⟨t₃, rfl, h₃⟩ := h₂.cons_left (by decide)
  obtain ⟨x', w', rfl, hxx, -, hx'⟩ := h₃.balanced_left hx hc
  exact ⟨u', x', w', ⟨rfl, huu.balanced hu, huu.getLast?_eq ▸ hclear, hk, hx', hc⟩, hxx⟩

/-- The entries of two blocks correspond to each other. -/
theorem hasEntry {x x' : Text} (marker : Identifier) (h : Agree x x')
    (hentry : HasEntry x marker.text) : HasEntry x' marker.text := by
  obtain ⟨y, z, rfl, hy, hclear, hz⟩ := hentry
  obtain ⟨y', v, rfl, hyy, hv⟩ := h.append_left hy.above (by rw [hy.depth_eq]; rfl)
  obtain ⟨z', rfl, hzz⟩ := hv.plain_left (marker.not_mem_text (by decide))
  exact ⟨y', z', rfl, hyy.balanced hy, hyy.getLast?_eq ▸ hclear, hzz.head?_eq ▸ hz⟩

theorem marked {x x' : Text} (marker : Identifier) (h : Agree x x')
    (hm : Marked x marker.text) : Marked x' marker.text := by
  obtain ⟨y, b, c, z, hobj, u, k, v, e, w, hblock, hentry⟩ := hm
  obtain ⟨y', b', z', hobj', hbb, -⟩ := h.objectArgument hobj
  obtain ⟨u', v', w', hblock', hvv⟩ := hbb.assignBlock hblock
  exact ⟨y', b', c, z', hobj', u', k, v', e, w', hblock', hvv.hasEntry marker hentry⟩

/-- **Whether a call is marked does not depend on what stands in parentheses.** -/
theorem marked_iff {x x' : Text} (marker : Identifier) (h : Agree x x') :
    Marked x marker.text ↔ Marked x' marker.text :=
  ⟨h.marked marker, h.symm.marked marker⟩

/-- **Whether a call is closed does not depend on what stands in parentheses.** -/
theorem calls {h k k' x r : Text} {c : Char} (hk : Agree k k')
    (hs : Calls (h ++ '(' :: k) h x c r) :
    ∃ x' r', Calls (h ++ '(' :: k') h x' c r' ∧ Agree x x' ∧ Agree r r' := by
  obtain ⟨heq, hh, hx, hc⟩ := hs
  obtain rfl : k = x ++ c :: r := by simpa using heq
  obtain ⟨x', r', rfl, hxx, hrr, hx'⟩ := hk.balanced_left hx hc
  exact ⟨x', r', ⟨rfl, hh, hx', hc⟩, hxx, hrr⟩

/-- A closed call stays closed, by the same bracket. -/
theorem exists_calls {s s' h x r : Text} {c : Char} (ha : Agree s s') (hs : Calls s h x c r) :
    ∃ x' r', Calls s' h x' c r' := by
  obtain ⟨rfl, hh, hx, hc⟩ := hs
  obtain ⟨u, rfl, hu⟩ := ha.plain_left hh
  generalize hk : x ++ c :: r = k at hu
  -- The texts agree character by character behind the parenthesis, or it is one of those with
  -- another text inside; then its list is the one of the call.
  cases hu with
  | cons _ hk' =>
      subst hk
      obtain ⟨x', r', hs', -, -⟩ := hk'.calls ⟨rfl, hh, hx, hc⟩
      exact ⟨x', r', hs'⟩
  | @paren y y' t t' e hy hy' he ht =>
      obtain ⟨-, rfl, -⟩ := hx.cut_unique hy hc he hk
      exact ⟨y', t', ⟨rfl, hh, hy', hc⟩⟩

/-- A call starts at both texts or at none. -/
theorem isCall_eq {t t' : Text} (name : Identifier) (h : Agree t t') (prev : Option Char) :
    isCall name prev t = isCall name prev t' := by
  have himp : ∀ {t t' : Text}, Agree t t' → isCall name prev t = true →
      isCall name prev t' = true := by
    intro t t' h hcall
    obtain ⟨hclear, q, k, hq, rfl⟩ := isCall_iff.1 hcall
    obtain ⟨u, rfl, hu⟩ := h.plain_left hq.not_mem
    refine isCall_iff.2 ⟨hclear, q, ?_⟩
    cases hu with
    | cons _ _ => exact ⟨_, hq, rfl⟩
    | paren _ _ _ _ => exact ⟨_, hq, rfl⟩
  rw [Bool.eq_iff_iff]
  exact ⟨himp h, himp h.symm⟩

end Agree

end Stylewire
