import Stylewire.Proofs.Nesting
import Stylewire.Proofs.Occurrence

set_option autoImplicit false

/-! # Partners in a nested text

The search for a closing bracket counts depths and looks at no kinds. Here it is compared with a
matcher that does look at them. `pairs?` reads a text once, with the brackets that are still open
on a stack. A closing bracket makes a pair with the bracket on top, and if the two are not of one
kind, the matcher fails. So it succeeds for the nested texts and for no others
(`isSome_pairs?_iff`).

In a nested text the pairs of the matcher, the pairs of the grammar (`PartnersAt`) and the pairs
that counting finds are the same, and for a brace it makes no difference whether all brackets are
counted or only the braces (`closingByte?_finds_partner`). All places are byte offsets.
-/

namespace Stylewire

open Brackets

/-! ## The closing bracket in a text put together -/

section Parts

variable {s : Brackets}

/-- A character that changes no depth is no bracket. -/
theorem not_bracket_of_weight {a : Char} (h : s.weight a = 0) :
    s.isOpening a = false ∧ s.isClosing a = false := by
  rw [← Bool.not_eq_true, ← Bool.not_eq_true]
  constructor
  · intro hopen
    rw [weight_of_isOpening hopen] at h
    omega
  · intro hclose
    rw [weight_of_isClosing hclose] at h
    omega

/-- The first character may be the opening bracket, or the search lies behind it. -/
theorem closingByte?_cons_iff {a : Char} {t : Text} {i j : Nat} :
    s.closingByte? (a :: t) i = some j ↔
      (i = 0 ∧ s.isOpening a = true ∧ ∃ (x : Text) (c : Char) (r : Text),
        t = x ++ c :: r ∧ j = 1 + x.byteSize ∧ s.Balanced x ∧ s.isClosing c = true) ∨
      ∃ k m, i = a.utf8Size + k ∧ j = a.utf8Size + m ∧ s.closingByte? t k = some m := by
  simp only [closingByte?_eq_some_iff]
  constructor
  · rintro ⟨p, o, x, c, r, heq, rfl, rfl, ho, hx, hc⟩
    cases p with
    | nil =>
        obtain ⟨rfl, rfl⟩ := List.cons.inj heq
        refine Or.inl ⟨rfl, ho, x, c, r, rfl, ?_, hx, hc⟩
        show 0 + 1 + x.byteSize = 1 + x.byteSize
        omega
    | cons b p =>
        obtain ⟨rfl, rfl⟩ := List.cons.inj heq
        refine Or.inr ⟨Text.byteSize p, Text.byteSize p + 1 + x.byteSize, rfl, ?_, p, o, x, c, r,
          rfl, rfl, rfl, ho, hx, hc⟩
        show a.utf8Size + Text.byteSize p + 1 + x.byteSize = _
        omega
  · rintro (⟨rfl, ho, x, c, r, rfl, rfl, hx, hc⟩ |
      ⟨k, m, rfl, rfl, p, o, x, c, r, rfl, rfl, rfl, ho, hx, hc⟩)
    · exact ⟨[], a, x, c, r, rfl, rfl, by omega, ho, hx, hc⟩
    · exact ⟨a :: p, o, x, c, r, rfl, rfl, by omega, ho, hx, hc⟩

/-- A character that is no opening bracket moves what is found behind it. -/
theorem closingByte?_cons_of_not_isOpening {a : Char} (ha : s.isOpening a = false) {t : Text}
    {i j : Nat} :
    s.closingByte? (a :: t) i = some j ↔
      ∃ k m, i = a.utf8Size + k ∧ j = a.utf8Size + m ∧ s.closingByte? t k = some m := by
  rw [closingByte?_cons_iff, ha]
  simp

/-- A text that closes all it opens hides nothing from what follows it, and needs nothing of
it. -/
theorem closingByte?_append_of_closed {t : Text} (h : s.Closed t) {u : Text} {i j : Nat} :
    s.closingByte? (t ++ u) i = some j ↔
      s.closingByte? t i = some j ∨
        ∃ k m, i = t.byteSize + k ∧ j = t.byteSize + m ∧ s.closingByte? u k = some m := by
  induction t generalizing i j with
  | nil =>
      have hnone : s.closingByte? [] i ≠ some j := by
        rw [Ne, closingByte?_eq_some_iff]
        rintro ⟨p, o, x, c, r, heq, -⟩
        simp at heq
      simp only [List.nil_append, hnone, false_or]
      show _ ↔ ∃ k m, i = 0 + k ∧ j = 0 + m ∧ _
      simp
  | cons a t ih =>
      -- A bracket opened here is closed in `t`, and its closing bracket there is the only one.
      have hhere : (s.isOpening a = true ∧ ∃ (x : Text) (c : Char) (r : Text),
          t ++ u = x ++ c :: r ∧ j = 1 + x.byteSize ∧ s.Balanced x ∧ s.isClosing c = true) ↔
          (s.isOpening a = true ∧ ∃ (x : Text) (c : Char) (r : Text),
            t = x ++ c :: r ∧ j = 1 + x.byteSize ∧ s.Balanced x ∧ s.isClosing c = true) := by
        constructor
        · rintro ⟨ha, x, c, r, heq, rfl, hx, hc⟩
          obtain ⟨y, e, q, rfl, hy, he⟩ := h.exists_closing ha
          rw [List.append_assoc, List.cons_append] at heq
          obtain ⟨rfl, rfl, -⟩ := hy.cut_unique hx he hc heq
          exact ⟨ha, y, e, q, rfl, rfl, hy, he⟩
        · rintro ⟨ha, x, c, r, rfl, rfl, hx, hc⟩
          exact ⟨ha, x, c, r ++ u, by simp, rfl, hx, hc⟩
      have hsize : Text.byteSize (a :: t) = a.utf8Size + Text.byteSize t := rfl
      rw [List.cons_append, closingByte?_cons_iff, closingByte?_cons_iff, hhere, or_assoc, hsize]
      refine or_congr_right ?_
      constructor
      · rintro ⟨k, m, rfl, rfl, hfound⟩
        rcases (ih h.2).1 hfound with hleft | ⟨k, m, rfl, rfl, hright⟩
        · exact Or.inl ⟨k, m, rfl, rfl, hleft⟩
        · exact Or.inr ⟨k, m, by omega, by omega, hright⟩
      · rintro (⟨k, m, rfl, rfl, hleft⟩ | ⟨k, m, rfl, rfl, hright⟩)
        · exact ⟨k, m, rfl, rfl, (ih h.2).2 (Or.inl hleft)⟩
        · exact ⟨Text.byteSize t + k, Text.byteSize t + m, by omega, by omega,
            (ih h.2).2 (Or.inr ⟨k, m, rfl, rfl, hright⟩)⟩

/-- The brackets of a group: the outer pair, the pairs inside, and those behind. -/
theorem closingByte?_group_iff {o c : Char} (ho : s.isOpening o = true) {x t : Text}
    (hx : s.Balanced x) (hc : s.isClosing c = true) {i j : Nat} :
    s.closingByte? (o :: (x ++ c :: t)) i = some j ↔
      (i = 0 ∧ j = 1 + x.byteSize) ∨
      (∃ k m, i = 1 + k ∧ j = 1 + m ∧ s.closingByte? x k = some m) ∨
      ∃ k m, i = 2 + x.byteSize + k ∧ j = 2 + x.byteSize + m ∧ s.closingByte? t k = some m := by
  have hsize : o.utf8Size = 1 := Text.byteSize_ascii (isAscii_of_isOpening ho) []
  have hsize' : c.utf8Size = 1 := Text.byteSize_ascii (isAscii_of_isClosing hc) []
  rw [closingByte?_cons_iff, hsize]
  refine or_congr ?_ ?_
  · constructor
    · rintro ⟨rfl, -, y, e, r, heq, rfl, hy, he⟩
      obtain ⟨rfl, -, -⟩ := hx.cut_unique hy hc he heq
      exact ⟨rfl, rfl⟩
    · rintro ⟨rfl, rfl⟩
      exact ⟨rfl, ho, x, c, t, rfl, rfl, hx, hc⟩
  · simp only [closingByte?_append_of_closed hx.closed,
      closingByte?_cons_of_not_isOpening (isOpening_eq_false_of_isClosing hc), hsize']
    constructor
    · rintro ⟨k, m, rfl, rfl, hin | ⟨k, m, rfl, rfl, k, m, rfl, rfl, hbehind⟩⟩
      · exact Or.inl ⟨k, m, rfl, rfl, hin⟩
      · exact Or.inr ⟨k, m, by omega, by omega, hbehind⟩
    · rintro (⟨k, m, rfl, rfl, hin⟩ | ⟨k, m, rfl, rfl, hbehind⟩)
      · exact ⟨k, m, rfl, rfl, Or.inl hin⟩
      · exact ⟨x.byteSize + (1 + k), x.byteSize + (1 + m), by omega, by omega,
          Or.inr ⟨1 + k, 1 + m, rfl, rfl, k, m, rfl, rfl, hbehind⟩⟩

end Parts

namespace Brackets

/-! ## The stack matcher -/

/-- The pairs of brackets of a text that starts at a byte offset, each with the offset of the
opening bracket first. The brackets that are open stand on the stack, each as the closing bracket
to come and the offset of the opening one. -/
def pairsFrom : (stack : List (Char × Nat)) → (offset : Nat) → Text → Option (List (Nat × Nat))
  | [], _, [] => some []
  | _ :: _, _, [] => none
  | stack, n, a :: t =>
      match partner? a with
      | some c => pairsFrom ((c, n) :: stack) (n + a.utf8Size) t
      | none =>
          if all.isClosing a then
            match stack with
            | [] => none
            | (c, i) :: rest =>
                if a = c then (pairsFrom rest (n + a.utf8Size) t).map ((i, n) :: ·) else none
          else pairsFrom stack (n + a.utf8Size) t

/-- The pairs of brackets of a text, if every bracket is closed by its partner. -/
def pairs? (t : Text) : Option (List (Nat × Nat)) := pairsFrom [] 0 t

theorem pairsFrom_opening {o c : Char} (hc : partner? o = some c) (stack : List (Char × Nat))
    (n : Nat) (t : Text) :
    pairsFrom stack n (o :: t) = pairsFrom ((c, n) :: stack) (n + 1) t := by
  have hsize : o.utf8Size = 1 :=
    Text.byteSize_ascii (isAscii_of_isOpening (isOpening_of_partner? hc)) []
  rw [pairsFrom.eq_def]
  simp only [hc, hsize]

theorem pairsFrom_closing {a : Char} (ha : all.isClosing a = true) (e : Char × Nat)
    (stack : List (Char × Nat)) (n : Nat) (t : Text) :
    pairsFrom (e :: stack) n (a :: t) =
      if a = e.1 then (pairsFrom stack (n + 1) t).map ((e.2, n) :: ·) else none := by
  have hsize : a.utf8Size = 1 := Text.byteSize_ascii (isAscii_of_isClosing ha) []
  rw [pairsFrom.eq_def]
  simp only [partner?_eq_none (isOpening_eq_false_of_isClosing ha), ha, if_true, hsize]

theorem pairsFrom_closing_nil {a : Char} (ha : all.isClosing a = true) (n : Nat) (t : Text) :
    pairsFrom [] n (a :: t) = none := by
  rw [pairsFrom.eq_def]
  simp only [partner?_eq_none (isOpening_eq_false_of_isClosing ha), ha, if_true]

theorem pairsFrom_other {a : Char} (ha : all.weight a = 0) (stack : List (Char × Nat)) (n : Nat)
    (t : Text) : pairsFrom stack n (a :: t) = pairsFrom stack (n + a.utf8Size) t := by
  obtain ⟨hopen, hclose⟩ := not_bracket_of_weight ha
  rw [pairsFrom.eq_def]
  simp [partner?_eq_none hopen, hclose]

/-- The matcher gets to the end exactly if all brackets to come do come. -/
theorem isSome_pairsFrom_iff {stack : List (Char × Nat)} {n : Nat} {t : Text} :
    (pairsFrom stack n t).isSome = true ↔ awaited (stack.map Prod.fst) t = some [] := by
  induction t generalizing stack n with
  | nil =>
      cases stack with
      | nil => simp [pairsFrom, awaited]
      | cons e rest => simp [pairsFrom, awaited]
  | cons a t ih =>
      by_cases hopen : all.isOpening a = true
      · obtain ⟨c, hc⟩ := exists_partner? hopen
        rw [pairsFrom_opening hc, awaited_opening hc, ih, List.map_cons]
      · by_cases hclose : all.isClosing a = true
        · rw [awaited_closing hclose]
          cases stack with
          | nil => simp [pairsFrom_closing_nil hclose]
          | cons e rest =>
              rw [pairsFrom_closing hclose, List.map_cons, List.head?_cons, List.tail_cons]
              by_cases he : a = e.1
              · rw [if_pos he, if_pos (by rw [he]), Option.isSome_map, ih]
              · rw [if_neg he, if_neg (by simpa using Ne.symm he)]
                simp
        · have hweight : all.weight a = 0 := by simp [weight, hopen, hclose]
          rw [pairsFrom_other hweight, awaited_other hweight, ih]

/-- **The matcher succeeds for the nested texts only.** -/
theorem isSome_pairs?_iff {t : Text} : (pairs? t).isSome = true ↔ Nested t := by
  rw [pairs?, isSome_pairsFrom_iff, nested_iff]
  rfl

/-- A nested text adds its own pairs, whatever stands on the stack and follows. They are those
that counting finds. -/
theorem Nested.exists_pairsFrom {t : Text} (h : Nested t) (n : Nat) :
    ∃ own, (∀ stack u, pairsFrom stack n (t ++ u) =
        (pairsFrom stack (n + t.byteSize) u).map (own ++ ·)) ∧
      ∀ i j, (i, j) ∈ own ↔
        ∃ k m, i = n + k ∧ j = n + m ∧ all.closingByte? t k = some m := by
  induction h generalizing n with
  | nil =>
      refine ⟨[], fun stack u => ?_, fun i j => ?_⟩
      · show pairsFrom stack n u = (pairsFrom stack (n + 0) u).map ([] ++ ·)
        simp
      · simp [closingByte?_eq_some_iff]
  | @other a t ha _ ih =>
      have hopen := (not_bracket_of_weight ha).1
      obtain ⟨own, hrun, hown⟩ := ih (n + a.utf8Size)
      refine ⟨own, fun stack u => ?_, fun i j => ?_⟩
      · rw [List.cons_append, pairsFrom_other ha, hrun, Nat.add_assoc]
        rfl
      · rw [hown]
        simp only [closingByte?_cons_of_not_isOpening hopen]
        constructor
        · rintro ⟨k, m, rfl, rfl, hfound⟩
          exact ⟨a.utf8Size + k, a.utf8Size + m, by omega, by omega, k, m, rfl, rfl, hfound⟩
        · rintro ⟨k, m, rfl, rfl, k, m, rfl, rfl, hfound⟩
          exact ⟨k, m, by omega, by omega, hfound⟩
  | @group o c x t hc hx _ ihx iht =>
      have hopen := isOpening_of_partner? hc
      have hclose := isClosing_of_partner? hc
      have hsize : Text.byteSize (o :: (x ++ c :: t)) = 2 + x.byteSize + t.byteSize := by
        rw [Text.byteSize_ascii (isAscii_of_isOpening hopen), Text.byteSize_append,
          Text.byteSize_ascii (isAscii_of_isClosing hclose)]
        omega
      obtain ⟨inner, hinner, hmem⟩ := ihx (n + 1)
      obtain ⟨behind, hbehind, hmem'⟩ := iht (n + 1 + x.byteSize + 1)
      refine ⟨inner ++ (n, n + 1 + x.byteSize) :: behind, fun stack u => ?_, fun i j => ?_⟩
      · -- The opening bracket stands on the stack while the text inside is read.
        have hpop : ∀ k, pairsFrom ((c, n) :: stack) k (c :: (t ++ u)) =
            (pairsFrom stack (k + 1) (t ++ u)).map ((n, k) :: ·) := by
          intro k
          rw [pairsFrom_closing hclose, if_pos rfl]
        have hend : n + 1 + x.byteSize + 1 + t.byteSize = n + (2 + x.byteSize + t.byteSize) := by
          omega
        rw [List.cons_append, List.append_assoc, List.cons_append, pairsFrom_opening hc, hinner,
          hpop, hbehind, hend, hsize, Option.map_map, Option.map_map]
        congr 1
        funext rest
        simp
      · rw [List.mem_append, List.mem_cons, hmem, hmem', Prod.mk.injEq]
        simp only [closingByte?_group_iff hopen hx.balanced hclose]
        constructor
        · rintro (⟨k, m, rfl, rfl, hfound⟩ | ⟨rfl, rfl⟩ | ⟨k, m, rfl, rfl, hfound⟩)
          · exact ⟨1 + k, 1 + m, by omega, by omega, .inr (.inl ⟨k, m, rfl, rfl, hfound⟩)⟩
          · exact ⟨0, 1 + x.byteSize, by omega, by omega, .inl ⟨rfl, rfl⟩⟩
          · exact ⟨2 + x.byteSize + k, 2 + x.byteSize + m, by omega, by omega,
              .inr (.inr ⟨k, m, rfl, rfl, hfound⟩)⟩
        · rintro ⟨k, m, rfl, rfl, ⟨rfl, rfl⟩ | ⟨k, m, rfl, rfl, hfound⟩ | ⟨k, m, rfl, rfl, hfound⟩⟩
          · exact .inr (.inl ⟨by omega, by omega⟩)
          · exact .inl ⟨k, m, by omega, by omega, hfound⟩
          · exact .inr (.inr ⟨k, m, by omega, by omega, hfound⟩)

/-- **The stack matcher and counting find the same pairs** in a nested text. -/
theorem Nested.mem_pairs?_iff {t : Text} (h : Nested t) {pairs : List (Nat × Nat)}
    (hpairs : pairs? t = some pairs) {i j : Nat} :
    (i, j) ∈ pairs ↔ all.closingByte? t i = some j := by
  obtain ⟨own, hrun, hown⟩ := h.exists_pairsFrom 0
  have hpairs' : pairs? t = some own := by
    have hend := hrun [] []
    rw [List.append_nil] at hend
    rw [pairs?, hend, pairsFrom]
    simp
  obtain rfl : own = pairs := Option.some.inj (hpairs'.symm.trans hpairs)
  rw [hown]
  constructor
  · rintro ⟨k, m, rfl, rfl, hfound⟩
    rw [Nat.zero_add, Nat.zero_add]
    exact hfound
  · intro hfound
    exact ⟨i, j, by omega, by omega, hfound⟩

/-! ## Partners by the grammar -/

/-- The brackets at the two byte offsets are **partners**: they are of one kind, and a nested text
stands between them. -/
def PartnersAt (t : Text) (i j : Nat) : Prop :=
  ∃ (p : Text) (o : Char) (x : Text) (c : Char) (r : Text), t = p ++ o :: (x ++ c :: r) ∧
    i = p.byteSize ∧ j = i + 1 + x.byteSize ∧ partner? o = some c ∧ Nested x

/-- A bracket anywhere in a nested text is closed by its partner, behind a nested text. -/
theorem Nested.of_cut {t p x r : Text} {o c : Char} (h : Nested t)
    (ht : t = p ++ o :: (x ++ c :: r)) (ho : all.isOpening o = true) (hx : all.Balanced x)
    (hc : all.isClosing c = true) : partner? o = some c ∧ Nested x := by
  -- On the grammar: the cut lies at the start of a group, inside of it or behind it.
  induction h generalizing p r with
  | nil => simp at ht
  | @other a t ha _ ih =>
      cases p with
      | nil =>
          obtain ⟨rfl, -⟩ := List.cons.inj ht
          rw [weight_of_isOpening ho] at ha
          omega
      | cons b p => exact ih (List.cons.inj ht).2
  | @group o' c' y t hc' hy ht' ihy iht =>
      cases p with
      | nil =>
          have hgroup := hy.group hc' ht'
          rw [ht] at hgroup
          obtain ⟨hpartner, hnested, -⟩ := hgroup.of_group ho hx hc
          exact ⟨hpartner, hnested⟩
      | cons b p =>
          have hcut : y ++ c' :: t = p ++ o :: (x ++ c :: r) := (List.cons.inj ht).2
          have hne : o ≠ c' := by
            rintro rfl
            rw [isOpening_eq_false_of_isClosing (isClosing_of_partner? hc')] at ho
            cases ho
          rcases List.append_eq_append_iff.1 hcut with ⟨v, rfl, hv⟩ | ⟨v, rfl, hv⟩
          · cases v with
            | nil => exact absurd (List.cons.inj hv).1.symm hne
            | cons a v => exact iht (List.cons.inj hv).2
          · cases v with
            | nil => exact absurd (List.cons.inj hv).1 hne
            | cons a v =>
                -- The bracket is opened inside the group, so it is closed there.
                obtain ⟨rfl, hrest⟩ : o = a ∧ x ++ c :: r = v ++ c' :: t := by simpa using hv
                obtain ⟨z, e, q, rfl, hz, he⟩ :=
                  hy.balanced.closed.of_append_right.exists_closing ho
                rw [List.append_assoc, List.cons_append] at hrest
                obtain ⟨rfl, rfl, -⟩ := hx.cut_unique hz hc he hrest
                exact ihy rfl

/-- **Counting finds the partner.** -/
theorem Nested.closingByte?_iff {t : Text} (h : Nested t) {i j : Nat} :
    all.closingByte? t i = some j ↔ PartnersAt t i j := by
  rw [closingByte?_eq_some_iff]
  constructor
  · rintro ⟨p, o, x, c, r, ht, hi, hj, ho, hx, hc⟩
    obtain ⟨hpartner, hnested⟩ := h.of_cut ht ho hx hc
    exact ⟨p, o, x, c, r, ht, hi, hj, hpartner, hnested⟩
  · rintro ⟨p, o, x, c, r, ht, hi, hj, hpartner, hx⟩
    exact ⟨p, o, x, c, r, ht, hi, hj, isOpening_of_partner? hpartner, hx.balanced,
      isClosing_of_partner? hpartner⟩

/-- A nested text is balanced if only the braces are counted, too. -/
theorem Nested.balanced_braces {t : Text} (h : Nested t) : braces.Balanced t := by
  have hplain : ∀ {a : Char}, a ≠ '{' → a ≠ '}' → braces.Balanced [a] := by
    intro a hopen hclose
    refine Balanced.of_weight fun b hb => ?_
    obtain rfl := List.mem_singleton.1 hb
    simp [weight, isOpening, isClosing, hopen, hclose]
  induction h with
  | nil => exact Balanced.nil
  | @other a t ha _ ih =>
      have hopen : a ≠ '{' := by
        rintro rfl
        exact absurd ha (by decide)
      have hclose : a ≠ '}' := by
        rintro rfl
        exact absurd ha (by decide)
      exact (hplain hopen hclose).append ih
  | @group o c x t hc _ _ ihx iht =>
      by_cases ho : o = '{'
      · subst ho
        obtain rfl : '}' = c := Option.some.inj hc
        have hgroup := ihx.group (o := '{') (c := '}') rfl rfl
        simpa using hgroup.append iht
      · -- The brackets of the other kinds are characters like all others.
        have hbrackets : braces.Balanced [o] ∧ braces.Balanced [c] := by
          unfold partner? at hc
          split at hc
          · cases hc
            exact ⟨hplain (by decide) (by decide), hplain (by decide) (by decide)⟩
          · exact absurd rfl ho
          · cases hc
            exact ⟨hplain (by decide) (by decide), hplain (by decide) (by decide)⟩
          · cases hc
        exact hbrackets.1.append (ihx.append (hbrackets.2.append iht))

/-- An opening bracket of a nested text has a partner. -/
theorem Nested.exists_partnersAt {t : Text} (h : Nested t) {o : Char}
    (ho : all.isOpening o = true) {i : Nat} (hi : t.OccursAt [o] i) :
    ∃ (p x : Text) (c : Char) (r : Text), t = p ++ o :: (x ++ c :: r) ∧ i = p.byteSize ∧
      partner? o = some c ∧ Nested x := by
  obtain ⟨p, v, rfl, rfl⟩ := (Text.occursAt_iff (by simp)).1 hi
  obtain ⟨x, c, r, rfl, hx, hc⟩ := h.balanced.closed.of_append_right.exists_closing ho
  obtain ⟨hpartner, hnested⟩ := h.of_cut rfl ho hx hc
  exact ⟨p, x, c, r, rfl, rfl, hpartner, hnested⟩

/-- **Counting depths is matching brackets.** The stack matcher succeeds for the texts nested by
kind. In such a text its pairs are the partners of the grammar. Every opening bracket has one
partner, and counting finds it: a bracket of the same kind. For a brace, counting the braces alone
finds it as well. -/
theorem closingByte?_finds_partner (t : Text) :
    ((pairs? t).isSome = true ↔ Nested t) ∧
    (Nested t →
      (∀ pairs, pairs? t = some pairs → ∀ i j, (i, j) ∈ pairs ↔ PartnersAt t i j) ∧
      ∀ (o : Char) (i : Nat), all.isOpening o = true → t.OccursAt [o] i →
        ∃ (j : Nat) (c : Char), all.closingByte? t i = some j ∧ (∀ k, PartnersAt t i k ↔ k = j) ∧
          partner? o = some c ∧ t.OccursAt [c] j ∧
          (o = '{' → braces.closingByte? t i = all.closingByte? t i)) := by
  refine ⟨isSome_pairs?_iff, fun h => ⟨fun pairs hpairs i j => ?_, fun o i ho hi => ?_⟩⟩
  · rw [h.mem_pairs?_iff hpairs, h.closingByte?_iff]
  · obtain ⟨p, x, c, r, rfl, rfl, hpartner, hx⟩ := h.exists_partnersAt ho hi
    have hclose : all.closingByte? (p ++ o :: (x ++ c :: r)) p.byteSize =
        some (p.byteSize + 1 + x.byteSize) :=
      h.closingByte?_iff.2 ⟨p, o, x, c, r, rfl, rfl, rfl, hpartner, hx⟩
    refine ⟨p.byteSize + 1 + x.byteSize, c, hclose, fun k => ?_, hpartner, ?_, ?_⟩
    · rw [← h.closingByte?_iff, hclose, Option.some.injEq, eq_comm]
    · refine (Text.occursAt_iff (by simp)).2 ⟨p ++ o :: x, r, by simp, ?_⟩
      rw [Text.byteSize_append, Text.byteSize_ascii (isAscii_of_isOpening ho)]
      omega
    · rintro rfl
      obtain rfl : '}' = c := Option.some.inj hpartner
      rw [hclose]
      exact (closingByte?_append_iff rfl).2 ⟨x, '}', r, rfl, rfl, hx.balanced_braces, rfl⟩

/-- A text with all kinds of brackets, and a character of two bytes before them. -/
def layeredText : Text := "é(a[\x7bb\x7d], \x7bc: [()]\x7d)".toList

theorem closingByte?_finds_partner_layeredText :
    Nested layeredText ∧ layeredText.OccursAt ['{'] 11 ∧
      ∃ (j : Nat) (c : Char), all.closingByte? layeredText 11 = some j ∧
        (∀ k, PartnersAt layeredText 11 k ↔ k = j) ∧ partner? '{' = some c ∧
        layeredText.OccursAt [c] j ∧
        braces.closingByte? layeredText 11 = all.closingByte? layeredText 11 := by
  have hnested : Nested layeredText := by decide
  have hbrace : layeredText.OccursAt ['{'] 11 :=
    Text.occursAt_append "é(a[\x7bb\x7d], ".toList ['{'] "c: [()]\x7d)".toList
  obtain ⟨j, c, hclose, hunique, hpartner, hat, hbraces⟩ :=
    ((closingByte?_finds_partner layeredText).2 hnested).2 '{' 11 rfl hbrace
  exact ⟨hnested, hbrace, j, c, hclose, hunique, hpartner, hat, hbraces rfl⟩

end Brackets

end Stylewire
