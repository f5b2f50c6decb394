import Stylewire.Proofs.Injection

set_option autoImplicit false

/-! # Brackets nested by kind

Depths count brackets of all kinds alike. Here the kinds are compared: a text is *nested* if
every opening bracket is closed by its partner, with a nested text in between (`Nested`). The
grammar is decided by a walk that keeps the list of the closing brackets to come (`awaited`,
`nested_iff`).

Nested texts are balanced, and a cut that the depth allows is one the grammar allows: both parts
of a nested text cut at depth zero are nested (`Nested.of_append`), and the closing bracket found
by depth is the partner of the opening one (`Nested.of_group`).
-/

namespace Stylewire

namespace Brackets

/-- The bracket that closes an opening bracket of the same kind. -/
def partner? : Char → Option Char
  | '(' => some ')'
  | '{' => some '}'
  | '[' => some ']'
  | _ => none

theorem isOpening_of_partner? {o c : Char} (h : partner? o = some c) : all.isOpening o = true := by
  unfold partner? at h
  split at h <;> cases h <;> rfl

theorem isClosing_of_partner? {o c : Char} (h : partner? o = some c) : all.isClosing c = true := by
  unfold partner? at h
  split at h <;> cases h <;> rfl

theorem partner?_eq_none {c : Char} (h : all.isOpening c = false) : partner? c = none := by
  cases hp : partner? c with
  | none => rfl
  | some e =>
      rw [isOpening_of_partner? hp] at h
      cases h

theorem exists_partner? {o : Char} (h : all.isOpening o = true) : ∃ c, partner? o = some c := by
  simp only [isOpening, Bool.or_eq_true, beq_iff_eq] at h
  rcases h with (rfl | rfl) | rfl <;> exact ⟨_, rfl⟩

/-- A text whose brackets are closed by their partners, in the order in which they are open. -/
inductive Nested : Text → Prop
  | nil : Nested []
  | other {c : Char} {t : Text} (hc : all.weight c = 0) (ht : Nested t) : Nested (c :: t)
  | group {o c : Char} {x t : Text} (hc : partner? o = some c) (hx : Nested x) (ht : Nested t) :
      Nested (o :: (x ++ c :: t))

namespace Nested

theorem append {t u : Text} (ht : Nested t) (hu : Nested u) : Nested (t ++ u) := by
  induction ht with
  | nil => exact hu
  | other hc _ ih => exact ih.other hc
  | @group o c x t hc hx _ _ ih =>
      have hgroup := hx.group hc ih
      simpa using hgroup

theorem of_weight {t : Text} (h : ∀ c ∈ t, all.weight c = 0) : Nested t := by
  induction t with
  | nil => exact nil
  | cons c t ih => exact (ih fun a ha => h a (by simp [ha])).other (h c (by simp))

theorem of_all {t : Text} (h : (t.all fun c => decide (all.weight c = 0)) = true) : Nested t :=
  of_weight (forall_mem_of_all h)

theorem balanced {t : Text} (h : Nested t) : all.Balanced t := by
  induction h with
  | nil => exact Balanced.nil
  | @other c t hc _ ih =>
      have hone : all.Balanced [c] := Balanced.of_weight (by simpa using hc)
      exact hone.append ih
  | @group o c x t hc _ _ ihx iht =>
      have hgroup := ihx.group (isOpening_of_partner? hc) (isClosing_of_partner? hc)
      simpa using hgroup.append iht

/-- **A bracket found by depth is the partner.** -/
theorem of_group {o c : Char} {x t : Text} (h : Nested (o :: (x ++ c :: t)))
    (ho : all.isOpening o = true) (hx : all.Balanced x) (hc : all.isClosing c = true) :
    partner? o = some c ∧ Nested x ∧ Nested t := by
  generalize hs : o :: (x ++ c :: t) = s at h
  cases h with
  | nil => cases hs
  | other hw _ =>
      obtain ⟨rfl, -⟩ := List.cons.inj hs
      rw [weight_of_isOpening ho] at hw
      cases hw
  | group he hy hr =>
      obtain ⟨rfl, hrest⟩ := List.cons.inj hs
      obtain ⟨rfl, rfl, rfl⟩ := hx.cut_unique hy.balanced hc (isClosing_of_partner? he) hrest
      exact ⟨he, hy, hr⟩

/-- **A cut at depth zero** cuts no pair of brackets. -/
theorem of_append {t u : Text} (h : Nested (t ++ u)) (ht : all.depth t = 0) :
    Nested t ∧ Nested u := by
  generalize hs : t ++ u = s at h
  induction h generalizing t with
  | nil =>
      obtain ⟨rfl, rfl⟩ := List.append_eq_nil_iff.1 hs
      exact ⟨nil, nil⟩
  | @other c s hc hrest ih =>
      cases t with
      | nil =>
          obtain rfl : u = c :: s := hs
          exact ⟨nil, hrest.other hc⟩
      | cons a t =>
          obtain ⟨rfl, htail⟩ : a = c ∧ t ++ u = s := by simpa using hs
          rw [depth_cons, hc, Int.zero_add] at ht
          obtain ⟨hleft, hright⟩ := ih ht htail
          exact ⟨hleft.other hc, hright⟩
  | @group o c x s hc hx hrest _ ih =>
      cases t with
      | nil =>
          obtain rfl : u = o :: (x ++ c :: s) := hs
          exact ⟨nil, hx.group hc hrest⟩
      | cons a t =>
          obtain ⟨rfl, htail⟩ : a = o ∧ t ++ u = x ++ c :: s := by simpa using hs
          -- The first part closes the bracket it opens, and there is only one way to do so.
          have hbal : all.Balanced (a :: t) := by
            have hall := (hx.group hc hrest).balanced
            rw [← htail, ← List.cons_append] at hall
            exact hall.of_append_left ht
          obtain ⟨y, e, r, rfl, hy, he⟩ :=
            hbal.closed.exists_closing (isOpening_of_partner? hc)
          rw [List.append_assoc, List.cons_append] at htail
          obtain ⟨rfl, rfl, rfl⟩ :=
            hy.cut_unique hx.balanced he (isClosing_of_partner? hc) htail
          have hr : all.depth r = 0 := by
            rw [depth_cons, depth_append, depth_cons, hy.depth_eq,
              weight_of_isOpening (isOpening_of_partner? hc), weight_of_isClosing he] at ht
            omega
          obtain ⟨hleft, hright⟩ := ih hr rfl
          exact ⟨hx.group hc hleft, hright⟩

theorem trimEnd {t : Text} (h : Nested t) : Nested t.trimEnd := by
  obtain ⟨b, hb, -, -⟩ := Text.trimEnd_spec t
  have hbal := balanced_trimEnd h.balanced
  rw [hb] at h
  exact (h.of_append hbal.depth_eq).1

theorem trimStart {t : Text} (h : Nested t) : Nested t.trimStart := by
  obtain ⟨b, hb, hblank, -⟩ := Text.trimStart_spec t
  rw [hb] at h
  exact (h.of_append (balanced_blanks hblank).depth_eq).2

theorem trim {t : Text} (h : Nested t) : Nested t.trim := h.trimStart.trimEnd

end Nested

/-! ## Deciding the grammar -/

/-- The closing brackets that are to come behind a text, the next one first, if those in `stack`
are to come before it. The walk fails at a closing bracket that is not the next one to come. -/
def awaited : (stack : List Char) → Text → Option (List Char)
  | stack, [] => some stack
  | stack, c :: t =>
      match partner? c with
      | some e => awaited (e :: stack) t
      | none =>
          if all.isClosing c then
            match stack with
            | [] => none
            | e :: rest => if c = e then awaited rest t else none
          else awaited stack t

theorem awaited_opening {o c : Char} (hc : partner? o = some c) (stack : List Char) (t : Text) :
    awaited stack (o :: t) = awaited (c :: stack) t := by
  rw [awaited.eq_def]
  simp only [hc]

theorem awaited_closing {c : Char} (hc : all.isClosing c = true) (stack : List Char) (t : Text) :
    awaited stack (c :: t) =
      if stack.head? = some c then awaited stack.tail t else none := by
  rw [awaited.eq_def]
  simp only [partner?_eq_none (isOpening_eq_false_of_isClosing hc), hc, if_true]
  cases stack with
  | nil => rfl
  | cons e rest => simp [eq_comm]

theorem awaited_other {c : Char} (hc : all.weight c = 0) (stack : List Char) (t : Text) :
    awaited stack (c :: t) = awaited stack t := by
  have hopen : all.isOpening c = false := by
    rw [← Bool.not_eq_true]
    intro h
    rw [weight_of_isOpening h] at hc
    cases hc
  have hclose : ¬ all.isClosing c = true := by
    intro h
    rw [weight_of_isClosing h] at hc
    cases hc
  rw [awaited.eq_def]
  simp only [partner?_eq_none hopen, if_neg hclose]

/-- A nested text leaves the brackets to come as they are. -/
theorem Nested.awaited_append {t : Text} (h : Nested t) (stack : List Char) (u : Text) :
    awaited stack (t ++ u) = awaited stack u := by
  induction h generalizing stack u with
  | nil => rfl
  | other hc _ ih => rw [List.cons_append, awaited_other hc, ih]
  | group hc _ _ ihx iht =>
      rw [List.cons_append, awaited_opening hc, List.append_assoc, ihx, List.cons_append,
        awaited_closing (isClosing_of_partner? hc), List.head?_cons, if_pos rfl, List.tail_cons,
        iht]

/-- The text holds the closing brackets in `stack`, in this order, with nested texts around
them. -/
def Closes : (stack : List Char) → Text → Prop
  | [], t => Nested t
  | e :: rest, t => ∃ x r, t = x ++ e :: r ∧ Nested x ∧ Closes rest r

theorem Closes.append {stack : List Char} {t u : Text} (hu : Closes stack u) (ht : Nested t) :
    Closes stack (t ++ u) := by
  cases stack with
  | nil => exact ht.append hu
  | cons e rest =>
      obtain ⟨x, r, rfl, hx, hr⟩ := hu
      exact ⟨t ++ x, r, by simp, ht.append hx, hr⟩

theorem closes_of_awaited {stack : List Char} {t : Text} (h : awaited stack t = some []) :
    Closes stack t := by
  induction t generalizing stack with
  | nil =>
      obtain rfl : stack = [] := Option.some.inj h
      exact Nested.nil
  | cons c t ih =>
      by_cases hopen : all.isOpening c = true
      · -- The rest holds the partner first, so a group stands before what closes `stack`.
        obtain ⟨e, he⟩ := exists_partner? hopen
        rw [awaited_opening he] at h
        obtain ⟨x, r, rfl, hx, hr⟩ := ih h
        have hclosed := hr.append (hx.group he Nested.nil)
        simpa using hclosed
      · by_cases hclose : all.isClosing c = true
        · rw [awaited_closing hclose] at h
          split at h
          · rename_i hhead
            obtain ⟨rest, rfl⟩ := List.head?_eq_some_iff.1 hhead
            exact ⟨[], t, rfl, Nested.nil, ih h⟩
          · cases h
        · have hw : all.weight c = 0 := by simp [weight, hopen, hclose]
          rw [awaited_other hw] at h
          exact (ih h).append (Nested.nil.other hw)

/-- **The walk decides the grammar.** -/
theorem nested_iff {t : Text} : Nested t ↔ awaited [] t = some [] := by
  constructor
  · intro h
    have hwalk := h.awaited_append [] []
    rwa [List.append_nil] at hwalk
  · exact closes_of_awaited

instance : DecidablePred Nested := fun _ => decidable_of_iff _ nested_iff.symm

end Brackets

end Stylewire
