import Stylewire.Proofs.Commutation

set_option autoImplicit false

/-! # The single arguments

`splitArguments` cuts the text between the parentheses at the commas of depth zero. Marking a
call does one of two things to the list of its arguments:

* the object at the start of the third argument is replaced by the one with the marker, and all
  other text stays (`replacesOptions`);
* an argument is added at the end. It takes the place of a last argument of blanks, and otherwise
  the last argument loses the blanks at its end (`addsArgument`).
-/

namespace Stylewire

open Brackets

/-! ## Splitting -/

/-- The parts of a text between the commas at which the depth, counted from `d`, is zero. -/
def splitFrom : (d : Int) → Text → List Text
  | _, [] => [[]]
  | d, c :: t =>
      let parts := splitFrom (d + all.weight c) t
      if c = ',' ∧ d = 0 then [] :: parts else parts.modifyHead (c :: ·)

/-- The arguments in the text between the parentheses. -/
def splitArguments (x : Text) : List Text := splitFrom 0 x

theorem length_splitFrom (d : Int) (t : Text) : (splitFrom d t).length = separators d t + 1 := by
  induction t generalizing d with
  | nil => rfl
  | cons c t ih =>
      rw [splitFrom, separators]
      split
      · rw [List.length_cons, ih]
        omega
      · rw [List.length_modifyHead, ih]
        omega

theorem splitFrom_ne_nil (d : Int) (t : Text) : splitFrom d t ≠ [] := by
  intro h
  have hlen := length_splitFrom d t
  rw [h, List.length_nil] at hlen
  omega

/-- There is a last part. -/
theorem exists_splitFrom_concat (d : Int) (t : Text) :
    ∃ init last, splitFrom d t = init ++ [last] := by
  obtain ⟨init, last, h⟩ := (List.eq_nil_or_concat _).resolve_left (splitFrom_ne_nil d t)
  exact ⟨init, last, by rw [h, List.concat_eq_append]⟩

/-- A text without separating commas is one part. -/
theorem splitFrom_eq_singleton {d : Int} {t : Text} (h : separators d t = 0) :
    splitFrom d t = [t] := by
  induction t generalizing d with
  | nil => rfl
  | cons c t ih =>
      rw [separators] at h
      have hno : ¬ (c = ',' ∧ d = 0) := by
        intro hcomma
        rw [if_pos hcomma] at h
        omega
      rw [splitFrom, if_neg hno, ih (by omega)]
      rfl

/-- **The parts of two texts put together**: the last part of the first one goes on with the
first part of the second one. -/
theorem splitFrom_append {d : Int} {u v last first : Text} {init rest : List Text}
    (hu : splitFrom d u = init ++ [last]) (hv : splitFrom (d + all.depth u) v = first :: rest) :
    splitFrom d (u ++ v) = init ++ (last ++ first) :: rest := by
  induction u generalizing d init last with
  | nil =>
      have hparts : [] ++ [[]] = init ++ [last] := hu
      obtain ⟨rfl, hlast⟩ := List.append_inj' hparts rfl
      obtain rfl : [] = last := by simpa using hlast
      simpa using hv
  | cons c u ih =>
      rw [depth_cons, ← Int.add_assoc] at hv
      obtain ⟨init', last', hu'⟩ := exists_splitFrom_concat (d + all.weight c) u
      rw [splitFrom, hu'] at hu
      rw [List.cons_append, splitFrom, ih hu' hv]
      by_cases hcomma : c = ',' ∧ d = 0
      · rw [if_pos hcomma] at hu
        have hparts : ([] :: init') ++ [last'] = init ++ [last] := hu
        obtain ⟨rfl, hlast⟩ := List.append_inj' hparts rfl
        obtain rfl : last' = last := by simpa using hlast
        rw [if_pos hcomma]
        rfl
      · rw [if_neg hcomma] at hu
        rw [if_neg hcomma]
        cases init' with
        | nil =>
            have hparts : [] ++ [c :: last'] = init ++ [last] := hu
            obtain ⟨rfl, hlast⟩ := List.append_inj' hparts rfl
            obtain rfl : c :: last' = last := by simpa using hlast
            rfl
        | cons w init' =>
            have hparts : ((c :: w) :: init') ++ [last'] = init ++ [last] := hu
            obtain ⟨rfl, hlast⟩ := List.append_inj' hparts rfl
            obtain rfl : last' = last := by simpa using hlast
            rfl

/-- A separating comma ends a part. -/
theorem splitFrom_comma {d : Int} {u : Text} (hu : d + all.depth u = 0) (v : Text) :
    splitFrom d (u ++ ',' :: v) = splitFrom d u ++ splitFrom 0 v := by
  have hw : (0 : Int) + all.weight ',' = 0 := by decide
  obtain ⟨init, last, hlast⟩ := exists_splitFrom_concat d u
  have hcomma : splitFrom (d + all.depth u) (',' :: v) = [] :: splitFrom 0 v := by
    rw [hu, splitFrom, if_pos ⟨rfl, rfl⟩, hw]
  rw [splitFrom_append hlast hcomma, hlast]
  simp

theorem separators_of_not_mem {d : Int} {t : Text} (h : ',' ∉ t) : separators d t = 0 := by
  induction t generalizing d with
  | nil => rfl
  | cons c t ih =>
      rw [List.mem_cons, not_or] at h
      rw [separators, if_neg fun hc => h.1 hc.1.symm, ih h.2]

theorem separators_blanks {d : Int} {b : Text} (hb : ∀ c ∈ b, isBlank c = true) :
    separators d b = 0 := by
  have hcomma : isBlank ',' = false := by decide
  exact separators_of_not_mem fun h => ne_of_isBlank (hb _ h) hcomma rfl

/-- No comma inside an object separates arguments. -/
theorem separators_object {b : Text} {c : Char} (hb : all.Balanced b)
    (hc : all.isClosing c = true) : separators 0 ('{' :: (b ++ [c])) = 0 := by
  have hw : all.weight '{' = 1 := by decide
  have hne : c ≠ ',' := by
    rintro rfl
    cases hc
  have hin : separators (0 + 1) b = 0 := Agree.separators_eq_zero hb.above
  rw [separators, if_neg (by decide), hw, separators_append, hin,
    separators_of_not_mem (by simpa using hne.symm)]

/-! ## The third argument -/

/-- The object `o` at the start of the third argument becomes `o'`, and nothing else changes. -/
def ReplacesOptions (o o' : Text) (args args' : List Text) : Prop :=
  ∃ first second lead tail rest, (∀ c ∈ lead, isAsciiBlank c = true) ∧
    args = first :: second :: (lead ++ (o ++ tail)) :: rest ∧
    args' = first :: second :: (lead ++ (o' ++ tail)) :: rest

/-- Behind two separating commas stand two arguments and the blanks before the third. -/
theorem splitArguments_before {y : Text} (hy : AtArgument y) (hsep : separators 0 y = 2) :
    ∃ first second lead, (∀ c ∈ lead, isAsciiBlank c = true) ∧
      splitArguments y = [first, second] ++ [lead] := by
  obtain ⟨a, b, rfl, ha, hlast, hb⟩ := hy
  have hblank : separators (0 + all.depth a) b = 0 :=
    separators_blanks fun c hc => isBlank_of_isAsciiBlank (hb c hc)
  rw [separators_append, hblank] at hsep
  rcases hlast with rfl | hlast
  · cases hsep
  · obtain ⟨u, rfl⟩ := List.getLast?_eq_some_iff.1 hlast
    have hu : (0 : Int) + all.depth u = 0 := by
      have hd := ha.depth_eq
      have hw : all.depth [','] = 0 := by decide
      rw [depth_append] at hd
      omega
    have htwo : (splitFrom 0 u).length = 2 := by
      rw [separators_concat, if_pos ⟨rfl, by omega⟩] at hsep
      rw [length_splitFrom]
      omega
    obtain ⟨first, second, hparts⟩ := List.length_eq_two.1 htwo
    refine ⟨first, second, b, hb, ?_⟩
    have hcut := splitFrom_comma hu b
    rw [splitFrom_eq_singleton (separators_blanks fun c hc => isBlank_of_isAsciiBlank (hb c hc)),
      hparts] at hcut
    rw [splitArguments, List.append_assoc, List.singleton_append]
    exact hcut

/-- What stands around the object of the third argument does not depend on the object. -/
theorem replacesOptions {y z o o' : Text} (hy : AtArgument y) (hsep : separators 0 y = 2)
    (ho : all.depth o = 0 ∧ separators 0 o = 0) (ho' : all.depth o' = 0 ∧ separators 0 o' = 0) :
    ReplacesOptions o o' (splitArguments (y ++ (o ++ z))) (splitArguments (y ++ (o' ++ z))) := by
  obtain ⟨first, second, lead, hlead, hbefore⟩ := splitArguments_before hy hsep
  obtain ⟨tail, rest, htail⟩ := List.exists_cons_of_ne_nil (splitFrom_ne_nil 0 z)
  have hcut : ∀ t : Text, all.depth t = 0 ∧ separators 0 t = 0 →
      splitArguments (y ++ (t ++ z)) = first :: second :: (lead ++ (t ++ tail)) :: rest := by
    rintro t ⟨hdepth, hone⟩
    have hin : splitFrom 0 (t ++ z) = (t ++ tail) :: rest := by
      have ht : splitFrom 0 t = [] ++ [t] := splitFrom_eq_singleton hone
      have hz : splitFrom (0 + all.depth t) z = tail :: rest := by rw [hdepth, Int.add_zero, htail]
      exact splitFrom_append ht hz
    have hrest : splitFrom (0 + all.depth y) (t ++ z) = (t ++ tail) :: rest := by
      rw [hy.depth_eq, Int.add_zero, hin]
    exact splitFrom_append hbefore hrest
  exact ⟨first, second, lead, tail, rest, hlead, hcut o ho, hcut o' ho'⟩

/-! ## One argument more -/

/-- The argument `new`, blanks around it aside, is added at the end. A last argument of blanks
makes room for it, and another one loses the blanks at its end. -/
def AddsArgument (new : Text) (args args' : List Text) : Prop :=
  ∃ init last added, args = init ++ [last] ∧ added.trim = new ∧
    args' = init ++ if last.all isBlank then [added] else [last.trimEnd, added]

/-- A text that is one argument, without blanks around it. -/
structure IsArgument (a : Text) : Prop where
  one : separators 0 a = 0
  first : ∀ c, a.head? = some c → isBlank c = false
  last : ∀ c, a.getLast? = some c → isBlank c = false

theorem newOptions_eq_object (marker : Text) :
    newOptions marker = '{' :: ([' '] ++ (assignClause marker ++ [' ']) ++ ['}']) := by
  simp [newOptions]

theorem balanced_newOptions_inside (marker : Identifier) :
    all.Balanced ([' '] ++ (assignClause marker.text ++ [' '])) := by
  have hblank : all.Balanced [' '] := Balanced.of_all (by decide)
  exact hblank.append ((balanced_assignClause marker).append hblank)

theorem isArgument_newOptions (marker : Identifier) : IsArgument (newOptions marker.text) := by
  constructor
  · rw [newOptions_eq_object]
    exact separators_object (balanced_newOptions_inside marker) (by decide)
  · intro c hc
    obtain rfl : '{' = c := by simpa [newOptions] using hc
    decide
  · intro c hc
    rw [newOptions_eq_object, ← List.cons_append, List.getLast?_concat] at hc
    obtain rfl := Option.some.inj hc
    decide

section Adding

variable {new lead tail : Text} (hnew : IsArgument new) (hlead : ∀ c ∈ lead, isBlank c = true)
  (htail : ∀ c ∈ tail, isBlank c = true)

include hnew hlead htail

theorem IsArgument.splitFrom_eq :
    splitFrom 0 (lead ++ (new ++ tail)) = [lead ++ (new ++ tail)] := by
  refine splitFrom_eq_singleton ?_
  rw [separators_append, separators_append, separators_blanks hlead,
    (balanced_blanks hlead).depth_eq, separators_blanks htail, Int.add_zero, hnew.one]

/-- A list of blanks holds one argument, which makes room. -/
theorem addsArgument_blank {x : Text} (hx : ∀ c ∈ x, isBlank c = true) :
    AddsArgument new (splitArguments x) (splitArguments (lead ++ (new ++ tail))) := by
  refine ⟨[], x, lead ++ (new ++ tail), ?_,
    Text.trim_eq_of_blanks hlead htail hnew.first hnew.last, ?_⟩
  · exact splitFrom_eq_singleton (separators_blanks hx)
  · rw [if_pos (List.all_eq_true.2 hx)]
    exact hnew.splitFrom_eq hlead htail

/-- The blanks behind a comma at the end are the last argument, which makes room. -/
theorem addsArgument_comma {y b : Text} (hy : all.depth y = 0) (hb : ∀ c ∈ b, isBlank c = true) :
    AddsArgument new (splitArguments (y ++ ',' :: b))
      (splitArguments (y ++ ',' :: (lead ++ (new ++ tail)))) := by
  have hdepth : (0 : Int) + all.depth y = 0 := by omega
  refine ⟨splitFrom 0 y, b, lead ++ (new ++ tail), ?_,
    Text.trim_eq_of_blanks hlead htail hnew.first hnew.last, ?_⟩
  · rw [splitArguments, splitFrom_comma hdepth, splitFrom_eq_singleton (separators_blanks hb)]
  · rw [splitArguments, splitFrom_comma hdepth, hnew.splitFrom_eq hlead htail,
      if_pos (List.all_eq_true.2 hb)]

/-- Otherwise the last argument goes on to the blanks at the end, and loses them. -/
theorem addsArgument_behind {y b : Text} {c : Char} (hyc : all.depth (y ++ [c]) = 0)
    (hc : isBlank c = false) (hcomma : c ≠ ',') (hb : ∀ c ∈ b, isBlank c = true) :
    AddsArgument new (splitArguments (y ++ [c] ++ b))
      (splitArguments (y ++ [c] ++ ',' :: (lead ++ (new ++ tail)))) := by
  have hdepth : (0 : Int) + all.depth (y ++ [c]) = 0 := by omega
  obtain ⟨init, last, hinit⟩ := exists_splitFrom_concat 0 y
  have hone : splitFrom (0 + all.depth y) [c] = [[c]] :=
    splitFrom_eq_singleton (separators_of_not_mem (by simpa using Ne.symm hcomma))
  have hlast : splitFrom 0 (y ++ [c]) = init ++ [last ++ [c]] := splitFrom_append hinit hone
  have hmem : ¬ (last ++ [c] ++ b).all isBlank = true := by
    intro hall
    have hblank := List.all_eq_true.1 hall c (by simp)
    rw [hc] at hblank
    cases hblank
  refine ⟨init, last ++ [c] ++ b, lead ++ (new ++ tail), ?_,
    Text.trim_eq_of_blanks hlead htail hnew.first hnew.last, ?_⟩
  · exact splitFrom_append hlast (splitFrom_eq_singleton (separators_blanks hb))
  · rw [splitArguments, splitFrom_comma hdepth, hnew.splitFrom_eq hlead htail, hlast, if_neg hmem,
      Text.trimEnd_append_blanks (by simpa using hc) hb]
    simp

/-- **An argument put at the end of a list**, behind a comma if there is none yet. -/
theorem addsArgument_trimEnd {x : Text} (hx : all.Balanced x) :
    AddsArgument new (splitArguments x) (splitArguments (x.trimEnd ++
      ((if x.trimEnd.isEmpty || x.trimEnd.endsWith ',' then [] else [',']) ++
        (lead ++ (new ++ tail))))) := by
  obtain ⟨b, hxb, hb, hlast⟩ := Text.trimEnd_spec x
  rcases List.eq_nil_or_concat x.trimEnd with hnil | ⟨y, c, hconcat⟩
  · have hadd := addsArgument_blank hnew hlead htail (Text.isBlank_of_trimEnd_eq_nil hnil)
    simpa [hnil] using hadd
  · rw [List.concat_eq_append] at hconcat
    rw [hconcat] at hxb hlast ⊢
    have hdepth : all.depth (y ++ [c]) = 0 := by
      have hd := hx.depth_eq
      rw [hxb, depth_append, (balanced_blanks hb).depth_eq] at hd
      omega
    rw [hxb]
    by_cases hcomma : c = ','
    · subst hcomma
      have hy : all.depth y = 0 := by
        have hw : all.depth [','] = 0 := by decide
        rw [depth_append] at hdepth
        omega
      have hends : Text.endsWith (y ++ [',']) ',' = true := Text.endsWith_iff.2 (by simp)
      have hadd := addsArgument_comma hnew hlead htail hy hb
      simpa [hends] using hadd
    · have hends : Text.endsWith (y ++ [c]) ',' = false := by
        rw [← Bool.not_eq_true, Text.endsWith_iff]
        simpa using hcomma
      have hadd := addsArgument_behind hnew hlead htail hdepth (hlast c (by simp)) hcomma hb
      simpa [hends] using hadd

end Adding

/-- A list without options object has one argument more afterwards. -/
theorem addsArgument {x : Text} (hx : all.Balanced x) (marker : Identifier) :
    AddsArgument (newOptions marker.text) (splitArguments x)
      (splitArguments (addOptions x marker.text)) := by
  have hnew := isArgument_newOptions marker
  have hnone : ∀ c ∈ ([] : Text), isBlank c = true := by simp
  have hspace : ∀ c ∈ [' '], isBlank c = true := forall_mem_of_all (by decide)
  obtain ⟨b, hxb, hb, -⟩ := Text.trimEnd_spec x
  rw [addOptions, drop_trimEnd hxb, Text.isEmpty_trimStart_trimEnd]
  cases hempty : x.trimEnd.isEmpty with
  | true =>
      have hadd := addsArgument_blank hnew hnone hnone
        (Text.isBlank_of_trimEnd_eq_nil (List.isEmpty_iff.1 hempty))
      simpa using hadd
  | false =>
      have hadd := addsArgument_trimEnd hnew hspace hb hx
      cases hends : x.trimEnd.endsWith ',' with
      | true => simpa [hempty, hends] using hadd
      | false => simpa [hempty, hends] using hadd

end Stylewire
