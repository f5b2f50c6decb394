import Stylewire.Proofs.CheckedEdit
import Stylewire.Proofs.Occurrence

set_option autoImplicit false

/-! # The extent of an argument list and of its arguments

The reader of an argument list keeps a depth of its own, and looks up the closing bracket of the
options object on the way. Here its result is compared with two simpler things, by byte offsets:

* `readByte_follows_brackets`: the list runs from the first parenthesis to the bracket that closes
  it. There is no list exactly if one of the two is missing (`NoList`), so that the options object
  alone never makes the reader fail;
* `objects_of_arguments`: the objects are those with which the arguments start, if the text between
  the parentheses is split at its separating commas. The options object is that of the third one.
-/

namespace Stylewire

open Brackets

/-! ## The first parenthesis -/

/-- The first parenthesis at or behind the offset `start` stands at `o`. -/
structure FirstParen (t : Text) (start o : Nat) : Prop where
  le : start ≤ o
  occurs : t.OccursAt ['('] o
  least : ∀ j, start ≤ j → t.OccursAt ['('] j → o ≤ j

/-- Why no argument list can be read from an offset on. -/
inductive NoList (t : Text) (start : Nat) : Prop
  /-- The offset is past the end of the text. -/
  | pastEnd (h : t.byteSize < start)
  /-- The offset lies inside a character. -/
  | inside (h : t.isBoundary start = false)
  /-- No parenthesis follows. -/
  | noParen (h : ∀ o, start ≤ o → ¬ t.OccursAt ['('] o)
  /-- The first parenthesis is never closed. -/
  | unclosed (o : Nat) (ho : FirstParen t start o) (h : all.closingByte? t o = none)

theorem exists_firstParen {t : Text} {start j : Nat} (hle : start ≤ j) (hj : t.OccursAt ['('] j) :
    ∃ o, FirstParen t start o := by
  induction j using Nat.strongRecOn with
  | ind j ih =>
      by_cases hbefore : ∃ k, k < j ∧ start ≤ k ∧ t.OccursAt ['('] k
      · obtain ⟨k, hlt, hk, hocc⟩ := hbefore
        exact ih k hlt hk hocc
      · exact ⟨j, hle, hj, fun k hk hocc =>
          Nat.le_of_not_lt fun hlt => hbefore ⟨k, hlt, hk, hocc⟩⟩

theorem occursAt_paren_iff {p s : Text} {o : Nat} :
    (p.byteSize ≤ o ∧ (p ++ s).OccursAt ['('] o) ↔
      ∃ h k, s = h ++ '(' :: k ∧ o = p.byteSize + h.byteSize := by
  rw [Text.occursAt_iff (by simp)]
  constructor
  · rintro ⟨hle, u, v, heq, rfl⟩
    rcases List.append_eq_append_iff.1 heq with ⟨h, rfl, rfl⟩ | ⟨q, rfl, hq⟩
    · exact ⟨h, v, rfl, Text.byteSize_append p h⟩
    · -- The parenthesis would stand before the cut, unless both are at the same place.
      rw [Text.byteSize_append] at hle
      cases q with
      | nil => exact ⟨[], v, by simpa using hq.symm, by simp [Text.byteSize]⟩
      | cons c q =>
          have := Text.byteSize_pos (t := c :: q) (by simp)
          omega
  · rintro ⟨h, k, rfl, rfl⟩
    exact ⟨Nat.le_add_right _ _, p ++ h, k, by simp, (Text.byteSize_append p h).symm⟩

/-- The first parenthesis behind a cut. -/
theorem firstParen_iff {p s : Text} {o : Nat} :
    FirstParen (p ++ s) p.byteSize o ↔
      ∃ h k, s = h ++ '(' :: k ∧ '(' ∉ h ∧ o = p.byteSize + h.byteSize := by
  constructor
  · rintro ⟨hle, hocc, hleast⟩
    obtain ⟨h, k, rfl, rfl⟩ := occursAt_paren_iff.1 ⟨hle, hocc⟩
    refine ⟨h, k, rfl, fun hmem => ?_, rfl⟩
    obtain ⟨g, q, rfl⟩ := List.append_of_mem hmem
    obtain ⟨hle', hocc'⟩ := occursAt_paren_iff (p := p).2 ⟨g, q ++ '(' :: k, rfl, rfl⟩
    have hearlier : p.byteSize + Text.byteSize (g ++ '(' :: q) ≤ p.byteSize + Text.byteSize g := by
      refine hleast _ hle' ?_
      simpa using hocc'
    have := Text.byteSize_pos (t := '(' :: q) (by simp)
    rw [Text.byteSize_append] at hearlier
    omega
  · rintro ⟨h, k, rfl, hh, rfl⟩
    obtain ⟨hle, hocc⟩ := occursAt_paren_iff (p := p).2 ⟨h, k, rfl, rfl⟩
    refine ⟨hle, hocc, fun j hj hoccj => ?_⟩
    obtain ⟨g, q, heq, rfl⟩ := occursAt_paren_iff.1 ⟨hj, hoccj⟩
    rcases List.append_eq_append_iff.1 heq with ⟨w, rfl, -⟩ | ⟨w, rfl, hw⟩
    · rw [Text.byteSize_append]
      omega
    · -- A parenthesis before the end of `h` would be one in `h`.
      cases w with
      | nil => simp
      | cons c w =>
          obtain ⟨rfl, -⟩ := List.cons.inj hw
          exact absurd (by simp) hh

section

variable {s h x r : Text} {c : Char} (p : Text) (hs : Calls s h x c r)

include hs

theorem firstParen_of_calls : FirstParen (p ++ s) p.byteSize (p.byteSize + h.byteSize) :=
  firstParen_iff.2 ⟨h, x ++ c :: r, hs.eq, hs.head, rfl⟩

theorem closingByte?_of_calls :
    all.closingByte? (p ++ s) (p.byteSize + h.byteSize) =
      some (p.byteSize + h.byteSize + 1 + x.byteSize) := by
  rw [hs.eq, ← List.append_assoc, ← Text.byteSize_append]
  exact (closingByte?_append_iff (by decide)).2 ⟨x, c, r, rfl, rfl, hs.balanced, hs.closing⟩

end

/-- If the first parenthesis behind a cut is closed, a call stands there. -/
theorem exists_calls_of_closingByte? {p s : Text} {o m : Nat}
    (ho : FirstParen (p ++ s) p.byteSize o) (hm : all.closingByte? (p ++ s) o = some m) :
    ∃ h x c r, Calls s h x c r := by
  obtain ⟨h, k, rfl, hh, rfl⟩ := firstParen_iff.1 ho
  rw [← List.append_assoc, ← Text.byteSize_append] at hm
  obtain ⟨x, c, r, rfl, -, hx, hc⟩ := (closingByte?_append_iff (by decide)).1 hm
  exact ⟨h, x, c, r, rfl, hh, hx, hc⟩

/-! ## Reading by byte offsets -/

namespace ArgumentList

/-- **If nothing is missing, an argument list is read.** -/
theorem exists_readByte {t : Text} {start : Nat} (h : ¬ NoList t start) :
    ∃ a, readByte t start = .ok a := by
  have hboundary : t.isBoundary start = true := by
    cases hb : t.isBoundary start with
    | true => rfl
    | false => exact absurd (.inside hb) h
  obtain ⟨i, hi, rfl⟩ := Text.isBoundary_iff.1 hboundary
  obtain ⟨p, s, rfl, rfl⟩ := Text.exists_cut hi
  rw [Text.byteOffset_append] at h ⊢
  obtain ⟨o, ho⟩ : ∃ o, FirstParen (p ++ s) p.byteSize o :=
    Classical.byContradiction fun hno => h (.noParen fun o hle ho =>
      hno (exists_firstParen hle ho))
  obtain ⟨m, hm⟩ : ∃ m, all.closingByte? (p ++ s) o = some m :=
    Option.ne_none_iff_exists'.1 fun hnone => h (.unclosed o ho hnone)
  obtain ⟨g, x, c, r, hs⟩ := exists_calls_of_closingByte? ho hm
  have hpos := Text.position?_byteOffset (p ++ s) p.length (by simp)
  rw [Text.byteOffset_append] at hpos
  obtain ⟨a, ha, -, -⟩ := readByte_of_calls hs hpos
  exact ⟨a, ha⟩

end ArgumentList

/-- The span of an object argument, by byte offsets. -/
theorem inBytes_objectArgument {s h x r y b z : Text} {c e : Char} (p : Text)
    (hs : Calls s h x c r) (hobj : ObjectArgument x y b e z) :
    (objectSpan (p.length + h.length + 1) y b).inBytes (p ++ s) =
      ⟨p.byteSize + h.byteSize + 1 + y.byteSize,
        p.byteSize + h.byteSize + 1 + y.byteSize + 1 + b.byteSize⟩ := by
  rw [ArgumentList.inBytes_object p hs hobj, objectSpan, Text.length_byteChars,
    Text.length_byteChars]

/-- The offset of a place in an argument list. -/
theorem byteSize_behind_paren (p h y : Text) :
    Text.byteSize (p ++ (h ++ '(' :: y)) = p.byteSize + h.byteSize + 1 + y.byteSize := by
  rw [Text.byteSize_append, Text.byteSize_append, Text.byteSize_ascii (by decide)]
  omega

/-- An object argument starts with a brace and ends at its closing bracket. -/
theorem closingByte?_objectArgument {s h x r y b z : Text} {c e : Char} (p : Text)
    (hs : Calls s h x c r) (hobj : ObjectArgument x y b e z) :
    (p ++ s).OccursAt ['{'] (p.byteSize + h.byteSize + 1 + y.byteSize) ∧
      all.closingByte? (p ++ s) (p.byteSize + h.byteSize + 1 + y.byteSize) =
        some (p.byteSize + h.byteSize + 1 + y.byteSize + 1 + b.byteSize) := by
  have heq : p ++ s = (p ++ (h ++ '(' :: y)) ++ '{' :: (b ++ e :: (z ++ c :: r)) := by
    rw [hs.eq, hobj.eq]
    simp
  rw [heq, ← byteSize_behind_paren]
  exact ⟨(Text.occursAt_iff (by simp)).2 ⟨_, _, rfl, rfl⟩,
    (closingByte?_append_iff (by decide)).2 ⟨b, e, _, rfl, rfl, hobj.balanced, hobj.closing⟩⟩

/-- The size of an object argument and of what stands around it. -/
theorem ObjectArgument.byteSize_eq {x y b z : Text} {e : Char} (hobj : ObjectArgument x y b e z) :
    x.byteSize = y.byteSize + 1 + b.byteSize + 1 + z.byteSize := by
  rw [hobj.eq, Text.byteSize_append, Text.byteSize_ascii (by decide), Text.byteSize_append,
    Text.byteSize_ascii (isAscii_of_isClosing hobj.closing)]
  omega

/-- An argument list, given by byte offsets, agrees with the brackets of the text: it opens at the
first parenthesis, it ends where this is closed, and its options object runs from a brace to its
closing bracket, all between the two. -/
structure FollowsBrackets (t : Text) (start : Nat) (a : ArgumentList) : Prop where
  opening : FirstParen t start a.opening
  closing : all.closingByte? t a.opening = some a.closing
  options : ∀ o ∈ a.options, a.opening < o.first ∧ o.first < o.last ∧ o.last < a.closing ∧
    t.OccursAt ['{'] o.first ∧ all.closingByte? t o.first = some o.last

/-- **What is read agrees with the brackets.** -/
theorem followsBrackets_of_readByte {t : Text} {start : Nat} {a : ArgumentList}
    (ha : ArgumentList.readByte t start = .ok a) : FollowsBrackets t start (a.inBytes t) := by
  obtain ⟨i, hpos, hread⟩ := read?_of_readByte ha
  obtain ⟨-, rfl⟩ := Text.byteOffset_of_position? hpos
  obtain ⟨p, s, h, x, c, r, rfl, rfl, hs, -, -⟩ := ArgumentList.exists_calls_of_read? hread
  obtain ⟨options, hcalls, hoptions⟩ := ArgumentList.read?_of_calls p hs
  obtain rfl := Option.some.inj (hread.symm.trans hcalls)
  obtain ⟨hopening, hclosing⟩ := ArgumentList.byteOffset_calls p hs
  rw [Text.byteOffset_append, ArgumentList.inBytes, hopening, hclosing]
  refine ⟨firstParen_of_calls p hs, closingByte?_of_calls p hs, ?_⟩
  intro o ho
  obtain ⟨span, hspan, rfl⟩ := Option.map_eq_some_iff.1 ho
  obtain ⟨y, b, e, z, hobj, -, rfl⟩ := (hoptions span).1 hspan
  obtain ⟨hbrace, hclose⟩ := closingByte?_objectArgument p hs hobj
  have hsize := hobj.byteSize_eq
  rw [inBytes_objectArgument p hs hobj]
  exact ⟨by dsimp only; omega, by dsimp only; omega, by dsimp only; omega, hbrace, hclose⟩

/-- Where no list can be read, none is. -/
theorem NoList.not_readByte {t : Text} {start : Nat} (h : NoList t start) (a : ArgumentList) :
    ArgumentList.readByte t start ≠ .ok a := by
  intro ha
  obtain ⟨hopening, hclosing, -⟩ := followsBrackets_of_readByte ha
  obtain ⟨i, hpos, -⟩ := read?_of_readByte ha
  obtain ⟨hi, hoffset⟩ := Text.byteOffset_of_position? hpos
  cases h with
  | pastEnd hlt =>
      have := Checked.byteOffset_le_byteSize hi
      omega
  | inside hno =>
      rw [Text.isBoundary_iff.2 ⟨i, hi, hoffset⟩] at hno
      cases hno
  | noParen hno => exact hno _ hopening.le hopening.occurs
  | unclosed o ho hno =>
      -- The first parenthesis is unique.
      obtain rfl : o = (a.inBytes t).opening :=
        Nat.le_antisymm (ho.least _ hopening.le hopening.occurs)
          (hopening.least _ ho.le ho.occurs)
      rw [hclosing] at hno
      cases hno

/-- **The reader follows the brackets.** It fails exactly if the offset is no place in the text, if
no parenthesis follows it or if the first one is never closed, and then it reports that offset. In
all other cases it gives a list that agrees with the brackets of the text. -/
theorem readByte_follows_brackets (t : Text) (start : Nat) :
    (ArgumentList.readByte t start = .error (.unclosedArguments start) ↔ NoList t start) ∧
      (¬ NoList t start → ∃ a, ArgumentList.readByte t start = .ok a ∧
        FollowsBrackets t start (a.inBytes t)) := by
  refine ⟨⟨fun herror => ?_, fun hno => ?_⟩, fun hlist => ?_⟩
  · refine Classical.byContradiction fun hlist => ?_
    obtain ⟨a, ha⟩ := ArgumentList.exists_readByte hlist
    rw [herror] at ha
    cases ha
  · unfold ArgumentList.readByte
    split
    · rename_i a hread
      exact absurd (by rw [ArgumentList.readByte, hread]) (hno.not_readByte a)
    · rfl
  · obtain ⟨a, ha⟩ := ArgumentList.exists_readByte hlist
    exact ⟨a, ha, followsBrackets_of_readByte ha⟩

/-! ## Where the arguments stand -/

/-- The parts of a text with their offsets, if the first one stands at `n` and each of the others
behind a comma. -/
def placeParts : (n : Nat) → List Text → List (Nat × Text)
  | _, [] => []
  | n, e :: parts => (n, e) :: placeParts (n + e.byteSize + 1) parts

/-- The size of some parts, with a comma behind each of them. -/
def partsSize : List Text → Nat
  | [] => 0
  | e :: parts => e.byteSize + 1 + partsSize parts

theorem placeParts_append (n : Nat) (init rest : List Text) :
    placeParts n (init ++ rest) = placeParts n init ++ placeParts (n + partsSize init) rest := by
  induction init generalizing n with
  | nil => rfl
  | cons e init ih =>
      have hsize : n + e.byteSize + 1 + partsSize init = n + partsSize (e :: init) := by
        rw [partsSize]
        omega
      rw [List.cons_append, placeParts, placeParts, ih, hsize, List.cons_append]

theorem map_snd_placeParts (n : Nat) (parts : List Text) :
    (placeParts n parts).map Prod.snd = parts := by
  induction parts generalizing n with
  | nil => rfl
  | cons e parts ih => rw [placeParts, List.map_cons, ih]

theorem length_placeParts (n : Nat) (parts : List Text) :
    (placeParts n parts).length = parts.length := by
  rw [← List.length_map Prod.snd, map_snd_placeParts]

/-- The part with a given number, and its offset. -/
theorem getElem?_placeParts {n k : Nat} {parts : List Text} {q : Nat × Text} :
    (placeParts n parts)[k]? = some q ↔
      ∃ init rest, parts = init ++ q.2 :: rest ∧ k = init.length ∧ q.1 = n + partsSize init := by
  constructor
  · intro h
    induction parts generalizing n k with
    | nil => simp [placeParts] at h
    | cons e parts ih =>
        cases k with
        | zero =>
            obtain rfl : (n, e) = q := by simpa [placeParts] using h
            exact ⟨[], parts, rfl, rfl, rfl⟩
        | succ k =>
            rw [placeParts, List.getElem?_cons_succ] at h
            obtain ⟨init, rest, rfl, rfl, hq⟩ := ih h
            refine ⟨e :: init, rest, rfl, rfl, ?_⟩
            rw [hq, partsSize]
            omega
  · rintro ⟨init, rest, rfl, rfl, hq⟩
    rw [placeParts_append, List.getElem?_append_right (Nat.le_of_eq (length_placeParts n init)),
      length_placeParts, Nat.sub_self, placeParts, List.getElem?_cons_zero, ← hq]

/-- The parts stand one behind the other. -/
theorem pairwise_placeParts (n : Nat) (parts : List Text) :
    (placeParts n parts).Pairwise fun q q' => q.1 + q.2.byteSize < q'.1 := by
  have hle : ∀ (parts : List Text) (n : Nat), ∀ q ∈ placeParts n parts, n ≤ q.1 := by
    intro parts
    induction parts with
    | nil => exact fun n q hq => absurd hq List.not_mem_nil
    | cons e parts ih =>
        intro n q hq
        rcases List.mem_cons.1 hq with rfl | hq
        · exact Nat.le_refl n
        · have := ih _ q hq
          omega
  induction parts generalizing n with
  | nil => exact List.Pairwise.nil
  | cons e parts ih =>
      refine List.Pairwise.cons (fun q hq => ?_) (ih _)
      have := hle parts _ q hq
      dsimp only
      omega

/-- The parts between the separating commas fill the text, with a comma behind each but the last. -/
theorem partsSize_splitFrom (d : Int) (t : Text) :
    partsSize (splitFrom d t) = t.byteSize + 1 := by
  induction t generalizing d with
  | nil => rfl
  | cons c t ih =>
      have hrest := ih (d + all.weight c)
      rw [splitFrom]
      split
      · rename_i hcomma
        obtain ⟨rfl, -⟩ := hcomma
        rw [Text.byteSize_ascii (by decide), partsSize, hrest, Text.byteSize]
        omega
      · obtain ⟨e, parts, hparts⟩ := List.exists_cons_of_ne_nil (splitFrom_ne_nil (d + all.weight c) t)
        rw [hparts] at hrest ⊢
        rw [partsSize] at hrest
        rw [List.modifyHead_cons, partsSize, Text.byteSize, Text.byteSize]
        omega

theorem join_splitFrom (d : Int) (t : Text) : Text.join [','] (splitFrom d t) = t := by
  induction t generalizing d with
  | nil => rfl
  | cons c t ih =>
      have hrest := ih (d + all.weight c)
      obtain ⟨e, parts, hparts⟩ := List.exists_cons_of_ne_nil (splitFrom_ne_nil (d + all.weight c) t)
      rw [hparts] at hrest
      rw [splitFrom, hparts]
      split
      · rename_i hcomma
        rw [Text.join, hrest, hcomma.1]
        rfl
      · rw [List.modifyHead_cons, ← hrest]
        cases parts <;> rfl

/-- The first part ends with the text or at the first separating comma. -/
theorem splitFrom_eq_cons {d : Int} {t e : Text} {rest : List Text}
    (h : splitFrom d t = e :: rest) :
    (rest = [] ∧ t = e) ∨
      ∃ t', t = e ++ ',' :: t' ∧ d + all.depth e = 0 ∧ separators d e = 0 ∧
        rest = splitFrom 0 t' := by
  induction t generalizing d e with
  | nil =>
      obtain ⟨rfl, rfl⟩ := List.cons.inj h
      exact Or.inl ⟨rfl, rfl⟩
  | cons c t ih =>
      rw [splitFrom] at h
      split at h
      · rename_i hcomma
        obtain ⟨rfl, rfl⟩ := hcomma
        obtain ⟨rfl, rfl⟩ := List.cons.inj h
        have hw : (0 : Int) + all.weight ',' = 0 := by decide
        exact Or.inr ⟨t, rfl, rfl, rfl, by rw [hw]⟩
      · rename_i hcomma
        obtain ⟨e', parts, hparts⟩ :=
          List.exists_cons_of_ne_nil (splitFrom_ne_nil (d + all.weight c) t)
        rw [hparts, List.modifyHead_cons] at h
        obtain ⟨rfl, rfl⟩ := List.cons.inj h
        rcases ih hparts with ⟨hnil, rfl⟩ | ⟨t', rfl, hdepth, hsep, hrest⟩
        · exact Or.inl ⟨hnil, rfl⟩
        · refine Or.inr ⟨t', rfl, ?_, ?_, hrest⟩
          · rw [depth_cons]
            omega
          · rw [separators, if_neg hcomma, hsep]

/-- **Where an argument stands**: at the start of the list or behind a separating comma, with as many
separating commas before it as there are arguments. -/
theorem exists_argument {x e : Text} {init rest : List Text}
    (h : splitArguments x = init ++ e :: rest) :
    ∃ y z, x = y ++ (e ++ z) ∧ all.depth y = 0 ∧ (y = [] ∨ y.getLast? = some ',') ∧
      separators 0 y = init.length ∧ y.byteSize = partsSize init := by
  induction init generalizing x with
  | nil =>
      rcases splitFrom_eq_cons h with ⟨-, rfl⟩ | ⟨t', rfl, -, -, -⟩
      · exact ⟨[], [], by simp, rfl, Or.inl rfl, rfl, rfl⟩
      · exact ⟨[], ',' :: t', rfl, rfl, Or.inl rfl, rfl, rfl⟩
  | cons p init ih =>
      rcases splitFrom_eq_cons h with ⟨hnil, -⟩ | ⟨x', rfl, hdepth, hsep, hrest⟩
      · simp at hnil
      · obtain ⟨y, z, rfl, hy, hlast, hcount, hsize⟩ := ih hrest.symm
        have hw : all.weight ',' = 0 := by decide
        refine ⟨p ++ ',' :: y, z, by simp, ?_, Or.inr ?_, ?_, ?_⟩
        · rw [depth_append, depth_cons, hw, hy]
          omega
        · rcases hlast with rfl | hlast
          · rw [List.getLast?_concat]
          · rw [List.getLast?_append, List.getLast?_cons, hlast]
            rfl
        · rw [separators_append, hsep, separators, if_pos ⟨rfl, hdepth⟩, hdepth, hw, Int.add_zero,
            hcount, List.length_cons]
          omega
        · rw [Text.byteSize_append, Text.byteSize_ascii (by decide), hsize, partsSize]
          omega

/-! ## The objects among the arguments -/

/-- Whether the first byte of the argument that is no ASCII blank is a brace. -/
def startsWithBrace (e : Text) : Bool := (e.dropWhile isAsciiBlank).head? == some '{'

/-- The object with which an argument at some offset starts: from its brace to the bracket that
closes it in the text. -/
def leadingObject? (t : Text) (q : Nat × Text) : Option BracketSpan :=
  let first := q.1 + Text.byteSize (q.2.takeWhile isAsciiBlank)
  if startsWithBrace q.2 then (all.closingByte? t first).map fun last => ⟨first, last⟩ else none

theorem startsWithBrace_iff {e : Text} :
    startsWithBrace e = true ↔
      ∃ lead w, e = lead ++ '{' :: w ∧ ∀ c ∈ lead, isAsciiBlank c = true := by
  rw [startsWithBrace, beq_iff_eq]
  constructor
  · intro h
    obtain ⟨w, hw⟩ := List.head?_eq_some_iff.1 h
    refine ⟨e.takeWhile isAsciiBlank, w, ?_, List.all_eq_true.1 List.all_takeWhile⟩
    rw [← hw, List.takeWhile_append_dropWhile]
  · rintro ⟨lead, w, rfl, hlead⟩
    rw [List.dropWhile_append_of_pos hlead]
    rfl

theorem startsWithBrace_of_leadingObject? {t : Text} {q : Nat × Text} {o : BracketSpan}
    (h : leadingObject? t q = some o) : startsWithBrace q.2 = true := by
  unfold leadingObject? at h
  split at h
  · assumption
  · cases h

theorem leadingObject?_append {lead w : Text} (hlead : ∀ c ∈ lead, isAsciiBlank c = true) (t : Text)
    (n : Nat) :
    leadingObject? t (n, lead ++ '{' :: w) = (all.closingByte? t (n + lead.byteSize)).map
      fun last => ⟨n + lead.byteSize, last⟩ := by
  have htake : (lead ++ '{' :: w).takeWhile isAsciiBlank = lead := by
    rw [List.takeWhile_append_of_pos hlead]
    simp [isAsciiBlank]
  have hstart : startsWithBrace (lead ++ '{' :: w) = true :=
    startsWithBrace_iff.2 ⟨lead, w, rfl, hlead⟩
  rw [leadingObject?, htake, if_pos hstart]

/-- No separating comma is among the blanks at the start of an argument. -/
theorem separators_append_blanks {lead : Text} (hlead : ∀ c ∈ lead, isAsciiBlank c = true)
    (y : Text) : separators 0 (y ++ lead) = separators 0 y := by
  have hblank : ∀ c ∈ lead, isBlank c = true := fun c hc => isBlank_of_isAsciiBlank (hlead c hc)
  rw [separators_append, separators_blanks hblank, Nat.add_zero]

/-- An object at the start of a text is not cut by a separating comma. -/
theorem exists_splitFrom_object {lead b : Text} {e : Char} (hlead : ∀ c ∈ lead, isBlank c = true)
    (hb : all.Balanced b) (he : all.isClosing e = true) (z : Text) :
    ∃ tail rest, splitFrom 0 (lead ++ '{' :: (b ++ e :: z)) =
      (lead ++ '{' :: (b ++ e :: tail)) :: rest := by
  have hone : splitFrom 0 (lead ++ '{' :: (b ++ [e])) = [] ++ [lead ++ '{' :: (b ++ [e])] := by
    refine splitFrom_eq_singleton ?_
    rw [separators_append, separators_blanks hlead, (balanced_blanks hlead).depth_eq,
      Int.add_zero, separators_object hb he]
  have hdepth : (0 : Int) + all.depth (lead ++ '{' :: (b ++ [e])) = 0 := by
    rw [depth_append, (balanced_blanks hlead).depth_eq,
      (hb.group (o := '{') (by decide) he).depth_eq]
    rfl
  obtain ⟨tail, rest, htail⟩ := List.exists_cons_of_ne_nil (splitFrom_ne_nil 0 z)
  have happend := splitFrom_append hone (hdepth ▸ htail)
  exact ⟨tail, rest, by simpa using happend⟩

/-- An object at the start of an argument is not cut either. -/
theorem exists_splitArguments_object {y lead b z : Text} {e : Char} (hy : all.depth y = 0)
    (hlast : y = [] ∨ y.getLast? = some ',') (hlead : ∀ c ∈ lead, isAsciiBlank c = true)
    (hb : all.Balanced b) (he : all.isClosing e = true) :
    ∃ init tail rest, splitArguments (y ++ (lead ++ '{' :: (b ++ e :: z))) =
        init ++ (lead ++ '{' :: (b ++ e :: tail)) :: rest ∧
      init.length = separators 0 y ∧ partsSize init = y.byteSize := by
  obtain ⟨tail, rest, hobject⟩ :=
    exists_splitFrom_object (fun c hc => isBlank_of_isAsciiBlank (hlead c hc)) hb he z
  rcases hlast with rfl | hlast
  · exact ⟨[], tail, rest, hobject, rfl, rfl⟩
  · obtain ⟨y, rfl⟩ := List.getLast?_eq_some_iff.1 hlast
    have hcomma : all.depth [','] = 0 := by decide
    have hdepth : (0 : Int) + all.depth y = 0 := by
      rw [depth_append, hcomma] at hy
      omega
    refine ⟨splitFrom 0 y, tail, rest, ?_, ?_, ?_⟩
    · rw [splitArguments, List.append_assoc, List.singleton_append, splitFrom_comma hdepth, hobject]
    · rw [length_splitFrom, separators_concat, if_pos ⟨rfl, by omega⟩]
    · rw [partsSize_splitFrom, Text.byteSize_append]
      rfl

/-- **An argument that starts with a brace** starts with an object, which lies in the argument. -/
theorem exists_object_of_argument {x a : Text} {init rest : List Text} (hx : all.Balanced x)
    (hsplit : splitArguments x = init ++ a :: rest) (ha : startsWithBrace a = true) :
    ∃ (y lead b z tail : Text) (e : Char), a = lead ++ '{' :: (b ++ e :: tail) ∧
      (∀ c ∈ lead, isAsciiBlank c = true) ∧ ObjectArgument x (y ++ lead) b e z ∧
      separators 0 (y ++ lead) = init.length ∧ y.byteSize = partsSize init := by
  obtain ⟨lead, w, rfl, hlead⟩ := startsWithBrace_iff.1 ha
  obtain ⟨y, q, rfl, hdepth, hlast, hcount, hsize⟩ := exists_argument hsplit
  -- The brace is closed somewhere in the list.
  have heq : y ++ (lead ++ '{' :: w ++ q) = (y ++ lead) ++ '{' :: (w ++ q) := by simp
  have hy : all.Balanced y := hx.of_append_left hdepth
  rw [heq] at hx
  obtain ⟨b, e, z, hz, hb, he⟩ := exists_object hx
  -- No separating comma stands before its end, so it lies in the argument.
  obtain ⟨init', tail, rest', hsplit', hlen, -⟩ :=
    exists_splitArguments_object (z := z) hdepth hlast hlead hb he
  have hsame : y ++ (lead ++ '{' :: (b ++ e :: z)) = y ++ (lead ++ '{' :: w ++ q) := by
    rw [← hz]
    simp
  rw [hsame, hsplit] at hsplit'
  obtain ⟨rfl, htail⟩ := List.append_inj hsplit' (by rw [hlen, hcount])
  obtain rfl : w = b ++ e :: tail := by simpa using (List.cons.inj htail).1
  exact ⟨y, lead, b, z, tail, e, rfl, hlead, ⟨by rw [heq, hz], ⟨y, lead, rfl, hy, hlast, hlead⟩,
    hb, he⟩, by rw [separators_append_blanks hlead, hcount], hsize⟩

section

variable {s h x r : Text} {c : Char} (p : Text) (hs : Calls s h x c r)

include hs

/-- The object of an argument is the one found behind its leading blanks. -/
theorem leadingObject?_of_object {y lead b z : Text} {e : Char}
    (hlead : ∀ c ∈ lead, isAsciiBlank c = true) (hobj : ObjectArgument x (y ++ lead) b e z)
    (w : Text) :
    leadingObject? (p ++ s) (p.byteSize + h.byteSize + 1 + y.byteSize, lead ++ '{' :: w) =
      some ((objectSpan (p.length + h.length + 1) (y ++ lead) b).inBytes (p ++ s)) := by
  have hoffset : p.byteSize + h.byteSize + 1 + y.byteSize + lead.byteSize =
      p.byteSize + h.byteSize + 1 + Text.byteSize (y ++ lead) := by
    rw [Text.byteSize_append, Nat.add_assoc]
  rw [leadingObject?_append hlead, hoffset, (closingByte?_objectArgument p hs hobj).2,
    inBytes_objectArgument p hs hobj]
  rfl

/-- **The objects among the arguments, by number.** The argument with number `k` starts with an
object exactly if an object stands behind `k` separating commas. -/
theorem leadingObject?_getElem? {k : Nat} {o : BracketSpan} :
    (placeParts (p.byteSize + h.byteSize + 1) (splitArguments x))[k]?.bind
        (leadingObject? (p ++ s)) = some o ↔
      ∃ y b e z, ObjectArgument x y b e z ∧ separators 0 y = k ∧
        o = (objectSpan (p.length + h.length + 1) y b).inBytes (p ++ s) := by
  rw [Option.bind_eq_some_iff]
  constructor
  · rintro ⟨⟨n, a⟩, hq, ho⟩
    obtain ⟨init, rest, hsplit, rfl, rfl⟩ := getElem?_placeParts.1 hq
    obtain ⟨y, lead, b, z, tail, e, rfl, hlead, hobj, hcount, hsize⟩ :=
      exists_object_of_argument hs.balanced hsplit (startsWithBrace_of_leadingObject? ho)
    rw [← hsize, leadingObject?_of_object p hs hlead hobj] at ho
    exact ⟨y ++ lead, b, e, z, hobj, hcount, (Option.some.inj ho).symm⟩
  · rintro ⟨y, b, e, z, hobj, rfl, rfl⟩
    obtain ⟨y, lead, rfl, hy, hlast, hlead⟩ := hobj.start
    obtain ⟨init, tail, rest, hsplit, hcount, hsize⟩ :=
      exists_splitArguments_object (z := z) hy.depth_eq hlast hlead hobj.balanced hobj.closing
    rw [← List.append_assoc, ← hobj.eq] at hsplit
    rw [separators_append_blanks hlead, ← hcount]
    refine ⟨(p.byteSize + h.byteSize + 1 + partsSize init, lead ++ '{' :: (b ++ e :: tail)),
      getElem?_placeParts.2 ⟨init, rest, hsplit, rfl, rfl⟩, ?_⟩
    rw [hsize]
    exact leadingObject?_of_object p hs hlead hobj _

/-- Every argument stands at its offset. -/
theorem occursAt_of_mem_placeParts {q : Nat × Text}
    (hq : q ∈ placeParts (p.byteSize + h.byteSize + 1) (splitArguments x)) :
    (p ++ s).OccursAt q.2 q.1 := by
  obtain ⟨k, hk⟩ := List.mem_iff_getElem?.1 hq
  obtain ⟨init, rest, hsplit, -, hoffset⟩ := getElem?_placeParts.1 hk
  obtain ⟨y, z, hx, -, -, -, hsize⟩ := exists_argument hsplit
  have heq : p ++ s = (p ++ (h ++ '(' :: y)) ++ (q.2 ++ (z ++ c :: r)) := by
    rw [hs.eq, hx]
    simp
  rw [heq, hoffset, ← hsize, ← byteSize_behind_paren]
  exact Text.occursAt_append _ _ _

/-- The object of an argument lies in the argument. -/
theorem leadingObject?_inside {q : Nat × Text}
    (hq : q ∈ placeParts (p.byteSize + h.byteSize + 1) (splitArguments x))
    (hbrace : startsWithBrace q.2 = true) :
    ∃ o, leadingObject? (p ++ s) q = some o ∧ q.1 ≤ o.first ∧ o.first < o.last ∧
      o.last < q.1 + q.2.byteSize := by
  obtain ⟨n, a⟩ := q
  obtain ⟨k, hk⟩ := List.mem_iff_getElem?.1 hq
  obtain ⟨init, rest, hsplit, -, rfl⟩ := getElem?_placeParts.1 hk
  obtain ⟨y, lead, b, z, tail, e, rfl, hlead, hobj, -, hsize⟩ :=
    exists_object_of_argument hs.balanced hsplit hbrace
  have hlast : Text.byteSize (lead ++ '{' :: (b ++ e :: tail)) =
      lead.byteSize + 1 + b.byteSize + 1 + tail.byteSize := by
    rw [Text.byteSize_append, Text.byteSize_ascii (by decide), Text.byteSize_append,
      Text.byteSize_ascii (isAscii_of_isClosing hobj.closing)]
    omega
  rw [← hsize]
  refine ⟨_, leadingObject?_of_object p hs hlead hobj _, ?_⟩
  rw [inBytes_objectArgument p hs hobj, Text.byteSize_append, hlast]
  exact ⟨by dsimp only; omega, by dsimp only; omega, by dsimp only; omega⟩

theorem mem_filterMap_leadingObject? {o : BracketSpan} :
    o ∈ (placeParts (p.byteSize + h.byteSize + 1) (splitArguments x)).filterMap
        (leadingObject? (p ++ s)) ↔
      ∃ y b e z, ObjectArgument x y b e z ∧
        o = (objectSpan (p.length + h.length + 1) y b).inBytes (p ++ s) := by
  rw [List.mem_filterMap]
  constructor
  · rintro ⟨q, hq, ho⟩
    obtain ⟨k, hk⟩ := List.mem_iff_getElem?.1 hq
    obtain ⟨y, b, e, z, hobj, -, rfl⟩ :=
      (leadingObject?_getElem? p hs).1 (Option.bind_eq_some_iff.2 ⟨q, hk, ho⟩)
    exact ⟨y, b, e, z, hobj, rfl⟩
  · rintro ⟨y, b, e, z, hobj, ho⟩
    obtain ⟨q, hk, hq⟩ :=
      Option.bind_eq_some_iff.1 ((leadingObject?_getElem? p hs).2 ⟨y, b, e, z, hobj, rfl, ho⟩)
    exact ⟨q, List.mem_of_getElem? hk, hq⟩

/-- The objects of the arguments stand one behind the other, as the arguments do. -/
theorem pairwise_filterMap_leadingObject? :
    ((placeParts (p.byteSize + h.byteSize + 1) (splitArguments x)).filterMap
      (leadingObject? (p ++ s))).Pairwise
        fun o o' => o.first < o'.first ∧ o.last < o'.first := by
  refine List.pairwise_filterMap.2 ((pairwise_placeParts _ _).imp_of_mem ?_)
  intro q q' hq hq' hlt o ho o' ho'
  obtain ⟨_, hobject, -, hfirst, hlast⟩ :=
    leadingObject?_inside p hs hq (startsWithBrace_of_leadingObject? ho)
  obtain ⟨_, hobject', hfirst', -, -⟩ :=
    leadingObject?_inside p hs hq' (startsWithBrace_of_leadingObject? ho')
  obtain rfl := Option.some.inj (ho.symm.trans hobject)
  obtain rfl := Option.some.inj (ho'.symm.trans hobject')
  omega

variable {a : ArgumentList} (ha : ArgumentList.read? (p ++ s) p.length = some a)

include ha

/-- **The objects are those of the arguments.** Both lists are sorted, and they have the same
members. -/
theorem map_inBytes_objects :
    (a.objects (p ++ s)).map (·.inBytes (p ++ s)) =
      (placeParts (p.byteSize + h.byteSize + 1) (splitArguments x)).filterMap
        (leadingObject? (p ++ s)) := by
  have hmem : ∀ span, span ∈ a.objects (p ++ s) ↔ ∃ y b e z, ObjectArgument x y b e z ∧
      span = objectSpan (p.length + h.length + 1) y b := by
    obtain ⟨options, hread, -⟩ := ArgumentList.read?_of_calls p hs
    obtain rfl := Option.some.inj (ha.symm.trans hread)
    exact fun span => ArgumentList.mem_objects_iff p hs rfl rfl
  have hsorted : ((a.objects (p ++ s)).map (·.inBytes (p ++ s))).Pairwise
      fun o o' => o.first < o'.first := by
    rw [← ArgumentList.objects_byteChars ha]
    exact ArgumentList.pairwise_objectsFrom _ _ _ _ _ _ _
  refine ArgumentList.eq_of_pairwise_first hsorted
    ((pairwise_filterMap_leadingObject? p hs).imp And.left) fun o => ?_
  rw [mem_filterMap_leadingObject? p hs, List.mem_map]
  constructor
  · rintro ⟨span, hspan, rfl⟩
    obtain ⟨y, b, e, z, hobj, rfl⟩ := (hmem span).1 hspan
    exact ⟨y, b, e, z, hobj, rfl⟩
  · rintro ⟨y, b, e, z, hobj, rfl⟩
    exact ⟨_, (hmem _).2 ⟨y, b, e, z, hobj, rfl⟩, rfl⟩

/-- The options object is the object of the third argument. -/
theorem map_inBytes_options :
    a.options.map (·.inBytes (p ++ s)) =
      (placeParts (p.byteSize + h.byteSize + 1) (splitArguments x))[2]?.bind
        (leadingObject? (p ++ s)) := by
  obtain ⟨options, hread, hoptions⟩ := ArgumentList.read?_of_calls p hs
  obtain rfl := Option.some.inj (ha.symm.trans hread)
  refine Option.ext fun o => ?_
  rw [leadingObject?_getElem? p hs, Option.map_eq_some_iff]
  constructor
  · rintro ⟨span, hspan, rfl⟩
    obtain ⟨y, b, e, z, hobj, hcount, rfl⟩ := (hoptions span).1 hspan
    exact ⟨y, b, e, z, hobj, hcount, rfl⟩
  · rintro ⟨y, b, e, z, hobj, hcount, rfl⟩
    exact ⟨_, (hoptions _).2 ⟨y, b, e, z, hobj, hcount, rfl⟩, rfl⟩

end

/-- The arguments of a list with their byte offsets. -/
def argumentsAt (t : Text) (a : ArgumentList) : List (Nat × Text) :=
  placeParts (t.byteOffset a.opening + 1) (splitArguments (a.arguments t))

/-- The objects that are found in an argument list are those with which its arguments start. -/
structure SplitsAtCommas (t : Text) (a : ArgumentList) : Prop where
  /-- The arguments fill the text between the parentheses, with a comma between each two. -/
  join : Text.join [','] ((argumentsAt t a).map Prod.snd) = a.arguments t
  /-- Every argument stands at its offset. -/
  occurs : ∀ q ∈ argumentsAt t a, t.OccursAt q.2 q.1
  /-- The objects are those of the arguments that start with a brace, in order. -/
  objects : (a.objects t).map (·.inBytes t) = (argumentsAt t a).filterMap (leadingObject? t)
  /-- Such an argument has an object, and it lies in the argument. -/
  inside : ∀ q ∈ argumentsAt t a, startsWithBrace q.2 = true →
    ∃ o, leadingObject? t q = some o ∧ q.1 ≤ o.first ∧ o.first < o.last ∧
      o.last < q.1 + q.2.byteSize
  /-- The objects ascend and do not overlap. -/
  ascending : ((a.objects t).map (·.inBytes t)).Pairwise fun o o' => o.last < o'.first
  /-- The options object is the object of the third argument. -/
  options : a.options.map (·.inBytes t) = (argumentsAt t a)[2]?.bind (leadingObject? t)
  /-- The options object is one of the objects. -/
  options_mem : ∀ o ∈ a.options, o ∈ a.objects t

/-- **Both searches for objects split the arguments at the commas.** The arguments of a list that is
read are the parts between the commas outside of all inner brackets. The objects are exactly those
with which an argument starts, and the options object is that of the third argument. -/
theorem objects_of_arguments {t : Text} {start : Nat} {a : ArgumentList}
    (ha : ArgumentList.readByte t start = .ok a) : SplitsAtCommas t a := by
  obtain ⟨i, -, hread⟩ := read?_of_readByte ha
  obtain ⟨p, s, h, x, c, r, rfl, rfl, hs, hopening, hclosing⟩ :=
    ArgumentList.exists_calls_of_read? hread
  have harguments : a.arguments (p ++ s) = x := arguments_of_calls p hs hopening hclosing
  have hplace : argumentsAt (p ++ s) a =
      placeParts (p.byteSize + h.byteSize + 1) (splitArguments x) := by
    rw [argumentsAt, harguments, hopening, (ArgumentList.byteOffset_calls p hs).1]
  have hobjects := map_inBytes_objects p hs hread
  have hoptions := map_inBytes_options p hs hread
  refine ⟨?_, ?_, hplace ▸ hobjects, ?_, ?_, hplace ▸ hoptions, ?_⟩
  · rw [hplace, map_snd_placeParts, harguments]
    exact join_splitFrom 0 x
  · rw [hplace]
    exact fun q hq => occursAt_of_mem_placeParts p hs hq
  · rw [hplace]
    exact fun q hq hbrace => leadingObject?_inside p hs hq hbrace
  · rw [hobjects]
    exact (pairwise_filterMap_leadingObject? p hs).imp And.right
  · exact fun o ho => Checked.mem_objects_of_options hread ho

/-- Blanks and a line break before objects, an object in a call, one that goes on as an expression and
an argument with nothing in it. -/
def mixedArguments : Text :=
  "éf( \x7ba: [1, 2]\x7d, g(\x7b\x7d, x), \n\x7bb: \x7bc: 1\x7d\x7d || d, , \x7b\x7d)".toList

theorem objects_of_arguments_mixedArguments :
    let a : ArgumentList := ⟨2, 50, some ⟨28, 38⟩⟩
    ArgumentList.readByte mixedArguments 2 = .ok a ∧
      (a.objects mixedArguments).map (·.inBytes mixedArguments) =
        [⟨5, 15⟩, ⟨29, 39⟩, ⟨49, 50⟩] ∧
      SplitsAtCommas mixedArguments a := by
  intro a
  have hread : ArgumentList.readByte mixedArguments 2 = .ok a := by decide +kernel
  exact ⟨hread, by decide +kernel, objects_of_arguments hread⟩

end Stylewire
