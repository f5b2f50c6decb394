import Stylewire.Proofs.ByteText
import Stylewire.Proofs.Scan

set_option autoImplicit false

/-! # Scans of bytes

The scans for brackets, argument lists and objects can be run on the bytes of a text as well as on
its characters. Each of them is known by the ways to cut a text that it finds, and such a cut of the
bytes is one of the text. So the scans of the bytes find what those of the characters find, at the
byte offsets of the same positions.
-/

namespace Stylewire

open Brackets Text

/-! ## Spans in bytes -/

/-- The span with byte offsets in place of positions. -/
def BracketSpan.inBytes (o : BracketSpan) (t : Text) : BracketSpan :=
  ⟨t.byteOffset o.first, t.byteOffset o.last⟩

/-- The argument list with byte offsets in place of positions. -/
def ArgumentList.inBytes (a : ArgumentList) (t : Text) : ArgumentList :=
  ⟨t.byteOffset a.opening, t.byteOffset a.closing, a.options.map (·.inBytes t)⟩

theorem inBytes_objectSpan (p y b r : Text) (c : Char) :
    (objectSpan p.length y b).inBytes (p ++ (y ++ '{' :: (b ++ c :: r))) =
      objectSpan p.byteChars.length y.byteChars b.byteChars := by
  have hfirst := byteOffset_append_append p y ('{' :: (b ++ c :: r))
  have hlast := byteOffset_append_cons (o := '{') (by decide) (p ++ y) b (c :: r)
  rw [List.length_append, byteSize_append, List.append_assoc] at hlast
  rw [BracketSpan.inBytes, objectSpan, objectSpan, hfirst, hlast]
  simp only [length_byteChars]

/-! ## Brackets -/

section

variable {s : Brackets}

theorem depth_byteChars (s : Brackets) (t : Text) : s.depth t.byteChars = s.depth t := by
  induction t with
  | nil => rfl
  | cons c t ih =>
      cases hc : isAscii c with
      | true => rw [byteChars_ascii hc, depth_cons, depth_cons, ih]
      | false =>
          obtain ⟨hs, hhigh, heq⟩ := byteChars_high hc
          rw [heq, depth_append, ih, depth_cons, weight_of_not_isAscii hc,
            depth_eq_zero_of_weight fun d hd => weight_of_not_isAscii (hhigh d hd)]

theorem above_byteChars {d : Int} {t : Text} : s.Above d t.byteChars ↔ s.Above d t := by
  induction t generalizing d with
  | nil => rfl
  | cons c t ih =>
      cases hc : isAscii c with
      | true => rw [byteChars_ascii hc, Above, Above, ih]
      | false =>
          obtain ⟨hs, hhigh, heq⟩ := byteChars_high hc
          have hweight : ∀ d ∈ hs, s.weight d = 0 :=
            fun d hd => weight_of_not_isAscii (hhigh d hd)
          rw [heq, above_append, Above, weight_of_not_isAscii hc, depth_eq_zero_of_weight hweight,
            ih]
          exact ⟨fun h => ⟨h.1.nonneg, h.2⟩, fun h => ⟨above_of_weight h.1 hweight, h.2⟩⟩

theorem balanced_byteChars {t : Text} : s.Balanced t.byteChars ↔ s.Balanced t :=
  ⟨fun h => ⟨above_byteChars.1 h.above, by rw [← depth_byteChars, h.depth_eq]⟩,
    fun h => ⟨above_byteChars.2 h.above, by rw [depth_byteChars, h.depth_eq]⟩⟩

/-- **The closing bracket is the same in bytes.** An offset that is no boundary has none. -/
theorem closing?_byteChars (s : Brackets) (t : Text) (n : Nat) :
    s.closing? t.byteChars n = s.closingByte? t n := by
  refine Option.ext fun m => ?_
  constructor
  · intro h
    obtain ⟨p, o, x, c, r, heq, rfl, rfl, ho, hx, hc⟩ := closing?_eq_some_iff.1 h
    obtain ⟨p', k, rfl, rfl, hk⟩ := exists_cut_of_byteChars (isAscii_of_isOpening ho) heq
    obtain ⟨x', r', rfl, rfl, rfl⟩ := exists_cut_of_byteChars (isAscii_of_isClosing hc) hk
    have hclose : s.closing? (p' ++ o :: (x' ++ c :: r')) p'.length =
        some (p'.length + 1 + x'.length) :=
      closing?_eq_some_iff.2 ⟨p', o, x', c, r', rfl, rfl, rfl, ho, balanced_byteChars.1 hx, hc⟩
    have hpos : position? (p' ++ o :: (x' ++ c :: r')) p'.byteChars.length = some p'.length := by
      rw [length_byteChars, ← byteOffset_append p' (o :: (x' ++ c :: r'))]
      exact position?_byteOffset _ _ (by simp)
    have hoff : byteOffset (p' ++ o :: (x' ++ c :: r')) (p'.length + 1 + x'.length) =
        p'.byteChars.length + 1 + x'.byteChars.length := by
      rw [byteOffset_append_cons (isAscii_of_isOpening ho), length_byteChars, length_byteChars]
    rw [closingByte?, hpos]
    simp only [Option.bind_eq_bind, Option.bind_some, hclose, hoff]
    rfl
  · intro h
    rw [closingByte?] at h
    simp only [Option.bind_eq_bind, Option.bind_eq_some_iff] at h
    obtain ⟨i, hi, j, hj, hm⟩ := h
    obtain ⟨-, rfl⟩ := byteOffset_of_position? hi
    obtain ⟨p, o, x, c, r, rfl, rfl, rfl, ho, hx, hc⟩ := closing?_eq_some_iff.1 hj
    refine closing?_eq_some_iff.2 ⟨byteChars p, o, byteChars x, c, byteChars r, ?_, ?_, ?_, ho,
      balanced_byteChars.2 hx, hc⟩
    · rw [byteChars_append, byteChars_ascii (isAscii_of_isOpening ho), byteChars_append,
        byteChars_ascii (isAscii_of_isClosing hc)]
    · rw [byteOffset_append, length_byteChars]
    · rw [← Option.some.inj hm, byteOffset_append, byteOffset_append_cons (isAscii_of_isOpening ho),
        length_byteChars]

end

/-! ## Argument lists -/

theorem separators_byteChars (d : Int) (t : Text) : separators d t.byteChars = separators d t := by
  induction t generalizing d with
  | nil => rfl
  | cons c t ih =>
      cases hc : isAscii c with
      | true => rw [byteChars_ascii hc, separators, separators, ih]
      | false =>
          obtain ⟨hs, hhigh, heq⟩ := byteChars_high hc
          have hne : ∀ {e : Char}, isAscii e = false → e ≠ ',' := by
            rintro e he rfl
            exact absurd he (by decide)
          have hzero : ∀ {u : Text}, (∀ e ∈ u, isAscii e = false) → separators d u = 0 := by
            intro u hu
            induction u with
            | nil => rfl
            | cons e u ihu =>
                rw [separators, if_neg fun h => hne (hu e (by simp)) h.1,
                  weight_of_not_isAscii (hu e (by simp)), Int.add_zero,
                  ihu fun x hx => hu x (by simp [hx])]
          rw [heq, separators_append, hzero hhigh, separators, if_neg fun h => hne hc h.1,
            weight_of_not_isAscii hc,
            depth_eq_zero_of_weight fun e he => weight_of_not_isAscii (hhigh e he), ih]

theorem atArgument_byteChars {y : Text} : AtArgument y.byteChars ↔ AtArgument y := by
  constructor
  · rintro ⟨a, b, heq, ha, hlast, hb⟩
    have hascii : ∀ c ∈ b, isAscii c = true := fun c hc => isAscii_of_isAsciiBlank (hb c hc)
    rcases hlast with rfl | hlast
    · obtain rfl := eq_of_byteChars_ascii hascii heq
      exact ⟨[], y, rfl, Balanced.nil, Or.inl rfl, hb⟩
    · obtain ⟨u, rfl⟩ := List.getLast?_eq_some_iff.1 hlast
      rw [List.append_assoc, List.singleton_append] at heq
      obtain ⟨u', b', rfl, rfl, hb'⟩ := exists_cut_of_byteChars (by decide) heq
      obtain rfl := eq_of_byteChars_ascii hascii hb'
      refine ⟨u' ++ [','], b', by simp, ?_, Or.inr (by simp), hb⟩
      rw [← balanced_byteChars, byteChars_append]
      exact ha
  · rintro ⟨a, b, rfl, ha, hlast, hb⟩
    have hself := byteChars_eq_self fun c hc => isAscii_of_isAsciiBlank (hb c hc)
    refine ⟨a.byteChars, b, by rw [byteChars_append, hself], balanced_byteChars.2 ha, ?_, hb⟩
    rcases hlast with rfl | hlast
    · exact Or.inl rfl
    · obtain ⟨u, rfl⟩ := List.getLast?_eq_some_iff.1 hlast
      have hcomma : byteChars [','] = [','] := byteChars_ascii (by decide) []
      exact Or.inr (by rw [byteChars_append, hcomma, List.getLast?_concat])

/-- The objects among the arguments, in bytes. -/
theorem objectArgument_byteChars {x y' b' z' : Text} {c : Char} :
    ObjectArgument x.byteChars y' b' c z' ↔
      ∃ y b z, ObjectArgument x y b c z ∧ y.byteChars = y' ∧ b.byteChars = b' ∧
        z.byteChars = z' := by
  constructor
  · intro h
    obtain ⟨y, k, rfl, rfl, hk⟩ := exists_cut_of_byteChars (by decide) h.eq
    obtain ⟨b, z, rfl, rfl, rfl⟩ := exists_cut_of_byteChars (isAscii_of_isClosing h.closing) hk
    exact ⟨y, b, z, ⟨rfl, atArgument_byteChars.1 h.start, balanced_byteChars.1 h.balanced,
      h.closing⟩, rfl, rfl, rfl⟩
  · rintro ⟨y, b, z, h, rfl, rfl, rfl⟩
    refine ⟨?_, atArgument_byteChars.2 h.start, balanced_byteChars.2 h.balanced, h.closing⟩
    rw [h.eq, byteChars_append, byteChars_ascii (by decide), byteChars_append,
      byteChars_ascii (isAscii_of_isClosing h.closing)]

/-- The call that a text starts with, in bytes. -/
theorem calls_byteChars {s h' x' r' : Text} {c : Char} :
    Calls s.byteChars h' x' c r' ↔
      ∃ h x r, Calls s h x c r ∧ h.byteChars = h' ∧ x.byteChars = x' ∧ r.byteChars = r' := by
  constructor
  · intro hs
    obtain ⟨h, k, rfl, rfl, hk⟩ := exists_cut_of_byteChars (by decide) hs.eq
    obtain ⟨x, r, rfl, rfl, rfl⟩ := exists_cut_of_byteChars (isAscii_of_isClosing hs.closing) hk
    exact ⟨h, x, r, ⟨rfl, mt (mem_byteChars_iff (by decide)).2 hs.head,
      balanced_byteChars.1 hs.balanced, hs.closing⟩, rfl, rfl, rfl⟩
  · rintro ⟨h, x, r, hs, rfl, rfl, rfl⟩
    refine ⟨?_, mt (mem_byteChars_iff (by decide)).1 hs.head, balanced_byteChars.2 hs.balanced,
      hs.closing⟩
    rw [hs.eq, byteChars_append, byteChars_ascii (by decide), byteChars_append,
      byteChars_ascii (isAscii_of_isClosing hs.closing)]

namespace ArgumentList

/-- The offsets of the two brackets of a call. -/
theorem byteOffset_calls {s h x r : Text} {c : Char} (p : Text) (hs : Calls s h x c r) :
    byteOffset (p ++ s) (p.length + h.length) = p.byteSize + h.byteSize ∧
      byteOffset (p ++ s) (p.length + h.length + 1 + x.length) =
        p.byteSize + h.byteSize + 1 + x.byteSize := by
  have hclosing := byteOffset_append_cons (o := '(') (by decide) (p ++ h) x (c :: r)
  rw [List.length_append, byteSize_append, List.append_assoc] at hclosing
  rw [hs.eq]
  exact ⟨byteOffset_append_append p h _, hclosing⟩

/-- An object of a call, in bytes. -/
theorem inBytes_object {s h x r y b z : Text} {c e : Char} (p : Text) (hs : Calls s h x c r)
    (hobj : ObjectArgument x y b e z) :
    (objectSpan (p.length + h.length + 1) y b).inBytes (p ++ s) =
      objectSpan (p.byteSize + h.byteSize + 1) y.byteChars b.byteChars := by
  have hlen : (p ++ (h ++ ['('])).length = p.length + h.length + 1 := by
    simp only [List.length_append, List.length_cons, List.length_nil]
    omega
  have hsize : (p ++ (h ++ ['('])).byteChars.length = p.byteSize + h.byteSize + 1 := by
    rw [length_byteChars, byteSize_append, byteSize_append, byteSize_ascii (by decide), byteSize]
    omega
  have heq : p ++ s = p ++ (h ++ ['(']) ++ (y ++ '{' :: (b ++ e :: (z ++ c :: r))) := by
    rw [hs.eq, hobj.eq]
    simp
  rw [heq, ← hlen, ← hsize]
  exact inBytes_objectSpan _ _ _ _ _

/-- **The argument list is the same in bytes.** -/
theorem read?_byteChars {t : Text} {i : Nat} (hi : i ≤ t.length) :
    read? t.byteChars (t.byteOffset i) = (read? t i).map (·.inBytes t) := by
  obtain ⟨p, s, rfl, rfl⟩ := exists_cut hi
  rw [byteOffset_append, ← length_byteChars, byteChars_append]
  by_cases hcalls : ∃ h x c r, Calls s h x c r
  · obtain ⟨h, x, c, r, hs⟩ := hcalls
    obtain ⟨hopening, hclosing⟩ := byteOffset_calls p hs
    obtain ⟨o, hread, ho⟩ := read?_of_calls p hs
    obtain ⟨o', hread', ho'⟩ := read?_of_calls p.byteChars
      (calls_byteChars.2 ⟨h, x, r, hs, rfl, rfl, rfl⟩)
    have hoptions : o' = o.map (·.inBytes (p ++ s)) := by
      cases o with
      | none =>
          refine Option.eq_none_iff_forall_ne_some.2 fun span hspan => ?_
          obtain ⟨y', b', e, z', hobj', hsep, -⟩ := (ho' span).1 hspan
          obtain ⟨y, b, z, hobj, rfl, -, -⟩ := objectArgument_byteChars.1 hobj'
          rw [separators_byteChars] at hsep
          cases (ho _).2 ⟨y, b, e, z, hobj, hsep, rfl⟩
      | some span =>
          obtain ⟨y, b, e, z, hobj, hsep, rfl⟩ := (ho span).1 rfl
          rw [Option.map_some, inBytes_object p hs hobj]
          refine (ho' _).2 ⟨y.byteChars, b.byteChars, e, z.byteChars,
            objectArgument_byteChars.2 ⟨y, b, z, hobj, rfl, rfl, rfl⟩, ?_, ?_⟩
          · rw [separators_byteChars, hsep]
          · rw [length_byteChars, length_byteChars]
    rw [hread, hread', hoptions, Option.map_some, inBytes, hopening, hclosing, length_byteChars,
      length_byteChars, length_byteChars]
  · have hno : ∀ h x c r, ¬ Calls s h x c r := fun h x c r hs => hcalls ⟨h, x, c, r, hs⟩
    have hno' : ∀ h x c r, ¬ Calls s.byteChars h x c r := by
      intro h' x' c r' hs'
      obtain ⟨h, x, r, hs, -⟩ := calls_byteChars.1 hs'
      exact hno h x c r hs
    rw [read?_eq_none_iff.2 hno, read?_eq_none_iff.2 hno', Option.map_none]

/-! ## Objects -/

theorem le_first_of_mem_objectsFrom {whole rest : Text} {closing skip pos : Nat} {depth : Int}
    {fresh : Bool} {o : BracketSpan}
    (h : o ∈ objectsFrom whole closing skip pos depth fresh rest) : pos ≤ o.first := by
  fun_induction objectsFrom whole closing skip pos depth fresh rest with
  | case1 => cases h
  | case2 skip pos depth fresh c rest ih =>
      have := ih h
      omega
  | case3 =>
      rename_i ih
      rcases List.mem_cons.1 h with rfl | h
      · exact Nat.le_refl _
      · have := ih h
        omega
  | case4 =>
      rename_i ih
      have := ih h
      omega
  | case5 =>
      rename_i ih
      have := ih h
      omega

theorem pairwise_objectsFrom (whole rest : Text) (closing skip pos : Nat) (depth : Int)
    (fresh : Bool) :
    (objectsFrom whole closing skip pos depth fresh rest).Pairwise
      fun o o' => o.first < o'.first := by
  fun_induction objectsFrom whole closing skip pos depth fresh rest with
  | case1 => exact List.Pairwise.nil
  | case2 => assumption
  | case3 =>
      rename_i ih
      refine List.Pairwise.cons (fun o ho => ?_) ih
      exact le_first_of_mem_objectsFrom ho
  | case4 => assumption
  | case5 => assumption

/-- Two lists of spans in the order of their starts are equal if they have the same spans. -/
theorem eq_of_pairwise_first {l l' : List BracketSpan}
    (h : l.Pairwise fun o o' => o.first < o'.first)
    (h' : l'.Pairwise fun o o' => o.first < o'.first) (hmem : ∀ o, o ∈ l ↔ o ∈ l') : l = l' := by
  have hnodup : ∀ {l : List BracketSpan}, l.Pairwise (fun o o' => o.first < o'.first) →
      l.Nodup := by
    intro l hl
    refine hl.imp fun {o o'} hlt heq => ?_
    rw [heq] at hlt
    exact Nat.lt_irrefl _ hlt
  exact ((List.perm_ext_iff_of_nodup (hnodup h) (hnodup h')).2 hmem).eq_of_pairwise
    (fun o o' _ _ hlt hlt' => absurd hlt' (Nat.lt_asymm hlt)) h h'

/-- **The objects of an argument list are the same in bytes.** -/
theorem objects_byteChars {t : Text} {i : Nat} {a : ArgumentList} (ha : read? t i = some a) :
    (a.inBytes t).objects t.byteChars = (a.objects t).map (·.inBytes t) := by
  obtain ⟨p, s, h, x, c, r, rfl, rfl, hs, hopening, hclosing⟩ := exists_calls_of_read? ha
  obtain ⟨hopening', hclosing'⟩ := byteOffset_calls p hs
  have hs' := calls_byteChars.2 ⟨h, x, r, hs, rfl, rfl, rfl⟩
  have hmem : ∀ o, o ∈ (a.inBytes (p ++ s)).objects (p ++ s).byteChars ↔
      o ∈ (a.objects (p ++ s)).map (·.inBytes (p ++ s)) := by
    intro o
    rw [byteChars_append, mem_objects_iff p.byteChars hs' (by
        rw [inBytes, hopening, hopening', length_byteChars, length_byteChars]) (by
        rw [inBytes, hclosing, hclosing', length_byteChars, length_byteChars, length_byteChars]),
      List.mem_map]
    constructor
    · rintro ⟨y', b', e, z', hobj', rfl⟩
      obtain ⟨y, b, z, hobj, rfl, rfl, rfl⟩ := objectArgument_byteChars.1 hobj'
      refine ⟨_, (mem_objects_iff p hs hopening hclosing).2 ⟨y, b, e, z, hobj, rfl⟩, ?_⟩
      rw [inBytes_object p hs hobj, length_byteChars, length_byteChars]
    · rintro ⟨o, ho, rfl⟩
      obtain ⟨y, b, e, z, hobj, rfl⟩ := (mem_objects_iff p hs hopening hclosing).1 ho
      refine ⟨y.byteChars, b.byteChars, e, z.byteChars,
        objectArgument_byteChars.2 ⟨y, b, z, hobj, rfl, rfl, rfl⟩, ?_⟩
      rw [inBytes_object p hs hobj, length_byteChars, length_byteChars]
  refine eq_of_pairwise_first (pairwise_objectsFrom _ _ _ _ _ _ _) ?_ hmem
  rw [List.pairwise_map]
  refine (pairwise_objectsFrom _ _ _ _ _ _ _).imp_of_mem fun {o o'} ho ho' hlt => ?_
  obtain ⟨y, b, e, z, hobj, rfl⟩ := (mem_objects_iff p hs hopening hclosing).1 ho
  refine byteOffset_lt hlt ?_
  rw [hs.eq, hobj.eq]
  simp only [objectSpan, List.length_append, List.length_cons]
  omega

end ArgumentList

end Stylewire
