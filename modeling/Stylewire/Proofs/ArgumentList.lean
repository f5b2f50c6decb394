import Stylewire.ArgumentList
import Stylewire.Proofs.Bracket

set_option autoImplicit false

/-! # What is read off an argument list

The reader of an argument list and the search for its objects each make one pass with a depth
counter. Here their results are told by how the text is cut:

* `read?_of_calls` and `read?_eq_none_iff`: there is an argument list exactly if the first
  parenthesis is followed by a balanced text and a closing bracket (`Calls`);
* `mem_objects_iff`: the objects are the stretches from `{` to its closing bracket where `{` is
  the first character of an argument that is no blank (`ObjectArgument`);
* the options object is the one of them with two separating commas before it.
-/

namespace Stylewire

open Brackets

/-! ## Separating commas and the starts of arguments -/

/-- The number of commas in the text at which the depth, counted from `d`, is zero. -/
def separators : (d : Int) → Text → Nat
  | _, [] => 0
  | d, c :: t => (if c = ',' ∧ d = 0 then 1 else 0) + separators (d + all.weight c) t

theorem separators_append (d : Int) (t u : Text) :
    separators d (t ++ u) = separators d t + separators (d + all.depth t) u := by
  induction t generalizing d with
  | nil => simp [separators]
  | cons c t ih =>
      rw [List.cons_append, separators, separators, ih, depth_cons]
      simp only [← Int.add_assoc, Nat.add_assoc]

theorem separators_concat (t : Text) (c : Char) :
    separators 0 (t ++ [c]) = separators 0 t + if c = ',' ∧ all.depth t = 0 then 1 else 0 := by
  rw [separators_append]
  simp [separators]

/-- The place behind the text is at the start of an argument: only blanks stand between it and
the separating comma before it, or the parenthesis. -/
def AtArgument (y : Text) : Prop :=
  ∃ a b, y = a ++ b ∧ all.Balanced a ∧ (a = [] ∨ a.getLast? = some ',') ∧
    ∀ c ∈ b, isAsciiBlank c = true

theorem atArgument_nil : AtArgument [] := ⟨[], [], rfl, Balanced.nil, Or.inl rfl, by simp⟩

/-- One character further, the place is at the start of an argument if the character is a
blank or a separating comma. -/
theorem atArgument_concat {y : Text} {c : Char} :
    AtArgument (y ++ [c]) ↔
      (AtArgument y ∧ isAsciiBlank c = true) ∨ (c = ',' ∧ all.Balanced y) := by
  constructor
  · rintro ⟨a, b, h, ha, hlast, hb⟩
    rcases List.eq_nil_or_concat b with rfl | ⟨b, e, rfl⟩
    · rw [List.append_nil] at h
      subst h
      rcases hlast with h | h
      · simp at h
      · obtain rfl : c = ',' := by simpa using h
        have hd := ha.depth_eq
        rw [depth_append] at hd
        exact Or.inr ⟨rfl, ha.of_append_left (by simpa [weight, isOpening, isClosing] using hd)⟩
    · rw [List.concat_eq_append, ← List.append_assoc] at h
      obtain ⟨rfl, he⟩ := List.append_inj' h rfl
      obtain rfl : c = e := by simpa using he
      exact Or.inl ⟨⟨a, b, rfl, ha, hlast, fun x hx => hb x (by simp [hx])⟩, hb c (by simp)⟩
  · rintro (⟨⟨a, b, rfl, ha, hlast, hb⟩, hc⟩ | ⟨rfl, hy⟩)
    · refine ⟨a, b ++ [c], by simp, ha, hlast, fun x hx => ?_⟩
      rcases List.mem_append.1 hx with hx | hx
      · exact hb x hx
      · rw [List.mem_singleton.1 hx]
        exact hc
    · exact ⟨y ++ [','], [], by simp, hy.append (Balanced.of_all (by decide)),
        Or.inr (by simp), by simp⟩

theorem AtArgument.depth_eq {y : Text} (h : AtArgument y) : all.depth y = 0 := by
  obtain ⟨a, b, rfl, ha, -, hb⟩ := h
  rw [depth_append, ha.depth_eq, depth_eq_zero_of_weight fun c hc =>
    weight_of_isBlank (isBlank_of_isAsciiBlank (hb c hc))]
  rfl

/-- Right behind a closing bracket no argument starts. -/
theorem not_atArgument_of_isClosing {y : Text} {c : Char} (hc : all.isClosing c = true) :
    ¬ AtArgument (y ++ [c]) := by
  rw [atArgument_concat]
  rintro (⟨-, hblank⟩ | ⟨rfl, -⟩)
  · simp only [isAsciiBlank, Bool.or_eq_true, beq_iff_eq] at hblank
    rcases hblank with (((rfl | rfl) | rfl) | rfl) | rfl <;> cases hc
  · cases hc

/-- A brace before the start of an argument lies in the arguments before it. -/
theorem AtArgument.cut {y z : Text} (h : AtArgument (y ++ '{' :: z)) :
    ∃ z' b, z = z' ++ b ∧ all.Balanced (y ++ '{' :: z') ∧
      (y ++ '{' :: z').getLast? = some ',' := by
  obtain ⟨a, b, hab, ha, hlast, hb⟩ := h
  rcases List.append_eq_append_iff.1 hab with ⟨w, rfl, hw⟩ | ⟨w, rfl, hw⟩
  · cases w with
    | nil =>
        have : isAsciiBlank '{' = true := hb _ (by rw [← List.nil_append b, ← hw]; simp)
        exact absurd this (by decide)
    | cons e w =>
        obtain ⟨rfl, rfl⟩ : '{' = e ∧ z = w ++ b := by simpa using hw
        exact ⟨w, b, rfl, ha, hlast.resolve_left (by simp)⟩
  · have : isAsciiBlank '{' = true := hb _ (by rw [hw]; simp)
    exact absurd this (by decide)

/-- The start of an argument is not inside a brace that is still open. -/
theorem AtArgument.not_open {y z : Text} (h : AtArgument (y ++ '{' :: z))
    (hy : AtArgument y) (hz : all.Above 0 z) : False := by
  obtain ⟨z', b, rfl, hbal, -⟩ := h.cut
  have hd := hbal.depth_eq
  have h0 := (above_append.1 hz).1.nonneg_end
  have hw : all.weight '{' = 1 := by decide
  rw [depth_append, depth_cons, hw, hy.depth_eq] at hd
  omega

/-- More commas separate a later argument from the start of the list than a brace before it. -/
theorem AtArgument.separators_lt {y z : Text} (h : AtArgument (y ++ '{' :: z)) :
    separators 0 y < separators 0 (y ++ '{' :: z) := by
  obtain ⟨z', b, rfl, hbal, hlast⟩ := h.cut
  -- The arguments before the later one end with a separating comma behind `y`.
  obtain ⟨q, hq⟩ := List.getLast?_eq_some_iff.1 hlast
  obtain ⟨w, rfl⟩ : y <+: q := by
    refine List.prefix_of_prefix_length_le ⟨'{' :: z', rfl⟩ ⟨[','], hq.symm⟩ ?_
    have hl := congrArg List.length hq
    simp only [List.length_append, List.length_cons, List.length_nil] at hl
    omega
  have hd : all.depth (y ++ w) = 0 := by
    have hdq := hbal.depth_eq
    rw [hq, depth_append] at hdq
    have hw : all.depth [','] = 0 := by decide
    omega
  rw [← List.cons_append, ← List.append_assoc, hq, separators_append, separators_concat,
    if_pos ⟨rfl, hd⟩, separators_append]
  omega

/-! ## Objects among the arguments -/

/-- In the text `x` between the parentheses, an argument starts with `{`: before it stands
`y`, inside it up to its closing bracket `c` stands `b`, and behind it `z`. -/
structure ObjectArgument (x y b : Text) (c : Char) (z : Text) : Prop where
  eq : x = y ++ '{' :: (b ++ c :: z)
  start : AtArgument y
  balanced : all.Balanced b
  closing : all.isClosing c = true

/-- The span of an object when the list starts at position `pos`. -/
def objectSpan (pos : Nat) (y b : Text) : BracketSpan :=
  ⟨pos + y.length, pos + y.length + 1 + b.length⟩

/-- A brace in a balanced text is closed in it. -/
theorem exists_object {y z : Text} (hx : all.Balanced (y ++ '{' :: z)) :
    ∃ b c q, z = b ++ c :: q ∧ all.Balanced b ∧ all.isClosing c = true :=
  hx.closed.of_append_right.exists_closing (by decide)

theorem closing?_object {p y b q r : Text} {c e : Char} (hb : all.Balanced b)
    (hc : all.isClosing c = true) :
    all.closing? (p ++ (y ++ '{' :: (b ++ c :: q) ++ e :: r)) (p.length + y.length) =
      some (p.length + y.length + 1 + b.length) :=
  closing?_eq_some_iff.2 ⟨p ++ y, '{', b, c, q ++ e :: r, by simp, by simp, by simp,
    by decide, hb, hc⟩

/-- Two objects that start at the same place are the same. -/
theorem ObjectArgument.unique {x y b b' z z' : Text} {c c' : Char}
    (h : ObjectArgument x y b c z) (h' : ObjectArgument x y b' c' z') :
    b = b' ∧ c = c' ∧ z = z' := by
  have heq := h.eq.symm.trans h'.eq
  have heq' : b ++ c :: z = b' ++ c' :: z' := by simpa using heq
  exact h.balanced.cut_unique h'.balanced h.closing h'.closing heq'

/-- An object that starts right behind `y` starts an argument there, with a brace. -/
theorem ObjectArgument.here {y z v b q : Text} {c e : Char}
    (h : ObjectArgument (y ++ c :: z) v b e q) (hlen : y.length = v.length) :
    v = y ∧ AtArgument y ∧ c = '{' := by
  obtain ⟨rfl, heq⟩ := List.append_inj h.eq hlen
  exact ⟨rfl, h.start, by simpa using congrArg List.head? heq⟩

/-- No bracket is open before an object. -/
theorem ObjectArgument.closed_before {x y b z : Text} {c : Char} (h : ObjectArgument x y b c z)
    (hx : all.Balanced x) : all.Closed y := by
  rw [h.eq] at hx
  exact (hx.of_append_left h.start.depth_eq).closed

/-- Of two objects, the one that starts later starts behind the other. -/
theorem ObjectArgument.behind {x y v b b' z z' : Text} {c c' : Char}
    (h : ObjectArgument x y b c z) (h' : ObjectArgument x v b' c' z')
    (hlt : y.length < v.length) : (y ++ '{' :: (b ++ [c])).length ≤ v.length := by
  refine Nat.le_of_not_lt fun hin => ?_
  have hpre : y ++ ['{'] <+: v := by
    refine List.prefix_of_prefix_length_le ⟨b ++ c :: z, ?_⟩ ⟨'{' :: (b' ++ c' :: z'), h'.eq.symm⟩
      (by rw [List.length_append]; exact hlt)
    rw [h.eq]
    simp
  obtain ⟨w, rfl⟩ := hpre
  -- The later object would start inside the brace, in the start `w` of `b`.
  have hw : w <+: b := by
    have heq := h.eq.symm.trans h'.eq
    have heq' : b ++ c :: z = w ++ '{' :: (b' ++ c' :: z') := by simpa using heq
    refine List.prefix_of_prefix_length_le ⟨_, heq'.symm⟩ ⟨c :: z, rfl⟩ ?_
    simp only [List.length_append, List.length_cons, List.length_nil] at hin
    omega
  obtain ⟨w', rfl⟩ := hw
  have hstart : AtArgument (y ++ '{' :: w) := by simpa using h'.start
  exact hstart.not_open h.start (above_append.1 h.balanced.above).1

namespace ArgumentList

/-! ## Reading the list

The reader and the search for objects both keep a flag that is set at the start of an argument,
until a character other than a blank is seen.
-/

theorem startsObject_eq_false {flag : Bool} {c : Char} (h : ¬ (flag = true ∧ c = '{')) :
    (flag && !isAsciiBlank c && c == '{') = false := by
  by_cases hf : flag = true
  · have hc : c ≠ '{' := fun hc => h ⟨hf, hc⟩
    simp [hc]
  · simp [hf]

theorem flag_and_not_seen (flag blank : Bool) :
    (flag && !(flag && !blank)) = (flag && blank) := by
  cases flag <;> simp

/-- What is known after `y`, the start of the text `x` between the parentheses, when the text
before `x` is `p`. -/
structure Reading (p x y : Text) (commas : Nat) (awaiting : Bool)
    (options : Option BracketSpan) : Prop where
  commas_eq : commas = separators 0 y
  awaiting_iff : awaiting = true ↔ AtArgument y ∧ separators 0 y = 2
  options_iff : ∀ o, options = some o ↔
    ∃ v b c z, ObjectArgument x v b c z ∧ separators 0 v = 2 ∧ v.length < y.length ∧
      o = objectSpan p.length v b

theorem reading_nil (p x : Text) : Reading p x [] 0 false none := by
  refine ⟨rfl, by simp [separators], fun o => ?_⟩
  simp

/-- One character that starts no options object. -/
theorem Reading.step {p y z : Text} {c : Char} {commas : Nat} {awaiting : Bool}
    {options : Option BracketSpan} (h : Reading p (y ++ c :: z) y commas awaiting options)
    (hy : all.Above 0 y) (hc : ¬ (awaiting = true ∧ c = '{')) :
    Reading p (y ++ c :: z) (y ++ [c])
      (if c = ',' ∧ all.depth y = 0 then commas + 1 else commas)
      (if c = ',' ∧ all.depth y = 0 then commas + 1 == 2 else awaiting && isAsciiBlank c)
      options := by
  refine ⟨?_, ?_, fun o => (h.options_iff o).trans ?_⟩
  · rw [separators_concat, h.commas_eq]
    split <;> simp
  · rw [separators_concat, atArgument_concat, h.commas_eq]
    split
    · rename_i hcomma
      have hbal : all.Balanced y := ⟨hy, hcomma.2⟩
      simp [hcomma.1, hbal]
    · rename_i hcomma
      have hno : ¬ (c = ',' ∧ all.Balanced y) := fun hb => hcomma ⟨hb.1, hb.2.depth_eq⟩
      rw [Bool.and_eq_true, h.awaiting_iff, Nat.add_zero]
      constructor
      · rintro ⟨⟨ha, hs⟩, hb⟩
        exact ⟨Or.inl ⟨ha, hb⟩, hs⟩
      · rintro ⟨hor, hs⟩
        obtain ⟨ha, hb⟩ := hor.resolve_right hno
        exact ⟨⟨ha, hs⟩, hb⟩
  · constructor
    · rintro ⟨v, b, e, q, hobj, hsep, hlt, ho⟩
      exact ⟨v, b, e, q, hobj, hsep, by rw [List.length_append]; omega, ho⟩
    · rintro ⟨v, b, e, q, hobj, hsep, hlt, ho⟩
      refine ⟨v, b, e, q, hobj, hsep, ?_, ho⟩
      rw [List.length_append, List.length_singleton] at hlt
      refine Nat.lt_of_le_of_ne (by omega) fun hlen => hc ?_
      -- An object that starts right here would have been awaited.
      obtain ⟨rfl, hstart, hce⟩ := hobj.here hlen.symm
      exact ⟨h.awaiting_iff.2 ⟨hstart, hsep⟩, hce⟩

/-- The brace that starts the options object. -/
theorem Reading.step_object {p y b q : Text} {e : Char} {commas : Nat}
    {options : Option BracketSpan}
    (h : Reading p (y ++ '{' :: (b ++ e :: q)) y commas true options)
    (hb : all.Balanced b) (he : all.isClosing e = true) :
    Reading p (y ++ '{' :: (b ++ e :: q)) (y ++ ['{']) commas false
      (some (objectSpan p.length y b)) := by
  obtain ⟨ha, hs⟩ := h.awaiting_iff.1 rfl
  have hobj : ObjectArgument (y ++ '{' :: (b ++ e :: q)) y b e q := ⟨rfl, ha, hb, he⟩
  refine ⟨?_, ?_, fun o => ?_⟩
  · rw [separators_concat, h.commas_eq]
    simp
  · rw [atArgument_concat]
    simp [isAsciiBlank]
  · constructor
    · intro ho
      exact ⟨y, b, e, q, hobj, hs, by simp, (Option.some.inj ho).symm⟩
    · rintro ⟨v, b', e', q', hobj', hsep, hlt, rfl⟩
      rw [List.length_append, List.length_singleton] at hlt
      rcases Nat.lt_or_eq_of_le (Nat.lt_succ_iff.1 hlt) with hlt | hlen
      · -- An earlier object would have fewer separating commas before it.
        have hpre : v ++ ['{'] <+: y ++ '{' :: (b ++ e :: q) :=
          ⟨b' ++ e' :: q', by rw [hobj'.eq]; simp⟩
        obtain ⟨w, hw⟩ : v ++ ['{'] <+: y :=
          List.prefix_of_prefix_length_le hpre ⟨'{' :: (b ++ e :: q), rfl⟩ (by simp; omega)
        have hy : y = v ++ '{' :: w := by simpa using hw.symm
        rw [hy] at ha hs
        have := ha.separators_lt
        omega
      · obtain ⟨rfl, -⟩ := hobj'.here hlen.symm
        obtain ⟨rfl, -, -⟩ := hobj.unique hobj'
        rfl

/-- **A run of the reader** through the rest `z` of a balanced text ends at the bracket `e`
behind it, and all its third argument's object has been seen. -/
theorem readFrom_of_balanced {p y z r : Text} {e : Char} {commas : Nat} {awaiting : Bool}
    {options : Option BracketSpan} (hx : all.Balanced (y ++ z)) (he : all.isClosing e = true)
    (h : Reading p (y ++ z) y commas awaiting options) :
    ∃ o k a, readFrom (p ++ (y ++ z ++ e :: r)) (p.length + y.length) (1 + all.depth y)
        commas awaiting options (z ++ e :: r) = some (p.length + (y ++ z).length, o) ∧
      Reading p (y ++ z) (y ++ z) k a o := by
  -- On the rest `z`; the parenthesis around the list is open, so the reader's depth is one
  -- above that of `y`, and it is not zero before the end.
  induction z generalizing y commas awaiting options with
  | nil =>
      rw [List.append_nil] at hx h ⊢
      refine ⟨options, commas, awaiting, ?_, h⟩
      have hne : e ≠ '{' := by
        rintro rfl
        cases he
      rw [List.nil_append, readFrom]
      simp [hne, hx.depth_eq, weight_of_isClosing he]
  | cons c z ih =>
      have hsplit : y ++ c :: z = y ++ [c] ++ z := by simp
      have hpos : p.length + y.length + 1 = p.length + (y ++ [c]).length := by
        rw [List.length_append, List.length_singleton]
        omega
      have hdepth : 1 + all.depth y + all.weight c = 1 + all.depth (y ++ [c]) := by
        rw [depth_append, depth_cons, depth_nil]
        omega
      have habove : all.Above 0 (y ++ [c]) := (above_append.1 (hsplit ▸ hx.above)).1
      have hnz : 1 + all.depth (y ++ [c]) ≠ 0 := by
        have := habove.nonneg_end
        omega
      rw [List.cons_append, readFrom]
      by_cases hobj : awaiting = true ∧ c = '{'
      · obtain ⟨rfl, rfl⟩ := hobj
        obtain ⟨b, e', q, rfl, hb, he'⟩ := exists_object hx
        have hnext := h.step_object hb he'
        rw [hsplit] at hx hnext
        obtain ⟨o, k, a, hrun, hread⟩ := ih hx hnext
        refine ⟨o, k, a, ?_, by rw [hsplit]; exact hread⟩
        rw [closing?_object hb he', hsplit, ← hrun, ← hpos, ← hdepth]
        rw [← hdepth] at hnz
        simp [isAsciiBlank, hnz, objectSpan]
      · have hnext := h.step (above_append.1 habove).1 hobj
        rw [hsplit] at hx hnext
        obtain ⟨o, k, a, hrun, hread⟩ := ih hx hnext
        refine ⟨o, k, a, ?_, by rw [hsplit]; exact hread⟩
        rw [hsplit, ← hrun, ← hpos, ← hdepth]
        rw [← hdepth] at hnz
        have hcomma : (c = ',' ∧ 1 + all.depth y + all.weight c = 1) ↔
            (c = ',' ∧ all.depth y = 0) := by
          refine and_congr_right fun hc => ?_
          have hw : all.weight ',' = 0 := by decide
          rw [hc, hw]
          omega
        simp only [startsObject_eq_false hobj, Bool.false_and, Bool.false_eq_true, if_false, hnz,
          hcomma, flag_and_not_seen]
        split <;> rfl

/-- Wherever the reader stops, the depth is back to zero for the first time. -/
theorem closeFrom_of_readFrom {whole rest : Text} {pos commas j : Nat} {depth : Int}
    {awaiting : Bool} {options o : Option BracketSpan}
    (h : readFrom whole pos depth commas awaiting options rest = some (j, o)) :
    all.closeFrom depth pos rest = some j := by
  induction rest generalizing pos depth commas awaiting options with
  | nil => simp [readFrom] at h
  | cons c rest ih =>
      rw [readFrom] at h
      rw [closeFrom]
      generalize (if awaiting && !isAsciiBlank c && c == '{' then all.closing? whole pos
        else none) = object at h
      split at h
      · cases h
      · by_cases h0 : depth + all.weight c = 0
        · simp only [h0, if_true] at h
          rw [if_pos h0, (Prod.mk.inj (Option.some.inj h)).1]
        · simp only [h0, if_false] at h
          rw [if_neg h0]
          by_cases hcomma : c = ',' ∧ depth + all.weight c = 1
          · rw [if_pos hcomma] at h
            exact ih h
          · rw [if_neg hcomma] at h
            exact ih h

end ArgumentList

/-! ## Calls -/

/-- The text `s` starts with a call: the text `h` before the parenthesis, the text `x` between
the brackets, the closing bracket `c` and the rest `r`. -/
structure Calls (s h x : Text) (c : Char) (r : Text) : Prop where
  eq : s = h ++ '(' :: (x ++ c :: r)
  head : '(' ∉ h
  balanced : all.Balanced x
  closing : all.isClosing c = true

/-- The part of a text before the first occurrence of a character. -/
theorem Text.takeWhile_ne {e : Char} {h k : Text} (hh : e ∉ h) :
    (h ++ e :: k).takeWhile (· != e) = h := by
  rw [List.takeWhile_append_of_pos]
  · simp
  · intro c hc
    have hne : c ≠ e := fun he => hh (he ▸ hc)
    simpa using hne

/-- More text behind the call. -/
theorem Calls.append {s h x r : Text} {c : Char} (hs : Calls s h x c r) (t : Text) :
    Calls (s ++ t) h x c (r ++ t) :=
  ⟨by rw [hs.eq]; simp, hs.head, hs.balanced, hs.closing⟩

/-- The call of a text that is cut at its first parenthesis. -/
theorem Calls.cut {h k g x r : Text} {c : Char} (hs : Calls (h ++ '(' :: k) g x c r)
    (hh : '(' ∉ h) : g = h ∧ k = x ++ c :: r := by
  have hg : g = h := by
    rw [← Text.takeWhile_ne hs.head, ← hs.eq, Text.takeWhile_ne hh]
  have heq := hs.eq
  rw [hg] at heq
  exact ⟨hg, by simpa using heq⟩

namespace ArgumentList

/-- A text with a parenthesis, and what is read there. -/
theorem read?_append (p h k : Text) (hh : '(' ∉ h) :
    read? (p ++ (h ++ '(' :: k)) p.length =
      (readFrom (p ++ (h ++ '(' :: k)) (p.length + h.length + 1) 1 0 false none k).map
        fun (closing, options) => ⟨p.length + h.length, closing, options⟩ := by
  have hmem : '(' ∈ h ++ '(' :: k := by simp
  have hdrop : (p ++ (h ++ '(' :: k)).drop (p.length + h.length + 1) = k := by
    have heq : p ++ (h ++ '(' :: k) = p ++ h ++ ['('] ++ k := by simp
    rw [heq]
    exact List.drop_left' (by simp; omega)
  rw [read?]
  simp only [List.drop_left, hmem, if_true, Text.takeWhile_ne hh, hdrop]

/-- **The argument list of a call.** Its options object is the third argument, if that is an
object. -/
theorem read?_of_calls {s h x r : Text} {c : Char} (p : Text) (hs : Calls s h x c r) :
    ∃ o, read? (p ++ s) p.length =
        some ⟨p.length + h.length, p.length + h.length + 1 + x.length, o⟩ ∧
      ∀ span, o = some span ↔ ∃ y b e z, ObjectArgument x y b e z ∧ separators 0 y = 2 ∧
        span = objectSpan (p.length + h.length + 1) y b := by
  obtain ⟨rfl, hh, hx, hc⟩ := hs
  have hlen : (p ++ h ++ ['(']).length = p.length + h.length + 1 := by simp; omega
  have heq : p ++ (h ++ '(' :: (x ++ c :: r)) = p ++ h ++ ['('] ++ ([] ++ x ++ c :: r) := by
    simp
  obtain ⟨o, k, a, hrun, hread⟩ :=
    readFrom_of_balanced (r := r) (y := []) hx hc (reading_nil (p ++ h ++ ['(']) x)
  refine ⟨o, ?_, fun span => ?_⟩
  · rw [read?_append p h _ hh, heq]
    rw [hlen] at hrun
    simp only [List.length_nil, Nat.add_zero, depth_nil, Int.add_zero, List.nil_append] at hrun ⊢
    rw [hrun]
    rfl
  · rw [hread.options_iff, hlen]
    constructor
    · rintro ⟨y, b, e, z, hobj, hsep, -, rfl⟩
      exact ⟨y, b, e, z, hobj, hsep, rfl⟩
    · rintro ⟨y, b, e, z, hobj, hsep, rfl⟩
      refine ⟨y, b, e, z, hobj, hsep, ?_, rfl⟩
      rw [List.nil_append, hobj.eq, List.length_append, List.length_cons]
      omega

/-- **There is no argument list** exactly if there is no call. -/
theorem read?_eq_none_iff {p s : Text} :
    read? (p ++ s) p.length = none ↔ ∀ h x c r, ¬ Calls s h x c r := by
  constructor
  · intro hnone h x c r hs
    obtain ⟨o, hsome, -⟩ := read?_of_calls p hs
    rw [hnone] at hsome
    cases hsome
  · intro hno
    by_cases hmem : '(' ∈ s
    · obtain ⟨h, k, rfl, hh⟩ := List.eq_append_cons_of_mem hmem
      rw [read?_append p h k hh, Option.map_eq_none_iff, ← Option.not_isSome_iff_eq_none,
        Option.isSome_iff_exists]
      rintro ⟨⟨j, o⟩, hread⟩
      obtain ⟨x, c, r, rfl, -, hx, hc⟩ :=
        closeFrom_one_eq_some_iff.1 (closeFrom_of_readFrom hread)
      exact hno h x c r ⟨rfl, hh, hx, hc⟩
    · rw [read?]
      simp [hmem]

/-- **An argument list** is read off a call. -/
theorem exists_calls_of_read? {t : Text} {i : Nat} {a : ArgumentList} (h : read? t i = some a) :
    ∃ p s g x c r, t = p ++ s ∧ i = p.length ∧ Calls s g x c r ∧
      a.opening = p.length + g.length ∧ a.closing = p.length + g.length + 1 + x.length := by
  have hle : i ≤ t.length := by
    refine Nat.le_of_not_lt fun hlt => ?_
    rw [read?, List.drop_eq_nil_of_le (Nat.le_of_lt hlt)] at h
    simp at h
  have hlen : (t.take i).length = i := List.length_take_of_le hle
  have hcalls : ∃ g x c r, Calls (t.drop i) g x c r := by
    refine Classical.byContradiction fun hno => ?_
    have hnone : read? (t.take i ++ t.drop i) (t.take i).length = none :=
      read?_eq_none_iff.2 fun g x c r hs => hno ⟨g, x, c, r, hs⟩
    rw [List.take_append_drop, hlen, h] at hnone
    cases hnone
  obtain ⟨g, x, c, r, hs⟩ := hcalls
  obtain ⟨o, hread, -⟩ := read?_of_calls (t.take i) hs
  refine ⟨t.take i, t.drop i, g, x, c, r, (List.take_append_drop i t).symm, hlen.symm, hs, ?_⟩
  rw [List.take_append_drop, hlen, h] at hread
  rw [hlen, Option.some.inj hread]
  exact ⟨rfl, rfl⟩

/-! ## Searching the objects -/

theorem objectsFrom_skip (whole : Text) (closing pos : Nat) (depth : Int) (fresh : Bool)
    (q z : Text) :
    objectsFrom whole closing q.length pos depth fresh (q ++ z) =
      objectsFrom whole closing 0 (pos + q.length) depth fresh z := by
  induction q generalizing pos with
  | nil => rfl
  | cons c q ih =>
      rw [List.length_cons, List.cons_append, objectsFrom, ih,
        show pos + 1 + q.length = pos + (q.length + 1) by omega]

/-- The search steps over a character that starts no object. -/
theorem objectsFrom_step {whole z : Text} {closing pos : Nat} {depth : Int} {fresh : Bool}
    {c : Char} (hc : ¬ (fresh = true ∧ c = '{')) :
    objectsFrom whole closing 0 pos depth fresh (c :: z) =
      objectsFrom whole closing 0 (pos + 1) (depth + all.weight c)
        (if c = ',' ∧ depth = 0 then true else fresh && isAsciiBlank c) z := by
  have hcomma : (c = ',' ∧ depth + all.weight c = 0) ↔ (c = ',' ∧ depth = 0) := by
    refine and_congr_right fun h => ?_
    have hw : all.weight ',' = 0 := by decide
    rw [h, hw]
    omega
  rw [objectsFrom]
  simp only [startsObject_eq_false hc, Bool.false_eq_true, if_false, hcomma, flag_and_not_seen]
  split <;> rfl

/-- The search takes down an object and steps over it. -/
theorem objectsFrom_object {whole b q : Text} {closing pos : Nat} {depth : Int} {c : Char}
    (h : all.closing? whole pos = some (pos + 1 + b.length))
    (hlt : pos + 1 + b.length < closing) :
    objectsFrom whole closing 0 pos depth true ('{' :: (b ++ c :: q)) =
      ⟨pos, pos + 1 + b.length⟩ ::
        objectsFrom whole closing 0 (pos + 1 + (b ++ [c]).length) depth false q := by
  have hfilter : (all.closing? whole pos).filter (· < closing) = some (pos + 1 + b.length) := by
    rw [h, Option.filter_some, if_pos (by simpa using hlt)]
  have hskip : pos + 1 + b.length - pos = (b ++ [c]).length := by
    rw [List.length_append, List.length_singleton]
    omega
  have hblank : isAsciiBlank '{' = false := by decide
  rw [objectsFrom]
  simp only [hblank, Bool.not_false, Bool.and_self, beq_self_eq_true, if_true, hfilter, hskip]
  rw [← objectsFrom_skip, List.append_assoc, List.singleton_append]

/-- An argument of `x` that starts with `{`, at position `start` of `x` or later, has the given
span in the text where the list starts at position `pos`. -/
def ObjectFrom (x : Text) (pos start : Nat) (span : BracketSpan) : Prop :=
  ∃ v b c q, ObjectArgument x v b c q ∧ start ≤ v.length ∧ span = objectSpan pos v b

theorem ObjectFrom.mono {x : Text} {pos start start' : Nat} {span : BracketSpan}
    (h : ObjectFrom x pos start span) (hle : start' ≤ start) : ObjectFrom x pos start' span := by
  obtain ⟨v, b, c, q, hobj, hstart, rfl⟩ := h
  exact ⟨v, b, c, q, hobj, Nat.le_trans hle hstart, rfl⟩

theorem not_objectFrom_end (x : Text) (pos : Nat) (span : BracketSpan) :
    ¬ ObjectFrom x pos x.length span := by
  rintro ⟨v, b, c, q, hobj, hle, -⟩
  rw [hobj.eq, List.length_append, List.length_cons] at hle
  omega

/-- At a character that starts no object. -/
theorem objectFrom_step {y z : Text} {c : Char} {pos : Nat} {span : BracketSpan}
    (hc : ¬ (AtArgument y ∧ c = '{')) :
    ObjectFrom (y ++ c :: z) pos y.length span ↔
      ObjectFrom (y ++ c :: z) pos (y ++ [c]).length span := by
  rw [List.length_append, List.length_singleton]
  constructor
  · rintro ⟨v, b, e, q, hobj, hle, rfl⟩
    refine ⟨v, b, e, q, hobj, ?_, rfl⟩
    exact Nat.lt_of_le_of_ne hle fun hlen => hc (hobj.here hlen).2
  · exact fun h => h.mono (Nat.le_succ _)

/-- At an object: the next one starts behind it. -/
theorem objectFrom_object {x y b q : Text} {c : Char} {pos : Nat} {span : BracketSpan}
    (h : ObjectArgument x y b c q) :
    ObjectFrom x pos y.length span ↔
      span = objectSpan pos y b ∨ ObjectFrom x pos (y ++ '{' :: (b ++ [c])).length span := by
  constructor
  · rintro ⟨v, b', c', q', hobj, hle, rfl⟩
    rcases Nat.lt_or_eq_of_le hle with hlt | hlen
    · exact Or.inr ⟨v, b', c', q', hobj, h.behind hobj hlt, rfl⟩
    · obtain ⟨rfl, -⟩ := (h.eq ▸ hobj).here hlen
      obtain ⟨rfl, -, -⟩ := h.unique hobj
      exact Or.inl rfl
  · rintro (rfl | hbehind)
    · exact ⟨y, b, c, q, h, Nat.le_refl _, rfl⟩
    · exact hbehind.mono (by rw [List.length_append]; omega)

/-- The flag of the search after one character that starts no object. -/
theorem fresh_concat {y : Text} {c : Char} {fresh : Bool} (hy : all.Above 0 y)
    (hf : fresh = true ↔ AtArgument y) :
    (if c = ',' ∧ all.depth y = 0 then true else fresh && isAsciiBlank c) = true ↔
      AtArgument (y ++ [c]) := by
  rw [atArgument_concat]
  split
  · rename_i hcomma
    have hbal : all.Balanced y := ⟨hy, hcomma.2⟩
    simp [hcomma.1, hbal]
  · rename_i hcomma
    have hno : ¬ (c = ',' ∧ all.Balanced y) := fun h => hcomma ⟨h.1, h.2.depth_eq⟩
    rw [Bool.and_eq_true, hf, or_iff_left hno]

/-- **A run of the search** through the rest `z` of a balanced text: it finds the objects that
start there. -/
theorem mem_objectsFrom {p y z r : Text} {e : Char} {fresh : Bool}
    (hx : all.Balanced (y ++ z)) (hf : fresh = true ↔ AtArgument y) {span : BracketSpan} :
    span ∈ objectsFrom (p ++ (y ++ z ++ e :: r)) (p.length + (y ++ z).length) 0
        (p.length + y.length) (all.depth y) fresh z ↔
      ObjectFrom (y ++ z) p.length y.length span := by
  -- On the length of the rest, since the search steps over an object as a whole.
  induction hn : z.length using Nat.strongRecOn generalizing y z fresh with
  | ind n ih =>
      cases z with
      | nil =>
          rw [List.append_nil, objectsFrom]
          exact iff_of_false List.not_mem_nil (not_objectFrom_end y p.length span)
      | cons c z =>
          by_cases hobj : fresh = true ∧ c = '{'
          · obtain ⟨rfl, rfl⟩ := hobj
            obtain ⟨b, c, q, rfl, hb, hc⟩ := exists_object hx
            have hthis : ObjectArgument (y ++ '{' :: (b ++ c :: q)) y b c q :=
              ⟨rfl, hf.1 rfl, hb, hc⟩
            -- Behind the object the argument is no longer fresh.
            have hsplit : y ++ '{' :: (b ++ c :: q) = y ++ '{' :: (b ++ [c]) ++ q := by simp
            have hfresh : false = true ↔ AtArgument (y ++ '{' :: (b ++ [c])) := by
              rw [← List.cons_append, ← List.append_assoc]
              exact iff_of_false (by simp) (not_atArgument_of_isClosing hc)
            have hdepth : all.depth (y ++ '{' :: (b ++ [c])) = all.depth y := by
              rw [depth_append, (hb.group (o := '{') (by decide) hc).depth_eq, Int.add_zero]
            have hpos : p.length + y.length + 1 + (b ++ [c]).length =
                p.length + (y ++ '{' :: (b ++ [c])).length := by
              simp only [List.length_append, List.length_cons]
              omega
            have hlen : q.length < n := by
              rw [← hn]
              simp only [List.length_append, List.length_cons]
              omega
            have hrest := ih q.length hlen (y := y ++ '{' :: (b ++ [c])) (hsplit ▸ hx) hfresh rfl
            rw [hdepth, ← hsplit, ← hpos] at hrest
            rw [objectFrom_object hthis, objectsFrom_object (closing?_object hb hc)
              (by simp only [List.length_append, List.length_cons]; omega), List.mem_cons, hrest]
            rfl
          · have hsplit : y ++ c :: z = y ++ [c] ++ z := by simp
            have hy : all.Above 0 y := (above_append.1 hx.above).1
            have hdepth : all.depth y + all.weight c = all.depth (y ++ [c]) := by
              rw [depth_append, depth_cons, depth_nil, Int.add_zero]
            have hpos : p.length + y.length + 1 = p.length + (y ++ [c]).length := by
              rw [List.length_append, List.length_singleton]
              omega
            have hlen : z.length < n := by
              rw [← hn, List.length_cons]
              omega
            have hrest := ih z.length hlen (y := y ++ [c]) (hsplit ▸ hx) (fresh_concat hy hf) rfl
            rw [← hdepth, ← hsplit, ← hpos] at hrest
            rw [objectsFrom_step hobj, hrest, objectFrom_step (by rwa [← hf])]

/-- **The objects of an argument list** are those of its arguments that start with `{`. -/
theorem mem_objects_iff {s h x r : Text} {c : Char} (p : Text) (hs : Calls s h x c r)
    {a : ArgumentList} (ho : a.opening = p.length + h.length)
    (hc : a.closing = p.length + h.length + 1 + x.length) {span : BracketSpan} :
    span ∈ a.objects (p ++ s) ↔
      ∃ y b e z, ObjectArgument x y b e z ∧
        span = objectSpan (p.length + h.length + 1) y b := by
  obtain ⟨rfl, -, hx, -⟩ := hs
  have hlen : (p ++ h ++ ['(']).length = p.length + h.length + 1 := by simp; omega
  have heq : p ++ (h ++ '(' :: (x ++ c :: r)) = p ++ h ++ ['('] ++ ([] ++ x ++ c :: r) := by
    simp
  have hargs : a.arguments (p ++ (h ++ '(' :: (x ++ c :: r))) = x := by
    rw [arguments, Text.slice, ho, hc, heq, ← hlen, List.drop_left]
    simp
  have hrun : span ∈ objectsFrom (p ++ h ++ ['('] ++ ([] ++ x ++ c :: r))
      ((p ++ h ++ ['(']).length + ([] ++ x).length) 0 ((p ++ h ++ ['(']).length + 0)
      (all.depth []) true x ↔ _ :=
    mem_objectsFrom (y := []) hx (by simp [atArgument_nil])
  rw [hlen, ← heq] at hrun
  rw [objects, hargs, ho, hc]
  refine hrun.trans ?_
  simp [ObjectFrom]

end ArgumentList

end Stylewire
