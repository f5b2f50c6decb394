import Stylewire.Proofs.Wiring

set_option autoImplicit false

/-! # What is read off a text piece by piece

Several things are read off a text from call to call: the argument lists of its calls (`lists`),
the verdicts on them, the text with its calls handled (`Wiring.markFrom`). All of these can be
read off the pieces of a text that is cut where all brackets are closed and no call head is cut in
two, and pieces without parentheses hold no call. `Piecewise` states this once. An edit of an
argument list only moves and adds pieces without parentheses, so what is read off the edited list
is told here for all of these functions at once (`Piecewise.withEntry`, `Piecewise.append_plain`).
In particular an edit leaves the lists of the calls inside as they are (`lists_injected`).
-/

namespace Stylewire

open Brackets

/-- The function `F` reads texts **piece by piece**, given the character before the text. Off a
piece without parentheses it reads what `g` says. -/
structure Piecewise {α : Type} (F : Option Char → Text → List α) (g : Text → List α) : Prop where
  append : ∀ {a t : Text}, all.Closed a → Apart t → ∀ prev,
    F prev (a ++ t) = F prev a ++ F (Text.lastFrom prev a) t
  cons : ∀ {c : Char}, isIdentChar c = false → ∀ prev t,
    F prev (c :: t) = g [c] ++ F (some c) t
  congr : ∀ {prev prev' : Option Char}, isClear prev = isClear prev' → ∀ t, F prev t = F prev' t
  plain : ∀ {t : Text}, '(' ∉ t → ∀ prev, F prev t = g t
  map_append : ∀ a b, g (a ++ b) = g a ++ g b

theorem apart_blanks {b : Text} (hb : ∀ c ∈ b, isBlank c = true) : Apart b := by
  have := apart_nil.blanks_append hb
  rwa [List.append_nil] at this

namespace Piecewise

variable {α : Type} {F : Option Char → Text → List α} {g : Text → List α} (hF : Piecewise F g)

include hF

theorem map_nil : g [] = [] := by
  have h := congrArg List.length (hF.map_append [] [])
  rw [List.append_nil, List.length_append] at h
  exact List.eq_nil_of_length_eq_zero (by omega)

/-- A piece without parentheses at the end. -/
theorem append_plain {a t : Text} (ha : all.Closed a) (ht : Apart t) (hp : '(' ∉ t)
    (prev : Option Char) : F prev (a ++ t) = F prev a ++ g t := by
  rw [hF.append ha ht, hF.plain hp]

/-- Blanks at the start. -/
theorem blanks_append {b : Text} (hb : ∀ c ∈ b, isBlank c = true) {prev : Option Char}
    (hprev : isClear prev = true) (t : Text) : F prev (b ++ t) = g b ++ F prev t := by
  induction b generalizing prev with
  | nil => rw [List.nil_append, hF.map_nil, List.nil_append]
  | cons c b ih =>
      have hc := isIdentChar_eq_false_of_isBlank (hb c (by simp))
      have hclear : isClear (some c) = true := by simp [isClear, hc]
      have hrest := ih (fun e he => hb e (by simp [he])) hclear
      calc F prev (c :: (b ++ t))
          = g [c] ++ F (some c) (b ++ t) := hF.cons hc prev (b ++ t)
        _ = g [c] ++ (g b ++ F prev t) := by
            rw [hrest, hF.congr (hclear.trans hprev.symm) t]
        _ = g (c :: b) ++ F prev t := by
            rw [← List.append_assoc, ← hF.map_append, List.singleton_append]

/-- Inside and behind a list that is closed. -/
theorem list {x : Text} {c : Char} (hx : all.Balanced x) (hc : all.isClosing c = true)
    (prev : Option Char) (r : Text) :
    F prev (x ++ c :: r) = F prev x ++ (g [c] ++ F (some c) r) := by
  rw [hF.append hx.closed (Wiring.apart_of_isClosing hc),
    hF.cons (Wiring.isIdentChar_of_isClosing hc)]

/-- Before, inside and behind a pair of brackets that starts with a brace. -/
theorem object {y b : Text} {c : Char} (hy : all.Closed y) (hb : all.Balanced b)
    (hc : all.isClosing c = true) (prev : Option Char) (z : Text) :
    F prev (y ++ '{' :: (b ++ c :: z)) =
      F prev y ++ (g ['{'] ++ (F (some '{') b ++ (g [c] ++ F (some c) z))) := by
  have hbrace : isIdentChar '{' = false := by decide
  rw [hF.append hy (apart_cons hbrace (by decide) (by decide)), hF.cons hbrace, hF.list hb hc]

/-! ## Trimming -/

/-- The blanks at the end of a balanced text. -/
theorem trimEnd {t : Text} (ht : all.Balanced t) (prev : Option Char) :
    F prev t = F prev t.trimEnd ++ g (t.drop t.trimEnd.length) := by
  obtain ⟨b, hb, hblank, -⟩ := Text.trimEnd_spec t
  rw [drop_trimEnd hb]
  conv => lhs; rw [hb]
  exact hF.append_plain (balanced_trimEnd ht).closed (apart_blanks hblank)
    (Agree.paren_not_mem_of_isBlank hblank) prev

/-- The blanks at both ends of a balanced text. -/
theorem trim {t : Text} (ht : all.Balanced t) {prev : Option Char} (hprev : isClear prev = true) :
    ∃ b b', (∀ c ∈ b, isBlank c = true) ∧ (∀ c ∈ b', isBlank c = true) ∧
      F prev t = g b ++ (F prev t.trim ++ g b') := by
  obtain ⟨b, hb, hblank, -⟩ := Text.trimStart_spec t
  obtain ⟨b', hb', hblank', -⟩ := Text.trimEnd_spec t.trimStart
  have hstart : all.Balanced t.trimStart := by
    rw [hb] at ht
    exact ht.of_append_right (balanced_blanks hblank)
  refine ⟨b, b', hblank, hblank', ?_⟩
  conv => lhs; rw [hb]
  rw [hF.blanks_append hblank hprev, hF.trimEnd hstart, drop_trimEnd hb', Text.trim]

/-! ## Edits -/

/-- The text inside a block with a new entry. -/
theorem withEntry {v : Text} (hv : all.Balanced v) {prev : Option Char}
    (hprev : isClear prev = true) (marker : Identifier) :
    F prev (withEntry v marker.text) = g [' '] ++ (F prev v.trim ++
      g ((if v.trim.isEmpty || v.trim.endsWith ',' then [] else [',', ' ']) ++
        marker.text ++ [' '])) := by
  have hm := marker.not_mem_text (show isIdentChar '(' = false by decide)
  have htrim := balanced_trim hv
  have hblank : ∀ c ∈ [' '], isBlank c = true := forall_mem_of_all (by decide)
  have hapart : ∀ t : Text, Apart (',' :: t) := fun t =>
    apart_cons (by decide) (by decide) (by decide)
  by_cases hnil : v.trim = []
  · have hentry : Stylewire.withEntry v marker.text = [' '] ++ (marker.text ++ [' ']) := by
      simp [Stylewire.withEntry, hnil]
    rw [hentry, hF.blanks_append hblank hprev, hF.plain (by simp [hm]), hnil,
      hF.plain (t := []) (by simp), hF.map_nil]
    rfl
  · by_cases hcomma : v.trim.endsWith ',' = true
    · -- The last comma is cut off, since the marker right behind it is an identifier.
      obtain ⟨m, hlast⟩ := List.getLast?_eq_some_iff.1 (Text.endsWith_iff.1 hcomma)
      have hentry : Stylewire.withEntry v marker.text =
          [' '] ++ (m ++ ',' :: (marker.text ++ [' '])) := by
        simp [Stylewire.withEntry, hlast, Text.endsWith]
      have hclosed : all.Closed m := by
        rw [hlast] at htrim
        refine (htrim.of_append_left ?_).closed
        have hd := htrim.depth_eq
        have hw : all.depth [','] = 0 := by decide
        rw [depth_append, hw] at hd
        omega
      have hm' : '(' ∉ ',' :: (marker.text ++ [' ']) := by simp [hm]
      have hcut : g (',' :: (marker.text ++ [' '])) = g [','] ++ g (marker.text ++ [' ']) :=
        hF.map_append [','] (marker.text ++ [' '])
      rw [hcomma, Bool.or_true, if_pos rfl, hentry, hF.blanks_append hblank hprev, hlast,
        hF.append_plain hclosed (hapart _) hm', hF.append_plain hclosed (hapart []) (by simp), hcut,
        List.nil_append, List.append_assoc]
    · have hentry : Stylewire.withEntry v marker.text =
          [' '] ++ (v.trim ++ ',' :: ([' '] ++ marker.text ++ [' '])) := by
        simp [Stylewire.withEntry, hnil, hcomma]
      have hsep : (v.trim.isEmpty || v.trim.endsWith ',') = false := by
        simp [hnil, hcomma]
      have hm' : '(' ∉ ',' :: ([' '] ++ marker.text ++ [' ']) := by simp [hm]
      rw [hentry, hsep, hF.blanks_append hblank hprev,
        hF.append_plain htrim.closed (hapart _) hm']
      rfl

end Piecewise

/-! ## The lists of the calls -/

/-- The text between the brackets of the call at a position, if the call is closed. -/
def listAt (t : Text) (i : Nat) : Option Text := (ArgumentList.read? t i).map (·.arguments t)

theorem listAt_of_calls {s h x r : Text} {c : Char} (p : Text) (hs : Calls s h x c r) :
    listAt (p ++ s) p.length = some x := by
  obtain ⟨o, hread, -⟩ := ArgumentList.read?_of_calls p hs
  have htext : p ++ s = p ++ h ++ ['('] ++ (x ++ c :: r) := by
    rw [hs.eq]
    simp
  rw [listAt, hread, Option.map_some, ArgumentList.arguments, Text.slice, htext,
    List.drop_left' (by simp; omega)]
  exact congrArg some (List.take_left' (Nat.add_sub_cancel_left _ _).symm)

theorem listAt_eq_none {s : Text} (p : Text) (hno : ∀ h x c r, ¬ Calls s h x c r) :
    listAt (p ++ s) p.length = none := by
  rw [listAt, ArgumentList.read?_eq_none_iff.2 hno, Option.map_none]

/-- The text before a call has no part in its list. -/
theorem listAt_append (p s : Text) : listAt (p ++ s) p.length = listAt s 0 := by
  by_cases hs : ∃ h x c r, Calls s h x c r
  · obtain ⟨h, x, c, r, hs⟩ := hs
    rw [listAt_of_calls p hs]
    exact (listAt_of_calls [] hs).symm
  · have hno : ∀ h x c r, ¬ Calls s h x c r := fun h x c r hc => hs ⟨h, x, c, r, hc⟩
    rw [listAt_eq_none p hno]
    exact (listAt_eq_none [] hno).symm

/-- The lists of the calls of a text, in the order of the text; for a call that is never closed
there is none. The character before the text is `prev`. -/
def lists (name : Identifier) (prev : Option Char) (t : Text) : List (Option Text) :=
  (sitesFrom name 0 prev t).map (listAt t)

/-- The lists of the calls behind a text `p`. -/
theorem map_listAt_append (name : Identifier) (p : Text) (prev : Option Char) (t : Text) :
    (sitesFrom name p.length prev t).map (listAt (p ++ t)) = lists name prev t := by
  rw [← Nat.add_zero p.length, sitesFrom_add, List.map_map, lists]
  refine List.map_congr_left fun i hi => ?_
  obtain ⟨u, v, rfl, rfl, -⟩ := mem_sitesFrom.1 hi
  have hleft := listAt_append (p ++ u) v
  have hright := listAt_append u v
  rw [List.length_append, List.append_assoc] at hleft
  rw [Nat.zero_add, Function.comp_apply, hleft, hright]

theorem lists_other {name : Identifier} {prev : Option Char} {c : Char} {t : Text}
    (hno : isCall name prev (c :: t) = false) :
    lists name prev (c :: t) = lists name (some c) t := by
  have hrest := map_listAt_append name [c] (some c) t
  rw [lists, sitesFrom, hno]
  exact hrest

theorem lists_call {name : Identifier} {prev : Option Char} {h : Text}
    (hclear : isClear prev = true) (hh : IsHead name h) (k : Text) :
    lists name prev (h ++ '(' :: k) = listAt (h ++ '(' :: k) 0 :: lists name (some '(') k := by
  have hrest := map_listAt_append name (h ++ ['(']) (some '(') k
  rw [List.length_append, List.length_singleton, List.append_assoc,
    List.singleton_append] at hrest
  rw [lists, sitesFrom_call hclear hh, List.map_cons, Nat.zero_add, hrest]

/-- **The lists of the calls of a text cut in two**, if all brackets of the first part are closed
in it. -/
theorem lists_append {name : Identifier} {a t : Text} (ha : all.Closed a) (ht : Apart t)
    (prev : Option Char) :
    lists name prev (a ++ t) = lists name prev a ++ lists name (Text.lastFrom prev a) t := by
  have hrest := map_listAt_append name a (Text.lastFrom prev a) t
  rw [lists, sitesFrom_append ht, List.map_append, Nat.zero_add, hrest, lists]
  congr 1
  refine List.map_congr_left fun i hi => ?_
  obtain ⟨u, v, rfl, rfl, hcall⟩ := mem_sitesFrom.1 hi
  obtain ⟨h, x, c, r, -, hs⟩ := Wiring.exists_calls ha.of_append_right hcall
  rw [Nat.zero_add, List.append_assoc, listAt_of_calls u hs, listAt_of_calls u (hs.append t)]

theorem piecewise_lists (name : Identifier) : Piecewise (lists name) (fun _ => []) where
  append ha ht prev := lists_append ha ht prev
  cons hc prev t := lists_other (isCall_cons_eq_false hc)
  congr {prev prev'} h t := by
    cases t with
    | nil => rfl
    | cons c t =>
        have hcall : isCall name prev (c :: t) = isCall name prev' (c :: t) := by
          rw [Bool.eq_iff_iff, isCall_iff, isCall_iff, h]
        rw [lists, lists, sitesFrom, sitesFrom, hcall]
  plain ht prev := by rw [lists, sitesFrom_eq_nil ht, List.map_nil]
  map_append _ _ := rfl

/-- Blanks at both ends of a balanced text hold no call. -/
theorem lists_trim {name : Identifier} {t : Text} (ht : all.Balanced t) {prev : Option Char}
    (hprev : isClear prev = true) : lists name prev t.trim = lists name prev t := by
  obtain ⟨b, b', -, -, h⟩ := (piecewise_lists name).trim ht hprev
  rw [h]
  simp

theorem paren_not_mem_newOptions (marker : Identifier) : '(' ∉ newOptions marker.text := by
  have hm := marker.not_mem_text (show isIdentChar '(' = false by decide)
  simp [newOptions, assignClause, hm]

/-- What is put behind the last argument holds no call and goes on none. -/
theorem apart_addOptions (marker : Identifier) (p : Prop) [Decidable p] {b : Text}
    (hb : ∀ e ∈ b, isBlank e = true) :
    Apart ((if p then [' '] else [',', ' ']) ++ newOptions marker.text ++ b) ∧
      '(' ∉ (if p then [' '] else [',', ' ']) ++ newOptions marker.text ++ b := by
  have hnew := paren_not_mem_newOptions marker
  have hbp := Agree.paren_not_mem_of_isBlank hb
  split
  · have hbrace : Apart (newOptions marker.text ++ b) :=
      apart_cons (by decide) (by decide) (by decide)
    refine ⟨?_, by simp [hnew, hbp]⟩
    rw [List.append_assoc]
    exact hbrace.blanks_append (forall_mem_of_all (by decide))
  · exact ⟨apart_cons (by decide) (by decide) (by decide), by simp [hnew, hbp]⟩

/-- What is put before the brace of an object holds no call and goes on none. -/
theorem apart_clause (marker : Identifier) (before : Text) :
    Apart (clauseSeparator before ++ (assignClause marker.text ++ [' '])) ∧
      '(' ∉ clauseSeparator before ++ (assignClause marker.text ++ [' ']) := by
  have hm := marker.not_mem_text (show isIdentChar '(' = false by decide)
  have hplain : '(' ∉ assignClause marker.text := by simp [assignClause, hm]
  rcases clauseSeparator_cases before with hsep | hsep
  · rw [hsep]
    exact ⟨⟨rfl, by simp [Text.blanks, assignClause, isBlank]⟩, by simp [hplain]⟩
  · rw [hsep]
    exact ⟨apart_cons (by decide) (by decide) (by decide), by simp [hplain]⟩

/-- The text up to the last argument is closed if the list is balanced. -/
theorem balanced_arguments {y b : Text} {c : Char} (hx : all.Balanced (y ++ c :: b))
    (hb : ∀ e ∈ b, isBlank e = true) : all.Balanced (y ++ [c]) := by
  have heq : y ++ c :: b = y ++ [c] ++ b := by simp
  rw [heq] at hx
  refine hx.of_append_left ?_
  have hd := hx.depth_eq
  rw [depth_append, (balanced_blanks hb).depth_eq] at hd
  omega

/-- **Marking a call keeps the lists of the calls inside its own.** -/
theorem lists_injected {name marker : Identifier} {x x' : Text}
    (h : Injected marker.text x x') (hx : all.Balanced x)
    (hend : ∀ y b c z, ObjectArgument x y b c z → separators 0 y = 2 → c = '}')
    (prev : Option Char) : lists name prev x' = lists name prev x := by
  have hF := piecewise_lists name
  cases h with
  | alone hblank =>
      rw [hF.plain (paren_not_mem_newOptions marker),
        hF.plain (Agree.paren_not_mem_of_isBlank hblank)]
  | @behind y b c hc hb =>
      have heq : ∀ t : Text, y ++ c :: t = y ++ [c] ++ t := by simp
      have hyc := (balanced_arguments hx hb).closed
      obtain ⟨hapart, hplain⟩ := apart_addOptions marker (c = ',') hb
      rw [heq, heq b, hF.append_plain hyc hapart hplain,
        hF.append_plain hyc (apart_blanks hb) (Agree.paren_not_mem_of_isBlank hb)]
  | @entry _ y b z u k v q c e hobj hsep hblock =>
      have hy := hobj.closed_before hx
      have hkey : all.Balanced k := Balanced.of_weight fun _ ha => hblock.key.weight_eq_zero ha
      have huk : all.Closed (u ++ k) := (hblock.before.append hkey).closed
      -- The text inside the object before and after: only the block differs.
      have hbefore : b = u ++ k ++ '{' :: (v ++ e :: q) := by
        rw [hblock.eq]
        simp
      have hafter : u ++ (k ++ '{' :: (withEntry v marker.text ++ e :: q)) =
          u ++ k ++ '{' :: (withEntry v marker.text ++ e :: q) := by simp
      have hins := inserted_withEntry v marker
      have hv' : all.Balanced (withEntry v marker.text) := hins.balanced hblock.balanced
      have hb' : all.Balanced (u ++ k ++ '{' :: (withEntry v marker.text ++ e :: q)) := by
        have hctx := hins.context (u ++ k ++ ['{']) (e :: q)
        have hb := hobj.balanced
        rw [hbefore] at hb
        simpa using hctx.balanced (by simpa using hb)
      have hentry : lists name (some '{') (withEntry v marker.text) = lists name (some '{') v := by
        rw [hF.withEntry hblock.balanced (by decide), lists_trim hblock.balanced (by decide)]
        simp
      rw [hafter, hobj.eq, hF.object hy hb' hobj.closing, hF.object hy hobj.balanced hobj.closing,
        hbefore, hF.object huk hv' hblock.closing, hF.object huk hblock.balanced hblock.closing,
        hentry]
  | @clause _ y b z c hobj hsep =>
      obtain rfl := hend y b c z hobj hsep
      have hy := hobj.closed_before hx
      obtain ⟨happ, hb'⟩ := appendAssign_object marker hobj.balanced
      obtain ⟨hapart, hplain⟩ := apart_clause marker ('{' :: b)
      have hclause : lists name (some '{') (b.trimEnd ++
          (clauseSeparator ('{' :: b) ++ (assignClause marker.text ++ [' ']))) =
            lists name (some '{') b := by
        rw [hF.append_plain (balanced_trimEnd hobj.balanced).closed hapart hplain,
          ← hF.trimEnd hobj.balanced]
      rw [happ, hobj.eq, List.cons_append, List.append_assoc, List.singleton_append,
        hF.object hy hb' hobj.closing, hF.object hy hobj.balanced hobj.closing, hclause]

end Stylewire
