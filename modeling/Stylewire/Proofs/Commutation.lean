import Stylewire.Proofs.FixedPoint

set_option autoImplicit false

/-! # Marking a call and the calls inside it

A call may have other calls inside its argument list. Marking the call edits the list around them,
and marking them changes what stands in the list. The two do not get into each other's way: to
edit the list and then handle the calls inside gives the same text as the other way round
(`markFrom_markArguments`).

The edit looks at the ends of the pieces it works on, at the commas of depth zero and at the first
assign block of the options object. All of these are outside of inner parentheses, so they are the
same before and after the calls inside are handled. The edit of the options object is followed for
an object that ends with a brace; otherwise the new assign block may end up inside of an inner
call.
-/

namespace Stylewire

open Brackets

/-! ## Trimming -/

namespace Text

/-- A text is trimmed to the part between the blanks at its two ends. -/
theorem trimEnd_append_blanks {u b : Text} (hu : ∀ c, u.getLast? = some c → isBlank c = false)
    (hb : ∀ c ∈ b, isBlank c = true) : trimEnd (u ++ b) = u := by
  rw [trimEnd, List.reverse_append,
    List.dropWhile_append_of_pos fun c hc => hb c (List.mem_reverse.1 hc)]
  rcases List.eq_nil_or_concat u with rfl | ⟨v, c, rfl⟩
  · rfl
  · have hc := hu c (by simp)
    simp [hc]

theorem trimStart_blanks_append {b u : Text} (hu : ∀ c, u.head? = some c → isBlank c = false)
    (hb : ∀ c ∈ b, isBlank c = true) : trimStart (b ++ u) = u := by
  rw [trimStart, List.dropWhile_append_of_pos hb]
  cases u with
  | nil => rfl
  | cons c u =>
      have hc := hu c rfl
      simp [hc]

theorem trim_eq_of_blanks {b u b' : Text} (hb : ∀ c ∈ b, isBlank c = true)
    (hb' : ∀ c ∈ b', isBlank c = true) (hfirst : ∀ c, u.head? = some c → isBlank c = false)
    (hlast : ∀ c, u.getLast? = some c → isBlank c = false) : trim (b ++ (u ++ b')) = u := by
  cases u with
  | nil =>
      have hall : ∀ c ∈ b ++ b', isBlank c = true := by
        intro c hc
        rcases List.mem_append.1 hc with hc | hc
        · exact hb c hc
        · exact hb' c hc
      have hnil : trimStart (b ++ b' ++ []) = [] :=
        trimStart_blanks_append (fun c hc => by cases hc) hall
      rw [List.append_nil] at hnil
      rw [List.nil_append, trim, hnil]
      rfl
  | cons c u =>
      have hstart : trimStart (b ++ (c :: u ++ b')) = c :: u ++ b' :=
        trimStart_blanks_append (fun e he => hfirst e he) hb
      rw [trim, hstart, trimEnd_append_blanks hlast hb']

theorem isEmpty_trimStart_trimEnd (t : Text) :
    (trimStart (trimEnd t)).isEmpty = (trimEnd t).isEmpty := by
  rw [Bool.eq_iff_iff, List.isEmpty_iff, List.isEmpty_iff]
  refine ⟨trimEnd_eq_nil, fun h => ?_⟩
  rw [h]
  rfl

/-- Trimming takes blanks off both ends, and all of them. -/
theorem trim_spec (t : Text) :
    ∃ b b', t = b ++ (trim t ++ b') ∧ (∀ c ∈ b, isBlank c = true) ∧ (∀ c ∈ b', isBlank c = true) ∧
      (∀ c, (trim t).head? = some c → isBlank c = false) ∧
      ∀ c, (trim t).getLast? = some c → isBlank c = false := by
  obtain ⟨b, hb, hblank, hfirst⟩ := trimStart_spec t
  obtain ⟨b', hb', hblank', hlast⟩ := trimEnd_spec (trimStart t)
  refine ⟨b, b', by rw [trim, ← hb', ← hb], hblank, hblank', fun c hc => hfirst c ?_, hlast⟩
  rw [hb', List.head?_append]
  rw [trim] at hc
  rw [hc]
  rfl

end Text

theorem Agree.isEmpty_eq {t t' : Text} (h : Agree t t') : t.isEmpty = t'.isEmpty := by
  cases h <;> rfl

theorem Agree.endsWith_eq {t t' : Text} (h : Agree t t') (c : Char) :
    t.endsWith c = t'.endsWith c := by
  rw [Text.endsWith, Text.endsWith, h.getLast?_eq]

/-! ## The first assign block -/

/-- A key in a balanced text, with its block. -/
theorem exists_assignBlock {u k q : Text} {t : Text} (ht : all.Balanced t)
    (heq : t = u ++ (k ++ '{' :: q)) (hk : IsAssignKey k) (hclear : isClear u.getLast? = true)
    (hu : all.Balanced u) : ∃ x c r, AssignBlock t u k x c r := by
  subst heq
  have hclosed : all.Closed ('{' :: q) := ht.closed.of_append_right.of_append_right
  obtain ⟨x, c, r, rfl, hx, hc⟩ := hclosed.exists_closing (by decide)
  exact ⟨x, c, r, rfl, hu, hclear, hk, hx, hc⟩

/-- An assign block that opens before another one lies in the text before it. -/
theorem AssignBlock.before_of_lt {b u k v r u₂ k₂ v₂ r₂ : Text} {e e₂ : Char}
    (h : AssignBlock b u k v e r) (h₂ : AssignBlock b u₂ k₂ v₂ e₂ r₂)
    (hlt : u₂.length + k₂.length < u.length + k.length) :
    ∃ x c q, AssignBlock u u₂ k₂ x c q := by
  -- The brace of the earlier block is not in the key of the later one.
  have hpre : u₂ ++ k₂ ++ ['{'] <+: u ++ k := by
    refine @List.prefix_of_prefix_length_le Char _ _ b ⟨v₂ ++ e₂ :: r₂, ?_⟩
      ⟨'{' :: (v ++ e :: r), ?_⟩ ?_
    · rw [h₂.eq]
      simp
    · rw [h.eq]
      simp
    · simp only [List.length_append, List.length_singleton]
      omega
  obtain ⟨q, hq⟩ := hpre
  rcases List.append_eq_append_iff.1 hq with ⟨a, ha, -⟩ | ⟨a, ha, hkey⟩
  · have heq : u = u₂ ++ (k₂ ++ '{' :: a) := by
      rw [ha]
      simp
    exact exists_assignBlock h.before heq h₂.key h₂.clear h₂.before
  · rcases List.eq_nil_or_concat a with rfl | ⟨a, c, rfl⟩
    · have heq : u = u₂ ++ (k₂ ++ '{' :: []) := by
        rw [List.append_nil] at ha
        rw [← ha]
        simp
      exact exists_assignBlock h.before heq h₂.key h₂.clear h₂.before
    · exfalso
      have hc : '{' = c := by
        have := congrArg List.getLast? ha
        simpa using this
      have hw := h.key.weight_eq_zero (c := '{') (by rw [hkey, hc]; simp)
      exact absurd hw (by decide)

/-- Text behind the blocks. -/
theorem AssignBlock.append {b u k x r : Text} {c : Char} (h : AssignBlock b u k x c r) (t : Text) :
    AssignBlock (b ++ t) u k x c (r ++ t) :=
  ⟨by rw [h.eq]; simp, h.before, h.clear, h.key, h.balanced, h.closing⟩

/-- The first assign blocks of two objects that agree outside of parentheses correspond to each
other. -/
theorem head?_assignBlocks_agree {b u k v r : Text} {c e : Char} (hb : all.Balanced b)
    (hc : all.isClosing c = true) (hblock : AssignBlock b u k v e r)
    (hfirst : (assignBlocks ('{' :: (b ++ [c]))).head? = some (1 + u.length + k.length))
    {b' u' v' r' : Text} (hb' : all.Balanced b') (hblock' : AssignBlock b' u' k v' e r')
    (hu : Agree u u') :
    (assignBlocks ('{' :: (b' ++ [c]))).head? = some (1 + u'.length + k.length) := by
  have hmem : 1 + u'.length + k.length ∈ assignBlocks ('{' :: (b' ++ [c])) :=
    (mem_assignBlocks_object hb' hc).2 ⟨u', k, v', e, r', hblock', rfl⟩
  -- The list is sorted, so an earlier block would come first; there is none.
  have hsorted := pairwise_assignBlocks ('{' :: (b' ++ [c]))
  cases hlist : assignBlocks ('{' :: (b' ++ [c])) with
  | nil =>
      rw [hlist] at hmem
      cases hmem
  | cons i rest =>
      rw [hlist] at hmem hsorted
      rcases List.mem_cons.1 hmem with hi | hrest
      · rw [hi]
        rfl
      · exfalso
        have hlt := List.rel_of_pairwise_cons hsorted hrest
        obtain ⟨u₂', k₂, v₂', e₂, r₂', hblock₂', rfl⟩ :=
          (mem_assignBlocks_object hb' hc).1 (by rw [hlist]; exact List.mem_cons_self)
        obtain ⟨x', d, q', hbefore'⟩ := hblock'.before_of_lt hblock₂' (by omega)
        obtain ⟨u₂, x, q, hbefore, -⟩ := hu.symm.assignBlock hbefore'
        have hearlier : AssignBlock b u₂ k₂ x d (q ++ (k ++ '{' :: (v ++ e :: r))) := by
          have := hbefore.append (k ++ '{' :: (v ++ e :: r))
          rwa [← hblock.eq] at this
        have hmem₂ : 1 + u₂.length + k₂.length ∈ assignBlocks ('{' :: (b ++ [c])) :=
          (mem_assignBlocks_object hb hc).2 ⟨u₂, k₂, x, d, _, hearlier, rfl⟩
        have hlen : u₂.length + k₂.length < u.length := by
          rw [hbefore.eq]
          simp only [List.length_append, List.length_cons]
          omega
        have hsorted₂ := pairwise_assignBlocks ('{' :: (b ++ [c]))
        obtain ⟨rest₂, hlist₂⟩ := List.head?_eq_some_iff.1 hfirst
        rw [hlist₂] at hmem₂ hsorted₂
        rcases List.mem_cons.1 hmem₂ with heq | hrest₂
        · omega
        · have := List.rel_of_pairwise_cons hsorted₂ hrest₂
          omega

/-! ## Handling the calls piece by piece -/

namespace Wiring

variable {w : Wiring}

/-- The calls of a text are handled piece by piece. -/
theorem piecewise_markFrom (w : Wiring) : Piecewise w.markFrom fun t => t where
  append ha ht prev := markFrom_append ha ht prev
  cons hc prev t := by
    rw [markFrom, isCall_cons_eq_false hc]
    rfl
  congr {prev prev'} h t := by
    cases t with
    | nil => rfl
    | cons c t =>
        have hcall : isCall w.directive prev (c :: t) = isCall w.directive prev' (c :: t) := by
          rw [Bool.eq_iff_iff, isCall_iff, isCall_iff, h]
        rw [markFrom, markFrom, hcall]
  plain ht prev := by
    refine markFrom_eq_self prev _ ?_
    rw [verdicts_eq, (piecewise_lists w.directive).plain ht]
    exact List.not_mem_nil
  map_append _ _ := rfl

theorem trimEnd_markFrom {t : Text} (ht : all.Balanced t) (prev : Option Char) :
    (w.markFrom prev t).trimEnd = w.markFrom prev t.trimEnd ∧
      (w.markFrom prev t).drop (w.markFrom prev t).trimEnd.length =
        t.drop t.trimEnd.length := by
  obtain ⟨b, hb, hblank, hlast⟩ := Text.trimEnd_spec t
  have hcut := w.piecewise_markFrom.trimEnd ht prev
  have hsame := (agree_markFrom (w := w) prev t.trimEnd).getLast?_eq
  rw [drop_trimEnd hb] at hcut ⊢
  have htrim : (w.markFrom prev t).trimEnd = w.markFrom prev t.trimEnd := by
    rw [hcut]
    exact Text.trimEnd_append_blanks (fun c hc => hlast c (by rw [hsame, hc])) hblank
  refine ⟨htrim, ?_⟩
  rw [htrim, hcut]
  exact List.drop_left

theorem trim_markFrom {t : Text} (ht : all.Balanced t) {prev : Option Char}
    (hprev : isClear prev = true) : (w.markFrom prev t).trim = w.markFrom prev t.trim := by
  obtain ⟨-, -, -, -, -, hfirst, hlast⟩ := Text.trim_spec t
  obtain ⟨b, b', hb, hb', hcut⟩ := w.piecewise_markFrom.trim ht hprev
  have hagree := agree_markFrom (w := w) prev t.trim
  rw [hcut]
  exact Text.trim_eq_of_blanks hb hb' (fun c hc => hfirst c (by rw [hagree.head?_eq, hc]))
    fun c hc => hlast c (by rw [hagree.getLast?_eq, hc])

/-! ## The edits of the pieces -/

/-- A new entry of a block. -/
theorem markFrom_withEntry {v : Text} (hv : all.Balanced v) {prev : Option Char}
    (hprev : isClear prev = true) :
    w.markFrom prev (withEntry v w.marker.text) = withEntry (w.markFrom prev v) w.marker.text := by
  have hagree := agree_markFrom (w := w) prev v.trim
  rw [w.piecewise_markFrom.withEntry hv hprev, withEntry, trim_markFrom hv hprev,
    ← hagree.isEmpty_eq, ← hagree.endsWith_eq]
  simp

/-- What separates a new assign block from what stands before it in an object. -/
theorem clauseSeparator_brace (b : Text) :
    clauseSeparator ('{' :: b) =
      if b.trimEnd.isEmpty || b.trimEnd.endsWith ',' then [' '] else [',', ' '] := by
  have hbrace : isBlank '{' = false := by decide
  rw [clauseSeparator, Text.trimEnd_cons hbrace]
  cases hb : b.trimEnd with
  | nil => rfl
  | cons c t =>
      have hpos : 1 < Text.byteSize ('{' :: c :: t) := by
        have h1 := Char.utf8Size_pos '{'
        have h2 := Char.utf8Size_pos c
        simp only [Text.byteSize]
        omega
      have hends : Text.endsWith ('{' :: c :: t) ',' = Text.endsWith (c :: t) ',' := by
        rw [Text.endsWith, Text.endsWith, List.getLast?_cons_cons]
      rw [hends]
      by_cases hcomma : Text.endsWith (c :: t) ',' = true
      · simp [hcomma]
      · simp [hcomma, hpos]

/-- A new assign block of an object. -/
theorem markFrom_clause {b : Text} (hb : all.Balanced b) (prev : Option Char) :
    w.markFrom prev (b.trimEnd ++
        (clauseSeparator ('{' :: b) ++ (assignClause w.marker.text ++ [' ']))) =
      (w.markFrom prev b).trimEnd ++
        (clauseSeparator ('{' :: w.markFrom prev b) ++ (assignClause w.marker.text ++ [' '])) := by
  obtain ⟨hapart, hplain⟩ := apart_clause w.marker ('{' :: b)
  have hagree := agree_markFrom (w := w) prev b.trimEnd
  have hsep : clauseSeparator ('{' :: w.markFrom prev b) = clauseSeparator ('{' :: b) := by
    rw [clauseSeparator_brace, clauseSeparator_brace, (trimEnd_markFrom hb prev).1,
      ← hagree.isEmpty_eq, ← hagree.endsWith_eq]
  rw [w.piecewise_markFrom.append_plain (balanced_trimEnd hb).closed hapart hplain, hsep,
    (trimEnd_markFrom hb prev).1]

/-- A new options object behind the last argument. -/
theorem markFrom_addOptions {x : Text} (hx : all.Balanced x) (prev : Option Char) :
    w.markFrom prev (addOptions x w.marker.text) =
      addOptions (w.markFrom prev x) w.marker.text := by
  obtain ⟨b, hcut, hblank, -⟩ := Text.trimEnd_spec x
  obtain ⟨htrim, hdrop⟩ := trimEnd_markFrom (w := w) hx prev
  have hagree := agree_markFrom (w := w) prev x.trimEnd
  have hempty : (w.markFrom prev x.trimEnd).trimStart.isEmpty = x.trimEnd.isEmpty := by
    rw [← htrim, Text.isEmpty_trimStart_trimEnd, htrim, hagree.isEmpty_eq]
  rw [addOptions, addOptions, hdrop, htrim, hempty, Text.isEmpty_trimStart_trimEnd,
    ← hagree.endsWith_eq, drop_trimEnd hcut]
  by_cases hnil : x.trimEnd.isEmpty = true
  · rw [if_pos hnil, if_pos hnil]
    exact w.piecewise_markFrom.plain (paren_not_mem_newOptions w.marker) prev
  · rw [if_neg hnil, if_neg hnil]
    obtain ⟨hapart, hplain⟩ := apart_addOptions w.marker (x.trimEnd.endsWith ',' = true) hblank
    exact w.piecewise_markFrom.append_plain (balanced_trimEnd hx).closed hapart hplain prev

/-! ## The edit of the options object -/

/-- **Editing an options object and handling the calls inside it** can change places. The edited
object is a balanced text `i` in braces. -/
theorem injectMarker_markFrom {b : Text} (hb : all.Balanced b) :
    ∃ i, all.Balanced i ∧
      injectMarker ('{' :: (b ++ ['}'])) w.marker.text = '{' :: (i ++ ['}']) ∧
      injectMarker ('{' :: (w.markFrom (some '{') b ++ ['}'])) w.marker.text =
        '{' :: (w.markFrom (some '{') i ++ ['}']) := by
  have hF := w.piecewise_markFrom
  have hbrace : all.isClosing '}' = true := by decide
  have hagree := agree_markFrom (w := w) (some '{') b
  have hb' := hagree.balanced hb
  cases hfirst : (assignBlocks ('{' :: (b ++ ['}']))).head? with
  | none =>
      have hnone : (assignBlocks ('{' :: (w.markFrom (some '{') b ++ ['}']))).head? = none := by
        rw [List.head?_eq_none_iff] at hfirst ⊢
        rw [List.eq_nil_iff_forall_not_mem] at hfirst ⊢
        intro j hj
        obtain ⟨u', k, x', e, r', hblock', -⟩ := (mem_assignBlocks_object hb' hbrace).1 hj
        obtain ⟨u, x, r, hblock, -⟩ := hagree.symm.assignBlock hblock'
        exact hfirst _ ((mem_assignBlocks_object hb hbrace).2 ⟨u, k, x, e, r, hblock, rfl⟩)
      obtain ⟨happ, hi⟩ := appendAssign_object w.marker hb
      refine ⟨_, hi, ?_, ?_⟩
      · rw [injectMarker, hfirst]
        exact happ
      · rw [injectMarker, hnone, markFrom_clause hb]
        exact (appendAssign_object w.marker hb').1
  | some j =>
      obtain ⟨u, k, v, e, r, hblock, rfl⟩ :=
        (mem_assignBlocks_object hb hbrace).1 (List.mem_of_head? hfirst)
      have hkey : all.Balanced k := Balanced.of_weight fun _ ha => hblock.key.weight_eq_zero ha
      have huk := hblock.before.append hkey
      have hparen : '(' ∉ k := fun hm => absurd (hblock.key.weight_eq_zero hm) (by decide)
      -- No call begins before the key and runs into it, so the key stays where it is.
      obtain ⟨u', t, htext, hu, ht⟩ :=
        (agree_markFrom (w := w) (some '{') (u ++ k)).append_left hblock.before.above
          (by rw [hblock.before.depth_eq]; rfl)
      have hk : t = k := by
        rw [← List.append_nil k] at ht
        obtain ⟨t', rfl, hnil⟩ := ht.plain_left hparen
        cases hnil
        exact List.append_nil k
      rw [hk] at htext
      have hcut : ∀ x, all.Balanced x → w.markFrom (some '{') (u ++ (k ++ '{' :: (x ++ e :: r))) =
          u' ++ (k ++ '{' :: (w.markFrom (some '{') x ++ e :: w.markFrom (some e) r)) := by
        intro x hx
        have heq : u ++ (k ++ '{' :: (x ++ e :: r)) = u ++ k ++ '{' :: (x ++ e :: r) := by simp
        rw [heq, hF.object huk.closed hx hblock.closing, htext]
        simp
      have hblock' : AssignBlock (w.markFrom (some '{') b) u' k (w.markFrom (some '{') v) e
          (w.markFrom (some e) r) := by
        refine ⟨?_, hu.balanced hblock.before, ?_, hblock.key,
          (agree_markFrom (some '{') v).balanced hblock.balanced, hblock.closing⟩
        · rw [← hcut v hblock.balanced, ← hblock.eq]
        · rw [← hu.getLast?_eq]
          exact hblock.clear
      have hv' := (inserted_withEntry v w.marker).balanced hblock.balanced
      have hins := (inserted_withEntry v w.marker).context (u ++ (k ++ ['{'])) (e :: r)
      refine ⟨u ++ (k ++ '{' :: (withEntry v w.marker.text ++ e :: r)), ?_,
        injectMarker_block hblock hfirst, ?_⟩
      · have heq : u ++ (k ++ ['{']) ++ (v ++ e :: r) = b := by
          rw [hblock.eq]
          simp
        rw [heq] at hins
        simpa using hins.balanced hb
      · rw [injectMarker_block hblock'
          (head?_assignBlocks_agree hb hbrace hblock hfirst hb' hblock' hu),
          hcut _ hv', markFrom_withEntry hblock.balanced (by decide)]

/-! ## The edit of the list -/

theorem markArguments_object {x y b z : Text} {e : Char} (marker : Text) (hx : all.Balanced x)
    (hobj : ObjectArgument x y b e z) (hsep : separators 0 y = 2) :
    markArguments x marker = y ++ (injectMarker ('{' :: (b ++ [e])) marker ++ z) := by
  have hs : Calls ('(' :: (x ++ [')'])) [] x ')' [] := ⟨rfl, by simp, hx, by decide⟩
  obtain ⟨o, hread, -⟩ := ArgumentList.read?_of_calls [] hs
  have h := ((markArguments_spec hx marker).2 hs hread).symm.trans
    (injection_apply_object marker hs hread hobj hsep)
  have hcut : markArguments x marker ++ [')'] =
      y ++ (injectMarker ('{' :: (b ++ [e])) marker ++ z) ++ [')'] := by simpa using h
  exact List.append_cancel_right hcut

theorem markArguments_addOptions {x : Text} (marker : Text) (hx : all.Balanced x)
    (hno : ∀ y b e z, ObjectArgument x y b e z → separators 0 y ≠ 2) :
    markArguments x marker = addOptions x marker := by
  have hs : Calls ('(' :: (x ++ [')'])) [] x ')' [] := ⟨rfl, by simp, hx, by decide⟩
  obtain ⟨o, hread, -⟩ := ArgumentList.read?_of_calls [] hs
  have h := ((markArguments_spec hx marker).2 hs hread).symm.trans
    (injection_apply_addOptions marker hs hread hno)
  simpa using h

/-- The objects of a list when the calls inside have been handled. -/
theorem objectArgument_markFrom {x y b z : Text} {e : Char} (hx : all.Balanced x)
    (hobj : ObjectArgument x y b e z) (prev : Option Char) :
    ObjectArgument (w.markFrom prev x) (w.markFrom prev y) (w.markFrom (some '{') b) e
      (w.markFrom (some e) z) := by
  have hF := w.piecewise_markFrom
  have hy := hobj.closed_before hx
  refine ⟨?_, ?_, (agree_markFrom (some '{') b).balanced hobj.balanced, hobj.closing⟩
  · rw [hobj.eq, hF.object hy hobj.balanced hobj.closing]
    simp
  · obtain ⟨a, s, rfl, ha, hlast, hs⟩ := hobj.start
    have hblank : ∀ c ∈ s, isBlank c = true := fun c hc => isBlank_of_isAsciiBlank (hs c hc)
    have hagree := agree_markFrom (w := w) prev a
    rw [hF.append_plain ha.closed (apart_blanks hblank) (Agree.paren_not_mem_of_isBlank hblank)]
    refine ⟨w.markFrom prev a, s, rfl, hagree.balanced ha, ?_, hs⟩
    rcases hlast with rfl | hcomma
    · exact Or.inl rfl
    · exact Or.inr (by rw [← hagree.getLast?_eq, hcomma])

/-- **Marking a call and the calls inside it** can change places, if the options object of the
call ends with a brace. -/
theorem markFrom_markArguments {x : Text} (hx : all.Balanced x)
    (hend : ∀ y b c z, ObjectArgument x y b c z → separators 0 y = 2 → c = '}')
    (prev : Option Char) :
    w.markFrom prev (markArguments x w.marker.text) =
      markArguments (w.markFrom prev x) w.marker.text := by
  have hF := w.piecewise_markFrom
  have hagree := agree_markFrom (w := w) prev x
  have hx' := hagree.balanced hx
  by_cases hthird : ∃ y b e z, ObjectArgument x y b e z ∧ separators 0 y = 2
  · obtain ⟨y, b, e, z, hobj, hsep⟩ := hthird
    obtain rfl := hend y b e z hobj hsep
    have hy := hobj.closed_before hx
    have hobj' := objectArgument_markFrom (w := w) hx hobj prev
    have habove : all.Above 0 y := by
      rw [hobj.eq] at hx
      exact (above_append.1 hx.above).1
    have hsep' : separators 0 (w.markFrom prev y) = 2 := by
      rw [← (agree_markFrom prev y).separators_eq habove, hsep]
    obtain ⟨i, hi, hinj, hinj'⟩ := injectMarker_markFrom (w := w) hobj.balanced
    calc w.markFrom prev (markArguments x w.marker.text)
        = w.markFrom prev (y ++ '{' :: (i ++ '}' :: z)) := by
          rw [markArguments_object w.marker.text hx hobj hsep, hinj]
          simp
      _ = w.markFrom prev y ++ '{' :: (w.markFrom (some '{') i ++ '}' ::
            w.markFrom (some '}') z) := by
          rw [hF.object hy hi hobj.closing]
          simp
      _ = markArguments (w.markFrom prev x) w.marker.text := by
          rw [markArguments_object w.marker.text hx' hobj' hsep', hinj']
          simp
  · have hno : ∀ y b e z, ObjectArgument x y b e z → separators 0 y ≠ 2 :=
      fun y b e z hobj hsep => hthird ⟨y, b, e, z, hobj, hsep⟩
    have hno' : ∀ y b e z, ObjectArgument (w.markFrom prev x) y b e z → separators 0 y ≠ 2 := by
      intro y b e z hobj hsep
      obtain ⟨y', b', z', hobj', -, hsep'⟩ := hagree.symm.objectArgument hobj
      exact hno y' b' e z' hobj' (by rw [← hsep', hsep])
    rw [markArguments_addOptions w.marker.text hx hno,
      markArguments_addOptions w.marker.text hx' hno', markFrom_addOptions hx]

end Wiring

end Stylewire
