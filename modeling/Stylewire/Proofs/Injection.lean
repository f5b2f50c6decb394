import Stylewire.Proofs.OptionsObject

set_option autoImplicit false

/-! # What marking a call does to its argument list

`injection` plans one of four edits. `Injected` lists them by how the text between the
parentheses is cut before and after (`injection_apply`). Two facts about all four follow:

* up to blanks, one chunk of text is added and nothing else happens (`Injected.inserted`), so
  a balanced list stays balanced (`Injected.balanced`);
* if the options object ends with a brace, the call is marked afterwards
  (`Injected.marked`).
-/

namespace Stylewire

open Brackets

/-! ## Trimming -/

namespace Text

/-- Trimming the end takes blanks off, and all of them. -/
theorem trimEnd_spec (t : Text) :
    ∃ b, t = trimEnd t ++ b ∧ (∀ c ∈ b, isBlank c = true) ∧
      ∀ c, (trimEnd t).getLast? = some c → isBlank c = false := by
  refine ⟨(t.reverse.takeWhile isBlank).reverse, ?_, ?_, ?_⟩
  · rw [trimEnd, ← List.reverse_append, List.takeWhile_append_dropWhile, List.reverse_reverse]
  · intro c hc
    exact List.all_eq_true.1 List.all_takeWhile c (List.mem_reverse.1 hc)
  · intro c hc
    have h := List.head?_dropWhile_not isBlank t.reverse
    rw [trimEnd, List.getLast?_reverse] at hc
    rw [hc] at h
    simpa using h

/-- Trimming the start takes blanks off, and all of them. -/
theorem trimStart_spec (t : Text) :
    ∃ b, t = b ++ trimStart t ∧ (∀ c ∈ b, isBlank c = true) ∧
      ∀ c, (trimStart t).head? = some c → isBlank c = false := by
  refine ⟨t.takeWhile isBlank, ?_, List.all_eq_true.1 List.all_takeWhile, ?_⟩
  · rw [trimStart, List.takeWhile_append_dropWhile]
  · intro c hc
    have h := List.head?_dropWhile_not isBlank t
    rw [trimStart] at hc
    rw [hc] at h
    simpa using h

/-- Only a text of blanks is trimmed to nothing. -/
theorem isBlank_of_trimEnd_eq_nil {t : Text} (h : trimEnd t = []) :
    ∀ c ∈ t, isBlank c = true := by
  obtain ⟨b, hb, hblank, -⟩ := trimEnd_spec t
  rw [h, List.nil_append] at hb
  rw [hb]
  exact hblank

/-- A text of blanks is trimmed to nothing. -/
theorem trimEnd_eq_nil {t : Text} (h : trimStart (trimEnd t) = []) : trimEnd t = [] := by
  obtain ⟨-, -, -, hlast⟩ := trimEnd_spec t
  obtain ⟨b, hb, hblank, -⟩ := trimStart_spec (trimEnd t)
  rw [h, List.append_nil] at hb
  rw [← hb] at hblank
  cases hc : (trimEnd t).getLast? with
  | none => exact List.getLast?_eq_none_iff.1 hc
  | some c =>
      have hfalse := hlast c hc
      rw [hblank c (List.mem_of_getLast? hc)] at hfalse
      cases hfalse

theorem trimEnd_cons {c : Char} (hc : isBlank c = false) (t : Text) :
    trimEnd (c :: t) = c :: trimEnd t := by
  rw [trimEnd, trimEnd, List.reverse_cons, List.dropWhile_append]
  split
  · rename_i h
    rw [List.isEmpty_iff] at h
    simp [h, hc]
  · simp

theorem endsWith_iff {t : Text} {c : Char} : endsWith t c = true ↔ t.getLast? = some c := by
  rw [endsWith, beq_iff_eq]

/-- The text without its blanks. -/
def withoutBlanks (t : Text) : Text := t.filter fun c => !isBlank c

@[simp] theorem withoutBlanks_nil : withoutBlanks [] = [] := rfl

theorem withoutBlanks_append (t u : Text) :
    withoutBlanks (t ++ u) = withoutBlanks t ++ withoutBlanks u :=
  List.filter_append _ _

theorem withoutBlanks_cons {c : Char} (hc : isBlank c = false) (t : Text) :
    withoutBlanks (c :: t) = c :: withoutBlanks t := by
  simp [withoutBlanks, hc]

theorem withoutBlanks_blank {b : Text} (hb : ∀ c ∈ b, isBlank c = true) :
    withoutBlanks b = [] := by
  rw [withoutBlanks, List.filter_eq_nil_iff]
  intro c hc
  simp [hb c hc]

theorem withoutBlanks_eq_self {t : Text} (h : ∀ c ∈ t, isBlank c = false) :
    withoutBlanks t = t := by
  rw [withoutBlanks, List.filter_eq_self]
  intro c hc
  simp [h c hc]

end Text

/-! ## The texts that are added -/

theorem Identifier.isBlank_of_mem (name : Identifier) {c : Char} (h : c ∈ name.text) :
    isBlank c = false := by
  rw [Bool.eq_false_iff]
  intro hb
  have := name.isIdentChar_of_mem h
  rw [isIdentChar_eq_false_of_isBlank hb] at this
  cases this

/-- An assign block with its key, without blanks. -/
def bareClause (marker : Text) : Text :=
  assignWord ++ [':', '{'] ++ marker ++ ['}']

/-- The chunks that an injection adds, up to blanks: a new options object, a new assign block
or the marker alone, each with or without a comma before it. -/
def chunks (marker : Text) : List Text :=
  [['{'] ++ bareClause marker ++ ['}'], [',', '{'] ++ bareClause marker ++ ['}'],
    bareClause marker, [','] ++ bareClause marker, marker, [','] ++ marker]

theorem withoutBlanks_assignClause (marker : Identifier) :
    (assignClause marker.text).withoutBlanks = bareClause marker.text := by
  have hm := Text.withoutBlanks_eq_self fun c hc => marker.isBlank_of_mem (c := c) hc
  rw [assignClause, Text.withoutBlanks_append, Text.withoutBlanks_append, hm, bareClause]
  rfl

theorem withoutBlanks_newOptions (marker : Identifier) :
    (newOptions marker.text).withoutBlanks = ['{'] ++ bareClause marker.text ++ ['}'] := by
  rw [newOptions, Text.withoutBlanks_append, Text.withoutBlanks_append,
    withoutBlanks_assignClause]
  rfl

theorem balanced_identifier (name : Identifier) : all.Balanced name.text :=
  Balanced.of_weight fun _ hc => weight_of_isIdentChar (name.isIdentChar_of_mem hc)

theorem balanced_blanks {b : Text} (hb : ∀ c ∈ b, isBlank c = true) : all.Balanced b :=
  Balanced.of_weight fun c hc => weight_of_isBlank (hb c hc)

theorem balanced_bareClause (marker : Identifier) : all.Balanced (bareClause marker.text) := by
  have hgroup := (balanced_identifier marker).group (o := '{') (c := '}') (by decide) (by decide)
  have hkey : all.Balanced (assignWord ++ [':']) := Balanced.of_all (by decide)
  have heq : bareClause marker.text =
      assignWord ++ [':'] ++ '{' :: (marker.text ++ ['}']) := by
    simp [bareClause]
  rw [heq]
  exact hkey.append hgroup

theorem balanced_of_mem_chunks (marker : Identifier) {t : Text}
    (h : t ∈ chunks marker.text) : all.Balanced t := by
  have hclause := balanced_bareClause marker
  have hobject := hclause.group (o := '{') (c := '}') (by decide) (by decide)
  have hcomma : all.Balanced [','] := Balanced.of_all (by decide)
  simp only [chunks, List.mem_cons, List.not_mem_nil, or_false] at h
  rcases h with rfl | rfl | rfl | rfl | rfl | rfl
  · exact hobject
  · exact hcomma.append hobject
  · exact hclause
  · exact hcomma.append hclause
  · exact balanced_identifier marker
  · exact hcomma.append (balanced_identifier marker)

/-- Blanks do not count for brackets. -/
theorem above_withoutBlanks {d : Int} {t : Text} :
    all.Above d t.withoutBlanks ↔ all.Above d t := by
  induction t generalizing d with
  | nil => rfl
  | cons c t ih =>
      by_cases hc : isBlank c = true
      · have hw : all.weight c = 0 := weight_of_isBlank hc
        have hdrop : Text.withoutBlanks (c :: t) = Text.withoutBlanks t := by
          simp [Text.withoutBlanks, hc]
        rw [hdrop, ih, Above, hw, Int.add_zero]
        exact ⟨fun h => ⟨h.nonneg, h⟩, fun h => h.2⟩
      · rw [Text.withoutBlanks_cons (by simpa using hc), Above, Above, ih]

theorem depth_withoutBlanks (t : Text) : all.depth t.withoutBlanks = all.depth t := by
  induction t with
  | nil => rfl
  | cons c t ih =>
      by_cases hc : isBlank c = true
      · have hw : all.weight c = 0 := weight_of_isBlank hc
        have hdrop : Text.withoutBlanks (c :: t) = Text.withoutBlanks t := by
          simp [Text.withoutBlanks, hc]
        rw [hdrop, ih, depth_cons, hw, Int.zero_add]
      · rw [Text.withoutBlanks_cons (by simpa using hc), depth_cons, depth_cons, ih]

theorem balanced_withoutBlanks {t : Text} : all.Balanced t.withoutBlanks ↔ all.Balanced t :=
  ⟨fun h => ⟨above_withoutBlanks.1 h.above, by rw [← depth_withoutBlanks, h.depth_eq]⟩,
    fun h => ⟨above_withoutBlanks.2 h.above, by rw [depth_withoutBlanks, h.depth_eq]⟩⟩

theorem balanced_assignClause (marker : Identifier) :
    all.Balanced (assignClause marker.text) := by
  rw [← balanced_withoutBlanks, withoutBlanks_assignClause]
  exact balanced_bareClause marker

/-! ## The four edits -/

/-- The text inside an assign block with the marker behind its other entries. -/
def withEntry (v marker : Text) : Text :=
  [' '] ++ v.trim ++ (if v.trim.isEmpty || v.trim.endsWith ',' then [] else [',', ' ']) ++
    marker ++ [' ']

/-- What marking a call makes of the text between the parentheses. -/
inductive Injected (marker : Text) : Text → Text → Prop
  /-- A list of blanks makes room for a new options object. -/
  | alone {x : Text} : (∀ c ∈ x, isBlank c = true) → Injected marker x (newOptions marker)
  /-- A new options object is put behind the last argument. -/
  | behind {y b : Text} {c : Char} : isBlank c = false → (∀ e ∈ b, isBlank e = true) →
      Injected marker (y ++ c :: b)
        (y ++ c :: ((if c = ',' then [' '] else [',', ' ']) ++ newOptions marker ++ b))
  /-- The marker is put into an assign block of the options object. -/
  | entry {x y b z u k v w : Text} {c e : Char} : ObjectArgument x y b c z →
      separators 0 y = 2 → AssignBlock b u k v e w →
      Injected marker x
        (y ++ '{' :: (u ++ (k ++ '{' :: (withEntry v marker ++ e :: w)) ++ c :: z))
  /-- A new assign block is put into the options object. -/
  | clause {x y b z : Text} {c : Char} : ObjectArgument x y b c z → separators 0 y = 2 →
      Injected marker x (y ++ (appendAssign ('{' :: (b ++ [c])) marker ++ z))

/-- A splice in the middle of a text. -/
theorem Splice.apply_append (p q t u : Text) :
    (Splice.mk p.length (p.length + q.length) u).apply (p ++ (q ++ t)) = p ++ (u ++ t) := by
  have hdrop : (p ++ (q ++ t)).drop (p.length + q.length) = t := by
    rw [← List.append_assoc]
    exact List.drop_left' (by rw [List.length_append])
  rw [Splice.apply, List.take_left, hdrop]

/-- The marker is put into the first assign block, if the object has one. -/
theorem injectMarker_block {b u k v w marker : Text} {c e : Char}
    (hblock : AssignBlock b u k v e w)
    (hfirst : (assignBlocks ('{' :: (b ++ [c]))).head? = some (1 + u.length + k.length)) :
    injectMarker ('{' :: (b ++ [c])) marker =
      '{' :: (u ++ (k ++ '{' :: (withEntry v marker ++ e :: w)) ++ [c]) := by
  have heq : '{' :: (b ++ [c]) = '{' :: (u ++ k) ++ ['{'] ++ (v ++ (e :: w ++ [c])) := by
    rw [hblock.eq]
    simp
  have hlen : ('{' :: (u ++ k) ++ ['{']).length = 1 + u.length + k.length + 1 := by
    simp only [List.length_append, List.length_cons, List.length_nil]
    omega
  have htake : ('{' :: (b ++ [c])).take (1 + u.length + k.length + 1) =
      '{' :: (u ++ k) ++ ['{'] := by
    rw [heq]
    exact List.take_left' hlen
  have hdrop : ('{' :: (b ++ [c])).drop (1 + u.length + k.length + 1 + v.length) =
      e :: w ++ [c] := by
    rw [heq, ← List.append_assoc]
    exact List.drop_left' (by rw [List.length_append, hlen])
  have hslice : Text.slice ('{' :: (b ++ [c])) (1 + u.length + k.length + 1)
      (1 + u.length + k.length + 1 + v.length) = v := by
    rw [Text.slice, heq, List.drop_left' hlen]
    exact List.take_left' (by omega)
  rw [injectMarker, hfirst]
  simp only [hblock.closing?_eq, hslice, htake, hdrop, withEntry]
  simp

/-- The edit of an options object. -/
theorem injectMarker_object {x y b z : Text} {c : Char} (marker : Text)
    (hobj : ObjectArgument x y b c z) (hsep : separators 0 y = 2) :
    Injected marker x (y ++ (injectMarker ('{' :: (b ++ [c])) marker ++ z)) := by
  cases hfirst : (assignBlocks ('{' :: (b ++ [c]))).head? with
  | none =>
      have hinj : injectMarker ('{' :: (b ++ [c])) marker =
          appendAssign ('{' :: (b ++ [c])) marker := by
        rw [injectMarker, hfirst]
      rw [hinj]
      exact .clause hobj hsep
  | some i =>
      have hmem : i ∈ assignBlocks ('{' :: (b ++ [c])) := List.mem_of_head? hfirst
      obtain ⟨u, k, v, e, w, hblock, rfl⟩ :=
        (mem_assignBlocks_object hobj.balanced hobj.closing).1 hmem
      rw [injectMarker_block hblock hfirst]
      have hentry : Injected marker x _ := .entry hobj hsep hblock
      simpa using hentry

/-- A list without options object and with a new one behind its last argument. -/
def addOptions (x marker : Text) : Text :=
  if x.trimEnd.trimStart.isEmpty then newOptions marker
  else
    x.trimEnd ++ ((if x.trimEnd.endsWith ',' then [' '] else [',', ' ']) ++ newOptions marker ++
      x.drop x.trimEnd.length)

theorem drop_trimEnd {x b : Text} (hx : x = x.trimEnd ++ b) : x.drop x.trimEnd.length = b := by
  conv => lhs; rw [hx]
  exact List.drop_left' (by rw [← hx])

/-- The edit of a list without options object. -/
theorem injected_addOptions (x marker : Text) :
    Injected marker x (addOptions x marker) := by
  obtain ⟨b, hx, hb, hlast⟩ := Text.trimEnd_spec x
  rw [addOptions, drop_trimEnd hx]
  split
  · rename_i hempty
    have hnil := Text.trimEnd_eq_nil (List.isEmpty_iff.1 hempty)
    exact .alone (Text.isBlank_of_trimEnd_eq_nil hnil)
  · rename_i hempty
    have hne : Text.trimEnd x ≠ [] := fun hnil => hempty (by rw [hnil]; rfl)
    obtain ⟨y, c, hc⟩ := (List.eq_nil_or_concat x.trimEnd).resolve_left hne
    rw [List.concat_eq_append] at hc
    rw [hc] at hx hlast ⊢
    have hends : Text.endsWith (y ++ [c]) ',' = decide (c = ',') := by
      rw [Bool.eq_iff_iff, Text.endsWith_iff]
      simp
    have hx' : x = y ++ c :: b := by rw [hx]; simp
    subst hx'
    have hbehind : Injected marker (y ++ c :: b) _ := .behind (hlast c (by simp)) hb
    simpa [hends] using hbehind

/-- The text between the parentheses of a call. -/
theorem arguments_of_calls {s h x r : Text} {c : Char} (p : Text) (hs : Calls s h x c r)
    {a : ArgumentList} (ho : a.opening = p.length + h.length)
    (hc : a.closing = p.length + h.length + 1 + x.length) : a.arguments (p ++ s) = x := by
  have hlen : (p ++ h ++ ['(']).length = p.length + h.length + 1 := by simp; omega
  have htext : p ++ s = p ++ h ++ ['('] ++ (x ++ c :: r) := by
    rw [hs.eq]
    simp
  rw [ArgumentList.arguments, Text.slice, ho, hc, htext, List.drop_left' hlen]
  exact List.take_left' (Nat.add_sub_cancel_left _ _).symm

section

variable {s h x r : Text} {c : Char} {a : ArgumentList} {p : Text} (marker : Text)
    (hs : Calls s h x c r) (ha : ArgumentList.read? (p ++ s) p.length = some a)

include hs ha

/-- The options object that is read is the object argument behind two separators. -/
theorem options_eq_some {y b z : Text} {e : Char} (hobj : ObjectArgument x y b e z)
    (hsep : separators 0 y = 2) :
    ∃ o, a.options = some o ∧ o.body (p ++ s) = '{' :: (b ++ [e]) ∧
      o = objectSpan (p.length + h.length + 1) y b := by
  obtain ⟨o, hread, hopt⟩ := ArgumentList.read?_of_calls p hs
  rw [hread] at ha
  obtain rfl := (Option.some.inj ha).symm
  exact ⟨_, (hopt _).2 ⟨y, b, e, z, hobj, hsep, rfl⟩, hobj.body_eq p hs, rfl⟩

theorem options_eq_none (hno : ∀ y b e z, ObjectArgument x y b e z → separators 0 y ≠ 2) :
    a.options = none := by
  obtain ⟨o, hread, hopt⟩ := ArgumentList.read?_of_calls p hs
  rw [hread] at ha
  obtain rfl := (Option.some.inj ha).symm
  refine Option.eq_none_iff_forall_ne_some.2 fun span hspan => ?_
  obtain ⟨y, b, e, z, hobj, hsep, -⟩ := (hopt span).1 hspan
  exact hno y b e z hobj hsep

theorem injection_apply_object {y b z : Text} {e : Char} (hobj : ObjectArgument x y b e z)
    (hsep : separators 0 y = 2) :
    (injection (p ++ s) a marker).apply (p ++ s) =
      p ++ (h ++ '(' :: (y ++ (injectMarker ('{' :: (b ++ [e])) marker ++ z) ++ c :: r)) := by
  obtain ⟨o, ho, hbody, hspan⟩ := options_eq_some hs ha hobj hsep
  have hlen : (p ++ h ++ ['(']).length = p.length + h.length + 1 := by simp; omega
  have htext : p ++ s = p ++ h ++ ['('] ++ (y ++ '{' :: (b ++ e :: (z ++ c :: r))) := by
    rw [hs.eq, hobj.eq]
    simp
  have hsplice := Splice.apply_append (p ++ h ++ ['('] ++ y) ('{' :: (b ++ [e]))
    (z ++ c :: r) (injectMarker ('{' :: (b ++ [e])) marker)
  have hend : (p ++ h ++ ['('] ++ y).length + ('{' :: (b ++ [e])).length =
      p.length + h.length + 1 + y.length + 1 + b.length + 1 := by
    rw [List.length_append, hlen]
    simp only [List.length_append, List.length_cons, List.length_nil]
    omega
  rw [hend, List.length_append, hlen] at hsplice
  simp only [injection, ho, hbody]
  rw [hspan, objectSpan, htext]
  simpa using hsplice

theorem injection_apply_addOptions
    (hno : ∀ y b e z, ObjectArgument x y b e z → separators 0 y ≠ 2) :
    (injection (p ++ s) a marker).apply (p ++ s) =
      p ++ (h ++ '(' :: (addOptions x marker ++ c :: r)) := by
  have hnone := options_eq_none hs ha hno
  obtain ⟨o, hread, hopt⟩ := ArgumentList.read?_of_calls p hs
  rw [hread] at ha
  obtain rfl := (Option.some.inj ha).symm
  obtain rfl : o = none := hnone
  have hlen : (p ++ h ++ ['(']).length = p.length + h.length + 1 := by simp; omega
  have htext : p ++ s = p ++ h ++ ['('] ++ (x ++ c :: r) := by
    rw [hs.eq]
    simp
  have hargs : ArgumentList.arguments
      ⟨p.length + h.length, p.length + h.length + 1 + x.length, none⟩ (p ++ s) = x :=
    arguments_of_calls p hs rfl rfl
  obtain ⟨b, hx, -, -⟩ := Text.trimEnd_spec x
  simp only [injection, hargs, addOptions, drop_trimEnd hx]
  split
  · rw [htext, ← hlen, Splice.apply_append]
    simp
  · have hinsert := Splice.apply_append (p ++ h ++ ['('] ++ x.trimEnd) [] (b ++ c :: r)
    rw [List.length_append, hlen] at hinsert
    rw [htext]
    generalize x.trimEnd = g at hx hinsert ⊢
    subst hx
    have := hinsert ((if g.endsWith ',' then [' '] else [',', ' ']) ++ newOptions marker)
    simpa using this

end

/-- **What marking a call does to the text**: the list becomes one that depends on nothing
but the list, and nothing else changes. -/
theorem exists_injected (x marker : Text) :
    ∃ x', Injected marker x x' ∧
      ∀ {p s h r : Text} {c : Char} {a : ArgumentList}, Calls s h x c r →
        ArgumentList.read? (p ++ s) p.length = some a →
        (injection (p ++ s) a marker).apply (p ++ s) = p ++ (h ++ '(' :: (x' ++ c :: r)) := by
  by_cases hthird : ∃ y b e z, ObjectArgument x y b e z ∧ separators 0 y = 2
  · obtain ⟨y, b, e, z, hobj, hsep⟩ := hthird
    exact ⟨_, injectMarker_object marker hobj hsep,
      fun hs ha => injection_apply_object marker hs ha hobj hsep⟩
  · have hno : ∀ y b e z, ObjectArgument x y b e z → separators 0 y ≠ 2 :=
      fun y b e z hobj hsep => hthird ⟨y, b, e, z, hobj, hsep⟩
    exact ⟨_, injected_addOptions x marker,
      fun hs ha => injection_apply_addOptions marker hs ha hno⟩

/-- The list after its call has been marked. -/
def markArguments (x marker : Text) : Text :=
  let t := '(' :: (x ++ [')'])
  match ArgumentList.read? t 0 with
  | some a => (((injection t a marker).apply t).drop 1).dropLast
  | none => x

/-- **What marking a call does**: its list is edited in a way that depends on the list alone,
and nothing else changes. -/
theorem markArguments_spec {x : Text} (hx : all.Balanced x) (marker : Text) :
    Injected marker x (markArguments x marker) ∧
      ∀ {p s h r : Text} {c : Char} {a : ArgumentList}, Calls s h x c r →
        ArgumentList.read? (p ++ s) p.length = some a →
        (injection (p ++ s) a marker).apply (p ++ s) =
          p ++ (h ++ '(' :: (markArguments x marker ++ c :: r)) := by
  obtain ⟨x', hinj, happly⟩ := exists_injected x marker
  have heq : markArguments x marker = x' := by
    have hs : Calls ('(' :: (x ++ [')'])) [] x ')' [] := ⟨rfl, by simp, hx, by decide⟩
    obtain ⟨o, hread, -⟩ := ArgumentList.read?_of_calls [] hs
    have hedit := happly hs hread
    simp only [List.nil_append, List.length_nil] at hread hedit
    simp only [markArguments, hread, hedit]
    simp
  rw [heq]
  exact ⟨hinj, happly⟩

/-- What stands between a new assign block and the text before it. -/
def clauseSeparator (before : Text) : Text :=
  if 1 < before.trimEnd.byteSize && !before.trimEnd.endsWith ',' then [',', ' '] else [' ']

theorem clauseSeparator_cases (before : Text) :
    clauseSeparator before = [' '] ∨ clauseSeparator before = [',', ' '] := by
  unfold clauseSeparator
  split
  · exact Or.inr rfl
  · exact Or.inl rfl

theorem balanced_clauseSeparator (before : Text) : all.Balanced (clauseSeparator before) := by
  rcases clauseSeparator_cases before with h | h
  · rw [h]
    exact Balanced.of_all (by decide)
  · rw [h]
    exact Balanced.of_all (by decide)

theorem isClear_clauseSeparator (u before : Text) :
    isClear (u ++ clauseSeparator before).getLast? = true := by
  have hspace : isClear (some ' ') = true := by decide
  rcases clauseSeparator_cases before with h | h
  · rw [h, List.getLast?_append]
    exact hspace
  · rw [h, List.getLast?_append]
    exact hspace

/-- A new assign block is put before the last brace of a text. -/
theorem appendAssign_brace {g f : Text} (marker : Text) (hg : g ≠ []) (hf : '}' ∉ f) :
    appendAssign (g ++ '}' :: f) marker =
      g.trimEnd ++ (clauseSeparator g ++ (assignClause marker ++ [' ']) ++ '}' :: f) := by
  have hmem : '}' ∈ g ++ '}' :: f := by simp
  have htail : ((g ++ '}' :: f).reverse.takeWhile (· != '}')).reverse = f := by
    have hrev : (g ++ '}' :: f).reverse = f.reverse ++ '}' :: g.reverse := by simp
    rw [hrev, Text.takeWhile_ne (mt List.mem_reverse.1 hf), List.reverse_reverse]
  have hclosing : (g ++ '}' :: f).length - f.length - 1 = g.length := by
    rw [List.length_append, List.length_cons]
    omega
  have hpos : g.length ≠ 0 := fun h => hg (List.eq_nil_of_length_eq_zero h)
  simp only [appendAssign, if_pos hmem, htail, hclosing, if_neg hpos, List.take_left,
    clauseSeparator]
  simp

theorem appendAssign_head {f : Text} (marker : Text) (hf : '}' ∉ f) :
    appendAssign ('}' :: f) marker = '}' :: f := by
  have hpos : ('}' :: f).length -
      ((('}' :: f).reverse.takeWhile (· != '}')).reverse).length - 1 = 0 := by
    rw [List.reverse_cons, Text.takeWhile_ne (mt List.mem_reverse.1 hf)]
    simp
  simp only [appendAssign, hpos, if_true, ite_self]

/-- A character of a text stands somewhere for the last time. -/
theorem Text.exists_last {t : Text} {c : Char} (h : c ∈ t) : ∃ g f, t = g ++ c :: f ∧ c ∉ f := by
  obtain ⟨f, g, hrev, hf⟩ := List.eq_append_cons_of_mem (List.mem_reverse.2 h)
  refine ⟨g.reverse, f.reverse, ?_, mt List.mem_reverse.1 hf⟩
  rw [← List.reverse_reverse t, hrev]
  simp

/-- A new assign block is put before the last brace of a text; nothing happens if there is none,
or if it is the first character. -/
theorem appendAssign_cases (t marker : Text) :
    (appendAssign t marker = t ∧ ('}' ∈ t → t.head? = some '}')) ∨
      ∃ g f : Text, t = g ++ '}' :: f ∧ appendAssign t marker =
        g.trimEnd ++ (clauseSeparator g ++ (assignClause marker ++ [' ']) ++ '}' :: f) := by
  by_cases hmem : '}' ∈ t
  · obtain ⟨g, f, rfl, hf⟩ := Text.exists_last hmem
    by_cases hg : g = []
    · subst hg
      exact Or.inl ⟨appendAssign_head marker hf, fun _ => rfl⟩
    · exact Or.inr ⟨g, f, rfl, appendAssign_brace marker hg hf⟩
  · left
    refine ⟨?_, fun h => absurd h hmem⟩
    rw [appendAssign, if_neg hmem]

/-! ## Nothing is lost -/

/-- Up to blanks, `t'` is `t` with one chunk inserted. -/
def Added (marker t t' : Text) : Prop :=
  ∃ u v, ∃ n ∈ chunks marker, t.withoutBlanks = u ++ v ∧ t'.withoutBlanks = u ++ (n ++ v)

/-- Up to blanks, `t'` is `t`, or `t` with one chunk inserted. -/
def Inserted (marker t t' : Text) : Prop :=
  t'.withoutBlanks = t.withoutBlanks ∨ Added marker t t'

theorem Added.context {marker t t' : Text} (p r : Text) (h : Added marker t t') :
    Added marker (p ++ (t ++ r)) (p ++ (t' ++ r)) := by
  obtain ⟨u, v, n, hn, ht, ht'⟩ := h
  simp only [Added, Text.withoutBlanks_append]
  refine ⟨p.withoutBlanks ++ u, v ++ r.withoutBlanks, n, hn, ?_, ?_⟩
  · rw [ht]
    simp
  · rw [ht']
    simp

theorem Inserted.context {marker t t' : Text} (p r : Text) (h : Inserted marker t t') :
    Inserted marker (p ++ (t ++ r)) (p ++ (t' ++ r)) := by
  rcases h with heq | hadd
  · left
    simp only [Text.withoutBlanks_append, heq]
  · exact Or.inr (hadd.context p r)

/-- An insertion keeps a text balanced. -/
theorem Inserted.balanced {t t' : Text} {marker : Identifier}
    (h : Inserted marker.text t t') (ht : all.Balanced t) : all.Balanced t' := by
  rw [← balanced_withoutBlanks] at ht ⊢
  rcases h with heq | ⟨u, v, n, hn, heq, heq'⟩
  · rw [heq]
    exact ht
  · rw [heq] at ht
    rw [heq']
    exact ht.insert (balanced_of_mem_chunks marker hn)

theorem withoutBlanks_trimEnd (t : Text) : t.trimEnd.withoutBlanks = t.withoutBlanks := by
  obtain ⟨b, hb, hblank, -⟩ := Text.trimEnd_spec t
  conv => rhs; rw [hb]
  rw [Text.withoutBlanks_append, Text.withoutBlanks_blank hblank, List.append_nil]

theorem withoutBlanks_trim (t : Text) : t.trim.withoutBlanks = t.withoutBlanks := by
  obtain ⟨b, hb, hblank, -⟩ := Text.trimStart_spec t
  rw [Text.trim, withoutBlanks_trimEnd]
  conv => rhs; rw [hb]
  rw [Text.withoutBlanks_append, Text.withoutBlanks_blank hblank, List.nil_append]

theorem balanced_trimEnd {t : Text} (ht : all.Balanced t) : all.Balanced t.trimEnd := by
  rw [← balanced_withoutBlanks, withoutBlanks_trimEnd, balanced_withoutBlanks]
  exact ht

theorem balanced_trim {t : Text} (ht : all.Balanced t) : all.Balanced t.trim := by
  rw [← balanced_withoutBlanks, withoutBlanks_trim, balanced_withoutBlanks]
  exact ht

/-- A new entry of a block. -/
theorem added_withEntry (v : Text) (marker : Identifier) :
    Added marker.text v (withEntry v marker.text) := by
  have hm := Text.withoutBlanks_eq_self fun c hc => marker.isBlank_of_mem (c := c) hc
  have hblank : Text.withoutBlanks [' '] = [] := rfl
  have hcomma : Text.withoutBlanks [',', ' '] = [','] := rfl
  refine ⟨v.withoutBlanks, [], _, ?_, by rw [List.append_nil], by
    simp only [withEntry, Text.withoutBlanks_append, withoutBlanks_trim, hm, hblank,
      List.nil_append, List.append_nil, List.append_assoc]
    rfl⟩
  split
  · simp [chunks]
  · simp [chunks, hcomma]

theorem inserted_withEntry (v : Text) (marker : Identifier) :
    Inserted marker.text v (withEntry v marker.text) :=
  Or.inr (added_withEntry v marker)

/-- A new assign block of an object, before its last brace. -/
theorem added_clause (g f : Text) (marker : Identifier) :
    Added marker.text (g ++ '}' :: f)
      (g.trimEnd ++ (clauseSeparator g ++ (assignClause marker.text ++ [' ']) ++ '}' :: f)) := by
  have hblank : Text.withoutBlanks [' '] = [] := rfl
  have hcomma : Text.withoutBlanks [',', ' '] = [','] := rfl
  refine ⟨g.withoutBlanks, Text.withoutBlanks ('}' :: f), (clauseSeparator g).withoutBlanks ++
    bareClause marker.text, ?_, Text.withoutBlanks_append _ _, ?_⟩
  · rcases clauseSeparator_cases g with hsep | hsep
    · simp [chunks, hsep, hblank]
    · simp [chunks, hsep, hcomma]
  · simp only [Text.withoutBlanks_append, withoutBlanks_trimEnd, withoutBlanks_assignClause,
      hblank, List.append_nil]

theorem inserted_appendAssign (t : Text) (marker : Identifier) :
    Inserted marker.text t (appendAssign t marker.text) := by
  rcases appendAssign_cases t marker.text with ⟨heq, -⟩ | ⟨g, f, rfl, heq⟩
  · left
    rw [heq]
  · right
    rw [heq]
    exact added_clause g f marker

/-- A new options object in the place of blanks. -/
theorem added_newOptions {x : Text} (marker : Identifier) (hx : ∀ c ∈ x, isBlank c = true) :
    Added marker.text x (newOptions marker.text) := by
  refine ⟨[], [], _, ?_, by rw [Text.withoutBlanks_blank hx]; rfl, by
    rw [withoutBlanks_newOptions, List.append_nil]
    rfl⟩
  simp [chunks]

/-- A new options object behind an argument. -/
theorem added_newOptions_behind (p : Prop) [Decidable p] (y b : Text) (marker : Identifier) :
    Added marker.text (y ++ b)
      (y ++ ((if p then [' '] else [',', ' ']) ++ newOptions marker.text ++ b)) := by
  have hnew : Added marker.text []
      ((if p then [' '] else [',', ' ']) ++ newOptions marker.text) := by
    refine ⟨[], [], _, ?_, rfl, by
      rw [Text.withoutBlanks_append, withoutBlanks_newOptions, List.append_nil]
      rfl⟩
    split
    · exact List.mem_cons_self
    · exact List.mem_cons_of_mem _ List.mem_cons_self
  exact hnew.context y b

/-- **Marking a call loses nothing.** -/
theorem Injected.inserted {x x' : Text} {marker : Identifier}
    (h : Injected marker.text x x') : Inserted marker.text x x' := by
  cases h with
  | alone hx => exact Or.inr (added_newOptions marker hx)
  | @behind y b c hc hb =>
      have hadd := added_newOptions_behind (c = ',') (y ++ [c]) b marker
      right
      simpa using hadd
  | @entry _ y b z u k v w c e hobj hsep hblock =>
      have hctx := (inserted_withEntry v marker).context (y ++ '{' :: (u ++ (k ++ ['{'])))
        (e :: (w ++ c :: z))
      rw [hobj.eq, hblock.eq]
      simpa using hctx
  | @clause _ y b z c hobj hsep =>
      have hctx := (inserted_appendAssign ('{' :: (b ++ [c])) marker).context y z
      rw [hobj.eq]
      simpa using hctx

/-! ## The call is marked -/

/-- A clause among the entries of an object is an assign block. -/
theorem assignBlock_assignClause (marker : Identifier) {u : Text} (w : Text)
    (hu : all.Balanced u) (hclear : isClear u.getLast? = true) :
    AssignBlock (u ++ (assignClause marker.text ++ w)) u (assignWord ++ ([] ++ ':' :: [' ']))
      (withEntry [] marker.text) '}' w := by
  have hblank : all.Balanced [' '] := Balanced.of_all (by decide)
  refine ⟨?_, hu, hclear, ⟨[], [' '], rfl, by simp, forall_mem_of_all (by decide)⟩, ?_, by decide⟩
  · simp [assignClause, assignWord, withEntry, Text.trim, Text.trimStart, Text.trimEnd]
  · exact (hblank.append (balanced_identifier marker)).append hblank

/-- A clause among the entries of an object has the marker. -/
theorem assigns_assignClause (marker : Identifier) {u : Text} (w : Text)
    (hu : all.Balanced u) (hclear : isClear u.getLast? = true) :
    Assigns (u ++ (assignClause marker.text ++ w)) marker.text := by
  have hblank : all.Balanced [' '] := Balanced.of_all (by decide)
  exact ⟨u, _, _, '}', w, assignBlock_assignClause marker w hu hclear,
    [' '], [' '], rfl, hblank, by decide, by decide⟩

/-- A new options object is marked. -/
theorem marked_newOptions (marker : Identifier) {y : Text} (z : Text) (hy : AtArgument y) :
    Marked (y ++ (newOptions marker.text ++ z)) marker.text := by
  have hblank : all.Balanced [' '] := Balanced.of_all (by decide)
  have hclause := balanced_assignClause marker
  refine ⟨y, [' '] ++ (assignClause marker.text ++ [' ']), '}', z, ⟨?_, hy, ?_, by decide⟩, ?_⟩
  · simp [newOptions]
  · exact hblank.append (hclause.append hblank)
  · exact assigns_assignClause marker [' '] hblank (by decide)

/-- A block with a new entry has the entry. -/
theorem hasEntry_withEntry (marker : Identifier) {v : Text} (hv : all.Balanced v) :
    HasEntry (withEntry v marker.text) marker.text := by
  have hblank : all.Balanced [' '] := Balanced.of_all (by decide)
  have htrim := balanced_trim hv
  refine ⟨[' '] ++ v.trim ++
    (if v.trim.isEmpty || v.trim.endsWith ',' then [] else [',', ' ']), [' '], ?_, ?_, ?_,
    by decide⟩
  · simp [withEntry]
  · refine (hblank.append htrim).append ?_
    split
    · exact Balanced.nil
    · exact Balanced.of_all (by decide)
  · split
    · rename_i hlast
      rw [Bool.or_eq_true, Text.endsWith_iff, List.isEmpty_iff] at hlast
      rcases hlast with hnil | hcomma
      · rw [hnil]
        decide
      · rw [List.append_nil, List.getLast?_append, hcomma]
        decide
    · rw [List.getLast?_append]
      rfl

/-- A new assign block of an object that ends with a brace. -/
theorem appendAssign_object (marker : Identifier) {b : Text} (hb : all.Balanced b) :
    appendAssign ('{' :: (b ++ ['}'])) marker.text =
        '{' :: (b.trimEnd ++ (clauseSeparator ('{' :: b) ++ (assignClause marker.text ++ [' '])) ++
          ['}']) ∧
      all.Balanced
        (b.trimEnd ++ (clauseSeparator ('{' :: b) ++ (assignClause marker.text ++ [' ']))) := by
  have happ := appendAssign_brace (g := '{' :: b) (f := []) marker.text (by simp) (by simp)
  have hbrace : isBlank '{' = false := by decide
  constructor
  · rw [← List.cons_append, happ, Text.trimEnd_cons hbrace]
    simp
  · exact (balanced_trimEnd hb).append ((balanced_clauseSeparator _).append
      ((balanced_assignClause marker).append (Balanced.of_all (by decide))))

/-- Behind the last argument and a comma starts an argument of its own. -/
theorem atArgument_behind {y b : Text} {c : Char} (hx : all.Balanced (y ++ c :: b))
    (hb : ∀ e ∈ b, isBlank e = true) :
    AtArgument (y ++ [c] ++ if c = ',' then [' '] else [',', ' ']) := by
  -- The last argument ends at depth zero.
  have hyc : all.Balanced (y ++ [c]) := by
    have heq : y ++ c :: b = y ++ [c] ++ b := by simp
    rw [heq] at hx
    refine hx.of_append_left ?_
    have hd := hx.depth_eq
    rw [depth_append, (balanced_blanks hb).depth_eq] at hd
    omega
  split
  · rename_i hcomma
    exact ⟨y ++ [c], [' '], rfl, hyc, Or.inr (by simp [hcomma]), forall_mem_of_all (by decide)⟩
  · exact ⟨y ++ [c] ++ [','], [' '], by simp, hyc.append (Balanced.of_all (by decide)),
      Or.inr (by simp), forall_mem_of_all (by decide)⟩

/-- **A call is marked after its injection**, if its options object ends with a brace. -/
theorem Injected.marked {x x' : Text} {marker : Identifier} (h : Injected marker.text x x')
    (hx : all.Balanced x)
    (hend : ∀ y b c z, ObjectArgument x y b c z → separators 0 y = 2 → c = '}') :
    Marked x' marker.text := by
  cases h with
  | alone _ =>
      have := marked_newOptions marker [] atArgument_nil
      simpa using this
  | @behind y b c hc hb =>
      have hat := atArgument_behind hx hb
      have := marked_newOptions marker b hat
      simpa using this
  | @entry _ y b z u k v w c e hobj hsep hblock =>
      have hins := (inserted_withEntry v marker).context (u ++ (k ++ ['{'])) (e :: w)
      have hb := hobj.balanced
      have heq : b = u ++ (k ++ ['{']) ++ (v ++ e :: w) := by
        rw [hblock.eq]
        simp
      rw [heq] at hb
      have hv : all.Balanced (withEntry v marker.text) :=
        (inserted_withEntry v marker).balanced hblock.balanced
      refine ⟨y, u ++ (k ++ '{' :: (withEntry v marker.text ++ e :: w)), c, z,
        ⟨rfl, hobj.start, ?_, hobj.closing⟩,
        u, k, withEntry v marker.text, e, w, ⟨rfl, hblock.before, hblock.clear, hblock.key, hv,
          hblock.closing⟩, hasEntry_withEntry marker hblock.balanced⟩
      simpa using hins.balanced hb
  | @clause _ y b z c hobj hsep =>
      obtain rfl := hend y b c z hobj hsep
      obtain ⟨happ, hb'⟩ := appendAssign_object marker hobj.balanced
      have hclear := isClear_clauseSeparator b.trimEnd ('{' :: b)
      have hassigns := assigns_assignClause marker [' ']
        ((balanced_trimEnd hobj.balanced).append (balanced_clauseSeparator _)) hclear
      rw [List.append_assoc] at hassigns
      rw [happ]
      exact ⟨y, _, '}', z, ⟨by simp, hobj.start, hb', by decide⟩, hassigns⟩

end Stylewire
