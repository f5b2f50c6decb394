import Stylewire.Proofs.ArgumentSplit
import Stylewire.Proofs.ByteScan

set_option autoImplicit false

/-! # A call is marked once

Marking a call that is not marked puts the marker into one place of one assign block, and into
no other (`Injected.exists_unique`). The places of the marker are compared along the cuts that
tell them: two assign blocks of an object, and two object arguments of a list, are the same or
one lies before the other (`AssignBlock.compare`, `ObjectArgument.compare`). What lies before or
behind the edit was there already, and had no marker.

`injection_marks_once` puts together what one edit does to a call: where it cuts, how the list is
read afterwards, what becomes of the single arguments, and that the call is marked once.
-/

namespace Stylewire

open Brackets

/-! ## Cuts -/

/-- A character that does not stand in the last part of a text. -/
theorem Text.cut_of_not_mem {g z x t : Text} {c : Char} (h : g ++ c :: z = x ++ t) (hc : c ∉ t) :
    ∃ q, x = g ++ c :: q ∧ z = q ++ t := by
  rcases List.append_eq_append_iff.1 h with ⟨w, rfl, hw⟩ | ⟨w, rfl, hw⟩
  · cases w with
    | nil => exact absurd (by rw [← List.nil_append t, ← hw]; simp) hc
    | cons a w =>
        obtain ⟨rfl, rfl⟩ := List.cons.inj hw
        exact ⟨w, rfl, rfl⟩
  · exact absurd (by rw [hw]; simp) hc

/-- A word does not stand across a place that is clear of identifiers. -/
theorem token_append {u v q m r : Text} (hm : ∀ c ∈ m, isIdentChar c = true)
    (h : u ++ v = q ++ (m ++ r)) (hclear : isClear u.getLast? = true ∨ isClear v.head? = true) :
    (∃ r', u = q ++ (m ++ r') ∧ r = r' ++ v) ∨ ∃ q', v = q' ++ (m ++ r) ∧ q = u ++ q' := by
  rcases List.append_eq_append_iff.1 h with ⟨q', rfl, hv⟩ | ⟨m', rfl, hm'⟩
  · exact Or.inr ⟨q', hv, rfl⟩
  · rcases List.append_eq_append_iff.1 hm' with ⟨r', rfl, hr⟩ | ⟨m₂, rfl, rfl⟩
    · exact Or.inl ⟨r', rfl, hr⟩
    · -- The word is cut at the place, unless one of its parts is empty.
      rcases List.eq_nil_or_concat m' with rfl | ⟨m₁, c, rfl⟩
      · exact Or.inr ⟨[], rfl, by simp⟩
      · cases m₂ with
        | nil => exact Or.inl ⟨[], by simp, rfl⟩
        | cons e m₂ =>
            exfalso
            have hc := hm c (by simp)
            have he := hm e (by simp)
            rcases hclear with hclear | hclear
            · simp [isClear, hc] at hclear
            · simp [isClear, he] at hclear

theorem isClear_of_forall {o : Option Char} (h : ∀ c, o = some c → isIdentChar c = false) :
    isClear o = true := by
  cases o with
  | none => rfl
  | some c => simp [isClear, h c rfl]

/-- A character that is clear of identifiers makes what stands before it not matter. -/
theorem isClear_getLast?_append_cons {c : Char} (hc : isClear (some c) = true) (g q : Text) :
    isClear (g ++ c :: q).getLast? = isClear q.getLast? := by
  rw [List.getLast?_append, List.getLast?_cons]
  cases q with
  | nil => exact hc
  | cons e q => rw [List.getLast?_cons]; rfl

theorem isClear_append_getLast? {b q : Text} (hb : ∀ c ∈ b, isIdentChar c = false)
    (hq : isClear q.getLast? = true) : isClear (b ++ q).getLast? = true := by
  rw [List.getLast?_append]
  cases hlast : q.getLast? with
  | none => exact isClear_of_forall fun c hc => hb c (List.mem_of_getLast? hc)
  | some e =>
      rw [hlast] at hq
      exact hq

/-! ## Two assign blocks of an object -/

namespace AssignBlock

theorem unique {b u k v v' w w' : Text} {e e' : Char} (h : AssignBlock b u k v e w)
    (h' : AssignBlock b u k v' e' w') : v = v' ∧ e = e' ∧ w = w' := by
  have heq : v ++ e :: w = v' ++ e' :: w' := by simpa using h.eq.symm.trans h'.eq
  exact h.balanced.cut_unique h'.balanced h.closing h'.closing heq

theorem balanced_block {b u k v w : Text} {e : Char} (h : AssignBlock b u k v e w) :
    all.Balanced (u ++ (k ++ '{' :: (v ++ [e]))) :=
  h.before.append ((Balanced.of_weight fun _ hc => h.key.weight_eq_zero hc).append
    (h.balanced.group (by decide) h.closing))

/-- Another text in the block. -/
theorem balanced_replace {b u k v w v' : Text} {e : Char} (h : AssignBlock b u k v e w)
    (hb : all.Balanced b) (hv' : all.Balanced v') :
    all.Balanced (u ++ (k ++ '{' :: (v' ++ e :: w))) := by
  have hw : all.Balanced w := by
    have heq : b = u ++ (k ++ '{' :: (v ++ [e])) ++ w := by
      rw [h.eq]
      simp
    rw [heq] at hb
    exact hb.of_append_right h.balanced_block
  have hnew : AssignBlock (u ++ (k ++ '{' :: (v' ++ e :: w))) u k v' e w :=
    ⟨rfl, h.before, h.clear, h.key, hv', h.closing⟩
  have hall := hnew.balanced_block.append hw
  simpa using hall

/-- A block that opens earlier is closed before the other one opens. -/
theorem earlier {b u k v w u₂ k₂ v₂ w₂ : Text} {e e₂ : Char} (h : AssignBlock b u k v e w)
    (h₂ : AssignBlock b u₂ k₂ v₂ e₂ w₂)
    (hlt : u₂.length + k₂.length < u.length + k.length) : ∃ q, AssignBlock u u₂ k₂ v₂ e₂ q := by
  obtain ⟨x, c, q, hx⟩ := h.before_of_lt h₂ hlt
  have hb := hx.append (k ++ '{' :: (v ++ e :: w))
  rw [← h.eq] at hb
  obtain ⟨rfl, rfl, -⟩ := hb.unique h₂
  exact ⟨q, hx⟩

/-- **Two assign blocks** are the same, or one lies before the other. -/
theorem compare {b u k v w u₂ k₂ v₂ w₂ : Text} {e e₂ : Char} (h : AssignBlock b u k v e w)
    (h₂ : AssignBlock b u₂ k₂ v₂ e₂ w₂) :
    (u₂.length + k₂.length = u.length + k.length ∧ v₂ = v) ∨
      (∃ q, AssignBlock u u₂ k₂ v₂ e₂ q) ∨
      ∃ q, u₂ = u ++ (k ++ '{' :: (v ++ e :: q)) ∧ AssignBlock w q k₂ v₂ e₂ w₂ := by
  rcases Nat.lt_trichotomy (u₂.length + k₂.length) (u.length + k.length) with hlt | heq | hgt
  · exact Or.inr (Or.inl (h.earlier h₂ hlt))
  · left
    have hcut : (u ++ k) ++ '{' :: (v ++ e :: w) = (u₂ ++ k₂) ++ '{' :: (v₂ ++ e₂ :: w₂) := by
      have hboth := h.eq.symm.trans h₂.eq
      simpa using hboth
    obtain ⟨-, hrest⟩ := List.append_inj hcut (by simp only [List.length_append]; omega)
    obtain ⟨rfl, -, -⟩ := h.balanced.cut_unique h₂.balanced h.closing h₂.closing
      (List.cons.inj hrest).2
    exact ⟨heq, rfl⟩
  · right
    right
    obtain ⟨q, hq⟩ := h₂.earlier h hgt
    refine ⟨q, hq.eq, ?_, ?_, ?_, h₂.key, h₂.balanced, h₂.closing⟩
    · have hboth := h.eq.symm.trans h₂.eq
      rw [hq.eq] at hboth
      simpa using hboth
    · have hbefore := h₂.before
      have heq : u₂ = u ++ (k ++ '{' :: (v ++ [e])) ++ q := by
        rw [hq.eq]
        simp
      rw [heq] at hbefore
      exact hbefore.of_append_right hq.balanced_block
    · have hclear := h₂.clear
      have heq : u₂ = (u ++ (k ++ '{' :: v)) ++ e :: q := by
        rw [hq.eq]
        simp
      rw [heq, isClear_getLast?_append_cons (isClear_of_isClosing h.closing)] at hclear
      exact hclear

/-- A block of the text behind another block. -/
theorem behind {b u k v w q k₂ v₂ w₂ : Text} {e e₂ : Char} (h : AssignBlock b u k v e w)
    (h₂ : AssignBlock w q k₂ v₂ e₂ w₂) :
    AssignBlock b (u ++ (k ++ '{' :: (v ++ e :: q))) k₂ v₂ e₂ w₂ := by
  refine ⟨?_, ?_, ?_, h₂.key, h₂.balanced, h₂.closing⟩
  · rw [h.eq, h₂.eq]
    simp
  · have hblock := h.balanced_block.append h₂.before
    simpa using hblock
  · have heq : u ++ (k ++ '{' :: (v ++ e :: q)) = (u ++ (k ++ '{' :: v)) ++ e :: q := by simp
    rw [heq, isClear_getLast?_append_cons (isClear_of_isClosing h.closing)]
    exact h₂.clear

/-- A block does not reach into text without closing brackets. -/
theorem of_append {b t u k v w : Text} {e : Char} (h : AssignBlock (b ++ t) u k v e w)
    (ht : ∀ c ∈ t, all.isClosing c = false) : ∃ q, AssignBlock b u k v e q := by
  have heq : (u ++ (k ++ '{' :: v)) ++ e :: w = b ++ t := by
    rw [h.eq]
    simp
  have he : e ∉ t := by
    intro hmem
    have hno := ht e hmem
    rw [h.closing] at hno
    cases hno
  obtain ⟨q, rfl, -⟩ := Text.cut_of_not_mem heq he
  exact ⟨q, by simp, h.before, h.clear, h.key, h.balanced, h.closing⟩

end AssignBlock

/-! ## Two object arguments -/

theorem AtArgument.balanced {y : Text} (h : AtArgument y) : all.Balanced y := by
  obtain ⟨a, b, rfl, ha, -, hb⟩ := h
  exact ha.append (balanced_blanks fun c hc => isBlank_of_isAsciiBlank (hb c hc))

/-- Whether an argument starts somewhere behind a closing bracket does not depend on what stands
before. -/
theorem atArgument_append_closing {g t : Text} {c : Char} (hg : all.Balanced (g ++ [c]))
    (hc : all.isClosing c = true) :
    AtArgument (g ++ [c] ++ t) ↔ ∃ a b, t = a ++ b ∧ all.Balanced a ∧ a.getLast? = some ',' ∧
      ∀ e ∈ b, isAsciiBlank e = true := by
  have hne : c ≠ ',' := by
    rintro rfl
    cases hc
  constructor
  · rintro ⟨a, b, heq, ha, hlast, hb⟩
    rcases List.append_eq_append_iff.1 heq with ⟨w, rfl, rfl⟩ | ⟨w, hw, rfl⟩
    · have hcomma := hlast.resolve_left (by simp)
      refine ⟨w, b, rfl, ha.of_append_right hg, ?_, hb⟩
      cases w with
      | nil => simp [hne] at hcomma
      | cons e w => simpa [List.getLast?_append] using hcomma
    · exfalso
      rcases List.eq_nil_or_concat w with rfl | ⟨w, e, rfl⟩
      · rw [List.append_nil] at hw
        subst hw
        simp [hne] at hlast
      · have hce : c = e := by
          have hends := congrArg List.getLast? hw
          simpa [← List.append_assoc] using hends
        have hblank := weight_of_isBlank (s := all)
          (isBlank_of_isAsciiBlank (hb c (by rw [hce]; simp)))
        rw [weight_of_isClosing hc] at hblank
        cases hblank
  · rintro ⟨a, b, rfl, ha, hlast, hb⟩
    refine ⟨g ++ [c] ++ a, b, by simp, hg.append ha, Or.inr ?_, hb⟩
    rw [List.getLast?_append, hlast]
    rfl

namespace ObjectArgument

theorem append {x y b z : Text} {c : Char} (h : ObjectArgument x y b c z) (t : Text) :
    ObjectArgument (x ++ t) y b c (z ++ t) :=
  ⟨by rw [h.eq]; simp, h.start, h.balanced, h.closing⟩

theorem balanced_object {x y b z : Text} {c : Char} (h : ObjectArgument x y b c z) :
    all.Balanced (y ++ '{' :: (b ++ [c])) :=
  h.start.balanced.append (h.balanced.group (by decide) h.closing)

/-- An object does not reach into text without closing brackets. -/
theorem of_append {x t y b z : Text} {c : Char} (h : ObjectArgument (x ++ t) y b c z)
    (ht : ∀ e ∈ t, all.isClosing e = false) : ∃ q, ObjectArgument x y b c q := by
  have heq : (y ++ '{' :: b) ++ c :: z = x ++ t := by
    rw [h.eq]
    simp
  have hc : c ∉ t := by
    intro hmem
    have hno := ht c hmem
    rw [h.closing] at hno
    cases hno
  obtain ⟨q, rfl, -⟩ := Text.cut_of_not_mem heq hc
  exact ⟨q, by simp, h.start, h.balanced, h.closing⟩

/-- An object that starts earlier ends before the other one starts. -/
theorem earlier {x y b z y₂ b₂ z₂ : Text} {c c₂ : Char} (h : ObjectArgument x y b c z)
    (h₂ : ObjectArgument x y₂ b₂ c₂ z₂) (hlt : y₂.length < y.length) :
    ∃ q, y = y₂ ++ '{' :: (b₂ ++ c₂ :: q) := by
  have hpre : y₂ ++ '{' :: (b₂ ++ [c₂]) <+: y := by
    refine @List.prefix_of_prefix_length_le Char _ _ x ⟨z₂, ?_⟩ ⟨'{' :: (b ++ c :: z), ?_⟩
      (h₂.behind h hlt)
    · rw [h₂.eq]
      simp
    · rw [h.eq]
  obtain ⟨q, hq⟩ := hpre
  exact ⟨q, by rw [← hq]; simp⟩

/-- **Two object arguments** are the same, or one lies before the other. -/
theorem compare {x y b z y₂ b₂ z₂ : Text} {c c₂ : Char} (h : ObjectArgument x y b c z)
    (h₂ : ObjectArgument x y₂ b₂ c₂ z₂) :
    (y₂ = y ∧ b₂ = b) ∨ (∃ q, ObjectArgument y y₂ b₂ c₂ q) ∨
      ∃ q, y₂ = y ++ '{' :: (b ++ c :: q) ∧ z = q ++ '{' :: (b₂ ++ c₂ :: z₂) := by
  rcases Nat.lt_trichotomy y₂.length y.length with hlt | heq | hgt
  · obtain ⟨q, hq⟩ := h.earlier h₂ hlt
    exact Or.inr (Or.inl ⟨q, hq, h₂.start, h₂.balanced, h₂.closing⟩)
  · left
    obtain ⟨rfl, -⟩ := List.append_inj (h₂.eq.symm.trans h.eq) heq
    exact ⟨rfl, (h₂.unique h).1⟩
  · obtain ⟨q, rfl⟩ := h₂.earlier h hgt
    have hboth := h.eq.symm.trans h₂.eq
    exact Or.inr (Or.inr ⟨q, rfl, by simpa using hboth⟩)

/-- Another object in the place of the first one makes no difference to those behind it. -/
theorem replace {x y b z q b₂ z₂ b' : Text} {c c₂ : Char} (h : ObjectArgument x y b c z)
    (hb' : all.Balanced b')
    (h₂ : ObjectArgument (y ++ '{' :: (b' ++ c :: z)) (y ++ '{' :: (b' ++ c :: q)) b₂ c₂ z₂) :
    ObjectArgument x (y ++ '{' :: (b ++ c :: q)) b₂ c₂ z₂ := by
  refine ⟨?_, ?_, h₂.balanced, h₂.closing⟩
  · have heq := h₂.eq
    rw [h.eq]
    simpa using heq
  · have hsplit : ∀ d : Text, y ++ '{' :: (d ++ c :: q) = y ++ '{' :: d ++ [c] ++ q := by simp
    have hbal' : all.Balanced (y ++ '{' :: b' ++ [c]) := by
      have hgroup := h.start.balanced.append (hb'.group (o := '{') (by decide) h.closing)
      simpa using hgroup
    have hbal : all.Balanced (y ++ '{' :: b ++ [c]) := by simpa using h.balanced_object
    have hstart := h₂.start
    rw [hsplit, atArgument_append_closing hbal' h.closing] at hstart
    rw [hsplit, atArgument_append_closing hbal h.closing]
    exact hstart

end ObjectArgument

/-! ## The places of the marker come in order -/

section Order

variable (marker : Identifier)

theorem EntryAt.lt {x : Text} {n : Nat} (h : EntryAt x marker.text n) : n < x.length := by
  obtain ⟨y, z, rfl, -, -, -, rfl⟩ := h
  have hpos := List.length_pos_iff.2 marker.text_ne_nil
  simp only [List.length_append]
  omega

theorem AssignsAt.lt {b : Text} {n : Nat} (h : AssignsAt b marker.text n) : n < b.length := by
  obtain ⟨u, k, x, c, w, m, hblock, hm, rfl⟩ := h
  have hlt := EntryAt.lt marker hm
  rw [hblock.eq]
  simp only [List.length_append, List.length_cons]
  omega

theorem pairwise_directEntries (block : Text) :
    (directEntries block marker.text).Pairwise (· < ·) := by
  have hpos := List.length_pos_iff.2 marker.text_ne_nil
  refine List.Pairwise.filter _ (List.Pairwise.filter _ (List.pairwise_map.2 ?_))
  refine ((word marker.text).pairwise_findFrom 0 0 none block).imp_of_mem ?_
  intro m m' hm _ hle
  obtain ⟨u, v, n, -, rfl, hword⟩ := Recognizer.exists_of_mem_findFrom hm
  obtain ⟨r, -, rfl⟩ := word_eq_some_iff.1 hword
  simp only at hle ⊢
  omega

theorem pairwise_assignEntries {b : Text} {c : Char} (hb : all.Balanced b)
    (hc : all.isClosing c = true) :
    (assignEntries ('{' :: (b ++ [c])) marker.text).Pairwise (· < ·) := by
  refine List.pairwise_flatMap.2 ⟨fun first hfirst => ?_, ?_⟩
  · obtain ⟨u, k, x, e, w, hblock, rfl⟩ := (mem_assignBlocks_object hb hc).1 hfirst
    rw [hblock.blockEntries_eq, List.pairwise_map]
    refine (pairwise_directEntries marker _).imp fun hlt => ?_
    omega
  · refine (pairwise_assignBlocks _).imp_of_mem fun {i i'} hi hi' hlt => ?_
    obtain ⟨u, k, x, e, w, hblock, rfl⟩ := (mem_assignBlocks_object hb hc).1 hi
    obtain ⟨u', k', x', e', w', hblock', rfl⟩ := (mem_assignBlocks_object hb hc).1 hi'
    intro j hj j' hj'
    obtain ⟨n, hn, rfl⟩ := (hblock.mem_blockEntries marker).1 hj
    obtain ⟨n', -, rfl⟩ := (hblock'.mem_blockEntries marker).1 hj'
    -- The first block is closed before the second one opens.
    obtain ⟨q, hq⟩ := hblock'.earlier hblock (by omega)
    have hin := EntryAt.lt marker hn
    have hlen := congrArg List.length hq.eq
    simp only [List.length_append, List.length_cons] at hlen
    omega

/-- **The places of the marker come in order**, so none is listed twice. -/
theorem pairwise_markerEntries {s h x r : Text} {c : Char} (p : Text) (hs : Calls s h x c r)
    {a : ArgumentList} (ho : a.opening = p.length + h.length)
    (hc : a.closing = p.length + h.length + 1 + x.length) :
    (markerEntries (p ++ s) a marker.text).Pairwise (· < ·) := by
  refine List.pairwise_flatMap.2 ⟨fun o hobject => ?_, ?_⟩
  · obtain ⟨y, b, e, z, hobj, rfl⟩ := (ArgumentList.mem_objects_iff p hs ho hc).1 hobject
    rw [hobj.body_eq p hs, List.pairwise_map]
    refine (pairwise_assignEntries marker hobj.balanced hobj.closing).imp fun hlt => ?_
    omega
  · refine (ArgumentList.pairwise_objectsFrom _ _ _ _ _ _ _).imp_of_mem ?_
    intro o o' hobject hobject' hlt j hj j' hj'
    obtain ⟨y, b, e, z, hobj, rfl⟩ := (ArgumentList.mem_objects_iff p hs ho hc).1 hobject
    obtain ⟨y', b', e', z', hobj', rfl⟩ := (ArgumentList.mem_objects_iff p hs ho hc).1 hobject'
    rw [hobj.body_eq p hs, List.mem_map] at hj
    rw [hobj'.body_eq p hs, List.mem_map] at hj'
    obtain ⟨i, hi, rfl⟩ := hj
    obtain ⟨i', hi', rfl⟩ := hj'
    obtain ⟨n, hn, rfl⟩ := (mem_assignEntries_object marker hobj.balanced hobj.closing).1 hi
    simp only [objectSpan] at hlt ⊢
    -- The first object ends before the second one starts.
    obtain ⟨q, hq⟩ := hobj'.earlier hobj (by omega)
    have hin := AssignsAt.lt marker hn
    have hlen := congrArg List.length hq
    simp only [List.length_append, List.length_cons] at hlen
    omega

end Order

/-! ## One place only -/

section Unique

variable (marker : Identifier)

/-- A word does not stand in a text without the characters of identifiers. -/
theorem not_token {t q r : Text} (ht : ∀ c ∈ t, isIdentChar c = false) :
    t ≠ q ++ (marker.text ++ r) := by
  intro heq
  obtain ⟨c, m, hm⟩ := List.exists_cons_of_ne_nil marker.text_ne_nil
  have hident := marker.isIdentChar_of_mem (c := c) (by rw [hm]; simp)
  rw [ht c (by rw [heq, hm]; simp)] at hident
  cases hident

/-- What stands between a new entry and the entries before it. -/
theorem clear_entrySeparator (v : Text) :
    (isClear v.trim.getLast? = true ∨
      isClear ((if v.trim.isEmpty || v.trim.endsWith ',' then [] else [',', ' ']) ++
        (marker.text ++ [' '])).head? = true) ∧
    ∀ c ∈ (if v.trim.isEmpty || v.trim.endsWith ',' then [] else [',', ' '] : Text),
      isIdentChar c = false := by
  split
  · rename_i hlast
    refine ⟨Or.inl ?_, by simp⟩
    rw [Bool.or_eq_true, Text.endsWith_iff, List.isEmpty_iff] at hlast
    rcases hlast with hnil | hcomma
    · rw [hnil]
      rfl
    · rw [hcomma]
      decide
  · refine ⟨Or.inr ?_, forall_mem_of_all (by decide)⟩
    show isClear (some ',') = true
    decide

/-- A block with a new entry has the marker there only, if it was not there before. -/
theorem entryAt_withEntry {v : Text} (hno : ¬ HasEntry v marker.text) :
    ∃ i, ∀ n, EntryAt (withEntry v marker.text) marker.text n → n = i := by
  have hident : ∀ c ∈ marker.text, isIdentChar c = true := fun c hc =>
    marker.isIdentChar_of_mem hc
  have hspace : ∀ c ∈ [' '], isIdentChar c = false := forall_mem_of_all (by decide)
  obtain ⟨hclear, hsep⟩ := clear_entrySeparator marker v
  obtain ⟨b, b', hv, hb, hb', -, -⟩ := Text.trim_spec v
  refine ⟨1 + v.trim.length +
    (if v.trim.isEmpty || v.trim.endsWith ',' then [] else [',', ' '] : Text).length, ?_⟩
  rintro _ ⟨q, r, heq, hq, hclearq, hclearr, rfl⟩
  rw [withEntry] at heq
  generalize (if v.trim.isEmpty || v.trim.endsWith ',' then [] else [',', ' '] : Text) = sep
    at heq hclear hsep ⊢
  simp only [List.append_assoc] at heq
  -- The marker lies between two of the four cuts; only the last part but one has it.
  rcases token_append hident heq (Or.inl (by decide)) with ⟨r', hr', -⟩ | ⟨q₁, heq₁, rfl⟩
  · exact absurd hr' (not_token marker hspace)
  · rcases token_append hident heq₁ hclear with ⟨r', hr', rfl⟩ | ⟨q₂, heq₂, rfl⟩
    · -- In the old entries it would have been found before.
      refine absurd ⟨b ++ q₁, r' ++ b', ?_, ?_, ?_, ?_⟩ hno
      · rw [hv, hr']
        simp
      · have hq₁ : all.Balanced q₁ := hq.of_append_right (Balanced.of_all (by decide))
        exact (balanced_blanks hb).append hq₁
      · refine isClear_append_getLast? (fun c hc => isIdentChar_eq_false_of_isBlank (hb c hc)) ?_
        rw [← isClear_getLast?_append_cons (c := ' ') (by decide) []]
        exact hclearq
      · cases r' with
        | nil =>
            refine isClear_of_forall fun c hc => isIdentChar_eq_false_of_isBlank (hb' c ?_)
            exact List.mem_of_head? hc
        | cons e r' => exact hclearr
    · have hcut : isClear sep.getLast? = true :=
        isClear_of_forall fun c hc => hsep c (List.mem_of_getLast? hc)
      rcases token_append hident heq₂ (Or.inl hcut) with ⟨r', hr', -⟩ | ⟨q₃, heq₃, rfl⟩
      · exact absurd hr' (not_token marker hsep)
      · rcases token_append hident heq₃ (Or.inr (by decide)) with ⟨r', hr', -⟩ | ⟨q₄, heq₄, -⟩
        · have hlen := congrArg List.length hr'
          simp only [List.length_append, List.length_singleton] at hlen ⊢
          omega
        · exact absurd heq₄ (not_token marker hspace)

/-- An object with the marker in one place of an assign block, and neither before nor behind the
block. -/
theorem assignsAt_block {b u k v w : Text} {e : Char} (h : AssignBlock b u k v e w)
    (hone : ∃ i, ∀ n, EntryAt v marker.text n → n = i) (hbefore : ¬ Assigns u marker.text)
    (hbehind : ¬ Assigns w marker.text) : ∃ i, ∀ n, AssignsAt b marker.text n → n = i := by
  obtain ⟨i, hi⟩ := hone
  refine ⟨u.length + k.length + 1 + i, ?_⟩
  rintro _ ⟨u₂, k₂, v₂, e₂, w₂, m, h₂, hm, rfl⟩
  rcases h.compare h₂ with ⟨hlen, rfl⟩ | ⟨q, hq⟩ | ⟨q, -, hq⟩
  · rw [hlen, hi m hm]
  · exact absurd ⟨u₂, k₂, v₂, e₂, q, hq, hasEntry_iff_exists.2 ⟨m, hm⟩⟩ hbefore
  · exact absurd ⟨q, k₂, v₂, e₂, w₂, hq, hasEntry_iff_exists.2 ⟨m, hm⟩⟩ hbehind

/-- A new entry in an assign block of an object that did not have the marker. -/
theorem assignsAt_entry {b u k v w : Text} {e : Char} (h : AssignBlock b u k v e w)
    (hno : ¬ Assigns b marker.text) :
    ∃ i, ∀ n, AssignsAt (u ++ (k ++ '{' :: (withEntry v marker.text ++ e :: w))) marker.text n →
      n = i := by
  have hnew : AssignBlock (u ++ (k ++ '{' :: (withEntry v marker.text ++ e :: w))) u k
      (withEntry v marker.text) e w :=
    ⟨rfl, h.before, h.clear, h.key, (inserted_withEntry v marker).balanced h.balanced, h.closing⟩
  refine assignsAt_block marker hnew (entryAt_withEntry marker ?_) ?_ ?_
  · intro hentry
    exact hno ⟨u, k, v, e, w, h, hentry⟩
  · -- A block before the edit is one of the old object.
    rintro ⟨u₂, k₂, v₂, e₂, w₂, h₂, hentry⟩
    have hold := h₂.append (k ++ '{' :: (v ++ e :: w))
    rw [← h.eq] at hold
    exact hno ⟨u₂, k₂, v₂, e₂, _, hold, hentry⟩
  · rintro ⟨u₂, k₂, v₂, e₂, w₂, h₂, hentry⟩
    exact hno ⟨_, k₂, v₂, e₂, w₂, h.behind h₂, hentry⟩

/-- A new assign block of an object that did not have the marker. -/
theorem assignsAt_clause {b : Text} (hb : all.Balanced b) (hno : ¬ Assigns b marker.text) :
    ∃ i, ∀ n, AssignsAt (b.trimEnd ++ (clauseSeparator ('{' :: b) ++
      (assignClause marker.text ++ [' ']))) marker.text n → n = i := by
  have hnew := assignBlock_assignClause marker [' ']
    ((balanced_trimEnd hb).append (balanced_clauseSeparator ('{' :: b)))
    (isClear_clauseSeparator b.trimEnd ('{' :: b))
  rw [List.append_assoc] at hnew
  refine assignsAt_block marker hnew (entryAt_withEntry marker ?_) ?_ ?_
  · rintro ⟨y, z, heq, -⟩
    exact not_token marker (by simp) heq
  · -- A block before the new one does not reach into the comma, so it lies in the old object.
    rintro ⟨u₂, k₂, v₂, e₂, w₂, h₂, hentry⟩
    have hsep : ∀ c ∈ clauseSeparator ('{' :: b), all.isClosing c = false := by
      rcases clauseSeparator_cases ('{' :: b) with h | h
      · rw [h]
        exact forall_mem_of_all (by decide)
      · rw [h]
        exact forall_mem_of_all (by decide)
    obtain ⟨q, hq⟩ := h₂.of_append hsep
    obtain ⟨blanks, hblanks, -⟩ := Text.trimEnd_spec b
    have hold := hq.append blanks
    rw [← hblanks] at hold
    exact hno ⟨u₂, k₂, v₂, e₂, _, hold, hentry⟩
  · -- Behind it there is only a blank.
    rintro ⟨u₂, k₂, v₂, e₂, w₂, h₂, -⟩
    have hmem : '{' ∈ [' '] := by
      rw [h₂.eq]
      simp
    exact absurd hmem (by decide)

/-- A list with the marker in one place of an object argument, and neither before nor behind the
object. -/
theorem markedAt_argument {x y b z : Text} {c : Char} (h : ObjectArgument x y b c z)
    (hone : ∃ i, ∀ n, AssignsAt b marker.text n → n = i) (hbefore : ¬ Marked y marker.text)
    (hbehind : ∀ q b₂ c₂ z₂, ObjectArgument x (y ++ '{' :: (b ++ c :: q)) b₂ c₂ z₂ →
      ¬ Assigns b₂ marker.text) : ∃ i, ∀ n, MarkedAt x marker.text n → n = i := by
  obtain ⟨i, hi⟩ := hone
  refine ⟨y.length + 1 + i, ?_⟩
  rintro _ ⟨y₂, b₂, c₂, z₂, m, h₂, hm, rfl⟩
  rcases h.compare h₂ with ⟨rfl, rfl⟩ | ⟨q, hq⟩ | ⟨q, rfl, -⟩
  · rw [hi m hm]
  · exact absurd ⟨y₂, b₂, c₂, q, hq, assigns_iff_exists.2 ⟨m, hm⟩⟩ hbefore
  · exact absurd (assigns_iff_exists.2 ⟨m, hm⟩) (hbehind q b₂ c₂ z₂ h₂)

/-- Another object in the place of an argument of a list that did not have the marker. -/
theorem markedAt_replace {x y b z b' : Text} {c : Char} (h : ObjectArgument x y b c z)
    (hb' : all.Balanced b') (hno : ¬ Marked x marker.text)
    (hone : ∃ i, ∀ n, AssignsAt b' marker.text n → n = i) :
    ∃ i, ∀ n, MarkedAt (y ++ '{' :: (b' ++ c :: z)) marker.text n → n = i := by
  refine markedAt_argument marker ⟨rfl, h.start, hb', h.closing⟩ hone ?_ ?_
  · rintro ⟨y₂, b₂, c₂, z₂, h₂, hassigns⟩
    have hold := h₂.append ('{' :: (b ++ c :: z))
    rw [← h.eq] at hold
    exact hno ⟨y₂, b₂, c₂, _, hold, hassigns⟩
  · intro q b₂ c₂ z₂ h₂ hassigns
    exact hno ⟨_, b₂, c₂, z₂, h.replace hb' h₂, hassigns⟩

/-- A new options object at the end of a list that did not have the marker. -/
theorem markedAt_newOptions {y z : Text} (hy : AtArgument y) (hz : ∀ c ∈ z, isBlank c = true)
    (hno : ¬ Marked y marker.text) :
    ∃ i, ∀ n, MarkedAt (y ++ (newOptions marker.text ++ z)) marker.text n → n = i := by
  have heq : y ++ (newOptions marker.text ++ z) =
      y ++ '{' :: ([' '] ++ (assignClause marker.text ++ [' ']) ++ '}' :: z) := by
    rw [newOptions_eq_object]
    simp
  have hempty : ¬ Assigns [] marker.text := by
    rintro ⟨u, k, x, c, w, hblock, -⟩
    have hnil := hblock.eq
    simp at hnil
  refine markedAt_argument marker ⟨heq, hy, balanced_newOptions_inside marker, by decide⟩
    (assignsAt_clause marker Balanced.nil hempty) hno ?_
  -- Behind it there are only blanks.
  intro q b₂ c₂ z₂ h₂
  have htail : z = q ++ '{' :: (b₂ ++ c₂ :: z₂) := by
    have hboth := heq.symm.trans h₂.eq
    simpa using hboth
  have hbrace : isBlank '{' = false := by decide
  have hmem := hz '{' (by rw [htail]; simp)
  rw [hbrace] at hmem
  cases hmem

/-- **Marking a call that is not marked** puts the marker into one place only. -/
theorem Injected.exists_unique {x x' : Text} (h : Injected marker.text x x')
    (hx : all.Balanced x)
    (hend : ∀ y b c z, ObjectArgument x y b c z → separators 0 y = 2 → c = '}')
    (hno : ¬ Marked x marker.text) : ∃ i, ∀ n, MarkedAt x' marker.text n → n = i := by
  cases h with
  | alone _ =>
      have hnone : ¬ Marked [] marker.text := by
        rintro ⟨y, b, c, z, hobj, -⟩
        have hnil := hobj.eq
        simp at hnil
      have hone := markedAt_newOptions marker atArgument_nil (z := []) (by simp) hnone
      simpa using hone
  | @behind y b c hc hb =>
      have hat := atArgument_behind hx hb
      have hold : ¬ Marked (y ++ [c] ++ if c = ',' then [' '] else [',', ' ']) marker.text := by
        rintro ⟨y₂, b₂, c₂, z₂, hobj₂, hassigns⟩
        have hsep : ∀ e ∈ (if c = ',' then [' '] else [',', ' '] : Text),
            all.isClosing e = false := by
          split
          · exact forall_mem_of_all (by decide)
          · exact forall_mem_of_all (by decide)
        obtain ⟨q, hq⟩ := hobj₂.of_append hsep
        have hobj := hq.append b
        rw [List.append_assoc, List.singleton_append] at hobj
        exact hno ⟨y₂, b₂, c₂, _, hobj, hassigns⟩
      have hone := markedAt_newOptions marker hat hb hold
      simpa using hone
  | @entry _ y b z u k v w c e hobj hsep hblock =>
      have hold : ¬ Assigns b marker.text := fun hassigns => hno ⟨y, b, c, z, hobj, hassigns⟩
      have hb' := hblock.balanced_replace hobj.balanced
        ((inserted_withEntry v marker).balanced hblock.balanced)
      have hone := markedAt_replace marker hobj hb' hno (assignsAt_entry marker hblock hold)
      simpa using hone
  | @clause _ y b z c hobj hsep =>
      obtain rfl := hend y b c z hobj hsep
      obtain ⟨happ, hb'⟩ := appendAssign_object marker hobj.balanced
      have hold : ¬ Assigns b marker.text := fun hassigns => hno ⟨y, b, '}', z, hobj, hassigns⟩
      have hone := markedAt_replace marker hobj hb' hno
        (assignsAt_clause marker hobj.balanced hold)
      rw [happ]
      simpa using hone

end Unique

/-! ## One edit of a call -/

section Edit

variable {s h x r p : Text} {c : Char} {a : ArgumentList} (hs : Calls s h x c r)
  (ha : ArgumentList.read? (p ++ s) p.length = some a)

include hs ha

theorem opening_closing_of_calls :
    a.opening = p.length + h.length ∧ a.closing = p.length + h.length + 1 + x.length := by
  obtain ⟨o, hread, -⟩ := ArgumentList.read?_of_calls p hs
  rw [hread] at ha
  obtain rfl := Option.some.inj ha
  exact ⟨rfl, rfl⟩

/-- The options object of a list, or the proof that there is none. -/
theorem options_cases :
    (∃ y b e z, ObjectArgument x y b e z ∧ separators 0 y = 2 ∧
        a.options = some (objectSpan (p.length + h.length + 1) y b)) ∨
      (a.options = none ∧ ∀ y b e z, ObjectArgument x y b e z → separators 0 y ≠ 2) := by
  by_cases hthird : ∃ y b e z, ObjectArgument x y b e z ∧ separators 0 y = 2
  · left
    obtain ⟨y, b, e, z, hobj, hsep⟩ := hthird
    obtain ⟨o, ho, -, rfl⟩ := options_eq_some hs ha hobj hsep
    exact ⟨y, b, e, z, hobj, hsep, ho⟩
  · right
    have hno : ∀ y b e z, ObjectArgument x y b e z → separators 0 y ≠ 2 :=
      fun y b e z hobj hsep => hthird ⟨y, b, e, z, hobj, hsep⟩
    exact ⟨options_eq_none hs ha hno, hno⟩

/-- The edit stays between the parentheses. -/
theorem injection_between (marker : Text) :
    a.opening < (injection (p ++ s) a marker).start ∧
      (injection (p ++ s) a marker).start ≤ (injection (p ++ s) a marker).stop ∧
      (injection (p ++ s) a marker).stop ≤ a.closing := by
  obtain ⟨hopening, hclosing⟩ := opening_closing_of_calls hs ha
  unfold injection
  rcases options_cases hs ha with ⟨y, b, e, z, hobj, -, ho⟩ | ⟨hnone, -⟩
  · have hlen := congrArg List.length hobj.eq
    simp only [List.length_append, List.length_cons] at hlen
    simp only [ho, objectSpan]
    omega
  · obtain ⟨blanks, hx, -⟩ := Text.trimEnd_spec x
    have hlen := congrArg List.length hx
    simp only [List.length_append] at hlen
    simp only [hnone, arguments_of_calls p hs hopening hclosing]
    split
    · simp only
      omega
    · simp only
      omega

end Edit

/-- An options object with the marker is an object again. -/
theorem injectMarker_eq_object (marker : Identifier) {b : Text} (hb : all.Balanced b) :
    ∃ i, all.Balanced i ∧ injectMarker ('{' :: (b ++ ['}'])) marker.text = '{' :: (i ++ ['}']) := by
  obtain ⟨i, hi, heq, -⟩ := Wiring.injectMarker_markFrom (w := { marker }) hb
  exact ⟨i, hi, heq⟩

/-- What marking a call does to its single arguments. -/
theorem splitArguments_markArguments {x : Text} (hx : all.Balanced x) (marker : Identifier) :
    (∀ y b z, ObjectArgument x y b '}' z → separators 0 y = 2 →
      ReplacesOptions ('{' :: (b ++ ['}'])) (injectMarker ('{' :: (b ++ ['}'])) marker.text)
        (splitArguments x) (splitArguments (markArguments x marker.text))) ∧
    ((∀ y b e z, ObjectArgument x y b e z → separators 0 y ≠ 2) →
      AddsArgument (newOptions marker.text) (splitArguments x)
        (splitArguments (markArguments x marker.text))) := by
  have hplain : ∀ {b : Text}, all.Balanced b →
      all.depth ('{' :: (b ++ ['}'])) = 0 ∧ separators 0 ('{' :: (b ++ ['}'])) = 0 := by
    intro b hb
    exact ⟨(hb.group (by decide) (by decide)).depth_eq, separators_object hb (by decide)⟩
  constructor
  · intro y b z hobj hsep
    obtain ⟨i, hi, hinj⟩ := injectMarker_eq_object marker hobj.balanced
    have hreplaced := replacesOptions (z := z) hobj.start hsep (hplain hobj.balanced) (hplain hi)
    have heq : x = y ++ ('{' :: (b ++ ['}']) ++ z) := by
      rw [hobj.eq]
      simp
    rw [Wiring.markArguments_object marker.text hx hobj hsep, hinj]
    conv => arg 3; rw [heq]
    exact hreplaced
  · intro hno
    rw [Wiring.markArguments_addOptions marker.text hx hno]
    exact addsArgument hx marker

/-- The only element of a list in ascending order. -/
theorem length_eq_one_of_pairwise {l : List Nat} (h : l.Pairwise (· < ·)) {i : Nat}
    (hmem : ∃ n, n ∈ l) (hone : ∀ n ∈ l, n = i) : l.length = 1 := by
  obtain ⟨n, hn⟩ := hmem
  match l, h, hn, hone with
  | [_], _, _, _ => rfl
  | m :: m' :: l, h, _, hone =>
      have hlt : m < m' := (List.pairwise_cons.1 h).1 m' (by simp)
      have hm := hone m (by simp)
      have hm' := hone m' (by simp)
      omega

/-- A call with one place for the marker is marked once. -/
theorem length_markerEntries_eq_one (marker : Identifier) {p s h x r : Text} {c : Char}
    (hs : Calls s h x c r) {a : ArgumentList} (ho : a.opening = p.length + h.length)
    (hc : a.closing = p.length + h.length + 1 + x.length) (hmarked : Marked x marker.text)
    (hone : ∃ i, ∀ n, MarkedAt x marker.text n → n = i) :
    isMarked (p ++ s) a marker.text = true ∧
      (markerEntries (p ++ s) a marker.text).length = 1 := by
  obtain ⟨i, honly⟩ := hone
  have hm := (isMarked_iff marker p hs ho hc).2 hmarked
  have hall : ∀ n ∈ markerEntries (p ++ s) a marker.text, n = p.length + h.length + 1 + i := by
    intro n hn
    obtain ⟨m, hmem, rfl⟩ := (mem_markerEntries marker p hs ho hc).1 hn
    rw [honly m hmem]
  exact ⟨hm, length_eq_one_of_pairwise (pairwise_markerEntries marker p hs ho hc)
    (isMarked_iff_exists_mem.1 hm) hall⟩

theorem read?_of_readByte {t : Text} {offset : Nat} {a : ArgumentList}
    (h : ArgumentList.readByte t offset = .ok a) :
    ∃ i, t.position? offset = some i ∧ ArgumentList.read? t i = some a := by
  unfold ArgumentList.readByte at h
  split at h
  · rename_i a' hread
    obtain rfl := Except.ok.inj h
    exact Option.bind_eq_some_iff.1 hread
  · cases h

/-- A call is read again at the offset at which a text with the same head has one. -/
theorem readByte_of_calls {p s₀ s h x r : Text} {c : Char} {offset : Nat} (hs : Calls s h x c r)
    (hpos : (p ++ s₀).position? offset = some p.length) :
    ∃ a, ArgumentList.readByte (p ++ s) offset = .ok a ∧
      a.opening = p.length + h.length ∧ a.closing = p.length + h.length + 1 + x.length := by
  obtain ⟨o, hread, -⟩ := ArgumentList.read?_of_calls p hs
  obtain ⟨-, hoffset⟩ := Text.byteOffset_of_position? hpos
  have hsame : (p ++ s).byteOffset p.length = offset := by
    rw [← hoffset, Text.byteOffset_append, Text.byteOffset_append]
  have hpos' : (p ++ s).position? offset = some p.length := by
    rw [← hsame]
    exact Text.position?_byteOffset _ _ (by simp)
  refine ⟨⟨p.length + h.length, p.length + h.length + 1 + x.length, o⟩, ?_, rfl, rfl⟩
  rw [ArgumentList.readByte, hpos', Option.bind_some, hread]

/-- **One edit marks a call once.** If the options object of a call, if there is one, ends with a
brace, the edit stays between the parentheses, and the call is still read at the same place, with
its closing bracket moved by as much as the text has grown. Of its arguments, only the object of
the third one is edited, or one argument is added at the end. If the call was not marked, it is
marked in one place afterwards. -/
theorem injection_marks_once {t : Text} {offset : Nat} {a : ArgumentList} (marker : Identifier)
    (ha : ArgumentList.readByte t offset = .ok a)
    (hend : ∀ o ∈ a.options, (o.body t).getLast? = some '}') :
    let edit := injection t a marker.text
    let t' := edit.apply t
    a.opening < edit.start ∧ edit.start ≤ edit.stop ∧ edit.stop ≤ a.closing ∧
      ∃ a', ArgumentList.readByte t' offset = .ok a' ∧
        a'.opening = a.opening ∧ a'.closing + t.length = a.closing + t'.length ∧
        t'.byteOffset a'.opening = t.byteOffset a.opening ∧
        t'.byteOffset a'.closing + t.byteSize = t.byteOffset a.closing + t'.byteSize ∧
        (∀ o ∈ a.options, ReplacesOptions (o.body t) (injectMarker (o.body t) marker.text)
          (splitArguments (a.arguments t)) (splitArguments (a'.arguments t'))) ∧
        (a.options = none → AddsArgument (newOptions marker.text)
          (splitArguments (a.arguments t)) (splitArguments (a'.arguments t'))) ∧
        (isMarked t a marker.text = false → isMarked t' a' marker.text = true ∧
          (markerEntries t' a' marker.text).length = 1) := by
  intro edit t'
  obtain ⟨i, hpos, hread⟩ := read?_of_readByte ha
  obtain ⟨p, s, h, x, c, r, rfl, rfl, hs, hopening, hclosing⟩ :=
    ArgumentList.exists_calls_of_read? hread
  obtain ⟨hinjected, happly⟩ := markArguments_spec hs.balanced marker.text
  obtain ⟨hreplace, hadd⟩ := splitArguments_markArguments hs.balanced marker
  have hbraced : ∀ y b e z, ObjectArgument x y b e z → separators 0 y = 2 → e = '}' := by
    intro y b e z hobj hsep
    obtain ⟨o, ho, hbody, -⟩ := options_eq_some hs hread hobj hsep
    have hlast := hend o ho
    rw [hbody, ← List.cons_append, List.getLast?_concat] at hlast
    exact Option.some.inj hlast
  -- The edited text is read at the same place, around the edited arguments.
  have hs' : Calls (h ++ '(' :: (markArguments x marker.text ++ c :: r)) h
      (markArguments x marker.text) c r :=
    ⟨rfl, hs.head, hinjected.inserted.balanced hs.balanced, hs.closing⟩
  have ht' : t' = p ++ (h ++ '(' :: (markArguments x marker.text ++ c :: r)) := happly hs hread
  obtain ⟨hstart, hle, hstop⟩ := injection_between hs hread marker.text
  obtain ⟨a', hread', hopening', hclosing'⟩ := readByte_of_calls hs' hpos
  refine ⟨hstart, hle, hstop, a', ?_⟩
  rw [ht', arguments_of_calls p hs hopening hclosing, arguments_of_calls p hs' hopening' hclosing']
  obtain ⟨hbyte, hbyte'⟩ := ArgumentList.byteOffset_calls p hs
  obtain ⟨hbytes, hbytes'⟩ := ArgumentList.byteOffset_calls p hs'
  rw [hopening, hclosing, hopening', hclosing', hbyte, hbyte', hbytes, hbytes']
  refine ⟨hread', rfl, ?_, rfl, ?_, ?_, ?_, ?_⟩
  · rw [hs.eq]
    simp only [List.length_append, List.length_cons]
    omega
  · rw [hs.eq]
    simp only [Text.byteSize_append, Text.byteSize]
    omega
  · intro o ho
    rcases options_cases hs hread with ⟨y, b, e, z, hobj, hsep, hsome⟩ | ⟨hnone, -⟩
    · obtain rfl := hbraced y b e z hobj hsep
      obtain rfl := Option.some.inj (hsome.symm.trans ho)
      rw [hobj.body_eq p hs]
      exact hreplace y b z hobj hsep
    · cases hnone.symm.trans ho
  · intro hnone
    rcases options_cases hs hread with ⟨y, b, e, z, -, -, hsome⟩ | ⟨-, hno⟩
    · cases hnone.symm.trans hsome
    · exact hadd hno
  · intro hfree
    have hno : ¬ Marked x marker.text := by
      intro hm
      rw [(isMarked_iff marker p hs hopening hclosing).2 hm] at hfree
      cases hfree
    exact length_markerEntries_eq_one marker hs' hopening' hclosing'
      (hinjected.marked hs.balanced hbraced)
      (hinjected.exists_unique marker hs.balanced hbraced hno)

/-- A call behind a character of two bytes. An object inside its options has a block of its own. -/
def nestedOptions : Text :=
  "é(a, (b, c), \x7b v: \x7b assign: \x7b\x7d \x7d, w, \x7d )".toList

theorem injection_marks_once_nestedOptions :
    let a : ArgumentList := ⟨1, 39, some ⟨13, 37⟩⟩
    let t' := (injection nestedOptions a Identifier.styles.text).apply nestedOptions
    ArgumentList.readByte nestedOptions 2 = .ok a ∧
      isMarked nestedOptions a Identifier.styles.text = false ∧
      ∃ a', ArgumentList.readByte t' 2 = .ok a' ∧
        a'.closing + nestedOptions.length = 39 + t'.length ∧
        (markerEntries t' a' Identifier.styles.text).length = 1 := by
  intro a t'
  have hread : ArgumentList.readByte nestedOptions 2 = .ok a := by decide +kernel
  have hfree : isMarked nestedOptions a Identifier.styles.text = false := by decide +kernel
  obtain ⟨-, -, -, a', hread', -, hclosing, -, -, -, -, honce⟩ :=
    injection_marks_once .styles hread (by decide +kernel)
  exact ⟨hread, hfree, a', hread', hclosing, (honce hfree).2⟩

end Stylewire
