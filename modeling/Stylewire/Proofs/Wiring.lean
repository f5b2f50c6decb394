import Stylewire.Wiring
import Stylewire.Proofs.Agreement
import Stylewire.Proofs.Injection

set_option autoImplicit false

/-! # What marking the calls of a text does

The loop of `markCalls` handles the call sites from the last to the first and looks at each of
them in the text as it is by then. Seen from the end of the text this is a recursion over the
text: `markFrom` handles the calls behind the first character, and then the call that starts
with it, if there is one (`foldr_visit`). What it returns agrees with the text it is given
outside of parentheses (`agree_markFrom`), so every decision is the one that the untouched text
leads to.
-/

namespace Stylewire

open Brackets

namespace Wiring

variable (w : Wiring)

/-! ## One call -/

/-- Why the call at a position is left as it is, or `none` if it is marked. -/
def verdict (t : Text) (i : Nat) : Option SkipReason :=
  match ArgumentList.read? t i with
  | none => some .malformed
  | some a => if isMarked t a w.marker.text then some .marked else none

/-- The text after the call at a position has been handled. -/
def markAt (t : Text) (i : Nat) : Text :=
  match ArgumentList.read? t i with
  | none => t
  | some a => if isMarked t a w.marker.text then t else (injection t a w.marker.text).apply t

theorem visit_eq (i : Nat) (q : Progress) :
    w.visit i q =
      ⟨w.markAt q.code i, q.injected + (if (w.verdict q.code i).isNone then 1 else 0),
        ((w.verdict q.code i).map (i, ·)).toList ++ q.skipped⟩ := by
  unfold visit markAt verdict
  cases ArgumentList.read? q.code i with
  | none => rfl
  | some a =>
      by_cases hm : isMarked q.code a w.marker.text = true
      · simp [hm]
      · simp [hm]

/-- A call with a reason to be skipped is left as it is. -/
theorem markAt_eq_self {t : Text} {i : Nat} (h : w.verdict t i ≠ none) : w.markAt t i = t := by
  unfold verdict at h
  unfold markAt
  cases hr : ArgumentList.read? t i with
  | none => rfl
  | some a =>
      rw [hr] at h
      by_cases hm : isMarked t a w.marker.text = true
      · exact if_pos hm
      · exact absurd (if_neg hm) h

/-- A call without such a reason is marked. -/
theorem exists_of_verdict_eq_none {t : Text} {i : Nat} (h : w.verdict t i = none) :
    ∃ a, ArgumentList.read? t i = some a ∧
      w.markAt t i = (injection t a w.marker.text).apply t := by
  unfold verdict at h
  unfold markAt
  cases hr : ArgumentList.read? t i with
  | none =>
      rw [hr] at h
      cases h
  | some a =>
      rw [hr] at h
      by_cases hm : isMarked t a w.marker.text = true
      · have hskip : some SkipReason.marked = none := (if_pos hm).symm.trans h
        cases hskip
      · exact ⟨a, rfl, if_neg hm⟩

/-- What happens to the call that the text `s` starts with, by how `s` is cut: the verdict and
the text that it leads to. -/
inductive Handled (s : Text) : Option SkipReason → Text → Prop
  | malformed : (∀ h x c r, ¬ Calls s h x c r) → Handled s (some .malformed) s
  | marked {h x r : Text} {c : Char} : Calls s h x c r → Marked x w.marker.text →
      Handled s (some .marked) s
  | injected {h x r : Text} {c : Char} : Calls s h x c r → ¬ Marked x w.marker.text →
      Handled s none (h ++ '(' :: (markArguments x w.marker.text ++ c :: r))

theorem exists_handled (s : Text) : ∃ v s', w.Handled s v s' := by
  by_cases hs : ∃ h x c r, Calls s h x c r
  · obtain ⟨h, x, c, r, hs⟩ := hs
    by_cases hm : Marked x w.marker.text
    · exact ⟨_, _, .marked hs hm⟩
    · exact ⟨_, _, .injected hs hm⟩
  · exact ⟨_, _, .malformed fun h x c r hc => hs ⟨h, x, c, r, hc⟩⟩

variable {w}

theorem Handled.verdict_eq {s s' : Text} {v : Option SkipReason} (hv : w.Handled s v s')
    (p : Text) : w.verdict (p ++ s) p.length = v := by
  unfold verdict
  cases hv with
  | malformed hno =>
      rw [ArgumentList.read?_eq_none_iff.2 hno]
  | marked hs hm =>
      obtain ⟨o, hread, -⟩ := ArgumentList.read?_of_calls p hs
      rw [hread]
      exact if_pos ((isMarked_iff w.marker p hs rfl rfl).2 hm)
  | injected hs hm =>
      obtain ⟨o, hread, -⟩ := ArgumentList.read?_of_calls p hs
      rw [hread]
      exact if_neg (mt (isMarked_iff w.marker p hs rfl rfl).1 hm)

theorem Handled.markAt_eq {s s' : Text} {v : Option SkipReason} (hv : w.Handled s v s')
    (p : Text) : w.markAt (p ++ s) p.length = p ++ s' := by
  unfold markAt
  cases hv with
  | malformed hno =>
      rw [ArgumentList.read?_eq_none_iff.2 hno]
  | marked hs hm =>
      obtain ⟨o, hread, -⟩ := ArgumentList.read?_of_calls p hs
      rw [hread]
      exact if_pos ((isMarked_iff w.marker p hs rfl rfl).2 hm)
  | injected hs hm =>
      obtain ⟨o, hread, -⟩ := ArgumentList.read?_of_calls p hs
      rw [hread]
      have hedit := (markArguments_spec hs.balanced w.marker.text).2 hs hread
      rw [← hedit]
      exact if_neg (mt (isMarked_iff w.marker p hs rfl rfl).1 hm)

/-- The text before a call has no part in the verdict. -/
theorem verdict_append (p s : Text) : w.verdict (p ++ s) p.length = w.verdict s 0 := by
  obtain ⟨v, s', hv⟩ := w.exists_handled s
  rw [hv.verdict_eq p]
  exact (hv.verdict_eq []).symm

theorem markAt_append (p s : Text) : w.markAt (p ++ s) p.length = p ++ w.markAt s 0 := by
  obtain ⟨v, s', hv⟩ := w.exists_handled s
  rw [hv.markAt_eq p]
  exact congrArg (p ++ ·) (hv.markAt_eq []).symm

/-- **The verdict on a call does not depend on what stands in the parentheses behind its
own.** -/
theorem verdict_agree {h k k' : Text} (hh : '(' ∉ h) (hk : Agree k k') :
    w.verdict (h ++ '(' :: k) 0 = w.verdict (h ++ '(' :: k') 0 := by
  obtain ⟨v, s', hv⟩ := w.exists_handled (h ++ '(' :: k)
  have hv' : ∃ s₂, w.Handled (h ++ '(' :: k') v s₂ := by
    cases hv with
    | malformed hno =>
        refine ⟨_, .malformed fun g x c r hs => ?_⟩
        obtain ⟨rfl, -⟩ := hs.cut hh
        obtain ⟨x', r', hs', -, -⟩ := hk.symm.calls hs
        exact hno _ _ _ _ hs'
    | marked hs hm =>
        obtain ⟨rfl, -⟩ := hs.cut hh
        obtain ⟨x', r', hs', hx, -⟩ := hk.calls hs
        exact ⟨_, .marked hs' ((hx.marked_iff w.marker).1 hm)⟩
    | injected hs hm =>
        obtain ⟨rfl, -⟩ := hs.cut hh
        obtain ⟨x', r', hs', hx, -⟩ := hk.calls hs
        exact ⟨_, .injected hs' (mt (hx.marked_iff w.marker).2 hm)⟩
  obtain ⟨s₂, hv'⟩ := hv'
  exact (hv.verdict_eq []).trans (hv'.verdict_eq []).symm

/-! ## All calls -/

variable (w)

/-- The text with its calls handled, those behind the first character before the one that starts
with it. The character before the text is `prev`. -/
def markFrom : (prev : Option Char) → Text → Text
  | _, [] => []
  | prev, c :: t =>
      if isCall w.directive prev (c :: t) then w.markAt (c :: markFrom (some c) t) 0
      else c :: markFrom (some c) t

variable {w}

theorem markFrom_inside {u v : Text} (hh : IsHead w.directive (u ++ v)) (hu : u ≠ [])
    (prev : Option Char) (k : Text) :
    w.markFrom (Text.lastFrom prev u) (v ++ '(' :: k) = v ++ '(' :: w.markFrom (some '(') k := by
  induction v generalizing u with
  | nil =>
      have hno := hh.isCall_inside hu prev k
      rw [List.nil_append] at hno ⊢
      rw [markFrom, hno]
      rfl
  | cons c v ih =>
      have hno := hh.isCall_inside hu prev k
      have hh' : IsHead w.directive (u ++ [c] ++ v) := by simpa using hh
      have hrest := ih hh' (by simp)
      rw [Text.lastFrom_concat] at hrest
      rw [List.cons_append] at hno ⊢
      rw [markFrom, hno, hrest]
      rfl

theorem markFrom_call {h : Text} {prev : Option Char} (hclear : isClear prev = true)
    (hh : IsHead w.directive h) (k : Text) :
    w.markFrom prev (h ++ '(' :: k) = w.markAt (h ++ '(' :: w.markFrom (some '(') k) 0 := by
  have hcall := isCall_iff.2 ⟨hclear, h, k, hh, rfl⟩
  obtain ⟨c, v, rfl⟩ := List.exists_cons_of_ne_nil hh.ne_nil
  have hrest := markFrom_inside (u := [c]) hh (by simp) prev k
  rw [Text.lastFrom_cons, Text.lastFrom_nil] at hrest
  rw [List.cons_append] at hcall ⊢
  rw [markFrom, if_pos hcall, hrest]
  rfl

/-- **The calls are edited between their parentheses only**, and a balanced list is replaced by
a balanced one. -/
theorem agree_markFrom (prev : Option Char) (s : Text) : Agree s (w.markFrom prev s) := by
  induction prev, s using call_induction w.directive with
  | nil prev => exact .nil
  | other prev c t hno ih =>
      rw [markFrom, hno]
      exact .cons c ih
  | call prev h k hclear hh ih =>
      rw [markFrom_call hclear hh]
      obtain ⟨v, s', hv⟩ := w.exists_handled (h ++ '(' :: w.markFrom (some '(') k)
      rw [← List.nil_append (h ++ '(' :: w.markFrom (some '(') k), ← List.length_nil,
        hv.markAt_eq []]
      cases hv with
      | malformed _ => exact (Agree.cons _ ih).prepend h
      | marked _ _ => exact (Agree.cons _ ih).prepend h
      | injected hs hm =>
          obtain ⟨rfl, -⟩ := hs.cut hh.not_mem
          obtain ⟨x, r, hs', hx, hr⟩ := ih.symm.calls hs
          obtain ⟨-, rfl⟩ := hs'.cut hh.not_mem
          have hinj := (markArguments_spec hs.balanced w.marker.text).1
          have hbal := hinj.inserted.balanced hs.balanced
          exact (Agree.paren hs'.balanced hbal hs.closing hr.symm).prepend _

/-! ## Cutting a text -/

/-- A call of a text all of whose brackets are closed. -/
theorem exists_calls {name : Identifier} {prev : Option Char} {v : Text} (hv : all.Closed v)
    (hcall : isCall name prev v = true) : ∃ h x c r, IsHead name h ∧ Calls v h x c r := by
  obtain ⟨-, h, k, hh, rfl⟩ := isCall_iff.1 hcall
  obtain ⟨x, c, r, rfl, hx, hc⟩ := hv.of_append_right.exists_closing (by decide)
  exact ⟨h, x, c, r, hh, rfl, hh.not_mem, hx, hc⟩

theorem Handled.append {s s' h x r : Text} {c : Char} {v : Option SkipReason}
    (hv : w.Handled s v s') (hs : Calls s h x c r) (t : Text) :
    w.Handled (s ++ t) v (s' ++ t) := by
  cases hv with
  | malformed hno => exact absurd hs (hno _ _ _ _)
  | marked hs' hm => exact .marked (hs'.append t) hm
  | injected hs' hm =>
      have := Handled.injected (w := w) (hs'.append t) hm
      simpa using this

theorem markAt_append_right {s h x r : Text} {c : Char} (hs : Calls s h x c r) (t : Text) :
    w.markAt (s ++ t) 0 = w.markAt s 0 ++ t := by
  obtain ⟨v, s', hv⟩ := w.exists_handled s
  have hs' : w.markAt s 0 = s' := hv.markAt_eq []
  rw [hs']
  exact (hv.append hs t).markAt_eq []

/-- **The calls of a text cut in two** are handled apart from each other, if all brackets of the
first part are closed in it. -/
theorem markFrom_append {a t : Text} (ha : all.Closed a) (ht : Apart t) (prev : Option Char) :
    w.markFrom prev (a ++ t) = w.markFrom prev a ++ w.markFrom (Text.lastFrom prev a) t := by
  induction a generalizing prev with
  | nil => rfl
  | cons c a ih =>
      have hcall : isCall w.directive prev (c :: (a ++ t)) = isCall w.directive prev (c :: a) :=
        isCall_append (a := c :: a) ht (by simp)
      rw [List.cons_append, markFrom, markFrom, hcall, ih ha.2, Text.lastFrom_cons]
      split
      · rename_i hc
        obtain ⟨h, x, e, r, -, hs⟩ := exists_calls ha hc
        have hagree : Agree (c :: a) (c :: w.markFrom (some c) a) :=
          .cons c (agree_markFrom (some c) a)
        obtain ⟨x', r', hs'⟩ := hagree.exists_calls hs
        exact markAt_append_right hs' _
      · rfl

theorem apart_of_isClosing {c : Char} {t : Text} (hc : all.isClosing c = true) :
    Apart (c :: t) := by
  simp only [isClosing, Bool.or_eq_true, beq_iff_eq] at hc
  rcases hc with (rfl | rfl) | rfl
  · exact apart_cons (by decide) (by decide) (by decide)
  · exact apart_cons (by decide) (by decide) (by decide)
  · exact apart_cons (by decide) (by decide) (by decide)

theorem isIdentChar_of_isClosing {c : Char} (hc : all.isClosing c = true) :
    isIdentChar c = false := by
  have := isClear_of_isClosing hc
  simpa [isClear] using this

theorem sitesFrom_list {name : Identifier} {c : Char} (hc : all.isClosing c = true) (pos : Nat)
    (prev : Option Char) (x r : Text) :
    sitesFrom name pos prev (x ++ c :: r) =
      sitesFrom name pos prev x ++ sitesFrom name (pos + x.length + 1) (some c) r := by
  have hno : isCall name (Text.lastFrom prev x) (c :: r) = false :=
    isCall_cons_eq_false (isIdentChar_of_isClosing hc)
  rw [sitesFrom_append (apart_of_isClosing hc)]
  congr 1
  rw [sitesFrom, hno]
  rfl

/-- Inside and behind a list that is closed the calls are handled apart from each other. -/
theorem markFrom_list {x : Text} {c : Char} (hx : all.Balanced x) (hc : all.isClosing c = true)
    (prev : Option Char) (r : Text) :
    w.markFrom prev (x ++ c :: r) = w.markFrom prev x ++ c :: w.markFrom (some c) r := by
  rw [markFrom_append hx.closed (apart_of_isClosing hc), markFrom,
    isCall_cons_eq_false (isIdentChar_of_isClosing hc)]
  rfl

/-- A call that is left as it is. -/
theorem markFrom_skipped {h k : Text} {prev : Option Char} (hclear : isClear prev = true)
    (hh : IsHead w.directive h) (hv : w.verdict (h ++ '(' :: k) 0 ≠ none) :
    w.markFrom prev (h ++ '(' :: k) = h ++ '(' :: w.markFrom (some '(') k := by
  rw [markFrom_call hclear hh]
  refine w.markAt_eq_self ?_
  rw [← verdict_agree hh.not_mem (agree_markFrom (some '(') k)]
  exact hv

/-- A call that is marked. -/
theorem markFrom_injected {h x r : Text} {c : Char} {prev : Option Char}
    (hclear : isClear prev = true) (hh : IsHead w.directive h) (hx : all.Balanced x)
    (hc : all.isClosing c = true) (hm : ¬ Marked x w.marker.text) :
    w.markFrom prev (h ++ '(' :: (x ++ c :: r)) =
      h ++ '(' :: (markArguments (w.markFrom (some '(') x) w.marker.text ++
        c :: w.markFrom (some c) r) := by
  have hagree := agree_markFrom (w := w) (some '(') x
  have hs : Calls (h ++ '(' :: (w.markFrom (some '(') x ++ c :: w.markFrom (some c) r)) h
      (w.markFrom (some '(') x) c (w.markFrom (some c) r) :=
    ⟨rfl, hh.not_mem, hagree.balanced hx, hc⟩
  rw [markFrom_call hclear hh, markFrom_list hx hc]
  exact (Handled.injected hs (mt (hagree.marked_iff w.marker).2 hm)).markAt_eq []

/-! ## The run -/

/-- **The run over the call sites of a suffix.** The text before the suffix is `p`. -/
theorem foldr_visit (p : Text) (prev : Option Char) (s : Text) :
    (sitesFrom w.directive p.length prev s).foldr w.visit ⟨p ++ s, 0, []⟩ =
      ⟨p ++ w.markFrom prev s,
        (sitesFrom w.directive p.length prev s).countP fun i => (w.verdict (p ++ s) i).isNone,
        (sitesFrom w.directive p.length prev s).filterMap fun i =>
          (w.verdict (p ++ s) i).map (i, ·)⟩ := by
  induction prev, s using call_induction w.directive generalizing p with
  | nil prev => rfl
  | other prev c t hno ih =>
      have hrest := ih (p ++ [c])
      rw [List.length_append, List.length_cons, List.length_nil, List.append_assoc,
        List.append_assoc] at hrest
      rw [sitesFrom, hno, markFrom, hno]
      exact hrest
  | call prev h k hclear hh ih =>
      have hrest := ih (p ++ h ++ ['('])
      have hlen : (p ++ h ++ ['(']).length = p.length + h.length + 1 := by
        simp only [List.length_append, List.length_cons, List.length_nil]
      have htext : ∀ q : Text, p ++ h ++ ['('] ++ q = p ++ (h ++ '(' :: q) := by simp
      rw [hlen, htext, htext] at hrest
      -- The call is looked at when the calls behind its parenthesis have been handled.
      have hverdict : w.verdict (p ++ (h ++ '(' :: w.markFrom (some '(') k)) p.length =
          w.verdict (p ++ (h ++ '(' :: k)) p.length := by
        rw [verdict_append, verdict_append]
        exact (verdict_agree hh.not_mem (agree_markFrom (some '(') k)).symm
      rw [sitesFrom_call hclear hh, List.foldr_cons, hrest, visit_eq]
      simp only [hverdict, markAt_append, ← markFrom_call hclear hh, List.countP_cons,
        List.filterMap_cons]
      cases w.verdict (p ++ (h ++ '(' :: k)) p.length with
      | none => rfl
      | some reason => rfl

theorem markCalls_eq (t : Text) :
    w.markCalls t =
      ⟨w.markFrom none t,
        (callSites w.directive t).countP fun i => (w.verdict t i).isNone,
        (callSites w.directive t).filterMap fun i => (w.verdict t i).map (i, ·)⟩ := by
  have hrun := foldr_visit (w := w) [] none t
  rw [List.nil_append, List.length_nil, ← callSites_eq] at hrun
  exact hrun

/-- In the middle of the run, a call site is judged as in the untouched text. -/
theorem verdict_foldr {t : Text} {before after : List Nat} {i : Nat}
    (h : callSites w.directive t = before ++ i :: after) :
    w.verdict (after.foldr w.visit ⟨t, 0, []⟩).code i = w.verdict t i := by
  rw [callSites_eq] at h
  obtain ⟨u, g, k, rfl, hi, hg, hafter⟩ := sitesFrom_eq_append_cons h
  rw [Nat.zero_add] at hi
  subst hi
  have hlen : u.length + g.length + 1 = (u ++ g ++ ['(']).length := by
    simp only [List.length_append, List.length_cons, List.length_nil]
  have htext : ∀ q : Text, u ++ g ++ ['('] ++ q = u ++ (g ++ '(' :: q) := by simp
  have hrun := foldr_visit (w := w) (u ++ g ++ ['(']) (some '(') k
  rw [htext, htext, ← hlen, ← hafter] at hrun
  rw [hrun, verdict_append, verdict_append]
  exact (verdict_agree hg.not_mem (agree_markFrom (some '(') k)).symm

/-! ## What is reported -/

theorem ensureImport_eq_self {source module marker : Text}
    (h : hasImport source module marker = true) : ensureImport source module marker = source := by
  rw [ensureImport, addImport?, if_pos h]
  rfl

/-- The import is added exactly if it is not found. -/
theorem wire_importAdded (source module : Text) :
    (w.wire source module).importAdded = !hasImport source module w.marker.text := by
  show (addImport? source module w.marker.text).isSome = _
  unfold addImport?
  cases hasImport source module w.marker.text with
  | true => rfl
  | false => cases lastImportEnd? source <;> rfl

theorem wire_code (source module : Text) :
    (w.wire source module).code = w.markFrom none (ensureImport source module w.marker.text) := by
  show (w.markCalls (ensureImport source module w.marker.text)).code = _
  rw [markCalls_eq]

theorem wire_injected (source module : Text) :
    (w.wire source module).injected =
      (callSites w.directive (ensureImport source module w.marker.text)).countP fun i =>
        (w.verdict (ensureImport source module w.marker.text) i).isNone := by
  show (w.markCalls (ensureImport source module w.marker.text)).injected = _
  rw [markCalls_eq]

theorem wire_skipped (source module : Text) :
    (w.wire source module).skipped =
      (callSites w.directive (ensureImport source module w.marker.text)).filterMap fun i =>
        (w.verdict (ensureImport source module w.marker.text) i).map
          (⟨(ensureImport source module w.marker.text).byteOffset i, ·⟩) := by
  show (w.markCalls (ensureImport source module w.marker.text)).skipped.map
    (fun s => SkippedSite.mk ((ensureImport source module w.marker.text).byteOffset s.1) s.2) = _
  rw [markCalls_eq, List.map_filterMap]
  simp only [Option.map_map]
  rfl

/-- The site at a position is reported with exactly the verdict on it. -/
theorem mem_skipped_iff {t : Text} {i : Nat} (hi : i ∈ callSites w.directive t)
    (reason : SkipReason) :
    SkippedSite.mk (t.byteOffset i) reason ∈
        ((callSites w.directive t).filterMap fun i =>
          (w.verdict t i).map (SkippedSite.mk (t.byteOffset i) ·)) ↔
      w.verdict t i = some reason := by
  rw [List.mem_filterMap]
  constructor
  · rintro ⟨j, hj, heq⟩
    obtain ⟨reason', hv, heq⟩ := Option.map_eq_some_iff.1 heq
    obtain ⟨hoff, rfl⟩ := SkippedSite.mk.inj heq
    -- Two sites with the same byte offset are the same.
    rcases Nat.lt_trichotomy i j with hlt | rfl | hlt
    · have := Text.byteOffset_lt hlt (lt_length_of_mem_callSites hi)
      omega
    · exact hv
    · have := Text.byteOffset_lt hlt (lt_length_of_mem_callSites hj)
      omega
  · intro hv
    exact ⟨i, hi, by rw [hv]; rfl⟩

/-- A call is marked exactly if it is closed and has no mark yet. -/
theorem verdict_eq_none_iff {t : Text} {i : Nat} :
    w.verdict t i = none ↔
      ∃ a, ArgumentList.read? t i = some a ∧ isMarked t a w.marker.text = false := by
  unfold verdict
  cases ArgumentList.read? t i with
  | none => simp
  | some a => by_cases hm : isMarked t a w.marker.text = true <;> simp [hm]

theorem verdict_eq_malformed_iff {t : Text} {i : Nat} :
    w.verdict t i = some .malformed ↔ ArgumentList.read? t i = none := by
  unfold verdict
  cases ArgumentList.read? t i with
  | none => simp
  | some a => by_cases hm : isMarked t a w.marker.text = true <;> simp [hm]

theorem verdict_eq_marked_iff {t : Text} {i : Nat} :
    w.verdict t i = some .marked ↔
      ∃ a, ArgumentList.read? t i = some a ∧ isMarked t a w.marker.text = true := by
  unfold verdict
  cases ArgumentList.read? t i with
  | none => simp
  | some a => by_cases hm : isMarked t a w.marker.text = true <;> simp [hm]

/-- **Decisions do not depend on earlier edits.** Let `t` be the text with its import. When the
loop comes to a call site it has edited the text at all later ones, and yet its verdict is the
one that `t` leads to: with a reason to skip the site it leaves the text as it is by then, and
otherwise it applies the injection of the list that starts there. So a site is reported as malformed
exactly if its list in `t` is never closed, as marked exactly if it is closed and marked in `t`, and
the marker is injected at all others; the report lists the sites in strictly ascending order, and no
site is lost. -/
theorem wire_decides_as_untouched (w : Wiring) (source module : Text) :
    let t := ensureImport source module w.marker.text
    let sites := callSites w.directive t
    let outcome := w.wire source module
    (∀ before i after, sites = before ++ i :: after →
      let p := after.foldr w.visit ⟨t, 0, []⟩
      w.verdict p.code i = w.verdict t i ∧
      (w.verdict t i ≠ none → (w.visit i p).code = p.code) ∧
      (w.verdict t i = none → ∃ a, ArgumentList.read? p.code i = some a ∧
        (w.visit i p).code = (injection p.code a w.marker.text).apply p.code)) ∧
    outcome.code = (sites.foldr w.visit ⟨t, 0, []⟩).code ∧
    (∀ i ∈ sites,
      (⟨t.byteOffset i, .malformed⟩ ∈ outcome.skipped ↔ ArgumentList.read? t i = none) ∧
      (⟨t.byteOffset i, .marked⟩ ∈ outcome.skipped ↔
        ∃ a, ArgumentList.read? t i = some a ∧ isMarked t a w.marker.text = true)) ∧
    outcome.skipped = sites.filterMap (fun i => (w.verdict t i).map (⟨t.byteOffset i, ·⟩)) ∧
    outcome.skipped.Pairwise (fun a b => a.offset < b.offset) ∧
    outcome.injected = sites.countP (fun i => (w.verdict t i).isNone) ∧
    outcome.injected + outcome.skipped.length = sites.length := by
  intro t sites outcome
  have hskipped : outcome.skipped =
      sites.filterMap (fun i => (w.verdict t i).map (⟨t.byteOffset i, ·⟩)) :=
    wire_skipped source module
  have hinjected : outcome.injected = sites.countP (fun i => (w.verdict t i).isNone) :=
    wire_injected source module
  refine ⟨fun before i after h => ?_, rfl, fun i hi => ⟨?_, ?_⟩, hskipped, ?_, hinjected, ?_⟩
  · intro p
    have hverdict : w.verdict p.code i = w.verdict t i := verdict_foldr h
    have hcode : (w.visit i p).code = w.markAt p.code i := by rw [visit_eq]
    rw [hcode, ← hverdict]
    exact ⟨rfl, w.markAt_eq_self, w.exists_of_verdict_eq_none⟩
  · rw [hskipped, mem_skipped_iff hi, verdict_eq_malformed_iff]
  · rw [hskipped, mem_skipped_iff hi, verdict_eq_marked_iff]
  · rw [hskipped, List.pairwise_filterMap]
    refine (pairwise_byteOffset w.directive t).imp fun {i j} hij a ha b hb => ?_
    obtain ⟨_, -, rfl⟩ := Option.map_eq_some_iff.1 ha
    obtain ⟨_, -, rfl⟩ := Option.map_eq_some_iff.1 hb
    exact hij
  · have hsome : outcome.skipped.length = sites.countP fun i => ¬ (w.verdict t i).isNone := by
      rw [hskipped, List.length_filterMap_eq_countP]
      congr 1
      funext i
      cases w.verdict t i <;> rfl
    rw [hinjected, hsome]
    exact (List.length_eq_countP_add_countP _).symm

/-- The outer call is looked at with the marker in the inner one, and that is not taken for its
own. -/
example :
    let mark := "\x7b assign: \x7b $styles \x7d \x7d".toList
    (markCalls {} "directive(a, directive())".toList).code =
      "directive(a, directive(".toList ++ mark ++ "), ".toList ++ mark ++ [')'] := by
  decide +kernel

end Wiring

end Stylewire
