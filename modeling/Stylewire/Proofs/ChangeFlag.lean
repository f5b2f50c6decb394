import Stylewire.Session
import Stylewire.Proofs.Locality

set_option autoImplicit false

/-! # When wiring leaves a text as it is

An outcome is *changed* if the import was added or a call was counted. Whether the new text
differs from the source is another question: an options object that holds no brace has no room
for the marker, so its call is counted and nothing is added (`NoRoom`).

Every other edit adds a chunk that is not blank, and no edit takes one away. So the text is left as
it is exactly if it has the import and all its calls are idle (`wire_code_eq_source_iff`), and the
flag says so but for the calls without room (`isChanged_exact`).
-/

namespace Stylewire

open Brackets

/-! ## One call -/

/-- An options object has **no room** for the marker: it has no assign block, and no brace before
which a new one could be put. -/
def NoRoom (body : Text) : Prop := '}' ∉ body ∧ assignBlocks body = []

instance (body : Text) : Decidable (NoRoom body) :=
  inferInstanceAs (Decidable ('}' ∉ body ∧ assignBlocks body = []))

theorem NoRoom.injectMarker_eq {body : Text} (h : NoRoom body) (marker : Text) :
    injectMarker body marker = body := by
  rw [injectMarker, h.2]
  exact if_neg h.1

theorem added_injectMarker {b : Text} {c : Char} (marker : Identifier) (hb : all.Balanced b)
    (hc : all.isClosing c = true) (h : ¬ NoRoom ('{' :: (b ++ [c]))) :
    Added marker.text ('{' :: (b ++ [c])) (injectMarker ('{' :: (b ++ [c])) marker.text) := by
  cases hfirst : (assignBlocks ('{' :: (b ++ [c]))).head? with
  | none =>
      have hbrace : '}' ∈ '{' :: (b ++ [c]) :=
        Classical.byContradiction fun hno => h ⟨hno, List.head?_eq_none_iff.1 hfirst⟩
      rw [injectMarker, hfirst]
      rcases appendAssign_cases ('{' :: (b ++ [c])) marker.text with ⟨-, hhead⟩ | ⟨g, f, hcut, heq⟩
      · exact absurd (hhead hbrace) (by simp)
      · simp only [heq]
        rw [hcut]
        exact added_clause g f marker
  | some i =>
      obtain ⟨u, k, v, e, w, hblock, rfl⟩ :=
        (mem_assignBlocks_object hb hc).1 (List.mem_of_head? hfirst)
      have hctx := (added_withEntry v marker).context ('{' :: (u ++ (k ++ ['{'])))
        (e :: (w ++ [c]))
      rw [injectMarker_block hblock hfirst, hblock.eq]
      simpa using hctx

theorem added_addOptions (x : Text) (marker : Identifier) :
    Added marker.text x (addOptions x marker.text) := by
  obtain ⟨b, hx, -, -⟩ := Text.trimEnd_spec x
  rw [addOptions, drop_trimEnd hx]
  split
  · rename_i hempty
    have hnil := Text.trimEnd_eq_nil (List.isEmpty_iff.1 hempty)
    exact added_newOptions marker (Text.isBlank_of_trimEnd_eq_nil hnil)
  · have hadd := added_newOptions_behind (x.trimEnd.endsWith ',' = true) x.trimEnd b marker
    rw [← hx] at hadd
    exact hadd

/-- **What an injection adds**: nothing if the options object has no room, and a chunk that is
not blank otherwise. -/
theorem injection_cases {t : Text} {i : Nat} {a : ArgumentList} (marker : Identifier)
    (ha : ArgumentList.read? t i = some a) :
    ((∃ o ∈ a.options, NoRoom (o.body t)) ∧ (injection t a marker.text).apply t = t) ∨
      ((¬ ∃ o ∈ a.options, NoRoom (o.body t)) ∧
        Added marker.text t ((injection t a marker.text).apply t)) := by
  obtain ⟨p, s, h, x, c, r, rfl, rfl, hs, -, -⟩ := ArgumentList.exists_calls_of_read? ha
  by_cases hthird : ∃ y b e z, ObjectArgument x y b e z ∧ separators 0 y = 2
  · obtain ⟨y, b, e, z, hobj, hsep⟩ := hthird
    have happly := injection_apply_object marker.text hs ha hobj hsep
    have htext : p ++ s = p ++ (h ++ '(' :: y) ++ ('{' :: (b ++ [e]) ++ (z ++ c :: r)) := by
      rw [hs.eq, hobj.eq]
      simp
    obtain ⟨o, ho, hbody, -⟩ := options_eq_some hs ha hobj hsep
    by_cases hroom : NoRoom ('{' :: (b ++ [e]))
    · left
      refine ⟨⟨o, ho, by rw [hbody]; exact hroom⟩, ?_⟩
      rw [happly, hroom.injectMarker_eq, htext]
      simp
    · right
      refine ⟨?_, ?_⟩
      · rintro ⟨o', ho', hroom'⟩
        obtain rfl : o = o' := Option.some.inj (ho.symm.trans ho')
        rw [hbody] at hroom'
        exact hroom hroom'
      · have hctx := (added_injectMarker marker hobj.balanced hobj.closing hroom).context
          (p ++ (h ++ '(' :: y)) (z ++ c :: r)
        rw [happly, htext]
        simpa using hctx
  · right
    have hno : ∀ y b e z, ObjectArgument x y b e z → separators 0 y ≠ 2 :=
      fun y b e z hobj hsep => hthird ⟨y, b, e, z, hobj, hsep⟩
    refine ⟨?_, ?_⟩
    · rintro ⟨o, ho, -⟩
      rw [options_eq_none hs ha hno] at ho
      cases ho
    · have hctx := (added_addOptions x marker).context (p ++ (h ++ ['('])) (c :: r)
      rw [injection_apply_addOptions marker.text hs ha hno, hs.eq]
      simpa using hctx

/-! ## What is not blank is never taken away -/

theorem ne_nil_of_mem_chunks {marker : Identifier} {t : Text} (h : t ∈ chunks marker.text) :
    t ≠ [] := by
  have hm := marker.text_ne_nil
  simp only [chunks, List.mem_cons, List.not_mem_nil, or_false] at h
  rcases h with rfl | rfl | rfl | rfl | rfl | rfl
  all_goals simp [bareClause, hm]

theorem Added.length_lt {marker : Identifier} {t t' : Text} (h : Added marker.text t t') :
    t.withoutBlanks.length < t'.withoutBlanks.length := by
  obtain ⟨u, v, n, hn, ht, ht'⟩ := h
  have hpos := List.length_pos_of_ne_nil (ne_nil_of_mem_chunks hn)
  rw [ht, ht']
  simp only [List.length_append]
  omega

theorem Inserted.length_le {marker : Identifier} {t t' : Text} (h : Inserted marker.text t t') :
    t.withoutBlanks.length ≤ t'.withoutBlanks.length := by
  rcases h with heq | hadd
  · exact Nat.le_of_eq (congrArg List.length heq.symm)
  · exact Nat.le_of_lt hadd.length_lt

/-- A new import adds what is not blank. -/
theorem length_lt_ensureImport {source module marker : Text}
    (h : ¬ hasImport source module marker = true) :
    source.withoutBlanks.length < (ensureImport source module marker).withoutBlanks.length := by
  have hstatement : 0 < (importStatement module marker).withoutBlanks.length := by
    refine List.length_pos_of_mem (a := 'i') (List.mem_filter.2 ⟨?_, by decide⟩)
    simp [importStatement, importWord]
  rw [ensureImport, addImport?, if_neg h]
  cases lastImportEnd? source with
  | none =>
      simp only [Option.getD_some, Text.withoutBlanks_append, List.length_append]
      omega
  | some i =>
      have hcut : source.withoutBlanks =
          Text.withoutBlanks (source.take i) ++ Text.withoutBlanks (source.drop i) := by
        rw [← Text.withoutBlanks_append, List.take_append_drop]
      rw [hcut]
      simp only [Option.getD_some, Text.withoutBlanks_append, List.length_append]
      omega

namespace Wiring

/-- The call at a position is **idle**: marking it would change nothing, as it is not closed or
marked already, or as its options object has no room. -/
def Idle (w : Wiring) (t : Text) (i : Nat) : Prop :=
  ∀ a, ArgumentList.read? t i = some a → isMarked t a w.marker.text = false →
    ∃ o ∈ a.options, NoRoom (o.body t)

variable {w : Wiring}

/-- **One call**: the text stays as it is if the call is idle, and it has more characters that are
not blank otherwise. -/
theorem markAt_cases (t : Text) (i : Nat) :
    (w.Idle t i ∧ w.markAt t i = t) ∨
      (¬ w.Idle t i ∧ t.withoutBlanks.length < (w.markAt t i).withoutBlanks.length) := by
  unfold Idle markAt
  cases ha : ArgumentList.read? t i with
  | none =>
      left
      exact ⟨fun a h => absurd h (by simp), rfl⟩
  | some a =>
      by_cases hm : isMarked t a w.marker.text = true
      · left
        refine ⟨?_, if_pos hm⟩
        intro a' ha' hm'
        rw [← Option.some.inj ha', hm] at hm'
        cases hm'
      · have hfalse : isMarked t a w.marker.text = false := by simpa using hm
        simp only [if_neg hm]
        rcases injection_cases w.marker ha with ⟨hroom, heq⟩ | ⟨hroom, hadd⟩
        · left
          refine ⟨?_, heq⟩
          intro a' ha' _
          rw [← Option.some.inj ha']
          exact hroom
        · right
          exact ⟨fun hidle => hroom (hidle a rfl hfalse), hadd.length_lt⟩

/-- **The loop**, whatever sites it is run on. -/
theorem foldr_visit_cases (t : Text) (sites : List Nat) :
    ((∀ i ∈ sites, w.Idle t i) ∧ (sites.foldr w.visit ⟨t, 0, []⟩).code = t) ∨
      ((¬ ∀ i ∈ sites, w.Idle t i) ∧ t.withoutBlanks.length <
        (sites.foldr w.visit ⟨t, 0, []⟩).code.withoutBlanks.length) := by
  induction sites with
  | nil =>
      left
      exact ⟨by simp, rfl⟩
  | cons i sites ih =>
      rw [List.foldr_cons, visit_eq]
      simp only [List.forall_mem_cons]
      rcases ih with ⟨hidle, hcode⟩ | ⟨hbusy, hlt⟩
      · -- The later calls have left the text as it is, so this one is met in the text `t`.
        rw [hcode]
        rcases markAt_cases (w := w) t i with ⟨hi, heq⟩ | ⟨hi, hlt⟩
        · exact Or.inl ⟨⟨hi, hidle⟩, heq⟩
        · exact Or.inr ⟨fun h => hi h.1, hlt⟩
      · right
        refine ⟨fun h => hbusy h.2, ?_⟩
        have hle := (inserted_markAt (w := w) (sites.foldr w.visit ⟨t, 0, []⟩).code i).length_le
        omega

/-- **When the text stays as it is.** -/
theorem wire_code_eq_source_iff {source module : Text} :
    (w.wire source module).code = source ↔
      hasImport source module w.marker.text = true ∧
        ∀ i ∈ callSites w.directive source, w.Idle source i := by
  show (w.markCalls (ensureImport source module w.marker.text)).code = source ↔ _
  have hcases := foldr_visit_cases (w := w) (ensureImport source module w.marker.text)
    (callSites w.directive (ensureImport source module w.marker.text))
  by_cases himport : hasImport source module w.marker.text = true
  · rw [ensureImport_eq_self himport] at hcases ⊢
    rw [markCalls]
    rcases hcases with ⟨hidle, hcode⟩ | ⟨hbusy, hlt⟩
    · exact ⟨fun _ => ⟨himport, hidle⟩, fun _ => hcode⟩
    · refine ⟨fun hcode => ?_, fun h => absurd h.2 hbusy⟩
      rw [hcode] at hlt
      omega
  · -- The import is there afterwards, and nothing that the loop does can make up for it.
    have hadded := length_lt_ensureImport himport
    refine ⟨fun hcode => ?_, fun h => absurd h.1 himport⟩
    rw [markCalls] at hcode
    rcases hcases with ⟨-, heq⟩ | ⟨-, hlt⟩
    · rw [← heq, hcode] at hadded
      omega
    · rw [hcode] at hlt
      omega

/-- Something is **counted in vain**: the source has the import and some call is counted, but the
options objects of all calls that are counted have no room. -/
structure InVain (w : Wiring) (source module : Text) : Prop where
  hasImport : hasImport source module w.marker.text = true
  counted : 0 < (w.wire source module).injected
  noRoom : ∀ i ∈ callSites w.directive source, ∀ a, ArgumentList.read? source i = some a →
    isMarked source a w.marker.text = false → ∃ o ∈ a.options, NoRoom (o.body source)

theorem isChanged_eq_false_iff {source module : Text} :
    (w.wire source module).isChanged = false ↔
      hasImport source module w.marker.text = true ∧ (w.wire source module).injected = 0 := by
  rw [Outcome.isChanged, wire_importAdded, Bool.or_eq_false_iff, decide_eq_false_iff_not,
    Bool.not_eq_false', Nat.not_lt, Nat.le_zero]

/-- A call that is counted, if the number of these is not zero. -/
theorem exists_counted {source module : Text} (hinjected : 0 < (w.wire source module).injected) :
    let t := ensureImport source module w.marker.text
    ∃ i ∈ callSites w.directive t, ∃ a, ArgumentList.read? t i = some a ∧
      isMarked t a w.marker.text = false := by
  intro t
  rw [wire_injected, List.countP_pos_iff] at hinjected
  obtain ⟨i, hi, hv⟩ := hinjected
  exact ⟨i, hi, verdict_eq_none_iff.1 (Option.isNone_iff_eq_none.1 hv)⟩

theorem code_eq_source_of_isChanged {source module : Text}
    (h : (w.wire source module).isChanged = false) : (w.wire source module).code = source := by
  obtain ⟨himport, hzero⟩ := isChanged_eq_false_iff.1 h
  refine wire_code_eq_source_iff.2 ⟨himport, fun i hi a ha hm => ?_⟩
  rw [wire_injected, ensureImport_eq_self himport, List.countP_eq_zero] at hzero
  exact absurd (Option.isNone_iff_eq_none.2 (verdict_eq_none_iff.2 ⟨a, ha, hm⟩)) (hzero i hi)

theorem inVain_iff {source module : Text} :
    w.InVain source module ↔
      (w.wire source module).isChanged = true ∧ (w.wire source module).code = source := by
  constructor
  · intro h
    refine ⟨?_, wire_code_eq_source_iff.2 ⟨h.hasImport, h.noRoom⟩⟩
    rw [Outcome.isChanged, decide_eq_true h.counted, Bool.or_true]
  · rintro ⟨hchanged, hcode⟩
    obtain ⟨himport, hidle⟩ := wire_code_eq_source_iff.1 hcode
    refine ⟨himport, ?_, hidle⟩
    refine Nat.pos_of_ne_zero fun hzero => ?_
    rw [isChanged_eq_false_iff.2 ⟨himport, hzero⟩] at hchanged
    cases hchanged

/-- **When the change flag is exact.** If the flag is not set, the new text is the source. If it is
set and the new text is the source all the same, then something was counted in vain, and only
then. So the flag tells whether the text differs, and `changed?` is `none` exactly if it does not,
whenever each options object of a call holds a brace. The flag of a module that a session returns
is as exact as that. -/
theorem isChanged_exact (w : Wiring) (source : Text) :
    (∀ module, ((w.wire source module).isChanged = false → (w.wire source module).code = source) ∧
      ((w.wire source module).isChanged = true ∧ (w.wire source module).code = source ↔
        w.InVain source module)) ∧
    ((∀ i ∈ callSites w.directive source, ∀ a ∈ ArgumentList.read? source i, ∀ o ∈ a.options,
        '}' ∈ o.body source) →
      ∀ module, ((w.wire source module).isChanged = true ↔ (w.wire source module).code ≠ source) ∧
        ((w.wire source module).changed? = none ↔ (w.wire source module).code = source)) ∧
    ∀ (rules : Rules) (resolve : Path → Option Stylesheet) (id : Path), rules.wiring = w →
      ∀ m ∈ rules.wire? resolve source id,
        (m.outcome.isChanged = false → m.outcome.code = source) ∧
        (m.outcome.isChanged = true ∧ m.outcome.code = source ↔
          w.InVain source m.stylesheet.specifier) := by
  refine ⟨fun module => ⟨code_eq_source_of_isChanged, inVain_iff.symm⟩, ?_, ?_⟩
  · intro hbrace module
    have hexact : ¬ w.InVain source module := by
      intro hvain
      obtain ⟨i, hi, a, ha, hm⟩ := exists_counted hvain.counted
      rw [ensureImport_eq_self hvain.hasImport] at hi ha hm
      obtain ⟨o, ho, hroom⟩ := hvain.noRoom i hi a ha hm
      exact hroom.1 (hbrace i hi a ha o ho)
    rw [inVain_iff, not_and] at hexact
    unfold Outcome.changed?
    cases hflag : (w.wire source module).isChanged with
    | false => simp [code_eq_source_of_isChanged hflag]
    | true => simp [hexact hflag]
  · rintro rules resolve id rfl m hm
    rw [Option.mem_def, Rules.wire?, Option.map_eq_some_iff] at hm
    obtain ⟨stylesheet, -, rfl⟩ := hm
    exact ⟨code_eq_source_of_isChanged, inVain_iff.symm⟩

/-- The options object of the call is closed by another bracket, so it has no room. -/
def mismatchedCall : Text :=
  importStatement "./d.css".toList Identifier.styles.text ++ ['\n'] ++
    Identifier.directive.text ++ ['(', '1', ',', '2', ',', '{', ']', ')']

/-- The options object of the call has a brace. -/
def bracedCall : Text := Identifier.directive.text ++ ['(', '1', ',', '2', ',', '{', '}', ')']

theorem isChanged_exact_calls :
    Wiring.InVain {} mismatchedCall "./d.css".toList ∧
      ∀ module, (Wiring.wire {} bracedCall module).isChanged = true ↔
        (Wiring.wire {} bracedCall module).code ≠ bracedCall := by
  refine ⟨?_, fun module => ?_⟩
  · exact ((isChanged_exact {} mismatchedCall).1 _).2.1 ⟨by decide +kernel, by decide +kernel⟩
  · exact ((isChanged_exact {} bracedCall).2.1 (by decide +kernel) module).1

/-- The flag is not always exact. -/
theorem isChanged_not_exact :
    let outcome := Wiring.wire {} mismatchedCall "./d.css".toList
    outcome.isChanged = true ∧ outcome.injected = 1 ∧ outcome.code = mismatchedCall := by
  decide +kernel

end Wiring

end Stylewire
