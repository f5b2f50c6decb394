import Stylewire.Proofs.CheckedEdit
import Stylewire.Proofs.Wiring

set_option autoImplicit false

/-! # Wiring with checked cuts

A whole source text is wired with byte offsets and checked cuts: the import is added behind the last
one, the call sites are found, and the calls are marked from the last to the first. Every call is
looked up in the text that the calls behind it have left, at the offset it had before. No edit
reaches before its own call, so this is still the offset of the same position, and no check fails
(`foldrM_visit_eq`). Hence wiring always has a result, the one of `Wiring.wire` (`wire_eq`).
-/

namespace Stylewire

open Brackets Text

/-- The progress with byte offsets in `t` in place of positions. -/
def Wiring.Progress.inBytes (p : Wiring.Progress) (t : Text) : Wiring.Progress :=
  { p with skipped := p.skipped.map fun (i, reason) => (t.byteOffset i, reason) }

namespace Checked

/-! ## The import -/

/-- Whether a binding of exactly this module has the marker in its clause. -/
def hasImport (t module marker : Text) : Except Panic Bool :=
  (importBindings t).anyM fun b =>
    if b.specifier == module then containsToken b.clause marker else return false

/-- The offset where the line of an offset ends. -/
def lineEnd (t : Text) (i : Nat) : Except Panic Nat := do
  match find? (← slice t i t.byteSize) '\n' with
  | none => return t.byteSize
  | some n => return i + n

/-- The offset where the last import of the text ends. -/
def lastImportEnd? (t : Text) : Except Panic (Option Nat) :=
  match ((importLine.findAll t).map (·.inBytes t)).getLast? with
  | none => return none
  | some line => do
      match find? (← slice t line.start line.stop) '{' with
      | none => return some line.stop
      | some brace =>
          match matchBracket t (line.start + brace) with
          | none => return some line.stop
          | some last =>
              if line.stop ≤ last then return some (← lineEnd t last) else return some line.stop

/-- The text with an import of the module under the marker, or nothing if it has one. -/
def addImport? (t module marker : Text) : Except Panic (Option Text) := do
  if ← hasImport t module marker then return none
  else
    let statement := importStatement module marker
    match ← lastImportEnd? t with
    | none => return some (statement ++ ['\n'] ++ t)
    | some i =>
        let before ← slice t 0 i
        let behind ← slice t i t.byteSize
        return some (before ++ ['\n'] ++ statement ++ behind)

theorem containsToken_eq (t w : Text) : containsToken t w = .ok (t.containsToken w) := by
  rw [containsToken, tokenStarts_eq, ok_bind, List.isEmpty_map]
  rfl

theorem hasImport_eq (t module marker : Text) :
    hasImport t module marker = .ok (Stylewire.hasImport t module marker) := by
  have hany := anyM_map_eq (l := importBindings t) (f := id)
    (p := fun b => if b.specifier == module then containsToken b.clause marker else return false)
    (q := fun b => b.specifier == module && b.clause.containsToken marker) (by
      intro b hb
      rw [id, containsToken_eq]
      cases b.specifier == module <;> rfl)
  rw [List.map_id] at hany
  exact hany

/-- An import line lies in the text. -/
theorem le_length_of_importLine {prev : Option Char} {v : Text} {n : Nat}
    (h : importLine prev v = some n) : n ≤ v.length := by
  unfold importLine at h
  split at h
  · obtain ⟨⟨r, k⟩, hafter, rfl⟩ := Option.map_eq_some_iff.1 h
    unfold afterImport? at hafter
    obtain ⟨r', hr', hblank⟩ := Option.bind_eq_some_iff.1 hafter
    obtain rfl := stripWord_eq_some_iff.1 hr'
    split at hblank
    · obtain ⟨rfl, rfl⟩ := Prod.mk.inj (Option.some.inj hblank)
      have hline : ((r'.drop r'.blanks).takeWhile (· != '\n')).length ≤
          (r'.drop r'.blanks).length := (List.takeWhile_sublist _).length_le
      have hblanks : r'.blanks ≤ r'.length := (List.takeWhile_sublist _).length_le
      have hword : importWord.length = 6 := rfl
      rw [List.length_drop] at hline
      rw [List.length_append, hword]
      dsimp only
      omega
    · cases hblank
  · cases h

theorem bounds_of_mem_importLines {t : Text} {m : Match} (hm : m ∈ importLine.findAll t) :
    m.start ≤ m.stop ∧ m.stop ≤ t.length := by
  obtain ⟨u, v, n, rfl, rfl, hn⟩ := Recognizer.exists_of_mem_findFrom hm
  have hle := le_length_of_importLine hn
  rw [List.length_append]
  dsimp only
  omega

theorem byteOffset_le_iff {t : Text} {i j : Nat} (hi : i ≤ t.length) (hj : j ≤ t.length) :
    t.byteOffset i ≤ t.byteOffset j ↔ i ≤ j := by
  constructor
  · intro h
    refine Nat.le_of_not_lt fun hlt => ?_
    have := byteOffset_lt hlt (Nat.lt_of_lt_of_le hlt hi)
    omega
  · intro h
    exact byteOffset_le h hj

/-- The first place of a character in a part of a text, or the end of the part. -/
theorem offset_takeWhile {t m q : Text} {i : Nat} (c : Char) (hi : i ≤ t.length)
    (hm : t.drop i = m ++ q) :
    i + (m.takeWhile (· != c)).length ≤ t.length ∧
      t.byteOffset (i + (m.takeWhile (· != c)).length) =
        t.byteOffset i + byteSize (m.takeWhile (· != c)) := by
  have hcut : t.drop i = m.takeWhile (· != c) ++ (m.dropWhile (· != c) ++ q) := by
    rw [hm, ← List.append_assoc, List.takeWhile_append_dropWhile]
  have hlen := congrArg List.length hcut
  rw [List.length_drop, List.length_append] at hlen
  exact ⟨by omega, byteOffset_add hi hcut⟩

theorem lineEnd_eq {t : Text} {i : Nat} (hi : i ≤ t.length) :
    lineEnd t (t.byteOffset i) =
      .ok (t.byteOffset (i + ((t.drop i).takeWhile (· != '\n')).length)) := by
  obtain ⟨-, hoffset⟩ := offset_takeWhile '\n' hi (List.append_nil _).symm
  rw [lineEnd, slice_drop hi, ok_bind, find?_eq (by decide), hoffset]
  by_cases hmem : '\n' ∈ t.drop i
  · rw [if_pos hmem]
    rfl
  · have hne : ∀ c ∈ t.drop i, (c != '\n') = true := by
      intro c hc
      have : c ≠ '\n' := fun h => hmem (h ▸ hc)
      simpa using this
    have hall : (t.drop i).takeWhile (· != '\n') = t.drop i := by
      calc (t.drop i).takeWhile (· != '\n')
          = (t.drop i ++ []).takeWhile (· != '\n') := by rw [List.append_nil]
        _ = t.drop i := by
          rw [List.takeWhile_append_of_pos hne, List.takeWhile_nil, List.append_nil]
    rw [if_neg hmem, hall, byteOffset_eq, ← byteSize_append, List.take_append_drop]
    rfl

/-- **The end of the last import** is found without a failing check, and lies in the text. -/
theorem lastImportEnd?_eq (t : Text) :
    lastImportEnd? t = .ok ((Stylewire.lastImportEnd? t).map t.byteOffset) ∧
      ∀ i, Stylewire.lastImportEnd? t = some i → i ≤ t.length := by
  unfold lastImportEnd? Stylewire.lastImportEnd?
  rw [List.getLast?_map]
  cases hline : (importLine.findAll t).getLast? with
  | none => exact ⟨rfl, fun i hi => by cases hi⟩
  | some line =>
      obtain ⟨hstart, hstop⟩ := bounds_of_mem_importLines (List.mem_of_getLast? hline)
      have hmatched : t.drop line.start = t.slice line.start line.stop ++
          (t.drop line.start).drop (line.stop - line.start) :=
        (List.take_append_drop _ _).symm
      obtain ⟨hle, hbrace⟩ := offset_takeWhile '{' (Nat.le_trans hstart hstop) hmatched
      have hstay : ∀ i, some line.stop = some i → i ≤ t.length := by
        intro i hi
        rwa [← Option.some.inj hi]
      simp only [Option.map_some, Match.inBytes, slice_byteOffset hstart hstop, ok_bind,
        find?_eq (c := '{') (by decide), Option.bind_eq_bind, Option.bind_some]
      by_cases hmem : '{' ∈ t.slice line.start line.stop
      · simp only [if_pos hmem, ← hbrace, matchBracket_byteOffset hle]
        cases hclose : all.closing? t
            (line.start + ((t.slice line.start line.stop).takeWhile (· != '{')).length) with
        | none => exact ⟨rfl, hstay⟩
        | some last =>
            obtain ⟨-, hlt, -, -⟩ := offsets_of_closing? hclose
            have hlast := Nat.le_of_lt hlt
            obtain ⟨hend, -⟩ := offset_takeWhile '\n' hlast (List.append_nil _).symm
            simp only [Option.map_some, byteOffset_le_iff hstop hlast, lineEnd_eq hlast, ok_bind]
            by_cases hlate : line.stop ≤ last
            · simp only [if_pos hlate]
              refine ⟨rfl, fun i hi => ?_⟩
              rwa [← Option.some.inj hi]
            · simp only [if_neg hlate]
              exact ⟨rfl, hstay⟩
      · simp only [if_neg hmem]
        exact ⟨rfl, hstay⟩

theorem addImport?_eq (t module marker : Text) :
    addImport? t module marker = .ok (Stylewire.addImport? t module marker) := by
  rw [addImport?, hasImport_eq, ok_bind, Stylewire.addImport?]
  cases Stylewire.hasImport t module marker with
  | true => rfl
  | false =>
      obtain ⟨hend, hle⟩ := lastImportEnd?_eq t
      simp only [Bool.false_eq_true, if_false, hend, ok_bind]
      cases hi : Stylewire.lastImportEnd? t with
      | none => rfl
      | some i =>
          simp only [Option.map_some, slice_take (hle i hi), slice_drop (hle i hi), ok_bind]
          rfl

/-! ## The calls -/

/-- The offsets of the call sites of a name. -/
def callSites (name : Identifier) (t : Text) : Except Panic (List Nat) :=
  (((callHead name.text).findAll t).map fun m => t.byteOffset m.start).filterM (clearBefore t)

/-- Handles the call site at an offset. -/
def visit (w : Wiring) (site : Nat) (p : Wiring.Progress) : Except Panic Wiring.Progress :=
  match parse p.code site with
  | .error _ => return { p with skipped := (site, .malformed) :: p.skipped }
  | .ok a => do
      if ← isMarked p.code a w.marker.text then
        return { p with skipped := (site, .marked) :: p.skipped }
      else
        let code ← apply (← injection p.code a w.marker.text) p.code
        return { p with code := code, injected := p.injected + 1 }

/-- Wires a source text to a stylesheet module. -/
def wire (w : Wiring) (source module : Text) : Except Panic Outcome := do
  let added ← addImport? source module w.marker.text
  let t := added.getD source
  let p ← (← callSites w.directive t).foldrM (visit w) ⟨t, 0, []⟩
  return {
    code := p.code
    importAdded := added.isSome
    injected := p.injected
    skipped := p.skipped.map fun (offset, reason) => ⟨offset, reason⟩ }

theorem callSites_eq (name : Identifier) (t : Text) :
    callSites name t = .ok ((Stylewire.callSites name t).map t.byteOffset) := by
  have hclear : ∀ m ∈ (callHead name.text).findAll t,
      clearBefore t (t.byteOffset m.start) = .ok (t.clearBefore m.start) := by
    intro m hm
    obtain ⟨u, v, n, rfl, rfl, -⟩ := Recognizer.exists_of_mem_findFrom hm
    exact clearBefore_byteOffset (by simp)
  rw [callSites, filterM_map_eq hclear, Stylewire.callSites, List.filter_map, List.map_map]
  rfl

section

variable {w : Wiring} {t : Text}

theorem take_markAt {i j : Nat} (hi : i ≤ t.length) (hj : j ≤ i) :
    (w.markAt t i).take j = t.take j := by
  obtain ⟨u, v, rfl, rfl⟩ := exists_cut hi
  rw [Wiring.markAt_append, List.take_append_of_le_length hj, List.take_append_of_le_length hj]

/-- The text before all the calls that have been handled is as it was. -/
theorem take_foldr_visit {sites : List Nat} (hsites : ∀ i ∈ sites, i ≤ t.length)
    (hsorted : sites.Pairwise (· < ·)) {j : Nat} (hj : ∀ i ∈ sites, j ≤ i) :
    (sites.foldr w.visit ⟨t, 0, []⟩).code.take j = t.take j := by
  induction sites generalizing j with
  | nil => rfl
  | cons i sites ih =>
      obtain ⟨hi, hrest⟩ := List.pairwise_cons.1 hsorted
      have hbehind : ∀ j, j ≤ i → (sites.foldr w.visit ⟨t, 0, []⟩).code.take j = t.take j :=
        fun j hji => ih (fun k hk => hsites k (List.mem_cons_of_mem i hk)) hrest
          fun k hk => Nat.le_trans hji (Nat.le_of_lt (hi k hk))
      have hji : j ≤ i := hj i List.mem_cons_self
      have hle : i ≤ t.length := hsites i List.mem_cons_self
      -- The calls behind have left the text up to this one, so this one is still in the text.
      have hlen : i ≤ (sites.foldr w.visit ⟨t, 0, []⟩).code.length := by
        have := congrArg List.length (hbehind i (Nat.le_refl i))
        rw [List.length_take, List.length_take] at this
        omega
      rw [List.foldr_cons, Wiring.visit_eq]
      calc (w.markAt (sites.foldr w.visit ⟨t, 0, []⟩).code i).take j
          = (sites.foldr w.visit ⟨t, 0, []⟩).code.take j := take_markAt hlen hji
        _ = t.take j := hbehind j hji

/-- One call: the offset is the same in the text so far, so the call is found there. -/
theorem visit_eq {i : Nat} {p : Wiring.Progress} (hi : i ≤ t.length)
    (hp : p.code.take i = t.take i) :
    visit w (t.byteOffset i) (p.inBytes t) = .ok ((w.visit i p).inBytes t) := by
  have hlen : i ≤ p.code.length := by
    have := congrArg List.length hp
    rw [List.length_take, List.length_take] at this
    omega
  have hoffset : t.byteOffset i = p.code.byteOffset i := by
    rw [byteOffset_eq, byteOffset_eq, hp]
  have hparse : parse p.code (t.byteOffset i) =
      (ArgumentList.readByte p.code (t.byteOffset i)).map (·.inBytes p.code) := parse_eq _ _
  rw [ArgumentList.readByte, hoffset, position?_byteOffset _ _ hlen, Option.bind_some,
    ← hoffset] at hparse
  unfold visit Wiring.visit
  cases hread : ArgumentList.read? p.code i with
  | none =>
      rw [hread] at hparse
      simp only [Wiring.Progress.inBytes, hparse]
      rfl
  | some a =>
      rw [hread] at hparse
      obtain ⟨hs, ht⟩ := bounds_injection hread w.marker.text
      simp only [Wiring.Progress.inBytes, hparse, Except.map, isMarked_eq hread, ok_bind,
        injection_eq hread, apply_eq hs ht]
      cases Stylewire.isMarked p.code a w.marker.text <;> rfl

/-- **All calls:** whatever the calls behind have left, a call is handled without a failing
check. -/
theorem foldrM_visit_eq {sites : List Nat} (hsites : ∀ i ∈ sites, i ≤ t.length)
    (hsorted : sites.Pairwise (· < ·)) :
    (sites.map t.byteOffset).foldrM (visit w) ⟨t, 0, []⟩ =
      .ok ((sites.foldr w.visit ⟨t, 0, []⟩).inBytes t) := by
  induction sites with
  | nil => rfl
  | cons i sites ih =>
      obtain ⟨hi, hrest⟩ := List.pairwise_cons.1 hsorted
      have hsites' : ∀ j ∈ sites, j ≤ t.length := fun j hj => hsites j (List.mem_cons_of_mem i hj)
      rw [List.map_cons, List.foldrM_cons, ih hsites' hrest, ok_bind, List.foldr_cons]
      exact visit_eq (hsites i List.mem_cons_self)
        (take_foldr_visit hsites' hrest fun j hj => Nat.le_of_lt (hi j hj))

end

/-- **Wiring never fails**, and does what it does to characters. -/
theorem wire_eq (w : Wiring) (source module : Text) :
    wire w source module = .ok (w.wire source module) := by
  have hsites : ∀ t, ∀ i ∈ Stylewire.callSites w.directive t, i ≤ t.length :=
    fun t i hi => Nat.le_of_lt (lt_length_of_mem_callSites hi)
  have hsorted : ∀ t, (Stylewire.callSites w.directive t).Pairwise (· < ·) := by
    intro t
    rw [Stylewire.callSites_eq]
    exact pairwise_sitesFrom w.directive 0 none t
  simp only [wire, addImport?_eq, ok_bind, callSites_eq, foldrM_visit_eq (hsites _) (hsorted _),
    Wiring.Progress.inBytes, List.map_map]
  rfl

/-! ## No check fails -/

/-- What the checked functions answer about an argument list of the text. -/
structure ListAnswers (t : Text) (a : ArgumentList) (marker : Text) : Prop where
  arguments : arguments (a.inBytes t) t = .ok (a.arguments t)
  objects : objects (a.inBytes t) t = .ok ((a.objects t).map (·.inBytes t))
  body : ∀ o, o ∈ a.objects t ∨ a.options = some o → body (o.inBytes t) t = .ok (o.body t)
  isMarked : isMarked t (a.inBytes t) marker = .ok (Stylewire.isMarked t a marker)
  injection : injection t (a.inBytes t) marker = .ok ((Stylewire.injection t a marker).inBytes t)
  apply : apply ((Stylewire.injection t a marker).inBytes t) t =
    .ok ((Stylewire.injection t a marker).apply t)

theorem listAnswers {t : Text} {start : Nat} {a : ArgumentList}
    (h : ArgumentList.readByte t start = .ok a) (marker : Text) : ListAnswers t a marker := by
  unfold ArgumentList.readByte at h
  split at h
  · rename_i a' hread
    obtain rfl := Except.ok.inj h
    obtain ⟨i, -, ha⟩ := Option.bind_eq_some_iff.1 hread
    obtain ⟨hs, ht⟩ := bounds_injection ha marker
    refine ⟨arguments_eq ha, objects_eq ha, ?_, isMarked_eq ha marker, injection_eq ha marker,
      apply_eq hs ht⟩
    rintro o (ho | ho)
    · exact body_eq ha ho
    · exact body_eq ha (mem_objects_of_options ha ho)
  · cases h

/-- **No cut ever fails.** A cut is made exactly if it lies in the text and its ends are boundaries,
and has the bytes in between. With such cuts only, brackets and argument lists are found at every
offset as they are in characters, an argument list that is read gives all its answers, the marker is
added to every object, and wiring a text has a result, which is valid UTF-8. -/
theorem wire_never_panics (w : Wiring) (source module : Text) :
    (∀ (t : Text) (i j : Nat), (∃ u, slice t i j = .ok u) ↔
      i ≤ j ∧ j ≤ t.byteSize ∧ t.isBoundary i = true ∧ t.isBoundary j = true) ∧
    (∀ (t u : Text) (i j : Nat), slice t i j = .ok u → u.bytes = (t.bytes.drop i).take (j - i)) ∧
    (∀ (t : Text) (i : Nat), matchBracket t i = all.closingByte? t i) ∧
    (∀ (t : Text) (start : Nat),
      parse t start = (ArgumentList.readByte t start).map (·.inBytes t)) ∧
    (∀ (t : Text) (start : Nat) (a : ArgumentList), ArgumentList.readByte t start = .ok a →
      ListAnswers t a w.marker.text) ∧
    (∀ body : Text, injectMarker body w.marker.text =
      .ok (Stylewire.injectMarker body w.marker.text)) ∧
    addImport? source module w.marker.text =
      .ok (Stylewire.addImport? source module w.marker.text) ∧
    wire w source module = .ok (w.wire source module) ∧
    (w.wire source module).code.bytes.toByteArray.IsValidUTF8 := by
  refine ⟨fun t i j => exists_slice_iff, fun t u i j => bytes_of_slice,
    fun t i => closing?_byteChars all t i, parse_eq, ?lists, ?objects, addImport?_eq _ _ _,
    wire_eq w source module, ?valid⟩
  case lists =>
    intro t start a ha
    exact listAnswers ha w.marker.text
  case objects =>
    intro body
    exact injectMarker_eq body w.marker.text
  case valid =>
    exact .intro (w.wire source module).code rfl

end Checked

end Stylewire
