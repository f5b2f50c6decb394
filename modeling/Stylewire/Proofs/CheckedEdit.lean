import Stylewire.Proofs.CheckedText
import Stylewire.Proofs.Injection

set_option autoImplicit false

/-! # Marking a call with checked cuts

Here a call is marked once more, with byte offsets in place of positions and with checked cuts only.
None of the checks fails: each function answers `ok`, with the result of the one that works on
characters, for every text and every argument list that can be read in it (`objects_eq`,
`isMarked_eq`, `injection_eq`, `apply_eq`), and `injectMarker_eq` holds of every text at all.
-/

namespace Stylewire

open Brackets Text

/-- The match with byte offsets in place of positions. -/
def Match.inBytes (m : Match) (t : Text) : Match := ⟨t.byteOffset m.start, t.byteOffset m.stop⟩

/-- The splice with byte offsets in place of positions. -/
def Splice.inBytes (s : Splice) (t : Text) : Splice :=
  ⟨t.byteOffset s.start, t.byteOffset s.stop, s.replacement⟩

namespace Checked

/-! ## Argument lists -/

/-- The offset of the bracket that closes the one at an offset. -/
def matchBracket (t : Text) (i : Nat) : Option Nat := all.closing? t.byteChars i

/-- The argument list of the call at an offset. -/
def parse (t : Text) (start : Nat) : Except Error ArgumentList :=
  match if t.isBoundary start then ArgumentList.read? t.byteChars start else none with
  | some a => .ok a
  | none => .error (.unclosedArguments start)

/-- The text between the parentheses. -/
def arguments (a : ArgumentList) (t : Text) : Except Panic Text :=
  slice t (a.opening + 1) a.closing

/-- The text of a span. -/
def body (o : BracketSpan) (t : Text) : Except Panic Text := slice t o.first (o.last + 1)

/-- The end of the object that starts at an offset, if an argument of the list starts there. -/
def objectAt? (t : Text) (closing index : Nat) (fresh : Bool) (c : Char) : Option Nat :=
  if fresh && !isAsciiBlank c && c == '{' then (matchBracket t index).filter (· < closing)
  else none

theorem lt_of_objectAt? {t : Text} {closing index last : Nat} {fresh : Bool} {c : Char}
    (h : objectAt? t closing index fresh c = some last) : index < last ∧ last < closing := by
  unfold objectAt? at h
  split at h
  · obtain ⟨hclose, hlt⟩ := Option.filter_eq_some_iff.1 h
    obtain ⟨p, o, x, e, r, -, hindex, hlast, -, -, -⟩ := closing?_eq_some_iff.1 hclose
    exact ⟨by omega, of_decide_eq_true hlt⟩
  · cases h

/-- The objects among the arguments from an offset on. -/
def objectsFrom (t : Text) (closing index : Nat) (depth : Int) (fresh : Bool) :
    Except Panic (List BracketSpan) :=
  if _ : index < closing then do
    let c ← byte t index
    match _ : objectAt? t closing index fresh c with
    | some last =>
        let rest ← objectsFrom t closing (last + 1) depth false
        return ⟨index, last⟩ :: rest
    | none =>
        let depth := depth + all.weight c
        if c = ',' ∧ depth = 0 then objectsFrom t closing (index + 1) depth true
        else objectsFrom t closing (index + 1) depth (fresh && isAsciiBlank c)
  else .ok []
termination_by closing - index
decreasing_by
  · have := lt_of_objectAt? ‹_›
    omega
  · omega
  · omega

/-- The arguments that are objects, in order. -/
def objects (a : ArgumentList) (t : Text) : Except Panic (List BracketSpan) :=
  objectsFrom t a.closing (a.opening + 1) 0 true

/-- The offset behind a character of one byte. -/
theorem byteOffset_succ {t : Text} {i : Nat} {c : Char} (h : t[i]? = some c)
    (hc : isAscii c = true) : t.byteOffset (i + 1) = t.byteOffset i + 1 := by
  obtain ⟨hi, rfl⟩ := List.getElem?_eq_some_iff.1 h
  rw [byteOffset_eq, List.take_succ_eq_append_getElem hi, byteSize_append, byteSize_ascii hc,
    byteSize, byteOffset_eq]

/-- The offset behind a part of a text. -/
theorem byteOffset_add {t u q : Text} {i : Nat} (hi : i ≤ t.length) (h : t.drop i = u ++ q) :
    t.byteOffset (i + u.length) = t.byteOffset i + u.byteSize := by
  obtain ⟨p, v, rfl, rfl⟩ := exists_cut hi
  rw [List.drop_left] at h
  rw [h, byteOffset_append_append, byteOffset_append]

/-- A bracket and the one that closes it: their order, and the offsets behind them. -/
theorem offsets_of_closing? {t : Text} {i j : Nat} (h : all.closing? t i = some j) :
    i < j ∧ j < t.length ∧ t.byteOffset (i + 1) = t.byteOffset i + 1 ∧
      t.byteOffset (j + 1) = t.byteOffset j + 1 := by
  obtain ⟨p, o, x, c, r, rfl, rfl, rfl, ho, -, hc⟩ := closing?_eq_some_iff.1 h
  have hlast : (p ++ o :: (x ++ c :: r))[p.length + 1 + x.length]? = some c := by
    have hcut : p ++ o :: (x ++ c :: r) = (p ++ o :: x) ++ c :: r := by simp
    have hlen : p.length + 1 + x.length = (p ++ o :: x).length := by
      simp only [List.length_append, List.length_cons]
      omega
    rw [hcut, hlen]
    simp
  refine ⟨by omega, ?_, byteOffset_succ (by simp) (isAscii_of_isOpening ho),
    byteOffset_succ hlast (isAscii_of_isClosing hc)⟩
  simp only [List.length_append, List.length_cons]
  omega

theorem matchBracket_byteOffset {t : Text} {i : Nat} (hi : i ≤ t.length) :
    matchBracket t (t.byteOffset i) = (all.closing? t i).map t.byteOffset := by
  rw [matchBracket, closing?_byteChars, closingByte?, position?_byteOffset t i hi]
  show (all.closing? t i).bind (fun j => some (t.byteOffset j)) = _
  cases all.closing? t i with
  | none => rfl
  | some j => rfl

/-- **The argument list at any offset**, also one that is no boundary. -/
theorem parse_eq (t : Text) (start : Nat) :
    parse t start = (ArgumentList.readByte t start).map (·.inBytes t) := by
  unfold parse ArgumentList.readByte
  cases hpos : t.position? start with
  | none =>
      have hno : ¬ t.isBoundary start = true := by
        intro h
        obtain ⟨i, hi, rfl⟩ := isBoundary_iff.1 h
        rw [position?_byteOffset t i hi] at hpos
        cases hpos
      rw [if_neg hno]
      rfl
  | some i =>
      obtain ⟨hi, rfl⟩ := byteOffset_of_position? hpos
      rw [if_pos (isBoundary_iff.2 ⟨i, hi, rfl⟩), ArgumentList.read?_byteChars hi,
        Option.bind_some]
      cases ArgumentList.read? t i <;> rfl

/-! ## The objects of a list -/

theorem slice_eq_cons {t : Text} {i j : Nat} {c : Char} (h : t[i]? = some c) (hij : i < j) :
    t.slice i j = c :: t.slice (i + 1) j := by
  obtain ⟨hi, rfl⟩ := List.getElem?_eq_some_iff.1 h
  rw [Text.slice, Text.slice, List.drop_eq_getElem_cons hi,
    show j - i = j - (i + 1) + 1 by omega, List.take_succ_cons]

theorem slice_eq_append {t : Text} {i j k : Nat} (hij : i ≤ j) (hjk : j ≤ k) (hk : k ≤ t.length) :
    ∃ q, q.length = j - i ∧ t.slice i k = q ++ t.slice j k := by
  refine ⟨t.slice i j, ?_, ?_⟩
  · rw [Text.slice, List.length_take, List.length_drop]
    omega
  · rw [Text.slice, Text.slice, Text.slice, show k - i = (j - i) + (k - j) by omega, List.take_add,
      List.drop_drop, Nat.add_sub_cancel' hij]

/-- **The search reads no byte behind the text**, and finds what it finds in the characters for
the bytes. -/
theorem objectsFrom_eq {t : Text} {closing : Nat} (hclosing : closing ≤ t.byteSize) (index : Nat)
    (depth : Int) (fresh : Bool) :
    objectsFrom t closing index depth fresh = .ok (ArgumentList.objectsFrom t.byteChars closing 0
      index depth fresh (t.byteChars.slice index closing)) := by
  -- The search goes one byte on, or behind an object: both bring it nearer to the parenthesis.
  induction hn : closing - index using Nat.strongRecOn generalizing index depth fresh with
  | ind n ih =>
  rw [objectsFrom]
  by_cases hlt : index < closing
  · obtain ⟨c, hc⟩ : ∃ c, t.byteChars[index]? = some c := by
      refine ⟨_, List.getElem?_eq_getElem ?_⟩
      rw [length_byteChars]
      omega
    have hbyte : byte t index = .ok c := by rw [byte, hc]
    rw [dif_pos hlt, hbyte, ok_bind, slice_eq_cons hc hlt, ArgumentList.objectsFrom]
    simp only [ArgumentList.flag_and_not_seen]
    have hobject : objectAt? t closing index fresh c =
        if fresh && !isAsciiBlank c && c == '{' then
          (all.closing? t.byteChars index).filter (· < closing) else none := rfl
    rw [← hobject]
    split
    · rename_i last hlast
      obtain ⟨hindex, hle⟩ := lt_of_objectAt? hlast
      obtain ⟨q, hq, hcut⟩ := slice_eq_append (t := t.byteChars) (i := index + 1) (j := last + 1)
        (k := closing) (by omega) (by omega) (by rw [length_byteChars]; exact hclosing)
      -- Over the characters, the rest of an object is skipped one by one.
      have hskip : last - index = q.length := by omega
      have hnext : index + 1 + q.length = last + 1 := by omega
      rw [ih _ (by omega) (last + 1) depth false rfl, ok_bind, hlast]
      simp only [hskip, hcut, ArgumentList.objectsFrom_skip, hnext]
      rfl
    · rename_i hnone
      rw [hnone]
      dsimp only
      split
      · exact ih _ (by omega) (index + 1) _ true rfl
      · exact ih _ (by omega) (index + 1) _ _ rfl
  · have hnil : t.byteChars.slice index closing = [] := by
      rw [Text.slice, Nat.sub_eq_zero_of_le (by omega), List.take_zero]
    rw [dif_neg hlt, hnil, ArgumentList.objectsFrom]

section

variable {t : Text} {i : Nat} {a : ArgumentList} (ha : ArgumentList.read? t i = some a)
include ha

/-- The two brackets of a list that is read belong together. -/
theorem closing?_of_read? : all.closing? t a.opening = some a.closing := by
  obtain ⟨p, s, h, x, c, r, rfl, rfl, hs, hopening, hclosing⟩ :=
    ArgumentList.exists_calls_of_read? ha
  refine closing?_eq_some_iff.2 ⟨p ++ h, '(', x, c, r, ?_, ?_, ?_, by decide, hs.balanced,
    hs.closing⟩
  · rw [hs.eq, List.append_assoc]
  · rw [hopening, List.length_append]
  · rw [hclosing, hopening]

/-- The options object is one of the objects. -/
theorem mem_objects_of_options {o : BracketSpan} (ho : a.options = some o) : o ∈ a.objects t := by
  obtain ⟨p, s, h, x, c, r, rfl, rfl, hs, hopening, hclosing⟩ :=
    ArgumentList.exists_calls_of_read? ha
  obtain ⟨options, hread, hoptions⟩ := ArgumentList.read?_of_calls p hs
  rw [ha] at hread
  rw [Option.some.inj hread] at ho
  obtain ⟨y, b, e, z, hobj, -, rfl⟩ := (hoptions o).1 ho
  exact (ArgumentList.mem_objects_iff p hs hopening hclosing).2 ⟨y, b, e, z, hobj, rfl⟩

theorem closing?_of_mem_objects {o : BracketSpan} (ho : o ∈ a.objects t) :
    all.closing? t o.first = some o.last := by
  obtain ⟨p, s, h, x, c, r, rfl, rfl, hs, hopening, hclosing⟩ :=
    ArgumentList.exists_calls_of_read? ha
  obtain ⟨y, b, e, z, hobj, rfl⟩ := (ArgumentList.mem_objects_iff p hs hopening hclosing).1 ho
  refine closing?_eq_some_iff.2 ⟨p ++ (h ++ '(' :: y), '{', b, e, z ++ c :: r, ?_, ?_, rfl,
    by decide, hobj.balanced, hobj.closing⟩
  · rw [hs.eq, hobj.eq]
    simp
  · simp only [objectSpan, List.length_append, List.length_cons]
    omega

theorem arguments_eq : arguments (a.inBytes t) t = .ok (a.arguments t) := by
  obtain ⟨hlt, hle, hnext, -⟩ := offsets_of_closing? (closing?_of_read? ha)
  show slice t (t.byteOffset a.opening + 1) (t.byteOffset a.closing) = _
  rw [← hnext]
  exact slice_byteOffset hlt (Nat.le_of_lt hle)

theorem body_eq {o : BracketSpan} (ho : o ∈ a.objects t) :
    body (o.inBytes t) t = .ok (o.body t) := by
  obtain ⟨hlt, hle, -, hnext⟩ := offsets_of_closing? (closing?_of_mem_objects ha ho)
  show slice t (t.byteOffset o.first) (t.byteOffset o.last + 1) = _
  rw [← hnext]
  exact slice_byteOffset (by omega) hle

/-- **The objects of a list that is read.** -/
theorem objects_eq : objects (a.inBytes t) t = .ok ((a.objects t).map (·.inBytes t)) := by
  obtain ⟨-, hle, -, -⟩ := offsets_of_closing? (closing?_of_read? ha)
  have hclosing : (a.inBytes t).closing ≤ t.byteSize := byteOffset_le_byteSize (Nat.le_of_lt hle)
  rw [← ArgumentList.objects_byteChars ha, objects, objectsFrom_eq hclosing]
  rfl

end

/-! ## The marker in an object -/

/-- Whether a key is one of the object itself, and no tail of an identifier. -/
def isOwnKey (body : Text) (m : Match) : Except Panic Bool := do
  if ← clearBefore body m.start then return (← depthAt body m.start) == 1 else return false

/-- The offsets of the braces that open the assign blocks of an object itself. -/
def assignBlocks (body : Text) : Except Panic (List Nat) := do
  (← ((assignKey.findAll body).map (·.inBytes body)).filterM (isOwnKey body)).mapM
    fun m => sub m.stop 1

/-- Whether a word of the given size at an offset is a token of its own. -/
def isToken (t : Text) (size i : Nat) : Except Panic Bool := do
  let before ← clearBefore t i
  let after ← clearAfter t (i + size)
  return before && after

/-- The offsets where a word stands as a token of its own. -/
def tokenStarts (t w : Text) : Except Panic (List Nat) :=
  (((word w).findAll t).map fun m => t.byteOffset m.start).filterM (isToken t w.byteSize)

/-- Whether a word stands somewhere as a token of its own. -/
def containsToken (t w : Text) : Except Panic Bool := do
  return !(← tokenStarts t w).isEmpty

/-- Whether the marker stands in the block as a token of its own, at depth one. -/
def hasDirectEntry (block marker : Text) : Except Panic Bool := do
  (← tokenStarts block marker).anyM fun i => return (← depthAt block i) == 1

/-- Whether an assign block of the object itself lists the marker directly. -/
def assignsMarker (body marker : Text) : Except Panic Bool := do
  (← assignBlocks body).anyM fun first =>
    match matchBracket body first with
    | some last => do hasDirectEntry (← slice body first (last + 1)) marker
    | none => return false

/-- Whether one of the call's object arguments lists the marker in an assign block. -/
def isMarked (t : Text) (a : ArgumentList) (marker : Text) : Except Panic Bool := do
  (← objects a t).anyM fun o => do assignsMarker (← body o t) marker

/-- The keys that are found: the text before the key, the key itself and its brace. -/
theorem exists_of_mem_findAll_assignKey {body : Text} {m : Match}
    (hm : m ∈ assignKey.findAll body) :
    ∃ u k r : Text, body = u ++ (k ++ '{' :: r) ∧ m = ⟨u.length, u.length + k.length + 1⟩ := by
  obtain ⟨u, v, n, rfl, rfl, hn⟩ := Recognizer.exists_of_mem_findFrom hm
  obtain ⟨k, r, -, rfl, rfl⟩ := assignKey_eq_some_iff.1 hn
  exact ⟨u, k, r, rfl, by simp only [Nat.zero_add, Nat.add_assoc]⟩

theorem isOwnKey_eq {body : Text} {m : Match} (hm : m.start ≤ body.length) :
    isOwnKey body (m.inBytes body) =
      .ok (body.clearBefore m.start && all.depth (body.take m.start) == 1) := by
  simp only [isOwnKey, Match.inBytes, clearBefore_byteOffset hm, depthAt_byteOffset hm, ok_bind]
  cases body.clearBefore m.start <;> rfl

theorem assignBlocks_eq (body : Text) :
    assignBlocks body = .ok ((Stylewire.assignBlocks body).map body.byteOffset) := by
  rw [assignBlocks, filterM_map_eq fun m hm => isOwnKey_eq ?_, ok_bind, Stylewire.assignBlocks,
    List.map_map]
  · refine mapM_map_eq fun m hm => ?_
    obtain ⟨u, k, r, heq, rfl⟩ := exists_of_mem_findAll_assignKey (List.mem_filter.1 hm).1
    have hbrace : body[u.length + k.length]? = some '{' := by
      rw [heq, ← List.append_assoc, ← List.length_append]
      simp
    have hnext := byteOffset_succ hbrace (by decide)
    simp only [Match.inBytes, hnext, sub_eq (Nat.le_add_left 1 _), Nat.add_sub_cancel]
    rfl
  · obtain ⟨u, k, r, rfl, rfl⟩ := exists_of_mem_findAll_assignKey hm
    simp

theorem tokenStarts_eq (t w : Text) :
    tokenStarts t w = .ok ((t.tokenStarts w).map t.byteOffset) := by
  have htoken : ∀ m ∈ (word w).findAll t, isToken t w.byteSize (t.byteOffset m.start) =
      .ok (t.clearBefore m.start && t.clearAfter (m.start + w.length)) := by
    intro m hm
    obtain ⟨u, v, n, rfl, rfl, hn⟩ := Recognizer.exists_of_mem_findFrom hm
    obtain ⟨r, rfl, rfl⟩ := word_eq_some_iff.1 hn
    have hstop : byteOffset (u ++ (w ++ r)) u.length + w.byteSize =
        byteOffset (u ++ (w ++ r)) (u.length + w.length) := by
      rw [byteOffset_append, byteOffset_append_append]
    simp only [Nat.zero_add, isToken, hstop]
    rw [clearBefore_byteOffset (by simp), ok_bind, clearAfter_byteOffset (by simp), ok_bind]
    rfl
  rw [tokenStarts, filterM_map_eq htoken, Text.tokenStarts, List.filter_map, List.map_map]
  rfl

theorem hasDirectEntry_eq (block marker : Text) :
    hasDirectEntry block marker = .ok (Stylewire.hasDirectEntry block marker) := by
  rw [hasDirectEntry, tokenStarts_eq, ok_bind]
  refine anyM_map_eq fun i hi => ?_
  have hle : i ≤ block.length := by
    obtain ⟨hi, -⟩ := List.mem_filter.1 hi
    obtain ⟨m, hm, rfl⟩ := List.mem_map.1 hi
    obtain ⟨u, v, n, rfl, rfl, -⟩ := Recognizer.exists_of_mem_findFrom hm
    simp
  rw [depthAt_byteOffset hle, ok_bind]
  rfl

theorem le_length_of_mem_assignBlocks {body : Text} {i : Nat}
    (hi : i ∈ Stylewire.assignBlocks body) : i ≤ body.length := by
  obtain ⟨u, k, v, rfl, -, -, -, rfl⟩ := mem_assignBlocks.1 hi
  simp only [List.length_append, List.length_cons]
  omega

theorem assignsMarker_eq (body marker : Text) :
    assignsMarker body marker = .ok (Stylewire.assignsMarker body marker) := by
  rw [assignsMarker, assignBlocks_eq, ok_bind]
  refine anyM_map_eq fun first hfirst => ?_
  rw [matchBracket_byteOffset (le_length_of_mem_assignBlocks hfirst)]
  cases hclose : all.closing? body first with
  | none => rfl
  | some last =>
      obtain ⟨hlt, hle, -, hnext⟩ := offsets_of_closing? hclose
      show (slice body (body.byteOffset first) (body.byteOffset last + 1) >>= _) = _
      rw [← hnext, slice_byteOffset (by omega) hle, ok_bind, hasDirectEntry_eq]

/-- **Whether a call is marked** is found without a failing check. -/
theorem isMarked_eq {t : Text} {i : Nat} {a : ArgumentList}
    (ha : ArgumentList.read? t i = some a) (marker : Text) :
    isMarked t (a.inBytes t) marker = .ok (Stylewire.isMarked t a marker) := by
  rw [isMarked, objects_eq ha, ok_bind]
  refine anyM_map_eq fun o ho => ?_
  rw [body_eq ha ho, ok_bind, assignsMarker_eq]

/-! ## Adding the marker -/

/-- The offset of the first byte of the given kind. -/
def find? (t : Text) (c : Char) : Option Nat :=
  if c ∈ t.byteChars then some (t.byteChars.takeWhile (· != c)).length else none

/-- The offset of the last byte of the given kind. -/
def rfind? (t : Text) (c : Char) : Option Nat :=
  if c ∈ t.byteChars then
    some (t.byteSize - (t.byteChars.reverse.takeWhile (· != c)).length - 1)
  else none

/-- Adds a new assign block before the last closing brace of an object. -/
def appendAssign (body marker : Text) : Except Panic Text :=
  match rfind? body '}' with
  | none => return body
  | some closing =>
      if closing = 0 then return body
      else do
        let before := Text.trimEnd (← slice body 0 closing)
        let separator := if 1 < before.byteSize && !before.endsWith ',' then [',', ' '] else [' ']
        let tail ← slice body (closing + 1) body.byteSize
        return before ++ separator ++ assignClause marker ++ [' ', '}'] ++ tail

/-- Adds the marker to the first assign block of an object, or a new assign block. -/
def injectMarker (body marker : Text) : Except Panic Text := do
  match (← assignBlocks body).head? with
  | none => appendAssign body marker
  | some first =>
      match matchBracket body first with
      | none => appendAssign body marker
      | some last =>
          let inner := Text.trim (← slice body (first + 1) last)
          let separator := if inner.isEmpty || inner.endsWith ',' then [] else [',', ' ']
          let before ← slice body 0 (first + 1)
          let behind ← slice body last body.byteSize
          return before ++ [' '] ++ inner ++ separator ++ marker ++ [' '] ++ behind

/-- The splice that adds the marker to a call. -/
def injection (t : Text) (a : ArgumentList) (marker : Text) : Except Panic Splice :=
  match a.options with
  | some o => do return ⟨o.first, o.last + 1, ← injectMarker (← body o t) marker⟩
  | none => do
      let content := Text.trimEnd (← arguments a t)
      if content.trimStart.isEmpty then return ⟨a.opening + 1, a.closing, newOptions marker⟩
      else
        let place := a.opening + 1 + content.byteSize
        let separator := if content.endsWith ',' then [' '] else [',', ' ']
        return ⟨place, place, separator ++ newOptions marker⟩

/-- The text with the stretch replaced. The size of the new text is computed first. -/
def apply (s : Splice) (t : Text) : Except Panic Text := do
  let _ ← sub t.byteSize (← sub s.stop s.start)
  let before ← slice t 0 s.start
  let behind ← slice t s.stop t.byteSize
  return before ++ (s.replacement ++ behind)

section

variable {c : Char} (hc : isAscii c = true)
include hc

theorem find?_eq (t : Text) :
    find? t c = if c ∈ t then some (byteSize (t.takeWhile (· != c))) else none := by
  by_cases hmem : c ∈ t
  · obtain ⟨p, q, rfl, hp⟩ := List.eq_append_cons_of_mem hmem
    rw [find?, if_pos ((mem_byteChars_iff hc).2 hmem), if_pos hmem, Text.takeWhile_ne hp,
      byteChars_append, byteChars_ascii hc, Text.takeWhile_ne (mt (mem_byteChars_iff hc).1 hp),
      length_byteChars]
  · rw [find?, if_neg (mt (mem_byteChars_iff hc).1 hmem), if_neg hmem]

theorem rfind?_eq_none {t : Text} (h : c ∉ t) : rfind? t c = none :=
  if_neg (mt (mem_byteChars_iff hc).1 h)

theorem rfind?_append (p : Text) {q : Text} (hq : c ∉ q) :
    rfind? (p ++ c :: q) c = some p.byteSize := by
  have hmem : c ∈ (p ++ c :: q).byteChars := (mem_byteChars_iff hc).2 (by simp)
  have hrev : (p ++ c :: q).byteChars.reverse =
      q.byteChars.reverse ++ c :: p.byteChars.reverse := by
    rw [byteChars_append, byteChars_ascii hc]
    simp
  have hq' : c ∉ q.byteChars.reverse :=
    fun h => hq ((mem_byteChars_iff hc).1 (List.mem_reverse.1 h))
  rw [rfind?, if_pos hmem, hrev, Text.takeWhile_ne hq', List.length_reverse, length_byteChars,
    byteSize_append, byteSize_ascii hc]
  congr 1
  omega

end

theorem appendAssign_eq (body marker : Text) :
    appendAssign body marker = .ok (Stylewire.appendAssign body marker) := by
  unfold appendAssign
  by_cases hmem : '}' ∈ body
  · obtain ⟨g, f, rfl, hf⟩ := Text.exists_last hmem
    rw [rfind?_append (by decide) g hf]
    by_cases hg : g = []
    · subst hg
      rw [List.nil_append, appendAssign_head marker hf]
      rfl
    · have hsize : g.byteSize ≠ 0 := by
        obtain ⟨c, g, rfl⟩ := List.exists_cons_of_ne_nil hg
        have := Char.utf8Size_pos c
        rw [byteSize]
        omega
      have hle : g.length ≤ (g ++ '}' :: f).length := by simp
      have hbefore := slice_take hle
      have htail : slice (g ++ '}' :: f) (g.byteSize + 1) (g ++ '}' :: f).byteSize = .ok f := by
        have hnext : byteOffset (g ++ '}' :: f) (g.length + 1) = g.byteSize + 1 := by
          rw [byteOffset_succ (c := '}') (by simp) (by decide), byteOffset_append]
        have hdrop := slice_drop (t := g ++ '}' :: f) (i := g.length + 1) (by simp)
        rw [hnext] at hdrop
        rw [hdrop]
        simp
      rw [byteOffset_append, List.take_left] at hbefore
      simp only [if_neg hsize, hbefore, ok_bind, htail, appendAssign_brace marker hg hf,
        clauseSeparator, List.append_assoc, List.cons_append, List.nil_append]
      rfl
  · rw [rfind?_eq_none (by decide) hmem, Stylewire.appendAssign, if_neg hmem]
    rfl

/-- **The marker is added to any text** without a failing check. -/
theorem injectMarker_eq (body marker : Text) :
    injectMarker body marker = .ok (Stylewire.injectMarker body marker) := by
  rw [injectMarker, assignBlocks_eq, ok_bind, List.head?_map, Stylewire.injectMarker]
  cases hfirst : (Stylewire.assignBlocks body).head? with
  | none => exact appendAssign_eq body marker
  | some first =>
      have hle := le_length_of_mem_assignBlocks (List.mem_of_mem_head? hfirst)
      simp only [Option.map_some, matchBracket_byteOffset hle]
      cases hclose : all.closing? body first with
      | none => exact appendAssign_eq body marker
      | some last =>
          obtain ⟨hlt, hlast, hnext, -⟩ := offsets_of_closing? hclose
          simp only [Option.map_some, ← hnext, slice_byteOffset hlt (Nat.le_of_lt hlast),
            slice_take (Nat.le_trans hlt (Nat.le_of_lt hlast)), slice_drop (Nat.le_of_lt hlast),
            ok_bind]
          rfl

section

variable {t : Text} {i : Nat} {a : ArgumentList} (ha : ArgumentList.read? t i = some a)
include ha

/-- The splice of a call that is read lies between its parentheses. -/
theorem bounds_injection (marker : Text) :
    (Stylewire.injection t a marker).start ≤ (Stylewire.injection t a marker).stop ∧
      (Stylewire.injection t a marker).stop ≤ t.length := by
  obtain ⟨hlt, hle, -, -⟩ := offsets_of_closing? (closing?_of_read? ha)
  unfold Stylewire.injection
  cases ho : a.options with
  | some o =>
      obtain ⟨hlt, hle, -, -⟩ :=
        offsets_of_closing? (closing?_of_mem_objects ha (mem_objects_of_options ha ho))
      dsimp only
      omega
  | none =>
      obtain ⟨b, hb, -⟩ := trimEnd_spec (a.arguments t)
      have hlen := congrArg List.length hb
      have hargs : (a.arguments t).length = a.closing - (a.opening + 1) := by
        rw [ArgumentList.arguments, Text.slice, List.length_take, List.length_drop]
        omega
      rw [List.length_append, hargs] at hlen
      dsimp only
      split
      · dsimp only
        omega
      · dsimp only
        omega

/-- **The splice that marks a call** is planned without a failing check. -/
theorem injection_eq (marker : Text) :
    injection t (a.inBytes t) marker = .ok ((Stylewire.injection t a marker).inBytes t) := by
  unfold injection Stylewire.injection
  cases ho : a.options with
  | some o =>
      have hmem := mem_objects_of_options ha ho
      obtain ⟨-, -, -, hnext⟩ := offsets_of_closing? (closing?_of_mem_objects ha hmem)
      simp only [ArgumentList.inBytes, ho, Option.map_some, body_eq ha hmem, ok_bind,
        injectMarker_eq, Splice.inBytes, hnext]
      rfl
  | none =>
      obtain ⟨hlt, hle, hnext, -⟩ := offsets_of_closing? (closing?_of_read? ha)
      obtain ⟨b, hb, -⟩ := trimEnd_spec (a.arguments t)
      have hdrop : t.drop (a.opening + 1) = (a.arguments t).trimEnd ++
          (b ++ (t.drop (a.opening + 1)).drop (a.closing - (a.opening + 1))) := by
        rw [← List.append_assoc, ← hb, ArgumentList.arguments, Text.slice, List.take_append_drop]
      have hplace := byteOffset_add (Nat.le_trans hlt (Nat.le_of_lt hle)) hdrop
      have hargs := arguments_eq ha
      simp only [ArgumentList.inBytes, ho, Option.map_none] at hargs ⊢
      rw [hargs, ok_bind]
      by_cases hempty : (a.arguments t).trimEnd.trimStart.isEmpty = true
      · simp only [if_pos hempty, Splice.inBytes, hnext]
        rfl
      · simp only [if_neg hempty, Splice.inBytes, hplace, hnext]
        rfl

end

/-- **A splice whose stretch lies in the text** is made without a failing check. -/
theorem apply_eq {s : Splice} {t : Text} (hs : s.start ≤ s.stop) (ht : s.stop ≤ t.length) :
    apply (s.inBytes t) t = .ok (s.apply t) := by
  have hle := byteOffset_le hs ht
  have hsize := byteOffset_le_byteSize ht
  have hspan : t.byteOffset s.stop - t.byteOffset s.start ≤ t.byteSize := by omega
  simp only [apply, Splice.inBytes, sub_eq hle, sub_eq hspan, ok_bind,
    slice_take (Nat.le_trans hs ht), slice_drop ht]
  rfl

end Checked

end Stylewire
