import Stylewire.Proofs.CheckedText
import Stylewire.Proofs.ShiftedSites
import Stylewire.Proofs.SingleEntry

set_option autoImplicit false

/-! # Words at byte offsets

A word occurs at a byte offset of a text if its bytes stand there (`Text.OccursAt`). This says
nothing of characters, yet a word with at least one character never occurs inside of one, and what
stands there is the word itself (`Text.occursAt_iff`). With it, the two searches for identifiers
are told by bytes alone:

* `callOffsets_exact`: the call sites of a name are all the offsets at which the name occurs,
  followed by blanks and a parenthesis, with no identifier byte before it;
* `assignsMarker_exact`: an object lists a marker in an assign block exactly if the marker occurs
  as a token of its own, one level deep, between the braces that follow such an `assign`.

Both searches look for matches that do not overlap and drop some of them afterwards. The statements
say that none is missed for it.
-/

namespace Stylewire

open Brackets

namespace Text

/-! ## Occurrences -/

/-- The bytes of the word stand at the offset. -/
def OccursAt (t w : Text) (n : Nat) : Prop := w.bytes <+: t.bytes.drop n

/-- Whether the byte at the offset is an ASCII letter or digit, `_` or `$`. -/
def identByteAt (t : Text) (n : Nat) : Bool := t.byteChars[n]?.any isIdentChar

theorem bytes_append (t u : Text) : bytes (t ++ u) = bytes t ++ bytes u :=
  List.flatMap_append

theorem occursAt_append (u w v : Text) : OccursAt (u ++ (w ++ v)) w u.byteSize := by
  rw [OccursAt, bytes_append, ← length_bytes, List.drop_left, bytes_append]
  exact List.prefix_append _ _

/-- The bytes of a word are the first of a text only if the word is. -/
theorem isPrefix_of_bytes {w t : Text} (h : w.bytes <+: t.bytes) : w <+: t := by
  obtain ⟨r, hr⟩ := h
  refine List.isPrefix_of_utf8Encode_append_eq_utf8Encode (b := r.toByteArray) ?_
  show w.bytes.toByteArray ++ r.toByteArray = t.bytes.toByteArray
  rw [← hr, List.toByteArray_append]

/-- A byte that starts a character stands at a boundary. -/
theorem isBoundary_of_occursAt {t w : Text} (hw : w ≠ []) {n : Nat} (h : t.OccursAt w n) :
    t.isBoundary n = true := by
  obtain ⟨c, w, rfl⟩ := List.exists_cons_of_ne_nil hw
  obtain ⟨r, hr⟩ := h
  have hpos : 0 < (String.utf8EncodeChar c).length := by
    rw [String.length_utf8EncodeChar]
    exact Char.utf8Size_pos c
  have hget : t.bytes[n]? = (String.utf8EncodeChar c)[0]? := by
    calc t.bytes[n]? = (t.bytes.drop n)[0]? := by rw [List.getElem?_drop, Nat.add_zero]
      _ = (String.utf8EncodeChar c ++ (bytes w ++ r))[0]? := by
          rw [← hr, bytes, List.flatMap_cons, List.append_assoc]
          rfl
      _ = (String.utf8EncodeChar c)[0]? := List.getElem?_append_left hpos
  rw [isBoundary, hget, startsChar_encode]
  simp

/-- **A word that occurs in the bytes of a text** stands among its characters. -/
theorem occursAt_iff {t w : Text} (hw : w ≠ []) {n : Nat} :
    t.OccursAt w n ↔ ∃ u v, t = u ++ (w ++ v) ∧ n = u.byteSize := by
  constructor
  · intro h
    obtain ⟨i, hi, rfl⟩ := isBoundary_iff.1 (isBoundary_of_occursAt hw h)
    obtain ⟨u, s, rfl, rfl⟩ := exists_cut hi
    rw [byteOffset_append] at h ⊢
    rw [OccursAt, bytes_append, ← length_bytes, List.drop_left] at h
    obtain ⟨v, rfl⟩ := isPrefix_of_bytes h
    exact ⟨u, v, rfl, rfl⟩
  · rintro ⟨u, v, rfl, rfl⟩
    exact occursAt_append u w v

/-- The byte before a cut goes on an identifier exactly if the character before it does. -/
theorem identByteAt_before (u v : Text) :
    (u.byteSize = 0 ∨ (u ++ v).identByteAt (u.byteSize - 1) = false) ↔
      isClear u.getLast? = true := by
  rw [← Checked.isClear_getLast?_byteChars, ← length_byteChars, identByteAt, byteChars_append]
  rcases List.eq_nil_or_concat u.byteChars with hnil | ⟨w, d, hd⟩
  · rw [hnil]
    exact iff_of_true (Or.inl rfl) rfl
  · rw [List.concat_eq_append] at hd
    rw [hd, List.length_append, List.length_singleton, Nat.add_sub_cancel, List.append_assoc,
      List.getElem?_append_right (Nat.le_refl _), List.getLast?_concat]
    simp [isClear]

/-- The byte behind a word goes on an identifier exactly if the character behind it does. -/
theorem identByteAt_behind (u w v : Text) :
    (u ++ (w ++ v)).identByteAt (u.byteSize + w.byteSize) = false ↔ isClear v.head? = true := by
  rw [← List.append_assoc, ← byteSize_append, ← Checked.isClear_head?_byteChars,
    ← length_byteChars, identByteAt, byteChars_append, List.getElem?_append_right (Nat.le_refl _),
    Nat.sub_self, ← List.head?_eq_getElem?]
  cases v.byteChars.head? <;> simp [isClear]

/-- The depth of the bytes before a cut. -/
theorem depth_take_byteChars (s : Brackets) (u v : Text) :
    s.depth ((u ++ v).byteChars.take u.byteSize) = s.depth u := by
  rw [byteChars_append, ← length_byteChars, List.take_left, depth_byteChars]

/-- The depth of the bytes between two cuts. -/
theorem depth_slice_byteChars (s : Brackets) (p u q : Text) :
    s.depth ((p ++ (u ++ q)).byteChars.slice p.byteSize (p.byteSize + u.byteSize)) =
      s.depth u := by
  rw [slice, Nat.add_sub_cancel_left, byteChars_append, byteChars_append, ← length_byteChars p,
    List.drop_left, ← length_byteChars u, List.take_left, depth_byteChars]

/-- Every character has at least one byte. -/
theorem byteSize_pos {t : Text} (ht : t ≠ []) : 0 < t.byteSize := by
  obtain ⟨c, t, rfl⟩ := List.exists_cons_of_ne_nil ht
  have := Char.utf8Size_pos c
  rw [byteSize]
  omega

end Text

/-- **The closing bracket by byte offsets**: it stands behind the balanced text after the opening
one. -/
theorem closingByte?_eq_some_iff {s : Brackets} {t : Text} {n m : Nat} :
    s.closingByte? t n = some m ↔
      ∃ (p : Text) (o : Char) (x : Text) (c : Char) (r : Text), t = p ++ o :: (x ++ c :: r) ∧
        n = p.byteSize ∧ m = n + 1 + x.byteSize ∧ s.isOpening o = true ∧ s.Balanced x ∧
        s.isClosing c = true := by
  unfold closingByte?
  simp only [Option.bind_eq_bind, Option.bind_eq_some_iff, Option.pure_def, Option.some.injEq]
  constructor
  · rintro ⟨i, hi, j, hj, rfl⟩
    obtain ⟨-, rfl⟩ := Text.byteOffset_of_position? hi
    obtain ⟨p, o, x, c, r, rfl, rfl, rfl, ho, hx, hc⟩ := closing?_eq_some_iff.1 hj
    rw [Text.byteOffset_append, Text.byteOffset_append_cons (isAscii_of_isOpening ho)]
    exact ⟨p, o, x, c, r, rfl, rfl, rfl, ho, hx, hc⟩
  · rintro ⟨p, o, x, c, r, rfl, rfl, rfl, ho, hx, hc⟩
    have hpos := Text.position?_byteOffset (p ++ o :: (x ++ c :: r)) p.length (by simp)
    rw [Text.byteOffset_append] at hpos
    refine ⟨p.length, hpos, p.length + 1 + x.length, ?_, ?_⟩
    · exact closing?_eq_some_iff.2 ⟨p, o, x, c, r, rfl, rfl, rfl, ho, hx, hc⟩
    · exact Text.byteOffset_append_cons (isAscii_of_isOpening ho) p x (c :: r)

/-- The bracket that closes the one at a cut. -/
theorem closingByte?_append_iff {s : Brackets} {p k : Text} {o : Char} (ho : s.isOpening o = true)
    {m : Nat} :
    s.closingByte? (p ++ o :: k) p.byteSize = some m ↔
      ∃ (x : Text) (c : Char) (r : Text), k = x ++ c :: r ∧ m = p.byteSize + 1 + x.byteSize ∧
        s.Balanced x ∧ s.isClosing c = true := by
  rw [closingByte?_eq_some_iff]
  constructor
  · rintro ⟨p', o', x, c, r, heq, hp, rfl, -, hx, hc⟩
    obtain rfl := Text.eq_of_byteSize_eq heq hp
    obtain ⟨-, rfl⟩ := List.cons.inj (List.append_cancel_left heq)
    exact ⟨x, c, r, rfl, rfl, hx, hc⟩
  · rintro ⟨x, c, r, rfl, rfl, hx, hc⟩
    exact ⟨p, o, x, c, r, rfl, rfl, rfl, ho, hx, hc⟩

/-! ## Call sites -/

/-- A **call** of the name stands at the byte offset: the name, any number of blanks and a
parenthesis, and the name is not the tail of a longer identifier. -/
structure CallAt (name : Identifier) (t : Text) (n : Nat) : Prop where
  head : ∃ b : Text, (∀ c ∈ b, isBlank c = true) ∧ t.OccursAt (name.text ++ (b ++ ['('])) n
  clear : n = 0 ∨ t.identByteAt (n - 1) = false

/-- A call, told by characters. -/
theorem callAt_iff {name : Identifier} {t : Text} {n : Nat} :
    CallAt name t n ↔ ∃ u v, t = u ++ v ∧ n = u.byteSize ∧ isCall name u.getLast? v = true := by
  constructor
  · rintro ⟨⟨b, hb, hocc⟩, hclear⟩
    obtain ⟨u, v, rfl, rfl⟩ := (Text.occursAt_iff (by simp)).1 hocc
    refine ⟨u, _, rfl, rfl, isCall_iff.2 ⟨(Text.identByteAt_before u _).1 hclear, ?_⟩⟩
    exact ⟨name.text ++ b, v, ⟨b, rfl, hb⟩, by simp⟩
  · rintro ⟨u, v, rfl, rfl, hcall⟩
    obtain ⟨hclear, h, k, ⟨b, rfl, hb⟩, rfl⟩ := isCall_iff.1 hcall
    refine ⟨⟨b, hb, (Text.occursAt_iff (by simp)).2 ⟨u, k, by simp, rfl⟩⟩, ?_⟩
    exact (Text.identByteAt_before u _).2 hclear

theorem mem_callOffsets_iff {name : Identifier} {t : Text} {n : Nat} :
    n ∈ callOffsets name t ↔ CallAt name t n := by
  rw [callAt_iff, callOffsets, callSites_eq, List.mem_map]
  constructor
  · rintro ⟨i, hi, rfl⟩
    obtain ⟨u, v, rfl, rfl, hcall⟩ := mem_sitesFrom.1 hi
    rw [Text.lastFrom_none] at hcall
    rw [Nat.zero_add, Text.byteOffset_append]
    exact ⟨u, v, rfl, rfl, hcall⟩
  · rintro ⟨u, v, rfl, rfl, hcall⟩
    rw [← Text.lastFrom_none] at hcall
    refine ⟨u.length, mem_sitesFrom.2 ⟨u, v, rfl, by rw [Nat.zero_add], hcall⟩, ?_⟩
    rw [Text.byteOffset_append]

/-- **The call sites of a name are all its calls.** The list of their byte offsets is strictly
ascending and holds an offset exactly if there is a call, also one that overlaps a match which was
dropped; and the text has a call exactly if the list is not empty. -/
theorem callOffsets_exact (name : Identifier) (t : Text) :
    (callOffsets name t).Pairwise (· < ·) ∧
      (∀ n, n ∈ callOffsets name t ↔ CallAt name t n) ∧
      (hasCall name t = true ↔ callOffsets name t ≠ []) ∧
      (hasCall name t = true ↔ ∃ n, CallAt name t n) := by
  have hsome : callOffsets name t ≠ [] ↔ ∃ n, CallAt name t n := by
    constructor
    · intro hne
      obtain ⟨n, hn⟩ := List.exists_mem_of_ne_nil _ hne
      exact ⟨n, mem_callOffsets_iff.1 hn⟩
    · rintro ⟨n, hn⟩
      exact List.ne_nil_of_mem (mem_callOffsets_iff.2 hn)
  refine ⟨List.pairwise_map.2 (pairwise_byteOffset name t), fun n => mem_callOffsets_iff,
    hasCall_iff_callOffsets, ?_⟩
  rw [hasCall_iff_callOffsets, hsome]

-- The name overlaps itself: the only match of the first call goes on an identifier.
example : callOffsets ⟨['$', 'a', '$', 'a'], rfl⟩ "$a$a$a(b) $a$a (c)".toList = [10] := by
  decide +kernel

/-! ## The marker in an object -/

/-- The entries of a block, wherever it stands in a text. -/
theorem hasDirectEntry_slice {p x w : Text} {c : Char} (marker : Identifier) (hx : all.Balanced x)
    (hc : all.isClosing c = true) :
    hasDirectEntry (Text.slice (p ++ '{' :: (x ++ c :: w)) p.length (p.length + 1 + x.length + 1))
        marker.text = true ↔ HasEntry x marker.text := by
  have hslice : Text.slice (p ++ '{' :: (x ++ c :: w)) p.length (p.length + 1 + x.length + 1) =
      '{' :: (x ++ [c]) := by
    have heq : '{' :: (x ++ c :: w) = '{' :: (x ++ [c]) ++ w := by simp
    rw [Text.slice, List.drop_left, heq]
    exact List.take_left'
      (by simp only [List.length_cons, List.length_append, List.length_nil]; omega)
  rw [hslice, hasDirectEntry_iff, hasEntry_iff_exists]
  simp only [mem_directEntries_block marker hx hc]
  constructor
  · rintro ⟨_, n, hn, -⟩
    exact ⟨n, hn⟩
  · rintro ⟨n, hn⟩
    exact ⟨1 + n, n, hn, rfl⟩

/-- The assign blocks of any text that list the marker, told by characters: a key of depth one, the
block behind it, and the marker among the entries of the block. -/
theorem assignsMarker_iff_cut {body : Text} (marker : Identifier) :
    assignsMarker body marker.text = true ↔
      ∃ u k x c w, body = u ++ (k ++ '{' :: (x ++ c :: w)) ∧ IsAssignKey k ∧
        isClear u.getLast? = true ∧ all.depth u = 1 ∧ all.Balanced x ∧ all.isClosing c = true ∧
        HasEntry x marker.text := by
  simp only [assignsMarker, List.any_eq_true, mem_assignBlocks]
  constructor
  · rintro ⟨_, ⟨u, k, v, heq, hk, hclear, hdepth, rfl⟩, hentry⟩
    split at hentry
    · rename_i last hlast
      obtain ⟨p, o, x, c, w, rfl, hp, rfl, -, hx, hc⟩ := closing?_eq_some_iff.1 hlast
      have hcut : p ++ o :: (x ++ c :: w) = (u ++ k) ++ '{' :: v := by
        rw [heq, List.append_assoc]
      obtain ⟨rfl, hv⟩ := List.append_inj hcut (by rw [← hp, List.length_append])
      obtain ⟨rfl, rfl⟩ := List.cons.inj hv
      rw [hp, hasDirectEntry_slice marker hx hc] at hentry
      exact ⟨u, k, x, c, w, by rw [List.append_assoc], hk, hclear, hdepth, hx, hc, hentry⟩
    · cases hentry
  · rintro ⟨u, k, x, c, w, rfl, hk, hclear, hdepth, hx, hc, hentry⟩
    refine ⟨_, ⟨u, k, x ++ c :: w, rfl, hk, hclear, hdepth, rfl⟩, ?_⟩
    have hclose : all.closing? (u ++ (k ++ '{' :: (x ++ c :: w))) (u.length + k.length) =
        some (u.length + k.length + 1 + x.length) :=
      closing?_eq_some_iff.2 ⟨u ++ k, '{', x, c, w, by rw [List.append_assoc],
        by rw [List.length_append], rfl, by decide, hx, hc⟩
    rw [hclose]
    simp only
    rw [← List.append_assoc, ← List.length_append, hasDirectEntry_slice marker hx hc]
    exact hentry

/-- A key `assign` of the object itself occurs at `s`, and the brace of its block at `o`: the key is
not the tail of a longer identifier, and the depth before it is one. -/
structure OwnKeyAt (body : Text) (s o : Nat) : Prop where
  key : ∃ b b' : Text, (∀ c ∈ b, isBlank c = true) ∧ (∀ c ∈ b', isBlank c = true) ∧
    body.OccursAt (assignWord ++ (b ++ ':' :: (b' ++ ['{']))) s ∧
    o = s + (assignWord ++ (b ++ ':' :: b')).byteSize
  clear : s = 0 ∨ body.identByteAt (s - 1) = false
  depth : all.depth (body.byteChars.take s) = 1

/-- The marker occurs at `k` as a token of its own, one level deep behind the offset `o`. -/
structure DirectEntryAt (body marker : Text) (o k : Nat) : Prop where
  occurs : body.OccursAt marker k
  before : k = 0 ∨ body.identByteAt (k - 1) = false
  after : body.identByteAt (k + marker.byteSize) = false
  depth : all.depth (body.byteChars.slice o k) = 1

theorem ownKeyAt_iff {body : Text} {s o : Nat} :
    OwnKeyAt body s o ↔
      ∃ u k v, body = u ++ (k ++ '{' :: v) ∧ IsAssignKey k ∧ isClear u.getLast? = true ∧
        all.depth u = 1 ∧ s = u.byteSize ∧ o = u.byteSize + k.byteSize := by
  constructor
  · rintro ⟨⟨b, b', hb, hb', hocc, rfl⟩, hclear, hdepth⟩
    obtain ⟨u, v, rfl, rfl⟩ := (Text.occursAt_iff (by simp [assignWord])).1 hocc
    rw [Text.identByteAt_before] at hclear
    rw [Text.depth_take_byteChars] at hdepth
    exact ⟨u, assignWord ++ (b ++ ':' :: b'), v, by simp, ⟨b, b', rfl, hb, hb'⟩, hclear, hdepth,
      rfl, rfl⟩
  · rintro ⟨u, k, v, rfl, ⟨b, b', rfl, hb, hb'⟩, hclear, hdepth, rfl, rfl⟩
    refine ⟨⟨b, b', hb, hb', ?_, rfl⟩, ?_, ?_⟩
    · exact (Text.occursAt_iff (by simp [assignWord])).2 ⟨u, v, by simp, rfl⟩
    · exact (Text.identByteAt_before u _).2 hclear
    · rw [Text.depth_take_byteChars]
      exact hdepth

/-- An entry at a place that is given by the text `q` between the offset and the marker. -/
theorem directEntryAt_iff_cut {m : Text} (hm : m ≠ []) (p q v : Text) :
    DirectEntryAt (p ++ (q ++ (m ++ v))) m p.byteSize (p.byteSize + q.byteSize) ↔
      isClear (p ++ q).getLast? = true ∧ isClear v.head? = true ∧ all.depth q = 1 := by
  have hocc : (p ++ (q ++ (m ++ v))).OccursAt m (p ++ q).byteSize :=
    (Text.occursAt_iff hm).2 ⟨p ++ q, v, by rw [List.append_assoc], rfl⟩
  have hbefore := Text.identByteAt_before (p ++ q) (m ++ v)
  have hbehind := Text.identByteAt_behind (p ++ q) m v
  have hdepth := Text.depth_slice_byteChars all p q (m ++ v)
  rw [Text.byteSize_append] at hocc hbefore hbehind
  rw [List.append_assoc] at hbefore hbehind
  constructor
  · rintro ⟨-, h1, h2, h3⟩
    exact ⟨hbefore.1 h1, hbehind.1 h2, hdepth ▸ h3⟩
  · rintro ⟨h1, h2, h3⟩
    exact ⟨hocc, hbefore.2 h1, hbehind.2 h2, hdepth.trans h3⟩

/-- **The entries of a block by byte offsets.** A token that starts between the brackets of the
block does not reach over them. -/
theorem directEntryAt_iff {p x w : Text} {c : Char} (marker : Identifier) (hx : all.Balanced x)
    (hc : all.isClosing c = true) :
    (∃ k, p.byteSize < k ∧ k < p.byteSize + 1 + x.byteSize ∧
        DirectEntryAt (p ++ '{' :: (x ++ c :: w)) marker.text p.byteSize k) ↔
      HasEntry x marker.text := by
  have hident : ∀ c ∈ marker.text, isIdentChar c = true := fun _ h => marker.isIdentChar_of_mem h
  have hpos := Text.byteSize_pos marker.text_ne_nil
  have hone : Text.byteSize ['{'] = 1 := rfl
  have hsize : ∀ y : Text, Text.byteSize ('{' :: y) = 1 + y.byteSize :=
    Text.byteSize_ascii (by decide)
  have hweight : all.weight '{' = 1 := by decide
  have hcut : ∀ y z : Text, p ++ '{' :: (y ++ (marker.text ++ z) ++ c :: w) =
      p ++ ('{' :: y ++ (marker.text ++ (z ++ c :: w))) := by simp
  have hlast : ∀ y : Text, isClear (p ++ '{' :: y).getLast? = isClear y.getLast? :=
    isClear_getLast?_append_cons (by decide) p
  have hhead : ∀ z : Text, isClear (z ++ c :: w).head? = isClear z.head? := by
    intro z
    cases z with
    | nil => exact isClear_of_isClosing hc
    | cons e z => rfl
  constructor
  · rintro ⟨k, hlow, hhigh, hentry⟩
    obtain ⟨u, v, heq, rfl⟩ := (Text.occursAt_iff marker.text_ne_nil).1 hentry.occurs
    have hsplit : (p ++ ['{']) ++ (x ++ c :: w) = u ++ (marker.text ++ v) := by
      rw [← heq]
      simp
    -- The marker lies behind the opening brace,
    rcases token_append hident hsplit (.inl (by simp [isClear, isIdentChar])) with
      ⟨r, hleft, -⟩ | ⟨y, hinner, rfl⟩
    · have hle := congrArg Text.byteSize hleft
      rw [Text.byteSize_append, Text.byteSize_append, Text.byteSize_append, hone] at hle
      omega
    have hoffset : (p ++ ['{'] ++ y).byteSize = p.byteSize + Text.byteSize ('{' :: y) := by
      rw [List.append_assoc, Text.byteSize_append]
      rfl
    rw [hoffset] at hhigh hentry
    rw [hsize] at hhigh
    -- and before the closing one.
    rcases token_append hident hinner (.inr (isClear_of_isClosing hc)) with
      ⟨z, rfl, rfl⟩ | ⟨q, -, rfl⟩
    · rw [hcut, directEntryAt_iff_cut marker.text_ne_nil, hlast, hhead, depth_cons,
        hweight] at hentry
      obtain ⟨hbefore, hafter, hdepth⟩ := hentry
      exact ⟨y, z, rfl, hx.of_append_left (by omega), hbefore, hafter⟩
    · rw [Text.byteSize_append] at hhigh
      omega
  · rintro ⟨y, z, rfl, hy, hbefore, hafter⟩
    refine ⟨p.byteSize + Text.byteSize ('{' :: y), ?_, ?_, ?_⟩
    · rw [hsize]
      omega
    · rw [hsize, Text.byteSize_append, Text.byteSize_append]
      omega
    · rw [hcut, directEntryAt_iff_cut marker.text_ne_nil, hlast, hhead, depth_cons, hweight,
        hy.depth_eq]
      exact ⟨hbefore, hafter, rfl⟩

/-- **The marker check is exact.** An object, or any other text, lists the marker in an assign block
exactly if there are a key `assign` of depth one at an offset `s`, the brace of its block at `o`, the
bracket that closes it at `c`, and between the two, at `k`, the marker as a token of its own, one
level deep. -/
theorem assignsMarker_exact (body : Text) (marker : Identifier) :
    assignsMarker body marker.text = true ↔
      ∃ s o k c, s < o ∧ o < k ∧ k < c ∧ OwnKeyAt body s o ∧ all.closingByte? body o = some c ∧
        DirectEntryAt body marker.text o k := by
  rw [assignsMarker_iff_cut]
  constructor
  · rintro ⟨u, key, x, c, w, rfl, hkey, hclear, hdepth, hx, hc, hentry⟩
    have heq : u ++ (key ++ '{' :: (x ++ c :: w)) = (u ++ key) ++ '{' :: (x ++ c :: w) := by
      rw [List.append_assoc]
    obtain ⟨k, hlow, hhigh, hat⟩ :=
      (directEntryAt_iff (p := u ++ key) (w := w) marker hx hc).2 hentry
    have hkeyAt : OwnKeyAt (u ++ (key ++ '{' :: (x ++ c :: w))) u.byteSize (u ++ key).byteSize :=
      ownKeyAt_iff.2 ⟨u, key, x ++ c :: w, rfl, hkey, hclear, hdepth, rfl,
        by rw [Text.byteSize_append]⟩
    have hclose : all.closingByte? (u ++ (key ++ '{' :: (x ++ c :: w))) (u ++ key).byteSize =
        some ((u ++ key).byteSize + 1 + x.byteSize) := by
      rw [heq]
      exact (closingByte?_append_iff (by decide)).2 ⟨x, c, w, rfl, rfl, hx, hc⟩
    have hlt : u.byteSize < (u ++ key).byteSize := by
      obtain ⟨q, rfl, -⟩ := hkey.eq_cons
      have := Text.byteSize_pos (t := 'a' :: q) (by simp)
      rw [Text.byteSize_append]
      omega
    exact ⟨u.byteSize, (u ++ key).byteSize, k, _, hlt, hlow, hhigh, hkeyAt, hclose, heq ▸ hat⟩
  · rintro ⟨s, o, k, c, -, hlow, hhigh, hkeyAt, hclose, hat⟩
    obtain ⟨u, key, v, rfl, hkey, hclear, hdepth, -, rfl⟩ := ownKeyAt_iff.1 hkeyAt
    rw [← Text.byteSize_append] at hlow hclose hat
    rw [← List.append_assoc] at hclose hat
    obtain ⟨x, e, w, rfl, rfl, hx, he⟩ := (closingByte?_append_iff (by decide)).1 hclose
    exact ⟨u, key, x, e, w, rfl, hkey, hclear, hdepth, hx, he,
      (directEntryAt_iff marker hx he).1 ⟨k, hlow, hhigh, hat⟩⟩

end Stylewire
