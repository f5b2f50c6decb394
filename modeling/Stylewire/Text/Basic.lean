set_option autoImplicit false

/-! # Texts, positions and byte offsets

A text is a list of characters. Inside the library a place in a text is a *position*, the
number of characters before it, so that cutting a text is `List.take` and `List.drop` and
never splits a character. Outside, places are *byte offsets* into the UTF-8 form:
`byteOffset` leads from positions to byte offsets, and `position?` back, failing on an
offset that is past the end or inside a character.

The file also holds the character classes the scans are built from (`isBlank`,
`isAsciiBlank`, `isIdentChar`) and the trimming of blanks.
-/

namespace Stylewire

/-- A text, one character after the other. -/
abbrev Text := List Char

/-! ## Character classes -/

/-- The Unicode property `White_Space`. -/
def isBlank (c : Char) : Bool :=
  let n := c.toNat
  (0x09 ≤ n && n ≤ 0x0D) || n == 0x20 || n == 0x85 || n == 0xA0 || n == 0x1680 ||
    (0x2000 ≤ n && n ≤ 0x200A) || n == 0x2028 || n == 0x2029 || n == 0x202F ||
    n == 0x205F || n == 0x3000

/-- The five blanks that may stand before an argument: space, tab, line feed, form feed and
carriage return. -/
def isAsciiBlank (c : Char) : Bool :=
  c == ' ' || c == '\t' || c == '\n' || c == '\x0c' || c == '\r'

/-- The characters an identifier can start with: ASCII letters, `_` and `$`. -/
def isIdentStart (c : Char) : Bool := c.isAlpha || c == '_' || c == '$'

/-- The characters an identifier can go on with: ASCII letters and digits, `_` and `$`. -/
def isIdentChar (c : Char) : Bool := c.isAlphanum || c == '_' || c == '$'

/-- Every blank that may stand before an argument is a blank. -/
theorem isBlank_of_isAsciiBlank {c : Char} (h : isAsciiBlank c = true) : isBlank c = true := by
  simp only [isAsciiBlank, Bool.or_eq_true, beq_iff_eq] at h
  rcases h with (((h | h) | h) | h) | h <;> subst h <;> decide

/-- No blank continues an identifier. -/
theorem isIdentChar_eq_false_of_isBlank {c : Char} (h : isBlank c = true) :
    isIdentChar c = false := by
  simp only [isBlank, Bool.or_eq_true, Bool.and_eq_true, decide_eq_true_eq, beq_iff_eq] at h
  have hn : c.toNat ≠ 36 ∧ c.toNat ≠ 95 ∧ ¬ (48 ≤ c.toNat ∧ c.toNat ≤ 57) ∧
      ¬ (65 ≤ c.toNat ∧ c.toNat ≤ 90) ∧ ¬ (97 ≤ c.toNat ∧ c.toNat ≤ 122) := by omega
  obtain ⟨h1, h2, h3, h4, h5⟩ := hn
  have e1 : c ≠ '$' := fun e => h1 (by subst e; rfl)
  have e2 : c ≠ '_' := fun e => h2 (by subst e; rfl)
  delta isIdentChar Char.isAlphanum Char.isAlpha Char.isUpper Char.isLower Char.isDigit
  simp only [Bool.or_eq_false_iff, Bool.and_eq_false_iff, decide_eq_false_iff_not,
    beq_eq_false_iff_ne, ne_eq, e1, e2, not_false_eq_true, and_true, ge_iff_le,
    UInt32.le_iff_toNat_le]
  simp only [Char.toNat] at h3 h4 h5
  refine ⟨⟨?_, ?_⟩, ?_⟩ <;> simp <;> omega

namespace Text

/-! ## Trimming -/

/-- The text without the blanks at its start. -/
def trimStart (t : Text) : Text := t.dropWhile isBlank

/-- The text without the blanks at its end. -/
def trimEnd (t : Text) : Text := (t.reverse.dropWhile isBlank).reverse

/-- The text without the blanks at its two ends. -/
def trim (t : Text) : Text := trimEnd (trimStart t)

/-- Whether the last character of the text is `c`. -/
def endsWith (t : Text) (c : Char) : Bool := t.getLast? == some c

/-- The part of the text from position `i` up to, not including, position `j`. -/
def slice (t : Text) (i j : Nat) : Text := (t.drop i).take (j - i)

/-! ## Byte offsets -/

/-- The number of bytes of the UTF-8 form. -/
def byteSize : Text → Nat
  | [] => 0
  | c :: t => c.utf8Size + byteSize t

/-- The number of bytes before position `i`, and `n` more. -/
def byteOffsetFrom (n : Nat) : Text → (i : Nat) → Nat
  | [], _ => n
  | _ :: _, 0 => n
  | c :: t, i + 1 => byteOffsetFrom (n + c.utf8Size) t i

/-- The number of bytes before position `i`. -/
def byteOffset (t : Text) (i : Nat) : Nat := byteOffsetFrom 0 t i

/-- The position with byte offset `n`; there is none if `n` lies inside a character or past
the end. -/
def position? : Text → Nat → Option Nat
  | _, 0 => some 0
  | [], _ + 1 => none
  | c :: t, n + 1 =>
      if c.utf8Size ≤ n + 1 then (position? t (n + 1 - c.utf8Size)).map (· + 1) else none

/-- The bytes of the UTF-8 form. -/
def bytes (t : Text) : List UInt8 := t.flatMap String.utf8EncodeChar

/-- What is counted from `n` on is the size of the text before the position. -/
theorem byteOffsetFrom_eq (n : Nat) (t : Text) (i : Nat) :
    byteOffsetFrom n t i = n + byteSize (t.take i) := by
  fun_induction byteOffsetFrom n t i with
  | case1 => simp [byteSize]
  | case2 => simp [byteSize]
  | case3 n c t i ih => simp [ih, byteSize, Nat.add_assoc]

/-- The byte offset of a position is the size of the text before it. -/
theorem byteOffset_eq (t : Text) (i : Nat) : byteOffset t i = byteSize (t.take i) := by
  simp [byteOffset, byteOffsetFrom_eq]

@[simp] theorem byteOffset_zero (t : Text) : byteOffset t 0 = 0 := by
  simp [byteOffset_eq, byteSize]

theorem byteOffset_cons_succ (c : Char) (t : Text) (i : Nat) :
    byteOffset (c :: t) (i + 1) = c.utf8Size + byteOffset t i := by
  simp [byteOffset_eq, byteSize]

/-- Going from a position to its byte offset and back ends at the same position. -/
theorem position?_byteOffset (t : Text) (i : Nat) (h : i ≤ t.length) :
    position? t (byteOffset t i) = some i := by
  induction t generalizing i with
  | nil =>
      obtain rfl : i = 0 := by simpa using h
      rfl
  | cons c t ih =>
      cases i with
      | zero => rfl
      | succ i =>
          have hc : 0 < c.utf8Size := Char.utf8Size_pos c
          obtain ⟨k, hk⟩ : ∃ k, byteOffset (c :: t) (i + 1) = k + 1 :=
            ⟨byteOffset (c :: t) (i + 1) - 1, by rw [byteOffset_cons_succ]; omega⟩
          rw [hk, position?]
          rw [byteOffset_cons_succ] at hk
          rw [if_pos (by omega), ← hk, Nat.add_sub_cancel_left, ih i (by simpa using h)]
          rfl

/-- A position found from a byte offset is in the text and has that byte offset. -/
theorem byteOffset_of_position? {t : Text} {n i : Nat} (h : position? t n = some i) :
    i ≤ t.length ∧ byteOffset t i = n := by
  fun_induction position? t n generalizing i with
  | case1 =>
      obtain rfl : 0 = i := by simpa using h
      exact ⟨Nat.zero_le _, byteOffset_zero _⟩
  | case2 => simp at h
  | case3 c t n hc ih =>
      obtain ⟨j, hj, rfl⟩ := Option.map_eq_some_iff.1 h
      obtain ⟨h1, h2⟩ := ih hj
      refine ⟨by simpa using h1, ?_⟩
      rw [byteOffset_cons_succ]
      omega
  | case4 => simp at h

end Text

end Stylewire
