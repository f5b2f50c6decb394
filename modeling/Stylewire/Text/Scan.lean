import Stylewire.Text.Basic

set_option autoImplicit false

/-! # Leftmost matches that do not overlap

A *recogniser* says whether a pattern matches at one place of a text: it is given the
character before that place and the text from there on, and answers with the length of the
match. `Recognizer.findAll` runs it from left to right; after a match the search goes on
behind it, so a match inside an earlier one is never reported.
-/

namespace Stylewire

/-- A pattern: from the character before a place and the text after it to the length of the
match at that place. -/
abbrev Recognizer := Option Char → Text → Option Nat

/-- One match: the positions where it starts and where it stops. -/
structure Match where
  start : Nat
  stop : Nat
deriving Repr, DecidableEq

namespace Recognizer

/-- The matches in the rest of a text. The rest starts at position `pos`, `prev` is the
character before it, and its first `skip` characters belong to the match found last. -/
def findFrom (r : Recognizer) : (skip pos : Nat) → (prev : Option Char) → Text → List Match
  | skip + 1, pos, _, c :: t => findFrom r skip (pos + 1) (some c) t
  | _ + 1, _, _, [] => []
  | 0, pos, prev, [] =>
      match r prev [] with
      | some n => [⟨pos, pos + n⟩]
      | none => []
  | 0, pos, prev, c :: t =>
      match r prev (c :: t) with
      | some n => ⟨pos, pos + n⟩ :: findFrom r (n - 1) (pos + 1) (some c) t
      | none => findFrom r 0 (pos + 1) (some c) t

/-- The leftmost matches that do not overlap, in the order of the text. -/
def findAll (r : Recognizer) (t : Text) : List Match := findFrom r 0 0 none t

end Recognizer

/-! ## Simple recognisers -/

/-- What is left of the text after `w`, if it starts with `w`. -/
def stripWord : (w t : Text) → Option Text
  | [], t => some t
  | _ :: _, [] => none
  | a :: w, c :: t => if a = c then stripWord w t else none

/-- The pattern that matches exactly the word `w`. -/
def word (w : Text) : Recognizer := fun _ t => (stripWord w t).map fun _ => w.length

/-- `stripWord` succeeds exactly on the texts that start with the word. -/
theorem stripWord_eq_some_iff {w t r : Text} : stripWord w t = some r ↔ t = w ++ r := by
  induction w generalizing t with
  | nil => simp [stripWord, eq_comm]
  | cons a w ih =>
      cases t with
      | nil => simp [stripWord]
      | cons c t =>
          by_cases h : a = c
          · simp [stripWord, h, ih]
          · simp [stripWord, h, Ne.symm h]

namespace Text

/-- The number of blanks at the start of the text. -/
def blanks (t : Text) : Nat := (t.takeWhile isBlank).length

/-- Whether the text at position `i` is not a continuation of an identifier: the text starts
there, or the character before is no identifier character. -/
def clearBefore (t : Text) (i : Nat) : Bool :=
  match i with
  | 0 => true
  | i + 1 => match t[i]? with
    | some c => !isIdentChar c
    | none => true

/-- Whether an identifier ending at position `i` ends there: the text ends, or the next
character is no identifier character. -/
def clearAfter (t : Text) (i : Nat) : Bool :=
  match t[i]? with
  | some c => !isIdentChar c
  | none => true

/-- The positions where `w` stands as a token of its own, among the leftmost occurrences
that do not overlap. -/
def tokenStarts (t w : Text) : List Nat :=
  (((word w).findAll t).map Match.start).filter fun i =>
    clearBefore t i && clearAfter t (i + w.length)

/-- Whether `w` stands somewhere in the text as a token of its own. -/
def containsToken (t w : Text) : Bool := !(tokenStarts t w).isEmpty

end Text

end Stylewire
