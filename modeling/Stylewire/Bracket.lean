import Stylewire.Text.Basic

set_option autoImplicit false

/-! # Brackets by depth

A bracket set says which brackets count. Each opening bracket weighs `1`, each closing one
`-1`, every other character `0`, and the *depth* of a text is the sum of its weights. The
bracket that closes an opening one is the first place after it where the depth is back to
zero (`closing?`). Kinds are not compared, so `(` may be closed by `}`, and brackets in
strings and comments count like all others.
-/

namespace Stylewire

/-- The brackets that count: all three kinds, or curly braces only. -/
inductive Brackets
  | all
  | braces
deriving Repr, DecidableEq

namespace Brackets

/-- Whether `c` is an opening bracket of the set. -/
def isOpening : Brackets → Char → Bool
  | all, c => c == '(' || c == '{' || c == '['
  | braces, c => c == '{'

/-- Whether `c` is a closing bracket of the set. -/
def isClosing : Brackets → Char → Bool
  | all, c => c == ')' || c == '}' || c == ']'
  | braces, c => c == '}'

/-- The weight of a character: `1` for an opening bracket, `-1` for a closing one. -/
def weight (s : Brackets) (c : Char) : Int :=
  if s.isOpening c then 1 else if s.isClosing c then -1 else 0

/-- The net depth of a text. -/
def depth (s : Brackets) : Text → Int
  | [] => 0
  | c :: t => s.weight c + depth s t

/-- The position, counted from `pos`, of the first character of the text after which the
depth, counted from `d`, is zero. -/
def closeFrom (s : Brackets) : (d : Int) → (pos : Nat) → Text → Option Nat
  | _, _, [] => none
  | d, pos, c :: t =>
      if d + s.weight c = 0 then some pos else closeFrom s (d + s.weight c) (pos + 1) t

/-- The position of the bracket that closes the opening bracket at position `i`. There is
none if no opening bracket of the set stands there, or if it is never closed. -/
def closing? (s : Brackets) (t : Text) (i : Nat) : Option Nat :=
  match t.drop i with
  | [] => none
  | c :: r => if s.isOpening c then closeFrom s 0 i (c :: r) else none

@[simp] theorem depth_nil (s : Brackets) : s.depth [] = 0 := rfl

@[simp] theorem depth_cons (s : Brackets) (c : Char) (t : Text) :
    s.depth (c :: t) = s.weight c + s.depth t := rfl

@[simp] theorem depth_append (s : Brackets) (t u : Text) :
    s.depth (t ++ u) = s.depth t + s.depth u := by
  induction t with
  | nil => simp
  | cons c t ih => rw [List.cons_append, depth_cons, depth_cons, ih, Int.add_assoc]

/-- `closing?` by byte offsets: an offset inside a character has no bracket. -/
def closingByte? (s : Brackets) (t : Text) (offset : Nat) : Option Nat := do
  let i ← t.position? offset
  let j ← s.closing? t i
  return t.byteOffset j

end Brackets

end Stylewire
