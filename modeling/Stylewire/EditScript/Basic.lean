import Stylewire.Text.Basic

set_option autoImplicit false

/-! # Edit scripts between lists of lines

An edit script turns one list of lines into another: it keeps, deletes and inserts stretches
of lines, in the order of the texts. `EditScript.old` and `EditScript.new` are the two lists
that a script speaks of.
-/

namespace Stylewire

/-- One stretch of an edit script. -/
inductive Edit
  | keep (lines : List Text)
  | delete (lines : List Text)
  | insert (lines : List Text)
deriving Repr, DecidableEq

/-- An edit script. -/
abbrev EditScript := List Edit

/-- The lines of a stretch. -/
def Edit.lines : Edit → List Text
  | keep ls => ls
  | delete ls => ls
  | insert ls => ls

/-- The number of lines of a stretch, and one for the stretch itself. -/
def Edit.weight (e : Edit) : Nat := e.lines.length + 1

/-- A script of one stretch of lines, empty if there are none. -/
def stretch (make : List Text → Edit) (lines : List Text) : EditScript :=
  if lines.isEmpty then [] else [make lines]

namespace EditScript

/-- The list of lines that the script starts from. -/
def old (s : EditScript) : List Text :=
  s.flatMap fun
    | .keep ls => ls
    | .delete ls => ls
    | .insert _ => []

/-- The list of lines that the script leads to. -/
def new (s : EditScript) : List Text :=
  s.flatMap fun
    | .keep ls => ls
    | .delete _ => []
    | .insert ls => ls

/-- The weight of a list of stretches. -/
def weight : EditScript → Nat
  | [] => 0
  | e :: s => e.weight + weight s

end EditScript

/-! ## Lines -/

/-- The lines of a text, each with its end: a line feed, a carriage return, or the two. The
last line may have none. `line` is what has been read of the current line, in reverse. -/
def linesFrom (line : Text) : Text → List Text
  | [] => if line.isEmpty then [] else [line.reverse]
  | '\r' :: '\n' :: t => ('\n' :: '\r' :: line).reverse :: linesFrom [] t
  | c :: t =>
      if c = '\r' || c = '\n' then (c :: line).reverse :: linesFrom [] t
      else linesFrom (c :: line) t

/-- The lines of a text, each with its end. -/
def linesOf (t : Text) : List Text := linesFrom [] t

/-! ## Common starts and ends -/

/-- The number of lines two lists have in common at their starts. -/
def commonStart : List Text → List Text → Nat
  | a :: as, b :: bs => if a = b then commonStart as bs + 1 else 0
  | _, _ => 0

/-- The number of lines two lists have in common at their ends. -/
def commonEnd (as bs : List Text) : Nat := commonStart as.reverse bs.reverse

theorem commonStart_le_left (as bs : List Text) : commonStart as bs ≤ as.length := by
  fun_induction commonStart as bs with
  | case1 a as bs ih => simpa using ih
  | case2 => simp
  | case3 => simp

theorem commonEnd_le_left (as bs : List Text) : commonEnd as bs ≤ as.length := by
  simpa [commonEnd] using commonStart_le_left as.reverse bs.reverse

end Stylewire
