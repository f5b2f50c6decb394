import Stylewire.Error
import Stylewire.Text.Scan

set_option autoImplicit false

/-! # Identifiers and call sites

A call site of an identifier is a place where the identifier stands, is not the tail of a
longer identifier, and is followed by an opening parenthesis, blanks in between allowed.
Call sites in strings and comments count too.
-/

namespace Stylewire

/-- Whether the text is an identifier: a letter, `_` or `$`, followed by letters, digits, `_`
and `$`, all of them ASCII. -/
def isIdentifier : Text → Bool
  | [] => false
  | c :: t => isIdentStart c && t.all isIdentChar

/-- An identifier. -/
structure Identifier where
  text : Text
  valid : isIdentifier text = true

namespace Identifier

/-- The text as an identifier, to be used in the given role. -/
def ofText (role : Role) (t : Text) : Except Error Identifier :=
  if h : isIdentifier t = true then .ok ⟨t, h⟩ else .error (.invalidIdentifier role t)

/-- The function whose calls are wired by default. -/
def directive : Identifier := ⟨['d', 'i', 'r', 'e', 'c', 't', 'i', 'v', 'e'], by decide⟩

/-- The name a stylesheet is imported under by default. -/
def styles : Identifier := ⟨['$', 's', 't', 'y', 'l', 'e', 's'], by decide⟩

end Identifier

/-- The pattern of a call head: the word, any number of blanks and `(`. -/
def callHead (w : Text) : Recognizer := fun _ t => do
  let r ← stripWord w t
  match r.drop (Text.blanks r) with
  | '(' :: _ => some (w.length + Text.blanks r + 1)
  | _ => none

/-- The positions of the call sites of `name`, in ascending order. -/
def callSites (name : Identifier) (t : Text) : List Nat :=
  (((callHead name.text).findAll t).map Match.start).filter fun i => t.clearBefore i

/-- Whether the text has a call site of `name`. -/
def hasCall (name : Identifier) (t : Text) : Bool :=
  ((callHead name.text).findAll t).any fun m => t.clearBefore m.start

end Stylewire
