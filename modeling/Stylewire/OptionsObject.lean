import Stylewire.ArgumentList
import Stylewire.Splice
import Stylewire.Text.Scan

set_option autoImplicit false

/-! # The marker in an options object

An options object is an object literal `{ … }`. Its *assign block* is the value of a key
`assign` of the object itself, not of an object inside it, when that value starts with `{`.
A call is *marked* if one of its object arguments lists the marker directly in an assign
block (`isMarked`). Otherwise `injection` plans the splice that marks it: into the assign
block of the options object, into a new assign block, or into a new options object.
-/

namespace Stylewire

/-- The pattern of the key of an assign block, up to and including the opening brace. -/
def assignKey : Recognizer := fun _ t => do
  let r ← stripWord ['a', 's', 's', 'i', 'g', 'n'] t
  match r.drop (Text.blanks r) with
  | ':' :: u =>
      match u.drop (Text.blanks u) with
      | '{' :: _ => some (6 + Text.blanks r + 1 + Text.blanks u + 1)
      | _ => none
  | _ => none

/-- The positions of the braces that open the assign blocks of the object `body` itself. -/
def assignBlocks (body : Text) : List Nat :=
  ((assignKey.findAll body).filter fun m =>
    body.clearBefore m.start && Brackets.all.depth (body.take m.start) == 1).map
    fun m => m.stop - 1

/-- Whether the marker stands in the block as a token of its own, at depth one. -/
def hasDirectEntry (block marker : Text) : Bool :=
  (block.tokenStarts marker).any fun i => Brackets.all.depth (block.take i) == 1

/-- Whether an assign block of the object `body` itself lists the marker directly. -/
def assignsMarker (body marker : Text) : Bool :=
  (assignBlocks body).any fun first =>
    match Brackets.all.closing? body first with
    | some last => hasDirectEntry (body.slice first (last + 1)) marker
    | none => false

/-- Whether one of the call's object arguments lists the marker in an assign block. -/
def isMarked (t : Text) (a : ArgumentList) (marker : Text) : Bool :=
  (a.objects t).any fun o => assignsMarker (o.body t) marker

/-! ## Adding the marker -/

/-- A new assign block, with its key: `assign: { marker }`. -/
def assignClause (marker : Text) : Text :=
  ['a', 's', 's', 'i', 'g', 'n', ':', ' ', '{', ' '] ++ marker ++ [' ', '}']

/-- A new options object: `{ assign: { marker } }`. -/
def newOptions (marker : Text) : Text := ['{', ' '] ++ assignClause marker ++ [' ', '}']

/-- Adds a new assign block before the last closing brace of `body`. A body without such a
brace, or with nothing before it, stays as it is. -/
def appendAssign (body marker : Text) : Text :=
  if '}' ∈ body then
    let tail := (body.reverse.takeWhile (· != '}')).reverse
    let closing := body.length - tail.length - 1
    if closing = 0 then body
    else
      let before := Text.trimEnd (body.take closing)
      let separator := if 1 < before.byteSize && !before.endsWith ',' then [',', ' '] else [' ']
      before ++ separator ++ assignClause marker ++ [' ', '}'] ++ tail
  else body

/-- Adds the marker to the first assign block of the object `body`, or a new assign block if
there is none or if its brace is never closed. -/
def injectMarker (body marker : Text) : Text :=
  match (assignBlocks body).head? with
  | none => appendAssign body marker
  | some first =>
      match Brackets.all.closing? body first with
      | none => appendAssign body marker
      | some last =>
          let inner := Text.trim (body.slice (first + 1) last)
          let separator := if inner.isEmpty || inner.endsWith ',' then [] else [',', ' ']
          body.take (first + 1) ++ [' '] ++ inner ++ separator ++ marker ++ [' '] ++ body.drop last

/-- The splice that adds the marker to a call. -/
def injection (t : Text) (a : ArgumentList) (marker : Text) : Splice :=
  match a.options with
  | some o => ⟨o.first, o.last + 1, injectMarker (o.body t) marker⟩
  | none =>
      let content := Text.trimEnd (a.arguments t)
      if content.trimStart.isEmpty then ⟨a.opening + 1, a.closing, newOptions marker⟩
      else
        let place := a.opening + 1 + content.length
        let separator := if content.endsWith ',' then [' '] else [',', ' ']
        ⟨place, place, separator ++ newOptions marker⟩

end Stylewire
