import Stylewire.Text.Basic

set_option autoImplicit false

/-! # Paths

A path is a text; `/` separates its components. Paths are shown as they were written, but
compared by their components: repeated and trailing separators do not count, nor does a `.`
unless it comes first, and `..` is never resolved.

Every path here is Unicode text. To show it, or to take its text with what is not Unicode replaced,
therefore gives the path itself; paths of arbitrary bytes are not covered.
-/

namespace Stylewire

namespace Text

/-- The parts of a text between the separators `sep`. -/
def split (sep : Char) : Text → List Text
  | [] => [[]]
  | c :: t =>
      if c = sep then [] :: split sep t
      else match split sep t with
        | [] => [[c]]
        | w :: ws => (c :: w) :: ws

/-- The parts joined, with `sep` between them. -/
def join (sep : Text) : List Text → Text
  | [] => []
  | [w] => w
  | w :: v :: ws => w ++ sep ++ join sep (v :: ws)

/-- Whether `w` occurs in the text. -/
def contains (w : Text) : Text → Bool
  | [] => w.isEmpty
  | c :: t => w.isPrefixOf (c :: t) || contains w t

/-- What stands before `w` in a text that ends with it. -/
def beforeEnd? (w t : Text) : Option Text :=
  if w.isSuffixOf t then some (t.take (t.length - w.length)) else none

end Text

/-- A path, as it is written. -/
abbrev Path := Text

/-- A component of a path. -/
inductive Component
  | root
  | current
  | parent
  | name (n : Text)
deriving Repr, DecidableEq

/-- The text of a component. -/
def Component.text : Component → Text
  | root => ['/']
  | current => ['.']
  | parent => ['.', '.']
  | name n => n

/-- The key components are ordered by: the root, then `.`, then `..`, then the names by their
characters. -/
def Component.key : Component → List Nat
  | root => [0]
  | current => [1]
  | parent => [2]
  | name n => 3 :: n.map Char.toNat

namespace Path

/-- Whether the path starts at the root. -/
def isAbsolute (p : Path) : Bool := p.head? == some '/'

/-- Whether a part between separators is no component. -/
def isVoidPart (part : Text) : Bool := part.isEmpty || part == ['.']

/-- The component a part between separators stands for. -/
def partComponent (part : Text) : Component :=
  if part = ['.', '.'] then .parent else .name part

/-- The component a path starts with because of its first character or part. -/
def leading (p : Path) : List Component :=
  if isAbsolute p then [.root]
  else if (Text.split '/' p).head? = some ['.'] then [.current] else []

/-- The components of a path. -/
def components (p : Path) : List Component :=
  leading p ++ ((Text.split '/' p).filter (!isVoidPart ·)).map partComponent

/-- Whether two paths have the same components. -/
def same (p q : Path) : Bool := components p == components q

/-- The order of paths, by components. -/
def le (p q : Path) : Bool :=
  !((components q).map Component.key).lex ((components p).map Component.key)
    fun k l => k.lex l Nat.blt

/-- `q` as seen from `p`: an absolute `q` stands for itself. -/
def join (p q : Path) : Path :=
  if isAbsolute q then q
  else if p.isEmpty || p.endsWith '/' then p ++ q
  else p ++ ['/'] ++ q

/-- The last component, if it is a name. -/
def fileName? (p : Path) : Option Text :=
  match (components p).getLast? with
  | some (.name n) => some n
  | _ => none

/-- What follows the last dot of the file name; a dot in front does not count. -/
def extension? (p : Path) : Option Text := do
  let name ← fileName? p
  if '.' ∈ name then
    let after := (name.reverse.takeWhile (· != '.')).reverse
    if after.length + 1 < name.length then some after else none
  else none

/-- The path without its last component and the separators before it. -/
def parent? (p : Path) : Option Path :=
  let lead : Text := match leading p with
    | c :: _ => c.text
    | [] => []
  match (Text.split '/' (p.drop lead.length)).reverse.dropWhile isVoidPart with
  | [] => if lead == ['.'] then some [] else none
  | _ :: parts => some (lead ++ Text.join ['/'] (parts.dropWhile isVoidPart).reverse)

/-- The parts after the first `n` components among them. -/
def dropComponents : (n : Nat) → List Text → List Text
  | 0, parts => parts
  | _, [] => []
  | n + 1, part :: parts =>
      if isVoidPart part then dropComponents (n + 1) parts else dropComponents n parts

/-- What is written in `p` after `base`, if `p` lies there. Parts that are no components do not
count at its end, nor at its start, unless it is the start of `p`. -/
def textBelow? (base p : Path) : Option Path :=
  let lead : Text := match leading p with
    | c :: _ => c.text
    | [] => []
  let parts := Text.split '/' (p.drop lead.length)
  let trimEnd (parts : List Text) : List Text := (parts.reverse.dropWhile isVoidPart).reverse
  let count := (components base).length
  if !(components base).isPrefixOf (components p) then none
  else if count = 0 then some (lead ++ Text.join ['/'] (trimEnd parts))
  else
    let rest := dropComponents (count - (leading p).length) parts
    some (Text.join ['/'] (trimEnd (rest.dropWhile isVoidPart)))

/-- The components of `p` below `base`, if `p` lies there. -/
def below? (base p : Path) : Option (List Component) :=
  if (components base).isPrefixOf (components p) then
    some ((components p).drop (components base).length)
  else none

end Path

end Stylewire
