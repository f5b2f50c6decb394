import Stylewire.Error

set_option autoImplicit false

/-! # Globs and what they match

A glob is a list of tokens. It is matched against the bytes of a path, and the whole path
has to match. The match is computed from the end of the glob to its start, for all rests of
the path at once: `marksBefore` takes the rests from which what follows a token matches to
those from which the token and what follows it match. So the time it takes is proportional
to the length of the glob and to that of the path.
-/

namespace Stylewire

/-- A token of a glob. -/
inductive GlobToken
  /-- A character that stands for itself. -/
  | literal (c : Char)
  /-- One byte other than `/`. -/
  | anyOne
  /-- Any number of bytes other than `/`. -/
  | anyRun
  /-- Nothing, or anything up to and including some `/`. -/
  | leadingDirs
  /-- A `/`, or a `/` and anything up to and including some later `/`. -/
  | innerDirs
  /-- A `/` and anything. -/
  | everythingBelow
  /-- One byte of a class of characters, or one that is not in it. -/
  | oneOf (negated : Bool) (ranges : List (Char × Char))
  /-- One of several globs. -/
  | alternates (branches : List (List GlobToken))
deriving Repr

/-- A glob. -/
abbrev Glob := List GlobToken

namespace Glob

/-- The byte of `/`. -/
def slash : UInt8 := 0x2F

/-! ## The steps

Marks say of each rest of a path, the whole path first and the empty rest last, whether it
is marked. There is one more of them than there are bytes in the path.
-/

/-- The marks of the empty rest alone. -/
def endMarks : List UInt8 → List Bool
  | [] => [true]
  | _ :: path => false :: endMarks path

/-- Marks the rests that start with a byte of a kind before a marked one. -/
def beforeByte (kind : UInt8 → Bool) : List UInt8 → List Bool → List Bool
  | b :: path, _ :: marks => (kind b && marks.headD false) :: beforeByte kind path marks
  | _, _ => [false]

/-- Marks the rests that start with the given bytes before a marked one. -/
def beforeBytes (path : List UInt8) (bytes : List UInt8) (marks : List Bool) : List Bool :=
  bytes.foldr (fun b marks => beforeByte (· == b) path marks) marks

/-- Marks the rests with any number of bytes other than `/` before a marked one. -/
def beforeRun : List UInt8 → List Bool → List Bool
  | b :: path, m :: marks =>
      let later := beforeRun path marks
      (m || (b != slash && later.headD false)) :: later
  | _, marks => marks

/-- Marks the rests in which a marked one follows some `/`. -/
def beforeSlash : List UInt8 → List Bool → List Bool
  | b :: path, _ :: marks =>
      let later := beforeSlash path marks
      ((b == slash && marks.headD false) || later.headD false) :: later
  | _, _ => [false]

/-- Marks the rests with anything before a marked one. -/
def beforeAnything : List Bool → List Bool
  | [] => []
  | m :: marks =>
      let later := beforeAnything marks
      (m || later.headD false) :: later

/-- The rests that are marked in one list or the other. -/
def either (marks others : List Bool) : List Bool := List.zipWith (· || ·) marks others

/-- Whether a byte is in the class of a range of characters. The class is one of bytes: it
holds the bytes of both ends, and those between the last byte of the lower end and the first
byte of the upper one. -/
def inRange (b : UInt8) (range : Char × Char) : Bool :=
  let lo := String.utf8EncodeChar range.1
  let hi := String.utf8EncodeChar range.2
  lo.contains b || hi.contains b ||
    (range.1 != range.2 && (match lo.getLast?, hi.head? with
      | some l, some h => l ≤ b && b ≤ h
      | _, _ => false))

mutual

/-- Whether a token is a group without any content, which matches nothing but the empty
text. -/
def isVoid : GlobToken → Bool
  | .alternates branches => allVoid branches
  | _ => false

/-- Whether all tokens of a glob are groups without content. -/
def isVoidBranch : List GlobToken → Bool
  | [] => true
  | t :: ts => isVoid t && isVoidBranch ts

/-- Whether all branches of a group are without content. -/
def allVoid : List (List GlobToken) → Bool
  | [] => true
  | g :: gs => isVoidBranch g && allVoid gs

end

mutual

/-- Marks the rests from which the token leads to a marked one. -/
def marksBefore (path : List UInt8) : GlobToken → List Bool → List Bool
  | .literal c, marks => beforeBytes path (String.utf8EncodeChar c) marks
  | .anyOne, marks => beforeByte (· != slash) path marks
  | .anyRun, marks => beforeRun path marks
  | .leadingDirs, marks => either marks (beforeSlash path marks)
  | .innerDirs, marks => beforeByte (· == slash) path (either marks (beforeSlash path marks))
  | .everythingBelow, marks => beforeByte (· == slash) path (beforeAnything marks)
  | .oneOf negated ranges, marks =>
      beforeByte (fun b => ranges.any (inRange b) != negated) path marks
  | .alternates branches, marks =>
      if allVoid branches then marks else marksBeforeSome path branches marks

/-- Marks the rests from which one of the branches of a group leads to a marked one. Branches
without content do not count. -/
def marksBeforeSome (path : List UInt8) : List (List GlobToken) → List Bool → List Bool
  | [], marks => marks.map fun _ => false
  | g :: gs, marks =>
      if isVoidBranch g then marksBeforeSome path gs marks
      else either (marksBeforeAll path g marks) (marksBeforeSome path gs marks)

/-- Marks the rests from which the tokens, one after the other, lead to a marked one. -/
def marksBeforeAll (path : List UInt8) : List GlobToken → List Bool → List Bool
  | [], marks => marks
  | t :: ts, marks => marksBefore path t (marksBeforeAll path ts marks)

end

/-- Whether the glob matches the path. The glob of nothing but leading directories matches
every path. -/
def isMatch (g : Glob) (path : List UInt8) : Bool :=
  match g with
  | [.leadingDirs] => true
  | _ => (marksBeforeAll path g (endMarks path)).headD false

end Glob

end Stylewire
