import Stylewire.Glob.Basic
import Stylewire.Path

set_option autoImplicit false

/-! # The regular expression of a glob

A glob stands for a regular expression over bytes, anchored at both ends. Expressions may
nest only so deep: each class, repetition and group is a level, and so is each sequence or
choice of more than one part.
-/

namespace Stylewire

/-- A regular expression over bytes. -/
inductive Expression
  /-- The byte itself. -/
  | byte (b : UInt8)
  /-- Any byte. -/
  | any
  /-- One byte of some ranges, or one in none of them. -/
  | oneOf (negated : Bool) (ranges : List (UInt8 × UInt8))
  /-- The expression, or nothing. -/
  | optional (e : Expression)
  /-- Any number of the expression. -/
  | repeated (e : Expression)
  /-- One of several sequences. -/
  | choice (branches : List (List Expression))
deriving Repr

namespace Expression

/-! ## From globs -/

/-- The bytes other than `/`. -/
def withinName : Expression := .oneOf true [(Glob.slash, Glob.slash)]

/-- The ranges of bytes of a range of characters: the bytes of both ends, of which the last
of the lower end and the first of the upper one are the ends of a range. -/
def byteRanges (range : Char × Char) : List (UInt8 × UInt8) :=
  let single (b : UInt8) : UInt8 × UInt8 := (b, b)
  let lo := String.utf8EncodeChar range.1
  let hi := String.utf8EncodeChar range.2
  if range.1 = range.2 then lo.map single
  else match lo.getLast?, hi with
    | some l, h :: rest => lo.dropLast.map single ++ [(l, h)] ++ rest.map single
    | _, _ => []

mutual

/-- The sequence a token stands for. -/
def ofToken : GlobToken → List Expression
  | .literal c => (String.utf8EncodeChar c).map .byte
  | .anyOne => [withinName]
  | .anyRun => [.repeated withinName]
  | .leadingDirs =>
      [.choice [[.optional (.byte Glob.slash)], [.repeated .any, .byte Glob.slash]]]
  | .innerDirs =>
      [.choice [[.byte Glob.slash],
        [.byte Glob.slash, .repeated .any, .byte Glob.slash]]]
  | .everythingBelow => [.byte Glob.slash, .repeated .any]
  | .oneOf negated ranges => [.oneOf negated (ranges.flatMap byteRanges)]
  | .alternates branches =>
      match ofBranches branches with
      | [] => []
      | branches => [.choice branches]

/-- The sequences of the branches of a group that have content. -/
def ofBranches : List (List GlobToken) → List (List Expression)
  | [] => []
  | g :: gs =>
      match ofTokens g with
      | [] => ofBranches gs
      | e => e :: ofBranches gs

/-- The sequence some tokens stand for. -/
def ofTokens : List GlobToken → List Expression
  | [] => []
  | t :: ts => ofToken t ++ ofTokens ts

end

/-- The sequence a glob stands for. -/
def ofGlob (g : Glob) : List Expression :=
  match g with
  | [.leadingDirs] => [.repeated .any]
  | _ => ofTokens g

/-! ## How deep expressions nest -/

/-- The levels a sequence or choice of `n` parts adds. -/
def levels (n : Nat) : Nat := if 1 < n then 1 else 0

mutual

/-- The number of levels of an expression. -/
def depth : Expression → Nat
  | .byte _ | .any => 0
  | .oneOf _ ranges => 1 + levels ranges.length
  | .optional e | .repeated e => 1 + e.depth
  | .choice branches => 1 + levels branches.length + depthOfBranches branches

/-- The largest number of levels of some sequences. -/
def depthOfBranches : List (List Expression) → Nat
  | [] => 0
  | es :: branches => max (levels es.length + depthOfParts es) (depthOfBranches branches)

/-- The largest number of levels of some expressions. -/
def depthOfParts : List Expression → Nat
  | [] => 0
  | e :: es => max e.depth (depthOfParts es)

end

/-- The most levels that an expression may have. -/
def maxDepth : Nat := 250

/-- Whether a sequence between its anchors has too many levels. -/
def isTooDeep (es : List Expression) : Bool := maxDepth < 1 + depthOfParts es

/-! ## The text of an expression -/

/-- The characters that have a meaning of their own in an expression. -/
def metaChars : Text := "\\.+*?()|[]\x7b\x7d^$#&-~".toList

/-- The text of a byte. -/
def byteText (b : UInt8) : Text :=
  let c := Char.ofNat b.toNat
  if 0x80 ≤ b then ['\\', 'x'] ++ Nat.toDigits 16 b.toNat
  else if metaChars.elem c then ['\\', c]
  else [c]

/-- The text of a range of bytes. -/
def rangeText (range : UInt8 × UInt8) : Text :=
  if range.1 = range.2 then byteText range.1
  else byteText range.1 ++ ['-'] ++ byteText range.2

mutual

/-- The text of an expression. -/
def text : Expression → Text
  | .byte b => byteText b
  | .any => ['.']
  | .oneOf negated ranges =>
      ['['] ++ (if negated then ['^'] else []) ++ ranges.flatMap rangeText ++ [']']
  | .optional e => e.text ++ ['?']
  | .repeated e => e.text ++ ['*']
  | .choice branches => ['(', '?', ':'] ++ Text.join ['|'] (branchTexts branches) ++ [')']

/-- The texts of some sequences. -/
def branchTexts : List (List Expression) → List Text
  | [] => []
  | es :: branches => partsText es :: branchTexts branches

/-- The text of a sequence. -/
def partsText : List Expression → Text
  | [] => []
  | e :: es => e.text ++ partsText es

end

/-- The text of a sequence between its anchors. -/
def anchoredText (es : List Expression) : Text := "(?-u)^".toList ++ partsText es ++ ['$']

end Expression

end Stylewire
