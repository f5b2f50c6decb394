import Stylewire.Toml.Document
import Stylewire.Toml.Quoted
import Stylewire.Toml.Scalar

set_option autoImplicit false

/-! # Reading TOML documents

A document is a list of lines, each with a key and its value, the header of a table, or
nothing, and a comment at its end. A document that breaks a rule has no value; which rule it
breaks is not told.
-/

namespace Stylewire.Toml

/-! ## Blanks, comments and line ends -/

/-- Whether `c` is a blank within a line. -/
def isSpace (c : Char) : Bool := c == ' ' || c == '\t'

/-- The text without the blanks it starts with. -/
def dropSpace (t : Text) : Text := t.dropWhile isSpace

/-- The text after blanks, line breaks and comments; `comment` says that a comment has
begun. There is none if a comment holds a control character. -/
def dropTrivia (comment : Bool) : Text → Option Text
  | [] => some []
  | c :: t =>
      if startsBreak c t then dropTrivia false t
      else if comment then if isPrintable c then dropTrivia true t else none
      else if isSpace c then dropTrivia false t
      else if c = '#' then dropTrivia true t
      else some (c :: t)

/-- The text after the end of a line, before which there may be blanks and a comment. It has
been reached when the text is over. -/
def lineEnd? (comment : Bool) : Text → Option Text
  | [] => some []
  | c :: t =>
      if startsBreak c t then some (dropBreak (c :: t))
      else if comment then if isPrintable c then lineEnd? true t else none
      else if isSpace c then lineEnd? false t
      else if c = '#' then lineEnd? true t
      else none

/-! ## Keys -/

/-- Whether `c` may stand in a key without quotes. -/
def isBareKeyChar (c : Char) : Bool := c.isAlphanum || c == '_' || c == '-'

/-- Reads one part of a key. -/
def keyPart? (t : Text) : Option (Text × Text) :=
  match t with
  | c :: _ =>
      if c == '"' || c == '\'' then quoted? false t
      else
        let bare := t.takeWhile isBareKeyChar
        if bare.isEmpty then none else some (bare, t.dropWhile isBareKeyChar)
  | [] => none

/-- Reads the parts of a key, no more than `limit`, and the blanks after them. -/
def keyParts? : (limit : Nat) → Text → Option (List Text × Text)
  | 0, _ => none
  | limit + 1, t => do
      let (part, r) ← keyPart? (dropSpace t)
      match dropSpace r with
      | '.' :: r =>
          let (parts, r) ← keyParts? limit r
          return (part :: parts, r)
      | r => return ([part], r)

/-- The most that a document may nest: the parts of a key, and arrays and tables in braces. -/
def maxDepth : Nat := 80

/-- Reads a key with dots, and the blanks after it. -/
def key? (t : Text) : Option (List Text × Text) := keyParts? maxDepth t

/-! ## Values -/

/-- Whether `c` ends a word without quotes. -/
def endsWord (c : Char) : Bool :=
  isSpace c || c == '\r' || c == '\n' || c == '#' || c == ',' || c == ']' || c == '}'

/-- Reads a word without quotes. A date may go on with a time after a single blank. -/
def word? (t : Text) : Option (Value × Text) :=
  let w := t.takeWhile (!endsWord ·)
  let r := t.dropWhile (!endsWord ·)
  let joined := match r with
    | ' ' :: c :: _ => date? w == some [] && c.isDigit
    | _ => false
  if joined then
    let r := r.drop 1
    (scalar? (w ++ [' '] ++ r.takeWhile (!endsWord ·))).map fun v =>
      (v, r.dropWhile (!endsWord ·))
  else (scalar? w).map fun v => (v, r)

mutual

/-- Reads a value that stands inside `depth` arrays and tables in braces. -/
def value? : (fuel depth : Nat) → Text → Option (Value × Text)
  | 0, _, _ => none
  | fuel + 1, depth, t =>
      match t with
      | '[' :: r => if depth < maxDepth then elements? fuel (depth + 1) [] r else none
      | '{' :: r => if depth < maxDepth then pairs? fuel (depth + 1) [] r else none
      | c :: _ =>
          if c == '"' || c == '\'' then
            (quoted? true t).map fun (s, r) => (.string s, r)
          else word? t
      | [] => none

/-- Reads the rest of an array, of which `acc` has been read, in reverse. -/
def elements? : (fuel depth : Nat) → (acc : List Value) → Text → Option (Value × Text)
  | 0, _, _, _ => none
  | fuel + 1, depth, acc, t => do
      match (← dropTrivia false t) with
      | ']' :: r => return (.array acc.reverse, r)
      | t =>
          let (v, r) ← value? fuel depth t
          match (← dropTrivia false r) with
          | ',' :: r => elements? fuel depth (v :: acc) r
          | ']' :: r => return (.array (v :: acc).reverse, r)
          | _ => none

/-- Reads the rest of a table in braces, of which `acc` has been read. -/
def pairs? : (fuel depth : Nat) → (acc : Entries) → Text → Option (Value × Text)
  | 0, _, _, _ => none
  | fuel + 1, depth, acc, t => do
      match (← dropTrivia false t) with
      | '}' :: r => return (.table (Entry.toValues acc), r)
      | t =>
          let (path, r) ← key? t
          match (← dropTrivia false r) with
          | '=' :: r =>
              let (v, r) ← value? fuel depth (← dropTrivia false r)
              let acc ← acc.insert path v
              match (← dropTrivia false r) with
              | ',' :: r => pairs? fuel depth acc r
              | '}' :: r => return (.table (Entry.toValues acc), r)
              | _ => none
          | _ => none

end

/-! ## Documents -/

/-- What has been read of a document: its entries, and the table that new keys go to. -/
structure Progress where
  root : Entries := []
  current : List Text := []

/-- Reads one line. -/
def line? (fuel : Nat) (p : Progress) (t : Text) : Option (Progress × Text) :=
  match dropSpace t with
  | '[' :: '[' :: r => do
      let (path, r) ← key? r
      match r with
      | ']' :: ']' :: r => return (⟨← p.root.openTables path, path⟩, ← lineEnd? false r)
      | _ => none
  | '[' :: r => do
      let (path, r) ← key? r
      match r with
      | ']' :: r => return (⟨← p.root.openTable path, path⟩, ← lineEnd? false r)
      | _ => none
  | [] => some (p, [])
  | c :: r =>
      if startsBreak c r || c == '#' then (lineEnd? false (c :: r)).map fun r => (p, r)
      else do
        let (path, r) ← key? (c :: r)
        match r with
        | '=' :: r =>
            let (v, r) ← value? fuel 0 (dropSpace r)
            let root ← p.root.update (fun es => es.insert path v) p.current
            return ({ p with root }, ← lineEnd? false r)
        | _ => none

/-- Reads line after line. -/
def lines? : (fuel : Nat) → Progress → Text → Option Progress
  | 0, _, _ => none
  | fuel + 1, p, t =>
      if t.isEmpty then some p
      else do
        let (p, r) ← line? (2 * t.length + 2) p t
        lines? fuel p r

/-- Reads a document, which may start with a byte order mark. -/
def parse? (t : Text) : Option (List (Text × Value)) :=
  let t := if t.head? == some '\ufeff' then t.drop 1 else t
  (lines? (t.length + 1) {} t).map fun p => Entry.toValues p.root

end Stylewire.Toml
