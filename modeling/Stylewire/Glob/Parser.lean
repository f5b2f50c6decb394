import Stylewire.Glob.Basic
import Stylewire.Text.Basic

set_option autoImplicit false

/-! # Reading globs

* `?` and `*` stay within a directory, `\c` is the character `c` itself.
* `**` at the start of a branch and before `/` or the end stands for leading directories.
  `**` after `/` stands, together with that `/`, for inner directories if a `/` follows, and
  for everything below if the branch ends. Any other `**` is two `*`.
* `[…]` is a class of characters, negated if it starts with `!` or `^`. A `]` or `-` that
  comes first, and a `-` that comes last, is a member.
* `{a,b}` is a group of alternatives, and groups nest.

A lenient reader takes a `[` that is never closed for itself, and so every `[` after it.
-/

namespace Stylewire

namespace Glob

/-! ## Classes -/

/-- The ranges of a class, whose members so far are `ranges`, in reverse. `pending` says that
a `-` after the last member waits for the end of its range. -/
def classRanges (ranges : List (Char × Char)) (pending : Bool) :
    Text → Except GlobError (List (Char × Char))
  | [] => .ok ((if pending then ('-', '-') :: ranges else ranges).reverse)
  | c :: t =>
      match pending, ranges with
      | true, (lo, _) :: others =>
          if c < lo then .error (.invalidRange lo c) else classRanges ((lo, c) :: others) false t
      | _, _ =>
          if c = '-' then classRanges ranges true t else classRanges ((c, c) :: ranges) false t

/-- What a class starting after `[` consists of: whether it is negated, its members, and the
text after its `]`, if it has one. -/
structure ClassText where
  negated : Bool
  members : Text
  rest : Option Text

/-- Splits a text after `[` into the parts of the class. -/
def classText (t : Text) : ClassText :=
  let negated := t.head? == some '!' || t.head? == some '^'
  let body := if negated then t.drop 1 else t
  match body with
  | [] => ⟨negated, [], none⟩
  | first :: more =>
      let inner := more.takeWhile (· != ']')
      let rest := match more.dropWhile (· != ']') with
        | [] => none
        | _ :: r => some r
      ⟨negated, first :: inner, rest⟩

/-- The ranges of a class with the given members, of which the first is always one itself. -/
def membersRanges : Text → Except GlobError (List (Char × Char))
  | [] => .ok []
  | first :: more => classRanges [(first, first)] false more

/-- The text after a class is shorter than the one it starts in. -/
theorem classText_rest_length {t r : Text} (h : (classText t).rest = some r) :
    r.length < t.length := by
  have key : ∀ more : Text, ∀ r : Text,
      (match more.dropWhile (· != ']') with
        | [] => none
        | _ :: r => some r) = some r → r.length < more.length := by
    intro more r h
    have hle : (more.dropWhile (· != ']')).length ≤ more.length :=
      (List.dropWhile_sublist (· != ']')).length_le
    split at h
    · simp at h
    · rename_i heq
      obtain rfl : _ = r := by simpa using h
      rw [heq, List.length_cons] at hle
      omega
  have hdrop : (if (t.head? == some '!' || t.head? == some '^') then t.drop 1 else t).length
      ≤ t.length := by
    split
    · simp
    · exact Nat.le_refl _
  unfold classText at h
  simp only at h
  split at h
  · simp at h
  · rename_i first more heq
    rw [heq] at hdrop
    have := key more r h
    simp only [List.length_cons] at hdrop
    omega

/-! ## Branches and groups -/

/-- The branches read so far: the current one, in reverse, and, for each group that is still
open, the branches of the group that are complete, in reverse, with the branch the group
stands in, in reverse. -/
structure Branches where
  current : List GlobToken := []
  enclosing : List (List (List GlobToken) × List GlobToken) := []

namespace Branches

/-- Adds a token to the current branch. -/
def push (b : Branches) (t : GlobToken) : Branches := { b with current := t :: b.current }

/-- Opens a group. -/
def openGroup (b : Branches) : Branches := ⟨[], ([], b.current) :: b.enclosing⟩

/-- Starts the next branch of the innermost group; outside of groups a comma is a character
like any other. -/
def comma (b : Branches) : Branches :=
  match b.enclosing with
  | [] => b.push (.literal ',')
  | (done, outer) :: groups => ⟨[], (b.current.reverse :: done, outer) :: groups⟩

/-- Closes the innermost group. -/
def closeGroup (b : Branches) : Except GlobError Branches :=
  match b.enclosing with
  | [] => .error .unopenedAlternates
  | (done, outer) :: groups =>
      .ok ⟨.alternates (b.current.reverse :: done).reverse :: outer, groups⟩

/-- The glob, if no group is open. -/
def finish (b : Branches) : Except GlobError Glob :=
  match b.enclosing with
  | [] => .ok b.current.reverse
  | _ :: _ => .error .unclosedAlternates

/-- Puts `**` and the `/` before it down as `dirs`. A token before it that already stands for
any number of directories takes the new one in. -/
def pushDirs (b : Branches) (dirs : GlobToken) : Branches :=
  match b.current with
  | .leadingDirs :: _ | .everythingBelow :: _ => b
  | _ :: ts => { b with current := dirs :: ts }
  | [] => b

/-- Reads `**`, where `prev` is the character before it and `rest` the text after it. Gives
also whether the first character of the rest belongs to it. -/
def doubleStar (b : Branches) (prev : Option Char) (rest : Text) : Branches × Bool :=
  let twoStars := (b.push .anyRun).push .anyRun
  let inGroup := !b.enclosing.isEmpty
  if b.current.isEmpty then
    match rest with
    | [] => (b.push .leadingDirs, false)
    | c :: _ => if c = '/' then (b.push .leadingDirs, true) else (twoStars, false)
  else if prev == some '/' || (inGroup && (prev == some ',' || prev == some '{')) then
    match rest with
    | [] => (b.pushDirs .everythingBelow, false)
    | c :: _ =>
        if c = '/' then (b.pushDirs .innerDirs, true)
        else if inGroup && (c == ',' || c == '}') then (b.pushDirs .everythingBelow, false)
        else (twoStars, false)
  else (twoStars, false)

end Branches

/-! ## The reader -/

/-- Reads the rest of a glob. `prev` is the character before it; `classes` says that `[`
opens a class. -/
def parseFrom (lenient : Bool) (b : Branches) (prev : Option Char) (classes : Bool) :
    Text → Except GlobError Glob
  | [] => b.finish
  | '?' :: t => parseFrom lenient (b.push .anyOne) (some '?') classes t
  | '*' :: '*' :: t =>
      let (b', takes) := b.doubleStar prev t
      match t with
      | [] => b'.finish
      | c :: u =>
          if takes then parseFrom lenient b' (some c) classes u
          else parseFrom lenient b' (some '*') classes (c :: u)
  | '*' :: t => parseFrom lenient (b.push .anyRun) (some '*') classes t
  | '[' :: t =>
      if classes then
        let parts := classText t
        match membersRanges parts.members with
        | .error e => .error e
        | .ok ranges =>
            match h : parts.rest with
            | some r =>
                have : r.length < t.length := classText_rest_length h
                parseFrom lenient (b.push (.oneOf parts.negated ranges)) (some ']') classes r
            | none =>
                if lenient then parseFrom lenient (b.push (.literal '[')) (some '[') false t
                else .error .unclosedClass
      else parseFrom lenient (b.push (.literal '[')) (some '[') classes t
  | '{' :: t => parseFrom lenient b.openGroup (some '{') classes t
  | '}' :: t =>
      match b.closeGroup with
      | .error e => .error e
      | .ok b' => parseFrom lenient b' (some '}') classes t
  | ',' :: t => parseFrom lenient b.comma (some ',') classes t
  | '\\' :: t =>
      match t with
      | [] => .error .danglingEscape
      | c :: u => parseFrom lenient (b.push (.literal c)) (some c) classes u
  | c :: t => parseFrom lenient (b.push (.literal c)) (some c) classes t
termination_by t => t.length
decreasing_by all_goals simp_all <;> omega

/-- Reads a glob. -/
def parse (lenient : Bool) (t : Text) : Except GlobError Glob :=
  parseFrom lenient {} none true t

end Glob

end Stylewire
