import Stylewire.Bracket
import Stylewire.Error

set_option autoImplicit false

/-! # Argument lists

The argument list of a call runs from the first `(` at or after the call to the bracket that
closes it. Its arguments are separated by the commas of depth zero between the two. Two
things are read off it:

* the *options object*, the third argument, if its first character that is no blank is `{`
  (`ArgumentList.options`);
* all arguments that start with `{`, each up to the bracket that closes this brace
  (`ArgumentList.objects`).
-/

namespace Stylewire

/-- A stretch of text from one bracket to another, both included. -/
structure BracketSpan where
  first : Nat
  last : Nat
deriving Repr, DecidableEq

/-- The text of a span. -/
def BracketSpan.body (s : BracketSpan) (t : Text) : Text := t.slice s.first (s.last + 1)

/-- The extent of one call's argument list. -/
structure ArgumentList where
  /-- The position of the opening parenthesis. -/
  opening : Nat
  /-- The position of the bracket that closes it. -/
  closing : Nat
  /-- The third argument, if it is an object. -/
  options : Option BracketSpan
deriving Repr, DecidableEq

namespace ArgumentList

/-- The text between the parentheses. -/
def arguments (a : ArgumentList) (t : Text) : Text := t.slice (a.opening + 1) a.closing

/-! ## Reading an argument list -/

/-- Reads on after the opening parenthesis, from position `pos` of the text `whole`, of which
`rest` is what remains. `depth` is the depth within the list, counted from `1`, `commas` the
number of separating commas so far, and `awaiting` says that the third argument has begun
but so far holds blanks only. Gives the position of the closing bracket and the options
object. The number of commas has no bound: a signed counter of 32 bits agrees with it in every list
of fewer than 2 ^ 31 separating commas. -/
def readFrom (whole : Text) : (pos : Nat) → (depth : Int) → (commas : Nat) →
    (awaiting : Bool) → (options : Option BracketSpan) → (rest : Text) →
    Option (Nat × Option BracketSpan)
  | _, _, _, _, _, [] => none
  | pos, depth, commas, awaiting, options, c :: rest =>
      let starts := awaiting && !isAsciiBlank c
      let object := if starts && c == '{' then Brackets.all.closing? whole pos else none
      if starts && c == '{' && object.isNone then none
      else
        let options := match object with
          | some last => some ⟨pos, last⟩
          | none => options
        let depth := depth + Brackets.all.weight c
        if depth = 0 then some (pos, options)
        else if c = ',' ∧ depth = 1 then
          readFrom whole (pos + 1) depth (commas + 1) (commas + 1 == 2) options rest
        else readFrom whole (pos + 1) depth commas (awaiting && !starts) options rest

/-- The argument list of the call at position `start`; there is none if no parenthesis
follows or if it is never closed. -/
def read? (t : Text) (start : Nat) : Option ArgumentList :=
  let rest := t.drop start
  if '(' ∈ rest then
    let opening := start + (rest.takeWhile (· != '(')).length
    (readFrom t (opening + 1) 1 0 false none (t.drop (opening + 1))).map
      fun (closing, options) => ⟨opening, closing, options⟩
  else none

/-- The argument list of the call at a byte offset. -/
def readByte (t : Text) (offset : Nat) : Except Error ArgumentList :=
  match (t.position? offset).bind (read? t) with
  | some a => .ok a
  | none => .error (.unclosedArguments offset)

/-! ## The arguments that are objects -/

/-- The objects among the arguments in the rest of a list that closes at `closing`. The rest
starts at position `pos` of the text `whole`, its first `skip` characters belong to the
object found last, `depth` is the depth within the list, and `fresh` says that the current
argument holds blanks only so far. -/
def objectsFrom (whole : Text) (closing : Nat) : (skip pos : Nat) → (depth : Int) →
    (fresh : Bool) → (rest : Text) → List BracketSpan
  | _, _, _, _, [] => []
  | skip + 1, pos, depth, fresh, _ :: rest =>
      objectsFrom whole closing skip (pos + 1) depth fresh rest
  | 0, pos, depth, fresh, c :: rest =>
      let starts := fresh && !isAsciiBlank c
      let object :=
        if starts && c == '{' then (Brackets.all.closing? whole pos).filter (· < closing)
        else none
      match object with
      | some last => ⟨pos, last⟩ :: objectsFrom whole closing (last - pos) (pos + 1) depth false rest
      | none =>
          let depth := depth + Brackets.all.weight c
          if c = ',' ∧ depth = 0 then objectsFrom whole closing 0 (pos + 1) depth true rest
          else objectsFrom whole closing 0 (pos + 1) depth (fresh && !starts) rest

/-- The arguments that are objects, in order. Objects inside other arguments are not among
them. -/
def objects (a : ArgumentList) (t : Text) : List BracketSpan :=
  objectsFrom t a.closing 0 (a.opening + 1) 0 true (a.arguments t)

end ArgumentList

end Stylewire
