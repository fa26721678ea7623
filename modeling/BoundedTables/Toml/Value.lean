import BoundedTables.Toml.Moment
import BoundedTables.Toml.Number

/-!
# Values in TOML

Strings, flags, numbers, dates, arrays and inline tables. An inline table stands on one line, and
its keys may be paths; a path may go on only through tables that other paths made. A value is read
from tokens first and turned into a tree afterwards; only then is it checked that dates are dates
and that no key is there twice.
-/

namespace BoundedTables.Toml

/-- A value as it is written. -/
inductive Value where
  /-- A string, a flag or a number. -/
  | scalar (value : Tree)
  /-- What is to be a date or a time. -/
  | moment (written : List Char)
  | array (items : List Value)
  /-- A table, and whether the path of a key made it. -/
  | table (byPath : Bool) (members : List (String × Value))

namespace Value

/-- Drop the blanks in front. -/
def skipBlanks : List Token → List Token
  | .blanks _ :: ts => ts
  | ts => ts

/-- Drop the blanks and line ends in front. -/
def skipLines : List Token → List Token
  | .blanks _ :: ts => skipLines ts
  | .lineEnd :: ts => skipLines ts
  | ts => ts

/-- Take a mark off. -/
def expect? (c : Char) : List Token → Option (List Token)
  | .mark d :: ts => if d = c then some ts else none
  | _ => none

/-- A key, or several joined by points, with the blanks around them. The fuel bounds the keys. -/
def path? : Nat → List Token → Option (List String × List Token)
  | 0, _ => none
  | fuel + 1, ts => do
      let (name, ts) ←
        match skipBlanks ts with
        | .word letters :: ts => some (String.ofList letters, ts)
        | .string false text :: ts => some (text, ts)
        | _ => none
      match skipBlanks ts with
      | .mark '.' :: ts =>
          let (names, ts) ← path? fuel ts
          pure (name :: names, ts)
      | ts => pure ([name], ts)

/-- Whether a word may start a number or a date. -/
def startsNumber (cs : List Char) : Bool :=
  cs.head?.any (fun c => c.isDigit || c = '-') || cs = ['i', 'n', 'f'] || cs = ['n', 'a', 'n']

/-- Whether a word can only be a date, or the start of one: it has a `T`, or a dash behind its
first character that is not the sign of an exponent. -/
def startsMoment (cs : List Char) : Bool :=
  let hasSignedExponent := (cs.zip (cs.drop 1)).any fun (c, d) => Number.isExponentMark c && d = '-'
  cs.any (fun c => c = 'T' || c = 't') || ((cs.drop 1).contains '-' && !hasSignedExponent)

/-- A word behind a mark, if the mark is there. -/
def part? (c : Char) (ts : List Token) : Option (List Char × List Token) :=
  match ts with
  | .mark d :: rest =>
      if d = c then
        match rest with
        | .word letters :: rest => some (c :: letters, rest)
        | _ => none
      else some ([], ts)
  | _ => some ([], ts)

/-- The minutes and everything behind them, after the colon behind the hours. -/
def minutes? : List Token → Option (List Char × List Token)
  | .word minute :: .mark ':' :: .word second :: ts => do
      let (fraction, ts) ← part? '.' ts
      let (east, ts) ← part? '+' ts
      let (offset, ts) ← part? ':' ts
      pure (':' :: minute ++ ':' :: second ++ fraction ++ east ++ offset, ts)
  | _ => none

/-- A date or a time, from its first word and the tokens behind it. One blank may stand between
a date and its time. -/
def moment? (cs : List Char) (ts : List Token) : Option (Value × List Token) :=
  let (written, ts) :=
    match ts with
    | .blanks [' '] :: .word hour :: rest => (cs ++ ' ' :: hour, rest)
    | _ => (cs, ts)
  match ts with
  | .mark ':' :: ts => (minutes? ts).map fun (more, ts) => (.moment (written ++ more), ts)
  | _ => some (.moment written, ts)

/-- A flag, a number, a date or a time, from its first word and the tokens behind it. -/
def ofWord? (cs : List Char) (ts : List Token) : Option (Value × List Token) :=
  match cs with
  | ['t', 'r', 'u', 'e'] => some (.scalar (.bool true), ts)
  | ['f', 'a', 'l', 's', 'e'] => some (.scalar (.bool false), ts)
  | _ =>
      if !startsNumber cs then none
      else if startsMoment cs || ts.head? = some (.mark ':') then moment? cs ts
      else (Number.ofWord? cs ts).map fun (t, ts) => (.scalar t, ts)

/-- Add a value under a path. Whether a last name is there already is checked later. -/
def insert? (ms : List (String × Value)) (v : Value) :
    List String → Option (List (String × Value))
  | [] => none
  | [name] => some (ms ++ [(name, v)])
  | name :: path => do
      match ms.span fun m => m.1 != name with
      | (front, []) => pure (front ++ [(name, .table true (← insert? [] v path))])
      | (front, (_, .table true below) :: back) =>
          pure (front ++ (name, .table true (← insert? below v path)) :: back)
      | _ => none

mutual

/-- Read a value off the front. The fuel bounds the tokens read. -/
def read? : Nat → List Token → Option (Value × List Token)
  | 0, _ => none
  | fuel + 1, ts =>
      match ts with
      | .string _ text :: ts => some (.scalar (.text text), ts)
      | .word letters :: ts => ofWord? letters ts
      | .mark '+' :: .word letters :: ts =>
          (Number.ofWord? letters ts).map fun (t, ts) => (.scalar t, ts)
      | .mark '[' :: ts => items? fuel [] ts
      | .mark '\x7b' :: ts =>
          match skipBlanks ts with
          | .mark '\x7d' :: ts => some (.table false [], ts)
          | ts => members? fuel [] ts
      | _ => none

/-- The rest of an array, after the items read so far in reverse. -/
def items? : Nat → List Value → List Token → Option (Value × List Token)
  | 0, _, _ => none
  | fuel + 1, read, ts =>
      match skipLines ts with
      | .mark ']' :: ts => some (.array read.reverse, ts)
      | ts => do
          let (v, ts) ← read? fuel ts
          match skipLines ts with
          | .mark ',' :: ts => items? fuel (v :: read) ts
          | .mark ']' :: ts => some (.array (v :: read).reverse, ts)
          | _ => none

/-- The rest of an inline table, after the members read so far. -/
def members? : Nat → List (String × Value) → List Token → Option (Value × List Token)
  | 0, _, _ => none
  | fuel + 1, read, ts => do
      let (path, ts) ← path? fuel ts
      let ts ← expect? '=' ts
      let (v, ts) ← read? fuel (skipBlanks ts)
      let read ← insert? read v path
      match skipBlanks ts with
      | .mark ',' :: ts => members? fuel read ts
      | .mark '\x7d' :: ts => some (.table false read, ts)
      | _ => none

end

/-- The first key of a table that stands for a date or a time. -/
def momentKey : String := "$__toml_private_datetime"

/-- The text of a date or a time. -/
def momentTree? (cs : List Char) : Option Tree := (Moment.ofText? cs).map fun m => .text m.text

mutual

/-- The tree of a value. -/
def toTree? : Value → Option Tree
  | .scalar t => some t
  | .moment written => momentTree? written
  | .array items => (itemTrees? items).map .list
  | .table _ ms => tableTree? [] ms

/-- The trees of the items of an array. -/
def itemTrees? : List Value → Option (List Tree)
  | [] => some []
  | v :: rest => do
      let t ← v.toTree?
      pure (t :: (← itemTrees? rest))

/-- The tree of a table, from its members read so far and those that follow. No key may be there
twice, and a table whose first key is the reserved one is the date or time under it. -/
def tableTree? (read : List (String × Tree)) : List (String × Value) → Option Tree
  | [] => some (.table read)
  | (name, v) :: rest =>
      if read.isEmpty && name = momentKey then
        match v with
        | .scalar (.text s) => momentTree? s.toList
        | _ => none
      else if (Tree.member? read name).isSome then none
      else do tableTree? (read ++ [(name, ← v.toTree?)]) rest

end

end Value

end BoundedTables.Toml
