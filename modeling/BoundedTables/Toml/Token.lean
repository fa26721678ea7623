import BoundedTables.Text.Hexadecimal

/-!
# TOML tokens

A text is cut into line ends, runs of blanks, marks, words and quoted strings. A word is a run of
letters, digits, dashes and underscores. It may be a bare key, a flag, a number or a part of a
date, and where it stands decides which. Comments reach up to the end of their line and leave no
token. Control characters are refused everywhere, except tabs and, in strings of several lines,
line ends.
-/

namespace BoundedTables.Toml

/-- The tokens of a text. -/
inductive Token where
  | lineEnd
  | blanks (run : List Char)
  | mark (c : Char)
  | word (letters : List Char)
  | string (multiline : Bool) (text : String)
  deriving DecidableEq, Repr

namespace Token

/-- A blank within a line. -/
def isBlank (c : Char) : Bool := c = ' ' || c = '\t'

/-- A mark of punctuation. -/
def isMark (c : Char) : Bool := "=.,:+\x7b\x7d[]".toList.contains c

/-- A character of a word. -/
def isLetter (c : Char) : Bool := c.isAlphanum || c = '_' || c = '-'

/-- A character that may stand in a comment. -/
def isCommentChar (c : Char) : Bool := c = '\t' || 32 ≤ c.toNat

/-- A character that may stand in a string as it is. -/
def isPlain (c : Char) : Bool := isCommentChar c && c.toNat != 127

/-- The character that an escape stands for, from behind its backslash. -/
def escape? : List Char → Option (Char × List Char)
  | 'b' :: rest => some (Char.ofNat 8, rest)
  | 't' :: rest => some ('\t', rest)
  | 'n' :: rest => some ('\n', rest)
  | 'f' :: rest => some (Char.ofNat 12, rest)
  | 'r' :: rest => some ('\r', rest)
  | '"' :: rest => some ('"', rest)
  | '\\' :: rest => some ('\\', rest)
  | 'u' :: rest => Hexadecimal.character? 4 rest
  | 'U' :: rest => Hexadecimal.character? 8 rest
  | _ => none

/-- A backslash at the end of a line, and the blanks and line ends behind it, are not part of a
string of several lines. -/
def joinLines? (cs : List Char) : Option (List Char) :=
  match cs.dropWhile isBlank with
  | '\n' :: rest => some (rest.dropWhile fun c => isBlank c || c = '\n')
  | _ => none

/-- The rest of a string, after the characters read so far in reverse. Backslashes escape between
double quotes only. A string of several lines ends at three quotes in a row; up to two more of
them in front of those belong to it. -/
def enclosed? (quote : Char) (multiline : Bool) :
    Nat → List Char → List Char → Option (String × List Char)
  | 0, _, _ => none
  | _ + 1, _, [] => none
  | fuel + 1, read, c :: rest =>
      if c = quote then
        let run := (c :: rest).takeWhile (· = quote)
        if !multiline then some (String.ofList read.reverse, rest)
        else if run.length < 3 then
          enclosed? quote multiline fuel (run ++ read) ((c :: rest).drop run.length)
        else
          let inner := min (run.length - 3) 2
          some (String.ofList (run.take inner ++ read).reverse, (c :: rest).drop (inner + 3))
      else if c = '\\' ∧ quote = '"' then
        match escape? rest, multiline with
        | some (c, rest), _ => enclosed? quote multiline fuel (c :: read) rest
        | none, true => (joinLines? rest).bind (enclosed? quote multiline fuel read)
        | none, false => none
      else if isPlain c || (multiline && c = '\n') then
        enclosed? quote multiline fuel (c :: read) rest
      else none

/-- A string, from behind its first quote. The line end right behind three opening quotes is not
part of it. -/
def string? (quote : Char) (cs : List Char) : Option (Token × List Char) :=
  let multiline : Bool := cs.take 2 = [quote, quote]
  let inner :=
    if !multiline then cs
    else
      match cs.drop 2 with
      | '\n' :: rest => rest
      | rest => rest
  (enclosed? quote multiline (inner.length + 1) [] inner).map fun (text, rest) =>
    (.string multiline text, rest)

/-- The tokens of the rest of a text, behind those read so far in reverse. -/
def scanAll? : Nat → List Token → List Char → Option (List Token)
  | _, read, [] => some read.reverse
  | 0, _, _ :: _ => none
  | fuel + 1, read, c :: rest =>
      if c = '\n' then scanAll? fuel (.lineEnd :: read) rest
      else if isBlank c then
        scanAll? fuel (.blanks (c :: rest.takeWhile isBlank) :: read) (rest.dropWhile isBlank)
      else if c = '#' then scanAll? fuel read (rest.dropWhile isCommentChar)
      else if isMark c then scanAll? fuel (.mark c :: read) rest
      else if isLetter c then
        scanAll? fuel (.word (c :: rest.takeWhile isLetter) :: read) (rest.dropWhile isLetter)
      else if c = '"' ∨ c = '\'' then
        (string? c rest).bind fun (t, rest) => scanAll? fuel (t :: read) rest
      else none

/-- Line ends of two characters become line ends of one. -/
def unifyLineEnds : List Char → List Char
  | '\r' :: '\n' :: rest => '\n' :: unifyLineEnds rest
  | c :: rest => c :: unifyLineEnds rest
  | [] => []

/-- Drop a byte order mark. -/
def dropByteOrderMark : List Char → List Char
  | c :: rest => if c.toNat = 0xFEFF then rest else c :: rest
  | [] => []

/-- The tokens of a text. -/
def scan? (s : String) : Option (List Token) :=
  let cs := unifyLineEnds (dropByteOrderMark s.toList)
  scanAll? cs.length [] cs

end Token

end BoundedTables.Toml
