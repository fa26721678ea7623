/-!
# Positions in YAML text

The characters still to be read, with the line and the column of the first one. A text ends at its
first null character.
-/

namespace BoundedTables.Yaml

/-- The rest of a text and where it starts. -/
structure Reader where
  rest : List Char
  /-- The number of characters of the whole text. -/
  size : Nat
  index : Nat
  line : Nat
  column : Nat

/-- The character that stands for the end of the text. -/
def endMark : Char := Char.ofNat 0

/-- A line end. -/
def isBreak (c : Char) : Bool := c = '\n' || c = '\r'

/-- A blank within a line. -/
def isBlank (c : Char) : Bool := c = ' ' || c = '\t'

/-- A blank, a line end or the end of the text. -/
def isSpace (c : Char) : Bool := isBlank c || isBreak c || c = endMark

/-- A character that delimits flow collections. -/
def isFlow (c : Char) : Bool := c = ',' || c = '[' || c = ']' || c = '\x7b' || c = '\x7d'

/-- A character of anchor names and tag handles. -/
def isWordChar (c : Char) : Bool := c.isAlphanum || c = '_' || c = '-'

namespace Reader

/-- The start of a text. -/
def ofText (s : String) : Reader :=
  let rest := s.toList.takeWhile (· != endMark)
  { rest, size := rest.length, index := 0, line := 0, column := 0 }

/-- The number of characters that are left. -/
def left (r : Reader) : Nat := r.size - r.index

/-- The next character, or the end mark. -/
def peek (r : Reader) : Char := r.rest.headD endMark

/-- The character after the next one, or the end mark. -/
def second (r : Reader) : Char := (r.rest.drop 1).headD endMark

/-- Whether the text ends here. -/
def atEnd (r : Reader) : Bool := r.rest.isEmpty

/-- Pass over the next character. -/
def skip (r : Reader) : Reader :=
  match r.rest with
  | [] => r
  | '\n' :: rest => { r with rest, index := r.index + 1, line := r.line + 1, column := 0 }
  | _ :: rest => { r with rest, index := r.index + 1, column := r.column + 1 }

/-- Pass over a number of characters. -/
def skipMany (r : Reader) : Nat → Reader
  | 0 => r
  | n + 1 => r.skip.skipMany n

/-- Pass over the characters up to the first one without a property. -/
def skipWhile (r : Reader) (p : Char → Bool) : Reader := r.skipMany (r.rest.takeWhile p).length

/-- Pass over one line end. -/
def skipBreak (r : Reader) : Reader :=
  if r.peek = '\r' ∧ r.second = '\n' then r.skip.skip
  else if isBreak r.peek then r.skip
  else r

/-- Whether a document marker made of one character stands at the start of a line here. -/
def atMarker (r : Reader) (mark : Char) : Bool :=
  r.column = 0 && r.rest.take 3 == [mark, mark, mark] && isSpace ((r.rest.drop 3).headD endMark)

/-- Whether a document starts or ends here. -/
def atDocumentMarker (r : Reader) : Bool := r.atMarker '-' || r.atMarker '.'

/-- Pass over a comment. -/
def skipComment (r : Reader) : Reader := r.skipWhile fun c => !isBreak c

end Reader

end BoundedTables.Yaml
