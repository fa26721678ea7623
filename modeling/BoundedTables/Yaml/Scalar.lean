import BoundedTables.Text.Hexadecimal
import BoundedTables.Yaml.Reader

/-!
# YAML scalars

Plain, quoted and block scalars. Inside plain and quoted scalars a single line end reads as a
blank, and of several all but the first are kept; block scalars keep their line ends or fold them
likewise, and say themselves what becomes of those at their end.
-/

namespace BoundedTables.Yaml

/-- The blanks and line ends between two words of a scalar. -/
structure Gap where
  /-- The blanks in front of the first line end. -/
  blanks : List Char
  breaks : Nat

/-- What a gap reads as. After an escaped line end nothing is folded. -/
def Gap.fold (g : Gap) (escaped : Bool) : List Char :=
  if escaped then List.replicate g.breaks '\n'
  else
    match g.breaks with
    | 0 => g.blanks
    | 1 => [' ']
    | n + 2 => List.replicate (n + 1) '\n'

/-- Read a gap. With a limit, tabs in front of that column are refused on lines after the first;
`broken` tells whether a line end came before. -/
def gap? (limit : Option Int) : Nat → Bool → Gap → Reader → Option (Gap × Reader)
  | 0, _, g, r => some (g, r)
  | fuel + 1, broken, g, r =>
      if isBlank r.peek then
        if broken then
          let refused := match limit with
            | some column => r.peek = '\t' && decide ((r.column : Int) < column)
            | none => false
          if refused then none else gap? limit fuel true g r.skip
        else gap? limit fuel false { g with blanks := g.blanks ++ [r.peek] } r.skip
      else if isBreak r.peek then gap? limit fuel true { g with breaks := g.breaks + 1 } r.skipBreak
      else some (g, r)

/-- Whether a plain scalar ends at a character. -/
def endsPlain (inFlow : Bool) (r : Reader) : Bool :=
  isSpace r.peek || (r.peek = ':' && (isSpace r.second || (inFlow && isFlow r.second)))
    || (inFlow && isFlow r.peek)

/-- The characters up to the next blank or to the end of a plain scalar. -/
def plainWord (inFlow : Bool) : Nat → Reader → List Char × Reader
  | 0, r => ([], r)
  | fuel + 1, r =>
      if endsPlain inFlow r then ([], r)
      else
        let (word, after) := plainWord inFlow fuel r.skip
        (r.peek :: word, after)

/-- Read a plain scalar whose further lines are indented by `indent`, from its text and its last
gap so far. The flag tells whether it ends on another line than its last word. -/
def plain? (inFlow : Bool) (indent : Int) :
    Nat → List Char → Gap → Reader → Option (String × Bool × Reader)
  | 0, _, _, _ => none
  | fuel + 1, text, g, r =>
      if r.atDocumentMarker ∨ r.peek = '#' then
        some (String.ofList text, decide (0 < g.breaks), r)
      else
        let (word, r) := plainWord inFlow r.left r
        let (text, g) := if word = [] then (text, g) else (text ++ g.fold false ++ word, ⟨[], 0⟩)
        if isBlank r.peek || isBreak r.peek then
          match gap? (some indent) r.left (decide (0 < g.breaks)) g r with
          | none => none
          | some (g, r) =>
              if !inFlow && decide ((r.column : Int) < indent) then
                some (String.ofList text, decide (0 < g.breaks), r)
              else plain? inFlow indent fuel text g r
        else some (String.ofList text, decide (0 < g.breaks), r)

/-- The character with a code given by a number of hexadecimal digits. -/
def codePoint? (digits : Nat) (r : Reader) : Option (Char × Reader) :=
  (Hexadecimal.character? digits r.rest).map fun (c, _) => (c, r.skipMany digits)

/-- The characters with short escapes, by the character behind the backslash. -/
def shortEscapes : List (Char × Nat) :=
  [('0', 0), ('a', 7), ('b', 8), ('t', 9), ('\t', 9), ('n', 10), ('v', 11), ('f', 12), ('r', 13),
    ('e', 27), (' ', 32), ('"', 34), ('\'', 39), ('\\', 92), ('N', 0x85), ('_', 0xA0),
    ('L', 0x2028), ('P', 0x2029)]

/-- The character that an escape stands for, from behind its backslash. -/
def escape? (r : Reader) : Option (Char × Reader) :=
  match r.peek with
  | 'x' => codePoint? 2 r.skip
  | 'u' => codePoint? 4 r.skip
  | 'U' => codePoint? 8 r.skip
  | c => (shortEscapes.lookup c).map fun n => (Char.ofNat n, r.skip)

/-- The characters up to the next blank or the closing quote of a quoted scalar. The flag tells
whether they end with an escaped line end. -/
def quotedWord? (single : Bool) : Nat → Reader → Option (List Char × Bool × Reader)
  | 0, r => some ([], false, r)
  | fuel + 1, r =>
      let continue_ (c : Char) (r : Reader) :=
        (quotedWord? single fuel r).map fun (word, escaped, r) => (c :: word, escaped, r)
      if isSpace r.peek then some ([], false, r)
      else if single then
        if r.peek = '\'' then
          if r.second = '\'' then continue_ '\'' r.skip.skip else some ([], false, r)
        else continue_ r.peek r.skip
      else if r.peek = '"' then some ([], false, r)
      else if r.peek = '\\' then
        if isBreak r.second then some ([], true, r.skip.skipBreak)
        else
          match escape? r.skip with
          | some (c, r) => continue_ c r
          | none => none
      else continue_ r.peek r.skip

/-- Read a quoted scalar from behind its opening quote, from its text so far. -/
def quoted? (single : Bool) : Nat → List Char → Reader → Option (String × Reader)
  | 0, _, _ => none
  | fuel + 1, text, r =>
      if r.atDocumentMarker ∨ r.atEnd then none
      else do
        let (word, escaped, r) ← quotedWord? single (r.left + 1) r
        let text := text ++ word
        if r.peek = (if single then '\'' else '"') then some (String.ofList text, r.skip)
        else
          let (g, r) ← gap? none r.left escaped ⟨[], 0⟩ r
          quoted? single fuel (text ++ g.fold escaped) r

/-- What becomes of the line ends at the end of a block scalar. -/
inductive Chomping where
  /-- All are dropped. -/
  | strip
  /-- One is kept. -/
  | clip
  /-- All are kept. -/
  | keep
  deriving DecidableEq, Repr

/-- The header of a block scalar: how it is chomped, and its indentation if given. -/
def blockHeader? (r : Reader) : Option (Chomping × Nat × Reader) :=
  let sign? (r : Reader) : Option (Chomping × Reader) :=
    if r.peek = '+' then some (.keep, r.skip)
    else if r.peek = '-' then some (.strip, r.skip)
    else none
  let digit? (r : Reader) : Option (Nat × Reader) :=
    if r.peek = '0' then none
    else if r.peek.isDigit then some (r.peek.toNat - 48, r.skip)
    else some (0, r)
  match sign? r with
  | some (chomping, r) => (digit? r).map fun (n, r) => (chomping, n, r)
  | none =>
      (digit? r).map fun (n, r) =>
        match if n = 0 then none else sign? r with
        | some (chomping, r) => (chomping, n, r)
        | none => (.clip, n, r)

/-- Pass over indentation and empty lines in front of a line of a block scalar. The indentation is
zero as long as it is not known. The result has the number of line ends, the largest column
reached and the position; tabs in the indentation are refused. -/
def blockBreaks? (indent : Nat) : Nat → Nat → Nat → Reader → Option (Nat × Nat × Reader)
  | 0, breaks, widest, r => some (breaks, widest, r)
  | fuel + 1, breaks, widest, r =>
      let open_ (r : Reader) : Bool := indent = 0 || r.column < indent
      if open_ r && r.peek = ' ' then blockBreaks? indent fuel breaks widest r.skip
      else
        let widest := max widest r.column
        if open_ r && r.peek = '\t' then none
        else if isBreak r.peek then blockBreaks? indent fuel (breaks + 1) widest r.skipBreak
        else some (breaks, widest, r)

/-- Read the lines of a block scalar. `leading` tells whether a line end is pending behind the
last line, `trailing` counts the empty lines behind it, and `blankBefore` tells whether that line
began with a blank. -/
def blockLines? (literal : Bool) (indent : Nat) :
    Nat → List Char → Bool → Nat → Bool → Reader → Option (List Char × Bool × Nat × Reader)
  | 0, text, leading, trailing, _, r => some (text, leading, trailing, r)
  | fuel + 1, text, leading, trailing, blankBefore, r =>
      if r.column = indent && !r.atEnd then
        let blankHere := isBlank r.peek
        let joined : List Char :=
          if !literal && leading && !blankBefore && !blankHere then
            if trailing = 0 then [' '] else []
          else if leading then ['\n'] else []
        let line := r.rest.takeWhile fun c => !isBreak c
        let text := text ++ joined ++ List.replicate trailing '\n' ++ line
        let r := r.skipMany line.length
        if r.atEnd then some (text, false, 0, r)
        else
          match blockBreaks? indent (r.left + 1) 0 0 r.skipBreak with
          | some (breaks, _, r) => blockLines? literal indent fuel text true breaks blankHere r
          | none => none
      else some (text, leading, trailing, r)

/-- Read a block scalar from behind its indicator, inside a collection indented by `parent`. -/
def block? (literal : Bool) (parent : Int) (r : Reader) : Option (String × Reader) := do
  let (chomping, increment, r) ← blockHeader? r
  let r := r.skipWhile isBlank
  let r := if r.peek = '#' then r.skipComment else r
  if !(isBreak r.peek || r.atEnd) then none
  else
    let given : Nat := if increment = 0 then 0 else (max parent 0).toNat + increment
    let (trailing, widest, r) ← blockBreaks? given (r.left + 1) 0 0 r.skipBreak
    let indent := if given = 0 then max (max widest (parent + 1).toNat) 1 else given
    let (text, leading, trailing, r) ←
      blockLines? literal indent (r.left + 1) [] false trailing false r
    let text := if chomping ≠ .strip ∧ leading then text ++ ['\n'] else text
    let text := if chomping = .keep then text ++ List.replicate trailing '\n' else text
    some (String.ofList text, r)

end BoundedTables.Yaml
