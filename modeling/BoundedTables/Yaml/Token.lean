import BoundedTables.Yaml.Scalar

/-!
# YAML tokens

Indentation becomes explicit tokens for the start and the end of block collections. A node that
may turn out to be a key is remembered until a colon confirms it on the same line, and then a key
token is put in front of it.
-/

namespace BoundedTables.Yaml

/-- The tokens of a stream. -/
inductive Token where
  | directive
  | documentStart
  | documentEnd
  | sequenceStart
  | mappingStart
  | blockEnd
  | flowSequenceStart
  | flowSequenceEnd
  | flowMappingStart
  | flowMappingEnd
  | blockEntry
  | flowEntry
  | key
  | value
  | alias (name : String)
  | anchor (name : String)
  | tag (handle suffix : String)
  | scalar (plain : Bool) (text : String)
  deriving DecidableEq, Repr

/-- A node that may turn out to be a key. -/
structure SimpleKey where
  /-- The number of tokens in front of the node. -/
  place : Nat
  index : Nat
  line : Nat
  column : Nat
  /-- Whether it is an error if the node is not a key. -/
  required : Bool

/-- The tokens so far and what decides about the next one. -/
structure Scanner where
  reader : Reader
  tokens : Array Token
  indent : Int
  indents : List Int
  /-- The candidate key of every open flow collection, innermost first, and of the block. -/
  keys : List (Option SimpleKey)
  keyAllowed : Bool
  /-- Where a value may follow a quoted key without a blank. -/
  adjacentAt : Nat

namespace Scanner

/-- The start of a stream. -/
def ofText (s : String) : Scanner :=
  { reader := .ofText s
    tokens := #[]
    indent := -1
    indents := []
    keys := [none]
    keyAllowed := true
    adjacentAt := 0 }

/-- The number of open flow collections. -/
def flowLevel (s : Scanner) : Nat := s.keys.length - 1

/-- Whether a flow collection is open. -/
def inFlow (s : Scanner) : Bool := s.keys.length != 1

/-- Add a token. -/
def emit (s : Scanner) (t : Token) : Scanner := { s with tokens := s.tokens.push t }

/-- The innermost candidate key. -/
def candidate (s : Scanner) : Option SimpleKey := s.keys.headD none

/-- Replace the innermost candidate key. -/
def setCandidate (s : Scanner) (k : Option SimpleKey) : Scanner :=
  { s with keys := k :: s.keys.tail }

/-- Forget the innermost candidate key, which must not be required. -/
def dropCandidate? (s : Scanner) : Option Scanner :=
  match s.candidate with
  | some k => if k.required then none else some (s.setCandidate none)
  | none => some s

/-- Whether a candidate is out of reach: on an earlier line, or too far back. -/
def isStale (r : Reader) (k : SimpleKey) : Bool := k.line < r.line || k.index + 1024 < r.index

/-- Forget the candidate keys that are out of reach. -/
def dropStale? (s : Scanner) : Option Scanner := do
  let keys ← s.keys.mapM fun k =>
    match k with
    | some k => if isStale s.reader k then if k.required then none else some none else some (some k)
    | none => some none
  pure { s with keys }

/-- Remember the node that starts here as a candidate key, where keys are allowed. -/
def saveCandidate? (s : Scanner) : Option Scanner :=
  if s.keyAllowed then do
    let s ← s.dropCandidate?
    let r := s.reader
    pure (s.setCandidate (some
      { place := s.tokens.size
        index := r.index
        line := r.line
        column := r.column
        required := s.inFlow && decide (s.indent = r.column) }))
  else some s

/-- Open a block collection at a column that is further in, with its token at a place. -/
def indentTo (s : Scanner) (column place : Nat) (t : Token) : Scanner :=
  if s.inFlow ∨ ¬ s.indent < column then s
  else
    { s with
      indents := s.indent :: s.indents
      indent := column
      tokens := s.tokens.insertIdxIfInBounds place t }

/-- Close the block collections that are further in than a column, at most `fuel` of them. -/
def dedentWithin (column : Int) : Nat → Scanner → Scanner
  | 0, s => s
  | fuel + 1, s =>
      if s.indent ≤ column then s
      else
        dedentWithin column fuel
          { s.emit .blockEnd with
            indent := s.indents.headD (-1)
            indents := s.indents.tail }

/-- Close the block collections that are further in than a column. -/
def dedentTo (s : Scanner) (column : Int) : Scanner :=
  if s.inFlow then s else dedentWithin column (s.indents.length + 1) s

/-- Pass over blanks, line ends and comments, at most `fuel` of them. A line end outside of flow
collections allows keys again. -/
def skipSpace : Nat → Scanner → Scanner
  | 0, s => s
  | fuel + 1, s =>
      let r := s.reader
      let c := r.peek
      if c = ' ' || (c = '\t' && (s.inFlow || !s.keyAllowed)) then
        skipSpace fuel { s with reader := r.skip }
      else if isBreak c then
        skipSpace fuel
          { s with
            reader := r.skipBreak
            keyAllowed := s.keyAllowed || !s.inFlow }
      else if c = '#' then skipSpace fuel { s with reader := r.skipComment }
      else s

/-- Move the reader. -/
def moveTo (s : Scanner) (r : Reader) : Scanner := { s with reader := r }

/-- Allow or forbid keys. -/
def allowKey (s : Scanner) (allowed : Bool) : Scanner := { s with keyAllowed := allowed }

/-- A document marker. -/
def documentMarker? (s : Scanner) (t : Token) : Option Scanner := do
  let s ← (s.dedentTo (-1)).dropCandidate?
  pure (((s.allowKey false).moveTo (s.reader.skipMany 3)).emit t)

/-- The number of a version. -/
def versionNumber? (r : Reader) : Option Reader :=
  let digits := r.rest.takeWhile Char.isDigit
  if digits = [] ∨ 9 < digits.length then none else some (r.skipMany digits.length)

/-- A character of a tag. -/
def isTagChar (c : Char) : Bool := isWordChar c || ";/?:@&=+$,.!~*'()[]%".toList.contains c

/-- The octet behind a percent sign. -/
def octet? : List Char → Option Nat
  | '%' :: rest => (Hexadecimal.number? 2 rest).map (·.1)
  | _ => none

/-- How many octets stand for a character, as the first one says. -/
def octetCount? (octet : Nat) : Option Nat :=
  if octet < 0x80 then some 1
  else if octet < 0xC0 then none
  else if octet < 0xE0 then some 2
  else if octet < 0xF0 then some 3
  else if octet < 0xF8 then some 4
  else none

/-- The character that the octets in front stand for, and the number of characters they take. All
bits of the octets together are the code of the character. -/
def escapedChar? (cs : List Char) : Option (Char × Nat) := do
  let first ← octet? cs
  let count ← octetCount? first
  let octets ← (List.range count).mapM fun i => octet? (cs.drop (3 * i))
  let code := octets.foldl (fun n o => n * 256 + o) 0
  if (octets.drop 1).all (fun o => 0x80 ≤ o && o < 0xC0) && decide code.isValidChar then
    some (Char.ofNat code, 3 * count)
  else none

/-- The text of a tag, with the characters that octets stand for. -/
def tagChars? : Nat → List Char → Option (List Char)
  | _, [] => some []
  | 0, _ => none
  | fuel + 1, '%' :: rest => do
      let (c, width) ← escapedChar? ('%' :: rest)
      pure (c :: (← tagChars? fuel (('%' :: rest).drop width)))
  | fuel + 1, c :: rest => do pure (c :: (← tagChars? fuel rest))

/-- Read the text of a tag off the front. -/
def tagText? (r : Reader) : Option (String × Reader) :=
  let cs := r.rest.takeWhile isTagChar
  (tagChars? cs.length cs).map fun text => (String.ofList text, r.skipMany cs.length)

/-- The handle and the meaning of tags, in a directive. A handle has a mark at each end, or is the
mark alone. -/
def tagDirective? (r : Reader) : Option Reader := do
  if r.peek ≠ '!' then none
  else
    let word := r.skip.rest.takeWhile isWordChar
    let r := r.skip.skipMany word.length
    let r ← if r.peek = '!' then some r.skip else if word = [] then some r else none
    let (text, r) ← tagText? (r.skipWhile isBlank)
    if text = "" ∨ !isSpace r.peek then none else some r

/-- The rest of a directive line, behind its name. -/
def directiveRest? (name : String) (r : Reader) : Option Reader :=
  let blanks := r.skipWhile isBlank
  match name with
  | "YAML" => do
      let r ← versionNumber? blanks
      if r.peek = '.' then versionNumber? r.skip else none
  | "TAG" => tagDirective? blanks
  | _ => some r.skipComment

/-- A directive. -/
def directive? (s : Scanner) : Option Scanner := do
  let s ← (s.dedentTo (-1)).dropCandidate?
  let r := s.reader.skip
  let name := r.rest.takeWhile isWordChar
  let r := r.skipMany name.length
  if name = [] ∨ !isSpace r.peek then none
  else
    let r ← directiveRest? (String.ofList name) r
    let r := r.skipWhile isBlank
    let r := if r.peek = '#' then r.skipComment else r
    if isBreak r.peek ∨ r.atEnd then pure (((s.allowKey false).moveTo r.skipBreak).emit .directive)
    else none

/-- The start of a flow collection, which may itself be a key. -/
def flowStart? (s : Scanner) (t : Token) : Option Scanner := do
  let s ← s.saveCandidate?
  if 255 ≤ s.flowLevel then none
  else
    let s := { s with keys := none :: s.keys }
    pure (((s.allowKey true).moveTo s.reader.skip).emit t)

/-- The end of a flow collection. -/
def flowEnd? (s : Scanner) (t : Token) : Option Scanner := do
  let s ← s.dropCandidate?
  let s := if s.inFlow then { s with keys := s.keys.tail } else s
  pure (((s.allowKey false).moveTo s.reader.skip).emit t)

/-- A comma in a flow collection. -/
def flowEntry? (s : Scanner) : Option Scanner := do
  let s ← s.dropCandidate?
  pure (((s.allowKey true).moveTo s.reader.skip).emit .flowEntry)

/-- A dash in front of an item. -/
def blockEntry? (s : Scanner) : Option Scanner := do
  if s.inFlow ∨ !s.keyAllowed then none
  else
    let s ← (s.indentTo s.reader.column s.tokens.size .sequenceStart).dropCandidate?
    pure (((s.allowKey true).moveTo s.reader.skip).emit .blockEntry)

/-- A question mark in front of a key. -/
def explicitKey? (s : Scanner) : Option Scanner := do
  if !s.inFlow ∧ !s.keyAllowed then none
  else
    let s ← (s.indentTo s.reader.column s.tokens.size .mappingStart).dropCandidate?
    pure (((s.allowKey !s.inFlow).moveTo s.reader.skip).emit .key)

/-- A colon in front of a value. It confirms the candidate key. -/
def value? (s : Scanner) : Option Scanner :=
  let finish (s : Scanner) : Scanner := (s.moveTo s.reader.skip).emit .value
  match s.candidate with
  | some k =>
      let s := { s with tokens := s.tokens.insertIdxIfInBounds k.place .key }
      let s := s.indentTo k.column k.place .mappingStart
      some (finish ((s.setCandidate none).allowKey false))
  | none =>
      if s.inFlow then some (finish (s.allowKey false))
      else if s.keyAllowed then
        some (finish ((s.indentTo s.reader.column s.tokens.size .mappingStart).allowKey true))
      else none

/-- An anchor or an alias. -/
def anchor? (s : Scanner) (isAlias : Bool) : Option Scanner := do
  let s ← s.saveCandidate?
  let r := s.reader.skip
  let name := r.rest.takeWhile isWordChar
  let r := r.skipMany name.length
  if name = [] ∨ !(isSpace r.peek || "?:,]\x7d%@\x60".toList.contains r.peek) then none
  else
    let name := String.ofList name
    pure (((s.allowKey false).moveTo r).emit (if isAlias then .alias name else .anchor name))

/-- A tag. -/
def tag? (s : Scanner) : Option Scanner := do
  let s ← s.saveCandidate?
  let r := s.reader
  let finish (r : Reader) (handle suffix : String) : Option Scanner :=
    if isSpace r.peek then some (((s.allowKey false).moveTo r).emit (.tag handle suffix)) else none
  if r.second = '<' then
    let (suffix, r) ← tagText? r.skip.skip
    if suffix = "" ∨ r.peek ≠ '>' then none else finish r.skip "" suffix
  else
    let word := r.skip.rest.takeWhile isWordChar
    let r := r.skip.skipMany word.length
    if r.peek = '!' then
      let (suffix, r) ← tagText? r.skip
      if suffix = "" then none
      else finish r (String.ofList ('!' :: word ++ ['!'])) suffix
    else
      let (suffix, r) ← tagText? r
      let suffix := String.ofList word ++ suffix
      if suffix = "" then finish r "" "!" else finish r "!" suffix

/-- A block scalar. -/
def blockScalar? (s : Scanner) (literal : Bool) : Option Scanner := do
  let s ← s.saveCandidate?
  let (text, r) ← block? literal s.indent s.reader.skip
  pure (((s.allowKey true).moveTo r).emit (.scalar false text))

/-- A quoted scalar. -/
def quotedScalar? (s : Scanner) (single : Bool) : Option Scanner := do
  let s ← s.saveCandidate?
  let r := s.reader.skip
  let (text, r) ← quoted? single (r.left + 1) [] r
  pure { ((s.allowKey false).moveTo r).emit (.scalar false text) with adjacentAt := r.index }

/-- A plain scalar. One that ends on another line than its last word allows keys again. -/
def plainScalar? (s : Scanner) : Option Scanner := do
  let s ← s.saveCandidate?
  let r := s.reader
  let (text, broken, r) ← plain? s.inFlow (s.indent + 1) (r.left + 1) [] ⟨[], 0⟩ r
  pure (((s.allowKey broken).moveTo r).emit (.scalar true text))

/-- Whether a colon here stands in front of a value. -/
def atValue (s : Scanner) : Bool :=
  let r := s.reader
  isSpace r.second || (s.inFlow && (isFlow r.second || r.index = s.adjacentAt))

/-- Read the next token. The scanner stands at its first character. -/
def token? (s : Scanner) : Option Scanner :=
  let r := s.reader
  if r.column = 0 ∧ r.peek = '%' then s.directive?
  else if r.atMarker '-' then s.documentMarker? .documentStart
  else if r.atMarker '.' then s.documentMarker? .documentEnd
  else
    match r.peek with
    | '[' => s.flowStart? .flowSequenceStart
    | '\x7b' => s.flowStart? .flowMappingStart
    | ']' => s.flowEnd? .flowSequenceEnd
    | '\x7d' => s.flowEnd? .flowMappingEnd
    | ',' => s.flowEntry?
    | '-' => if isSpace r.second then s.blockEntry? else s.plainScalar?
    | '?' => if isSpace r.second then s.explicitKey? else s.plainScalar?
    | ':' => if s.atValue then s.value? else s.plainScalar?
    | '*' => s.anchor? true
    | '&' => s.anchor? false
    | '!' => s.tag?
    | '\'' => s.quotedScalar? true
    | '"' => s.quotedScalar? false
    | '%' | '@' | '\x60' => none
    | '|' => if s.inFlow then s.plainScalar? else s.blockScalar? true
    | '>' => if s.inFlow then s.plainScalar? else s.blockScalar? false
    | _ => s.plainScalar?

/-- Read the remaining tokens, at most `fuel` of them. At the end every block collection is
closed. -/
def scan? : Nat → Scanner → Option (List Token)
  | 0, _ => none
  | fuel + 1, s => do
      let s ← (skipSpace (s.reader.left + 1) s).dropStale?
      let s := s.dedentTo s.reader.column
      if s.reader.atEnd then
        let s ← (s.dedentTo (-1)).dropCandidate?
        pure s.tokens.toList
      else scan? fuel (← s.token?)

end Scanner

/-- The tokens of a text. -/
def Token.scan? (s : String) : Option (List Token) := (Scanner.ofText s).scan? (s.length + 1)

end BoundedTables.Yaml
