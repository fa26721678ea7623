import BoundedTables.Text.LetterCase

/-!
# Lowercase

A text in lowercase letters. Every letter goes its own way, except the capital sigma, which
becomes another letter at the end of a word.
-/

namespace BoundedTables.Text

/-- The lowercase form of a character by itself. -/
def lowerChar (c : Char) : List Char :=
  let n := c.toNat
  if n < 128 then [c.toLower]
  else if n = 0x130 then ['i', Char.ofNat 0x307]
  else
    match caseRuns.find? fun r => r.first ≤ n && n ≤ r.last && (n - r.first) % r.step = 0 with
    | some r => [Char.ofNat (r.lower + (n - r.first))]
    | none => [c]

/-- Whether some characters begin with a letter that has a case, apart from ignorable ones. -/
def startsCased (cs : List Char) : Bool := (cs.dropWhile isCaseIgnorable).head?.any isCased

/-- The lowercase form of characters that stand behind others, which are given backwards. A
capital sigma ends a word when a letter is before it and none behind it. -/
def lowerBehind (before : List Char) : List Char → List Char
  | [] => []
  | c :: rest =>
      let lowered :=
        if c.toNat = 0x3A3 then
          [Char.ofNat (if startsCased before && !startsCased rest then 0x3C2 else 0x3C3)]
        else lowerChar c
      lowered ++ lowerBehind (c :: before) rest

/-- A text in lowercase letters. -/
def lower (s : String) : String := String.ofList (lowerBehind [] s.toList)

end BoundedTables.Text
