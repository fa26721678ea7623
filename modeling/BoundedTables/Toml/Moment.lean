import BoundedTables.Decimal.Text
import BoundedTables.Decimal.Scan

/-!
# Dates and times in TOML

A moment is a day, a time of day, or a day with a time of day and perhaps an offset. All fields
are padded with zeros. The calendar is not consulted: a day counts up to thirty-one in every
month, an hour up to twenty-four, and an offset may be any two pairs of digits.
-/

namespace BoundedTables.Toml

open Decimal

/-- A day. -/
structure Day where
  year : Nat
  month : Nat
  day : Nat
  deriving DecidableEq, Repr

/-- A time of day. -/
structure DayTime where
  hour : Nat
  minute : Nat
  second : Nat
  nanosecond : Nat
  deriving DecidableEq, Repr

/-- How far a time of day is from the time at Greenwich. The minutes have no sign of their own. -/
inductive Offset where
  | zero
  | shifted (hours : Int) (minutes : Nat)
  deriving DecidableEq, Repr

/-- A day, a time of day, or both with or without an offset. -/
structure Moment where
  day : Option Day
  time : Option DayTime
  offset : Option Offset
  deriving DecidableEq, Repr

namespace Moment

/-- A number of exactly `count` digits. -/
def field? (count : Nat) (cs : List Char) : Option (Nat × List Char) :=
  let digits := cs.take count
  if digits.length < count then none else (natOfDigits? digits).map (·, cs.drop count)

/-- Take a character off. -/
def expect? (c : Char) : List Char → Option (List Char)
  | d :: rest => if d = c then some rest else none
  | [] => none

/-- Read a day off the front. -/
def day? (cs : List Char) : Option (Day × List Char) := do
  let (year, rest) ← field? 4 cs
  let rest ← expect? '-' rest
  let (month, rest) ← field? 2 rest
  let rest ← expect? '-' rest
  let (day, rest) ← field? 2 rest
  if 1 ≤ month ∧ month ≤ 12 ∧ 1 ≤ day ∧ day ≤ 31 then some (⟨year, month, day⟩, rest) else none

/-- Read the fraction of a second off the front, if there is one. Its first nine digits count. -/
def fraction? : List Char → Option (Nat × List Char)
  | '.' :: rest =>
      let digits := rest.takeWhile Char.isDigit
      if digits = [] then none
      else
        let kept := digits.take 9
        some (foldDigits 10 0 (kept ++ zeros (9 - kept.length)), rest.dropWhile Char.isDigit)
  | cs => some (0, cs)

/-- Read a time of day off the front. -/
def time? (cs : List Char) : Option (DayTime × List Char) := do
  let (hour, rest) ← field? 2 cs
  let rest ← expect? ':' rest
  let (minute, rest) ← field? 2 rest
  let rest ← expect? ':' rest
  let (second, rest) ← field? 2 rest
  let (nanosecond, rest) ← fraction? rest
  if hour ≤ 24 ∧ minute ≤ 59 ∧ second ≤ 59 then some (⟨hour, minute, second, nanosecond⟩, rest)
  else none

/-- The offset that a whole text spells; an empty one spells none. -/
def offset? : List Char → Option (Option Offset)
  | [] => some none
  | ['Z'] | ['z'] => some (some .zero)
  | c :: rest => do
      if c ≠ '+' ∧ c ≠ '-' then none
      else
        let (hours, rest) ← field? 2 rest
        let rest ← expect? ':' rest
        let (minutes, rest) ← field? 2 rest
        let hours : Int := hours
        if rest = [] then some (some (.shifted (if c = '-' then -hours else hours) minutes))
        else none

/-- Whether a time may follow a day behind this character. -/
def isDelimiter (c : Char) : Bool := c = 'T' || c = 't' || c = ' '

/-- The moment that a whole text spells. A time of day is told by its first colon. -/
def ofText? (cs : List Char) : Option Moment := do
  if cs[2]? = some ':' then
    let (time, rest) ← time? cs
    if rest = [] then some ⟨none, some time, none⟩ else none
  else
    let (day, rest) ← day? cs
    match rest with
    | [] => some ⟨some day, none, none⟩
    | c :: rest =>
        if isDelimiter c then
          let (time, rest) ← time? rest
          let offset ← offset? rest
          some ⟨some day, some time, offset⟩
        else none

/-- A number padded with zeros. -/
def padded (width n : Nat) : String :=
  let digits := Nat.toDigits 10 n
  String.ofList (zeros (width - digits.length) ++ digits)

/-- The written form of a day. -/
def dayText (d : Day) : String :=
  padded 4 d.year ++ "-" ++ padded 2 d.month ++ "-" ++ padded 2 d.day

/-- The written form of the fraction of a second, without zeros at its end. -/
def fractionText (nanosecond : Nat) : String :=
  if nanosecond = 0 then ""
  else
    let digits := (padded 9 nanosecond).toList.reverse.dropWhile (· = '0')
    String.ofList ('.' :: digits.reverse)

/-- The written form of a time of day. -/
def timeText (t : DayTime) : String :=
  padded 2 t.hour ++ ":" ++ padded 2 t.minute ++ ":" ++ padded 2 t.second
    ++ fractionText t.nanosecond

/-- The written form of an offset. The sign is that of the hours, and zero hours have a plus. -/
def offsetText : Offset → String
  | .zero => "Z"
  | .shifted hours minutes =>
      (if hours < 0 then "-" else "+") ++ padded 2 hours.natAbs ++ ":" ++ padded 2 minutes

/-- The written form of a moment. -/
def text (m : Moment) : String :=
  let day := m.day.elim "" dayText
  let time := m.time.elim "" timeText
  let separator := if m.day.isSome ∧ m.time.isSome then "T" else ""
  day ++ separator ++ time ++ m.offset.elim "" offsetText

end Moment

end BoundedTables.Toml
