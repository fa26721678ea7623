import BoundedTables.Text.Hidden

/-!
# Paths

What the text of a path says by itself: its last name, the extension of that name, and the folder
around it. Repeated separators, single points behind a separator and separators at the end do not
count.
-/

namespace BoundedTables.Path

/-- Drop what does not count at the end of a path, which is given backwards. A separator that is
the whole path stays. -/
def dropIdle : List Char → List Char
  | '/' :: c :: rest => dropIdle (c :: rest)
  | '.' :: '/' :: rest => dropIdle ('/' :: rest)
  | cs => cs

/-- The characters of a path, backwards and without what does not count at its end. -/
def backwards (path : String) : List Char := dropIdle path.toList.reverse

/-- A path without what does not count at its end. -/
def trimmed (path : String) : String := String.ofList (backwards path).reverse

/-- The path of the folder around what a path names, empty for a single name. The root and the
empty path have none. -/
def parent? (path : String) : Option String :=
  match backwards path with
  | [] | ['/'] => none
  | cs => some (String.ofList (dropIdle (cs.dropWhile (· != '/'))).reverse)

/-- The last name of a path, unless it is a step up or stays in place. -/
def name? (path : String) : Option String :=
  match String.ofList ((backwards path).takeWhile (· != '/')).reverse with
  | "" | "." | ".." => none
  | name => some name

/-- What follows the last point of the last name. A point in front of the name does not count. -/
def extension? (path : String) : Option String :=
  (name? path).bind fun name =>
    let behind := name.toList.reverse.takeWhile (· != '.')
    let front := (name.toList.reverse.dropWhile (· != '.')).drop 1
    if front = [] then none else some (String.ofList behind.reverse)

/-- The lowercase hexadecimal digits of a number. -/
def hexText (n : Nat) : List Char := Nat.toDigits 16 n

/-- A character in the quoted form of a path. -/
def escape (c : Char) : List Char :=
  match c with
  | '"' => ['\\', '"']
  | '\'' => ['\\', '\'']
  | '\\' => ['\\', '\\']
  | '\n' => ['\\', 'n']
  | '\r' => ['\\', 'r']
  | '\t' => ['\\', 't']
  | _ =>
      if c.toNat = 0 then ['\\', '0']
      else if Text.isHidden c then
        '\\' :: 'u' :: '\x7b' :: hexText c.toNat ++ ['\x7d']
      else [c]

/-- A path in quotes, with quotes, backslashes and characters that do not show escaped. -/
def quote (path : String) : String := "\"" ++ String.ofList (path.toList.flatMap escape) ++ "\""

end BoundedTables.Path
