import BarScript.Text.Digit
import BarScript.Text.Utf8

/-!
# Paths of requests

The target of a request is turned into a path (`Path.ofTarget`): what comes after a question mark or
a hash is cut off, and so is a host in front, the segments `.` and `..` are resolved, and escapes of
bytes are decoded twice.  A path is kept as its characters; its segments are what stands between the
slashes.

In the other direction `Path.escaped` writes a path as the target of a redirection.  Percent signs
stay as they are, so the target may lead to another path.
-/

namespace BarScript.Path

/-- Whether a character ends the path of a target. -/
def isEnd (c : Char) : Bool := c == '?' || c == '#'

/-- The parts between slashes; there is always at least one. -/
def segments : List Char → List (List Char)
  | [] => [[]]
  | c :: cs =>
    match segments cs with
    | [] => [[c]]
    | s :: rest => if c = '/' then [] :: s :: rest else (c :: s) :: rest

/-- The parts with slashes between them. -/
def join : List (List Char) → List Char
  | [] => []
  | [s] => s
  | s :: rest => s ++ '/' :: join rest

/-- The segments after one more, the last one coming first: a segment `.` stands for nothing, and
`..` takes the one before it away, but not the empty one that every path begins with. -/
def resolveStep (done : List (List Char)) (s : List Char) : List (List Char) :=
  if s = ['.'] then done
  else if s = ['.', '.'] then
    match done with
    | [] => []
    | [[]] => [[]]
    | _ :: rest => rest
  else s :: done

/-- A path without the segments `.` and `..`. -/
def resolve (cs : List Char) : List Char := join ((segments cs).foldl resolveStep []).reverse

/-- The bytes of a path, an escape standing for the byte with its two digits. -/
def bytes : List Char → List Nat
  | [] => []
  | c :: cs =>
    match c, cs with
    | '%', a :: b :: rest =>
      match Text.hexDigit? a, Text.hexDigit? b with
      | some x, some y => (16 * x + y) :: bytes rest
      | _, _ => Text.utf8Bytes '%' ++ bytes (a :: b :: rest)
    | c, cs => Text.utf8Bytes c ++ bytes cs
termination_by cs => cs.length

/-- A path that begins with a slash. -/
def rooted (cs : List Char) : List Char := if cs.head? = some '/' then cs else '/' :: cs

/-- A path without the host that two slashes in front of it begin. -/
def dropHost : List Char → List Char
  | '/' :: '/' :: rest => rest.dropWhile fun c => c != '/'
  | cs => cs

/-- A path with its escapes decoded. -/
def decoded (path : List Char) : List Char := Text.ofUtf8 (bytes path)

/-- The path of a target. -/
def ofTarget (target : List Char) : List Char :=
  let path := dropHost (target.takeWhile fun c => !isEnd c)
  decoded (decoded (rooted (resolve (rooted path))))

/-- A character as it stands in a target: the two that would end the path, and the backslash, are
escaped. -/
def escapedChar (c : Char) : List Char :=
  if c = '?' then ['%', '3', 'F']
  else if c = '#' then ['%', '2', '3']
  else if c = '\\' then ['%', '5', 'C']
  else [c]

/-- A target for a path. -/
def escaped (path : List Char) : List Char := path.flatMap escapedChar

/-- Whether the log shows a character: all but tabs and line breaks. -/
def isShown (c : Char) : Bool := c != '\t' && c != '\n' && c != '\r'

/-- The path as the log shows it: escaped, and without line breaks and tabs. -/
def shown (path : List Char) : String := String.ofList ((escaped path).filter isShown)

/-- The path without the slashes at its end. -/
def dropSlashes (path : List Char) : List Char :=
  (path.reverse.dropWhile fun c => c == '/').reverse

end BarScript.Path
