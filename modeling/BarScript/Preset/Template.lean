/-!
# Script templates

A template is the text of a script with slots for the values of parameters.  `Template.source` shows
the slots as parameter names between braces, `Template.fill` puts values into them.
-/

namespace BarScript

/-- A part of a template. -/
inductive Piece where
  | text (script : String)
  | slot (parameter : String)
  deriving Repr, DecidableEq

/-- A script with slots. -/
abbrev Template := List Piece

namespace Template

/-- A piece with its slot shown. -/
def pieceSource : Piece → String
  | .text script => script
  | .slot parameter => "\x7b" ++ parameter ++ "\x7d"

/-- A piece with the value of its slot. -/
def pieceValue (value : String → String) : Piece → String
  | .text script => script
  | .slot parameter => value parameter

/-- The text with its slots shown. -/
def source (t : Template) : String := String.join (t.map pieceSource)

/-- The script for given values. -/
def fill (value : String → String) (t : Template) : String := String.join (t.map (pieceValue value))

/-- A template without slots. -/
def text (script : String) : Template := [.text script]

/-- One slot. -/
def slot (parameter : String) : Template := [.slot parameter]

/-- Slots with `", "` between them. -/
def slots : List String → Template
  | [] => []
  | [parameter] => slot parameter
  | parameter :: rest => slot parameter ++ text ", " ++ slots rest

/-- The call of a function whose arguments are slots. -/
def call (function : String) (parameters : List String) : Template :=
  text function ++ text "(" ++ slots parameters ++ text ")"

end Template

end BarScript
