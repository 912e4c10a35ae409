import BarScript.Text.Blank

/-!
# Media types

A header says what kind of text a body is: a type and a subtype with a slash between them, and
perhaps parameters behind a semicolon.  Whether that is JSON (`MediaType.isJson`) does not depend on
letter case, nor on the parameters.
-/

namespace BarScript.MediaType

/-- The type and subtype that a header names, in lower case. -/
def name (header : String) : List Char :=
  (Text.trim Text.isBlank (header.toList.takeWhile fun c => c != ';')).map Char.toLower

/-- Whether a header says that a text is JSON: of the type `application`, and of a subtype that is
`json` or ends in `+json`. -/
def isJson (header : String) : Bool :=
  let (mainType, rest) := (name header).span fun c => c != '/'
  match rest with
  | [] => false
  | _ :: subtype =>
    mainType == "application".toList && !subtype.contains '/' &&
      (subtype == "json".toList || "+json".toList.isSuffixOf subtype)

end BarScript.MediaType
