import BarScript.ParseError
import BarScript.Text.Digit

/-!
# Splitting a script into tokens

The text is split into lexemes from left to right, each as long as possible (`Lexeme.next?`): the
tokens, and comments, white space and line ends between them.  A line end is a separator outside of
brackets and nothing inside of them.  `Token.scan` gives the tokens of a text, or the first
character that no lexeme starts with.
-/

namespace BarScript

/-- The kinds of lexemes. -/
inductive LexemeKind where
  | comment
  | lineEnd
  | space
  | token (kind : TokenKind)
  deriving Repr, DecidableEq

/-- The lexeme at the front of a text: its kind, its characters, and the text behind it. -/
structure Lexeme where
  kind : LexemeKind
  chars : List Char
  rest : List Char
  deriving Repr

namespace Lexeme

/-- Whether a character can start a name. -/
def startsWord (c : Char) : Bool := ('a' ≤ c && c ≤ 'z') || ('A' ≤ c && c ≤ 'Z') || c == '_'

/-- Whether a character can go on with a name. -/
def continuesWord (c : Char) : Bool := startsWord c || ('0' ≤ c && c ≤ '9')

/-- Whether a character is white space between tokens. -/
def isSpace (c : Char) : Bool := c == ' ' || c == '\t' || c == '\r'

/-- The longest lexeme of characters of a class. -/
def span (kind : LexemeKind) (p : Char → Bool) (cs : List Char) : Lexeme :=
  ⟨kind, cs.takeWhile p, cs.dropWhile p⟩

/-- A lexeme with more characters in front. -/
def after (front : List Char) (l : Lexeme) : Lexeme := { l with chars := front ++ l.chars }

/-- A number: digits, and a point with digits behind it, where one of the two may be missing. -/
def number? (cs : List Char) : Option Lexeme :=
  let whole := span (.token .number) Text.isDigit cs
  let fraction := match whole.rest with
    | '.' :: rest => span (.token .number) Text.isDigit rest
    | rest => ⟨.token .number, [], rest⟩
  if fraction.chars.isEmpty then
    if whole.chars.isEmpty then none else some whole
  else some (fraction.after (whole.chars ++ ['.']))

/-- A text between two equal quotes on one line. -/
def quoted? (quote : Char) (cs : List Char) : Option Lexeme :=
  let body := span (.token .text) (fun c => c != quote && c != '\n') cs
  match body.rest with
  | c :: rest => if c = quote then some ⟨.token .text, quote :: body.chars ++ [c], rest⟩ else none
  | [] => none

/-- The operators and brackets, longer ones before those they begin with. -/
def symbols : List (List Char × TokenKind) :=
  [(['=', '='], .operator), (['!', '='], .operator), (['>', '='], .operator),
    (['<', '='], .operator), (['&', '&'], .operator), (['|', '|'], .operator),
    (['+'], .operator), (['-'], .operator), (['*'], .operator), (['/'], .operator),
    (['>'], .operator), (['<'], .operator), (['!'], .operator), (['='], .operator),
    (['('], .openParen), ([')'], .closeParen), (['['], .openBracket), ([']'], .closeBracket),
    ([','], .comma), ([';'], .separator)]

/-- An operator or a bracket. -/
def symbol? (cs : List Char) : Option Lexeme :=
  symbols.findSome? fun s =>
    if s.1.isPrefixOf cs then some ⟨.token s.2, s.1, cs.drop s.1.length⟩ else none

/-- The lexeme at the front of a text, if there is one. -/
def next? : List Char → Option Lexeme
  | [] => none
  | '/' :: '/' :: rest => some ((span .comment (· != '\n') rest).after ['/', '/'])
  | '\n' :: rest => some ⟨.lineEnd, ['\n'], rest⟩
  | c :: rest =>
    if isSpace c then some (span .space isSpace (c :: rest))
    else (number? (c :: rest)).or <|
      if c = '"' ∨ c = '\'' then quoted? c rest
      else if startsWord c then some (span (.token .word) continuesWord (c :: rest))
      else symbol? (c :: rest)

end Lexeme

namespace Token

/-- The number of open brackets behind a token; a closing bracket too many changes nothing. -/
def depthAfter (kind : TokenKind) (depth : Nat) : Nat :=
  match kind with
  | .openParen | .openBracket => depth + 1
  | .closeParen | .closeBracket => depth - 1
  | _ => depth

/-- The tokens of a text at `position`, where `depth` brackets are open, behind those already
`done`. -/
def scanFrom : Nat → Nat → Nat → List Token → List Char → Except ParseError (List Token)
  | _, _, _, done, [] => .ok done.reverse
  | 0, _, _, done, _ :: _ => .ok done.reverse
  | fuel + 1, position, depth, done, c :: cs =>
    match Lexeme.next? (c :: cs) with
    | none => .error ⟨.unexpectedCharacter c, some position, some (String.ofList [c])⟩
    | some l =>
      let next := position + l.chars.length
      match l.kind with
      | .comment | .space => scanFrom fuel next depth done l.rest
      | .lineEnd =>
        if depth = 0 then scanFrom fuel next depth (⟨.separator, "\n", position⟩ :: done) l.rest
        else scanFrom fuel next depth done l.rest
      | .token kind =>
        let t : Token := ⟨kind, String.ofList l.chars, position⟩
        scanFrom fuel next (depthAfter kind depth) (t :: done) l.rest

/-- The tokens of a script. -/
def scan (script : String) : Except ParseError (List Token) :=
  scanFrom script.length 0 0 [] script.toList

end Token

end BarScript
