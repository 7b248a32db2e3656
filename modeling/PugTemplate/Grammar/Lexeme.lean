import PugTemplate.Script.Lexical
import PugTemplate.Text.Blank
/-!
# Lexemes of a script

The words, numbers, strings and marks of JavaScript text, read one at a time from the front of a
list of characters. Whether a slash starts a regular expression is known to the grammar only, so a
slash is read as a mark here, and `readRegex` is there for the grammar to call.
-/

namespace PugTemplate
namespace Grammar

open Script (isLineBreak isHexDigit isEscape readString readRegexBody)

/-- A lexeme. Strings are held as written between their quotes. -/
inductive Lexeme where
  | word (text : String)
  | privateName (text : String)
  | number (text : String)
  | string (body : String)
  | mark (text : String)
  | backtick
  | finish
  deriving DecidableEq, Repr, Inhabited

/-! ## Character classes -/

def isSpace (c : Char) : Bool :=
  Text.isBlank c || c.toNat == 0xFEFF || c.toNat == 0x2060 || c.toNat == 0x200B

/-- The ASCII characters that marks and quotes are made of. -/
def markCharacters : List Char :=
  [':', ';', '\x60', '"', '\'', '@', '#', '.', ',', '|', '^', '&', '<', '=', '>', '+', '-', '*',
    '/', '\\', '%', '?', '!', '~', '(', ')', '[', ']', '{', '}']

def isWordPart (c : Char) : Bool :=
  0x20 ≤ c.toNat && !isSpace c && !markCharacters.contains c

def isWordStart (c : Char) : Bool := isWordPart c && !c.isDigit

/-! ## Blanks and comments -/

/-- What `skip` is inside of. -/
inductive SkipMode where
  | code
  | lineComment
  | blockComment
  deriving DecidableEq, Repr

/-- Drops blanks and comments. The flag of the result tells whether a line break was dropped; a
comment that does not end has no result. -/
def skip : SkipMode → Bool → List Char → Option (Bool × List Char)
  | .code, broken, '/' :: '/' :: cs => skip .lineComment broken cs
  | .code, broken, '/' :: '*' :: cs => skip .blockComment broken cs
  | .code, broken, c :: cs =>
    if isSpace c then skip .code (broken || isLineBreak c) cs else some (broken, c :: cs)
  | .lineComment, broken, c :: cs =>
    if isLineBreak c then skip .code true cs else skip .lineComment broken cs
  | .blockComment, broken, '*' :: '/' :: cs => skip .code broken cs
  | .blockComment, broken, c :: cs => skip .blockComment (broken || isLineBreak c) cs
  | .blockComment, _, [] => none
  | _, broken, [] => some (broken, [])

/-! ## Strings and templates -/

/-- Reads the text of a template up to a backtick or a substitution, neither of which it takes. -/
def readTemplateText : List Char → Option (List Char × List Char)
  | [] => none
  | '$' :: '{' :: cs => some ([], '$' :: '{' :: cs)
  | '\\' :: c :: cs =>
    if isEscape (c :: cs) then
      (readTemplateText cs).map fun (body, rest) => ('\\' :: c :: body, rest)
    else none
  | c :: cs =>
    if c == '\x60' then some ([], c :: cs)
    else if c == '\\' then none
    else (readTemplateText cs).map fun (body, rest) => (c :: body, rest)

/-! ## Regular expressions -/

/-- Reads a regular expression with its slashes and flags. -/
def readRegex : List Char → Option (List Char × List Char)
  | '/' :: cs => do
    let (body, rest) ← readRegexBody false cs
    if body.isEmpty then none
    else
      let flags := rest.takeWhile isWordPart
      some ('/' :: body ++ '/' :: flags, rest.dropWhile isWordPart)
  | _ => none

/-! ## Numbers -/

/-- Reads digits of a class, with single underscores allowed between them. -/
def readDigits (isDigit : Char → Bool) : List Char → List Char × List Char
  | '_' :: c :: cs =>
    if isDigit c then
      let (digits, rest) := readDigits isDigit cs
      ('_' :: c :: digits, rest)
    else ([], '_' :: c :: cs)
  | c :: cs =>
    if isDigit c then
      let (digits, rest) := readDigits isDigit cs
      (c :: digits, rest)
    else ([], c :: cs)
  | [] => ([], [])

/-- Reads the mark of a big integer, if it is there. -/
def readBigMark : List Char → List Char × List Char
  | 'n' :: cs => (['n'], cs)
  | cs => ([], cs)

/-- Reads the exponent part of a number, if it is there. -/
def readExponent : List Char → List Char × List Char
  | e :: s :: d :: cs =>
    if e != 'e' && e != 'E' then ([], e :: s :: d :: cs)
    else if (s == '+' || s == '-') && d.isDigit then
      let (digits, rest) := readDigits Char.isDigit (d :: cs)
      (e :: s :: digits, rest)
    else if s.isDigit then
      let (digits, rest) := readDigits Char.isDigit (s :: d :: cs)
      (e :: digits, rest)
    else ([], e :: s :: d :: cs)
  | [e, d] => if (e == 'e' || e == 'E') && d.isDigit then ([e, d], []) else ([], [e, d])
  | cs => ([], cs)

/-- Reads a number with a base letter after its zero. -/
def readRadix (letter : Char) (isDigit : Char → Bool) (cs : List Char) :
    Option (List Char × List Char) :=
  match cs with
  | c :: _ =>
    if isDigit c then
      let (digits, rest) := readDigits isDigit cs
      let (big, rest) := readBigMark rest
      some ('0' :: letter :: digits ++ big, rest)
    else none
  | [] => none

/-- The digits start with a zero that does not count: such a number is whole. -/
def isWholeOnly : List Char → Bool
  | '0' :: c :: _ => c == '0' || c == '_'
  | _ => false

/-- Reads what may follow the whole part of a decimal number. -/
def readFraction (whole rest : List Char) : Option (List Char × List Char) :=
  match rest with
  | 'n' :: after => if whole.isEmpty then none else some (whole ++ ['n'], after)
  | '.' :: after =>
    let (fraction, rest) := match after with
      | '_' :: _ => ([], after)
      | _ => readDigits Char.isDigit after
    if whole.isEmpty && fraction.isEmpty then none
    else
      let (exponent, rest) := readExponent rest
      some (whole ++ '.' :: fraction ++ exponent, rest)
  | _ =>
    if whole.isEmpty then none
    else
      let (exponent, rest) := readExponent rest
      some (whole ++ exponent, rest)

def readDecimal (cs : List Char) : Option (List Char × List Char) :=
  let (whole, rest) := readDigits Char.isDigit cs
  if isWholeOnly whole then
    let (big, rest) := readBigMark rest
    some (whole ++ big, rest)
  else readFraction whole rest

def readNumber : List Char → Option (List Char × List Char)
  | '0' :: b :: cs =>
    if b == 'x' || b == 'X' then readRadix b isHexDigit cs
    else if b == 'o' || b == 'O' then readRadix b (fun c => '0' ≤ c && c ≤ '7') cs
    else if b == 'b' || b == 'B' then readRadix b (fun c => c == '0' || c == '1') cs
    else readDecimal ('0' :: b :: cs)
  | '_' :: _ => none
  | cs => readDecimal cs

/-! ## Words and marks -/

/-- Reads a word: word characters and Unicode escapes. The flag tells that it is between the braces of
an escape. -/
def readWord : Bool → List Char → List Char × List Char
  | true, c :: cs =>
    let (word, rest) := readWord (c != '}') cs
    (c :: word, rest)
  | false, '\\' :: 'u' :: '{' :: cs =>
    if isEscape ('u' :: '{' :: cs) then
      let (word, rest) := readWord true cs
      ('\\' :: 'u' :: '{' :: word, rest)
    else ([], '\\' :: 'u' :: '{' :: cs)
  | false, '\\' :: 'u' :: cs =>
    if isEscape ('u' :: cs) then
      let (word, rest) := readWord false cs
      ('\\' :: 'u' :: word, rest)
    else ([], '\\' :: 'u' :: cs)
  | false, c :: cs =>
    if isWordPart c then
      let (word, rest) := readWord false cs
      (c :: word, rest)
    else ([], c :: cs)
  | _, [] => ([], [])

/-- The marks of more than one character, the longer ones first. -/
def longMarks : List String :=
  [">>>=", "...", "===", "!==", "**=", "<<=", ">>=", ">>>", "&&=", "||=", "??=", "=>", "==", "!=",
    "<=", ">=", "&&", "||", "??", "++", "--", "+=", "-=", "*=", "/=", "%=", "&=", "|=", "^=", "<<",
    ">>", "**"]

def shortMarks : List Char :=
  ['{', '}', '(', ')', '[', ']', ';', ',', '<', '>', '+', '-', '*', '/', '%', '&', '|', '^', '!',
    '~', '?', ':', '=', '.']

/-- Reads the longest mark. `?.` before a digit is a question mark and the start of a number. -/
def readMark (cs : List Char) : Option (String × List Char) :=
  match longMarks.find? fun m => m.toList.isPrefixOf cs with
  | some m => some (m, cs.drop m.length)
  | none =>
    match cs with
    | '?' :: '.' :: rest =>
      match rest with
      | d :: _ => if d.isDigit then some ("?", '.' :: rest) else some ("?.", rest)
      | [] => some ("?.", rest)
    | c :: rest => if shortMarks.contains c then some (String.singleton c, rest) else none
    | [] => none

def readLexeme : List Char → Option (Lexeme × List Char)
  | [] => some (.finish, [])
  | c :: cs =>
    if c == '"' || c == '\'' then
      (readString c cs).map fun (body, rest) => (.string (String.ofList body), rest)
    else if c == '\x60' then some (.backtick, cs)
    else if c.isDigit || (c == '.' && (cs.head?.map Char.isDigit).getD false) then
      (readNumber (c :: cs)).map fun (text, rest) => (.number (String.ofList text), rest)
    else if c == '#' then
      let (word, rest) := readWord false cs
      if word.isEmpty then none else some (.privateName (String.ofList word), rest)
    else if isWordStart c || (c == '\\' && isEscape cs) then
      let (word, rest) := readWord false (c :: cs)
      if word.isEmpty then none else some (.word (String.ofList word), rest)
    else (readMark (c :: cs)).map fun (m, rest) => (.mark m, rest)

/-- The next lexeme of a text with what surrounds it. -/
structure Ahead where
  /-- A line break stands before the lexeme. -/
  broken : Bool
  lexeme : Lexeme
  /-- The text from the lexeme on. -/
  here : List Char
  rest : List Char

def ahead (cs : List Char) : Option Ahead := do
  let (broken, here) ← skip .code false cs
  let (lexeme, rest) ← readLexeme here
  pure ⟨broken, lexeme, here, rest⟩

end Grammar
end PugTemplate
