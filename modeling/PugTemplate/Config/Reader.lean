import PugTemplate.Value.Basic
/-!
# Reading data files

A data file holds one JSON value. It is read from left to right, and the first fault is reported
with its line and column. Columns count bytes.
-/

namespace PugTemplate

/-- A place in a file, and the text after it. -/
structure Cursor where
  rest : List Char
  line : Nat := 1
  /-- The bytes of this line before the place. -/
  column : Nat := 0
  deriving DecidableEq, Repr, Inhabited

structure ReadFault where
  text : String
  line : Nat
  column : Nat
  deriving DecidableEq, Repr, Inhabited

def ReadFault.message (f : ReadFault) : String :=
  f.text ++ " at line " ++ toString f.line ++ " column " ++ toString f.column

namespace Cursor

/-- The place after a character. -/
def after (c : Cursor) (ch : Char) (rest : List Char) : Cursor :=
  if ch == '\n' then ⟨rest, c.line + 1, 0⟩ else ⟨rest, c.line, c.column + ch.utf8Size⟩

def fault (c : Cursor) (text : String) : ReadFault := ⟨text, c.line, c.column⟩

/-- A fault at the next byte. -/
def faultAhead (c : Cursor) (text : String) : ReadFault :=
  match c.rest with
  | [] => c.fault text
  | '\n' :: _ => ⟨text, c.line + 1, 0⟩
  | _ :: _ => ⟨text, c.line, c.column + 1⟩

end Cursor

abbrev FileReader := StateT Cursor (Except ReadFault)

namespace FileReader

/-! ## Characters -/

def fail {α : Type} (text : String) : FileReader α := do throw ((← get).fault text)

def failAhead {α : Type} (text : String) : FileReader α := do throw ((← get).faultAhead text)

/-- The next character, which stays. -/
def peek : FileReader (Option Char) := do pure (← get).rest.head?

def next : FileReader (Option Char) := do
  let c ← get
  match c.rest with
  | [] => pure none
  | ch :: rest => set (c.after ch rest); pure (some ch)

def skip : FileReader Unit := do let _ ← next

/-- White space between values. -/
def isSpace (c : Char) : Bool := c == ' ' || c == '\n' || c == '\t' || c == '\r'

/-- How many steps a loop over the rest of the file can take. -/
def budget : FileReader Nat := do pure ((← get).rest.length + 1)

def skipWhile (isPart : Char → Bool) : Nat → FileReader Unit
  | 0 => pure ()
  | n + 1 => do
    match ← peek with
    | some c => if isPart c then skip; skipWhile isPart n else pure ()
    | none => pure ()

/-- Drops white space. The next character stays. -/
def skipSpace : FileReader (Option Char) := do
  skipWhile isSpace (← budget)
  peek

def word : List Char → FileReader Unit
  | [] => pure ()
  | c :: cs => do
    match ← next with
    | none => fail "EOF while parsing a value"
    | some found => if found == c then word cs else fail "expected ident"

/-! ## Strings -/

/-- Takes four hexadecimal digits. -/
def hexEscape : FileReader Nat := do
  let digits := (← get).rest.take 4
  for _ in digits do skip
  if digits.length < 4 then fail "EOF while parsing a string"
  match digits.mapM Text.Quoted.hexValue? with
  | some values => pure (values.foldl (fun n d => 16 * n + d) 0)
  | none => fail "invalid escape"

/-- Takes a character that must follow the first half of a pair. -/
def pairMark (mark : Char) : FileReader Unit := do
  match ← next with
  | none => fail "EOF while parsing a string"
  | some c => if c == mark then pure () else fail "unexpected end of hex escape"

/-- Takes a character that is written by its number. -/
def numberedChar : FileReader Char := do
  let n ← hexEscape
  if 0xDC00 ≤ n ∧ n ≤ 0xDFFF then fail "lone leading surrogate in hex escape"
  else if 0xD800 ≤ n ∧ n ≤ 0xDBFF then
    pairMark '\\'
    pairMark 'u'
    let low ← hexEscape
    if 0xDC00 ≤ low ∧ low ≤ 0xDFFF then
      pure (Char.ofNat (0x10000 + (n - 0xD800) * 1024 + (low - 0xDC00)))
    else fail "lone leading surrogate in hex escape"
  else pure (Char.ofNat n)

/-- Takes what follows a backslash. -/
def escaped : FileReader Char := do
  match ← next with
  | none => fail "EOF while parsing a string"
  | some 'b' => pure '\x08'
  | some 'f' => pure '\x0c'
  | some 'n' => pure '\n'
  | some 'r' => pure '\r'
  | some 't' => pure '\t'
  | some 'u' => numberedChar
  | some c => if c == '"' || c == '\\' || c == '/' then pure c else fail "invalid escape"

/-- Takes the characters of a string, and the quote after them. -/
def stringChars : Nat → List Char → FileReader String
  | 0, _ => fail "EOF while parsing a string"
  | n + 1, taken => do
    match ← next with
    | none => fail "EOF while parsing a string"
    | some '"' => pure (String.ofList taken.reverse)
    | some '\\' => do stringChars n ((← escaped) :: taken)
    | some c =>
      if c.toNat < 0x20 then
        fail "control character (\\u0000-\\u001F) found while parsing a string"
      else stringChars n (c :: taken)

/-- Takes a string after its first quote. -/
def string : FileReader String := do stringChars (← budget) []

/-! ## Numbers -/

def digits : Nat → List Char → FileReader (List Char)
  | 0, taken => pure taken.reverse
  | n + 1, taken => do
    match ← peek with
    | some c => if c.isDigit then skip; digits n (c :: taken) else pure taken.reverse
    | none => pure taken.reverse

def allDigits : FileReader (List Char) := do digits (← budget) []

def wholePart : FileReader (List Char) := do
  match ← next with
  | some '0' =>
    match ← peek with
    | some c => if c.isDigit then failAhead "invalid number" else pure ['0']
    | none => pure ['0']
  | some c => if c.isDigit then do return c :: (← allDigits) else fail "invalid number"
  | none => fail "invalid number"

def decimals : FileReader (List Char) := do
  match ← peek with
  | some '.' =>
    skip
    match ← allDigits with
    | [] =>
      match ← peek with
      | some _ => failAhead "invalid number"
      | none => failAhead "EOF while parsing a value"
    | ds => pure ('.' :: ds)
  | _ => pure []

def sign : FileReader (List Char) := do
  match ← peek with
  | some '+' => skip; pure []
  | some '-' => skip; pure ['-']
  | _ => pure []

def exponent : FileReader (List Char) := do
  match ← peek with
  | some c =>
    if c == 'e' || c == 'E' then
      skip
      let sign ← sign
      match ← next with
      | none => fail "EOF while parsing a value"
      | some d =>
        if d.isDigit then do return 'e' :: sign ++ d :: (← allDigits) else fail "invalid number"
    else pure []
  | none => pure []

/-- The least and the greatest integer that are held as such. -/
def fitsInteger (n : Int) : Bool := -(Nat.pow 2 63 : Int) ≤ n && n < (Nat.pow 2 64 : Int)

/-- Takes a number after its sign. -/
def number (negative : Bool) : FileReader Value := do
  let whole ← wholePart
  let fraction ← decimals
  let power ← exponent
  let text := (if negative then ['-'] else []) ++ whole ++ fraction ++ power
  let size : Int := whole.foldl (fun n d => 10 * n + (d.toNat - '0'.toNat)) 0
  let n := if negative then -size else size
  if fraction.isEmpty && power.isEmpty && fitsInteger n && !(negative && size == 0) then
    pure (.int n)
  else
    match Double.read? text with
    | some x => pure (.double x)
    | none => fail "number out of range"

/-! ## Values -/

def colon : FileReader Unit := do
  match ← skipSpace with
  | some ':' => skip
  | some _ => failAhead "expected `:`"
  | none => failAhead "EOF while parsing an object"

/-- Goes to the next item of an array, if there is one. A value that is skipped is read less
closely: its last comma is not known as such. -/
def nextItem (skipping first : Bool) : FileReader Bool := do
  match ← skipSpace with
  | some ']' => pure false
  | none => failAhead "EOF while parsing a list"
  | some c =>
    if first then pure true
    else if c == ',' then
      skip
      match ← skipSpace with
      | some ']' => failAhead (if skipping then "expected value" else "trailing comma")
      | some _ => pure true
      | none => failAhead "EOF while parsing a value"
    else failAhead "expected `,` or `]`"

/-- Goes to the next key of an object, if there is one. -/
def nextKey (skipping first : Bool) : FileReader Bool := do
  match ← skipSpace with
  | some '}' => pure false
  | none => failAhead "EOF while parsing an object"
  | some c =>
    if first then if c == '"' then pure true else failAhead "key must be a string"
    else if c == ',' then
      skip
      match ← skipSpace with
      | some '"' => pure true
      | some '}' => failAhead (if skipping then "key must be a string" else "trailing comma")
      | some _ => failAhead "key must be a string"
      | none =>
        failAhead (if skipping then "EOF while parsing an object" else "EOF while parsing a value")
    else failAhead "expected `,` or `\x7d`"

/-- Takes items with `read`, and the bracket after them. -/
def items {α : Type} (skipping : Bool) (read : FileReader α) : Nat → List α → FileReader (List α)
  | 0, _ => failAhead "EOF while parsing a list"
  | n + 1, taken => do
    if ← nextItem skipping taken.isEmpty then items skipping read n ((← read) :: taken)
    else
      skip
      pure taken.reverse

/-- Takes entries with `read`, and the brace after them. -/
def entries {α : Type} (skipping : Bool) (read : FileReader α) :
    Nat → List (String × α) → FileReader (List (String × α))
  | 0, _ => failAhead "EOF while parsing an object"
  | n + 1, taken => do
    if ← nextKey skipping taken.isEmpty then
      skip
      let key ← string
      colon
      entries skipping read n ((key, ← read) :: taken)
    else
      skip
      pure taken.reverse

/-- Takes a value that is nested at most a number of times. -/
def valueWithin (skipping : Bool) : Nat → FileReader Value
  | 0 => failAhead "recursion limit exceeded"
  | n + 1 => do
    match ← skipSpace with
    | none => failAhead "EOF while parsing a value"
    | some 'n' => skip; word "ull".toList; pure .null
    | some 't' => skip; word "rue".toList; pure (.bool true)
    | some 'f' => skip; word "alse".toList; pure (.bool false)
    | some '-' => skip; number true
    | some '"' => skip; return .string (← string)
    | some '[' => do
      skip
      return .array (← items skipping (valueWithin skipping n) (← budget) [])
    | some '{' => do
      skip
      return Value.ofEntries (← entries skipping (valueWithin skipping n) (← budget) [])
    | some c => if c.isDigit then number false else failAhead "expected value"

def maxDepth : Nat := 127

def value : FileReader Value := valueWithin false maxDepth

def skipValue : FileReader Unit := do let _ ← valueWithin true (← budget)

/-! ## Expectations -/

/-- One character of a string in words. -/
def foundChar (c : Char) : List Char :=
  if c == '"' || c == '\\' then ['\\', c]
  else if c == '\n' then ['\\', 'n']
  else if c == '\r' then ['\\', 'r']
  else if c == '\t' then ['\\', 't']
  else if c.toNat == 0 then ['\\', '0']
  else if c.toNat < 0x20 || c.toNat == 0x7F then
    "\\u\x7b".toList ++ Nat.toDigits 16 c.toNat ++ ['}']
  else [c]

/-- A value in words. -/
def found : Value → String
  | .null => "null"
  | .bool b => "boolean `" ++ (if b then "true" else "false") ++ "`"
  | .int n => "integer `" ++ toString n ++ "`"
  | .double x => "floating point `" ++ x.brief ++ "`"
  | .string s => "string " ++ Text.Quoted.quote foundChar s
  | .array _ => "sequence"
  | .object _ => "map"

/-- Fails because something else was expected than the value that is next. -/
def unexpected {α : Type} (expected : String) : FileReader α := do
  let complain {β : Type} (what : String) : FileReader β :=
    fail ("invalid type: " ++ what ++ ", expected " ++ expected)
  match ← peek with
  | some '[' => complain "sequence"
  | some '{' => complain "map"
  | _ => complain (found (← value))

def expectString : FileReader String := do
  match ← skipSpace with
  | none => failAhead "EOF while parsing a value"
  | some '"' => skip; string
  | some _ => unexpected "a string"

def expectBool : FileReader Bool := do
  match ← skipSpace with
  | none => failAhead "EOF while parsing a value"
  | some 't' => skip; word "rue".toList; pure true
  | some 'f' => skip; word "alse".toList; pure false
  | some _ => unexpected "a boolean"

/-- Takes a value that may be null. -/
def optional {α : Type} (read : FileReader α) : FileReader (Option α) := do
  match ← skipSpace with
  | some 'n' => skip; word "ull".toList; pure none
  | _ => some <$> read

end FileReader
end PugTemplate
