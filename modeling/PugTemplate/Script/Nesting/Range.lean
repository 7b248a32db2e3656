import PugTemplate.Script.Nesting
/-!
# Ranges of scripts

Scans of a part of a text that is given by offsets. An offset is a number of bytes of the text in
UTF-8, and has to be between two of its characters.
-/

namespace PugTemplate
namespace Nesting

/-! ## Offsets -/

/-- The size of a text in bytes. -/
def bytes : List Char → Nat
  | [] => 0
  | c :: cs => c.utf8Size + bytes cs

/-- Cuts a text at an offset, which has to be between two characters. -/
def cut? : Nat → List Char → Option (List Char × List Char)
  | 0, cs => some ([], cs)
  | _ + 1, [] => none
  | n + 1, c :: cs =>
    if c.utf8Size ≤ n + 1 then
      (cut? (n + 1 - c.utf8Size) cs).map fun (front, rest) => (c :: front, rest)
    else none

def slice? (start stop : Nat) (cs : List Char) : Option (List Char) :=
  (cut? stop cs).bind fun (front, _) => (cut? start front).map Prod.snd

/-! ## Scans -/

/-- Why a scan of a part of a text fails, with the offset in the whole text where it does. -/
inductive RangeFault where
  | mismatched (found : Char) (offset : Nat)
  | unfinished (offset : Nat)
  deriving DecidableEq, Repr

namespace RangeFault

/-- The fault of a scan that starts at an offset. -/
def ofFault (start : Nat) : Fault → RangeFault
  | .mismatched found before => .mismatched found (start + bytes before)
  | .unfinished before => .unfinished (start + bytes before)

def message : RangeFault → String
  | .mismatched found _ => (Fault.mismatched found []).message
  | .unfinished _ => (Fault.unfinished []).message

def offset : RangeFault → Nat
  | .mismatched _ offset => offset
  | .unfinished offset => offset

end RangeFault

/-- The nesting after the text between two offsets. -/
def scanRange (s : State) (start stop : Nat) (cs : List Char) : Option (Except RangeFault State) :=
  (slice? start stop cs).map fun part => (scanFrom s [] part).mapError (RangeFault.ofFault start)

/-- A part of a text with its offsets. -/
structure Range where
  start : Nat
  stop : Nat
  text : List Char
  deriving DecidableEq, Repr

/-- The delimiter that is a fixed text. -/
def literal (text rest : List Char) : Bool := text.isPrefixOf rest

/-- The text from an offset to the first place where `stop` accepts the rest and nothing is open.
There is no such place behind the end. -/
def rangeUntil (stop : List Char → Bool) (options : UntilOptions) (start : Nat) (cs : List Char) :
    Except RangeFault Range :=
  match cut? start cs with
  | none => .error (.unfinished start)
  | some (_, part) =>
    match scanUntil stop options part with
    | .ok (text, _) => .ok ⟨start, start + bytes text, text⟩
    | .error fault => .error (.ofFault start fault)

end Nesting
end PugTemplate
