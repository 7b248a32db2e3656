import PugTemplate.Token.Basic
/-!
# Streams of tokens
-/

namespace PugTemplate

/-- The tokens that are still to be read. -/
abbrev TokenStream := List Token

namespace TokenStream

def lookahead? (s : TokenStream) (index : Nat) : Option Token := s[index]?

def peek? (s : TokenStream) : Option Token := s.head?

/-- The next token, and the stream after it. -/
def advance? : TokenStream → Option (Token × TokenStream)
  | [] => none
  | t :: ts => some (t, ts)

def defer (s : TokenStream) (t : Token) : TokenStream := t :: s

end TokenStream
end PugTemplate
