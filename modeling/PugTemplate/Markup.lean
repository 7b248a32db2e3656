/-!
# What markup knows about its elements
-/

namespace PugTemplate
namespace Markup

/-- An element that never has content or an end tag. -/
def isVoid (name : String) : Bool :=
  ["area", "base", "br", "col", "embed", "hr", "img", "input", "keygen", "link", "menuitem", "meta",
    "param", "source", "track", "wbr"].contains name

/-- An element that stays on the line of the text around it. -/
def isInline (name : String) : Bool :=
  ["a", "abbr", "acronym", "b", "br", "code", "em", "font", "i", "img", "ins", "kbd", "map", "samp",
    "small", "span", "strong", "sub", "sup"].contains name

/-- An element whose white space is content. -/
def keepsSpace (name : String) : Bool := ["pre", "textarea"].contains name

/-- The declarations that have a short name. -/
def doctypes : List (String × String) :=
  [("html", "<!DOCTYPE html>"),
    ("xml", "<?xml version=\"1.0\" encoding=\"utf-8\" ?>"),
    ("transitional", "<!DOCTYPE html PUBLIC \"-//W3C//DTD XHTML 1.0 Transitional//EN\" " ++
      "\"http://www.w3.org/TR/xhtml1/DTD/xhtml1-transitional.dtd\">"),
    ("strict", "<!DOCTYPE html PUBLIC \"-//W3C//DTD XHTML 1.0 Strict//EN\" " ++
      "\"http://www.w3.org/TR/xhtml1/DTD/xhtml1-strict.dtd\">"),
    ("frameset", "<!DOCTYPE html PUBLIC \"-//W3C//DTD XHTML 1.0 Frameset//EN\" " ++
      "\"http://www.w3.org/TR/xhtml1/DTD/xhtml1-frameset.dtd\">"),
    ("1.1", "<!DOCTYPE html PUBLIC \"-//W3C//DTD XHTML 1.1//EN\" " ++
      "\"http://www.w3.org/TR/xhtml11/DTD/xhtml11.dtd\">"),
    ("basic", "<!DOCTYPE html PUBLIC \"-//W3C//DTD XHTML Basic 1.1//EN\" " ++
      "\"http://www.w3.org/TR/xhtml-basic/xhtml-basic11.dtd\">"),
    ("mobile", "<!DOCTYPE html PUBLIC \"-//WAPFORUM//DTD XHTML Mobile 1.2//EN\" " ++
      "\"http://www.openmobilealliance.org/tech/DTD/xhtml-mobile12.dtd\">"),
    ("plist", "<!DOCTYPE plist PUBLIC \"-//Apple//DTD PLIST 1.0//EN\" " ++
      "\"http://www.apple.com/DTDs/PropertyList-1.0.dtd\">")]

/-- A text with its ASCII letters in lower case. No other letter has a lower case form that occurs
in the names this is compared with. -/
def lower (text : String) : String := String.ofList (text.toList.map Char.toLower)

/-- The declaration of a document's type. A name that is not a short one is declared as it stands.
-/
def doctype (name : String) : String :=
  (doctypes.lookup (lower name)).getD ("<!DOCTYPE " ++ name ++ ">")

end Markup
end PugTemplate
