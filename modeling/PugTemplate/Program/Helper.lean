/-!
# Helpers of programs

Functions that a program calls while it runs. A program reaches them through an object, or has
copies of those that it needs in front of it.
-/

namespace PugTemplate
namespace Program

/-- A function that programs call, in the order of their names. -/
inductive Helper where
  | attr
  | attrs
  | classes
  | classesArray
  | classesObject
  | escape
  | hasOwnProperty
  | matchHtml
  | merge
  | rethrow
  | style
  deriving DecidableEq, Repr, Inhabited

namespace Helper

def all : List Helper :=
  [.attr, .attrs, .classes, .classesArray, .classesObject, .escape, .hasOwnProperty, .matchHtml,
    .merge, .rethrow, .style]

def name : Helper → String
  | .attr => "attr"
  | .attrs => "attrs"
  | .classes => "classes"
  | .classesArray => "classes_array"
  | .classesObject => "classes_object"
  | .escape => "escape"
  | .hasOwnProperty => "has_own_property"
  | .matchHtml => "match_html"
  | .merge => "merge"
  | .rethrow => "rethrow"
  | .style => "style"

def ofName? (name : String) : Option Helper := all.find? fun h => h.name == name

/-- A helper that only other helpers call. -/
def isInternal : Helper → Bool
  | .classesArray => true
  | .classesObject => true
  | .hasOwnProperty => true
  | .matchHtml => true
  | _ => false

def dependencies : Helper → List Helper
  | .attr => [.escape]
  | .attrs => [.attr, .classes, .hasOwnProperty, .style]
  | .classes => [.classesArray, .classesObject]
  | .classesArray => [.classes, .escape]
  | .classesObject => [.hasOwnProperty]
  | .escape => [.matchHtml]
  | .hasOwnProperty => []
  | .matchHtml => []
  | .merge => [.style]
  | .rethrow => []
  | .style => [.hasOwnProperty]

/-! ## Sources -/

def attrLines : List String :=
  ["function pug_attr(key, val, escaped, terse) \x7b",
    "  if (val === false || val == null || !val && (key === \"class\" || key === \"style\")) return \"\";",
    "  if (val === true) return \" \" + (terse ? key : key + '=\"' + key + '\"');",
    "  if (typeof val.toJSON === \"function\") val = val.toJSON();",
    "  if (typeof val !== \"string\") \x7b",
    "    val = JSON.stringify(val);",
    "    if (!escaped && val.indexOf('\"') !== -1) return \" \" + key + \"='\" + val.replace(/'/g, \"&#39;\") + \"'\";",
    "  \x7d",
    "  if (escaped) val = pug_escape(val);",
    "  return \" \" + key + '=\"' + val + '\"';",
    "\x7d"]

def attrsLines : List String :=
  ["function pug_attrs(obj, terse) \x7b",
    "  var attrs = \"\";",
    "  for (var key in obj) \x7b",
    "    if (pug_has_own_property.call(obj, key)) \x7b",
    "      var val = obj[key];",
    "      if (key === \"class\") \x7b",
    "        attrs = pug_attr(key, pug_classes(val), false, terse) + attrs;",
    "        continue;",
    "      \x7d",
    "      if (key === \"style\") val = pug_style(val);",
    "      attrs += pug_attr(key, val, false, terse);",
    "    \x7d",
    "  \x7d",
    "  return attrs;",
    "\x7d"]

def classesLines : List String :=
  ["function pug_classes(val, escaping) \x7b",
    "  if (Array.isArray(val)) return pug_classes_array(val, escaping);",
    "  if (val && typeof val === \"object\") return pug_classes_object(val);",
    "  return val || \"\";",
    "\x7d"]

def classesArrayLines : List String :=
  ["function pug_classes_array(val, escaping) \x7b",
    "  var classString = \"\", className, padding = \"\", escapeEnabled = Array.isArray(escaping);",
    "  for (var i = 0; i < val.length; i++) \x7b",
    "    className = pug_classes(val[i]);",
    "    if (!className) continue;",
    "    escapeEnabled && escaping[i] && (className = pug_escape(className));",
    "    classString = classString + padding + className;",
    "    padding = \" \";",
    "  \x7d",
    "  return classString;",
    "\x7d"]

def classesObjectLines : List String :=
  ["function pug_classes_object(val) \x7b",
    "  var classString = \"\", padding = \"\";",
    "  for (var key in val) \x7b",
    "    if (key && val[key] && pug_has_own_property.call(val, key)) \x7b",
    "      classString = classString + padding + key;",
    "      padding = \" \";",
    "    \x7d",
    "  \x7d",
    "  return classString;",
    "\x7d"]

def escapeLines : List String :=
  ["function pug_escape(_html) \x7b",
    "  var html = \"\" + _html;",
    "  var regexResult = pug_match_html.exec(html);",
    "  if (!regexResult) return _html;",
    "  var result = \"\", i, lastIndex, escape;",
    "  for (i = regexResult.index, lastIndex = 0; i < html.length; i++) \x7b",
    "    switch (html.charCodeAt(i)) \x7b",
    "      case 34: escape = \"&quot;\"; break;",
    "      case 38: escape = \"&amp;\"; break;",
    "      case 60: escape = \"&lt;\"; break;",
    "      case 62: escape = \"&gt;\"; break;",
    "      default: continue;",
    "    \x7d",
    "    if (lastIndex !== i) result += html.substring(lastIndex, i);",
    "    lastIndex = i + 1;",
    "    result += escape;",
    "  \x7d",
    "  return lastIndex !== i ? result + html.substring(lastIndex, i) : result;",
    "\x7d"]

def hasOwnPropertyLines : List String :=
  ["var pug_has_own_property = Object.prototype.hasOwnProperty;"]

/-- The characters that are written as entities. -/
def matchHtmlLines : List String :=
  ["var pug_match_html = /[\"&<>]/;"]

/-- Several attribute objects as one. -/
def mergeLines : List String :=
  ["function pug_merge(a, b) \x7b",
    "  if (arguments.length === 1) \x7b",
    "    var attrs = a[0];",
    "    for (var i = 1; i < a.length; i++) attrs = pug_merge(attrs, a[i]);",
    "    return attrs;",
    "  \x7d",
    "  for (var key in b) \x7b",
    "    if (key === \"class\") \x7b",
    "      var valA = a[key] || [];",
    "      a[key] = (Array.isArray(valA) ? valA : [valA]).concat(b[key] || []);",
    "    \x7d else if (key === \"style\") \x7b",
    "      a[key] = pug_style(a[key]) + pug_style(b[key]);",
    "    \x7d else \x7b",
    "      a[key] = b[key];",
    "    \x7d",
    "  \x7d",
    "  return a;",
    "\x7d"]

/-- An error with the line that it comes from. -/
def rethrowLines : List String :=
  ["function pug_rethrow(err, filename, lineno, str) \x7b",
    "  if (!(err instanceof Error)) throw err;",
    "  if (!str) \x7b",
    "    err.message += \" on line \" + lineno;",
    "    throw err;",
    "  \x7d",
    "  var context = 3, lines = str.split(\"\\n\"),",
    "    start = Math.max(lineno - context, 0),",
    "    end = Math.min(lines.length, lineno + context);",
    "  var excerpt = lines.slice(start, end).map(function (line, i) \x7b",
    "    var curr = i + start + 1;",
    "    return (curr == lineno ? \"  > \" : \"    \") + curr + \"| \" + line;",
    "  \x7d).join(\"\\n\");",
    "  err.path = filename;",
    "  err.message = (filename || \"Pug\") + \":\" + lineno + \"\\n\" + excerpt + \"\\n\\n\" + err.message;",
    "  throw err;",
    "\x7d"]

def styleLines : List String :=
  ["function pug_style(val) \x7b",
    "  if (!val) return \"\";",
    "  if (typeof val === \"object\") \x7b",
    "    var out = \"\";",
    "    for (var style in val) \x7b",
    "      if (pug_has_own_property.call(val, style)) out = out + style + \":\" + val[style] + \";\";",
    "    \x7d",
    "    return out;",
    "  \x7d",
    "  val += \"\";",
    "  return val[val.length - 1] !== \";\" ? val + \";\" : val;",
    "\x7d"]

def source (h : Helper) : String :=
  String.intercalate "\n" (match h with
    | .attr => attrLines
    | .attrs => attrsLines
    | .classes => classesLines
    | .classesArray => classesArrayLines
    | .classesObject => classesObjectLines
    | .escape => escapeLines
    | .hasOwnProperty => hasOwnPropertyLines
    | .matchHtml => matchHtmlLines
    | .merge => mergeLines
    | .rethrow => rethrowLines
    | .style => styleLines)

/-! ## Needs -/

/-- Helpers with the ones that they call. -/
def expand (helpers : List Helper) : List Helper :=
  all.filter fun h => helpers.contains h || helpers.any fun g => g.dependencies.contains h

/-- Helpers with all that they need, in the order of their names. No chain of calls is longer than
the number of helpers. -/
def closure (helpers : List Helper) : List Helper :=
  all.foldl (fun acc _ => expand acc) (all.filter helpers.contains)

def bundle (helpers : List Helper) : String :=
  String.intercalate "\n" ((closure (helpers.filter fun h => !h.isInternal)).map source)

end Helper
end Program
end PugTemplate
