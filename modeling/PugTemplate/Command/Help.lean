/-!
# Explanations of commands
-/

namespace PugTemplate
namespace Command

def overview : List String :=
  ["Pug - compile indentation-based templates to JavaScript render functions",
    "",
    "Usage: pug <COMMAND>",
    "",
    "Commands:",
    "  compile  Compile .pug files to JavaScript",
    "  lex      Print the token stream as JSON",
    "  parse    Print the syntax tree as JSON",
    "  help     Print this message or the help of the given subcommand(s)",
    "",
    "Options:",
    "  -h, --help  Print help"]

def compileHelp : List String :=
  ["Compile .pug files to JavaScript",
    "",
    "Usage: pug compile [OPTIONS] [FILE]",
    "",
    "Arguments:",
    "  [FILE]  Path to .pug file or directory",
    "",
    "Options:",
    "      --stdin              Read from stdin",
    "      --json               Output as JSON",
    "      --config <CONFIG>    JSON file with compile options",
    "      --doctype <DOCTYPE>  Doctype to assume before the first `html` tag",
    "      --pretty [<PRETTY>]  Pretty-print the HTML, optionally with a custom indent",
    "      --no-debug           Omit source position tracking from the output",
    "      --inline-runtime     Bundle the runtime helpers into the output",
    "      --name <NAME>        Name of the generated function",
    "      --locals <LOCALS>    How template code reaches its locals " ++
      "[possible values: with, self, bare]",
    "  -h, --help               Print help"]

/-- What the explanation of a command says that shows a template in another form. -/
def showHelp (word about : String) : List String :=
  [about,
    "",
    "Usage: pug " ++ word ++ " [OPTIONS] [FILE]",
    "",
    "Arguments:",
    "  [FILE]  ",
    "",
    "Options:",
    "      --stdin  ",
    "  -h, --help   Print help"]

def helpText (word : Option String) : String :=
  let lines := match word with
    | some "compile" => compileHelp
    | some "lex" => showHelp "lex" "Print the token stream as JSON"
    | some "parse" => showHelp "parse" "Print the syntax tree as JSON"
    | _ => overview
  String.join (lines.map (· ++ "\n"))

end Command
end PugTemplate
