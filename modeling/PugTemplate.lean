import PugTemplate.Command.Workspace
import PugTemplate.Main
import PugTemplate.Proofs.Program.Page
import PugTemplate.Proofs.Program.Merging
import PugTemplate.Proofs.Program.Writes
import PugTemplate.Proofs.Program.Classes
import PugTemplate.Proofs.Node.Listing
import PugTemplate.Proofs.Node.BlockCode
import PugTemplate.Proofs.Program.Layout
import PugTemplate.Proofs.Compile
import PugTemplate.Proofs.Node.Hooks
import PugTemplate.Proofs.Program.Helpers
import PugTemplate.Proofs.Program.Folding
import PugTemplate.Proofs.Program.Spacing
import PugTemplate.Proofs.Token.Lines
import PugTemplate.Proofs.Token.Rebuilding
import PugTemplate.Proofs.Program.Wrapping
import PugTemplate.Proofs.Script.Substitutions
import PugTemplate.Proofs.Token.Whens
import PugTemplate.Proofs.Token.Calls
import PugTemplate.Proofs.Token.InlineTags
import PugTemplate.Proofs.Markup.Quoting
import PugTemplate.Proofs.Value.Numerals
import PugTemplate.Proofs.Diagnostic
import PugTemplate.Proofs.Program.Copies
import PugTemplate.Proofs.Program.Parameters
import PugTemplate.Proofs.Program.Runs
import PugTemplate.Proofs.Script.Comments
import PugTemplate.Proofs.Script.Objects
