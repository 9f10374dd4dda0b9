import SqlTemplate.Proofs.Expr.Integers
import SqlTemplate.Proofs.Expr.Operand
import SqlTemplate.Proofs.Expr.Recognition
import SqlTemplate.Proofs.Lexical.Refinement
import SqlTemplate.Proofs.Marker.Form
import SqlTemplate.Proofs.Marker.Spelling
import SqlTemplate.Proofs.Node.Frame
import SqlTemplate.Proofs.Node.Iterations
import SqlTemplate.Proofs.Node.Scanned
import SqlTemplate.Proofs.Node.Scoping
import SqlTemplate.Proofs.Node.Trimming
import SqlTemplate.Proofs.Offsets.Iterations
import SqlTemplate.Proofs.Path.Segments
import SqlTemplate.Proofs.Placeholder.Alignment
import SqlTemplate.Proofs.Placeholder.Inference
import SqlTemplate.Proofs.Repetition.Enclosing
import SqlTemplate.Proofs.Repetition.Separator
import SqlTemplate.Proofs.Repetition.Variable
import SqlTemplate.Proofs.Scan.Encoding
import SqlTemplate.Proofs.Template.Injection
import SqlTemplate.Proofs.Template.Resolution
import SqlTemplate.Proofs.Template.Shrinking
import SqlTemplate.Proofs.Template.Static
import SqlTemplate.Proofs.Template.Substitution
import SqlTemplate.Proofs.Text.Spacing
import SqlTemplate.Proofs.Types.Registration
import SqlTemplate.Record.Declaration
import SqlTemplate.Value.Conversion
