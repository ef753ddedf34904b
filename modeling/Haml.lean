import Haml.Command.FileTree
import Haml.Main
import Haml.Proofs.Append
import Haml.Proofs.Balance
import Haml.Proofs.BlockExtent
import Haml.Proofs.BlockText
import Haml.Proofs.Body
import Haml.Proofs.BraceGroup
import Haml.Proofs.ClassUnion
import Haml.Proofs.CodeBlock
import Haml.Proofs.CommentScan
import Haml.Proofs.Continued
import Haml.Proofs.Delimiter
import Haml.Proofs.Indent
import Haml.Proofs.Interpolated
import Haml.Proofs.LineEnd
import Haml.Proofs.Lines
import Haml.Proofs.Literal
import Haml.Proofs.LiteralEnd
import Haml.Proofs.Marker
import Haml.Proofs.Opaque
import Haml.Proofs.OutputBlock
import Haml.Proofs.Reached
import Haml.Proofs.Refold
import Haml.Proofs.Reindent
import Haml.Proofs.Row
import Haml.Proofs.RuleOrder
import Haml.Proofs.Run
import Haml.Proofs.SlicedConversion
import Haml.Proofs.Standing
import Haml.Proofs.StyleRow
import Haml.Proofs.TagLine
import Haml.Proofs.TopLevel
import Haml.Proofs.Verbatim
import Haml.Proofs.Written
