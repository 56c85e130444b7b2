import LiteSql.Position
import LiteSql.Statement.Conversion
import LiteSql.Proofs.Capture
import LiteSql.Proofs.ColumnList
import LiteSql.Proofs.DigitBudget
import LiteSql.Proofs.CleanForm
import LiteSql.Proofs.QueryLayout
import LiteSql.Proofs.LiteralScan
import LiteSql.Proofs.MarkStability
import LiteSql.Proofs.TemplateCall
import LiteSql.Proofs.TemplateSource
import LiteSql.Proofs.Unmapped
import LiteSql.Proofs.JoinForm
import LiteSql.Proofs.SubstringClause
import LiteSql.Proofs.Expression
import LiteSql.Proofs.OperatorForm
import LiteSql.Proofs.SeparatorMove
import LiteSql.Proofs.AggregateFrame
import LiteSql.Proofs.NameJoint
import LiteSql.Proofs.RuleOrder
import LiteSql.Proofs.RandomDraws
import LiteSql.Proofs.DayOffset
import LiteSql.Proofs.Relisting
import LiteSql.Proofs.ExactRounding
import LiteSql.Proofs.SecondConversion
import LiteSql.Proofs.DividingCommas
import LiteSql.Proofs.ClosedLiteral
