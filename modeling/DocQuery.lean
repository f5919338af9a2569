import DocQuery.Main
import DocQuery.Proofs.Aggregation.Translation
import DocQuery.Proofs.Arithmetic.Listing
import DocQuery.Proofs.Arithmetic.Wrapping
import DocQuery.Proofs.Calendar.Agreement
import DocQuery.Proofs.Condition.Collapse
import DocQuery.Proofs.Condition.Conjunction
import DocQuery.Proofs.Condition.Termination
import DocQuery.Proofs.Filter.Disjunction
import DocQuery.Proofs.Filter.Rendering
import DocQuery.Proofs.Query.Grouping
import DocQuery.Proofs.Respacing.Filter
import DocQuery.Proofs.Statement.ClauseOrder
import DocQuery.Proofs.Statement.FirstStatement
import DocQuery.Proofs.Statement.Splitting
import DocQuery.Proofs.Token.Comparators
import DocQuery.Proofs.Token.Numbers
import DocQuery.Proofs.Where.Bounds
import DocQuery.Proofs.Where.Constant
import DocQuery.Proofs.Where.Literal
import DocQuery.Proofs.Where.Meaning
import DocQuery.Proofs.Where.Membership
import DocQuery.Proofs.Where.Reversal
