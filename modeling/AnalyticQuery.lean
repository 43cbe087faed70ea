import AnalyticQuery.Proofs.Sql.Clauses
import AnalyticQuery.Proofs.Tree.Kept
import AnalyticQuery.Proofs.Tree.Substitution
import AnalyticQuery.Proofs.Tree.Termination
import AnalyticQuery.Proofs.Geo.Origins
import AnalyticQuery.Proofs.Sql.Flattening
import AnalyticQuery.Proofs.Tree.Injection
import AnalyticQuery.Proofs.Short.Cursor
import AnalyticQuery.Proofs.Sql.SourceMap
import AnalyticQuery.Proofs.Tree.FoldOrder
import AnalyticQuery.Proofs.Tree.Grouping
import AnalyticQuery.Proofs.Tree.Surroundings
import AnalyticQuery.Proofs.Engine.JsonPath
import AnalyticQuery.Proofs.Short.Arguments
import AnalyticQuery.Proofs.Tree.Integers
