import PgRipple.Storage.Concurrent
import PgRipple.Datalog.Magic
import PgRipple.Datalog.Wfs
import PgRipple.Datalog.Hypothetical
import PgRipple.Datalog.Parallel
import PgRipple.Federation.Endpoint
import PgRipple.Security.Uniform
import PgRipple.Datalog.Strata
import PgRipple.Datalog.Seeds
import PgRipple.Datalog.Recursion
import PgRipple.Datalog.Subsumption
import PgRipple.Bidi.Reconciliation
import PgRipple.Datalog.Demand
import PgRipple.Datalog.AggregatePlans
import PgRipple.Datalog.CanonicalRules
import PgRipple.Datalog.Derivations
import PgRipple.Datalog.ParallelGroups
import PgRipple.Datalog.ProofTree
import PgRipple.Datalog.RuleText
import PgRipple.Datalog.VarPred
import PgRipple.Dictionary.CacheRuns
import PgRipple.Dictionary.Lookup
import PgRipple.Dictionary.DecodeCache
import PgRipple.Storage.DeltaBloom
import PgRipple.Storage.Statements
import PgRipple.Storage.Dedup
import PgRipple.Transfer.RdfStar
import PgRipple.Maintenance.Promotion
import PgRipple.Maintenance.Erase
import PgRipple.Sparql.Mandatory
import PgRipple.Sparql.QuotedCorrect
import PgRipple.Sparql.Arithmetic
import PgRipple.Sparql.Cursor
import PgRipple.Sparql.Service
import PgRipple.Federation.RemoteTerm
import PgRipple.Shacl.SparqlRules
import PgRipple.Sparql.InlineData
import PgRipple.Sparql.Describe
import PgRipple.Shacl.Bounds
import PgRipple.Sparql.ArqMeaning
import PgRipple.Shacl.Agreement
import PgRipple.Temporal.Snapshot
import PgRipple.Temporal.Consecutive
import PgRipple.Sparql.DoubleFormat
import PgRipple.Sparql.LeapfrogLoop
import PgRipple.Construct.Registration
import PgRipple.Storage.Quota
import PgRipple.Sparql.Answers
