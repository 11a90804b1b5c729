import DocQuery.Main
import DocQuery.Text.Quoted
import DocQuery.Value.Equality
import DocQuery.Proofs.Operator.Fold
import DocQuery.Proofs.Operator.Precedence
import DocQuery.Proofs.Operator.UniqueTree
import DocQuery.Proofs.Expression.KindSoundness
import DocQuery.Proofs.Expression.KindSafety
import DocQuery.Proofs.PathTree.Provenance
import DocQuery.Proofs.PathTree.Kept
import DocQuery.Proofs.PathTree.Orderly
import DocQuery.Proofs.PathTree.Narrowing
import DocQuery.Proofs.PathTree.Unseen
import DocQuery.Proofs.PathTree.Projection
import DocQuery.Proofs.PathTree.Spans
import DocQuery.Proofs.PathTree.Reordering
import DocQuery.Proofs.Grammar.Heads
import DocQuery.Proofs.Language.Words
import DocQuery.Proofs.Text.Base64
import DocQuery.Proofs.Text.Escape
import DocQuery.Proofs.Text.Utf8
import DocQuery.Proofs.Number.Binary64.Nearest
import DocQuery.Proofs.Number.Binary64.ReadBack
import DocQuery.Proofs.Number.Decimal
import DocQuery.Proofs.Time.Calendar
import DocQuery.Proofs.Time.Duration
import DocQuery.Proofs.Language.Quotes
import DocQuery.Proofs.Time.Timestamp
import DocQuery.Proofs.Language.Numbers
import DocQuery.Proofs.Language.Dates
import DocQuery.Proofs.Language.Durations
import DocQuery.Proofs.Language.Symbols
import DocQuery.Proofs.Language.Lobs
import DocQuery.Proofs.Value.RoundTrip
import DocQuery.Proofs.Grammar.Progress
import DocQuery.Proofs.Grammar.Unbounded
import DocQuery.Proofs.Grammar.Inversion
import DocQuery.Proofs.Grammar.Children
import DocQuery.Proofs.Language.Shape
import DocQuery.Proofs.Expression.Formed
import DocQuery.Proofs.Language.Defects
import DocQuery.Proofs.Query.Defects
import DocQuery.Proofs.Grammar.Following
import DocQuery.Proofs.Language.Names
import DocQuery.Proofs.Value.Reread
import DocQuery.Proofs.Grammar.Prefixes
import DocQuery.Proofs.Regex.Cache
import DocQuery.Proofs.Expression.Built
import DocQuery.Proofs.Expression.Sessions
import DocQuery.Proofs.Grammar.Trailing
import DocQuery.Proofs.Query.Positions
import DocQuery.Proofs.Command.Paths
import DocQuery.Proofs.Language.Selectors
import DocQuery.Proofs.Path.RoundTrip
import DocQuery.Proofs.Language.Operands
import DocQuery.Proofs.Expression.Primaries
import DocQuery.Proofs.Expression.Stalls
import DocQuery.Proofs.Expression.Reprinted
import DocQuery.Proofs.Expression.RoundTrip
import DocQuery.Proofs.Regex.Recency
import DocQuery.Proofs.Value.Order
import DocQuery.Proofs.Regex.Quote
import DocQuery.Proofs.Expression.PlainMatches
import DocQuery.Proofs.PathTree.Followed
import DocQuery.Proofs.Expression.Pruned
import DocQuery.Proofs.Value.ExactOrder
import DocQuery.Proofs.Expression.IntegerPower
import DocQuery.Proofs.Expression.Division
import DocQuery.Proofs.Operator.Defects
import DocQuery.Proofs.Expression.Membership
import DocQuery.Proofs.Json.Members
import DocQuery.Proofs.Json.Canonical
import DocQuery.Proofs.Value.Json
import DocQuery.Proofs.Time.Components
import DocQuery.Proofs.Language.DurationTexts
import DocQuery.Proofs.Json.Lookup
import DocQuery.Proofs.Number.Binary64.Exact
import DocQuery.Proofs.Number.Decimal.Returning
import DocQuery.Proofs.Expression.Neutral
import DocQuery.Proofs.PathTree.Required
import DocQuery.PathTree.Arena
import DocQuery.Proofs.PathTree.Heights
import DocQuery.Proofs.PathTree.Exits
import DocQuery.Proofs.PathTree.Arena.Sound
import DocQuery.Proofs.PathTree.Arena.Plans
import DocQuery.Proofs.PathTree.Arena.Attaching
import DocQuery.Proofs.PathTree.Arena.Built
import DocQuery.Proofs.Language.Contents
