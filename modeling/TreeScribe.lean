import TreeScribe.Flow.Assignment.Run
import TreeScribe.Flow.Reachability
import TreeScribe.Policy.Codec
import TreeScribe.Proofs.Expression.ReadBack
import TreeScribe.Proofs.Render.Prepared
import TreeScribe.Sink.Log
import TreeScribe.Text.Position
import TreeScribe.Tree.Build.Declarations
import TreeScribe.Tree.Keyword
import TreeScribe.Proofs.Flow.Drawing
import TreeScribe.Proofs.Flow.Grows
import TreeScribe.Proofs.Flow.Consulted
import TreeScribe.Proofs.Flow.Drawn
import TreeScribe.Proofs.Flow.Finished
import TreeScribe.Proofs.Flow.Reached
import TreeScribe.Proofs.Flow.Assignment.Least
import TreeScribe.Proofs.Render.Formatting
import TreeScribe.Proofs.Render.Placed
import TreeScribe.Proofs.Render.Located
import TreeScribe.Proofs.Flow.Formed
import TreeScribe.Proofs.Render.Paired
import TreeScribe.Proofs.Render.Enclosed
import TreeScribe.Proofs.Flow.Assignment.Sound
import TreeScribe.Proofs.Flow.Leaving
import TreeScribe.Proofs.Flow.Paths
import TreeScribe.Proofs.Flow.Jumps
import TreeScribe.Proofs.Flow.Assignment.Agreed
import TreeScribe.Proofs.Flow.Assignment.Confined
import TreeScribe.Proofs.Flow.Assignment.Counted
import TreeScribe.Proofs.Flow.Assignment.Reported
import TreeScribe.Proofs.Flow.Assignment.Driven
import TreeScribe.Proofs.Flow.Assignment.Rested
import TreeScribe.Proofs.Flow.Assignment.Begun
import TreeScribe.Proofs.Flow.Detected
import TreeScribe.Proofs.Flow.Constant.Exact
import TreeScribe.Proofs.Flow.Constant.Compared
import TreeScribe.Proofs.Grouping.Targets
import TreeScribe.Proofs.Render.Braces
import TreeScribe.Proofs.Render.Indented
import TreeScribe.Proofs.Grouping.Edges
import TreeScribe.Proofs.Render.Points
import TreeScribe.Proofs.Text.Lines
import TreeScribe.Proofs.Text.Unescape
import TreeScribe.Proofs.Sink.Whereabouts
import TreeScribe.Proofs.Render.Inside
import TreeScribe.Proofs.Tree.Insertion
import TreeScribe.Proofs.Render.OwnLines
import TreeScribe.Proofs.Policy.RoundTrip
import TreeScribe.Proofs.Grouping.Walk
