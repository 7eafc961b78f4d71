import PatternGraph.Main
import PatternGraph.Proofs.Graph.WellFormed
import PatternGraph.Proofs.Pattern.Acceptance
import PatternGraph.Proofs.Pattern.Continued
import PatternGraph.Proofs.Pattern.Faults
import PatternGraph.Proofs.Pattern.Limits
import PatternGraph.Proofs.Search.Afresh
import PatternGraph.Proofs.Search.CapturedText
import PatternGraph.Proofs.Search.Checked
import PatternGraph.Proofs.Search.Either
import PatternGraph.Proofs.Search.Loosened
import PatternGraph.Proofs.Search.Respelled
import PatternGraph.Proofs.Search.Reuse
import PatternGraph.Proofs.Search.Silenced
import PatternGraph.Proofs.Search.Undoing
import PatternGraph.Proofs.Semantics.Escaped
import PatternGraph.Proofs.Semantics.Greedy
import PatternGraph.Proofs.Semantics.Passes
import PatternGraph.Proofs.Semantics.Regular
