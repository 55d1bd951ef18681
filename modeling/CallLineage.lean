import CallLineage.CommandLine
import CallLineage.Main
import CallLineage.Proofs.CallGraph
import CallLineage.Proofs.Calls
import CallLineage.Proofs.Declaration
import CallLineage.Proofs.Assembly
import CallLineage.Proofs.Search
import CallLineage.Proofs.Lineage
import CallLineage.Proofs.Worklist
import CallLineage.Proofs.Closure
import CallLineage.Proofs.Json.Locality
import CallLineage.Proofs.Utf8
import CallLineage.Proofs.Json.RoundTrip
import CallLineage.Proofs.Serving
import CallLineage.Proofs.Corpora
import CallLineage.Proofs.Go.Lines
import CallLineage.Proofs.Path
import CallLineage.Proofs.Walk
import CallLineage.Proofs.Listing
import CallLineage.Proofs.Go.Reading
import CallLineage.Proofs.CanonicalCorpus
import CallLineage.Proofs.Json.Wire
import CallLineage.Proofs.Go.Comments
import CallLineage.Proofs.Sources
import CallLineage.Proofs.Bystanders
import CallLineage.Proofs.History
import CallLineage.Proofs.Drawing
import CallLineage.Proofs.Links
import CallLineage.Proofs.Spellings
import CallLineage.Proofs.Transpose
import CallLineage.Proofs.Order
import CallLineage.Proofs.Limit
import CallLineage.Proofs.Settings
import CallLineage.Proofs.Room
import CallLineage.Proofs.FileFunctions
import CallLineage.Proofs.Overwriting
import CallLineage.Proofs.Arguments
import CallLineage.Proofs.Output
import CallLineage.Proofs.Go.Receivers
import CallLineage.Proofs.Go.Words
import CallLineage.Proofs.Names
import CallLineage.Proofs.PlainText
import CallLineage.Proofs.Layers
import CallLineage.Proofs.Go.Faults
import CallLineage.Proofs.Roots
