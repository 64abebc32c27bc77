import ImportClosure.Builder.Table
import ImportClosure.Main
import ImportClosure.Proofs.Step
import ImportClosure.Session.Operation
import ImportClosure.Proofs.Builders
import ImportClosure.Proofs.Cache
import ImportClosure.Proofs.Discovery
import ImportClosure.Proofs.Graph
import ImportClosure.Proofs.LeastClosure
import ImportClosure.Proofs.Levels
import ImportClosure.Proofs.NeverFollowed
import ImportClosure.Proofs.Forbidden
import ImportClosure.Proofs.PackageEntry
import ImportClosure.Proofs.UseGraph
import ImportClosure.Proofs.Roots
import ImportClosure.Proofs.Agreement
import ImportClosure.Proofs.PackageWalk
import ImportClosure.Proofs.Monotone
import ImportClosure.Proofs.Remembered
import ImportClosure.Proofs.Alike
import ImportClosure.Proofs.InitEntry
import ImportClosure.Proofs.Descents
import ImportClosure.Proofs.Spellings
import ImportClosure.Proofs.Housed
import ImportClosure.Proofs.Backed
import ImportClosure.Proofs.Stops
import ImportClosure.Proofs.Reserved
import ImportClosure.Proofs.Traversal
import ImportClosure.Proofs.Contained
import ImportClosure.Proofs.Repeated
import ImportClosure.Proofs.Siblings
import ImportClosure.Proofs.Handover
import ImportClosure.Proofs.Present
import ImportClosure.Proofs.Explicit
import ImportClosure.Proofs.Aborted
import ImportClosure.Proofs.Relative
import ImportClosure.Proofs.ProfileReach
import ImportClosure.Proofs.Unresolved
import ImportClosure.Proofs.Blanks
import ImportClosure.Proofs.PlainTrees
import ImportClosure.Proofs.WalksBelow
import ImportClosure.Proofs.Names
import ImportClosure.Proofs.Additions
import ImportClosure.Proofs.Registrations
import ImportClosure.Proofs.Lookups
