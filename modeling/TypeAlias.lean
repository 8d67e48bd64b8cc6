import TypeAlias.BuildPlan
import TypeAlias.Main
import TypeAlias.Proofs.BuildPlan.Additions
import TypeAlias.Proofs.BuildPlan.Staleness
import TypeAlias.Proofs.CommandLine.Exits
import TypeAlias.Proofs.Definitions.Accepted
import TypeAlias.Proofs.Definitions.Completeness
import TypeAlias.Proofs.Definitions.PrintedNames
import TypeAlias.Proofs.Definitions.ReadBack
import TypeAlias.Proofs.Dependencies.Changing
import TypeAlias.Proofs.Dependencies.Contexts
import TypeAlias.Proofs.Dependencies.Walks
import TypeAlias.Proofs.Diagnostics.DocumentOrder
import TypeAlias.Proofs.Diagnostics.Faultless
import TypeAlias.Proofs.Diagnostics.Guarding
import TypeAlias.Proofs.Diagnostics.Reports
import TypeAlias.Proofs.Environment.Lookup
import TypeAlias.Proofs.Environment.Loops
import TypeAlias.Proofs.Graph.Duplicates
import TypeAlias.Proofs.Graph.Interruption
import TypeAlias.Proofs.Graph.Order
import TypeAlias.Proofs.Graph.Recursion
import TypeAlias.Proofs.Service.Sessions
