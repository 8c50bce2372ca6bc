import PathFilter.Filter.Walk
import PathFilter.Proofs.PathRules
import PathFilter.Proofs.HostAccess
import PathFilter.Proofs.NestedRules
import PathFilter.Proofs.PolicyLocality
import PathFilter.Proofs.Listing
import PathFilter.Proofs.Iteration
import PathFilter.Proofs.FilterState
import PathFilter.Proofs.History
import PathFilter.Proofs.Entries
import PathFilter.Proofs.Reach
import PathFilter.Proofs.Agreement
import PathFilter.Proofs.Pruning
import PathFilter.Proofs.Ancestors
import PathFilter.Proofs.FoundLinks
import PathFilter.Proofs.IncludeLists
import PathFilter.Proofs.NearestFile
import PathFilter.Proofs.RelativeNames
import PathFilter.Proofs.Intersection
import PathFilter.Proofs.Outlines
import PathFilter.Proofs.Creation
import PathFilter.Proofs.NestedInfluence
import PathFilter.Proofs.AcceptedValues
import PathFilter.Proofs.ConfigRoundTrip
import PathFilter.Proofs.ChangingFiles
import PathFilter.Proofs.TrailingBlanks
import PathFilter.Proofs.LoadedRules
import PathFilter.Proofs.EscapedNames
import PathFilter.Proofs.BracketItems
import PathFilter.Proofs.IncludeOrder
import PathFilter.Proofs.IncludeStyle
import PathFilter.Proofs.FailedLoads
import PathFilter.Proofs.GivenContent
import PathFilter.Proofs.InterpreterNames
import PathFilter.Proofs.Turns
import PathFilter.Proofs.Termination
import PathFilter.Proofs.NameForms
import PathFilter.Proofs.FileOrder
import PathFilter.Proofs.RootContainment
import PathFilter.Proofs.TextSources
import PathFilter.Proofs.EscapedSlashes
import PathFilter.Proofs.FaultLines
