import TreeArchive.Main
import TreeArchive.Proofs.Exactness
import TreeArchive.Proofs.FailedRun
import TreeArchive.Proofs.Faithful
import TreeArchive.Proofs.JsonGrammar
import TreeArchive.Proofs.LeftOut
import TreeArchive.Proofs.NamedOutput
import TreeArchive.Proofs.OwnOutput
import TreeArchive.Proofs.PatternMatch
import TreeArchive.Proofs.PortableName
import TreeArchive.Proofs.ReadBack
import TreeArchive.Proofs.RelativeGrammar
import TreeArchive.Proofs.RunFrame
import TreeArchive.Proofs.SourceBelowRoot
import TreeArchive.Proofs.Outline
import TreeArchive.Proofs.OutputSpot
import TreeArchive.Proofs.Rerun
import TreeArchive.Proofs.Lexical
import TreeArchive.Proofs.ListedSize
import TreeArchive.Proofs.Omitted
import TreeArchive.Proofs.Reopened
import TreeArchive.Proofs.Obstacle
import TreeArchive.Proofs.DryRun
import TreeArchive.Proofs.Rejoined
import TreeArchive.Proofs.HostOrder
import TreeArchive.Proofs.EventProtocol
import TreeArchive.Proofs.Lazy
import TreeArchive.Proofs.MatchedPieces
import TreeArchive.Proofs.NormalForm
import TreeArchive.Proofs.PlacedArguments
import TreeArchive.Proofs.SessionOutcome
import TreeArchive.Proofs.ToldIncomplete
import TreeArchive.Proofs.JsonReader
import TreeArchive.Proofs.JsonNumber
import TreeArchive.Proofs.JsonRoundTrip
import TreeArchive.Proofs.Channels
import TreeArchive.Proofs.CanonicalPath
import TreeArchive.Proofs.SegmentGrammar
import TreeArchive.Proofs.NormalPlace
import TreeArchive.Proofs.IgnoringCase
import TreeArchive.Proofs.AsciiCase
import TreeArchive.Proofs.Listing
import TreeArchive.Proofs.DryRunTotal
import TreeArchive.Proofs.Descent
import TreeArchive.Proofs.LinkLoops
import TreeArchive.Proofs.DigitGroups
