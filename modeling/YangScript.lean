import YangScript.Main
import YangScript.Proofs.Markup
import YangScript.Proofs.TagReading
import YangScript.Proofs.AsideReading
import YangScript.Proofs.TreeReading
import YangScript.Proofs.Violation
import YangScript.Proofs.Meaning
import YangScript.Proofs.Machine
import YangScript.Proofs.Loading
import YangScript.Proofs.Rejection
import YangScript.Proofs.Writing
import YangScript.Proofs.RoundTrip
import YangScript.Proofs.Expression
import YangScript.Proofs.Prompt
import YangScript.Proofs.Truncation
import YangScript.Proofs.OutputDirectory
import YangScript.Proofs.Newest
import YangScript.Proofs.RunStages
import YangScript.Proofs.Agreement
import YangScript.Proofs.History
import YangScript.Proofs.Confinement
import YangScript.Proofs.DeclarationReading
import YangScript.Proofs.Accounting
import YangScript.Proofs.StandingDirectories
import YangScript.Proofs.FoundFiles
import YangScript.Proofs.Rerun
import YangScript.Proofs.Strictness
import YangScript.Proofs.OrderIndependence
import YangScript.Proofs.Alternatives
import YangScript.Proofs.UntypedLeaves
import YangScript.Proofs.Spelling
import YangScript.Proofs.Literals
import YangScript.Proofs.KeyTypes
import YangScript.Proofs.PropertyKeys
import YangScript.Proofs.DeclaredNames
import YangScript.Proofs.OriginComment
import YangScript.Proofs.StandIns
import YangScript.Proofs.VisibleStandIns
import YangScript.Proofs.Construction
import YangScript.Proofs.KeyCheck
import YangScript.Proofs.Scanning
import YangScript.Proofs.Capitals
import YangScript.Proofs.CompoundNames
import YangScript.Proofs.Descent
import YangScript.Proofs.DescentAgreement
import YangScript.Proofs.ElementEnds
import YangScript.Proofs.ReaderCalls
