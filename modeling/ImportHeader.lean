import ImportHeader.Main
import ImportHeader.Proofs.Fix.Again
import ImportHeader.Proofs.Fix.Agreement
import ImportHeader.Proofs.Fix.Bindings
import ImportHeader.Proofs.Fix.Capture
import ImportHeader.Proofs.Fix.Coverage
import ImportHeader.Proofs.Fix.Order
import ImportHeader.Proofs.Header.Arrangement
import ImportHeader.Proofs.Header.Calls
import ImportHeader.Proofs.Header.Layout
import ImportHeader.Proofs.Header.Rewriting
import ImportHeader.Proofs.Header.Splice
import ImportHeader.Proofs.Header.Contents
import ImportHeader.Proofs.Header.Rewritten
import ImportHeader.Proofs.Header.RoundTrip
import ImportHeader.Proofs.Parser.Balance
import ImportHeader.Proofs.Parser.Partition
import ImportHeader.Proofs.Symbol.Candidates
import ImportHeader.Proofs.Reference.DocTypes
import ImportHeader.Proofs.Parser.Braces
import ImportHeader.Proofs.Header.Faults
import ImportHeader.Proofs.Tree.Walk
import ImportHeader.Proofs.Project.Classmap
import ImportHeader.Proofs.Fix.Reports
import ImportHeader.Proofs.Header.Reparsing
import ImportHeader.Proofs.Header.HeaderLine
import ImportHeader.Proofs.Token.NameTexts
import ImportHeader.Proofs.Parser.Advance
import ImportHeader.Proofs.Project.Scan
