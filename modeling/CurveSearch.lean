import CurveSearch.Main
import CurveSearch.Proofs.Expr.Reprinting
import CurveSearch.Proofs.Expr.Concatenation
import CurveSearch.Proofs.Expr.Survival
import CurveSearch.Proofs.Resumption
import CurveSearch.Proofs.Configuration
import CurveSearch.Proofs.Origin
import CurveSearch.Proofs.Progress
import CurveSearch.Proofs.RootLaw
import CurveSearch.Proofs.ScanLength
import CurveSearch.Proofs.SearchResults
import CurveSearch.Proofs.Turn
import CurveSearch.Proofs.VisibleCrossing
import CurveSearch.SampleTable
import CurveSearch.Proofs.Flat
import CurveSearch.Proofs.Intersection
import CurveSearch.Proofs.Exchange
import CurveSearch.Proofs.Peaks
import CurveSearch.Proofs.ExtremumLaw
import CurveSearch.Proofs.WiderWindow
import CurveSearch.Proofs.FullMemory
import CurveSearch.Proofs.ZeroSamples
import CurveSearch.Proofs.Records
import CurveSearch.Proofs.Overflow
import CurveSearch.Proofs.Expr.Interference
import CurveSearch.Proofs.Expr.Postorder
import CurveSearch.Proofs.SignChange
import CurveSearch.Proofs.Valley
import CurveSearch.Proofs.Json.Bytes
