import Hyperslab.Dataset.Compare
import Hyperslab.Proofs.FailedWrites
import Hyperslab.Proofs.RefusedMutations
import Hyperslab.Proofs.Summaries
import Hyperslab.Proofs.WriteThrough
import Hyperslab.Proofs.StaleViews
import Hyperslab.Proofs.SourceErrors
import Hyperslab.Proofs.AxisSlices
import Hyperslab.Proofs.RoundTrip
import Hyperslab.Proofs.ReplacedSlices
import Hyperslab.Proofs.AxisGroups
import Hyperslab.Proofs.ArithmeticInPlace
import Hyperslab.Proofs.IntegerPower
import Hyperslab.Proofs.LazyExtrema
import Hyperslab.Proofs.AxisFoldsInWords
import Hyperslab.Proofs.Rolls
import Hyperslab.Proofs.Selections
import Hyperslab.Proofs.AdmittedShapes
import Hyperslab.Proofs.GivenErrors
import Hyperslab.Proofs.RowMajor
import Hyperslab.Proofs.AdmittedSlices
