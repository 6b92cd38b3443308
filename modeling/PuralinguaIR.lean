import PuralinguaIR.Effect
import PuralinguaIR.Files
import PuralinguaIR.Definitions
import PuralinguaIR.Loading
import PuralinguaIR.Build
import PuralinguaIR.CompleteTables
import PuralinguaIR.Numbering
import PuralinguaIR.FieldTables
import PuralinguaIR.TypeTokens
import PuralinguaIR.Represents
import PuralinguaIR.Buildable
import PuralinguaIR.Linking
import PuralinguaIR.Exports
import PuralinguaIR.FailedBuilds
import PuralinguaIR.Diagnostics
import PuralinguaIR.ReportedInterfaces
import PuralinguaIR.Reproducible
import PuralinguaIR.LexRoundTrip
import PuralinguaIR.InvalidTokens
import PuralinguaIR.LiteralValues
import PuralinguaIR.IntegerLoads
import PuralinguaIR.LiteralPanics
import PuralinguaIR.Robust
import PuralinguaIR.Layout
import PuralinguaIR.Renaming
import PuralinguaIR.Verdicts
import PuralinguaIR.IntegerPlaces
import PuralinguaIR.EndlessHandlers
import PuralinguaIR.ExceptionTables
import PuralinguaIR.ExceptionRanges
import PuralinguaIR.OpenBodies
import PuralinguaIR.Positions
import PuralinguaIR.MethodNumbers
import PuralinguaIR.BlockComments
import PuralinguaIR.StringEnds
import PuralinguaIR.Operators
import PuralinguaIR.RawDiagnosis
import PuralinguaIR.CharLiterals
import PuralinguaIR.ParentClauses
