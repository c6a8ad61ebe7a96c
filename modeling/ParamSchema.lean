import ParamSchema.Number.Notation
import ParamSchema.Text.Visible
import ParamSchema.Key.Name
import ParamSchema.Key.Path
import ParamSchema.Param.Import
import ParamSchema.Param.Printer
import ParamSchema.Param.Reader
import ParamSchema.Bound.ReadType
import ParamSchema.Schema.Outline
import ParamSchema.Schema.Reference
import ParamSchema.Extract.Client
import ParamSchema.Dump.Run
import ParamSchema.Main
import ParamSchema.Proofs.Schema.CleanBind
import ParamSchema.Proofs.Schema.FaultList
import ParamSchema.Proofs.Param.PrintRead
import ParamSchema.Proofs.Schema.Rebind
import ParamSchema.Proofs.Number.Spelling
import ParamSchema.Proofs.Scalar.WholeNumber
import ParamSchema.Proofs.Schema.Conforms
import ParamSchema.Proofs.Schema.Sound
import ParamSchema.Proofs.Schema.Settled
import ParamSchema.Proofs.Schema.Flat
import ParamSchema.Proofs.Schema.Accepted
import ParamSchema.Proofs.Param.Splitting
import ParamSchema.Proofs.Param.Grammar
import ParamSchema.Proofs.Param.Language
import ParamSchema.Proofs.Schema.Lookup
import ParamSchema.Proofs.Schema.Inline
import ParamSchema.Proofs.Bound.Literal
import ParamSchema.Proofs.Schema.Documented
import ParamSchema.Proofs.Extract.Fits
import ParamSchema.Proofs.Scalar.OneToken
import ParamSchema.Proofs.Schema.Rearranged
import ParamSchema.Proofs.Param.Imported
import ParamSchema.Proofs.Bound.Exported
import ParamSchema.Proofs.Schema.Ignored
import ParamSchema.Proofs.Schema.Local
import ParamSchema.Proofs.Schema.WrittenOut
import ParamSchema.Proofs.Key.PathLookup
import ParamSchema.Proofs.Schema.DeclaredKeys
import ParamSchema.Proofs.Schema.KeyBlind
import ParamSchema.Proofs.Scalar.Conversion
import ParamSchema.Proofs.Bound.OneLine
import ParamSchema.Proofs.Param.Assigning
import ParamSchema.Proofs.Param.Position
import ParamSchema.Proofs.Param.Written
import ParamSchema.Proofs.Param.Unambiguous
import ParamSchema.Proofs.Param.Parts
import ParamSchema.Proofs.Param.Offending
import ParamSchema.Proofs.Bound.Collections
import ParamSchema.Proofs.Extract.History
import ParamSchema.Proofs.Dump.ExitStatus
import ParamSchema.Proofs.Dump.Merged
import ParamSchema.Proofs.Schema.Redeclared
import ParamSchema.Proofs.Param.Respaced
import ParamSchema.Proofs.Param.Progress
