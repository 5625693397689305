import ClientBindings.Main
import ClientBindings.Wire.Client
import ClientBindings.Wire.Url
import ClientBindings.Proofs.Bundle.ReadBack
import ClientBindings.Proofs.Schema.Order
import ClientBindings.Proofs.Source.WellNamed
import ClientBindings.Proofs.Binding.StylerCalls
import ClientBindings.Proofs.Binding.TokenHeaders
import ClientBindings.Proofs.Binding.References
import ClientBindings.Proofs.Binding.Placeholders
import ClientBindings.Proofs.Binding.Coherence
import ClientBindings.Proofs.Binding.Selection
import ClientBindings.Proofs.Binding.LateBinding
import ClientBindings.Proofs.Binding.Template
import ClientBindings.Proofs.Binding.ResponseTypes
import ClientBindings.Proofs.Binding.QueryTokens
import ClientBindings.Proofs.Binding.JsonParameters
import ClientBindings.Proofs.Source.Bases
import ClientBindings.Proofs.Source.RecordOrder
import ClientBindings.Proofs.Bundle.Ending
import ClientBindings.Proofs.Source.Unending
import ClientBindings.Proofs.Wire.Layout
import ClientBindings.Proofs.Wire.JsonText
import ClientBindings.Proofs.Wire.QueryEntries
import ClientBindings.Proofs.CommandLine.Output
import ClientBindings.Proofs.Outcome
import ClientBindings.Proofs.Schema.Below
import ClientBindings.Proofs.Schema.Outcomes
import ClientBindings.Proofs.Schema.Depth
import ClientBindings.Proofs.Schema.Interrupted
import ClientBindings.Proofs.Schema.Ending
import ClientBindings.Proofs.Schema.Dependencies
import ClientBindings.Proofs.Source.RecordKeys
import ClientBindings.Proofs.Source.Composition
import ClientBindings.Proofs.Source.Intersections
import ClientBindings.Proofs.Source.ClassBody
import ClientBindings.Proofs.Source.FunctionBody
import ClientBindings.Proofs.Source.MemberValues
import ClientBindings.Proofs.Source.RecordForm
import ClientBindings.Proofs.Source.InlineRecords
import ClientBindings.Proofs.Wire.FormBody
import ClientBindings.Proofs.Wire.ServerUrl
import ClientBindings.Proofs.Numeric.DecimalText
import ClientBindings.Proofs.Numeric.Respelled
import ClientBindings.Proofs.Numeric.Shortest
import ClientBindings.Proofs.Wire.FloatText
import ClientBindings.Proofs.Wire.JoinedUrl
import ClientBindings.Proofs.Wire.MergedConfig
import ClientBindings.Proofs.Source.UnionText
import ClientBindings.Proofs.DistinctNames
import ClientBindings.Proofs.Bundle.PointerReaders
import ClientBindings.Proofs.Bundle.Again
import ClientBindings.Proofs.Source.Signature
import ClientBindings.Proofs.NamesOfTexts
