import TaggedBuffer.Buffer.Builder
import TaggedBuffer.Buffer.Legacy
import TaggedBuffer.Buffer.Section
import TaggedBuffer.Buffer.Transfer
import TaggedBuffer.Output.Print
import TaggedBuffer.Output.Template
import TaggedBuffer.Output.Yaml
import TaggedBuffer.Proofs.Buffer.Acceptance
import TaggedBuffer.Proofs.Buffer.Simulation
import TaggedBuffer.Proofs.Content.Validation
import TaggedBuffer.Proofs.World.Failure
import TaggedBuffer.Proofs.World.History
import TaggedBuffer.Proofs.World.Isolation
import TaggedBuffer.Store.Borrowed
import TaggedBuffer.Store.Owned
import TaggedBuffer.Store.Pool
import TaggedBuffer.Proofs.Content.Containment
import TaggedBuffer.Proofs.Legacy.Layout
import TaggedBuffer.Proofs.Legacy.Import
import TaggedBuffer.Proofs.Text.Digits
import TaggedBuffer.Proofs.Text.Hex
import TaggedBuffer.Proofs.Text.Utf16
import TaggedBuffer.Proofs.Value.Printed
import TaggedBuffer.Proofs.Buffer.Items
import TaggedBuffer.Proofs.Buffer.Mark
import TaggedBuffer.Proofs.Buffer.Lent
import TaggedBuffer.Proofs.Content.Cursor
import TaggedBuffer.Proofs.Buffer.Keyed
import TaggedBuffer.Proofs.World.Reserve
import TaggedBuffer.Proofs.World.Frame
import TaggedBuffer.Proofs.Buffer.Positions
import TaggedBuffer.Proofs.Content.Lookups
import TaggedBuffer.Proofs.Content.Grouped
import TaggedBuffer.Proofs.World.Merge
import TaggedBuffer.Proofs.Record.Refusal
import TaggedBuffer.Proofs.Buffer.Building
import TaggedBuffer.Proofs.Output.Template
import TaggedBuffer.Proofs.Output.Query
import TaggedBuffer.Proofs.Text.Leading
import TaggedBuffer.Proofs.Value.Strict
import TaggedBuffer.Proofs.Value.Refinement
import TaggedBuffer.Proofs.Floating.Exact
import TaggedBuffer.Proofs.Value.Integral
import TaggedBuffer.Proofs.Output.Scalar
import TaggedBuffer.Proofs.Output.Literal
import TaggedBuffer.Proofs.Output.Mapping
import TaggedBuffer.Proofs.Text.Grammar
import TaggedBuffer.Proofs.Value.Inference
import TaggedBuffer.Proofs.Text.Surrogates
import TaggedBuffer.Proofs.Value.SameGroup
