import BlockCodec.Block.Edit
import BlockCodec.Block.Initial
import BlockCodec.Block.Storage
import BlockCodec.Bytes
import BlockCodec.Command.Arguments
import BlockCodec.Command.Error
import BlockCodec.Command.Inspect
import BlockCodec.Command.Number
import BlockCodec.Command.Place
import BlockCodec.Command.Report
import BlockCodec.Command.Run
import BlockCodec.Command.Split
import BlockCodec.Command.Version
import BlockCodec.Describe
import BlockCodec.Error
import BlockCodec.Frame.Basic
import BlockCodec.Frame.Reader
import BlockCodec.Frame.Writer
import BlockCodec.Main
import BlockCodec.Message.Collect
import BlockCodec.Message.Config
import BlockCodec.Message.Decode
import BlockCodec.Message.Elements
import BlockCodec.Message.Encode
import BlockCodec.Message.Handler
import BlockCodec.Message.Number
import BlockCodec.Message.Payload
import BlockCodec.Message.Update
import BlockCodec.Message.View
import BlockCodec.Scalar.Basic
import BlockCodec.Scalar.Binary
import BlockCodec.Scalar.Decimal
import BlockCodec.Schema.Field
import BlockCodec.Schema.Kind
import BlockCodec.Schema.Table
import BlockCodec.Schema.Validity
import BlockCodec.Step
import BlockCodec.Stream.Error
import BlockCodec.Stream.Input
import BlockCodec.Stream.Output
import BlockCodec.Stream.Sink
import BlockCodec.Stream.Source
import BlockCodec.Text.Blank
import BlockCodec.Text.CharClass
import BlockCodec.Text.GraphemeExtend
import BlockCodec.Text.Grid
import BlockCodec.Text.Hex
import BlockCodec.Text.Ignorable
import BlockCodec.Text.Json
import BlockCodec.Text.Numeral
import BlockCodec.Text.Preview
import BlockCodec.Text.Quoted
import BlockCodec.Text.Record
import BlockCodec.Text.Unprintable
import BlockCodec.Text.Wide
import BlockCodec.Text.Width
import BlockCodec.Varint
import BlockCodec.Wire.Error
import BlockCodec.Wire.Read
import BlockCodec.Wire.Scan
import BlockCodec.Wire.Type
import BlockCodec.Wire.Write
import BlockCodec.Proofs.Ends
import BlockCodec.Proofs.LittleEndian
import BlockCodec.Proofs.Spellings
import BlockCodec.Proofs.Layout
import BlockCodec.Proofs.Checks
import BlockCodec.Proofs.Edits
import BlockCodec.Proofs.Places
import BlockCodec.Proofs.Initialisation
import BlockCodec.Proofs.Bindings
import BlockCodec.Proofs.Moves
import BlockCodec.Proofs.Invariants
import BlockCodec.Proofs.Preparation
import BlockCodec.Proofs.Decoding
import BlockCodec.Proofs.Emission
import BlockCodec.Proofs.Encoding
import BlockCodec.Proofs.Soundness
import BlockCodec.Proofs.Writing
import BlockCodec.Proofs.Actions
import BlockCodec.Proofs.WireForm
import BlockCodec.Proofs.Reach
import BlockCodec.Proofs.Clean
import BlockCodec.Proofs.Reading
import BlockCodec.Proofs.Readers
import BlockCodec.Proofs.Restoring
import BlockCodec.Proofs.Copying
import BlockCodec.Proofs.Resuming
import BlockCodec.Proofs.RoundTrip
import BlockCodec.Proofs.Supplies
import BlockCodec.Proofs.Tracking
import BlockCodec.Proofs.Lookup
import BlockCodec.Proofs.Lockstep
import BlockCodec.Proofs.Walking
import BlockCodec.Proofs.Bystanders
import BlockCodec.Proofs.Chunking
import BlockCodec.Proofs.Records
import BlockCodec.Proofs.Laps
import BlockCodec.Proofs.Truncation
import BlockCodec.Proofs.Merging
import BlockCodec.Proofs.Accepting
import BlockCodec.Proofs.Vacancy
import BlockCodec.Proofs.Mirroring
import BlockCodec.Proofs.Acceptance
import BlockCodec.Proofs.Sizing
import BlockCodec.Proofs.Skipping
import BlockCodec.Proofs.Twins
import BlockCodec.Proofs.Alongside
import BlockCodec.Proofs.Transparency
import BlockCodec.Proofs.Locality
import BlockCodec.Proofs.Rows
import BlockCodec.Proofs.Ordering
import BlockCodec.Proofs.Frames
import BlockCodec.Proofs.Buffers
import BlockCodec.Proofs.Delimiting
import BlockCodec.Proofs.Passes
import BlockCodec.Proofs.Pieces
import BlockCodec.Proofs.Prefixes
import BlockCodec.Proofs.Weights
import BlockCodec.Proofs.Origins
import BlockCodec.Proofs.Mismatches
import BlockCodec.Proofs.Devices
import BlockCodec.Proofs.Plans
import BlockCodec.Proofs.Accounts
import BlockCodec.Proofs.Portions
import BlockCodec.Proofs.Sending
import BlockCodec.Proofs.Interchange
import BlockCodec.Proofs.Outages
import BlockCodec.Proofs.Storing
import BlockCodec.Proofs.Exclusion
import BlockCodec.Proofs.Footprints
import BlockCodec.Proofs.Forgetting
import BlockCodec.Proofs.Refusals
import BlockCodec.Proofs.Idle
import BlockCodec.Proofs.Reencoding
import BlockCodec.Proofs.Returning
import BlockCodec.Proofs.Collectors
import BlockCodec.Proofs.Casts
import BlockCodec.Proofs.Consignments
import BlockCodec.Proofs.Collecting
import BlockCodec.Proofs.Accessors
import BlockCodec.Proofs.Requirements
import BlockCodec.Proofs.Depths
import BlockCodec.Proofs.Bonds
import BlockCodec.Proofs.Requests
import BlockCodec.Proofs.Confinement
import BlockCodec.Proofs.Scanning
import BlockCodec.Proofs.Switching
import BlockCodec.Proofs.Series
import BlockCodec.Proofs.Roster
import BlockCodec.Proofs.Enacting
import BlockCodec.Proofs.Mixtures
import BlockCodec.Proofs.Wholeness
import BlockCodec.Proofs.Positions
import BlockCodec.Proofs.Padding
import BlockCodec.Proofs.Previews
import BlockCodec.Proofs.Listing
