import PulseFlow.About
import PulseFlow.Catalog
import PulseFlow.Console
import PulseFlow.Decimal.Binary
import PulseFlow.Decimal.Layout
import PulseFlow.Decimal.Numeral
import PulseFlow.Decimal.Shortest
import PulseFlow.Document.Basic
import PulseFlow.Document.Export
import PulseFlow.Document.Import
import PulseFlow.Document.Json
import PulseFlow.Draft
import PulseFlow.Engine.Basic
import PulseFlow.Engine.Edit
import PulseFlow.Engine.Instances
import PulseFlow.Engine.Wave
import PulseFlow.Error
import PulseFlow.Event
import PulseFlow.Graph
import PulseFlow.Heap.Basic
import PulseFlow.Heap.Copy
import PulseFlow.Json.Field
import PulseFlow.Json.Number
import PulseFlow.Json.Reader
import PulseFlow.Json.Value
import PulseFlow.Json.Writer
import PulseFlow.Logic.Basic
import PulseFlow.Logic.Fire
import PulseFlow.Name
import PulseFlow.Node
import PulseFlow.Prototype
import PulseFlow.Proofs.Bindings
import PulseFlow.Proofs.Changes
import PulseFlow.Proofs.Copies
import PulseFlow.Proofs.Engaging
import PulseFlow.Proofs.Fading
import PulseFlow.Proofs.Feeding
import PulseFlow.Proofs.Forms
import PulseFlow.Proofs.Leading
import PulseFlow.Proofs.Likeness
import PulseFlow.Proofs.Moves
import PulseFlow.Proofs.Nodes
import PulseFlow.Proofs.Prototypes
import PulseFlow.Proofs.Slots
import PulseFlow.Proofs.Sound
import PulseFlow.Proofs.Teardown
import PulseFlow.Registry
import PulseFlow.Signal.Arithmetic
import PulseFlow.Signal.Basic
import PulseFlow.Signal.Describe
import PulseFlow.Signal.Literal
import PulseFlow.Slots
import PulseFlow.Sorted.Set
import PulseFlow.Sorted.Table
import PulseFlow.Text.Blank
import PulseFlow.Text.Quoted
import PulseFlow.Text.Visible
import PulseFlow.World
import PulseFlow.Proofs.Waves
import PulseFlow.Proofs.Placing
import PulseFlow.Proofs.Templates
import PulseFlow.Proofs.Importing
import PulseFlow.Proofs.Sessions
import PulseFlow.Proofs.Ownership
import PulseFlow.Proofs.Scheduling
import PulseFlow.Proofs.Residue
import PulseFlow.Proofs.Drawings
import PulseFlow.Proofs.Fidelity
import PulseFlow.Proofs.Enclosure
import PulseFlow.Proofs.Transparency
import PulseFlow.Proofs.Filing
import PulseFlow.Proofs.Reloading
import PulseFlow.Proofs.Rewiring
import PulseFlow.Proofs.Numbering
import PulseFlow.Proofs.RoundTrip
import PulseFlow.Proofs.Progress
import PulseFlow.Proofs.Accounts
import PulseFlow.Proofs.Numbers
import PulseFlow.Proofs.Identity
import PulseFlow.Proofs.WellFormed
import PulseFlow.Proofs.Admission
import PulseFlow.Proofs.Retaining
import PulseFlow.Proofs.Dormancy
import PulseFlow.Proofs.Histories
import PulseFlow.Proofs.Joining
import PulseFlow.Proofs.Wirings
import PulseFlow.Proofs.Settling
import PulseFlow.Proofs.Counting
import PulseFlow.Proofs.Refusals
import PulseFlow.Proofs.Renaming
import PulseFlow.Proofs.Blocks
import PulseFlow.Proofs.Resaving
import PulseFlow.Proofs.Reordering
import PulseFlow.Proofs.Countdown
import PulseFlow.Proofs.Nests
import PulseFlow.Proofs.Removal
import PulseFlow.Proofs.Recycling
import PulseFlow.Proofs.Arrays
import PulseFlow.Proofs.Isolation
import PulseFlow.Proofs.Legibility
import PulseFlow.Proofs.Encoding
import PulseFlow.Proofs.Bypassing
import PulseFlow.Proofs.Editing
import PulseFlow.Proofs.Lifetimes
import PulseFlow.Proofs.Detaching
import PulseFlow.Proofs.Limits
import PulseFlow.Proofs.ArrayActions
import PulseFlow.Proofs.Literals
import PulseFlow.Proofs.Readings
import PulseFlow.Proofs.Exactness
import PulseFlow.Proofs.Descent
import PulseFlow.Proofs.Endings
import PulseFlow.Proofs.Occupancy
