import AbstractMachine.Ty.Equality
import AbstractMachine.Fault.Message
import AbstractMachine.Memory.Typed
import AbstractMachine.Program.Build
import AbstractMachine.Machine.Run
import AbstractMachine.Session
import AbstractMachine.Settings.Search
import AbstractMachine.Settings.Document
import AbstractMachine.Dispatch
import AbstractMachine.Log.Mask
import AbstractMachine.Program.Kinds
import AbstractMachine.Proofs.Soundness
import AbstractMachine.Proofs.Representation.Formers
import AbstractMachine.Proofs.Representation.Scalars
import AbstractMachine.Proofs.Discriminant
import AbstractMachine.Proofs.Representation.Encoding
import AbstractMachine.Proofs.Representation.Monotone
import AbstractMachine.Proofs.Representation.Nullable
import AbstractMachine.Proofs.Representation.RoundTrip
import AbstractMachine.Proofs.Representation.Reencoding
import AbstractMachine.Proofs.Memory.Freed
import AbstractMachine.Proofs.Memory.Contents
import AbstractMachine.Proofs.Memory.Placement
import AbstractMachine.Proofs.Parts
import AbstractMachine.Proofs.Operator
import AbstractMachine.Proofs.Machine.Ownership
import AbstractMachine.Proofs.Machine.Typing
import AbstractMachine.Proofs.Machine.Unions
import AbstractMachine.Proofs.Provenance.Unforged
import AbstractMachine.Proofs.Refinement.Execution
import AbstractMachine.Proofs.Noninterference.Reports
import AbstractMachine.Proofs.Machine.Brackets
import AbstractMachine.Proofs.Machine.Projection
import AbstractMachine.Proofs.Provenance.Casts
import AbstractMachine.Proofs.Machine.Faithful
import AbstractMachine.Proofs.Machine.Budget
import AbstractMachine.Proofs.Layout.Builders
import AbstractMachine.Proofs.Machine.Lens
import AbstractMachine.Proofs.Arithmetic
import AbstractMachine.Proofs.Memory.Tagging
import AbstractMachine.Proofs.Representation.Validity
import AbstractMachine.Proofs.Machine.Tagging
import AbstractMachine.Proofs.Machine.Escapes
import AbstractMachine.Proofs.Machine.Functions
import AbstractMachine.Proofs.Machine.Offsets
import AbstractMachine.Proofs.Machine.Validation
import AbstractMachine.Proofs.Machine.Resizing
import AbstractMachine.Proofs.Machine.Transmutation
import AbstractMachine.Proofs.Machine.Reinterpretation
import AbstractMachine.Proofs.Representation.Inhabitation
import AbstractMachine.Proofs.Representation.Positions
import AbstractMachine.Proofs.Provenance.Stripped
import AbstractMachine.Proofs.Machine.Numbering
import AbstractMachine.Proofs.Layout.Chunks
import AbstractMachine.Proofs.Residues
import AbstractMachine.Proofs.Representation.Order
