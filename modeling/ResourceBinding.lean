import ResourceBinding.Main
import ResourceBinding.Proofs.Binding.Meaning
import ResourceBinding.Proofs.Pipeline
import ResourceBinding.Proofs.Calls.Levels
import ResourceBinding.Proofs.FixedResource.Stability
import ResourceBinding.Proofs.FixedResource.Verdicts
import ResourceBinding.Proofs.Program.Results
import ResourceBinding.Proofs.Program.Steps
import ResourceBinding.Proofs.Program.WellFormed
import ResourceBinding.Proofs.Binding.WellFormed
import ResourceBinding.Proofs.FixedResource.WellFormed
import ResourceBinding.Proofs.Program.InBounds
import ResourceBinding.Proofs.Reading.Cursor
import ResourceBinding.Proofs.Reading.Signature
import ResourceBinding.Proofs.Reading.Draft
import ResourceBinding.Proofs.WellFormed
import ResourceBinding.Proofs.Number.Single
import ResourceBinding.Proofs.Reading.Scan
import ResourceBinding.Proofs.Listing.Cursor
import ResourceBinding.Proofs.Listing.Tokens
import ResourceBinding.Proofs.Listing.Written
import ResourceBinding.Proofs.Listing.Signature
import ResourceBinding.Proofs.Listing.Body
import ResourceBinding.Proofs.Listing.Legible
import ResourceBinding.Proofs.Listing.Lines
import ResourceBinding.Proofs.Listing.Again
import ResourceBinding.Proofs.Listing.Functions
import ResourceBinding.Proofs.Listing.Outlines
import ResourceBinding.Proofs.Listing.RoundTrip
import ResourceBinding.Proofs.Listing.Faithful
import ResourceBinding.Proofs.Listing.Bound
import ResourceBinding.Proofs.Binding.Agreement
import ResourceBinding.Proofs.Binding.FirstFault
import ResourceBinding.Proofs.FixedResource.Forwarding
import ResourceBinding.Proofs.FixedResource.ProvenMarks
import ResourceBinding.Proofs.FixedResource.InPlace
import ResourceBinding.Proofs.Program.Substitution
import ResourceBinding.Proofs.Program.Removal
import ResourceBinding.Proofs.Binding.SamplerCalls
import ResourceBinding.Proofs.Listing.TypeText
import ResourceBinding.Proofs.Binding.Buffers
import ResourceBinding.Proofs.Binding.Accessors
import ResourceBinding.Proofs.FixedResource.Settled
import ResourceBinding.Proofs.Changes
import ResourceBinding.Proofs.Calls.Breadth
import ResourceBinding.Proofs.FixedResource.Rounds
import ResourceBinding.Proofs.Reading.Samplers
import ResourceBinding.Proofs.Reading.Sections
import ResourceBinding.Proofs.Reading.Locality
import ResourceBinding.Interner
import ResourceBinding.Proofs.Binding.Discriminants
import ResourceBinding.Proofs.Program.TypeIdentity
