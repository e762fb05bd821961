import CipherGraph.Compile.SchemeChoice
import CipherGraph.Scheme.Approximate
import CipherGraph.Scheme.Exact
import CipherGraph.Scheme.Gates
import CipherGraph.Execution.Basic
import CipherGraph.Blob.Bundle
import CipherGraph.Blob.Values
import CipherGraph.Digest.Fnv
import CipherGraph.View.Blob
import CipherGraph.View.Context
import CipherGraph.View.Failure
import CipherGraph.View.Value
import CipherGraph.Files
import CipherGraph.Json.Pretty
import CipherGraph.Command.Outcome
import CipherGraph.Main
import CipherGraph.Proofs.Availability
import CipherGraph.Proofs.NormalForm
import CipherGraph.Proofs.GroupIds
import CipherGraph.Proofs.KeyDemand
import CipherGraph.Proofs.Lowering
import CipherGraph.Proofs.Readiness
import CipherGraph.Proofs.Replacement
import CipherGraph.Proofs.GateRoundTrip
import CipherGraph.Proofs.TypeSafety
import CipherGraph.Proofs.Rotations
import CipherGraph.Proofs.Levels
import CipherGraph.Proofs.Delivery
import CipherGraph.Proofs.Freeing
import CipherGraph.Proofs.Envelopes
import CipherGraph.Proofs.ValueBlobs
import CipherGraph.Proofs.Acceptance
import CipherGraph.Proofs.KeyIsolation
import CipherGraph.Proofs.Caches
import CipherGraph.Proofs.Integrity
import CipherGraph.Proofs.Custody
import CipherGraph.Proofs.Acyclicity
import CipherGraph.Proofs.SchemeFit
import CipherGraph.Proofs.GroupRecords
import CipherGraph.Proofs.ParameterFit
import CipherGraph.Proofs.ParameterChoice
import CipherGraph.Proofs.BitTurns
import CipherGraph.Proofs.Recompilation
import CipherGraph.Proofs.LeastOrder
import CipherGraph.Proofs.Provenance
import CipherGraph.Proofs.Reinference
import CipherGraph.Proofs.Removal
import CipherGraph.Proofs.Canonical
import CipherGraph.Proofs.InputRoundTrip
import CipherGraph.Proofs.Assembly
import CipherGraph.Proofs.GroupKeys
import CipherGraph.Proofs.RotationSteps
import CipherGraph.Proofs.Remaking
import CipherGraph.Proofs.RestoredIds
