import GarbledCircuits.Bytes.Endian
import GarbledCircuits.Bytes.Hex
import GarbledCircuits.Bytes.Mask
import GarbledCircuits.Cipher.Error
import GarbledCircuits.Cipher.FixedKey
import GarbledCircuits.Cipher.Hashed
import GarbledCircuits.Cipher.Scheme
import GarbledCircuits.Cipher.Session
import GarbledCircuits.Circuit.Basic
import GarbledCircuits.Circuit.Error
import GarbledCircuits.Circuit.Executor
import GarbledCircuits.Circuit.Schedule
import GarbledCircuits.Description.Circuit
import GarbledCircuits.Description.Decoder
import GarbledCircuits.Description.Garbled
import GarbledCircuits.Description.Record
import GarbledCircuits.Description.Wire
import GarbledCircuits.Fault
import GarbledCircuits.Garbled.Circuit
import GarbledCircuits.Garbled.Commitment
import GarbledCircuits.Garbled.Decode
import GarbledCircuits.Garbled.Evaluate
import GarbledCircuits.Garbled.Garble
import GarbledCircuits.Garbled.Secrets
import GarbledCircuits.Garbled.Settings
import GarbledCircuits.Garbled.Verify
import GarbledCircuits.Gate.Basic
import GarbledCircuits.Gate.Error
import GarbledCircuits.Gate.Function
import GarbledCircuits.Gate.Garbling
import GarbledCircuits.Gate.Rows
import GarbledCircuits.Gate.Verify
import GarbledCircuits.Json.Basic
import GarbledCircuits.Json.Reading
import GarbledCircuits.Json.Token
import GarbledCircuits.Primitive.Aes128
import GarbledCircuits.Primitive.Blake3
import GarbledCircuits.Primitive.ChaCha20
import GarbledCircuits.Primitive.Lanes
import GarbledCircuits.Primitive.Sha256
import GarbledCircuits.Proofs.Cipher.Canonicity
import GarbledCircuits.Proofs.Cipher.Codec
import GarbledCircuits.Proofs.Cipher.Framing
import GarbledCircuits.Proofs.Cipher.Keystream
import GarbledCircuits.Proofs.Cipher.Weights
import GarbledCircuits.Proofs.Circuit.Assignment
import GarbledCircuits.Proofs.Circuit.Chains
import GarbledCircuits.Proofs.Circuit.Computation
import GarbledCircuits.Proofs.Circuit.Deviation
import GarbledCircuits.Proofs.Circuit.Executor
import GarbledCircuits.Proofs.Circuit.Faults
import GarbledCircuits.Proofs.Circuit.Layering
import GarbledCircuits.Proofs.Circuit.Levels
import GarbledCircuits.Proofs.Circuit.Order
import GarbledCircuits.Proofs.Circuit.Permutation
import GarbledCircuits.Proofs.Circuit.Renaming
import GarbledCircuits.Proofs.Circuit.Runs
import GarbledCircuits.Proofs.Circuit.Violations
import GarbledCircuits.Proofs.Circuit.Wiring
import GarbledCircuits.Proofs.Description.Circuit
import GarbledCircuits.Proofs.Description.Decoder
import GarbledCircuits.Proofs.Description.Record
import GarbledCircuits.Proofs.Description.Table
import GarbledCircuits.Proofs.Failure
import GarbledCircuits.Proofs.Garbled.Committing
import GarbledCircuits.Proofs.Garbled.Completeness
import GarbledCircuits.Proofs.Garbled.Correctness
import GarbledCircuits.Proofs.Garbled.Decoding
import GarbledCircuits.Proofs.Garbled.Drawing
import GarbledCircuits.Proofs.Garbled.Evaluation
import GarbledCircuits.Proofs.Garbled.Faults
import GarbledCircuits.Proofs.Garbled.Formats
import GarbledCircuits.Proofs.Garbled.Garbling
import GarbledCircuits.Proofs.Garbled.Hashing
import GarbledCircuits.Proofs.Garbled.Honesty
import GarbledCircuits.Proofs.Garbled.Independence
import GarbledCircuits.Proofs.Garbled.Interface
import GarbledCircuits.Proofs.Garbled.Issuing
import GarbledCircuits.Proofs.Garbled.Layout
import GarbledCircuits.Proofs.Garbled.Opening
import GarbledCircuits.Proofs.Garbled.Renaming
import GarbledCircuits.Proofs.Garbled.Soundness
import GarbledCircuits.Proofs.Garbled.Translating
import GarbledCircuits.Proofs.Garbled.Tweaks
import GarbledCircuits.Proofs.Garbled.Verification
import GarbledCircuits.Proofs.Gate.Addressing
import GarbledCircuits.Proofs.Gate.Encoding
import GarbledCircuits.Proofs.Gate.Exhaustion
import GarbledCircuits.Proofs.Gate.Faults
import GarbledCircuits.Proofs.Gate.Garbling
import GarbledCircuits.Proofs.Gate.Masking
import GarbledCircuits.Proofs.Gate.Opening
import GarbledCircuits.Proofs.Gate.Slots
import GarbledCircuits.Proofs.Gate.Tampering
import GarbledCircuits.Proofs.Gate.Verification
import GarbledCircuits.Proofs.Json.Reading
import GarbledCircuits.Proofs.Json.Scanning
import GarbledCircuits.Proofs.Outcome
import GarbledCircuits.Proofs.Table.Cutting
import GarbledCircuits.Proofs.Table.Offsets
import GarbledCircuits.Proofs.Table.Rows
import GarbledCircuits.Proofs.Table.Tiling
import GarbledCircuits.Proofs.Table.Wholeness
import GarbledCircuits.Proofs.Wire.Registration
import GarbledCircuits.Proofs.Wire.Residue
import GarbledCircuits.Proofs.Wire.Store
import GarbledCircuits.Random.WordStream
import GarbledCircuits.Report.Progress
import GarbledCircuits.Table.Basic
import GarbledCircuits.Table.Translation
import GarbledCircuits.Text.Decimal
import GarbledCircuits.Text.Quoted
import GarbledCircuits.Wire.Key
import GarbledCircuits.Wire.Pair
import GarbledCircuits.Wire.Store
