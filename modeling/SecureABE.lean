import SecureABE.Audit.Interleaved
import SecureABE.Audit.Log
import SecureABE.Audit.Reading
import SecureABE.Authorities.Issue
import SecureABE.Authorities.Permission
import SecureABE.Authorities.Registry
import SecureABE.Cli.Access
import SecureABE.Cli.Accesses
import SecureABE.Cli.Auditing
import SecureABE.Cli.Authorization
import SecureABE.Cli.Availability
import SecureABE.Cli.Claims
import SecureABE.Cli.Commands
import SecureABE.Cli.Crashes
import SecureABE.Cli.Deployment
import SecureABE.Cli.Disturbances
import SecureABE.Cli.Effects
import SecureABE.Cli.Encrypting
import SecureABE.Cli.Faults
import SecureABE.Cli.Files
import SecureABE.Cli.Frames
import SecureABE.Cli.Issuing
import SecureABE.Cli.Layout
import SecureABE.Cli.Ledger
import SecureABE.Cli.Levels
import SecureABE.Cli.Linked
import SecureABE.Cli.Literals
import SecureABE.Cli.Merging
import SecureABE.Cli.Mirroring
import SecureABE.Cli.Monitor
import SecureABE.Cli.Naming
import SecureABE.Cli.Noninterference
import SecureABE.Cli.Overlapping
import SecureABE.Cli.Panics
import SecureABE.Cli.Provenance
import SecureABE.Cli.Recovery
import SecureABE.Cli.Refinement
import SecureABE.Cli.Reissuing
import SecureABE.Cli.Reports
import SecureABE.Cli.Retention
import SecureABE.Cli.Revoking
import SecureABE.Cli.Runs
import SecureABE.Cli.Tagging
import SecureABE.Cli.Universe
import SecureABE.Cli.Updates
import SecureABE.Core.Codec
import SecureABE.Core.Collusion
import SecureABE.Core.Correctness
import SecureABE.Core.Crates
import SecureABE.Core.Directions
import SecureABE.Core.Forged
import SecureABE.Core.Ideal
import SecureABE.Core.Keys
import SecureABE.Core.Operations
import SecureABE.Core.Panics
import SecureABE.Core.Recombination
import SecureABE.Core.Reloading
import SecureABE.Core.Scheme
import SecureABE.Core.Secrecy
import SecureABE.Core.Share
import SecureABE.Core.Sharing
import SecureABE.Core.Totality
import SecureABE.Core.ZeroGates
import SecureABE.Envelope.Binding
import SecureABE.Envelope.Opening
import SecureABE.Envelope.Sealing
import SecureABE.Foundations.Agreement
import SecureABE.Foundations.Faults
import SecureABE.Foundations.FaultyDisk
import SecureABE.Foundations.FileSystem
import SecureABE.Foundations.Flaky
import SecureABE.Foundations.Generations
import SecureABE.Foundations.Guarantees
import SecureABE.Foundations.HashMap
import SecureABE.Foundations.Interleaving
import SecureABE.Foundations.Interpolation
import SecureABE.Foundations.Json
import SecureABE.Foundations.JsonText
import SecureABE.Foundations.Lines
import SecureABE.Foundations.Outcome
import SecureABE.Foundations.Panics
import SecureABE.Foundations.Program
import SecureABE.Foundations.Progress
import SecureABE.Foundations.Routes
import SecureABE.Foundations.SharedDisk
import SecureABE.Foundations.Text
import SecureABE.Foundations.Threshold
import SecureABE.Foundations.Traces
import SecureABE.Foundations.Translation
import SecureABE.Policy.Bounds
import SecureABE.Policy.Canonical
import SecureABE.Policy.Grammar
import SecureABE.Policy.Parser
import SecureABE.Policy.Parsing
import SecureABE.Policy.Serde
import SecureABE.Policy.Tree
import SecureABE.Revocation.Epochs
import SecureABE.Revocation.List
import SecureABE.Revocation.Saving
import SecureABE.Storage.Interrupted
import SecureABE.Storage.Listing
import SecureABE.Storage.Roundtrip
import SecureABE.Storage.Store
import SecureABE.Storage.Tampering
