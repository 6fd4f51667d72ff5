import KeyTransparency.Auditor
import KeyTransparency.Cadence
import KeyTransparency.CommandLine.Run
import KeyTransparency.Crypto.Ed25519
import KeyTransparency.Main
import KeyTransparency.Proofs.Forest.Completeness
import KeyTransparency.Proofs.Forest.Soundness
import KeyTransparency.Proofs.Log.Completeness
import KeyTransparency.Proofs.Log.Soundness
import KeyTransparency.Proofs.Partition.Authenticity
import KeyTransparency.Proofs.Partition.Existence
import KeyTransparency.Proofs.Partition.Freshness
import KeyTransparency.Proofs.Trie.Epochs
import KeyTransparency.Proofs.Trie.Soundness
import KeyTransparency.Proofs.Validation
import KeyTransparency.Storage.Zstd.Lemmas
import KeyTransparency.Proofs.Auditor.Verdict
import KeyTransparency.Proofs.Auditor.Chain
import KeyTransparency.Proofs.Auditor.History
import KeyTransparency.Proofs.Auditor.Logs
import KeyTransparency.Proofs.Partition.Growth
import KeyTransparency.Proofs.Auditor.Honest
import KeyTransparency.Proofs.Auditor.Rollback
import KeyTransparency.Proofs.Storage.Contents
import KeyTransparency.Proofs.Directory.Run
import KeyTransparency.Proofs.Directory.Agreement
import KeyTransparency.Proofs.Directory.Lookup
import KeyTransparency.Proofs.Trie.Binding
import KeyTransparency.Proofs.Partition.Kinds
import KeyTransparency.Proofs.Storage.Image
import KeyTransparency.Proofs.Storage.Index
import KeyTransparency.Proofs.Storage.Reopening
import KeyTransparency.Proofs.Storage.Session
import KeyTransparency.Proofs.Storage.Crash
import KeyTransparency.Proofs.Trie.Arena
import KeyTransparency.Proofs.Trie.Past
import KeyTransparency.Proofs.Trie.Faults
import KeyTransparency.Proofs.Partition.InPlace
import KeyTransparency.Proofs.Directory.Transitions
import KeyTransparency.Proofs.Directory.Availability
import KeyTransparency.Proofs.Simulation.Outcome
import KeyTransparency.Proofs.Simulation.Progress
import KeyTransparency.Proofs.Simulation.Completion
import KeyTransparency.Proofs.Trie.Canonical
import KeyTransparency.Proofs.Log.Digests
import KeyTransparency.Proofs.Partition.Monitoring
import KeyTransparency.Proofs.Directory.PublicKeys
import KeyTransparency.Proofs.Forest.Decomposition
import KeyTransparency.Proofs.Forest.Guarded
import KeyTransparency.Proofs.Commitments
import KeyTransparency.Proofs.Trie.Versions
import KeyTransparency.Proofs.Cadence
