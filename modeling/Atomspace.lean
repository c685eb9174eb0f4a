import Atomspace.Table
import Atomspace.Unify
import Atomspace.Reader
import Atomspace.Double
import Atomspace.Text.Blank
import Atomspace.Text.Quoted
import Atomspace.Config
import Atomspace.Truth
import Atomspace.Priority
import Atomspace.Valuation
import Atomspace.Space
import Atomspace.Space.Query
import Atomspace.Space.Forget
import Atomspace.Space.Stats
import Atomspace.Native
import Atomspace.Native.Standard
import Atomspace.Native.Registry
import Atomspace.Eval
import Atomspace.Program
import Atomspace.Digest.Blake3
import Atomspace.Random
import Atomspace.Random.SplitMix
import Atomspace.Random.ChaCha
import Atomspace.World
import Atomspace.World.Chain
import Atomspace.World.Script
import Atomspace.Agent
import Atomspace.Toml.Document
import Atomspace.Config.Load
import Atomspace.Main
import Atomspace.Proofs.Substitution
import Atomspace.Proofs.Identity
import Atomspace.Proofs.Unification
import Atomspace.Proofs.Halting
import Atomspace.Proofs.MostGeneral
import Atomspace.Proofs.Reader
import Atomspace.Proofs.Divergence
import Atomspace.Proofs.HeadIndex
import Atomspace.Proofs.Reachable
import Atomspace.Proofs.Reading
import Atomspace.Proofs.Retrieval
import Atomspace.Proofs.Agreement
import Atomspace.Proofs.Completeness
import Atomspace.Proofs.Exact
import Atomspace.Proofs.Derivation
import Atomspace.Proofs.Bits
import Atomspace.Proofs.Forgetting
import Atomspace.Proofs.Grammar
import Atomspace.Proofs.Layout
import Atomspace.Proofs.Nearest
import Atomspace.Proofs.RoundTrip
import Atomspace.Proofs.Hygiene
import Atomspace.Proofs.Chains
import Atomspace.Proofs.Equivariance
import Atomspace.Proofs.Protection
import Atomspace.Proofs.Ranges
import Atomspace.Proofs.Bounds
import Atomspace.Proofs.Magnitudes
import Atomspace.Proofs.Inquiries
import Atomspace.Proofs.Merging
import Atomspace.Proofs.Ranking
import Atomspace.Proofs.Comparisons
import Atomspace.Proofs.Staleness
import Atomspace.Proofs.Expansion
import Atomspace.Proofs.Faults
import Atomspace.Proofs.Evidence
import Atomspace.Proofs.Peano
import Atomspace.Proofs.Boosts
import Atomspace.Proofs.Fading
import Atomspace.Proofs.Fingerprints
import Atomspace.Proofs.Choices
import Atomspace.Proofs.Drift
import Atomspace.Proofs.Selection
import Atomspace.Proofs.Episodes
import Atomspace.Proofs.Repetition
import Atomspace.Proofs.Declarations
import Atomspace.Proofs.Shuffles
import Atomspace.Proofs.Overloading
import Atomspace.Proofs.Statistics
import Atomspace.Proofs.Extended
import Atomspace.Proofs.Confidence
import Atomspace.Proofs.Credence
