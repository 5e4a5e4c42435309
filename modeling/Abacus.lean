import Abacus.Health.Start
import Abacus.Main
import Abacus.Proofs.Brackets.Matching
import Abacus.Proofs.Bytes.Offsets
import Abacus.Proofs.Canonical.RoundTrip
import Abacus.Proofs.CommandLine.Foreign
import Abacus.Proofs.CommandLine.Log
import Abacus.Proofs.Composition
import Abacus.Proofs.Counting.Termination
import Abacus.Proofs.Decimal.Layout
import Abacus.Proofs.Formula.Solving
import Abacus.Proofs.Grammar.Refusal
import Abacus.Proofs.Health.Answering
import Abacus.Proofs.Health.Configured
import Abacus.Proofs.Health.Framing
import Abacus.Proofs.Health.Settings
import Abacus.Proofs.Health.Settled
import Abacus.Proofs.Integers
import Abacus.Proofs.Limits.Parsing
import Abacus.Proofs.Overflow
import Abacus.Proofs.Reach
