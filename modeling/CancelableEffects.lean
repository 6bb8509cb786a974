import CancelableEffects.Either
import CancelableEffects.Machine.Run
import CancelableEffects.Program.Combinators
import CancelableEffects.Proofs.Balance
import CancelableEffects.Proofs.Evaluation.Adequacy
import CancelableEffects.Proofs.Joiners
import CancelableEffects.Proofs.Permits
import CancelableEffects.Proofs.Regions
import CancelableEffects.Proofs.Releases
import CancelableEffects.Scenario.Command
import CancelableEffects.Scenario.Question
import CancelableEffects.Threads
import CancelableEffects.Proofs.Pairs
import CancelableEffects.Proofs.Stops
import CancelableEffects.Proofs.Races
import CancelableEffects.Proofs.Failures
import CancelableEffects.Proofs.Observers
import CancelableEffects.Proofs.Outcomes
import CancelableEffects.Proofs.Sequences
import CancelableEffects.Proofs.Acts
import CancelableEffects.Proofs.Nests
import CancelableEffects.Proofs.Arrivals
import CancelableEffects.Proofs.Enclosures
import CancelableEffects.Proofs.Laws
import CancelableEffects.Proofs.Resolutions
import CancelableEffects.Proofs.Segments
import CancelableEffects.Proofs.Handlers
import CancelableEffects.Proofs.Fusion
import CancelableEffects.Proofs.Iterations
import CancelableEffects.Proofs.Worlds
import CancelableEffects.Proofs.Completions
import CancelableEffects.Proofs.Lockstep
import CancelableEffects.Proofs.Bodies
import CancelableEffects.Proofs.Exchanges
import CancelableEffects.Proofs.Awaits
import CancelableEffects.Proofs.Contests
import CancelableEffects.Proofs.Feeding
import CancelableEffects.Proofs.Successions
import CancelableEffects.Proofs.Takings
import CancelableEffects.Proofs.Errands
import CancelableEffects.Proofs.Futures
