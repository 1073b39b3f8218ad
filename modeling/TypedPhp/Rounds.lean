import TypedPhp.Random.ChaCha

set_option autoImplicit false

/-!
# Seeds of rounds

Every round of a test run has a seed of its own, drawn in order from the stream of a master
seed. The seeds end after a given number of rounds, and none is handed out while the run is
being stopped; such a call uses up neither a draw nor a round.
-/

namespace TypedPhp

/-- The seeds that are still to come. -/
structure RoundSeeds where
  stream : ChaCha.Stream
  /-- How many rounds are left; without a number there is no end. -/
  remaining : Option Nat
deriving Repr

namespace RoundSeeds

/-- The seeds of a master seed. -/
def ofMaster (master : UInt64) (rounds : Option Nat) : RoundSeeds := ⟨.ofSeed master, rounds⟩

/-- The next seed, unless the run is being stopped or no round is left. -/
def next (s : RoundSeeds) (stopped : Bool) : Option UInt64 × RoundSeeds :=
  if stopped || s.remaining == some 0 then (none, s)
  else
    let (seed, stream) := s.stream.next64
    (some seed, ⟨stream, s.remaining.map (· - 1)⟩)

/-- The results of calls of `next`, one for every state of the stop signal. -/
def run (s : RoundSeeds) : List Bool → List (Option UInt64)
  | [] => []
  | stopped :: rest =>
    let (seed, s) := s.next stopped
    seed :: s.run rest

end RoundSeeds

end TypedPhp
