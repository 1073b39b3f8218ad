import TypedPhp.Random.ChaCha

set_option autoImplicit false

/-!
# Scripted stream

A source that yields given words first and then the words of the SplitMix generator. A word of
32 bits is the high half of one of 64 bits.
-/

namespace TypedPhp

namespace Scripted

/-- One step of the SplitMix generator: its output and its new state. -/
def splitMix (state : UInt64) : UInt64 × UInt64 :=
  let state := state + 0x9e3779b97f4a7c15
  let z := (state ^^^ (state >>> 30)) * 0xbf58476d1ce4e5b9
  let z := (z ^^^ (z >>> 27)) * 0x94d049bb133111eb
  (z ^^^ (z >>> 31), state)

/-- Given words, and the state of the generator that takes over after them. -/
structure Stream where
  words : List UInt64
  state : UInt64
deriving DecidableEq, Repr, Inhabited

namespace Stream

def next64 (s : Stream) : UInt64 × Stream :=
  match s.words with
  | w :: ws => (w, { s with words := ws })
  | [] =>
    let (w, state) := splitMix s.state
    (w, { s with state := state })

def next32 (s : Stream) : UInt32 × Stream :=
  let (w, s) := s.next64
  ((w >>> 32).toUInt32, s)

instance : WordSource Stream := ⟨next32, next64⟩

end Stream

end Scripted

/-- A source of either kind. -/
inductive RandomSource where
  | seeded (stream : ChaCha.Stream)
  | scripted (stream : Scripted.Stream)
deriving Repr, Inhabited

namespace RandomSource

/-- The source of a seed. -/
def ofSeed (seed : UInt64) : RandomSource := seeded (.ofSeed seed)

/-- The source that yields the words first and then continues from the seed. -/
def ofScript (words : List UInt64) (seed : UInt64) : RandomSource := scripted ⟨words, seed⟩

def next32 : RandomSource → UInt32 × RandomSource
  | seeded s => s.next32.map id seeded
  | scripted s => s.next32.map id scripted

def next64 : RandomSource → UInt64 × RandomSource
  | seeded s => s.next64.map id seeded
  | scripted s => s.next64.map id scripted

instance : WordSource RandomSource := ⟨next32, next64⟩

end RandomSource

end TypedPhp
