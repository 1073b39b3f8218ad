import TypedPhp.Random.Source

set_option autoImplicit false

/-!
# Seeded stream

The stream of words of the ChaCha cipher with 12 rounds. The key is expanded from a seed of 64
bits by a linear congruential generator with permuted output; blocks of 16 words follow each
other with an increasing counter.
-/

namespace TypedPhp.ChaCha

/-- Sixteen words. -/
abbrev Block := Vector UInt32 16

/-- A word turned left by `k` bits, `0 < k < 32`. -/
def rotateLeft (w k : UInt32) : UInt32 := (w <<< k) ||| (w >>> (32 - k))

/-- A word turned right by `k` bits, `k < 32`. -/
def rotateRight (w k : UInt32) : UInt32 :=
  if k = 0 then w else (w >>> k) ||| (w <<< (32 - k))

/-- The quarter round on four places of a block. -/
def quarterRound (s : Block) (i j k l : Fin 16) : Block :=
  let a := s.get i
  let b := s.get j
  let c := s.get k
  let d := s.get l
  let a := a + b
  let d := rotateLeft (d ^^^ a) 16
  let c := c + d
  let b := rotateLeft (b ^^^ c) 12
  let a := a + b
  let d := rotateLeft (d ^^^ a) 8
  let c := c + d
  let b := rotateLeft (b ^^^ c) 7
  (((s.set i a).set j b).set k c).set l d

/-- A round on the columns and a round on the diagonals. -/
def doubleRound (s : Block) : Block :=
  let s := quarterRound s 0 4 8 12
  let s := quarterRound s 1 5 9 13
  let s := quarterRound s 2 6 10 14
  let s := quarterRound s 3 7 11 15
  let s := quarterRound s 0 5 10 15
  let s := quarterRound s 1 6 11 12
  let s := quarterRound s 2 7 8 13
  quarterRound s 3 4 9 14

/-- The result of `n` double rounds. -/
def doubleRounds : Nat → Block → Block
  | 0, s => s
  | n + 1, s => doubleRounds n (doubleRound s)

/-- Eight words of key. -/
abbrev Key := Vector UInt32 8

/-- The state before the rounds: constants, key, block counter and zero nonce. -/
def initial (key : Key) (counter : UInt64) : Block :=
  #v[0x61707865, 0x3320646e, 0x79622d32, 0x6b206574,
    key[0], key[1], key[2], key[3], key[4], key[5], key[6], key[7],
    counter.toUInt32, (counter >>> 32).toUInt32, 0, 0]

/-- The words of one block. -/
def block (key : Key) (counter : UInt64) : List UInt32 :=
  let start := initial key counter
  (Vector.zipWith (· + ·) (doubleRounds 6 start) start).toList

/-- One step of the generator that expands a seed. -/
def stepSeed (state : UInt64) : UInt64 := state * 6364136223846793005 + 11634580027462260723

/-- The output of the generator that expands a seed. -/
def seedWord (state : UInt64) : UInt32 :=
  rotateRight (((state >>> 18) ^^^ state) >>> 27).toUInt32 (state >>> 59).toUInt32

/-- The key of a seed. -/
def keyOfSeed (seed : UInt64) : Key :=
  let s1 := stepSeed seed
  let s2 := stepSeed s1
  let s3 := stepSeed s2
  let s4 := stepSeed s3
  let s5 := stepSeed s4
  let s6 := stepSeed s5
  let s7 := stepSeed s6
  let s8 := stepSeed s7
  #v[seedWord s1, seedWord s2, seedWord s3, seedWord s4,
    seedWord s5, seedWord s6, seedWord s7, seedWord s8]

/-- A place in the stream of words of a key. -/
structure Stream where
  key : Key
  /-- The counter of the next block. -/
  counter : UInt64
  /-- The words of the current block that are left. -/
  pending : List UInt32
deriving Repr

namespace Stream

/-- The stream of a seed, from its first word. -/
def ofSeed (seed : UInt64) : Stream := ⟨keyOfSeed seed, 0, []⟩

instance : Inhabited Stream := ⟨ofSeed 0⟩

/-- The next word. -/
def next32 (s : Stream) : UInt32 × Stream :=
  match s.pending with
  | w :: ws => (w, { s with pending := ws })
  | [] =>
    match block s.key s.counter with
    | w :: ws => (w, { s with counter := s.counter + 1, pending := ws })
    | [] => (0, s)

/-- The next two words as one, the first of them the low half. -/
def next64 (s : Stream) : UInt64 × Stream :=
  let (low, s) := s.next32
  let (high, s) := s.next32
  (high.toUInt64 <<< 32 ||| low.toUInt64, s)

instance : WordSource Stream := ⟨next32, next64⟩

end Stream

end TypedPhp.ChaCha
