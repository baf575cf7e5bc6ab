/-! The ChaCha stream with eight rounds, as a source of random words. -/

-- Powers of naturals are computed by `Nat.pow`, whatever algebraic instances are in scope.
attribute [local instance (1100)] instPowNat

namespace MajorityGraph.Random

/-- Rotates a word left by `n` bits. -/
def rotl (x : UInt32) (n : UInt32) : UInt32 := (x <<< n) ||| (x >>> (32 - n))

/-- The quarter round on positions `a b c d` of the state. -/
def quarterRound (s : Array UInt32) (a b c d : Nat) : Array UInt32 :=
  let get (s : Array UInt32) (i : Nat) := s.getD i 0
  let s := s.set! a (get s a + get s b)
  let s := s.set! d (rotl (get s d ^^^ get s a) 16)
  let s := s.set! c (get s c + get s d)
  let s := s.set! b (rotl (get s b ^^^ get s c) 12)
  let s := s.set! a (get s a + get s b)
  let s := s.set! d (rotl (get s d ^^^ get s a) 8)
  let s := s.set! c (get s c + get s d)
  s.set! b (rotl (get s b ^^^ get s c) 7)

/-- A column round then a diagonal round. -/
def doubleRound (s : Array UInt32) : Array UInt32 :=
  let s := quarterRound s 0 4 8 12
  let s := quarterRound s 1 5 9 13
  let s := quarterRound s 2 6 10 14
  let s := quarterRound s 3 7 11 15
  let s := quarterRound s 0 5 10 15
  let s := quarterRound s 1 6 11 12
  let s := quarterRound s 2 7 8 13
  quarterRound s 3 4 9 14

/-- The constant words "expand 32-byte k". -/
def sigma : Array UInt32 := #[0x61707865, 0x3320646e, 0x79622d32, 0x6b206574]

/-- The input state of block `counter` under `key`, on stream 0. -/
def initialState (key : Array UInt32) (counter : Nat) : Array UInt32 :=
  sigma ++ key ++ #[counter.toUInt32, (counter / 2 ^ (32 : Nat)).toUInt32, 0, 0]

/-- Block `counter` of the stream: four double rounds, then the input added word by word. -/
def block (key : Array UInt32) (counter : Nat) : Array UInt32 :=
  let input := initialState key counter
  let mixed := (List.range 4).foldl (fun s _ => doubleRound s) input
  Array.zipWith (· + ·) mixed input

/-- A generator: the key, the counter of the buffered block, the block, and the position of
the next word in it. -/
structure Generator where
  key : Array UInt32
  counter : Nat
  buffer : Array UInt32
  pos : Nat

namespace Generator

/-- The generator at the start of the stream of `key`. -/
def ofKey (key : Array UInt32) : Generator := ⟨key, 0, block key 0, 0⟩

/-- The next word of the stream. -/
def nextU32 (g : Generator) : UInt32 × Generator :=
  if g.pos < 16 then (g.buffer.getD g.pos 0, { g with pos := g.pos + 1 })
  else
    let buffer := block g.key (g.counter + 1)
    (buffer.getD 0 0, { g with counter := g.counter + 1, buffer, pos := 1 })

/-- The next two words as one 64-bit word, the first word low. -/
def nextU64 (g : Generator) : UInt64 × Generator :=
  let (lo, g) := g.nextU32
  let (hi, g) := g.nextU32
  ((hi.toUInt64 <<< 32) ||| lo.toUInt64, g)

end Generator

end MajorityGraph.Random
