/-!
# Random words from a seed

`Random.word seed n` is the word at index `n` of the stream that a seed stands for: the output of
ChaCha with twelve rounds, a 64-bit block counter and no nonce, under a key that is itself drawn
from the seed by a permuted congruential generator. Words are numbered, so nothing has to be carried
from one draw to the next.
-/

namespace EdgeProbe.Random

def rotateLeft (word : UInt32) (amount : UInt32) : UInt32 :=
  (word <<< amount) ||| (word >>> (32 - amount))

def rotateRight (word : UInt32) (amount : UInt32) : UInt32 :=
  if amount = 0 then word else (word >>> amount) ||| (word <<< (32 - amount))

/-- The next state of the generator of keys. -/
def advance (state : UInt64) : UInt64 :=
  state * 6364136223846793005 + 11634580027462260723

/-- The word that a state of the generator of keys yields. -/
def permute (state : UInt64) : UInt32 :=
  rotateRight ((((state >>> 18) ^^^ state) >>> 27).toUInt32) ((state >>> 59).toUInt32)

/-- The words drawn after a state. -/
def keyWords : Nat → UInt64 → List UInt32
  | 0, _ => []
  | count + 1, state =>
    let state := advance state
    permute state :: keyWords count state

def key (seed : UInt64) : List UInt32 :=
  keyWords 8 seed

/-- The words that every block begins with. -/
def constants : List UInt32 := [0x61707865, 0x3320646e, 0x79622d32, 0x6b206574]

/-- The sixteen words that a block is computed from. -/
def initialState (key : List UInt32) (block : UInt64) : Array UInt32 :=
  (constants ++ key ++ [block.toUInt32, (block >>> 32).toUInt32, 0, 0]).toArray

/-- Adds one word to another, and mixes the sum into a third, which is turned. -/
def mix (s : Array UInt32) (target source mixed : Nat) (amount : UInt32) : Array UInt32 :=
  let sum := s.getD target 0 + s.getD source 0
  let s := s.setIfInBounds target sum
  s.setIfInBounds mixed (rotateLeft (s.getD mixed 0 ^^^ sum) amount)

def quarterRound (s : Array UInt32) (a b c d : Nat) : Array UInt32 :=
  let s := mix s a b d 16
  let s := mix s c d b 12
  let s := mix s a b d 8
  mix s c d b 7

/-- A round over the columns and one over the diagonals. -/
def doubleRound (s : Array UInt32) : Array UInt32 :=
  let s := quarterRound s 0 4 8 12
  let s := quarterRound s 1 5 9 13
  let s := quarterRound s 2 6 10 14
  let s := quarterRound s 3 7 11 15
  let s := quarterRound s 0 5 10 15
  let s := quarterRound s 1 6 11 12
  let s := quarterRound s 2 7 8 13
  quarterRound s 3 4 9 14

def block (key : List UInt32) (index : UInt64) : Array UInt32 :=
  let start := initialState key index
  let mixed := (List.range 6).foldl (fun s _ => doubleRound s) start
  mixed.zipWith (· + ·) start

def word (seed : UInt64) (index : Nat) : UInt32 :=
  (block (key seed) (UInt64.ofNat (index / 16))).getD (index % 16) 0

/-- A number below two to the power `bits`, which are at most 32: the highest bits of a word. -/
def below (bits : Nat) (word : UInt32) : Nat :=
  word.toNat >>> (32 - bits)

/-- A word of twice the size from two, the lower half first. -/
def joined (low high : UInt32) : UInt64 :=
  low.toUInt64 ||| (high.toUInt64 <<< 32)

end EdgeProbe.Random
