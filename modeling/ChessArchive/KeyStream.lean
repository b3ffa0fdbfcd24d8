/-! A reproducible stream of 64-bit words from a seed. The seed is stretched to a 256-bit key by a permuted
    congruential generator, and the words are the output of the ChaCha function with twelve rounds under that
    key: blocks counted from 0 in words 12 and 13, zero in the last two, and two 32-bit words to a 64-bit one,
    the low half first. -/

namespace ChessArchive
namespace KeyStream

def rotateLeft (x : UInt32) (n : UInt32) : UInt32 := (x <<< n) ||| (x >>> (32 - n))

def rotateRight (x : UInt32) (n : UInt32) : UInt32 := (x >>> n) ||| (x <<< ((32 - n) % 32))

/-! ### The key -/

/-- One step of the congruential generator. -/
def advance (s : UInt64) : UInt64 := s * 6364136223846793005 + 11634580027462260723

/-- The word a generator state gives. -/
def permute (s : UInt64) : UInt32 := rotateRight (((s >>> 18) ^^^ s) >>> 27).toUInt32 (s >>> 59).toUInt32

/-- The next `n` words after state `s`. -/
def keyWords : Nat → UInt64 → List UInt32
  | 0, _ => []
  | n + 1, s => permute (advance s) :: keyWords n (advance s)

/-! ### Blocks -/

abbrev Block := Vector UInt32 16

/-- Mixes four words of a block. -/
def quarterRound (x : Block) (a b c d : Fin 16) : Block :=
  let x := x.set a (x[a] + x[b])
  let x := x.set d (rotateLeft (x[d] ^^^ x[a]) 16)
  let x := x.set c (x[c] + x[d])
  let x := x.set b (rotateLeft (x[b] ^^^ x[c]) 12)
  let x := x.set a (x[a] + x[b])
  let x := x.set d (rotateLeft (x[d] ^^^ x[a]) 8)
  let x := x.set c (x[c] + x[d])
  x.set b (rotateLeft (x[b] ^^^ x[c]) 7)

/-- A round on the columns and one on the diagonals. -/
def doubleRound (x : Block) : Block :=
  [(0, 4, 8, 12), (1, 5, 9, 13), (2, 6, 10, 14), (3, 7, 11, 15),
   (0, 5, 10, 15), (1, 6, 11, 12), (2, 7, 8, 13), (3, 4, 9, 14)].foldl
    (fun x (a, b, c, d) => quarterRound x a b c d) x

/-- The block before mixing: four constants, the key, the block number, zeros. -/
def initial (key : List UInt32) (number : Nat) : Block :=
  let constants : List UInt32 := [0x61707865, 0x3320646e, 0x79622d32, 0x6b206574]
  let words := constants ++ key ++ [number.toUInt32, (number / 4294967296).toUInt32]
  .ofFn fun i => words.getD i 0

/-- The output of one block. -/
def block (key : List UInt32) (number : Nat) : List UInt32 :=
  let start := initial key number
  let mixed := (List.range 6).foldl (fun x _ => doubleRound x) start
  (start.zipWith (· + ·) mixed).toList

/-- Joins words in pairs, the low half first. -/
def pairs : List UInt32 → List UInt64
  | low :: high :: rest => (low.toUInt64 ||| (high.toUInt64 <<< 32)) :: pairs rest
  | _ => []

/-- The first `n` words of the stream of a seed. -/
def words (seed : UInt64) (n : Nat) : List UInt64 :=
  let key := keyWords 8 seed
  ((List.range (n / 8 + 1)).flatMap fun i => pairs (block key i)).take n

end KeyStream
end ChessArchive
