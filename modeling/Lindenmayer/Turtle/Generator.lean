/-!
# Random numbers

The turtle draws its random integers from the ChaCha stream cipher with twelve rounds. The key is
stretched from a 64-bit seed by a linear congruential generator with permuted output; the stream is
read in order, two words to a draw. An integer below a bound is the high half of the product of a
draw and the bound, and draws whose low half would make some integers likelier than others are
rejected.
-/

namespace Lindenmayer

/-! ## The block function -/

structure Row where
  a : UInt32
  b : UInt32
  c : UInt32
  d : UInt32
  deriving DecidableEq, Repr

namespace Row

def zipWith (f : UInt32 → UInt32 → UInt32) (x y : Row) : Row :=
  ⟨f x.a y.a, f x.b y.b, f x.c y.c, f x.d y.d⟩

def add (x y : Row) : Row := x.zipWith (· + ·) y

def xor (x y : Row) : Row := x.zipWith (· ^^^ ·) y

def rotate (x : Row) (amount : UInt32) : Row :=
  let turn (w : UInt32) : UInt32 := (w <<< amount) ||| (w >>> (32 - amount))
  ⟨turn x.a, turn x.b, turn x.c, turn x.d⟩

def shift (x : Row) : Row := ⟨x.b, x.c, x.d, x.a⟩

def words (x : Row) : List UInt32 := [x.a, x.b, x.c, x.d]

end Row

structure Block where
  first : Row
  second : Row
  third : Row
  fourth : Row
  deriving DecidableEq, Repr

namespace Block

def columnRound (block : Block) : Block :=
  let a := block.first.add block.second
  let d := (block.fourth.xor a).rotate 16
  let c := block.third.add d
  let b := (block.second.xor c).rotate 12
  let a := a.add b
  let d := (d.xor a).rotate 8
  let c := c.add d
  let b := (b.xor c).rotate 7
  ⟨a, b, c, d⟩

def skew (block : Block) : Block :=
  ⟨block.first, block.second.shift, block.third.shift.shift, block.fourth.shift.shift.shift⟩

def unskew (block : Block) : Block :=
  ⟨block.first, block.second.shift.shift.shift, block.third.shift.shift, block.fourth.shift⟩

def doubleRound (block : Block) : Block := block.columnRound.skew.columnRound.unskew

def add (x y : Block) : Block :=
  ⟨x.first.add y.first, x.second.add y.second, x.third.add y.third, x.fourth.add y.fourth⟩

/-- Twelve rounds, and the block that they started from. -/
def scramble (block : Block) : Block := (Nat.repeat doubleRound 6 block).add block

def words (block : Block) : List UInt32 :=
  block.first.words ++ block.second.words ++ block.third.words ++ block.fourth.words

end Block

/-! ## The generator -/

/-- A stream of random words: its key, in two rows, and how many numbers have been drawn from it. -/
structure Generator where
  lowKey : Row
  highKey : Row
  drawn : Nat
  deriving DecidableEq, Repr

/-- The multiplier and the increment of the generator that stretches seeds. -/
def seedStep (state : UInt64) : UInt64 :=
  state * 6364136223846793005 + 11634580027462260723

/-- The word that a state of the seed generator gives: its high bits are mixed, and rotated to the
right by as much as its five highest bits say. -/
def seedWord (state : UInt64) : UInt32 :=
  let mixed := (((state >>> 18) ^^^ state) >>> 27).toUInt32
  let amount := (state >>> 59).toUInt32
  (mixed >>> amount) ||| (mixed <<< ((32 - amount) % 32))

namespace Generator

def ofSeed (seed : UInt64) : Generator :=
  let s₁ := seedStep seed
  let s₂ := seedStep s₁
  let s₃ := seedStep s₂
  let s₄ := seedStep s₃
  let s₅ := seedStep s₄
  let s₆ := seedStep s₅
  let s₇ := seedStep s₆
  let s₈ := seedStep s₇
  ⟨⟨seedWord s₁, seedWord s₂, seedWord s₃, seedWord s₄⟩,
    ⟨seedWord s₅, seedWord s₆, seedWord s₇, seedWord s₈⟩, 0⟩

def block (generator : Generator) (number : Nat) : Block :=
  let counter := UInt64.ofNat number
  Block.scramble
    ⟨⟨0x61707865, 0x3320646e, 0x79622d32, 0x6b206574⟩, generator.lowKey, generator.highKey,
      ⟨counter.toUInt32, (counter >>> 32).toUInt32, 0, 0⟩⟩

/-- Draws a 64-bit number: two words of the stream, the low one first. A block serves 8 draws. -/
def draw (generator : Generator) : UInt64 × Generator :=
  let words := (generator.block (generator.drawn / 8)).words.drop (2 * (generator.drawn % 8))
  let value :=
    match words with
    | low :: high :: _ => low.toUInt64 ||| (high.toUInt64 <<< 32)
    | _ => 0
  (value, { generator with drawn := generator.drawn + 1 })

/-- After this many draws the block counter, and with it the stream, has come round. -/
def period : Nat := 8 * UInt64.size

def leadingZeros (n : Nat) : Nat := if n = 0 then 64 else 63 - n.log2

/-- The greatest low half that is accepted for a bound: one less than the greatest multiple of the
bound by a power of two within 64 bits. -/
def zone (bound : Nat) : Nat := bound <<< leadingZeros bound - 1

/-- Draws until the low half of the product with `bound` is accepted, and returns the high half. A
stream that accepts nothing in the given number of draws gives zero. -/
def drawBelow (bound : Nat) : (draws : Nat) → Generator → Nat × Generator
  | 0, generator => (0, generator)
  | draws + 1, generator =>
      let drawn := generator.draw
      let product := drawn.1.toNat * bound
      if product % UInt64.size ≤ zone bound then
        (product / UInt64.size, drawn.2)
      else
        drawBelow bound draws drawn.2

/-- The high half of a product is below the bound. -/
theorem drawBelow_lt {bound : Nat} (hbound : 0 < bound) (draws : Nat) (generator : Generator) :
    (drawBelow bound draws generator).1 < bound := by
  induction draws generalizing generator with
  | zero => exact hbound
  | succ draws ih =>
      rw [drawBelow]
      by_cases haccepted : generator.draw.1.toNat * bound % UInt64.size ≤ zone bound
      · rw [if_pos haccepted, Nat.div_lt_iff_lt_mul (by decide), Nat.mul_comm bound]
        exact Nat.mul_lt_mul_of_pos_right generator.draw.1.toNat_lt hbound
      · rw [if_neg haccepted]
        exact ih _

/-- Draws an integer from `min` up to, but not including, `max`. Nothing is drawn for an empty
range, whose integer is `min`. -/
def inRange (min max : Int64) (generator : Generator) : Int64 × Generator :=
  if max ≤ min then
    (min, generator)
  else
    let drawn := generator.drawBelow (max.toInt - min.toInt).toNat period
    (Int64.ofInt (min.toInt + drawn.1), drawn.2)

end Generator

end Lindenmayer
