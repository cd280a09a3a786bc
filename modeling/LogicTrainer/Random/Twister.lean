import LogicTrainer.Random.Source

/-! The Mersenne twister.

The generator of period `2 ^ 19937 - 1` with words of 32 bits, started from the words of a
whole number. A roll takes 53 bits of two words. A place takes as many bits as the size of
the range has, and draws again while they are out of range. -/
namespace LogicTrainer

structure Twister where
  words : Array UInt32
  /-- How many of the words have been given out. -/
  position : Nat
  deriving DecidableEq, Repr

namespace Twister

/-- How many words make up a state. -/
def size : Nat := 624

/-- A word mixed with its own top bits. -/
def mixed (w : UInt32) : UInt32 := w ^^^ (w >>> 30)

/-- The words that start from one. -/
def seedWords (seed : UInt32) : Array UInt32 :=
  (List.range (size - 1)).foldl
    (fun words i => words.push (1812433253 * mixed (words.getD i 0) + UInt32.ofNat (i + 1))) #[seed]

/-- The words of a number, the least significant first, at least one. -/
def keyWords (n : Nat) : Array UInt32 :=
  (List.range (Nat.log2 n / 32 + 1)).foldl
    (fun words i => words.push (UInt32.ofNat (n >>> (32 * i)))) #[]

/-- The place after a place, which is never the first: there the last word is copied. -/
def advance (words : Array UInt32) (i : Nat) : Array UInt32 × Nat :=
  if i + 1 ≥ size then (words.setIfInBounds 0 (words.getD (size - 1) 0), 1) else (words, i + 1)

/-- Mixes the key into the words, from place `i` of the words and `j` of the key on. -/
def stirKey (key : Array UInt32) : Nat → Array UInt32 → Nat → Nat → Array UInt32 × Nat
  | 0, words, i, _ => (words, i)
  | count + 1, words, i, j =>
    let w := (words.getD i 0 ^^^ (mixed (words.getD (i - 1) 0) * 1664525)) +
      key.getD j 0 + UInt32.ofNat j
    let (words, i) := advance (words.setIfInBounds i w) i
    stirKey key count words i (if j + 1 ≥ key.size then 0 else j + 1)

/-- Mixes the words once more, from place `i` on. -/
def stirAgain : Nat → Array UInt32 → Nat → Array UInt32
  | 0, words, _ => words
  | count + 1, words, i =>
    let w := (words.getD i 0 ^^^ (mixed (words.getD (i - 1) 0) * 1566083941)) - UInt32.ofNat i
    let (words, i) := advance (words.setIfInBounds i w) i
    stirAgain count words i

/-- The generator of a whole number; the sign does not count. -/
def ofSeed (seed : Int) : Twister :=
  let key := keyWords seed.natAbs
  let (words, i) := stirKey key (max size key.size) (seedWords 19650218) 1 0
  ⟨(stirAgain (size - 1) words i).setIfInBounds 0 0x80000000, size⟩

/-- Replaces a word by the next one in its place. -/
def twistAt (words : Array UInt32) (i : Nat) : Array UInt32 :=
  let y := (words.getD i 0 &&& 0x80000000) ||| (words.getD ((i + 1) % size) 0 &&& 0x7fffffff)
  let odd : UInt32 := if y &&& 1 == 1 then 0x9908b0df else 0
  words.setIfInBounds i (words.getD ((i + 397) % size) 0 ^^^ (y >>> 1) ^^^ odd)

/-- The next state, with all its words to give out. -/
def twist (t : Twister) : Twister := ⟨(List.range size).foldl twistAt t.words, 0⟩

/-- A word as it is given out. -/
def tempered (y : UInt32) : UInt32 :=
  let y := y ^^^ (y >>> 11)
  let y := y ^^^ ((y <<< 7) &&& 0x9d2c5680)
  let y := y ^^^ ((y <<< 15) &&& 0xefc60000)
  y ^^^ (y >>> 18)

/-- The next word. -/
def next (t : Twister) : UInt32 × Twister :=
  let t := if t.position ≥ size then t.twist else t
  (tempered (t.words.getD t.position 0), {t with position := t.position + 1})

/-- A roll of 27 bits of one word and 26 of another. -/
def rollOf (a b : UInt32) : Roll where
  num := a.toNat / 32 * 67108864 + b.toNat / 64
  den := 9007199254740992
  num_lt_den := by
    have := a.toNat_lt
    have := b.toNat_lt
    omega

/-- A number of `k` bits out of at most `count` words, the least significant first. -/
def bits : Nat → Nat → Twister → Nat × Twister
  | 0, _, t => (0, t)
  | count + 1, k, t =>
    let (w, t) := t.next
    if k ≤ 32 then (w.toNat >>> (32 - k), t)
    else
      let (high, t) := bits count (k - 32) t
      (w.toNat + 4294967296 * high, t)

/-- A place from 0 to a bound. After `fuel` draws out of range, which does not happen, the
next is brought into it. -/
def placeWithin (bound : Nat) : Nat → Twister → Fin (bound + 1) × Twister
  | fuel, t =>
    let k := Nat.log2 (bound + 1) + 1
    let (n, t) := bits (k / 32 + 1) k t
    if h : n < bound + 1 then (⟨n, h⟩, t)
    else
      match fuel with
      | 0 => (Fin.ofNat (bound + 1) n, t)
      | fuel + 1 => placeWithin bound fuel t

def source : Source Twister where
  roll t :=
    let (a, t) := t.next
    let (b, t) := t.next
    (rollOf a b, t)
  place bound t := placeWithin bound 4096 t

end Twister
end LogicTrainer
