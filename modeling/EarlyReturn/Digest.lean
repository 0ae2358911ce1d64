/-
Content digests. A digest is SHA-256: the message is padded to whole
blocks of sixteen 32-bit words, and each block drives sixty-four rounds
over eight registers. Two contents with the same digest are taken to be
the same content.
-/
import EarlyReturn.Text.Basic

namespace EarlyReturn

namespace Digest

/-- Eight working words. -/
structure Registers where
  a : UInt32
  b : UInt32
  c : UInt32
  d : UInt32
  e : UInt32
  f : UInt32
  g : UInt32
  h : UInt32
  deriving DecidableEq, Repr

/-- The registers before the first block: the fractional parts of the
square roots of the first eight primes. -/
def Registers.initial : Registers :=
  ⟨0x6a09e667, 0xbb67ae85, 0x3c6ef372, 0xa54ff53a, 0x510e527f, 0x9b05688c,
    0x1f83d9ab, 0x5be0cd19⟩

/-- The round constants: the fractional parts of the cube roots of the
first sixty-four primes. -/
def roundConstants : List UInt32 :=
  [0x428a2f98, 0x71374491, 0xb5c0fbcf, 0xe9b5dba5, 0x3956c25b, 0x59f111f1,
   0x923f82a4, 0xab1c5ed5, 0xd807aa98, 0x12835b01, 0x243185be, 0x550c7dc3,
   0x72be5d74, 0x80deb1fe, 0x9bdc06a7, 0xc19bf174, 0xe49b69c1, 0xefbe4786,
   0x0fc19dc6, 0x240ca1cc, 0x2de92c6f, 0x4a7484aa, 0x5cb0a9dc, 0x76f988da,
   0x983e5152, 0xa831c66d, 0xb00327c8, 0xbf597fc7, 0xc6e00bf3, 0xd5a79147,
   0x06ca6351, 0x14292967, 0x27b70a85, 0x2e1b2138, 0x4d2c6dfc, 0x53380d13,
   0x650a7354, 0x766a0abb, 0x81c2c92e, 0x92722c85, 0xa2bfe8a1, 0xa81a664b,
   0xc24b8b70, 0xc76c51a3, 0xd192e819, 0xd6990624, 0xf40e3585, 0x106aa070,
   0x19a4c116, 0x1e376c08, 0x2748774c, 0x34b0bcb5, 0x391c0cb3, 0x4ed8aa4a,
   0x5b9cca4f, 0x682e6ff3, 0x748f82ee, 0x78a5636f, 0x84c87814, 0x8cc70208,
   0x90befffa, 0xa4506ceb, 0xbef9a3f7, 0xc67178f2]

def rotate (x : UInt32) (n : UInt32) : UInt32 :=
  (x >>> n) ||| (x <<< (32 - n))

def smallSigma0 (x : UInt32) : UInt32 :=
  rotate x 7 ^^^ rotate x 18 ^^^ (x >>> 3)

def smallSigma1 (x : UInt32) : UInt32 :=
  rotate x 17 ^^^ rotate x 19 ^^^ (x >>> 10)

def bigSigma0 (x : UInt32) : UInt32 :=
  rotate x 2 ^^^ rotate x 13 ^^^ rotate x 22

def bigSigma1 (x : UInt32) : UInt32 :=
  rotate x 6 ^^^ rotate x 11 ^^^ rotate x 25

def choose (x y z : UInt32) : UInt32 := (x &&& y) ^^^ (~~~x &&& z)

def majority (x y z : UInt32) : UInt32 := (x &&& y) ^^^ (x &&& z) ^^^ (y &&& z)

/-- One round with its constant and message word. -/
def Registers.round (r : Registers) (constant word : UInt32) : Registers :=
  let t₁ := r.h + bigSigma1 r.e + choose r.e r.f r.g + constant + word
  let t₂ := bigSigma0 r.a + majority r.a r.b r.c
  ⟨t₁ + t₂, r.a, r.b, r.c, r.d + t₁, r.e, r.f, r.g⟩

/-- Moves the window of sixteen message words on by one. -/
def slide (window : List UInt32) : List UInt32 :=
  let word := fun i => window.getD i 0
  window.drop 1
    ++ [smallSigma1 (word 14) + word 9 + smallSigma0 (word 1) + word 0]

/-- Runs the rounds for the given constants. -/
def rounds : List UInt32 → List UInt32 → Registers → Registers
  | [], _, r => r
  | constant :: more, window, r =>
    rounds more (slide window) (r.round constant (window.headD 0))

def Registers.add (r s : Registers) : Registers :=
  ⟨r.a + s.a, r.b + s.b, r.c + s.c, r.d + s.d, r.e + s.e, r.f + s.f, r.g + s.g,
    r.h + s.h⟩

/-- Takes in one block of sixteen words. -/
def Registers.absorb (r : Registers) (block : List UInt32) : Registers :=
  r.add (rounds roundConstants block r)

/-- The four bytes of a number, most significant first. -/
def fourBytes (n : Nat) : Bytes :=
  [24, 16, 8, 0].map fun shift => UInt8.ofNat (n >>> shift)

/-- The message with a one bit, zeros and its length in bits behind it:
a multiple of sixty-four bytes. -/
def pad (message : Bytes) : Bytes :=
  let bits := 8 * message.length
  let zeros := (64 - (message.length + 9) % 64) % 64
  message ++ (0x80 :: List.replicate zeros 0 : Bytes) ++ fourBytes (bits >>> 32)
    ++ fourBytes bits

/-- Bytes as words of four, most significant first. -/
def words : Bytes → List UInt32
  | a :: b :: c :: d :: rest =>
    ((a.toUInt32 <<< 24) ||| (b.toUInt32 <<< 16) ||| (c.toUInt32 <<< 8)
      ||| d.toUInt32)
      :: words rest
  | _ => []

/-- Takes in words by blocks of sixteen; `block` holds the last ones,
newest first, that do not fill a block yet. -/
def absorbAll : (block : List UInt32) → List UInt32 → Registers → Registers
  | _, [], r => r
  | block, word :: rest, r =>
    if block.length = 15 then
      absorbAll [] rest (r.absorb (word :: block).reverse)
    else absorbAll (word :: block) rest r

end Digest

/-- The digest of a content. -/
structure Digest where
  registers : Digest.Registers
  deriving DecidableEq, Repr

namespace Digest

/-- The digest of some bytes. -/
def ofBytes (content : Bytes) : Digest :=
  ⟨absorbAll [] (words (pad content)) Registers.initial⟩

/-- The digest as sixty-four lower-case hexadecimal digits. -/
def hex (digest : Digest) : Text :=
  let r := digest.registers
  [r.a, r.b, r.c, r.d, r.e, r.f, r.g, r.h].flatMap fun word =>
    [28, 24, 20, 16, 12, 8, 4, 0].map fun shift =>
      Nat.digitChar ((word.toNat >>> shift) % 16)

end Digest

end EarlyReturn
