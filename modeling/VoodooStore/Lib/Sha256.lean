import VoodooStore.Lib.Endian

/-!
# The SHA-256 of a byte string

The message is padded to blocks of sixty-four bytes, and each block is mixed
into eight words in sixty-four rounds.
-/
namespace Sha256

/-- The eight words that a block is mixed into. -/
structure Words where
  (a b c d e f g h : UInt32)

def start : Words :=
  ⟨0x6a09e667,0xbb67ae85,0x3c6ef372,0xa54ff53a,0x510e527f,0x9b05688c,0x1f83d9ab,0x5be0cd19⟩

def constants : List UInt32 :=
  [0x428a2f98,0x71374491,0xb5c0fbcf,0xe9b5dba5,0x3956c25b,0x59f111f1,0x923f82a4,0xab1c5ed5,
   0xd807aa98,0x12835b01,0x243185be,0x550c7dc3,0x72be5d74,0x80deb1fe,0x9bdc06a7,0xc19bf174,
   0xe49b69c1,0xefbe4786,0x0fc19dc6,0x240ca1cc,0x2de92c6f,0x4a7484aa,0x5cb0a9dc,0x76f988da,
   0x983e5152,0xa831c66d,0xb00327c8,0xbf597fc7,0xc6e00bf3,0xd5a79147,0x06ca6351,0x14292967,
   0x27b70a85,0x2e1b2138,0x4d2c6dfc,0x53380d13,0x650a7354,0x766a0abb,0x81c2c92e,0x92722c85,
   0xa2bfe8a1,0xa81a664b,0xc24b8b70,0xc76c51a3,0xd192e819,0xd6990624,0xf40e3585,0x106aa070,
   0x19a4c116,0x1e376c08,0x2748774c,0x34b0bcb5,0x391c0cb3,0x4ed8aa4a,0x5b9cca4f,0x682e6ff3,
   0x748f82ee,0x78a5636f,0x84c87814,0x8cc70208,0x90befffa,0xa4506ceb,0xbef9a3f7,0xc67178f2]

def rotate (x n : UInt32) : UInt32 := (x >>> n) ||| (x <<< (32 - n))

/-- The next word of the schedule, from the last sixteen, newest first. -/
def next (newest : List UInt32) : UInt32 :=
  let early := newest.getD 14 0
  let late := newest.getD 1 0
  (rotate late 17 ^^^ rotate late 19 ^^^ (late >>> 10)) + newest.getD 6 0 +
    (rotate early 7 ^^^ rotate early 18 ^^^ (early >>> 3)) + newest.getD 15 0

def schedule : Nat → List UInt32 → List UInt32
  | 0, newest => newest.reverse
  | n+1, newest => schedule n (next newest :: newest)

def words : List UInt8 → List UInt32
  | a :: b :: c :: d :: rest => .ofNat (Endian.ofBe [a,b,c,d]) :: words rest
  | _ => []

def round (w : Words) (input : UInt32 × UInt32) : Words :=
  let mixed := w.h + (rotate w.e 6 ^^^ rotate w.e 11 ^^^ rotate w.e 25) + ((w.e &&& w.f) ^^^ (~~~ w.e &&& w.g)) +
    input.1 + input.2
  let majority := (w.a &&& w.b) ^^^ (w.a &&& w.c) ^^^ (w.b &&& w.c)
  ⟨mixed + (rotate w.a 2 ^^^ rotate w.a 13 ^^^ rotate w.a 22) + majority,w.a,w.b,w.c,w.d + mixed,w.e,w.f,w.g⟩

def mix (w : Words) (block : List UInt8) : Words :=
  let r := (constants.zip (schedule 48 (words block).reverse)).foldl round w
  ⟨w.a + r.a,w.b + r.b,w.c + r.c,w.d + r.d,w.e + r.e,w.f + r.f,w.g + r.g,w.h + r.h⟩

/-- The message, one set bit, zeros up to a full block, and the length in bits. -/
def padded (message : List UInt8) : List UInt8 :=
  message ++ 0x80 :: List.replicate ((119 - message.length % 64) % 64) 0 ++ Endian.toBe 8 (8 * message.length)

def Words.bytes (w : Words) : List UInt8 :=
  [w.a,w.b,w.c,w.d,w.e,w.f,w.g,w.h].flatMap (fun word => Endian.toBe 4 word.toNat)

def digest (message : List UInt8) : List UInt8 :=
  (((padded message).toChunks 64).foldl mix start).bytes

theorem digest_length (message : List UInt8) : (digest message).length = 32 := by
  simp [digest,Words.bytes]

-- The digest of the three bytes "abc".
example : digest [97,98,99] =
    [0xba,0x78,0x16,0xbf,0x8f,0x01,0xcf,0xea,0x41,0x41,0x40,0xde,0x5d,0xae,0x22,0x23,
     0xb0,0x03,0x61,0xa3,0x96,0x17,0x7a,0x9c,0xb4,0x10,0xff,0x61,0xf2,0x00,0x15,0xad] := by decide +kernel

end Sha256
