import Ds4Studio.Lib.Bytes

/-!
SHA-1 of a text, in hexadecimal digits.
-/

namespace Ds4Studio.Sha1

def rol32 (v n : UInt32) : UInt32 := v <<< n ||| v >>> (32 - n)

/-- The 32-bit words of a block, the first byte of each on top. -/
def words : Bytes → List UInt32
  | a :: b :: c :: d :: rest =>
      (a.toUInt32 <<< 24 ||| b.toUInt32 <<< 16 ||| c.toUInt32 <<< 8 ||| d.toUInt32) :: words rest
  | _ => []

/-- More words of the schedule, the last one in front. -/
def extend : ℕ → List UInt32 → List UInt32
  | 0, w => w
  | n + 1, w =>
      extend n (rol32 (w.getD 2 0 ^^^ w.getD 7 0 ^^^ w.getD 13 0 ^^^ w.getD 15 0) 1 :: w)

structure State where
  a : UInt32
  b : UInt32
  c : UInt32
  d : UInt32
  e : UInt32

/-- The function and the constant of a round. -/
def mix (i : ℕ) (s : State) : UInt32 × UInt32 :=
  if i < 20 then ((s.b &&& s.c) ||| (~~~ s.b &&& s.d), 0x5a827999)
  else if i < 40 then (s.b ^^^ s.c ^^^ s.d, 0x6ed9eba1)
  else if i < 60 then ((s.b &&& s.c) ||| (s.b &&& s.d) ||| (s.c &&& s.d), 0x8f1bbcdc)
  else (s.b ^^^ s.c ^^^ s.d, 0xca62c1d6)

def rounds : ℕ → List UInt32 → State → State
  | _, [], s => s
  | i, w :: rest, s =>
      let (f, k) := mix i s
      rounds (i + 1) rest ⟨rol32 s.a 5 + f + s.e + k + w, s.a, rol32 s.b 30, s.c, s.d⟩

/-- `sha1_transform` -/
def transform (s : State) (block : Bytes) : State :=
  let t := rounds 0 (extend 64 (words block).reverse).reverse s
  ⟨s.a + t.a, s.b + t.b, s.c + t.c, s.d + t.d, s.e + t.e⟩

/-- `sha1_init` -/
def init : State := ⟨0x67452301, 0xefcdab89, 0x98badcfe, 0x10325476, 0xc3d2e1f0⟩

/-- What `sha1_final` adds to a text: a byte with its top bit set, zeros, and the bits of the text. -/
def padding (length : ℕ) : Bytes :=
  0x80 :: List.replicate ((119 - length % 64) % 64) 0 ++
    (List.range 8).reverse.map fun i => (8 * length / 256 ^ i).toUInt8

/-- As many blocks as given. -/
def update : ℕ → State → Bytes → State
  | 0, s, _ => s
  | blocks + 1, s, text => update blocks (transform s (text.take 64)) (text.drop 64)

def digest (text : Bytes) : State :=
  let padded := text ++ padding text.length
  update (padded.length / 64) init padded

def hexDigit (v : UInt32) : UInt8 := (Bytes.str "0123456789abcdef").getD (v &&& 15).toNat 0

def hexWord (v : UInt32) : Bytes :=
  [hexDigit (v >>> 28), hexDigit (v >>> 24), hexDigit (v >>> 20), hexDigit (v >>> 16),
    hexDigit (v >>> 12), hexDigit (v >>> 8), hexDigit (v >>> 4), hexDigit v]

/-- `ds4_kvstore_sha1_bytes_hex` -/
def sha1BytesHex (text : Bytes) : Bytes :=
  let s := digest text
  hexWord s.a ++ hexWord s.b ++ hexWord s.c ++ hexWord s.d ++ hexWord s.e

theorem length_sha1BytesHex (text : Bytes) : (sha1BytesHex text).length = 40 := rfl

end Ds4Studio.Sha1
