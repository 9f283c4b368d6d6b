import AuditTrail.Text

/-!
# SHA-256

The digest of octets as eight words of thirty-two bits. A message is padded to whole blocks of
sixty-four octets; each block is mixed into the state in sixty-four rounds.
-/

namespace AuditTrail.Sha256

structure State where
  a : UInt32
  b : UInt32
  c : UInt32
  d : UInt32
  e : UInt32
  f : UInt32
  g : UInt32
  h : UInt32
deriving DecidableEq

def initial : State :=
  ⟨0x6a09e667, 0xbb67ae85, 0x3c6ef372, 0xa54ff53a, 0x510e527f, 0x9b05688c, 0x1f83d9ab, 0x5be0cd19⟩

def roundConstants : List UInt32 := [
  0x428a2f98, 0x71374491, 0xb5c0fbcf, 0xe9b5dba5, 0x3956c25b, 0x59f111f1, 0x923f82a4, 0xab1c5ed5,
  0xd807aa98, 0x12835b01, 0x243185be, 0x550c7dc3, 0x72be5d74, 0x80deb1fe, 0x9bdc06a7, 0xc19bf174,
  0xe49b69c1, 0xefbe4786, 0x0fc19dc6, 0x240ca1cc, 0x2de92c6f, 0x4a7484aa, 0x5cb0a9dc, 0x76f988da,
  0x983e5152, 0xa831c66d, 0xb00327c8, 0xbf597fc7, 0xc6e00bf3, 0xd5a79147, 0x06ca6351, 0x14292967,
  0x27b70a85, 0x2e1b2138, 0x4d2c6dfc, 0x53380d13, 0x650a7354, 0x766a0abb, 0x81c2c92e, 0x92722c85,
  0xa2bfe8a1, 0xa81a664b, 0xc24b8b70, 0xc76c51a3, 0xd192e819, 0xd6990624, 0xf40e3585, 0x106aa070,
  0x19a4c116, 0x1e376c08, 0x2748774c, 0x34b0bcb5, 0x391c0cb3, 0x4ed8aa4a, 0x5b9cca4f, 0x682e6ff3,
  0x748f82ee, 0x78a5636f, 0x84c87814, 0x8cc70208, 0x90befffa, 0xa4506ceb, 0xbef9a3f7, 0xc67178f2]

def rotate (x : UInt32) (n : UInt32) : UInt32 := (x >>> n) ||| (x <<< (32 - n))

def upperSigma0 (x : UInt32) : UInt32 := rotate x 2 ^^^ rotate x 13 ^^^ rotate x 22

def upperSigma1 (x : UInt32) : UInt32 := rotate x 6 ^^^ rotate x 11 ^^^ rotate x 25

/-- The mix of a message word fifteen places back. -/
def lowerSigma0 (x : UInt32) : UInt32 := rotate x 7 ^^^ rotate x 18 ^^^ (x >>> 3)

def lowerSigma1 (x : UInt32) : UInt32 := rotate x 17 ^^^ rotate x 19 ^^^ (x >>> 10)

/-- The message words of the next round: the oldest word leaves and a mixed word joins. -/
def nextWords (ws : List UInt32) : List UInt32 :=
  match ws with
  | [] => []
  | w0 :: rest =>
    let w1 := rest.getD 0 0
    let w9 := rest.getD 8 0
    let w14 := rest.getD 13 0
    rest ++ [w0 + lowerSigma0 w1 + w9 + lowerSigma1 w14]

def round (s : State) (k w : UInt32) : State :=
  let choice := (s.e &&& s.f) ^^^ (~~~s.e &&& s.g)
  let majority := (s.a &&& s.b) ^^^ (s.a &&& s.c) ^^^ (s.b &&& s.c)
  let t1 := s.h + upperSigma1 s.e + choice + k + w
  let t2 := upperSigma0 s.a + majority
  ⟨t1 + t2, s.a, s.b, s.c, s.d + t1, s.e, s.f, s.g⟩

/-- The rounds of the remaining constants, with the sixteen message words that stand next. -/
def rounds : List UInt32 → List UInt32 → State → State
  | [], _, s => s
  | k :: ks, ws, s => rounds ks (nextWords ws) (round s k (ws.headD 0))

def word (a b c d : UInt8) : UInt32 :=
  a.toUInt32 <<< 24 ||| b.toUInt32 <<< 16 ||| c.toUInt32 <<< 8 ||| d.toUInt32

def words : List UInt8 → List UInt32
  | a :: b :: c :: d :: rest => word a b c d :: words rest
  | _ => []

def mixBlock (s : State) (block : List UInt32) : State :=
  let t := rounds roundConstants block s
  ⟨s.a + t.a, s.b + t.b, s.c + t.c, s.d + t.d, s.e + t.e, s.f + t.f, s.g + t.g, s.h + t.h⟩

def mixBlocks : Nat → List UInt32 → State → State
  | 0, _, s => s
  | n + 1, ws, s => mixBlocks n (ws.drop 16) (mixBlock s (ws.take 16))

def octetsOf : Nat → Nat → List UInt8
  | 0, _ => []
  | width + 1, n => octetsOf width (n / 256) ++ [(n % 256).toUInt8]

/-- A message with a one bit, zeros and its length in bits, in whole blocks. -/
def padded (bs : List UInt8) : List UInt8 :=
  let zeros := (119 - bs.length % 64) % 64
  bs ++ 0x80 :: List.replicate zeros 0 ++ octetsOf 8 (bs.length * 8)

def digest (bs : List UInt8) : State :=
  let message := padded bs
  mixBlocks (message.length / 64) (words message) initial

def State.hex (s : State) : Text :=
  [s.a, s.b, s.c, s.d, s.e, s.f, s.g, s.h].flatMap fun w => Text.hex 8 w.toNat

/-- The digest of octets as sixty-four hexadecimal digits. -/
def hexDigest (bs : List UInt8) : Text := (digest bs).hex

theorem length_hexDigest (bs : List UInt8) : (hexDigest bs).length = 64 := by
  simp only [hexDigest, State.hex, List.flatMap_cons, List.flatMap_nil, List.length_append, Text.length_hex,
    List.length_nil]

private theorem length_octetsOf (width n : Nat) : (octetsOf width n).length = width := by
  induction width generalizing n with
  | zero => rfl
  | succ w ih => rw [octetsOf, List.length_append, ih, List.length_singleton]

theorem length_padded_mod (bs : List UInt8) : (padded bs).length % 64 = 0 := by
  simp only [padded, List.length_append, List.length_cons, List.length_replicate, length_octetsOf]
  omega

end AuditTrail.Sha256
