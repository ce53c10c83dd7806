import Mathlib.Data.List.Basic

/-!
# SHA-256

The hash that keys and checksums are made with, over the whole message at once.
-/

namespace Tsuzuri.Sha256

abbrev Digest := { bytes : List UInt8 // bytes.length = 32 }

structure State where
  a : UInt32
  b : UInt32
  c : UInt32
  d : UInt32
  e : UInt32
  f : UInt32
  g : UInt32
  h : UInt32

def State.init : State :=
  ⟨0x6a09e667, 0xbb67ae85, 0x3c6ef372, 0xa54ff53a, 0x510e527f, 0x9b05688c, 0x1f83d9ab, 0x5be0cd19⟩

def round : List UInt32 :=
  [0x428a2f98, 0x71374491, 0xb5c0fbcf, 0xe9b5dba5, 0x3956c25b, 0x59f111f1, 0x923f82a4, 0xab1c5ed5,
    0xd807aa98, 0x12835b01, 0x243185be, 0x550c7dc3, 0x72be5d74, 0x80deb1fe, 0x9bdc06a7, 0xc19bf174,
    0xe49b69c1, 0xefbe4786, 0x0fc19dc6, 0x240ca1cc, 0x2de92c6f, 0x4a7484aa, 0x5cb0a9dc, 0x76f988da,
    0x983e5152, 0xa831c66d, 0xb00327c8, 0xbf597fc7, 0xc6e00bf3, 0xd5a79147, 0x06ca6351, 0x14292967,
    0x27b70a85, 0x2e1b2138, 0x4d2c6dfc, 0x53380d13, 0x650a7354, 0x766a0abb, 0x81c2c92e, 0x92722c85,
    0xa2bfe8a1, 0xa81a664b, 0xc24b8b70, 0xc76c51a3, 0xd192e819, 0xd6990624, 0xf40e3585, 0x106aa070,
    0x19a4c116, 0x1e376c08, 0x2748774c, 0x34b0bcb5, 0x391c0cb3, 0x4ed8aa4a, 0x5b9cca4f, 0x682e6ff3,
    0x748f82ee, 0x78a5636f, 0x84c87814, 0x8cc70208, 0x90befffa, 0xa4506ceb, 0xbef9a3f7, 0xc67178f2]

def rotateRight (x n : UInt32) : UInt32 := (x >>> n) ||| (x <<< (32 - n))

def words : List UInt8 → List UInt32
  | a :: b :: c :: d :: bytes =>
    ((a.toUInt32 <<< 24) ||| (b.toUInt32 <<< 16) ||| (c.toUInt32 <<< 8) ||| d.toUInt32) :: words bytes
  | _ => []

def extend : Nat → List UInt32 → List UInt32
  | 0, ws => ws
  | n + 1, ws =>
    let word (back : Nat) := ws.getD (ws.length - back) 0
    let low := rotateRight (word 15) 7 ^^^ rotateRight (word 15) 18 ^^^ (word 15 >>> 3)
    let high := rotateRight (word 2) 17 ^^^ rotateRight (word 2) 19 ^^^ (word 2 >>> 10)
    extend n (ws ++ [word 16 + low + word 7 + high])

def State.next (s : State) (word round : UInt32) : State :=
  let sigma := rotateRight s.e 6 ^^^ rotateRight s.e 11 ^^^ rotateRight s.e 25
  let choose := (s.e &&& s.f) ^^^ (~~~s.e &&& s.g)
  let first := s.h + sigma + choose + round + word
  let sigma := rotateRight s.a 2 ^^^ rotateRight s.a 13 ^^^ rotateRight s.a 22
  let majority := (s.a &&& s.b) ^^^ (s.a &&& s.c) ^^^ (s.b &&& s.c)
  ⟨first + (sigma + majority), s.a, s.b, s.c, s.d + first, s.e, s.f, s.g⟩

def compress (s : State) (block : List UInt8) : State :=
  let t := ((extend 48 (words block)).zip round).foldl (fun s (word, round) => s.next word round) s
  ⟨s.a + t.a, s.b + t.b, s.c + t.c, s.d + t.d, s.e + t.e, s.f + t.f, s.g + t.g, s.h + t.h⟩

/-- The blocks of 64 bytes of a message, from its first `n`. -/
def compressAll : Nat → List UInt8 → State → State
  | 0, _, s => s
  | n + 1, message, s => compressAll n (message.drop 64) (compress s (message.take 64))

def toBe (word : UInt32) : List UInt8 :=
  [(word >>> 24).toUInt8, (word >>> 16).toUInt8, (word >>> 8).toUInt8, word.toUInt8]

def padded (message : List UInt8) : List UInt8 :=
  let buffered := (message.length + 1) % 64
  let bits := 8 * message.length
  message ++ [0x80] ++ List.replicate (if buffered ≤ 56 then 56 - buffered else 120 - buffered) 0 ++
    toBe (UInt32.ofNat (bits / 0x100000000)) ++ toBe (UInt32.ofNat bits)

def State.bytes (s : State) : List UInt8 :=
  toBe s.a ++ toBe s.b ++ toBe s.c ++ toBe s.d ++ toBe s.e ++ toBe s.f ++ toBe s.g ++ toBe s.h

/-- `Sha256::finalize` after updates with the message. -/
def finalize (message : List UInt8) : Digest :=
  ⟨(compressAll ((padded message).length / 64) (padded message) .init).bytes, rfl⟩

end Tsuzuri.Sha256
