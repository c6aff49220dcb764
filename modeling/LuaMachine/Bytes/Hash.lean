import LuaMachine.Bytes

/-!
# Hashing bytes

The 64-bit FNV-1a hash: each byte is mixed in by exclusive or, then the hash is multiplied by a
prime, modulo `2^64`.
-/

namespace LuaMachine.Bytes

/-- The hash of no bytes. -/
def hashBasis : UInt64 := 0xcbf29ce484222325

def hashPrime : UInt64 := 0x100000001b3

def fnv1a (s : Bytes) : UInt64 :=
  s.foldl (fun h b => (h ^^^ b.toUInt64) * hashPrime) hashBasis

end LuaMachine.Bytes
