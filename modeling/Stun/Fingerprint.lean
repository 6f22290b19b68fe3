import Stun.Crc32

/-!
# Fingerprints

The checksum of everything before the fingerprint attribute, combined with a constant so that it
differs from checksums that other protocols put at the end of the same packet.
-/
namespace Stun

def fingerprintMask : BitVec 32 := 0x5354554e

def fingerprint (data : List UInt8) : BitVec 32 := Crc32.checksum data ^^^ fingerprintMask

end Stun
