import Mathlib

/-!
# A stream cipher as XOR with a keystream

A counter-mode stream cipher (Go's `cipher.NewCTR` and its `XORKeyStream`) XORs the bytes it is
given with a keystream that depends only on the key, the IV and the position in the stream.
With the keystream as a function `ks` of the position, encrypting `buf` at position `pos` is
`xorAt ks pos buf`, and the stream moves on by `buf.length`; decrypting is the same call.

* `xorAt_xorAt` — decrypting at the position of the encryption gives the plaintext back.
-/

namespace EpvChain.Lib

/-- `XORKeyStream` at stream position `pos`. -/
def xorAt (ks : Nat → UInt8) (pos : Nat) (buf : List UInt8) : List UInt8 :=
  buf.mapIdx fun i b => b ^^^ ks (pos + i)

variable (ks : Nat → UInt8)

@[simp] theorem length_xorAt (pos : Nat) (buf : List UInt8) : (xorAt ks pos buf).length = buf.length :=
  List.length_mapIdx

@[simp] theorem xorAt_nil (pos : Nat) : xorAt ks pos [] = [] := rfl

@[simp] theorem xorAt_xorAt (pos : Nat) (buf : List UInt8) :
    xorAt ks pos (xorAt ks pos buf) = buf := by
  apply List.ext_getElem (by simp)
  intro i _ _
  simp [xorAt, List.getElem_mapIdx]

end EpvChain.Lib
