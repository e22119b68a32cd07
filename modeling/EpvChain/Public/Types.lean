import Mathlib
import EpvChain.Lib.BigEndian

/-!
# Fixed-size byte arrays of `public/types.go`

`common.Address` is `[20]byte` and `common.Hash` is `[32]byte`. Every modelled function only
compares them for equality or, in `Archive.signers` and `Archive.ableSigners`, orders them with
`bytes.Compare`, which on arrays of one length is the order of the big-endian numbers they
spell. So both are numbers below `2^(8·length)`, ordered as `Fin`.

* `Address`, `Hash` — the two array types, with `Address.zero` and `Hash.zero` for
  `common.Address{}` and `common.Hash{}`.
* `Address.toBytes`, `Hash.toBytes` — the bytes of an address or a hash, most significant
  first (`addr[:]`, `hash[:]`).
* `bytesToHash` — `common.BytesToHash`, the hash of the last thirty-two bytes of a slice.
* `Hash.lowInt64` — the signed big-endian reading of the last eight bytes of a hash
  (`binary.Read(bytes.NewBuffer(hash[len(hash)-8:]), binary.BigEndian, &lowHash)`).
-/

namespace EpvChain

/-- `common.AddressLength`. -/
def AddressLength : Nat := 20

/-- `common.HashLength`. -/
def HashLength : Nat := 32

/-- `common.Address`: twenty bytes read as a big-endian number.
Source: `public/types.go` `type Address [AddressLength]byte` -/
abbrev Address := Fin (2 ^ (8 * AddressLength))

/-- `common.Hash`: thirty-two bytes read as a big-endian number.
Source: `public/types.go` `type Hash [HashLength]byte` -/
abbrev Hash := Fin (2 ^ (8 * HashLength))

/-- The two moduli are positive, so numerals are addresses and hashes. One named instance for
each keeps every numeral built from the same proof. -/
instance Address.neZero : NeZero (2 ^ (8 * AddressLength)) := ⟨(Nat.two_pow_pos _).ne'⟩

instance Hash.neZero : NeZero (2 ^ (8 * HashLength)) := ⟨(Nat.two_pow_pos _).ne'⟩

/-- `common.Address{}`. -/
def Address.zero : Address := 0

/-- `common.Hash{}`. -/
def Hash.zero : Hash := 0

/-- `addr[:]`: the twenty bytes of an address, most significant first. -/
def Address.toBytes (a : Address) : List UInt8 := Lib.bytesBE AddressLength a.val

@[simp] theorem Address.length_toBytes (a : Address) : a.toBytes.length = AddressLength :=
  Lib.length_bytesBE _ _

/-- `hash[:]`: the thirty-two bytes of a hash, most significant first. -/
def Hash.toBytes (h : Hash) : List UInt8 := Lib.bytesBE HashLength h.val

/-- `common.BytesToHash`: the last thirty-two bytes of a slice, read big-endian.
Source: `public/types.go` `BytesToHash` -/
def bytesToHash (b : List UInt8) : Hash :=
  ⟨Lib.ofBytesBE b % 2 ^ (8 * HashLength), Nat.mod_lt _ (Nat.two_pow_pos _)⟩

@[simp] theorem Hash.length_toBytes (h : Hash) : h.toBytes.length = HashLength :=
  Lib.length_bytesBE _ _

theorem bytesToHash_toBytes (h : Hash) : bytesToHash h.toBytes = h := by
  apply Fin.ext
  simp only [bytesToHash, Hash.toBytes, Lib.ofBytesBE_bytesBE, HashLength]
  have h256 : h.val < 256 ^ 32 := h.isLt
  have h2 : h.val < 2 ^ (8 * 32) := h.isLt
  rw [Nat.mod_eq_of_lt h256, Nat.mod_eq_of_lt h2]

/-- The last eight bytes of a hash read as a big-endian `int64`.
Source: `agreement/epvdpos/archive.go` `Archive.inturn` (`binary.Read` into `lowHash`) -/
def Hash.lowInt64 (h : Hash) : Int64 := Int64.ofNat (h.val % 2 ^ 64)

end EpvChain
