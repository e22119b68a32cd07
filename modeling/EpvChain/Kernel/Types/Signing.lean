import EpvChain.Public.Types
import EpvChain.Lib.BigEndian
import EpvChain.Lib.GoSlice

/-!
# Transaction signers (`kernel/types/transaction_signing.go`)

An EIP-155 signer writes the chain id into `V = 2·chainId + 35 + r` for the recovery id `r`.
`Sender` recovers a protected transaction's sender only when `V` spells the signer's chain id,
handing `recoverPlain` `V - 2·chainId - 8 = 27 + r`; an unprotected one (`V` 27 or 28) goes to
the Homestead signer. The curve is abstract (`Crypto`: `crypto.Ecrecover`, key addresses, the
signing hashes); `big.Int` values are integers.

* `isProtectedV_eq_false_iff`, `deriveChainId_of_le` — unprotected `V`s, and the chain id a `V`
  of 35 or more spells.
* `recoverSig_ok` — `recoverPlain` reaches `crypto.Ecrecover` only for `|V|` 27 or 28.
* `eip155_exact` — for every chain id `c ≥ 1` the signed `V` is `2c + 35 + r`, protected, of chain
  id `c`, recovered with byte `r`; any other chain's signer rejects it; and `Sender` reaches
  `crypto.Ecrecover` only for `V` in `{27, 28, 2c + 35, 2c + 36}`.
-/

namespace EpvChain.Types

open EpvChain.Lib

/-! ### `big.Int` readings -/

/-- `v.BitLen()`: the length of the absolute value in bits. -/
def bitLen (v : Int) : Nat := v.natAbs.size

/-- `v.Uint64()`: the low 64 bits of the absolute value. -/
def toUint64 (v : Int) : UInt64 := UInt64.ofNat v.natAbs

theorem bitLen_le_iff {v : Int} {n : Nat} : bitLen v ≤ n ↔ v.natAbs < 2 ^ n :=
  Nat.size_le

theorem toUint64_toNat_of_lt {v : Int} (h : v.natAbs < 2 ^ 64) : (toUint64 v).toNat = v.natAbs := by
  rw [toUint64, UInt64.toNat_ofNat', Nat.mod_eq_of_lt h]

/-! ### Signatures -/

/-- The errors of the signers. `ecrecover e` is an error of `crypto.Ecrecover`. -/
inductive SignError where
  | errInvalidChainId
  | errInvalidSig
  | ecrecover (e : String)
  | invalidPublicKey
  deriving DecidableEq, Repr

/-- A transaction: its signed content, of a type the signers do not look into, and its
signature values `tx.data.V`, `R`, `S`. -/
structure SignedTx (α : Type) where
  data : α
  V : Int
  R : Int
  S : Int

/-- What the signers use of the curve and of the encoding: `crypto.Ecrecover`, the address
`Keccak256(pub[1:])[12:]` of a public key, and the two hashes a signer signs, `FrontierSigner`'s
and `EIP155Signer`'s (which also hashes the chain id). -/
structure Crypto (α : Type) where
  ecrecover : Hash → List UInt8 → Except String (List UInt8)
  pubAddress : List UInt8 → Address
  frontierHash : α → Hash
  eip155Hash : Int → α → Hash

variable {α : Type}

/-- `isProtectedV(V)`: whether `V` is other than the pre-EIP-155 27 and 28. -/
def isProtectedV (V : Int) : Bool :=
  if bitLen V ≤ 8 then
    let v := toUint64 V
    v != 27 && v != 28
  else true

/-- `deriveChainId(v)`: the chain id a protected `V` spells, `(V - 35) / 2`; in 64 bits when `V`
fits them, where the subtraction wraps, and by `big.Int`'s Euclidean division otherwise. -/
def deriveChainId (v : Int) : Int :=
  if bitLen v ≤ 64 then
    let v := toUint64 v
    if v = 27 ∨ v = 28 then 0 else ((v - 35) / 2).toNat
  else (v - 35) / 2

/-- `tx.ChainId()`. -/
def SignedTx.ChainId (tx : SignedTx α) : Int := deriveChainId tx.V

/-- `tx.Protected()`. -/
def SignedTx.Protected (tx : SignedTx α) : Bool := isProtectedV tx.V

/-- `secp256k1_N`, the order of the curve. -/
def secp256k1N : Int := 0xfffffffffffffffffffffffffffffffebaaedce6af48a03bbfd25e8cd0364141

/-- `secp256k1_halfN`. -/
def secp256k1halfN : Int := secp256k1N / 2

/-- `crypto.ValidateSignatureValues(v, r, s, homestead)`. -/
def validateSignatureValues (v : UInt8) (r s : Int) (homestead : Bool) : Bool :=
  if r < 1 ∨ s < 1 then false
  else if homestead ∧ s > secp256k1halfN then false
  else decide (r < secp256k1N ∧ s < secp256k1N ∧ (v = 0 ∨ v = 1))

/-- `byte(Vb.Uint64() - 27)`: the recovery byte `recoverPlain` reads off `V`. -/
def recoveryByte (Vb : Int) : UInt8 := (toUint64 Vb - 27).toUInt8

/-- The lines of `recoverPlain` before `crypto.Ecrecover`: the checks of the values, and the
65-byte signature `R ‖ S ‖ V` they lay out, each number right-aligned in its 32 bytes. -/
def recoverSig (R S Vb : Int) (homestead : Bool) : Except SignError (List UInt8) :=
  if bitLen Vb > 8 then .error .errInvalidSig
  else
    let V := recoveryByte Vb
    if !validateSignatureValues V R S homestead then .error .errInvalidSig
    else
      let r := minBytes R.natAbs
      let s := minBytes S.natAbs
      .ok (List.replicate (32 - r.length) 0 ++ r ++ List.replicate (32 - s.length) 0 ++ s ++ [V])

/-- `recoverPlain(sighash, R, S, Vb, homestead)`. -/
def recoverPlain (cr : Crypto α) (sighash : Hash) (R S Vb : Int) (homestead : Bool) :
    Except SignError Address := do
  let sig ← recoverSig R S Vb homestead
  match cr.ecrecover sighash sig with
  | .error e => .error (.ecrecover e)
  | .ok pub => if pub.head? ≠ some 4 then .error .invalidPublicKey else .ok (cr.pubAddress pub)

/-- `FrontierSigner.SignatureValues(tx, sig)`: `R`, `S` and `V = sig[64] + 27` (a byte sum) of a
65-byte signature; any other length panics. -/
def frontierSignatureValues (sig : List UInt8) : Except RuntimePanic (Int × Int × Int) :=
  if h : sig.length = 65 then
    .ok (ofBytesBE (sig.take 32), ofBytesBE ((sig.drop 32).take 32),
      (sig.get ⟨64, by omega⟩ + 27 : UInt8).toNat)
  else .error .indexOutOfRange

/-- `HomesteadSigner.Sender(tx)`. -/
def homesteadSender (cr : Crypto α) (tx : SignedTx α) : Except SignError Address :=
  recoverPlain cr (cr.frontierHash tx.data) tx.R tx.S tx.V true

/-- `EIP155Signer`: the chain id. -/
structure EIP155Signer where
  chainId : Int

/-- `s.chainIdMul`, twice the chain id. -/
def EIP155Signer.chainIdMul (s : EIP155Signer) : Int := s.chainId * 2

/-- `s.SignatureValues(tx, sig)`: the Homestead values, with `V = sig[64] + 35 + 2·chainId`
(the first sum a byte sum) when the chain id is not zero. -/
def EIP155Signer.SignatureValues (s : EIP155Signer) (sig : List UInt8) :
    Except RuntimePanic (Int × Int × Int) := do
  let (R, S, V) ← frontierSignatureValues sig
  if s.chainId ≠ 0 then
    match sig[64]? with
    | some b => return (R, S, ((b + 35 : UInt8).toNat : Int) + s.chainIdMul)
    | none => throw .indexOutOfRange
  else return (R, S, V)

/-- `s.Sender(tx)`. -/
def EIP155Signer.Sender (cr : Crypto α) (s : EIP155Signer) (tx : SignedTx α) :
    Except SignError Address :=
  if !tx.Protected then homesteadSender cr tx
  else if tx.ChainId ≠ s.chainId then .error .errInvalidChainId
  else recoverPlain cr (cr.eip155Hash s.chainId tx.data) tx.R tx.S (tx.V - s.chainIdMul - 8) true

/-! ### What `V` says -/

/-- A non-negative `V` is unprotected exactly when it is 27 or 28. -/
theorem isProtectedV_eq_false_iff {V : Int} (h0 : 0 ≤ V) : isProtectedV V = false ↔ V = 27 ∨ V = 28 := by
  unfold isProtectedV
  split_ifs with hbits
  · rw [bitLen_le_iff] at hbits
    have hv := toUint64_toNat_of_lt (v := V) (by omega)
    simp only [Bool.and_eq_false_iff, bne_eq_false_iff_eq, ← UInt64.toNat_inj, hv,
      UInt64.reduceToNat]
    omega
  · rw [bitLen_le_iff] at hbits
    simp only [false_iff]
    omega

/-- The chain id a `V` of 35 or more spells is `(V - 35) / 2`. -/
theorem deriveChainId_of_le {V : Int} (h : 35 ≤ V) : deriveChainId V = (V - 35) / 2 := by
  unfold deriveChainId
  dsimp only
  split_ifs with hbits hv
  · rw [bitLen_le_iff] at hbits
    have hvn := toUint64_toNat_of_lt (v := V) (by omega)
    simp only [← UInt64.toNat_inj, hvn, UInt64.reduceToNat] at hv
    omega
  · rw [bitLen_le_iff] at hbits
    have hvn := toUint64_toNat_of_lt (v := V) (by omega)
    rw [UInt64.toNat_div, UInt64.toNat_sub_of_le _ _ (by rw [UInt64.le_iff_toNat_le, hvn]; simp; omega),
      hvn]
    simp only [UInt64.reduceToNat]
    omega
  · rfl

/-- A non-negative `V` below 35 spells chain id 0, or one of at least `2^63 - 18`: the 64-bit
subtraction wraps. -/
theorem deriveChainId_of_lt {V : Int} (h0 : 0 ≤ V) (h : V < 35) :
    deriveChainId V = 0 ∨ 2 ^ 63 - 18 ≤ deriveChainId V := by
  unfold deriveChainId
  dsimp only
  rw [if_pos (bitLen_le_iff.mpr (by omega))]
  have hvn := toUint64_toNat_of_lt (v := V) (by omega)
  split_ifs with hv
  · exact .inl rfl
  · refine .inr ?_
    have hsub : (toUint64 V - 35).toNat = 2 ^ 64 - 35 + V.natAbs := by
      rw [UInt64.toNat_sub, hvn]
      simp only [UInt64.reduceToNat]
      omega
    rw [UInt64.toNat_div, hsub]
    simp only [UInt64.reduceToNat]
    omega

/-- `recoverPlain` gets as far as `crypto.Ecrecover` only with a `V` of absolute value 27 or 28:
the recovery byte has to be 0 or 1. -/
theorem recoverSig_ok {R S Vb : Int} {homestead : Bool} {sig : List UInt8}
    (h : recoverSig R S Vb homestead = .ok sig) : Vb.natAbs = 27 ∨ Vb.natAbs = 28 := by
  unfold recoverSig at h
  dsimp only at h
  split_ifs at h with hbits hvalid
  rw [not_lt, bitLen_le_iff] at hbits
  rw [Bool.not_eq_true', Bool.not_eq_false] at hvalid
  unfold validateSignatureValues at hvalid
  split_ifs at hvalid
  simp only [decide_eq_true_eq] at hvalid
  have hbyte : (recoveryByte Vb).toNat = (Vb.natAbs + 256 - 27) % 256 := by
    rw [recoveryByte, UInt64.toNat_toUInt8, UInt64.toNat_sub, toUint64_toNat_of_lt (by omega)]
    simp only [UInt64.reduceToNat]
    omega
  rcases hvalid.2.2 with hv | hv <;>
    · rw [← UInt8.toNat_inj] at hv
      simp only [hv, UInt8.reduceToNat] at hbyte
      omega

/-- A `recoverSig` failure is `recoverPlain`'s. -/
theorem recoverPlain_of_error {cr : Crypto α} {sighash : Hash} {R S Vb : Int} {homestead : Bool}
    {e : SignError} (h : recoverSig R S Vb homestead = .error e) :
    recoverPlain cr sighash R S Vb homestead = .error e := by
  rw [recoverPlain, h]
  rfl

/-- `recoverSig` fails whenever `V` is not of absolute value 27 or 28. -/
theorem recoverSig_error {R S Vb : Int} {homestead : Bool} (h : Vb.natAbs ≠ 27 ∧ Vb.natAbs ≠ 28) :
    recoverSig R S Vb homestead = .error .errInvalidSig := by
  cases hsig : recoverSig R S Vb homestead with
  | ok sig => exact absurd (recoverSig_ok hsig) (by omega)
  | error e =>
    have he : e = .errInvalidSig := by
      unfold recoverSig at hsig
      dsimp only at hsig
      split_ifs at hsig <;> exact (Except.error.inj hsig).symm
    rw [he]

/-! ### The EIP-155 signer -/

/-- A `V` the EIP-155 signer of chain `c ≥ 1` writes with recovery id `r ≤ 1` is protected and
spells chain id `c`. -/
theorem eip155_protected_chainId {c : Int} (hc : 1 ≤ c) {r : Nat} (hr : r ≤ 1) :
    isProtectedV (2 * c + 35 + r) = true ∧ deriveChainId (2 * c + 35 + r) = c := by
  have h0 : (0 : Int) ≤ 2 * c + 35 + r := by omega
  refine ⟨?_, ?_⟩
  · cases hp : isProtectedV (2 * c + 35 + r)
    · rcases (isProtectedV_eq_false_iff h0).mp hp with h | h <;> omega
    · rfl
  · rw [deriveChainId_of_le (by omega)]
    omega

/-- `Sender` under the signer of chain `c` reaches `crypto.Ecrecover` only if `V` is 27 or 28 or
one of the two values of chain `c`; otherwise it fails with `ErrInvalidChainId` or
`ErrInvalidSig`, whatever the curve does. -/
theorem eip155_sender_rejects (cr : Crypto α) {c : Int} (hc : 1 ≤ c) (tx : SignedTx α)
    (h0 : 0 ≤ tx.V) (hV : tx.V ≠ 27 ∧ tx.V ≠ 28 ∧ tx.V ≠ 2 * c + 35 ∧ tx.V ≠ 2 * c + 36) :
    (⟨c⟩ : EIP155Signer).Sender cr tx = .error .errInvalidChainId ∨
      (⟨c⟩ : EIP155Signer).Sender cr tx = .error .errInvalidSig := by
  unfold EIP155Signer.Sender
  dsimp only
  split_ifs with hprot hchain
  · -- an unprotected `V` is 27 or 28
    rw [Bool.not_eq_true', SignedTx.Protected, isProtectedV_eq_false_iff h0] at hprot
    omega
  · exact .inl rfl
  · -- the chain id is `c`, so `V - 2c - 8` is far from ±27 and ±28
    refine .inr (recoverPlain_of_error (recoverSig_error ?_))
    rw [not_not, SignedTx.ChainId] at hchain
    simp only [EIP155Signer.chainIdMul]
    by_cases hlo : 35 ≤ tx.V
    · rw [deriveChainId_of_le hlo] at hchain
      omega
    · rcases deriveChainId_of_lt h0 (by omega) with hz | hbig
      · omega
      · omega

/-- The EIP-155 signer of chain `c ≥ 1`: a 65-byte signature with recovery id `r ≤ 1` gets
`V = 2c + 35 + r`; the transaction it signs is protected, of chain id `c`, and its `Sender` hands
`recoverPlain` the value `27 + r`, whose recovery byte is `r`; the signer of every other chain
rejects it; and for every non-negative `V` the signer's `Sender` reaches `crypto.Ecrecover` only
if `V` is 27, 28, `2c + 35` or `2c + 36`. -/
theorem eip155_exact (cr : Crypto α) {c : Int} (hc : 1 ≤ c) :
    (∀ (sig : List UInt8) (r : UInt8), sig.length = 65 → sig[64]? = some r → r ≤ 1 →
      ∃ R S, (⟨c⟩ : EIP155Signer).SignatureValues sig = .ok (R, S, 2 * c + 35 + r.toNat) ∧
        ∀ data : α,
          (⟨data, 2 * c + 35 + r.toNat, R, S⟩ : SignedTx α).Protected = true ∧
          (⟨data, 2 * c + 35 + r.toNat, R, S⟩ : SignedTx α).ChainId = c ∧
          (⟨c⟩ : EIP155Signer).Sender cr ⟨data, 2 * c + 35 + r.toNat, R, S⟩ =
            recoverPlain cr (cr.eip155Hash c data) R S (27 + r.toNat) true ∧
          recoveryByte (27 + r.toNat) = r ∧
          ∀ c', c' ≠ c → (⟨c'⟩ : EIP155Signer).Sender cr ⟨data, 2 * c + 35 + r.toNat, R, S⟩ =
            .error .errInvalidChainId) ∧
    ∀ tx : SignedTx α, 0 ≤ tx.V → tx.V ≠ 27 ∧ tx.V ≠ 28 ∧ tx.V ≠ 2 * c + 35 ∧ tx.V ≠ 2 * c + 36 →
      (⟨c⟩ : EIP155Signer).Sender cr tx = .error .errInvalidChainId ∨
        (⟨c⟩ : EIP155Signer).Sender cr tx = .error .errInvalidSig := by
  refine ⟨fun sig r hlen hr hr1 => ?_, fun tx h0 hV => eip155_sender_rejects cr hc tx h0 hV⟩
  have hr1' : r.toNat ≤ 1 := UInt8.le_iff_toNat_le.mp hr1
  obtain ⟨hprot, hchain⟩ := eip155_protected_chainId hc hr1'
  have hsum : ((r + 35 : UInt8).toNat : Int) = 35 + r.toNat := by
    simp only [UInt8.toNat_add, UInt8.reduceToNat]
    rw [Nat.mod_eq_of_lt (by omega)]
    omega
  refine ⟨ofBytesBE (sig.take 32), ofBytesBE ((sig.drop 32).take 32), ?_, fun data => ?_⟩
  · simp only [EIP155Signer.SignatureValues, frontierSignatureValues, dif_pos hlen, hr,
      EIP155Signer.chainIdMul, if_pos (show c ≠ 0 by omega)]
    show Except.ok _ = _
    rw [hsum]
    congr 3
    omega
  refine ⟨hprot, hchain, ?_, ?_, fun c' hc' => ?_⟩
  · simp only [EIP155Signer.Sender, SignedTx.Protected, hprot, SignedTx.ChainId, hchain,
      EIP155Signer.chainIdMul, Bool.not_true, Bool.false_eq_true, if_false, ne_eq, not_true_eq_false]
    congr 1
    omega
  · rw [← UInt8.toNat_inj, recoveryByte, UInt64.toNat_toUInt8, UInt64.toNat_sub,
      toUint64_toNat_of_lt (by omega)]
    simp only [UInt64.reduceToNat]
    omega
  · simp only [EIP155Signer.Sender, SignedTx.Protected, hprot, SignedTx.ChainId, hchain,
      Bool.not_true, Bool.false_eq_true, if_false]
    rw [if_pos (Ne.symm hc')]

/-- A curve that recovers one key from every signature. -/
def constCrypto : Crypto Unit := ⟨fun _ _ => .ok [4], fun _ => 0, fun _ => 0, fun _ _ => 0⟩

/-- Chain `1` and a chain id past 64 bits, which `big.Int` carries. -/
theorem eip155_exact_two_chains :
    List.Forall (fun c : Int => 1 ≤ c ∧
    (∀ (sig : List UInt8) (r : UInt8), sig.length = 65 → sig[64]? = some r → r ≤ 1 →
      ∃ R S, (⟨c⟩ : EIP155Signer).SignatureValues sig = .ok (R, S, 2 * c + 35 + r.toNat) ∧
        ∀ data : Unit,
          (⟨data, 2 * c + 35 + r.toNat, R, S⟩ : SignedTx Unit).Protected = true ∧
          (⟨data, 2 * c + 35 + r.toNat, R, S⟩ : SignedTx Unit).ChainId = c ∧
          (⟨c⟩ : EIP155Signer).Sender constCrypto ⟨data, 2 * c + 35 + r.toNat, R, S⟩ =
            recoverPlain constCrypto (constCrypto.eip155Hash c data) R S (27 + r.toNat) true ∧
          recoveryByte (27 + r.toNat) = r ∧
          ∀ c', c' ≠ c → (⟨c'⟩ : EIP155Signer).Sender constCrypto
            ⟨data, 2 * c + 35 + r.toNat, R, S⟩ = .error .errInvalidChainId) ∧
    ∀ tx : SignedTx Unit, 0 ≤ tx.V → tx.V ≠ 27 ∧ tx.V ≠ 28 ∧ tx.V ≠ 2 * c + 35 ∧ tx.V ≠ 2 * c + 36 →
      (⟨c⟩ : EIP155Signer).Sender constCrypto tx = .error .errInvalidChainId ∨
        (⟨c⟩ : EIP155Signer).Sender constCrypto tx = .error .errInvalidSig) [1, 2 ^ 64] := by
  rw [List.forall_iff_forall_mem]
  intro c hc
  have h1 : 1 ≤ c := by
    simp only [List.mem_cons, List.not_mem_nil, or_false] at hc
    rcases hc with rfl | rfl <;> decide
  exact ⟨h1, eip155_exact constCrypto h1⟩

end EpvChain.Types
