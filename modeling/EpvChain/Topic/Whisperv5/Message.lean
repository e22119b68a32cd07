import Mathlib
import EpvChain.Lib.GoSlice

/-!
# Whisper v5 message validation (`topic/whisperv5/message.go`)

After `Envelope.Open` decrypts an envelope, `ReceivedMessage.Validate` splits the plaintext `Raw`
into the flags byte, the padding, the payload and the signature. The flags say whether it is
signed and how many little-endian bytes, `sz = flags & paddingMask`, give the padding's size.

* `validatePayload_error_iff`, `Validate_error_iff` — `Validate` panics exactly on an unsigned
  plaintext no longer than its `sz`: `extractPadding` slices `Raw[1:1+sz]` before any check. A
  signed plaintext is at least 67 bytes, and never panics.
* `Validate_eq_true` — when `Validate` returns true, the payload and padding are the parts of
  `Raw` between the sizes it read, and a signature is the last `signatureLength` bytes.
* `Validate_flag_only` — the one-byte plaintext `[0x01]` panics.

`SigToPubKey` is a parameter. Decryption, the envelope fields and the filters are not modelled;
an envelope to a node's key reaches `Validate` with any plaintext its sender chose.
-/

namespace EpvChain.Whisperv5

open Lib

/-- `paddingMask`: the low two bits of the flags count the padding's size bytes. -/
def paddingMask : UInt8 := 3

def signatureFlag : UInt8 := 4

/-- `signatureLength`: an ECDSA signature `r ‖ s ‖ v`. -/
def signatureLength : Nat := 65

def isMessageSigned (flags : UInt8) : Bool := flags &&& signatureFlag != 0

/-- `bytesToUintLittleEndian` (`whisper.go`): the loop `res += b[i] * mul; mul *= 256` over
`uint64`. -/
def bytesToUintLittleEndian (b : List UInt8) : UInt64 :=
  (b.foldl (fun (acc : UInt64 × UInt64) x => (acc.1 + x.toUInt64 * acc.2, acc.2 * 256)) (0, 1)).1

/-- The fields of `ReceivedMessage` that `Validate` reads or writes, over a type `κ` of public
keys. -/
structure ReceivedMessage (κ : Type) where
  Raw : List UInt8
  Payload : List UInt8
  Padding : List UInt8
  Signature : List UInt8
  Src : Option κ

variable {κ : Type}

/-- `extractPadding`: the padding's size and whether it fits before `end`, with `Padding` set
when it does.
Source: `topic/whisperv5/message.go` `ReceivedMessage.extractPadding` -/
def extractPadding (msg : ReceivedMessage κ) (end_ : Int) :
    Except RuntimePanic ((Int × Bool) × ReceivedMessage κ) :=
  match goIndex msg.Raw 0 with
  | .error e => .error e
  | .ok flags =>
    let sz : Int := (flags &&& paddingMask).toNat
    if sz ≠ 0 then
      match goSlice msg.Raw 1 (1 + sz) with
      | .error e => .error e
      | .ok lenBytes =>
        let paddingSize : Int := (bytesToUintLittleEndian lenBytes).toInt64.toInt
        if paddingSize < sz ∨ paddingSize + 1 > end_ then .ok ((0, false), msg)
        else
          match goSlice msg.Raw (1 + sz) (1 + paddingSize) with
          | .error e => .error e
          | .ok padding => .ok ((paddingSize, true), { msg with Padding := padding })
    else .ok ((0, true), msg)

/-- The end of `Validate`, after the signature: the padding, then the payload
`Raw[1+padSize:end]`.
Source: `topic/whisperv5/message.go` `ReceivedMessage.Validate` -/
def validatePayload (msg : ReceivedMessage κ) (end_ : Int) :
    Except RuntimePanic (Bool × ReceivedMessage κ) :=
  match extractPadding msg end_ with
  | .error e => .error e
  | .ok ((padSize, ok), msg) =>
    if !ok then .ok (false, msg)
    else
      match goSlice msg.Raw (1 + padSize) end_ with
      | .error e => .error e
      | .ok payload => .ok (true, { msg with Payload := payload })

/-- `Validate`: a signed message loses its last `signatureLength` bytes to the signature, whose
signer must be recovered; then the padding and the payload.
Source: `topic/whisperv5/message.go` `ReceivedMessage.Validate` -/
def Validate (sigToPubKey : ReceivedMessage κ → Option κ) (msg : ReceivedMessage κ) :
    Except RuntimePanic (Bool × ReceivedMessage κ) :=
  let end_ : Int := msg.Raw.length
  if end_ < 1 then .ok (false, msg)
  else
    match goIndex msg.Raw 0 with
    | .error e => .error e
    | .ok flags =>
      if isMessageSigned flags then
        let end_ := end_ - signatureLength
        if end_ ≤ 1 then .ok (false, msg)
        else
          match goSlice msg.Raw end_ msg.Raw.length with
          | .error e => .error e
          | .ok signature =>
            let msg := { msg with Signature := signature }
            let msg := { msg with Src := sigToPubKey msg }
            if msg.Src.isNone then .ok (false, msg) else validatePayload msg end_
      else validatePayload msg end_

section
-- The equation lemmas of the reader are made once here, before the proofs below unfold it.
attribute [local simp] extractPadding validatePayload Validate
end

/-! ### What `extractPadding` can do -/

section Padding

variable {msg : ReceivedMessage κ} {flags : UInt8} {rest : List UInt8} {end_ : Int}

/-- `extractPadding` on a plaintext that starts with `flags`, for an `end` inside it: no size
bytes; size bytes past the end of the plaintext, the panic; a padding size that does not fit;
or a padding `Raw[1+sz:1+padSize]` that does. -/
theorem extractPadding_cases (hraw : msg.Raw = flags :: rest) (hend : end_ ≤ msg.Raw.length) :
    ((flags &&& paddingMask).toNat = 0 ∧ extractPadding msg end_ = .ok ((0, true), msg)) ∨
    ((flags &&& paddingMask).toNat ≠ 0 ∧ msg.Raw.length < 1 + (flags &&& paddingMask).toNat ∧
      extractPadding msg end_ = .error .sliceBoundsOutOfRange) ∨
    ((flags &&& paddingMask).toNat ≠ 0 ∧ 1 + (flags &&& paddingMask).toNat ≤ msg.Raw.length ∧
      extractPadding msg end_ = .ok ((0, false), msg)) ∨
    ((flags &&& paddingMask).toNat ≠ 0 ∧ ∃ padSize padding,
      ((flags &&& paddingMask).toNat : Int) ≤ padSize ∧ padSize + 1 ≤ end_ ∧
      goSlice msg.Raw (1 + (flags &&& paddingMask).toNat) (1 + padSize) = .ok padding ∧
      extractPadding msg end_ = .ok ((padSize, true), { msg with Padding := padding })) := by
  have hidx : goIndex msg.Raw 0 = .ok flags := by rw [hraw, goIndex_cons_zero]
  unfold extractPadding
  rw [hidx]
  dsimp only
  set sz := (flags &&& paddingMask).toNat with hsz_def
  by_cases hsz : sz = 0
  · -- no size bytes: no padding
    left
    exact ⟨hsz, by rw [if_neg (by omega)]⟩
  rw [if_pos (by omega)]
  by_cases hlen : msg.Raw.length < 1 + sz
  · -- the size bytes run past the plaintext
    right; left
    exact ⟨hsz, hlen, by rw [goSlice_eq_error (by omega)]⟩
  rw [goSlice_eq_ok (by omega) (by omega) (by omega)]
  dsimp only
  set padSize := (bytesToUintLittleEndian
    ((msg.Raw.take (1 + (sz : Int)).toNat).drop (1 : Int).toNat)).toInt64.toInt with hps
  by_cases hfit : padSize < sz ∨ padSize + 1 > end_
  · right; right; left
    exact ⟨hsz, by omega, by rw [if_pos hfit]⟩
  · -- the padding fits before `end`, so its slice is in range
    right; right; right
    have hin : goSlice msg.Raw (1 + (sz : Int)) (1 + padSize) = _ :=
      goSlice_eq_ok (by omega) (by omega) (by omega)
    refine ⟨hsz, padSize, _, by omega, by omega, hin, ?_⟩
    rw [if_neg hfit, hin]

/-- The parts of a plaintext `raw` that starts with `flags`, for a padding size `padSize` and an
end `end_`: the two in order inside `raw`, the payload `raw[1+padSize:end]`, and the padding
`raw[1+sz:1+padSize]`, or the old padding and a zero size when there are no size bytes. -/
structure PayloadParts (raw : List UInt8) (flags : UInt8) (padSize end_ : Int)
    (oldPadding payload padding : List UInt8) : Prop where
  head_eq : raw.head? = some flags
  padSize_nonneg : 0 ≤ padSize
  padSize_lt_end : 1 + padSize ≤ end_
  end_le : end_ ≤ raw.length
  payload_eq : goSlice raw (1 + padSize) end_ = .ok payload
  padding_eq : (flags &&& paddingMask).toNat ≠ 0 →
    goSlice raw (1 + (flags &&& paddingMask).toNat) (1 + padSize) = .ok padding
  padding_none : (flags &&& paddingMask).toNat = 0 → padSize = 0 ∧ padding = oldPadding

/-- `validatePayload` panics, for an `end` inside the plaintext, exactly when the size bytes run
past the plaintext. -/
theorem validatePayload_error_iff (hraw : msg.Raw = flags :: rest) (h1 : 1 ≤ end_)
    (hend : end_ ≤ msg.Raw.length) :
    (∃ e, validatePayload msg end_ = .error e) ↔
      msg.Raw.length < 1 + (flags &&& paddingMask).toNat := by
  unfold validatePayload
  rcases extractPadding_cases hraw hend with
    ⟨hsz, h⟩ | ⟨_, hlen, h⟩ | ⟨_, hlen, h⟩ | ⟨_, padSize, padding, hle, hfit, _, h⟩
  · -- no size bytes: the payload `Raw[1:end]` is in range
    rw [h]
    dsimp only
    rw [goSlice_eq_ok (by omega) (by omega) hend]
    exact iff_of_false (fun ⟨_, he⟩ => by cases he) (by omega)
  · rw [h]
    exact iff_of_true ⟨_, rfl⟩ hlen
  · rw [h]
    exact iff_of_false (fun ⟨_, he⟩ => by cases he) (by omega)
  · -- a padding that fits leaves the payload in range
    rw [h]
    dsimp only
    rw [goSlice_eq_ok (by omega) (by omega) hend]
    exact iff_of_false (fun ⟨_, he⟩ => by cases he) (by omega)

/-- When `validatePayload` returns true the message has its parts, and keeps its plaintext, its
signature and its signer. -/
theorem validatePayload_eq_true {m : ReceivedMessage κ} (hraw : msg.Raw = flags :: rest)
    (h1 : 1 ≤ end_) (hend : end_ ≤ msg.Raw.length) (h : validatePayload msg end_ = .ok (true, m)) :
    m.Raw = msg.Raw ∧ m.Signature = msg.Signature ∧ m.Src = msg.Src ∧
      ∃ padSize, PayloadParts msg.Raw flags padSize end_ msg.Padding m.Payload m.Padding := by
  have hhead : msg.Raw.head? = some flags := by rw [hraw]; rfl
  unfold validatePayload at h
  rcases extractPadding_cases hraw hend with
    ⟨hsz, hx⟩ | ⟨_, _, hx⟩ | ⟨_, _, hx⟩ | ⟨hsz, padSize, padding, hle, hfit, hpad, hx⟩
  · -- no size bytes: the payload starts right after the flags
    rw [hx] at h
    dsimp only at h
    rw [goSlice_eq_ok (by omega) (by omega) hend] at h
    cases h
    refine ⟨rfl, rfl, rfl, 0, ⟨hhead, le_rfl, by omega, hend, ?_, fun h => absurd hsz h,
      fun _ => ⟨rfl, rfl⟩⟩⟩
    exact goSlice_eq_ok (by omega) (by omega) hend
  · rw [hx] at h
    cases h
  · rw [hx] at h
    cases h
  · -- the padding, then the payload after it
    rw [hx] at h
    dsimp only at h
    rw [goSlice_eq_ok (by omega) (by omega) hend] at h
    cases h
    refine ⟨rfl, rfl, rfl, padSize, ⟨hhead, by omega, by omega, hend, ?_, fun _ => hpad,
      fun h => absurd h hsz⟩⟩
    exact goSlice_eq_ok (by omega) (by omega) hend

end Padding

/-! ### What `Validate` does -/

/-- The padding's size bytes are at most three. -/
theorem toNat_and_paddingMask_le (flags : UInt8) : (flags &&& paddingMask).toNat ≤ 3 := by
  rw [UInt8.toNat_and]
  exact Nat.and_le_right

/-- A plaintext that `Validate` cannot split: unsigned, and no longer than the number of size
bytes its flags announce. -/
def lengthBytesMissing : List UInt8 → Bool
  | [] => false
  | flags :: rest =>
    !isMessageSigned flags && decide (rest.length + 1 ≤ (flags &&& paddingMask).toNat)

/-- `Validate` panics exactly on the plaintexts whose size bytes would run past their end. A
signed plaintext never panics: it is longer than `signatureLength + 1`, and so than the size
bytes. -/
theorem Validate_error_iff (sigToPubKey : ReceivedMessage κ → Option κ) (msg : ReceivedMessage κ) :
    (∃ e, Validate sigToPubKey msg = .error e) ↔ lengthBytesMissing msg.Raw = true := by
  unfold Validate
  cases hraw : msg.Raw with
  | nil => simp [lengthBytesMissing]
  | cons flags rest =>
    have hlen : ((flags :: rest).length : Int) = rest.length + 1 := by simp
    rw [if_neg (by omega), goIndex_cons_zero]
    dsimp only
    have hsz := toNat_and_paddingMask_le flags
    by_cases hs : isMessageSigned flags
    · -- signed: the signature is in range, and the payload is long enough for the size bytes
      rw [if_pos hs]
      have hmiss : lengthBytesMissing (flags :: rest) = false := by simp [lengthBytesMissing, hs]
      rw [hmiss]
      by_cases hshort : (rest.length + 1 : Int) - signatureLength ≤ 1
      · rw [if_pos (by omega)]
        exact iff_of_false (fun ⟨_, he⟩ => by cases he) (by simp)
      rw [if_neg (by omega), goSlice_eq_ok (by simp [signatureLength] at hshort ⊢; omega)
        (by simp [signatureLength]) le_rfl]
      dsimp only
      split
      · exact iff_of_false (fun ⟨_, he⟩ => by cases he) (by simp)
      · rw [@validatePayload_error_iff _ _ _ rest _ (by rfl)
          (by simp [signatureLength] at hshort ⊢; omega) (by simp [signatureLength])]
        simp only [List.length_cons, Bool.false_eq_true, iff_false, not_lt]
        simp [signatureLength] at hshort
        omega
    · -- unsigned: the payload ends with the plaintext
      rw [if_neg hs, validatePayload_error_iff hraw (by omega) (by rw [hraw]), hraw]
      simp only [lengthBytesMissing, hs, Bool.not_false, Bool.true_and, decide_eq_true_eq,
        List.length_cons]
      omega

/-- When `Validate` returns true, the plaintext is split into its parts (`PayloadParts`), and a
signed message's signature is its last `signatureLength` bytes, with a recovered signer. -/
theorem Validate_eq_true (sigToPubKey : ReceivedMessage κ → Option κ) (msg : ReceivedMessage κ)
    {m : ReceivedMessage κ} (h : Validate sigToPubKey msg = .ok (true, m)) :
    m.Raw = msg.Raw ∧ ∃ flags padSize end_,
      PayloadParts msg.Raw flags padSize end_ msg.Padding m.Payload m.Padding ∧
      (isMessageSigned flags = true → end_ = msg.Raw.length - signatureLength ∧
        goSlice msg.Raw end_ msg.Raw.length = .ok m.Signature ∧ m.Src.isSome) ∧
      (isMessageSigned flags = false →
        end_ = msg.Raw.length ∧ m.Signature = msg.Signature ∧ m.Src = msg.Src) := by
  unfold Validate at h
  cases hraw : msg.Raw with
  | nil =>
    rw [hraw] at h
    cases h
  | cons flags rest =>
    rw [hraw] at h
    have hlen : ((flags :: rest).length : Int) = rest.length + 1 := by simp
    rw [if_neg (by omega), goIndex_cons_zero] at h
    dsimp only at h
    by_cases hs : isMessageSigned flags
    · -- signed: the signature, a recovered signer, then the payload before the signature
      rw [if_pos hs] at h
      by_cases hshort : (rest.length + 1 : Int) - signatureLength ≤ 1
      · rw [if_pos (by omega)] at h
        cases h
      have hin : 0 ≤ ((flags :: rest).length : Int) - signatureLength := by
        simp [signatureLength] at hshort ⊢
        omega
      have hsig := goSlice_eq_ok (s := flags :: rest) hin (by simp [signatureLength]) le_rfl
      rw [if_neg (by omega), hsig] at h
      dsimp only at h
      split at h
      · cases h
      · rename_i hsrc
        obtain ⟨hr, hsig', hsrc', ⟨padSize, hparts⟩⟩ :=
          @validatePayload_eq_true _ _ _ rest _ _ (by rfl) (by simp [signatureLength] at hshort ⊢; omega) (by simp [signatureLength]) h
        refine ⟨hr, flags, padSize, _, hparts, fun _ => ⟨rfl, ?_, ?_⟩, fun hf => absurd hs (by simp [hf])⟩
        · rw [hsig', hsig]
        · rw [hsrc']
          exact Option.isSome_iff_ne_none.mpr (by simpa using hsrc)
    · -- unsigned: the payload ends with the plaintext
      rw [if_neg hs] at h
      obtain ⟨hr, hsig', hsrc', ⟨padSize, hparts⟩⟩ :=
        validatePayload_eq_true hraw (by omega) (by rw [hraw]) h
      rw [hraw] at hr hparts
      refine ⟨hr, flags, padSize, _, hparts, fun hf => absurd hf hs, fun _ => ⟨rfl, hsig', hsrc'⟩⟩

/-- An unsigned message with a payload of one byte and no padding. -/
example : Validate (fun _ => (none : Option Nat)) ⟨[0, 5], [], [], [], none⟩ =
    .ok (true, ⟨[0, 5], [5], [], [], none⟩) := by
  rfl

/-- The one-byte plaintext `[0x01]` announces one size byte after the flags; `Validate` slices
`Raw[1:2]` out of a slice of length one and panics. -/
theorem Validate_flag_only (sigToPubKey : ReceivedMessage κ → Option κ) :
    Validate sigToPubKey ⟨[0x01], [], [], [], none⟩ = .error .sliceBoundsOutOfRange := by
  have hunsigned : isMessageSigned 1 = false := by decide
  have hsz : ((1 : UInt8) &&& paddingMask).toNat = 1 := by decide
  simp [Validate, validatePayload, extractPadding, hunsigned, hsz, goSlice]

end EpvChain.Whisperv5
