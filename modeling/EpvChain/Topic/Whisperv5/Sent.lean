import EpvChain.Topic.Whisperv5.Message
import EpvChain.Lib.ExceptLoop

/-!
# Whisper v5 messages as they are sent (`topic/whisperv5/message.go`)

`NewSentMessage` lays a plaintext out as the flags byte, the padding and the payload; `Wrap` signs
it when there is a source key, appending the signature, before encrypting it. The caller's
padding is preceded by its size in `sz` little-endian bytes (`getSizeOfLength`, `sz` in the
flags' low bits); without one, a random padding of `sz = 1` brings the message, signature
included, to a multiple of `padSizeLimit`.

* `NewSentMessage_framed`: what `NewSentMessage` builds has that layout (`Framed`).
* `validatePayload_framed`, `Validate_framed_unsigned`, `Validate_framed_signed`: `Validate`
  reads every such plaintext back into its payload, padding, signature and signer.
* `sent_message_round_trip`: whenever `Wrap` has a plaintext to encrypt, `Validate` accepts it
  with the payload, the caller's padding, the signature and the signer's key; without padding,
  its length is a multiple of `padSizeLimit`.

The hash and signature scheme is a parameter (`SignatureScheme`, `Sign` and `SigToPub` inverse);
so are the bytes of `crand.Read`. Encryption and the envelope are not modelled.
-/

namespace EpvChain.Whisperv5

open Lib

/-- `padSizeLimit`: a message padded by `appendPadding` fills a multiple of this many bytes. -/
def padSizeLimit : Nat := 256

/-- The errors of building and signing a message, with `appendPadding`'s panic. -/
inductive SentError where
  | oversizedPadding
  | randomPadding (size : Nat)
  | sign (err : String)
  | panic (msg : String)
  deriving DecidableEq, Repr

/-- The text of each error. -/
def SentError.Error : SentError → String
  | .oversizedPadding => "oversized padding parameter"
  | .randomPadding size => "failed to generate random padding of size " ++ toString size
  | .sign err => err
  | .panic msg => msg

/-- `crypto.Keccak256`, `crypto.Sign` and `crypto.SigToPub` over private keys `σ` and public keys
`κ`: a signature has `signatureLength` bytes, and the key recovered from a hash and the signature
`Sign` made of it is the signer's. -/
structure SignatureScheme (σ κ : Type) where
  Keccak256 : List UInt8 → List UInt8
  Sign : List UInt8 → σ → Except String (List UInt8)
  SigToPub : List UInt8 → List UInt8 → Except String κ
  pub : σ → κ
  length_Sign : ∀ {hash key sig}, Sign hash key = .ok sig → sig.length = signatureLength
  SigToPub_Sign : ∀ {hash key sig}, Sign hash key = .ok sig → SigToPub hash sig = .ok (pub key)

/-- The fields of `MessageParams` that `NewSentMessage` and the signing read. -/
structure MessageParams (σ : Type) where
  Src : Option σ
  Payload : List UInt8
  Padding : List UInt8

variable {σ κ : Type}

/-! ### The sender -/

/-- `intSize(i)`: the bytes that hold `i`, at least one. -/
def intSize (i : Nat) : Nat :=
  if i ≥ 256 then intSize (i / 256) + 1 else 1
termination_by i
decreasing_by omega

/-- `getSizeOfLength(b)`: the size bytes of a padding `b`, large enough to hold the padding's
length together with themselves. -/
def getSizeOfLength (b : List UInt8) : Except SentError Nat :=
  let sz := intSize b.length
  let sz := intSize (b.length + sz)
  if sz > 3 then .error .oversizedPadding else .ok sz

/-- `binary.LittleEndian.PutUint32(buf, v)` into `make([]byte, 8)`. -/
def putUint32LE (v : UInt32) : List UInt8 :=
  [v.toUInt8, (v >>> 8).toUInt8, (v >>> 16).toUInt8, (v >>> 24).toUInt8, 0, 0, 0, 0]

/-- `containsOnlyZeros(data)` (`whisper.go`). -/
def containsOnlyZeros (data : List UInt8) : Bool := data.all (· == 0)

/-- `validateSymmetricKey(k)` (`whisper.go`). -/
def validateSymmetricKey (k : List UInt8) : Bool := k.length > 0 && !containsOnlyZeros k

/-- `msg.appendPadding(params)` on the plaintext `raw` built so far; `rand i` is byte `i` of what
`crand.Read` writes into `buf[1:]`. -/
def appendPadding (raw : List UInt8) (params : MessageParams σ) (rand : Nat → UInt8) :
    Except SentError (List UInt8) :=
  let rawSize := params.Payload.length + 1
  let rawSize := if params.Src.isSome then rawSize + signatureLength else rawSize
  let odd := rawSize % padSizeLimit
  if params.Padding.length ≠ 0 then do
    let padLengthSize ← getSizeOfLength params.Padding
    let totalPadSize := params.Padding.length + padLengthSize
    let buf := (putUint32LE (UInt32.ofNat totalPadSize)).take padLengthSize
    let raw := raw ++ buf ++ params.Padding
    return raw.modifyHead (· ||| padLengthSize.toUInt8)
  else if odd ≠ 0 then
    let totalPadSize := padSizeLimit - odd
    if totalPadSize > 255 then
      .error (.panic "please fix the padding algorithm before releasing new version")
    else
      let buf := 0 :: (List.range (totalPadSize - 1)).map rand
      if totalPadSize > 6 ∧ !validateSymmetricKey buf then .error (.randomPadding totalPadSize)
      else
        let buf := buf.set 0 totalPadSize.toUInt8
        return (raw ++ buf).modifyHead (· ||| 1)
  else .ok raw

/-- `NewSentMessage(params)`: the plaintext `Raw`, the flags byte first. -/
def NewSentMessage (params : MessageParams σ) (rand : Nat → UInt8) :
    Except SentError (List UInt8) := do
  let raw ← appendPadding [0] params rand
  return raw ++ params.Payload

/-- `msg.sign(key)`: the signature flag set, then the signature of the hash of the flagged
plaintext appended. A plaintext signed already is logged and left alone; on an error of
`crypto.Sign` the flag is cleared again, but the error ends `Wrap`. -/
def sign (C : SignatureScheme σ κ) (raw : List UInt8) (key : σ) : Except SentError (List UInt8) :=
  match raw with
  | [] => .error (.panic "index out of range")
  | flags :: rest =>
    if isMessageSigned flags then .ok raw
    else
      let raw := (flags ||| signatureFlag) :: rest
      match C.Sign (C.Keccak256 raw) key with
      | .error err => .error (.sign err)
      | .ok signature => .ok (raw ++ signature)

/-- The plaintext `Wrap` encrypts: what `NewSentMessage` built, signed when `Src` is set. -/
def wrapPlaintext (C : SignatureScheme σ κ) (params : MessageParams σ) (rand : Nat → UInt8) :
    Except SentError (List UInt8) := do
  let raw ← NewSentMessage params rand
  match params.Src with
  | some key => sign C raw key
  | none => pure raw

/-! ### The receiver's signer -/

/-- `msg.hash()`: the hash of the plaintext, without its last `signatureLength` bytes when it is
signed. -/
def ReceivedMessage.hash (C : SignatureScheme σ κ) (msg : ReceivedMessage κ) :
    Except RuntimePanic (List UInt8) := do
  let flags ← goIndex msg.Raw 0
  if isMessageSigned flags then
    let sz : Int := msg.Raw.length - signatureLength
    let body ← goSlice msg.Raw 0 sz
    return C.Keccak256 body
  else return C.Keccak256 msg.Raw

/-- `msg.SigToPubKey()`: the key recovered from the hash and the signature; `nil` on an error,
and on a panic, which the deferred `recover` stops. -/
def ReceivedMessage.SigToPubKey (C : SignatureScheme σ κ) (msg : ReceivedMessage κ) : Option κ :=
  match msg.hash C with
  | .error _ => none
  | .ok hash =>
    match C.SigToPub hash msg.Signature with
    | .error _ => none
    | .ok pub => some pub

section
-- The equation lemmas of the sender are made once here, before the proofs below unfold it.
attribute [local simp] intSize getSizeOfLength putUint32LE appendPadding NewSentMessage sign
end

/-! ### The size bytes -/

theorem one_le_intSize (i : Nat) : 1 ≤ intSize i := by
  rw [intSize]
  split_ifs <;> omega

theorem lt_pow_intSize (i : Nat) : i < 256 ^ intSize i := by
  induction i using Nat.strong_induction_on with
  | _ i ih =>
    rw [intSize]
    split_ifs with h
    · have := ih (i / 256) (by omega)
      rw [pow_succ]
      omega
    · simp only [pow_one]
      omega

theorem intSize_le_of_lt_pow {i k : Nat} (hk : 1 ≤ k) (h : i < 256 ^ k) : intSize i ≤ k := by
  induction i using Nat.strong_induction_on generalizing k with
  | _ i ih =>
    rw [intSize]
    split_ifs with hi
    · -- `i` takes two bytes at least, so `k ≥ 2` and `i / 256 < 256 ^ (k - 1)`
      obtain ⟨k', rfl⟩ : ∃ k', k = k' + 1 := ⟨k - 1, by omega⟩
      have hk' : 1 ≤ k' := by
        rcases Nat.eq_zero_or_pos k' with h0 | h0
        · subst h0
          simp only [zero_add, pow_one] at h
          omega
        · exact h0
      rw [pow_succ] at h
      have := ih (i / 256) (by omega) hk' (by omega)
      omega
    · exact hk

theorem intSize_of_lt {i : Nat} (h : i < 256) : intSize i = 1 := by
  rw [intSize, if_neg (by omega)]

/-- The size bytes `getSizeOfLength` settles on are one to three, and hold the padding's length
together with themselves: `intSize` applied twice can grow by one byte, never by two. -/
theorem getSizeOfLength_eq_ok {b : List UInt8} {sz : Nat} (h : getSizeOfLength b = .ok sz) :
    1 ≤ sz ∧ sz ≤ 3 ∧ b.length + sz < 256 ^ sz := by
  unfold getSizeOfLength at h
  dsimp only at h
  split_ifs at h with hbig
  cases h
  set s₁ := intSize b.length
  have h₁ : b.length < 256 ^ s₁ := lt_pow_intSize b.length
  have h₂ := lt_pow_intSize (b.length + s₁)
  have hs₁ : s₁ < 256 ^ s₁ := Nat.lt_pow_self (by norm_num)
  -- the second size is the first or one more
  have hge : s₁ ≤ intSize (b.length + s₁) :=
    intSize_le_of_lt_pow (one_le_intSize _) (by omega)
  have hle : intSize (b.length + s₁) ≤ s₁ + 1 :=
    intSize_le_of_lt_pow (by omega) (by rw [pow_succ]; omega)
  refine ⟨one_le_intSize _, by omega, ?_⟩
  rcases Nat.eq_or_lt_of_le hge with heq | hlt
  · rw [← heq] at h₂ ⊢
    exact h₂
  · have hsucc : intSize (b.length + s₁) = s₁ + 1 := by omega
    rw [hsucc, pow_succ]
    omega

/-- The number little-endian bytes spell. -/
def leNat : List UInt8 → Nat
  | [] => 0
  | b :: bs => b.toNat + 256 * leNat bs

section
attribute [local simp] leNat
end

theorem leNat_lt : ∀ bs : List UInt8, leNat bs < 256 ^ bs.length
  | [] => by simp [leNat]
  | b :: bs => by
    have hb := b.toNat_lt
    have := leNat_lt bs
    rw [leNat, List.length_cons, pow_succ]
    omega

/-- `bytesToUintLittleEndian` reads up to three bytes without overflow. -/
theorem toNat_bytesToUintLittleEndian {bs : List UInt8} (h : bs.length ≤ 3) :
    (bytesToUintLittleEndian bs).toNat = leNat bs := by
  match bs, h with
  | [], _ => rfl
  | [a], _ =>
    have ha := a.toNat_lt
    simp only [bytesToUintLittleEndian, List.foldl_cons, List.foldl_nil, leNat]
    simp only [UInt64.toNat_add, UInt64.toNat_mul, UInt8.toNat_toUInt64, UInt64.reduceToNat]
    omega
  | [a, b], _ =>
    have ha := a.toNat_lt
    have hb := b.toNat_lt
    simp only [bytesToUintLittleEndian, List.foldl_cons, List.foldl_nil, leNat]
    simp only [UInt64.toNat_add, UInt64.toNat_mul, UInt8.toNat_toUInt64, UInt64.reduceMul,
      UInt64.reduceToNat]
    omega
  | [a, b, c], _ =>
    have ha := a.toNat_lt
    have hb := b.toNat_lt
    have hc := c.toNat_lt
    simp only [bytesToUintLittleEndian, List.foldl_cons, List.foldl_nil, leNat]
    simp only [UInt64.toNat_add, UInt64.toNat_mul, UInt8.toNat_toUInt64, UInt64.reduceMul,
      UInt64.reduceToNat]
    omega

/-- The first `k ≤ 3` bytes `PutUint32` writes spell the number below `256 ^ k`. -/
theorem leNat_take_putUint32LE {T : Nat} (hT : T < 256 ^ 3) (k : Nat) (hk : k ≤ 3) :
    leNat ((putUint32LE (UInt32.ofNat T)).take k) = T % 256 ^ k := by
  have hv : (UInt32.ofNat T).toNat = T := UInt32.toNat_ofNat_of_lt' (by rw [UInt32.size]; omega)
  interval_cases k <;>
  · simp only [putUint32LE, List.take_succ_cons, List.take_zero, leNat]
    simp only [UInt32.toNat_toUInt8, UInt32.toNat_shiftRight, hv, Nat.shiftRight_eq_div_pow,
      UInt32.reduceToNat, Nat.reduceMod, Nat.reducePow]
    omega

/-! ### The layout -/

/-- The layout after the flags byte: `sz` little-endian bytes spelling the padding's total size
`sz + len(padding)`, then the padding; with `sz = 0`, neither. -/
structure Framed (sz : Nat) (lenBytes padding : List UInt8) : Prop where
  sz_le : sz ≤ 3
  length_lenBytes : lenBytes.length = sz
  size_eq : sz ≠ 0 → leNat lenBytes = sz + padding.length
  unpadded : sz = 0 → padding = []

/-- The flags `NewSentMessage` writes carry `sz` in their padding bits and no signature flag;
the signature flag leaves the padding bits alone. -/
theorem flags_of_sz {sz : Nat} (h : sz ≤ 3) :
    (sz.toUInt8 &&& paddingMask).toNat = sz ∧ isMessageSigned sz.toUInt8 = false ∧
      ((sz.toUInt8 ||| signatureFlag) &&& paddingMask).toNat = sz ∧
      isMessageSigned (sz.toUInt8 ||| signatureFlag) = true := by
  interval_cases sz <;> decide

/-- What `NewSentMessage` builds: flags `sz`, then a `Framed` padding, then the payload. The
padding is the caller's when there is one; when there is none, the plaintext and the signature
it will get fill a multiple of `padSizeLimit`. -/
theorem NewSentMessage_framed {params : MessageParams σ} {rand : Nat → UInt8} {raw : List UInt8}
    (h : NewSentMessage params rand = .ok raw) :
    ∃ sz lenBytes padding, raw = sz.toUInt8 :: (lenBytes ++ padding ++ params.Payload) ∧
      Framed sz lenBytes padding ∧ (params.Padding ≠ [] → padding = params.Padding) ∧
      (params.Padding = [] →
        (raw.length + if params.Src.isSome then signatureLength else 0) % padSizeLimit = 0) := by
  obtain ⟨raw₁, hpad, hraw⟩ := Iff.mp bind_eq_ok h
  cases hraw
  unfold appendPadding at hpad
  dsimp only at hpad
  by_cases hQ : params.Padding.length ≠ 0
  · -- the caller's padding, after its size bytes
    rw [if_pos hQ] at hpad
    obtain ⟨sz, hsz, hbuf⟩ := Iff.mp bind_eq_ok hpad
    cases hbuf
    obtain ⟨h1, h3, hfit⟩ := getSizeOfLength_eq_ok hsz
    have hT : params.Padding.length + sz < 256 ^ 3 :=
      lt_of_lt_of_le hfit (Nat.pow_le_pow_right (by norm_num) h3)
    refine ⟨sz, (putUint32LE (UInt32.ofNat (params.Padding.length + sz))).take sz,
      params.Padding, ?_, ⟨h3, by simp [putUint32LE]; omega, fun _ => ?_, fun h0 => by omega⟩,
      fun _ => rfl, fun hnil => absurd (List.length_eq_zero_iff.mpr hnil) hQ⟩
    · simp
    · rw [leNat_take_putUint32LE hT sz h3, Nat.mod_eq_of_lt hfit]
      omega
  rw [if_neg hQ] at hpad
  have hnil : params.Padding = [] := List.length_eq_zero_iff.mp (by omega)
  -- the signature the message will carry is counted in `rawSize`
  generalize hR : (if params.Src.isSome = true then params.Payload.length + 1 + signatureLength
    else params.Payload.length + 1) = rawSize at hpad
  have hsig : rawSize = params.Payload.length + 1 +
      (if params.Src.isSome then signatureLength else 0) := by
    rw [← hR]
    split <;> rfl
  generalize (if params.Src.isSome then signatureLength else 0) = sigLen at hsig ⊢
  unfold padSizeLimit at hpad ⊢
  -- the panic and the failed random padding are errors, so two branches are left
  split_ifs at hpad with hodd hbig hrand
  · -- a random padding of `padSizeLimit - odd` bytes, its size byte first
    cases hpad
    set T := 256 - rawSize % 256 with hT
    have hbyte : T.toUInt8.toNat = T := by
      rw [Nat.toUInt8_eq, UInt8.toNat_ofNat_of_lt' (by rw [UInt8.size]; omega)]
    refine ⟨1, [T.toUInt8], (List.range (T - 1)).map rand, ?_, ⟨by omega, rfl, fun _ => ?_,
      fun h0 => absurd h0 one_ne_zero⟩, fun hne => absurd hnil hne, fun _ => ?_⟩
    · simp
    · simp only [leNat, hbyte, List.length_map, List.length_range]
      omega
    · simp only [List.set_cons_zero, List.modifyHead_cons, List.cons_append, List.nil_append,
        List.length_cons, List.length_append, List.length_map, List.length_range]
      omega
  · -- already a multiple: no padding
    cases hpad
    refine ⟨0, [], [], by simp, ⟨by omega, rfl, fun h0 => absurd rfl h0, fun _ => rfl⟩,
      fun hne => absurd hnil hne, fun _ => ?_⟩
    simp only [List.singleton_append, List.length_cons]
    omega

/-! ### The receiver reads the layout back -/

/-- `validatePayload` reads a `Framed` plaintext followed by `tail`, which `end` cuts off, back
into its payload and its padding. -/
theorem validatePayload_framed {msg : ReceivedMessage κ} {flags : UInt8} {sz : Nat}
    {lenBytes padding payload tail : List UInt8} (hf : Framed sz lenBytes padding)
    (hflags : (flags &&& paddingMask).toNat = sz)
    (hraw : msg.Raw = flags :: (lenBytes ++ padding ++ payload) ++ tail) (hpad : msg.Padding = []) :
    validatePayload msg (msg.Raw.length - tail.length) =
      .ok (true, { msg with Payload := payload, Padding := padding }) := by
  obtain ⟨Raw, Payload, Padding, Signature, Src⟩ := msg
  dsimp only at hraw hpad ⊢
  subst hraw hpad
  have hlenBytes := hf.length_lenBytes
  have hend : (((flags :: (lenBytes ++ padding ++ payload) ++ tail).length : Nat) : Int) -
      tail.length = 1 + sz + padding.length + payload.length := by
    simp only [List.cons_append, List.length_cons, List.length_append]
    omega
  unfold validatePayload extractPadding
  dsimp only
  rw [List.cons_append, goIndex_cons_zero, ← List.cons_append]
  dsimp only
  rw [hflags, hend]
  by_cases hsz : sz = 0
  · -- no size bytes and no padding: the payload follows the flags
    have hl : lenBytes = [] := List.length_eq_zero_iff.mp (hlenBytes.trans hsz)
    have hp : padding = [] := hf.unpadded hsz
    subst hl hp hsz
    rw [if_neg (by simp)]
    dsimp only
    rw [goSlice_middle (A := [flags]) (B := payload) (C := tail) (by simp) (by simp) (by simp)]
    rfl
  · -- the size bytes spell the padding's total size, which fits before `end`
    rw [if_pos (by simpa using hsz), goSlice_middle (A := [flags]) (B := lenBytes)
      (C := padding ++ payload ++ tail) (by simp) (by simp) (by simp [hlenBytes])]
    dsimp only
    have hval : (bytesToUintLittleEndian lenBytes).toNat = sz + padding.length := by
      rw [toNat_bytesToUintLittleEndian (by rw [hlenBytes]; exact hf.sz_le), hf.size_eq hsz]
    have hsmall : (bytesToUintLittleEndian lenBytes).toNat < 2 ^ 63 := by
      have := leNat_lt lenBytes
      rw [← toNat_bytesToUintLittleEndian (by rw [hlenBytes]; exact hf.sz_le), hlenBytes] at this
      have h3 : 256 ^ sz ≤ 256 ^ 3 := Nat.pow_le_pow_right (by norm_num) hf.sz_le
      omega
    rw [toInt_toInt64_of_lt hsmall, hval, if_neg (by omega),
      goSlice_middle (A := flags :: lenBytes) (B := padding) (C := payload ++ tail) (by simp)
        (by simp [hlenBytes]; omega) (by simp [hlenBytes]; omega)]
    dsimp only
    rw [goSlice_middle (A := flags :: (lenBytes ++ padding)) (B := payload) (C := tail) (by simp)
      (by simp [hlenBytes]; omega) (by simp [hlenBytes]; omega)]
    rfl

/-- `Validate` reads an unsigned `Framed` plaintext back into its payload and padding. -/
theorem Validate_framed_unsigned (sigToPubKey : ReceivedMessage κ → Option κ) {flags : UInt8}
    {sz : Nat} {lenBytes padding payload : List UInt8} (hf : Framed sz lenBytes padding)
    (hflags : (flags &&& paddingMask).toNat = sz) (hs : isMessageSigned flags = false) :
    Validate sigToPubKey ⟨flags :: (lenBytes ++ padding ++ payload), [], [], [], none⟩ =
      .ok (true, ⟨flags :: (lenBytes ++ padding ++ payload), payload, padding, [], none⟩) := by
  have hread := @validatePayload_framed κ ⟨flags :: (lenBytes ++ padding ++ payload), [], [], [], none⟩
    flags sz lenBytes padding payload [] hf hflags (List.append_nil _).symm rfl
  simp only [List.length_nil, Nat.cast_zero, sub_zero] at hread
  unfold Validate
  rw [if_neg (by simp; omega), goIndex_cons_zero]
  dsimp only
  rw [if_neg (by simp [hs]), hread]

/-- `Validate` reads a signed `Framed` plaintext back into its payload, its padding, its last
`signatureLength` bytes as the signature, and the signer `sigToPubKey` recovers. -/
theorem Validate_framed_signed (sigToPubKey : ReceivedMessage κ → Option κ) {flags : UInt8}
    {sz : Nat} {lenBytes padding payload signature : List UInt8} {k : κ}
    (hf : Framed sz lenBytes padding) (hflags : (flags &&& paddingMask).toNat = sz)
    (hs : isMessageSigned flags = true) (hsig : signature.length = signatureLength)
    (hbody : lenBytes ++ padding ++ payload ≠ [])
    (hsrc : sigToPubKey ⟨flags :: (lenBytes ++ padding ++ payload) ++ signature, [], [], signature,
      none⟩ = some k) :
    Validate sigToPubKey ⟨flags :: (lenBytes ++ padding ++ payload) ++ signature, [], [], [], none⟩ =
      .ok (true, ⟨flags :: (lenBytes ++ padding ++ payload) ++ signature, payload, padding, signature,
        some k⟩) := by
  have hbodyLen : 0 < (lenBytes ++ padding ++ payload).length := List.length_pos_of_ne_nil hbody
  have hlen : ((flags :: (lenBytes ++ padding ++ payload) ++ signature).length : Int) =
      1 + (lenBytes ++ padding ++ payload).length + signatureLength := by
    simp only [List.cons_append, List.length_cons, List.length_append, hsig]
    push_cast
    omega
  -- the signature is the last `signatureLength` bytes
  have hsigSlice : goSlice (flags :: (lenBytes ++ padding ++ payload) ++ signature)
      ((flags :: (lenBytes ++ padding ++ payload) ++ signature).length - signatureLength)
      (flags :: (lenBytes ++ padding ++ payload) ++ signature).length = .ok signature :=
    goSlice_middle (A := flags :: (lenBytes ++ padding ++ payload)) (C := []) (by simp)
      (by rw [hlen]; simp; omega) (by rw [hlen, ← hsig]; simp; omega)
  have hread := @validatePayload_framed κ
    ⟨flags :: (lenBytes ++ padding ++ payload) ++ signature, [], [], signature, some k⟩ flags sz
    lenBytes padding payload signature hf hflags rfl rfl
  rw [hsig] at hread
  unfold Validate
  dsimp only
  rw [if_neg (by omega), List.cons_append, goIndex_cons_zero, ← List.cons_append]
  dsimp only
  rw [if_pos hs, if_neg (by omega), hsigSlice]
  dsimp only
  rw [hsrc]
  exact hread

/-! ### The sender's signature -/

/-- `sign` on an unsigned plaintext: the flag set, then the signature of the flagged plaintext's
hash appended. -/
theorem sign_eq_ok {C : SignatureScheme σ κ} {flags : UInt8} {rest raw : List UInt8} {key : σ}
    (hs : isMessageSigned flags = false) (h : sign C (flags :: rest) key = .ok raw) :
    ∃ signature, C.Sign (C.Keccak256 ((flags ||| signatureFlag) :: rest)) key = .ok signature ∧
      raw = (flags ||| signatureFlag) :: rest ++ signature := by
  simp only [sign, hs, Bool.false_eq_true, if_false] at h
  split at h
  · cases h
  · rename_i signature hsign
    cases h
    exact ⟨signature, hsign, rfl⟩

/-- `SigToPubKey` recovers the signer of a signed plaintext from the hash of all but its last
`signatureLength` bytes. -/
theorem SigToPubKey_signed (C : SignatureScheme σ κ) {flags : UInt8} {rest signature : List UInt8}
    {key : σ} (hs : isMessageSigned flags = true)
    (hsign : C.Sign (C.Keccak256 (flags :: rest)) key = .ok signature) :
    ReceivedMessage.SigToPubKey C ⟨flags :: rest ++ signature, [], [], signature, none⟩ =
      some (C.pub key) := by
  have hsig := C.length_Sign hsign
  have hbody : goSlice (flags :: rest ++ signature) 0
      ((flags :: rest ++ signature).length - signatureLength) = .ok (flags :: rest) :=
    goSlice_middle (A := []) (C := signature) (by simp) (by simp)
      (by simp only [List.length_append, List.length_cons, hsig]; push_cast; simp)
  have hhash : ReceivedMessage.hash C ⟨flags :: rest ++ signature, [], [], signature, none⟩ =
      .ok (C.Keccak256 (flags :: rest)) := by
    unfold ReceivedMessage.hash
    rw [List.cons_append, goIndex_cons_zero, ← List.cons_append, ok_bind]
    dsimp only
    rw [if_pos hs, hbody, ok_bind]
    rfl
  unfold ReceivedMessage.SigToPubKey
  rw [hhash]
  dsimp only
  rw [C.SigToPub_Sign hsign]

/-! ### The round trip -/

/-- For every payload, padding, source key and random source: whenever `Wrap` has a plaintext to
encrypt, `Validate` accepts it and reads back the payload, the caller's padding, and for a signed
message the signature `sign` appended and the signer's public key; and a message sent without a
padding fills a multiple of `padSizeLimit`, its signature included. -/
theorem sent_message_round_trip (C : SignatureScheme σ κ) (params : MessageParams σ)
    (rand : Nat → UInt8) {raw : List UInt8} (h : wrapPlaintext C params rand = .ok raw) :
    ∃ m : ReceivedMessage κ,
      Validate (ReceivedMessage.SigToPubKey C) ⟨raw, [], [], [], none⟩ = .ok (true, m) ∧
      m.Raw = raw ∧ m.Payload = params.Payload ∧
      (params.Padding ≠ [] → m.Padding = params.Padding) ∧
      (∀ key, params.Src = some key → m.Src = some (C.pub key) ∧
        ∃ body, raw = body ++ m.Signature ∧ C.Sign (C.Keccak256 body) key = .ok m.Signature) ∧
      (params.Padding = [] → raw.length % padSizeLimit = 0) := by
  obtain ⟨raw₀, hnew, hsign⟩ := Iff.mp bind_eq_ok h
  obtain ⟨sz, lenBytes, padding, hraw₀, hf, hQ, hmult⟩ := NewSentMessage_framed hnew
  obtain ⟨hflags, hunsigned, hflags', hsigned⟩ := flags_of_sz hf.sz_le
  cases hsrc : params.Src with
  | none =>
    -- unsigned: `Validate` reads what `NewSentMessage` built
    rw [hsrc] at hsign hmult
    cases hsign
    subst hraw₀
    refine ⟨_, Validate_framed_unsigned _ hf hflags hunsigned, rfl, rfl, hQ,
      fun key hkey => absurd hkey (by simp), fun hnil => ?_⟩
    simpa using hmult hnil
  | some key =>
    -- signed: the flag, then the signature of the flagged plaintext
    rw [hsrc] at hsign hmult
    rw [hraw₀] at hsign
    obtain ⟨signature, hSign, rfl⟩ := sign_eq_ok hunsigned hsign
    have hsig := C.length_Sign hSign
    have hbody : lenBytes ++ padding ++ params.Payload ≠ [] := by
      -- the flags alone are one byte, and with a signature not a multiple of `padSizeLimit`
      intro hnil
      have hpadding : padding = [] := by simp at hnil; exact hnil.2.1
      have hnoQ : params.Padding = [] := by
        by_contra hne
        exact absurd (hQ hne ▸ hpadding) hne
      have := hmult hnoQ
      rw [hraw₀, hnil] at this
      simp [signatureLength, padSizeLimit] at this
    refine ⟨_, Validate_framed_signed _ hf hflags' hsigned hsig hbody
      (SigToPubKey_signed C hsigned hSign), rfl, rfl, hQ, fun k hk => ?_, fun hnil => ?_⟩
    · cases hk
      exact ⟨rfl, _, rfl, hSign⟩
    · have := hmult hnil
      rw [hraw₀] at this
      simp only [Option.isSome_some, if_true, List.length_cons] at this
      simp only [List.length_append] at this
      simp only [List.cons_append, List.length_cons, List.length_append, hsig]
      rwa [show lenBytes.length + padding.length + params.Payload.length + signatureLength + 1 =
        lenBytes.length + padding.length + params.Payload.length + 1 + signatureLength by omega]

/-- A scheme whose signature is sixty-five zero bytes and whose one key recovers itself. -/
def zeroScheme : SignatureScheme Unit Unit where
  Keccak256 := id
  Sign _ _ := .ok (List.replicate signatureLength 0)
  SigToPub _ _ := .ok ()
  pub _ := ()
  length_Sign := by
    intro _ _ _ h
    cases h
    simp
  SigToPub_Sign := by
    intro _ _ _ _
    rfl

/-- A signed message with the payload `[7]` and the padding `[9]`: one size byte, `2`, and the
signature flag in the flags `5`. -/
theorem sent_message_round_trip_signed :
    wrapPlaintext zeroScheme ⟨some (), [7], [9]⟩ (fun _ => 1) =
        .ok (5 :: 2 :: 9 :: 7 :: List.replicate 65 0) ∧
      ∃ m : ReceivedMessage Unit,
        Validate (ReceivedMessage.SigToPubKey zeroScheme)
            ⟨5 :: 2 :: 9 :: 7 :: List.replicate 65 0, [], [], [], none⟩ = .ok (true, m) ∧
        m.Raw = 5 :: 2 :: 9 :: 7 :: List.replicate 65 0 ∧ m.Payload = [7] ∧
        (([9] : List UInt8) ≠ [] → m.Padding = [9]) ∧
        (∀ key, some () = some key → m.Src = some (zeroScheme.pub key) ∧
          ∃ body, 5 :: 2 :: 9 :: 7 :: List.replicate 65 0 = body ++ m.Signature ∧
            zeroScheme.Sign (zeroScheme.Keccak256 body) key = .ok m.Signature) ∧
        (([9] : List UInt8) = [] →
          (5 :: 2 :: 9 :: 7 :: List.replicate 65 0 : List UInt8).length % padSizeLimit = 0) := by
  have hsz : getSizeOfLength [9] = .ok 1 := by
    simp [getSizeOfLength, intSize_of_lt]
  have hwrap : wrapPlaintext zeroScheme ⟨some (), [7], [9]⟩ (fun _ => 1) =
      .ok (5 :: 2 :: 9 :: 7 :: List.replicate 65 0) := by
    simp only [wrapPlaintext, NewSentMessage, appendPadding, hsz]
    decide
  exact ⟨hwrap, sent_message_round_trip zeroScheme ⟨some (), [7], [9]⟩ (fun _ => 1) hwrap⟩

end EpvChain.Whisperv5
