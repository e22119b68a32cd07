import Mathlib
import EpvChain.Lib.Keystream
import EpvChain.Process.RoundTrip

/-!
# RLPx frames (`peer/rlpx.go`)

After the handshake each end holds an `rlpxFrameRW`: an AES-CTR stream per direction, the MAC
secret's block cipher, and a running Keccak-256 state per direction. `WriteMsg` sends a message
as one frame: a 16-byte header (the frame size in 24 bits, then `zeroHeader`) encrypted and
MACed, the content (the RLP of the code, then the payload, snappy-compressed if enabled)
encrypted and padded to 16 bytes, and a MAC over it. `ReadMsg` checks both MACs, decrypts, and
reads the code and payload back. The ciphers (`Ciphers`, a keystream by position) and snappy
(`Snappy`, with its round trip) are abstract.

* `openFrame_sealFrame`, `readMsg_writeMsg` — a reader in lockstep with the writer gives back
  the frame, and the message, the writer sent, and the two stay in lockstep.
* `writeMsg_eq_error` — `WriteMsg` refuses only a frame of `2 ^ 24` bytes or more, or with
  snappy a payload of that size before compression, and then writes nothing.
* `rlpx_lockstep` — over any sequence of messages the reader gives back every message, in order.
* `writeMsg_refuses_zeros` — with a snappy that compresses zero runs (`zeroRunSnappy`), `2^24`
  zero bytes fit a frame once compressed, and are refused.

Write errors on the connection, and the state a failed `ReadMsg` leaves, are not modelled.
-/

namespace EpvChain.Rlpx

open Lib Rlp

/-- `maxUint24 = ^uint32(0) >> 8`. -/
def maxUint24 : UInt32 := 0xFFFFFF

/-- `zeroHeader`: the header's protocol fields, the RLP list of two zeros. -/
def zeroHeader : List UInt8 := [0xC2, 0x80, 0x80]

/-- The errors of `WriteMsg` and `ReadMsg`. -/
inductive FrameError where
  /-- `errPlainMessageTooLarge`. -/
  | plainMessageTooLarge
  /-- "message size overflows uint24". -/
  | sizeOverflow
  /-- `io.ReadFull` on a connection that ends early. -/
  | unexpectedEOF
  | badHeaderMAC
  | badFrameMAC
  /-- `rlp.Decode` of the code. -/
  | rlp (e : StreamError)
  /-- `snappy.DecodedLen` or `snappy.Decode`. -/
  | snappy
  deriving DecidableEq, Repr

/-- `Msg`, with its payload read out of its reader. -/
structure Msg where
  Code : UInt64
  Size : UInt32
  Payload : List UInt8
  deriving DecidableEq, Repr

/-- The ciphers of a connection: the AES-CTR keystream of the AES secret (zero IV), the block
cipher of the MAC secret, and the digest of a Keccak-256 state as a function of the bytes
written to it, 32 bytes long. -/
structure Ciphers where
  keystream : Nat → UInt8
  macEncrypt : List UInt8 → List UInt8
  sum : List UInt8 → List UInt8
  length_sum : ∀ b, (sum b).length = 32

/-- `github.com/golang/snappy`'s `Encode`, `DecodedLen` and `Decode`, with the round trip the
library promises. -/
structure Snappy where
  encode : List UInt8 → List UInt8
  decodedLen : List UInt8 → Except Unit Nat
  decode : List UInt8 → Except Unit (List UInt8)
  decodedLen_encode : ∀ p, decodedLen (encode p) = .ok p.length
  decode_encode : ∀ p, decode (encode p) = .ok p

/-- `rlpxFrameRW` without its connection and ciphers: the position of each direction's stream
and the bytes written to each direction's MAC state. -/
structure FrameRW where
  encPos : Nat
  decPos : Nat
  egressMAC : List UInt8
  ingressMAC : List UInt8
  snappy : Bool
  deriving DecidableEq, Repr

/-- `newRLPXFrameRW`: both streams at their start, the MAC states the handshake left. -/
def newRLPXFrameRW (egressMAC ingressMAC : List UInt8) : FrameRW :=
  ⟨0, 0, egressMAC, ingressMAC, false⟩

/-- `updateMAC`: the block cipher of the MAC state's digest, XORed with the seed, is written to
the state; the first 16 bytes of the new digest are the MAC.
Source: `peer/rlpx.go` `updateMAC` -/
def updateMAC (c : Ciphers) (mac seed : List UInt8) : List UInt8 × List UInt8 :=
  let aesbuf := (List.range 16).map fun i => (c.macEncrypt (c.sum mac)).getD i 0 ^^^ seed.getD i 0
  let mac := mac ++ aesbuf
  (mac, (c.sum mac).take 16)

/-- `putInt24`: the low three bytes of `v`, big-endian. -/
def putInt24 (v : UInt32) : List UInt8 := [(v >>> 16).toUInt8, (v >>> 8).toUInt8, v.toUInt8]

/-- `readInt24`: three bytes read big-endian. -/
def readInt24 (b : List UInt8) : UInt32 :=
  (b.getD 2 0).toUInt32 ||| (b.getD 1 0).toUInt32 <<< 8 ||| (b.getD 0 0).toUInt32 <<< 16

/-- `io.ReadFull`: the next `n` bytes of the connection and what is left. -/
def readFull (input : List UInt8) (n : Nat) : Except FrameError (List UInt8 × List UInt8) :=
  if n ≤ input.length then .ok (input.take n, input.drop n) else .error .unexpectedEOF

/-! ### Writing -/

/-- `rlp.EncodeToBytes(msg.Code)`, its error ignored. -/
def ptypeOf (code : UInt64) : List UInt8 :=
  match encodeToBytes (fun i w => .ok (writeUint i w)) code with
  | .ok b => b
  | .error _ => []

/-- The snappy step of `WriteMsg`: the payload compressed, and its size with it.
Source: `peer/rlpx.go` `rlpxFrameRW.WriteMsg` -/
def compressPayload (sn : Snappy) (snappy : Bool) (msg : Msg) : Except FrameError Msg :=
  if snappy then
    if msg.Size > maxUint24 then .error .plainMessageTooLarge
    else
      let payload := sn.encode msg.Payload
      .ok { msg with Payload := payload, Size := UInt32.ofNat payload.length }
  else .ok msg

/-- `zero16[:16-padding]`: the zeros that pad a frame of `fsize` bytes to a multiple of 16. -/
def padding16 (fsize : UInt32) : List UInt8 :=
  if fsize % 16 > 0 then List.replicate (16 - (fsize % 16).toNat) 0 else []

/-- The frame `WriteMsg` writes for `fsize` bytes of content `content`: the encrypted header
and its MAC, the content encrypted and padded to 16 bytes through the egress MAC, and the frame
MAC; with the writer's stream and egress MAC after them.
Source: `peer/rlpx.go` `rlpxFrameRW.WriteMsg` -/
def sealFrame (c : Ciphers) (rw : FrameRW) (fsize : UInt32) (content : List UInt8) :
    List UInt8 × FrameRW :=
  let headCipher := xorAt c.keystream rw.encPos (putInt24 fsize ++ zeroHeader ++ List.replicate 10 0)
  -- the egress MAC state and the header MAC
  let head := updateMAC c rw.egressMAC headCipher
  let frameCipher := xorAt c.keystream (rw.encPos + 16) (content ++ padding16 fsize)
  let egress := head.1 ++ frameCipher
  let frame := updateMAC c egress (c.sum egress)
  (headCipher ++ head.2 ++ frameCipher ++ frame.2,
    { rw with encPos := rw.encPos + 16 + frameCipher.length, egressMAC := frame.1 })

/-- `WriteMsg`: the bytes written to the connection, and the frame writer after them.
Source: `peer/rlpx.go` `rlpxFrameRW.WriteMsg` -/
def WriteMsg (c : Ciphers) (sn : Snappy) (rw : FrameRW) (msg : Msg) :
    Except FrameError (List UInt8 × FrameRW) :=
  let ptype := ptypeOf msg.Code
  match compressPayload sn rw.snappy msg with
  | .error e => .error e
  | .ok msg =>
    let fsize := UInt32.ofNat ptype.length + msg.Size
    if fsize > maxUint24 then .error .sizeOverflow
    else .ok (sealFrame c rw fsize (ptype ++ msg.Payload))

/-! ### Reading -/

/-- `rsize`: a frame of `fsize` bytes with its padding. -/
def readSize (fsize : UInt32) : UInt32 := if fsize % 16 > 0 then fsize + (16 - fsize % 16) else fsize

/-- The frame part of `ReadMsg`: the header checked against its MAC and decrypted, the padded
frame read and checked against the frame MAC and decrypted; its first `fsize` bytes, the frame
reader after them, and what is left of the connection.
Source: `peer/rlpx.go` `rlpxFrameRW.ReadMsg` -/
def openFrame (c : Ciphers) (rw : FrameRW) (input : List UInt8) :
    Except FrameError (List UInt8 × FrameRW × List UInt8) :=
  match readFull input 32 with
  | .error e => .error e
  | .ok (headbuf, input) =>
    -- the ingress MAC state and the MAC the header should have
    let head := updateMAC c rw.ingressMAC (headbuf.take 16)
    if head.2 ≠ headbuf.drop 16 then .error .badHeaderMAC
    else
      let fsize := readInt24 (xorAt c.keystream rw.decPos (headbuf.take 16))
      match readFull input (readSize fsize).toNat with
      | .error e => .error e
      | .ok (framebuf, input) =>
        let ingress := head.1 ++ framebuf
        match readFull input 16 with
        | .error e => .error e
        | .ok (macbuf, input) =>
          let frame := updateMAC c ingress (c.sum ingress)
          if frame.2 ≠ macbuf then .error .badFrameMAC
          else
            .ok ((xorAt c.keystream (rw.decPos + 16) framebuf).take fsize.toNat,
              { rw with decPos := rw.decPos + 16 + framebuf.length, ingressMAC := frame.1 }, input)

/-- The content part of `ReadMsg`: the code by `rlp.Decode`, the rest as the payload,
decompressed when the connection uses snappy.
Source: `peer/rlpx.go` `rlpxFrameRW.ReadMsg` -/
def readContent (sn : Snappy) (snappy : Bool) (content : List UInt8) : Except FrameError Msg :=
  match decodeUint (newStream content true 0) with
  | (.error e, _) => .error (.rlp e)
  | (.ok code, s) =>
    let payload := s.input
    if snappy then
      match sn.decodedLen payload with
      | .error _ => .error .snappy
      | .ok size =>
        if size > maxUint24.toNat then .error .plainMessageTooLarge
        else
          match sn.decode payload with
          | .error _ => .error .snappy
          | .ok payload => .ok ⟨code, UInt32.ofNat size, payload⟩
    else .ok ⟨code, UInt32.ofNat payload.length, payload⟩

/-- `ReadMsg`: the message, the frame reader after it, and what is left of the connection.
Source: `peer/rlpx.go` `rlpxFrameRW.ReadMsg` -/
def ReadMsg (c : Ciphers) (sn : Snappy) (rw : FrameRW) (input : List UInt8) :
    Except FrameError (Msg × FrameRW × List UInt8) :=
  match openFrame c rw input with
  | .error e => .error e
  | .ok (content, rw', input) =>
    match readContent sn rw.snappy content with
    | .error e => .error e
    | .ok msg => .ok (msg, rw', input)

/-! ### What a frame is made of -/

@[simp] theorem length_updateMAC_snd (c : Ciphers) (mac seed : List UInt8) :
    (updateMAC c mac seed).2.length = 16 := by
  simp [updateMAC, c.length_sum]

/-- `io.ReadFull` of `n` bytes reads the first `n`. -/
theorem readFull_append {x : List UInt8} {n : Nat} (h : x.length = n) (rest : List UInt8) :
    readFull (x ++ rest) n = .ok (x, rest) := by
  subst h
  simp [readFull]

/-- `readInt24` reads back the size `putInt24` wrote, when it fits in 24 bits. -/
theorem readInt24_putInt24 {v : UInt32} (hv : v ≤ maxUint24) (rest : List UInt8) :
    readInt24 (putInt24 v ++ rest) = v := by
  have hlt : v.toNat < 2 ^ 24 := by
    have := UInt32.le_iff_toNat_le.mp hv
    simp [maxUint24] at this
    omega
  apply UInt32.toNat_inj.mp
  simp only [readInt24, putInt24, List.cons_append, List.getD_cons_succ, List.getD_cons_zero,
    UInt32.toNat_or, UInt32.toNat_shiftLeft, UInt32.toNat_shiftRight, UInt8.toNat_toUInt32,
    UInt32.toNat_toUInt8, UInt32.reduceToNat, Nat.reduceMod, Nat.shiftRight_eq_div_pow]
  set n := v.toNat
  have h16 : (n / 2 ^ 16 % 256) <<< 16 % 4294967296 = ((n / 2 ^ 16) <<< 8) <<< 8 := by
    simp only [Nat.shiftLeft_eq]
    omega
  have h8 : (n / 2 ^ 8 % 256) <<< 8 % 4294967296 = (n / 2 ^ 8 % 256) <<< 8 := by
    simp only [Nat.shiftLeft_eq]
    omega
  -- the high byte first; each `|||` is then a sum of bits that do not overlap
  rw [h16, h8, Nat.or_comm _ ((n / 2 ^ 16) <<< 8 <<< 8), Nat.or_comm (n % 256), ← Nat.or_assoc,
    ← Nat.shiftLeft_or_distrib, ← Nat.shiftLeft_add_eq_or_of_lt (by omega),
    ← Nat.shiftLeft_add_eq_or_of_lt (by omega)]
  simp only [Nat.shiftLeft_eq]
  omega

/-- A frame of a 24-bit size and its padding: the size `ReadMsg` reads for it. -/
theorem toNat_readSize {fsize : UInt32} (h : fsize ≤ maxUint24) :
    (readSize fsize).toNat = fsize.toNat + (padding16 fsize).length := by
  have hlt : fsize.toNat < 2 ^ 24 := by
    have := UInt32.le_iff_toNat_le.mp h
    simp [maxUint24] at this
    omega
  unfold readSize padding16
  by_cases hp : fsize % 16 > 0
  · rw [if_pos hp, if_pos hp]
    have hp' : 0 < fsize.toNat % 16 := by
      simpa [UInt32.lt_iff_toNat_lt] using hp
    simp only [UInt32.toNat_add, UInt32.toNat_sub, UInt32.toNat_mod, UInt32.reduceToNat,
      List.length_replicate]
    omega
  · rw [if_neg hp, if_neg hp]
    simp

/-! ### A frame sealed and opened -/

/-- The writer `w` and the reader `r` in lockstep: the reader's stream where the writer's is,
the same bytes written to the two MAC states, and snappy on both or on neither. -/
structure Lockstep (w r : FrameRW) : Prop where
  pos_eq : w.encPos = r.decPos
  mac_eq : w.egressMAC = r.ingressMAC
  snappy_eq : w.snappy = r.snappy

/-- A reader in lockstep with the writer opens the frame the writer sealed, whatever follows it
on the connection: both MACs check, since the reader feeds its MAC state the bytes the writer
fed its own, and the content decrypts at the position it was encrypted at. The two end in
lockstep. -/
theorem openFrame_sealFrame (c : Ciphers) {w r : FrameRW} (hlock : Lockstep w r)
    {fsize : UInt32} {content : List UInt8} (hsize : fsize.toNat = content.length)
    (hmax : fsize ≤ maxUint24) (rest : List UInt8) :
    ∃ r', openFrame c r ((sealFrame c w fsize content).1 ++ rest) = .ok (content, r', rest) ∧
      Lockstep (sealFrame c w fsize content).2 r' := by
  -- the pieces the writer computes
  set headCipher := xorAt c.keystream w.encPos (putInt24 fsize ++ zeroHeader ++ List.replicate 10 0)
    with hheadCipher
  set head := updateMAC c w.egressMAC headCipher with hhead
  set frameCipher := xorAt c.keystream (w.encPos + 16) (content ++ padding16 fsize) with hframeCipher
  set frame := updateMAC c (head.1 ++ frameCipher) (c.sum (head.1 ++ frameCipher)) with hframe
  have hlenHead : headCipher.length = 16 := by simp [headCipher, putInt24, zeroHeader]
  have hlenFrame : frameCipher.length = (readSize fsize).toNat := by
    simp [frameCipher, toNat_readSize hmax, hsize]
  have hseal : sealFrame c w fsize content = (headCipher ++ head.2 ++ frameCipher ++ frame.2,
      { w with encPos := w.encPos + 16 + frameCipher.length, egressMAC := frame.1 }) := rfl
  have hout : (sealFrame c w fsize content).1 ++ rest =
      (headCipher ++ head.2) ++ (frameCipher ++ (frame.2 ++ rest)) := by
    rw [hseal]
    simp only [List.append_assoc]
  -- the reader recomputes each of them
  have hheadMAC : updateMAC c r.ingressMAC ((headCipher ++ head.2).take 16) = head := by
    rw [List.take_left' hlenHead, ← hlock.mac_eq]
  have hfsize : readInt24 (xorAt c.keystream r.decPos ((headCipher ++ head.2).take 16)) = fsize := by
    rw [List.take_left' hlenHead, ← hlock.pos_eq, hheadCipher, xorAt_xorAt, List.append_assoc,
      readInt24_putInt24 hmax]
  refine ⟨{ r with decPos := r.decPos + 16 + frameCipher.length, ingressMAC := frame.1 }, ?_,
    by rw [hseal]; exact ⟨by simp [hlock.pos_eq], rfl, hlock.snappy_eq⟩⟩
  unfold openFrame
  rw [hout, readFull_append (by rw [List.length_append, hlenHead, length_updateMAC_snd])]
  dsimp only
  rw [hheadMAC, List.drop_left' hlenHead, if_neg (not_not.mpr rfl), hfsize,
    readFull_append hlenFrame]
  dsimp only
  rw [readFull_append (length_updateMAC_snd _ _ _)]
  dsimp only
  rw [← hframe, if_neg (not_not.mpr rfl), ← hlock.pos_eq, hframeCipher, xorAt_xorAt,
    List.take_left' hsize.symm]

/-! ### A message in a frame -/

/-- The packet type is the RLP encoding of the code. -/
theorem ptypeOf_eq (code : UInt64) : ptypeOf code = (Value.ofNat code.toNat).encode := by
  rw [ptypeOf, encodeToBytes_writeUint]

/-- `readContent` reads back the code and the payload a writer put in a frame, the payload as
it is or compressed. -/
theorem readContent_ptypeOf (sn : Snappy) (snappy : Bool) (code : UInt64) (payload : List UInt8)
    (hplain : snappy = true → payload.length ≤ maxUint24.toNat) :
    readContent sn snappy (ptypeOf code ++ if snappy then sn.encode payload else payload) =
      .ok ⟨code, UInt32.ofNat payload.length, payload⟩ := by
  obtain ⟨s', hdec, hinput⟩ := decodeUint_newStream code (if snappy then sn.encode payload else payload)
  unfold readContent
  rw [ptypeOf_eq, hdec]
  dsimp only
  rw [hinput]
  cases snappy with
  | false => rfl
  | true =>
    -- the payload decompresses to what was compressed, whose length was checked
    simp only [↓reduceIte]
    rw [sn.decodedLen_encode]
    dsimp only
    rw [if_neg (Nat.not_lt.mpr (hplain rfl)), sn.decode_encode]

/-- `WriteMsg` refuses a message only when it is too large for snappy; it writes the frame of the
code's encoding and the payload, compressed with snappy on, when the two fit in 24 bits. -/
theorem writeMsg_eq (c : Ciphers) (sn : Snappy) (rw : FrameRW) {msg : Msg}
    (hfits : (ptypeOf msg.Code).length +
      (if rw.snappy then (sn.encode msg.Payload).length else msg.Size.toNat) < 2 ^ 24) :
    WriteMsg c sn rw msg =
      if rw.snappy ∧ msg.Size > maxUint24 then .error .plainMessageTooLarge
      else
        .ok (sealFrame c rw (UInt32.ofNat ((ptypeOf msg.Code).length +
            if rw.snappy then (sn.encode msg.Payload).length else msg.Size.toNat))
          (ptypeOf msg.Code ++ if rw.snappy then sn.encode msg.Payload else msg.Payload)) := by
  unfold WriteMsg compressPayload
  cases hs : rw.snappy with
  | false =>
    simp only [hs, Bool.false_eq_true, false_and, ↓reduceIte] at hfits ⊢
    have hsum : UInt32.ofNat (ptypeOf msg.Code).length + msg.Size =
        UInt32.ofNat ((ptypeOf msg.Code).length + msg.Size.toNat) := by
      apply UInt32.toNat_inj.mp
      simp only [UInt32.toNat_add, UInt32.toNat_ofNat']
      omega
    rw [hsum, if_neg]
    simp only [UInt32.lt_iff_toNat_lt, UInt32.toNat_ofNat', maxUint24, UInt32.reduceToNat]
    omega
  | true =>
    simp only [hs, ↓reduceIte, true_and] at hfits ⊢
    by_cases hbig : msg.Size > maxUint24
    · rw [if_pos hbig, if_pos hbig]
    rw [if_neg hbig, if_neg hbig]
    dsimp only
    have hsum : UInt32.ofNat (ptypeOf msg.Code).length + UInt32.ofNat (sn.encode msg.Payload).length =
        UInt32.ofNat ((ptypeOf msg.Code).length + (sn.encode msg.Payload).length) := by
      apply UInt32.toNat_inj.mp
      simp only [UInt32.toNat_add, UInt32.toNat_ofNat']
      omega
    rw [hsum, if_neg]
    simp only [UInt32.lt_iff_toNat_lt, UInt32.toNat_ofNat', maxUint24, UInt32.reduceToNat]
    omega

/-- `ReadMsg` gives back the message `WriteMsg` sent, to a reader in lockstep with the writer
and whatever follows on the connection, when the message's size is its payload's and its frame
fits in 24 bits; the two end in lockstep. -/
theorem readMsg_writeMsg (c : Ciphers) (sn : Snappy) {w r : FrameRW} (hlock : Lockstep w r)
    {msg : Msg} (hsize : msg.Size.toNat = msg.Payload.length)
    (hfits : (ptypeOf msg.Code).length +
      (if w.snappy then (sn.encode msg.Payload).length else msg.Size.toNat) < 2 ^ 24)
    {out : List UInt8} {w' : FrameRW} (h : WriteMsg c sn w msg = .ok (out, w'))
    (rest : List UInt8) :
    ∃ r', ReadMsg c sn r (out ++ rest) = .ok (msg, r', rest) ∧ Lockstep w' r' := by
  rw [writeMsg_eq c sn w hfits] at h
  by_cases hbig : w.snappy ∧ msg.Size > maxUint24
  · rw [if_pos hbig] at h
    cases h
  rw [if_neg hbig] at h
  have hseal := Except.ok.inj h
  -- the frame's size is its content's, and fits in 24 bits
  have hlen : (UInt32.ofNat ((ptypeOf msg.Code).length +
      if w.snappy then (sn.encode msg.Payload).length else msg.Size.toNat)).toNat =
      (ptypeOf msg.Code ++ if w.snappy then sn.encode msg.Payload else msg.Payload).length := by
    rw [UInt32.toNat_ofNat', List.length_append]
    cases hs : w.snappy <;> simp only [hs, Bool.false_eq_true, ↓reduceIte] at hfits ⊢ <;> omega
  have hmax : UInt32.ofNat ((ptypeOf msg.Code).length +
      if w.snappy then (sn.encode msg.Payload).length else msg.Size.toNat) ≤ maxUint24 := by
    simp only [UInt32.le_iff_toNat_le, UInt32.toNat_ofNat', maxUint24, UInt32.reduceToNat]
    omega
  obtain ⟨r', hopen, hlock'⟩ := openFrame_sealFrame c hlock hlen hmax rest
  rw [hseal] at hopen hlock'
  refine ⟨r', ?_, hlock'⟩
  unfold ReadMsg
  rw [hopen]
  dsimp only
  -- the content reads back as the message
  have hplain : w.snappy = true → msg.Payload.length ≤ maxUint24.toNat := fun hs => by
    have := not_and.mp hbig hs
    simp only [gt_iff_lt, UInt32.lt_iff_toNat_lt, not_lt] at this
    omega
  rw [← hlock.snappy_eq, readContent_ptypeOf sn w.snappy msg.Code msg.Payload hplain]
  have hSize : UInt32.ofNat msg.Payload.length = msg.Size := by
    apply UInt32.toNat_inj.mp
    rw [UInt32.toNat_ofNat', ← hsize, Nat.mod_eq_of_lt msg.Size.toNat_lt]
  rw [hSize]

/-! ### A sequence of messages -/

/-- The writer's side of a connection: each message written after the bytes of those before it;
a message `WriteMsg` refuses writes nothing. The bytes, the writer after them, and the messages
sent. -/
def writeEach (c : Ciphers) (sn : Snappy) : FrameRW → List Msg → List UInt8 × FrameRW × List Msg
  | rw, [] => ([], rw, [])
  | rw, msg :: msgs =>
    match WriteMsg c sn rw msg with
    | .ok (out, rw') =>
      let sent := writeEach c sn rw' msgs
      (out ++ sent.1, sent.2.1, msg :: sent.2.2)
    | .error _ => writeEach c sn rw msgs

/-- The reader's side: `n` messages read one after another. -/
def readEach (c : Ciphers) (sn : Snappy) :
    Nat → FrameRW → List UInt8 → Except FrameError (List Msg × FrameRW × List UInt8)
  | 0, rw, input => .ok ([], rw, input)
  | n + 1, rw, input =>
    match ReadMsg c sn rw input with
    | .error e => .error e
    | .ok (msg, rw', input) =>
      match readEach c sn n rw' input with
      | .error e => .error e
      | .ok (msgs, rw'', input) => .ok (msg :: msgs, rw'', input)

/-- A message a frame can carry: its size is its payload's, and the code's encoding and the
payload, compressed when snappy is on, fit in a frame of 24 bits. -/
def Sendable (sn : Snappy) (snappy : Bool) (msg : Msg) : Prop :=
  msg.Size.toNat = msg.Payload.length ∧
    (ptypeOf msg.Code).length +
      (if snappy then (sn.encode msg.Payload).length else msg.Size.toNat) < 2 ^ 24

/-- Writing keeps the connection's snappy setting. -/
theorem snappy_of_writeMsg {c : Ciphers} {sn : Snappy} {rw rw' : FrameRW} {msg : Msg}
    {out : List UInt8} (h : WriteMsg c sn rw msg = .ok (out, rw')) : rw'.snappy = rw.snappy := by
  unfold WriteMsg at h
  split at h
  · cases h
  · dsimp only at h
    split at h
    · cases h
    · have hw' : rw' = (sealFrame c rw _ _).2 := (congrArg Prod.snd (Except.ok.inj h)).symm
      rw [hw']
      rfl

/-- `WriteMsg` on a message a frame can carry: refused when snappy is on and the payload before
compression is too large, sent otherwise. -/
theorem writeMsg_cases (c : Ciphers) (sn : Snappy) (rw : FrameRW) {msg : Msg}
    (hmsg : Sendable sn rw.snappy msg) :
    (rw.snappy ∧ msg.Size > maxUint24 ∧ WriteMsg c sn rw msg = .error .plainMessageTooLarge) ∨
    (¬(rw.snappy ∧ msg.Size > maxUint24) ∧ ∃ out rw', WriteMsg c sn rw msg = .ok (out, rw')) := by
  rw [writeMsg_eq c sn rw hmsg.2]
  by_cases hbig : rw.snappy ∧ msg.Size > maxUint24
  · exact .inl ⟨hbig.1, hbig.2, if_pos hbig⟩
  · exact .inr ⟨hbig, _, _, if_neg hbig⟩

/-- The writer sends every message but those snappy refuses for their size. -/
theorem writeEach_sent (c : Ciphers) (sn : Snappy) :
    ∀ (w : FrameRW) (msgs : List Msg), (∀ msg ∈ msgs, Sendable sn w.snappy msg) →
      (writeEach c sn w msgs).2.2 =
        msgs.filter fun msg => !(w.snappy && decide (msg.Size > maxUint24)) := by
  intro w msgs
  induction msgs generalizing w with
  | nil => intro _; rfl
  | cons msg msgs ih =>
    intro hmsgs
    rcases writeMsg_cases c sn w (hmsgs msg List.mem_cons_self) with
      ⟨hs, hbig, herr⟩ | ⟨hbig, out, w', hok⟩
    · -- refused: nothing written, and the message is not sent
      rw [writeEach, herr]
      dsimp only
      rw [ih w fun m hm => hmsgs m (List.mem_cons_of_mem _ hm), List.filter_cons_of_neg]
      simp [hs, hbig]
    · rw [writeEach, hok]
      dsimp only
      rw [ih w' (by rw [snappy_of_writeMsg hok]; exact fun m hm => hmsgs m (List.mem_cons_of_mem _ hm)),
        snappy_of_writeMsg hok, List.filter_cons_of_pos]
      cases hs : w.snappy
      · rfl
      · simpa [hs] using hbig

/-- The reader, in lockstep with the writer, reads back every message the writer sent, in
order, and ends in lockstep with it. The induction is on the messages, for every pair of
endpoints in lockstep. -/
theorem readEach_writeEach (c : Ciphers) (sn : Snappy) :
    ∀ (msgs : List Msg) (w r : FrameRW), Lockstep w r → (∀ msg ∈ msgs, Sendable sn w.snappy msg) →
      ∀ rest, ∃ r', readEach c sn (writeEach c sn w msgs).2.2.length r
        ((writeEach c sn w msgs).1 ++ rest) = .ok ((writeEach c sn w msgs).2.2, r', rest) ∧
        Lockstep (writeEach c sn w msgs).2.1 r' := by
  intro msgs
  induction msgs with
  | nil =>
    intro w r hlock _ rest
    exact ⟨r, rfl, hlock⟩
  | cons msg msgs ih =>
    intro w r hlock hmsgs rest
    have htail : ∀ m ∈ msgs, Sendable sn w.snappy m := fun m hm => hmsgs m (List.mem_cons_of_mem _ hm)
    rcases writeMsg_cases c sn w (hmsgs msg List.mem_cons_self) with
      ⟨_, _, herr⟩ | ⟨_, out, w', hok⟩
    · -- refused: the writer goes on as if it had not been asked
      rw [writeEach, herr]
      exact ih w r hlock htail rest
    · -- sent: the reader reads it, and both go on in lockstep
      rw [writeEach, hok]
      dsimp only
      have hsnappy := snappy_of_writeMsg hok
      obtain ⟨r₁, hread, hlock₁⟩ := readMsg_writeMsg c sn hlock (hmsgs msg List.mem_cons_self).1
        (hmsgs msg List.mem_cons_self).2 hok ((writeEach c sn w' msgs).1 ++ rest)
      obtain ⟨r', hreads, hlock'⟩ := ih w' r₁ hlock₁ (hsnappy ▸ htail) rest
      refine ⟨r', ?_, hlock'⟩
      rw [List.length_cons, readEach, List.append_assoc, hread]
      dsimp only
      rw [hreads]

/-- RLPx frames round-trip in lockstep: from a writer and a reader in lockstep, over any
sequence of messages a frame can carry, the writer sends each but those snappy refuses for
their size before compression, and the reader fed the bytes written reads back exactly the messages sent, in
order, passing both MAC checks of each, and ends in lockstep with the writer. -/
theorem rlpx_lockstep (c : Ciphers) (sn : Snappy) {w r : FrameRW} (hlock : Lockstep w r)
    (msgs : List Msg) (hmsgs : ∀ msg ∈ msgs, Sendable sn w.snappy msg) (rest : List UInt8) :
    (writeEach c sn w msgs).2.2 =
        msgs.filter (fun msg => !(w.snappy && decide (msg.Size > maxUint24))) ∧
    ∃ r', readEach c sn (writeEach c sn w msgs).2.2.length r ((writeEach c sn w msgs).1 ++ rest) =
        .ok ((writeEach c sn w msgs).2.2, r', rest) ∧
      Lockstep (writeEach c sn w msgs).2.1 r' :=
  ⟨writeEach_sent c sn w msgs hmsgs, readEach_writeEach c sn msgs w r hlock hmsgs rest⟩

/-- Ciphers with a zero keystream, an empty block cipher and zero digests. -/
def zeroCiphers : Ciphers :=
  ⟨fun _ => 0, fun _ => [], fun _ => List.replicate 32 0, fun _ => List.length_replicate ..⟩

/-- A snappy that stores a payload of zeros as its length, big-endian after a tag `1`, and any
other payload as it is after a tag `0`: like the library's, it compresses a long run of zeros to
a few bytes. -/
def zeroRunSnappy : Snappy where
  encode p := if p.all (· == 0) then 1 :: minBytes p.length else 0 :: p
  decodedLen
    | [] => .error ()
    | t :: rest => .ok (if t = 1 then ofBytesBE rest else rest.length)
  decode
    | [] => .error ()
    | t :: rest => .ok (if t = 1 then List.replicate (ofBytesBE rest) 0 else rest)
  decodedLen_encode p := by
    by_cases h : p.all (· == 0) <;> simp [h, ofBytesBE_minBytes]
  decode_encode p := by
    by_cases h : p.all (· == 0)
    · simp only [h, if_true, ofBytesBE_minBytes]
      rw [List.all_eq_true] at h
      exact congrArg Except.ok (List.eq_replicate_iff.mpr ⟨rfl, fun b hb => by simpa using h b hb⟩).symm
    · simp [h]

/-- A connection with snappy on, and two messages for it: one whose payload snappy stores as it
is, and one of zeros that it compresses. -/
def snappyRW : FrameRW := { newRLPXFrameRW [] [] with snappy := true }

/-- Two messages, the second of all zeros. -/
def lockstepMsgs : List Msg := [⟨1, 2, [5, 6]⟩, ⟨2, 3, [0, 0, 0]⟩]

/-- Two messages written with snappy read back as sent, and the two ends stay in lockstep. -/
theorem rlpx_lockstep_one :
    (writeEach zeroCiphers zeroRunSnappy snappyRW lockstepMsgs).2.2 =
        lockstepMsgs.filter (fun msg => !(snappyRW.snappy && decide (msg.Size > maxUint24))) ∧
    ∃ r', readEach zeroCiphers zeroRunSnappy
        (writeEach zeroCiphers zeroRunSnappy snappyRW lockstepMsgs).2.2.length snappyRW
        ((writeEach zeroCiphers zeroRunSnappy snappyRW lockstepMsgs).1 ++ []) =
        .ok ((writeEach zeroCiphers zeroRunSnappy snappyRW lockstepMsgs).2.2, r', []) ∧
      Lockstep (writeEach zeroCiphers zeroRunSnappy snappyRW lockstepMsgs).2.1 r' :=
  rlpx_lockstep zeroCiphers zeroRunSnappy ⟨rfl, rfl, rfl⟩ lockstepMsgs
    (fun msg hmsg => by
      simp only [lockstepMsgs, List.mem_cons, List.not_mem_nil, or_false] at hmsg
      rcases hmsg with rfl | rfl <;> exact ⟨rfl, by rw [ptypeOf_eq]; decide⟩) []

/-- With snappy on, a message of `n` zero bytes, `2^24 ≤ n < 2^32`, is one a frame can carry,
its compressed payload being a few bytes; yet `WriteMsg` refuses it for its size before
compression. -/
theorem writeMsg_refuses_zeros {n : Nat} (hlo : 2 ^ 24 ≤ n) (hhi : n < 2 ^ 32) :
    Sendable zeroRunSnappy true ⟨0, UInt32.ofNat n, List.replicate n 0⟩ ∧
      WriteMsg zeroCiphers zeroRunSnappy snappyRW
        ⟨0, UInt32.ofNat n, List.replicate n 0⟩ = .error .plainMessageTooLarge := by
  have hsize : (UInt32.ofNat n).toNat = n := by
    rw [UInt32.toNat_ofNat', Nat.mod_eq_of_lt hhi]
  -- the payload compresses to its tag and the big-endian bytes of `n`, at most four
  have henc : (zeroRunSnappy.encode (List.replicate n 0)).length = 1 + byteCount n := by
    simp only [zeroRunSnappy, List.all_replicate, beq_self_eq_true, ite_self, ↓reduceIte,
      List.length_cons, List.length_replicate, length_minBytes]
    omega
  have hcount : byteCount n ≤ 4 := byteCount_le_of_lt_pow (by omega)
  have hptype : (ptypeOf 0).length = 1 := by
    rw [ptypeOf_eq]
    decide
  have hbig : UInt32.ofNat n > maxUint24 := by
    rw [gt_iff_lt, UInt32.lt_iff_toNat_lt, hsize]
    simp only [maxUint24, UInt32.reduceToNat]
    omega
  refine ⟨⟨by rw [hsize, List.length_replicate], ?_⟩, ?_⟩
  · rw [if_pos rfl, hptype, henc]
    omega
  · have hs : snappyRW.snappy = true := rfl
    unfold WriteMsg compressPayload
    rw [if_pos hs, if_pos hbig]

/-- **Snappy refuses a payload that compresses to fit.** With snappy on, a message of `2^24`
zero bytes is one a frame can carry, yet `WriteMsg` refuses it, and the writer sends nothing. -/
theorem writeMsg_refuses_compressible :
    Sendable zeroRunSnappy true ⟨0, UInt32.ofNat 0x1000000, List.replicate 0x1000000 0⟩ ∧
      WriteMsg zeroCiphers zeroRunSnappy snappyRW
        ⟨0, UInt32.ofNat 0x1000000, List.replicate 0x1000000 0⟩ = .error .plainMessageTooLarge ∧
      (writeEach zeroCiphers zeroRunSnappy snappyRW
        [⟨0, UInt32.ofNat 0x1000000, List.replicate 0x1000000 0⟩]).2.2 = [] := by
  obtain ⟨hsend, hwrite⟩ := writeMsg_refuses_zeros (n := 0x1000000) (by norm_num) (by norm_num)
  exact ⟨hsend, hwrite, by rw [writeEach, hwrite]; rfl⟩

end EpvChain.Rlpx
