import Mathlib.Data.List.Basic

/-!
# RLPx frames

Model of `execution_chain/networking/rlpx/rlpxcrypt.nim` and of `recvMsg` and `sendMsg` in
`rlpxtransport.nim`. The stream cipher, the block cipher and the sponge are parameters: a
cipher turns bytes into bytes and moves its counter on, a sponge takes bytes up and has a
digest at any time. The stream is the list of the bytes that are still to be read.
-/

namespace Nimbus.Native.RlpxCrypt

/-- `CTR[aes256]`, `ECB[aes256]` and `Keccak256`. -/
class Crypto where
  Ctr : Type
  /-- the cipher of a key, with a zero counter -/
  initCtr : List UInt8 → Ctr
  encrypt : Ctr → List UInt8 → List UInt8 × Ctr
  decrypt : Ctr → List UInt8 → List UInt8 × Ctr
  Ecb : Type
  initEcb : List UInt8 → Ecb
  encryptBlock : Ecb → List UInt8 → List UInt8
  Sponge : Type
  update : Sponge → List UInt8 → Sponge
  finish : Sponge → Vector UInt8 32

open Crypto

def RlpHeaderLength : Nat := 16
def RlpMacLength : Nat := 16

/-- The largest length that `encryptMsg` lets pass. -/
def maxUInt24 : UInt32 := (~~~ (0 : UInt32)) <<< 8

structure SecretState [Crypto] where
  aesenc : Ctr
  aesdec : Ctr
  macenc : Ecb
  emac : Sponge
  imac : Sponge

inductive RlpxError where
  /-- "rlpx: MAC verification failed" -/
  | incorrectMac
  /-- "rlpx: data incomplete" -/
  | incompleteError
  /-- "rlpx: incorrect arguments" -/
  | incorrectArgs

inductive Defect where
  /-- `doAssert`: "RLPx message size exceeds limit" -/
  | sizeLimit
  /-- `expect`: "always succeeds because we call with correct buffer" -/
  | encryptFailed

structure ConnectionSecret [Crypto] where
  aesKey : List UInt8
  macKey : List UInt8
  egressMac : Sponge
  ingressMac : Sponge

def initSecretState [Crypto] (secrets : ConnectionSecret) : SecretState where
  aesenc := initCtr secrets.aesKey
  aesdec := initCtr secrets.aesKey
  macenc := initEcb secrets.macKey
  emac := secrets.egressMac
  imac := secrets.ingressMac

def roundup16 (x : Nat) : Nat :=
  let rem := x % 16
  if rem ≠ 0 then x + 16 - rem else x

def sxor (a b : List UInt8) : List UInt8 := List.zipWith (· ^^^ ·) a b

def encryptedLength (size : Nat) : Nat := RlpHeaderLength + roundup16 size + 2 * RlpMacLength

def decryptedLength (size : Nat) : Nat := roundup16 size

section
variable [Crypto]

/-- The first bytes of the digest of a copy of the sponge. -/
def digest (mac : Sponge) : List UInt8 := (finish mac).toList.take RlpHeaderLength

/-- Encrypts the header and the frame for an output of the length `outputLen`. -/
def encrypt (c : SecretState) (header frame : List UInt8) (outputLen : Nat) :
    Except RlpxError (List UInt8 × SecretState) :=
  let length := encryptedLength frame.length
  let frameLength := roundup16 frame.length
  if header.length ≠ RlpHeaderLength ∨ frame.length = 0 ∨ length ≠ outputLen then
    .error .incorrectArgs
  else
    let (headerCiphertext, aesenc) := Crypto.encrypt c.aesenc header
    let macsec := digest c.emac
    let emac := update c.emac (sxor (encryptBlock c.macenc macsec) headerCiphertext)
    let headerMac := digest emac
    -- the rest of the output buffer is zero
    let padded := frame ++ List.replicate (frameLength - frame.length) 0
    let (frameCiphertext, aesenc) := Crypto.encrypt aesenc padded
    let emac := update emac frameCiphertext
    let seed := digest emac
    let emac := update emac (sxor (encryptBlock c.macenc seed) seed)
    let frameMac := digest emac
    .ok (headerCiphertext ++ headerMac ++ frameCiphertext ++ frameMac, { c with aesenc, emac })

/-- The frame size in the first three bytes, then the RLP of `(0, 0)`. -/
def frameHeader (len : Nat) : List UInt8 :=
  [UInt8.ofNat (len >>> 16 &&& 0xFF), UInt8.ofNat (len >>> 8 &&& 0xFF), UInt8.ofNat (len &&& 0xFF),
    0xc2, 0x80, 0x80] ++ List.replicate 10 0

def encryptMsg (msg : List UInt8) (secrets : SecretState) :
    Except Defect (List UInt8 × SecretState) :=
  if maxUInt24 < UInt32.ofNat msg.length then .error .sizeLimit
  else
    match encrypt secrets (frameHeader msg.length) msg (encryptedLength msg.length) with
    | .error _ => .error .encryptFailed
    | .ok res => .ok res

def getBodySize (a : List UInt8) : Nat :=
  a[0]!.toNat <<< 16 ||| a[1]!.toNat <<< 8 ||| a[2]!.toNat

def decryptHeader (c : SecretState) (data : List UInt8) :
    SecretState × Except RlpxError (List UInt8) :=
  if data.length < RlpHeaderLength + RlpMacLength then (c, .error .incompleteError)
  else
    let headerCiphertext := data.take RlpHeaderLength
    let macsec := digest c.imac
    let c := { c with
      imac := update c.imac (sxor (encryptBlock c.macenc macsec) headerCiphertext) }
    if (data.drop RlpHeaderLength).take RlpMacLength ≠ digest c.imac then
      (c, .error .incorrectMac)
    else
      let (output, aesdec) := Crypto.decrypt c.aesdec headerCiphertext
      ({ c with aesdec }, .ok output)

/-- Decrypts the body into an output of the length `outputLen`. -/
def decryptBody (c : SecretState) (data : List UInt8) (bodysize outputLen : Nat) :
    SecretState × Except RlpxError (List UInt8) :=
  let rsize := roundup16 bodysize
  if data.length < rsize + RlpMacLength then (c, .error .incompleteError)
  else if outputLen < rsize then (c, .error .incorrectArgs)
  else
    let imac := update c.imac (data.take rsize)
    let seed := digest imac
    let c := { c with imac := update imac (sxor (encryptBlock c.macenc seed) seed) }
    if (data.drop rsize).take RlpMacLength ≠ digest c.imac then (c, .error .incorrectMac)
    else
      let (output, aesdec) := Crypto.decrypt c.aesdec (data.take rsize)
      ({ c with aesdec }, .ok output)

/-! ## Transport -/

inductive TransportError where
  /-- the stream ends before all bytes were read -/
  | incomplete
  /-- "Cannot decrypt RLPx frame header" -/
  | header
  /-- "Cannot decrypt message body" -/
  | body

def setLen (s : List UInt8) (n : Nat) : List UInt8 := (s ++ List.replicate n 0).take n

/-- The new state, what is left of the stream, and the message. -/
def recvMsg (state : SecretState) (stream : List UInt8) :
    SecretState × List UInt8 × Except TransportError (List UInt8) :=
  let headerLen := RlpHeaderLength + RlpMacLength
  if stream.length < headerLen then (state, stream, .error .incomplete)
  else
    match decryptHeader state (stream.take headerLen) with
    | (state, .error _) => (state, stream.drop headerLen, .error .header)
    | (state, .ok msgHeader) =>
      let stream := stream.drop headerLen
      let msgSize := getBodySize msgHeader
      let remainingBytes := encryptedLength msgSize - 32
      if stream.length < remainingBytes then (state, stream, .error .incomplete)
      else
        match decryptBody state (stream.take remainingBytes) msgSize (decryptedLength msgSize) with
        | (state, .error _) => (state, stream.drop remainingBytes, .error .body)
        | (state, .ok msgBody) =>
          -- remove padding
          (state, stream.drop remainingBytes, .ok (setLen msgBody msgSize))

/-- The bytes that `sendMsg` writes for one message after the other. -/
def sendMsgs (state : SecretState) : List (List UInt8) → Except Defect (List UInt8 × SecretState)
  | [] => .ok ([], state)
  | msg :: msgs =>
    match encryptMsg msg state with
    | .error e => .error e
    | .ok (cipherText, state) =>
      match sendMsgs state msgs with
      | .error e => .error e
      | .ok (rest, state) => .ok (cipherText ++ rest, state)

/-- `n` messages, received one after the other. -/
def recvMsgs (state : SecretState) (stream : List UInt8) :
    Nat → SecretState × List UInt8 × Except TransportError (List (List UInt8))
  | 0 => (state, stream, .ok [])
  | n + 1 =>
    match recvMsg state stream with
    | (state, stream, .error e) => (state, stream, .error e)
    | (state, stream, .ok msg) =>
      let (state, stream, msgs) := recvMsgs state stream n
      (state, stream, msgs.map (msg :: ·))

end

end Nimbus.Native.RlpxCrypt
