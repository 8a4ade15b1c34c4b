import Nimbus.ForStd.ExecM
import Nimbus.Native.RlpxCrypt
import Mathlib.Data.UInt

/-!
# Messages over an RLPx stream

Two ends are in step when the cipher and the sponge by which one sends are those by which
the other receives (`Paired`). A message whose length fits the size field of the header
keeps them in step and arrives as it is (`recv_sent`). The limit check of the sender is
wider than the size field, and it lets an empty message pass, which cannot be encrypted.
-/

namespace Nimbus.Spec.RlpxCrypt

open Nimbus.Native.RlpxCrypt
open Nimbus.Native.RlpxCrypt.Crypto

/-! ## The size field -/

theorem roundup16_ge (x : Nat) : x ≤ roundup16 x := by
  simp only [roundup16]
  split <;> omega

theorem toNat_byte (x : Nat) : (UInt8.ofNat (x &&& 0xFF)).toNat = x % 256 := by
  rw [UInt8.toNat_ofNat', show (0xFF : Nat) = 2 ^ 8 - 1 from rfl, Nat.and_two_pow_sub_one_eq_mod]
  omega

theorem getBodySize_frameHeader (len : Nat) : getBodySize (frameHeader len) = len % 2 ^ 24 := by
  show (UInt8.ofNat (len >>> 16 &&& 0xFF)).toNat <<< 16 |||
    (UInt8.ofNat (len >>> 8 &&& 0xFF)).toNat <<< 8 ||| (UInt8.ofNat (len &&& 0xFF)).toNat = _
  rw [toNat_byte, toNat_byte, toNat_byte, Nat.or_assoc,
    ← Nat.shiftLeft_add_eq_or_of_lt (show len % 256 < 2 ^ 8 by omega)]
  rw [← Nat.shiftLeft_add_eq_or_of_lt]
  · omega
  · omega

section
variable [Crypto]

theorem length_digest (mac : Sponge) : (digest mac).length = 16 := by
  simp [digest, RlpHeaderLength]

/-- Decryption inverts encryption at equal counters, byte for byte. -/
structure CtrOk : Prop where
  length : ∀ (s : Ctr) x, (Crypto.encrypt s x).1.length = x.length
  inverse : ∀ (s : Ctr) x, Crypto.decrypt s (Crypto.encrypt s x).1 = (x, (Crypto.encrypt s x).2)

/-- What one end sends the other one can receive. -/
structure Paired (sender receiver : SecretState) : Prop where
  aes : receiver.aesdec = sender.aesenc
  mac : receiver.imac = sender.emac
  macenc : receiver.macenc = sender.macenc

variable {sender sender' receiver : SecretState} {msg out : List UInt8}

/-! ## One message -/

/-- The parts of a frame. -/
structure Frame (sender sender' : SecretState) (msg out : List UInt8) where
  headerCiphertext : List UInt8
  frameCiphertext : List UInt8
  aesmid : Ctr
  emac₁ : Sponge
  emac₂ : Sponge
  header : Crypto.encrypt sender.aesenc (frameHeader msg.length) = (headerCiphertext, aesmid)
  frame : Crypto.encrypt aesmid (msg ++ List.replicate (roundup16 msg.length - msg.length) 0) =
    (frameCiphertext, sender'.aesenc)
  headerMac : emac₁ = update sender.emac
    (sxor (encryptBlock sender.macenc (digest sender.emac)) headerCiphertext)
  seed : emac₂ = update emac₁ frameCiphertext
  frameMac : sender'.emac =
    update emac₂ (sxor (encryptBlock sender.macenc (digest emac₂)) (digest emac₂))
  macenc : sender'.macenc = sender.macenc
  out : out = headerCiphertext ++ digest emac₁ ++ frameCiphertext ++ digest sender'.emac

theorem frame_of_encryptMsg (h : encryptMsg msg sender = .ok (out, sender')) :
    0 < msg.length ∧ Nonempty (Frame sender sender' msg out) := by
  unfold encryptMsg at h
  split at h
  · cases h
  split at h
  · cases h
  next res henc =>
  cases h
  unfold Native.RlpxCrypt.encrypt at henc
  dsimp only at henc
  split at henc
  · cases henc
  next hargs =>
  cases henc
  refine ⟨by omega, ⟨?_⟩⟩
  exact {
    headerCiphertext := _
    frameCiphertext := _
    aesmid := _
    emac₁ := _
    emac₂ := _
    header := rfl
    frame := rfl
    headerMac := rfl
    seed := rfl
    frameMac := rfl
    macenc := rfl
    out := rfl }

variable (sender) in
theorem encryptMsg_ok (hpos : 0 < msg.length) (hadmitted : ¬ maxUInt24 < UInt32.ofNat msg.length) :
    ∃ out sender', encryptMsg msg sender = .ok (out, sender') := by
  unfold encryptMsg Native.RlpxCrypt.encrypt
  rw [if_neg hadmitted]
  have hargs : ¬ ((frameHeader msg.length).length ≠ RlpHeaderLength ∨ msg.length = 0 ∨
      encryptedLength msg.length ≠ encryptedLength msg.length) := by
    have hheader : (frameHeader msg.length).length = RlpHeaderLength := rfl
    omega
  rw [if_neg hargs]
  exact ⟨_, _, rfl⟩

namespace Frame

variable (hctr : CtrOk) (f : Frame sender sender' msg out)
include hctr

theorem length_header : f.headerCiphertext.length = 16 := by
  have hlen := hctr.length sender.aesenc (frameHeader msg.length)
  rw [f.header] at hlen
  exact hlen

theorem length_frame : f.frameCiphertext.length = roundup16 msg.length := by
  have hlen := hctr.length f.aesmid
    (msg ++ List.replicate (roundup16 msg.length - msg.length) 0)
  rw [f.frame, List.length_append, List.length_replicate] at hlen
  exact hlen.trans (Nat.add_sub_of_le (roundup16_ge msg.length))

theorem decryptHeader (hpair : Paired sender receiver) :
    Native.RlpxCrypt.decryptHeader receiver (f.headerCiphertext ++ digest f.emac₁) =
      ({ receiver with imac := f.emac₁, aesdec := f.aesmid }, .ok (frameHeader msg.length)) := by
  have hlen := f.length_header hctr
  have htake : (f.headerCiphertext ++ digest f.emac₁).take RlpHeaderLength =
      f.headerCiphertext := by
    rw [RlpHeaderLength, ← hlen, List.take_left]
  have hmac : ((f.headerCiphertext ++ digest f.emac₁).drop RlpHeaderLength).take RlpMacLength =
      digest f.emac₁ := by
    rw [RlpHeaderLength, ← hlen, List.drop_left, RlpMacLength, ← length_digest f.emac₁,
      List.take_length]
  have himac : update receiver.imac (sxor (encryptBlock receiver.macenc (digest receiver.imac))
      f.headerCiphertext) = f.emac₁ := by
    rw [hpair.mac, hpair.macenc]
    exact f.headerMac.symm
  have hdec : Crypto.decrypt receiver.aesdec f.headerCiphertext =
      (frameHeader msg.length, f.aesmid) := by
    have hinv := hctr.inverse sender.aesenc (frameHeader msg.length)
    rw [f.header] at hinv
    rw [hpair.aes]
    exact hinv
  unfold Native.RlpxCrypt.decryptHeader
  rw [if_neg (by
    simp only [List.length_append, hlen, length_digest, RlpHeaderLength, RlpMacLength]
    omega)]
  simp only [htake, hmac, himac, hdec, ne_eq, not_true_eq_false, if_false]

theorem recvMsg_eq (hpair : Paired sender receiver) (rest : List UInt8) :
    recvMsg receiver (out ++ rest) =
      let state := { receiver with imac := f.emac₁, aesdec := f.aesmid }
      let stream := f.frameCiphertext ++ digest sender'.emac ++ rest
      let msgSize := msg.length % 2 ^ 24
      let remainingBytes := roundup16 msgSize + 16
      if stream.length < remainingBytes then (state, stream, .error .incomplete)
      else
        match decryptBody state (stream.take remainingBytes) msgSize (roundup16 msgSize) with
        | (state, .error _) => (state, stream.drop remainingBytes, .error .body)
        | (state, .ok msgBody) =>
          (state, stream.drop remainingBytes, .ok (setLen msgBody msgSize)) := by
  have hlen : (f.headerCiphertext ++ digest f.emac₁).length = 32 := by
    rw [List.length_append, f.length_header hctr, length_digest]
  have hsplit : out ++ rest =
      (f.headerCiphertext ++ digest f.emac₁) ++
        (f.frameCiphertext ++ digest sender'.emac ++ rest) := by
    conv_lhs => rw [f.out]
    simp only [List.append_assoc]
  have htake : (out ++ rest).take 32 = f.headerCiphertext ++ digest f.emac₁ := by
    rw [hsplit, ← hlen, List.take_left]
  have hdrop : (out ++ rest).drop 32 = f.frameCiphertext ++ digest sender'.emac ++ rest := by
    rw [hsplit, ← hlen, List.drop_left]
  have hremaining : encryptedLength (msg.length % 2 ^ 24) - 32 =
      roundup16 (msg.length % 2 ^ 24) + 16 := by
    simp only [encryptedLength, RlpHeaderLength, RlpMacLength]
    omega
  unfold recvMsg
  dsimp only [RlpHeaderLength, RlpMacLength]
  rw [if_neg (by rw [hsplit, List.length_append]; omega), htake, hdrop,
    f.decryptHeader hctr hpair]
  dsimp only
  rw [getBodySize_frameHeader, hremaining]
  rfl

end Frame

/-- The state of the receiver after the message. -/
def received (receiver sender' : SecretState) : SecretState :=
  { receiver with aesdec := sender'.aesenc, imac := sender'.emac }

theorem Paired.received (hpair : Paired sender receiver) (f : Frame sender sender' msg out) :
    Paired sender' (received receiver sender') where
  aes := rfl
  mac := rfl
  macenc := hpair.macenc.trans f.macenc.symm

theorem recv_sent (hctr : CtrOk) (hpair : Paired sender receiver)
    (f : Frame sender sender' msg out) (hlt : msg.length < 2 ^ 24) (rest : List UInt8) :
    recvMsg receiver (out ++ rest) = (received receiver sender', rest, .ok msg) := by
  have hlen := f.length_frame hctr
  have hdigest := length_digest sender'.emac
  have htake : (f.frameCiphertext ++ digest sender'.emac ++ rest).take
      (roundup16 msg.length + 16) = f.frameCiphertext ++ digest sender'.emac := by
    rw [← hlen, ← hdigest, ← List.length_append, List.take_left]
  have hdrop : (f.frameCiphertext ++ digest sender'.emac ++ rest).drop
      (roundup16 msg.length + 16) = rest := by
    rw [← hlen, ← hdigest, ← List.length_append, List.drop_left]
  have hbody : (f.frameCiphertext ++ digest sender'.emac).take (roundup16 msg.length) =
      f.frameCiphertext := by
    rw [← hlen, List.take_left]
  have hmac : ((f.frameCiphertext ++ digest sender'.emac).drop (roundup16 msg.length)).take 16 =
      digest sender'.emac := by
    rw [← hlen, List.drop_left, ← hdigest, List.take_length]
  have himac : update (update f.emac₁ f.frameCiphertext)
      (sxor (encryptBlock receiver.macenc (digest (update f.emac₁ f.frameCiphertext)))
        (digest (update f.emac₁ f.frameCiphertext))) = sender'.emac := by
    rw [← f.seed, hpair.macenc]
    exact f.frameMac.symm
  have hdec : Crypto.decrypt f.aesmid f.frameCiphertext =
      (msg ++ List.replicate (roundup16 msg.length - msg.length) 0, sender'.aesenc) := by
    have hinv := hctr.inverse f.aesmid
      (msg ++ List.replicate (roundup16 msg.length - msg.length) 0)
    rw [f.frame] at hinv
    exact hinv
  rw [f.recvMsg_eq hctr hpair, Nat.mod_eq_of_lt hlt]
  rw [if_neg (by simp only [List.length_append, hlen, hdigest]; omega), htake, hdrop]
  have hfull : ¬ (f.frameCiphertext ++ digest sender'.emac).length <
      roundup16 msg.length + RlpMacLength := by
    rw [List.length_append, RlpMacLength]
    omega
  unfold decryptBody
  simp only [if_neg hfull, Nat.lt_irrefl, if_false, hbody]
  rw [RlpMacLength, hmac]
  simp only [himac, hdec, ne_eq, not_true_eq_false, if_false]
  -- the padding is cut off again
  have hset : setLen (msg ++ List.replicate (roundup16 msg.length - msg.length) 0) msg.length =
      msg := by
    unfold setLen
    rw [List.append_assoc, List.take_left]
  rw [hset]
  rfl

omit [Crypto] in
theorem length_setLen (l : List UInt8) (n : Nat) : (setLen l n).length = n := by
  simp [setLen]

theorem recv_length (hctr : CtrOk) (hpair : Paired sender receiver)
    (f : Frame sender sender' msg out) {rest stream x : List UInt8} {state : SecretState}
    (h : recvMsg receiver (out ++ rest) = (state, stream, .ok x)) :
    x.length = msg.length % 2 ^ 24 := by
  rw [f.recvMsg_eq hctr hpair] at h
  dsimp only at h
  split at h
  · cases h
  split at h
  · cases h
  · cases h
    exact length_setLen _ _

/-! ## A stream of messages -/

/-- The messages are encrypted and arrive as they were sent, the stream is used up, and the
two ends are in step. -/
def Transfers (sender receiver : SecretState) (msgs : List (List UInt8)) : Prop :=
  ∃ out sender' receiver', sendMsgs sender msgs = .ok (out, sender') ∧
    recvMsgs receiver out msgs.length = (receiver', [], .ok msgs) ∧ Paired sender' receiver'

variable {msgs : List (List UInt8)}

theorem Transfers.cons (hctr : CtrOk) (hpair : Paired sender receiver)
    (henc : encryptMsg msg sender = .ok (out, sender'))
    (f : Frame sender sender' msg out) (hlt : msg.length < 2 ^ 24) :
    Transfers sender receiver (msg :: msgs) ↔
      Transfers sender' (received receiver sender') msgs := by
  constructor
  · intro ⟨all, sender₂, receiver₂, hsend, hrecv, hpair₂⟩
    simp only [sendMsgs, henc] at hsend
    cases hrest : sendMsgs sender' msgs with
    | error e =>
      rw [hrest] at hsend
      cases hsend
    | ok res =>
      rw [hrest] at hsend
      cases hsend
      simp only [List.length_cons, recvMsgs, recv_sent hctr hpair f hlt] at hrecv
      obtain ⟨hstate, hstream, hmsgs⟩ := by simpa only [Prod.mk.injEq] using hrecv
      refine ⟨res.1, res.2, receiver₂, hrest, ?_, hpair₂⟩
      obtain ⟨got, hres, hmsgs⟩ := except_bind_ok.mp hmsgs
      have hgot : got = msgs := by
        injection hmsgs with hmsgs
        exact (List.cons.inj hmsgs).2
      rw [← hgot, ← hres, ← hstate, ← hstream, hgot]
  · intro ⟨rest, sender₂, receiver₂, hsend, hrecv, hpair₂⟩
    refine ⟨out ++ rest, sender₂, receiver₂, ?_, ?_, hpair₂⟩
    · simp only [sendMsgs, henc, hsend]
    · simp only [List.length_cons, recvMsgs, recv_sent hctr hpair f hlt, hrecv]
      rfl

theorem Transfers.nil (hpair : Paired sender receiver) : Transfers sender receiver [] :=
  ⟨[], sender, receiver, rfl, rfl, hpair⟩

/-- The first message of a stream that arrives is not empty and fits the size field. -/
theorem Transfers.head (hctr : CtrOk) (hpair : Paired sender receiver)
    (h : Transfers sender receiver (msg :: msgs)) :
    0 < msg.length ∧ msg.length < 2 ^ 24 := by
  obtain ⟨all, sender₂, receiver₂, hsend, hrecv, -⟩ := h
  simp only [sendMsgs] at hsend
  split at hsend
  · cases hsend
  next out sender' henc =>
  obtain ⟨hpos, ⟨f⟩⟩ := frame_of_encryptMsg henc
  refine ⟨hpos, ?_⟩
  split at hsend
  · cases hsend
  next rest sender₃ _ =>
  cases hsend
  simp only [List.length_cons, recvMsgs] at hrecv
  cases hfirst : recvMsg receiver (out ++ rest) with
  | mk state res =>
    obtain ⟨stream, got⟩ := res
    rw [hfirst] at hrecv
    cases got with
    | error e => cases hrecv
    | ok x =>
      have hlen := recv_length hctr hpair f hfirst
      obtain ⟨-, -, hmsgs⟩ := by simpa only [Prod.mk.injEq] using hrecv
      -- what arrives is the message itself
      obtain ⟨later, hres, hmsgs⟩ := except_bind_ok.mp hmsgs
      injection hmsgs with hmsgs
      rw [(List.cons.inj hmsgs).1] at hlen
      omega

omit [Crypto] in
theorem not_sizeLimit (hlt : msg.length < 2 ^ 24) : ¬ maxUInt24 < UInt32.ofNat msg.length := by
  rw [UInt32.lt_iff_toNat_lt, UInt32.toNat_ofNat']
  have hmax : maxUInt24.toNat = 2 ^ 32 - 2 ^ 8 := by decide
  omega

theorem transfers_of_fits (hctr : CtrOk)
    (hfits : ∀ m ∈ msgs, 0 < m.length ∧ m.length < 2 ^ 24) (hpair : Paired sender receiver) :
    Transfers sender receiver msgs := by
  -- induction on the messages, the two ends are in step after each of them
  induction msgs generalizing sender receiver with
  | nil => exact .nil hpair
  | cons msg msgs ih =>
    obtain ⟨hpos, hlt⟩ := hfits msg List.mem_cons_self
    obtain ⟨out, sender', henc⟩ := encryptMsg_ok sender hpos (not_sizeLimit hlt)
    obtain ⟨-, ⟨f⟩⟩ := frame_of_encryptMsg henc
    rw [Transfers.cons hctr hpair henc f hlt]
    exact ih (fun m hm => hfits m (.tail _ hm)) (hpair.received f)

theorem fits_of_transfers (hctr : CtrOk)
    (hpair : Paired sender receiver) (h : Transfers sender receiver msgs) :
    ∀ m ∈ msgs, 0 < m.length ∧ m.length < 2 ^ 24 := by
  induction msgs generalizing sender receiver with
  | nil => exact fun m hm => nomatch hm
  | cons msg msgs ih =>
    have hhead := h.head hctr hpair
    obtain ⟨out, sender', henc⟩ :=
      encryptMsg_ok sender hhead.1 (not_sizeLimit hhead.2)
    obtain ⟨-, ⟨f⟩⟩ := frame_of_encryptMsg henc
    rw [Transfers.cons hctr hpair henc f hhead.2] at h
    intro m hm
    obtain rfl | hm := List.mem_cons.mp hm
    · exact hhead
    · exact ih (hpair.received f) h m hm

/-- The MAC that a header must have. -/
def expectedMac (state : SecretState) (stream : List UInt8) : List UInt8 :=
  digest (update state.imac
    (sxor (encryptBlock state.macenc (digest state.imac)) (stream.take 16)))

theorem recvMsg_wrongMac (state : SecretState) {stream : List UInt8}
    (hlen : 32 ≤ stream.length) (hmac : (stream.drop 16).take 16 ≠ expectedMac state stream) :
    ∃ state', recvMsg state stream = (state', stream.drop 32, .error .header) ∧
      state'.aesdec = state.aesdec := by
  have htake : (stream.take 32).take 16 = stream.take 16 := by
    rw [List.take_take]
    rfl
  have hdrop : ((stream.take 32).drop 16).take 16 = (stream.drop 16).take 16 := by
    rw [List.drop_take, List.take_take]
    rfl
  have hfull : ¬ (stream.take 32).length < 32 := by
    rw [List.length_take]
    omega
  unfold expectedMac at hmac
  unfold recvMsg Native.RlpxCrypt.decryptHeader
  simp only [RlpHeaderLength, RlpMacLength, Nat.reduceAdd, if_neg (Nat.not_lt.mpr hlen),
    if_neg hfull, htake, hdrop, if_pos hmac]
  exact ⟨_, rfl, rfl⟩

/-- The secrets of the two ends: what goes out of the first comes in at the second. -/
structure Mirrored (a b : ConnectionSecret) : Prop where
  aesKey : b.aesKey = a.aesKey
  macKey : b.macKey = a.macKey
  mac : b.ingressMac = a.egressMac

theorem Mirrored.paired {a b : ConnectionSecret} (h : Mirrored a b) :
    Paired (initSecretState a) (initSecretState b) where
  aes := congrArg initCtr h.aesKey
  mac := h.mac
  macenc := congrArg initEcb h.macKey

/-- Of the messages that pass the limit check, a stream carries those that are not empty
and fit the size field, and every header with a wrong MAC is refused undecrypted. -/
theorem stream_ok_iff (hctr : CtrOk) {a b : ConnectionSecret} (hab : Mirrored a b) :
    (∀ msgs : List (List UInt8), (∀ m ∈ msgs, ¬ maxUInt24 < UInt32.ofNat m.length) →
      ((∀ n, Transfers (initSecretState a) (initSecretState b) (msgs.take n)) ↔
        ∀ m ∈ msgs, 0 < m.length ∧ m.length < 2 ^ 24)) ∧
    ∀ (state : SecretState) (stream : List UInt8), 32 ≤ stream.length →
      (stream.drop 16).take 16 ≠ expectedMac state stream →
      ∃ state', recvMsg state stream = (state', stream.drop 32, .error .header) ∧
        state'.aesdec = state.aesdec := by
  refine ⟨fun msgs _ => ⟨fun h => ?_, fun hfits n => ?_⟩, recvMsg_wrongMac⟩
  · have hall := h msgs.length
    rw [List.take_length] at hall
    exact fits_of_transfers hctr hab.paired hall
  · exact transfers_of_fits hctr (fun m hm => hfits m (List.mem_of_mem_take hm)) hab.paired

end

/-! ## Messages that do not arrive -/

section Sample

/-- A stream cipher that adds the counter to every byte, and a sponge that keeps what it
takes up and has the sum of it for its digest. -/
@[reducible] def sampleCrypto : Crypto where
  Ctr := Nat
  initCtr _ := 0
  encrypt s x := (x.map (· ^^^ UInt8.ofNat s), s + x.length)
  decrypt s x := (x.map (· ^^^ UInt8.ofNat s), s + x.length)
  Ecb := Unit
  initEcb _ := ()
  encryptBlock _ x := x.reverse
  Sponge := List UInt8
  update mac x := mac ++ x
  finish mac := Vector.replicate 32 mac.sum

attribute [local instance] sampleCrypto

theorem sampleCrypto_ok : CtrOk where
  length s x := List.length_map _
  inverse (s : Nat) x := by
    show ((x.map (· ^^^ UInt8.ofNat s)).map (· ^^^ UInt8.ofNat s),
      s + (x.map (· ^^^ UInt8.ofNat s)).length) = (x, s + x.length)
    simp [Function.comp_def, UInt8.xor_assoc]

def sampleSecret : ConnectionSecret := ⟨[1], [2], [3], [4]⟩

def sampleSecret' : ConnectionSecret := ⟨[1], [2], [4], [3]⟩

theorem sampleSecret_mirrored : Mirrored sampleSecret sampleSecret' := ⟨rfl, rfl, rfl⟩

/-- Two short messages arrive. -/
theorem two_messages :
    Transfers (initSecretState sampleSecret) (initSecretState sampleSecret') [[5, 6, 7], [8]] :=
  ((stream_ok_iff sampleCrypto_ok sampleSecret_mirrored).1 [[5, 6, 7], [8]]
    (by decide)).mpr (by decide) 2

/-- The limit check lets an empty message and one of 16 MiB pass. The first stops the
program, the second does not arrive. -/
theorem admitted_messages_lost : (¬ maxUInt24 < UInt32.ofNat ([] : List UInt8).length ∧
      encryptMsg [] (initSecretState sampleSecret) = .error .encryptFailed) ∧
    (¬ maxUInt24 < UInt32.ofNat (List.replicate (2 ^ 24) (0 : UInt8)).length ∧
      ¬ Transfers (initSecretState sampleSecret) (initSecretState sampleSecret')
        [List.replicate (2 ^ 24) 0]) := by
  refine ⟨⟨by decide, rfl⟩, ?_, fun h => ?_⟩
  · rw [List.length_replicate]
    decide
  · have hlt := (h.head sampleCrypto_ok sampleSecret_mirrored.paired).2
    rw [List.length_replicate] at hlt
    exact absurd hlt (Nat.lt_irrefl _)

end Sample

end Nimbus.Spec.RlpxCrypt
