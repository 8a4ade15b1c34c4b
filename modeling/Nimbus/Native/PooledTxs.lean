import Nimbus.ForStd.ByteReader
import Nimbus.Native.Transaction

/-!
# Encoding of pooled transactions

Model of `core/pooled_txs_rlp.nim` and of `decodePooledTx` in `transaction.nim`. The packages
`eth/rlp` and `eth/common/transactions_rlp` are a parameter: how they find the element at the
position of a reader, and how they write and read the payload of a transaction. A reader is what
is left of its bytes; what is written is a list of bytes.
-/

namespace Nimbus.Native.PooledTxs

open Executor (TxType)
open ByteReader (forItems)

inductive RlpError where
  | RlpError (msg : String)
  | RlpTypeMismatch (msg : String)
  | UnsupportedRlpError (msg : String)
  | MalformedRlpError (msg : String)

abbrev ReadM (α : Type) := ByteReader RlpError α

class EthRlp where
  /-- The element at the position, and what is behind it. -/
  item : List UInt8 → Except RlpError (RlpItem × List UInt8)
  Transaction : Type
  txType : Transaction → TxType
  appendTxPayload : Transaction → List UInt8
  readTxType : ReadM TxType
  readTxLegacy : ReadM Transaction
  readTxPayload : TxType → ReadM Transaction

variable [EthRlp]

open EthRlp

abbrev FixedBytes (n : Nat) := { bytes : List UInt8 // bytes.length = n }

abbrev KzgBlob := FixedBytes 131072
abbrev KzgCommitment := FixedBytes 48
abbrev KzgProof := FixedBytes 48

inductive WrapperVersion where
  | WrapperVersionEIP4844
  | WrapperVersionEIP7594
  deriving DecidableEq

open WrapperVersion

structure BlobsBundle where
  wrapperVersion : WrapperVersion
  blobs : List KzgBlob
  commitments : List KzgCommitment
  proofs : List KzgProof

/-- The bundle is `nil` where there is none. -/
structure PooledTransaction where
  tx : Transaction
  blobsBundle : Option BlobsBundle

/-! ## Writing -/

def appendBytes (bytes : List UInt8) : List UInt8 := RlpItem.encode ⟨false, bytes⟩

def appendUint (n : Nat) : List UInt8 := appendBytes (Rlp.bigEndian n)

/-- `startList`, followed by the elements. -/
def appendList (elements : List (List UInt8)) : List UInt8 :=
  RlpItem.encode ⟨true, elements.flatten⟩

def appendArrays {n : Nat} (arrays : List (FixedBytes n)) : List UInt8 :=
  appendList (arrays.map fun array => appendBytes array.val)

/-- `append` of a bundle: the elements that it appends. -/
def appendBundle (blobsBundle : BlobsBundle) : List (List UInt8) :=
  (if blobsBundle.wrapperVersion = WrapperVersionEIP7594 then [appendUint 1] else []) ++
    [appendArrays blobsBundle.blobs, appendArrays blobsBundle.commitments,
      appendArrays blobsBundle.proofs]

def typeByte (txType : TxType) : UInt8 := UInt8.ofNat txType.ctorIdx

/-- `append` of a transaction. The list of a transaction with a bundle is started with as many
elements as are appended. -/
def append (tx : PooledTransaction) : List UInt8 :=
  (if txType tx.tx ≠ .TxLegacy then [typeByte (txType tx.tx)] else []) ++
    match tx.blobsBundle with
    | none => appendTxPayload tx.tx
    | some blobsBundle => appendList (appendTxPayload tx.tx :: appendBundle blobsBundle)

/-- `append` of a sequence of transactions. -/
def appendTxs (txs : List PooledTransaction) : List UInt8 :=
  appendList (txs.map fun tx =>
    if txType tx.tx = .TxLegacy then append tx else appendBytes (append tx))

/-! ## Reading -/

def isList : ReadM Bool := do
  match ← get with
  | [] => return false
  | b :: _ => return 192 ≤ b.toNat

def noList : RlpError := .RlpTypeMismatch "List expected, but source RLP is not a list"

/-- The reader stays where it is. -/
def listLen : ReadM Nat := do
  match (forItems item noList (pure ())).run (← get) with
  | .ok (elements, _) => return elements.length
  | .error e => throw e

def tryEnterList : ReadM Unit := do
  match item (← get) with
  | .ok (list, rest) => if list.isList then set (list.payload ++ rest) else throw noList
  | .error e => throw e

/-- `rlp.read(seq[byte])` -/
def readBytes : ReadM (List UInt8) := do
  match item (← get) with
  | .ok (string, rest) =>
    if string.isList then throw (.RlpTypeMismatch "Bytes expected, but source RLP is a list")
    else
      set rest
      return string.payload
  | .error e => throw e

/-- `rlp.read(uint)` -/
def readUint : ReadM Nat := do
  let bytes ← readBytes
  if bytes.head? = some 0 then throw (.MalformedRlpError "Number encoded with a leading zero")
  else if bytes.length > 8 then throw (.RlpTypeMismatch "Number too large")
  else return Rlp.ofBigEndian bytes

def readArray (n : Nat) : ReadM (FixedBytes n) := do
  let bytes ← readBytes
  if h : bytes.length = n then return ⟨bytes, h⟩
  else throw (.RlpTypeMismatch "Fixed-size array expected")

/-- `rlp.read` of the blobs, the commitments or the proofs. -/
def readArrays (n : Nat) : ReadM (List (FixedBytes n)) := forItems item noList (readArray n)

def readWrapperVersion (numFields : Nat) : ReadM WrapperVersion := do
  if numFields = 4 then return WrapperVersionEIP4844
  else
    let val ← readUint
    if val ≠ 1 then
      throw (.UnsupportedRlpError ("Wrapper version must be 1, got " ++ toString val))
    else return WrapperVersionEIP7594

/-- The part of `readTxTyped` that reads the bundle. -/
def readBundle (numFields : Nat) : ReadM BlobsBundle := do
  let wrapperVersion ← readWrapperVersion numFields
  let blobs ← readArrays 131072
  let commitments ← readArrays 48
  let proofs ← readArrays 48
  return { wrapperVersion, blobs, commitments, proofs }

def numFields (txType : TxType) : ReadM Nat :=
  if txType = .TxEip4844 then listLen else pure 1

def readTxTyped : ReadM PooledTransaction := do
  let txType ← readTxType
  let numFields ← numFields txType
  if numFields = 4 ∨ numFields = 5 then
    tryEnterList
    let tx ← readTxPayload txType
    let bundle ← readBundle numFields
    return { tx, blobsBundle := some bundle }
  else
    let tx ← readTxPayload txType
    return { tx, blobsBundle := none }

def readLegacy : ReadM PooledTransaction := do
  let tx ← readTxLegacy
  return { tx, blobsBundle := none }

/-- `read` of a transaction. -/
def read : ReadM PooledTransaction := do
  if ← isList then readLegacy else readTxTyped

/-- `rr.readTxTyped(tx)`, for the reader `rr` of the given bytes. -/
def readTypedFrom (bytes : List UInt8) : ReadM PooledTransaction :=
  match readTxTyped.run bytes with
  | .ok (tx, _) => pure tx
  | .error e => throw e

/-- The body of the loop over the elements of a list. -/
def readElement : ReadM PooledTransaction := do
  if ← isList then readLegacy
  else
    let bytes ← readBytes
    readTypedFrom bytes

/-- `read` of a sequence of transactions. -/
def readTxs : ReadM (List PooledTransaction) := do
  if ← isList then forItems item noList readElement
  else throw (.RlpTypeMismatch "PooledTransaction list expected, but source RLP is not a list")

def decodePooledTx (bytes : List UInt8) : Except RlpError PooledTransaction := do
  let (result, rest) ← read.run bytes
  if rest ≠ [] then throw (.RlpError "rlp: input contains more than one value")
  else return result

end Nimbus.Native.PooledTxs
