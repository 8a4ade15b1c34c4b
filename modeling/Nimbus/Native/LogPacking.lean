import Nimbus.ForStd.FlatBuffer
import Nimbus.Native.CodeBytes
import Nimbus.Native.Interpreter

/-!
# Logs in a flat buffer

Model of `packLogs` and `unpackLogs` of `core/executor/process_block_parallel.nim`, which hand the
logs of a transaction over between threads. Lengths are copied as words of 32 bits in the byte
order of the machine, which is a parameter, and so is what the buffer holds before it is written.
-/

namespace Nimbus.Native.LogPacking

open CodeBytes (Endianness)
open FlatBuffer
open Interpreter (Log)

/-- The memory of a `uint32`. -/
def uint32Bytes (cpuEndian : Endianness) (x : Nat) : List UInt8 :=
  match cpuEndian with
  | .littleEndian => toBytesLE 4 x
  | .bigEndian => (toBytesLE 4 x).reverse

def uint32OfBytes (cpuEndian : Endianness) (bytes : List UInt8) : Nat :=
  match cpuEndian with
  | .littleEndian => fromBytesLE bytes
  | .bigEndian => fromBytesLE bytes.reverse

section
variable (cpuEndian : Endianness)

/-! ## Packing -/

def putLen (v : Nat) : PutM UInt8 Unit :=
  -- `uint32(v)` keeps the low bits
  put (uint32Bytes cpuEndian (v % 2 ^ 32))

def topicBytes (topics : List Aristo.Hash32) : List UInt8 := topics.flatMap (·.toList)

/-- The body of the loop of `packLogs`. -/
def putLog (log : Log) : PutM UInt8 Unit := do
  put log.address.toList
  putLen cpuEndian log.topics.length
  putUnlessEmpty log.topics.length (topicBytes log.topics)
  putLen cpuEndian log.data.length
  putUnlessEmpty log.data.length log.data

/-- The size of the buffer. -/
def packedSize (logs : List Log) : Nat :=
  logs.foldl (fun size log => size + (20 + 4 + log.topics.length * 32 + 4 + log.data.length)) 4

/-- The number of logs, and the logs. -/
def putLogs (logs : List Log) : PutM UInt8 Unit := do
  putLen cpuEndian logs.length
  logs.forM (putLog cpuEndian)

/-- `packLogs`, on a new buffer that is not zeroed. -/
def packLogs (fresh : (size : Nat) → Vector UInt8 size) (logs : List Log) :
    Option (List UInt8) := do
  let (_, w) ← (putLogs cpuEndian logs).run ⟨(fresh (packedSize logs)).toList, 0⟩
  return w.packed

/-! ## Unpacking -/

variable (buf : List UInt8)

def getLen : GetM Nat := do
  let x ← get buf 4
  return uint32OfBytes cpuEndian x

/-- Copies bytes into an array. -/
def toArray (n : Nat) (bytes : List UInt8) : Vector UInt8 n := Vector.ofFn fun i => bytes.getD i 0

/-- Copies bytes into a sequence of topics. -/
def toTopics (topicsLen : Nat) (bytes : List UInt8) : List Aristo.Hash32 :=
  (List.range topicsLen).map fun i => toArray 32 (bytes.drop (32 * i))

/-- The body of the loop of `unpackLogs`. -/
def getLog : GetM Log := do
  let address ← get buf 20
  let topicsLen ← getLen cpuEndian buf
  let topics ← getUnlessEmpty buf (topicsLen * 32)
  let dataLen ← getLen cpuEndian buf
  let data ← getUnlessEmpty buf dataLen
  return { address := toArray 20 address, topics := toTopics topicsLen topics, data := data }

def getLogs : Nat → GetM (List Log)
  | 0 => pure []
  | n + 1 => do
    let log ← getLog cpuEndian buf
    let logs ← getLogs n
    return log :: logs

/-- `unpackLogs`, with the position that it ends at. -/
def unpackLogs : Option (List Log × Nat) :=
  (getLen cpuEndian buf >>= getLogs cpuEndian buf).run 0

end

end Nimbus.Native.LogPacking
