import Nimbus.Native.LogPacking

/-!
# Logs come back as they were packed

A buffer of logs is the number of logs, and for each log its address, topics and data with a
length in front of the latter two. Packing fills the buffer just up to its end. Unpacking stays
in step with it as long as each length fits its word: a longer one loses its high bits, and then
the log that is read differs from the one that was packed.
-/

namespace Nimbus.Spec.LogPacking

open Native.LogPacking
open Native.CodeBytes (Endianness)
open Native.Interpreter (Log)
open FlatBuffer

variable {cpuEndian : Endianness} {log : Log} {logs : List Log}

/-! ## Words -/

@[simp] theorem uint32Bytes_length (x : Nat) : (uint32Bytes cpuEndian x).length = 4 := by
  cases cpuEndian <;> simp [uint32Bytes]

theorem uint32OfBytes_uint32Bytes (x : Nat) :
    uint32OfBytes cpuEndian (uint32Bytes cpuEndian (x % 2 ^ 32)) = x % 2 ^ 32 := by
  have hword : fromBytesLE (toBytesLE 4 (x % 2 ^ 32)) = x % 2 ^ 32 := by
    rw [fromBytesLE_toBytesLE]
    omega
  cases cpuEndian with
  | littleEndian => exact hword
  | bigEndian =>
    exact hword

/-! ## Arrays and topics -/

theorem toArray_append {n : Nat} (v : Vector UInt8 n) (rest : List UInt8) :
    toArray n (v.toList ++ rest) = v := by
  ext i hi
  have hlen : i < v.toList.length := by rwa [Vector.length_toList]
  simp [toArray, List.getD_eq_getElem?_getD, List.getElem?_append_left hlen, hi]

theorem topicBytes_length (topics : List Native.Aristo.Hash32) :
    (topicBytes topics).length = topics.length * 32 := by
  induction topics with
  | nil => rfl
  | cons topic topics ih =>
    show (topic.toList ++ topicBytes topics).length = _
    rw [List.length_append, Vector.length_toList, List.length_cons]
    omega

theorem toTopics_length (n : Nat) (bytes : List UInt8) : (toTopics n bytes).length = n := by
  simp [toTopics]

theorem toTopics_topicBytes (topics : List Native.Aristo.Hash32) :
    toTopics topics.length (topicBytes topics) = topics := by
  induction topics with
  | nil => rfl
  | cons topic topics ih =>
    have hdrop (i : Nat) : (topic.toList ++ topicBytes topics).drop (32 * (i + 1)) =
        (topicBytes topics).drop (32 * i) := by
      rw [Nat.mul_succ, Nat.add_comm, ← List.drop_drop]
      simp
    show (List.range (topics.length + 1)).map
      (fun i => toArray 32 ((topic.toList ++ topicBytes topics).drop (32 * i))) = _
    rw [List.range_succ_eq_map, List.map_cons, List.map_map]
    refine congrArg₂ List.cons (toArray_append topic _) ?_
    calc (List.range topics.length).map
          ((fun i => toArray 32 ((topic.toList ++ topicBytes topics).drop (32 * i))) ∘ Nat.succ)
        = toTopics topics.length (topicBytes topics) :=
          List.map_congr_left fun i _ => congrArg (toArray 32) (hdrop i)
      _ = topics := ih

/-! ## Packing -/

/-- The length word and the part that it counts. -/
def counted (cpuEndian : Endianness) (n : Nat) (part : List UInt8) : List UInt8 :=
  uint32Bytes cpuEndian (n % 2 ^ 32) ++ part

def logBytes (cpuEndian : Endianness) (log : Log) : List UInt8 :=
  log.address.toList ++ (counted cpuEndian log.topics.length (topicBytes log.topics) ++
    counted cpuEndian log.data.length log.data)

theorem logBytes_length : (logBytes cpuEndian log).length =
    20 + 4 + log.topics.length * 32 + 4 + log.data.length := by
  simp only [logBytes, counted, List.length_append, Vector.length_toList, uint32Bytes_length,
    topicBytes_length]
  omega

theorem putLog_writes (log : Log) : Writes (putLog cpuEndian log) (logBytes cpuEndian log) := by
  have htopics : Writes (putUnlessEmpty log.topics.length (topicBytes log.topics))
      (topicBytes log.topics) :=
    Writes.putUnlessEmpty fun h => by rw [List.length_eq_zero_iff.mp h]; rfl
  have hdata := @Writes.putUnlessEmpty _ _ log.data List.length_eq_zero_iff.mp
  show Writes _ (_ ++ ((_ ++ _) ++ (_ ++ _)))
  rw [List.append_assoc]
  exact (Writes.put _).bind ((Writes.put _).bind (htopics.bind ((Writes.put _).bind hdata)))

theorem packedSize_eq (logs : List Log) :
    packedSize logs = 4 + (logs.flatMap (logBytes cpuEndian)).length := by
  have hfold : ∀ n, logs.foldl (fun size log => size +
      (20 + 4 + log.topics.length * 32 + 4 + log.data.length)) n =
        n + (logs.flatMap (logBytes cpuEndian)).length := by
    induction logs with
    | nil => exact fun n => rfl
    | cons log logs ih =>
      intro n
      rw [List.foldl_cons, ih, List.flatMap_cons, List.length_append, logBytes_length]
      omega
  exact hfold 4

/-- The buffer holds the number of logs and the logs, whatever it held before. -/
theorem packLogs_eq (fresh : (size : Nat) → Vector UInt8 size) (logs : List Log) :
    packLogs cpuEndian fresh logs =
      some (counted cpuEndian logs.length (logs.flatMap (logBytes cpuEndian))) := by
  have hwrites : Writes (putLogs cpuEndian logs)
      (counted cpuEndian logs.length (logs.flatMap (logBytes cpuEndian))) :=
    (Writes.put _).bind (Writes.forM putLog_writes)
  have hlen : (fresh (packedSize logs)).toList.length =
      (counted cpuEndian logs.length (logs.flatMap (logBytes cpuEndian))).length := by
    rw [Vector.length_toList, packedSize_eq, counted, List.length_append, uint32Bytes_length]
  unfold packLogs
  rw [hwrites.fill hlen]
  rfl

/-! ## Unpacking -/

/-- The lengths fit their words. -/
def Small (log : Log) : Prop := log.topics.length < 2 ^ 32 ∧ log.data.length < 2 ^ 32

section
variable {buf : List UInt8} {pos p : Nat}

theorem getLen_run {n : Nat} {part : List UInt8} (h : SliceAt buf pos (counted cpuEndian n part)) :
    (getLen cpuEndian buf).run pos = some (n % 2 ^ 32, pos + 4) := by
  refine bind_run.mpr ⟨_, _, get_run h.left (uint32Bytes_length _), ?_⟩
  rw [uint32OfBytes_uint32Bytes]
  rfl

theorem slice_part {n : Nat} {part : List UInt8} (h : SliceAt buf pos (counted cpuEndian n part)) :
    SliceAt buf (pos + 4) part := by
  have hpart := h.right
  rwa [uint32Bytes_length] at hpart

theorem getLog_run (h : SliceAt buf pos (logBytes cpuEndian log)) (hsmall : Small log) :
    (getLog cpuEndian buf).run pos = some (log, pos + (logBytes cpuEndian log).length) := by
  have htopics := h.right.left
  have hdata := h.right.right
  rw [Vector.length_toList] at htopics hdata
  rw [show (counted cpuEndian log.topics.length (topicBytes log.topics)).length =
    4 + log.topics.length * 32 by simp [counted, topicBytes_length], ← Nat.add_assoc] at hdata
  have hlen := getLen_run htopics
  have hlen' := getLen_run hdata
  rw [Nat.mod_eq_of_lt hsmall.1] at hlen
  rw [Nat.mod_eq_of_lt hsmall.2] at hlen'
  refine bind_run.mpr ⟨_, _, get_run h.left Vector.length_toList, ?_⟩
  refine bind_run.mpr ⟨_, _, hlen, ?_⟩
  refine bind_run.mpr ⟨_, _, getUnlessEmpty_run (slice_part htopics) (topicBytes_length _), ?_⟩
  refine bind_run.mpr ⟨_, _, hlen', ?_⟩
  refine bind_run.mpr ⟨_, _, getUnlessEmpty_run (slice_part hdata) rfl, ?_⟩
  have haddress := toArray_append log.address []
  rw [List.append_nil] at haddress
  rw [pure_run, toTopics_topicBytes, haddress, logBytes_length]
  exact ⟨rfl, by omega⟩

/-- A log that is read back has small lengths: a word can count no more. -/
theorem small_of_getLog (h : SliceAt buf pos (logBytes cpuEndian log))
    (hread : (getLog cpuEndian buf).run pos = some (log, p)) : Small log := by
  have htopics := h.right.left
  have hdata := h.right.right
  rw [Vector.length_toList] at htopics hdata
  obtain ⟨address, p₁, haddress, hread⟩ := bind_run.mp hread
  rw [get_run h.left Vector.length_toList] at haddress
  cases haddress
  obtain ⟨topicsLen, p₂, hlen, hread⟩ := bind_run.mp hread
  rw [getLen_run htopics] at hlen
  cases hlen
  obtain ⟨topics, p₃, hpart, hread⟩ := bind_run.mp hread
  obtain ⟨dataLen, p₄, hlen', hread⟩ := bind_run.mp hread
  obtain ⟨data, p₅, hpart', hread⟩ := bind_run.mp hread
  obtain ⟨heq, -⟩ := pure_run.mp hread
  have htopicsLen := congrArg (fun l : Log => l.topics.length) heq
  rw [show _ = log.topics.length % 2 ^ 32 from toTopics_length _ _] at htopicsLen
  have hsmall : log.topics.length < 2 ^ 32 := by omega
  -- the topics are in step, so the length of the data is read where it stands
  rw [Nat.mod_eq_of_lt hsmall, getUnlessEmpty_run (slice_part htopics) (topicBytes_length _)]
    at hpart
  cases hpart
  rw [show (counted cpuEndian log.topics.length (topicBytes log.topics)).length =
    4 + log.topics.length * 32 by simp [counted, topicBytes_length], ← Nat.add_assoc] at hdata
  rw [getLen_run hdata] at hlen'
  cases hlen'
  have hdataLen := getUnlessEmpty_length hpart'
  rw [show data = log.data from congrArg Log.data heq] at hdataLen
  exact ⟨hsmall, by omega⟩

/-- A sequence of logs is read where it stands just if all lengths are small. -/
theorem getLogs_run_iff (h : SliceAt buf pos (logs.flatMap (logBytes cpuEndian))) :
    (getLogs cpuEndian buf logs.length).run pos = some (logs, p) ↔
      (∀ log ∈ logs, Small log) ∧ p = pos + (logs.flatMap (logBytes cpuEndian)).length := by
  induction logs generalizing pos p with
  | nil =>
    show (pure [] : GetM (List Log)).run pos = some ([], p) ↔ _
    simp [eq_comm]
  | cons log logs ih =>
    have hrest := ih (p := p) h.right
    rw [List.forall_mem_cons, List.flatMap_cons, List.length_append, ← Nat.add_assoc]
    constructor
    · intro hread
      obtain ⟨first, p₁, hfirst, hread⟩ := bind_run.mp hread
      obtain ⟨others, p₂, hothers, hread⟩ := bind_run.mp hread
      obtain ⟨heq, rfl⟩ := pure_run.mp hread
      obtain ⟨rfl, rfl⟩ := List.cons.inj heq
      have hsmall := small_of_getLog h.left hfirst
      rw [getLog_run h.left hsmall] at hfirst
      cases hfirst
      obtain ⟨hall, hp⟩ := hrest.mp hothers
      exact ⟨⟨hsmall, hall⟩, hp⟩
    · rintro ⟨⟨hsmall, hall⟩, hp⟩
      refine bind_run.mpr ⟨_, _, getLog_run h.left hsmall, ?_⟩
      exact bind_run.mpr ⟨_, _, hrest.mpr ⟨hall, hp⟩, rfl⟩

theorem getLogs_length {n : Nat} {read : List Log}
    (h : (getLogs cpuEndian buf n).run pos = some (read, p)) : read.length = n := by
  induction n generalizing pos p read with
  | zero =>
    obtain ⟨rfl, -⟩ := pure_run.mp h
    rfl
  | succ n ih =>
    obtain ⟨first, p₁, -, h⟩ := bind_run.mp h
    obtain ⟨others, p₂, hothers, h⟩ := bind_run.mp h
    obtain ⟨rfl, -⟩ := pure_run.mp h
    rw [List.length_cons, ih hothers]

end

/-! ## Round trips -/

/-- Packing succeeds, and unpacking the buffer gives the logs back, in order, and ends at the end
of the buffer without reading past it. -/
def RoundTrips (cpuEndian : Endianness) (fresh : (size : Nat) → Vector UInt8 size)
    (logs : List Log) : Prop :=
  ∃ buf, packLogs cpuEndian fresh logs = some buf ∧
    unpackLogs cpuEndian buf = some (logs, buf.length)

theorem unpackLogs_eq_iff :
    unpackLogs cpuEndian (counted cpuEndian logs.length (logs.flatMap (logBytes cpuEndian))) =
        some (logs, (counted cpuEndian logs.length (logs.flatMap (logBytes cpuEndian))).length) ↔
      logs.length < 2 ^ 32 ∧ ∀ log ∈ logs, Small log := by
  generalize hbuf : counted cpuEndian logs.length (logs.flatMap (logBytes cpuEndian)) = buf
  have hslice : SliceAt buf 0 (counted cpuEndian logs.length
      (logs.flatMap (logBytes cpuEndian))) := ⟨[], [], by rw [hbuf]; simp, rfl⟩
  have hlogs := slice_part hslice
  have hend : 4 + (logs.flatMap (logBytes cpuEndian)).length = buf.length := by
    rw [← hbuf, counted, List.length_append, uint32Bytes_length]
  constructor
  · intro h
    obtain ⟨n, p, hlen, h⟩ := bind_run.mp h
    rw [getLen_run hslice] at hlen
    cases hlen
    have hcount := getLogs_length h
    rw [← hcount] at h
    exact ⟨by omega, ((getLogs_run_iff hlogs).mp h).1⟩
  · rintro ⟨hcount, hsmall⟩
    refine bind_run.mpr ⟨_, _, getLen_run hslice, ?_⟩
    rw [Nat.mod_eq_of_lt hcount]
    refine (getLogs_run_iff hlogs).mpr ⟨hsmall, ?_⟩
    omega

/-- Logs come back as they were packed, whatever the buffer held before, just if their number, the
number of topics of each and the length of the data of each fit a word of 32 bits. -/
theorem roundTrips_iff (cpuEndian : Endianness) (fresh : (size : Nat) → Vector UInt8 size)
    (logs : List Log) : RoundTrips cpuEndian fresh logs ↔
      logs.length < 2 ^ 32 ∧
        ∀ log ∈ logs, log.topics.length < 2 ^ 32 ∧ log.data.length < 2 ^ 32 := by
  unfold RoundTrips
  rw [packLogs_eq]
  simp only [Option.some.injEq, exists_eq_left', unpackLogs_eq_iff, Small]

/-- A log without topics, whose data has `2 ^ 32` bytes, on an address of zeros. -/
def longLog : Log := ⟨Vector.replicate 20 0, [], List.replicate (2 ^ 32) 0⟩

/-- Its length is packed as zero, so it does not come back. -/
theorem longLog_lost :
    ¬ RoundTrips .littleEndian (fun size => Vector.replicate size 0) [longLog] := by
  rintro ⟨buf, hpack, hunpack⟩
  rw [packLogs_eq] at hpack
  cases hpack
  have hsmall := (unpackLogs_eq_iff.mp hunpack).2 longLog List.mem_cons_self
  have hlen : longLog.data.length = 2 ^ 32 := List.length_replicate
  exact absurd hsmall.2 (by omega)

end Nimbus.Spec.LogPacking
