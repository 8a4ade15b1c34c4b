import Mathlib.Logic.Equiv.List
import Nimbus.Spec.EreIndex

/-!
# Round trip of history files

A file to which each component of each block of an era has been written once, in any order, is
opened again, and each getter returns what was written. Entries of the index that have not been
written hold what the memory held, so this depends on them.
-/

namespace Nimbus.Spec.Ere

open Nimbus.Native.Ere
open Nimbus.Native.ForkedChain (Hash32 Transaction Receipt)
open Nimbus.Native.PersistBlocks (Header)

variable {fmt : Formats} {p : Profile}

/-! ## What is written -/

/-- What there is to write about a block. -/
structure EraBlock where
  header : Header
  body : BlockBody
  receipts : List Receipt
  proof : Proof
  totalDifficulty : UInt256

namespace Profile

/-- The genesis block of a network that begins after the merge has no proof. -/
def Unproven (p : Profile) (n : Nat) : Prop := n = 0 ∧ p.mergeBlockNumber = 0

instance (n : Nat) : Decidable (p.Unproven n) := inferInstanceAs (Decidable (_ ∧ _))

/-- The components of a block. Total difficulties are those of the blocks before the merge. -/
def items (p : Profile) (n : Nat) (block : EraBlock) : List Item :=
  [.header block.header, .body block.body] ++
    ((if p.noReceipts then [] else [.receipts block.receipts]) ++
      ((if p.noProofs ∨ p.Unproven n then [] else [.proof block.proof]) ++
        (if n < p.mergeBlockNumber then [.totalDifficulty block.totalDifficulty] else [])))

/-- The numbers of the era. -/
def numbers (p : Profile) : List Nat := List.range' p.startNumber MaxEreSize

def writes (p : Profile) (blocks : Nat → EraBlock) : List Write :=
  p.numbers.flatMap fun n => (p.items n (blocks n)).map fun item => (n, item)

theorem mem_numbers {n : Nat} :
    n ∈ p.numbers ↔ p.startNumber ≤ n ∧ n < p.startNumber + MaxEreSize := by
  exact List.mem_range'_1

theorem mem_writes {blocks : Nat → EraBlock} {w : Write} :
    w ∈ p.writes blocks ↔ w.1 ∈ p.numbers ∧ w.2 ∈ p.items w.1 (blocks w.1) := by
  unfold writes
  rw [List.mem_flatMap]
  constructor
  · rintro ⟨n, hn, hmem⟩
    obtain ⟨item, hitem, rfl⟩ := List.mem_map.mp hmem
    exact ⟨hn, hitem⟩
  · rintro ⟨hn, hitem⟩
    exact ⟨w.1, hn, List.mem_map.mpr ⟨w.2, hitem, rfl⟩⟩

theorem has_of_mem_items {n : Nat} {block : EraBlock} {item : Item} (hn : p.startNumber ≤ n)
    (h : item ∈ p.items n block) : p.Has item := by
  rcases List.mem_append.mp h with h | h
  · rcases List.mem_pair.mp h with rfl | rfl
    · trivial
    · trivial
  rcases List.mem_append.mp h with h | h
  · split at h
    · exact absurd h List.not_mem_nil
    · next hreceipts =>
      rw [List.mem_singleton.mp h]
      exact Bool.eq_false_iff.mpr hreceipts
  rcases List.mem_append.mp h with h | h
  · split at h
    · exact absurd h List.not_mem_nil
    · next hproofs =>
      rw [List.mem_singleton.mp h]
      exact Bool.eq_false_iff.mpr fun hno => hproofs (.inl hno)
  · split at h
    · next hmerge =>
      rw [List.mem_singleton.mp h]
      exact Nat.lt_of_le_of_lt hn hmerge
    · exact absurd h List.not_mem_nil

theorem takes_of_mem {blocks : Nat → EraBlock} {w : Write} (h : w ∈ p.writes blocks) :
    p.Takes w := by
  obtain ⟨hn, hitem⟩ := mem_writes.mp h
  obtain ⟨hstart, hstop⟩ := mem_numbers.mp hn
  exact ⟨hstart, hstop, has_of_mem_items hstart hitem⟩

theorem items_length_le (n : Nat) (block : EraBlock) : (p.items n block).length ≤ 5 := by
  unfold items
  split <;> split <;> split <;> simp

theorem columns_nodup (n : Nat) (block : EraBlock) : ((p.items n block).map p.column).Nodup := by
  unfold items
  split <;> split <;> split <;> simp_all [column] <;> omega

theorem keys_nodup (blocks : Nat → EraBlock) : ((p.writes blocks).map p.key).Nodup := by
  unfold writes
  rw [List.map_flatMap, List.nodup_flatMap]
  constructor
  · intro n _
    have hinj : Function.Injective fun column : Nat => (n - p.startNumber, column) :=
      fun a b heq => congrArg Prod.snd heq
    have hcolumns := (columns_nodup (p := p) n (blocks n)).map hinj
    rw [List.map_map] at hcolumns ⊢
    exact hcolumns
  · -- the keys of different blocks differ in the row
    have hnodup : p.numbers.Nodup := List.nodup_range'
    apply hnodup.imp_of_mem
    intro n m hn hm hne key hkey hkey'
    obtain ⟨w, hw, rfl⟩ := List.mem_map.mp hkey
    obtain ⟨w', hw', heq⟩ := List.mem_map.mp hkey'
    obtain ⟨item, -, rfl⟩ := List.mem_map.mp hw
    obtain ⟨item', -, rfl⟩ := List.mem_map.mp hw'
    have hrow : m - p.startNumber = n - p.startNumber := congrArg Prod.fst heq
    obtain ⟨hn, -⟩ := mem_numbers.mp hn
    obtain ⟨hm, -⟩ := mem_numbers.mp hm
    omega

variable (fmt) in
def headerRecord (block : EraBlock) : HeaderRecord :=
  ⟨fmt.computeRlpHash block.header, block.totalDifficulty⟩

variable (fmt) in
/-- The records of the blocks before the merge. -/
def headerRecords (p : Profile) (blocks : Nat → EraBlock) : List HeaderRecord :=
  (p.numbers.filter (· < p.mergeBlockNumber)).map fun n => headerRecord fmt (blocks n)

variable (fmt) in
/-- The root that `finish` is given. -/
def accumulatorRoot (p : Profile) (blocks : Nat → EraBlock) : Option Digest :=
  if p.startNumber < p.mergeBlockNumber then
    some (fmt.hashTreeRoot (p.headerRecords fmt blocks))
  else none

end Profile

variable (memory : Nat → Nat → Int)

variable (fmt p) in
/-- `init`, `update` for each component, and `finish`. -/
def writeEra (ws : List Write) (root : Option Digest) : WriteM Unit := do
  let g ← initGroup fmt memory p.startNumber p.mergeBlockNumber p.noReceipts p.noProofs
  let g ← ws.foldlM (fun g w => w.2.update fmt g w.1) g
  finish fmt g root (p.startNumber + MaxEreSize - 1)

variable (p) in
def initIndex : DynamicBlockIndex where
  startNumber := p.startNumber
  indexesList := (List.range MaxEreSize).map fun i => (List.range p.count).map (memory i)
  componentCount := p.count
  noReceipts := p.noReceipts
  noProofs := p.noProofs

theorem initIndex_indexesList : (initIndex p memory).indexesList =
    (List.range MaxEreSize).map fun i => (List.range p.count).map (memory i) := by
  rw [initIndex]

theorem initIndex_shaped : Shaped p (initIndex p memory) where
  startNumber := rfl
  componentCount := rfl
  noReceipts := rfl
  noProofs := rfl
  length := by
    rw [initIndex_indexesList, List.length_map, List.length_range]
  columns := by
    intro indexes hmem
    rw [initIndex_indexesList, List.mem_map] at hmem
    obtain ⟨i, -, rfl⟩ := hmem
    rw [List.length_map, List.length_range]

theorem initIndex_entry {i column : Nat} (hi : i < MaxEreSize)
    (hcolumn : column < p.count) : entry (initIndex p memory) i column = some (memory i column) := by
  unfold entry
  rw [initIndex_indexesList]
  simp [hi, hcolumn]

theorem mem_flatten_entry {index : DynamicBlockIndex} (h : Shaped p index) {pos : Int}
    (hpos : pos ∈ index.indexesList.flatten) :
    ∃ i column, i < MaxEreSize ∧ column < p.count ∧ entry index i column = some pos := by
  obtain ⟨indexes, hrow, hmem⟩ := List.mem_flatten.mp hpos
  obtain ⟨i, hi, rfl⟩ := List.getElem_of_mem hrow
  obtain ⟨column, hcolumn, hget⟩ := List.getElem_of_mem hmem
  have hlength := h.columns _ hrow
  refine ⟨i, column, ?_, ?_, ?_⟩
  · rw [← h.length]
    exact hi
  · rw [← hlength]
    exact hcolumn
  · unfold entry
    rw [List.getElem?_eq_getElem hi]
    show (index.indexesList[i])[column]? = _
    rw [List.getElem?_eq_getElem hcolumn, hget]

variable (fmt p) in
/-- Entries that are never written hold positions among the records, as zeroed memory does. -/
def MemoryOk (ws : List Write) : Prop :=
  ∀ i < MaxEreSize, ∀ column < p.count, (∀ w ∈ ws, p.key w ≠ (i, column)) →
    0 ≤ memory i column ∧ memory i column ≤ (ws.flatMap fun w => w.2.record fmt).length

variable {memory : Nat → Nat → Int}

theorem Written.inFile {index : DynamicBlockIndex}
    {before : List UInt8} {ws : List Write} (h : Written fmt p (initIndex p memory) index
      (before ++ ws.flatMap fun w => w.2.record fmt) ws)
    (hmemory : MemoryOk fmt p memory ws) :
    InFile (before ++ ws.flatMap fun w => w.2.record fmt).length index := by
  intro pos hpos
  obtain ⟨i, column, hi, hcolumn, hentry⟩ := mem_flatten_entry h.shaped hpos
  by_cases hw : ∃ w ∈ ws, p.key w = (i, column)
  · obtain ⟨w, hmem, hkey⟩ := hw
    obtain ⟨at', hat, hslice⟩ := h.entries w hmem
    rw [hkey, hentry] at hat
    rw [Option.some.inj hat]
    have hle := hslice.le_length
    omega
  · have hno : ∀ w ∈ ws, p.key w ≠ (i, column) := fun w hmem heq => hw ⟨w, hmem, heq⟩
    have hsame := h.others i column hno
    rw [hentry, initIndex_entry memory hi hcolumn] at hsame
    obtain ⟨hlow, hhigh⟩ := hmemory i hi column hcolumn hno
    rw [Option.some.inj hsame, List.length_append]
    omega

/-! ## The bytes of a file -/

theorem record_length (hfmt : RoundTrip fmt) (typ : RecordType) (data : List UInt8) :
    (record fmt typ data).length = 8 + data.length := by
  unfold record
  rw [List.length_append, hfmt.header_length]

theorem records_length_le (hfmt : RoundTrip fmt) {ws : List Write}
    (hbytes : ∀ w ∈ ws, (w.2.bytes fmt).length < 2 ^ 32) :
    (ws.flatMap fun w => w.2.record fmt).length ≤ ws.length * 2 ^ 33 := by
  apply length_flatMap_le
  intro w hw
  have hdata := hbytes w hw
  have hrecord : (w.2.record fmt).length = 8 + (w.2.bytes fmt).length := record_length hfmt _ _
  omega

theorem writes_length_le (blocks : Nat → EraBlock) : (p.writes blocks).length ≤ MaxEreSize * 5 := by
  have hlength : p.numbers.length = MaxEreSize := by
    exact List.length_range'
  rw [← hlength]
  apply length_flatMap_le
  intro n _
  rw [List.length_map]
  exact Profile.items_length_le n (blocks n)

variable (fmt) in
/-- The record of the accumulator root. -/
def rootRecord (root : Option Digest) : List UInt8 :=
  match root with
  | none => []
  | some root => record fmt E2AccumulatorRoot root.toList

variable (fmt p) in
/-- The bytes of a file. -/
structure FileOf (index : DynamicBlockIndex) (ws : List Write) (root : Option Digest)
    (before content : List UInt8) : Prop where
  shaped : Shaped p index
  entries : ∀ w ∈ ws, ∃ pos : Nat, entry index (p.key w).1 (p.key w).2 = some (pos : Int) ∧
    SliceAt before pos (w.2.record fmt)
  inFile : InFile before.length index
  size : before.length < 2 ^ 62
  content_eq : content = (before ++ rootRecord fmt root) ++
    record fmt E2DynamicBlockIndex (indexData index (before ++ rootRecord fmt root).length)

variable {blocks : Nat → EraBlock} {ws : List Write} {root : Option Digest}

variable (root) in
theorem writeEra_spec (hfmt : RoundTrip fmt)
    (hperm : ws.Perm (p.writes blocks)) (hmemory : MemoryOk fmt p memory ws)
    (hbytes : ∀ w ∈ ws, (w.2.bytes fmt).length < 2 ^ 32) :
    ∃ index before content, writeEra fmt p memory ws root [] = .ok () content ∧
      FileOf fmt p index ws root before content := by
  have hinit : initGroup fmt memory p.startNumber p.mergeBlockNumber p.noReceipts p.noProofs [] =
      .ok ⟨initIndex p memory⟩ (fmt.store.header fmt.store.version 0) := by
    rfl
  have hstart : Written fmt p (initIndex p memory) (initIndex p memory)
      (fmt.store.header fmt.store.version 0) [] :=
    ⟨initIndex_shaped memory, fun w hw => absurd hw List.not_mem_nil, fun _ _ _ => rfl⟩
  have hnodup : (([] ++ ws).map p.key).Nodup :=
    (hperm.map p.key).nodup_iff.mpr (Profile.keys_nodup blocks)
  have htakes : ∀ w ∈ ws, p.Takes w := fun w hw => Profile.takes_of_mem (hperm.mem_iff.mp hw)
  obtain ⟨g, hrun, hwritten⟩ := writes_spec (g := ⟨initIndex p memory⟩) hstart htakes hnodup
  generalize hbefore : fmt.store.header fmt.store.version 0 ++
    ws.flatMap (fun w => w.2.record fmt) = before at hrun hwritten
  have hsize : before.length < 2 ^ 62 := by
    have hrecords := records_length_le hfmt hbytes
    have hcount := writes_length_le (p := p) blocks
    rw [← hperm.length_eq] at hcount
    unfold MaxEreSize at hcount
    rw [← hbefore, List.length_append, hfmt.header_length]
    omega
  have hfile : InFile before.length g.blockIndex := by
    rw [← hbefore] at hwritten ⊢
    exact hwritten.inFile hmemory
  have hroot : (rootRecord fmt root).length ≤ 40 := by
    cases root with
    | none => exact Nat.zero_le _
    | some root =>
      apply Nat.le_of_eq
      show (record fmt _ root.toList).length = 40
      rw [record_length hfmt, Vector.length_toList]
  have happend : appendAccumulatorRoot fmt root before =
      .ok () (before ++ rootRecord fmt root) := by
    cases root with
    | none =>
      rw [show rootRecord fmt none = [] from rfl, List.append_nil]
      rfl
    | some root =>
      unfold appendAccumulatorRoot
      dsimp only
      rw [bind_of_ok (appendRecord_eq _ _ _)]
      rfl
  have hfile' : InFile (before ++ rootRecord fmt root).length g.blockIndex := by
    intro pos hpos
    obtain ⟨hlow, hhigh⟩ := hfile pos hpos
    rw [List.length_append]
    omega
  have hindex := appendIndex_eq fmt hwritten.shaped hfile' (by
    rw [List.length_append]
    omega)
  refine ⟨g.blockIndex, before, _, ?_, hwritten.shaped, hwritten.entries, hfile, hsize, rfl⟩
  unfold writeEra
  rw [bind_of_ok hinit, bind_of_ok hrun]
  unfold finish
  rw [bind_of_ok happend, if_pos (by unfold MaxEreSize; omega), bind_of_ok hindex]
  rfl

/-! ## Opening a file -/

variable {index : DynamicBlockIndex} {before content : List UInt8}

namespace FileOf

theorem index_length (h : FileOf fmt p index ws root before content) (hfmt : RoundTrip fmt) :
    content.length =
      (before ++ rootRecord fmt root).length + (MaxEreSize * 8 * p.count + 32) := by
  rw [h.content_eq, List.length_append, record_length hfmt, h.shaped.indexData_length]
  have hmul : MaxEreSize * p.count * 8 = MaxEreSize * 8 * p.count := Nat.mul_right_comm _ _ _
  omega

theorem ends (h : FileOf fmt p index ws root before content) :
    ∃ start, content = start ++ (toBytesLE 8 p.count ++ toBytesLE 8 MaxEreSize) := by
  refine ⟨(before ++ rootRecord fmt root) ++ (fmt.store.header E2DynamicBlockIndex
    (indexData index (before ++ rootRecord fmt root).length).length ++
    (toBytesLE 8 index.startNumber ++
      offsets (before ++ rootRecord fmt root).length index.indexesList.flatten)), ?_⟩
  rw [h.content_eq, ← h.shaped.componentCount, ← h.shaped.length]
  simp only [record, indexData, List.append_assoc]

theorem root_length_le (_h : FileOf fmt p index ws root before content) (hfmt : RoundTrip fmt) :
    (rootRecord fmt root).length ≤ 40 := by
  cases root with
  | none => exact Nat.zero_le _
  | some root =>
    apply Nat.le_of_eq
    show (record fmt _ root.toList).length = 40
    rw [record_length hfmt, Vector.length_toList]

theorem pos_lt (h : FileOf fmt p index ws root before content) (hfmt : RoundTrip fmt) :
    (before ++ rootRecord fmt root).length < 2 ^ 62 + 40 := by
  have hsize := h.size
  have hroot := h.root_length_le hfmt
  rw [List.length_append]
  omega

theorem content_lt (h : FileOf fmt p index ws root before content) (hfmt : RoundTrip fmt) :
    content.length < 2 ^ 63 := by
  have hlength := h.index_length hfmt
  have hpos := h.pos_lt hfmt
  have hcount := p.count_le
  have hmul : MaxEreSize * 8 * p.count ≤ MaxEreSize * 8 * 5 := Nat.mul_le_mul_left _ hcount
  unfold MaxEreSize at hlength hmul
  omega

end FileOf

theorem setFilePos_eq {offset : Int} {mode : SeekPosition} {f : IoHandle} {pos : Nat}
    (h : offset + (match mode with
      | .seekBegin => (0 : Int)
      | .seekCurrent => f.pos
      | .seekEnd => f.content.length) = pos) :
    setFilePos offset mode f = .ok () ⟨f.content, pos⟩ := by
  have hseek : ∀ origin : Int, offset + origin = pos →
      (if offset + origin < 0 then throw (.error "setFilePos")
        else set { f with pos := (offset + origin).toNat } : ReadM Unit) f =
        .ok () ⟨f.content, pos⟩ := by
    intro origin horigin
    rw [horigin]
    rfl
  cases mode with
  | seekBegin => exact hseek _ h
  | seekCurrent => exact hseek _ h
  | seekEnd => exact hseek _ h

theorem readIndexCount_eq (hfmt : RoundTrip fmt) {n pos : Nat} (hn : n < 2 ^ 31)
    (h : SliceAt content pos (toBytesLE 8 n)) :
    readIndexCount fmt ⟨content, pos⟩ = .ok n ⟨content, pos + 8⟩ := by
  obtain ⟨rest, hrest⟩ := h.drop
  unfold readIndexCount
  have hget : (get : ReadM IoHandle) ⟨content, pos⟩ = .ok ⟨content, pos⟩ ⟨content, pos⟩ := rfl
  rw [bind_of_ok hget]
  rw [hrest, hfmt.readIndexCount n rest hn]
  rfl

theorem readRecord_eq (hfmt : RoundTrip fmt) {typ : RecordType} {data : List UInt8} {pos : Nat}
    (hdata : data.length < 2 ^ 32) (h : SliceAt content pos (record fmt typ data)) :
    readRecord fmt ⟨content, pos⟩ = .ok (typ, data) ⟨content, pos + 8 + data.length⟩ := by
  obtain ⟨rest, hrest⟩ := h.drop
  unfold readRecord
  have hget : (get : ReadM IoHandle) ⟨content, pos⟩ = .ok ⟨content, pos⟩ ⟨content, pos⟩ := rfl
  rw [bind_of_ok hget]
  rw [hrest, record, List.append_assoc, hfmt.readRecord typ data rest hdata]
  rfl

theorem findOffset_eq (hfmt : RoundTrip fmt) {count : Nat} {start : List UInt8}
    (hcount : count < 2 ^ 31)
    (h : content = start ++ (toBytesLE 8 count ++ toBytesLE 8 MaxEreSize)) :
    findDynamicBlockIndexStartOffset fmt ⟨content, content.length⟩ =
      .ok (-(MaxEreSize * 8 * count + 32)) ⟨content, content.length⟩ := by
  have hlength : content.length = start.length + 8 + 8 := by
    rw [h]
    simp only [List.length_append, toBytesLE_length]
  have hslice : SliceAt content start.length (toBytesLE 8 count ++ toBytesLE 8 MaxEreSize) :=
    ⟨start, [], by rw [List.append_nil, h], rfl⟩
  have hright := hslice.right
  rw [toBytesLE_length] at hright
  have hseek : setFilePos (-16) .seekCurrent ⟨content, content.length⟩ =
      .ok () ⟨content, start.length⟩ := by
    apply setFilePos_eq
    dsimp only
    omega
  unfold findDynamicBlockIndexStartOffset
  rw [bind_of_ok hseek, bind_of_ok (readIndexCount_eq hfmt hcount hslice.left),
    bind_of_ok (readIndexCount_eq hfmt (by decide) hright), hlength]
  have hfits : ¬ (2 ^ 63 ≤ MaxEreSize * 8 ∨ 2 ^ 63 ≤ MaxEreSize * 8 * count + 32) := by
    unfold MaxEreSize
    omega
  rw [if_neg hfits]
  rfl

theorem openEreFile_spec (h : FileOf fmt p index ws root before content) (hfmt : RoundTrip fmt)
    (hstart : p.startNumber < 2 ^ 64) (pos : Nat) :
    ∃ handle : IoHandle, handle.content = content ∧
      openEreFile fmt p.mergeBlockNumber p.noProofs p.noReceipts ⟨content, pos⟩ =
        if 2 ^ 31 - 1 < p.startNumber then .error (.error "fishy block number") handle
        else .ok ⟨DynamicBlockIndex.readBack index (before ++ rootRecord fmt root).length,
          p.mergeBlockNumber⟩ handle := by
  obtain ⟨start, hends⟩ := h.ends
  have hlength := h.index_length hfmt
  have hcount := p.count_le
  have hdata : (indexData index (before ++ rootRecord fmt root).length).length < 2 ^ 32 := by
    rw [h.shaped.indexData_length]
    have hmul : MaxEreSize * p.count ≤ MaxEreSize * 5 := Nat.mul_le_mul_left _ hcount
    unfold MaxEreSize at hmul ⊢
    omega
  have hslice : SliceAt content (before ++ rootRecord fmt root).length
      (record fmt E2DynamicBlockIndex
        (indexData index (before ++ rootRecord fmt root).length)) :=
    ⟨_, [], by rw [List.append_nil]; exact h.content_eq, rfl⟩
  have hend : setFilePos 0 .seekEnd ⟨content, pos⟩ = .ok () ⟨content, content.length⟩ := by
    apply setFilePos_eq
    dsimp only
    omega
  have hback : setFilePos (-(MaxEreSize * 8 * p.count + 32)) .seekCurrent
      ⟨content, content.length⟩ =
      .ok () ⟨content, (before ++ rootRecord fmt root).length⟩ := by
    apply setFilePos_eq
    have hcast := congrArg (Nat.cast : Nat → Int) hlength
    push_cast at hcast
    dsimp only
    omega
  have hfile : InFile content.length index := by
    intro i hi
    obtain ⟨hlow, hhigh⟩ := h.inFile i hi
    rw [List.length_append] at hlength
    omega
  have hdecode := decode_indexData h.shaped hfile
    (show (before ++ rootRecord fmt root).length ≤ content.length by omega)
    (h.content_lt hfmt) hstart
  refine ⟨⟨content, (before ++ rootRecord fmt root).length + 8 +
    (indexData index (before ++ rootRecord fmt root).length).length⟩, rfl, ?_⟩
  unfold openEreFile
  rw [bind_of_ok hend, bind_of_ok (findOffset_eq hfmt (by omega) hends), bind_of_ok hback]
  have hread : ∀ r, decodeDynamicBlockIndex
      (indexData index (before ++ rootRecord fmt root).length)
      (before ++ rootRecord fmt root).length content.length p.mergeBlockNumber p.noProofs
        p.noReceipts = r →
      readDynamicBlockIndex fmt p.mergeBlockNumber p.noProofs p.noReceipts
        ⟨content, (before ++ rootRecord fmt root).length⟩ =
        (Nimbus.Native.Ere.liftExcept r : ReadM DynamicBlockIndex) ⟨content,
          (before ++ rootRecord fmt root).length + 8 +
            (indexData index (before ++ rootRecord fmt root).length).length⟩ := by
    intro r hr
    unfold readDynamicBlockIndex
    have hget : (get : ReadM IoHandle) ⟨content, (before ++ rootRecord fmt root).length⟩ =
        .ok ⟨content, (before ++ rootRecord fmt root).length⟩
          ⟨content, (before ++ rootRecord fmt root).length⟩ := rfl
    rw [bind_of_ok hget, bind_of_ok (readRecord_eq hfmt hdata hslice)]
    rw [if_neg (not_not.mpr rfl), hr]
  have hread' := hread _ hdecode
  split
  · next hfishy =>
    rw [if_pos hfishy] at hread'
    exact bind_of_error hread'
  · next hsmall =>
    rw [if_neg hsmall] at hread'
    rw [bind_of_ok hread']
    have hrows : (DynamicBlockIndex.readBack index
        (before ++ rootRecord fmt root).length).indexesList.length = MaxEreSize := by
      unfold DynamicBlockIndex.readBack
      rw [List.length_map]
      exact h.shaped.length
    rw [if_neg (not_not.mpr hrows)]
    rfl

/-! ## Getters -/

/-- The reader returns this from every position of the file. -/
def Reads {α : Type} (content : List UInt8) (x : ReadM α) (a : α) : Prop :=
  ∀ pos, ∃ pos', x ⟨content, pos⟩ = .ok a ⟨content, pos'⟩

namespace Reads

variable {α γ : Type} {x : ReadM α} {a : α} {f : α → ReadM γ} {c : γ}

theorem pure (a : α) : Reads content (Pure.pure a) a := fun pos => ⟨pos, rfl⟩

theorem bind (hx : Reads content x a) (hf : Reads content (f a) c) : Reads content (x >>= f) c := by
  intro pos
  obtain ⟨pos₁, hrun⟩ := hx pos
  obtain ⟨pos₂, hrest⟩ := hf pos₁
  refine ⟨pos₂, ?_⟩
  rw [bind_of_ok hrun]
  exact hrest

theorem lift {r : Except String α} (h : r = .ok a) : Reads content (liftResult r) a := by
  rw [h]
  exact pure a

theorem skip {check : Bool} {task : ReadM Unit} (h : check = false) :
    Reads content (onlyIf check task) () := by
  rw [h]
  exact pure ()

end Reads

variable (fmt p) in
/-- The index of the opened file has the position of each component. -/
structure Opened (content : List UInt8) (f : EreFile) (ws : List Write) : Prop where
  shaped : Shaped p f.blockIdx
  mergeBlockNumber : f.mergeBlockNumber = p.mergeBlockNumber
  entries : ∀ w ∈ ws, ∃ pos : Nat, entry f.blockIdx (p.key w).1 (p.key w).2 = some (pos : Int) ∧
    SliceAt content pos (w.2.record fmt)

theorem entry_readBack (index : DynamicBlockIndex) (pos i column : Nat) :
    entry (DynamicBlockIndex.readBack index pos) i column =
      (entry index i column).map (readBack pos) := by
  unfold entry DynamicBlockIndex.readBack
  rw [List.getElem?_map]
  cases index.indexesList[i]? with
  | none => rfl
  | some indexes => exact List.getElem?_map

theorem FileOf.opened (h : FileOf fmt p index ws root before content) (hfmt : RoundTrip fmt) :
    Opened fmt p content ⟨DynamicBlockIndex.readBack index
      (before ++ rootRecord fmt root).length, p.mergeBlockNumber⟩ ws where
  shaped := by
    refine ⟨h.shaped.startNumber, h.shaped.componentCount, h.shaped.noReceipts,
      h.shaped.noProofs, ?_, ?_⟩
    · unfold DynamicBlockIndex.readBack
      rw [List.length_map]
      exact h.shaped.length
    · intro indexes hmem
      obtain ⟨old, hold, rfl⟩ := List.mem_map.mp hmem
      rw [List.length_map]
      exact h.shaped.columns old hold
  mergeBlockNumber := rfl
  entries := by
    intro w hw
    obtain ⟨pos, hentry, hslice⟩ := h.entries w hw
    have hle := hslice.le_length
    have hrecord : (w.2.record fmt).length = 8 + (w.2.bytes fmt).length := record_length hfmt _ _
    refine ⟨pos, ?_, ?_⟩
    · -- a record is before the index
      rw [entry_readBack, hentry]
      show some (readBack _ _) = _
      rw [readBack, if_neg]
      rw [List.length_append]
      omega
    · rw [h.content_eq, List.append_assoc]
      exact hslice.append _

theorem decodeTotalDifficulty_toBytesLE (td : UInt256) :
    decodeTotalDifficulty (toBytesLE 32 td.toNat) = .ok td := by
  unfold decodeTotalDifficulty
  rw [toBytesLE_length, if_neg (not_not.mpr rfl), fromBytesLE_toBytesLE]
  have hpow : 256 ^ 32 = 2 ^ 256 := by decide
  rw [hpow, Nat.mod_eq_of_lt td.isLt, BitVec.ofNat_toNat, BitVec.setWidth_eq]

section Getters

variable {f : EreFile} (hfmt : RoundTrip fmt) (h : Opened fmt p content f (p.writes blocks))
  (hbytes : ∀ w ∈ p.writes blocks, (w.2.bytes fmt).length < 2 ^ 32)
include hfmt h hbytes

theorem getAt_reads {α : Type} {n : Nat} (item : Item) {what : String}
    {decode : List UInt8 → Except String α} {a : α} (hmem : (n, item) ∈ p.writes blocks)
    (hdecode : decode (item.bytes fmt) = .ok a) :
    Reads content (getAt f n item.type (getNext fmt item.type what decode)) a := by
  intro pos
  obtain ⟨hstart, hstop, hhas⟩ := Profile.takes_of_mem hmem
  obtain ⟨at', hentry, hslice⟩ := h.entries _ hmem
  have hseek : setFilePos at' .seekBegin ⟨content, pos⟩ = .ok () ⟨content, at'⟩ :=
    setFilePos_eq (by dsimp only; omega)
  have hread := readRecord_eq hfmt (hbytes _ hmem) hslice
  refine ⟨at' + 8 + (item.bytes fmt).length, ?_⟩
  have hrange : ¬ (n < f.blockIdx.startNumber ∨ f.blockIdx.endNumber < n) := by
    unfold DynamicBlockIndex.endNumber
    rw [h.shaped.startNumber, h.shaped.length]
    omega
  have hcol : (Nimbus.Native.Ere.liftExcept (getIndexesPos f.blockIdx item.type) : ReadM Nat)
      ⟨content, pos⟩ = .ok (p.column item) ⟨content, pos⟩ := by
    rw [h.shaped.getIndexesPos hhas]
    rfl
  unfold getAt
  rw [if_neg hrange, bind_of_ok hcol, h.shaped.startNumber]
  have hentry' : ((f.blockIdx.indexesList[n - p.startNumber]?).bind (·[p.column item]?)) =
      some (at' : Int) := hentry
  rw [hentry']
  dsimp only
  rw [bind_of_ok hseek]
  unfold getNext
  rw [bind_of_ok hread]
  rw [if_neg (not_not.mpr rfl), hdecode]
  rfl

section

variable {n : Nat} (hn : n ∈ p.numbers)
include hn

theorem getBlockHeader_reads : Reads content (getBlockHeader fmt f n) (blocks n).header :=
  getAt_reads hfmt h hbytes (.header (blocks n).header)
    (Profile.mem_writes.mpr ⟨hn, List.mem_append_left _ List.mem_cons_self⟩) (hfmt.headers _)

theorem getBlockBody_reads : Reads content (getBlockBody fmt f n) (blocks n).body :=
  getAt_reads hfmt h hbytes (.body (blocks n).body)
    (Profile.mem_writes.mpr ⟨hn, List.mem_append_left _
      (.tail _ List.mem_cons_self)⟩) (hfmt.bodies _)

theorem getEthBlock_reads :
    Reads content (getEthBlock fmt f n) ⟨(blocks n).header, (blocks n).body.transactions,
      (blocks n).body.uncles, (blocks n).body.withdrawals⟩ :=
  (getBlockHeader_reads hfmt h hbytes hn).bind
    ((getBlockBody_reads hfmt h hbytes hn).bind (Reads.pure _))

theorem getReceipts_reads (hreceipts : p.noReceipts = false) :
    Reads content (getReceipts fmt f n) (blocks n).receipts := by
  apply getAt_reads hfmt h hbytes (.receipts (blocks n).receipts) _ (hfmt.receipts _)
  refine Profile.mem_writes.mpr ⟨hn, List.mem_append_right _ (List.mem_append_left _ ?_)⟩
  rw [hreceipts]
  exact List.mem_cons_self

theorem getProof_reads (hproofs : p.noProofs = false)
    (hproven : ¬ p.Unproven n) : Reads content (getProof fmt f n) (blocks n).proof := by
  apply getAt_reads hfmt h hbytes (.proof (blocks n).proof) _ (hfmt.proofs _)
  refine Profile.mem_writes.mpr ⟨hn, List.mem_append_right _ (List.mem_append_right _
    (List.mem_append_left _ ?_))⟩
  rw [if_neg]
  · exact List.mem_cons_self
  · rintro (hno | hunproven)
    · rw [hproofs] at hno
      cases hno
    · exact hproven hunproven

theorem getTotalDifficulty_reads (hmerge : n < p.mergeBlockNumber) :
    Reads content (getTotalDifficulty fmt f n) (blocks n).totalDifficulty := by
  apply getAt_reads hfmt h hbytes (.totalDifficulty (blocks n).totalDifficulty) _
    (decodeTotalDifficulty_toBytesLE _)
  refine Profile.mem_writes.mpr ⟨hn, List.mem_append_right _ (List.mem_append_right _
    (List.mem_append_right _ ?_))⟩
  rw [if_pos hmerge]
  exact List.mem_cons_self

end

/-! ## The readers of an era -/

variable (fmt p) in
/-- The blocks of an era are valid. -/
structure Valid (v : HeaderVerifier) (blocks : Nat → EraBlock) : Prop where
  transactions : ∀ n ∈ p.numbers,
    (blocks n).header.txRoot = fmt.calcTxRoot (blocks n).body.transactions
  uncles : ∀ n ∈ p.numbers, (blocks n).header.ommersHash = fmt.unclesHash (blocks n).body.uncles
  receipts : p.noReceipts = false → ∀ n ∈ p.numbers,
    (blocks n).header.receiptsRoot = fmt.calcReceiptsRoot (blocks n).receipts
  proofs : p.noProofs = false → ∀ n ∈ p.numbers, ¬ p.Unproven n →
    verifyProof fmt v (blocks n).proof (blocks n).header = .ok ()
  genesis : ∀ n ∈ p.numbers, p.Unproven n →
    v.genesisBlockHash = some (fmt.computeRlpHash (blocks n).header)

variable {v : HeaderVerifier}

section

variable (hvalid : Valid fmt p v blocks)
include hvalid

section

variable {n : Nat} (hn : n ∈ p.numbers)
include hn

theorem verifyReceipts_reads (hreceipts : p.noReceipts = false) :
    Reads content (verifyReceipts fmt f n (blocks n).header) () := by
  apply (getReceipts_reads hfmt h hbytes hn hreceipts).bind
  rw [if_neg (not_not.mpr (hvalid.receipts hreceipts n hn))]
  exact Reads.pure _

theorem verifyProofs_reads : Reads content (verifyProofs fmt f v n (blocks n).header) () := by
  unfold verifyProofs
  rw [h.mergeBlockNumber, h.shaped.noProofs]
  split
  · next hunproven =>
    apply Reads.lift
    unfold verifyGenesis
    rw [hvalid.genesis n hn hunproven]
    exact if_neg (not_not.mpr rfl)
  · next hproven =>
    split
    · next hproofs =>
      rw [Bool.not_eq_true'] at hproofs
      exact (getProof_reads hfmt h hbytes hn hproofs hproven).bind
        (Reads.lift (hvalid.proofs hproofs n hn hproven))
    · exact Reads.pure _

theorem verifyBlock_reads (records : List HeaderRecord) :
    Reads content (verifyBlock fmt f v records n)
      (records ++ (if n < p.mergeBlockNumber then [Profile.headerRecord fmt (blocks n)] else [])) := by
  apply (getBlockHeader_reads hfmt h hbytes hn).bind
  apply (getBlockBody_reads hfmt h hbytes hn).bind
  apply (Reads.skip (by simpa using hvalid.transactions n hn)).bind
  apply (Reads.skip (by simpa using hvalid.uncles n hn)).bind
  have hreceipts : Reads content
      (onlyIf (!f.blockIdx.noReceipts) (verifyReceipts fmt f n (blocks n).header)) () := by
    rw [h.shaped.noReceipts]
    cases hflag : p.noReceipts with
    | true => exact Reads.pure ()
    | false => exact verifyReceipts_reads hfmt h hbytes hvalid hn hflag
  apply hreceipts.bind
  apply (verifyProofs_reads hfmt h hbytes hvalid hn).bind
  rw [h.mergeBlockNumber]
  split
  · next hmerge => exact (getTotalDifficulty_reads hfmt h hbytes hn hmerge).bind (Reads.pure _)
  · rw [List.append_nil]
    exact Reads.pure _

end

theorem verifyBlocks_reads {ns : List Nat}
    (hns : ∀ n ∈ ns, n ∈ p.numbers) (records : List HeaderRecord) :
    Reads content (ns.foldlM (verifyBlock fmt f v) records)
      (records ++ (ns.filter (· < p.mergeBlockNumber)).map fun n =>
        Profile.headerRecord fmt (blocks n)) := by
  induction ns generalizing records with
  | nil =>
    rw [List.filter_nil, List.map_nil, List.append_nil]
    exact Reads.pure _
  | cons n ns ih =>
    apply (verifyBlock_reads hfmt h hbytes hvalid (hns n List.mem_cons_self) records).bind
    have hrest := ih (fun m hm => hns m (.tail _ hm))
      (records ++ (if n < p.mergeBlockNumber then [Profile.headerRecord fmt (blocks n)] else []))
    rw [List.filter_cons]
    by_cases hmerge : n < p.mergeBlockNumber
    · simp only [hmerge, if_true, decide_true, List.map_cons, List.append_assoc,
        List.cons_append, List.nil_append] at hrest ⊢
      exact hrest
    · simp only [hmerge, if_false, decide_false, Bool.false_eq_true, List.append_nil] at hrest ⊢
      exact hrest

end

theorem headerRecordOf_reads {n : Nat} (hn : n ∈ p.numbers) (hmerge : n < p.mergeBlockNumber) :
    Reads content (headerRecordOf fmt f n) (Profile.headerRecord fmt (blocks n)) :=
  (getBlockHeader_reads hfmt h hbytes hn).bind
    ((getTotalDifficulty_reads hfmt h hbytes hn hmerge).bind (Reads.pure _))

theorem buildAccumulator_reads {ns : List Nat} (hns : ∀ n ∈ ns, n ∈ p.numbers)
    (hmerge : ∀ n ∈ ns, n < p.mergeBlockNumber) :
    Reads content (ns.mapM (headerRecordOf fmt f))
      (ns.map fun n => Profile.headerRecord fmt (blocks n)) := by
  induction ns with
  | nil => exact Reads.pure _
  | cons n ns ih =>
    rw [List.mapM_cons]
    apply (headerRecordOf_reads hfmt h hbytes (hns n List.mem_cons_self)
      (hmerge n List.mem_cons_self)).bind
    exact (ih (fun m hm => hns m (.tail _ hm))
      fun m hm => hmerge m (.tail _ hm)).bind (Reads.pure _)

end Getters

theorem blockNumbers_eq {f : EreFile} (h : Opened fmt p content f ws) :
    f.blockNumbers = p.numbers := by
  unfold EreFile.blockNumbers DynamicBlockIndex.endNumber Profile.numbers
  rw [h.shaped.startNumber, h.shaped.length]
  congr 1
  have hpos : 0 < MaxEreSize := by decide
  omega

theorem getAccumulatorRoot_reads {root : Digest}
    (h : FileOf fmt p index ws (some root) before content) (hfmt : RoundTrip fmt) :
    Reads content (getAccumulatorRoot fmt) root := by
  intro pos
  obtain ⟨start, hends⟩ := h.ends
  have hlength := h.index_length hfmt
  have hcount := p.count_le
  have hroot : (rootRecord fmt (some root)).length = 40 := by
    show (record fmt _ root.toList).length = 40
    rw [record_length hfmt, Vector.length_toList]
  have hslice : SliceAt content before.length (record fmt E2AccumulatorRoot root.toList) := by
    refine ⟨before, record fmt E2DynamicBlockIndex
      (indexData index (before ++ rootRecord fmt (some root)).length), ?_, rfl⟩
    rw [← List.append_assoc]
    exact h.content_eq
  have hend : setFilePos 0 .seekEnd ⟨content, pos⟩ = .ok () ⟨content, content.length⟩ := by
    apply setFilePos_eq
    dsimp only
    omega
  have hback : setFilePos (-(MaxEreSize * 8 * p.count + 32) - 40) .seekCurrent
      ⟨content, content.length⟩ = .ok () ⟨content, before.length⟩ := by
    apply setFilePos_eq
    rw [List.length_append] at hlength
    have hcast := congrArg (Nat.cast : Nat → Int) hlength
    push_cast at hcast
    dsimp only
    omega
  have hread := readRecord_eq hfmt (show root.toList.length < 2 ^ 32 by
    rw [Vector.length_toList]
    decide) hslice
  refine ⟨before.length + 8 + root.toList.length, ?_⟩
  unfold getAccumulatorRoot
  rw [bind_of_ok hend, bind_of_ok (findOffset_eq hfmt (by omega) hends), bind_of_ok hback,
    bind_of_ok hread]
  rw [dif_pos (Vector.length_toList)]
  rfl

theorem verify_reads (h : FileOf fmt p index ws (p.accumulatorRoot fmt blocks) before content)
    (hfmt : RoundTrip fmt) {v : HeaderVerifier} {f : EreFile}
    (hopened : Opened fmt p content f (p.writes blocks))
    (hbytes : ∀ w ∈ p.writes blocks, (w.2.bytes fmt).length < 2 ^ 32)
    (hvalid : Valid fmt p v blocks) :
    Reads content (verify fmt f v) (p.accumulatorRoot fmt blocks) := by
  unfold verify
  rw [blockNumbers_eq hopened]
  apply (verifyBlocks_reads hfmt hopened hbytes hvalid (fun n hn => hn) []).bind
  rw [List.nil_append, hopened.shaped.startNumber, hopened.mergeBlockNumber]
  unfold Profile.accumulatorRoot at h ⊢
  split
  · next hmerge =>
    rw [if_pos hmerge] at h
    apply (getAccumulatorRoot_reads h hfmt).bind
    unfold Profile.headerRecords
    rw [if_neg (not_not.mpr rfl)]
    exact Reads.pure _
  · exact Reads.pure _

/-! ## The round trip -/

variable (fmt p) in
/-- What a file gives back, from every position of the handle. -/
structure GivesBack (content : List UInt8) (f : EreFile) (v : HeaderVerifier)
    (blocks : Nat → EraBlock) : Prop where
  headers : ∀ n ∈ p.numbers, Reads content (getBlockHeader fmt f n) (blocks n).header
  bodies : ∀ n ∈ p.numbers, Reads content (getBlockBody fmt f n) (blocks n).body
  ethBlocks : ∀ n ∈ p.numbers, Reads content (getEthBlock fmt f n) ⟨(blocks n).header,
    (blocks n).body.transactions, (blocks n).body.uncles, (blocks n).body.withdrawals⟩
  receipts : p.noReceipts = false → ∀ n ∈ p.numbers,
    Reads content (getReceipts fmt f n) (blocks n).receipts
  proofs : p.noProofs = false → ∀ n ∈ p.numbers, ¬ p.Unproven n →
    Reads content (getProof fmt f n) (blocks n).proof
  totalDifficulties : ∀ n ∈ p.numbers, n < p.mergeBlockNumber →
    Reads content (getTotalDifficulty fmt f n) (blocks n).totalDifficulty
  verified : Valid fmt p v blocks → Reads content (verify fmt f v) (p.accumulatorRoot fmt blocks)
  accumulator : p.startNumber + MaxEreSize ≤ p.mergeBlockNumber →
    ∃ records, Reads content (buildAccumulator fmt f) records ∧
      p.accumulatorRoot fmt blocks = some (fmt.hashTreeRoot records)

theorem givesBack (h : FileOf fmt p index ws (p.accumulatorRoot fmt blocks) before content)
    (hfmt : RoundTrip fmt) {f : EreFile} (hopened : Opened fmt p content f (p.writes blocks))
    (hbytes : ∀ w ∈ p.writes blocks, (w.2.bytes fmt).length < 2 ^ 32) (v : HeaderVerifier) :
    GivesBack fmt p content f v blocks where
  headers _ hn := getBlockHeader_reads hfmt hopened hbytes hn
  bodies _ hn := getBlockBody_reads hfmt hopened hbytes hn
  ethBlocks _ hn := getEthBlock_reads hfmt hopened hbytes hn
  receipts hreceipts _ hn := getReceipts_reads hfmt hopened hbytes hn hreceipts
  proofs hproofs _ hn hproven := getProof_reads hfmt hopened hbytes hn hproofs hproven
  totalDifficulties _ hn hmerge := getTotalDifficulty_reads hfmt hopened hbytes hn hmerge
  verified := verify_reads h hfmt hopened hbytes
  accumulator := by
    intro hmerge
    have hall : ∀ n ∈ p.numbers, n < p.mergeBlockNumber := fun n hn =>
      Nat.lt_of_lt_of_le (Profile.mem_numbers.mp hn).2 hmerge
    refine ⟨p.numbers.map fun n => Profile.headerRecord fmt (blocks n), ?_, ?_⟩
    · unfold buildAccumulator
      rw [blockNumbers_eq hopened]
      exact buildAccumulator_reads hfmt hopened hbytes (fun _ hn => hn) hall
    · have hfilter : p.numbers.filter (· < p.mergeBlockNumber) = p.numbers :=
        List.filter_eq_self.mpr fun n hn => decide_eq_true (hall n hn)
      have hpos : 0 < MaxEreSize := by decide
      unfold Profile.accumulatorRoot Profile.headerRecords
      rw [if_pos (by omega), hfilter]

/-- A file is written, and opened up to the largest number that the reader takes. -/
theorem openEreFile_written (hfmt : RoundTrip fmt)
    (hstart : p.startNumber < 2 ^ 64) (hperm : ws.Perm (p.writes blocks))
    (hmemory : MemoryOk fmt p memory ws)
    (hbytes : ∀ w ∈ ws, (w.2.bytes fmt).length < 2 ^ 32) (v : HeaderVerifier) :
    ∃ content, writeEra fmt p memory ws (p.accumulatorRoot fmt blocks) [] = .ok () content ∧
      ∀ pos, ∃ handle : IoHandle, handle.content = content ∧
        (2 ^ 31 - 1 < p.startNumber →
          openEreFile fmt p.mergeBlockNumber p.noProofs p.noReceipts ⟨content, pos⟩ =
            .error (.error "fishy block number") handle) ∧
        (p.startNumber ≤ 2 ^ 31 - 1 → ∃ f,
          openEreFile fmt p.mergeBlockNumber p.noProofs p.noReceipts ⟨content, pos⟩ =
            .ok f handle ∧ GivesBack fmt p content f v blocks) := by
  obtain ⟨index, before, content, hwrite, hfile⟩ :=
    writeEra_spec (p.accumulatorRoot fmt blocks) hfmt hperm hmemory hbytes
  have hbytes' : ∀ w ∈ p.writes blocks, (w.2.bytes fmt).length < 2 ^ 32 :=
    fun w hw => hbytes w (hperm.mem_iff.mpr hw)
  have hopened := hfile.opened hfmt
  have hopened' : Opened fmt p content _ (p.writes blocks) :=
    ⟨hopened.shaped, hopened.mergeBlockNumber,
      fun w hw => hopened.entries w (hperm.mem_iff.mpr hw)⟩
  refine ⟨content, hwrite, fun pos => ?_⟩
  obtain ⟨handle, hcontent, hrun⟩ := openEreFile_spec hfile hfmt hstart pos
  refine ⟨handle, hcontent, ?_, ?_⟩
  · intro hfishy
    rw [hrun, if_pos hfishy]
  · intro hsmall
    rw [if_neg (by omega)] at hrun
    exact ⟨_, hrun, givesBack hfile hfmt hopened' hbytes' v⟩

section Example

private instance byteEncodable : Encodable UInt8 :=
  Encodable.ofLeftInverse UInt8.toNat UInt8.ofNat fun _ => UInt8.ofNat_toNat

private instance headerEncodable : Encodable Header :=
  Encodable.ofLeftInverse
    (fun h => (h.parentHash, h.number, h.timestamp, h.difficulty, h.gasUsed, h.stateRoot, h.txRoot,
      h.receiptsRoot, h.ommersHash, h.withdrawalsRoot, h.rest))
    (fun (a, b, c, d, e, f, g, h, i, j, k) => ⟨a, b, c, d, e, f, g, h, i, j, k⟩) fun _ => rfl

private instance transactionEncodable : Encodable Transaction :=
  Encodable.ofLeftInverse (fun tx => tx.hash) (fun hash => ⟨hash⟩) fun _ => rfl

private instance bodyEncodable : Encodable BlockBody :=
  Encodable.ofLeftInverse (fun b => (b.transactions, b.uncles, b.withdrawals))
    (fun (a, b, c) => ⟨a, b, c⟩) fun _ => rfl

private instance logEncodable : Encodable Nimbus.Native.ForkedChain.Log :=
  Encodable.ofLeftInverse (fun l => (l.address, l.topics, l.data)) (fun (a, b, c) => ⟨a, b, c⟩)
    fun _ => rfl

private instance receiptEncodable : Encodable Receipt :=
  Encodable.ofLeftInverse (fun r => (r.cumulativeGasUsed, r.logs)) (fun (a, b) => ⟨a, b⟩)
    fun _ => rfl

private instance proofEncodable : Encodable Proof :=
  Encodable.ofLeftInverse (fun pf => (pf.proofType, pf.proofData)) (fun (a, b) => ⟨a, b⟩)
    fun _ => rfl

/-- As many bytes as the code of the item. -/
private def exampleCodec (α : Type) [Encodable α] : Codec α where
  encode a := List.replicate (Encodable.encode a) 0
  decode bytes :=
    match Encodable.decode bytes.length with
    | some a => .ok a
    | none => .error "decode"

private theorem exampleCodec_roundTrip {α : Type} [Encodable α] (a : α) :
    (exampleCodec α).decode ((exampleCodec α).encode a) = .ok a := by
  simp [exampleCodec]

/-- Type, length and two zero bytes. -/
private def exampleStore : E2Store where
  version := (0x65, 0x32)
  header typ len := typ.1 :: typ.2 :: (toBytesLE 4 len ++ [0, 0])
  readRecord bytes :=
    match bytes with
    | a :: b :: rest => .ok ((a, b), (rest.drop 6).take (fromBytesLE (rest.take 4)))
    | _ => .error "readRecord"
  readIndexCount bytes := .ok (fromBytesLE (bytes.take 8))

private def exampleFormats : Formats where
  store := exampleStore
  headers := exampleCodec Header
  bodies := exampleCodec BlockBody
  receipts := exampleCodec (List Receipt)
  proofs := exampleCodec Proof
  computeRlpHash header := header.number
  unclesHash uncles := uncles.length
  calcTxRoot txs := txs.length
  calcReceiptsRoot receipts := receipts.length
  hashTreeRoot records := Vector.replicate 32 (UInt8.ofNat records.length)
  decodesSsz _ _ := true

private theorem exampleStore_readRecord (typ : RecordType) (data rest : List UInt8)
    (hdata : data.length < 2 ^ 32) :
    exampleStore.readRecord (exampleStore.header typ data.length ++ (data ++ rest)) =
      .ok (typ, data) := by
  have hlen : fromBytesLE ((toBytesLE 4 data.length ++ [0, 0] ++ (data ++ rest)).take 4) =
      data.length := by
    rw [List.append_assoc, List.take_left' (toBytesLE_length 4 _), fromBytesLE_toBytesLE]
    exact Nat.mod_eq_of_lt hdata
  have hdrop : (toBytesLE 4 data.length ++ [0, 0] ++ (data ++ rest)).drop 6 = data ++ rest :=
    List.drop_left' (by simp)
  simp only [exampleStore, List.cons_append, hlen, hdrop, List.take_left]

private theorem exampleStore_readIndexCount (n : Nat) (rest : List UInt8) (hn : n < 2 ^ 31) :
    exampleStore.readIndexCount (toBytesLE 8 n ++ rest) = .ok n := by
  have hpow : 256 ^ 8 = 2 ^ 64 := by decide
  simp only [exampleStore]
  rw [List.take_left' (toBytesLE_length 8 _), fromBytesLE_toBytesLE, Nat.mod_eq_of_lt (by omega)]

private theorem exampleFormats_roundTrip : RoundTrip exampleFormats where
  header_length _ _ := rfl
  readRecord := exampleStore_readRecord
  readIndexCount := exampleStore_readIndexCount
  headers header := by
    rw [show exampleFormats.headers = exampleCodec Header from rfl, exampleCodec_roundTrip]
  bodies body := by
    rw [show exampleFormats.bodies = exampleCodec BlockBody from rfl, exampleCodec_roundTrip]
  receipts receipts := by
    rw [show exampleFormats.receipts = exampleCodec (List Receipt) from rfl,
      exampleCodec_roundTrip]
  proofs proof := by
    rw [show exampleFormats.proofs = exampleCodec Proof from rfl, exampleCodec_roundTrip]

private def exampleBlock : EraBlock where
  header := ⟨0, 0, 0, 0, 0, 0, 0, 0, 0, none, []⟩
  body := ⟨[], [], none⟩
  receipts := []
  proof := ⟨0, []⟩
  totalDifficulty := 0

private theorem exampleBytes (p : Profile) :
    ∀ w ∈ p.writes fun _ => exampleBlock, (w.2.bytes exampleFormats).length < 2 ^ 32 := by
  intro w hw
  obtain ⟨-, hitem⟩ := Profile.mem_writes.mp hw
  unfold Profile.items at hitem
  have hcases : w.2 = .header exampleBlock.header ∨ w.2 = .body exampleBlock.body ∨
      w.2 = .receipts exampleBlock.receipts ∨ w.2 = .proof exampleBlock.proof ∨
      w.2 = .totalDifficulty exampleBlock.totalDifficulty := by
    split at hitem <;> split at hitem <;> split at hitem <;> simp at hitem <;> tauto
  rcases hcases with h | h | h | h | h
  · rw [h]
    decide +kernel
  · rw [h]
    decide +kernel
  · rw [h]
    decide +kernel
  · rw [h]
    decide +kernel
  · rw [h]
    decide +kernel

end Example

end Nimbus.Spec.Ere
