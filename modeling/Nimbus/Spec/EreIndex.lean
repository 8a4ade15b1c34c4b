import Nimbus.Native.Ere

/-!
# The index of a history file

Each component of a block is written once, in any order. Its record stays where it is, and the
index holds its position, also when it is read back from the offsets.
-/

namespace Nimbus.Spec.Ere

open Nimbus.Native.Ere
open Nimbus.Native.ForkedChain (Hash32 Transaction Receipt)
open Nimbus.Native.PersistBlocks (Header)

/-- The layers below give back what was written. -/
structure RoundTrip (fmt : Formats) : Prop where
  header_length : ∀ typ len, (fmt.store.header typ len).length = 8
  readRecord : ∀ typ data rest, data.length < 2 ^ 32 →
    fmt.store.readRecord (fmt.store.header typ data.length ++ (data ++ rest)) = .ok (typ, data)
  readIndexCount : ∀ n rest, n < 2 ^ 31 →
    fmt.store.readIndexCount (toBytesLE 8 n ++ rest) = .ok n
  headers : ∀ header, fmt.headers.decode (fmt.headers.encode header) = .ok header
  bodies : ∀ body, fmt.bodies.decode (fmt.bodies.encode body) = .ok body
  receipts : ∀ receipts, fmt.receipts.decode (fmt.receipts.encode receipts) = .ok receipts
  proofs : ∀ proof, fmt.proofs.decode (fmt.proofs.encode proof) = .ok proof

variable {fmt : Formats} {buf content : List UInt8} {g : EreGroup}

/-! ## Components -/

/-- The parameters of a file. -/
structure Profile where
  startNumber : Nat
  mergeBlockNumber : Nat
  noReceipts : Bool
  noProofs : Bool

def Profile.count (p : Profile) : Nat :=
  componentCount p.startNumber p.mergeBlockNumber p.noReceipts p.noProofs

/-- A component of a block. -/
inductive Item where
  | header (header : Header)
  | body (body : BlockBody)
  | receipts (receipts : List Receipt)
  | proof (proof : Proof)
  | totalDifficulty (totalDifficulty : UInt256)

def Item.type : Item → RecordType
  | .header _ => E2CompressedHeader
  | .body _ => E2CompressedBody
  | .receipts _ => E2CompressedSlimReceipts
  | .proof _ => E2Proof
  | .totalDifficulty _ => E2TotalDifficulty

variable (fmt) in
def Item.bytes : Item → List UInt8
  | .header h => fmt.headers.encode h
  | .body b => fmt.bodies.encode b
  | .receipts rs => fmt.receipts.encode rs
  | .proof pf => fmt.proofs.encode pf
  | .totalDifficulty td => toBytesLE 32 td.toNat

variable (fmt) in
/-- The call of `update` for the component. -/
def Item.update (g : EreGroup) (blockNumber : Nat) : Item → WriteM EreGroup
  | .header h => updateHeader fmt g blockNumber h
  | .body b => updateBody fmt g blockNumber b
  | .receipts rs => updateReceipts fmt g blockNumber rs
  | .proof pf => updateProof fmt g blockNumber pf
  | .totalDifficulty td => updateTotalDifficulty fmt g blockNumber td

theorem Item.update_eq (g : EreGroup) (blockNumber : Nat) (item : Item) :
    item.update fmt g blockNumber =
      Nimbus.Native.Ere.update fmt g blockNumber (item.bytes fmt) item.type := by
  cases item <;> rfl

namespace Profile

/-- Files of the profile have such components. -/
def Has (p : Profile) : Item → Prop
  | .header _ => True
  | .body _ => True
  | .receipts _ => p.noReceipts = false
  | .proof _ => p.noProofs = false
  | .totalDifficulty _ => p.startNumber < p.mergeBlockNumber

def column (p : Profile) : Item → Nat
  | .header _ => 0
  | .body _ => 1
  | .receipts _ => 2
  | .proof _ => 2 + (if p.noReceipts then 0 else 1)
  | .totalDifficulty _ => 2 + (if p.noReceipts then 0 else 1) + (if p.noProofs then 0 else 1)

theorem column_lt {p : Profile} {item : Item} (h : p.Has item) : p.column item < p.count := by
  unfold count componentCount
  cases item with
  | header _ => simp only [column]; omega
  | body _ => simp only [column]; omega
  | receipts _ =>
    rw [show p.noReceipts = false from h]
    simp only [column, Bool.false_eq_true, if_false]
    omega
  | proof _ =>
    rw [show p.noProofs = false from h]
    simp only [column, Bool.false_eq_true, if_false]
    omega
  | totalDifficulty _ =>
    rw [if_pos (show p.startNumber < p.mergeBlockNumber from h)]
    exact Nat.lt_succ_self _

theorem count_pos (p : Profile) : 0 < p.count := by
  unfold count componentCount
  omega

theorem count_le (p : Profile) : p.count ≤ 5 := by
  unfold count componentCount
  split <;> split <;> split <;> omega

end Profile

/-- The position that the index has for a component. -/
def entry (index : DynamicBlockIndex) (i column : Nat) : Option Int :=
  (index.indexesList[i]?).bind (·[column]?)

/-- The index belongs to a file of the profile. -/
structure Shaped (p : Profile) (index : DynamicBlockIndex) : Prop where
  startNumber : index.startNumber = p.startNumber
  componentCount : index.componentCount = p.count
  noReceipts : index.noReceipts = p.noReceipts
  noProofs : index.noProofs = p.noProofs
  length : index.indexesList.length = MaxEreSize
  columns : ∀ indexes ∈ index.indexesList, indexes.length = p.count

variable {p : Profile} {index : DynamicBlockIndex} {item : Item}

theorem Shaped.getIndexesPos (h : Shaped p index) (hhas : p.Has item) :
    getIndexesPos index item.type = .ok (p.column item) := by
  unfold Nimbus.Native.Ere.getIndexesPos
  rw [h.noReceipts, h.noProofs, h.componentCount]
  cases item with
  | header _ => rfl
  | body _ => rfl
  | receipts _ =>
    rw [show p.noReceipts = false from hhas]
    rfl
  | proof _ =>
    rw [show p.noProofs = false from hhas]
    rfl
  | totalDifficulty _ =>
    have hcount : 2 + (if p.noReceipts then 0 else 1) + (if p.noProofs then 0 else 1) + 1 =
        p.count := by
      unfold Profile.count Nimbus.Native.Ere.componentCount
      rw [if_pos (show p.startNumber < p.mergeBlockNumber from hhas)]
    exact if_pos hcount

/-! ## Writing -/

variable (fmt) in
/-- The bytes of a record. -/
def record (typ : RecordType) (data : List UInt8) : List UInt8 :=
  fmt.store.header typ data.length ++ data

variable (fmt) in
def Item.record (item : Item) : List UInt8 := Ere.record fmt item.type (item.bytes fmt)

theorem appendRecord_eq (typ : RecordType) (data content : List UInt8) :
    appendRecord fmt typ data content = .ok content.length (content ++ record fmt typ data) := by
  show EStateM.Result.ok content.length (content ++ fmt.store.header typ data.length ++ data) = _
  rw [List.append_assoc]
  rfl

variable (fmt) in
theorem update_spec {n : Nat} (content : List UInt8) (h : Shaped p g.blockIndex)
    (hstart : p.startNumber ≤ n) (hend : n < p.startNumber + MaxEreSize) (hhas : p.Has item) :
    ∃ g', item.update fmt g n content = .ok g' (content ++ item.record fmt) ∧
      Shaped p g'.blockIndex ∧
      entry g'.blockIndex (n - p.startNumber) (p.column item) = some (content.length : Int) ∧
      ∀ i column, (i, column) ≠ (n - p.startNumber, p.column item) →
        entry g'.blockIndex i column = entry g.blockIndex i column := by
  have hrow : n - p.startNumber < g.blockIndex.indexesList.length := by
    rw [h.length]
    omega
  have hcolumn := Profile.column_lt hhas
  obtain ⟨indexes, hindexes⟩ : ∃ indexes, indexes = g.blockIndex.indexesList[n - p.startNumber] :=
    ⟨_, rfl⟩
  have hlength : indexes.length = p.count := by
    rw [hindexes]
    exact h.columns _ (List.getElem_mem hrow)
  refine ⟨⟨{ g.blockIndex with
    indexesList := g.blockIndex.indexesList.set (n - p.startNumber)
      (indexes.set (p.column item) content.length) }⟩, ?_, ?_, ?_, ?_⟩
  · rw [Item.update_eq]
    unfold Nimbus.Native.Ere.update
    rw [h.startNumber, if_neg (Nat.not_lt.mpr hstart), h.getIndexesPos hhas]
    have hcol : (liftExcept (.ok (p.column item)) : WriteM Nat) content =
        .ok (p.column item) content := rfl
    rw [bind_of_ok hcol, bind_of_ok (appendRecord_eq _ _ _), List.getElem?_eq_getElem hrow,
      ← hindexes]
    dsimp only
    rw [if_neg (by omega)]
    rfl
  · refine ⟨h.startNumber, h.componentCount, h.noReceipts, h.noProofs, ?_, ?_⟩
    · rw [List.length_set]
      exact h.length
    · intro row hmem
      rcases List.mem_or_eq_of_mem_set hmem with hmem | rfl
      · exact h.columns row hmem
      · rw [List.length_set]
        exact hlength
  · unfold entry
    rw [List.getElem?_set_self hrow]
    exact List.getElem?_set_self (by omega)
  · intro i column hne
    unfold entry
    by_cases hi : i = n - p.startNumber
    · subst hi
      have hcol : p.column item ≠ column := fun heq => hne (by rw [heq])
      rw [List.getElem?_set_self hrow, List.getElem?_eq_getElem hrow, ← hindexes]
      exact List.getElem?_set_ne hcol
    · rw [List.getElem?_set_ne (Ne.symm hi)]

/-- A component of a block. -/
abbrev Write := Nat × Item

/-- Where the index has the component. -/
def Profile.key (p : Profile) (w : Write) : Nat × Nat := (w.1 - p.startNumber, p.column w.2)

/-- Files of the profile have the component. -/
structure Profile.Takes (p : Profile) (w : Write) : Prop where
  start : p.startNumber ≤ w.1
  stop : w.1 < p.startNumber + MaxEreSize
  has : p.Has w.2

variable (fmt p) in
/-- The records that have been written are where the index says, and the other positions are
those of another index. -/
structure Written (old index : DynamicBlockIndex) (content : List UInt8) (ws : List Write) :
    Prop where
  shaped : Shaped p index
  entries : ∀ w ∈ ws, ∃ pos : Nat, entry index (p.key w).1 (p.key w).2 = some (pos : Int) ∧
    SliceAt content pos (w.2.record fmt)
  others : ∀ i column, (∀ w ∈ ws, p.key w ≠ (i, column)) →
    entry index i column = entry old i column

theorem Written.update {old : DynamicBlockIndex}
    {ws : List Write} {w : Write} (h : Written fmt p old g.blockIndex content ws)
    (htakes : p.Takes w) (hnew : ∀ w' ∈ ws, p.key w' ≠ p.key w) :
    ∃ g', w.2.update fmt g w.1 content = .ok g' (content ++ w.2.record fmt) ∧
      Written fmt p old g'.blockIndex (content ++ w.2.record fmt) (ws ++ [w]) := by
  obtain ⟨g', hrun, hshaped, hself, hother⟩ :=
    update_spec fmt content h.shaped htakes.start htakes.stop htakes.has
  refine ⟨g', hrun, hshaped, ?_, ?_⟩
  · intro w' hw'
    rcases List.mem_append.mp hw' with hw' | hw'
    · obtain ⟨pos, hentry, hslice⟩ := h.entries w' hw'
      exact ⟨pos, (hother _ _ (hnew w' hw')).trans hentry, hslice.append _⟩
    · rw [List.mem_singleton.mp hw']
      refine ⟨content.length, hself, ?_⟩
      have hslice := SliceAt.of_append content (w.2.record fmt) []
      rw [List.append_nil] at hslice
      exact hslice
  · intro i column hkeys
    rw [hother i column fun heq => hkeys w (List.mem_append_right _ List.mem_cons_self) heq.symm]
    exact h.others i column fun w' hw' => hkeys w' (List.mem_append_left _ hw')

theorem writes_spec {old : DynamicBlockIndex}
    {done ws : List Write} (h : Written fmt p old g.blockIndex content done)
    (htakes : ∀ w ∈ ws, p.Takes w) (hnodup : ((done ++ ws).map p.key).Nodup) :
    ∃ g', ws.foldlM (fun g w => w.2.update fmt g w.1) g content =
        .ok g' (content ++ ws.flatMap fun w => w.2.record fmt) ∧
      Written fmt p old g'.blockIndex (content ++ ws.flatMap fun w => w.2.record fmt)
        (done ++ ws) := by
  induction ws generalizing g content done with
  | nil =>
    refine ⟨g, ?_, ?_⟩
    · simp only [List.flatMap_nil, List.append_nil]
      rfl
    · simp only [List.flatMap_nil, List.append_nil]
      exact h
  | cons w ws ih =>
    have hnew : ∀ w' ∈ done, p.key w' ≠ p.key w := by
      intro w' hw'
      rw [List.map_append, List.nodup_append] at hnodup
      exact hnodup.2.2 _ (List.mem_map_of_mem hw') _ (List.mem_map_of_mem List.mem_cons_self)
    obtain ⟨g₁, hrun, hwritten⟩ := h.update (htakes w List.mem_cons_self) hnew
    rw [List.append_cons] at hnodup
    obtain ⟨g', hrest, hwritten'⟩ :=
      ih hwritten (fun w' hw' => htakes w' (.tail _ hw')) hnodup
    refine ⟨g', ?_, ?_⟩
    · rw [List.foldlM_cons, bind_of_ok hrun, hrest, List.flatMap_cons, List.append_assoc]
    · rw [List.flatMap_cons, ← List.append_assoc, List.append_cons]
      exact hwritten'

/-! ## The index record -/

def offsets (pos : Nat) (is : List Int) : List UInt8 :=
  is.flatMap fun i => toBytesLE 8 (toOffset i pos)

theorem offsets_length (pos : Nat) (is : List Int) : (offsets pos is).length = 8 * is.length := by
  unfold offsets
  simp [Nat.mul_comm]

/-- The data of the index record. -/
def indexData (index : DynamicBlockIndex) (pos : Nat) : List UInt8 :=
  toBytesLE 8 index.startNumber ++ (offsets pos index.indexesList.flatten ++
    (toBytesLE 8 index.componentCount ++ toBytesLE 8 index.indexesList.length))

theorem Shaped.flatten_length (h : Shaped p index) :
    index.indexesList.flatten.length = MaxEreSize * p.count := by
  rw [List.length_flatten, List.map_congr_left h.columns, List.map_const',
    List.sum_replicate_nat, h.length]

theorem Shaped.indexData_length (h : Shaped p index) (pos : Nat) :
    (indexData index pos).length = MaxEreSize * p.count * 8 + 24 := by
  unfold indexData
  simp only [List.length_append, toBytesLE_length, offsets_length, h.flatten_length]
  omega

theorem appendOffsets_eq {pos : Nat} {is : List Int}
    (h : ∀ i ∈ is, -2 ^ 63 ≤ i - pos ∧ i - pos < 2 ^ 63) (content : List UInt8) :
    appendOffsets pos is content = .ok () (content ++ offsets pos is) := by
  induction is generalizing content with
  | nil =>
    rw [show offsets pos [] = [] from rfl, List.append_nil]
    rfl
  | cons i is ih =>
    obtain ⟨hlow, hhigh⟩ := h i List.mem_cons_self
    unfold appendOffsets
    rw [if_neg (by omega)]
    have happend : append (toBytesLE 8 (toOffset i pos)) content =
        .ok () (content ++ toBytesLE 8 (toOffset i pos)) := rfl
    rw [bind_of_ok happend, ih fun j hj => h j (.tail _ hj)]
    rw [List.append_assoc]
    rfl

/-- The positions are in a file of this size. -/
def InFile (size : Nat) (index : DynamicBlockIndex) : Prop :=
  ∀ i ∈ index.indexesList.flatten, 0 ≤ i ∧ i ≤ size

variable (fmt) in
theorem appendIndex_eq (h : Shaped p index)
    (hfile : InFile content.length index) (hsize : content.length < 2 ^ 63) :
    appendIndex fmt index content = .ok content.length
      (content ++ record fmt E2DynamicBlockIndex (indexData index content.length)) := by
  have hrange : ∀ i ∈ index.indexesList.flatten,
      -2 ^ 63 ≤ i - content.length ∧ i - content.length < 2 ^ 63 := by
    intro i hi
    obtain ⟨hlow, hhigh⟩ := hfile i hi
    omega
  have hlength : (indexData index content.length).length =
      index.indexesList.length * index.componentCount * 8 + 24 := by
    rw [h.indexData_length, h.length, h.componentCount]
  unfold appendIndex
  rw [← hlength]
  have hheader : appendHeader fmt E2DynamicBlockIndex (indexData index content.length).length
      content = .ok content.length (content ++
        fmt.store.header E2DynamicBlockIndex (indexData index content.length).length) := rfl
  have happend : ∀ bytes k, append bytes k = .ok () (k ++ bytes) := fun _ _ => rfl
  rw [bind_of_ok hheader, bind_of_ok (happend _ _), bind_of_ok (appendOffsets_eq hrange _)]
  show EStateM.Result.ok content.length _ = _
  simp only [record, indexData, List.append_assoc]

/-! ## Reading the index -/

/-- What an index entry is read back as. -/
def readBack (pos : Nat) (i : Int) : Int := if i = pos then 0 else i

theorem toOffset_lt (i : Int) (pos : Nat) : toOffset i pos < 2 ^ 64 := by
  unfold toOffset
  omega

theorem fromOffset_toOffset {pos : Nat} {i : Int} (hlow : 0 ≤ i) (hhigh : i < 2 ^ 63)
    (hpos : pos < 2 ^ 63) : fromOffset pos (toOffset i pos) = readBack pos i := by
  unfold fromOffset readBack toInt64 toOffset
  by_cases heq : i = pos
  · rw [if_pos heq, if_pos (by omega)]
  · split
    · omega
    · omega

theorem readUInt64_slice {pos x : Nat} (h : SliceAt buf pos (toBytesLE 8 x))
    (hx : x < 2 ^ 64) : readUInt64 buf pos = .ok x := by
  have hle := h.le_length
  have htake := h.take
  rw [toBytesLE_length] at hle htake
  unfold readUInt64
  rw [if_neg (by omega), htake, fromBytesLE_toBytesLE]
  have hpow : 256 ^ 8 = 2 ^ 64 := by decide
  rw [hpow, Nat.mod_eq_of_lt hx]

theorem readIndexes_eq {startPos fileSize pos : Nat} {is : List Int}
    (hslice : SliceAt buf pos (offsets startPos is)) (hstart : startPos ≤ fileSize)
    (hsize : fileSize < 2 ^ 63) (his : ∀ i ∈ is, 0 ≤ i ∧ i ≤ fileSize) :
    readIndexes buf startPos fileSize is.length pos = .ok (is.map (readBack startPos)) := by
  induction is generalizing pos with
  | nil => rfl
  | cons i is ih =>
    obtain ⟨hlow, hhigh⟩ := his i List.mem_cons_self
    have hrest := hslice.right
    rw [toBytesLE_length] at hrest
    rw [List.length_cons]
    unfold readIndexes
    rw [readUInt64_slice hslice.left (toOffset_lt _ _)]
    show (if fromOffset startPos (toOffset i startPos) < 0 ∨ _ then _ else _) = _
    rw [fromOffset_toOffset hlow (by omega) (by omega)]
    have hback : ¬ (readBack startPos i < 0 ∨ (fileSize : Int) < readBack startPos i) := by
      unfold readBack
      split
      · omega
      · omega
    rw [if_neg hback, ih hrest fun j hj => his j (.tail _ hj)]
    rfl

theorem readIndexesList_eq {startPos fileSize pos count : Nat}
    {rows : List Indexes} (hslice : SliceAt buf pos (offsets startPos rows.flatten))
    (hstart : startPos ≤ fileSize) (hsize : fileSize < 2 ^ 63)
    (hcolumns : ∀ row ∈ rows, row.length = count)
    (hrows : ∀ i ∈ rows.flatten, 0 ≤ i ∧ i ≤ fileSize) :
    readIndexesList buf startPos fileSize count rows.length pos =
      .ok (rows.map (List.map (readBack startPos))) := by
  induction rows generalizing pos with
  | nil => rfl
  | cons row rows ih =>
    have hcons : offsets startPos (row :: rows).flatten =
        offsets startPos row ++ offsets startPos rows.flatten := by
      unfold offsets
      rw [List.flatten_cons, List.flatMap_append]
    rw [hcons] at hslice
    have hcount := hcolumns row List.mem_cons_self
    have hrest := hslice.right
    rw [offsets_length, hcount] at hrest
    have hfirst := readIndexes_eq hslice.left hstart hsize
      fun i hi => hrows i (List.mem_append_left _ hi)
    rw [hcount] at hfirst
    rw [List.length_cons]
    unfold readIndexesList
    rw [hfirst]
    rw [ih hrest (fun r hr => hcolumns r (.tail _ hr))
      fun i hi => hrows i (List.mem_append_right _ hi)]
    rfl

/-- The index that is read back. -/
def DynamicBlockIndex.readBack (index : DynamicBlockIndex) (pos : Nat) : DynamicBlockIndex :=
  { index with indexesList := index.indexesList.map (List.map (Ere.readBack pos)) }

theorem decode_indexData {pos fileSize : Nat} (h : Shaped p index) (hfile : InFile fileSize index)
    (hpos : pos ≤ fileSize) (hsize : fileSize < 2 ^ 63) (hstart : p.startNumber < 2 ^ 64) :
    decodeDynamicBlockIndex (indexData index pos) pos fileSize p.mergeBlockNumber p.noProofs
        p.noReceipts =
      if 2 ^ 31 - 1 < p.startNumber then .error (.error "fishy block number")
      else .ok (DynamicBlockIndex.readBack index pos) := by
  have hlength := h.indexData_length pos
  have hcountPos := p.count_pos
  have hcountLe := p.count_le
  have hdata : indexData index pos = toBytesLE 8 p.startNumber ++
      (offsets pos index.indexesList.flatten ++
        (toBytesLE 8 p.count ++ toBytesLE 8 MaxEreSize)) := by
    unfold indexData
    rw [h.startNumber, h.componentCount, h.length]
  have hslice : SliceAt (indexData index pos) 0 (toBytesLE 8 p.startNumber ++
      (offsets pos index.indexesList.flatten ++
        (toBytesLE 8 p.count ++ toBytesLE 8 MaxEreSize))) := by
    refine ⟨[], [], ?_, rfl⟩
    rw [List.append_nil]
    exact hdata
  have hrows := hslice.right
  have htail := hrows.right
  rw [toBytesLE_length] at hrows htail
  rw [offsets_length, h.flatten_length] at htail
  have hlast := htail.right
  have hfirst := readUInt64_slice hslice.left hstart
  have hcount : readUInt64 (indexData index pos) ((indexData index pos).length - 16) =
      .ok p.count := by
    apply readUInt64_slice _ (by omega)
    have hat : (indexData index pos).length - 16 = 0 + 8 + 8 * (MaxEreSize * p.count) := by
      omega
    rw [hat]
    exact htail.left
  have hlist := readIndexesList_eq hrows.left hpos hsize h.columns hfile
  rw [h.length] at hlist
  have hstored : readUInt64 (indexData index pos) (8 + 8 * p.count * MaxEreSize + 8) =
      .ok MaxEreSize := by
    apply readUInt64_slice _ (by decide)
    have hat : 8 + 8 * p.count * MaxEreSize + 8 = 0 + 8 + 8 * (MaxEreSize * p.count) + 8 := by
      rw [Nat.mul_comm MaxEreSize, Nat.mul_assoc]
    rw [hat]
    exact hlast
  have hquotient : ((indexData index pos).length - 24) / 8 / p.count = MaxEreSize := by
    rw [hlength, Nat.add_sub_cancel, Nat.mul_div_cancel _ (by omega),
      Nat.mul_div_cancel _ hcountPos]
  unfold decodeDynamicBlockIndex
  rw [if_neg (by omega), if_neg (by omega), hfirst]
  rw [hcount]
  show (if 2 ^ 63 ≤ p.count ∨ p.count = 0 then _ else _) = _
  have hexpected : ¬ p.count ≠ Nimbus.Native.Ere.componentCount p.startNumber p.mergeBlockNumber
      p.noReceipts p.noProofs := not_not.mpr rfl
  rw [if_neg (by omega), if_neg hexpected]
  split
  · rfl
  · dsimp only
    rw [hquotient, hlist]
    rw [hstored]
    rw [← h.startNumber, ← h.componentCount, ← h.noReceipts, ← h.noProofs]
    rfl

end Nimbus.Spec.Ere
