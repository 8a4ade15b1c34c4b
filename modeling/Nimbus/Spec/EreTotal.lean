import Nimbus.Native.Ere

/-!
# Opening untrusted history files

The readers of an index go over its data with lengths and counts that the data itself has. They
end with a result or an error unless the arithmetic on these counts fails, or the data has no
room for the last count.
-/

namespace Nimbus.Spec.Ere

open Nimbus.Native.Ere

/-! ## Decoding -/

variable {α : Type} {Q : α → Prop}

/-- A result that is as it should be, or an error that is reported. -/
def Answers (r : Except Failure α) (Q : α → Prop) : Prop :=
  match r with
  | .ok a => Q a
  | .error e => e ≠ .defect

theorem Answers.bind {α β : Type} {r : Except Failure α} {f : α → Except Failure β}
    {P : α → Prop} {Q : β → Prop} (h : Answers r P) (hf : ∀ a, P a → Answers (f a) Q) :
    Answers (r >>= f) Q := by
  cases r with
  | ok a => exact hf a h
  | error e => exact h

theorem Answers.imp {r : Except Failure α} {P Q : α → Prop} (h : Answers r P)
    (hPQ : ∀ a, P a → Q a) : Answers r Q := by
  cases r with
  | ok a => exact hPQ a h
  | error e => exact h

/-- The number in the eight bytes at a position. -/
def wordAt (buf : List UInt8) (pos : Nat) : Nat := fromBytesLE ((buf.drop pos).take 8)

section
variable {buf : List UInt8} {startPos fileSize : Nat}

theorem readUInt64_eq {pos : Nat} (h : pos + 8 ≤ buf.length) :
    readUInt64 buf pos = .ok (wordAt buf pos) := by
  unfold readUInt64
  rw [if_neg (by omega)]
  rfl

/-- Positions of the file. -/
def Within (fileSize : Nat) (indexes : Indexes) : Prop := ∀ i ∈ indexes, 0 ≤ i ∧ i ≤ fileSize

theorem readIndexes_answers {count pos : Nat} (h : pos + 8 * count ≤ buf.length) :
    Answers (readIndexes buf startPos fileSize count pos) fun indexes =>
      indexes.length = count ∧ Within fileSize indexes := by
  induction count generalizing pos with
  | zero => exact ⟨rfl, fun i hi => nomatch hi⟩
  | succ count ih =>
    unfold readIndexes
    rw [readUInt64_eq (by omega)]
    show Answers (if _ then _ else _) _
    by_cases hoffset : fromOffset startPos (wordAt buf pos) < 0 ∨
        (fileSize : Int) < fromOffset startPos (wordAt buf pos)
    · rw [if_pos hoffset]
      exact nofun
    · rw [if_neg hoffset]
      apply (@ih (pos + 8) (by omega)).bind
      intro rest ⟨hlength, hwithin⟩
      refine ⟨by rw [List.length_cons, hlength], fun i hi => ?_⟩
      obtain rfl | hi := List.mem_cons.mp hi
      · omega
      · exact hwithin i hi

theorem readIndexesList_answers {columns count pos : Nat}
    (h : pos + 8 * columns * count ≤ buf.length) :
    Answers (readIndexesList buf startPos fileSize columns count pos) fun rows =>
      rows.length = count ∧ ∀ row ∈ rows, row.length = columns ∧ Within fileSize row := by
  induction count generalizing pos with
  | zero => exact ⟨rfl, fun row hrow => nomatch hrow⟩
  | succ count ih =>
    rw [Nat.mul_succ] at h
    unfold readIndexesList
    apply (@readIndexes_answers buf startPos fileSize columns pos (by omega)).bind
    intro row hrow
    apply (@ih (pos + 8 * columns) (by omega)).bind
    intro rest ⟨hlength, hrows⟩
    refine ⟨by rw [List.length_cons, hlength], fun row' hrow' => ?_⟩
    obtain rfl | hrow' := List.mem_cons.mp hrow'
    · exact hrow
    · exact hrows row' hrow'

/-- What an accepted index has: a row of positions in the file for each of its blocks, as many
as it says itself. -/
structure Accepted (mergeBlockNumber : Nat) (noProofs noReceipts : Bool) (fileSize : Nat)
    (buf : List UInt8) (index : DynamicBlockIndex) : Prop where
  receipts : index.noReceipts = noReceipts
  proofs : index.noProofs = noProofs
  columns : index.componentCount =
    componentCount index.startNumber mergeBlockNumber noReceipts noProofs
  rows : ∀ row ∈ index.indexesList, row.length = index.componentCount ∧ Within fileSize row
  stored : wordAt buf (8 + 8 * index.componentCount * index.indexesList.length + 8) =
    index.indexesList.length
  represented : index.startNumber + index.indexesList.length < 2 ^ 64

/-- The counts of the data can be calculated with, and there is room for them. -/
def Countable (mergeBlockNumber : Nat) (noProofs noReceipts : Bool) (buf : List UInt8) : Prop :=
  16 ≤ buf.length → buf.length % 8 = 0 →
    wordAt buf (buf.length - 16) ≠ 0 ∧ wordAt buf (buf.length - 16) < 2 ^ 63 ∧
    (buf.length = 16 → wordAt buf 0 ≤ 2 ^ 31 - 1 →
      wordAt buf 0 ≠ componentCount (wordAt buf 0) mergeBlockNumber noReceipts noProofs)

variable {mergeBlockNumber : Nat} {noProofs noReceipts : Bool}

theorem decodeDynamicBlockIndex_answers (hlength : buf.length < 2 ^ 63)
    (h : Countable mergeBlockNumber noProofs noReceipts buf) :
    Answers (decodeDynamicBlockIndex buf startPos fileSize mergeBlockNumber noProofs noReceipts)
      (Accepted mergeBlockNumber noProofs noReceipts fileSize buf) := by
  unfold decodeDynamicBlockIndex
  by_cases hsmall : buf.length < 16
  · rw [if_pos hsmall]
    exact nofun
  rw [if_neg hsmall]
  by_cases hmod : buf.length % 8 ≠ 0
  · rw [if_pos hmod]
    exact nofun
  rw [if_neg hmod, readUInt64_eq (by omega), readUInt64_eq (by omega)]
  obtain ⟨hzero, hint, hroom⟩ := h (by omega) (by omega)
  dsimp only [bind, Except.bind]
  generalize hn : wordAt buf 0 = n at hroom
  generalize hc : wordAt buf (buf.length - 16) = c at hzero hint
  rw [if_neg (by omega)]
  by_cases hmismatch : c ≠ componentCount n mergeBlockNumber noReceipts noProofs
  · rw [if_pos hmismatch]
    exact nofun
  rw [if_neg hmismatch]
  by_cases hfishy : 2 ^ 31 - 1 < n
  · rw [if_pos hfishy]
    exact nofun
  rw [if_neg hfishy]
  -- with sixteen bytes the component count would be in the place of the block number
  have hlarge : 24 ≤ buf.length := by
    by_contra hsixteen
    have hlen : buf.length = 16 := by omega
    rw [hlen] at hc
    have hsame : n = c := hn.symm.trans hc
    exact hroom hlen (by omega) (hsame.trans (not_not.mp hmismatch))
  have hcount : 8 * c * ((buf.length - 24) / 8 / c) ≤ buf.length - 24 := by
    have hdiv := Nat.mul_div_le ((buf.length - 24) / 8) c
    rw [Nat.mul_assoc]
    omega
  have hrows := @readIndexesList_answers buf startPos fileSize c ((buf.length - 24) / 8 / c) 8
    (by omega)
  have hbound : (buf.length - 24) / 8 / c ≤ buf.length / 8 :=
    Nat.le_trans (Nat.div_le_self _ _) (Nat.div_le_div_right (Nat.sub_le _ _))
  generalize (buf.length - 24) / 8 / c = count at hrows hcount hbound
  apply hrows.bind
  intro rows ⟨hlen, hall⟩
  rw [readUInt64_eq (by omega)]
  dsimp only
  by_cases hstored : count ≠ wordAt buf (8 + 8 * c * count + 8)
  · rw [if_pos hstored]
    exact nofun
  · rw [if_neg hstored]
    rw [not_not] at hstored hmismatch
    refine ⟨rfl, rfl, hmismatch, hall, ?_, ?_⟩
    · show wordAt buf (8 + 8 * c * rows.length + 8) = rows.length
      rw [hlen]
      exact hstored.symm
    · show n + rows.length < 2 ^ 64
      omega

theorem decodeDynamicBlockIndex_defect (h : ¬ Countable mergeBlockNumber noProofs noReceipts buf) :
    decodeDynamicBlockIndex buf startPos fileSize mergeBlockNumber noProofs noReceipts =
      .error .defect := by
  unfold Countable at h
  simp only [Classical.not_imp] at h
  obtain ⟨hsmall, hmod, hbad⟩ := h
  unfold decodeDynamicBlockIndex
  rw [if_neg (by omega), if_neg (by omega), readUInt64_eq (by omega), readUInt64_eq (by omega)]
  dsimp only [bind, Except.bind]
  by_cases hcount : 2 ^ 63 ≤ wordAt buf (buf.length - 16) ∨ wordAt buf (buf.length - 16) = 0
  · exact if_pos hcount
  · rw [if_neg hcount]
    have hsixteen : ¬ (buf.length = 16 → wordAt buf 0 ≤ 2 ^ 31 - 1 → wordAt buf 0 ≠ _) :=
      fun h => hbad ⟨by omega, by omega, h⟩
    simp only [Classical.not_imp, not_not] at hsixteen
    obtain ⟨hlen, hn, hc⟩ := hsixteen
    rw [hlen] at hcount ⊢
    rw [if_neg (not_not.mpr hc), if_neg (by omega)]
    -- there is no row, and the last count is read behind the end of the data
    have hrows : (16 - 24) / 8 / wordAt buf (16 - 16) = 0 := Nat.zero_div _
    have hend : readUInt64 buf (8 + 8 * wordAt buf (16 - 16) * 0 + 8) = .error .defect := by
      unfold readUInt64
      exact if_pos (by omega)
    simp only [hrows, readIndexesList, hend]

/-- What an accepted index of the older format has: the positions of as many blocks as it says. -/
structure AcceptedOffsets (fileSize : Nat) (buf : List UInt8) (index : BlockIndex) : Prop where
  within : Within fileSize index.offsets
  stored : wordAt buf (8 + 8 * index.offsets.length) = index.offsets.length
  represented : index.startNumber + index.offsets.length < 2 ^ 64

theorem decodeBlockIndex_answers (hlength : buf.length < 2 ^ 63) :
    Answers (decodeBlockIndex buf startPos fileSize) (AcceptedOffsets fileSize buf) := by
  unfold decodeBlockIndex
  by_cases hsmall : buf.length < 16
  · rw [if_pos hsmall]
    exact nofun
  rw [if_neg hsmall]
  by_cases hmod : buf.length % 8 ≠ 0
  · rw [if_pos hmod]
    exact nofun
  rw [if_neg hmod, readUInt64_eq (by omega)]
  show Answers (if _ then _ else _) _
  by_cases hfishy : 2 ^ 31 - 1 < wordAt buf 0
  · rw [if_pos hfishy]
    exact nofun
  rw [if_neg hfishy]
  apply (@readIndexes_answers buf startPos fileSize (buf.length / 8 - 2) 8 (by omega)).bind
  intro offsets ⟨hlen, hwithin⟩
  rw [readUInt64_eq (by omega)]
  show Answers (if _ then _ else _) _
  by_cases hstored : buf.length / 8 - 2 ≠ wordAt buf (8 + 8 * (buf.length / 8 - 2))
  · rw [if_pos hstored]
    exact nofun
  · rw [if_neg hstored]
    rw [not_not, ← hlen] at hstored
    refine ⟨hwithin, hstored.symm, ?_⟩
    show wordAt buf 0 + offsets.length < 2 ^ 64
    omega

end

/-! ## Reading -/

variable {fmt : Formats}

/-- A program that ends as it should or reports an error. -/
def Total (x : ReadM α) (s : IoHandle) (Q : α → Prop) : Prop :=
  Meets x s (fun a _ => Q a) fun e _ => e ≠ .defect

theorem liftResult_total (r : Except String α) (s : IoHandle) :
    Total (liftResult r) s fun _ => True := by
  cases r with
  | ok a => exact trivial
  | error msg => exact nofun

theorem liftExcept_total {r : Except Failure α} (s : IoHandle) :
    Total (Native.Ere.liftExcept r) s Q ↔ Answers r Q := by
  cases r <;> exact Iff.rfl

/-- The record that stands at a position. -/
def recordAt (fmt : Formats) (content : List UInt8) (pos : Nat) :
    Except String (RecordType × List UInt8) :=
  fmt.store.readRecord (content.drop pos)

theorem total_bind {α β : Type} {x : ReadM α} {f : α → ReadM β} {s : IoHandle} {Q : β → Prop} :
    Total (x >>= f) s Q ↔
      Meets x s (fun a s' => Total (f a) s' Q) fun e _ => e ≠ .defect := by
  unfold Total Meets
  cases hx : x s with
  | ok a s' => rw [bind_of_ok hx]
  | error e s' => rw [bind_of_error hx]

variable {content : List UInt8}

theorem readRecord_total {f : RecordType × List UInt8 → ReadM α}
    {pos : Nat} :
    Total (readRecord fmt >>= f) ⟨content, pos⟩ Q ↔ ∀ typ data,
      recordAt fmt content pos = .ok (typ, data) →
        Total (f (typ, data)) ⟨content, pos + 8 + data.length⟩ Q := by
  rw [total_bind]
  show Meets (liftResult (recordAt fmt content pos) >>= _) _ _ _ ↔ _
  cases recordAt fmt content pos with
  | error msg => exact iff_of_true nofun fun _ _ h => nomatch h
  | ok record =>
    constructor
    · intro h typ data heq
      cases heq
      exact h
    · exact fun h => h record.1 record.2 rfl

section
variable (mergeBlockNumber : Nat) (noProofs noReceipts : Bool) (content : List UInt8) (pos : Nat)

theorem readDynamicBlockIndex_total {Q : DynamicBlockIndex → Prop} :
    Total (readDynamicBlockIndex fmt mergeBlockNumber noProofs noReceipts) ⟨content, pos⟩ Q ↔
      ∀ data, recordAt fmt content pos = .ok (E2DynamicBlockIndex, data) →
        Answers (decodeDynamicBlockIndex data pos content.length mergeBlockNumber noProofs
          noReceipts) Q := by
  unfold readDynamicBlockIndex
  rw [total_bind]
  show Total (readRecord fmt >>= _) ⟨content, pos⟩ Q ↔ _
  rw [readRecord_total]
  constructor
  · intro h data hdata
    have hdecode := h _ data hdata
    rw [if_neg (not_not.mpr rfl), liftExcept_total] at hdecode
    exact hdecode
  · intro h typ data hdata
    by_cases htyp : typ ≠ E2DynamicBlockIndex
    · rw [if_pos htyp]
      exact nofun
    · rw [if_neg htyp, liftExcept_total]
      rw [not_not] at htyp
      exact h data (htyp ▸ hdata)

theorem readBlockIndex_total {Q : BlockIndex → Prop} :
    Total (readBlockIndex fmt) ⟨content, pos⟩ Q ↔
      ∀ data, recordAt fmt content pos = .ok (E2BlockIndex, data) →
        Answers (decodeBlockIndex data pos content.length) Q := by
  unfold readBlockIndex
  rw [total_bind]
  show Total (readRecord fmt >>= _) ⟨content, pos⟩ Q ↔ _
  rw [readRecord_total]
  constructor
  · intro h data hdata
    have hdecode := h _ data hdata
    rw [if_neg (not_not.mpr rfl), liftExcept_total] at hdecode
    exact hdecode
  · intro h typ data hdata
    by_cases htyp : typ ≠ E2BlockIndex
    · rw [if_pos htyp]
      exact nofun
    · rw [if_neg htyp, liftExcept_total]
      rw [not_not] at htyp
      exact h data (htyp ▸ hdata)

end

/-- The two counts at the end of the file, the one of the components and the one of the blocks,
give a length that is too long for an integer. -/
def Overflows (fmt : Formats) (content : List UInt8) : Prop :=
  16 ≤ content.length ∧ ∃ componentCount count,
    fmt.store.readIndexCount (content.drop (content.length - 16)) = .ok componentCount ∧
    fmt.store.readIndexCount (content.drop (content.length - 8)) = .ok count ∧
    (2 ^ 63 ≤ count * 8 ∨ 2 ^ 63 ≤ count * 8 * componentCount + 32)

theorem setFilePos_total {offset : Int} {mode : SeekPosition} {s : IoHandle}
    {f : Unit → ReadM α} {origin : Int} (h : origin = match mode with
      | .seekBegin => 0
      | .seekCurrent => (s.pos : Int)
      | .seekEnd => s.content.length) :
    Total (setFilePos offset mode >>= f) s Q ↔
      (0 ≤ offset + origin → Total (f ()) ⟨s.content, (offset + origin).toNat⟩ Q) := by
  have hseek : Meets (if offset + origin < 0 then throw (.error "setFilePos")
      else set { s with pos := (offset + origin).toNat } : ReadM Unit) s
        (fun a s' => Total (f a) s' Q) (fun e _ => e ≠ .defect) ↔
      (0 ≤ offset + origin → Total (f ()) ⟨s.content, (offset + origin).toNat⟩ Q) := by
    by_cases hneg : offset + origin < 0
    · rw [if_pos hneg]
      exact iff_of_true nofun fun h => by omega
    · rw [if_neg hneg]
      exact ⟨fun h _ => h, fun h => h (by omega)⟩
  rw [total_bind, ← hseek, h]
  cases mode <;> rfl

theorem readIndexCount_total {pos : Nat} {f : Nat → ReadM α}
    :
    Total (readIndexCount fmt >>= f) ⟨content, pos⟩ Q ↔ ∀ count,
      fmt.store.readIndexCount (content.drop pos) = .ok count →
        Total (f count) ⟨content, pos + 8⟩ Q := by
  rw [total_bind]
  show Meets (liftResult (fmt.store.readIndexCount (content.drop pos)) >>= _) _ _ _ ↔ _
  cases fmt.store.readIndexCount (content.drop pos) with
  | error msg => exact iff_of_true nofun fun _ h => nomatch h
  | ok count =>
    constructor
    · intro h count' heq
      cases heq
      exact h
    · exact fun h => h count rfl

/-- The search for the index, followed by what is done where it begins. -/
theorem findDynamicBlockIndexStartOffset_total {f : Int → ReadM α}
    (hf : ∀ offset, Total (f offset) ⟨content, content.length⟩ Q) :
    Total (findDynamicBlockIndexStartOffset fmt >>= f) ⟨content, content.length⟩ Q ↔
      ¬ Overflows fmt content := by
  unfold findDynamicBlockIndexStartOffset
  simp only [bind_assoc]
  rw [setFilePos_total rfl]
  dsimp only
  constructor
  · intro h ⟨hlen, componentCount, count, hcomponents, hcount, hover⟩
    have hpos : (-16 + (content.length : Int)).toNat = content.length - 16 := by omega
    have hnext : content.length - 16 + 8 = content.length - 8 := by omega
    have hread := h (by omega)
    rw [hpos, readIndexCount_total] at hread
    have hread' := hread componentCount hcomponents
    rw [hnext, readIndexCount_total] at hread'
    have hcheck := hread' count hcount
    rw [if_pos hover] at hcheck
    exact hcheck rfl
  · intro hno hlen
    have hpos : (-16 + (content.length : Int)).toNat = content.length - 16 := by omega
    have hnext : content.length - 16 + 8 = content.length - 8 := by omega
    have hend : content.length - 8 + 8 = content.length := by omega
    rw [hpos, readIndexCount_total]
    intro componentCount hcomponents
    rw [hnext, readIndexCount_total]
    intro count hcount
    rw [hend, if_neg fun hover => hno ⟨by omega, componentCount, count, hcomponents, hcount, hover⟩]
    exact hf _

/-! ## Files -/

section
variable {mergeBlockNumber fileSize : Nat} {noProofs noReceipts : Bool} {data : List UInt8}

/-- The columns of the components that a file has are columns of its rows. -/
theorem getIndexesPos_answers {index : DynamicBlockIndex} {typ : RecordType}
    (h : Accepted mergeBlockNumber noProofs noReceipts fileSize data index)
    (htyp : typ ∈ [E2CompressedHeader, E2CompressedBody, E2CompressedSlimReceipts, E2Proof,
      E2TotalDifficulty]) :
    Answers (getIndexesPos index typ) (· < index.componentCount) := by
  have hcolumns := h.columns
  unfold componentCount at hcolumns
  rw [← h.receipts, ← h.proofs] at hcolumns
  unfold getIndexesPos
  by_cases hheader : typ = E2CompressedHeader
  · rw [if_pos hheader]
    show 0 < index.componentCount
    omega
  rw [if_neg hheader]
  by_cases hbody : typ = E2CompressedBody
  · rw [if_pos hbody]
    show 1 < index.componentCount
    omega
  rw [if_neg hbody]
  by_cases hreceipts : typ = E2CompressedSlimReceipts
  · rw [if_pos hreceipts]
    cases hno : index.noReceipts with
    | true => exact nofun
    | false =>
      rw [hno] at hcolumns
      simp only [Bool.false_eq_true, if_false] at hcolumns
      show 2 < index.componentCount
      omega
  rw [if_neg hreceipts]
  by_cases hproof : typ = E2Proof
  · rw [if_pos hproof]
    cases hno : index.noProofs with
    | true => exact nofun
    | false =>
      rw [hno] at hcolumns
      simp only [Bool.false_eq_true, if_false] at hcolumns
      show 2 + _ < index.componentCount
      omega
  rw [if_neg hproof, if_pos (by simpa [hheader, hbody, hreceipts, hproof] using htyp)]
  by_cases htd : 2 + (if index.noReceipts then 0 else 1) + (if index.noProofs then 0 else 1) + 1 =
      index.componentCount
  · rw [if_pos htd]
    show _ < index.componentCount
    rw [← htd]
    exact Nat.lt_succ_self _
  · rw [if_neg htd]
    exact nofun

theorem getNext_total {α : Type} (typ : RecordType) (what : String)
    (decode : List UInt8 → Except String α) (s : IoHandle) :
    Total (getNext fmt typ what decode) s fun _ => True := by
  unfold getNext
  rw [readRecord_total]
  intro typ' data _
  split
  · exact nofun
  · exact liftResult_total _ _

variable (fmt) in
/-- A getter for one component. -/
def componentAt {α : Type} (f : EreFile) (n : Nat) (typ : RecordType) (what : String)
    (decode : List UInt8 → Except String α) : ReadM α :=
  getAt f n typ (getNext fmt typ what decode)

theorem componentAt_total {α : Type} {f : EreFile} {n : Nat} {typ : RecordType} (what : String)
    (decode : List UInt8 → Except String α) (s : IoHandle)
    (h : Accepted mergeBlockNumber noProofs noReceipts fileSize data f.blockIdx)
    (hlength : f.blockIdx.indexesList.length = MaxEreSize)
    (hlow : f.blockIdx.startNumber ≤ n) (hhigh : n ≤ f.blockIdx.endNumber)
    (htyp : typ ∈ [E2CompressedHeader, E2CompressedBody, E2CompressedSlimReceipts, E2Proof,
      E2TotalDifficulty]) :
    Total (componentAt fmt f n typ what decode) s fun _ => True := by
  unfold componentAt getAt
  rw [if_neg (by omega), total_bind]
  have hcolumn := getIndexesPos_answers h htyp
  rw [← liftExcept_total s] at hcolumn
  refine hcolumn.mono (fun column s' hlt => ?_) fun _ _ he => he
  unfold DynamicBlockIndex.endNumber MaxEreSize at *
  have hrow : n - f.blockIdx.startNumber < f.blockIdx.indexesList.length := by omega
  have hcell := (h.rows _ (List.getElem_mem hrow)).1
  rw [List.getElem?_eq_getElem hrow, Option.bind_some,
    List.getElem?_eq_getElem (by rw [hcell]; exact hlt)]
  show Total (setFilePos _ .seekBegin >>= fun _ => _) s' _
  rw [setFilePos_total rfl]
  exact fun _ => getNext_total typ what decode _

end

/-- The getters of a file, for the blocks that it has. -/
def GettersTotal (fmt : Formats) (f : EreFile) : Prop :=
  ∀ n, f.blockIdx.startNumber ≤ n → n ≤ f.blockIdx.endNumber → ∀ s,
    Total (getBlockHeader fmt f n) s (fun _ => True) ∧
    Total (getBlockBody fmt f n) s (fun _ => True) ∧
    Total (getReceipts fmt f n) s (fun _ => True) ∧
    Total (getProof fmt f n) s (fun _ => True) ∧
    Total (getTotalDifficulty fmt f n) s (fun _ => True) ∧
    Total (getEthBlock fmt f n) s (fun _ => True)

/-- Whatever is asked of a file, the answer is a result or an error, and an index that is
accepted is one of the file. -/
structure Opens (fmt : Formats) (mergeBlockNumber : Nat) (noProofs noReceipts : Bool)
    (content : List UInt8) : Prop where
  file : ∀ pos, Total (openEreFile fmt mergeBlockNumber noProofs noReceipts) ⟨content, pos⟩ fun f =>
    (∃ data, Accepted mergeBlockNumber noProofs noReceipts content.length data f.blockIdx) ∧
      GettersTotal fmt f
  index : ∀ pos, Total (readDynamicBlockIndex fmt mergeBlockNumber noProofs noReceipts)
    ⟨content, pos⟩ fun index => ∃ data, recordAt fmt content pos = .ok (E2DynamicBlockIndex, data) ∧
      Accepted mergeBlockNumber noProofs noReceipts content.length data index
  offsets : ∀ pos, Total (readBlockIndex fmt) ⟨content, pos⟩ fun index =>
    ∃ data, recordAt fmt content pos = .ok (E2BlockIndex, data) ∧
      AcceptedOffsets content.length data index

theorem gettersTotal {mergeBlockNumber fileSize : Nat} {noProofs noReceipts : Bool}
    {data : List UInt8} {f : EreFile}
    (h : Accepted mergeBlockNumber noProofs noReceipts fileSize data f.blockIdx)
    (hlength : f.blockIdx.indexesList.length = MaxEreSize) : GettersTotal fmt f := by
  intro n hlow hhigh s
  have hheader (s : IoHandle) : Total (getBlockHeader fmt f n) s fun _ => True :=
    componentAt_total _ _ s h hlength hlow hhigh (by simp)
  have hbody (s : IoHandle) : Total (getBlockBody fmt f n) s fun _ => True :=
    componentAt_total _ _ s h hlength hlow hhigh (by simp)
  refine ⟨hheader s, hbody s, componentAt_total _ _ s h hlength hlow hhigh (by simp),
    componentAt_total _ _ s h hlength hlow hhigh (by simp),
    componentAt_total _ _ s h hlength hlow hhigh (by simp), ?_⟩
  exact (hheader s).andThen
    (fun _ s' _ => (hbody s').andThen (fun _ _ _ => trivial) fun _ _ he => he) fun _ _ he => he

/-- A file is opened and read without a defect, whatever is asked of it, if and only if the
length that the counts at its end give is no overflow, and the counts of each index record in
it can be calculated with. -/
theorem opens_iff (fmt : Formats) (mergeBlockNumber : Nat) (noProofs noReceipts : Bool)
    (content : List UInt8) (hsize : content.length < 2 ^ 63)
    (hrecord : ∀ bytes typ data, fmt.store.readRecord bytes = .ok (typ, data) →
      data.length ≤ bytes.length) :
    Opens fmt mergeBlockNumber noProofs noReceipts content ↔
      ¬ Overflows fmt content ∧
        ∀ pos data, recordAt fmt content pos = .ok (E2DynamicBlockIndex, data) →
          Countable mergeBlockNumber noProofs noReceipts data := by
  have hdata {pos : Nat} {typ : RecordType} {data : List UInt8}
      (h : recordAt fmt content pos = .ok (typ, data)) : data.length < 2 ^ 63 := by
    have hle := hrecord _ _ _ h
    rw [List.length_drop] at hle
    omega
  have hindex (hcount : ∀ pos data, recordAt fmt content pos = .ok (E2DynamicBlockIndex, data) →
      Countable mergeBlockNumber noProofs noReceipts data) (pos : Nat) :
      Total (readDynamicBlockIndex fmt mergeBlockNumber noProofs noReceipts) ⟨content, pos⟩
        fun index => ∃ data, recordAt fmt content pos = .ok (E2DynamicBlockIndex, data) ∧
          Accepted mergeBlockNumber noProofs noReceipts content.length data index := by
    rw [readDynamicBlockIndex_total]
    intro data hat
    refine (decodeDynamicBlockIndex_answers (hdata hat) (hcount pos data hat)).imp ?_
    exact fun index haccepted => ⟨data, hat, haccepted⟩
  have hcheck (hcount : ∀ pos data, recordAt fmt content pos = .ok (E2DynamicBlockIndex, data) →
      Countable mergeBlockNumber noProofs noReceipts data) (pos : Nat) :
      Total (openEreFile fmt mergeBlockNumber noProofs noReceipts) ⟨content, pos⟩ (fun f =>
        (∃ data, Accepted mergeBlockNumber noProofs noReceipts content.length data f.blockIdx) ∧
          GettersTotal fmt f) ↔ ¬ Overflows fmt content := by
    unfold openEreFile
    rw [setFilePos_total rfl, Int.zero_add, imp_iff_right (Int.natCast_nonneg _)]
    apply findDynamicBlockIndexStartOffset_total
    intro offset
    rw [setFilePos_total rfl]
    intro _
    refine (hindex hcount _).andThen (fun index s ⟨data, _, haccepted⟩ => ?_) fun _ _ he => he
    by_cases hlength : index.indexesList.length ≠ MaxEreSize
    · rw [if_pos hlength]
      exact nofun
    · rw [if_neg hlength]
      exact ⟨⟨data, haccepted⟩, gettersTotal haccepted (not_not.mp hlength)⟩
  constructor
  · intro h
    have hcount : ∀ pos data, recordAt fmt content pos = .ok (E2DynamicBlockIndex, data) →
        Countable mergeBlockNumber noProofs noReceipts data := by
      intro pos data hat
      by_contra hbad
      have hdecode := readDynamicBlockIndex_total .. |>.mp (h.index pos) data hat
      rw [decodeDynamicBlockIndex_defect hbad] at hdecode
      exact hdecode rfl
    exact ⟨(hcheck hcount 0).mp (h.file 0), hcount⟩
  · intro ⟨hover, hcount⟩
    refine ⟨fun pos => (hcheck hcount pos).mpr hover, hindex hcount, fun pos => ?_⟩
    rw [readBlockIndex_total]
    intro data hat
    exact (decodeBlockIndex_answers (hdata hat)).imp fun index haccepted =>
      ⟨data, hat, haccepted⟩

/-! ## A file without components -/

/-- Records have their type, the length of the data and two zero bytes in front. -/
def plainFormats : Formats where
  store := {
    version := (0x65, 0x32)
    header := fun typ len => typ.1 :: typ.2 :: (toBytesLE 4 len ++ [0, 0])
    readRecord := fun bytes =>
      match bytes with
      | a :: b :: rest => .ok ((a, b), (rest.drop 6).take (fromBytesLE (rest.take 4)))
      | _ => .error "readRecord"
    readIndexCount := fun bytes => .ok (fromBytesLE (bytes.take 8)) }
  headers := ⟨fun _ => [], fun _ => .error "header"⟩
  bodies := ⟨fun _ => [], fun _ => .error "body"⟩
  receipts := ⟨fun _ => [], fun _ => .error "receipts"⟩
  proofs := ⟨fun _ => [], fun _ => .error "proof"⟩
  computeRlpHash header := header.number
  unclesHash uncles := uncles.length
  calcTxRoot txs := txs.length
  calcReceiptsRoot receipts := receipts.length
  hashTreeRoot _ := Vector.replicate 32 0
  decodesSsz _ _ := false

/-- An index whose blocks have no components. -/
def noComponents : List UInt8 :=
  plainFormats.store.header E2DynamicBlockIndex 24 ++
    (toBytesLE 8 0 ++ (toBytesLE 8 0 ++ toBytesLE 8 MaxEreSize))

theorem plainFormats_noComponents : Opens plainFormats 0 false false noComponents ↔
      ¬ Overflows plainFormats noComponents ∧
        ∀ pos data, recordAt plainFormats noComponents pos = .ok (E2DynamicBlockIndex, data) →
          Countable 0 false false data := by
  apply opens_iff
  · decide +kernel
  · intro bytes typ data h
    unfold plainFormats at h
    dsimp only at h
    split at h
    · cases h
      rw [List.length_take, List.length_drop]
      simp only [List.length_cons]
      omega
    · cases h

/-- Its number of blocks is divided by zero. -/
theorem noComponents_defect : ¬ Opens plainFormats 0 false false noComponents := by
  intro h
  have hopen : (match openEreFile plainFormats 0 false false ⟨noComponents, 0⟩ with
      | .error .defect _ => true
      | _ => false) = true := by decide +kernel
  have hfile := h.file 0
  unfold Total Meets at hfile
  split at hopen
  · next heq =>
    rw [heq] at hfile
    exact hfile rfl
  · cases hopen

end Nimbus.Spec.Ere
