import Nimbus.Spec.BlobBytes
import Nimbus.Spec.VertexBlob

/-!
# Which bytes the decoder of a frame cannot take

A frame from outside is decoded, or refused with an error, unless an identifier of no bytes or a
vertex record of a bad shape is reached. The bytes in front of it are those of a frame that would
be decoded.
-/

namespace Nimbus.Spec.FrameBlob

open Native Native.Aristo BigEndian Reader Blobify

/-- The defects among what stops a decoder. -/
def IsDefect (s : DeblobStop) : Prop := ∃ defect, s = .defect defect

variable {α : Type}

theorem total_iff (d : Deblob α) : Total d ↔ ¬ ∃ s, IsDefect s ∧ d = .error s := by
  constructor
  · rintro htotal ⟨_, ⟨defect, rfl⟩, h⟩
    exact htotal defect h
  · intro h defect heq
    exact h ⟨_, ⟨defect, rfl⟩, heq⟩

/-! ## What a frame is made of -/

/-- The version, the last identifier, and the block number with its flag. -/
def header : Language UInt8 :=
  {w | ∃ vTop bnFlag bnVal, vTop < 256 ^ 8 ∧ bnVal < 256 ^ 8 ∧
    w = TX_FRAME_VERSION :: (toBytes 8 vTop ++ bnFlag :: toBytes 8 bnVal)}

/-- A number of entries, and as many entries. -/
def table (entry : Language UInt8) : Language UInt8 :=
  {w | ∃ count, count < 256 ^ 4 ∧ ∃ entries ∈ entry ^ count, w = toBytes 4 count ++ entries}

/-- A number of entries, fewer of them, and bytes that are no entry. -/
def badTable (entry bad : Language UInt8) : Language UInt8 :=
  {w | ∃ count, count < 256 ^ 4 ∧ ∃ n, n < count ∧ ∃ entries ∈ entry ^ n * bad,
    w = toBytes 4 count ++ entries}

def rvidField : Language UInt8 :=
  {w | ∃ rvid, RVidForm rvid ∧ w = UInt8.ofNat rvid.length :: rvid}

/-- A flag, and behind a flag that is set a record of a vertex with its length. -/
def vertexField (good : Outcome → Prop) : Language UInt8 :=
  {w | w = [0] ∨ ∃ flag blob, flag ≠ 0 ∧ good (vertexOutcome blob) ∧ blob.length < 256 ^ 2 ∧
    w = flag :: (toBytes 2 blob.length ++ blob)}

def badVertexField : Language UInt8 :=
  {w | ∃ flag blob, flag ≠ 0 ∧ vertexOutcome blob = .defect ∧ blob.length < 256 ^ 2 ∧
    w = flag :: (toBytes 2 blob.length ++ blob)}

def pathField : Language UInt8 := {w | w.length = 32}

/-- A vertex of any type, behind its identifier. -/
def stEntry : Language UInt8 :=
  rvidField * vertexField (· ∈ [Outcome.branch, .accLeaf, .stoLeaf])

/-- An identifier of no bytes, or a bad record behind an identifier. -/
def badStEntry : Language UInt8 := {[0]} + rvidField * badVertexField

/-- A leaf of a type, behind its path. -/
def leafEntry (type : Outcome) : Language UInt8 := pathField * vertexField (· = type)

def badLeafEntry : Language UInt8 := pathField * badVertexField

/-- The frames up to and with an entry that is a defect. -/
def badFrame : Language UInt8 :=
  header * (badTable stEntry badStEntry +
    table stEntry * (badTable (leafEntry .accLeaf) badLeafEntry +
      table (leafEntry .accLeaf) * badTable (leafEntry .stoLeaf) badLeafEntry))

/-! ## What the readers read -/

section
variable {data : List UInt8}

theorem readU8_reads : Reads data IsDefect id (readU8 data) (fun b => {[b]}) 0 where
  ok {pos} hpos b q := by
    show (∃ a, id a = b ∧ readU8 data pos = .ok (a, q)) ↔ _
    unfold readU8
    by_cases hend : pos ≥ data.length
    · rw [if_pos hend]
      refine ⟨fun ⟨_, _, h⟩ => (nomatch h), ?_⟩
      rintro ⟨_, rfl, hslice, -⟩
      have hle := hslice.le_length
      rw [List.length_singleton] at hle
      omega
    · rw [if_neg hend, @byteAt_ok data pos (by omega) _ rfl]
      constructor
      · rintro ⟨b', hb, h⟩
        obtain rfl : b' = b := hb
        cases h
        refine ⟨_, rfl, ⟨data.take pos, data.drop (pos + 1), ?_, List.length_take_of_le hpos⟩, rfl⟩
        have hlt : pos < data.length := by omega
        rw [List.singleton_append, List.getD_eq_getElem?_getD, List.getElem?_eq_getElem hlt,
          Option.getD_some, List.getElem_cons_drop, List.take_append_drop]
      · rintro ⟨_, rfl, hslice, rfl⟩
        have hbyte := byteAt_slice hslice (i := pos) rfl
        rw [@byteAt_ok data pos (by omega) _ rfl] at hbyte
        exact ⟨b, rfl, by rw [Except.ok.inj hbyte]; rfl⟩
  crash {pos} hpos := by
    refine ⟨?_, fun ⟨w, h, _⟩ => absurd h (Language.notMem_zero w)⟩
    rintro ⟨s, ⟨defect, rfl⟩, h⟩
    change readU8 data pos = _ at h
    unfold readU8 at h
    by_cases hend : pos ≥ data.length
    · rw [if_pos hend] at h
      cases h
    · rw [if_neg hend, @byteAt_ok data pos (by omega) _ rfl] at h
      cases h

theorem readBytes_reads (n : Nat) : Reads data IsDefect id (readBytes data n)
    (fun bytes => {w | w = bytes ∧ bytes.length = n}) 0 where
  ok {pos} hpos bytes q := by
    show (∃ a, id a = bytes ∧ readBytes data n pos = .ok (a, q)) ↔ _
    unfold readBytes
    by_cases hend : (pos : Int) + n - 1 ≥ data.length
    · rw [if_pos hend]
      refine ⟨fun ⟨_, _, h⟩ => (nomatch h), ?_⟩
      rintro ⟨_, ⟨rfl, hlen⟩, hslice, -⟩
      have hle := hslice.le_length
      omega
    · have hslice : SliceAt data pos ((data.drop pos).take n) := by
        refine ⟨data.take pos, (data.drop pos).drop n, ?_, List.length_take_of_le hpos⟩
        rw [List.take_append_drop, List.take_append_drop]
      have hlen : ((data.drop pos).take n).length = n := by
        rw [List.length_take, List.length_drop]
        omega
      rw [if_neg hend, toOpenArray_slice hslice rfl (by omega)]
      constructor
      · rintro ⟨_, rfl, h⟩
        cases h
        exact ⟨_, ⟨rfl, hlen⟩, hslice, congrArg (pos + ·) hlen.symm⟩
      · rintro ⟨_, ⟨rfl, hn⟩, hslice', rfl⟩
        have htake := hslice'.take
        rw [hn] at htake
        exact ⟨_, rfl, by rw [htake, hn]; rfl⟩
  crash {pos} hpos := by
    refine ⟨?_, fun ⟨w, h, _⟩ => absurd h (Language.notMem_zero w)⟩
    rintro ⟨s, ⟨defect, rfl⟩, h⟩
    change readBytes data n pos = _ at h
    unfold readBytes at h
    by_cases hend : (pos : Int) + n - 1 ≥ data.length
    · rw [if_pos hend] at h
      cases h
    · obtain ⟨bytes, hopen, -⟩ := @toOpenArray_ok data pos (pos + n - 1) (by omega) (by omega)
        (by omega)
      rw [if_neg hend, hopen] at h
      cases h

theorem readNumber_reads (n : Nat) :
    Reads data IsDefect id (readBytes data n >>= fun bytes => pure (ofBytes bytes))
      (fun v => {w | v < 256 ^ n ∧ w = toBytes n v}) 0 := by
  refine ((readBytes_reads n).bindSafe fun bytes => Reads.value (ofBytes bytes)).congr
    (funext fun v => Language.ext fun w => ?_) rfl
  constructor
  · rintro ⟨bytes, hw⟩
    obtain ⟨word, ⟨rfl, hlen⟩, _, ⟨rfl, hv⟩, rfl⟩ := Language.mem_mul.mp hw
    obtain rfl : ofBytes word = v := hv
    have hlt := ofBytes_lt word
    have hbytes := toBytes_ofBytes word
    rw [hlen] at hlt hbytes
    exact ⟨hlt, by rw [List.append_nil, hbytes]⟩
  · rintro ⟨hv, rfl⟩
    exact ⟨toBytes n v, Language.mem_mul.mpr ⟨_, ⟨rfl, toBytes_length n v⟩, [],
      ⟨rfl, ofBytes_toBytes_of_lt hv⟩, List.append_nil _⟩⟩

theorem readBlob_reads : Reads data IsDefect id (readBlob data)
    (fun blob => {w | blob.length < 256 ^ 2 ∧ w = toBytes 2 blob.length ++ blob}) 0 := by
  refine ((readNumber_reads 2).bindSafe fun n => readBytes_reads n).congr
    (funext fun blob => Language.ext fun w => ?_) rfl
  constructor
  · rintro ⟨n, hw⟩
    obtain ⟨_, ⟨hn, rfl⟩, _, ⟨rfl, rfl⟩, rfl⟩ := Language.mem_mul.mp hw
    exact ⟨hn, rfl⟩
  · rintro ⟨hlen, rfl⟩
    exact ⟨blob.length, Language.mem_mul.mpr ⟨_, ⟨hlen, rfl⟩, _, ⟨rfl, rfl⟩, rfl⟩⟩

/-- Of an identifier all forms are read, and the one of no bytes is a defect. -/
theorem readRVid_reads :
    Reads data IsDefect nothing (readRVid data) (fun _ => rvidField) {[0]} := by
  refine (readU8_reads.bindFirst fun len => (readBytes_reads len.toNat).bindFirst fun bytes =>
    Reads.lift (RootedVertexID.deblobify bytes)).congr
      (funext fun _ => Language.ext fun w => ?_) (Language.ext fun w => ?_)
  · constructor
    · rintro ⟨len, hw⟩
      obtain ⟨_, rfl, v, ⟨rvid, hv⟩, rfl⟩ := Language.mem_mul.mp hw
      obtain ⟨_, ⟨rfl, hlen⟩, _, ⟨rfl, id, -, hid⟩, rfl⟩ := Language.mem_mul.mp hv
      refine ⟨_, ?_, by rw [hlen, UInt8.ofNat_toNat, List.append_nil]; rfl⟩
      rcases rvid_outcome _ with ⟨hform, -⟩ | ⟨-, _, h⟩ | ⟨-, -, _, h⟩
      · exact hform
      · exact nomatch h.symm.trans hid
      · exact nomatch h.symm.trans hid
    · rintro ⟨rvid, hform, rfl⟩
      have hlen : (UInt8.ofNat rvid.length).toNat = rvid.length :=
        UInt8.toNat_ofNat_of_lt' (by
          have hsize : UInt8.size = 256 := rfl
          unfold RVidForm at hform
          omega)
      rcases rvid_outcome rvid with ⟨-, id, hid⟩ | ⟨rfl, -⟩ | ⟨h, -⟩
      · exact ⟨_, Language.mem_mul.mpr ⟨[_], rfl, rvid, ⟨rvid, Language.mem_mul.mpr
          ⟨rvid, ⟨rfl, hlen.symm⟩, [], ⟨rfl, id, rfl, hid⟩, List.append_nil _⟩⟩, rfl⟩⟩
      · exact absurd hform.1 (by decide)
      · exact absurd hform h
  · constructor
    · rintro ⟨len, hw⟩
      obtain ⟨_, rfl, v, ⟨rvid, hv⟩, rfl⟩ := Language.mem_mul.mp hw
      obtain ⟨_, ⟨rfl, hlen⟩, _, ⟨rfl, s, ⟨defect, rfl⟩, hs⟩, rfl⟩ := Language.mem_mul.mp hv
      rcases rvid_outcome _ with ⟨-, _, h⟩ | ⟨hnil, -⟩ | ⟨-, -, _, h⟩
      · exact nomatch h.symm.trans hs
      · rw [hnil] at hlen
        have hzero : len = 0 := UInt8.toNat_inj.mp hlen.symm
        rw [hnil, hzero]
        rfl
      · exact nomatch (Except.error.inj (h.symm.trans hs))
    · rintro rfl
      exact ⟨0, Language.mem_mul.mpr ⟨[0], rfl, [], ⟨[], Language.mem_mul.mpr
        ⟨[], ⟨rfl, rfl⟩, [], ⟨rfl, _, ⟨_, rfl⟩, rfl⟩, rfl⟩⟩, rfl⟩⟩

/-- Behind a flag, what is done with a vertex takes no more bytes. -/
theorem vertexField_reads {skip : Load α} {take : List UInt8 → Load α}
    {good : Outcome → Prop} (hskip : Reads data IsDefect nothing skip (fun _ => 1) 0)
    (htake : ∀ blob, Reads data IsDefect nothing (take blob)
      (fun _ => {w | w = [] ∧ good (vertexOutcome blob)})
      {w | w = [] ∧ vertexOutcome blob = .defect}) :
    Reads data IsDefect nothing
      (readU8 data >>= fun present => if present = 0x00 then skip else readBlob data >>= take)
      (fun _ => vertexField good) badVertexField := by
  have hread (present : UInt8) : Reads data IsDefect nothing
      (if present = 0x00 then skip else readBlob data >>= take)
      (fun _ => {w | (present = 0 ∧ w = []) ∨ (present ≠ 0 ∧ ∃ blob, good (vertexOutcome blob) ∧
        blob.length < 256 ^ 2 ∧ w = toBytes 2 blob.length ++ blob)})
      {w | present ≠ 0 ∧ ∃ blob, vertexOutcome blob = .defect ∧
        blob.length < 256 ^ 2 ∧ w = toBytes 2 blob.length ++ blob} := by
    by_cases hzero : present = 0
    · rw [if_pos hzero]
      refine hskip.congr (funext fun _ => Language.ext fun w => ?_) (Language.ext fun w => ?_)
      · exact ⟨fun h => .inl ⟨hzero, h⟩, fun h => h.elim (·.2) fun h => absurd hzero h.1⟩
      · exact ⟨fun h => absurd h (Language.notMem_zero w), fun h => absurd hzero h.1⟩
    · rw [if_neg hzero]
      refine (readBlob_reads.bindFirst htake).congr (funext fun _ => Language.ext fun w => ?_)
        (Language.ext fun w => ?_)
      · constructor
        · rintro ⟨blob, hw⟩
          obtain ⟨_, ⟨hlen, rfl⟩, _, ⟨rfl, hgood⟩, rfl⟩ := Language.mem_mul.mp hw
          exact .inr ⟨hzero, blob, hgood, hlen, List.append_nil _⟩
        · rintro (h | ⟨-, blob, hgood, hlen, rfl⟩)
          · exact absurd h.1 hzero
          · exact ⟨blob, Language.mem_mul.mpr
              ⟨_, ⟨hlen, rfl⟩, [], ⟨rfl, hgood⟩, List.append_nil _⟩⟩
      · constructor
        · rintro ⟨blob, hw⟩
          obtain ⟨_, ⟨hlen, rfl⟩, _, ⟨rfl, hbad⟩, rfl⟩ := Language.mem_mul.mp hw
          exact ⟨hzero, blob, hbad, hlen, List.append_nil _⟩
        · rintro ⟨-, blob, hbad, hlen, rfl⟩
          exact ⟨blob, Language.mem_mul.mpr
            ⟨_, ⟨hlen, rfl⟩, [], ⟨rfl, hbad⟩, List.append_nil _⟩⟩
  refine (readU8_reads.bindFirst hread).congr (funext fun _ => Language.ext fun w => ?_)
    (Language.ext fun w => ?_)
  · constructor
    · rintro ⟨present, hw⟩
      obtain ⟨_, rfl, v, h | ⟨hflag, blob, hgood, hlen, rfl⟩, rfl⟩ := Language.mem_mul.mp hw
      · obtain ⟨rfl, rfl⟩ := h
        exact .inl rfl
      · exact .inr ⟨present, blob, hflag, hgood, hlen, rfl⟩
    · rintro (rfl | ⟨flag, blob, hflag, hgood, hlen, rfl⟩)
      · exact ⟨0, Language.mem_mul.mpr ⟨[0], rfl, [], .inl ⟨rfl, rfl⟩, rfl⟩⟩
      · exact ⟨flag, Language.mem_mul.mpr
          ⟨[flag], rfl, _, .inr ⟨hflag, blob, hgood, hlen, rfl⟩, rfl⟩⟩
  · constructor
    · rintro ⟨present, hw⟩
      obtain ⟨_, rfl, v, ⟨hflag, blob, hbad, hlen, rfl⟩, rfl⟩ := Language.mem_mul.mp hw
      exact ⟨present, blob, hflag, hbad, hlen, rfl⟩
    · rintro ⟨flag, blob, hflag, hbad, hlen, rfl⟩
      exact ⟨flag, Language.mem_mul.mpr ⟨[flag], rfl, _, ⟨hflag, blob, hbad, hlen, rfl⟩, rfl⟩⟩

theorem readTable_reads {readEntry : α → Load α} {entry bad : Language UInt8}
    (hentry : ∀ res, Reads data IsDefect nothing (readEntry res) (fun _ => entry) bad) (res : α) :
    Reads data IsDefect nothing (readTable data readEntry res) (fun _ => table entry)
      (badTable entry bad) := by
  refine ((readNumber_reads 4).bindFirst fun count => Reads.iterate hentry count res).congr
    (funext fun _ => Language.ext fun w => ?_) (Language.ext fun w => ?_)
  · constructor
    · rintro ⟨count, hw⟩
      obtain ⟨_, ⟨hcount, rfl⟩, entries, hentries, rfl⟩ := Language.mem_mul.mp hw
      exact ⟨count, hcount, entries, hentries, rfl⟩
    · rintro ⟨count, hcount, entries, hentries, rfl⟩
      exact ⟨count, Language.mem_mul.mpr ⟨_, ⟨hcount, rfl⟩, entries, hentries, rfl⟩⟩
  · constructor
    · rintro ⟨count, hw⟩
      obtain ⟨_, ⟨hcount, rfl⟩, entries, ⟨n, hn, hentries⟩, rfl⟩ := Language.mem_mul.mp hw
      exact ⟨count, hcount, n, hn, entries, hentries, rfl⟩
    · rintro ⟨count, hcount, n, hn, entries, hentries, rfl⟩
      exact ⟨count, Language.mem_mul.mpr
        ⟨_, ⟨hcount, rfl⟩, entries, ⟨n, hn, hentries⟩, rfl⟩⟩

theorem readHeader_reads : Reads data IsDefect nothing (readHeader data) (fun _ => header) 0 := by
  have hrest (version : UInt8) : Reads data IsDefect nothing
      (if version ≠ TX_FRAME_VERSION then throw (.err .DeblobTxFrameVersion)
        else readU64BE data >>= fun vTop => readU8 data >>= fun bnFlag =>
          readU64BE data >>= fun bnVal => pure
            { vTop, blockNumber := if bnFlag ≠ 0 then some bnVal else none : TxFrameData })
      (fun _ => {w | version = TX_FRAME_VERSION ∧ ∃ vTop bnFlag bnVal, vTop < 256 ^ 8 ∧
        bnVal < 256 ^ 8 ∧ w = toBytes 8 vTop ++ bnFlag :: toBytes 8 bnVal}) 0 := by
    by_cases hversion : version = TX_FRAME_VERSION
    · rw [if_neg (not_not_intro hversion)]
      refine ((readNumber_reads 8).bindSafe fun vTop => readU8_reads.bindSafe fun bnFlag =>
        (readNumber_reads 8).bindSafe fun bnVal => Reads.done _).congr
          (funext fun _ => Language.ext fun w => ?_) rfl
      constructor
      · rintro ⟨vTop, hw⟩
        obtain ⟨_, ⟨hvTop, rfl⟩, v, ⟨bnFlag, hv⟩, rfl⟩ := Language.mem_mul.mp hw
        obtain ⟨_, rfl, u, ⟨bnVal, hu⟩, rfl⟩ := Language.mem_mul.mp hv
        obtain ⟨_, ⟨hbnVal, rfl⟩, _, rfl, rfl⟩ := Language.mem_mul.mp hu
        exact ⟨hversion, vTop, bnFlag, bnVal, hvTop, hbnVal, by rw [List.append_nil]; rfl⟩
      · rintro ⟨-, vTop, bnFlag, bnVal, hvTop, hbnVal, rfl⟩
        exact ⟨vTop, Language.mem_mul.mpr ⟨_, ⟨hvTop, rfl⟩, _, ⟨bnFlag,
          Language.mem_mul.mpr ⟨[bnFlag], rfl, _, ⟨bnVal, Language.mem_mul.mpr
            ⟨_, ⟨hbnVal, rfl⟩, [], rfl, List.append_nil _⟩⟩, rfl⟩⟩, rfl⟩⟩
    · rw [if_pos hversion]
      refine (Reads.ofExcept (.error (DeblobStop.err .DeblobTxFrameVersion)) fun _ => rfl).congr
        (funext fun _ => Language.ext fun w => ?_) (Language.ext fun w => ?_)
      · exact ⟨fun ⟨_, _, _, h⟩ => (nomatch h), fun h => absurd h.1 hversion⟩
      · refine ⟨?_, fun h => absurd h (Language.notMem_zero w)⟩
        rintro ⟨-, _, ⟨defect, rfl⟩, h⟩
        exact nomatch Except.error.inj h
  refine (readU8_reads.bindSafe hrest).congr (funext fun _ => Language.ext fun w => ?_) rfl
  constructor
  · rintro ⟨version, hw⟩
    obtain ⟨_, rfl, _, ⟨rfl, vTop, bnFlag, bnVal, hvTop, hbnVal, rfl⟩, rfl⟩ :=
      Language.mem_mul.mp hw
    exact ⟨vTop, bnFlag, bnVal, hvTop, hbnVal, rfl⟩
  · rintro ⟨vTop, bnFlag, bnVal, hvTop, hbnVal, rfl⟩
    exact ⟨_, Language.mem_mul.mpr
      ⟨[_], rfl, _, ⟨rfl, vTop, bnFlag, bnVal, hvTop, hbnVal, rfl⟩, rfl⟩⟩

theorem readPath_reads : Reads data IsDefect nothing (readBytes data 32) (fun _ => pathField) 0 :=
  (readBytes_reads 32).erase.congr
    (funext fun _ => Language.ext fun _ => ⟨fun ⟨_, h, hlen⟩ => h ▸ hlen, fun h => ⟨_, rfl, h⟩⟩) rfl

theorem accLeaf?_isSome {o : Outcome} {vtx : Vertex} (h : o.Of (.ok vtx)) :
    o = .accLeaf ↔ (accLeaf? vtx).isSome := by
  cases o with
  | accLeaf =>
    obtain ⟨_, h⟩ := h
    cases h
    exact iff_of_true rfl rfl
  | stoLeaf =>
    obtain ⟨_, h⟩ := h
    cases h
    exact iff_of_false Outcome.noConfusion Bool.noConfusion
  | branch =>
    obtain ⟨_, h, hbranch⟩ := h
    cases h
    cases vtx with
    | AccLeaf leaf => exact Bool.noConfusion hbranch
    | _ => exact iff_of_false Outcome.noConfusion Bool.noConfusion
  | rejected => exact nomatch h
  | defect => exact nomatch h

theorem stoLeaf?_isSome {o : Outcome} {vtx : Vertex} (h : o.Of (.ok vtx)) :
    o = .stoLeaf ↔ (stoLeaf? vtx).isSome := by
  cases o with
  | stoLeaf =>
    obtain ⟨_, h⟩ := h
    cases h
    exact iff_of_true rfl rfl
  | accLeaf =>
    obtain ⟨_, h⟩ := h
    cases h
    exact iff_of_false Outcome.noConfusion Bool.noConfusion
  | branch =>
    obtain ⟨_, h, hbranch⟩ := h
    cases h
    cases vtx with
    | StoLeaf leaf => exact Bool.noConfusion hbranch
    | _ => exact iff_of_false Outcome.noConfusion Bool.noConfusion
  | rejected => exact nomatch h
  | defect => exact nomatch h

section
variable [HexPrefix] [Keccak]

/-- A vertex is decoded, and is used without reading on, if it is one that can be used. -/
theorem take_reads {blob : List UInt8} {good : Outcome → Prop} {use : Vertex → Load α}
    (huse : ∀ o vtx, Outcome.Of o (.ok vtx) →
      (good o ∧ ∃ a, ∀ pos, (use vtx).run pos = .ok (a, pos)) ∨
        (¬ good o ∧ ∃ error, ∀ pos, (use vtx).run pos = .error (.err error)))
    (hrejected : ¬ good .rejected) (hdefect : ¬ good .defect) :
    Reads data IsDefect nothing (liftM (Vertex.deblobify blob) >>= use)
      (fun _ => {w | w = [] ∧ good (vertexOutcome blob)})
      {w | w = [] ∧ vertexOutcome blob = .defect} := by
  have hof := vertex_outcome blob
  generalize vertexOutcome blob = o at hof ⊢
  -- What the decoder returns decides, wherever the record stands.
  suffices ∃ d : Deblob α, (∀ pos, (liftM (Vertex.deblobify blob) >>= use).run pos =
      d.map fun a => (a, pos)) ∧ ((∃ a, d = .ok a) ↔ good o) ∧
        ((∃ s, IsDefect s ∧ d = .error s) ↔ o = .defect) by
    obtain ⟨d, hrun, hgood, hbad⟩ := this
    refine (Reads.ofExcept d hrun).congr (funext fun _ => Language.ext fun w => ?_)
      (Language.ext fun w => and_congr_right fun _ => hbad)
    refine and_congr_right fun _ => ?_
    rw [← hgood]
    exact exists_congr fun _ => and_iff_right rfl
  cases hvtx : Vertex.deblobify blob with
  | ok vtx =>
    rw [hvtx] at hof
    have hnot : ¬ o = .defect := hof.not_defect
    rcases huse o vtx hof with ⟨hgood, a, ha⟩ | ⟨hbad, error, herr⟩
    · exact ⟨.ok a, ha, iff_of_true ⟨a, rfl⟩ hgood,
        iff_of_false (fun ⟨_, _, h⟩ => (nomatch h)) hnot⟩
    · refine ⟨.error (.err error), herr, iff_of_false (fun ⟨_, h⟩ => (nomatch h)) hbad,
        iff_of_false ?_ hnot⟩
      rintro ⟨_, ⟨defect, rfl⟩, h⟩
      exact nomatch Except.error.inj h
  | error s =>
    rw [hvtx] at hof
    cases s with
    | err error =>
      obtain rfl := hof.rejected
      refine ⟨.error (.err error), fun _ => rfl, iff_of_false (fun ⟨_, h⟩ => (nomatch h)) hrejected,
        iff_of_false ?_ Outcome.noConfusion⟩
      rintro ⟨_, ⟨defect, rfl⟩, h⟩
      exact nomatch Except.error.inj h
    | defect defect =>
      obtain rfl := hof.defect
      exact ⟨.error (.defect defect), fun _ => rfl,
        iff_of_false (fun ⟨_, h⟩ => (nomatch h)) hdefect, iff_of_true ⟨_, ⟨defect, rfl⟩, rfl⟩ rfl⟩

theorem readStEntry_reads (res : TxFrameData) :
    Reads data IsDefect nothing (readStEntry data res) (fun _ => stEntry) badStEntry := by
  refine readRVid_reads.seq fun rvid => vertexField_reads (Reads.done _) fun blob =>
    take_reads (fun o vtx hof => .inl ⟨?_, ?_⟩) (by decide) (by decide)
  · cases o with
    | branch => decide
    | accLeaf => decide
    | stoLeaf => decide
    | rejected => exact nomatch hof
    | defect => exact nomatch hof
  · obtain ⟨key, hkey⟩ := key_ok blob
    rw [hkey]
    exact ⟨_, fun _ => rfl⟩

theorem readLeafEntry_reads {leaf? : Vertex → Option α} {type : Outcome}
    (hleaf : ∀ o vtx, Outcome.Of o (.ok vtx) → (o = type ↔ (leaf? vtx).isSome))
    (hrejected : .rejected ≠ type) (hdefect : .defect ≠ type) (leaves : Table Hash32 (Option α)) :
    Reads data IsDefect nothing (readLeafEntry data leaf? leaves) (fun _ => leafEntry type)
      badLeafEntry := by
  refine (readPath_reads.seq fun path => vertexField_reads (Reads.done _) fun blob =>
    take_reads (fun o vtx hof => ?_) hrejected hdefect).congr rfl (zero_add _)
  have hiff := hleaf o vtx hof
  cases hvtx : leaf? vtx with
  | some leaf => exact .inl ⟨hiff.mpr (by rw [hvtx]; rfl), _, fun _ => rfl⟩
  | none =>
    refine .inr ⟨fun htype => ?_, _, fun _ => rfl⟩
    have hsome := hiff.mp htype
    rw [hvtx] at hsome
    exact Bool.noConfusion hsome

/-- The tables are read one behind the other, and the frame ends where the last of them does. -/
theorem readTxFrame_reads :
    ∃ frames, Reads data IsDefect nothing (readTxFrame data) (fun _ => frames) badFrame := by
  refine ⟨_, (readHeader_reads.seq fun res => (readTable_reads readStEntry_reads res).seq fun res =>
    (readTable_reads (readLeafEntry_reads (fun _ _ => accLeaf?_isSome) (by decide) (by decide))
      ∅).seq fun accLeaves =>
        (readTable_reads (readLeafEntry_reads (fun _ _ => stoLeaf?_isSome) (by decide) (by decide))
          ∅).seq fun stoLeaves => Reads.done _).congr rfl ?_⟩
  rw [mul_zero, add_zero, zero_add]
  rfl

/-- For all bytes: an identifier, a vertex, a key and a frame are decoded without a defect, but for
an identifier of no bytes, a vertex record of a bad shape, and a frame that begins with good
entries and one of these. -/
theorem decoders_total_iff : (∀ data, Total (RootedVertexID.deblobify data) ↔ data ≠ []) ∧
      (∀ record, Total (Vertex.deblobify record) ↔ vertexOutcome record ≠ .defect) ∧
      (∀ record, Total (HashKey.deblobify record)) ∧
      ∀ data, Total (deblobifyTxFrame data) ↔ ¬ ∃ front ∈ badFrame, front <+: data := by
  refine ⟨fun data => ?_, fun record => (vertex_outcome record).total_iff, fun record => ?_,
    fun data => ?_⟩
  · rcases rvid_outcome data with ⟨hform, rvid, h⟩ | ⟨hnil, defect, h⟩ | ⟨-, hne, error, h⟩
    · refine iff_of_true (fun defect heq => nomatch h.symm.trans heq) fun hnil => ?_
      rw [hnil] at hform
      exact absurd hform.1 (by decide)
    · exact iff_of_false (fun htotal => htotal defect h) (not_not_intro hnil)
    · exact iff_of_true (fun defect heq => nomatch Except.error.inj (h.symm.trans heq)) hne
  · obtain ⟨key, hkey⟩ := key_ok record
    exact fun defect h => nomatch hkey.symm.trans h
  · obtain ⟨frames, hreads⟩ := @readTxFrame_reads data _ _
    have hfront (w : List UInt8) : SliceAt data 0 w ↔ w <+: data := by
      constructor
      · intro h
        obtain ⟨after, hafter⟩ := h.drop
        exact ⟨after, hafter.symm⟩
      · rintro ⟨after, rfl⟩
        exact SliceAt.of_append [] w after
    have hcrash := hreads.crash (Nat.zero_le _)
    simp only [hfront] at hcrash
    rw [total_iff, ← hcrash]
    unfold deblobifyTxFrame
    refine not_congr (exists_congr fun s => and_congr_right fun _ => ?_)
    cases (readTxFrame data).run 0 with
    | ok res => exact iff_of_false nofun nofun
    | error t => exact ⟨fun h => congrArg _ (Except.error.inj h),
        fun h => congrArg _ (Except.error.inj h)⟩

end

end

/-- A frame with one entry, whose identifier has no bytes. -/
def emptyId : List UInt8 := TX_FRAME_VERSION :: (List.replicate 17 0 ++ [0, 0, 0, 1, 0])

/-- The identifier of no bytes is looked at for its first byte. -/
theorem emptyId_defect :
    @deblobifyTxFrame emptyId hexPrefix zeroHash = .error (.defect .indexOutOfBounds) ∧
      ¬ Total (@deblobifyTxFrame emptyId hexPrefix zeroHash) := by
  have h : @deblobifyTxFrame emptyId hexPrefix zeroHash = .error (.defect .indexOutOfBounds) := rfl
  exact ⟨h, fun htotal => htotal _ h⟩

end Nimbus.Spec.FrameBlob
