import Mathlib.Data.List.Induction
import Nimbus.ForStd.Meets
import Nimbus.ForStd.StepRun
import Nimbus.Native.EvmMemory

/-!
# The gas paid for memory

An opcode that uses memory is charged for the words its range adds, and then extends the memory
by these words. So the charges add up to the price of the memory, at every point of a frame
whose calls are not given up for their depth with memory still to be added: such a call is
charged and extends nothing.
-/

namespace Nimbus.Spec.MemoryFrame

open Nimbus Native Native.Evm Native.Evm.MemoryFrame
open EVMFork

/-! ### The length of the memory -/

variable {f f' : Frame}

/-- The length of the memory after a range has been used. -/
def grown (len memOffset memLength : Nat) : Nat :=
  max len (ceil32 (calcMemSize memOffset memLength))

theorem ceil32_eq (n : Nat) : ceil32 n = 32 * wordCount n := by
  show (if n % 32 ≠ 0 then n + 32 - n % 32 else n) = 32 * ((n + 31) / 32)
  split <;> omega

theorem le_ceil32 (n : Nat) : n ≤ ceil32 n := by
  rw [ceil32_eq]
  unfold wordCount
  omega

theorem grown_zero (len memOffset : Nat) : grown len memOffset 0 = len :=
  Nat.max_eq_left (Nat.zero_le len)

variable {memLength : Nat}

theorem grown_pos (len memOffset : Nat) (h : memLength ≠ 0) :
    grown len memOffset memLength = max len (ceil32 (memOffset + memLength)) := by
  unfold grown calcMemSize
  rw [if_neg h]

theorem grown_le (len memOffset memLength : Nat) (h : 0 < memLength) :
    memOffset + memLength ≤ grown len memOffset memLength := by
  have hceil := le_ceil32 (memOffset + memLength)
  rw [grown_pos len memOffset (by omega)]
  omega

@[simp] theorem extend_len (m : EvmMemory) (startPos size : Nat) :
    (m.extend startPos size).len = grown m.len startPos size := by
  unfold EvmMemory.extend
  by_cases hsize : size = 0
  · subst hsize
    rw [grown_zero, if_neg (by omega)]
  · rw [if_pos (by omega), grown_pos m.len startPos hsize]
    dsimp only
    split
    · next hlt =>
      show (m.bytes ++ List.replicate (ceil32 (startPos + size) - m.len) 0).length = _
      rw [List.length_append, List.length_replicate]
      show m.len + _ = _
      omega
    · omega

variable {startPos : Nat}

theorem assign_len {m : EvmMemory} {value : List UInt8}
    (h : startPos + value.length ≤ m.len) : (m.assign startPos value).len = m.len := by
  unfold EvmMemory.assign EvmMemory.len at *
  simp only [List.length_append, List.length_take, List.length_drop]
  omega

theorem write_len {m m' : EvmMemory} {value : List UInt8}
    (h : m.write startPos value = some m') : m'.len = m.len := by
  unfold EvmMemory.write at h
  dsimp only at h
  split at h
  · cases h
    rfl
  · split at h
    · cases h
    · next hle =>
      cases h
      exact assign_len (by omega)

theorem read_length {m : EvmMemory} {size : Nat} (h : startPos + size ≤ m.len) :
    (m.read startPos size).length = size := by
  unfold EvmMemory.read EvmMemory.len at *
  rw [List.length_take, List.length_drop]
  omega

theorem copy_len (m : EvmMemory) (dst src len : Nat) :
    (m.copy dst src len).len = grown m.len (max dst src) len := by
  unfold EvmMemory.copy
  by_cases hlen : len = 0
  · subst hlen
    rw [if_pos rfl, grown_zero]
  · rw [if_neg hlen]
    have hle := grown_le m.len (max dst src) len (by omega)
    rw [← extend_len] at hle ⊢
    split
    · rfl
    · have hread : ((m.extend (max dst src) len).read src len).length = len :=
        read_length (by omega)
      exact assign_len (by omega)

/-- The data and the zeros after it stay inside the range that has been added. -/
theorem writePadded_len (m : EvmMemory) (data : List UInt8) (memPos dataPos len : Nat) :
    (m.writePadded data memPos dataPos len).len = grown m.len memPos len := by
  rw [← extend_len]
  unfold EvmMemory.writePadded
  dsimp only
  generalize hm : m.extend memPos len = memory
  generalize hn : min data.length (dataPos + len) - min dataPos data.length = dataLen
  have hle : 0 < dataLen → memPos + len ≤ memory.len := by
    intro hpos
    rw [← hm, extend_len]
    exact grown_le m.len memPos len (by omega)
  have hdata : (if dataLen > 0
      then memory.assign memPos ((data.drop (min dataPos data.length)).take dataLen)
      else memory).len = memory.len := by
    split
    · apply assign_len
      rw [List.length_take]
      omega
    · rfl
  split
  · rw [assign_len, hdata]
    rw [List.length_replicate]
    omega
  · exact hdata

/-! ### The price of memory -/

/-- The price of `words` words of memory. -/
def memoryCost (words : Nat) : Nat := 3 * words + words * words / 512

theorem gasFees_GasMemory (fork : EVMFork) : (gasFees fork).GasMemory = 3 := by
  cases fork <;> rfl

theorem memoryCost_mono {v w : Nat} (h : v ≤ w) : memoryCost v ≤ memoryCost w := by
  unfold memoryCost
  have hsq : v * v / 512 ≤ w * w / 512 := Nat.div_le_div_right (Nat.mul_le_mul h h)
  omega

/-- The charge for a range is the difference of the prices of the memory after and before. -/
theorem memoryCost_grown (fork : EVMFork) {len : Nat} (memOffset memLength : Nat)
    (hlen : len % 32 = 0) :
    memoryCost (grown len memOffset memLength / 32) =
      memoryCost (len / 32) + gasMemoryExpansion fork len memOffset memLength := by
  have hprev : wordCount len = len / 32 := by
    unfold wordCount
    omega
  unfold gasMemoryExpansion
  dsimp only
  by_cases hzero : memLength = 0
  · subst hzero
    rw [grown_zero, if_pos (.inl rfl), Nat.add_zero]
  · rw [grown_pos len memOffset hzero, hprev, ceil32_eq]
    generalize hw : wordCount (memOffset + memLength) = w
    split
    · next h =>
      have hmax : max len (32 * w) = len := by omega
      rw [hmax, Nat.add_zero]
    · next h =>
      have hmax : max len (32 * w) = 32 * w := by omega
      have hwords : 32 * w / 32 = w := by omega
      have hmono := memoryCost_mono (v := len / 32) (w := w) (by omega)
      have hcost (v : Nat) : v * 3 + v ^ 2 / 512 = memoryCost v := by
        unfold memoryCost
        rw [Nat.pow_two]
        omega
      rw [hmax, hwords, gasFees_GasMemory, hcost, hcost]
      omega

theorem grown_aligned {len : Nat} (memOffset memLength : Nat) (hlen : len % 32 = 0) :
    grown len memOffset memLength % 32 = 0 := by
  unfold grown
  rw [ceil32_eq]
  omega

theorem ceil32_mono {m n : Nat} (h : m ≤ n) : ceil32 m ≤ ceil32 n := by
  rw [ceil32_eq, ceil32_eq]
  unfold wordCount
  omega

/-- Two ranges add as much as the one of them that ends later. -/
theorem grown_grown (p : LocalParams) (len : Nat) :
    grown (grown len (cleanMemRef p.memInPos) (cleanMemRef p.memInLen))
        (cleanMemRef p.memOutPos) (cleanMemRef p.memOutLen) =
      grown len p.memRange.1 p.memRange.2 := by
  unfold LocalParams.memRange grown
  dsimp only
  generalize hin : calcMemSize (cleanMemRef p.memInPos) (cleanMemRef p.memInLen) = inEnd
  generalize hout : calcMemSize (cleanMemRef p.memOutPos) (cleanMemRef p.memOutLen) = outEnd
  split
  · next hlt =>
    rw [hin]
    have hmono := ceil32_mono hlt.le
    omega
  · next hle =>
    rw [hout]
    have hmono := ceil32_mono (Nat.le_of_not_lt hle)
    omega

/-! ### What a program does to the memory -/

/-- Neither the length of the memory nor the gas paid for it changes. -/
def Same (f f' : Frame) : Prop := f'.memory.len = f.memory.len ∧ f'.memoryGas = f.memoryGas

/-- The gas for a range is paid. -/
def Pays (env : FrameEnv) (memOffset memLength : Nat) (f f' : Frame) : Prop :=
  f'.memory.len = f.memory.len ∧
    f'.memoryGas = f.memoryGas +
      gasMemoryExpansion (forkToSchedule env.fork) f.memory.len memOffset memLength

/-- The memory is extended to a range. -/
def Grows (memOffset memLength : Nat) (f f' : Frame) : Prop :=
  f'.memory.len = grown f.memory.len memOffset memLength ∧ f'.memoryGas = f.memoryGas

/-- Some range of memory is paid and added. -/
def Uses (env : FrameEnv) (f f' : Frame) : Prop :=
  ∃ memOffset memLength,
    f'.memory.len = grown f.memory.len memOffset memLength ∧
      f'.memoryGas = f.memoryGas +
        gasMemoryExpansion (forkToSchedule env.fork) f.memory.len memOffset memLength

instance : Std.Refl Same := ⟨fun _ => ⟨rfl, rfl⟩⟩

instance : IsTrans Frame Same := ⟨fun _ _ _ h h' => ⟨h'.1.trans h.1, h'.2.trans h.2⟩⟩

theorem Same.uses (env : FrameEnv) (h : Same f f') : Uses env f f' := by
  refine ⟨0, 0, ?_, ?_⟩
  · rw [grown_zero]
    exact h.1
  · exact h.2

section
variable {α β : Type} {x : FrameM α} {g : α → FrameM β} {env : FrameEnv}
  {memOffset memLength : Nat}

theorem uses_next (hx : Leads Same x) (hg : ∀ a, Leads (Uses env) (g a)) :
    Leads (Uses env) (x >>= g) := by
  refine hx.bind hg ?_
  rintro f₁ f₂ f₃ ⟨hlen, hgas⟩ ⟨memOffset, memLength, hlen', hgas'⟩
  refine ⟨memOffset, memLength, ?_, ?_⟩
  · rw [hlen', hlen]
  · rw [hgas', hlen, hgas]

theorem uses_of_pays (hx : Leads (Pays env memOffset memLength) x)
    (hg : ∀ a, Leads (Grows memOffset memLength) (g a)) : Leads (Uses env) (x >>= g) := by
  refine hx.bind hg ?_
  rintro f₁ f₂ f₃ ⟨hlen, hgas⟩ ⟨hlen', hgas'⟩
  refine ⟨memOffset, memLength, ?_, ?_⟩
  · rw [hlen', hlen]
  · rw [hgas', hgas]

theorem grows_next (hx : Leads Same x) (hg : ∀ a, Leads (Grows memOffset memLength) (g a)) :
    Leads (Grows memOffset memLength) (x >>= g) := by
  refine hx.bind hg ?_
  rintro f₁ f₂ f₃ ⟨hlen, hgas⟩ ⟨hlen', hgas'⟩
  exact ⟨by rw [hlen', hlen], by rw [hgas', hgas]⟩

theorem grows_then (hx : Leads (Grows memOffset memLength) x) (hg : ∀ a, Leads Same (g a)) :
    Leads (Grows memOffset memLength) (x >>= g) := by
  refine hx.bind hg ?_
  rintro f₁ f₂ f₃ ⟨hlen, hgas⟩ ⟨hlen', hgas'⟩
  exact ⟨by rw [hlen', hlen], by rw [hgas', hgas]⟩

theorem pays_next (hx : Leads Same x) (hg : ∀ a, Leads (Pays env memOffset memLength) (g a)) :
    Leads (Pays env memOffset memLength) (x >>= g) := by
  refine hx.bind hg ?_
  rintro f₁ f₂ f₃ ⟨hlen, hgas⟩ ⟨hlen', hgas'⟩
  exact ⟨by rw [hlen', hlen], by rw [hgas', hlen, hgas]⟩

theorem pays_then (hx : Leads (Pays env memOffset memLength) x) (hg : ∀ a, Leads Same (g a)) :
    Leads (Pays env memOffset memLength) (x >>= g) := by
  refine hx.bind hg ?_
  rintro f₁ f₂ f₃ ⟨hlen, hgas⟩ ⟨hlen', hgas'⟩
  exact ⟨by rw [hlen', hlen], by rw [hgas', hgas]⟩

end

/-! ### Operations of a frame -/

theorem onMachine_same {α : Type} (x : EvmM α) : Leads Same (onMachine x) := by
  intro f a f' h
  unfold onMachine at h
  split at h
  · cases h
    exact ⟨rfl, rfl⟩
  · cases h

theorem modify_same {g : Frame → Frame} (h : ∀ f, Same f (g f)) :
    Leads Same (modify g : FrameM Unit) :=
  Leads.modify h

theorem lsCheck_same (expected : Nat) : Leads Same (lsCheck expected) := by
  refine Leads.next Leads.get fun f => ?_
  exact Leads.ite (fun _ => Leads.throw _) fun _ => Leads.pure _

theorem lsPeekInt_same (i : Nat) : Leads Same (lsPeekInt i) :=
  Leads.next Leads.get fun _ => Leads.pure _

theorem lsPeekMemRef_same (i : Nat) : Leads Same (lsPeekMemRef i) :=
  Leads.next (lsPeekInt_same i) fun _ => Leads.pure _

theorem lsPeekSafeInt_same (i : Nat) : Leads Same (lsPeekSafeInt i) :=
  Leads.next (lsPeekInt_same i) fun _ => Leads.pure _

theorem lsShrink_same (x : Nat) : Leads Same (lsShrink x) := modify_same fun _ => ⟨rfl, rfl⟩

theorem lsTop_same (value : Aristo.UInt256) : Leads Same (lsTop value) :=
  modify_same fun _ => ⟨rfl, rfl⟩

theorem setReturnData_same (data : List UInt8) : Leads Same (setReturnData data) :=
  modify_same fun _ => ⟨rfl, rfl⟩

theorem setProgress_same (progress : Progress) : Leads Same (setProgress progress) :=
  modify_same fun _ => ⟨rfl, rfl⟩

theorem memoryLen_same : Leads Same memoryLen := Leads.next Leads.get fun _ => Leads.pure _

theorem memoryRead_same (startPos size : Nat) : Leads Same (memoryRead startPos size) :=
  Leads.next Leads.get fun _ => Leads.pure _

theorem memoryWrite_same (startPos : Nat) (value : List UInt8) :
    Leads Same (memoryWrite startPos value) := by
  intro f a f' h
  obtain ⟨f₁, f₂, hget, h⟩ := bind_ok.mp h
  cases hget
  cases hwrite : f.memory.write startPos value with
  | none =>
    rw [hwrite] at h
    cases h
  | some memory =>
    rw [hwrite] at h
    cases h
    exact ⟨write_len hwrite, rfl⟩

theorem whenever_same {p : Prop} [Decidable p] {x : FrameM Unit} (h : Leads Same x) :
    Leads Same (whenever p x) :=
  Leads.ite (fun _ => h) fun _ => Leads.pure _

theorem checkInStaticContext_same (env : FrameEnv) : Leads Same (checkInStaticContext env) :=
  whenever_same (Leads.throw _)

theorem opcodeGasCost_pays (env : FrameEnv) (gasCost memOffset memLength : Nat) :
    Leads (Pays env memOffset memLength) (opcodeGasCost env gasCost memOffset memLength) := by
  apply pays_next (onMachine_same _)
  intro _
  exact Leads.modify fun f => ⟨rfl, rfl⟩

variable {memOffset : Nat}

theorem modifyMemory_grows {g : EvmMemory → EvmMemory}
    (h : ∀ m, (g m).len = grown m.len memOffset memLength) :
    Leads (Grows memOffset memLength) (modifyMemory g) :=
  Leads.modify fun f => ⟨h f.memory, rfl⟩

theorem extend_grows (startPos size : Nat) :
    Leads (Grows startPos size) (modifyMemory (·.extend startPos size)) :=
  modifyMemory_grows fun m => extend_len m startPos size

theorem writePadded_grows (data : List UInt8) (memPos dataPos len : Nat) :
    Leads (Grows memPos len) (modifyMemory (·.writePadded data memPos dataPos len)) :=
  modifyMemory_grows fun m => writePadded_len m data memPos dataPos len

/-! ### Opcodes -/

theorem sha3Op_uses (env : FrameEnv) : Leads (Uses env) (sha3Op env) := by
  apply uses_next (lsCheck_same 2); intro _
  apply uses_next (lsPeekSafeInt_same 1); intro pos
  apply uses_next (lsPeekSafeInt_same 2); intro len
  apply uses_next (lsShrink_same 1); intro _
  apply uses_next memoryLen_same; intro size
  apply uses_of_pays (opcodeGasCost_pays env _ pos len); intro _
  apply grows_then (extend_grows pos len); intro _
  apply Leads.next memoryLen_same; intro _
  apply Leads.next (memoryRead_same _ _); intro _
  exact lsTop_same _

theorem copyOp_uses (env : FrameEnv) (data : List UInt8) : Leads (Uses env) (copyOp env data) := by
  apply uses_next (lsCheck_same 3); intro _
  apply uses_next (lsPeekMemRef_same 1); intro memPos
  apply uses_next (lsPeekMemRef_same 2); intro copyPos
  apply uses_next (lsPeekMemRef_same 3); intro len
  apply uses_next (lsShrink_same 3); intro _
  apply uses_next memoryLen_same; intro size
  apply uses_of_pays (opcodeGasCost_pays env _ memPos len); intro _
  exact writePadded_grows data memPos copyPos len

theorem extCodeCopyOp_uses (env : FrameEnv) (isCold : Bool) (code : List UInt8) :
    Leads (Uses env) (extCodeCopyOp env isCold code) := by
  apply uses_next (lsCheck_same 4); intro _
  apply uses_next (lsPeekMemRef_same 2); intro memPos
  apply uses_next (lsPeekMemRef_same 3); intro codePos
  apply uses_next (lsPeekMemRef_same 4); intro len
  apply uses_next memoryLen_same; intro size
  apply uses_next (lsShrink_same 4); intro _
  apply uses_of_pays (opcodeGasCost_pays env _ memPos len); intro _
  exact writePadded_grows code memPos codePos len

theorem returnDataCopyOp_uses (env : FrameEnv) : Leads (Uses env) (returnDataCopyOp env) := by
  apply uses_next (lsCheck_same 3); intro _
  apply uses_next (lsPeekMemRef_same 1); intro memPos
  apply uses_next (lsPeekMemRef_same 2); intro copyPos
  apply uses_next (lsPeekMemRef_same 3); intro len
  apply uses_next (lsShrink_same 3); intro _
  apply uses_next memoryLen_same; intro size
  apply uses_of_pays (opcodeGasCost_pays env _ memPos len); intro _
  apply grows_next Leads.get; intro f
  exact Leads.ite (fun _ => Leads.throw _) fun _ => writePadded_grows _ memPos copyPos len

theorem mloadOp_uses (env : FrameEnv) : Leads (Uses env) (mloadOp env) := by
  apply uses_next (lsCheck_same 1); intro _
  apply uses_next (lsPeekMemRef_same 1); intro memPos
  apply uses_next memoryLen_same; intro size
  apply uses_of_pays (opcodeGasCost_pays env _ memPos 32); intro _
  apply grows_then (extend_grows memPos 32); intro _
  apply Leads.next (memoryRead_same _ _); intro _
  exact lsTop_same _

theorem mstoreOp_uses (env : FrameEnv) : Leads (Uses env) (mstoreOp env) := by
  apply uses_next (lsCheck_same 2); intro _
  apply uses_next (lsPeekMemRef_same 1); intro memPos
  apply uses_next (lsPeekInt_same 2); intro value
  apply uses_next (lsShrink_same 2); intro _
  apply uses_next memoryLen_same; intro size
  apply uses_of_pays (opcodeGasCost_pays env _ memPos 32); intro _
  exact grows_then (extend_grows memPos 32) fun _ => memoryWrite_same _ _

theorem mstore8Op_uses (env : FrameEnv) : Leads (Uses env) (mstore8Op env) := by
  apply uses_next (lsCheck_same 2); intro _
  apply uses_next (lsPeekMemRef_same 1); intro memPos
  apply uses_next (lsPeekInt_same 2); intro value
  apply uses_next (lsShrink_same 2); intro _
  apply uses_next memoryLen_same; intro size
  apply uses_of_pays (opcodeGasCost_pays env _ memPos 1); intro _
  exact grows_then (extend_grows memPos 1) fun _ => memoryWrite_same _ _

theorem mCopyOp_uses (env : FrameEnv) : Leads (Uses env) (mCopyOp env) := by
  apply uses_next (lsCheck_same 3); intro _
  apply uses_next (lsPeekMemRef_same 1); intro dstPos
  apply uses_next (lsPeekMemRef_same 2); intro srcPos
  apply uses_next (lsPeekMemRef_same 3); intro len
  apply uses_next (lsShrink_same 3); intro _
  apply uses_next memoryLen_same; intro size
  apply uses_of_pays (opcodeGasCost_pays env _ (max dstPos srcPos) len); intro _
  exact modifyMemory_grows fun m => copy_len m dstPos srcPos len

theorem logImpl_uses (env : FrameEnv) (topicCount : Nat) :
    Leads (Uses env) (logImpl env topicCount) := by
  apply uses_next (checkInStaticContext_same env); intro _
  apply uses_next (lsCheck_same _); intro _
  apply uses_next (lsPeekMemRef_same 1); intro memPos
  apply uses_next (lsPeekMemRef_same 2); intro len
  apply uses_next memoryLen_same; intro size
  apply uses_of_pays (opcodeGasCost_pays env _ memPos len); intro _
  apply grows_then (extend_grows memPos len); intro _
  exact Leads.next (modify_same (fun _ => ⟨rfl, rfl⟩)) fun _ => lsShrink_same _

theorem haltOp_uses (env : FrameEnv) (error : Option Error) :
    Leads (Uses env) (haltOp env error) := by
  apply uses_next (lsCheck_same 2); intro _
  apply uses_next (lsPeekMemRef_same 1); intro pos
  apply uses_next (lsPeekMemRef_same 2); intro len
  apply uses_next (lsShrink_same 2); intro _
  apply uses_next memoryLen_same; intro size
  apply uses_of_pays (opcodeGasCost_pays env _ pos len); intro _
  apply grows_then (extend_grows pos len); intro _
  exact modify_same fun _ => ⟨rfl, rfl⟩

/-! ### Creations -/

theorem postExecutionCreate_same (env : FrameEnv) (child : Computation) (output : List UInt8)
    (newAccountCharged : Bool) :
    Leads Same (postExecutionCreate env child output newAccountCharged) := by
  refine Leads.next (onMachine_same _) fun _ => ?_
  apply Leads.ite
  · exact fun _ => lsTop_same _
  · intro _
    exact Leads.ite (fun _ => Leads.pure _) fun _ => setReturnData_same _

theorem createChild_same (env : FrameEnv) (answers : CreateAnswers) (childMsg : Message)
    (newAccountCharged : Bool) :
    Leads Same (createChild env answers childMsg newAccountCharged) := by
  refine Leads.next (onMachine_same _) fun createMsgGas => ?_
  apply Leads.ite
  · exact fun _ => Leads.next (onMachine_same _) fun _ => postExecutionCreate_same _ _ _ _
  · exact fun _ => Leads.next (onMachine_same _) fun _ => setProgress_same _

theorem execSubCreate_same (env : FrameEnv) (answers : CreateAnswers) :
    Leads Same (execSubCreate env answers) := by
  apply Leads.ite
  · exact fun _ => Leads.next (onMachine_same _) fun _ => postExecutionCreate_same _ _ _ _
  · exact fun _ => Leads.next (onMachine_same _) fun _ => createChild_same _ _ _ _

theorem createExtended_same (env : FrameEnv) (answers : CreateAnswers)
    (endowment : Aristo.UInt256) (memLen : Nat) :
    Leads Same (createExtended env answers endowment memLen) := by
  refine Leads.next (setReturnData_same _) fun _ => ?_
  refine Leads.ite (fun _ => Leads.throw _) fun _ => ?_
  refine Leads.next (whenever_same (checkInStaticContext_same env)) fun _ => ?_
  refine Leads.ite (fun _ => Leads.pure _) fun _ => ?_
  exact Leads.ite (fun _ => Leads.pure _) fun _ => execSubCreate_same env answers

/-- The memory is extended before a creation can be given up. -/
theorem createImpl_uses (env : FrameEnv) (create2 : Bool) (answers : CreateAnswers) :
    Leads (Uses env) (createImpl env create2 answers) := by
  apply uses_next (whenever_same (checkInStaticContext_same env)); intro _
  apply uses_next (lsCheck_same _); intro _
  apply uses_next (lsPeekInt_same 1); intro endowment
  apply uses_next (lsPeekSafeInt_same 2); intro memPos
  apply uses_next (lsPeekSafeInt_same 3); intro memLen
  apply uses_next (lsShrink_same _); intro _
  apply uses_next (lsTop_same 0); intro _
  apply uses_next memoryLen_same; intro size
  apply uses_of_pays (opcodeGasCost_pays env _ memPos memLen); intro _
  exact grows_then (extend_grows memPos memLen) fun _ => createExtended_same _ _ _ _

/-! ### Calls -/

/-- The operands of a call that give the memory range it is charged for. -/
def callMemRange (kind : CallOp) (stack : List Aristo.UInt256) : Nat × Nat :=
  let skip := callSkip kind
  let p : LocalParams :=
    { kind := kind
      contractGas := 0
      value := 0
      codeAddress := toAddress 0
      memInPos := stack.getD (2 + skip) 0
      memInLen := stack.getD (3 + skip) 0
      memOutPos := stack.getD (4 + skip) 0
      memOutLen := stack.getD (5 + skip) 0 }
  p.memRange

theorem lsCheck_ok {expected : Nat} {a : Unit} (h : lsCheck expected f = .ok a f') : f' = f := by
  obtain ⟨f₁, f₂, hget, h⟩ := bind_ok.mp h
  cases hget
  split at h
  · cases h
  · cases h
    rfl

variable {env : FrameEnv}

theorem callParams_ok {kind : CallOp} {answers : CallAnswers}
    {p : LocalParams} (h : callParams env kind answers f = .ok p f') :
    p.memRange = callMemRange kind f.stack ∧ Same f f' := by
  obtain ⟨_, f₁, hcheck, h⟩ := bind_ok.mp h
  cases lsCheck_ok hcheck
  cases kind <;> (cases h; exact ⟨rfl, rfl, rfl⟩)

theorem extendForCall_grows (p : LocalParams) :
    Leads (Grows p.memRange.1 p.memRange.2) (extendForCall p) := by
  refine Leads.bind (extend_grows _ _) (fun _ => extend_grows _ _) ?_
  rintro f₁ f₂ f₃ ⟨hlen, hgas⟩ ⟨hlen', hgas'⟩
  refine ⟨?_, hgas'.trans hgas⟩
  rw [hlen', hlen]
  exact grown_grown p f₁.memory.len

theorem callCharged_uses (p : LocalParams) (newAccountCharged : Bool)
    (gasCost childGasLimit : Nat) (hdepth : env.msg.depth < MaxCallDepth) :
    Leads (Uses env) (callCharged env p newAccountCharged gasCost childGasLimit) := by
  apply uses_of_pays (opcodeGasCost_pays env gasCost p.memRange.1 p.memRange.2); intro _
  apply grows_next (onMachine_same _); intro _
  apply grows_next (setReturnData_same _); intro _
  refine Leads.ite (fun h => absurd hdepth (Nat.not_lt.mpr h)) fun _ => ?_
  refine grows_then (extendForCall_grows p) fun _ => ?_
  apply Leads.ite
  · exact fun _ => onMachine_same _
  · exact fun _ => Leads.next (onMachine_same _) fun _ => setProgress_same _

/-- A call at the limit of the depth is charged for its memory, and does not extend it. -/
theorem callCharged_pays (p : LocalParams) (newAccountCharged : Bool)
    (gasCost childGasLimit : Nat) (hdepth : MaxCallDepth ≤ env.msg.depth) :
    Leads (Pays env p.memRange.1 p.memRange.2)
      (callCharged env p newAccountCharged gasCost childGasLimit) := by
  refine pays_then (opcodeGasCost_pays env gasCost p.memRange.1 p.memRange.2) fun _ => ?_
  refine Leads.next (onMachine_same _) fun _ => ?_
  refine Leads.next (setReturnData_same _) fun _ => ?_
  exact Leads.ite (fun _ => onMachine_same _) fun h => absurd hdepth h

theorem callImpl_uses (kind : CallOp) (answers : CallAnswers)
    (hdepth : env.msg.depth < MaxCallDepth) : Leads (Uses env) (callImpl env kind answers) := by
  have hparams : Leads Same (callParams env kind answers) := fun _ _ _ h => (callParams_ok h).2
  apply uses_next hparams; intro p
  apply uses_next (onMachine_same _); intro gasCost1
  apply uses_next (onMachine_same _); intro _
  apply uses_next (onMachine_same _); intro gas
  exact callCharged_uses p _ gas.1 gas.2 hdepth

theorem callImpl_pays (kind : CallOp) (answers : CallAnswers)
    {a : Unit} (hdepth : MaxCallDepth ≤ env.msg.depth)
    (h : callImpl env kind answers f = .ok a f') :
    Pays env (callMemRange kind f.stack).1 (callMemRange kind f.stack).2 f f' := by
  obtain ⟨p, f₁, hparams, h⟩ := bind_ok.mp h
  obtain ⟨hrange, hlen, hgas⟩ := callParams_ok hparams
  have hpays : Pays env p.memRange.1 p.memRange.2 f₁ f' := by
    refine pays_next (onMachine_same _) (fun gasCost1 => ?_) f₁ a f' h
    refine pays_next (onMachine_same _) fun _ => ?_
    refine pays_next (onMachine_same _) fun gas => ?_
    exact callCharged_pays p _ gas.1 gas.2 hdepth
  obtain ⟨hlen', hgas'⟩ := hpays
  rw [hrange] at hgas'
  exact ⟨by rw [hlen', hlen], by rw [hgas', hlen, hgas]⟩

/-! ### Steps -/

/-- The opcode is a call, and of which kind. -/
def callKind : Opcode → Option CallOp
  | .Call _ => some .Call
  | .CallCode _ => some .CallCode
  | .DelegateCall _ => some .DelegateCall
  | .StaticCall _ => some .StaticCall
  | _ => none

theorem callOp_uses (answers : CallAnswers)
    (hdepth : env.msg.depth < MaxCallDepth) : Leads (Uses env) (callOp env answers) := by
  apply Leads.ite
  · intro _
    apply uses_next (lsCheck_same 3); intro _
    apply uses_next (lsPeekInt_same 3); intro value
    exact Leads.ite (fun _ => Leads.throw _) fun _ => callImpl_uses .Call answers hdepth
  · exact fun _ => callImpl_uses .Call answers hdepth

theorem callOp_pays (answers : CallAnswers) {a : Unit}
    (hdepth : MaxCallDepth ≤ env.msg.depth) (h : callOp env answers f = .ok a f') :
    Pays env (callMemRange .Call f.stack).1 (callMemRange .Call f.stack).2 f f' := by
  unfold MemoryFrame.callOp at h
  split at h
  · obtain ⟨_, f₁, hcheck, h⟩ := bind_ok.mp h
    cases lsCheck_ok hcheck
    obtain ⟨value, f₂, hpeek, h⟩ := bind_ok.mp h
    cases hpeek
    split at h
    · cases h
    · exact callImpl_pays .Call answers hdepth h
  · exact callImpl_pays .Call answers hdepth h

/-- Every opcode pays for the memory it adds, calls at the limit of the depth apart. -/
theorem exec_uses (op : Opcode)
    (h : env.msg.depth < MaxCallDepth ∨ callKind op = none) : Leads (Uses env) (op.exec env) := by
  have hcall {kind : CallOp} (hkind : callKind op = some kind) : env.msg.depth < MaxCallDepth := by
    rw [hkind] at h
    exact h.resolve_right nofun
  cases op with
  | Sha3 => exact sha3Op_uses env
  | CallDataCopy => exact copyOp_uses env env.data
  | CodeCopy => exact copyOp_uses env env.code
  | ExtCodeCopy isCold code => exact extCodeCopyOp_uses env isCold code
  | ReturnDataCopy => exact returnDataCopyOp_uses env
  | Mload => exact mloadOp_uses env
  | Mstore => exact mstoreOp_uses env
  | Mstore8 => exact mstore8Op_uses env
  | Mcopy => exact mCopyOp_uses env
  | Log topicCount => exact logImpl_uses env topicCount
  | Return => exact haltOp_uses env none
  | Revert => exact haltOp_uses env (some ⟨false⟩)
  | Call answers => exact callOp_uses answers (hcall rfl)
  | CallCode answers => exact callImpl_uses .CallCode answers (hcall rfl)
  | DelegateCall answers => exact callImpl_uses .DelegateCall answers (hcall rfl)
  | StaticCall answers => exact callImpl_uses .StaticCall answers (hcall rfl)
  | Create answers => exact createImpl_uses env false answers
  | Create2 answers => exact createImpl_uses env true answers
  | other op =>
    apply uses_next Leads.get; intro f
    apply uses_next (onMachine_same _); intro stack
    have hstack : Leads Same (modify fun f => { f with stack := stack } : FrameM Unit) :=
      modify_same fun _ => ⟨rfl, rfl⟩
    exact hstack.mono fun _ _ h => h.uses env

theorem exec_pays {op : Opcode} {kind : CallOp} {a : Unit}
    (hkind : callKind op = some kind) (hdepth : MaxCallDepth ≤ env.msg.depth)
    (h : op.exec env f = .ok a f') :
    Pays env (callMemRange kind f.stack).1 (callMemRange kind f.stack).2 f f' := by
  cases op with
  | Call answers => cases hkind; exact callOp_pays answers hdepth h
  | CallCode answers => cases hkind; exact callImpl_pays .CallCode answers hdepth h
  | DelegateCall answers => cases hkind; exact callImpl_pays .DelegateCall answers hdepth h
  | StaticCall answers => cases hkind; exact callImpl_pays .StaticCall answers hdepth h
  | _ => exact nomatch hkind

theorem resumeCall_same (env : FrameEnv) (child : Computation) (output : List UInt8)
    (memPos memLen : Nat) (newAccountCharged : Bool) :
    Leads Same (resumeCall env child output memPos memLen newAccountCharged) := by
  refine Leads.next (onMachine_same _) fun _ => ?_
  refine Leads.next (whenever_same (lsTop_same 1)) fun _ => ?_
  refine Leads.next (whenever_same (memoryWrite_same _ _)) fun _ => ?_
  exact setReturnData_same output

/-- A call at the limit of the depth that is charged for memory past the end: it is given up
before the memory is extended. -/
def ChargedOnly (env : FrameEnv) (f : Frame) : FrameStep → Prop
  | .opcode op => ∃ kind, callKind op = some kind ∧ MaxCallDepth ≤ env.msg.depth ∧
      f.memory.len < calcMemSize (callMemRange kind f.stack).1 (callMemRange kind f.stack).2
  | .resume .. => False

variable {x : FrameStep}

/-- A step is an opcode of a running frame, or the end of a child. -/
theorem frameStep_cases (h : frameStep env f x = .ok f') :
    (∃ op, x = .opcode op ∧ op.exec env f = .ok () f') ∨
      (∃ child output storage, x = .resume child output storage) ∧ Same f f' := by
  have hrun : x.run env f = .ok () f' := by
    unfold frameStep at h
    split at h
    · next hx =>
      cases h
      exact hx
    · cases h
  obtain ⟨f₁, f₂, hget, hrun⟩ := bind_ok.mp hrun
  cases hget
  cases x with
  | opcode op =>
    cases hp : f.progress with
    | running =>
      rw [hp] at hrun
      exact .inl ⟨op, rfl, hrun⟩
    | waiting continuation =>
      rw [hp] at hrun
      cases hrun
    | halted error =>
      rw [hp] at hrun
      cases hrun
  | resume child output storage =>
    refine .inr ⟨⟨child, output, storage, rfl⟩, ?_⟩
    cases hp : f.progress with
    | running =>
      rw [hp] at hrun
      cases hrun
    | waiting continuation =>
      rw [hp] at hrun
      -- the frame runs on, with the storage that the child has left
      obtain ⟨_, f₁, hmodify, hrun⟩ := bind_ok.mp hrun
      have hsame : Same f f₁ := by
        cases hmodify
        exact ⟨rfl, rfl⟩
      apply IsTrans.trans f f₁ f' hsame
      cases continuation with
      | call memPos memLen newAccountCharged =>
        exact resumeCall_same env child output memPos memLen newAccountCharged f₁ () f' hrun
      | create newAccountCharged =>
        exact postExecutionCreate_same env child output newAccountCharged f₁ () f' hrun
    | halted error =>
      rw [hp] at hrun
      cases hrun

/-- A range inside the memory costs nothing and adds nothing. -/
theorem Pays.uses (h : Pays env memOffset memLength f f') (halign : f.memory.len % 32 = 0)
    (hle : calcMemSize memOffset memLength ≤ f.memory.len) : Uses env f f' := by
  have hgrown : grown f.memory.len memOffset memLength = f.memory.len := by
    have hceil := ceil32_mono hle
    have hself : ceil32 f.memory.len = f.memory.len := by
      rw [ceil32_eq]
      unfold wordCount
      omega
    unfold grown
    omega
  exact ⟨memOffset, memLength, by rw [h.1, hgrown], h.2⟩

theorem frameStep_uses (h : frameStep env f x = .ok f') (halign : f.memory.len % 32 = 0)
    (hx : ¬ ChargedOnly env f x) : Uses env f f' := by
  obtain ⟨op, rfl, hop⟩ | ⟨-, hsame⟩ := frameStep_cases h
  · cases hkind : callKind op with
    | none => exact exec_uses op (.inr hkind) f () f' hop
    | some kind =>
      by_cases hdepth : env.msg.depth < MaxCallDepth
      · exact exec_uses op (.inl hdepth) f () f' hop
      · have hlimit : MaxCallDepth ≤ env.msg.depth := Nat.le_of_not_lt hdepth
        apply (exec_pays hkind hlimit hop).uses halign
        apply Nat.le_of_not_lt
        exact fun hlt => hx ⟨kind, hkind, hlimit, hlt⟩
  · exact hsame.uses env

/-! ### Runs -/

/-- Memory is made of words, and the gas paid for it is their price. -/
structure MemoryPaid (f : Frame) : Prop where
  aligned : f.memory.len % 32 = 0
  paid : f.memoryGas = memoryCost (f.memory.len / 32)

theorem newComputation_paid (machine : Machine) : MemoryPaid (newComputation machine) where
  aligned := rfl
  paid := by
    show 0 = memoryCost (0 / 32)
    rfl

theorem MemoryPaid.uses (hf : MemoryPaid f) (h : Uses env f f') : MemoryPaid f' := by
  obtain ⟨memOffset, memLength, hlen, hgas⟩ := h
  constructor
  · rw [hlen]
    exact grown_aligned memOffset memLength hf.aligned
  · rw [hlen, hgas, memoryCost_grown (forkToSchedule env.fork) memOffset memLength hf.aligned,
      hf.paid]

theorem gasMemoryExpansion_pos (fork : EVMFork) {len : Nat}
    (halign : len % 32 = 0) (hlt : len < calcMemSize memOffset memLength) :
    0 < gasMemoryExpansion fork len memOffset memLength := by
  have hcost := memoryCost_grown fork memOffset memLength halign
  have hle := le_ceil32 (calcMemSize memOffset memLength)
  have hwords : len / 32 + 1 ≤ grown len memOffset memLength / 32 := by
    unfold grown
    rw [ceil32_eq] at hle ⊢
    omega
  have hmono := memoryCost_mono hwords
  have hsucc : memoryCost (len / 32) < memoryCost (len / 32 + 1) := by
    have hsq : len / 32 * (len / 32) / 512 ≤ (len / 32 + 1) * (len / 32 + 1) / 512 :=
      Nat.div_le_div_right (Nat.mul_le_mul (Nat.le_succ _) (Nat.le_succ _))
    unfold memoryCost
    omega
  omega

/-- A call that is only charged leaves memory paid for that is not there. -/
theorem MemoryPaid.not_of_chargedOnly
    (hf : MemoryPaid f) (h : frameStep env f x = .ok f') (hx : ChargedOnly env f x) :
    f'.memoryGas ≠ memoryCost (f'.memory.len / 32) := by
  obtain ⟨op, rfl, hop⟩ | ⟨⟨child, output, storage, rfl⟩, -⟩ := frameStep_cases h
  · obtain ⟨kind, hkind, hdepth, hlt⟩ := hx
    obtain ⟨hlen, hgas⟩ := exec_pays hkind hdepth hop
    have hpos := gasMemoryExpansion_pos (forkToSchedule env.fork) hf.aligned hlt
    rw [hlen, hgas, hf.paid]
    omega
  · exact hx.elim

theorem frameStep_aligned
    (h : frameStep env f x = .ok f') (halign : f.memory.len % 32 = 0) : f'.memory.len % 32 = 0 := by
  by_cases hx : ChargedOnly env f x
  · obtain ⟨op, rfl, hop⟩ | ⟨-, hlen, -⟩ := frameStep_cases h
    · obtain ⟨kind, hkind, hdepth, -⟩ := hx
      rw [(exec_pays hkind hdepth hop).1]
      exact halign
    · rw [hlen]
      exact halign
  · obtain ⟨memOffset, memLength, hlen, -⟩ := frameStep_uses h halign hx
    rw [hlen]
    exact grown_aligned memOffset memLength halign

/-- The frame after the steps `done`, if it has met no error. -/
def Reaches (env : FrameEnv) (machine : Machine) (done : List FrameStep) (f : Frame) : Prop :=
  StepRun.run (frameStep env) (newComputation machine) done = .ok f

variable {done : List FrameStep} {machine : Machine}

theorem Reaches.aligned {f : Frame} (h : Reaches env machine done f) : f.memory.len % 32 = 0 :=
  StepRun.invariant (P := fun _ _ => True) (fun f => f.memory.len % 32 = 0)
    (fun _ _ _ halign _ hx => frameStep_aligned hx halign) rfl StepRun.stepsOk_true h

theorem Reaches.next {f f' : Frame}
    (h : Reaches env machine done f) (hx : frameStep env f x = .ok f') :
    Reaches env machine (done ++ [x]) f' := by
  unfold Reaches
  rw [StepRun.run_append h, StepRun.run_singleton]
  exact hx

/-- As long as no call is only charged, memory is paid for. -/
theorem Reaches.memoryPaid {f : Frame} (h : Reaches env machine done f)
    (hdone : ∀ before x f f', before ++ [x] <+: done → Reaches env machine before f →
      frameStep env f x = .ok f' → ¬ ChargedOnly env f x) : MemoryPaid f := by
  induction done using List.reverseRecOn generalizing f with
  | nil =>
    cases h
    exact newComputation_paid machine
  | append_singleton done x ih =>
    obtain ⟨f₁, hf₁, hx⟩ := StepRun.run_concat h
    have hpaid : MemoryPaid f₁ := by
      apply ih hf₁
      exact fun before y f f' hpre =>
        hdone before y f f' (hpre.trans (List.prefix_append done [x]))
    have hnot := hdone done x f₁ f List.prefix_rfl hf₁ hx
    exact hpaid.uses (frameStep_uses hx hpaid.aligned hnot)

/-- The gas paid for memory is the price of the memory at every point of a run, if and only if
no call of the run is given up at the limit of the depth after it has been charged for memory
past the end. -/
theorem memoryGas_run_iff (env : FrameEnv) (machine : Machine) (steps : List FrameStep) :
    (∀ done f, done <+: steps → Reaches env machine done f →
      f.memoryGas = 3 * wordCount f.memory.len
        + wordCount f.memory.len * wordCount f.memory.len / 512) ↔
    (∀ done x f f', done ++ [x] <+: steps → Reaches env machine done f →
      frameStep env f x = .ok f' → ¬ ChargedOnly env f x) := by
  have hprice {done : List FrameStep} {f : Frame} (hf : Reaches env machine done f) :
      3 * wordCount f.memory.len + wordCount f.memory.len * wordCount f.memory.len / 512 =
        memoryCost (f.memory.len / 32) := by
    have hwords : wordCount f.memory.len = f.memory.len / 32 := by
      have halign := hf.aligned
      unfold wordCount
      omega
    rw [hwords]
    rfl
  constructor
  · intro h done x f f' hpre hf hx hcharged
    have hpaid : MemoryPaid f := by
      refine ⟨hf.aligned, ?_⟩
      rw [← hprice hf]
      exact h done f ((List.prefix_append done [x]).trans hpre) hf
    have hf' := hf.next hx
    apply hpaid.not_of_chargedOnly hx hcharged
    rw [← hprice hf']
    exact h (done ++ [x]) f' hpre hf'
  · intro h done f hpre hf
    rw [hprice hf]
    apply MemoryPaid.paid
    apply hf.memoryPaid
    exact fun before x f f' hbefore => h before x f f' (hbefore.trans hpre)

/-- Two calls of a frame at the limit of the depth are charged for the word that their output
would take: the word is paid twice, and is not there. -/
theorem memoryGas_depth_limit : ∃ f, Reaches
        { fork := FkFrontier
          msg := { depth := 1024, gas := 1000, stateGasReservoir := 0, currentTarget := toAddress 1 }
          keccak256 := fun _ => 0 }
        { gasMeter := { executionGasLeft := 1000 }, storage := .persisted fun _ _ => 0 }
        [.opcode (.other fun _ => pure [0, 2, 0, 0, 0, 0, 32]), .opcode (.Call {}),
          .opcode (.other fun _ => pure [0, 2, 0, 0, 0, 0, 32]), .opcode (.Call {})] f ∧
      f.memory.len = 0 ∧ f.memoryGas = 6 ∧
      f.memoryGas ≠ 3 * wordCount f.memory.len
        + wordCount f.memory.len * wordCount f.memory.len / 512 := by
  exact ⟨_, rfl, rfl, rfl, by decide +kernel⟩

end Nimbus.Spec.MemoryFrame
