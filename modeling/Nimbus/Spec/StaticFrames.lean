import Nimbus.Native.ProcessTransaction
import Nimbus.Spec.OpHandlers

/-!
# Static frames are free of effects

The flag of the static context is handed from message to message, and every handler that changes
the state looks at it. Between the start and the end of a frame that has the flag nothing changes
but the access list and the marks of touched accounts, and below such a frame every frame has it.
-/

namespace Nimbus.Spec.Interpreter

open Native Native.Interpreter
open Aristo (Hash32 UInt256)
open Native.Evm (EVMFork CallOp Ending)
open Native.Evm.EVMFork
open MsgFlag

variable {fork : EVMFork} {msg : Message} {p : Prop} {s s' : Machine} {α β : Type}
  {code : InterpM Ending}

/-! ### States that look the same -/

/-- All balances, nonces, codes, storage and transient storage values, the logs and the
self-destructs are the same. -/
structure SameState (s s' : Effects) : Prop where
  world : s'.ledger.toWorld = s.ledger.toWorld
  transientStorage : s'.transientStorage = s.transientStorage
  logEntries : s'.logEntries = s.logEntries
  selfDestruct : s'.ledger.selfDestruct = s.ledger.selfDestruct

theorem SameState.refl (s : Effects) : SameState s s := ⟨rfl, rfl, rfl, rfl⟩

theorem SameState.trans {s t u : Effects} (h : SameState s t) (h' : SameState t u) :
    SameState s u where
  world := h'.world.trans h.world
  transientStorage := h'.transientStorage.trans h.transientStorage
  logEntries := h'.logEntries.trans h.logEntries
  selfDestruct := h'.selfDestruct.trans h.selfDestruct

/-- The static frames among those that have ended have left the state as it was. -/
def StaticEnded (ended : List Ended) : Prop :=
  ∀ e ∈ ended, Static ∈ e.msg.flags → SameState e.before e.after

/-- What an opcode does: if the frame it belongs to is static, the state stays as it is. -/
structure Quiet (static : Prop) (s s' : Machine) : Prop where
  ended : StaticEnded s.ended → StaticEnded s'.ended
  same : static → SameState s.toEffects s'.toEffects

instance : Std.Refl (Quiet p) := ⟨fun s => ⟨id, fun _ => SameState.refl s.toEffects⟩⟩

instance : IsTrans Machine (Quiet p) :=
  ⟨fun _ _ _ h h' => ⟨h'.ended ∘ h.ended, fun hp => (h.same hp).trans (h'.same hp)⟩⟩

abbrev Quietly (static : Prop) (x : InterpM α) : Prop := Keeps (Quiet static) x

/-! ### Changes of the ledger -/

/-- A change of the ledger that a static frame may make. -/
def Invisible (g : LedgerState → LedgerState) : Prop :=
  ∀ ledger, (g ledger).toWorld = ledger.toWorld ∧ (g ledger).selfDestruct = ledger.selfDestruct

theorem modifyLedger_quiet {g : LedgerState → LedgerState} (h : p → Invisible g) :
    Quietly p (modifyLedger g) := by
  apply Keeps.modify
  intro s
  constructor
  · exact id
  · intro hp
    obtain ⟨hworld, hself⟩ := h hp s.ledger
    exact ⟨hworld, rfl, rfl, hself⟩

theorem access_invisible (address : Address) : Invisible (·.access address) :=
  fun _ => ⟨rfl, rfl⟩

theorem accessSlot_invisible (address : Address) (slot : UInt256) :
    Invisible (·.accessSlot address slot) :=
  fun _ => ⟨rfl, rfl⟩

theorem addBalance_zero_invisible (address : Address) (checkEmptyAccount : Bool) :
    Invisible (·.addBalance address 0 checkEmptyAccount) := by
  intro ledger
  unfold LedgerState.addBalance
  dsimp only
  rw [if_pos rfl]
  split
  · exact ⟨rfl, rfl⟩
  · exact ⟨rfl, rfl⟩

/-- What a frame that is not static does to the ledger is its own business. -/
theorem modify_quiet {g : Machine → Machine} (hp : ¬ p) (h : ∀ s, (g s).ended = s.ended) :
    Quietly p (modify g) := by
  apply Keeps.modify
  intro s
  constructor
  · rw [h]
    exact id
  · exact fun hp' => absurd hp' hp

theorem onlyIf_quiet {q : Prop} [Decidable q] {x : InterpM Unit} (h : q → Quietly p x) :
    Quietly p (onlyIf q x) :=
  Keeps.onlyIf h

theorem get_quiet : Quietly p (get : InterpM Machine) := Keeps.get

theorem requireFork_quiet (since : EVMFork) : Quietly p (requireFork fork since) :=
  Keeps.ite (fun _ => Keeps.pure _) fun _ => Keeps.throw _

/-- Behind the check of the static context the frame is not static. -/
theorem checkInStaticContext_bind {f : Unit → InterpM β}
    (h : Static ∉ msg.flags → Quietly (Static ∈ msg.flags) (f ())) :
    Quietly (Static ∈ msg.flags) (checkInStaticContext msg >>= f) := by
  unfold checkInStaticContext
  split
  · exact fun s => Meets.bind (Meets.throw (refl s))
  · next hstatic => exact Keeps.bind (Keeps.pure _) fun _ => h hstatic

/-! ### Frames -/

/-- A message that a handler may make: a static one comes with the fork that has `STATICCALL`,
creates nothing, and sends nothing where the frame begins with a transfer. -/
structure Callable (fork : EVMFork) (msg : Message) : Prop where
  byzantium : Static ∈ msg.flags → FkByzantium ≤ fork
  isCreate : Static ∈ msg.flags → msg.isCreate = false
  value : Static ∈ msg.flags → msg.kind = .Call → msg.value = 0

theorem executeOpcodes_quiet (h : Quietly p code) : Quietly p (executeOpcodes code) := by
  intro s
  have hs := h s
  unfold Meets at hs ⊢
  unfold executeOpcodes
  cases hcode : code s with
  | ok ending s' =>
    rw [hcode] at hs
    cases ending with
    | success output => exact hs
    | revert => exact hs
  | error e s' =>
    rw [hcode] at hs
    exact hs

theorem subBalance_zero_quiet (address : Address) : Quietly p (subBalance address 0) := by
  apply Keeps.modify
  intro s
  constructor
  · exact id
  · intro _
    exact SameState.refl _

theorem subBalance_quiet (hp : ¬ p) (address : Address) (delta : UInt256) :
    Quietly p (subBalance address delta) :=
  modify_quiet hp fun _ => rfl

theorem transfer_quiet (h : p → msg.value = 0) : Quietly p (transfer fork msg) := by
  unfold transfer
  by_cases hp : p
  · rw [h hp]
    apply Keeps.bind (subBalance_zero_quiet _)
    intro _
    exact modifyLedger_quiet fun _ => addBalance_zero_invisible _ _
  · apply Keeps.bind (subBalance_quiet hp _ _)
    exact fun _ => modifyLedger_quiet fun h => absurd h hp

theorem addLogEntry_quiet (hp : ¬ p) (log : Log) : Quietly p (addLogEntry log) :=
  modify_quiet hp fun _ => rfl

theorem emitTransferLog_quiet (h : p → msg.value = 0) : Quietly p (emitTransferLog msg) := by
  apply Keeps.ite (fun _ => Keeps.pure _)
  intro hvalue
  apply Keeps.ite (fun _ => Keeps.pure _)
  exact fun _ => addLogEntry_quiet (fun hp => hvalue (h hp)) _

theorem beforeExec_quiet (h : Callable fork msg) (creation : Creation) :
    Quietly (Static ∈ msg.flags) (beforeExec fork msg creation) := by
  apply Keeps.ite
  · intro hcreate
    have hstatic : Static ∉ msg.flags := fun hs => by
      have hnot := h.isCreate hs
      rw [hcreate] at hnot
      cases hnot
    apply Keeps.bind (transfer_quiet fun hs => absurd hs hstatic)
    intro _
    apply Keeps.bind (modifyLedger_quiet fun hs => absurd hs hstatic)
    intro _
    apply Keeps.bind
    · exact onlyIf_quiet fun _ => modifyLedger_quiet fun hs => absurd hs hstatic
    · intro _
      exact onlyIf_quiet fun _ => emitTransferLog_quiet fun hs => absurd hs hstatic
  · intro _
    apply onlyIf_quiet
    intro hkind
    apply Keeps.bind (transfer_quiet fun hs => h.value hs hkind)
    intro _
    exact onlyIf_quiet fun _ => emitTransferLog_quiet fun hs => h.value hs hkind

theorem writeContract_quiet (hp : ¬ p) (creation : Creation) (output : List UInt8) :
    Quietly p (writeContract fork msg creation output) := by
  apply Keeps.ite (fun _ => Keeps.pure _)
  intro _
  apply Keeps.ite (fun _ => Keeps.pure _)
  intro _
  apply Keeps.ite (fun _ => Keeps.pure _)
  intro _
  apply Keeps.ite (fun _ => Keeps.pure _)
  intro _
  apply Keeps.ite (fun _ => Keeps.pure _)
  intro _
  apply Keeps.bind (modifyLedger_quiet fun h => absurd h hp)
  exact fun _ => Keeps.pure _

section

variable (h : Callable fork msg)
include h

theorem afterExec_quiet (creation : Creation)
    (output : Option (List UInt8)) :
    Quietly (Static ∈ msg.flags) (afterExec fork msg creation output) := by
  apply Keeps.ite
  · intro hcreate
    have hstatic : Static ∉ msg.flags := fun hs => by
      have hnot := h.isCreate hs
      rw [hcreate] at hnot
      cases hnot
    cases output with
    | none => exact Keeps.pure _
    | some output => exact writeContract_quiet hstatic creation output
  · intro _
    apply Keeps.bind
    · apply onlyIf_quiet
      intro _
      apply Keeps.modify
      exact fun s => ⟨id, fun _ => SameState.refl s.toEffects⟩
    · exact fun _ => Keeps.pure _

theorem runFrame_quiet (creation : Creation)
    (hcode : Quietly (Static ∈ msg.flags) code) :
    Quietly (Static ∈ msg.flags) (runFrame fork msg creation code) := by
  apply Keeps.bind (beforeExec_quiet h creation)
  intro _
  apply Keeps.bind (executeOpcodes_quiet hcode)
  exact fun output => afterExec_quiet h creation output

/-- What a frame leaves, seen from its caller. A static frame hands nothing to it. -/
structure FrameQuiet (p : Prop) (msg : Message) (s : Machine) (c : Computation) (s' : Machine) :
    Prop where
  quiet : Quiet p s s'
  logEntries : Static ∈ msg.flags → c.logEntries = []
  transientStorage : Static ∈ msg.flags → c.transientStorage = ∅

theorem execCallOrCreate_quiet (hp : p → Static ∈ msg.flags)
    (creation : Creation) (hcode : Quietly (Static ∈ msg.flags) code) :
    Meets (execCallOrCreate fork msg creation code) s (FrameQuiet p msg s)
      fun _ => Quiet p s := by
  apply execCallOrCreate_meets
  apply (runFrame_returns creation code).meets
  apply (runFrame_quiet h creation hcode _).mono
  · intro isSuccess s' hquiet
    -- a static frame ends with the ledger it began with, committed or rolled back
    have hworld : Static ∈ msg.flags → SameState { ledger := s.ledger } { s'.toEffects with
        ledger := if isSuccess then s'.ledger else s.ledger } := by
      intro hstatic
      have hsame := hquiet.same hstatic
      cases isSuccess with
      | true => exact hsame
      | false => exact ⟨rfl, hsame.transientStorage, hsame.logEntries, rfl⟩
    constructor
    · constructor
      · intro hended e he hstatic
        cases List.mem_cons.mp he with
        | inl heq =>
          subst heq
          exact hworld hstatic
        | inr hmem => exact hquiet.ended hended e hmem hstatic
      · intro hstatic
        have hsame := hworld (hp hstatic)
        exact ⟨hsame.world, rfl, rfl, hsame.selfDestruct⟩
    · exact fun hstatic => (hquiet.same hstatic).logEntries
    · exact fun hstatic => (hquiet.same hstatic).transientStorage
  · exact fun _ _ hfail => hfail

theorem execChild_quiet (hp : p → Static ∈ msg.flags)
    (creation : Creation) {code : Message → InterpM Ending}
    (hcode : Quietly (Static ∈ msg.flags) (code msg)) :
    Quietly p (execChild fork msg creation code) := by
  intro s
  apply Meets.bind
  apply (execCallOrCreate_quiet h hp creation hcode).mono
  · intro c s' hc
    unfold mergeChild onlyIf
    split
    · apply Meets.modify
      constructor
      · exact hc.quiet.ended
      · intro hstatic
        have hsame := hc.quiet.same hstatic
        constructor
        · exact hsame.world
        · rw [hc.transientStorage (hp hstatic)]
          exact hsame.transientStorage
        · rw [hc.logEntries (hp hstatic), List.append_nil]
          exact hsame.logEntries
        · exact hsame.selfDestruct
    · exact Meets.pure hc.quiet
  · exact fun _ _ hfail => hfail

end

/-! ### Calls -/

/-- The code of a child is quiet, whatever message it gets. -/
def ChildQuiet (fork : EVMFork) (child : Message → InterpM Ending) : Prop :=
  ∀ msg, Callable fork msg → Quietly (Static ∈ msg.flags) (child msg)

theorem accessCallee_quiet (q : LocalParams) : Quietly p (accessCallee fork q) := by
  apply Keeps.bind
  · exact onlyIf_quiet fun _ => modifyLedger_quiet fun _ => access_invisible _
  · intro _
    apply Keeps.bind get_quiet
    intro s
    dsimp only
    split
    · exact onlyIf_quiet fun _ => modifyLedger_quiet fun _ => access_invisible _
    · exact Keeps.pure _

variable {child : Message → InterpM Ending}

theorem execCall_quiet {q : LocalParams} {kind : CallKind}
    (h : Callable fork (q.childMsg kind msg.depth)) (hflags : Static ∈ msg.flags → Static ∈ q.flags)
    (hchild : ChildQuiet fork child) (checkBalance : Bool) :
    Quietly (Static ∈ msg.flags) (execCall fork msg q kind checkBalance child) := by
  apply Keeps.bind (accessCallee_quiet q)
  intro _
  apply Keeps.ite (fun _ => Keeps.pure _)
  intro _
  apply Keeps.bind get_quiet
  intro s
  apply Keeps.ite (fun _ => Keeps.pure _)
  intro _
  exact execChild_quiet h hflags {} (hchild _ h)

theorem updateStackAndParams_static (q : LocalParams) :
    Static ∈ (updateStackAndParams fork q).flags ↔ Static ∈ q.flags := by
  unfold updateStackAndParams
  split
  · simp
  · rfl

/-- The flags are the only thing that `updateStackAndParams` may change. -/
theorem updateStackAndParams_value (q : LocalParams) :
    (updateStackAndParams fork q).value = q.value := by
  unfold updateStackAndParams
  split
  · rfl
  · rfl

section

variable (h : Callable fork msg) (p : CallOperands) {child : Message → InterpM Ending}
  (hchild : ChildQuiet fork child)
include h hchild

theorem callOp_quiet : Quietly (Static ∈ msg.flags) (callOp fork msg p child) := by
  apply Keeps.ite (fun _ => Keeps.throw _)
  intro hvalue
  have hflags : Static ∈ (callParams fork msg p).flags ↔ Static ∈ msg.flags :=
    updateStackAndParams_static _
  apply execCall_quiet _ hflags.mpr hchild
  constructor
  · exact fun hstatic => h.byzantium (hflags.mp hstatic)
  · exact fun _ => rfl
  · intro hstatic _
    show (callParams fork msg p).value = 0
    unfold callParams
    rw [updateStackAndParams_value]
    -- the value is what the handler has checked
    by_contra hne
    exact hvalue ⟨hflags.mp hstatic, (BitVec.pos_iff_ne_zero p.value).mpr hne⟩

theorem callCodeOp_quiet : Quietly (Static ∈ msg.flags) (callCodeOp fork msg p child) := by
  have hflags : Static ∈ (callCodeParams fork msg p).flags ↔ Static ∈ msg.flags :=
    updateStackAndParams_static _
  apply execCall_quiet _ hflags.mpr hchild
  exact ⟨fun hstatic => h.byzantium (hflags.mp hstatic), fun _ => rfl,
    fun _ hkind => nomatch hkind⟩

theorem delegateCallOp_quiet : Quietly (Static ∈ msg.flags) (delegateCallOp fork msg p child) := by
  have hflags : Static ∈ (delegateCallParams fork msg p).flags ↔ Static ∈ msg.flags :=
    updateStackAndParams_static _
  apply Keeps.bind (requireFork_quiet _)
  intro _
  apply execCall_quiet _ hflags.mpr hchild
  exact ⟨fun hstatic => h.byzantium (hflags.mp hstatic), fun _ => rfl,
    fun _ hkind => nomatch hkind⟩

end

theorem staticCallOp_quiet (p : CallOperands)
    (hchild : ChildQuiet fork child) :
    Quietly (Static ∈ msg.flags) (staticCallOp fork msg p child) := by
  have hflags : Static ∈ (staticCallParams fork msg p).flags :=
    (updateStackAndParams_static _).mpr (Finset.mem_singleton_self _)
  unfold staticCallOp requireFork
  by_cases hfork : FkByzantium ≤ fork
  · rw [if_pos hfork]
    apply Keeps.bind (Keeps.pure _)
    intro _
    apply execCall_quiet _ (fun _ => hflags) hchild
    exact ⟨fun _ => hfork, fun _ => rfl, fun _ _ => updateStackAndParams_value _⟩
  · rw [if_neg hfork]
    exact fun s => Meets.bind (Meets.throw (refl s))

theorem callOps_quiet (h : Callable fork msg) (p : CallOperands)
    (hchild : ChildQuiet fork child) : Quietly (Static ∈ msg.flags) (callOps fork msg p child) := by
  unfold callOps
  cases p.op with
  | Call => exact callOp_quiet h p hchild
  | CallCode => exact callCodeOp_quiet h p hchild
  | DelegateCall => exact delegateCallOp_quiet h p hchild
  | StaticCall => exact staticCallOp_quiet p hchild

/-! ### Creations -/

theorem incrementNonce_quiet (hp : ¬ p) : Quietly p (incrementNonce msg) := by
  apply Keeps.bind get_quiet
  intro s
  apply Keeps.ite (fun _ => Keeps.pure _)
  intro _
  apply Keeps.bind (modifyLedger_quiet fun h => absurd h hp)
  exact fun _ => Keeps.pure _

theorem accountDeployable_quiet (creation : Creation) :
    Quietly p (accountDeployable fork msg creation) := by
  apply Keeps.bind
  · exact onlyIf_quiet fun _ => modifyLedger_quiet fun _ => access_invisible _
  · intro _
    apply Keeps.bind get_quiet
    exact fun _ => Keeps.pure _

theorem create_callable (p : CreateOperands) : Callable fork (p.childMsg msg) := by
  have hflags : Static ∉ (p.childMsg msg).flags := Finset.notMem_empty _
  exact ⟨fun h => absurd h hflags, fun h => absurd h hflags, fun h => absurd h hflags⟩

theorem execSubCreate_quiet (hmsg : Static ∉ msg.flags) (p : CreateOperands)
    (hchild : ChildQuiet fork child) :
    Quietly (Static ∈ msg.flags) (execSubCreate fork msg p child) := by
  apply Keeps.bind (incrementNonce_quiet hmsg)
  intro _
  apply Keeps.ite (fun _ => Keeps.pure _)
  intro _
  apply Keeps.bind (accountDeployable_quiet _)
  intro _
  apply Keeps.ite (fun _ => Keeps.pure _)
  intro _
  exact execChild_quiet (create_callable p) (fun h => absurd h hmsg) _ (hchild _ (create_callable p))

/-- What `createOp` does behind the check. -/
theorem createOp_rest_quiet (hmsg : Static ∉ msg.flags) (p : CreateOperands)
    (hchild : ChildQuiet fork child) :
    Quietly (Static ∈ msg.flags) (do
      if Evm.MaxCallDepth ≤ msg.depth then return ()
      else if p.endowment ≠ 0 ∧ (← get).ledger.getBalance msg.currentTarget < p.endowment then
        return ()
      else execSubCreate fork msg p child) := by
  apply Keeps.ite (fun _ => Keeps.pure _)
  intro _
  apply Keeps.bind get_quiet
  intro s
  apply Keeps.ite (fun _ => Keeps.pure _)
  exact fun _ => execSubCreate_quiet hmsg p hchild

/-- The check of the static context stands at a different place in each fork, but always before
the first effect. -/
theorem createOp_quiet (p : CreateOperands)
    (hchild : ChildQuiet fork child) :
    Quietly (Static ∈ msg.flags) (createOp fork msg p child) := by
  apply Keeps.bind (onlyIf_quiet fun _ => requireFork_quiet _)
  intro _
  by_cases hfork : FkAmsterdam ≤ fork
  · unfold onlyIf
    rw [if_pos hfork]
    apply checkInStaticContext_bind
    intro hmsg
    apply Keeps.bind (Keeps.onlyIf fun _ => Keeps.throw _)
    intro _
    apply Keeps.bind (Keeps.onlyIf fun _ => ?_)
    · exact fun _ => createOp_rest_quiet hmsg p hchild
    · exact Keeps.ite (fun h => absurd h hmsg) fun _ => Keeps.pure _
  · have hlt : fork < FkAmsterdam := Nat.lt_of_not_le hfork
    unfold onlyIf
    rw [if_neg hfork, if_pos hlt]
    apply Keeps.bind (Keeps.pure _)
    intro _
    apply Keeps.bind (Keeps.onlyIf fun _ => Keeps.throw _)
    intro _
    apply checkInStaticContext_bind
    exact fun hmsg => createOp_rest_quiet hmsg p hchild

/-! ### Storage, logs and self-destructs -/

theorem sstoreOps_quiet (slot value : UInt256) :
    Quietly (Static ∈ msg.flags) (sstoreOps fork msg slot value) := by
  apply Keeps.ite
  · intro _
    apply checkInStaticContext_bind
    exact fun hmsg => modifyLedger_quiet fun h => absurd h hmsg
  · intro _
    apply checkInStaticContext_bind
    intro hmsg
    apply Keeps.bind (modifyLedger_quiet fun h => absurd h hmsg)
    exact fun _ => modifyLedger_quiet fun h => absurd h hmsg

theorem tstoreOp_quiet (slot value : UInt256) :
    Quietly (Static ∈ msg.flags) (tstoreOp fork msg slot value) := by
  apply Keeps.bind (requireFork_quiet _)
  intro _
  apply checkInStaticContext_bind
  exact fun hmsg => modify_quiet hmsg fun _ => rfl

theorem logImpl_quiet (topics : List Hash32) (data : List UInt8) :
    Quietly (Static ∈ msg.flags) (logImpl msg topics data) := by
  apply checkInStaticContext_bind
  exact fun hmsg => addLogEntry_quiet hmsg _

theorem execSelfDestruct_quiet (hmsg : Static ∉ msg.flags) (beneficiary : Address)
    (newlyCreated : Bool) :
    Quietly (Static ∈ msg.flags) (execSelfDestruct fork msg beneficiary newlyCreated) := by
  have hledger : ∀ g, Quietly (Static ∈ msg.flags) (modifyLedger g) :=
    fun g => modifyLedger_quiet fun h => absurd h hmsg
  apply Keeps.bind get_quiet
  intro s
  apply Keeps.bind (hledger _)
  intro _
  apply Keeps.ite
  · intro _
    apply Keeps.bind (subBalance_quiet hmsg _ _)
    intro _
    apply Keeps.bind (hledger _)
    intro _
    apply Keeps.ite
    · intro _
      apply Keeps.bind (hledger _)
      intro _
      apply Keeps.ite (fun _ => Keeps.pure _)
      exact fun _ => onlyIf_quiet fun _ => addLogEntry_quiet hmsg _
    · exact fun _ => hledger _
  · intro _
    apply Keeps.bind (hledger _)
    exact fun _ => hledger _

/-- The handlers without the check belong to forks without `STATICCALL`. -/
theorem selfDestructOps_quiet (h : Callable fork msg) (beneficiary : Address)
    (newlyCreated : Bool) :
    Quietly (Static ∈ msg.flags) (selfDestructOps fork msg beneficiary newlyCreated) := by
  apply Keeps.ite
  · intro hspurious
    apply execSelfDestruct_quiet
    intro hstatic
    have hbyzantium := h.byzantium hstatic
    have hlt : fork.ctorIdx < FkSpurious.ctorIdx := hspurious
    have hle : FkByzantium.ctorIdx ≤ fork.ctorIdx := hbyzantium
    have hcontra : FkByzantium.ctorIdx < FkSpurious.ctorIdx := Nat.lt_of_le_of_lt hle hlt
    exact absurd hcontra (by decide)
  · intro _
    apply Keeps.ite
    · intro _
      apply checkInStaticContext_bind
      exact fun hmsg => execSelfDestruct_quiet hmsg beneficiary newlyCreated
    · intro _
      apply checkInStaticContext_bind
      intro hmsg
      apply Keeps.bind (modifyLedger_quiet fun _ => access_invisible _)
      exact fun _ => execSelfDestruct_quiet hmsg beneficiary newlyCreated

/-! ### Call trees -/

theorem execPrecompile_quiet (prog : Prog) : Quietly p prog.execPrecompile := by
  cases prog with
  | success output => exact Keeps.pure _
  | _ => exact Keeps.throw _

/-- A frame does what its opcodes do one after the other; its children are smaller trees. -/
theorem Prog.exec_quiet (prog : Prog) (msg : Message) (h : Callable fork msg) :
    Quietly (Static ∈ msg.flags) (prog.exec fork msg) := by
  induction prog generalizing msg with
  | success output => exact Keeps.pure _
  | revert => exact Keeps.pure _
  | halt => exact Keeps.throw _
  | accountAccess address rest ih =>
    apply Keeps.bind (onlyIf_quiet fun _ => modifyLedger_quiet fun _ => access_invisible _)
    exact fun _ => ih msg h
  | sload slot rest ih =>
    apply Keeps.bind (onlyIf_quiet fun _ => modifyLedger_quiet fun _ => accessSlot_invisible _ _)
    exact fun _ => ih msg h
  | sstore slot value rest ih =>
    apply Keeps.bind (sstoreOps_quiet slot value)
    exact fun _ => ih msg h
  | tstore slot value rest ih =>
    apply Keeps.bind (tstoreOp_quiet slot value)
    exact fun _ => ih msg h
  | log topics data rest ih =>
    apply Keeps.bind (logImpl_quiet topics data)
    exact fun _ => ih msg h
  | call operands child rest ihChild ih =>
    apply Keeps.bind
    · apply callOps_quiet h
      intro childMsg hchild
      exact Keeps.ite (fun _ => execPrecompile_quiet child) fun _ => ihChild childMsg hchild
    · exact fun _ => ih msg h
  | create operands child rest ihChild ih =>
    apply Keeps.bind (createOp_quiet operands ihChild)
    exact fun _ => ih msg h
  | selfDestruct beneficiary newlyCreated =>
    apply Keeps.bind (selfDestructOps_quiet h beneficiary newlyCreated)
    exact fun _ => Keeps.pure _

/-! ### Transactions and system calls -/

open Native.Executor

theorem callable_of_notStatic (h : Static ∉ msg.flags) : Callable fork msg :=
  ⟨fun hs => absurd hs h, fun hs => absurd hs h, fun hs => absurd hs h⟩

theorem modifyLedger_below (g : LedgerState → LedgerState) : Quietly False (modifyLedger g) :=
  modifyLedger_quiet fun h => h.elim

theorem topFrame_quiet (hmsg : Static ∉ msg.flags) (creation : Creation)
    (hcode : Quietly (Static ∈ msg.flags) code) :
    Quietly False (execCallOrCreate fork msg creation code) :=
  fun _ => (execCallOrCreate_quiet (callable_of_notStatic hmsg) (fun h => h.elim) creation
    hcode).mono (fun _ _ h => h.quiet) fun _ _ h => h

theorem prepareToRunComputation_quiet (ctx : BlockContext) (tx : Transaction) (sender : Address) :
    Quietly False (prepareToRunComputation ctx tx sender) := by
  apply Keeps.bind (onlyIf_quiet fun _ => modifyLedger_below _)
  exact fun _ => subBalance_quiet id _ _

theorem validateAuthorization_quiet (auth : Authorization) :
    Quietly p (validateAuthorization auth) := by
  unfold validateAuthorization
  split
  · exact Keeps.pure _
  · apply Keeps.bind (modifyLedger_quiet fun _ => access_invisible _)
    intro _
    apply Keeps.bind get_quiet
    intro s
    apply Keeps.ite (fun _ => Keeps.pure _)
    intro _
    exact Keeps.ite (fun _ => Keeps.pure _) fun _ => Keeps.pure _

theorem setDelegation_quiet (auths : List Authorization) : Quietly False (setDelegation auths) := by
  induction auths with
  | nil => exact Keeps.pure _
  | cons auth rest ih =>
    apply Keeps.bind (validateAuthorization_quiet auth)
    intro authority
    cases authority with
    | none => exact ih
    | some authority =>
      apply Keeps.bind (modifyLedger_below _)
      intro _
      apply Keeps.bind (modifyLedger_below _)
      exact fun _ => ih

/-- The message does not have the flag. -/
def NotStatic (msg : Message) : Prop := Static ∉ msg.flags

theorem NotStatic.insert {flag : MsgFlag} (h : NotStatic msg) (hflag : Static ≠ flag) :
    NotStatic { msg with flags := insert flag msg.flags } := by
  show Static ∉ Insert.insert flag msg.flags
  rw [Finset.mem_insert]
  exact not_or.mpr ⟨hflag, h⟩

theorem recipientFlags_yields (h : NotStatic msg) :
    Yields (Quiet False) NotStatic (recipientFlags fork msg) := by
  apply Yields.ite
  · exact fun _ => Yields.pure h
  intro _
  apply Yields.ite
  · exact fun _ => Yields.pure (h.insert (by decide))
  · intro _
    apply Yields.bind (modifyLedger_below _).yields
    intro _ _
    apply Yields.bind get_quiet.yields
    intro s _
    apply Yields.ite
    · exact fun _ => Yields.pure (h.insert (by decide))
    · exact fun _ => Yields.pure h

theorem topMessage_notStatic (tx : Transaction) (sender createdAddress : Address) :
    NotStatic (topMessage tx sender createdAddress) := by
  unfold topMessage
  split
  · exact Finset.notMem_empty _
  · exact Finset.notMem_empty _

theorem setupEVM_yields (tx : Transaction) (sender : Address) (run : EvmRun) :
    Yields (Quiet False) NotStatic (setupEVM fork tx sender run) := by
  have hmsg := topMessage_notStatic tx sender run.createdAddress
  apply Yields.ite
  · intro _
    apply Yields.bind (setDelegation_quiet _).yields
    exact fun _ _ => recipientFlags_yields hmsg
  · exact fun _ => Yields.pure hmsg

/-- If there is a message, it does not have the flag. -/
def NoneStatic (msg : Option Message) : Prop := ∀ m ∈ msg, NotStatic m

theorem noneStatic_none : NoneStatic none := fun _ h => nomatch h

section

variable (h : NotStatic msg)
include h

theorem NotStatic.some : NoneStatic (some msg) := by
  intro m hm
  cases hm
  exact h

theorem topFrameAuthAndDelegation_yields (tx : Transaction) (run : EvmRun) :
    Yields (Quiet False) NoneStatic (topFrameAuthAndDelegation fork tx run msg) := by
  apply Yields.bind get_quiet.yields
  intro s _
  apply Yields.bind (setDelegation_quiet _).yields
  intro _ _
  apply Yields.bind (recipientFlags_yields h)
  intro msg hmsg
  apply Yields.ite
  · intro _
    apply Yields.bind (modifyLedger_below _).yields
    exact fun _ _ => Yields.pure noneStatic_none
  · exact fun _ => Yields.pure hmsg.some

theorem topFrameAuth_yields (tx : Transaction) (run : EvmRun) :
    Yields (Quiet False) NoneStatic (topFrameAuth fork tx run msg) := by
  apply Yields.ite
  · exact fun _ => topFrameAuthAndDelegation_yields h tx run
  · exact fun _ => Yields.pure h.some

theorem preExecComputation_yields (tx : Transaction) (run : EvmRun) :
    Yields (Quiet False) NoneStatic (preExecComputation fork tx run msg) := by
  apply Yields.ite
  · intro _
    apply Yields.bind (incrementNonce_quiet id).yields
    intro incremented _
    apply Yields.ite
    · intro _
      apply Yields.bind (topFrameAuth_yields h tx run)
      intro prepared hprepared
      cases prepared with
      | none => exact Yields.pure noneStatic_none
      | some msg =>
        apply Yields.bind (accountDeployable_quiet _).yields
        intro deployable _
        apply Yields.ite
        · exact fun _ => Yields.pure hprepared
        · exact fun _ => Yields.pure noneStatic_none
    · exact fun _ => Yields.pure noneStatic_none
  · exact fun _ => topFrameAuth_yields h tx run

theorem topFrameCode_quiet (prog : Prog) :
    Quietly (Static ∈ msg.flags)
      (if Precompile ∈ msg.flags then prog.execPrecompile else prog.exec fork msg) := by
  apply Keeps.ite
  · exact fun _ => execPrecompile_quiet prog
  · exact fun _ => Prog.exec_quiet prog msg (callable_of_notStatic h)

end

theorem runComputation_quiet (ctx : BlockContext) (tx : Transaction) (sender : Address)
    (run : EvmRun) : Quietly False (runComputation ctx tx sender run) := by
  apply Keeps.bind (prepareToRunComputation_quiet ctx tx sender)
  intro _
  apply Yields.keeps_bind (setupEVM_yields tx sender run)
  intro msg hmsg
  apply Yields.keeps_bind (preExecComputation_yields hmsg tx run)
  intro prepared hprepared
  cases prepared with
  | none => exact Keeps.pure _
  | some msg =>
    have hmsg := hprepared msg rfl
    apply Keeps.bind (topFrame_quiet hmsg _ (topFrameCode_quiet hmsg run.prog))
    exact fun _ => Keeps.pure _

theorem systemCall_quiet (params : SysCallParams) (prog : Prog) :
    Quietly False (systemCall fork params prog) := by
  apply Keeps.ite
  · exact fun _ => Keeps.pure _
  · intro _
    apply Keeps.bind
    · apply topFrame_quiet
      · exact Finset.notMem_empty _
      · exact Prog.exec_quiet prog _ (callable_of_notStatic (Finset.notMem_empty _))
    · exact fun _ => Keeps.pure _

/-- Every frame with the flag that has ended, in a transaction or in a system call, has left
balances, nonces, codes, storage, transient storage, logs and self-destructs as they were. -/
theorem static_frames_quiet : (∀ ctx tx sender run ledger ripemdSpecial,
      Meets (runComputation ctx tx sender run)
        { ledger := ledger, ripemdSpecial := ripemdSpecial }
        (fun _ s => StaticEnded s.ended) fun _ s => StaticEnded s.ended) ∧
    (∀ fork params prog ledger ripemdSpecial,
      Meets (systemCall fork params prog)
        { ledger := ledger, ripemdSpecial := ripemdSpecial }
        (fun _ s => StaticEnded s.ended) fun _ s => StaticEnded s.ended) := by
  have hnone : StaticEnded [] := fun _ he => nomatch he
  constructor
  · intro ctx tx sender run ledger ripemdSpecial
    apply (runComputation_quiet ctx tx sender run _).mono
    · exact fun _ _ h => h.ended hnone
    · exact fun _ _ h => h.ended hnone
  · intro fork params prog ledger ripemdSpecial
    apply (systemCall_quiet params prog _).mono
    · exact fun _ _ h => h.ended hnone
    · exact fun _ _ h => h.ended hnone

end Nimbus.Spec.Interpreter
