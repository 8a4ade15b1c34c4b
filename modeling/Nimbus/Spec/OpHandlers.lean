import Nimbus.ForStd.Keeps
import Nimbus.Native.OpHandlers

/-!
# The parts of a frame that do not fail

An opcode that fails ends its frame; the start and the end of the frame always go through.
-/

namespace Nimbus.Spec.Interpreter

open Native Native.Interpreter
open Aristo (Hash32 UInt256)
open Native.Evm (EVMFork Ending)
open Native.Evm.EVMFork

variable {fork : EVMFork} {msg : Message} {p : Prop} [Decidable p]

theorem modifyLedger_returns (g : LedgerState → LedgerState) : Returns (modifyLedger g) :=
  Returns.modify _

theorem onlyIf_returns {x : InterpM Unit} (h : Returns x) : Returns (onlyIf p x) :=
  Returns.ite h (Returns.pure _)

theorem transfer_returns : Returns (transfer fork msg) :=
  Returns.bind (Returns.modify _) fun _ => modifyLedger_returns _

theorem emitTransferLog_returns : Returns (emitTransferLog msg) :=
  Returns.ite (Returns.pure _) (Returns.ite (Returns.pure _) (Returns.modify _))

theorem beforeExec_returns (creation : Creation) : Returns (beforeExec fork msg creation) := by
  apply Returns.ite
  · apply Returns.bind transfer_returns
    intro _
    apply Returns.bind (modifyLedger_returns _)
    intro _
    apply Returns.bind (onlyIf_returns (modifyLedger_returns _))
    exact fun _ => onlyIf_returns emitTransferLog_returns
  · apply onlyIf_returns
    apply Returns.bind transfer_returns
    exact fun _ => onlyIf_returns emitTransferLog_returns

theorem executeOpcodes_returns (code : InterpM Ending) : Returns (executeOpcodes code) := by
  intro s
  unfold Meets executeOpcodes
  cases code s with
  | ok ending s' =>
    cases ending with
    | success output => trivial
    | revert => trivial
  | error e s' => trivial

theorem writeContract_returns (creation : Creation) (output : List UInt8) :
    Returns (writeContract fork msg creation output) := by
  apply Returns.ite (Returns.pure _)
  apply Returns.ite (Returns.pure _)
  apply Returns.ite (Returns.pure _)
  apply Returns.ite (Returns.pure _)
  apply Returns.ite (Returns.pure _)
  exact Returns.bind (modifyLedger_returns _) fun _ => Returns.pure _

theorem afterExec_returns (creation : Creation) (output : Option (List UInt8)) :
    Returns (afterExec fork msg creation output) := by
  apply Returns.ite
  · cases output with
    | none => exact Returns.pure _
    | some output => exact writeContract_returns creation output
  · exact Returns.bind (onlyIf_returns (Returns.modify _)) fun _ => Returns.pure _

/-- The frame between the start and the end of its savepoint. -/
def runFrame (fork : EVMFork) (msg : Message) (creation : Creation) (code : InterpM Ending) :
    InterpM Bool := do
  beforeExec fork msg creation
  let output ← executeOpcodes code
  afterExec fork msg creation output

theorem runFrame_returns (creation : Creation) (code : InterpM Ending) :
    Returns (runFrame fork msg creation code) := by
  apply Returns.bind (beforeExec_returns creation)
  intro _
  apply Returns.bind (executeOpcodes_returns code)
  exact fun output => afterExec_returns creation output

/-- What the caller of a frame finds when the frame ends in `s'`. -/
def endFrame (msg : Message) (caller : Machine) (isSuccess : Bool) (s' : Machine) : Machine :=
  let after : Effects :=
    { s'.toEffects with ledger := if isSuccess then s'.ledger else caller.ledger }
  { s' with
    ledger := after.ledger
    logEntries := caller.logEntries
    transientStorage := caller.transientStorage
    ended := ⟨msg, { ledger := caller.ledger }, after⟩ :: s'.ended }

theorem execCallOrCreate_meets {creation : Creation} {code : InterpM Ending} {s : Machine}
    {Q : Computation → Machine → Prop} {R : OpError → Machine → Prop}
    (h : Meets (runFrame fork msg creation code) { s with toEffects := { ledger := s.ledger } }
      (fun isSuccess s' => Q ⟨msg, isSuccess, s'.logEntries, s'.transientStorage⟩
        (endFrame msg s isSuccess s')) fun _ _ => False) :
    Meets (execCallOrCreate fork msg creation code) s Q R := by
  have hrun : execCallOrCreate fork msg creation code = (do
      let caller ← get
      set { caller with toEffects := { ledger := caller.ledger } }
      let isSuccess ← runFrame fork msg creation code
      endSavePoint caller.ledger isSuccess
      let s ← get
      set { s with
        logEntries := caller.logEntries
        transientStorage := caller.transientStorage
        ended := ⟨msg, { ledger := caller.ledger }, s.toEffects⟩ :: s.ended }
      return ⟨msg, isSuccess, s.logEntries, s.transientStorage⟩) := by
    unfold execCallOrCreate runFrame
    simp only [bind_assoc]
  rw [hrun]
  apply Meets.bind
  apply Meets.get
  apply Meets.bind
  apply Meets.bind
  apply h.mono
  · intro isSuccess s' hQ
    apply Meets.bind
    cases isSuccess with
    | true => exact hQ
    | false => exact hQ
  · exact fun _ _ hfalse => hfalse.elim

end Nimbus.Spec.Interpreter
