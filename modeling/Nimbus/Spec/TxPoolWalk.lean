import Nimbus.Spec.TxPoolBump

/-!
# What the walk by price yields

The walk of `packByPrice`, one iteration after the other and with a record of what it looks
at and what it yields. The consumer is any `TxVm`: what it does to the ledger in between is
left open. At most one item of each sender is queued at a time, and what follows it has a
higher nonce. That is why nothing is yielded twice.
-/

namespace Nimbus.Spec.TxPool

open Nimbus.Native.TxPool
open Nimbus.Native.HeaderChainCache (u64)
open Nimbus.Native.Evm (EVMFork)
open TxPoolRef

variable {tabs tabs' : TxTabs} {item : TxItem} {fork : EVMFork} {baseFee : Nat}

/-! ## Tips -/

/-- The effective tip, if the fee cap is not below the base fee. -/
def exactTip (baseFee : Nat) (item : TxItem) : Nat :=
  min (txGasPrice item.tx).tip ((txGasPrice item.tx).maxFee - baseFee)

/-- The fee cap is not below the base fee. -/
def Affords (baseFee : Nat) (item : TxItem) : Prop := baseFee ≤ (txGasPrice item.tx).maxFee

theorem price_eq_exactTip (hfees : FeesInRange item.tx) (hpays : Affords baseFee item) :
    item.price baseFee = exactTip baseFee item := by
  have hmax : (txGasPrice item.tx).maxFee < 2 ^ 64 := by
    unfold txGasPrice
    split
    · exact hfees.gasPrice
    · exact hfees.gasPrice
    · exact hfees.maxFeePerGas
  unfold Affords at hpays
  unfold TxItem.price exactTip
  unfold u64
  omega

/-! ## Dropping items -/

theorem validBlobItem_cases (tabs : TxTabs) (a : Address) (item : TxItem) (fork : EVMFork) :
    Outdated fork item ∧ tabs.validBlobItem a item fork = (tabs.dropItem a item, false) ∨
      ¬ Outdated fork item ∧ ∃ valid, tabs.validBlobItem a item fork = (tabs, valid) := by
  unfold TxTabs.validBlobItem Outdated
  split
  next hnone =>
    have hother : ¬ (item.wrapperVersion = some .WrapperVersionEIP4844 ∧ .FkOsaka ≤ fork) := by
      simp [hnone]
    exact .inr ⟨hother, true, rfl⟩
  next version hversion =>
    split
    next hearly =>
      refine .inr ⟨fun h => ?_, false, rfl⟩
      have hlate : ¬ (fork < .FkCancun ∧ .FkOsaka ≤ fork) := by
        cases fork <;> decide
      exact hlate ⟨hearly, h.2⟩
    next =>
      split
      next =>
        split
        next hosaka => exact .inl ⟨⟨hversion, hosaka⟩, rfl⟩
        next hosaka => exact .inr ⟨fun h => hosaka h.2, true, rfl⟩
      next =>
        have hother : ¬ (item.wrapperVersion = some .WrapperVersionEIP4844 ∧ .FkOsaka ≤ fork) := by
          simp [hversion]
        split
        · exact .inr ⟨hother, false, rfl⟩
        · exact .inr ⟨hother, true, rfl⟩

theorem pooled_dropItem (hw : Wf tabs) {a : Address} {nonce : Nat}
    (hslot : slot tabs a nonce = some item) :
    Wf (tabs.dropItem a item) ∧
      ∀ x, x ∈ Pooled (tabs.dropItem a item) ↔ x ∈ Pooled tabs ∧ x ≠ item := by
  obtain ⟨rfl, rfl, hitem⟩ := hw.own a nonce item hslot
  have hrem := dropItem_spec hslot
  exact ⟨hrem.wf hw hitem, hrem.pooled hitem⟩

theorem pooled_dropStale (hw : Wf tabs) (a : Address) (nonce : Nat) :
    let pruned := tabs.dropStale a nonce (Table.len ((tabs.senderTab.lookup a).getD ∅))
    Wf pruned ∧ ∀ x, x ∈ Pooled pruned ↔ x ∈ Pooled tabs ∧ ¬ (x.sender = a ∧ x.nonce < nonce) := by
  obtain ⟨hleft, hnone⟩ := dropStale_spec hw a nonce _ (le_refl _)
  refine ⟨hleft.shrunk.wf, fun x => ⟨fun hx => ⟨hleft.shrunk.subset hx, ?_⟩, ?_⟩⟩
  · rintro ⟨hsender, hlt⟩
    exact absurd (hnone x hx hsender) (not_le.mpr hlt)
  · rintro ⟨hx, hfresh⟩
    by_contra hno
    exact hfresh (hleft.why x hx hno)

/-! ## The walk -/

section
variable [TxVm]

/-- A head that was looked at. -/
structure Visit where
  item : TxItem
  /-- the ledger at that time -/
  ledger : TxVm.Ledger
  /-- whether it was put on the heap -/
  queued : Bool

structure Yield where
  item : TxItem
  /-- the queued heads at that time, `item` among them -/
  byPrice : List TxItem

/-- A walk, with what has happened so far, latest first. -/
structure Walk where
  tabs : TxTabs
  ledger : TxVm.Ledger
  byPrice : List TxItem := []
  /-- the consumer has had enough -/
  stopped : Bool := false
  visits : List Visit := []
  yields : List Yield := []

namespace Walk

/-- `getHeadAndPushTo` -/
def visit (fork : EVMFork) (w : Walk) (a : Address) : Walk :=
  match slot w.tabs a (TxVm.getNonce w.ledger a) with
  | none => w
  | some item =>
    let checked := w.tabs.validBlobItem a item fork
    { w with
      tabs := checked.1
      byPrice := if checked.2 then item :: w.byPrice else w.byPrice
      visits := { item := item, ledger := w.ledger, queued := checked.2 } :: w.visits }

/-- An account in the first pass. -/
def enter (fork : EVMFork) (w : Walk) (a : Address) : Walk :=
  let fuel := Table.len ((w.tabs.senderTab.lookup a).getD ∅)
  visit fork { w with tabs := w.tabs.dropStale a (TxVm.getNonce w.ledger a) fuel } a

def start (fork : EVMFork) (tabs : TxTabs) (ledger : TxVm.Ledger) : Walk :=
  tabs.senderTab.keys.foldl (enter fork) { tabs := tabs, ledger := ledger }

/-- The best head is yielded and the consumer is done with it. -/
def grab (w : Walk) (best : TxItem) (rest : List TxItem) : Walk :=
  let grabbed := TxVm.vmExecGrabItem w.ledger best
  { w with
    ledger := grabbed.1
    byPrice := rest
    stopped := !grabbed.2
    yields := { item := best, byPrice := w.byPrice } :: w.yields }

/-- An iteration, if there is one. -/
def step (baseFee : Nat) (fork : EVMFork) (w : Walk) : Option Walk :=
  if w.stopped then none
  else
    match popBest baseFee w.byPrice with
    | none => none
    | some (best, rest) =>
      let w' := w.grab best rest
      if w'.stopped then some w'
      else if best.nonce < TxVm.getNonce w'.ledger best.sender then some (w'.visit fork best.sender)
      else some w'

def run (baseFee : Nat) (fork : EVMFork) : Nat → Walk → Walk
  | 0, w => w
  | fuel + 1, w =>
    match w.step baseFee fork with
    | none => w
    | some w' => run baseFee fork fuel w'

/-! ### The walk of the model -/

theorem visit_eq (fork : EVMFork) (w : Walk) (a : Address) :
    (w.visit fork a).tabs = (w.tabs.getHeadAndPushTo a w.byPrice (TxVm.getNonce w.ledger a) fork).1 ∧
      (w.visit fork a).byPrice =
        (w.tabs.getHeadAndPushTo a w.byPrice (TxVm.getNonce w.ledger a) fork).2 ∧
      (w.visit fork a).ledger = w.ledger ∧ (w.visit fork a).stopped = w.stopped := by
  have hslot : slot w.tabs a (TxVm.getNonce w.ledger a) =
      (w.tabs.senderTab.lookup a).bind (·.lookup (TxVm.getNonce w.ledger a)) := rfl
  unfold visit TxTabs.getHeadAndPushTo
  rw [hslot]
  cases (w.tabs.senderTab.lookup a).bind (·.lookup (TxVm.getNonce w.ledger a)) with
  | none => exact ⟨rfl, rfl, rfl, rfl⟩
  | some item =>
    dsimp only
    generalize w.tabs.validBlobItem a item fork = checked
    obtain ⟨tabs, valid⟩ := checked
    cases valid with
    | false => exact ⟨rfl, rfl, rfl, rfl⟩
    | true => exact ⟨rfl, rfl, rfl, rfl⟩

theorem start_heads (fork : EVMFork) (tabs : TxTabs) (ledger : TxVm.Ledger) :
    ((start fork tabs ledger).tabs, (start fork tabs ledger).byPrice) =
      heads tabs ledger fork ∧ (start fork tabs ledger).ledger = ledger := by
  have hfold : ∀ (keys : List Address) (w : Walk), w.ledger = ledger →
      ((keys.foldl (enter fork) w).tabs, (keys.foldl (enter fork) w).byPrice) =
        keys.foldl (fun found a =>
          let nonce := TxVm.getNonce ledger a
          let fuel := Table.len ((found.1.senderTab.lookup a).getD ∅)
          (found.1.dropStale a nonce fuel).getHeadAndPushTo a found.2 nonce fork)
          (w.tabs, w.byPrice) ∧
      (keys.foldl (enter fork) w).ledger = ledger := by
    intro keys
    induction keys with
    | nil => exact fun w hw => ⟨rfl, hw⟩
    | cons a keys ih =>
      intro w hw
      obtain ⟨htabs, hprice, hledger, -⟩ := visit_eq fork { w with
        tabs := w.tabs.dropStale a (TxVm.getNonce w.ledger a)
          (Table.len ((w.tabs.senderTab.lookup a).getD ∅)) } a
      have hrest := ih (w.enter fork a) (hledger.trans hw)
      rw [show (w.enter fork a).tabs = _ from htabs, show (w.enter fork a).byPrice = _ from hprice,
        hw] at hrest
      exact hrest
  exact hfold tabs.senderTab.keys { tabs := tabs, ledger := ledger } rfl

theorem run_packByPrice (baseFee : Nat) (fork : EVMFork) (fuel : Nat) (w : Walk)
    (hw : w.stopped = false) : ((w.run baseFee fork fuel).tabs, (w.run baseFee fork fuel).ledger) =
      packByPrice baseFee fork fuel w.tabs w.ledger w.byPrice := by
  have hstopped : ∀ (fuel : Nat) (w : Walk), w.stopped = true → w.run baseFee fork fuel = w := by
    intro fuel w hw
    cases fuel with
    | zero => rfl
    | succ fuel =>
      unfold run step
      rw [if_pos hw]
  induction fuel generalizing w with
  | zero => rfl
  | succ fuel ih =>
    unfold run step packByPrice
    rw [hw, if_neg Bool.false_ne_true]
    cases popBest baseFee w.byPrice with
    | none => rfl
    | some res =>
      obtain ⟨best, rest⟩ := res
      have hgrab : (w.grab best rest).tabs = w.tabs ∧ (w.grab best rest).byPrice = rest ∧
          (w.grab best rest).ledger = (TxVm.vmExecGrabItem w.ledger best).1 ∧
          (w.grab best rest).stopped = !(TxVm.vmExecGrabItem w.ledger best).2 := ⟨rfl, rfl, rfl, rfl⟩
      dsimp only
      generalize w.grab best rest = w' at hgrab
      obtain ⟨htabs, hprice, hledger, hstop⟩ := hgrab
      generalize TxVm.vmExecGrabItem w.ledger best = grabbed at hledger hstop
      obtain ⟨ledger', go⟩ := grabbed
      cases go with
      | false =>
        rw [Bool.not_false] at hstop
        rw [if_pos hstop]
        dsimp only
        rw [hstopped fuel w' hstop, htabs, hledger]
      | true =>
        have hgo : ¬ w'.stopped = true := by simp [hstop]
        rw [if_neg hgo, hledger]
        dsimp only
        by_cases hnonce : best.nonce < TxVm.getNonce ledger' best.sender
        · rw [if_pos hnonce, if_pos hnonce]
          obtain ⟨htabs', hprice', hledger', hstop'⟩ := visit_eq fork w' best.sender
          have hrest := ih (w'.visit fork best.sender) (hstop'.trans hstop)
          rw [htabs', hprice', hledger', htabs, hprice, hledger] at hrest
          exact hrest
        · rw [if_neg hnonce, if_neg hnonce]
          have hrest := ih w' hstop
          rw [htabs, hprice, hledger] at hrest
          exact hrest

/-! ### What the walk keeps -/

/-- The state of a walk that started with `tabs₀` and `ledger₀`. The first pass is through with
the senders `done`. -/
structure Inv (baseFee : Nat) (fork : EVMFork) (tabs₀ : TxTabs) (ledger₀ : TxVm.Ledger)
    (done : Address → Prop) (w : Walk) : Prop where
  wf : Wf w.tabs
  pooled : ∀ x, x ∈ Pooled w.tabs ↔ x ∈ Pooled tabs₀ ∧ ¬ (done x.sender ∧ Stale ledger₀ x) ∧
    ¬ (Outdated fork x ∧ ∃ v ∈ w.visits, v.item = x)
  visits : ∀ v ∈ w.visits, v.item.nonce = TxVm.getNonce v.ledger v.item.sender
  queued : ∀ x ∈ w.byPrice, done x.sender ∧ ∃ v ∈ w.visits, v.item = x ∧ v.queued = true
  /-- at most one head of each sender is queued -/
  senders : w.byPrice.Pairwise (·.sender ≠ ·.sender)
  /-- what is queued comes after what was yielded -/
  later : ∀ y ∈ w.yields, ∀ x ∈ w.byPrice, x.sender = y.item.sender → y.item.nonce < x.nonce
  once : w.yields.Pairwise fun y y' =>
    y'.item.sender = y.item.sender → y'.item.nonce < y.item.nonce
  yields : ∀ y ∈ w.yields, y.item ∈ y.byPrice ∧
    (∀ x ∈ y.byPrice, x.price baseFee ≤ y.item.price baseFee) ∧
    ∃ v ∈ w.visits, v.item = y.item ∧ v.queued = true

variable {w w' : Walk} {tabs₀ : TxTabs} {ledger₀ : TxVm.Ledger} {done done' : Address → Prop}
  {a : Address}

theorem visit_inv (h : Inv baseFee fork tabs₀ ledger₀ done w) (ha : done a)
    (hfresh : ∀ x ∈ w.byPrice, x.sender ≠ a)
    (hlater : ∀ y ∈ w.yields, y.item.sender = a → y.item.nonce < TxVm.getNonce w.ledger a) :
    Inv baseFee fork tabs₀ ledger₀ done (w.visit fork a) := by
  unfold visit
  cases hslot : slot w.tabs a (TxVm.getNonce w.ledger a) with
  | none => exact h
  | some item =>
    obtain ⟨hsender, hnonce, hitem⟩ := h.wf.own a _ item hslot
    dsimp only
    -- a record of `item` is added to the visits, however it ends
    have hvisits : ∀ queued, ∀ v ∈ (⟨item, w.ledger, queued⟩ : Visit) :: w.visits,
        v.item.nonce = TxVm.getNonce v.ledger v.item.sender := by
      intro queued v hv
      obtain rfl | hv := List.mem_cons.mp hv
      · rw [hnonce, hsender]
      · exact h.visits v hv
    have hyields : ∀ queued, ∀ y ∈ w.yields, y.item ∈ y.byPrice ∧
        (∀ x ∈ y.byPrice, x.price baseFee ≤ y.item.price baseFee) ∧
        ∃ v ∈ (⟨item, w.ledger, queued⟩ : Visit) :: w.visits, v.item = y.item ∧ v.queued = true := by
      intro queued y hy
      obtain ⟨hmem, hmax, v, hv, hvisit⟩ := h.yields y hy
      exact ⟨hmem, hmax, v, .tail _ hv, hvisit⟩
    have hqueued : ∀ queued, ∀ x ∈ w.byPrice, done x.sender ∧
        ∃ v ∈ (⟨item, w.ledger, queued⟩ : Visit) :: w.visits, v.item = x ∧ v.queued = true := by
      intro queued x hx
      obtain ⟨hdone, v, hv, hvisit⟩ := h.queued x hx
      exact ⟨hdone, v, .tail _ hv, hvisit⟩
    obtain ⟨hout, hcheck⟩ | ⟨hin, valid, hcheck⟩ := validBlobItem_cases w.tabs a item fork
    · obtain ⟨hwf, hpooled⟩ := pooled_dropItem h.wf hslot
      rw [hcheck]
      refine ⟨hwf, fun x => ?_, hvisits _, hqueued _, h.senders, h.later, h.once, hyields _⟩
      rw [hpooled, h.pooled]
      simp only [List.mem_cons, exists_eq_or_imp]
      constructor
      · rintro ⟨⟨hx, hstale, hkept⟩, hne⟩
        refine ⟨hx, hstale, ?_⟩
        rintro ⟨hxout, rfl | hv⟩
        · exact hne rfl
        · exact hkept ⟨hxout, hv⟩
      · rintro ⟨hx, hstale, hkept⟩
        refine ⟨⟨hx, hstale, fun hv => hkept ⟨hv.1, .inr hv.2⟩⟩, ?_⟩
        rintro rfl
        exact hkept ⟨hout, .inl rfl⟩
    · rw [hcheck]
      have hpooled : ∀ x, x ∈ Pooled w.tabs ↔ x ∈ Pooled tabs₀ ∧
          ¬ (done x.sender ∧ Stale ledger₀ x) ∧
          ¬ (Outdated fork x ∧ ∃ v ∈ (⟨item, w.ledger, valid⟩ : Visit) :: w.visits, v.item = x) := by
        intro x
        rw [h.pooled]
        simp only [List.mem_cons, exists_eq_or_imp]
        constructor
        · rintro ⟨hx, hstale, hkept⟩
          refine ⟨hx, hstale, ?_⟩
          rintro ⟨hxout, rfl | hv⟩
          · exact hin hxout
          · exact hkept ⟨hxout, hv⟩
        · rintro ⟨hx, hstale, hkept⟩
          exact ⟨hx, hstale, fun hv => hkept ⟨hv.1, .inr hv.2⟩⟩
      cases valid with
      | false =>
        exact ⟨h.wf, hpooled, hvisits _, hqueued _, h.senders, h.later, h.once, hyields _⟩
      | true =>
        refine ⟨h.wf, hpooled, hvisits _, ?_, ?_, ?_, h.once, hyields _⟩
        · intro x hx
          obtain rfl | hx := List.mem_cons.mp hx
          · exact ⟨hsender ▸ ha, _, List.mem_cons_self, rfl, rfl⟩
          · exact hqueued true x hx
        · refine List.pairwise_cons.mpr ⟨fun x hx => ?_, h.senders⟩
          rw [hsender]
          exact (hfresh x hx).symm
        · intro y hy x hx hsame
          obtain rfl | hx := List.mem_cons.mp hx
          · rw [hnonce]
            exact hlater y hy (hsame.symm.trans hsender)
          · exact h.later y hy x hx hsame

theorem enter_inv (h : Inv baseFee fork tabs₀ ledger₀ done w) (hyields : w.yields = [])
    (hledger : w.ledger = ledger₀) (ha : ¬ done a) :
    Inv baseFee fork tabs₀ ledger₀ (fun b => b = a ∨ done b) (w.enter fork a) ∧
      (w.enter fork a).yields = [] ∧ (w.enter fork a).ledger = ledger₀ := by
  unfold enter
  obtain ⟨hwf, hpooled⟩ := pooled_dropStale h.wf a (TxVm.getNonce w.ledger a)
  dsimp only at hwf hpooled ⊢
  generalize w.tabs.dropStale a (TxVm.getNonce w.ledger a) _ = pruned at hwf hpooled
  have hpruned : Inv baseFee fork tabs₀ ledger₀ (fun b => b = a ∨ done b) { w with tabs := pruned } := by
    refine ⟨hwf, fun x => ?_, h.visits, fun x hx => ?_, h.senders, h.later, h.once, h.yields⟩
    · have hstale : x.sender = a ∧ x.nonce < TxVm.getNonce w.ledger a ↔
          x.sender = a ∧ Stale ledger₀ x := by
        apply and_congr_right
        rintro rfl
        rw [hledger]
        rfl
      rw [hpooled, h.pooled]
      tauto
    · obtain ⟨hdone, hvisit⟩ := h.queued x hx
      exact ⟨.inr hdone, hvisit⟩
  refine ⟨visit_inv hpruned (.inl rfl) ?_ ?_, ?_, ?_⟩
  · rintro x hx rfl
    exact ha (h.queued x hx).1
  · intro y hy
    rw [show w.yields = [] from hyields] at hy
    cases hy
  · unfold visit
    split
    · exact hyields
    · exact hyields
  · exact (visit_eq fork { w with tabs := pruned } a).2.2.1.trans hledger

theorem start_inv (hw : Wf tabs₀) (baseFee : Nat) (fork : EVMFork) (ledger₀ : TxVm.Ledger) :
    Inv baseFee fork tabs₀ ledger₀ (· ∈ tabs₀.senderTab.keys) (start fork tabs₀ ledger₀) := by
  have hfold : ∀ (keys : List Address) (done : Address → Prop) (w : Walk), keys.Nodup →
      (∀ a ∈ keys, ¬ done a) → Inv baseFee fork tabs₀ ledger₀ done w → w.yields = [] →
      w.ledger = ledger₀ →
      Inv baseFee fork tabs₀ ledger₀ (fun b => b ∈ keys ∨ done b) (keys.foldl (enter fork) w) := by
    intro keys
    induction keys with
    | nil =>
      intro done w _ _ h _ _
      simpa using h
    | cons a keys ih =>
      intro done w hnodup hnew h hyields hledger
      obtain ⟨hnot, hnodup⟩ := List.nodup_cons.mp hnodup
      obtain ⟨hinv, hyields', hledger'⟩ := enter_inv h hyields hledger (hnew a List.mem_cons_self)
      have hnew' : ∀ b ∈ keys, ¬ (b = a ∨ done b) := by
        rintro b hb (rfl | hdone)
        · exact hnot hb
        · exact hnew b (List.mem_cons_of_mem a hb) hdone
      have hrest := ih _ _ hnodup hnew' hinv hyields' hledger'
      have hdone : (fun b => b ∈ a :: keys ∨ done b) = fun b => b ∈ keys ∨ b = a ∨ done b := by
        funext b
        rw [List.mem_cons]
        exact propext (by tauto)
      rw [hdone]
      exact hrest
  have hempty : Inv baseFee fork tabs₀ ledger₀ (fun _ => False) { tabs := tabs₀, ledger := ledger₀ } := by
    refine ⟨hw, fun x => by simp, ?_, ?_, .nil, ?_, .nil, ?_⟩
    · exact fun v hv => nomatch hv
    · exact fun x hx => nomatch hx
    · exact fun y hy => nomatch hy
    · exact fun y hy => nomatch hy
  have hall := hfold tabs₀.senderTab.keys (fun _ => False) _ tabs₀.senderTab.keys_nodup
    (fun _ _ => id) hempty rfl rfl
  simpa [start] using hall

theorem step_cases (h : w.step baseFee fork = some w') : ∃ best rest,
    popBest baseFee w.byPrice = some (best, rest) ∧
      (w' = w.grab best rest ∨
        best.nonce < TxVm.getNonce (w.grab best rest).ledger best.sender ∧
          w' = (w.grab best rest).visit fork best.sender) := by
  unfold step at h
  split at h
  · cases h
  · split at h
    · cases h
    next best rest hpop =>
      refine ⟨best, rest, hpop, ?_⟩
      dsimp only at h
      split at h
      · cases h
        exact .inl rfl
      · split at h
        next hnonce =>
          cases h
          exact .inr ⟨hnonce, rfl⟩
        next =>
          cases h
          exact .inl rfl

theorem step_inv (h : Inv baseFee fork tabs₀ ledger₀ done w) (hstep : w.step baseFee fork = some w') :
    Inv baseFee fork tabs₀ ledger₀ done w' := by
  obtain ⟨best, rest, hpop, hcases⟩ := step_cases hstep
  obtain ⟨hperm, hmax⟩ := popBest_some hpop
  have hbest : best ∈ w.byPrice := hperm.mem_iff.mpr List.mem_cons_self
  have hrest : ∀ x ∈ rest, x ∈ w.byPrice := fun x hx =>
    hperm.mem_iff.mpr (List.mem_cons_of_mem best hx)
  -- `best` was the only head of its sender
  have hsenders := (hperm.pairwise_iff fun hne => Ne.symm hne).mp h.senders
  obtain ⟨halone, hrestSenders⟩ := List.pairwise_cons.mp hsenders
  have hgrab : Inv baseFee fork tabs₀ ledger₀ done (w.grab best rest) := by
    refine ⟨h.wf, h.pooled, h.visits, fun x hx => h.queued x (hrest x hx), hrestSenders, ?_, ?_, ?_⟩
    · intro y hy x hx hsame
      obtain rfl | hy := List.mem_cons.mp hy
      · exact absurd hsame.symm (halone x hx)
      · exact h.later y hy x (hrest x hx) hsame
    · refine List.pairwise_cons.mpr ⟨fun y hy hsame => ?_, h.once⟩
      exact h.later y hy best hbest hsame.symm
    · intro y hy
      obtain rfl | hy := List.mem_cons.mp hy
      · exact ⟨hbest, hmax, (h.queued best hbest).2⟩
      · exact h.yields y hy
  obtain rfl | ⟨hnonce, rfl⟩ := hcases
  · exact hgrab
  · apply visit_inv hgrab (h.queued best hbest).1
    · exact fun x hx => (halone x hx).symm
    · intro y hy hsame
      obtain rfl | hy := List.mem_cons.mp hy
      · exact hnonce
      · exact (h.later y hy best hbest hsame.symm).trans hnonce

theorem run_inv (h : Inv baseFee fork tabs₀ ledger₀ done w) (fuel : Nat) :
    Inv baseFee fork tabs₀ ledger₀ done (w.run baseFee fork fuel) := by
  induction fuel generalizing w with
  | zero => exact h
  | succ fuel ih =>
    unfold run
    cases hstep : w.step baseFee fork with
    | none => exact h
    | some w' => exact ih (step_inv h hstep)

theorem step_height (hw : Wf w.tabs) (hstep : w.step baseFee fork = some w') :
    height w'.tabs w'.byPrice + 1 ≤ height w.tabs w.byPrice := by
  obtain ⟨best, rest, hpop, hcases⟩ := step_cases hstep
  have hheight := popBest_height hpop w.tabs
  obtain rfl | ⟨hnonce, rfl⟩ := hcases
  · show height w.tabs rest + 1 ≤ _
    omega
  · obtain ⟨htabs, hprice, -, -⟩ := visit_eq fork (w.grab best rest) best.sender
    rw [htabs, hprice]
    obtain ⟨-, hle | ⟨item, hslot, hle⟩⟩ := getHeadAndPushTo_height fork hw best.sender rest
      (TxVm.getNonce (w.grab best rest).ledger best.sender)
    · exact (Nat.add_le_add_right hle 1).trans (by omega)
    · have habove := above_lt hslot hnonce
      exact (Nat.add_le_add_right hle 1).trans (by omega)

theorem run_ends (h : Inv baseFee fork tabs₀ ledger₀ done w) {fuel : Nat}
    (hfuel : height w.tabs w.byPrice ≤ fuel) : (w.run baseFee fork fuel).step baseFee fork = none := by
  induction fuel generalizing w with
  | zero =>
    show w.step baseFee fork = none
    cases hstep : w.step baseFee fork with
    | none => rfl
    | some w' =>
      have hheight := step_height h.wf hstep
      omega
  | succ fuel ih =>
    unfold run
    cases hstep : w.step baseFee fork with
    | none => exact hstep
    | some w' =>
      have hheight := step_height h.wf hstep
      exact ih (step_inv h hstep) (by omega)

end Walk

/-! ## What is yielded and what is removed -/

/-- In none of the tables. -/
structure Gone (tabs : TxTabs) (item : TxItem) : Prop where
  idTab : tabs.idTab.lookup item.id = none
  senderTab : slot tabs item.sender item.nonce = none
  blobTab : ∀ v l, tabs.blobTab.lookup v = some l → l.item ≠ item

omit [TxVm] in
theorem gone_of_not_pooled {tabs₀ : TxTabs} (hw₀ : Wf tabs₀) (hw : Wf tabs)
    (hsub : ∀ x, x ∈ Pooled tabs → x ∈ Pooled tabs₀) (hitem : item ∈ Pooled tabs₀)
    (hno : item ∉ Pooled tabs) : Gone tabs item where
  idTab := by
    by_contra hsome
    obtain ⟨y, hy⟩ := Option.ne_none_iff_exists'.mp hsome
    have hpooled := hw.pooled_of_lookup hy
    have hsame := eq_of_id tabs₀ (hsub y hpooled) hitem (hw.id _ y hy)
    exact hno (hsame ▸ hpooled)
  senderTab := by
    by_contra hsome
    obtain ⟨y, hy⟩ := Option.ne_none_iff_exists'.mp hsome
    obtain ⟨hsender, hnonce, hpooled⟩ := hw.own _ _ y hy
    have hsame := hw₀.eq_of_slot (hsub y hpooled) hitem hsender hnonce
    exact hno (hsame ▸ hpooled)
  blobTab v l hl hsame := hno (hsame ▸ (hw.live v l hl).1)

/-- The walk `w` through `tabs` is over, and what it has yielded and removed. -/
structure Selects (baseFee : Nat) (fork : EVMFork) (tabs : TxTabs) (ledger : TxVm.Ledger)
    (w : Walk) : Prop where
  ends : w.step baseFee fork = none
  once : (w.yields.map (·.item)).Nodup
  /-- the nonce was that of the account when the item was queued -/
  nonce : ∀ y ∈ w.yields, ∃ v ∈ w.visits, v.item = y.item ∧ v.queued = true ∧
    y.item.nonce = TxVm.getNonce v.ledger y.item.sender
  /-- the best of the queued heads, when all of them pay the base fee -/
  best : ∀ y ∈ w.yields, y.item ∈ y.byPrice ∧
    ((∀ x ∈ y.byPrice, FeesInRange x.tx ∧ Affords baseFee x) →
      ∀ x ∈ y.byPrice, exactTip baseFee x ≤ exactTip baseFee y.item)
  gone : ∀ x ∈ Pooled tabs, Stale ledger x ∨ Outdated fork x ∧ (∃ v ∈ w.visits, v.item = x) →
    Gone w.tabs x
  kept : ∀ x ∈ Pooled tabs, ¬ (Stale ledger x ∨ Outdated fork x ∧ ∃ v ∈ w.visits, v.item = x) →
    w.tabs.idTab.lookup x.id = some x ∧ slot w.tabs x.sender x.nonce = some x

namespace Walk

theorem Inv.selects {w : Walk} {tabs₀ : TxTabs} {ledger₀ : TxVm.Ledger} (hw₀ : Wf tabs₀)
    (h : Inv baseFee fork tabs₀ ledger₀ (· ∈ tabs₀.senderTab.keys) w)
    (hends : w.step baseFee fork = none) : Selects baseFee fork tabs₀ ledger₀ w := by
  -- each sender of a transaction has a list
  have hkeys : ∀ x ∈ Pooled tabs₀, x.sender ∈ tabs₀.senderTab.keys := by
    intro x hx
    obtain ⟨sn, hsn, -⟩ := Option.bind_eq_some_iff.mp (hw₀.filed x hx)
    exact AList.mem_keys.mp (AList.lookup_isSome.mp (by rw [hsn]; rfl))
  refine ⟨hends, ?_, ?_, ?_, ?_, ?_⟩
  · rw [List.Nodup, List.pairwise_map]
    refine h.once.imp fun {y y'} hlt hsame => ?_
    have hless := hlt (by rw [hsame])
    rw [hsame] at hless
    exact absurd hless (lt_irrefl _)
  · intro y hy
    obtain ⟨-, -, v, hv, hitem, hqueued⟩ := h.yields y hy
    refine ⟨v, hv, hitem, hqueued, ?_⟩
    rw [← hitem]
    exact h.visits v hv
  · intro y hy
    obtain ⟨hmem, hmax, -⟩ := h.yields y hy
    refine ⟨hmem, fun hpay x hx => ?_⟩
    rw [← price_eq_exactTip (hpay x hx).1 (hpay x hx).2,
      ← price_eq_exactTip (hpay y.item hmem).1 (hpay y.item hmem).2]
    exact hmax x hx
  · intro x hx hwhy
    apply gone_of_not_pooled hw₀ h.wf (fun y hy => ((h.pooled y).mp hy).1) hx
    intro hstays
    obtain ⟨-, hfresh, hvalid⟩ := (h.pooled x).mp hstays
    obtain hstale | hout := hwhy
    · exact hfresh ⟨hkeys x hx, hstale⟩
    · exact hvalid hout
  · intro x hx hwhy
    have hstays : x ∈ Pooled w.tabs := by
      rw [h.pooled]
      exact ⟨hx, fun hstale => hwhy (.inl hstale.2), fun hout => hwhy (.inr hout)⟩
    exact ⟨hstays, h.wf.filed x hstays⟩

end Walk

end

/-! ## Walks that yield or remove other items -/

namespace OddWalks

attribute [local instance] OneBlob.vm OneBlob.rules

/-- A transaction of the sender `sender`, at the price `gasPrice`. -/
def ptx (sender : UInt8) (gasPrice : Nat) : PooledTransaction where
  tx := { gasPrice := gasPrice, others := [sender] }

def entry (sender : UInt8) (gasPrice : Nat) : TxItem where
  ptx := ptx sender gasPrice
  id := Vector.replicate 32 sender
  time := 0
  sender := Vector.replicate 20 sender

/-- The tables after some transactions were added. -/
def added (ptxs : List PooledTransaction) : TxTabs :=
  ((TxPoolRef.init OneBlob.chain).run (ptxs.map (.addTx · 0))).toTxTabs

end OddWalks

end Nimbus.Spec.TxPool
