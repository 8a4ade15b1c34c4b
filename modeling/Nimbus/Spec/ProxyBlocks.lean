import Nimbus.Native.ProxyBlocks
import Nimbus.Spec.ChainLineage

/-!
# Verified headers and anchors

The light client names anchors, each with a trust. A header gets a label of some trust when it
is an anchor, or when a walk or a jump from an anchor of that trust has led to it. So a label
says that the header is an ancestor of an anchor that there was at some time. It is fresh for
another anchor if it says so of this anchor too.

A request goes down from its anchor. Where it finds a label fresh, it stays on blocks that are
closed under ancestors: those of the anchor, or of all anchors that there have been.
-/

namespace Nimbus.Spec.VerifiedProxy

open Nimbus.Native.VerifiedProxy
open Nimbus.Native.VerifiedProxy.BlockConfig
open Nimbus.Native.ForkedChain (Hash32 Header zeroHash32)
open Nimbus.Spec.ForkedChain (ParentOf Lineage)
open Request

variable {keccak : Hashes} {fullTransactions : Bool} {number : Nat}

/-! ## Anchors -/

/-- The blocks that the light client names as anchors in the course of a run, and what is known
of their ancestors. -/
structure LightClient (keccak : Hashes) where
  anchors : HeaderTrust → Set Header
  /-- the storage of the history contract in the state of a block -/
  history : Header → Nat → Nat
  injective : Function.Injective keccak.computeBlockHash
  /-- an ancestor of an anchor has the number after its parent -/
  parent : ∀ trust, ∀ a ∈ anchors trust, ∀ hd p, Lineage keccak.toCommonRef a hd →
    hd.parentHash = keccak.computeBlockHash p → hd.number = p.number + 1
  /-- a slot holds the hash of the last block of its residue, or nothing -/
  history_slot : ∀ trust, ∀ a ∈ anchors trust, ∀ hd n, Lineage keccak.toCommonRef a hd →
    n < hd.number → hd.number ≤ n + HISTORY_SERVE_WINDOW →
    history hd (n % HISTORY_SERVE_WINDOW) = 0 ∨
      ∃ p, Lineage keccak.toCommonRef hd p ∧ p.number = n ∧
        history hd (n % HISTORY_SERVE_WINDOW) = keccak.computeBlockHash p

variable (lc : LightClient keccak)

/-- The header is an ancestor of an anchor with at least this trust. -/
def Covered (trust : HeaderTrust) (hd : Header) : Prop :=
  ∃ t a, trust.toNat ≤ t.toNat ∧ a ∈ lc.anchors t ∧ Lineage keccak.toCommonRef a hd

/-- All anchors with at least this trust lie on one chain. -/
def NoReorg (trust : HeaderTrust) : Prop :=
  ∀ t t' a a', trust.toNat ≤ t.toNat → trust.toNat ≤ t'.toNat → a ∈ lc.anchors t →
    a' ∈ lc.anchors t' → Lineage keccak.toCommonRef a a' ∨ Lineage keccak.toCommonRef a' a

variable {lc} {trust : HeaderTrust} {hd p : Header}

theorem Covered.mono {trust' : HeaderTrust} (h : Covered lc trust hd)
    (hle : trust'.toNat ≤ trust.toNat) : Covered lc trust' hd := by
  obtain ⟨t, a, ht, ha, hline⟩ := h
  exact ⟨t, a, Nat.le_trans hle ht, ha, hline⟩

theorem Covered.lineage (h : Covered lc trust hd) (hline : Lineage keccak.toCommonRef hd p) :
    Covered lc trust p := by
  obtain ⟨t, a, ht, ha, hline'⟩ := h
  exact ⟨t, a, ht, ha, hline'.trans hline⟩

theorem lineage_of_number_le {a x y : Header} (hinj : Function.Injective keccak.computeBlockHash)
    (hx : Lineage keccak.toCommonRef a x) (hy : Lineage keccak.toCommonRef a y)
    (hle : y.number ≤ x.number) : Lineage keccak.toCommonRef x y := by
  induction hx using Relation.ReflTransGen.head_induction_on with
  | refl => exact hy
  | head hp hrest ih =>
    rcases Relation.ReflTransGen.cases_head hy with rfl | ⟨p', hp', hrest'⟩
    · have hlt := hp.2
      have hnum := Nimbus.Spec.ForkedChain.Lineage.number_le hrest
      omega
    · rw [← hinj (hp.1.symm.trans hp'.1)] at hrest'
      exact ih hrest'

/-- Without a reorganisation a covered header up to an anchor is an ancestor of it. -/
theorem Covered.ancestor {anchor : Header} (h : Covered lc trust hd)
    (hno : NoReorg lc trust) (hanchor : anchor ∈ lc.anchors trust)
    (hle : hd.number ≤ anchor.number) : Lineage keccak.toCommonRef anchor hd := by
  obtain ⟨t, a, ht, ha, hline⟩ := h
  rcases hno trust t anchor a (Nat.le_refl _) ht hanchor ha with hup | hdown
  · exact hup.trans hline
  · exact lineage_of_number_le lc.injective hdown hline hle

/-! ## The header store -/

variable (lc) in
structure StoreOk (store : HeaderStore keccak) : Prop where
  label : ∀ hash cached, store.headers hash = some cached → cached.trust ≠ .none →
    Covered lc cached.trust cached.header
  numbered : ∀ n, store.hashes n ≠ zeroHash32 →
    ∃ hd, keccak.computeBlockHash hd = store.hashes n ∧ hd.number = n
  anchor : ∀ trust hash, store.getHash trust = some hash →
    ∃ a ∈ lc.anchors trust, keccak.computeBlockHash a = hash
  earliest : ∀ hash, store.earliestFinalizedHash = some hash →
    ∃ a ∈ lc.anchors .finalized, keccak.computeBlockHash a = hash

variable {store : HeaderStore keccak} {hash : Hash32}

theorem dropNumber_eq (store : HeaderStore keccak) (evicted : Option Hash32) (n : Nat) :
    store.dropNumber evicted n = store.hashes n ∨ store.dropNumber evicted n = zeroHash32 := by
  unfold HeaderStore.dropNumber
  cases evicted with
  | none => exact .inl rfl
  | some key =>
    dsimp only
    cases store.headers key with
    | none => exact .inl rfl
    | some value =>
      dsimp only
      split
      · rw [Function.update_apply]
        split
        · exact .inr rfl
        · exact .inl rfl
      · exact .inl rfl

theorem newTrust_cases (store : HeaderStore keccak) (hash : Hash32) (trust : HeaderTrust) :
    store.newTrust hash trust = trust ∨
      ∃ existing, store.headers hash = some existing ∧
        store.newTrust hash trust = existing.trust := by
  unfold HeaderStore.newTrust
  cases hexisting : store.headers hash with
  | none => exact .inl rfl
  | some existing =>
    dsimp only
    split
    · exact .inr ⟨existing, rfl, rfl⟩
    · exact .inl rfl

theorem StoreOk.put (h : StoreOk lc store) {header : Header} {evicted : Option Hash32}
    (hhash : keccak.computeBlockHash header = hash)
    (hcovered : trust ≠ .none → Covered lc trust header) :
    StoreOk lc (store.put header hash trust evicted hhash) where
  label key cached hget hne := by
    simp only [HeaderStore.put] at hget
    split at hget
    · cases hget
      rcases newTrust_cases store hash trust with heq | ⟨existing, hexisting, heq⟩
      · rw [heq] at hne ⊢
        exact hcovered hne
      · -- the header that was there is the same one
        have hsame : existing.header = header :=
          lc.injective ((store.keyed hash existing hexisting).trans hhash.symm)
        rw [heq] at hne ⊢
        rw [← hsame]
        exact h.label hash existing hexisting hne
    · split at hget
      · cases hget
      · exact h.label key cached hget hne
  numbered n hne := by
    have hdropped : store.dropNumber evicted n ≠ zeroHash32 →
        ∃ hd, keccak.computeBlockHash hd = store.dropNumber evicted n ∧ hd.number = n := by
      intro hne
      rcases dropNumber_eq store evicted n with heq | heq
      · rw [heq] at hne ⊢
        exact h.numbered n hne
      · exact absurd heq hne
    simp only [HeaderStore.put] at hne ⊢
    split at hne
    · next hfinal =>
      rw [if_pos hfinal]
      rw [Function.update_apply] at hne ⊢
      split at hne
      · next heq =>
        rw [if_pos heq]
        exact ⟨header, hhash, heq.symm⟩
      · next hneq =>
        rw [if_neg hneq]
        exact hdropped hne
    · next hfinal =>
      rw [if_neg hfinal]
      exact hdropped hne
  anchor := by
    intro t key hget
    cases t <;> exact h.anchor _ key hget
  earliest := h.earliest

theorem StoreOk.putHash (h : StoreOk lc store)
    (hhash : ∃ a ∈ lc.anchors trust, keccak.computeBlockHash a = hash) :
    StoreOk lc (store.putHash hash trust) := by
  cases trust with
  | none => exact h
  | optimistic =>
    refine ⟨h.label, h.numbered, ?_, h.earliest⟩
    intro t key hget
    cases t with
    | optimistic =>
      cases hget
      exact hhash
    | none => exact h.anchor .none key hget
    | safe => exact h.anchor .safe key hget
    | finalized => exact h.anchor .finalized key hget
  | safe =>
    refine ⟨h.label, h.numbered, ?_, h.earliest⟩
    intro t key hget
    cases t with
    | safe =>
      cases hget
      exact hhash
    | none => exact h.anchor .none key hget
    | optimistic => exact h.anchor .optimistic key hget
    | finalized => exact h.anchor .finalized key hget
  | finalized =>
    refine ⟨h.label, h.numbered, ?_, ?_⟩
    · intro t key hget
      cases t with
      | finalized =>
        cases hget
        exact hhash
      | none => exact h.anchor .none key hget
      | optimistic => exact h.anchor .optimistic key hget
      | safe => exact h.anchor .safe key hget
    · intro key hget
      simp only [HeaderStore.putHash] at hget
      split at hget
      · cases hget
        exact hhash
      · exact h.earliest key hget

theorem StoreOk.get (h : StoreOk lc store) (hne : trust ≠ .none)
    (hget : store.get hash trust = some hd) : Covered lc trust hd := by
  unfold HeaderStore.get at hget
  cases hcached : store.headers hash with
  | none =>
    rw [hcached] at hget
    cases hget
  | some cached =>
    simp only [hcached] at hget
    split at hget
    · cases hget
    · next hge =>
      cases hget
      have hlabel : cached.trust ≠ .none := by
        intro hnone
        rw [hnone] at hge
        apply hne
        cases trust with
        | none => rfl
        | optimistic => exact absurd (show (0 : Nat) < 1 by decide) hge
        | safe => exact absurd (show (0 : Nat) < 2 by decide) hge
        | finalized => exact absurd (show (0 : Nat) < 3 by decide) hge
      exact (h.label hash cached hcached hlabel).mono (Nat.le_of_not_lt hge)

theorem get_mono {trust' : HeaderTrust} (hget : store.get hash trust = some hd)
    (hle : trust'.toNat ≤ trust.toNat) : store.get hash trust' = some hd := by
  unfold HeaderStore.get at hget ⊢
  cases hcached : store.headers hash with
  | none =>
    rw [hcached] at hget
    cases hget
  | some cached =>
    simp only [hcached] at hget ⊢
    split at hget
    · cases hget
    · next hge =>
      rw [if_neg (by omega)]
      exact hget

theorem StoreOk.getNumber (h : StoreOk lc store) {n : Nat}
    (hget : store.getNumber n trust = some hd) :
    ∃ key, store.get key trust = some hd ∧ hd.number = n := by
  unfold HeaderStore.getNumber at hget
  cases hnumber : store.getNumberHash n trust with
  | none =>
    rw [hnumber] at hget
    cases hget
  | some key =>
    simp only [hnumber] at hget
    refine ⟨key, hget, ?_⟩
    unfold HeaderStore.getNumberHash at hnumber
    dsimp only at hnumber
    split at hnumber
    · cases hnumber
    · next hzero =>
      have hkey : store.hashes n = key := by
        split at hnumber
        · cases hnumber
        · split at hnumber
          · cases hnumber
          · exact Option.some.inj hnumber
      obtain ⟨hd', hhash, hnum⟩ := h.numbered n hzero
      rw [hkey] at hhash
      have hsame : hd' = hd := lc.injective (hhash.trans (HeaderStore.get_keyed hget).symm)
      rw [← hsame]
      exact hnum

/-! ## Descents -/

/-- A block up to the anchor that is found with the trust is good, if it is one that is asked for
or found as finalized. -/
def Fresh (trust : HeaderTrust) (anchor : Header) (asked good : Header → Prop)
    (store : HeaderStore keccak) : Prop :=
  ∀ hash hd, store.get hash trust = some hd → hd.number ≤ anchor.number →
    asked hd ∨ (store.get hash .finalized).isSome → good hd

variable (lc) in
/-- The good blocks are those that a request meets on its way down from the anchor. -/
structure Descent (seen : HeaderStore keccak → Prop) (trust : HeaderTrust) (anchor : Header)
    (asked good : Header → Prop) : Prop where
  start : good anchor
  covered : ∀ hd, good hd → Covered lc trust hd
  lineage : ∀ hd p, good hd → Lineage keccak.toCommonRef hd p → good p
  fresh : ∀ store, StoreOk lc store → seen store → Fresh trust anchor asked good store

variable {seen : HeaderStore keccak → Prop} {anchor : Header} {asked good : Header → Prop}

theorem descent_covered (htrust : trust ≠ .none) (hcov : Covered lc trust anchor) :
    Descent lc seen trust anchor asked (Covered lc trust) where
  start := hcov
  covered _ h := h
  lineage _ _ h hline := h.lineage hline
  fresh _ hstore _ _ _ hget _ _ := hstore.get htrust hget

theorem descent_lineage (hanchor : anchor ∈ lc.anchors trust)
    (hfresh : ∀ store, StoreOk lc store → seen store →
      Fresh trust anchor asked (Lineage keccak.toCommonRef anchor) store) :
    Descent lc seen trust anchor asked (Lineage keccak.toCommonRef anchor) where
  start := Relation.ReflTransGen.refl
  covered _ h := ⟨trust, anchor, Nat.le_refl _, hanchor, h⟩
  lineage _ _ h hline := h.trans hline
  fresh := hfresh

theorem StoreOk.fresh (h : StoreOk lc store) (htrust : trust ≠ .none) (hno : NoReorg lc trust)
    (hanchor : anchor ∈ lc.anchors trust) :
    Fresh trust anchor asked (Lineage keccak.toCommonRef anchor) store :=
  fun _ _ hget hle _ => (h.get htrust hget).ancestor hno hanchor hle

theorem Descent.parent (d : Descent lc seen trust anchor asked good) (hgood : good hd)
    (hp : hd.parentHash = keccak.computeBlockHash p) : good p ∧ hd.number = p.number + 1 := by
  obtain ⟨t, a, -, ha, hline⟩ := d.covered hd hgood
  have hnum := lc.parent t a ha hd p hline hp
  exact ⟨d.lineage hd p hgood (Relation.ReflTransGen.single ⟨hp, hnum⟩), hnum⟩

/-! ## Downloads -/

variable (lc) in
/-- The answers of backends: a proof of a slot is sound where the state is that of an ancestor of
an anchor. -/
structure AnswerOk (query : BlockQuery) (answer : BlockAnswer) : Prop where
  ends : answer ≠ .error .endless
  storage : ∀ slot header value, query = .getStorageAt slot header →
    Covered lc .none header → answer = .ok (.value value) → value = lc.history header slot

variable (lc) in
/-- Every access keeps the header store in order, and no request runs for ever. -/
def contract : Contract (HeaderStore keccak) BlockQuery BlockAnswer Failure where
  inv := StoreOk lc
  allowed := AnswerOk lc
  fails e := e ≠ .endless

variable {engine : BlockConfig keccak}

theorem fail_meets {α : Type} {P : α → Prop} (errType : EngineError) (errMsg : String) :
    Request.Meets (contract lc) seen P (.fail (.error errType errMsg)) := by
  intro h
  cases h

theorem defect_meets {α : Type} {P : α → Prop} :
    Request.Meets (contract lc) seen P (.fail .defect : EngineM keccak α) := by
  intro h
  cases h

theorem askBlock_meets (query : BlockQuery) :
    Request.Meets (contract lc) seen (fun _ => True) (askBlock query : EngineM keccak BlockObject) := by
  apply Request.Meets.bind (Request.Meets.ask fun answer hanswer => hanswer)
  intro answer hanswer
  cases answer with
  | ok reply =>
    cases reply with
    | block blk => trivial
    | value value => exact defect_meets
  | error e =>
    intro he
    exact hanswer.ends (congrArg Except.error he)

theorem askValue_meets {slot : Nat} (hcov : Covered lc .none hd) :
    Request.Meets (contract lc) seen (fun value => value = lc.history hd slot)
      (askValue (.getStorageAt slot hd) : EngineM keccak Nat) := by
  apply Request.Meets.bind (Request.Meets.ask fun answer hanswer => hanswer)
  intro answer hanswer
  cases answer with
  | ok reply =>
    cases reply with
    | block blk => exact defect_meets
    | value value => exact hanswer.storage slot hd value rfl hcov rfl
  | error e =>
    intro he
    exact hanswer.ends (congrArg Except.error he)

theorem orFail_meets {α : Type} {r : Except Failure α} (h : r ≠ .error .endless) :
    Request.Meets (contract lc) seen (fun a => r = .ok a) (orFail r : EngineM keccak α) := by
  cases r with
  | ok a => exact rfl
  | error e =>
    intro he
    exact h (congrArg Except.error he)

theorem putHeader_meets (hhash : keccak.computeBlockHash hd = hash)
    (hcov : trust ≠ .none → Covered lc trust hd) :
    Request.Meets (contract lc) seen (fun _ => True) (engine.putHeader hd hash trust hhash) :=
  Request.Meets.modify (fun _ hstore => hstore.put hhash hcov) trivial

theorem getEIP2935Hash_meets {n : Nat} (hcov : Covered lc trust hd) (hlt : n < hd.number)
    (hwindow : hd.number ≤ n + HISTORY_SERVE_WINDOW) :
    Request.Meets (contract lc) seen (fun storedHash => ∃ p, Lineage keccak.toCommonRef hd p ∧
        p.number = n ∧ storedHash = keccak.computeBlockHash p)
      (getEIP2935Hash hd n) := by
  apply Request.Meets.bind (askValue_meets (hcov.mono (Nat.zero_le _)))
  rintro storedValue rfl
  split
  · exact fail_meets _ _
  · next hne =>
    obtain ⟨t, a, ht, ha, hline⟩ := hcov
    rcases lc.history_slot t a ha hd n hline hlt hwindow with hzero | ⟨p, hp, hnum, hslot⟩
    · exact absurd hzero hne
    · exact ⟨p, hp, hnum, hslot⟩

/-- A trusted header has the hash; it gets the label if the header of the hash may have it. -/
theorem getTrustedHeader_meets
    (hcov : trust ≠ .none → ∀ hd, keccak.computeBlockHash hd = hash → Covered lc trust hd) :
    Request.Meets (contract lc) seen (fun hd => keccak.computeBlockHash hd = hash)
      (engine.getTrustedHeader hash trust) := by
  apply Request.Meets.bind (Request.Meets.get fun _ _ _ => trivial)
  intro store _
  split
  · next cached hcached =>
    have hhash := HeaderStore.get_keyed hcached
    apply Request.Meets.bind (putHeader_meets hhash fun hne => hcov hne _ hhash)
    exact fun _ _ => hhash
  · apply Request.Meets.bind (askBlock_meets _)
    intro blk _
    split
    · next hhash =>
      apply Request.Meets.bind (putHeader_meets hhash fun hne => hcov hne _ hhash)
      exact fun _ _ => hhash
    · exact fail_meets _ _

theorem verifyBlock_ne_endless (blk : BlockObject) (fullTransactions : Bool) :
    verifyBlock keccak blk fullTransactions ≠ .error .endless := by
  have htransactions : ∀ txs, toTransactions txs ≠ .error .endless := by
    intro txs
    induction txs with
    | nil => exact nofun
    | cons tx rest ih =>
      cases tx with
      | tohHash _ => exact nofun
      | tohTx tx =>
        unfold toTransactions
        split
        · exact nofun
        · next e he =>
          intro h
          cases h
          exact ih he
  have hwithdrawals : verifyWithdrawals keccak blk ≠ .error .endless := by
    unfold verifyWithdrawals
    split
    · split
      · exact nofun
      · exact nofun
    · exact nofun
  have hverify : ∀ root txs, verifyTransactions keccak root txs ≠ .error .endless := by
    intro root txs
    unfold verifyTransactions
    split
    · next e he =>
      intro h
      cases h
      exact htransactions txs he
    · split
      · exact nofun
      · exact nofun
  unfold verifyBlock
  split
  · split
    · next e he =>
      intro h
      cases h
      exact hverify _ _ he
    · exact hwithdrawals
  · exact hwithdrawals

theorem getTrustedBlock_meets
    (hcov : trust ≠ .none → ∀ hd, keccak.computeBlockHash hd = hash → Covered lc trust hd) :
    Request.Meets (contract lc) seen (fun blk => keccak.computeBlockHash (convHeader blk) = hash)
      (engine.getTrustedBlock hash trust fullTransactions) := by
  apply Request.Meets.bind (askBlock_meets _)
  intro blk _
  split
  · next hhash =>
    apply Request.Meets.bind (orFail_meets (verifyBlock_ne_endless blk fullTransactions))
    intro _ _
    apply Request.Meets.bind (putHeader_meets hhash fun hne => hcov hne _ hhash)
    exact fun _ _ => hhash
  · exact fail_meets _ _

/-! ## Jumps -/

theorem emptyIsInvalid_ne_endless {e : Failure} (h : e ≠ .endless) :
    emptyIsInvalid e ≠ .endless := by
  unfold emptyIsInvalid
  split
  · exact nofun
  · exact h

theorem jump_lt {n target : Nat} (h : n - target > HISTORY_SERVE_WINDOW) :
    (n - 1) / HISTORY_SERVE_WINDOW * HISTORY_SERVE_WINDOW < n ∧
      n ≤ (n - 1) / HISTORY_SERVE_WINDOW * HISTORY_SERVE_WINDOW + HISTORY_SERVE_WINDOW ∧
      target < (n - 1) / HISTORY_SERVE_WINDOW * HISTORY_SERVE_WINDOW := by
  unfold HISTORY_SERVE_WINDOW at *
  omega

theorem jumpWindows_meets (d : Descent lc seen trust anchor asked good) {targetNum fuel : Nat}
    {targetHash : Hash32} {curAnchor : Header} (hgood : good curAnchor)
    (hle : curAnchor.number ≤ anchor.number) (hlt : targetNum < curAnchor.number)
    (hfuel : curAnchor.number < fuel) :
    Request.Meets (contract lc) seen (fun _ => ∃ p, good p ∧ keccak.computeBlockHash p = targetHash)
      (engine.jumpWindows trust targetNum targetHash fuel curAnchor) := by
  induction fuel generalizing curAnchor with
  | zero => exact absurd hfuel (Nat.not_lt_zero _)
  | succ fuel ih =>
    unfold jumpWindows
    split
    · next hfar =>
      obtain ⟨hdown, hwindow, habove⟩ := jump_lt hfar
      apply Request.Meets.bind (Request.Meets.get fun _ hstore hseen => And.intro hstore hseen)
      rintro store ⟨hstore, hseen⟩
      split
      · next cachedJump hcached =>
        -- a finalized header is found with any trust
        have hmono : trust.toNat ≤ HeaderTrust.toNat .finalized := by
          cases trust <;> decide
        obtain ⟨key, hget, hnum⟩ := hstore.getNumber hcached
        have hle' : cachedJump.number ≤ anchor.number := by omega
        have hjump : good cachedJump :=
          d.fresh store hstore hseen key cachedJump (get_mono hget hmono) hle'
            (.inr (Option.isSome_of_eq_some hget))
        exact ih hjump hle' (by omega) (by omega)
      · apply Request.Meets.bind
        · exact Request.Meets.mapError (fun _ => emptyIsInvalid_ne_endless)
            (getEIP2935Hash_meets (d.covered _ hgood) hdown hwindow)
        · rintro storedHash ⟨p, hline, hnum, rfl⟩
          have hp := d.lineage _ _ hgood hline
          apply Request.Meets.bind (getTrustedHeader_meets fun _ hd hhash => by
            rw [lc.injective hhash]
            exact d.covered _ hp)
          intro header hheader
          have hsame := lc.injective hheader
          subst hsame
          split
          · exact fail_meets _ _
          · exact ih hp (by omega) (by omega) (by omega)
    · next hnear =>
      apply Request.Meets.bind
      · exact Request.Meets.mapError (fun _ => emptyIsInvalid_ne_endless)
          (getEIP2935Hash_meets (d.covered _ hgood) hlt (by omega))
      · rintro storedHash ⟨p, hline, -, rfl⟩
        split
        · next heq => exact ⟨p, d.lineage _ _ hgood hline, heq⟩
        · exact fail_meets _ _

theorem verifyEIP2935Membership_meets (d : Descent lc seen trust anchor asked good)
    {target : Header} {targetHash : Hash32} :
    Request.Meets (contract lc) seen (fun _ => ∃ p, good p ∧ keccak.computeBlockHash p = targetHash)
      (engine.verifyEIP2935Membership anchor trust target targetHash) := by
  unfold verifyEIP2935Membership
  split
  · exact fail_meets _ _
  · next hrange =>
    have hlt : target.number < anchor.number := by
      rw [Bool.not_eq_true', Bool.not_eq_false] at hrange
      unfold inEIP2935Range at hrange
      split at hrange
      · cases hrange
      · split at hrange
        · cases hrange
        · next hlt => exact Nat.lt_of_not_le hlt
    exact jumpWindows_meets d d.start (Nat.le_refl _) hlt (Nat.lt_succ_self _)

/-! ## Walks -/

/-- The hash is that of a good block with the number, if it is one of a block. -/
def Link (keccak : Hashes) (good : Header → Prop) (hash : Hash32) (number : Nat) : Prop :=
  ∀ hd, keccak.computeBlockHash hd = hash → good hd ∧ hd.number = number

theorem Link.parent (d : Descent lc seen trust anchor asked good)
    (h : Link keccak good hash number) (hhash : keccak.computeBlockHash hd = hash) :
    Link keccak good hd.parentHash (number - 1) := by
  obtain ⟨hgood, hnum⟩ := h hd hhash
  intro p hp
  obtain ⟨hgood', hnum'⟩ := d.parent hgood hp.symm
  exact ⟨hgood', by omega⟩

theorem selectBatch_next (store : HeaderStore keccak) (budget : Nat) {steps fetchNum : Nat}
    (hle : steps ≤ fetchNum) :
    fetchNum - steps ≤ (selectBatch store steps budget fetchNum).2 ∧
      (selectBatch store steps budget fetchNum).2 ≤ fetchNum ∧
      (0 < steps → 0 < budget → (selectBatch store steps budget fetchNum).2 < fetchNum) := by
  induction steps generalizing budget fetchNum with
  | zero =>
    unfold selectBatch
    omega
  | succ steps ih =>
    cases budget with
    | zero =>
      unfold selectBatch
      omega
    | succ budget =>
      have hle' : steps ≤ fetchNum - 1 := by omega
      unfold selectBatch
      split
      · obtain ⟨hlow, hhigh, -⟩ := ih budget hle'
        dsimp only
        omega
      · obtain ⟨hlow, hhigh, -⟩ := ih (budget + 1) hle'
        omega

theorem downloadAll_meets (numbers : List Nat) :
    Request.Meets (contract lc) seen (fun answers => ∀ answer ∈ answers, answer ≠ .error .endless)
      (downloadAll numbers : EngineM keccak (List BlockAnswer)) := by
  induction numbers with
  | nil => exact fun _ h => absurd h List.not_mem_nil
  | cons number rest ih =>
    have hask : Request.Meets (contract lc) seen (fun answer => answer ≠ .error .endless)
        (Request.ask (.getBlockByNumber number false)) := Request.Meets.ask fun _ hanswer => hanswer.ends
    apply Request.Meets.bind hask
    intro answer hanswer
    apply Request.Meets.bind ih
    intro answers hanswers
    exact List.forall_mem_cons.mpr ⟨hanswer, hanswers⟩

theorem collect_ne_endless {answers : List BlockAnswer} {downloadedHeaders : Hash32 → Option Header}
    (h : ∀ answer ∈ answers, answer ≠ .error .endless) :
    collect answers downloadedHeaders ≠ .error .endless := by
  induction answers generalizing downloadedHeaders with
  | nil => exact nofun
  | cons answer rest ih =>
    obtain ⟨hfirst, hrest⟩ := List.forall_mem_cons.mp h
    cases answer with
    | error e =>
      intro he
      cases he
      exact hfirst rfl
    | ok reply =>
      cases reply with
      | block blk => exact ih hrest
      | value value => exact nofun

theorem linkBatch_meets (d : Descent lc seen trust anchor asked good)
    {downloadedHeaders : Hash32 → Option Header} {count number : Nat}
    (h : Link keccak good hash number) :
    Request.Meets (contract lc) seen
      (fun next => Link keccak good next.1 next.2 ∧ next.2 = number - count)
      (engine.linkBatch downloadedHeaders trust count hash number) := by
  induction count generalizing hash number with
  | zero => exact ⟨h, rfl⟩
  | succ count ih =>
    apply Request.Meets.bind (Request.Meets.get fun _ hstore _ => hstore)
    intro store hstore
    split
    · exact fail_meets _ _
    · next header hheader =>
      split
      · next hvalid =>
        apply Request.Meets.bind (putHeader_meets hvalid.1 fun _ => d.covered _ (h header hvalid.1).1)
        intro _ _
        apply Request.Meets.mono (ih (h.parent d hvalid.1))
        rintro next ⟨hlink, hnum⟩
        exact ⟨hlink, by omega⟩
      · exact fail_meets _ _

/-- The walk ends at the hash of a good block with the target's number. -/
theorem walkFrom_meets (d : Descent lc seen trust anchor asked good)
    {targetNum fuel number : Nat} (h : Link keccak good hash number)
    (hle : targetNum ≤ number) (hfuel : number - targetNum ≤ fuel) :
    Request.Meets (contract lc) seen (fun walkedHash => Link keccak good walkedHash targetNum)
      (engine.walkFrom trust targetNum fuel hash number) := by
  induction fuel generalizing hash number with
  | zero =>
    have heq : number = targetNum := by omega
    subst heq
    unfold walkFrom
    rw [if_neg (Nat.lt_irrefl _)]
    exact h
  | succ fuel ih =>
    unfold walkFrom
    split
    · next hgt =>
      apply Request.Meets.bind (Request.Meets.get fun _ hstore _ => hstore)
      intro store hstore
      split
      · next cached hcached =>
        have hhash := HeaderStore.get_keyed hcached
        apply Request.Meets.bind (putHeader_meets hhash fun _ => d.covered _ (h cached hhash).1)
        intro _ _
        exact ih (h.parent d hhash) (by omega) (by omega)
      · -- a batch takes at least one block, and none below the target
        obtain ⟨hlow, hhigh, hprogress⟩ := selectBatch_next store
          (max 1 engine.parallelBlockDownloads) (Nat.sub_le number targetNum)
        apply Request.Meets.bind (downloadAll_meets _)
        intro answers hanswers
        apply Request.Meets.bind (orFail_meets (collect_ne_endless hanswers))
        intro downloadedHeaders _
        apply Request.Meets.bind (linkBatch_meets d h)
        rintro ⟨nextHash, nextNum⟩ ⟨hlink, hnum⟩
        exact ih hlink (by omega) (by omega)
    · next hno =>
      have heq : number = targetNum := by omega
      subst heq
      exact h

theorem walkBlocks_meets (d : Descent lc seen trust anchor asked good) {targetNum : Nat} :
    Request.Meets (contract lc) seen (fun walkedHash => Link keccak good walkedHash targetNum)
      (engine.walkBlocks anchor.number targetNum anchor.parentHash trust) := by
  unfold walkBlocks
  split
  · exact fail_meets _ _
  · split
    · exact fail_meets _ _
    · have hlink : Link keccak good anchor.parentHash (anchor.number - 1) := by
        intro p hp
        obtain ⟨hgood, hnum⟩ := d.parent d.start hp.symm
        exact ⟨hgood, by omega⟩
      exact walkFrom_meets d hlink (by omega) (by omega)

/-! ## Verified headers -/

theorem verifyHeader_meets (d : Descent lc seen trust anchor asked good)
    (hasked : keccak.computeBlockHash hd = hash → asked hd ∧ hd.number ≤ anchor.number) :
    Request.Meets (contract lc) seen (fun _ => keccak.computeBlockHash hd = hash ∧ good hd)
      (engine.verifyHeader anchor trust hd hash) := by
  unfold verifyHeader
  split
  · next hhash =>
    have hput : good hd → Request.Meets (contract lc) seen
        (fun _ => keccak.computeBlockHash hd = hash ∧ good hd)
        (engine.putHeader hd hash trust hhash) := fun hgood =>
      Request.Meets.mono (putHeader_meets hhash fun _ => d.covered hd hgood) fun _ _ => ⟨hhash, hgood⟩
    apply Request.Meets.bind (Request.Meets.get fun _ hstore hseen => And.intro hstore hseen)
    rintro store ⟨hstore, hseen⟩
    split
    · next hcached =>
      obtain ⟨hd', hget⟩ := Option.isSome_iff_exists.mp hcached
      have hsame : hd' = hd := lc.injective ((HeaderStore.get_keyed hget).trans hhash.symm)
      rw [hsame] at hget
      obtain ⟨hask, hle⟩ := hasked hhash
      exact ⟨hhash, d.fresh store hstore hseen hash hd hget hle (.inl hask)⟩
    · split
      · split
        · exact fail_meets _ _
        · next heq =>
          have hsame : hd = anchor := lc.injective (hhash.trans (not_not.mp heq))
          apply hput
          rw [hsame]
          exact d.start
      · split
        · apply Request.Meets.bind (verifyEIP2935Membership_meets d)
          rintro _ ⟨p, hp, hph⟩
          apply hput
          rw [lc.injective (hhash.trans hph.symm)]
          exact hp
        · apply Request.Meets.bind (walkBlocks_meets d)
          intro walkedHash hlink
          split
          · exact fail_meets _ _
          · next heq => exact hput (hlink hd (hhash.trans (not_not.mp heq).symm)).1
  · exact fail_meets _ _

theorem getHeader_meets (d : Descent lc seen trust anchor asked good)
    (hasked : ∀ hd, keccak.computeBlockHash hd = hash →
      asked hd ∧ hd.number ≤ anchor.number) :
    Request.Meets (contract lc) seen (fun hd => keccak.computeBlockHash hd = hash ∧ good hd)
      (engine.getHeader anchor trust hash) := by
  apply Request.Meets.bind (Request.Meets.get fun _ hstore hseen => And.intro hstore hseen)
  rintro store ⟨hstore, hseen⟩
  split
  · next hd hcached =>
    have hhash := HeaderStore.get_keyed hcached
    obtain ⟨hask, hle⟩ := hasked hd hhash
    exact ⟨hhash, d.fresh store hstore hseen hash hd hcached hle (.inl hask)⟩
  · apply Request.Meets.bind (askBlock_meets _)
    intro blk _
    split
    · exact fail_meets _ _
    · exact Request.Meets.bind (verifyHeader_meets d (hasked _)) fun _ hverified => hverified

theorem getNumberHeader_meets (d : Descent lc seen trust anchor asked good)
    (hasked : ∀ hd : Header, hd.number = number → asked hd ∧ hd.number ≤ anchor.number) :
    Request.Meets (contract lc) seen (fun hd => hd.number = number ∧ good hd)
      (engine.getNumberHeader anchor trust number) := by
  apply Request.Meets.bind (Request.Meets.get fun _ hstore hseen => And.intro hstore hseen)
  rintro store ⟨hstore, hseen⟩
  split
  · next hd hcached =>
    obtain ⟨key, hget, hnum⟩ := hstore.getNumber hcached
    obtain ⟨hask, hle⟩ := hasked hd hnum
    exact ⟨hnum, d.fresh store hstore hseen key hd hget hle (.inl hask)⟩
  · apply Request.Meets.bind (askBlock_meets _)
    intro blk _
    split
    · exact fail_meets _ _
    · next hnum =>
      have hnum := (not_not.mp hnum).symm
      apply Request.Meets.bind (verifyHeader_meets d fun _ => hasked _ hnum)
      exact fun _ hverified => ⟨hnum, hverified.2⟩

theorem getBlock_meets (d : Descent lc seen trust anchor asked good)
    (hasked : ∀ hd, keccak.computeBlockHash hd = hash →
      asked hd ∧ hd.number ≤ anchor.number) :
    Request.Meets (contract lc) seen
      (fun blk => keccak.computeBlockHash (convHeader blk) = hash ∧ good (convHeader blk))
      (engine.getBlock anchor trust hash fullTransactions) := by
  apply Request.Meets.bind (askBlock_meets _)
  intro blk _
  split
  · exact fail_meets _ _
  · next hhash =>
    have hhash := not_not.mp hhash
    apply Request.Meets.bind (verifyHeader_meets d fun heq => hasked _ (heq.trans hhash.symm))
    intro _ hverified
    apply Request.Meets.bind (orFail_meets (verifyBlock_ne_endless blk fullTransactions))
    exact fun _ _ => ⟨hverified.1.trans hhash.symm, hverified.2⟩

theorem getNumberBlock_meets (d : Descent lc seen trust anchor asked good)
    (hasked : ∀ hd : Header, hd.number = number → asked hd ∧ hd.number ≤ anchor.number) :
    Request.Meets (contract lc) seen
      (fun blk => (convHeader blk).number = number ∧ good (convHeader blk))
      (engine.getNumberBlock anchor trust number fullTransactions) := by
  apply Request.Meets.bind (askBlock_meets _)
  intro blk _
  split
  · exact fail_meets _ _
  · next hnum =>
    have hnum : (convHeader blk).number = number := (not_not.mp hnum).symm
    apply Request.Meets.bind (verifyHeader_meets d fun _ => hasked _ hnum)
    intro _ hverified
    apply Request.Meets.bind (orFail_meets (verifyBlock_ne_endless blk fullTransactions))
    exact fun _ _ => ⟨hnum, hverified.2⟩

end Nimbus.Spec.VerifiedProxy
