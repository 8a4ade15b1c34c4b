import Nimbus.Native.PersistBlocks

/-!
# What a block of a batch leaves

The store keeps what is put, so a batch that fails leaves the records of the blocks before the
failure, and those that the failing block has put. Accounts and storage are in a frame, which is
dropped.
-/

namespace Nimbus.Spec.PersistBlocks

open Nimbus.Native.PersistBlocks
open Nimbus.Native.ForkedChain (Hash32)
open Function

variable {σ β : Type} {com : CommonRef σ β} {flags : PersistBlockFlags} {db : CoreDb σ} {α : Type}

/-! ## Puts -/

/-- The cache holds what the store holds. -/
def Mirrors (kvt : KvtDb) : Prop :=
  ∀ n h, kvt.blockHashes n = some h → kvt.records (.blockNumberToHash n) = some (.hash h)

variable {kvt' kvt : KvtDb}

theorem Mirrors.getBlockHash (h : Mirrors kvt) (h' : Mirrors kvt')
    (heq : kvt'.records = kvt.records) (n : Nat) : kvt'.getBlockHash n = kvt.getBlockHash n := by
  have hread : ∀ k : KvtDb, Mirrors k →
      k.getBlockHash n = KvtDb.getBlockHash { k with blockHashes := fun _ => none } n := by
    intro k hk
    unfold KvtDb.getBlockHash
    cases hcached : k.blockHashes n with
    | none => rfl
    | some hash => rw [hk n hash hcached]
  rw [hread kvt h, hread kvt' h']
  unfold KvtDb.getBlockHash
  rw [heq]

/-- Entries that meet `P` have been put. -/
structure Puts (P : DbKey × DbValue → Prop) (kvt kvt' : KvtDb) : Prop where
  puts : ∃ new, kvt'.puts = kvt.puts ++ new ∧ kvt'.records = writeAll kvt.records new ∧
    ∀ e ∈ new, P e
  mirrors : Mirrors kvt → Mirrors kvt'

variable {P Q : DbKey × DbValue → Prop}

instance : Std.Refl (Puts P) where
  refl _ := ⟨⟨[], (List.append_nil _).symm, rfl, fun _ h => absurd h List.not_mem_nil⟩, id⟩

instance : IsTrans KvtDb (Puts P) where
  trans _ _ _ h₁ h₂ := by
    obtain ⟨new₁, hputs₁, hrecords₁, hP₁⟩ := h₁.puts
    obtain ⟨new₂, hputs₂, hrecords₂, hP₂⟩ := h₂.puts
    refine ⟨⟨new₁ ++ new₂, ?_, ?_, ?_⟩, fun h => h₂.mirrors (h₁.mirrors h)⟩
    · rw [hputs₂, hputs₁, List.append_assoc]
    · rw [hrecords₂, hrecords₁, writeAll_append]
    · intro e he
      rcases List.mem_append.mp he with he | he
      · exact hP₁ e he
      · exact hP₂ e he

theorem Puts.imp (h : Puts P kvt kvt') (hPQ : ∀ e, P e → Q e) : Puts Q kvt kvt' := by
  obtain ⟨new, hputs, hrecords, hP⟩ := h.puts
  exact ⟨⟨new, hputs, hrecords, fun e he => hPQ e (hP e he)⟩, h.mirrors⟩

theorem Puts.keeps {x : PersistM α} (h : Keeps (Puts P) x) (hPQ : ∀ e, P e → Q e) :
    Keeps (Puts Q) x :=
  h.mono fun _ _ h => h.imp hPQ

theorem Puts.records_eq (h : Puts P kvt kvt') (key : DbKey)
    (hkey : ∀ value, ¬ P (key, value)) : kvt'.records key = kvt.records key := by
  obtain ⟨new, -, hrecords, hP⟩ := h.puts
  rw [hrecords]
  exact writeAll_of_not_mem fun value hmem => hkey value (hP _ hmem)

theorem put_puts {key : DbKey} {value : DbValue} (h : P (key, value))
    (hkey : ∀ n, key ≠ .blockNumberToHash n) : Keeps (Puts P) (put key value) := by
  apply Keeps.modify
  intro kvt
  refine ⟨⟨[(key, value)], rfl, rfl, fun e he => ?_⟩, ?_⟩
  · rw [List.mem_singleton.mp he]
    exact h
  · intro hmirrors n hash hcached
    show update kvt.records key (some value) (.blockNumberToHash n) = _
    rw [update_of_ne (hkey n).symm]
    exact hmirrors n hash hcached

theorem onlyIf_puts {c : Bool} {task : PersistM Unit} (h : c = true → Keeps (Puts P) task) :
    Keeps (Puts P) (onlyIf c task) :=
  Keeps.ite h fun _ => Keeps.pure _

theorem liftExcept_puts (r : Except Failure α) : Keeps (Puts P) (liftExcept r) := by
  cases r with
  | ok a => exact Keeps.pure a
  | error e => exact Keeps.throw e

variable (com) in
/-- Neither a header nor one of the markers and lookups that come with headers. -/
structure Plain (e : DbKey × DbValue) : Prop where
  header : ∀ header, e.2 ≠ .header header
  head : e.1 ≠ .canonicalHeadHash
  score : ∀ hash, e.1 ≠ .blockHashToScore hash
  number : ∀ n, e.1 ≠ .blockNumberToHash n
  ommers : ∀ hash, e.1 = .genericHash hash → ∃ uncles, com.rlpHash uncles = hash

theorem put_plain {key : DbKey} {value : DbValue} (h : Plain com (key, value)) :
    Keeps (Puts (Plain com)) (put key value) :=
  put_puts h h.number

theorem putPreimages_plain (stored : List Preimage) :
    Keeps (Puts (Plain com)) (putPreimages stored) := by
  induction stored with
  | nil => exact Keeps.pure _
  | cons first rest ih =>
    cases first with
    | code hash code =>
      apply Keeps.bind (put_plain ?_) fun _ => ih
      constructor <;> simp
    | slot hash slot =>
      apply Keeps.bind (put_plain ?_) fun _ => ih
      constructor <;> simp

theorem runPart_plain (ran : Ran α) : Keeps (Puts (Plain com)) (runPart ran) :=
  Keeps.bind (putPreimages_plain _) fun _ => liftExcept_puts _

theorem checkUncles_plain (opts : ProcessOptions) (blk : Block) :
    Keeps (Puts (Plain com)) (checkUncles com opts blk) := by
  apply Keeps.ite
  · intro _
    apply Keeps.ite
    · intro _
      apply Keeps.bind (put_plain (by constructor <;> simp))
      intro _
      exact Keeps.ite (fun _ => Keeps.throw _) fun _ => Keeps.pure _
    · intro _
      exact Keeps.ite (fun _ => Keeps.throw _) fun _ => Keeps.pure _
  · intro _
    exact Keeps.ite (fun _ => Keeps.throw _) fun _ => Keeps.pure _

theorem processBlock_plain (opts : ProcessOptions) (balTracker : Bool) (state : σ)
    (parent : Header) (blk : Block) :
    Keeps (Puts (Plain com)) (processBlock com opts balTracker state parent blk) := by
  apply Keeps.bind Keeps.get
  intro kvt
  apply Keeps.bind (runPart_plain _)
  intro ran
  apply Keeps.bind (checkUncles_plain _ _)
  intro _
  apply Keeps.bind Keeps.get
  intro kvt
  apply Keeps.bind (runPart_plain _)
  intro done
  apply Keeps.bind (liftExcept_puts _)
  exact fun _ => Keeps.pure _

theorem storeWitness_plain (before after : σ) (parent : Header) (blk : Block) :
    Keeps (Puts (Plain com)) (storeWitness com before after parent blk) := by
  apply Keeps.bind Keeps.get
  intro kvt
  apply Keeps.bind (liftExcept_puts _)
  intro witness
  exact put_plain (by constructor <;> simp)

theorem persistTransactions_plain (blockNumber : Nat) (txRoot : Hash32)
    (txs : List (Nimbus.Native.ForkedChain.Transaction × Nat)) :
    Keeps (Puts (Plain com)) (persistTransactions blockNumber txRoot txs) := by
  induction txs with
  | nil => exact Keeps.pure _
  | cons first rest ih =>
    apply Keeps.bind (put_plain (by constructor <;> simp))
    intro _
    exact Keeps.bind (put_plain (by constructor <;> simp)) fun _ => ih

theorem persistReceipts_plain (receiptsRoot : Hash32)
    (receipts : List (Nimbus.Native.ForkedChain.Receipt × Nat)) :
    Keeps (Puts (Plain com)) (persistReceipts receiptsRoot receipts) := by
  induction receipts with
  | nil => exact Keeps.pure _
  | cons first rest ih =>
    exact Keeps.bind (put_plain (by constructor <;> simp)) fun _ => ih

theorem storeWithdrawals_plain (blk : Block) : Keeps (Puts (Plain com)) (storeWithdrawals blk) := by
  unfold storeWithdrawals
  split
  · exact Keeps.pure _
  · exact Keeps.throw _
  · unfold persistWithdrawals
    split
    · exact Keeps.pure _
    · exact put_plain (by constructor <;> simp)

/-- The records of a block but for those that come with its header. -/
def storeBody (flags : PersistBlockFlags) (com : CommonRef σ β) (blk : Block) (books : β) :
    PersistM Unit := do
  onlyIf (decide (.persistTransactions ∈ flags))
    (persistTransactions blk.header.number blk.header.txRoot blk.transactions.zipIdx)
  onlyIf (decide (.persistReceipts ∈ flags))
    (persistReceipts blk.header.receiptsRoot (com.receipts books).zipIdx)
  onlyIf (decide (.persistWithdrawals ∈ flags)) (storeWithdrawals blk)
  onlyIf (decide (.persistTransactions ∉ flags ∧ .persistReceipts ∉ flags ∧
      .persistWithdrawals ∉ flags))
    (put .tailId (.number blk.header.number))

theorem storeBody_plain (blk : Block) (books : β) :
    Keeps (Puts (Plain com)) (storeBody flags com blk books) := by
  apply Keeps.bind (onlyIf_puts fun _ => persistTransactions_plain _ _ _)
  intro _
  apply Keeps.bind (onlyIf_puts fun _ => persistReceipts_plain _ _)
  intro _
  apply Keeps.bind (onlyIf_puts fun _ => storeWithdrawals_plain _)
  intro _
  exact onlyIf_puts fun _ => put_plain (by constructor <;> simp)

/-! ## Headers -/

variable (com flags) in
/-- A header is put under its hash, where headers are stored, and only ommers are put under the
same kind of key. -/
structure Entry (e : DbKey × DbValue) : Prop where
  header : ∀ header, e.2 = .header header →
    .persistHeaders ∈ flags ∧ e.1 = .genericHash (com.computeBlockHash header)
  ommers : ∀ hash, e.1 = .genericHash hash →
    (∃ uncles, com.rlpHash uncles = hash) ∨ ∃ header, e.2 = .header header

theorem Plain.entry {e : DbKey × DbValue} (h : Plain com e) : Entry com flags e where
  header header he := absurd he (h.header header)
  ommers hash he := .inl (h.ommers hash he)

variable {hash : Hash32}

theorem addBlockNumberToHashLookup_puts {number : Nat}
    (h : P (.blockNumberToHash number, .hash hash)) :
    Keeps (Puts P) (addBlockNumberToHashLookup com number hash) := by
  intro kvt
  refine ⟨⟨[(.blockNumberToHash number, .hash hash)], rfl, rfl, fun e he => ?_⟩, ?_⟩
  · rw [List.mem_singleton.mp he]
    exact h
  · intro hmirrors n cached hcached
    show update kvt.records (.blockNumberToHash number) (some (.hash hash))
      (.blockNumberToHash n) = _
    by_cases heq : n = number
    · subst heq
      have hsame : hash = cached := by
        simp only [if_true, Option.some.injEq] at hcached
        exact hcached
      rw [update_self, hsame]
    · rw [update_of_ne (by simp [heq])]
      simp only [heq, if_false] at hcached
      split at hcached
      · cases hcached
      · exact hmirrors n cached hcached

variable {header : Header}

theorem persistHeader_puts (h : P (.genericHash hash, .header header))
    (hscore : ∀ score, P (.blockHashToScore hash, .score score))
    (hnumber : P (.blockNumberToHash header.number, .hash hash)) :
    Keeps (Puts P) (persistHeader com hash header) := by
  apply Keeps.bind Keeps.get
  intro kvt
  apply Keeps.ite (fun _ => Keeps.throw _)
  intro _
  apply Keeps.bind (put_puts h (by simp))
  intro _
  apply Keeps.bind Keeps.get
  intro kvt
  split
  · exact Keeps.throw _
  · apply Keeps.bind (put_puts (hscore _) (by simp))
    exact fun _ => addBlockNumberToHashLookup_puts hnumber

theorem moveHead_puts (h : P (.canonicalHeadHash, .hash hash)) :
    Keeps (Puts P) (moveHead com hash header) := by
  have hset : Keeps (Puts P) (setHead hash) := put_puts h (by simp)
  apply Keeps.bind Keeps.get
  intro kvt
  apply Keeps.ite (fun _ => hset)
  intro _
  split
  · exact Keeps.throw _
  · split
    · exact Keeps.throw _
    · exact Keeps.throw _
    · exact Keeps.ite (fun _ => Keeps.pure _) fun _ => hset

theorem storeBlock_puts (blk : Block) (books : β) :
    Keeps (Puts (Entry com flags)) (storeBlock com flags blk books) := by
  apply Keeps.bind
  · apply onlyIf_puts
    intro hflag
    have hheader : PersistBlockFlag.persistHeaders ∈ flags := of_decide_eq_true hflag
    have hentry : ∀ key value, (∀ header, value ≠ .header header) →
        (∀ hash, key ≠ .genericHash hash) → Entry com flags (key, value) :=
      fun key value h hkey => ⟨fun header he => absurd he (h header),
        fun hash he => absurd he (hkey hash)⟩
    apply Keeps.bind
    · apply persistHeader_puts
      · constructor
        · intro header he
          cases he
          exact ⟨hheader, rfl⟩
        · exact fun _ _ => .inr ⟨blk.header, rfl⟩
      · exact fun score => hentry _ _ (by simp) (by simp)
      · exact hentry _ _ (by simp) (by simp)
    · exact fun _ => moveHead_puts (hentry _ _ (by simp) (by simp))
  · exact fun _ => Puts.keeps (storeBody_plain _ _) fun _ h => h.entry

theorem getVmState_puts (p : Persister σ) (header : Header) :
    Keeps (Puts P) (getVmState com flags db p header) := by
  apply Keeps.bind Keeps.get
  intro kvt
  split
  · split
    · exact Keeps.throw _
    · exact Keeps.ite (fun _ => Keeps.throw _) fun _ => Keeps.pure _
  · exact Keeps.ite (fun _ => Keeps.throw _) fun _ => Keeps.pure _

theorem persistBlock_puts (p : Persister σ) (blk : Block) :
    Keeps (Puts (Entry com flags)) (persistBlock com flags db p blk) := by
  apply Keeps.bind (getVmState_puts _ _)
  intro vmState
  apply Keeps.bind Keeps.get
  intro kvt
  apply Keeps.bind (onlyIf_puts fun _ => liftExcept_puts _)
  intro _
  apply Keeps.bind (Puts.keeps (processBlock_plain _ _ _ _ _) fun _ h => h.entry)
  intro done
  apply Keeps.bind
    (onlyIf_puts fun _ => Puts.keeps (storeWitness_plain _ _ _ _) fun _ h => h.entry)
  intro _
  apply Keeps.bind (storeBlock_puts _ _)
  exact fun _ => Keeps.pure _

theorem persistLoop_puts (blocks : List Block) (p : Persister σ) :
    Keeps (Puts (Entry com flags)) (persistLoop com flags db blocks p) := by
  induction blocks generalizing p with
  | nil => exact Keeps.pure _
  | cons blk rest ih =>
    exact Keeps.bind (persistBlock_puts p blk) ih

variable (com) in
/-- The hash of a header is not one of another header or of ommers. -/
structure CollisionFree : Prop where
  injective : Function.Injective com.computeBlockHash
  ommers : ∀ uncles header, com.rlpHash uncles ≠ com.computeBlockHash header

variable {kvt kvt' : KvtDb} {hash : Hash32} {header : Header}

theorem getHeader_some {records : Records} :
    getHeader records hash = some header ↔ records (.genericHash hash) = some (.header header) := by
  unfold getHeader
  constructor
  · intro h
    split at h
    · next heq =>
      cases h
      exact heq
    · cases h
  · intro h
    rw [h]

theorem Puts.getHeader_stays (h : Puts (Entry com flags) kvt kvt') (hcom : CollisionFree com)
    (hget : getHeader kvt.records (com.computeBlockHash header) = some header) :
    getHeader kvt'.records (com.computeBlockHash header) = some header := by
  rw [getHeader_some] at hget ⊢
  obtain ⟨new, -, hrecords, hentry⟩ := h.puts
  have hvalue : ∀ value, (.genericHash (com.computeBlockHash header), value) ∈ new →
      value = .header header := by
    intro value hmem
    rcases (hentry _ hmem).ommers _ rfl with ⟨uncles, huncles⟩ | ⟨header', hheader'⟩
    · exact absurd huncles (hcom.ommers uncles header)
    · obtain ⟨-, hkey⟩ := (hentry _ hmem).header header' hheader'
      have hsame : header = header' := hcom.injective (DbKey.genericHash.inj hkey)
      rw [hsame]
      exact hheader'
  rw [hrecords]
  by_cases hmem : ∃ value, (.genericHash (com.computeBlockHash header), value) ∈ new
  · obtain ⟨value, hmem⟩ := hmem
    rw [hvalue value hmem] at hmem
    exact writeAll_of_mem hmem hvalue
  · rw [writeAll_of_not_mem fun value hv => hmem ⟨value, hv⟩]
    exact hget

/-- Where headers are not stored, a header has been there. -/
theorem Puts.getHeader_was (h : Puts (Entry com flags) kvt kvt')
    (hflag : .persistHeaders ∉ flags) (hget : getHeader kvt'.records hash = some header) :
    getHeader kvt.records hash = some header := by
  rw [getHeader_some] at hget ⊢
  obtain ⟨new, -, hrecords, hentry⟩ := h.puts
  rw [hrecords] at hget
  rcases writeAll_eq_some hget with hmem | ⟨-, hget⟩
  · exact absurd ((hentry _ hmem).header header rfl).1 hflag
  · exact hget

/-! ## A batch that fails -/

/-- Every answer of the database is the same. -/
structure SameAnswers (db db' : CoreDb σ) : Prop where
  state : db'.state = db.state
  savedStateBlockNumber : db'.savedStateBlockNumber = db.savedStateBlockNumber
  records : db'.kvt.records = db.kvt.records
  blockHash : ∀ n, db'.kvt.getBlockHash n = db.kvt.getBlockHash n

theorem checkpoint_state {p : Persister σ} {db' : CoreDb σ}
    (h : checkpoint com flags db p = .ok db') :
    ∃ vmState, p.vmState = some vmState ∧
      (.validation ∈ flags → vmState.parent.stateRoot = com.stateRoot vmState.state) ∧
      db' = { db with state := vmState.state, savedStateBlockNumber := vmState.parent.number } := by
  unfold checkpoint at h
  split at h
  · cases h
  · next vmState hvm =>
    split at h
    · cases h
    · next hroot =>
      cases h
      exact ⟨vmState, hvm, fun hflag => by_contra fun hne => hroot ⟨hflag, hne⟩, rfl⟩

/-! ## The head -/

variable (com) in
/-- With the header the head moves to the block, or it is there already. -/
def HeadMoves (records : Records) (header : Header) : Prop :=
  header.parentHash = com.startOfHistory ∨
  getCanonicalHeaderHash records = some (com.computeBlockHash header) ∨
  ∃ head canonScore parentTotal, getCanonicalHeaderHash records = some head ∧
    getScore records head = some canonScore ∧ parentScore com records header = some parentTotal ∧
    canonScore < (parentTotal + header.difficulty) % 2 ^ 256

section

variable (h : Puts (Plain com) kvt kvt')
include h

theorem Puts.head_eq :
    getCanonicalHeaderHash kvt'.records = getCanonicalHeaderHash kvt.records := by
  unfold getCanonicalHeaderHash
  rw [h.records_eq .canonicalHeadHash fun value hplain => hplain.head rfl]

theorem Puts.score_eq (hash : Hash32) : getScore kvt'.records hash = getScore kvt.records hash := by
  unfold getScore
  rw [h.records_eq (.blockHashToScore hash) fun value hplain => hplain.score hash rfl]

theorem Puts.headMoves_iff (header : Header) :
    HeadMoves com kvt'.records header ↔ HeadMoves com kvt.records header := by
  unfold HeadMoves parentScore
  simp only [h.head_eq, h.score_eq]

end

theorem parentScore_update (records : Records) (key : DbKey) (value : DbValue) (header : Header)
    (hkey : ∀ hash, key ≠ .blockHashToScore hash) :
    parentScore com (update records key (some value)) header =
      parentScore com records header := by
  unfold parentScore getScore
  rw [update_of_ne (hkey _).symm]

theorem persistHeader_ok (h : persistHeader com hash header kvt = .ok () kvt') :
    ∃ parentTotal, parentScore com kvt.records header = some parentTotal ∧
      kvt'.records = writeAll kvt.records [(.genericHash hash, .header header),
        (.blockHashToScore hash, .score ((parentTotal + header.difficulty) % 2 ^ 256)),
        (.blockNumberToHash header.number, .hash hash)] := by
  obtain ⟨before, kvt₁, hget, h⟩ := bind_ok.mp h
  cases hget
  split at h
  · cases h
  · obtain ⟨_, kvt₂, hput, h⟩ := bind_ok.mp h
    cases hput
    obtain ⟨before, kvt₃, hget, h⟩ := bind_ok.mp h
    cases hget
    rw [parentScore_update _ _ _ _ (by simp)] at h
    cases htotal : parentScore com kvt.records header with
    | none =>
      rw [htotal] at h
      cases h
    | some parentTotal =>
      rw [htotal] at h
      cases h
      exact ⟨parentTotal, rfl, rfl⟩

theorem persistHeaderAndSetHead_head
    (h : persistHeaderAndSetHead com (com.computeBlockHash header) header kvt = .ok () kvt') :
    getCanonicalHeaderHash kvt'.records = some (com.computeBlockHash header) ↔
      HeadMoves com kvt.records header := by
  obtain ⟨_, kvt₁, hheader, hmove⟩ := bind_ok.mp h
  obtain ⟨parentTotal, htotal, hrecords⟩ := persistHeader_ok hheader
  have hset : ∀ {k k' : KvtDb}, setHead (com.computeBlockHash header) k = .ok () k' →
      getCanonicalHeaderHash k'.records = some (com.computeBlockHash header) := by
    intro k k' hset
    cases hset
    rfl
  have hcanon : getCanonicalHeaderHash kvt₁.records = getCanonicalHeaderHash kvt.records := by
    rw [hrecords]
    rfl
  have hown : getScore kvt₁.records (com.computeBlockHash header) =
      some ((parentTotal + header.difficulty) % 2 ^ 256) := by
    have hlook : kvt₁.records (.blockHashToScore (com.computeBlockHash header)) =
        some (.score ((parentTotal + header.difficulty) % 2 ^ 256)) := by
      rw [hrecords]
      apply writeAll_of_mem
      · simp
      · simp
    unfold getScore
    rw [hlook]
  have hother : ∀ head, head ≠ com.computeBlockHash header →
      getScore kvt₁.records head = getScore kvt.records head := by
    intro head hne
    unfold getScore
    rw [hrecords, writeAll_of_not_mem]
    simp [hne]
  obtain ⟨before, kvt₂, hget, hmove⟩ := bind_ok.mp hmove
  cases hget
  split at hmove
  · next hstart => exact iff_of_true (hset hmove) (.inl hstart)
  · next hstart =>
    cases hhead : getCanonicalHeaderHash kvt.records with
    | none =>
      rw [hcanon, hhead] at hmove
      cases hmove
    | some head =>
      rw [hcanon, hhead] at hmove
      dsimp only at hmove
      rw [hown] at hmove
      by_cases heq : head = com.computeBlockHash header
      · -- the head is the block itself, so it stays
        rw [heq, hown] at hmove
        dsimp only at hmove
        rw [if_pos (Nat.le_refl _)] at hmove
        cases hmove
        rw [hcanon, hhead, heq]
        exact iff_of_true rfl (.inr (.inl (by rw [hhead, heq])))
      · rw [hother head heq] at hmove
        cases hscore : getScore kvt.records head with
        | none =>
          rw [hscore] at hmove
          cases hmove
        | some canonScore =>
          rw [hscore] at hmove
          dsimp only at hmove
          split at hmove
          · next hle =>
            cases hmove
            rw [hcanon, hhead]
            constructor
            · intro hsame
              exact absurd (Option.some.inj hsame) heq
            · rintro (hparent | hsame | ⟨head', canonScore', total, hhead', hcanon', htotal', hlt⟩)
              · exact absurd hparent hstart
              · exact absurd (Option.some.inj (hhead.symm.trans hsame)) heq
              · cases hhead.symm.trans hhead'
                cases hscore.symm.trans hcanon'
                cases htotal.symm.trans htotal'
                omega
          · next hlt =>
            exact iff_of_true (hset hmove) (.inr (.inr ⟨head, canonScore, parentTotal, hhead,
              hscore, htotal, Nat.lt_of_not_le hlt⟩))

/-! ## A block -/

theorem Keeps.of_ok {R : KvtDb → KvtDb → Prop} {x : PersistM α} (h : Keeps R x)
    {a : α} (hx : x kvt = .ok a kvt') : R kvt kvt' :=
  (h kvt).of_ok hx

theorem liftExcept_ok {r : Except Failure α} {a : α} :
    liftExcept r kvt = .ok a kvt' ↔ r = .ok a ∧ kvt' = kvt := by
  cases r with
  | ok b =>
    show (.ok b kvt : EStateM.Result Failure KvtDb α) = .ok a kvt' ↔ _
    rw [EStateM.Result.ok.injEq, Except.ok.injEq]
    exact and_congr_right fun _ => eq_comm
  | error e =>
    constructor
    · exact nofun
    · exact fun h => nomatch h.1

theorem onlyIf_ok {c : Bool} {task : PersistM Unit} :
    onlyIf c task kvt = .ok () kvt' ↔
      (c = true ∧ task kvt = .ok () kvt') ∨ (c = false ∧ kvt' = kvt) := by
  unfold onlyIf
  cases c with
  | true => simp
  | false =>
    show (.ok () kvt : EStateM.Result Failure KvtDb Unit) = .ok () kvt' ↔ _
    simp [eq_comm]

theorem get_ok {f : KvtDb → PersistM α} {a : α} :
    (get >>= f) kvt = .ok a kvt' ↔ f kvt kvt = .ok a kvt' := Iff.rfl

/-- What a block does that does not fail. -/
structure Persisted (com : CommonRef σ β) (flags : PersistBlockFlags) (vmState : VmState σ)
    (blk : Block) (kvt : KvtDb) (state : σ) (kvt' : KvtDb) : Prop where
  valid : .fullValidation ∈ flags →
    validateHeaderAndKinship com (viewOf kvt vmState.state) vmState.parent blk = .ok ()
  processed : ∃ books kvt₁, processBlock com (processOptions flags) vmState.balTracker
      vmState.state vmState.parent blk kvt = .ok (state, books) kvt₁ ∧
    ∃ kvt₂, onlyIf com.statelessProvider
      (storeWitness com vmState.state state vmState.parent blk) kvt₁ = .ok () kvt₂ ∧
    storeBlock com flags blk books kvt₂ = .ok () kvt'

theorem getVmState_kvt {p : Persister σ} {vmState : VmState σ}
    (h : getVmState com flags db p header kvt = .ok vmState kvt') : kvt' = kvt := by
  unfold getVmState at h
  rw [get_ok] at h
  cases hvm : p.vmState with
  | none =>
    simp only [hvm] at h
    cases hparent : getHeader kvt.records header.parentHash with
    | none =>
      simp only [hparent] at h
      cases h
    | some parent =>
      simp only [hparent] at h
      split at h
      · cases h
      · cases h
        rfl
  | some vm =>
    simp only [hvm] at h
    split at h
    · cases h
    · cases h
      rfl

variable {blk : Block}

theorem persistBlock_ok {p p' : Persister σ} :
    persistBlock com flags db p blk kvt = .ok p' kvt' ↔
      ∃ vmState state, getVmState com flags db p blk.header kvt = .ok vmState kvt ∧
        Persisted com flags vmState blk kvt state kvt' ∧
        p' = {
          vmState := some { vmState with state := state, parent := blk.header }
          stats := {
            blocks := p.stats.blocks + 1
            txs := p.stats.txs + blk.transactions.length
            gas := p.stats.gas + blk.header.gasUsed } } := by
  constructor
  · intro h
    obtain ⟨vmState, kvt₁, hvm, hrest⟩ := bind_ok.mp h
    obtain rfl := getVmState_kvt hvm
    obtain ⟨_, kvt₂, hvalid, hrest⟩ := bind_ok.mp (get_ok.mp hrest)
    obtain ⟨⟨state, books⟩, kvt₃, hprocess, hrest⟩ := bind_ok.mp hrest
    obtain ⟨_, kvt₄, hwitness, hrest⟩ := bind_ok.mp hrest
    obtain ⟨_, kvt₅, hstore, hrest⟩ := bind_ok.mp hrest
    cases hrest
    refine ⟨vmState, state, hvm, ?_, rfl⟩
    rcases onlyIf_ok.mp hvalid with ⟨hflag, hvalid⟩ | ⟨hflag, heq⟩
    · obtain ⟨hvalid, heq⟩ := liftExcept_ok.mp hvalid
      subst heq
      exact ⟨fun _ => hvalid, books, kvt₃, hprocess, kvt₄, hwitness, hstore⟩
    · subst heq
      exact ⟨fun h => absurd h (of_decide_eq_false hflag), books, kvt₃, hprocess, kvt₄, hwitness,
        hstore⟩
  · rintro ⟨vmState, state, hvm, ⟨hvalid, books, kvt₃, hprocess, kvt₄, hwitness, hstore⟩, rfl⟩
    refine bind_ok.mpr ⟨vmState, kvt, hvm, get_ok.mpr ?_⟩
    refine bind_ok.mpr ⟨(), kvt, ?_, bind_ok.mpr ⟨(state, books), kvt₃, hprocess,
      bind_ok.mpr ⟨(), kvt₄, hwitness, bind_ok.mpr ⟨(), kvt', hstore, rfl⟩⟩⟩⟩
    rw [onlyIf_ok]
    by_cases hflag : PersistBlockFlag.fullValidation ∈ flags
    · exact .inl ⟨decide_eq_true hflag, liftExcept_ok.mpr ⟨hvalid hflag, rfl⟩⟩
    · exact .inr ⟨decide_eq_false hflag, rfl⟩

theorem Persisted.head {vmState : VmState σ} {state : σ}
    (h : Persisted com flags vmState blk kvt state kvt') (hflag : .persistHeaders ∈ flags) :
    getCanonicalHeaderHash kvt'.records = some (com.computeBlockHash blk.header) ↔
      HeadMoves com kvt.records blk.header := by
  obtain ⟨books, kvt₁, hprocess, kvt₂, hwitness, hstore⟩ := h.processed
  have hbefore : Puts (Plain com) kvt kvt₂ :=
    IsTrans.trans _ _ _ (Keeps.of_ok (processBlock_plain _ _ _ _ _) hprocess)
      (Keeps.of_ok (onlyIf_puts fun _ => storeWitness_plain _ _ _ _) hwitness)
  obtain ⟨_, kvt₃, hheader, hbody⟩ := bind_ok.mp hstore
  have hafter : Puts (Plain com) kvt₃ kvt' := Keeps.of_ok (storeBody_plain _ _) hbody
  rw [hafter.head_eq, ← hbefore.headMoves_iff]
  rcases onlyIf_ok.mp hheader with ⟨-, hheader⟩ | ⟨hno, -⟩
  · exact persistHeaderAndSetHead_head hheader
  · exact absurd hflag (of_decide_eq_false hno)

/-! ## The tracker of access lists -/

theorem checks_ok {x y : Except Failure Unit} :
    (x >>= fun _ => y) = .ok () ↔ x = .ok () ∧ y = .ok () := by
  cases x with
  | ok a =>
    show y = .ok () ↔ _
    simp
  | error e => exact ⟨fun h => (nomatch h), fun h => (nomatch h.1)⟩

variable {opts : ProcessOptions} {balTracker : Bool}

theorem epilogueChecks_ok {done : Epilogue σ β} (hskip : opts.skipValidation = false) :
    epilogueChecks com opts balTracker blk done = .ok () ↔
      accessListChecks com opts balTracker blk done = .ok () ∧
      (opts.skipStateRootCheck = false → com.stateRoot done.state = blk.header.stateRoot) ∧
      done.receiptsCheck = .ok () := by
  unfold epilogueChecks
  rw [hskip]
  show (accessListChecks com opts balTracker blk done >>= fun _ => _) = .ok () ↔ _
  rw [checks_ok]
  apply and_congr_right
  intro _
  split
  · next hroot =>
    simp only [Bool.and_eq_true, Bool.not_eq_true', bne_iff_ne] at hroot
    exact iff_of_false nofun fun h => hroot.2 (h.1 hroot.1)
  · next hroot =>
    simp only [Bool.and_eq_true, Bool.not_eq_true', bne_iff_ne, not_and, not_not] at hroot
    exact ⟨fun h => ⟨hroot, h⟩, fun h => h.2⟩

theorem accessListChecks_tracker {balTracker' : Bool} {done : Epilogue σ β}
    (h : accessListChecks com opts balTracker blk done = .ok ())
    (htracker : com.isAmsterdamOrLater blk.header.timestamp = true → balTracker' = true) :
    accessListChecks com opts balTracker' blk done = .ok () := by
  unfold accessListChecks at h ⊢
  split at h
  · next hcheck =>
    rw [if_pos hcheck]
    simp only [Bool.and_eq_true] at hcheck
    rw [htracker hcheck.2]
    split at h
    · cases h
    · exact h
  · next hno =>
    rw [if_neg hno]

/-- `processBlock` up to its checks, which the tracker has no part in. -/
structure Processed (com : CommonRef σ β) (opts : ProcessOptions) (state : σ) (parent : Header)
    (blk : Block) (kvt : KvtDb) (done : Epilogue σ β) (kvt' : KvtDb) : Prop where
  parts : ∃ ran kvt₁, runPart (com.preamble opts (viewOf kvt state) parent blk) kvt =
      .ok ran kvt₁ ∧
    ∃ kvt₂, checkUncles com opts blk kvt₁ = .ok () kvt₂ ∧
    runPart (com.epilogue opts (viewOf kvt₂ ran.1) ran.2 parent blk) kvt₂ = .ok done kvt'

theorem processBlock_ok {state : σ} {parent : Header}
    {done : σ × β} :
    processBlock com opts balTracker state parent blk kvt = .ok done kvt' ↔
      ∃ epilogue, Processed com opts state parent blk kvt epilogue kvt' ∧
        epilogueChecks com opts balTracker blk epilogue = .ok () ∧
        done = (epilogue.state, epilogue.books) := by
  unfold processBlock
  rw [get_ok]
  constructor
  · intro h
    obtain ⟨ran, kvt₁, hran, h⟩ := bind_ok.mp h
    obtain ⟨_, kvt₂, huncles, h⟩ := bind_ok.mp h
    obtain ⟨epilogue, kvt₃, hepilogue, h⟩ := bind_ok.mp (get_ok.mp h)
    obtain ⟨_, kvt₄, hchecks, h⟩ := bind_ok.mp h
    cases h
    obtain ⟨hcheck, rfl⟩ := liftExcept_ok.mp hchecks
    exact ⟨epilogue, ⟨ran, kvt₁, hran, kvt₂, huncles, hepilogue⟩, hcheck, rfl⟩
  · rintro ⟨epilogue, ⟨ran, kvt₁, hran, kvt₂, huncles, hepilogue⟩, hchecks, rfl⟩
    refine bind_ok.mpr ⟨ran, kvt₁, hran, bind_ok.mpr ⟨(), kvt₂, huncles, get_ok.mpr ?_⟩⟩
    refine bind_ok.mpr ⟨epilogue, kvt', hepilogue, bind_ok.mpr ⟨(), kvt', ?_, rfl⟩⟩
    exact liftExcept_ok.mpr ⟨hchecks, rfl⟩

theorem processBlock_tracker {balTracker' : Bool} {state : σ}
    {parent : Header} {done : σ × β}
    (h : processBlock com opts balTracker state parent blk kvt = .ok done kvt')
    (htracker : com.isAmsterdamOrLater blk.header.timestamp = true → balTracker' = true) :
    processBlock com opts balTracker' state parent blk kvt = .ok done kvt' := by
  rw [processBlock_ok] at h ⊢
  obtain ⟨epilogue, hprocessed, hchecks, hdone⟩ := h
  refine ⟨epilogue, hprocessed, ?_, hdone⟩
  cases hskip : opts.skipValidation with
  | true =>
    unfold epilogueChecks
    rw [if_pos hskip]
  | false =>
    rw [epilogueChecks_ok hskip] at hchecks ⊢
    exact ⟨accessListChecks_tracker hchecks.1 htracker, hchecks.2⟩

variable {vmState vmState' : VmState σ} {blk : Block} {state : σ}

section

variable (h : Persisted com flags vmState blk kvt state kvt')
include h

theorem Persisted.tracker
    (htracker : com.isAmsterdamOrLater blk.header.timestamp = true → balTracker = true) :
    Persisted com flags { vmState with balTracker := balTracker } blk kvt state kvt' := by
  obtain ⟨books, kvt₁, hprocess, hrest⟩ := h.processed
  exact ⟨h.valid, books, kvt₁, processBlock_tracker hprocess htracker, hrest⟩

theorem Persisted.checked (hfull : .fullValidation ∈ flags) :
    com.stateRoot state = blk.header.stateRoot ∧
      (com.isAmsterdamOrLater blk.header.timestamp = true → vmState.balTracker = true) := by
  obtain ⟨books, kvt₁, hprocess, -⟩ := h.processed
  obtain ⟨epilogue, -, hchecks, hdone⟩ := processBlock_ok.mp hprocess
  cases hdone
  have hskip : decide (PersistBlockFlag.fullValidation ∉ flags) = false := by simpa using hfull
  obtain ⟨haccess, hroot, -⟩ := (epilogueChecks_ok hskip).mp hchecks
  refine ⟨hroot hskip, fun hamsterdam => ?_⟩
  unfold accessListChecks at haccess
  have hcheck : (!(processOptions flags).skipPostExecBalCheck &&
      com.isAmsterdamOrLater blk.header.timestamp) = true := by
    rw [hamsterdam, show (processOptions flags).skipPostExecBalCheck = false from hskip]
    rfl
  rw [if_pos hcheck] at haccess
  cases htracker : vmState.balTracker with
  | true => rfl
  | false =>
    rw [htracker] at haccess
    cases haccess

/-- A block that has been validated, and is no genesis block, is later than its parent. -/
theorem Persisted.later (hfull : .fullValidation ∈ flags) (hgenesis : blk.header.number ≠ 0) :
    vmState.parent.timestamp < blk.header.timestamp := by
  have hvalid := h.valid hfull
  unfold validateHeaderAndKinship at hvalid
  have hno : blk.header.isGenesis = false := by
    unfold Header.isGenesis
    rw [beq_false_of_ne hgenesis]
    rfl
  rw [hno] at hvalid
  obtain ⟨-, hvalid⟩ := checks_ok.mp hvalid
  split at hvalid
  · cases hvalid
  · split at hvalid
    · cases hvalid
    · next hlater => exact Nat.lt_of_not_le hlater

theorem Persisted.puts : Puts (Entry com flags) kvt kvt' := by
  obtain ⟨books, kvt₁, hprocess, kvt₂, hwitness, hstore⟩ := h.processed
  have hbefore : Puts (Plain com) kvt kvt₂ :=
    IsTrans.trans _ _ _ (Keeps.of_ok (processBlock_plain _ _ _ _ _) hprocess)
      (Keeps.of_ok (onlyIf_puts fun _ => storeWitness_plain _ _ _ _) hwitness)
  exact IsTrans.trans _ _ _ (hbefore.imp fun _ h => h.entry)
    (Keeps.of_ok (storeBlock_puts _ _) hstore)

theorem Persisted.getHeader (hcom : CollisionFree com) (hflag : .persistHeaders ∈ flags) :
    getHeader kvt'.records (com.computeBlockHash blk.header) = some blk.header := by
  obtain ⟨books, kvt₁, -, kvt₂, -, hstore⟩ := h.processed
  obtain ⟨_, kvt₃, hheader, hbody⟩ := bind_ok.mp hstore
  have hafter : Puts (Entry com flags) kvt₃ kvt' :=
    (Keeps.of_ok (storeBody_plain _ _) hbody).imp fun _ h => h.entry
  apply hafter.getHeader_stays hcom
  rcases onlyIf_ok.mp hheader with ⟨-, hheader⟩ | ⟨hno, -⟩
  · obtain ⟨_, kvt₄, hpersist, hmove⟩ := bind_ok.mp hheader
    obtain ⟨parentTotal, -, hrecords⟩ := persistHeader_ok hpersist
    have hentry : Entry com flags (.canonicalHeadHash, .hash (com.computeBlockHash blk.header)) :=
      ⟨by simp, by simp⟩
    have hmoved : Puts (Entry com flags) kvt₄ kvt₃ := Keeps.of_ok (moveHead_puts hentry) hmove
    apply hmoved.getHeader_stays hcom
    rw [getHeader_some, hrecords]
    apply writeAll_of_mem
    · simp
    · simp
  · exact absurd hflag (of_decide_eq_false hno)

end

end Nimbus.Spec.PersistBlocks
