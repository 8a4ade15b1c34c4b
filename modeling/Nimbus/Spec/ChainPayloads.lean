import Nimbus.Spec.BlockBodies
import Nimbus.Spec.ChainMoves

/-!
# Who owns the block payloads

A payload that a block of the tree asks for is stored, and either belongs to the finalized
history, which has no owner record, or names the block among its owners. Pruning a block
takes its name out of the records, and the payload goes with the last name.
-/

namespace Nimbus.Spec.ForkedChain

open Nimbus.Native.ForkedChain
open ParentTree Function

/-! ## What every run keeps -/

/-- Every block of the tree has its header, its score and its payloads, and so have the
blocks `P` that base updates have taken out of the tree. None of these is imported again:
its parent is not in the tree either, back to the block the node started on. -/
structure Backed (n₀ : Nat) (P : Set Header) (s : ChainNode) : Prop where
  inj : Function.Injective s.chain.com.computeBlockHash
  wired : Wired n₀ s.chain
  stored : ∀ {b}, InTree s.chain b → Stored s.db (s.chain.hash b) (s.chain.blocks b).header
  recorded : ∀ {b}, InTree s.chain b → Recorded s.db (s.chain.hash b)
  persisted : ∀ hd ∈ P, Stored s.db (s.chain.com.computeBlockHash hd) hd
  gone : ∀ hd ∈ P, s.chain.hashToBlock (s.chain.com.computeBlockHash hd) = none
  below : ∀ hd ∈ P, hd.number ≤ n₀ ∨
    ∃ hd' ∈ P, s.chain.com.computeBlockHash hd' = hd.parentHash
  root : ∀ {b}, InTree s.chain b → s.chain.parent b = none → s.chain.number b ≤ n₀ ∨
    ∃ hd' ∈ P, s.chain.com.computeBlockHash hd' = (s.chain.blocks b).header.parentHash

section Keep

variable {n₀ : Nat} {P : Set Header} {s s' : ChainNode} {c' : ForkedChainRef}
  {db : BlockDb} {hash : Hash32}

theorem Backed.sameTree (hk : Backed n₀ P s) (h : SameTree s.chain c') : Backed n₀ P ⟨c', s.db⟩ where
  inj := by
    rw [h.com]
    exact hk.inj
  wired := hk.wired.sameTree h
  stored hb := by
    rw [h.hash, h.blocks]
    exact hk.stored (h.inTree_iff.mp hb)
  recorded hb := by
    rw [h.hash]
    exact hk.recorded (h.inTree_iff.mp hb)
  persisted := by
    rw [h.com]
    exact hk.persisted
  gone := by
    rw [h.com, h.hashToBlock]
    exact hk.gone
  below := by
    rw [h.com]
    exact hk.below
  root := by
    intro b hb hp
    rw [h.com, h.blocks, h.number]
    refine hk.root (h.inTree_iff.mp hb) ?_
    rw [← h.parent]
    exact hp

/-- Blocks leave the tree, and the store changes in nothing that the others need. -/
theorem Backed.pruned (hk : Backed n₀ P s) {R H : List Nat}
    (hstored : ∀ {b}, InTree s.chain b → b ∉ R →
      Stored db (s.chain.hash b) (s.chain.blocks b).header ∧ Recorded db (s.chain.hash b))
    (hpersisted : ∀ hd ∈ P, Stored db (s.chain.com.computeBlockHash hd) hd) :
    Backed n₀ P ⟨Spec.ForkedChain.pruned s.chain R H, db⟩ where
  inj := hk.inj
  wired := hk.wired.prune
  stored := by
    intro b hb
    obtain ⟨hb', hbR⟩ := inTree_pruned_iff.mp hb
    rw [pruned_hash, pruned_blocks_of_not_mem hbR]
    exact (hstored hb' hbR).1
  recorded := by
    intro b hb
    obtain ⟨hb', hbR⟩ := inTree_pruned_iff.mp hb
    rw [pruned_hash]
    exact (hstored hb' hbR).2
  persisted := hpersisted
  gone hd hhd := by
    show (s.chain.hashToBlock (s.chain.com.computeBlockHash hd)).filter _ = none
    rw [hk.gone hd hhd]
    rfl
  below := hk.below
  root := by
    intro b hb hp
    obtain ⟨hb', hbR⟩ := inTree_pruned_iff.mp hb
    have hp' : (Spec.ForkedChain.pruned s.chain R H).parent b = none := hp
    rw [pruned_parent, if_neg hbR] at hp'
    rw [pruned_number_of_not_mem hbR, pruned_blocks_of_not_mem hbR]
    exact hk.root hb' hp'

variable {blk : Block}

theorem Backed.ne_of_attach (hk : Backed n₀ P s) {parent : Nat} (hp : InTree s.chain parent)
    (hph : blk.header.parentHash = s.chain.hash parent)
    (hnum : blk.header.number = s.chain.number parent + 1) :
    ∀ hd ∈ P, s.chain.com.computeBlockHash hd ≠ s.chain.com.computeBlockHash blk.header := by
  intro hd hhd heq
  have hhdr : hd = blk.header := hk.inj heq
  subst hhdr
  rcases hk.below blk.header hhd with hle | ⟨hd', hhd', hparent⟩
  · -- the block the node started on has no parent in the tree
    have hge := hk.wired.number_ge hp
    omega
  · have hgone := hk.gone hd' hhd'
    rw [hparent, hph] at hgone
    have hp' : s.chain.hashToBlock (s.chain.hash parent) = some parent := hp
    rw [hgone] at hp'
    cases hp'

theorem recorded_of_update (h : Recorded db hash) (other : Hash32) : Recorded { db with
      header := update db.header other true
      score := update db.score other true } hash := by
  unfold Recorded
  by_cases heq : hash = other
  · subst heq
    simp
  · simp only [update_of_ne heq]
    exact h

theorem Recorded.deleteBlockData {hash other : Hash32} {header : Header}
    (h : Recorded db hash) (hne : hash ≠ other) : Recorded (db.deleteBlockData header other) hash := by
  obtain ⟨hheader, hscore, _⟩ := forBodies_header (BodyEntry.release other) db header
  unfold Recorded BlockDb.deleteBlockData BlockDb.releaseBlockOwnershipData
  simp only [update_of_ne hne, hheader, hscore]
  exact h

theorem Recorded.forBodies {header : Header}
    {g : BodyEntry → BodyEntry} (h : Recorded db hash) : Recorded (db.forBodies g header) hash := by
  obtain ⟨hheader, hscore, _⟩ := forBodies_header g db header
  unfold Recorded
  rw [hheader, hscore]
  exact h

theorem Recorded.storeBlock {hash other : Hash32}
    (hparent : Recorded db blk.header.parentHash) (h : other = hash ∨ Recorded db other) :
    Recorded (db.storeBlock blk hash).1 other := by
  rw [storeBlock_of_recorded hash hparent]
  refine Recorded.forBodies ?_
  rcases h with rfl | h
  · unfold Recorded
    simp
  · have hreg : Recorded (db.writeBlockOwnershipData blk.header hash) other := h.forBodies
    obtain ⟨hheader, hscore, _⟩ := forBodies_header (BodyEntry.retain hash) db blk.header
    have hall := recorded_of_update hreg hash
    unfold BlockDb.writeBlockOwnershipData at hall ⊢
    rw [hheader, hscore] at hall
    exact hall

theorem storeBlock_accepts
    (hparent : Recorded db blk.header.parentHash) : (db.storeBlock blk hash).2 = true := by
  rw [storeBlock_of_recorded hash hparent]

theorem Backed.attach (hk : Backed n₀ P s) {env : Env} {parent f : Nat}
    {finalized : Bool} (hp : InTree s.chain parent)
    (hph : blk.header.parentHash = s.chain.hash parent)
    (hnew : s.chain.hashToBlock (s.chain.com.computeBlockHash blk.header) = none)
    (hpass : ForkedChainRef.processBlock env (s.chain.blocks parent).header blk finalized = true) :
    Backed n₀ P
      ⟨(s.chain.appendBlock parent blk (s.chain.com.computeBlockHash blk.header) f).1,
        (s.db.storeBlock blk (s.chain.com.computeBlockHash blk.header)).1⟩ := by
  have hnum := hk.wired.number_of_processBlock hp hph hpass
  have hne := hk.ne_of_attach hp hph hnum
  have hparent : Recorded s.db blk.header.parentHash := by
    rw [hph]
    exact hk.recorded hp
  have hw := hk.wired.append (f := f) hp hph hnum hnew
  generalize hhash : s.chain.com.computeBlockHash blk.header = hash at *
  generalize hc' : (s.chain.appendBlock parent blk hash f).1 = c' at hw
  have hmem : ∀ x, InTree c' x ↔ x = s.chain.nextBlock ∨ InTree s.chain x := by
    intro x
    rw [← hc']
    exact appendBlock_inTree hk.wired hnew
  have hold : ∀ {x}, InTree s.chain x → c'.blocks x = s.chain.blocks x := by
    intro x hx
    rw [← hc']
    exact appendBlock_blocks (Nat.ne_of_lt (hk.wired.lt_next hx))
  have hblk : c'.blocks s.chain.nextBlock =
      { header := blk.header, txFrame := some f, hash := hash, parent := some parent,
        isFinalized := false } := by
    rw [← hc']
    exact appendBlock_blocks_new
  have hcom : c'.com = s.chain.com := by
    rw [← hc']
    rfl
  refine
    { inj := by
        rw [hcom]
        exact hk.inj
      wired := hw
      stored := ?_
      recorded := ?_
      persisted := ?_
      gone := ?_
      below := ?_
      root := ?_ }
  · intro b hb
    show Stored (s.db.storeBlock blk hash).1 (c'.blocks b).hash (c'.blocks b).header
    rcases (hmem b).mp hb with rfl | hb
    · rw [hblk]
      exact stored_storeBlock (storeBlock_accepts hparent)
    · rw [hold hb]
      exact (hk.stored hb).storeBlock
  · intro b hb
    show Recorded (s.db.storeBlock blk hash).1 (c'.blocks b).hash
    rcases (hmem b).mp hb with rfl | hb
    · rw [hblk]
      exact Recorded.storeBlock hparent (.inl rfl)
    · rw [hold hb]
      exact Recorded.storeBlock hparent (.inr (hk.recorded hb))
  · rw [hcom]
    exact fun hd hhd => (hk.persisted hd hhd).storeBlock
  · rw [← hc']
    intro hd hhd
    simp only [ForkedChainRef.appendBlock, update_of_ne (hne hd hhd)]
    exact hk.gone hd hhd
  · rw [hcom]
    exact hk.below
  · intro b hb hpb
    show (c'.blocks b).header.number ≤ n₀ ∨
      ∃ hd' ∈ P, c'.com.computeBlockHash hd' = (c'.blocks b).header.parentHash
    have hpb' : (c'.blocks b).parent = none := hpb
    rcases (hmem b).mp hb with rfl | hb
    · rw [hblk] at hpb'
      cases hpb'
    · rw [hold hb] at hpb' ⊢
      rw [hcom]
      exact hk.root hb hpb'

theorem Backed.move {debug : Prop} (hk : Backed n₀ P s) (hm : Move debug s s') :
    Backed n₀ P s' := by
  cases hm with
  | relabel h => exact hk.sameTree h
  | @finalize it next hp =>
    have hheader : ∀ b, ((marked s.chain [it]).blocks b).header = (s.chain.blocks b).header :=
      marked_header
    have heq : s.chain.finalize it = marked s.chain [it] := by
      rw [← finalize_marked, marked_nil]
    rw [heq]
    refine
      { inj := hk.inj
        wired := by
          rw [← heq]
          exact hk.wired.finalize it
        stored := ?_
        recorded := ?_
        persisted := fun hd hhd => (hk.persisted hd hhd).finalizeBlockData
        gone := hk.gone
        below := hk.below
        root := ?_ }
    · intro b hb
      rw [marked_hash, hheader]
      exact (hk.stored (inTree_marked_iff.mp hb)).finalizeBlockData
    · intro b hb
      rw [marked_hash]
      exact (hk.recorded (inTree_marked_iff.mp hb)).forBodies
    · intro b hb hpb
      have hpb' : (marked s.chain [it]).parent b = none := hpb
      rw [marked_parent] at hpb'
      rw [marked_number, hheader]
      exact hk.root (inTree_marked_iff.mp hb) hpb'
  | @prune it c' hnf h =>
    obtain ⟨hit, rfl⟩ := hk.wired.removeBlockFromCache h
    refine hk.pruned (fun {b} hb hne => ?_) fun hd hhd => ?_
    · have hne' : s.chain.hash b ≠ s.chain.hash it := fun heq =>
        hne (List.mem_singleton.mpr (InTree.hash_inj hb hit heq))
      exact ⟨(hk.stored hb).deleteBlockData hne', (hk.recorded hb).deleteBlockData hne'⟩
    · refine (hk.persisted hd hhd).deleteBlockData fun heq => ?_
      have hgone := hk.gone hd hhd
      have hit' : s.chain.hashToBlock (s.chain.hash it) = some it := hit
      rw [heq, hit'] at hgone
      cases hgone
  | @discard it c' hd h =>
    obtain ⟨-, rfl⟩ := hk.wired.removeBlockFromCache h
    exact hk.pruned (fun hb _ => ⟨hk.stored hb, hk.recorded hb⟩) hk.persisted
  | attach hp hph hnew hpass _ => exact hk.attach hp hph hnew hpass
  | @reject parent blk hp hph hnew hstore =>
    have hparent : Recorded s.db blk.header.parentHash := by
      rw [hph]
      exact hk.recorded hp
    rw [storeBlock_accepts hparent] at hstore
    cases hstore

/-- The headers of the blocks `R`. -/
def headersOf (c : ForkedChainRef) (R : List Nat) : Set Header :=
  {hd | ∃ b ∈ R, (c.blocks b).header = hd}

theorem Backed.movesBase (hk : Backed n₀ P s) {base : Nat} {R : List Nat}
    (hm : MovesBase s.chain c' base R) : Backed n₀ (P ∪ headersOf s.chain R) ⟨c', s.db⟩ := by
  have hw := hk.wired
  have hmem := fun {x} => hm.inTree_iff hw (x := x)
  have hcom := hm.com
  -- the hash of a removed block is the hash of its header
  have hR : ∀ b ∈ R, s.chain.com.computeBlockHash (s.chain.blocks b).header = s.chain.hash b :=
    fun b hb => (hw.hash_eq (hm.inTree b hb)).symm
  -- a block whose parent is among the removed ones
  have hlink : ∀ {b p}, s.chain.parent b = some p → p ∈ R →
      ∃ hd' ∈ P ∪ headersOf s.chain R, s.chain.com.computeBlockHash hd' =
        (s.chain.blocks b).header.parentHash := by
    intro b p hp hpR
    refine ⟨(s.chain.blocks p).header, .inr ⟨p, hpR, rfl⟩, ?_⟩
    rw [hR p hpR, hw.parentHash hp]
  have hroot : ∀ {b}, InTree s.chain b → s.chain.parent b = none →
      s.chain.number b ≤ n₀ ∨ ∃ hd' ∈ P ∪ headersOf s.chain R,
        s.chain.com.computeBlockHash hd' = (s.chain.blocks b).header.parentHash := by
    intro b hb hp
    rcases hk.root hb hp with hle | ⟨hd', hhd', heq⟩
    · exact .inl hle
    · exact .inr ⟨hd', .inl hhd', heq⟩
  refine
    { inj := by
        rw [hcom]
        exact hk.inj
      wired := hw.movesBase hm
      stored := ?_
      recorded := ?_
      persisted := ?_
      gone := ?_
      below := ?_
      root := ?_ }
  · intro b hb
    obtain ⟨hb', hbR⟩ := hmem.mp hb
    rw [hm.hash hw, hm.header hw hbR]
    exact hk.stored hb'
  · intro b hb
    rw [hm.hash hw]
    exact hk.recorded (hmem.mp hb).1
  · rw [hcom]
    intro hd hhd
    rcases hhd with hhd | ⟨b, hb, rfl⟩
    · exact hk.persisted hd hhd
    · rw [hR b hb]
      exact hk.stored (hm.inTree b hb)
  · rw [hcom]
    intro hd hhd
    rw [hm.hashToBlock]
    rcases hhd with hhd | ⟨b, hb, rfl⟩
    · rw [hk.gone hd hhd]
      rfl
    · have hb' : s.chain.hashToBlock (s.chain.hash b) = some b := hm.inTree b hb
      rw [hR b hb, hb']
      simp [hb]
  · rw [hcom]
    intro hd hhd
    rcases hhd with hhd | ⟨b, hb, rfl⟩
    · rcases hk.below hd hhd with hle | ⟨hd', hhd', heq⟩
      · exact .inl hle
      · exact .inr ⟨hd', .inl hhd', heq⟩
    · cases hp : s.chain.parent b with
      | none => exact hroot (hm.inTree b hb) hp
      | some p =>
        -- the removed blocks are closed under parents
        obtain ⟨q, hq, hanc⟩ := (hm.mem_iff b).mp hb
        exact .inr (hlink hp ((hm.mem_iff p).mpr ⟨q, hq, hanc.tail hp⟩))
  · intro b hb hpb
    obtain ⟨hb', hbR⟩ := hmem.mp hb
    show (c'.blocks b).header.number ≤ n₀ ∨ ∃ hd' ∈ P ∪ headersOf s.chain R,
      c'.com.computeBlockHash hd' = (c'.blocks b).header.parentHash
    rw [hm.header hw hbR, hcom]
    by_cases hbase : b = base
    · subst hbase
      cases hp : s.chain.parent b with
      | none => exact hroot hb' hp
      | some p => exact .inr (hlink hp ((hm.mem_iff p).mpr ⟨p, hp, .refl p⟩))
    · have hpb' : c'.parent b = none := hpb
      rw [hm.parent hbase, if_neg hbR] at hpb'
      exact hroot hb' hpb'

theorem Backed.moves {debug : Prop} (hk : Backed n₀ P s) (hm : Moves debug s s') :
    Backed n₀ P s' := by
  induction hm with
  | refl => exact hk
  | tail _ hlast ih => exact ih.move hlast

end Keep

/-! ## Payloads that nothing needs -/

/-- The payload was in the store, or had owners, when the node started, or a block that a
base update has taken out of the tree asks for it. -/
def NeededOutside (saved : BlockDb) (P : Set Header) (key : BodyData) : Prop :=
  (saved.bodies key).owners ≠ [] ∨ (saved.bodies key).stored = true ∨
    ∃ hd ∈ P, key ∈ bodyData hd

/-- An owner record names blocks of the tree, each once, and a payload without owners is
one that a finalized block asks for. -/
structure Exact (saved : BlockDb) (P : Set Header) (s : ChainNode) : Prop where
  nodup : ∀ key, (saved.bodies key).owners = [] → (s.db.bodies key).owners.Nodup
  owner : ∀ key, ∀ hash ∈ (s.db.bodies key).owners, NeededOutside saved P key ∨
    ∃ b, InTree s.chain b ∧ s.chain.hash b = hash ∧ key ∈ bodyData (s.chain.blocks b).header
  unowned : ∀ key, (s.db.bodies key).stored = true → (s.db.bodies key).owners = [] →
    NeededOutside saved P key ∨
    ∃ b, InTree s.chain b ∧ Finalized s.chain b ∧ key ∈ bodyData (s.chain.blocks b).header

theorem NeededOutside.mono {saved : BlockDb} {P Q : Set Header} {key : BodyData} (hPQ : P ⊆ Q)
    (h : NeededOutside saved P key) : NeededOutside saved Q key := by
  rcases h with h | h | ⟨hd, hhd, hkey⟩
  · exact .inl h
  · exact .inr (.inl h)
  · exact .inr (.inr ⟨hd, hPQ hhd, hkey⟩)

section Spare

variable {n₀ : Nat} {saved : BlockDb} {P Q : Set Header} {s s' : ChainNode} {c' : ForkedChainRef}

section

variable (hx : Exact saved P s)
include hx

/-- A payload that is stored is needed by a block of the tree, or from outside. -/
theorem Exact.needed {key : BodyData}
    (h : (s.db.bodies key).stored = true) : NeededOutside saved P key ∨
      ∃ b, InTree s.chain b ∧ key ∈ bodyData (s.chain.blocks b).header := by
  cases hown : (s.db.bodies key).owners with
  | nil =>
    rcases hx.unowned key h hown with hout | ⟨b, hb, _, hkey⟩
    · exact .inl hout
    · exact .inr ⟨b, hb, hkey⟩
  | cons hash rest =>
    rcases hx.owner key hash (by rw [hown]; exact List.mem_cons_self) with hout | ⟨b, hb, _, hkey⟩
    · exact .inl hout
    · exact .inr ⟨b, hb, hkey⟩

theorem Exact.sameTree (h : SameTree s.chain c') : Exact saved P ⟨c', s.db⟩ where
  nodup := hx.nodup
  owner key hash hmem := by
    rcases hx.owner key hash hmem with hout | ⟨b, hb, heq, hkey⟩
    · exact .inl hout
    · refine .inr ⟨b, h.inTree_iff.mpr hb, ?_, ?_⟩
      · rw [h.hash]
        exact heq
      · rw [h.blocks]
        exact hkey
  unowned key hs hown := by
    rcases hx.unowned key hs hown with hout | ⟨b, hb, hfin, hkey⟩
    · exact .inl hout
    · refine .inr ⟨b, h.inTree_iff.mpr hb, ?_, ?_⟩
      · show (c'.blocks b).isFinalized = true
        rw [h.blocks]
        exact hfin
      · rw [h.blocks]
        exact hkey

theorem Exact.finalize {it : Nat} (hit : InTree s.chain it) :
    Exact saved P
      ⟨s.chain.finalize it, s.db.finalizeBlockData (s.chain.blocks it).header⟩ := by
  have heq : s.chain.finalize it = marked s.chain [it] := by
    rw [← finalize_marked, marked_nil]
  have hheader : ∀ b, ((marked s.chain [it]).blocks b).header = (s.chain.blocks b).header :=
    marked_header
  have hpin : ∀ {key}, key ∈ bodyData (s.chain.blocks it).header →
      (s.db.finalizeBlockData (s.chain.blocks it).header).bodies key = (s.db.bodies key).pin :=
    fun hk => forBodies_of_mem hk rfl
  have hother : ∀ {key}, key ∉ bodyData (s.chain.blocks it).header →
      (s.db.finalizeBlockData (s.chain.blocks it).header).bodies key = s.db.bodies key :=
    forBodies_of_not_mem
  rw [heq]
  refine ⟨fun key hsaved => ?_, fun key hash hmem => ?_, fun key hs hown => ?_⟩
  · by_cases hk : key ∈ bodyData (s.chain.blocks it).header
    · rw [hpin hk]
      exact List.nodup_nil
    · rw [hother hk]
      exact hx.nodup key hsaved
  · by_cases hk : key ∈ bodyData (s.chain.blocks it).header
    · rw [hpin hk] at hmem
      cases hmem
    · rw [hother hk] at hmem
      rcases hx.owner key hash hmem with hout | ⟨b, hb, hhash, hkey⟩
      · exact .inl hout
      · refine .inr ⟨b, inTree_marked_iff.mpr hb, ?_, ?_⟩
        · rw [marked_hash]
          exact hhash
        · rw [hheader]
          exact hkey
  · by_cases hk : key ∈ bodyData (s.chain.blocks it).header
    · refine .inr ⟨it, inTree_marked_iff.mpr hit, ?_, ?_⟩
      · exact finalized_marked_iff.mpr (.inr (List.mem_singleton_self it))
      · rw [hheader]
        exact hk
    · rw [hother hk] at hs hown
      rcases hx.unowned key hs hown with hout | ⟨b, hb, hfin, hkey⟩
      · exact .inl hout
      · refine .inr ⟨b, inTree_marked_iff.mpr hb, finalized_marked_iff.mpr (.inl hfin), ?_⟩
        rw [hheader]
        exact hkey

/-- Pruning takes the name of the block out of the records, and what is left without
owners was so before. -/
theorem Exact.prune {it : Nat} (hnf : s.chain.notFinalized it = true) :
    Exact saved P ⟨pruned s.chain [it] s.chain.heads,
      s.db.deleteBlockData (s.chain.blocks it).header (s.chain.hash it)⟩ := by
  have hkeep : ∀ {b}, InTree s.chain b → b ≠ it →
      InTree (pruned s.chain [it] s.chain.heads) b ∧
        (pruned s.chain [it] s.chain.heads).blocks b = s.chain.blocks b := by
    intro b hb hne
    have hbR : b ∉ [it] := fun h => hne (List.mem_singleton.mp h)
    exact ⟨inTree_pruned_iff.mpr ⟨hb, hbR⟩, pruned_blocks_of_not_mem hbR⟩
  generalize hdb : s.db.deleteBlockData (s.chain.blocks it).header (s.chain.hash it) = db
  have hbodies : db.bodies =
      (s.db.releaseBlockOwnershipData (s.chain.blocks it).header (s.chain.hash it)).bodies := by
    rw [← hdb]
    rfl
  have hother : ∀ {key}, key ∉ bodyData (s.chain.blocks it).header →
      db.bodies key = s.db.bodies key := by
    intro key hk
    rw [hbodies]
    exact forBodies_of_not_mem hk
  have hrelease : ∀ {key}, key ∈ bodyData (s.chain.blocks it).header →
      (saved.bodies key).owners = [] →
      db.bodies key = (s.db.bodies key).release (s.chain.hash it) := by
    intro key hk hsaved
    rw [hbodies]
    exact forBodies_of_mem hk
      (release_of_not_mem (nodup_release (hx.nodup key hsaved) _).2)
  refine ⟨fun key hsaved => ?_, fun key hash hmem => ?_, fun key hs hown => ?_⟩
  · by_cases hk : key ∈ bodyData (s.chain.blocks it).header
    · rw [hrelease hk hsaved]
      exact (nodup_release (hx.nodup key hsaved) _).1
    · rw [hother hk]
      exact hx.nodup key hsaved
  · by_cases hsaved : (saved.bodies key).owners = []
    · have hold : hash ∈ (s.db.bodies key).owners ∧
          (key ∈ bodyData (s.chain.blocks it).header → hash ≠ s.chain.hash it) := by
        by_cases hk : key ∈ bodyData (s.chain.blocks it).header
        · have hmem' : hash ∈ (db.bodies key).owners := hmem
          rw [hrelease hk hsaved] at hmem'
          refine ⟨mem_owners_release hmem', fun _ heq => ?_⟩
          rw [heq] at hmem'
          exact (nodup_release (hx.nodup key hsaved) _).2 hmem'
        · have hmem' : hash ∈ (db.bodies key).owners := hmem
          rw [hother hk] at hmem'
          exact ⟨hmem', fun hk' => absurd hk' hk⟩
      rcases hx.owner key hash hold.1 with hout | ⟨b, hb, hhash, hkey⟩
      · exact .inl hout
      · have hne : b ≠ it := by
          rintro rfl
          exact hold.2 hkey hhash.symm
        obtain ⟨hb', hblk⟩ := hkeep hb hne
        refine .inr ⟨b, hb', ?_, ?_⟩
        · rw [pruned_hash]
          exact hhash
        · rw [hblk]
          exact hkey
    · exact .inl (.inl hsaved)
  · by_cases hsaved : (saved.bodies key).owners = []
    · have hold : (s.db.bodies key).stored = true ∧ (s.db.bodies key).owners = [] := by
        by_cases hk : key ∈ bodyData (s.chain.blocks it).header
        · have hs' : (db.bodies key).stored = true := hs
          have hown' : (db.bodies key).owners = [] := hown
          rw [hrelease hk hsaved] at hs' hown'
          exact stored_release hs' hown'
        · have hs' : (db.bodies key).stored = true := hs
          have hown' : (db.bodies key).owners = [] := hown
          rw [hother hk] at hs' hown'
          exact ⟨hs', hown'⟩
      rcases hx.unowned key hold.1 hold.2 with hout | ⟨b, hb, hfin, hkey⟩
      · exact .inl hout
      · -- a finalized block is not pruned
        have hne : b ≠ it := by
          rintro rfl
          exact notFinalized_iff.mp hnf hfin
        obtain ⟨hb', hblk⟩ := hkeep hb hne
        refine .inr ⟨b, hb', finalized_pruned_iff.mpr hfin, ?_⟩
        rw [hblk]
        exact hkey
    · exact .inl (.inl hsaved)

theorem Exact.attach (hw : Wired n₀ s.chain) {parent f : Nat} {blk : Block}
    {hash : Hash32} (hnew : s.chain.hashToBlock hash = none)
    (hstore : (s.db.storeBlock blk hash).2 = true) :
    Exact saved P
      ⟨(s.chain.appendBlock parent blk hash f).1, (s.db.storeBlock blk hash).1⟩ := by
  obtain ⟨db', hbodies, hwrite⟩ := (storeBlock_bodies s.db blk hash).2 hstore
  generalize hdb : (s.db.storeBlock blk hash).1 = db at hwrite
  have hother : ∀ {key}, key ∉ bodyData blk.header → db.bodies key = s.db.bodies key := by
    intro key hk
    have hreg : (s.db.writeBlockOwnershipData blk.header hash).bodies key = s.db.bodies key :=
      forBodies_of_not_mem hk
    have hwritten : (db'.writeBaggage blk.header).bodies key = db'.bodies key :=
      forBodies_of_not_mem hk
    rw [hwrite, hwritten, hbodies, hreg]
  have hown : ∀ {key}, key ∈ bodyData blk.header →
      (db.bodies key).owners = ((s.db.bodies key).retain hash).owners := by
    intro key hk
    have hreg : (s.db.writeBlockOwnershipData blk.header hash).bodies key
        = (s.db.bodies key).retain hash := forBodies_of_mem hk retain_retain
    have hwritten : (db'.writeBaggage blk.header).bodies key = (db'.bodies key).write :=
      forBodies_of_mem hk rfl
    rw [hwrite, hwritten, hbodies, hreg]
    rfl
  generalize hc' : (s.chain.appendBlock parent blk hash f).1 = c'
  have hmem : ∀ x, InTree c' x ↔ x = s.chain.nextBlock ∨ InTree s.chain x := by
    intro x
    rw [← hc']
    exact appendBlock_inTree hw hnew
  have hold : ∀ {x}, InTree s.chain x → c'.blocks x = s.chain.blocks x := by
    intro x hx'
    rw [← hc']
    exact appendBlock_blocks (Nat.ne_of_lt (hw.lt_next hx'))
  have hblk : c'.blocks s.chain.nextBlock =
      { header := blk.header, txFrame := some f, hash := hash, parent := some parent,
        isFinalized := false } := by
    rw [← hc']
    exact appendBlock_blocks_new
  have howner : ∀ {key h}, h ∈ (s.db.bodies key).owners → NeededOutside saved P key ∨
      ∃ b, InTree c' b ∧ c'.hash b = h ∧ key ∈ bodyData (c'.blocks b).header := by
    intro key h hh
    rcases hx.owner key h hh with hout | ⟨b, hb, hhash, hkey⟩
    · exact .inl hout
    · refine .inr ⟨b, (hmem b).mpr (.inr hb), ?_, ?_⟩
      · show (c'.blocks b).hash = h
        rw [hold hb]
        exact hhash
      · rw [hold hb]
        exact hkey
  have hunowned : ∀ {key}, (s.db.bodies key).stored = true → (s.db.bodies key).owners = [] →
      NeededOutside saved P key ∨
      ∃ b, InTree c' b ∧ Finalized c' b ∧ key ∈ bodyData (c'.blocks b).header := by
    intro key hs hnil
    rcases hx.unowned key hs hnil with hout | ⟨b, hb, hfin, hkey⟩
    · exact .inl hout
    · refine .inr ⟨b, (hmem b).mpr (.inr hb), ?_, ?_⟩
      · unfold Finalized
        rw [hold hb]
        exact hfin
      · rw [hold hb]
        exact hkey
  refine ⟨fun key hsaved => ?_, fun key h hh => ?_, fun key hs hnil => ?_⟩
  · by_cases hk : key ∈ bodyData blk.header
    · rw [hown hk]
      rcases retain_cases (s.db.bodies key) hash with ⟨heq, -⟩ | ⟨heq, hno, -⟩
      · rw [heq]
        exact hx.nodup key hsaved
      · rw [heq]
        exact List.nodup_append.mpr ⟨hx.nodup key hsaved, List.nodup_singleton hash,
          fun a ha b hb hab => hno (by rw [← List.mem_singleton.mp hb, ← hab]; exact ha)⟩
    · rw [hother hk]
      exact hx.nodup key hsaved
  · have hh' : h ∈ (db.bodies key).owners := hh
    by_cases hk : key ∈ bodyData blk.header
    · rw [hown hk] at hh'
      rcases retain_cases (s.db.bodies key) hash with ⟨heq, -⟩ | ⟨heq, -, -⟩
      · rw [heq] at hh'
        exact howner hh'
      · rw [heq] at hh'
        rcases List.mem_append.mp hh' with hh' | hh'
        · exact howner hh'
        · -- the new owner is the new block
          refine .inr ⟨s.chain.nextBlock, (hmem _).mpr (.inl rfl), ?_, ?_⟩
          · show (c'.blocks s.chain.nextBlock).hash = h
            rw [hblk]
            exact (List.mem_singleton.mp hh').symm
          · rw [hblk]
            exact hk
    · rw [hother hk] at hh'
      exact howner hh'
  · have hs' : (db.bodies key).stored = true := hs
    have hnil' : (db.bodies key).owners = [] := hnil
    by_cases hk : key ∈ bodyData blk.header
    · rw [hown hk] at hnil'
      rcases retain_cases (s.db.bodies key) hash with ⟨heq, ⟨hnil₀, hs₀⟩ | hmem₀⟩ | ⟨heq, -, -⟩
      · exact hunowned hs₀ hnil₀
      · rw [heq] at hnil'
        rw [hnil'] at hmem₀
        cases hmem₀
      · rw [heq] at hnil'
        exact absurd hnil' (List.append_ne_nil_of_right_ne_nil _ (List.cons_ne_nil _ _))
    · rw [hother hk] at hs' hnil'
      exact hunowned hs' hnil'

end

section

variable (hx : Exact saved Q s) (hk : Backed n₀ P s)
include hx hk

theorem Exact.move (hm : Move False s s') : Exact saved Q s' := by
  cases hm with
  | relabel h => exact hx.sameTree h
  | finalize hp => exact hx.finalize (hk.wired.inTree_of_parent hp)
  | prune hnf h =>
    obtain ⟨-, rfl⟩ := hk.wired.removeBlockFromCache h
    exact hx.prune hnf
  | discard hd _ => exact hd.elim
  | attach hp hph hnew hpass hstore => exact hx.attach hk.wired hnew hstore
  | @reject parent blk hp hph hnew hstore =>
    have hparent : Recorded s.db blk.header.parentHash := by
      rw [hph]
      exact hk.recorded hp
    rw [storeBlock_accepts hparent] at hstore
    cases hstore

theorem Exact.moves (hm : Moves False s s') : Exact saved Q s' := by
  induction hm with
  | refl => exact hx
  | tail hfirst hlast ih => exact ih.move (hk.moves hfirst) hlast

theorem Exact.movesBase {base : Nat} {R : List Nat}
    (hm : MovesBase s.chain c' base R) : Exact saved (Q ∪ headersOf s.chain R) ⟨c', s.db⟩ := by
  have hw := hk.wired
  -- a removed block asks for its payloads from outside
  have hcase : ∀ {key b}, InTree s.chain b → key ∈ bodyData (s.chain.blocks b).header →
      NeededOutside saved (Q ∪ headersOf s.chain R) key ∨
        (InTree c' b ∧ key ∈ bodyData (c'.blocks b).header) := by
    intro key b hb hkey
    by_cases hbR : b ∈ R
    · exact .inl (.inr (.inr ⟨(s.chain.blocks b).header, .inr ⟨b, hbR, rfl⟩, hkey⟩))
    · refine .inr ⟨(hm.inTree_iff hw).mpr ⟨hb, hbR⟩, ?_⟩
      rw [hm.header hw hbR]
      exact hkey
  refine ⟨hx.nodup, fun key hash hmem => ?_, fun key hs hown => ?_⟩
  · rcases hx.owner key hash hmem with hout | ⟨b, hb, hhash, hkey⟩
    · exact .inl (hout.mono fun _ h => .inl h)
    · rcases hcase hb hkey with hout | ⟨hb', hkey'⟩
      · exact .inl hout
      · exact .inr ⟨b, hb', (hm.hash hw b).trans hhash, hkey'⟩
  · rcases hx.unowned key hs hown with hout | ⟨b, hb, hfin, hkey⟩
    · exact .inl (hout.mono fun _ h => .inl h)
    · rcases hcase hb hkey with hout | ⟨hb', hkey'⟩
      · exact .inl hout
      · exact .inr ⟨b, hb', hm.finalized hw hfin, hkey'⟩

end

end Spare

end Nimbus.Spec.ForkedChain
