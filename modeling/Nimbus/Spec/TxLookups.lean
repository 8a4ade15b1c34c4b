import Nimbus.ForStd.WriteAll
import Nimbus.Spec.ChainRecords

/-!
# The transaction lookups on disk

A base update writes a lookup for every transaction of the blocks that the base passes. As no
transaction comes twice on one lineage, none of these lookups takes the place of one of a block
below.
-/

namespace Nimbus.Spec.ForkedChain

open Nimbus.Native.ForkedChain
open ParentTree LookupNode

/-! ## Transactions of a lineage -/

/-- The transaction is the one at the index `i` of the block. -/
def Carries (contents : Contents) (hd : Header) (i : Nat) (txHash : Hash32) : Prop :=
  ((contents.transactions hd.txRoot)[i]?).map (·.hash) = some txHash

/-- No transaction comes twice on the lineage of the block: the nonce of its sender is used up. -/
def NoRepeat (com : CommonRef) (contents : Contents) (hd : Header) : Prop :=
  ∀ a a' i i' txHash, Lineage com hd a → Lineage com hd a' → Carries contents a i txHash →
    Carries contents a' i' txHash → a = a' ∧ i = i'

section

variable {s s' : LookupNode} {env : Env} {e : Event}

theorem LookupNode_step_eq (h : s.step env e = .ok s') :
    s.node.step env e = .ok s'.node ∧ s'.contents = s.contents ∧ s'.txKeys = s.txKeysAfter e ∧
      s'.accessLists = s.accessLists := by
  unfold LookupNode.step at h
  cases hnode : s.node.step env e with
  | error d =>
    rw [hnode] at h
    cases h
  | ok node =>
    rw [hnode] at h
    cases h
    exact ⟨rfl, rfl, rfl, rfl⟩

/-- The hashes that a block of the tree keeps are those of its transactions. -/
theorem txHashes_getElem {b i : Nat} {txHash : Hash32} (hb : b ≠ 0) :
    (s.txHashes b)[i]? = some txHash ↔
      Carries s.contents (s.chain.blocks b).header i txHash := by
  unfold txHashes Carries
  rw [if_neg hb, List.getElem?_map]

/-! ## Writing lookups -/

theorem putTxKeys_eq (blockNumber : Nat) (txHashes : List Hash32)
    (txKeys : Hash32 → Option TransactionKey) :
    putTxKeys blockNumber txHashes txKeys =
      writeAll txKeys (txHashes.zipIdx.map fun e => (e.1, ⟨blockNumber, e.2⟩)) := by
  unfold putTxKeys writeAll
  rw [List.foldl_map]

/-- The entries of the blocks that the base passes on its way to `base`. -/
def freshEntries (s : LookupNode) (base : BlockRef) : List (Hash32 × TransactionKey) :=
  ((s.chain.ancestors (some base)).takeWhile fun b => !s.chain.sameBlock b s.chain.base).flatMap
    fun b => (s.txHashes b).zipIdx.map fun e => (e.1, ⟨s.chain.number b, e.2⟩)

theorem writeTxKeys_eq (base : BlockRef) :
    s.writeTxKeys base = writeAll s.txKeys (freshEntries s base) := by
  unfold writeTxKeys freshEntries
  generalize (s.chain.ancestors (some base)).takeWhile _ = fresh
  generalize s.txKeys = txKeys
  induction fresh generalizing txKeys with
  | nil => rfl
  | cons b fresh ih =>
    rw [List.foldl_cons, List.flatMap_cons, writeAll_append, ih, putTxKeys_eq]

/-- The blocks above the base, up to `base`. -/
theorem mem_fresh (hi : Inv s.chain) {base b : BlockRef} (hbase : InTree s.chain base) :
    b ∈ (s.chain.ancestors (some base)).takeWhile (fun b => !s.chain.sameBlock b s.chain.base) ↔
      Anc s.chain.parent base b ∧ b ≠ s.chain.base := by
  have hl := hi.linked
  constructor
  · intro hb
    have hanc := (hl.mem_ancestors hbase).mp (List.takeWhile_subset _ hb)
    have hkeep := List.all_eq_true.mp List.all_takeWhile b hb
    refine ⟨hanc, ?_⟩
    intro heq
    rw [heq, Bool.not_eq_true', Bool.eq_false_iff] at hkeep
    exact hkeep ((hl.base_mem.sameBlock_iff hl.base_mem).mpr rfl)
  · rintro ⟨hanc, hne⟩
    exact mem_takeWhile_chain hl hbase ((hl.mem_ancestors hbase).mpr hanc) hne

theorem mem_freshEntries (hi : Inv s.chain) (hfirst : FirstIsBase s.chain) {base : BlockRef}
    (hbase : InTree s.chain base) {txHash : Hash32} {key : TransactionKey} :
    (txHash, key) ∈ freshEntries s base ↔
      ∃ b, Anc s.chain.parent base b ∧ b ≠ s.chain.base ∧ s.chain.number b = key.blockNumber ∧
        Carries s.contents (s.chain.blocks b).header key.index txHash := by
  have hl := hi.linked
  have hne0 : ∀ {b}, Anc s.chain.parent base b → b ≠ s.chain.base → b ≠ 0 := by
    intro b hanc hne h0
    subst h0
    exact hne (hfirst (hl.inTree_anc hbase hanc)).symm
  unfold freshEntries
  rw [List.mem_flatMap]
  constructor
  · rintro ⟨b, hb, hmem⟩
    obtain ⟨hanc, hne⟩ := (mem_fresh hi hbase).mp hb
    obtain ⟨⟨hash, i⟩, hzip, heq⟩ := List.mem_map.mp hmem
    cases heq
    refine ⟨b, hanc, hne, rfl, (txHashes_getElem (hne0 hanc hne)).mp ?_⟩
    exact List.mk_mem_zipIdx_iff_getElem?.mp hzip
  · rintro ⟨b, hanc, hne, hnum, hcarries⟩
    refine ⟨b, (mem_fresh hi hbase).mpr ⟨hanc, hne⟩, List.mem_map.mpr ⟨(txHash, key.index), ?_, ?_⟩⟩
    · exact List.mk_mem_zipIdx_iff_getElem?.mpr ((txHashes_getElem (hne0 hanc hne)).mpr hcarries)
    · rw [hnum]

variable {base : BlockRef} {txHash : Hash32}

theorem writeTxKeys_of_not_carries (hi : Inv s.chain) (hfirst : FirstIsBase s.chain)
    (hbase : InTree s.chain base) (h : ∀ b i, Anc s.chain.parent base b → b ≠ s.chain.base →
      ¬ Carries s.contents (s.chain.blocks b).header i txHash) :
    s.writeTxKeys base txHash = s.txKeys txHash := by
  rw [writeTxKeys_eq]
  apply writeAll_of_not_mem
  intro key hkey
  obtain ⟨b, hanc, hne, -, hcarries⟩ := (mem_freshEntries hi hfirst hbase).mp hkey
  exact h b key.index hanc hne hcarries

theorem writeTxKeys_of_carries (hi : Inv s.chain) (hfirst : FirstIsBase s.chain)
    (hbase : InTree s.chain base)
    (hrepeat : NoRepeat s.chain.com s.contents (s.chain.blocks base).header) {b i : Nat}
    (hanc : Anc s.chain.parent base b) (hne : b ≠ s.chain.base)
    (hcarries : Carries s.contents (s.chain.blocks b).header i txHash) :
    s.writeTxKeys base txHash = some ⟨s.chain.number b, i⟩ := by
  have hl := hi.linked
  rw [writeTxKeys_eq]
  apply writeAll_of_mem
  · exact (mem_freshEntries hi hfirst hbase).mpr ⟨b, hanc, hne, rfl, hcarries⟩
  · intro key hkey
    obtain ⟨b', hanc', -, hnum, hcarries'⟩ := (mem_freshEntries hi hfirst hbase).mp hkey
    obtain ⟨hheader, hi'⟩ := hrepeat _ _ _ _ _ (hl.lineage hbase hanc') (hl.lineage hbase hanc)
      hcarries' hcarries
    have hnum' : key.blockNumber = s.chain.number b := by
      unfold ForkedChainRef.number at hnum ⊢
      rw [← hnum, hheader]
    cases key
    cases hnum'
    cases hi'
    rfl

end

/-! ## The index -/

/-- The transaction lookups on disk are those of the canonical blocks up to the base. -/
structure Indexed (s : LookupNode) : Prop where
  sound : ∀ txHash key, s.txKeys txHash = some key →
    key.blockNumber ≤ s.chain.number s.chain.base ∧ ∃ hd, hd.number = key.blockNumber ∧
      s.chain.canonical key.blockNumber = some (s.chain.com.computeBlockHash hd) ∧
      Carries s.contents hd key.index txHash
  complete : ∀ hd i txHash, hd.number ≤ s.chain.number s.chain.base →
    s.chain.canonical hd.number = some (s.chain.com.computeBlockHash hd) →
    Carries s.contents hd i txHash → s.txKeys txHash = some ⟨hd.number, i⟩

section

variable {s s' : LookupNode} {env : Env} {e : Event}

theorem txKeysAfter_of_not_runs (h : ¬ RunsBaseUpdate s.chain e) : s.txKeysAfter e = s.txKeys := by
  unfold txKeysAfter
  cases e with
  | handle i =>
    simp only
    split
    · next hitem _ => exact absurd ⟨i, rfl, hitem⟩ h
    · rfl
  | importBlock _ _ => rfl
  | forkChoice _ _ _ => rfl
  | setHead _ => rfl

theorem txKeysAfter_of_runs (h : RunsBaseUpdate s.chain e) {it : BlockRef} {rest : List BlockRef}
    (hq : s.chain.baseQueue = it :: rest) :
    s.txKeysAfter e = if s.chain.number it = s.chain.number s.chain.base then s.txKeys
      else s.writeTxKeys it := by
  obtain ⟨i, rfl, hitem⟩ := h
  unfold txKeysAfter
  simp only [hitem, hq]

theorem txKeysAfter_of_empty (hq : s.chain.baseQueue = []) : s.txKeysAfter e = s.txKeys := by
  unfold txKeysAfter
  cases e with
  | handle i =>
    simp only [hq]
    split
    · next heq => exact nomatch heq
    · rfl
  | importBlock _ _ => rfl
  | forkChoice _ _ _ => rfl
  | setHead _ => rfl

theorem Indexed.congr (hx : Indexed s) (hcom : s'.chain.com = s.chain.com)
    (hcontents : s'.contents = s.contents) (hcanonical : s'.chain.canonical = s.chain.canonical)
    (hnum : s'.chain.number s'.chain.base = s.chain.number s.chain.base)
    (hkeys : s'.txKeys = s.txKeys) : Indexed s' where
  sound := by
    rw [hcom, hcontents, hcanonical, hnum, hkeys]
    exact hx.sound
  complete := by
    rw [hcom, hcontents, hcanonical, hnum, hkeys]
    exact hx.complete

theorem Indexed.step (hx : Indexed s) (hi : Inv s.chain) (hi' : Inv s'.chain)
    (hcanonical : CanonicalBelow s.chain.com s.chain.canonical
      (s.chain.blocks s.chain.base).header)
    (hinj : Function.Injective s.chain.com.computeBlockHash) (hfirst : FirstIsBase s.chain)
    (hrepeat : Vetted (NoRepeat s.chain.com s.contents) s.chain)
    (hchain : Native.ForkedChain.step s.chain env e = .ok s'.chain)
    (hcontents : s'.contents = s.contents) (hkeys : s'.txKeys = s.txKeysAfter e) :
    Indexed s' := by
  have hl := hi.linked
  have hl' := hi'.linked
  rcases step_trace hchain with ⟨hthin, hsame⟩ | ⟨hno, parent, blk, -, hgrow⟩ |
    ⟨hruns, it, rest, hq, hne, hre⟩
  · refine hx.congr hthin.com hcontents hthin.canonical
      (congrArg Header.number (hthin.base_header hl')) ?_
    rw [hkeys]
    by_cases hruns : RunsBaseUpdate s.chain e
    · cases hq : s.chain.baseQueue with
      | nil => exact txKeysAfter_of_empty hq
      | cons it rest => rw [txKeysAfter_of_runs hruns hq, if_pos (hsame hruns it rest hq)]
    · exact txKeysAfter_of_not_runs hruns
  · refine hx.congr hgrow.com hcontents hgrow.canonical
      (congrArg Header.number (hgrow.base_header hl hl')) ?_
    rw [hkeys, txKeysAfter_of_not_runs hno]
  · rw [txKeysAfter_of_runs hruns hq, if_neg hne] at hkeys
    have hit : InTree s.chain it := by
      apply (hi.queued it _).1
      rw [hq]
      exact List.mem_cons_self
    have hnum : s'.chain.number s'.chain.base = s.chain.number it :=
      congrArg Header.number (hre.base_header hl')
    have hle := hl.number_base_le hit
    have hold : ∀ {n}, n ≤ s.chain.number s.chain.base →
        (s.chain.writeCanonicalMappings it).canonical n = s.chain.canonical n :=
      writeCanonicalMappings_of_le hi hit
    constructor
    · rw [hre.com, hcontents, hre.canonical, hnum, hkeys]
      intro txHash key hkey
      by_cases hfresh : ∃ b i, Anc s.chain.parent it b ∧ b ≠ s.chain.base ∧
          Carries s.contents (s.chain.blocks b).header i txHash
      · obtain ⟨b, i, hanc, hnb, hcarries⟩ := hfresh
        have hbt := hl.inTree_anc hit hanc
        rw [writeTxKeys_of_carries hi hfirst hit (hrepeat it hit) hanc hnb hcarries] at hkey
        cases hkey
        refine ⟨hl.number_le hit hanc, (s.chain.blocks b).header, rfl, ?_, hcarries⟩
        rw [writeCanonicalMappings_spec hi hit hanc, hl.hash_eq hbt]
      · rw [writeTxKeys_of_not_carries hi hfirst hit fun b i hanc hnb hcarries =>
          hfresh ⟨b, i, hanc, hnb, hcarries⟩] at hkey
        obtain ⟨hn, hd, hhd, hc, hcarries⟩ := hx.sound txHash key hkey
        refine ⟨Nat.le_trans hn hle, hd, hhd, ?_, hcarries⟩
        rw [hold hn]
        exact hc
    · rw [hre.com, hcontents, hre.canonical, hnum, hkeys]
      intro hd i txHash hn hc hcarries
      by_cases hlow : hd.number ≤ s.chain.number s.chain.base
      · -- no block above the base carries the transaction a second time
        rw [hold hlow] at hc
        have hline : Lineage s.chain.com (s.chain.blocks it).header hd := by
          refine (hl.lineage hit (hl.anc_base hit)).trans ?_
          rcases Nat.lt_or_eq_of_le hlow with hlt | heq
          · obtain ⟨a, hash, -, hline⟩ := hcanonical hd.number hlt _ hc
            rw [← hinj hash]
            exact hline
          · rw [heq, show s.chain.canonical _ = _ from hi.saved, Option.some.injEq,
              hl.hash_eq hl.base_mem] at hc
            rw [hinj hc]
        rw [writeTxKeys_of_not_carries hi hfirst hit]
        · exact hx.complete hd i txHash hlow hc hcarries
        · intro b j hanc hnb hcarries'
          obtain ⟨heq, -⟩ := hrepeat it hit _ _ _ _ _ hline (hl.lineage hit hanc) hcarries hcarries'
          have hbt := hl.inTree_anc hit hanc
          apply hnb
          apply hl.eq_base_of_number hbt
          unfold ForkedChainRef.number at hlow ⊢
          rw [← heq]
          exact hlow
      · obtain ⟨b, hanc, hbn⟩ := hl.exists_anc_number hit (Nat.le_of_not_le hlow) hn
        have hbt := hl.inTree_anc hit hanc
        have hw := writeCanonicalMappings_spec hi hit hanc
        rw [hbn, hc, Option.some.injEq, hl.hash_eq hbt] at hw
        have heq := hinj hw
        subst heq
        have hnb : b ≠ s.chain.base := by
          intro h
          apply hlow
          rw [h]
          exact Nat.le_refl _
        exact writeTxKeys_of_carries hi hfirst hit (hrepeat it hit) hanc hnb hcarries

end

end Nimbus.Spec.ForkedChain
