import Nimbus.Spec.ChainDb
import Mathlib.Logic.Function.Iterate

/-!
# The payloads of a block in the store

`Held` says of one payload what a block that needs it has to know: it is there, and the
owner record, if there is one, names the block. `Stored` says it of all the payloads a
header asks for.
-/

namespace Nimbus.Spec.ForkedChain

open Nimbus.Native.ForkedChain
open ForkedChainRef (seqDel)
open Function

/-! ## One payload -/

/-- The payload is stored, and releasing any block but `hash` leaves it there. -/
def Held (hash : Hash32) (e : BodyEntry) : Prop :=
  e.stored = true ∧ (e.owners = [] ∨ hash ∈ e.owners)

section Entry

variable {hash other : Hash32} {e : BodyEntry}

theorem retain_cases (e : BodyEntry) (hash : Hash32) :
    (e.retain hash = e ∧ ((e.owners = [] ∧ e.stored = true) ∨ hash ∈ e.owners)) ∨
    (e.retain hash = { e with owners := e.owners ++ [hash] } ∧ hash ∉ e.owners ∧
      (e.owners = [] → e.stored = false)) := by
  unfold BodyEntry.retain
  by_cases hold : e.owners.length = 0 ∧ e.stored
  · rw [if_pos hold]
    exact .inl ⟨rfl, .inl ⟨List.length_eq_zero_iff.mp hold.1, hold.2⟩⟩
  · rw [if_neg hold]
    by_cases hmem : hash ∈ e.owners
    · rw [if_neg (not_not.mpr hmem)]
      exact .inl ⟨rfl, .inr hmem⟩
    · rw [if_pos hmem]
      refine .inr ⟨rfl, hmem, fun hnil => ?_⟩
      rw [hnil] at hold
      simpa using hold

theorem retain_retain : (e.retain hash).retain hash = e.retain hash := by
  rcases retain_cases (e.retain hash) hash with ⟨heq, -⟩ | ⟨-, hno, hempty⟩
  · exact heq
  · -- a registered block is not registered again
    exfalso
    rcases retain_cases e hash with ⟨heq, ⟨hnil, hs⟩ | hmem⟩ | ⟨heq, -, -⟩
    · rw [heq] at hempty
      rw [hempty hnil] at hs
      cases hs
    · rw [heq] at hno
      exact hno hmem
    · rw [heq] at hno
      exact hno (List.mem_append_right _ (List.mem_singleton_self hash))

theorem Held.retain (h : Held hash e) (other : Hash32) : Held hash (e.retain other) := by
  rcases retain_cases e other with ⟨heq, -⟩ | ⟨heq, -, hempty⟩
  · rw [heq]
    exact h
  · rw [heq]
    refine ⟨h.1, .inr ?_⟩
    rcases h.2 with hnil | hmem
    · have hs := h.1
      rw [hempty hnil] at hs
      cases hs
    · exact List.mem_append_left _ hmem

theorem Held.pin (h : Held hash e) : Held hash e.pin := ⟨h.1, .inl rfl⟩

theorem Held.write (h : Held hash e) : Held hash e.write := ⟨rfl, h.2⟩

theorem release_cases (e : BodyEntry) (hash : Hash32) :
    (hash ∉ e.owners ∧ e.release hash = e) ∨
    ∃ (i : Nat) (hi : i < e.owners.length), e.owners[i] = hash ∧
      ((seqDel e.owners i ≠ [] ∧ e.release hash = { e with owners := seqDel e.owners i }) ∨
        (seqDel e.owners i = [] ∧ e.release hash = { owners := [], stored := false })) := by
  unfold BodyEntry.release
  cases hidx : e.owners.idxOf? hash with
  | none => exact .inl ⟨List.idxOf?_eq_none_iff.mp hidx, rfl⟩
  | some i =>
    right
    rw [List.idxOf?, List.findIdx?_eq_some_iff_getElem] at hidx
    obtain ⟨hi, heq, -⟩ := hidx
    refine ⟨i, hi, by simpa using heq, ?_⟩
    by_cases hrest : seqDel e.owners i = []
    · right
      simp [hrest]
    · left
      have hpos : (seqDel e.owners i).length > 0 := List.length_pos_iff.mpr hrest
      exact ⟨hrest, if_pos hpos⟩

theorem mem_seqDel_of_ne {xs : List Nat} {i x : Nat} (hi : i < xs.length) (hne : x ≠ xs[i])
    (hx : x ∈ xs) : x ∈ seqDel xs i := by
  rw [(seqDel_perm hi).mem_iff, List.mem_eraseIdx_iff_getElem]
  obtain ⟨j, hj, heq⟩ := List.getElem_of_mem hx
  refine ⟨j, hj, fun hji => ?_, heq⟩
  subst hji
  exact hne heq.symm

theorem Held.release (h : Held hash e) (hne : hash ≠ other) : Held hash (e.release other) := by
  rcases release_cases e other with ⟨-, heq⟩ | ⟨i, hi, hother, hcase⟩
  · rw [heq]
    exact h
  · -- `other` is an owner, so `hash` is one too
    have hmem : hash ∈ e.owners := by
      rcases h.2 with hnil | hmem
      · rw [hnil] at hi
        exact absurd hi (Nat.not_lt_zero i)
      · exact hmem
    have hrest : hash ∈ seqDel e.owners i :=
      mem_seqDel_of_ne hi (by rw [hother]; exact hne) hmem
    rcases hcase with ⟨_, heq⟩ | ⟨hnil, _⟩
    · rw [heq]
      exact ⟨h.1, .inr hrest⟩
    · rw [hnil] at hrest
      cases hrest

theorem held_write_retain : Held hash (e.retain hash).write := by
  refine ⟨rfl, ?_⟩
  rcases retain_cases e hash with ⟨heq, ⟨hnil, -⟩ | hmem⟩ | ⟨heq, -, -⟩
  · rw [heq]
    exact .inl hnil
  · rw [heq]
    exact .inr hmem
  · rw [heq]
    exact .inr (List.mem_append_right _ (List.mem_singleton_self hash))

theorem mem_owners_release {h : Hash32} (hmem : h ∈ (e.release hash).owners) : h ∈ e.owners := by
  rcases release_cases e hash with ⟨-, heq⟩ | ⟨i, hi, -, ⟨_, heq⟩ | ⟨_, heq⟩⟩
  · rw [heq] at hmem
    exact hmem
  · rw [heq] at hmem
    exact List.mem_of_mem_eraseIdx ((seqDel_perm hi).mem_iff.mp hmem)
  · rw [heq] at hmem
    cases hmem

theorem nodup_release (hnd : e.owners.Nodup) (hash : Hash32) :
    (e.release hash).owners.Nodup ∧ hash ∉ (e.release hash).owners := by
  rcases release_cases e hash with ⟨hno, heq⟩ | ⟨i, hi, hother, ⟨_, heq⟩ | ⟨_, heq⟩⟩
  · rw [heq]
    exact ⟨hnd, hno⟩
  · rw [heq]
    refine ⟨((seqDel_perm hi).nodup_iff).mpr (hnd.eraseIdx i), ?_⟩
    rw [mem_seqDel_iff hnd hi]
    exact fun h => h.2 hother.symm
  · rw [heq]
    exact ⟨List.nodup_nil, List.not_mem_nil⟩

theorem release_of_not_mem (h : hash ∉ e.owners) : e.release hash = e := by
  rcases release_cases e hash with ⟨-, heq⟩ | ⟨i, hi, hother, -⟩
  · exact heq
  · rw [← hother] at h
    exact absurd (List.getElem_mem hi) h

theorem stored_release (hs : (e.release hash).stored = true)
    (hnil : (e.release hash).owners = []) : e.stored = true ∧ e.owners = [] := by
  rcases release_cases e hash with ⟨-, heq⟩ | ⟨i, hi, -, ⟨hne, heq⟩ | ⟨_, heq⟩⟩
  · rw [heq] at hs hnil
    exact ⟨hs, hnil⟩
  · rw [heq] at hnil
    exact absurd hnil hne
  · rw [heq] at hs
    cases hs

end Entry

/-! ## The payloads of a header -/

section Bodies

variable {db : BlockDb} {header : Header} {g : BodyEntry → BodyEntry} {key : BodyData}

theorem forBodies_at (g : BodyEntry → BodyEntry) (db : BlockDb) (header : Header) (key : BodyData) :
    (db.forBodies g header).bodies key = g^[(bodyData header).count key] (db.bodies key) := by
  unfold BlockDb.forBodies
  induction bodyData header generalizing db with
  | nil => rfl
  | cons k keys ih =>
    show (keys.foldl (fun db key => db.modifyBody g key) (db.modifyBody g k)).bodies key = _
    rw [ih]
    by_cases hk : k = key
    · subst hk
      rw [List.count_cons_self, iterate_succ_apply]
      simp only [BlockDb.modifyBody, update_self]
    · rw [List.count_cons_of_ne hk]
      simp only [BlockDb.modifyBody, update_of_ne (Ne.symm hk)]

theorem forBodies_of_not_mem (hk : key ∉ bodyData header) :
    (db.forBodies g header).bodies key = db.bodies key := by
  rw [forBodies_at, List.count_eq_zero_of_not_mem hk]
  rfl

/-- A header may ask for one payload twice, with the root of the transactions and that of
the receipts. -/
theorem forBodies_of_mem (hk : key ∈ bodyData header)
    (hg : g (g (db.bodies key)) = g (db.bodies key)) :
    (db.forBodies g header).bodies key = g (db.bodies key) := by
  rw [forBodies_at]
  obtain ⟨n, hn⟩ := Nat.exists_eq_succ_of_ne_zero (Nat.ne_of_gt (List.count_pos_iff.mpr hk))
  rw [hn]
  clear hn
  induction n with
  | zero => rfl
  | succ n ih =>
    rw [iterate_succ_apply', ih, hg]

theorem forBodies_induct {Q : BodyEntry → Prop} (hg : ∀ e, Q e → Q (g e))
    (h : Q (db.bodies key)) : Q ((db.forBodies g header).bodies key) := by
  rw [forBodies_at]
  exact Function.Iterate.rec Q h hg _

end Bodies

/-- The store holds every payload `header` asks for, for the block with this hash. -/
def Stored (db : BlockDb) (hash : Hash32) (header : Header) : Prop :=
  ∀ key ∈ bodyData header, Held hash (db.bodies key)

section Store

variable {db : BlockDb} {hash other : Hash32} {header header' : Header} {blk : Block}

theorem Stored.finalizeBlockData (h : Stored db hash header) :
    Stored (db.finalizeBlockData header') hash header := fun key hk =>
  forBodies_induct (fun _ => Held.pin) (h key hk)

theorem Stored.deleteBlockData (h : Stored db hash header) (hne : hash ≠ other) :
    Stored (db.deleteBlockData header' other) hash header := fun key hk =>
  forBodies_induct (fun _ he => he.release hne) (h key hk)

theorem persistHeader_bodies (db : BlockDb) (hash : Hash32) (header : Header) :
    (db.persistHeader hash header).1.bodies = db.bodies := by
  simp only [BlockDb.persistHeader]
  split
  · rfl
  · split
    · rfl
    · rfl

/-- What `storeBlock` does to the payloads: it registers the block, and unless the header
is refused it writes them. -/
theorem storeBlock_bodies (db : BlockDb) (blk : Block) (hash : Hash32) :
    ((db.storeBlock blk hash).2 = false →
      (db.storeBlock blk hash).1.bodies =
        (db.writeBlockOwnershipData blk.header hash).bodies) ∧
    ((db.storeBlock blk hash).2 = true → ∃ db' : BlockDb,
      db'.bodies = (db.writeBlockOwnershipData blk.header hash).bodies ∧
      (db.storeBlock blk hash).1 = db'.writeBaggage blk.header) := by
  unfold BlockDb.storeBlock
  simp only
  have hbodies := persistHeader_bodies (db.writeBlockOwnershipData blk.header hash) hash blk.header
  cases hrun : (db.writeBlockOwnershipData blk.header hash).persistHeader hash blk.header with
  | mk db' success =>
    rw [hrun] at hbodies
    cases success with
    | false => exact ⟨fun _ => hbodies, fun h => (nomatch h)⟩
    | true => exact ⟨fun h => (nomatch h), fun _ => ⟨db', hbodies, rfl⟩⟩

theorem Stored.storeBlock (h : Stored db hash header) :
    Stored (db.storeBlock blk other).1 hash header := by
  have hreg : Stored (db.writeBlockOwnershipData blk.header other) hash header := fun key hk =>
    forBodies_induct (fun _ he => he.retain other) (h key hk)
  obtain ⟨hfail, hok⟩ := storeBlock_bodies db blk other
  cases hres : (db.storeBlock blk other).2 with
  | false =>
    intro key hk
    rw [hfail hres]
    exact hreg key hk
  | true =>
    obtain ⟨db', hbodies, hwrite⟩ := hok hres
    intro key hk
    rw [hwrite]
    refine forBodies_induct (fun _ => Held.write) ?_
    rw [hbodies]
    exact hreg key hk

theorem stored_storeBlock (h : (db.storeBlock blk hash).2 = true) :
    Stored (db.storeBlock blk hash).1 hash blk.header := by
  obtain ⟨db', hbodies, hwrite⟩ := (storeBlock_bodies db blk hash).2 h
  intro key hk
  have hreg : (db.writeBlockOwnershipData blk.header hash).bodies key
      = (db.bodies key).retain hash := forBodies_of_mem hk retain_retain
  have hwritten : (db'.writeBaggage blk.header).bodies key = (db'.bodies key).write :=
    forBodies_of_mem hk rfl
  rw [hwrite, hwritten, hbodies, hreg]
  exact held_write_retain

end Store

end Nimbus.Spec.ForkedChain
