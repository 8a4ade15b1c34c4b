import Nimbus.Native.Aristo.Nearby
import Nimbus.Native.Aristo.TxFrame
import Nimbus.Spec.VertexBlob
import Mathlib.Data.List.Lex

/-!
# All leaves, from left to right

The vertices under a root are a tree: every child of a branch is there, every path to a leaf has
the same length, and none visits more vertices than a hike has legs. Then going right from leaf to
leaf yields each of them once, in the order of their paths, and ends.
-/

namespace Nimbus.Spec.Nearby

open Native Native.Aristo

def isLeaf : Vertex → Bool
  | .AccLeaf _ => true
  | .StoLeaf _ => true
  | _ => false

section
variable (db : AristoDb) (tx : AristoTxRef) (root : VertexID)

/-- A leaf that is reached from a vertex by the nibbles of a path. -/
inductive LeafAt : VertexID → NibblesBuf → Vertex → Prop
  | leaf {vid : VertexID} {vtx : Vertex} (hvid : vid ≠ 0)
      (hvtx : db.getVtx tx ⟨root, vid⟩ = some vtx) (hleaf : isLeaf vtx) : LeafAt vid vtx.pfx vtx
  | branch {vid : VertexID} {vtx leaf : Vertex} {path : NibblesBuf} (hvid : vid ≠ 0)
      (hvtx : db.getVtx tx ⟨root, vid⟩ = some vtx) (hbranch : vtx.isBranch) (i : Fin 16)
      (hchild : LeafAt (vtx.bVid i) path leaf) : LeafAt vid (vtx.pfx ++ i :: path) leaf

/-- A finite tree below a vertex, with `n` nibbles on each path and at most `legs` vertices. -/
inductive IsTrie : Nat → Nat → VertexID → Prop
  | leaf {n legs : Nat} {vid : VertexID} {vtx : Vertex} (hvid : vid ≠ 0)
      (hvtx : db.getVtx tx ⟨root, vid⟩ = some vtx) (hleaf : isLeaf vtx)
      (hn : vtx.pfx.length = n) : IsTrie n (legs + 1) vid
  | branch {n m legs : Nat} {vid : VertexID} {vtx : Vertex} (hvid : vid ≠ 0)
      (hvtx : db.getVtx tx ⟨root, vid⟩ = some vtx) (hbranch : vtx.isBranch)
      (hn : vtx.pfx.length + 1 + m = n)
      (hchild : ∀ i, vtx.bVid i ≠ 0 → IsTrie m legs (vtx.bVid i)) : IsTrie n (legs + 1) vid

variable {db tx root} {vid : VertexID} {path : NibblesBuf} {leaf : Vertex}

theorem LeafAt.vid_ne_zero (h : LeafAt db tx root vid path leaf) : vid ≠ 0 := by
  cases h with
  | leaf hvid => exact hvid
  | branch hvid => exact hvid

theorem leafAt_leaf_iff {vtx : Vertex} (hvid : vid ≠ 0)
    (hvtx : db.getVtx tx ⟨root, vid⟩ = some vtx) (hleaf : isLeaf vtx) :
    LeafAt db tx root vid path leaf ↔ path = vtx.pfx ∧ leaf = vtx := by
  constructor
  · intro h
    cases h with
    | leaf _ hvtx' _ =>
      obtain rfl := Option.some.inj (hvtx.symm.trans hvtx')
      exact ⟨rfl, rfl⟩
    | branch _ hvtx' hbranch =>
      obtain rfl := Option.some.inj (hvtx.symm.trans hvtx')
      cases vtx <;> first | exact Bool.noConfusion hleaf | exact Bool.noConfusion hbranch
  · rintro ⟨rfl, rfl⟩
    exact .leaf hvid hvtx hleaf

theorem leafAt_branch_iff {vtx : Vertex} (hvid : vid ≠ 0)
    (hvtx : db.getVtx tx ⟨root, vid⟩ = some vtx) (hbranch : vtx.isBranch) :
    LeafAt db tx root vid path leaf ↔
      ∃ i p, LeafAt db tx root (vtx.bVid i) p leaf ∧ path = vtx.pfx ++ i :: p := by
  constructor
  · intro h
    cases h with
    | leaf _ hvtx' hleaf =>
      obtain rfl := Option.some.inj (hvtx.symm.trans hvtx')
      cases vtx <;> first | exact Bool.noConfusion hleaf | exact Bool.noConfusion hbranch
    | branch _ hvtx' _ i hchild =>
      obtain rfl := Option.some.inj (hvtx.symm.trans hvtx')
      exact ⟨i, _, hchild, rfl⟩
  · rintro ⟨i, p, hchild, rfl⟩
    exact .branch hvid hvtx hbranch i hchild

/-- All paths to leaves have as many nibbles as the tree says. -/
theorem IsTrie.length_path {n legs : Nat} (h : IsTrie db tx root n legs vid)
    (hleaf : LeafAt db tx root vid path leaf) : path.length = n := by
  induction h generalizing path with
  | leaf hvid hvtx hisLeaf hn =>
    obtain ⟨rfl, -⟩ := (leafAt_leaf_iff hvid hvtx hisLeaf).mp hleaf
    exact hn
  | branch hvid hvtx hbranch hn _ ih =>
    obtain ⟨i, p, hchild, rfl⟩ := (leafAt_branch_iff hvid hvtx hbranch).mp hleaf
    have hp := ih i hchild.vid_ne_zero hchild
    rw [List.length_append, List.length_cons]
    omega

end

/-! ## Leaves in the order of their paths -/

/-- The order of paths by their first difference. -/
abbrev Before {α : Type} [LT α] (p q : List α) : Prop := List.Lex (· < ·) p q

section
variable (db : AristoDb) (tx : AristoTxRef) (root : VertexID)

/-- The leaves below a vertex, with their whole paths, from left to right. -/
structure Lists (vid : VertexID) (path : NibblesBuf) (leaves : List (NibblesBuf × Vertex)) :
    Prop where
  mem : ∀ q leaf, (q, leaf) ∈ leaves ↔ ∃ p, LeafAt db tx root vid p leaf ∧ q = path ++ p
  sorted : leaves.Pairwise fun x y => Before x.1 y.1

variable {db tx root} {vid : VertexID} {vtx : Vertex} {path : NibblesBuf}

theorem lists_zero : Lists db tx root 0 path [] where
  mem _ _ := ⟨fun h => absurd h List.not_mem_nil, fun ⟨_, h, _⟩ => absurd rfl h.vid_ne_zero⟩
  sorted := .nil

theorem lists_leaf (hvid : vid ≠ 0) (hvtx : db.getVtx tx ⟨root, vid⟩ = some vtx)
    (hleaf : isLeaf vtx) : Lists db tx root vid path [(path ++ vtx.pfx, vtx)] where
  mem q leaf := by
    rw [List.mem_singleton, Prod.mk.injEq]
    constructor
    · rintro ⟨rfl, rfl⟩
      exact ⟨_, .leaf hvid hvtx hleaf, rfl⟩
    · rintro ⟨p, hp, rfl⟩
      obtain ⟨rfl, rfl⟩ := (leafAt_leaf_iff hvid hvtx hleaf).mp hp
      exact ⟨rfl, rfl⟩
  sorted := List.pairwise_singleton _ _

/-- The leaves below a branch are those of its children, one child after the other. -/
theorem lists_branch (hvid : vid ≠ 0) (hvtx : db.getVtx tx ⟨root, vid⟩ = some vtx)
    (hbranch : vtx.isBranch) {leaves : Fin 16 → List (NibblesBuf × Vertex)}
    (hleaves : ∀ i, Lists db tx root (vtx.bVid i) (path ++ (vtx.pfx ++ [i])) (leaves i)) :
    Lists db tx root vid path ((List.finRange 16).flatMap leaves) where
  mem q leaf := by
    rw [List.mem_flatMap]
    constructor
    · rintro ⟨i, -, hmem⟩
      obtain ⟨p, hp, rfl⟩ := ((hleaves i).mem q leaf).mp hmem
      exact ⟨_, (leafAt_branch_iff hvid hvtx hbranch).mpr ⟨i, p, hp, rfl⟩, by simp⟩
    · rintro ⟨p, hp, rfl⟩
      obtain ⟨i, p, hchild, rfl⟩ := (leafAt_branch_iff hvid hvtx hbranch).mp hp
      exact ⟨i, List.mem_finRange i, ((hleaves i).mem _ leaf).mpr ⟨p, hchild, by simp⟩⟩
  sorted := by
    rw [List.pairwise_flatMap]
    refine ⟨fun i _ => (hleaves i).sorted, (List.pairwise_lt_finRange 16).imp fun hij => ?_⟩
    rintro x hx y hy
    obtain ⟨p, -, hp⟩ := ((hleaves _).mem x.1 x.2).mp hx
    obtain ⟨p', -, hp'⟩ := ((hleaves _).mem y.1 y.2).mp hy
    rw [hp, hp']
    simp only [List.append_assoc, List.singleton_append]
    exact List.Lex.append_left _ (List.Lex.append_left _ (.rel hij) vtx.pfx) path

end

/-! ## The next child -/

theorem nextChild_last {vtx : Vertex} : nextChild vtx 15 = none := rfl

/-- One nibble on, there is a child or the search goes on. -/
theorem nextChild_step (vtx : Vertex) (i : Fin 16) : nextChild vtx ((i : Nat) - 1 : Int) =
    if vtx.bVid i ≠ 0 then some (i, vtx.bVid i) else nextChild vtx (i : Nat) := by
  unfold nextChild
  have hlt : i.val < (List.finRange 16).length := by
    exact i.isLt
  rw [show ((i : Nat) - 1 + 1 : Int).toNat = i.val by omega,
    List.drop_eq_getElem_cons hlt]
  by_cases h : vtx.bVid i ≠ 0
  · simp [h]
  · simp [h]

/-! ## Legs on the way down -/

theorem legsTo_cons (leg : Leg) (legs : List Leg) :
    legsTo (leg :: legs) = legsTo legs ++ leg.nibbles := by
  unfold legsTo
  rw [List.reverse_cons, List.map_append, List.flatten_append, List.map_singleton,
    List.flatten_singleton]

theorem nibbles_leaf {leg : Leg} (h : isLeaf leg.vtx) : leg.nibbles = leg.vtx.pfx := by
  unfold Leg.nibbles
  cases hvtx : leg.vtx with
  | AccLeaf leaf => rfl
  | StoLeaf leaf => rfl
  | _ => rw [hvtx] at h; exact Bool.noConfusion h

theorem nibbles_branch {vid : VertexID} {vtx : Vertex} (h : vtx.isBranch) (i : Fin 16) :
    Leg.nibbles ⟨(i : Nat), vid, vtx⟩ = vtx.pfx ++ [i] := by
  have hi : Fin.ofNat 16 ((i : Nat) : Int).toNat = i := Fin.ext (Nat.mod_eq_of_lt i.isLt)
  cases vtx with
  | Branch startVid used => exact congrArg (fun j => [j]) hi
  | ExtBranch pfx startVid used => exact congrArg (fun j => pfx ++ [j]) hi
  | _ => exact Bool.noConfusion h

/-! ## What is yielded -/

section
variable [PathCode] (db : AristoDb) (tx : AristoTxRef) (root : VertexID)

/-- Going down from a vertex yields these pairs and ends, in any number of rounds that is large
enough. -/
def YieldsFrom (legs : List Leg) (next : VertexID) (pairs : List (Hash32 × Vertex)) : Prop :=
  ∃ enough, ∀ n ≥ enough, rightPairsLoop db tx root n legs next = .ok pairs

/-- Going up from the last leg yields these pairs and ends. -/
def Yields (legs : List Leg) (pairs : List (Hash32 × Vertex)) : Prop :=
  ∃ enough, ∀ n ≥ enough, (do
    let (pairs, legs, next) ← nextLeg legs
    return pairs ++ (← rightPairsLoop db tx root n legs next)) = .ok pairs

variable {db tx root} {legs : List Leg} {pairs : List (Hash32 × Vertex)}

theorem yields_nil : Yields db tx root [] [] := by
  refine ⟨1, fun n hn => ?_⟩
  obtain ⟨n, rfl⟩ := Nat.exists_eq_add_of_le' hn
  rfl

theorem yields_leaf {leg : Leg} (hleaf : isLeaf leg.vtx) (h : Yields db tx root legs pairs) :
    Yields db tx root (leg :: legs) ((getBytes (legsTo (leg :: legs)), leg.vtx) :: pairs) := by
  obtain ⟨enough, h⟩ := h
  refine ⟨enough, fun n hn => ?_⟩
  have hrest := h n hn
  have hstep : nextLeg (leg :: legs) = (do
      let found ← nextLeg legs
      return ((getBytes (legsTo (leg :: legs)), leg.vtx) :: found.1, found.2)) := by
    rw [nextLeg]
    cases hvtx : leg.vtx with
    | AccLeaf leaf => rfl
    | StoLeaf leaf => rfl
    | _ => rw [hvtx] at hleaf; exact Bool.noConfusion hleaf
  rw [hstep]
  cases hnext : nextLeg legs with
  | error stop => rw [hnext] at hrest; cases hrest
  | ok found =>
    obtain ⟨pairs', legs', next⟩ := found
    rw [hnext] at hrest
    change (do return pairs' ++ (← rightPairsLoop db tx root n legs' next)) = _ at hrest
    show (do return _ :: pairs' ++ (← rightPairsLoop db tx root n legs' next)) = _
    cases hloop : rightPairsLoop db tx root n legs' next with
    | error stop => rw [hloop] at hrest; cases hrest
    | ok rest =>
      rw [hloop] at hrest
      obtain rfl := Except.ok.inj hrest
      rfl

theorem yields_done {leg : Leg} (hbranch : leg.vtx.isBranch)
    (hnext : nextChild leg.vtx leg.nibble = none) (h : Yields db tx root legs pairs) :
    Yields db tx root (leg :: legs) pairs := by
  have hstep : nextLeg (leg :: legs) = nextLeg legs := by
    rw [nextLeg]
    cases hvtx : leg.vtx with
    | Branch startVid used => rw [hvtx] at hnext; simp only [hnext]
    | ExtBranch pfx startVid used => rw [hvtx] at hnext; simp only [hnext]
    | _ => rw [hvtx] at hbranch; exact Bool.noConfusion hbranch
  unfold Yields
  rw [hstep]
  exact h

theorem yields_child {leg : Leg} (hbranch : leg.vtx.isBranch) {i : Fin 16} {b : VertexID}
    (hnext : nextChild leg.vtx leg.nibble = some (i, b))
    (h : YieldsFrom db tx root ({ leg with nibble := (i : Nat) } :: legs) b pairs) :
    Yields db tx root (leg :: legs) pairs := by
  have hstep : nextLeg (leg :: legs) = .ok ([], { leg with nibble := (i : Nat) } :: legs, b) := by
    rw [nextLeg]
    cases hvtx : leg.vtx with
    | Branch startVid used => rw [hvtx] at hnext; simp only [hnext]
    | ExtBranch pfx startVid used => rw [hvtx] at hnext; simp only [hnext]
    | _ => rw [hvtx] at hbranch; exact Bool.noConfusion hbranch
  obtain ⟨enough, h⟩ := h
  refine ⟨enough, fun n hn => ?_⟩
  rw [hstep]
  show (do return [] ++ (← rightPairsLoop db tx root n _ b)) = _
  rw [h n hn]
  rfl

theorem yieldsFrom {vid : VertexID} {vtx : Vertex} (hvid : vid ≠ 0)
    (hvtx : db.getVtx tx ⟨root, vid⟩ = some vtx) (hlegs : legs.length < high + 1)
    (h : Yields db tx root ({ vid, vtx } :: legs) pairs) :
    YieldsFrom db tx root legs vid pairs := by
  obtain ⟨enough, h⟩ := h
  refine ⟨enough + 1, fun n hn => ?_⟩
  obtain ⟨n, rfl⟩ : ∃ m, n = m + 1 := ⟨n - 1, by omega⟩
  rw [rightPairsLoop, if_neg hvid, hvtx]
  dsimp only
  rw [if_pos hlegs]
  exact h n (by omega)

/-- Of the nibble of a branch only the next child matters. -/
theorem yields_skip {vid : VertexID} {vtx : Vertex} (hbranch : vtx.isBranch) {nibble nibble' : Int}
    (hnext : nextChild vtx nibble = nextChild vtx nibble')
    (h : Yields db tx root (⟨nibble', vid, vtx⟩ :: legs) pairs) :
    Yields db tx root (⟨nibble, vid, vtx⟩ :: legs) pairs := by
  have hstep : nextLeg (⟨nibble, vid, vtx⟩ :: legs) = nextLeg (⟨nibble', vid, vtx⟩ :: legs) := by
    rw [nextLeg, nextLeg]
    cases vtx with
    | Branch startVid used => simp only [hnext]
    | ExtBranch pfx startVid used => simp only [hnext]
    | _ => exact Bool.noConfusion hbranch
  unfold Yields
  rw [hstep]
  exact h

/-- Leaves as they are yielded. -/
def packed (leaves : List (NibblesBuf × Vertex)) : List (Hash32 × Vertex) :=
  leaves.map fun x => (getBytes x.1, x.2)

/-- A branch yields what its children from some nibble on yield, and is left. -/
theorem yields_children {vid : VertexID} {vtx : Vertex} (hbranch : vtx.isBranch)
    {leaves : Fin 16 → List (NibblesBuf × Vertex)} (hzero : ∀ i, vtx.bVid i = 0 → leaves i = [])
    (hchild : ∀ i, vtx.bVid i ≠ 0 → ∀ pairs,
      Yields db tx root (⟨(i : Nat), vid, vtx⟩ :: legs) pairs → YieldsFrom db tx root (⟨(i : Nat), vid, vtx⟩ :: legs) (vtx.bVid i)
        (packed (leaves i) ++ pairs))
    (h : Yields db tx root legs pairs) {m k : Nat} (hk : k + m = 16) :
    Yields db tx root (⟨(k : Int) - 1, vid, vtx⟩ :: legs)
      (packed (((List.finRange 16).drop k).flatMap leaves) ++ pairs) := by
  -- Induction on how many nibbles are left, from the last one of them down.
  induction m generalizing k with
  | zero =>
    obtain rfl : k = 16 := hk
    exact yields_done hbranch nextChild_last h
  | succ m ih =>
    have hlt : k < (List.finRange 16).length := by
      rw [List.length_finRange]
      omega
    have hrest := @ih (k + 1) (by omega)
    rw [show ((k + 1 : Nat) : Int) - 1 = (k : Nat) by omega] at hrest
    rw [List.drop_eq_getElem_cons hlt, List.getElem_finRange, List.flatMap_cons]
    generalize hi : Fin.cast (List.length_finRange) ⟨k, hlt⟩ = i
    have hval : i.val = k := by rw [← hi]; rfl
    have hstep := nextChild_step vtx i
    rw [hval] at hstep
    by_cases hvid : vtx.bVid i = 0
    · rw [if_neg (not_not_intro hvid)] at hstep
      rw [hzero i hvid]
      exact yields_skip hbranch hstep hrest
    · rw [if_pos hvid] at hstep
      rw [packed, List.map_append, List.append_assoc]
      refine yields_child hbranch hstep ?_
      have hyields := hchild i hvid
      rw [hval] at hyields ⊢
      exact hyields _ hrest

/-- Wherever the hike stands: below a vertex its leaves are yielded, and then what is yielded
without them. -/
theorem visit {n l : Nat} {vid : VertexID} (h : IsTrie db tx root n l vid) (path : NibblesBuf) :
    ∃ leaves, Lists db tx root vid path leaves ∧ ∀ legs pairs, legsTo legs = path →
      legs.length + l ≤ high + 1 → Yields db tx root legs pairs →
        YieldsFrom db tx root legs vid (packed leaves ++ pairs) := by
  induction h generalizing path with
  | @leaf n l vid vtx hvid hvtx hleaf hn =>
    refine ⟨_, lists_leaf hvid hvtx hleaf, fun legs pairs hpath hroom hrest => ?_⟩
    refine yieldsFrom hvid hvtx (by omega) ?_
    have hyields := @yields_leaf _ _ _ _ _ _ { vid, vtx } hleaf hrest
    rw [legsTo_cons, hpath, nibbles_leaf hleaf] at hyields
    exact hyields
  | @branch n m l vid vtx hvid hvtx hbranch hn hchild ih =>
    have hex (i : Fin 16) : ∃ leaves,
        Lists db tx root (vtx.bVid i) (path ++ (vtx.pfx ++ [i])) leaves ∧
          (vtx.bVid i = 0 → leaves = []) ∧ (vtx.bVid i ≠ 0 → ∀ legs pairs,
            legsTo legs = path ++ (vtx.pfx ++ [i]) → legs.length + l ≤ high + 1 →
              Yields db tx root legs pairs →
                YieldsFrom db tx root legs (vtx.bVid i) (packed leaves ++ pairs)) := by
      by_cases hzero : vtx.bVid i = 0
      · refine ⟨[], ?_, fun _ => rfl, fun hne => absurd hzero hne⟩
        rw [hzero]
        exact lists_zero
      · obtain ⟨leaves, hlists, hyields⟩ := ih i hzero (path ++ (vtx.pfx ++ [i]))
        exact ⟨leaves, hlists, fun h => absurd h hzero, fun _ => hyields⟩
    choose leaves hlists hzero hyields using hex
    refine ⟨_, lists_branch hvid hvtx hbranch hlists, fun legs pairs hpath hroom hrest => ?_⟩
    refine yieldsFrom hvid hvtx (by omega) ?_
    refine @yields_children _ _ _ _ legs pairs vid vtx hbranch leaves hzero
      (fun i hne pairs' hrest' => ?_) hrest 16 0 rfl
    refine hyields i hne _ _ ?_ ?_ hrest'
    · rw [legsTo_cons, hpath, nibbles_branch hbranch]
    · rw [List.length_cons]
      omega

/-- What the code relies on of packed paths: they keep their order. -/
def PacksInOrder : Prop :=
  ∀ p q : NibblesBuf, p.length = 64 → q.length = 64 → Before p q →
    Before (getBytes p).toList (getBytes q).toList

/-- For a trie, and where there is no vertex at the root: the iteration ends, the paths that it
yields increase strictly, and the pairs are all the leaves with their paths. -/
theorem rightPairs_spec (horder : PacksInOrder)
    (htrie : db.getVtx tx ⟨root, root⟩ = none ∨ IsTrie db tx root 64 (high + 1) root) :
    ∃ pairs, (∃ enough, ∀ n ≥ enough, rightPairs db tx root n = .ok pairs) ∧
      (pairs.Pairwise fun x y => Before x.1.toList y.1.toList) ∧
      ∀ path leaf, (path, leaf) ∈ pairs ↔
        ∃ p, LeafAt db tx root root p leaf ∧ path = getBytes p := by
  rcases htrie with hnone | htrie
  · refine ⟨[], ⟨1, fun n hn => ?_⟩, .nil, fun path leaf => ?_⟩
    · obtain ⟨n, rfl⟩ : ∃ m, n = m + 1 := ⟨n - 1, by omega⟩
      rw [rightPairs, rightPairsLoop, hnone]
      split <;> rfl
    · refine iff_of_false List.not_mem_nil ?_
      rintro ⟨p, hp, -⟩
      cases hp with
      | leaf _ hvtx => exact nomatch hnone.symm.trans hvtx
      | branch _ hvtx => exact nomatch hnone.symm.trans hvtx
  · obtain ⟨leaves, hlists, hyields⟩ := visit htrie []
    obtain ⟨enough, hrun⟩ := hyields [] [] rfl (by rw [List.length_nil]; omega) yields_nil
    rw [List.append_nil] at hrun
    refine ⟨packed leaves, ⟨enough, hrun⟩, ?_, fun path leaf => ?_⟩
    · have hlength {q : NibblesBuf} {leaf : Vertex} (h : (q, leaf) ∈ leaves) : q.length = 64 := by
        obtain ⟨p, hp, rfl⟩ := (hlists.mem q leaf).mp h
        exact htrie.length_path hp
      rw [packed, List.pairwise_map]
      refine List.Pairwise.imp_of_mem (fun hx hy hbefore => ?_) hlists.sorted
      exact horder _ _ (hlength hx) (hlength hy) hbefore
    · rw [packed, List.mem_map]
      constructor
      · rintro ⟨⟨q, leaf⟩, hmem, heq⟩
        cases heq
        obtain ⟨p, hp, heq⟩ := (hlists.mem q leaf).mp hmem
        exact ⟨p, hp, congrArg getBytes heq⟩
      · rintro ⟨p, hp, rfl⟩
        exact ⟨(p, leaf), (hlists.mem p leaf).mpr ⟨p, hp, rfl⟩, rfl⟩

end

/-! ## Two nibbles to a byte -/

theorem packNibbles_before {p q : NibblesBuf} (hlen : p.length = q.length)
    (heven : p.length % 2 = 0) (h : Before p q) :
    Before (Blobify.packNibbles p) (Blobify.packNibbles q) := by
  have hbyte (a b : Fin 16) : (UInt8.ofNat (16 * a.val + b.val)).toNat = 16 * a.val + b.val :=
    UInt8.toNat_ofNat_of_lt' (by have hsize : UInt8.size = 256 := rfl; omega)
  induction p using Blobify.packNibbles.induct generalizing q with
  | case1 =>
    obtain rfl := List.length_eq_zero_iff.mp hlen.symm
    cases h
  | case2 a =>
    rw [List.length_singleton] at heven
    omega
  | case3 a b p ih =>
    obtain - | ⟨c, - | ⟨d, q⟩⟩ := q
    · cases hlen
    · cases hlen
    · have hlt {a b c d : Fin 16} (h : 16 * a.val + b.val < 16 * c.val + d.val) :
          UInt8.ofNat (16 * a.val + b.val) < UInt8.ofNat (16 * c.val + d.val) := by
        rw [UInt8.lt_iff_toNat_lt, hbyte, hbyte]
        exact h
      simp only [List.length_cons] at hlen heven
      cases h with
      | rel hac => exact .rel (hlt (by have hval : a.val < c.val := hac; omega))
      | cons hrest =>
        cases hrest with
        | rel hbd => exact .rel (hlt (by have hval : b.val < d.val := hbd; omega))
        | cons hpq => exact .cons (ih (by omega) (by omega) hpq)

@[reducible] def pathCode : PathCode where
  getBytes p := Vector.ofFn fun i => (Blobify.packNibbles p).getD i 0
  high := 63

theorem pathCode_packs : @PacksInOrder pathCode := by
  intro p q hp hq hbefore
  have hbytes {p : NibblesBuf} (hp : p.length = 64) :
      (pathCode.getBytes p).toList = Blobify.packNibbles p := by
    have hlen : (Blobify.packNibbles p).length = 32 := by rw [Blobify.packNibbles_length, hp]
    show (Vector.ofFn fun i : Fin 32 => (Blobify.packNibbles p).getD i 0).toList = _
    apply List.ext_getElem
    · rw [Vector.length_toList, hlen]
    · intro i hi hi'
      simp [List.getD_eq_getElem?_getD, hi']
  rw [hbytes hp, hbytes hq]
  exact packNibbles_before (hp.trans hq.symm) (by rw [hp]) hbefore

/-! ## A trie of two leaves -/

/-- A branch at the root, with a leaf at nibble 0 and one at nibble 1. -/
def twoLeavesTab (rvid : RootedVertexID) : Option VtxBlob :=
  if rvid = ⟨1, 1⟩ then some (.branch none 2 0b11 [])
  else if rvid = ⟨1, 2⟩ then some (.leafSto (List.replicate 63 0) 7)
  else if rvid = ⟨1, 3⟩ then some (.leafSto (List.replicate 63 5) 9)
  else none

def twoLeaves : AristoDb := AristoDb.init twoLeavesTab none ⟨1, by decide⟩

theorem twoLeaves_isTrie : IsTrie twoLeaves 0 1 64 64 1 := by
  have hbVid : ∀ i : Fin 16, Vertex.bVid i (.Branch 2 0b11) ≠ 0 →
      Vertex.bVid i (.Branch 2 0b11) = 2 ∨ Vertex.bVid i (.Branch 2 0b11) = 3 := by decide
  refine @IsTrie.branch _ _ _ 64 63 63 1 (.Branch 2 0b11) (by decide) rfl rfl rfl fun i hi => ?_
  rcases hbVid i hi with h | h
  · rw [h]
    exact @IsTrie.leaf _ _ _ 63 62 2 (.StoLeaf ⟨List.replicate 63 0, 7⟩) (by decide) rfl rfl rfl
  · rw [h]
    exact @IsTrie.leaf _ _ _ 63 62 3 (.StoLeaf ⟨List.replicate 63 5, 9⟩) (by decide) rfl rfl rfl

theorem twoLeaves_rightPairs :
    ∃ pairs, (∃ enough, ∀ n ≥ enough, @rightPairs pathCode twoLeaves 0 1 n = .ok pairs) ∧
      (pairs.Pairwise fun x y => Before x.1.toList y.1.toList) ∧
      ∀ path leaf, (path, leaf) ∈ pairs ↔
        ∃ p, LeafAt twoLeaves 0 1 1 p leaf ∧ path = pathCode.getBytes p :=
  @rightPairs_spec pathCode twoLeaves 0 1 pathCode_packs (.inr twoLeaves_isTrie)

/-- The path of the second leaf. -/
def secondPath : Hash32 := pathCode.getBytes (1 :: List.replicate 63 5)

/-- There is no way to start at the second leaf: the first one, which is below it, is yielded
too. -/
theorem twoLeaves_ignoresStart : ∃ path leaf, Before path.toList secondPath.toList ∧
      ∀ n ≥ 4, ∃ pairs, @rightPairs pathCode twoLeaves 0 1 n = .ok pairs ∧
        (path, leaf) ∈ pairs := by
  refine ⟨pathCode.getBytes (List.replicate 64 0), .StoLeaf ⟨List.replicate 63 0, 7⟩,
    .rel (by decide), fun n hn => ?_⟩
  obtain ⟨n, rfl⟩ := Nat.exists_eq_add_of_le' hn
  exact ⟨_, rfl, List.mem_cons_self⟩

end Nimbus.Spec.Nearby
