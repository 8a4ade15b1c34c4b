import Nimbus.Spec.BlobBytes

/-!
# Keys of vertices in the database

The key of a vertex begins with its root, which is written behind its own length, and ends with
the vertex where that is not the root. So a key is read back, and the key of a root is a prefix of
the keys of its vertices and of no other key: deleting all keys with that prefix deletes the
vertices of the root and nothing else.
-/

namespace Nimbus.Spec.RootedKeys

open Native.Aristo Blobify BigEndian

variable {root vid root' vid' : Nat}

/-- The part of a key that its root determines. -/
def rootBytes (root : Nat) : List UInt8 :=
  UInt8.ofNat (blobifyNumber 8 root).length :: blobifyNumber 8 root

/-- The part of a key that is left out for the root itself. -/
def vidBytes (root vid : Nat) : List UInt8 := if root = vid then [] else blobifyNumber 8 vid

theorem blobify_eq (root vid : Nat) :
    RootedVertexID.blobify ⟨root, vid⟩ = rootBytes root ++ vidBytes root vid := by
  unfold RootedVertexID.blobify vidBytes
  split
  · rw [List.append_nil]
    rfl
  · rfl

theorem length_toNat (v : Nat) :
    (UInt8.ofNat (blobifyNumber 8 v).length).toNat = (blobifyNumber 8 v).length := by
  have hle : (blobifyNumber 8 v).length ≤ 8 := blobifyNumber_length_le
  have hsize : UInt8.size = 256 := rfl
  exact UInt8.toNat_ofNat_of_lt' (by omega)

theorem slice_self (bytes : List UInt8) : SliceAt bytes 0 bytes := ⟨[], [], by simp, rfl⟩

theorem deblobify_blobify (hroot : root < 2 ^ 64) (hvid : vid < 2 ^ 64) :
    RootedVertexID.deblobify (RootedVertexID.blobify ⟨root, vid⟩) = .ok ⟨root, vid⟩ := by
  have hpos : 0 < (blobifyNumber 8 root).length := blobifyNumber_length_pos (by decide)
  rw [blobify_eq]
  generalize hdata : rootBytes root ++ vidBytes root vid = data
  have hslice : SliceAt data 0 (rootBytes root ++ vidBytes root vid) := by
    rw [hdata]
    exact slice_self data
  have hlen : data.length = (blobifyNumber 8 root).length + 1 + (vidBytes root vid).length := by
    rw [← hdata, List.length_append]
    rfl
  have hcons : SliceAt data 0
      ([UInt8.ofNat (blobifyNumber 8 root).length] ++ blobifyNumber 8 root) := hslice.left
  have hfirst : SliceAt data 0 [UInt8.ofNat (blobifyNumber 8 root).length] := hcons.left
  have hrootSlice : SliceAt data 1 (blobifyNumber 8 root) := hcons.right
  have hvidSlice : SliceAt data ((blobifyNumber 8 root).length + 1) (vidBytes root vid) := by
    have h := hslice.right
    rwa [Nat.zero_add] at h
  have hopen : toOpenArray data 1 (blobifyNumber 8 root).length = .ok (blobifyNumber 8 root) :=
    toOpenArray_slice hrootSlice rfl (by push_cast; omega)
  unfold RootedVertexID.deblobify
  rw [byteAt_slice (i := 0) hfirst rfl, except_ok_bind, length_toNat, if_neg (by omega),
    if_neg (by omega), hopen, except_ok_bind, deblobify64_number hroot, except_ok_bind]
  by_cases heq : root = vid
  · have hnil : (vidBytes root vid).length = 0 := by rw [vidBytes, if_pos heq, List.length_nil]
    rw [if_neg (by omega), ← heq]
    rfl
  · have hvidPos : 0 < (blobifyNumber 8 vid).length := blobifyNumber_length_pos (by decide)
    rw [vidBytes, if_neg heq] at hvidSlice hlen
    rw [if_pos (by omega), toOpenArray_slice hvidSlice (by push_cast; rfl) (by omega),
      except_ok_bind, deblobify64_number hvid]
    rfl

/-- The key of a root begins the keys of its own vertices and no other ones. -/
theorem root_isPrefix_iff (hroot : root < 2 ^ 64) (hroot' : root' < 2 ^ 64) :
    RootedVertexID.blobify ⟨root, root⟩ <+: RootedVertexID.blobify ⟨root', vid'⟩ ↔
      root' = root := by
  have hself : RootedVertexID.blobify ⟨root, root⟩ = rootBytes root := by
    rw [blobify_eq, vidBytes, if_pos rfl, List.append_nil]
  rw [hself, blobify_eq]
  constructor
  · intro h
    obtain ⟨hhead, htail⟩ := List.cons_prefix_cons.mp h
    have hlen : (blobifyNumber 8 root).length = (blobifyNumber 8 root').length := by
      rw [← length_toNat, hhead, length_toNat]
    obtain ⟨rest, hrest⟩ := htail
    have hbytes : blobifyNumber 8 root = blobifyNumber 8 root' := List.append_inj_left hrest hlen
    rw [← @ofBytes_blobifyNumber 8 root (by omega), hbytes, ofBytes_blobifyNumber (by omega)]
  · rintro rfl
    exact List.prefix_append _ _

/-- The key of a vertex under its root. -/
def keyOf (root vid : UInt64) : List UInt8 := RootedVertexID.blobify ⟨root.toNat, vid.toNat⟩

/-- For all roots and vertices: a key is read back; two keys are the same for the same root and
vertex only; and the key of a root is a prefix of a key just if the key has that root. -/
theorem rootedKeys_exact (root vid root' vid' : UInt64) :
    RootedVertexID.deblobify (keyOf root vid) = .ok ⟨root.toNat, vid.toNat⟩ ∧
      (keyOf root vid = keyOf root' vid' → root = root' ∧ vid = vid') ∧
      (keyOf root root <+: keyOf root' vid' ↔ root' = root) := by
  have hread (r v : UInt64) : RootedVertexID.deblobify (keyOf r v) = .ok ⟨r.toNat, v.toNat⟩ :=
    deblobify_blobify r.toNat_lt v.toNat_lt
  refine ⟨hread root vid, fun h => ?_, ?_⟩
  · have heq := hread root vid
    rw [h, hread root' vid'] at heq
    have hids := RootedVertexID.mk.inj (Except.ok.inj heq)
    exact ⟨(UInt64.toNat_inj.mp hids.1).symm, (UInt64.toNat_inj.mp hids.2).symm⟩
  · exact (root_isPrefix_iff root.toNat_lt root'.toNat_lt).trans UInt64.toNat_inj

end Nimbus.Spec.RootedKeys
