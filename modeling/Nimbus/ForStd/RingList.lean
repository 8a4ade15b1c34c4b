import Mathlib.Data.List.Chain
import Mathlib.Data.List.Nodup

/-!
# Doubly linked rings

Elements that are linked in both directions from a root and back to it. Every change is made of
connections of two elements, each of which overwrites one link in either direction.
-/

namespace Nimbus

open Function

/-- The links of elements, forwards and backwards. -/
structure Links (α : Type) where
  next : α → α
  prev : α → α

namespace Links

variable {α : Type}

/-- Linked in both directions. -/
def Joined (r : Links α) (a b : α) : Prop := r.next a = b ∧ r.prev b = a

/-- From the root through a list of different elements and back to the root. -/
structure Ring (r : Links α) (root : α) (items : List α) : Prop where
  chain : (root :: (items ++ [root])).IsChain r.Joined
  nodup : (root :: items).Nodup

variable [DecidableEq α]

/-- Links one element to another, in both directions. -/
def connect (r : Links α) (a b : α) : Links α :=
  ⟨update r.next a b, update r.prev b a⟩

/-- Takes an element out and puts it in behind the root. -/
def moveToFront (r : Links α) (root i : α) : Links α :=
  if r.next root = i then r
  else ((r.connect (r.prev i) (r.next i)).connect i (r.next root)).connect root i

/-- Takes an element out and puts it in before the root. -/
def moveToBack (r : Links α) (root i : α) : Links α :=
  if r.prev root = i then r
  else ((r.connect (r.prev i) (r.next i)).connect (r.prev root) i).connect i root

variable {r : Links α} {root i a b : α} {items pre post : List α}

theorem joined_connect : (r.connect a b).Joined a b :=
  ⟨update_self .., update_self ..⟩

/-- Other links stay. -/
theorem Joined.connect {x y : α} (h : r.Joined x y) (hx : x ≠ a) (hy : y ≠ b) :
    (r.connect a b).Joined x y :=
  ⟨(update_of_ne hx ..).trans h.1, (update_of_ne hy ..).trans h.2⟩

/-- A chain that is not left at one element nor entered at the other one stays. -/
theorem chain_connect {l : List α} (h : l.IsChain r.Joined) (ha : a ∉ l.dropLast)
    (hb : b ∉ l.tail) : l.IsChain (r.connect a b).Joined := by
  induction l with
  | nil => exact .nil
  | cons x l ih =>
    cases l with
    | nil => exact .singleton x
    | cons y l =>
      rw [List.isChain_cons_cons] at h ⊢
      rw [List.dropLast_cons_of_ne_nil (List.cons_ne_nil y l), List.mem_cons, not_or] at ha
      rw [List.tail_cons, List.mem_cons, not_or] at hb
      exact ⟨h.1.connect (Ne.symm ha.1) (Ne.symm hb.1), ih h.2 ha.2 hb.2⟩

/-- Two chains become one by connecting the end of the first and the start of the second one. -/
theorem chain_join (pre : List α) (hpre : (pre ++ [a]).IsChain r.Joined) (hpost : (b :: post).IsChain r.Joined)
    (ha : a ∉ pre) (hb : b ∉ post) (ha' : a ∉ (b :: post).dropLast) (hb' : b ∉ (pre ++ [a]).tail) :
    (pre ++ a :: b :: post).IsChain (r.connect a b).Joined := by
  refine List.isChain_append_cons_cons.mpr ⟨chain_connect hpre ?_ hb', joined_connect, ?_⟩
  · rwa [List.dropLast_concat]
  · exact chain_connect hpost ha' hb

/-- What is taken out leaves a chain behind. -/
theorem Ring.unlink (h : r.Ring root (pre ++ i :: post)) :
    (root :: (pre ++ post ++ [root])).IsChain (r.connect (r.prev i) (r.next i)).Joined := by
  obtain ⟨hchain, hnodup⟩ := h
  have hroot : root ∉ pre ∧ root ∉ post := by
    have := (List.nodup_cons.mp hnodup).1
    simp only [List.mem_append, List.mem_cons, not_or] at this
    exact ⟨this.1, this.2.2⟩
  -- what is before the element ends in one that is linked to it
  obtain ⟨p, before, hp, hpbefore, hppost⟩ :
      ∃ p before, root :: pre = before ++ [p] ∧ p ∉ before ∧ p ∉ post := by
    rcases List.eq_nil_or_concat pre with rfl | ⟨before, p, rfl⟩
    · exact ⟨root, [], rfl, List.not_mem_nil, hroot.2⟩
    · refine ⟨p, root :: before, by simp, ?_, ?_⟩
      all_goals
        intro hmem
        grind
  -- and what is behind it starts with one that is linked to it
  obtain ⟨q, after, hq, hqafter, hqpre⟩ :
      ∃ q after, post ++ [root] = q :: after ∧ q ∉ after ∧ q ∉ pre := by
    cases post with
    | nil => exact ⟨root, [], rfl, List.not_mem_nil, hroot.1⟩
    | cons q post =>
      refine ⟨q, post ++ [root], rfl, ?_, ?_⟩
      all_goals
        intro hmem
        grind
  have hall : root :: (pre ++ i :: post ++ [root]) = before ++ p :: i :: q :: after := by
    calc root :: (pre ++ i :: post ++ [root])
        = (root :: pre) ++ i :: (post ++ [root]) := by simp
      _ = before ++ p :: i :: q :: after := by rw [hp, hq]; simp
  have hleft : root :: (pre ++ post ++ [root]) = before ++ p :: q :: after := by
    calc root :: (pre ++ post ++ [root])
        = (root :: pre) ++ (post ++ [root]) := by simp
      _ = before ++ p :: q :: after := by rw [hp, hq]; simp
  rw [hall, List.isChain_append_cons_cons] at hchain
  obtain ⟨hbefore, hpi, hrest⟩ := hchain
  rw [List.isChain_cons_cons] at hrest
  obtain ⟨hiq, hafter⟩ := hrest
  rw [hleft, hpi.2, hiq.1]
  refine chain_join _ hbefore hafter hpbefore hqafter ?_ ?_
  · rwa [← hq, List.dropLast_concat]
  · rwa [← hp]

/-- A chain from the root goes on from an element that is put in behind the root. -/
theorem chain_insert (h : (root :: items).IsChain r.Joined) (hi : i ∉ root :: items)
    (hnodup : (root :: items.dropLast).Nodup) {first : α} {rest : List α}
    (hitems : items = first :: rest) (hfirst : first ∉ rest) :
    (root :: i :: items).IsChain ((r.connect i first).connect root i).Joined := by
  subst hitems
  rw [List.isChain_cons_cons] at h
  have hchain : (i :: first :: rest).IsChain (r.connect i first).Joined := by
    refine chain_join [] (.singleton i) h.2 List.not_mem_nil hfirst ?_ List.not_mem_nil
    exact fun hmem => hi (.tail _ (List.dropLast_subset _ hmem))
  refine chain_join [] (.singleton root) hchain List.not_mem_nil ?_ ?_ List.not_mem_nil
  · exact fun hmem => hi (.tail _ hmem)
  · rw [List.dropLast_cons_of_ne_nil (List.cons_ne_nil first rest), List.mem_cons, not_or]
    exact ⟨fun h => hi (h ▸ .head _), (List.nodup_cons.mp hnodup).1⟩

theorem Ring.moveToFront (h : r.Ring root (pre ++ i :: post)) :
    (r.moveToFront root i).Ring root (i :: (pre ++ post)) := by
  have hnodup : (root :: i :: (pre ++ post)).Nodup :=
    (List.perm_middle.cons root).nodup_iff.mp h.nodup
  unfold Links.moveToFront
  split
  · rename_i hfirst
    refine ⟨?_, hnodup⟩
    cases pre with
    | nil => exact h.chain
    | cons f pre =>
      have hf : r.next root = f := (List.isChain_cons_cons.mp h.chain).1.1
      rw [hfirst.symm.trans hf] at hnodup
      simp at hnodup
  · rename_i hfirst
    cases pre with
    | nil => exact absurd (List.isChain_cons_cons.mp h.chain).1.1 hfirst
    | cons f pre =>
      have hf : r.next root = f := (List.isChain_cons_cons.mp h.chain).1.1
      obtain ⟨hroot, hi, hf', -⟩ : root ∉ i :: (f :: pre ++ post) ∧ i ∉ f :: pre ++ post ∧
          f ∉ pre ++ post ∧ (pre ++ post).Nodup := by
        simpa only [List.cons_append, List.nodup_cons] using hnodup
      rw [hf]
      refine ⟨chain_insert h.unlink ?_ ?_ rfl ?_, hnodup⟩
      · intro hmem
        rcases List.mem_cons.mp hmem with rfl | hmem
        · exact hroot (.head _)
        · rcases List.mem_append.mp hmem with hmem | hmem
          · exact hi hmem
          · exact hroot (List.mem_singleton.mp hmem ▸ .head _)
      · rw [List.dropLast_concat]
        exact List.nodup_cons.mpr ⟨fun hmem => hroot (.tail _ hmem), (List.nodup_cons.mp
          (List.nodup_cons.mp hnodup).2).2⟩
      · intro hmem
        rcases List.mem_append.mp hmem with hmem | hmem
        · exact hf' hmem
        · exact hroot (List.mem_singleton.mp hmem ▸ .tail _ (.head _))

/-- A chain from the root goes on with another one, and back to the root. -/
theorem chain_append (pre : List α) {more init after : List α} {l first last : α}
    (h : (root :: items).IsChain r.Joined) (hmore : more.IsChain r.Joined)
    (hnodup : (root :: (items ++ more)).Nodup) (hl : root :: items = pre ++ [l])
    (hfirst : more = first :: after) (hlast : more = init ++ [last]) :
    (root :: (items ++ more ++ [root])).IsChain
      ((r.connect l first).connect last root).Joined := by
  have hsplit : (pre ++ [l] ++ more).Nodup := by
    rw [← hl]
    exact hnodup
  have hdisj : ∀ x ∈ root :: items, x ∉ more := fun x hx hx' =>
    (List.nodup_append.mp (show ((root :: items) ++ more).Nodup from hnodup)).2.2 x hx x hx' rfl
  have hmore' : more.Nodup := (List.nodup_append.mp hsplit).2.1
  have hpre : l ∉ pre := by
    intro hmem
    have := (List.nodup_append.mp (List.nodup_append.mp hsplit).1).2.2 l hmem l (.head _)
    exact this rfl
  have hl' : l ∈ root :: items := by
    rw [hl]
    exact List.mem_append_right _ (.head _)
  have hone : (root :: items ++ more).IsChain (r.connect l first).Joined := by
    rw [hl, hfirst, List.append_assoc]
    refine chain_join _ (hl ▸ h) (hfirst ▸ hmore) hpre ?_ ?_ ?_
    · rw [hfirst] at hmore'
      exact (List.nodup_cons.mp hmore').1
    · rw [← hfirst]
      exact fun hmem => hdisj l hl' (List.dropLast_subset _ hmem)
    · rw [← hl]
      intro hmem
      refine hdisj first (.tail _ hmem) ?_
      rw [hfirst]
      exact .head _
  have hall : root :: (items ++ more ++ [root]) = (root :: items ++ init) ++ [last, root] := by
    rw [hlast]
    simp
  rw [hall]
  have hnodup' : (root :: items ++ init ++ [last]).Nodup := by
    rw [List.append_assoc, ← hlast]
    exact hnodup
  refine chain_join _ ?_ (.singleton root) ?_ List.not_mem_nil List.not_mem_nil ?_
  · rw [List.append_assoc, ← hlast]
    exact hone
  · intro hmem
    exact (List.nodup_append.mp hnodup').2.2 last hmem last (.head _) rfl
  · rw [List.append_assoc, ← hlast]
    exact (List.nodup_cons.mp hnodup).1

section

omit [DecidableEq α]

theorem Ring.prev_root (h : r.Ring root (items ++ [i])) : r.prev root = i := by
  have hchain := h.chain
  rw [List.append_assoc, ← List.cons_append] at hchain
  exact (List.isChain_append_cons_cons.mp hchain).2.1.2

theorem Ring.prev_root_mem (h : r.Ring root items) : r.prev root ∈ root :: items := by
  rcases List.eq_nil_or_concat items with rfl | ⟨before, i, rfl⟩
  · rw [(List.isChain_cons_cons.mp h.chain).1.2]
    exact .head _
  · rw [List.concat_eq_append] at h ⊢
    rw [h.prev_root]
    exact .tail _ (List.mem_append_right _ (.head _))

/-- A ring depends on the links of its elements only. -/
theorem Ring.congr {r' : Links α} (h : r.Ring root items)
    (hsame : ∀ x ∈ root :: items, r'.next x = r.next x ∧ r'.prev x = r.prev x) :
    r'.Ring root items := by
  refine ⟨h.chain.imp_of_mem_imp fun a b ha hb hab => ?_, h.nodup⟩
  have hmem (x : α) (hx : x ∈ root :: (items ++ [root])) : x ∈ root :: items := by
    rcases List.mem_cons.mp hx with rfl | hx
    · exact .head _
    · rcases List.mem_append.mp hx with hx | hx
      · exact .tail _ hx
      · exact List.mem_singleton.mp hx ▸ .head _
  exact ⟨(hsame a (hmem a ha)).1.trans hab.1, (hsame b (hmem b hb)).2.trans hab.2⟩

end

theorem Ring.moveToBack (h : r.Ring root (pre ++ i :: post)) :
    (r.moveToBack root i).Ring root (pre ++ post ++ [i]) := by
  have hperm : (pre ++ post ++ [i]).Perm (pre ++ i :: post) := by
    rw [List.append_assoc]
    exact (List.perm_append_singleton i post).append_left pre
  have hnodup : (root :: (pre ++ post ++ [i])).Nodup := (hperm.cons root).nodup_iff.mpr h.nodup
  unfold Links.moveToBack
  split
  · rename_i hlast
    refine ⟨?_, hnodup⟩
    rcases List.eq_nil_or_concat post with rfl | ⟨post, l, rfl⟩
    · rw [List.append_nil]
      exact h.chain
    · rw [List.concat_eq_append, ← List.cons_append, ← List.append_assoc] at h
      rw [← h.prev_root, hlast] at hnodup
      simp [List.nodup_append] at hnodup
  · rename_i hlast
    rcases List.eq_nil_or_concat post with rfl | ⟨post, l, rfl⟩
    · exact absurd h.prev_root hlast
    · have hl : r.prev root = l := by
        rw [List.concat_eq_append, ← List.cons_append, ← List.append_assoc] at h
        exact h.prev_root
      rw [hl]
      refine ⟨chain_append (root :: (pre ++ post)) ?_ (.singleton i) hnodup ?_ rfl
        (List.nil_append [i]).symm, hnodup⟩
      · have hchain := h.unlink
        exact hchain.left_of_append
      · simp

/-- A chain of new elements goes in before the root. -/
theorem Ring.extend {more init after : List α} {first last : α} (h : r.Ring root items)
    (hmore : more.IsChain r.Joined) (hnodup : (root :: (items ++ more)).Nodup)
    (hfirst : more = first :: after) (hlast : more = init ++ [last]) :
    ((r.connect (r.prev root) first).connect last root).Ring root (items ++ more) := by
  rcases List.eq_nil_or_concat items with rfl | ⟨before, l, rfl⟩
  · have hroot : r.prev root = root := (List.isChain_cons_cons.mp h.chain).1.2
    rw [hroot]
    exact ⟨chain_append [] (.singleton root) hmore hnodup rfl hfirst hlast, hnodup⟩
  · rw [List.concat_eq_append] at h hnodup ⊢
    rw [h.prev_root]
    refine ⟨chain_append (root :: before) ?_ hmore hnodup rfl hfirst hlast, hnodup⟩
    have hchain := h.chain
    exact hchain.left_of_append

end Links

end Nimbus
