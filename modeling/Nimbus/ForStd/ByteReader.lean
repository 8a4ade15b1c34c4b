import Nimbus.ForStd.ExecM
import Nimbus.ForStd.RlpItem

/-!
# Readers of bytes

A reader takes bytes off the front of what is left, or fails. It is exact for a way of writing
when it reads what was written and nothing else. A list is read by a loop over its elements that
puts the reader at each of them.
-/

namespace Nimbus

open RlpItem

abbrev ByteReader (ε α : Type) := StateT (List UInt8) (Except ε) α

namespace ByteReader

variable {ε α β : Type} {rest : List UInt8} {bytes : List UInt8}

theorem bind_run {x : ByteReader ε α} {f : α → ByteReader ε β} {b : β} :
    (x >>= f).run bytes = .ok (b, rest) ↔
      ∃ a mid, x.run bytes = .ok (a, mid) ∧ (f a).run mid = .ok (b, rest) := by
  rw [StateT.run_bind]
  constructor
  · intro h
    cases hx : x.run bytes with
    | error e =>
      rw [hx] at h
      cases h
    | ok r =>
      rw [hx] at h
      exact ⟨r.1, r.2, rfl, h⟩
  · rintro ⟨a, mid, hx, hf⟩
    rw [hx]
    exact hf

theorem pure_run {a b : α} :
    (pure a : ByteReader ε α).run bytes = .ok (b, rest) ↔ b = a ∧ rest = bytes := by
  show Except.ok (a, bytes) = Except.ok (b, rest) ↔ _
  rw [Except.ok.injEq, Prod.mk.injEq, eq_comm, eq_comm (a := bytes)]

theorem throw_run {e : ε} {a : α} :
    ¬ (throw e : ByteReader ε α).run bytes = .ok (a, rest) := nofun

/-- The reader reads what is written for a good value, and nothing else. -/
def Exact (x : ByteReader ε α) (good : α → Prop) (write : α → List UInt8) : Prop :=
  ∀ bytes a rest, x.run bytes = .ok (a, rest) ↔ good a ∧ bytes = write a ++ rest

/-! ### Lists -/

/-- The loop over the elements of a payload that has `rest` behind it. -/
def itemsLoop (item : List UInt8 → Except ε (RlpItem × List UInt8)) (body : ByteReader ε α)
    (rest : List UInt8) : Nat → List UInt8 → Except ε (List α)
  | 0, _ => .ok []
  | fuel + 1, payload =>
    if payload = [] then .ok []
    else do
      let (_, payload') ← item payload
      let (a, _) ← body.run (payload ++ rest)
      let as ← itemsLoop item body rest fuel payload'
      return a :: as

/-- The loop over the elements of a list, with the reader at each element. Wherever the body
leaves the reader, it goes on at the next element. -/
def forItems (item : List UInt8 → Except ε (RlpItem × List UInt8)) (noList : ε)
    (body : ByteReader ε α) : ByteReader ε (List α) := fun bytes => do
  let (list, rest) ← item bytes
  if list.isList then
    let as ← itemsLoop item body rest list.payload.length list.payload
    return (as, rest)
  else throw noList

/-- Elements are read from their encodings. -/
def ReadsItems (item : List UInt8 → Except ε (RlpItem × List UInt8)) : Prop :=
  ∀ bytes x rest, item bytes = .ok (x, rest) ↔
    x.payload.length < 256 ^ 8 ∧ bytes = x.encode ++ rest

section

variable {item : List UInt8 → Except ε (RlpItem × List UInt8)} {body : ByteReader ε α}
  {Reads : RlpItem → α → Prop}

/-- The loop reads what the body reads at each element. -/
theorem itemsLoop_iff (hitem : ReadsItems item) (hbody : ∀ x a tail, x.payload.length < 256 ^ 8 →
      ((∃ left, body.run (x.encode ++ tail) = .ok (a, left)) ↔ Reads x a))
    {fuel : Nat} {payload : List UInt8} {as : List α}
    (hfuel : payload.length ≤ fuel) : itemsLoop item body rest fuel payload = .ok as ↔
      ∃ xs : List RlpItem, (∀ x ∈ xs, x.payload.length < 256 ^ 8) ∧
        payload = xs.flatMap encode ∧ List.Forall₂ Reads xs as := by
  have hnil {as : List α} : (.ok [] : Except ε (List α)) = .ok as ↔
      ∃ xs : List RlpItem, (∀ x ∈ xs, x.payload.length < 256 ^ 8) ∧
        [] = xs.flatMap encode ∧ List.Forall₂ Reads xs as := by
    constructor
    · intro h
      cases h
      exact ⟨[], by simp, rfl, .nil⟩
    · rintro ⟨xs, -, hxs, has⟩
      cases xs with
      | nil =>
        cases has
        rfl
      | cons x xs =>
        exact absurd (List.append_eq_nil_iff.mp hxs.symm).1 (encode_ne_nil x)
  induction fuel generalizing payload as with
  | zero =>
    obtain rfl : payload = [] := List.length_eq_zero_iff.mp (Nat.le_zero.mp hfuel)
    exact hnil
  | succ fuel ih =>
    unfold itemsLoop
    by_cases hempty : payload = []
    · rw [hempty]
      exact hnil
    · rw [if_neg hempty, except_bind_ok]
      constructor
      · rintro ⟨⟨x, payload'⟩, hx, h⟩
        obtain ⟨hlt, hpayload⟩ := (hitem _ _ _).mp hx
        obtain ⟨⟨a, left⟩, ha, h⟩ := except_bind_ok.mp h
        obtain ⟨as', has', h⟩ := except_bind_ok.mp h
        cases h
        have hlen := List.length_pos_iff.mpr (encode_ne_nil x)
        rw [hpayload, List.length_append] at hfuel
        obtain ⟨xs, hxs, hflat, hforall⟩ := (ih (by omega)).mp has'
        rw [hpayload, List.append_assoc] at ha
        refine ⟨x :: xs, ?_, by rw [hpayload, hflat, List.flatMap_cons],
          .cons ((hbody x a _ hlt).mp ⟨left, ha⟩) hforall⟩
        intro y hy
        cases hy with
        | head => exact hlt
        | tail _ hy => exact hxs y hy
      · rintro ⟨xs, hxs, hflat, hforall⟩
        cases hforall with
        | nil => exact absurd hflat hempty
        | @cons x a xs as hread hforall =>
          have hlt := hxs x (List.mem_cons_self ..)
          rw [List.flatMap_cons] at hflat
          obtain ⟨left, ha⟩ := (hbody x a (xs.flatMap encode ++ rest) hlt).mpr hread
          have hlen := List.length_pos_iff.mpr (encode_ne_nil x)
          rw [hflat, List.length_append] at hfuel
          refine ⟨(x, xs.flatMap encode), (hitem _ _ _).mpr ⟨hlt, hflat⟩, ?_⟩
          refine except_bind_ok.mpr ⟨(a, left), ?_, except_bind_ok.mpr ⟨as, ?_, rfl⟩⟩
          · rw [hflat, List.append_assoc]
            exact ha
          · exact (ih (by omega)).mpr
              ⟨xs, fun y hy => hxs y (.tail _ hy), rfl, hforall⟩

/-- The loop over a list reads the elements that the list was written with. -/
theorem forItems_iff (hitem : ReadsItems item) (hbody : ∀ x a tail, x.payload.length < 256 ^ 8 →
      ((∃ left, body.run (x.encode ++ tail) = .ok (a, left)) ↔ Reads x a))
    {noList : ε} {as : List α} :
    (forItems item noList body).run bytes = .ok (as, rest) ↔
      ∃ xs : List RlpItem, (∀ x ∈ xs, x.payload.length < 256 ^ 8) ∧
        (xs.flatMap encode).length < 256 ^ 8 ∧
        bytes = encode ⟨true, xs.flatMap encode⟩ ++ rest ∧
        List.Forall₂ Reads xs as := by
  show (item bytes >>= _) = .ok (as, rest) ↔ _
  rw [except_bind_ok]
  constructor
  · rintro ⟨⟨⟨isList, payload⟩, rest'⟩, hlist, h⟩
    obtain ⟨hlt, hbytes⟩ := (hitem _ _ _).mp hlist
    dsimp only at h
    split at h
    · rename_i htrue
      obtain ⟨as', hloop, h⟩ := except_bind_ok.mp h
      cases h
      obtain ⟨xs, hxs, rfl, hforall⟩ := (itemsLoop_iff hitem hbody (Nat.le_refl _)).mp hloop
      obtain rfl : isList = true := htrue
      exact ⟨xs, hxs, hlt, hbytes, hforall⟩
    · cases h
  · rintro ⟨xs, hxs, hlt, hbytes, hforall⟩
    refine ⟨(⟨true, xs.flatMap encode⟩, rest), (hitem _ _ _).mpr ⟨hlt, hbytes⟩, ?_⟩
    exact except_bind_ok.mpr ⟨as,
      (itemsLoop_iff hitem hbody (Nat.le_refl _)).mpr ⟨xs, hxs, rfl, hforall⟩, rfl⟩

end

end ByteReader

end Nimbus
