import Nimbus.Native.SyncSched

/-!
# The rounds over all peers are made alone

The monitor lock is taken for as long as one loop waits with it, and the count of active workers is
the number of loops in `runPeer()`. Both hold wherever the loops stand, so that no round is made
while a peer is being run, and no lock or count is left behind.
-/

namespace Nimbus.Spec.SyncSched

open Native Native.SyncSched Function

/-! ## Between two steps -/

/-- The loops in `runPeer()` are as many as are counted. -/
def Counted (place : WorkerId → Await) (activeMulti : Int) : Prop :=
  ∃ active : Finset WorkerId, (∀ i, i ∈ active ↔ place i = .runPeer) ∧ activeMulti = active.card

/-- No loop has control, the active ones are counted, and the lock is taken for one loop that
waits. -/
structure Exclusive (place : WorkerId → Await) (monitorLock : Bool) (activeMulti : Int) : Prop where
  calm : ∀ i, place i ≠ .running
  counted : Counted place activeMulti
  lock : monitorLock = true ↔ ∃ i, place i = .lockWait
  unique : ∀ i j, place i = .lockWait → place j = .lockWait → i = j

/-- One loop has control, without the lock. -/
structure Alone (i : WorkerId) (place : WorkerId → Await) (monitorLock : Bool) (activeMulti : Int) :
    Prop where
  here : place i = .running
  others : ∀ j, j ≠ i → place j ≠ .running
  counted : Counted place activeMulti
  lock : monitorLock = true ↔ ∃ i, place i = .lockWait
  unique : ∀ i j, place i = .lockWait → place j = .lockWait → i = j

/-- One loop has control, with the lock. -/
structure Locked (i : WorkerId) (place : WorkerId → Await) (monitorLock : Bool)
    (activeMulti : Int) : Prop where
  here : place i = .running
  others : ∀ j, j ≠ i → place j ≠ .running ∧ place j ≠ .lockWait
  counted : Counted place activeMulti
  lock : monitorLock = true

section
variable {i : WorkerId} {place : WorkerId → Await} {monitorLock : Bool} {activeMulti : Int}

theorem update_self (await : Await) : Function.update place i await i = await :=
  Function.update_self i await place

theorem update_other {j : WorkerId} (h : j ≠ i) (await : Await) :
    update place i await j = place j := update_of_ne h await place

section

variable (h : Counted place activeMulti)
include h

/-- Going from one place to another, neither of them in `runPeer()`, changes no count. -/
theorem Counted.move (hfrom : place i ≠ .runPeer) {await : Await}
    (hto : await ≠ .runPeer) : Counted (update place i await) activeMulti := by
  obtain ⟨active, hactive, hcard⟩ := h
  refine ⟨active, fun j => ?_, hcard⟩
  by_cases hj : j = i
  · subst hj
    rw [update_self, hactive]
    exact iff_of_false hfrom hto
  · rw [update_other hj, hactive]

theorem Counted.enter (hfrom : place i ≠ .runPeer) :
    Counted (update place i .runPeer) (activeMulti + 1) := by
  obtain ⟨active, hactive, hcard⟩ := h
  have hnot : i ∉ active := fun h => hfrom ((hactive i).mp h)
  refine ⟨insert i active, fun j => ?_, ?_⟩
  · by_cases hj : j = i
    · subst hj
      rw [update_self]
      exact iff_of_true (Finset.mem_insert_self _ _) rfl
    · rw [update_other hj, Finset.mem_insert, hactive]
      exact or_iff_right hj
  · rw [Finset.card_insert_of_notMem hnot]
    omega

theorem Counted.leave (hfrom : place i = .runPeer) {await : Await}
    (hto : await ≠ .runPeer) : Counted (update place i await) (activeMulti - 1) := by
  obtain ⟨active, hactive, hcard⟩ := h
  have hmem : i ∈ active := (hactive i).mpr hfrom
  refine ⟨active.erase i, fun j => ?_, ?_⟩
  · by_cases hj : j = i
    · subst hj
      rw [update_self]
      exact iff_of_false (Finset.notMem_erase _ _) hto
    · rw [update_other hj, Finset.mem_erase, hactive]
      exact and_iff_right hj
  · have hpos := Finset.card_pos.mpr ⟨i, hmem⟩
    rw [Finset.card_erase_of_mem hmem]
    omega

/-- With a count of 0 no loop is in `runPeer()`. -/
theorem Counted.none_active (hzero : ¬ 0 < activeMulti) (j : WorkerId) : place j ≠ .runPeer := by
  obtain ⟨active, hactive, hcard⟩ := h
  intro hj
  have hpos := Finset.card_pos.mpr ⟨j, (hactive j).mpr hj⟩
  omega

theorem Counted.not_pos (hnone : ∀ j, place j ≠ .runPeer) : ¬ 0 < activeMulti := by
  obtain ⟨active, hactive, hcard⟩ := h
  have hempty : active = ∅ := Finset.eq_empty_of_forall_notMem fun j hj =>
    hnone j ((hactive j).mp hj)
  rw [hcard, hempty]
  exact Nat.not_lt_zero 0 ∘ Int.ofNat_lt.mp

end

/-! ## Taking control -/

theorem lockWait_move (hfrom : place i ≠ .lockWait) {await : Await} (hto : await ≠ .lockWait)
    (j : WorkerId) : update place i await j = .lockWait ↔ place j = .lockWait := by
  by_cases hj : j = i
  · subst hj
    rw [update_self]
    exact iff_of_false hto hfrom
  · rw [update_other hj]

/-- A loop that does not wait for the lock takes control. -/
theorem Exclusive.resume (h : Exclusive place monitorLock activeMulti)
    (hlock : place i ≠ .lockWait) {activeMulti' : Int}
    (hcounted : Counted (update place i .running) activeMulti') :
    Alone i (update place i .running) monitorLock activeMulti' where
  here := update_self _
  others j hj := by
    rw [update_other hj]
    exact h.calm j
  counted := hcounted
  lock := by
    simp only [lockWait_move hlock (show Await.running ≠ .lockWait by decide)]
    exact h.lock
  unique j j' := by
    simp only [lockWait_move hlock (show Await.running ≠ .lockWait by decide)]
    exact h.unique j j'

/-- The loop that waits for the lock takes control with it. -/
theorem Exclusive.resumeLocked (h : Exclusive place monitorLock activeMulti)
    (hlock : place i = .lockWait) : Locked i (update place i .running) monitorLock activeMulti where
  here := update_self _
  others j hj := by
    rw [update_other hj]
    exact ⟨h.calm j, fun hwait => hj (h.unique j i hwait hlock)⟩
  counted := h.counted.move (by rw [hlock]; decide) (by decide)
  lock := h.lock.mpr ⟨i, hlock⟩

/-! ## Giving up control -/

section

variable (h : Alone i place monitorLock activeMulti)
include h

theorem Alone.not_waiting : place i ≠ .lockWait := by
  rw [h.here]
  decide

theorem Alone.leave {await : Await}
    (hrunning : await ≠ .running) (hrunPeer : await ≠ .runPeer) (hlockWait : await ≠ .lockWait) :
    Exclusive (update place i await) monitorLock activeMulti where
  calm j := by
    by_cases hj : j = i
    · subst hj
      rw [update_self]
      exact hrunning
    · rw [update_other hj]
      exact h.others j hj
  counted := h.counted.move (by rw [h.here]; decide) hrunPeer
  lock := by
    simp only [lockWait_move h.not_waiting hlockWait]
    exact h.lock
  unique j j' := by
    simp only [lockWait_move h.not_waiting hlockWait]
    exact h.unique j j'

theorem Alone.enter : Exclusive (update place i .runPeer) monitorLock (activeMulti + 1) where
  calm j := by
    by_cases hj : j = i
    · subst hj
      rw [update_self]
      decide
    · rw [update_other hj]
      exact h.others j hj
  counted := h.counted.enter (by rw [h.here]; decide)
  lock := by
    simp only [lockWait_move h.not_waiting (show Await.runPeer ≠ .lockWait by decide)]
    exact h.lock
  unique j j' := by
    simp only [lockWait_move h.not_waiting (show Await.runPeer ≠ .lockWait by decide)]
    exact h.unique j j'

end

theorem Locked.wait (h : Locked i place monitorLock activeMulti) :
    Exclusive (update place i .lockWait) monitorLock activeMulti where
  calm j := by
    by_cases hj : j = i
    · subst hj
      rw [update_self]
      decide
    · rw [update_other hj]
      exact (h.others j hj).1
  counted := h.counted.move (by rw [h.here]; decide) (by decide)
  lock := iff_of_true h.lock ⟨i, update_self _⟩
  unique j j' hj hj' := by
    have heq (k : WorkerId) (hk : update place i .lockWait k = .lockWait) : k = i := by
      by_contra hne
      rw [update_other hne] at hk
      exact (h.others k hne).2 hk
    rw [heq j hj, heq j' hj']

theorem Alone.take (h : Alone i place false activeMulti) : Locked i place true activeMulti where
  here := h.here
  others j hj := ⟨h.others j hj, fun hwait => Bool.noConfusion (h.lock.mpr ⟨j, hwait⟩)⟩
  counted := h.counted
  lock := rfl

theorem Locked.release (h : Locked i place monitorLock activeMulti) :
    Alone i place false activeMulti where
  here := h.here
  others j hj := (h.others j hj).1
  counted := h.counted
  lock := by
    refine iff_of_false Bool.noConfusion ?_
    rintro ⟨j, hj⟩
    by_cases hji : j = i
    · subst hji
      rw [h.here] at hj
      exact Await.noConfusion hj
    · exact (h.others j hji).2 hj
  unique j j' hj _ := by
    by_cases hji : j = i
    · subst hji
      rw [h.here] at hj
      exact Await.noConfusion hj
    · exact absurd hj (h.others j hji).2

end

/-! ## The calls of a round -/

section
variable {S : Type} {laps : Nat} {result : RunnerSync S × List (PoolCall S)}

/-- Nothing but what the methods reach has changed. -/
def Served (dsc dsc' : RunnerSync S) : Prop := ∃ shared, dsc' = { dsc with shared }

variable (dsc : RunnerSync S)

theorem Served.refl : Served dsc dsc := ⟨dsc.shared, rfl⟩

theorem Served.trans {a b c : RunnerSync S} (h : Served a b) (h' : Served b c) : Served a c := by
  obtain ⟨_, rfl⟩ := h
  obtain ⟨shared, rfl⟩ := h'
  exact ⟨shared, rfl⟩

theorem Served.syncPeers {dsc dsc' : RunnerSync S} (h : Served dsc dsc') :
    dsc'.syncPeers = dsc.syncPeers := by
  obtain ⟨-, rfl⟩ := h
  rfl

/-- Every listed worker is called at most once and in turn, and a call for the last one is the
final one of a round over all of them. -/
structure Round (dsc : RunnerSync S) (laps : Nat) (calls : List (PoolCall S)) : Prop where
  served : ∀ made ∈ calls, Served dsc made.dsc ∧ made.laps = laps
  listed : calls.map PoolCall.worker <+: dsc.syncPeers.values
  last : (∀ made ∈ calls, made.last = false) ∨
    ∃ earlier final, calls = earlier ++ [final] ∧ (∀ made ∈ earlier, made.last = false) ∧
      final.last = true ∧ calls.map PoolCall.worker = dsc.syncPeers.values

variable {calls : List (PoolCall S)}

theorem Round.of_served {dsc dsc' : RunnerSync S}
    (hserved : Served dsc dsc') (h : Round dsc' laps calls) : Round dsc laps calls where
  served made hmade := ⟨hserved.trans (h.served made hmade).1, (h.served made hmade).2⟩
  listed := hserved.syncPeers ▸ h.listed
  last := hserved.syncPeers ▸ h.last

variable [SyncApp S]

theorem call_served (w : WorkerId) (last : Bool) (laps : Nat) :
    Served dsc (call dsc w last laps).2.1 := ⟨_, rfl⟩

/-- The loop over the peers calls those that it has passed, and none for the last item. -/
structure Passed (dsc : RunnerSync S) (laps : Nat) (all : List WorkerId)
    (result : RunnerSync S × List (PoolCall S) × RoundEnd) : Prop where
  served : Served dsc result.1
  calls : ∀ made ∈ result.2.1, Served dsc made.dsc ∧ made.laps = laps ∧ made.last = false
  listed : result.2.1.map PoolCall.worker <+: all
  delayed : ∀ d, result.2.2 = .delayed (some d) → result.2.1.map PoolCall.worker ++ [d] = all

omit [SyncApp S] in
theorem Passed.cons {dsc dsc' : RunnerSync S} {laps : Nat} {all : List WorkerId} {w : WorkerId}
    {result : RunnerSync S × List (PoolCall S) × RoundEnd} (h : Passed dsc' laps all result)
    (hserved : Served dsc dsc') :
    Passed dsc laps (w :: all) (result.1, ⟨dsc, w, false, laps⟩ :: result.2.1, result.2.2) where
  served := hserved.trans h.served
  calls other hother := by
    rcases List.mem_cons.mp hother with rfl | hother
    · exact ⟨.refl _, rfl, rfl⟩
    · obtain ⟨hserved', hrest⟩ := h.calls other hother
      exact ⟨hserved.trans hserved', hrest⟩
  listed := (List.prefix_cons_inj _).mpr h.listed
  delayed d hd := congrArg (w :: ·) (h.delayed d hd)

theorem poolPeers_passed (laps : Nat) (ws : List WorkerId) (delayed : Option WorkerId)
    (dsc : RunnerSync S) :
    Passed dsc laps (delayed.toList ++ ws) (poolPeers laps ws delayed dsc) := by
  -- along the list: what is still to be called is the delayed item and the rest
  induction ws generalizing delayed dsc with
  | nil =>
    refine ⟨.refl dsc, fun _ h => absurd h List.not_mem_nil, List.nil_prefix, fun d hd => ?_⟩
    have hdelayed : delayed = some d := RoundEnd.delayed.inj hd
    rw [hdelayed]
    rfl
  | cons w ws ih =>
    cases delayed with
    | none =>
      rw [poolPeers]
      split
      · exact ⟨.refl dsc, fun _ h => absurd h List.not_mem_nil, List.nil_prefix,
          fun d hd => RoundEnd.noConfusion hd⟩
      · exact ih (some w) dsc
    | some d =>
      have hcall : Passed (call dsc d false laps).2.1 laps (w :: ws)
          ((call dsc d false laps).2.1, [], .shutdown) :=
        ⟨.refl _, fun _ h => absurd h List.not_mem_nil, List.nil_prefix,
          fun d hd => RoundEnd.noConfusion hd⟩
      have hstop : Passed (call dsc d false laps).2.1 laps (w :: ws)
          ((call dsc d false laps).2.1, [], .delayed none) :=
        ⟨.refl _, fun _ h => absurd h List.not_mem_nil, List.nil_prefix,
          fun d hd => absurd (RoundEnd.delayed.inj hd) (Option.some_ne_none d).symm⟩
      rw [poolPeers]
      dsimp only
      split
      · exact hstop.cons (call_served dsc d false laps)
      · split
        · exact hcall.cons (call_served dsc d false laps)
        · exact (ih (some w) _).cons (call_served dsc d false laps)

omit [SyncApp S] in
theorem Passed.round {dsc : RunnerSync S} {result : RunnerSync S × List (PoolCall S) × RoundEnd}
    (h : Passed dsc laps dsc.syncPeers.values result) : Round dsc laps result.2.1 where
  served made hmade := ⟨(h.calls made hmade).1, (h.calls made hmade).2.1⟩
  listed := h.listed
  last := .inl fun made hmade => (h.calls made hmade).2.2

omit [SyncApp S] in
/-- A round with a final call, for the item that is delayed. -/
theorem Passed.final {dsc : RunnerSync S} {result : RunnerSync S × List (PoolCall S) × RoundEnd}
    (h : Passed dsc laps dsc.syncPeers.values result) {d : WorkerId}
    (hdelayed : result.2.2 = .delayed (some d)) :
    Round dsc laps (result.2.1 ++ [⟨result.1, d, true, laps⟩]) := by
  let final : PoolCall S := ⟨result.1, d, true, laps⟩
  have hall : (result.2.1 ++ [final]).map PoolCall.worker = dsc.syncPeers.values := by
    rw [List.map_append]
    exact h.delayed d hdelayed
  refine ⟨fun made hmade => ?_, hall ▸ List.prefix_rfl, .inr ⟨result.2.1, _, rfl, ?_, rfl, hall⟩⟩
  · rcases List.mem_append.mp hmade with hmade | hmade
    · exact ⟨(h.calls made hmade).1, (h.calls made hmade).2.1⟩
    · rw [List.mem_singleton.mp hmade]
      exact ⟨h.served, rfl⟩
  · exact fun made hmade => (h.calls made hmade).2.2

theorem poolRound_spec (laps : Nat) (dsc : RunnerSync S) :
    Served dsc (poolRound laps dsc).1 ∧ Round dsc laps (poolRound laps dsc).2.1 := by
  let start : RunnerSync S := { dsc with shared := { dsc.shared with poolMode := false } }
  have hstart : Served dsc start := ⟨_, rfl⟩
  have h : Passed start laps start.syncPeers.values
      (poolPeers laps start.syncPeers.values none start) :=
    poolPeers_passed laps start.syncPeers.values none start
  unfold poolRound
  dsimp only
  split
  case h_1 hpeers =>
    rw [hpeers] at h
    exact ⟨hstart.trans h.served, .of_served hstart h.round⟩
  case h_2 hpeers =>
    rw [hpeers] at h
    exact ⟨hstart.trans h.served, .of_served hstart h.round⟩
  case h_3 d hpeers =>
    rw [hpeers] at h
    exact ⟨(hstart.trans h.served).trans (call_served _ d true laps),
      .of_served hstart (h.final rfl)⟩

/-- Rounds one after the other, counted from `laps` on. -/
def Rounds (n laps : Nat) (calls : List (PoolCall S)) : Prop :=
  ∃ rounds : List (List (PoolCall S)), calls = rounds.flatten ∧ rounds.length ≤ n ∧
    ∀ k round, rounds[k]? = some round → Round dsc (laps + k) round

omit [SyncApp S] in
theorem Rounds.none (n laps : Nat) : Rounds dsc n laps [] :=
  ⟨[], rfl, Nat.zero_le n, fun _ _ h => absurd h (Option.some_ne_none _).symm⟩

omit [SyncApp S] in
theorem Rounds.cons {dsc dsc' : RunnerSync S} {n laps : Nat} {more : List (PoolCall S)}
    (h : Rounds dsc' n (laps + 1) more) (hserved : Served dsc dsc')
    (hround : Round dsc laps calls) : Rounds dsc (n + 1) laps (calls ++ more) := by
  obtain ⟨rounds, rfl, hlen, hrounds⟩ := h
  refine ⟨calls :: rounds, rfl, Nat.succ_le_succ hlen, fun k round hk => ?_⟩
  cases k with
  | zero => exact Option.some.inj hk ▸ hround
  | succ k =>
    have h := (hrounds k round hk).of_served hserved
    rwa [show laps + (k + 1) = laps + 1 + k by omega]

theorem poolRounds_spec (n laps : Nat) (dsc : RunnerSync S) :
    Served dsc (poolRounds n laps dsc).1 ∧ Rounds dsc n laps (poolRounds n laps dsc).2.1 := by
  induction n generalizing laps dsc with
  | zero => exact ⟨.refl dsc, .none dsc 0 laps⟩
  | succ n ih =>
    obtain ⟨hserved, hround⟩ := poolRound_spec laps dsc
    have hone : Rounds dsc (n + 1) laps (poolRound laps dsc).2.1 := by
      have h := (Rounds.none (poolRound laps dsc).1 n (laps + 1)).cons hserved hround
      rwa [List.append_nil] at h
    rw [poolRounds]
    split
    case h_1 dsc' calls heq =>
      rw [heq] at hserved hone
      exact ⟨hserved, hone⟩
    case h_2 dsc' calls heq =>
      rw [heq] at hserved hone
      exact ⟨hserved, hone⟩
    case h_3 dsc' calls heq =>
      rw [heq] at hserved hround
      obtain ⟨hserved', hmore⟩ := ih (laps + 1) dsc'
      exact ⟨hserved.trans hserved', hmore.cons hserved hround⟩

/-! ## The end of the loop -/

omit [SyncApp S] in
theorem unregisterByIP_eq (peer : Peer) :
    ∃ peerByIP, unregisterByIP dsc peer = { dsc with peerByIP } := by
  unfold unregisterByIP
  split
  · exact ⟨dsc.peerByIP, rfl⟩
  · dsimp only
    split_ifs
    · exact ⟨_, rfl⟩
    · exact ⟨_, rfl⟩
    · exact ⟨dsc.peerByIP, rfl⟩

theorem endLoop_eq (i : WorkerId) (now : Moment) :
    ∃ shared zombies peerByIP, endLoop dsc i now = { dsc with
      shared, zombies, peerByIP
      syncPeers := dsc.syncPeers.erase (dsc.peer i).key
      orphans := dsc.orphans.erase (dsc.peer i).key
      place := update dsc.place i .ended } := by
  unfold endLoop
  dsimp only
  split_ifs
  all_goals
    obtain ⟨peerByIP, h⟩ := unregisterByIP_eq _ (dsc.peer i)
    exact ⟨_, _, peerByIP, by rw [h]⟩

theorem endLoop_monitorLock (i : WorkerId) (now : Moment) :
    (endLoop dsc i now).monitorLock = dsc.monitorLock := by
  obtain ⟨_, _, _, h⟩ := endLoop_eq dsc i now
  rw [h]

variable {i : WorkerId}

theorem endLoop_other {j : WorkerId} (hj : j ≠ i) (now : Moment) :
    (endLoop dsc i now).place j = dsc.place j := by
  obtain ⟨_, _, _, h⟩ := endLoop_eq dsc i now
  rw [h]
  exact update_other hj _

omit [SyncApp S] in
theorem goto_other {j : WorkerId} (hj : j ≠ i) (await : Await) :
    (dsc.goto i await).place j = dsc.place j := update_other hj await

theorem loopEnd_monitorLock (i : WorkerId) (now : Moment) :
    (loopEnd dsc i now).monitorLock = dsc.monitorLock := by
  unfold loopEnd
  dsimp only
  split_ifs
  all_goals first | exact endLoop_monitorLock _ i now | rfl

theorem loopEnd_other {j : WorkerId} (hj : j ≠ i) (now : Moment) :
    (loopEnd dsc i now).place j = dsc.place j := by
  unfold loopEnd
  dsimp only
  split_ifs
  all_goals first | exact endLoop_other _ hj now | exact goto_other _ hj _

/-- Every worker is listed under the key of its peer. -/
def Keyed : Prop :=
  ∀ entry ∈ dsc.syncPeers.items, entry.1 = (dsc.peer entry.2).key

omit [SyncApp S] in
theorem Round.nodup {dsc : RunnerSync S}
    (h : Round dsc laps calls) (hkeyed : Keyed dsc) : (calls.map PoolCall.worker).Nodup := by
  have hkeys : dsc.syncPeers.values.map (fun i => (dsc.peer i).key) =
      dsc.syncPeers.items.map Prod.fst := by
    rw [RecencyMap.values, List.map_map]
    exact List.map_congr_left fun entry hentry => (hkeyed entry hentry).symm
  have hvalues : dsc.syncPeers.values.Nodup := by
    refine List.Nodup.of_map (fun i => (dsc.peer i).key) ?_
    rw [hkeys]
    exact dsc.syncPeers.nodup
  exact hvalues.sublist h.listed.sublist

/-- What holds between two steps. -/
structure Held (dsc : RunnerSync S) : Prop where
  exclusive : Exclusive dsc.place dsc.monitorLock dsc.activeMulti
  keyed : Keyed dsc

theorem endLoop_held {dsc : RunnerSync S} (now : Moment)
    (h : Alone i dsc.place dsc.monitorLock dsc.activeMulti) (hkeyed : Keyed dsc) :
    Held (endLoop dsc i now) := by
  obtain ⟨_, _, _, heq⟩ := endLoop_eq dsc i now
  rw [heq]
  refine ⟨h.leave (by decide) (by decide) (by decide), fun entry hentry => ?_⟩
  exact hkeyed entry (List.mem_of_mem_filter hentry)

theorem loopEnd_held {dsc : RunnerSync S} (now : Moment)
    (h : Alone i dsc.place dsc.monitorLock dsc.activeMulti) (hkeyed : Keyed dsc) :
    Held (loopEnd dsc i now) := by
  unfold loopEnd
  dsimp only
  split_ifs
  · exact endLoop_held now h hkeyed
  · exact endLoop_held now h hkeyed
  · exact ⟨h.leave (by decide) (by decide) (by decide), hkeyed⟩
  · exact endLoop_held now h hkeyed
  · exact ⟨h.leave (by decide) (by decide) (by decide), hkeyed⟩

/-! ## The body of the loop -/

/-- The caller has control with the lock, nothing is active, and no other loop has the lock. -/
def Unaccompanied (dsc : RunnerSync S) : Prop :=
  dsc.monitorLock = true ∧ (∀ j, dsc.place j ≠ .runPeer) ∧
    ∃ i, dsc.place i = .running ∧ ∀ j, j ≠ i → dsc.place j ≠ .running ∧ dsc.place j ≠ .lockWait

/-- What a loop makes of its turn, with the workers that are listed. -/
structure Turn (listed : List WorkerId) (result : RunnerSync S × List (PoolCall S)) : Prop where
  held : Held result.1
  alone : ∀ made ∈ result.2, Unaccompanied made.dsc
  rounds : ∃ start, start.syncPeers.values = listed ∧ Keyed start ∧
    Rounds start execPoolModeLoopMax 0 result.2

omit [SyncApp S] in
theorem Turn.quiet {dsc dsc' : RunnerSync S} (hkeyed : Keyed dsc) (h : Held dsc') :
    Turn dsc.syncPeers.values (dsc', []) :=
  ⟨h, fun _ h => absurd h List.not_mem_nil, dsc, rfl, hkeyed, .none dsc _ 0⟩

theorem withLock_turn (now : Moment)
    (h : Locked i dsc.place dsc.monitorLock dsc.activeMulti) (hkeyed : Keyed dsc) :
    Turn dsc.syncPeers.values (withLock dsc i now) := by
  unfold withLock
  split
  · exact .quiet hkeyed ⟨h.wait, hkeyed⟩
  · rename_i hzero
    obtain ⟨⟨shared, hserved⟩, hrounds⟩ := poolRounds_spec execPoolModeLoopMax 0 dsc
    refine ⟨?_, fun made hmade => ?_, dsc, rfl, hkeyed, hrounds⟩
    · change Held (if (poolRounds execPoolModeLoopMax 0 dsc).2.2 = true then _ else _)
      rw [hserved]
      split
      · exact endLoop_held now h.release hkeyed
      · exact loopEnd_held now h.release hkeyed
    · -- the state of the call is this one, with another shared part
      obtain ⟨rounds, hcalls, -, hround⟩ := hrounds
      change made ∈ (poolRounds execPoolModeLoopMax 0 dsc).2.1 at hmade
      rw [hcalls] at hmade
      obtain ⟨round, hmem, hmade⟩ := List.mem_flatten.mp hmade
      obtain ⟨k, hk⟩ := List.mem_iff_getElem?.mp hmem
      obtain ⟨⟨_, hdsc⟩, -⟩ := (hround k round hk).served made hmade
      rw [hdsc]
      exact ⟨h.lock, h.counted.none_active hzero, i, h.here, h.others⟩

/-- Either the loop waits for what is active, or the lock is free again. -/
theorem withLock_lock (i : WorkerId) (now : Moment) :
    (0 < dsc.activeMulti ∧ (withLock dsc i now).1.place i = .lockWait) ∨
      (withLock dsc i now).1.monitorLock = false := by
  unfold withLock
  split
  · rename_i hpos
    exact .inl ⟨hpos, update_self _⟩
  · right
    dsimp only
    split
    · exact endLoop_monitorLock _ i now
    · exact loopEnd_monitorLock _ i now

theorem withLock_other {j : WorkerId} (hj : j ≠ i) (now : Moment) :
    (withLock dsc i now).1.place j = dsc.place j := by
  unfold withLock
  split
  · exact goto_other dsc hj _
  · obtain ⟨⟨shared, hserved⟩, -⟩ := poolRounds_spec execPoolModeLoopMax 0 dsc
    dsimp only
    rw [hserved]
    split
    · exact endLoop_other _ hj now
    · exact loopEnd_other _ hj now

theorem loopBody_turn (now : Moment)
    (h : Alone i dsc.place dsc.monitorLock dsc.activeMulti) (hkeyed : Keyed dsc) :
    Turn dsc.syncPeers.values (loopBody dsc i now) := by
  unfold loopBody
  split
  · exact .quiet hkeyed (endLoop_held now h hkeyed)
  · split
    · exact .quiet hkeyed (loopEnd_held now h hkeyed)
    · rename_i hfree
      rw [Bool.not_eq_true] at hfree
      rw [hfree] at h
      split
      · exact withLock_turn { dsc with monitorLock := true } now h.take hkeyed
      · rw [← hfree] at h
        split
        · exact .quiet hkeyed (loopEnd_held now h hkeyed)
        · refine .quiet hkeyed ⟨h.enter, fun entry hentry => ?_⟩
          exact hkeyed entry (dsc.syncPeers.mem_of_mem_get _ hentry)

theorem loopBody_other {j : WorkerId} (hj : j ≠ i) (now : Moment) :
    (loopBody dsc i now).1.place j = dsc.place j := by
  unfold loopBody
  split
  · exact endLoop_other dsc hj now
  · split_ifs
    · exact loopEnd_other dsc hj now
    · exact withLock_other _ hj now
    · exact loopEnd_other dsc hj now
    · exact goto_other _ hj _

/-! ## Steps and runs -/

omit [SyncApp S] in
/-- A loop other than the one that waits with the lock gets its turn. -/
theorem Held.resume {dsc : RunnerSync S} (h : Held dsc) {await : Await}
    (hplace : dsc.place i = await) (hlock : await ≠ .lockWait) (hpeer : await ≠ .runPeer) :
    Alone i (dsc.goto i .running).place dsc.monitorLock dsc.activeMulti :=
  h.exclusive.resume (hplace ▸ hlock) (h.exclusive.counted.move (hplace ▸ hpeer) (by decide))

theorem step_turn {dsc : RunnerSync S} {action : Action S} (h : Held dsc)
    (hstep : step dsc action = some result) : Turn dsc.syncPeers.values result := by
  cases action with
  | spawn i now =>
    simp only [step, Option.ite_none_right_eq_some, Option.some.injEq] at hstep
    obtain ⟨hplace, rfl⟩ := hstep
    exact loopBody_turn (dsc.goto i .running) now
      (h.resume hplace (by decide) (by decide)) h.keyed
  | lockWoken i cancelled now =>
    simp only [step, Option.ite_none_right_eq_some] at hstep
    obtain ⟨hplace, hstep⟩ := hstep
    have hlocked := h.exclusive.resumeLocked hplace
    split at hstep
    · obtain rfl := Option.some.inj hstep
      exact .quiet h.keyed (endLoop_held now hlocked.release h.keyed)
    · obtain rfl := Option.some.inj hstep
      exact withLock_turn (dsc.goto i .running) now hlocked h.keyed
  | peerReturns i now =>
    simp only [step, Option.ite_none_right_eq_some, Option.some.injEq] at hstep
    obtain ⟨hplace, rfl⟩ := hstep
    have halone : Alone i (dsc.goto i .running).place dsc.monitorLock (dsc.activeMulti - 1) :=
      h.exclusive.resume (by rw [hplace]; decide) (h.exclusive.counted.leave hplace (by decide))
    exact .quiet h.keyed (loopEnd_held now halone h.keyed)
  | loopWoken i cancelled now =>
    simp only [step, Option.ite_none_right_eq_some] at hstep
    obtain ⟨hplace, hstep⟩ := hstep
    have halone := h.resume hplace (by decide) (by decide)
    split at hstep
    · obtain rfl := Option.some.inj hstep
      exact .quiet h.keyed (endLoop_held now halone h.keyed)
    · split at hstep
      · obtain rfl := Option.some.inj hstep
        exact .quiet h.keyed (endLoop_held now halone h.keyed)
      · obtain rfl := Option.some.inj hstep
        exact loopBody_turn (dsc.goto i .running) now halone h.keyed
  | others shared syncPeers zombies orphans peerByIP tickerRunning =>
    simp only [step, Option.ite_none_right_eq_some, Option.some.injEq] at hstep
    obtain ⟨hkeyed, rfl⟩ := hstep
    exact .quiet h.keyed ⟨h.exclusive, hkeyed⟩

/-- The loop that waits with the lock goes on waiting, or frees the lock. -/
theorem step_lock {dsc : RunnerSync S} {action : Action S} (hstep : step dsc action = some result)
    (hwait : dsc.place i = .lockWait) :
    result.1.place i = .lockWait ∨ result.1.monitorLock = false := by
  have hother {j : WorkerId} {await : Await} (hplace : dsc.place j = await)
      (hawait : await ≠ .lockWait) : i ≠ j := by
    rintro rfl
    exact hawait (hplace.symm.trans hwait)
  cases action with
  | spawn j now =>
    simp only [step, Option.ite_none_right_eq_some, Option.some.injEq] at hstep
    obtain ⟨hplace, rfl⟩ := hstep
    have hij := hother hplace (by decide)
    exact .inl ((loopBody_other _ hij now).trans ((goto_other dsc hij _).trans hwait))
  | lockWoken j cancelled now =>
    simp only [step, Option.ite_none_right_eq_some] at hstep
    obtain ⟨hplace, hstep⟩ := hstep
    split at hstep
    · obtain rfl := Option.some.inj hstep
      exact .inr (endLoop_monitorLock _ j now)
    · obtain rfl := Option.some.inj hstep
      rcases withLock_lock (dsc.goto j .running) j now with ⟨-, hplace'⟩ | hfree
      · by_cases hij : i = j
        · exact .inl (hij ▸ hplace')
        · exact .inl ((withLock_other _ hij now).trans ((goto_other dsc hij _).trans hwait))
      · exact .inr hfree
  | peerReturns j now =>
    simp only [step, Option.ite_none_right_eq_some, Option.some.injEq] at hstep
    obtain ⟨hplace, rfl⟩ := hstep
    have hij := hother hplace (by decide)
    exact .inl ((loopEnd_other _ hij now).trans ((goto_other dsc hij _).trans hwait))
  | loopWoken j cancelled now =>
    simp only [step, Option.ite_none_right_eq_some] at hstep
    obtain ⟨hplace, hstep⟩ := hstep
    have hij := hother hplace (by decide)
    have hgoto := (goto_other dsc hij .running).trans hwait
    split at hstep
    · obtain rfl := Option.some.inj hstep
      exact .inl ((endLoop_other _ hij now).trans hgoto)
    · split at hstep
      · obtain rfl := Option.some.inj hstep
        exact .inl ((endLoop_other _ hij now).trans hgoto)
      · obtain rfl := Option.some.inj hstep
        exact .inl ((loopBody_other _ hij now).trans hgoto)
  | others shared syncPeers zombies orphans peerByIP tickerRunning =>
    simp only [step, Option.ite_none_right_eq_some, Option.some.injEq] at hstep
    obtain ⟨-, rfl⟩ := hstep
    exact .inl hwait

/-- With nothing active, the lock is free as soon as the waiting loop looks. -/
theorem lockWoken_frees {dsc : RunnerSync S} {cancelled : Bool} {now : Moment}
    (hstep : step dsc (.lockWoken i cancelled now) = some result) (h : Held dsc)
    (hnone : ∀ j, dsc.place j ≠ .runPeer) : result.1.monitorLock = false := by
  have hzero := h.exclusive.counted.not_pos hnone
  simp only [step, Option.ite_none_right_eq_some] at hstep
  obtain ⟨-, hstep⟩ := hstep
  split at hstep
  · obtain rfl := Option.some.inj hstep
    exact endLoop_monitorLock _ i now
  · obtain rfl := Option.some.inj hstep
    rcases withLock_lock (dsc.goto i .running) i now with ⟨hpos, -⟩ | hfree
    · exact absurd hpos hzero
    · exact hfree

/-- From a scheduler without workers on, the steps in any order. -/
inductive Reachable : RunnerSync S → Prop
  | init (dsc : RunnerSync S) (hplace : ∀ i, dsc.place i = .idle) (hlock : dsc.monitorLock = false)
      (hactive : dsc.activeMulti = 0) (hempty : dsc.syncPeers.items = []) : Reachable dsc
  | next {dsc dsc' : RunnerSync S} {action : Action S} {calls : List (PoolCall S)}
      (h : Reachable dsc) (hstep : step dsc action = some (dsc', calls)) : Reachable dsc'

theorem Reachable.held {dsc : RunnerSync S} (h : Reachable dsc) : Held dsc := by
  induction h with
  | init dsc hplace hlock hactive hempty =>
    refine ⟨⟨fun i => ?_, ⟨∅, fun i => ?_, hactive⟩, ?_, fun i j hi => ?_⟩, fun entry hentry => ?_⟩
    · rw [hplace]
      decide
    · rw [hplace]
      exact iff_of_false (Finset.notMem_empty i) (by decide)
    · rw [hlock]
      refine iff_of_false Bool.false_ne_true ?_
      rintro ⟨i, hi⟩
      exact Await.noConfusion ((hplace i).symm.trans hi)
    · exact Await.noConfusion ((hplace i).symm.trans hi)
    · rw [hempty] at hentry
      exact absurd hentry List.not_mem_nil
  | next _ hstep ih => exact (step_turn ih hstep).held

/-- What a step keeps to, and leaves behind. -/
structure Scheduled (dsc : RunnerSync S) (action : Action S) (dsc' : RunnerSync S)
    (calls : List (PoolCall S)) : Prop where
  alone : ∀ made ∈ calls, Unaccompanied made.dsc
  rounds : ∃ start : RunnerSync S, start.syncPeers.values = dsc.syncPeers.values ∧
    ∃ rounds : List (List (PoolCall S)), calls = rounds.flatten ∧
      rounds.length ≤ execPoolModeLoopMax ∧ ∀ laps round, rounds[laps]? = some round →
        Round start laps round ∧ (round.map PoolCall.worker).Nodup
  /-- the lock is taken for one waiting loop, and the active loops are counted -/
  held : Exclusive dsc'.place dsc'.monitorLock dsc'.activeMulti
  freed : ∀ i, dsc.place i = .lockWait →
    dsc'.place i = .lockWait ∨ dsc'.monitorLock = false
  woken : ∀ i cancelled now, action = .lockWoken i cancelled now →
    (∀ j, dsc.place j ≠ .runPeer) → dsc'.monitorLock = false

theorem rounds_exclusive (dsc dsc' : RunnerSync S) (action : Action S) (calls : List (PoolCall S))
    (h : Reachable dsc) (hstep : step dsc action = some (dsc', calls)) :
    Scheduled dsc action dsc' calls := by
  have hturn := step_turn h.held hstep
  obtain ⟨start, hlisted, hkeyed, rounds, hcalls, hlen, hround⟩ := hturn.rounds
  refine ⟨hturn.alone, ⟨start, hlisted, rounds, hcalls, hlen, fun laps round hk => ?_⟩,
    hturn.held.exclusive, fun i hwait => step_lock hstep hwait, fun i cancelled now haction => ?_⟩
  · have hone := hround laps round hk
    rw [Nat.zero_add] at hone
    exact ⟨hone, hone.nodup hkeyed⟩
  · subst haction
    exact lockWoken_frees hstep h.held

end

/-- Methods that leave everything as it is. -/
@[reducible] def quietApp : SyncApp Unit where
  runPool shared _ _ _ := (false, shared)
  runStop shared _ := shared
  tickerLoop shared := (true, shared)

def noPeers : RunnerSync Unit where
  shared := ⟨(), false, .allRunning, fun _ => .running⟩
  syncPeers := .empty 2
  zombies := .empty 1
  orphans := .empty 1
  peerByIP := .empty 2
  tickerRunning := true
  monitorLock := false
  activeMulti := 0
  peer i := ⟨i, i, 30303, 30303⟩
  place _ := .idle

/-- Two workers are listed, and the pool mode is requested. -/
def twoPeers : RunnerSync Unit :=
  { noPeers with
    shared := ⟨(), true, .allRunning, fun _ => .running⟩
    syncPeers := (noPeers.syncPeers.put 0 0).put 1 1 }

/-- The first worker calls `runPool()` for both of them. -/
theorem twoPeers_round :
    ∃ dsc' calls, @step Unit quietApp twoPeers (.spawn 0 0) = some (dsc', calls) ∧
      calls.map (fun made => (made.worker, made.last)) = [(1, false), (0, true)] ∧
      Scheduled twoPeers (.spawn 0 0) dsc' calls := by
  have hconnect : @step Unit quietApp noPeers (.others ⟨(), true, .allRunning, fun _ => .running⟩
      ((noPeers.syncPeers.put 0 0).put 1 1) (.empty 1) (.empty 1) (.empty 2) true) =
      some (twoPeers, []) := rfl
  have hinit : @Reachable Unit quietApp noPeers :=
    @Reachable.init Unit quietApp noPeers (fun _ => rfl) rfl rfl rfl
  have hreach : @Reachable Unit quietApp twoPeers :=
    @Reachable.next Unit quietApp _ _ _ _ hinit hconnect
  exact ⟨_, _, rfl, rfl, @rounds_exclusive Unit quietApp twoPeers _ _ _ hreach rfl⟩

end Nimbus.Spec.SyncSched
