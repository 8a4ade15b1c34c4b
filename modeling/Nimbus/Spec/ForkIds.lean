import Mathlib.Data.List.Dedup
import Mathlib.Data.List.ReduceOption
import Mathlib.Data.List.Sort
import Nimbus.Native.Hardforks

/-!
# Fork ids

The forks of a chain are its distinct activations: the blocks after the genesis block and then
the times after the genesis time. A fork id stands for a number of passed forks. The calculator
has the fork ids of all numbers, and decides about a remote as the rules for fork ids ask.
-/

namespace Nimbus.Spec.Hardforks

open Nimbus Native.Hardforks

/-! ## Schedules -/

variable {vals : List (Option Nat)}

inductive Fork where
  | block (number : Nat)
  | time (timestamp : Nat)
  deriving DecidableEq

def Fork.activation : Fork → Nat
  | .block number => number
  | .time timestamp => timestamp

structure Head where
  number : Nat
  time : Nat

/-- The head is at or after the activation, in the unit of the fork. -/
def Fork.Passed (head : Head) : Fork → Prop
  | .block number => number ≤ head.number
  | .time timestamp => timestamp ≤ head.time

instance (head : Head) : DecidablePred (Fork.Passed head)
  | .block number => inferInstanceAs (Decidable (number ≤ head.number))
  | .time timestamp => inferInstanceAs (Decidable (timestamp ≤ head.time))

/-- The forks that make a difference after the genesis block, by block number and by time. -/
structure Schedule where
  genesisCRC : UInt32
  blocks : List Nat
  times : List Nat

def Schedule.ofTable (map : ForkTransitionTable) (genesisCRC : UInt32) (genesisTime : Nat) :
    Schedule where
  genesisCRC
  blocks := ((map.blockNumberThresholds ++ [map.mergeNetsplitBlock]).reduceOption.dedup).filter
    fun number => 0 < number
  times := (map.timeThresholds.reduceOption.dedup).filter fun time => genesisTime < time

namespace Schedule

variable (s : Schedule)

def forks : List Fork := s.blocks.map .block ++ s.times.map .time

/-- The checksum over the genesis block and some forks. -/
def checksum (crc : UInt32) (forks : List Fork) : UInt32 :=
  forks.foldl (fun crc fork => crc32 crc (toBytesBE fork.activation)) crc

/-- The fork hash of a node that has passed `n` forks. -/
def hash (n : Nat) : UInt32 := checksum s.genesisCRC (s.forks.take n)

/-- The fork that is next for a node that has passed `n` forks, zero for none. -/
def next (n : Nat) : Nat := (s.forks[n]?.map Fork.activation).getD 0

def forkId (n : Nat) : ForkId := { hash := s.hash n, next := s.next n }

/-- The number of the forks that are passed. -/
def passed (head : Head) : Nat := s.forks.countP fun fork => fork.Passed head

/-- The head in the unit of the forks to come: in blocks while there is a block fork to come,
and on a chain without forks by time. -/
def inUnit (head : Head) : Nat :=
  if (∃ number ∈ s.blocks, head.number < number) ∨ s.times = [] then head.number else head.time

/-- A head of a chain whose block forks come before its forks by time. -/
def Reachable (head : Head) : Prop :=
  (∃ time ∈ s.times, time ≤ head.time) → ∀ number ∈ s.blocks, number ≤ head.number

/-- Different numbers of forks have different hashes. -/
def NoCollision : Prop :=
  ∀ n ≤ s.forks.length, ∀ m ≤ s.forks.length, s.hash n = s.hash m → n = m

instance : Decidable s.NoCollision :=
  inferInstanceAs (Decidable (∀ n ≤ _, ∀ m ≤ _, _ → _))

/-- The rules for a node that has passed `n` forks. -/
inductive AcceptsAt (n : Nat) (head : Head) (remote : ForkId) : Prop
  /-- The remote has passed the same forks, and announces none that it should have passed. -/
  | same : remote.hash = s.hash n → remote.next = 0 ∨ s.inUnit head < remote.next →
      AcceptsAt n head remote
  /-- The remote has passed fewer forks and knows the next one. -/
  | behind (m : Nat) : m < n → remote.hash = s.hash m → remote.next = s.next m →
      AcceptsAt n head remote
  /-- The remote has passed more of the known forks. -/
  | ahead (m : Nat) : n < m → m ≤ s.forks.length → remote.hash = s.hash m →
      AcceptsAt n head remote

def Accepts (head : Head) (remote : ForkId) : Prop := s.AcceptsAt (s.passed head) head remote

end Schedule

/-! ## Ordered configurations -/

/-- The activations that are set do not go back. -/
def Ordered (vals : List (Option Nat)) : Prop := vals.reduceOption.Pairwise (· ≤ ·)

theorem ordered_of_checkForkOrder {last : Option Nat}
    (h : checkForkOrder last vals = true) : Ordered (last :: vals) := by
  -- induction on the fields, the last one that was set is in front of the others
  unfold Ordered
  induction vals generalizing last with
  | nil => cases last <;> simp [List.reduceOption]
  | cons val vals ih =>
    cases val with
    | none =>
      have hrest := ih h
      cases last <;> exact hrest
    | some cur =>
      cases last with
      | none => exact ih h
      | some number =>
        simp only [checkForkOrder] at h
        by_cases hlt : number > cur
        · rw [if_pos hlt] at h
          cases h
        · rw [if_neg hlt] at h
          have hrest := ih h
          refine List.pairwise_cons.mpr ⟨fun later hmem => ?_, hrest⟩
          obtain rfl | hmem := List.mem_cons.mp hmem
          · omega
          · have hle := (List.pairwise_cons.mp hrest).1 later hmem
            omega

/-- The conditions on the tables of an accepted configuration. -/
structure OrderedTable (map : ForkTransitionTable) : Prop where
  blocks : Ordered (map.blockNumberThresholds ++ [map.mergeNetsplitBlock])
  times : Ordered map.timeThresholds

theorem Ordered.sublist {vals vals' : List (Option Nat)} (h : Ordered vals)
    (hsub : vals'.Sublist vals) : Ordered vals' :=
  List.Pairwise.sublist (hsub.filterMap id) h

theorem daoCheck_eq (conf : ChainConfig) :
    daoCheck conf = { conf with daoForkBlock := conf.homesteadBlock } ∨ daoCheck conf = conf := by
  unfold daoCheck
  by_cases hnone : ¬ conf.daoForkSupport ∨ conf.daoForkBlock.isNone
  · rw [if_pos hnone]
    left
    dsimp only
    split <;> rfl
  · rw [if_neg hnone]
    dsimp only
    split
    · exact .inl rfl
    · exact .inr rfl

/-- The check for the DAO fork repeats the activation of its predecessor or none. -/
theorem ordered_daoCheck {conf : ChainConfig} (h : Ordered (forkBlockField conf)) :
    Ordered (forkBlockField (daoCheck conf)) := by
  have hrepeat : Ordered (conf.homesteadBlock :: conf.homesteadBlock ::
      (forkBlockField conf).tail.tail) := by
    have hrest : Ordered (conf.homesteadBlock :: (forkBlockField conf).tail.tail) :=
      h.sublist (.cons_cons _ (.cons _ (List.Sublist.refl _)))
    revert hrest
    unfold Ordered
    cases conf.homesteadBlock with
    | none => exact id
    | some number =>
      intro hrest
      refine List.pairwise_cons.mpr ⟨fun later hmem => ?_, hrest⟩
      obtain rfl | hmem := List.mem_cons.mp hmem
      · exact Nat.le_refl _
      · exact (List.pairwise_cons.mp hrest).1 later hmem
  obtain heq | heq := daoCheck_eq conf
  · rw [heq]
    exact hrepeat
  · rw [heq]
    exact h

theorem orderedTable_of_valid {conf : ChainConfig} (h : validateChainConfig conf = true) :
    OrderedTable (toForkTransitionTable (daoCheck conf)) := by
  obtain ⟨hblocks, htimes⟩ := Bool.and_eq_true_iff.mp h
  constructor
  · have hall := ordered_daoCheck (ordered_of_checkForkOrder hblocks)
    have hsub : ((toForkTransitionTable (daoCheck conf)).blockNumberThresholds.tail ++
        [(daoCheck conf).mergeNetsplitBlock]).Sublist (forkBlockField (daoCheck conf)) := by
      simp [toForkTransitionTable, forkBlockField]
    refine List.pairwise_cons.mpr ⟨fun _ _ => Nat.zero_le _, hall.sublist hsub⟩
  · have htimes' := ordered_of_checkForkOrder htimes
    obtain heq | heq := daoCheck_eq conf
    · rw [heq]
      exact htimes'
    · rw [heq]
      exact htimes'

/-! ## The calculator -/

theorem addFork_some {forks : List Nat} {number : Nat} (hsorted : forks.Pairwise (· < ·))
    (hle : ∀ fork ∈ forks, fork ≤ number) :
    (addFork forks (some number)).Pairwise (· < ·) ∧
      ∀ fork, fork ∈ addFork forks (some number) ↔ fork ∈ forks ∨ fork = number := by
  cases hlast : forks.getLast? with
  | none =>
    rw [List.getLast?_eq_none_iff] at hlast
    subst hlast
    simp [addFork]
  | some last =>
    obtain ⟨before, rfl⟩ := List.getLast?_eq_some_iff.mp hlast
    simp only [addFork, hlast]
    by_cases heq : last = number
    · -- the fork activates together with the last one
      subst heq
      simp only [ne_eq, not_true_eq_false, if_false]
      exact ⟨hsorted, fun fork => by simp⟩
    · simp only [ne_eq, heq, not_false_eq_true, if_true]
      have hlt : ∀ fork ∈ before ++ [last], fork < number := by
        intro fork hmem
        have hlast := hle last (by simp)
        obtain hmem | hmem := List.mem_append.mp hmem
        · have hbefore := (List.pairwise_append.mp hsorted).2.2 fork hmem last (by simp)
          omega
        · rw [List.mem_singleton] at hmem
          omega
      constructor
      · refine List.pairwise_append.mpr ⟨hsorted, List.pairwise_singleton _ _, ?_⟩
        intro fork hmem later hlater
        rw [List.mem_singleton] at hlater
        rw [hlater]
        exact hlt fork hmem
      · intro fork
        rw [List.mem_append, List.mem_singleton]

theorem foldl_addFork_spec {forks : List Nat}
    (hsorted : forks.Pairwise (· < ·)) (hvals : Ordered vals)
    (hle : ∀ fork ∈ forks, ∀ number ∈ vals.reduceOption, fork ≤ number) :
    (vals.foldl addFork forks).Pairwise (· < ·) ∧
      ∀ fork, fork ∈ vals.foldl addFork forks ↔ fork ∈ forks ∨ fork ∈ vals.reduceOption := by
  induction vals generalizing forks with
  | nil => exact ⟨hsorted, fun fork => by simp [List.reduceOption]⟩
  | cons val vals ih =>
    cases val with
    | none => exact ih hsorted hvals hle
    | some number =>
      obtain ⟨hfirst, hrest⟩ := List.pairwise_cons.mp hvals
      obtain ⟨hsorted', hmem'⟩ := addFork_some hsorted fun fork hmem =>
        hle fork hmem number List.mem_cons_self
      obtain ⟨hres, hmem⟩ := ih hsorted' hrest fun fork hfork later hlater => by
        obtain hfork | rfl := (hmem' fork).mp hfork
        · exact hle fork hfork later (.tail _ hlater)
        · exact hfirst later hlater
      refine ⟨hres, fun fork => ?_⟩
      rw [List.foldl_cons, hmem, hmem', List.reduceOption_cons_of_some, List.mem_cons, or_assoc]

theorem dedup_sorted (hvals : Ordered vals) : vals.reduceOption.dedup.Pairwise (· < ·) := by
  have hle := List.Pairwise.sublist (List.dedup_sublist _) hvals
  exact (hle.and (List.nodup_dedup _)).imp fun h => Nat.lt_of_le_of_ne h.1 h.2

/-- Adding the activations one after another leaves out the repeated ones. -/
theorem foldl_addFork (hvals : Ordered vals) : vals.foldl addFork [] = vals.reduceOption.dedup := by
  obtain ⟨hsorted, hmem⟩ := foldl_addFork_spec List.Pairwise.nil hvals fun fork h => nomatch h
  refine hsorted.eq_of_mem_iff (dedup_sorted hvals) fun fork => ?_
  rw [hmem]
  simp

theorem dropWhile_sorted {forks : List Nat} (hsorted : forks.Pairwise (· < ·)) (start : Nat) :
    (forks.dropWhile fun fork => fork ≤ start) = forks.filter fun fork => start < fork := by
  induction forks with
  | nil => rfl
  | cons fork forks ih =>
    obtain ⟨hfirst, hrest⟩ := List.pairwise_cons.mp hsorted
    by_cases hle : fork ≤ start
    · rw [List.dropWhile_cons_of_pos (by simpa using hle),
        List.filter_cons_of_neg (by simpa using hle), ih hrest]
    · rw [List.dropWhile_cons_of_neg (by simpa using hle), eq_comm, List.filter_eq_self]
      intro later hmem
      obtain rfl | hmem := List.mem_cons.mp hmem
      · simpa using hle
      · have hlt := hfirst later hmem
        simp only [decide_eq_true_eq]
        omega

section
variable {map : ForkTransitionTable} (genesisCRC : UInt32) (genesisTime : Nat)

theorem init_byBlock (hmap : OrderedTable map) :
    (ForkIdCalculator.init map genesisCRC genesisTime).byBlock =
      (Schedule.ofTable map genesisCRC genesisTime).blocks := by
  have hadd : addFork (map.blockNumberThresholds.foldl addFork []) map.mergeNetsplitBlock =
      (map.blockNumberThresholds ++ [map.mergeNetsplitBlock]).reduceOption.dedup := by
    rw [← foldl_addFork hmap.blocks, List.foldl_append]
    rfl
  have hsorted := dedup_sorted hmap.blocks
  show (if (addFork _ _).head? = some 0 then (addFork _ _).tail else addFork _ _) = _
  unfold Schedule.ofTable
  rw [hadd]
  generalize (map.blockNumberThresholds ++ [map.mergeNetsplitBlock]).reduceOption.dedup = forks
    at hsorted
  rw [← dropWhile_sorted hsorted]
  cases forks with
  | nil => rfl
  | cons fork forks =>
    obtain ⟨hfirst, hrest⟩ := List.pairwise_cons.mp hsorted
    by_cases hzero : fork = 0
    · -- only the first fork can be in block 0
      subst hzero
      have hall : (forks.dropWhile fun fork => fork ≤ 0) = forks := by
        rw [dropWhile_sorted hrest, List.filter_eq_self]
        intro later hmem
        simpa using hfirst later hmem
      rw [List.dropWhile_cons_of_pos (by simp), hall]
      rfl
    · rw [List.dropWhile_cons_of_neg (by simpa using hzero)]
      simp [hzero]

theorem init_byTime (hmap : OrderedTable map) :
    (ForkIdCalculator.init map genesisCRC genesisTime).byTime =
      (Schedule.ofTable map genesisCRC genesisTime).times := by
  show (map.timeThresholds.foldl addFork []).dropWhile _ = _
  rw [foldl_addFork hmap.times, dropWhile_sorted (dedup_sorted hmap.times)]
  rfl

/-- The entries of a history that begins with `crc`. -/
def entries (crc : UInt32) : List Nat → List ForkId
  | [] => [{ hash := crc, next := 0 }]
  | fork :: forks =>
    { hash := crc, next := fork } :: entries (crc32 crc (toBytesBE fork)) forks

theorem foldl_addHistory (history : List ForkId) (crc : UInt32) (forks : List Nat) :
    (forks.foldl addHistory (history, crc)).1 ++
        [{ hash := (forks.foldl addHistory (history, crc)).2, next := 0 }] =
      history ++ entries crc forks := by
  induction forks generalizing history crc with
  | nil => rfl
  | cons fork forks ih =>
    rw [List.foldl_cons, addHistory, ih, List.append_assoc]
    rfl

theorem entries_getElem? (crc : UInt32) (forks : List Fork) (n : Nat) :
    (entries crc (forks.map Fork.activation))[n]? =
      if n ≤ forks.length then
        some { hash := Schedule.checksum crc (forks.take n)
               next := (forks[n]?.map Fork.activation).getD 0 }
      else none := by
  induction forks generalizing crc n with
  | nil => cases n <;> simp [entries, Schedule.checksum]
  | cons fork forks ih =>
    cases n with
    | zero => simp [entries, Schedule.checksum]
    | succ n =>
      rw [List.map_cons, entries, List.getElem?_cons_succ, ih]
      simp [Schedule.checksum]

theorem init_forkHistory (hmap : OrderedTable map) (n : Nat) :
    let s := Schedule.ofTable map genesisCRC genesisTime
    (ForkIdCalculator.init map genesisCRC genesisTime).forkHistory[n]? =
      if n ≤ s.forks.length then some (s.forkId n) else none := by
  intro s
  have hblocks := init_byBlock genesisCRC genesisTime hmap
  have htimes := init_byTime genesisCRC genesisTime hmap
  have hhistory : (ForkIdCalculator.init map genesisCRC genesisTime).forkHistory =
      entries genesisCRC (s.forks.map Fork.activation) := by
    have hforks : s.forks.map Fork.activation = s.blocks ++ s.times := by
      unfold Schedule.forks
      rw [List.map_append, List.map_map, List.map_map]
      exact congrArg₂ _ (List.map_id _) (List.map_id _)
    rw [hforks, ← List.nil_append (entries _ _), ← foldl_addHistory, List.foldl_append,
      ← hblocks, ← htimes]
    rfl
  rw [hhistory, entries_getElem?]
  rfl

end

/-! ## The local fork id -/

/-- The number of the forks up to the first one that is to come. -/
def leading (head : Head) (forks : List Fork) : Nat :=
  (forks.takeWhile (Fork.Passed head ·)).length

section
variable {head : Head}

theorem leading_cons (fork : Fork) (forks : List Fork) :
    leading head (fork :: forks) = if fork.Passed head then leading head forks + 1 else 0 := by
  unfold leading
  by_cases hpassed : fork.Passed head
  · rw [List.takeWhile_cons_of_pos (by simpa using hpassed), if_pos hpassed, List.length_cons]
  · rw [List.takeWhile_cons_of_neg (by simpa using hpassed), if_neg hpassed, List.length_nil]

theorem leading_le (head : Head) (forks : List Fork) : leading head forks ≤ forks.length :=
  (List.takeWhile_sublist _).length_le

theorem not_passed {forks : List Fork} {fork : Fork} (h : forks[leading head forks]? = some fork) :
    ¬ fork.Passed head := by
  induction forks with
  | nil => cases h
  | cons first forks ih =>
    rw [leading_cons] at h
    by_cases hpassed : first.Passed head
    · rw [if_pos hpassed] at h
      exact ih h
    · rw [if_neg hpassed] at h
      cases h
      exact hpassed

theorem leading_blocks (head : Head) (blocks : List Nat) (forks : List Fork) :
    blocks.length ≤ leading head (blocks.map .block ++ forks) ↔
      ∀ number ∈ blocks, number ≤ head.number := by
  induction blocks with
  | nil => simp
  | cons number blocks ih =>
    rw [List.map_cons, List.cons_append, leading_cons, List.forall_mem_cons,
      ← ih]
    by_cases hpassed : number ≤ head.number
    · rw [if_pos (show (Fork.block number).Passed head from hpassed)]
      simp [hpassed]
    · rw [if_neg (show ¬ (Fork.block number).Passed head from hpassed)]
      simp [hpassed]

/-- When a passed fork is never after one that is to come, all passed forks are counted. -/
theorem leading_eq_countP {forks : List Fork}
    (h : forks.Pairwise fun fork later => later.Passed head → fork.Passed head) :
    leading head forks = forks.countP fun fork => fork.Passed head := by
  induction forks with
  | nil => rfl
  | cons fork forks ih =>
    obtain ⟨hfirst, hrest⟩ := List.pairwise_cons.mp h
    rw [leading_cons, ih hrest]
    by_cases hpassed : fork.Passed head
    · simp [hpassed]
    · rw [if_neg hpassed]
      have hnone : forks.countP (fun fork => decide (fork.Passed head)) = 0 := by
        rw [List.countP_eq_zero]
        intro later hmem hlater
        exact hpassed (hfirst later hmem (of_decide_eq_true hlater))
      simp [hpassed, hnone]

/-- The fork id at a head when the forks before have the checksum `crc`. -/
def idFrom (head : Head) (crc : UInt32) (forks : List Fork) : ForkId where
  hash := Schedule.checksum crc (forks.take (leading head forks))
  next := (forks[leading head forks]?.map Fork.activation).getD 0

theorem idFrom_cons (crc : UInt32) (fork : Fork) (forks : List Fork) :
    idFrom head crc (fork :: forks) =
      if fork.Passed head then idFrom head (crc32 crc (toBytesBE fork.activation)) forks
      else { hash := crc, next := fork.activation } := by
  unfold idFrom
  rw [leading_cons]
  by_cases hpassed : fork.Passed head
  · simp [hpassed, Schedule.checksum]
  · simp [hpassed, Schedule.checksum]

theorem passForks_times (times : List Nat) (crc : UInt32) :
    (match passForks head.time times crc with
      | .error forkId => forkId
      | .ok crc => { hash := crc, next := 0 }) = idFrom head crc (times.map .time) := by
  induction times generalizing crc with
  | nil => rfl
  | cons time times ih =>
    rw [List.map_cons, idFrom_cons, passForks]
    by_cases hpassed : time ≤ head.time
    · simp only [if_pos hpassed]
      rw [ih, if_pos (show (Fork.time time).Passed head from hpassed)]
      rfl
    · simp only [if_neg hpassed]
      rw [if_neg (show ¬ (Fork.time time).Passed head from hpassed)]
      rfl

theorem passForks_blocks (head : Head) (blocks times : List Nat) (crc : UInt32) :
    (match passForks head.number blocks crc with
      | .error forkId => forkId
      | .ok crc =>
        match passForks head.time times crc with
        | .error forkId => forkId
        | .ok crc => { hash := crc, next := 0 }) =
      idFrom head crc (blocks.map .block ++ times.map .time) := by
  induction blocks generalizing crc with
  | nil => exact passForks_times times crc
  | cons number blocks ih =>
    rw [List.map_cons, List.cons_append, idFrom_cons, passForks]
    by_cases hpassed : number ≤ head.number
    · simp only [if_pos hpassed]
      rw [ih, if_pos (show (Fork.block number).Passed head from hpassed)]
      rfl
    · simp only [if_neg hpassed]
      rw [if_neg (show ¬ (Fork.block number).Passed head from hpassed)]
      rfl

end

section
variable {map : ForkTransitionTable} {genesisCRC : UInt32} {genesisTime : Nat}

theorem calculateForkId_eq (hmap : OrderedTable map) (number time : Nat) :
    let s := Schedule.ofTable map genesisCRC genesisTime
    (ForkIdCalculator.init map genesisCRC genesisTime).calculateForkId number time =
      s.forkId (leading ⟨number, time⟩ s.forks) := by
  intro s
  unfold ForkIdCalculator.calculateForkId
  rw [init_byBlock genesisCRC genesisTime hmap, init_byTime genesisCRC genesisTime hmap]
  exact passForks_blocks ⟨number, time⟩ s.blocks s.times genesisCRC

/-- All passed forks are counted on a chain whose block forks come first. -/
theorem leading_eq_passed (hmap : OrderedTable map) {head : Head} :
    let s := Schedule.ofTable map genesisCRC genesisTime
    s.Reachable head → leading head s.forks = s.passed head := by
  intro s hreach
  apply leading_eq_countP
  have hblocks : s.blocks.Pairwise (· < ·) := (dedup_sorted hmap.blocks).filter _
  have htimes : s.times.Pairwise (· < ·) := (dedup_sorted hmap.times).filter _
  refine List.pairwise_append.mpr ⟨?_, ?_, ?_⟩
  · rw [List.pairwise_map]
    exact hblocks.imp fun hlt hpassed => Nat.le_trans (Nat.le_of_lt hlt) hpassed
  · rw [List.pairwise_map]
    exact htimes.imp fun hlt hpassed => Nat.le_trans (Nat.le_of_lt hlt) hpassed
  · intro fork hfork later hlater hpassed
    obtain ⟨number, hnumber, rfl⟩ := List.mem_map.mp hfork
    obtain ⟨time, htime, rfl⟩ := List.mem_map.mp hlater
    exact hreach ⟨time, htime, hpassed⟩ number hnumber

/-! ## The rules -/

theorem forkPos_eq (hmap : OrderedTable map) {n : Nat} :
    let s := Schedule.ofTable map genesisCRC genesisTime
    s.NoCollision → n ≤ s.forks.length →
      (ForkIdCalculator.init map genesisCRC genesisTime).forkPos (s.forkId n) = n := by
  intro s hsums hn
  have hhistory := init_forkHistory genesisCRC genesisTime hmap
  have hfind : (ForkIdCalculator.init map genesisCRC genesisTime).forkHistory.findIdx?
      (fun historicalId => (s.forkId n).hash == historicalId.hash) = some n := by
    have hentry := (hhistory n).trans (if_pos hn)
    obtain ⟨hlt, hget⟩ := List.getElem?_eq_some_iff.mp hentry
    rw [List.findIdx?_eq_some_iff_getElem]
    refine ⟨hlt, by rw [hget]; exact beq_self_eq_true _, fun m hm => ?_⟩
    have hentry' := (hhistory m).trans (if_pos (show m ≤ s.forks.length by omega))
    obtain ⟨hlt', hget'⟩ := List.getElem?_eq_some_iff.mp hentry'
    rw [hget']
    -- an earlier entry with this hash would be a collision
    have hne : s.hash n ≠ s.hash m := fun heq => by
      have hsame := hsums n hn m (by omega) heq
      omega
    exact fun h => hne (eq_of_beq h)
  unfold ForkIdCalculator.forkPos
  rw [hfind]

theorem checkHistory_iff (remote : ForkId) (localForkPos : Int) (history : List ForkId) (i : Nat) :
    checkHistory remote localForkPos history i = true ↔
      ∃ m entry, history[m]? = some entry ∧ remote.hash = entry.hash ∧
        (∀ j entry', j < m → history[j]? = some entry' → remote.hash ≠ entry'.hash) ∧
        (localForkPos < (i + m : Nat) ∨ remote.next = entry.next) := by
  induction history generalizing i with
  | nil => simp [checkHistory]
  | cons first history ih =>
    rw [checkHistory]
    by_cases hhash : remote.hash = first.hash
    · rw [if_pos hhash]
      constructor
      · intro h
        refine ⟨0, first, rfl, hhash, fun j _ hj => absurd hj (Nat.not_lt_zero j), ?_⟩
        by_cases hpos : (i : Int) > localForkPos
        · exact .inl hpos
        · rw [if_neg hpos] at h
          exact .inr (of_decide_eq_true h)
      · intro ⟨m, entry, hget, _, hfirst, hok⟩
        cases m with
        | zero =>
          cases hget
          by_cases hpos : (i : Int) > localForkPos
          · rw [if_pos hpos]
          · rw [if_neg hpos]
            obtain hok | hok := hok
            · exact absurd hok hpos
            · exact decide_eq_true hok
        | succ m => exact absurd hhash (hfirst 0 first (Nat.succ_pos m) rfl)
    · rw [if_neg hhash, ih]
      constructor
      · intro ⟨m, entry, hget, heq, hfirst, hok⟩
        refine ⟨m + 1, entry, hget, heq, fun j entry' hj hget' => ?_, ?_⟩
        · cases j with
          | zero =>
            cases hget'
            exact hhash
          | succ j => exact hfirst j entry' (by omega) hget'
        · rwa [Nat.add_right_comm] at hok
      · intro ⟨m, entry, hget, heq, hfirst, hok⟩
        cases m with
        | zero =>
          cases hget
          exact absurd heq hhash
        | succ m =>
          refine ⟨m, entry, hget, heq, fun j entry' hj hget' => ?_, ?_⟩
          · exact hfirst (j + 1) entry' (by omega) hget'
          · rwa [Nat.add_right_comm]

/-- The head is compared in the unit of the forks to come. -/
theorem headUnit_eq (hmap : OrderedTable map) {head : Head} :
    let s := Schedule.ofTable map genesisCRC genesisTime
    let calculator := ForkIdCalculator.init map genesisCRC genesisTime
    (if (leading head s.forks : Int) ≥ calculator.byBlock.length ∧ calculator.byTime.length > 0
      then head.time else head.number) = s.inUnit head := by
  intro s calculator
  have hpos := leading_blocks head s.blocks (s.times.map .time)
  rw [init_byBlock genesisCRC genesisTime hmap, init_byTime genesisCRC genesisTime hmap]
  unfold Schedule.inUnit
  by_cases hunit : (∃ number ∈ s.blocks, head.number < number) ∨ s.times = []
  · rw [if_pos hunit]
    apply if_neg
    intro ⟨hle, htimes⟩
    obtain ⟨number, hmem, hlt⟩ | hnil := hunit
    · have hpassed := hpos.mp (Int.ofNat_le.mp hle) number hmem
      omega
    · rw [show (Schedule.ofTable map genesisCRC genesisTime).times = [] from hnil] at htimes
      exact Nat.lt_irrefl 0 htimes
  · rw [if_neg hunit]
    simp only [not_or, not_exists, not_and, Nat.not_lt] at hunit
    exact if_pos ⟨Int.ofNat_le.mpr (hpos.mpr hunit.1), List.length_pos_iff.mpr hunit.2⟩

theorem compatible_eq (hmap : OrderedTable map) (remote : ForkId) (head : Head) :
    let s := Schedule.ofTable map genesisCRC genesisTime
    let calculator := ForkIdCalculator.init map genesisCRC genesisTime
    s.NoCollision →
      calculator.compatible remote head.number head.time =
        if remote.hash = s.hash (leading head s.forks) then
          decide (remote.next = 0 ∨ s.inUnit head < remote.next)
        else checkHistory remote (leading head s.forks) calculator.forkHistory 0 := by
  intro s calculator hsums
  have hid : calculator.calculateForkId head.number head.time = s.forkId (leading head s.forks) :=
    calculateForkId_eq hmap head.number head.time
  have hpos : calculator.forkPos (s.forkId (leading head s.forks)) = leading head s.forks :=
    forkPos_eq hmap hsums (leading_le _ s.forks)
  unfold ForkIdCalculator.compatible
  simp only [hid, hpos]
  rw [headUnit_eq hmap]
  by_cases hsame : remote.hash = (s.forkId (leading head s.forks)).hash
  · rw [if_pos hsame, if_pos (show remote.hash = s.hash _ from hsame)]
    by_cases hzero : remote.next = 0
    · simp [hzero]
    · simp only [ne_eq, hzero, not_false_eq_true, if_true, false_or]
      by_cases hpassed : s.inUnit head ≥ remote.next
      · rw [if_pos hpassed, eq_comm, decide_eq_false_iff_not]
        omega
      · rw [if_neg hpassed, eq_comm, decide_eq_true_iff]
        omega
  · rw [if_neg hsame, if_neg (show ¬ remote.hash = s.hash _ from hsame)]

theorem compatible_iff (hmap : OrderedTable map) (remote : ForkId) (head : Head) :
    let s := Schedule.ofTable map genesisCRC genesisTime
    let calculator := ForkIdCalculator.init map genesisCRC genesisTime
    s.NoCollision →
      (calculator.compatible remote head.number head.time = true ↔
        s.AcceptsAt (leading head s.forks) head remote) := by
  intro s calculator hsums
  have hle := leading_le head s.forks
  have hhistory := init_forkHistory genesisCRC genesisTime hmap
  rw [compatible_eq hmap remote head hsums]
  generalize hn : leading head s.forks = n at hle
  by_cases hsame : remote.hash = s.hash n
  · rw [if_pos hsame, decide_eq_true_iff]
    constructor
    · exact .same hsame
    · intro h
      cases h with
      | same _ hnext => exact hnext
      | behind m hlt heq =>
        have hcollision := hsums n hle m (by omega) (hsame.symm.trans heq)
        omega
      | ahead m hlt hm heq =>
        have hcollision := hsums n hle m hm (hsame.symm.trans heq)
        omega
  · rw [if_neg hsame, checkHistory_iff]
    constructor
    · intro ⟨m, entry, hget, heq, _, hok⟩
      rw [hhistory] at hget
      by_cases hm : m ≤ s.forks.length
      · rw [if_pos hm] at hget
        cases hget
        obtain hlt | hgt := Nat.lt_or_gt_of_ne (show m ≠ n from fun h => hsame (h ▸ heq))
        · obtain hahead | hnext := hok
          · omega
          · exact .behind m hlt heq hnext
        · exact .ahead m hgt hm heq
      · rw [if_neg hm] at hget
        cases hget
    · -- the entry is the only one with the hash of the remote
      have honly {m : Nat} (hm : m ≤ s.forks.length) (heq : remote.hash = s.hash m) :
          ∀ j entry', j < m → calculator.forkHistory[j]? = some entry' →
            remote.hash ≠ entry'.hash := by
        intro j entry' hj hget' heq'
        rw [hhistory j, if_pos (show j ≤ s.forks.length by omega)] at hget'
        cases hget'
        have hcollision := hsums m hm j (by omega) (heq.symm.trans heq')
        omega
      have hentry {m : Nat} (hm : m ≤ s.forks.length) :
          calculator.forkHistory[m]? = some (s.forkId m) := (hhistory m).trans (if_pos hm)
      intro h
      cases h with
      | same heq _ => exact absurd heq hsame
      | behind m hlt heq hnext =>
        have hm : m ≤ s.forks.length := by omega
        exact ⟨m, s.forkId m, hentry hm, heq, honly hm heq, .inr hnext⟩
      | ahead m hlt hm heq =>
        exact ⟨m, s.forkId m, hentry hm, heq, honly hm heq, .inl (by omega)⟩

theorem blocks_le_of_time {s : Schedule} {n time : Nat} (h : s.forks[n]? = some (.time time)) :
    s.blocks.length ≤ n := by
  by_contra hlt
  unfold Schedule.forks at h
  rw [List.getElem?_append_left (by rw [List.length_map]; omega), List.getElem?_map] at h
  obtain ⟨number, hget, h⟩ := Option.map_eq_some_iff.mp h
  cases h

/-- Two nodes of one chain accept each other, whatever their heads are. -/
theorem accepts_forkId (s : Schedule) (head head' : Head) :
    s.AcceptsAt (leading head s.forks) head (s.forkId (leading head' s.forks)) := by
  have hle' := leading_le head' s.forks
  obtain hlt | heq | hgt := Nat.lt_trichotomy (leading head' s.forks) (leading head s.forks)
  · exact .behind _ hlt rfl rfl
  · refine .same (congrArg s.hash heq) ?_
    rw [heq]
    show s.next _ = 0 ∨ _ < s.next _
    unfold Schedule.next
    cases hnext : s.forks[leading head s.forks]? with
    | none => exact .inl rfl
    | some fork =>
      -- the next fork is not passed, in its own unit
      right
      have hcoming := not_passed hnext
      have hblocks := leading_blocks head s.blocks (s.times.map .time)
      unfold Schedule.inUnit
      cases fork with
      | block number =>
        have hmem : number ∈ s.blocks := by
          have hmem := List.mem_of_getElem? hnext
          simpa [Schedule.forks] using hmem
        have hlt : head.number < number := Nat.lt_of_not_le hcoming
        rw [if_pos (.inl ⟨number, hmem, hlt⟩)]
        exact hlt
      | time time =>
        have hmem : time ∈ s.times := by
          have hmem := List.mem_of_getElem? hnext
          simpa [Schedule.forks] using hmem
        have hlt : head.time < time := Nat.lt_of_not_le hcoming
        rw [if_neg]
        · exact hlt
        · intro hunit
          obtain ⟨number, hnumber, hbefore⟩ | hnil := hunit
          · have hpassed := hblocks.mp (blocks_le_of_time hnext) number hnumber
            omega
          · rw [hnil] at hmem
            cases hmem
  · exact .ahead _ hgt hle' rfl

end

/-- The calculator of an accepted configuration decides as the rules for fork ids ask at every
head of the chain, its fork ids are those of its history, and two nodes of the chain accept each
other. -/
theorem compatible_ok (conf : ChainConfig) (genesisCRC : UInt32) (genesisTime : Nat)
    (hvalid : validateChainConfig conf = true) :
    let map := toForkTransitionTable (daoCheck conf)
    let s := Schedule.ofTable map genesisCRC genesisTime
    let calculator := ForkIdCalculator.init map genesisCRC genesisTime
    s.NoCollision →
      (∀ head remote, s.Reachable head →
        (calculator.compatible remote head.number head.time = true ↔ s.Accepts head remote)) ∧
      (∀ number time, calculator.calculateForkId number time ∈ calculator.forkHistory) ∧
      (∀ number time number' time',
        calculator.compatible (calculator.calculateForkId number' time') number time = true) := by
  intro map s calculator hsums
  have hmap : OrderedTable map := orderedTable_of_valid hvalid
  refine ⟨fun head remote hreach => ?_, fun number time => ?_, fun number time number' time' => ?_⟩
  · rw [compatible_iff hmap remote head hsums, leading_eq_passed hmap hreach]
    rfl
  · rw [calculateForkId_eq hmap]
    have hentry := init_forkHistory genesisCRC genesisTime hmap (leading ⟨number, time⟩ s.forks)
    exact List.mem_of_getElem? (hentry.trans (if_pos (leading_le _ s.forks)))
  · rw [calculateForkId_eq hmap]
    exact (compatible_iff hmap _ ⟨number, time⟩ hsums).mpr (accepts_forkId s _ _)

/-- Two block forks, of which one is a split after the merge, and two forks by time. The other
activations are those of the genesis block, or repeat one of these. -/
def fourForks : ChainConfig :=
  { homesteadBlock := some 0
    eip150Block := some 5
    londonBlock := some 5
    mergeNetsplitBlock := some 7
    shanghaiTime := some 0
    cancunTime := some 100
    pragueTime := some 100
    osakaTime := some 200 }

theorem compatible_fourForks : let map := toForkTransitionTable (daoCheck fourForks)
    let s := Schedule.ofTable map 1 10
    let calculator := ForkIdCalculator.init map 1 10
    s.forks = [.block 5, .block 7, .time 100, .time 200] ∧ s.Reachable ⟨8, 150⟩ ∧
      (calculator.compatible { hash := s.hash 2, next := 100 } 8 150 = true ↔
        s.Accepts ⟨8, 150⟩ { hash := s.hash 2, next := 100 }) ∧
      calculator.calculateForkId 8 150 ∈ calculator.forkHistory ∧
      calculator.compatible (calculator.calculateForkId 3 20) 8 150 = true := by
  intro map s calculator
  have hreach : s.Reachable ⟨8, 150⟩ := fun _ => by decide +kernel
  obtain ⟨hrules, hhistory, hsame⟩ := compatible_ok fourForks 1 10 (by decide) (by decide +kernel)
  exact ⟨by decide +kernel, hreach, hrules ⟨8, 150⟩ _ hreach, hhistory 8 150, hsame 8 150 3 20⟩

end Nimbus.Spec.Hardforks
