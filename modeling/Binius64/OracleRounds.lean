import Binius64.FieldBuffer
import Binius64.OracleChannel

/-!
# Rounds of oracles

A protocol's oracles fall into rounds: the runs of them between two challenges.
-/

namespace Binius64.OracleChannel

open Ntt List

variable {w : ℕ} {F : Type}

/-- An oracle of a round. -/
structure Member (w : ℕ) (F : Type) where
  buffer : FieldBuffer w F
  isWitnessDependent : Bool

def buffers (round : List (Member w F)) : List (FieldBuffer w F) := round.map Member.buffer

/-- A step that prover and verifier make together. -/
inductive RoundCall (w : ℕ) (F : Type) where
  /-- An oracle is sent and received. -/
  | oracle (member : Member w F)
  | sample
  | sampleBits (bits : ℕ)
  /-- A relation is queued, the transparent polynomial by its values and by its evaluation. -/
  | relation (handle : ℕ) (table : FieldBuffer w F) (transparent : TransparentEvalFn F) (claim : F)
  /-- Elements are sent and received. -/
  | message (vals : List F)
  | observe (vals : List F)
  | observeWords (words : List (BitVec 64))

def RoundCall.verifierCall : RoundCall w F → VerifierCall F ℕ
  | .oracle member => .recvOracle member.buffer.logLen member.isWitnessDependent
  | .sample => .sample
  | .sampleBits bits => .sampleBits bits
  | .relation handle _ transparent claim => .verifyOracleRelation handle transparent claim
  | .message vals => .recvMany vals.length
  | .observe vals => .observeMany vals
  | .observeWords words => .observeWords words

/-- The rounds of a run: those that are closed, and the one that is open. -/
structure Rounds (w : ℕ) (F : Type) where
  closed : List (List (Member w F))
  opened : List (Member w F)

namespace Rounds

def close (rounds : Rounds w F) : Rounds w F :=
  if rounds.opened = [] then rounds else ⟨rounds.closed ++ [rounds.opened],[]⟩

def step (rounds : Rounds w F) : RoundCall w F → Rounds w F
  | .oracle member => { rounds with opened := rounds.opened ++ [member] }
  | .sample => rounds.close
  | .sampleBits _ => rounds.close
  | .relation _ _ _ _ => rounds.close
  | _ => rounds

def first (rounds : Rounds w F) (g : ℕ) : ℕ := (rounds.closed.take g).flatten.length

def nClosed (rounds : Rounds w F) : ℕ := rounds.closed.flatten.length

variable {rounds : Rounds w F}

theorem close_of_nil (h : rounds.opened = []) : rounds.close = rounds := if_pos h

theorem close_of_ne_nil (h : rounds.opened ≠ []) :
    rounds.close = ⟨rounds.closed ++ [rounds.opened],[]⟩ := if_neg h

theorem first_append {opened : List (Member w F)} {g : ℕ} (hg : g < rounds.closed.length)
    (round : List (Member w F)) : first ⟨rounds.closed ++ [round],opened⟩ g = rounds.first g := by
  rw [first,first,take_append_of_le_length hg.le]

theorem first_append_self (closed : List (List (Member w F))) (round opened : List (Member w F)) :
    first ⟨closed ++ [round],opened⟩ closed.length = closed.flatten.length := by
  rw [first,take_left]

theorem first_add_le {g : ℕ} {round : List (Member w F)}
    (h : rounds.closed[g]? = some round) : rounds.first g + round.length ≤ rounds.nClosed := by
  obtain ⟨hg,hround⟩ := List.getElem?_eq_some_iff.mp h
  have hsplit : rounds.closed.flatten =
      (rounds.closed.take g).flatten ++ (round ++ (rounds.closed.drop (g + 1)).flatten) := by
    conv_lhs => rw [←take_append_drop g rounds.closed,drop_eq_getElem_cons hg,hround]
    rw [flatten_append,flatten_cons]
  rw [nClosed,hsplit,length_append,length_append,first]
  omega

end Rounds

/-- The rounds of a sequence of steps, the last one closed. -/
def roundsOf (calls : List (RoundCall w F)) : List (List (Member w F)) :=
  (calls.foldl Rounds.step ⟨[],[]⟩).close.closed

def Member.spec (isZk : Bool) (member : Member w F) : OracleSpec :=
  ⟨member.buffer.logLen,isZk && member.isWitnessDependent⟩

namespace OracleSchedule

theorem rounds_endRound {s : OracleSchedule} (h : s.ends.getLast?.getD 0 < s.specs.length) :
    s.endRound.rounds = s.rounds ++ [s.specs.drop (s.ends.getLast?.getD 0)] := by
  have hzip : ∀ (ends : List ℕ) (start stop : ℕ), (start :: (ends ++ [stop])).zip (ends ++ [stop]) =
      (start :: ends).zip ends ++ [(ends.getLast?.getD start,stop)] := by
    intro ends
    induction ends with
    | nil => exact fun start stop => rfl
    | cons e ends ih =>
      intro start stop
      have hlast : ends.getLast?.getD e = (e :: ends).getLast?.getD start := by
        rw [getLast?_cons]
        rfl
      rw [cons_append,zip_cons_cons,ih e stop,zip_cons_cons,hlast]
      rfl
  have hend : s.endRound = ⟨s.specs,s.ends ++ [s.specs.length]⟩ := if_pos h
  rw [hend,rounds,rounds]
  simp only
  rw [hzip,map_append,map_singleton]
  congr 2
  exact take_of_length_le (by rw [length_drop])

end OracleSchedule

structure Scheduled (isZk : Bool) (rounds : Rounds w F) (s : OracleSetupChannel) : Prop where
  isZk_eq : s.isZk = isZk
  specs : s.schedule.specs = (rounds.closed.flatten ++ rounds.opened).map (Member.spec isZk)
  last : s.schedule.ends.getLast?.getD 0 = rounds.nClosed
  ends_le : ∀ e ∈ s.schedule.ends, e ≤ rounds.nClosed
  rounds_eq : s.schedule.rounds = rounds.closed.map (map (Member.spec isZk))

theorem Scheduled.close {isZk : Bool} {rounds : Rounds w F} {s : OracleSetupChannel}
    (h : Scheduled isZk rounds s) :
    Scheduled isZk rounds.close { s with schedule := s.schedule.endRound } := by
  have hcount : s.schedule.specs.length = rounds.nClosed + rounds.opened.length := by
    rw [h.specs,length_map,length_append,Rounds.nClosed]
  by_cases hopen : rounds.opened = []
  · have hsame : s.schedule.endRound = s.schedule := by
      refine if_neg ?_
      rw [h.last,hcount,hopen]
      exact lt_irrefl _
    rw [Rounds.close_of_nil hopen,hsame]
    exact h
  · have hpos := length_pos_iff.mpr hopen
    have hlt : s.schedule.ends.getLast?.getD 0 < s.schedule.specs.length := by
      rw [h.last,hcount]
      exact Nat.lt_add_of_pos_right hpos
    have hend : s.schedule.endRound = ⟨s.schedule.specs,s.schedule.ends ++ [s.schedule.specs.length]⟩ :=
      if_pos hlt
    have hclosed : (rounds.closed ++ [rounds.opened]).flatten.length = s.schedule.specs.length := by
      rw [flatten_append,flatten_singleton,length_append,hcount,Rounds.nClosed]
    rw [Rounds.close_of_ne_nil hopen]
    refine ⟨h.isZk_eq,?_,?_,?_,?_⟩
    · rw [hend,flatten_append,flatten_singleton,append_nil]
      exact h.specs
    · rw [hend]
      simp only [getLast?_append,getLast?_singleton,Option.some_or,Option.getD_some,Rounds.nClosed]
      exact hclosed.symm
    · rw [hend]
      intro e he
      simp only [Rounds.nClosed]
      rw [hclosed]
      rcases mem_append.mp he with he | he
      · rw [hcount]
        exact (h.ends_le e he).trans (Nat.le_add_right _ _)
      · rw [mem_singleton.mp he]
    · simp only
      rw [OracleSchedule.rounds_endRound hlt,h.rounds_eq,h.last,h.specs,map_append,map_append,
        map_singleton]
      congr 2
      rw [Rounds.nClosed]
      exact drop_left' (length_map _)

theorem Scheduled.step {isZk : Bool} {rounds : Rounds w F} {s : OracleSetupChannel}
    (h : Scheduled isZk rounds s) (call : RoundCall w F) :
    Scheduled isZk (rounds.step call) (OracleSetupChannel.call call.verifierCall s) := by
  cases call with
  | oracle member =>
    refine ⟨h.isZk_eq,?_,h.last,h.ends_le,?_⟩
    · have hspec : member.spec isZk = ⟨member.buffer.logLen,s.isZk && member.isWitnessDependent⟩ := by
        rw [h.isZk_eq]
        rfl
      rw [Rounds.step,←append_assoc,map_append,map_singleton,hspec,←h.specs]
      rfl
    · rw [Rounds.step,←h.rounds_eq]
      refine map_congr_left fun entry hentry => ?_
      -- the oracles of a closed round are recorded before
      obtain ⟨-,hmem⟩ := of_mem_zip hentry
      have hle := h.ends_le _ hmem
      have hlen : entry.2 ≤ s.schedule.specs.length := by
        rw [h.specs,length_map,length_append]
        exact hle.trans (Nat.le_add_right _ _)
      change ((s.schedule.specs ++ [_]).drop entry.1).take (entry.2 - entry.1) = _
      by_cases hin : entry.1 ≤ s.schedule.specs.length
      · rw [drop_append_of_le_length hin,take_append_of_le_length]
        rw [length_drop]
        omega
      · have hzero : entry.2 - entry.1 = 0 := by omega
        rw [hzero,take_zero,take_zero]
  | sample => exact h.close
  | sampleBits bits => exact h.close
  | relation handle table transparent claim => exact h.close
  | message vals => exact h
  | observe vals => exact h
  | observeWords words => exact h

theorem mergedSpecs_eq (isZk : Bool) (calls : List (RoundCall w F)) :
    ((calls.map RoundCall.verifierCall).foldl (fun s call => OracleSetupChannel.call call s)
        (.new isZk)).intoOracleSchedule.mergedSpecs =
      (roundsOf calls).map fun round => OracleSchedule.mergedSpec (round.map (Member.spec isZk)) := by
  have hrun : ∀ (calls : List (RoundCall w F)) (rounds : Rounds w F) (s : OracleSetupChannel),
      Scheduled isZk rounds s → Scheduled isZk (calls.foldl Rounds.step rounds)
        ((calls.map RoundCall.verifierCall).foldl (fun s call => OracleSetupChannel.call call s) s) := by
    intro calls
    induction calls with
    | nil => exact fun rounds s h => h
    | cons call calls ih => exact fun rounds s h => ih _ _ (h.step call)
  have hstart : Scheduled isZk (⟨[],[]⟩ : Rounds w F) (.new isZk) :=
    ⟨rfl,rfl,rfl,fun e he => absurd he not_mem_nil,rfl⟩
  have hend := (hrun calls _ _ hstart).close.rounds_eq
  rw [OracleSchedule.mergedSpecs,OracleSetupChannel.intoOracleSchedule,hend,map_map]
  rfl

end Binius64.OracleChannel
