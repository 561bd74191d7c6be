/-
One cumulative ack does to the in-flight FIFO what the acks of its
records do in order.

Both are changes of the flight, record by record: the grouped completion
sweeps once behind them, the single ones after each that finds something
to do. They agree when a record that the group fails still waits for the
peer that rejects it (`Owed`; otherwise a sweep in between commits it),
and when the single completions sweep at all, or have nothing to sweep
(`Moves`).
-/
import Rostam.Pbisr.Proofs.Flight
import Rostam.Pbisr.Proofs.GroupFrame
import Rostam.Pbisr.Proofs.Modifies

namespace Rostam.Pbisr

open Rostam.Lib

variable {f g : Inflight → Inflight}

-- ======== the engine

variable {peer : NodeID} {E credit now : Nat}

variable {F : Flight} {s : Nat}

/-- What an ack through `credit` does to the record of seq `s`. -/
def creditRec (peer : NodeID) (E credit s : Nat) (r : Inflight) :
    Inflight :=
  if r.epoch ≠ E then r
  else if s ≤ credit then r.removePending peer
  else r.resolve (some .replicationTimeout)

theorem creditRec_seq (peer : NodeID) (E credit s : Nat) (r : Inflight) :
    (creditRec peer E credit s r).seq = r.seq := by
  unfold creditRec
  split
  · rfl
  · split
    · rfl
    · exact Pipeline.resolve_seq r _

namespace Pipeline

variable {pl : Pipeline} {s : Nat}

theorem Dense.creditSeq (h : pl.Dense) (peer : NodeID) (E credit s : Nat) :
    (Engine.creditSeq peer E credit pl s).flight
        = pl.flight.modify s (creditRec peer E credit s)
      ∧ (Engine.creditSeq peer E credit pl s).Dense := by
  unfold Engine.creditSeq
  cases hi : pl.inflightAtLocked s with
  | none => exact ⟨(h.modify_none hi _).symm, h⟩
  | some i =>
    exact ⟨h.modify_some hi (creditRec peer E credit s),
      h.modifyRec i fun r _ => creditRec_seq peer E credit s r⟩

end Pipeline

namespace Engine

variable {e : Engine} {m : ReplicateMsg} {a : AckMsg}

variable {rest : List ReplicateMsg}

/-- The live record of a seq. -/
def InFlight (e : Engine) (s : Nat) (r : Inflight) : Prop :=
  ∃ i, e.pl.inflightAtLocked s = some i ∧ e.pl.recs[i]? = some r

/-- Nothing is left to sweep, or a record of the batch is credited or
still in flight. -/
def Moves (e : Engine) (E credit : Nat) (msgs : List ReplicateMsg) : Prop :=
  e.pl.flight.AtRest e.commitLevel
    ∨ ∃ m ∈ msgs, m.seq ≤ credit ∨ ∃ r, e.InFlight m.seq r ∧ r.epoch = E

/-- A full-ISR member over a durable state. -/
def member (id : NodeID) (seq epoch : Nat) (fsm : List Data) : Engine :=
  Engine.restored ⟨id, .fullISR, true, defaultRingCapacity, by decide⟩ false
    seq epoch fsm

end Engine

end Rostam.Pbisr
