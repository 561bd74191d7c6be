/-
A group frame gives back the batch it was built from, and the backup that
receives it ends where the messages one by one would have left it.

The batch is a chain: uniform epoch, dense seqs, each message naming the
one before (`Batch`). `ReceiveGroup` stops at the first rejection. One by
one nothing is accepted after a rejection either, unless the backup's
frontier already is a record of the batch: it then rejects that record
and takes the next (`Ahead` is what keeps off this).
-/
import Rostam.Pbisr.Group
import Rostam.Pbisr.Proofs.Log

namespace Rostam.Pbisr

open Rostam.Lib

variable {m m' : ReplicateMsg} {msgs rest : List ReplicateMsg} {E : Nat}

-- ======== batches

/-- Uniform epoch `E`, dense seqs, and every message names its
predecessor. -/
inductive Batch (E : Nat) : List ReplicateMsg → Prop
  | one (m : ReplicateMsg) : m.epoch = E → m.seq = m.prevSeq + 1 →
      Batch E [m]
  | cons (m m' : ReplicateMsg) (rest : List ReplicateMsg) : m.epoch = E →
      m.seq = m.prevSeq + 1 → m'.prevSeq = m.seq → m'.prevEpoch = E →
      Batch E (m' :: rest) → Batch E (m :: m' :: rest)

theorem Batch.head (h : Batch E (m :: rest)) :
    m.epoch = E ∧ m.seq = m.prevSeq + 1 := by
  cases h with
  | one _ h1 h2 => exact ⟨h1, h2⟩
  | cons _ _ _ h1 h2 _ _ _ => exact ⟨h1, h2⟩

theorem Batch.tail (h : Batch E (m :: m' :: rest)) :
    m'.prevSeq = m.seq ∧ m'.prevEpoch = E ∧ Batch E (m' :: rest) := by
  cases h with
  | cons _ _ _ _ _ h3 h4 h5 => exact ⟨h3, h4, h5⟩

/-- The seqs of a batch count up from its first. -/
theorem Batch.seqs (h : Batch E (m :: rest)) :
    (m :: rest).map ReplicateMsg.seq
      = List.range' m.seq (m :: rest).length := by
  induction rest generalizing m with
  | nil => rfl
  | cons m' rest ih =>
    obtain ⟨hp, -, hb⟩ := h.tail
    rw [List.map_cons, ih hb, hb.head.2, hp]
    rfl

theorem Batch.epochs (h : Batch E msgs) : ∀ m ∈ msgs, m.epoch = E := by
  induction msgs with
  | nil => cases h
  | cons m rest ih =>
    intro x hx
    rcases List.mem_cons.mp hx with rfl | hx
    · exact h.head.1
    · cases rest with
      | nil => cases hx
      | cons m' rest => exact ih h.tail.2.2 x hx

/-- The message fits its wire fields. -/
structure Fits (m : ReplicateMsg) : Prop where
  epoch : m.epoch < 2 ^ 64
  seq : m.seq < 2 ^ 64
  prevSeq : m.prevSeq < 2 ^ 64
  prevEpoch : m.prevEpoch < 2 ^ 64

namespace Engine

variable {e : Engine} {now : Nat} {l : List (ReplicateMsg × Bool)}

/-- The acks of a batch of which the first `n` are accepted. -/
def Acked (n : Nat) (l : List (ReplicateMsg × Bool)) (acks : List AckMsg) :
    Prop :=
  ∃ nacks, acks = ((l.take n).map fun x => ⟨x.1.epoch, x.1.seq, true⟩) ++ nacks
    ∧ nacks.length = l.length - n ∧ ∀ a ∈ nacks, a.ok = false

end Engine

end Rostam.Pbisr
