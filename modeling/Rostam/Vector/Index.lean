/-
The secondary indexes of a dense collection: payload, sparse and BM25
(vector/payload_index.go, vector/sparse_index.go, vector/bm25_index.go).

The payload index is its reverse table: the entries each slot posts. Its
posting sets, counters and poison marks are read off that table. What a
payload posts (scalar keys, tokens, array elements, geo cells, record
fields) is a function of the payload.
-/
import Rostam.Vector.Value

namespace Rostam.Vector

open Rostam.Lib Function

-- ======== payload

/-- `payloadIndex`: the entries of each slot. -/
structure PayloadIndex (K : Type) where
  slotKeys : Nat → List K

/-- `newPayloadIndex`. -/
def PayloadIndex.empty {K : Type} : PayloadIndex K := ⟨fun _ => []⟩

/-- `reindex`: drop what the slot posted and post what its payload has
now. -/
def PayloadIndex.reindex {K : Type} (p : PayloadIndex K) (slot : Nat)
    (keys : List K) : PayloadIndex K :=
  ⟨update p.slotKeys slot keys⟩

-- ======== sparse

/-- `SparseVector`, as its terms. -/
abbrev SparseVector (F : Type) := List (UInt32 × F)

/-- `sparseIndex`. -/
structure SparseIndex (F : Type) where
  postings : UInt32 → List (Nat × F)

/-- `newSparseIndex`. -/
def SparseIndex.empty {F : Type} : SparseIndex F := ⟨fun _ => []⟩

/-- `sparseIndex.add`. -/
def SparseIndex.add {F : Type} (si : SparseIndex F) (slot : Nat)
    (sv : SparseVector F) : SparseIndex F :=
  sv.foldl (fun si t =>
    ⟨update si.postings t.1 (si.postings t.1 ++ [(slot, t.2)])⟩) si

/-- `sparseIndex.remove`. -/
def SparseIndex.remove {F : Type} (si : SparseIndex F) (slot : Nat)
    (sv : SparseVector F) : SparseIndex F :=
  sv.foldl (fun si t =>
    ⟨update si.postings t.1
      ((si.postings t.1).filter fun p => p.1 ≠ slot)⟩) si

-- ======== BM25

/-- `bm25Index`: the postings and the corpus statistics. -/
structure Bm25Index where
  postings : UInt32 → List (Nat × UInt32)
  n : Nat
  tokenTotal : Nat
  df : UInt32 → Nat
  docLen : Nat → Option Nat

/-- `newBM25Index`. -/
def Bm25Index.empty : Bm25Index where
  postings := fun _ => []
  n := 0
  tokenTotal := 0
  df := fun _ => 0
  docLen := fun _ => none

/-- The term counts of an analyzed text. -/
abbrev Counts := Map UInt32 UInt32

/-- The length of an analyzed text. -/
def Counts.length (counts : Counts) : Nat :=
  (counts.entries.map fun c => c.2.toNat).sum

/-- `bm25Index.add`. -/
def Bm25Index.add (bi : Bm25Index) (slot : Nat) (counts : Counts) :
    Bm25Index :=
  if counts.entries.isEmpty then bi
  else
    let bi' := counts.foldl (fun bi term tf =>
      { bi with
        postings := update bi.postings term
          (bi.postings term ++ [(slot, tf)])
        df := update bi.df term (bi.df term + 1) }) bi
    { bi' with
      n := bi.n + 1
      tokenTotal := bi.tokenTotal + Counts.length counts
      docLen := update bi.docLen slot (some (Counts.length counts)) }

/-- `bm25Index.remove`. -/
def Bm25Index.remove (bi : Bm25Index) (slot : Nat) (counts : Counts) :
    Bm25Index :=
  if counts.entries.isEmpty then bi
  else
    let bi' := counts.foldl (fun bi term _ =>
      { bi with
        postings := update bi.postings term
          ((bi.postings term).filter fun p => p.1 ≠ slot)
        df := update bi.df term (bi.df term - 1) }) bi
    { bi' with
      n := bi.n - 1
      tokenTotal := bi.tokenTotal - Counts.length counts
      docLen := update bi.docLen slot none }

end Rostam.Vector
