import KeyTransparency.Storage.Record
import KeyTransparency.Error

/-!
Stores for the published values.

A store maps byte strings to byte strings and may fail.  It is not trusted: the tries commit to what
it holds.  Under each identifier it keeps that identifier's list of records.
-/

namespace KeyTransparency

class Storage (σ : Type) where
  get : σ → (key : Bytes) → Except Error (Option Bytes)
  put : σ → (key value : Bytes) → Except Error σ

namespace Storage

variable {σ : Type} [Storage σ]

/-- All records under an identifier, newest first. -/
def records (store : σ) (identifier : Bytes) : Except Error (List ValueRecord) := do
  match ← get store identifier with
  | none => pure []
  | some data =>
    match ValueRecord.decodeList? data with
    | some records => pure records
    | none => throw .binaryFormat

end Storage

/-! ## Association lists in key order -/

/-- A finite map as the list of its entries in key order. -/
abbrev SortedMap (α : Type) := List (Bytes × α)

namespace SortedMap

variable {α : Type}

def get? (map : SortedMap α) (key : Bytes) : Option α := map.lookup key

def insert (map : SortedMap α) (key : Bytes) (value : α) : SortedMap α :=
  match map with
  | [] => [(key, value)]
  | (k, v) :: rest =>
    match Bytes.compare key k with
    | .lt => (key, value) :: (k, v) :: rest
    | .eq => (key, value) :: rest
    | .gt => (k, v) :: insert rest key value

end SortedMap

/-! ## The store in memory -/

structure MemoryStore where
  entries : SortedMap Bytes
deriving DecidableEq

namespace MemoryStore

def empty : MemoryStore := ⟨[]⟩

instance : Inhabited MemoryStore := ⟨empty⟩

def size (store : MemoryStore) : Nat := store.entries.length

instance : Storage MemoryStore where
  get store key := .ok (store.entries.get? key)
  put store key value := .ok ⟨store.entries.insert key value⟩

end MemoryStore

end KeyTransparency
