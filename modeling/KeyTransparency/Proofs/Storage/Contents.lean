import KeyTransparency.Proofs.Storage.Records
import KeyTransparency.Storage.Basic

/-!
# Stores that keep what they are given

What a store holds is a map from keys to byte strings.  A read answers what it holds, and a write
changes it under one key; either may fail instead (`Contents`).  The store in memory never fails.  Under
an identifier for which nothing but lists of records was written the newest list is read:

    put store identifier (encodeList records) = ok next
      → records? next identifier = some records                                 (records?_put_self)
-/

namespace KeyTransparency

namespace Storage

/-- What a store holds, as its reads and writes that go through show it. -/
structure Contents (σ : Type) [Storage σ] where
  held : σ → (key : Bytes) → Option Bytes
  eq_held : ∀ {store : σ} {key : Bytes} {found : Option Bytes},
    get store key = .ok found → found = held store key
  held_put : ∀ {store next : σ} {key value : Bytes}, put store key value = .ok next →
    ∀ other, held next other = if other = key then some value else held store other

/-- Neither reads nor writes fail. -/
structure NeverFails (σ : Type) [Storage σ] : Prop where
  get : ∀ (store : σ) (key : Bytes), ∃ found, get store key = .ok found
  put : ∀ (store : σ) (key value : Bytes), ∃ next, put store key value = .ok next

namespace Contents

variable {σ : Type} [Storage σ] (contents : Contents σ)

/-- The records under an identifier, newest first, if what is held there is a list of records. -/
def records? (store : σ) (identifier : Bytes) : Option (List ValueRecord) :=
  (contents.held store identifier).elim (some []) ValueRecord.decodeList?

variable {contents} {store next : σ} {identifier : Bytes} {records : List ValueRecord}

/-- The records are read off what a read answers. -/
theorem records_eq_ok_iff {found : Option Bytes} (h : get store identifier = .ok found) :
    Storage.records store identifier = .ok records ↔
      found.elim (some []) ValueRecord.decodeList? = some records := by
  unfold Storage.records
  rw [h]
  cases found with
  | none =>
    show Except.ok [] = .ok records ↔ some [] = some records
    rw [Except.ok.injEq, Option.some.injEq]
  | some data =>
    simp only [bind, Except.bind, Option.elim_some]
    cases ValueRecord.decodeList? data with
    | none => simp [throw, throwThe, MonadExceptOf.throw]
    | some decoded =>
      show Except.ok decoded = .ok records ↔ some decoded = some records
      rw [Except.ok.injEq, Option.some.injEq]

/-- A read of the records that goes through answers those that are held. -/
theorem records?_eq_some (h : Storage.records store identifier = .ok records) :
    contents.records? store identifier = some records := by
  obtain ⟨found, hfound, -⟩ := bind_eq_ok_iff.1 h
  rw [records?, ← contents.eq_held hfound]
  exact (records_eq_ok_iff hfound).1 h

theorem records_eq_ok (hstore : NeverFails σ) (h : contents.records? store identifier = some records) :
    Storage.records store identifier = .ok records := by
  obtain ⟨found, hfound⟩ := hstore.get store identifier
  rw [records?, ← contents.eq_held hfound] at h
  exact (records_eq_ok_iff hfound).2 h

theorem fits_of_records? (h : contents.records? store identifier = some records) :
    ∀ record ∈ records, record.Fits := by
  unfold records? at h
  cases hdata : contents.held store identifier with
  | none =>
    rw [hdata] at h
    cases h
    simp
  | some data =>
    rw [hdata] at h
    exact ValueRecord.fits_of_decodeList? h

/-! ## After a write -/

theorem records?_put_self (hput : put store identifier (ValueRecord.encodeList records) = .ok next)
    (hlength : records.length < UInt64.size) (hfits : ∀ record ∈ records, record.Fits) :
    contents.records? next identifier = some records := by
  rw [records?, contents.held_put hput, if_pos rfl, Option.elim_some]
  exact ValueRecord.decodeList?_encodeList hlength hfits

theorem records?_put_of_ne {data other : Bytes} (hput : put store identifier data = .ok next)
    (hother : other ≠ identifier) : contents.records? next other = contents.records? store other := by
  rw [records?, contents.held_put hput, if_neg hother, records?]

end Contents

end Storage

/-! ## The store in memory -/

theorem Bytes.compare_eq_iff {a b : Bytes} : Bytes.compare a b = .eq ↔ a = b := by
  induction a generalizing b with
  | nil => cases b <;> simp [Bytes.compare]
  | cons x xs ih =>
    cases b with
    | nil => simp [Bytes.compare]
    | cons y ys =>
      rw [Bytes.compare, List.cons.injEq, ← ih]
      by_cases hless : x < y
      · simp [hless, UInt8.ne_of_lt hless]
      · by_cases hmore : y < x
        · simp [hless, hmore, (UInt8.ne_of_lt hmore).symm]
        · have hsame : x = y := UInt8.le_antisymm (UInt8.not_lt.1 hmore) (UInt8.not_lt.1 hless)
          simp [hsame]

namespace SortedMap

/-- An insertion changes what is found under its own key and nothing else. -/
theorem get?_insert {α : Type} (map : SortedMap α) (key : Bytes) (value : α) (other : Bytes) :
    (map.insert key value).get? other = if other = key then some value else map.get? other := by
  have hfront : ∀ rest : SortedMap α, SortedMap.get? ((key, value) :: rest) other =
      if other = key then some value else SortedMap.get? rest other := by
    intro rest
    rw [get?, List.lookup_cons]
    by_cases hkey : other = key
    · rw [if_pos hkey, beq_iff_eq.2 hkey]
    · rw [if_neg hkey, beq_false_of_ne hkey]
      rfl
  induction map with
  | nil => exact hfront []
  | cons first rest ih =>
    obtain ⟨k, v⟩ := first
    rw [insert]
    split
    · exact hfront _
    · next hsame =>
      obtain rfl := Bytes.compare_eq_iff.1 hsame
      rw [hfront]
      by_cases hkey : other = key
      · rw [if_pos hkey, if_pos hkey]
      · rw [if_neg hkey, if_neg hkey, get?, get?, List.lookup_cons, beq_false_of_ne hkey]
    · next hmore =>
      have hne : k ≠ key := by
        rintro rfl
        rw [Bytes.compare_eq_iff.2 rfl] at hmore
        cases hmore
      rw [get?, List.lookup_cons, get?, List.lookup_cons]
      by_cases hk : other = k
      · rw [beq_iff_eq.2 hk, if_neg (hk ▸ hne)]
      · rw [beq_false_of_ne hk]
        exact ih

end SortedMap

namespace MemoryStore

/-- The entries are what the store in memory holds. -/
def contents : Storage.Contents MemoryStore where
  held store key := store.entries.get? key
  eq_held h := (Except.ok.inj h).symm
  held_put h other := by
    obtain rfl := Except.ok.inj h
    exact SortedMap.get?_insert _ _ _ other

theorem neverFails : Storage.NeverFails MemoryStore where
  get _ _ := ⟨_, rfl⟩
  put _ _ _ := ⟨_, rfl⟩

end MemoryStore

end KeyTransparency
