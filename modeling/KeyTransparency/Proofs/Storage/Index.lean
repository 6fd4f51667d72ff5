import KeyTransparency.Storage.FileStore
import KeyTransparency.Proofs.Storage.Contents
import KeyTransparency.Proofs.Storage.Image

/-!
# The index of a store's file

An index is in key order, and its numbers fit into the bytes they are written with (`IndexValid`).  An
insertion keeps it so, and whatever is read from a file is so.  What stands in a file as an index is
read as that index:

    file.Holds offset (encodeIndex index) → readIndex? file index.length offset [] = some index
                                                                              (readIndex?_encodeIndex)
-/

namespace KeyTransparency

namespace Bytes

theorem compare_lt_iff {a b : Bytes} : Bytes.compare a b = .lt ↔ a < b := by
  induction a generalizing b with
  | nil => cases b <;> simp [Bytes.compare]
  | cons x xs ih =>
    cases b with
    | nil => simp [Bytes.compare]
    | cons y ys =>
      rw [Bytes.compare, List.cons_lt_cons_iff, ← ih]
      by_cases hless : x < y
      · simp [hless]
      · by_cases hmore : y < x
        · simp [hless, hmore, (UInt8.ne_of_lt hmore).symm]
        · have hsame : x = y := UInt8.le_antisymm (UInt8.not_lt.1 hmore) (UInt8.not_lt.1 hless)
          simp [hsame]

theorem compare_gt_iff {a b : Bytes} : Bytes.compare a b = .gt ↔ b < a := by
  cases hcompare : Bytes.compare a b with
  | lt =>
    have hless := compare_lt_iff.1 hcompare
    exact iff_of_false (by simp) (List.lt_asymm hless)
  | eq =>
    obtain rfl := compare_eq_iff.1 hcompare
    exact iff_of_false (by simp) (List.lt_irrefl a)
  | gt =>
    refine iff_of_true rfl (Decidable.byContradiction fun hmore => ?_)
    have hless : ¬ a < b := fun hless => by
      rw [compare_lt_iff.2 hless] at hcompare
      cases hcompare
    have hsame : a = b := List.le_antisymm hmore hless
    rw [compare_eq_iff.2 hsame] at hcompare
    cases hcompare

theorem littleEndian_ofLittleEndian (bytes : Bytes) :
    littleEndian bytes.length (ofLittleEndian bytes) = bytes := by
  induction bytes with
  | nil => rfl
  | cons b rest ih =>
    have hlow : (b.toNat + 256 * ofLittleEndian rest) % 256 = b.toNat := by
      have := b.toNat_lt
      omega
    have hhigh : (b.toNat + 256 * ofLittleEndian rest) / 256 = ofLittleEndian rest := by
      have := b.toNat_lt
      omega
    rw [List.length_cons, ofLittleEndian, littleEndian, hlow, hhigh, ih, UInt8.ofNat_toNat]

end Bytes

/-! ## Maps in key order -/

namespace SortedMap

variable {α : Type} {map before : SortedMap α} {key : Bytes} {value : α}

def Ordered (map : SortedMap α) : Prop := map.Pairwise fun a b => a.1 < b.1

theorem mem_of_mem_insert {entry : Bytes × α} (h : entry ∈ map.insert key value) :
    entry = (key, value) ∨ entry ∈ map := by
  induction map with
  | nil => exact .inl (List.mem_singleton.1 h)
  | cons first rest ih =>
    obtain ⟨k, v⟩ := first
    rw [insert] at h
    split at h
    · exact List.mem_cons.1 h
    · rcases List.mem_cons.1 h with h | h
      · exact .inl h
      · exact .inr (List.mem_cons_of_mem _ h)
    · rcases List.mem_cons.1 h with h | h
      · exact .inr (h ▸ List.mem_cons_self)
      · exact (ih h).imp_right (List.mem_cons_of_mem _)

theorem Ordered.insert (h : Ordered map) (key : Bytes) (value : α) :
    Ordered (map.insert key value) := by
  induction map with
  | nil => exact List.pairwise_singleton _ _
  | cons first rest ih =>
    obtain ⟨k, v⟩ := first
    obtain ⟨hfirst, hrest⟩ := List.pairwise_cons.1 h
    rw [SortedMap.insert]
    split
    · next hless =>
      have hless := Bytes.compare_lt_iff.1 hless
      refine List.pairwise_cons.2 ⟨?_, h⟩
      intro entry hentry
      rcases List.mem_cons.1 hentry with rfl | hentry
      · exact hless
      · exact List.lt_trans hless (hfirst entry hentry)
    · next hsame =>
      obtain rfl := Bytes.compare_eq_iff.1 hsame
      exact List.pairwise_cons.2 ⟨hfirst, hrest⟩
    · next hmore =>
      refine List.pairwise_cons.2 ⟨?_, ih hrest⟩
      intro entry hentry
      rcases mem_of_mem_insert hentry with rfl | hentry
      · exact Bytes.compare_gt_iff.1 hmore
      · exact hfirst entry hentry

/-- A key behind all others comes last. -/
theorem insert_of_last (h : ∀ entry ∈ map, entry.1 < key) :
    map.insert key value = map ++ [(key, value)] := by
  induction map with
  | nil => rfl
  | cons first rest ih =>
    obtain ⟨k, v⟩ := first
    have hmore := Bytes.compare_gt_iff.2 (h (k, v) List.mem_cons_self)
    simp only [SortedMap.insert, hmore]
    rw [ih fun entry hentry => h entry (List.mem_cons_of_mem _ hentry), List.cons_append]

/-- What is in order is put together again by inserting it in order. -/
theorem foldl_insert (h : Ordered (before ++ map)) :
    map.foldl (fun map entry => map.insert entry.1 entry.2) before = before ++ map := by
  induction map generalizing before with
  | nil => exact (List.append_nil before).symm
  | cons first rest ih =>
    have hlast : ∀ entry ∈ before, entry.1 < first.1 := fun entry hentry =>
      (List.pairwise_append.1 h).2.2 entry hentry first List.mem_cons_self
    rw [List.foldl_cons, insert_of_last hlast, ih, List.append_assoc, List.singleton_append]
    rw [List.append_assoc, List.singleton_append]
    exact h

theorem Ordered.nodup_keys (h : Ordered map) : (map.map Prod.fst).Nodup := by
  refine (List.pairwise_map.2 h).imp ?_
  rintro a _ hlt rfl
  exact List.lt_irrefl a hlt

theorem isSome_get?_iff : (map.get? key).isSome ↔ key ∈ map.map Prod.fst := by
  induction map with
  | nil => simp [get?]
  | cons first rest ih =>
    obtain ⟨k, v⟩ := first
    rw [get?, List.lookup_cons, List.map_cons, List.mem_cons, ← ih]
    by_cases hkey : key = k
    · simp [hkey]
    · rw [beq_false_of_ne hkey, or_iff_right hkey]
      rfl

end SortedMap

/-! ## The index in the file -/

namespace FileStore

/-- The numbers of an index entry fit into the bytes that they are written with. -/
structure EntryFits (entry : Bytes × IndexEntry) : Prop where
  key : entry.1.length < UInt32.size
  offset : entry.2.offset < UInt64.size
  size : entry.2.size < UInt32.size

structure IndexValid (index : SortedMap IndexEntry) : Prop where
  ordered : index.Ordered
  fits : ∀ entry ∈ index, EntryFits entry

variable {file : FileImage} {offset width n : Nat} {index before : SortedMap IndexEntry} {key : Bytes}
  {entry : IndexEntry}

theorem IndexValid.nil : IndexValid [] := ⟨List.Pairwise.nil, fun _ h => nomatch h⟩

theorem IndexValid.insert (h : IndexValid index) (hfits : EntryFits (key, entry)) :
    IndexValid (index.insert key entry) := by
  refine ⟨h.ordered.insert key entry, fun other hother => ?_⟩
  rcases SortedMap.mem_of_mem_insert hother with rfl | hother
  · exact hfits
  · exact h.fits other hother

theorem encodeIndex_cons (first : Bytes × IndexEntry) (rest : SortedMap IndexEntry) :
    encodeIndex (first :: rest) =
      Bytes.littleEndian 4 first.1.length ++ (first.1 ++ (Bytes.littleEndian 8 first.2.offset ++
        (Bytes.littleEndian 4 first.2.size ++ encodeIndex rest))) := by
  simp only [encodeIndex, List.flatMap_cons, List.append_assoc]

/-- Every entry takes at least the bytes of its numbers. -/
theorem length_le_encodeIndex (index : SortedMap IndexEntry) :
    16 * index.length ≤ (encodeIndex index).length := by
  induction index with
  | nil => exact Nat.le_refl _
  | cons first rest ih =>
    rw [encodeIndex_cons, List.length_cons]
    simp only [List.length_append, Bytes.length_littleEndian]
    omega

theorem numberAt?_of_holds (h : file.Holds offset (Bytes.littleEndian width n))
    (hn : n < Bytes.bound width) : numberAt? file offset width = some n := by
  have hread := h.read?
  rw [Bytes.length_littleEndian] at hread
  rw [numberAt?, hread, Option.map_some, Bytes.ofLittleEndian_littleEndian, Nat.mod_eq_of_lt hn]

theorem numberAt?_lt (h : numberAt? file offset width = some n) : n < Bytes.bound width := by
  obtain ⟨bytes, hread, rfl⟩ := Option.map_eq_some_iff.1 h
  rw [← (FileImage.read?_eq_some_iff.1 hread).1]
  exact Codec.ofLittleEndian_lt bytes

theorem readIndex?_eq_foldl (hfits : ∀ entry ∈ index, EntryFits entry)
    (h : file.Holds offset (encodeIndex index)) (before : SortedMap IndexEntry) :
    readIndex? file index.length offset before =
      some (index.foldl (fun map entry => map.insert entry.1 entry.2) before) := by
  induction index generalizing offset before with
  | nil => rfl
  | cons first rest ih =>
    obtain ⟨key, recordOffset, size⟩ := first
    obtain ⟨hkey, hoffset, hsize⟩ := hfits _ List.mem_cons_self
    rw [encodeIndex_cons] at h
    simp only [FileImage.holds_append, Bytes.length_littleEndian] at h
    obtain ⟨hlength, hbytes, hrecord, hrecordSize, hrest⟩ := h
    have hplace : offset + 4 + key.length + 8 = offset + 12 + key.length := by omega
    have hnext : offset + 12 + key.length + 4 = offset + 16 + key.length := by omega
    rw [hplace] at hrecordSize hrest
    rw [hnext] at hrest
    rw [List.length_cons, readIndex?, numberAt?_of_holds hlength hkey]
    simp only [Option.bind_eq_bind, Option.bind_some, hbytes.read?, numberAt?_of_holds hrecord hoffset,
      numberAt?_of_holds hrecordSize hsize]
    exact ih (fun entry hentry => hfits entry (List.mem_cons_of_mem _ hentry)) hrest _

/-- What stands in a file as an index is read as that index. -/
theorem readIndex?_encodeIndex (hvalid : IndexValid index)
    (h : file.Holds offset (encodeIndex index)) :
    readIndex? file index.length offset [] = some index := by
  have hordered : SortedMap.Ordered ([] ++ index) := hvalid.ordered
  rw [readIndex?_eq_foldl hvalid.fits h, SortedMap.foldl_insert hordered, List.nil_append]

/-- Whatever is read as an index, in any order and with keys given twice, is a valid one. -/
theorem IndexValid.readIndex? {count : Nat} (hbefore : IndexValid before)
    (h : readIndex? file count offset before = some index) : IndexValid index := by
  induction count generalizing offset before with
  | zero =>
    cases h
    exact hbefore
  | succ count ih =>
    obtain ⟨length, hlength, h⟩ := Option.bind_eq_some_iff.1 h
    obtain ⟨key, hkey, h⟩ := Option.bind_eq_some_iff.1 h
    obtain ⟨recordOffset, hoffset, h⟩ := Option.bind_eq_some_iff.1 h
    obtain ⟨recordSize, hsize, h⟩ := Option.bind_eq_some_iff.1 h
    refine ih (hbefore.insert ⟨?_, numberAt?_lt hoffset, numberAt?_lt hsize⟩) h
    rw [(FileImage.read?_eq_some_iff.1 hkey).1]
    exact numberAt?_lt hlength

end FileStore

end KeyTransparency
