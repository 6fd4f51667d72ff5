import KeyTransparency.Storage.FileImage
import Mathlib.Logic.Basic

/-!
# What stands in a file

Bytes stand in a file from a place on if the file reaches over all of them and has each of them in its
place (`Holds`).  Then they are what is read there, they stay when something is written beside them, and
writing them again, or a part of them, changes nothing that can be read:

    file.read? offset n = some bytes ↔ bytes.length = n ∧ file.Holds offset bytes   (read?_eq_some_iff)
    (file.write offset bytes).Holds offset bytes                                    (holds_write_self)
    file.Holds offset bytes → (file.write offset bytes).Agrees file                 (Holds.agrees_write)

A program writes in several pieces, and may be stopped at any byte (`writeFirst`).
-/

namespace KeyTransparency

namespace FileImage

/-- The bytes stand in the file from the offset on. -/
def Holds (file : FileImage) (offset : Nat) (bytes : Bytes) : Prop :=
  ∀ i b, bytes[i]? = some b → offset + i < file.size ∧ file.byteAt (offset + i) = b

/-- The same can be read in both files. -/
structure Agrees (file other : FileImage) : Prop where
  size : file.size = other.size
  byteAt : ∀ place, file.byteAt place = other.byteAt place

/-- The file after the first `n` bytes of what was to be written. -/
def writeFirst (file : FileImage) : (n : Nat) → List (Nat × Bytes) → FileImage
  | _, [] => file
  | n, (offset, bytes) :: rest =>
    (file.write offset (bytes.take n)).writeFirst (n - bytes.length) rest

section

variable {file other : FileImage} {offset place n : Nat} {bytes more front back : Bytes}

theorem holds_nil (file : FileImage) (offset : Nat) : file.Holds offset [] := by
  intro i b h
  cases h

theorem holds_append : file.Holds offset (front ++ back) ↔
    file.Holds offset front ∧ file.Holds (offset + front.length) back := by
  constructor
  · intro h
    refine ⟨fun i b hb => h i b ?_, fun i b hb => ?_⟩
    · rw [List.getElem?_append_left (List.getElem?_eq_some_iff.1 hb).1]
      exact hb
    · have hback : (front ++ back)[front.length + i]? = some b := by
        rw [List.getElem?_append_right (Nat.le_add_right _ _), Nat.add_sub_cancel_left]
        exact hb
      rw [Nat.add_assoc]
      exact h _ b hback
  · rintro ⟨hfront, hback⟩ i b hb
    by_cases hi : i < front.length
    · rw [List.getElem?_append_left hi] at hb
      exact hfront i b hb
    · rw [List.getElem?_append_right (Nat.le_of_not_lt hi)] at hb
      have hplace : offset + front.length + (i - front.length) = offset + i := by omega
      rw [← hplace]
      exact hback _ b hb

theorem Holds.take (h : file.Holds offset bytes) (n : Nat) : file.Holds offset (bytes.take n) := by
  rw [← List.take_append_drop n bytes] at h
  exact (holds_append.1 h).1

theorem Holds.end_le (h : file.Holds offset bytes) (hbytes : bytes ≠ []) :
    offset + bytes.length ≤ file.size := by
  have hpos := List.length_pos_iff.2 hbytes
  have hlast : bytes[bytes.length - 1]? = some (bytes.getLast hbytes) := by
    rw [← List.getLast?_eq_getElem?, List.getLast?_eq_some_getLast]
  have := (h _ _ hlast).1
  omega

theorem read?_eq_some_iff :
    file.read? offset n = some bytes ↔ bytes.length = n ∧ file.Holds offset bytes := by
  unfold read?
  by_cases hzero : n = 0
  · rw [if_pos hzero, hzero, List.length_eq_zero_iff, Option.some.injEq]
    constructor
    · rintro rfl
      exact ⟨rfl, holds_nil file offset⟩
    · rintro ⟨rfl, -⟩
      rfl
  rw [if_neg hzero]
  by_cases hsize : offset + n ≤ file.size
  · rw [if_pos hsize, Option.some.injEq]
    constructor
    · rintro rfl
      refine ⟨by simp, ?_⟩
      intro i b hb
      rw [List.getElem?_map, Option.map_eq_some_iff] at hb
      obtain ⟨j, hj, rfl⟩ := hb
      obtain ⟨hlt, rfl⟩ := List.getElem?_eq_some_iff.1 hj
      rw [List.length_range] at hlt
      rw [List.getElem_range]
      exact ⟨by omega, rfl⟩
    · rintro ⟨rfl, h⟩
      refine List.ext_getElem (by simp) ?_
      intro i hi hi'
      rw [List.getElem_map, List.getElem_range]
      exact (h i _ (List.getElem?_eq_getElem hi')).2
  · rw [if_neg hsize]
    constructor
    · intro h
      cases h
    · rintro ⟨rfl, h⟩
      exact absurd (h.end_le fun hnil => hzero (List.length_eq_zero_iff.2 hnil)) hsize

theorem Holds.read? (h : file.Holds offset bytes) :
    file.read? offset bytes.length = some bytes :=
  read?_eq_some_iff.2 ⟨rfl, h⟩

/-- What stands inside of what is read from the start is a part of it. -/
theorem Holds.take_drop (h : file.Holds offset bytes) (hread : file.read? 0 n = some front)
    (hn : offset + bytes.length ≤ n) : (front.drop offset).take bytes.length = bytes := by
  obtain ⟨rfl, hfront⟩ := read?_eq_some_iff.1 hread
  refine List.ext_getElem (by rw [List.length_take, List.length_drop]; omega) ?_
  intro i hi hi'
  have hlt : offset + i < front.length := by omega
  have hbyte := (hfront (offset + i) _ (List.getElem?_eq_getElem hlt)).2
  rw [Nat.zero_add] at hbyte
  rw [List.getElem_take, List.getElem_drop, ← hbyte]
  exact (h i _ (List.getElem?_eq_getElem hi')).2

/-! ## Writing -/

theorem size_write (file : FileImage) (offset : Nat) (bytes : Bytes) :
    (file.write offset bytes).size =
      if bytes = [] then file.size else max file.size (offset + bytes.length) := by
  unfold write
  cases bytes with
  | nil => rfl
  | cons b rest => rfl

theorem size_le_write (file : FileImage) (offset : Nat) (bytes : Bytes) :
    file.size ≤ (file.write offset bytes).size := by
  rw [size_write]
  split
  · exact Nat.le_refl _
  · exact Nat.le_max_left _ _

theorem holds_write_self (file : FileImage) (offset : Nat) (bytes : Bytes) :
    (file.write offset bytes).Holds offset bytes := by
  intro i b hb
  obtain ⟨hlt, hget⟩ := List.getElem?_eq_some_iff.1 hb
  constructor
  · rw [size_write, if_neg (List.ne_nil_of_length_pos (by omega))]
    omega
  · rw [byteAt_write, if_pos (by omega), Nat.add_sub_cancel_left,
      List.getD_eq_getElem?_getD, hb, Option.getD_some]

/-- What stands in a file stays when something is written beside it. -/
theorem Holds.write (h : file.Holds offset bytes)
    (hbeside : offset + bytes.length ≤ place ∨ place + more.length ≤ offset) :
    (file.write place more).Holds offset bytes := by
  intro i b hb
  obtain ⟨hsize, hbyte⟩ := h i b hb
  have hlt := (List.getElem?_eq_some_iff.1 hb).1
  have hle := size_le_write file place more
  refine ⟨by omega, ?_⟩
  rw [byteAt_write, if_neg (by omega)]
  exact hbyte

/-- Writing what stands there already. -/
theorem Holds.agrees_write (h : file.Holds offset bytes) : (file.write offset bytes).Agrees file := by
  constructor
  · rw [size_write]
    by_cases hbytes : bytes = []
    · rw [if_pos hbytes]
    · rw [if_neg hbytes]
      exact Nat.max_eq_left (h.end_le hbytes)
  · intro place
    rw [byteAt_write]
    split
    · next hinside =>
      have hlt : place - offset < bytes.length := by omega
      have hplace : offset + (place - offset) = place := by omega
      have hbyte := (h _ _ (List.getElem?_eq_getElem hlt)).2
      rw [hplace] at hbyte
      rw [hbyte, List.getD_eq_getElem?_getD, List.getElem?_eq_getElem hlt, Option.getD_some]
    · rfl

theorem Agrees.refl (file : FileImage) : file.Agrees file := ⟨rfl, fun _ => rfl⟩

theorem Agrees.trans {third : FileImage} (h : file.Agrees other) (h' : other.Agrees third) :
    file.Agrees third :=
  ⟨h.size.trans h'.size, fun place => (h.byteAt place).trans (h'.byteAt place)⟩

theorem Agrees.read? (h : file.Agrees other) (offset n : Nat) :
    file.read? offset n = other.read? offset n := by
  unfold FileImage.read?
  simp only [h.size, h.byteAt]

theorem Agrees.holds (h : file.Agrees other) (hholds : other.Holds offset bytes) :
    file.Holds offset bytes := by
  intro i b hb
  rw [h.size, h.byteAt]
  exact hholds i b hb

/-! ## Writing in several pieces -/

variable {writes : List (Nat × Bytes)}

/-- What is stopped behind the last byte was not stopped. -/
theorem exists_writeFirst_eq (file : FileImage) (writes : List (Nat × Bytes)) :
    ∃ all, ∀ n, all ≤ n →
      file.writeFirst n writes = writes.foldl (fun file w => file.write w.1 w.2) file := by
  induction writes generalizing file with
  | nil => exact ⟨0, fun _ _ => rfl⟩
  | cons w rest ih =>
    obtain ⟨all, hall⟩ := ih (file.write w.1 w.2)
    refine ⟨w.2.length + all, fun n hn => ?_⟩
    rw [writeFirst, List.take_of_length_le (by omega), List.foldl_cons]
    exact hall _ (by omega)

theorem size_le_writeFirst (file : FileImage) (n : Nat) (writes : List (Nat × Bytes)) :
    file.size ≤ (file.writeFirst n writes).size := by
  induction writes generalizing file n with
  | nil => exact Nat.le_refl _
  | cons w rest ih => exact Nat.le_trans (size_le_write file _ _) (ih _ _)

theorem Holds.writeFirst (h : file.Holds offset bytes)
    (hbeside : ∀ w ∈ writes, offset + bytes.length ≤ w.1 ∨ w.1 + w.2.length ≤ offset) (n : Nat) :
    (file.writeFirst n writes).Holds offset bytes := by
  induction writes generalizing file n with
  | nil => exact h
  | cons w rest ih =>
    refine ih (h.write ?_) (fun v hv => hbeside v (List.mem_cons_of_mem _ hv)) _
    have hfirst := hbeside w List.mem_cons_self
    have hlength := List.length_take_le' n w.2
    omega

/-- However much is written of what stands there already, nothing changes. -/
theorem agrees_writeFirst (hheld : ∀ w ∈ writes, file.Holds w.1 w.2) (n : Nat) :
    (file.writeFirst n writes).Agrees file := by
  suffices h : ∀ start : FileImage, start.Agrees file → (start.writeFirst n writes).Agrees file from
    h file (.refl file)
  induction writes generalizing n with
  | nil => exact fun start hstart => hstart
  | cons w rest ih =>
    intro start hstart
    refine ih (fun v hv => hheld v (List.mem_cons_of_mem _ hv)) _ _ ?_
    have hfirst := hstart.holds ((hheld w List.mem_cons_self).take n)
    exact hfirst.agrees_write.trans hstart

end

end FileImage

end KeyTransparency
