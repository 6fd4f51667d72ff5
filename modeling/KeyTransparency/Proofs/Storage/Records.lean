import KeyTransparency.Storage.Record
import Mathlib.Logic.Basic

/-!
# Records are read back as they were written

Each codec that a list of records is made of reads what it has written and leaves what follows
(`ReadsBack`), as long as eight bytes hold the lengths.  So does the list:

    all records fit → decodeList? (encodeList records) = some records         (decodeList?_encodeList)
-/

namespace KeyTransparency

namespace Codec

/-- What is written of `a` is read as `a`, whatever follows it. -/
def ReadsBack {α : Type} (write : α → Bytes) (read : Bytes → Option (α × Bytes)) (a : α) : Prop :=
  ∀ rest, read (write a ++ rest) = some (a, rest)

/-- Whatever is read has the property. -/
def ReadsOnly {α : Type} (read : Bytes → Option (α × Bytes)) (property : α → Prop) : Prop :=
  ∀ bytes a rest, read bytes = some (a, rest) → property a

/-! ## Numbers and byte strings -/

theorem readsBack_nat {width n : Nat} (h : n < Bytes.bound width) :
    ReadsBack (nat width).write (nat width).read n := by
  intro rest
  have hsplit := Bytes.split?_append (Bytes.littleEndian width n) rest
  rw [Bytes.length_littleEndian] at hsplit
  show (Bytes.split? width (Bytes.littleEndian width n ++ rest)).map _ = _
  rw [hsplit, Option.map_some]
  show some (Bytes.ofLittleEndian (Bytes.littleEndian width n), rest) = _
  rw [Bytes.ofLittleEndian_littleEndian, Nat.mod_eq_of_lt h]

theorem bound_eight : Bytes.bound 8 = UInt64.size := rfl

theorem readsBack_word (n : UInt64) : ReadsBack word.write word.read n := by
  intro rest
  have hbound : n.toNat < Bytes.bound 8 := n.toNat_lt
  have hread := readsBack_nat hbound rest
  simp only [word, hread, Option.map_some, UInt64.ofNat_toNat]

theorem readsBack_bytes {b : Bytes} (h : b.length < UInt64.size) :
    ReadsBack bytes.write bytes.read b := by
  intro rest
  have hlength : (nat 8).read (Bytes.littleEndian 8 b.length ++ (b ++ rest)) =
      some (b.length, b ++ rest) := readsBack_nat (bound_eight ▸ h) _
  show readFramed (Hash.framed b ++ rest) = _
  rw [readFramed, Hash.framed, List.append_assoc, hlength]
  exact Bytes.split?_append b rest

theorem ofLittleEndian_lt (digits : Bytes) : Bytes.ofLittleEndian digits < Bytes.bound digits.length := by
  induction digits with
  | nil => exact Nat.one_pos
  | cons digit more ih =>
    have hdigit := digit.toNat_lt
    rw [Bytes.ofLittleEndian, List.length_cons, Bytes.bound_succ]
    omega

theorem split?_eq_some {n : Nat} {b front rest : Bytes} (h : Bytes.split? n b = some (front, rest)) :
    front.length = n := by
  unfold Bytes.split? at h
  dsimp only at h
  split at h
  · cases h
  · next hlength =>
    cases h
    rw [List.length_take] at hlength ⊢
    omega

theorem readsOnly_nat (width : Nat) : ReadsOnly (nat width).read (· < Bytes.bound width) := by
  intro b n rest h
  obtain ⟨⟨digits, left⟩, hsplit, hread⟩ := Option.map_eq_some_iff.1 h
  cases hread
  rw [← split?_eq_some hsplit]
  exact ofLittleEndian_lt digits

theorem readsOnly_word : ReadsOnly word.read fun _ => True := fun _ _ _ _ => trivial

/-- A byte string behind its length is no longer than eight bytes can say. -/
theorem readsOnly_bytes : ReadsOnly bytes.read (·.length < UInt64.size) := by
  intro b content rest h
  obtain ⟨⟨n, left⟩, hlength, hsplit⟩ := Option.bind_eq_some_iff.1 h
  rw [split?_eq_some hsplit, ← bound_eight]
  exact readsOnly_nat 8 b n left hlength

/-! ## Records and lists -/

section

variable {α β : Type}

theorem readsBack_noFields : ReadsBack noFields.write noFields.read () := fun _ => rfl

theorem ReadsBack.required (name : String) {codec : Codec α} {more : Fields β} {a : α} {b : β}
    (ha : ReadsBack codec.write codec.read a) (hb : ReadsBack more.write more.read b) :
    ReadsBack (required name codec more).write (required name codec more).read (a, b) := by
  intro rest
  show (codec.read (codec.write a ++ more.write b ++ rest)).bind _ = _
  rw [List.append_assoc, ha, Option.bind_some]
  show (more.read (more.write b ++ rest)).bind _ = _
  rw [hb, Option.bind_some]
  rfl

theorem ReadsBack.iso {codec : Codec α} {make : α → β} {parts : β → α} {b : β}
    (h : ReadsBack codec.write codec.read (parts b)) (hmake : make (parts b) = b) :
    ReadsBack (codec.iso make parts).write (codec.iso make parts).read b := by
  intro rest
  show (codec.read (codec.write (parts b) ++ rest)).map _ = _
  rw [h, Option.map_some]
  show some (make (parts b), rest) = _
  rw [hmake]

/-- As many values as were written are read one after the other. -/
theorem readMany_flatMap {item : Codec α} {as : List α}
    (h : ∀ a ∈ as, ReadsBack item.write item.read a) (rest : Bytes) :
    readMany item.read as.length (as.flatMap item.write ++ rest) = some (as, rest) := by
  induction as with
  | nil => rfl
  | cons a as ih =>
    obtain ⟨ha, has⟩ := List.forall_mem_cons.1 h
    rw [List.length_cons, List.flatMap_cons, List.append_assoc, readMany, ha]
    show (readMany item.read as.length (as.flatMap item.write ++ rest)).bind _ = _
    rw [ih has, Option.bind_some]
    rfl

theorem readsBack_list {item : Codec α} {as : List α} (hlength : as.length < UInt64.size)
    (h : ∀ a ∈ as, ReadsBack item.write item.read a) :
    ReadsBack (list item).write (list item).read as := by
  intro rest
  have hcount : (nat 8).read (Bytes.littleEndian 8 as.length ++ (as.flatMap item.write ++ rest)) =
      some (as.length, as.flatMap item.write ++ rest) := readsBack_nat (bound_eight ▸ hlength) _
  simp only [list, List.append_assoc, hcount]
  exact readMany_flatMap h rest

theorem readsOnly_noFields : ReadsOnly noFields.read fun _ => True := fun _ _ _ _ => trivial

theorem ReadsOnly.required (name : String) {codec : Codec α} {more : Fields β} {P : α → Prop}
    {Q : β → Prop} (ha : ReadsOnly codec.read P) (hb : ReadsOnly more.read Q) :
    ReadsOnly (required name codec more).read fun pair => P pair.1 ∧ Q pair.2 := by
  intro bytes pair rest h
  obtain ⟨⟨a, left⟩, hfirst, h⟩ := Option.bind_eq_some_iff.1 h
  obtain ⟨⟨b, last⟩, hsecond, h⟩ := Option.bind_eq_some_iff.1 h
  cases h
  exact ⟨ha _ _ _ hfirst, hb _ _ _ hsecond⟩

theorem ReadsOnly.iso {codec : Codec α} {make : α → β} {parts : β → α} {P : α → Prop} {Q : β → Prop}
    (h : ReadsOnly codec.read P) (hmake : ∀ a, P a → Q (make a)) :
    ReadsOnly (codec.iso make parts).read Q := by
  intro bytes b rest hread
  obtain ⟨⟨a, left⟩, hfirst, hread⟩ := Option.map_eq_some_iff.1 hread
  cases hread
  exact hmake a (h _ _ _ hfirst)

theorem readMany_eq_some {read : Bytes → Option (α × Bytes)} {P : α → Prop} (h : ReadsOnly read P)
    {n : Nat} {bytes rest : Bytes} {as : List α} (hread : readMany read n bytes = some (as, rest)) :
    as.length = n ∧ ∀ a ∈ as, P a := by
  induction n generalizing bytes as with
  | zero =>
    cases hread
    exact ⟨rfl, by simp⟩
  | succ n ih =>
    obtain ⟨⟨a, left⟩, hfirst, hread⟩ := Option.bind_eq_some_iff.1 hread
    obtain ⟨⟨more, last⟩, hmore, hread⟩ := Option.bind_eq_some_iff.1 hread
    cases hread
    obtain ⟨hlength, hall⟩ := ih hmore
    exact ⟨congrArg (· + 1) hlength, List.forall_mem_cons.2 ⟨h _ _ _ hfirst, hall⟩⟩

theorem readsOnly_list {item : Codec α} {P : α → Prop} (h : ReadsOnly item.read P) :
    ReadsOnly (list item).read fun as => as.length < UInt64.size ∧ ∀ a ∈ as, P a := by
  intro bytes as rest hread
  obtain ⟨⟨n, left⟩, hcount, hread⟩ := Option.bind_eq_some_iff.1 hread
  obtain ⟨hlength, hall⟩ := readMany_eq_some h hread
  refine ⟨?_, hall⟩
  rw [hlength, ← bound_eight]
  exact readsOnly_nat 8 _ n left hcount

end

end Codec

namespace ValueRecord

open Codec

/-- Eight bytes hold the lengths, as those of everything that is in a memory. -/
structure Fits (record : ValueRecord) : Prop where
  value : record.value.length < UInt64.size
  signature : record.signature.length < UInt64.size

theorem readsBack_codec {record : ValueRecord} (h : record.Fits) :
    ReadsBack codec.write codec.read record := by
  refine ReadsBack.iso ?_ rfl
  refine ReadsBack.required "position" (readsBack_word _) ?_
  refine ReadsBack.required "value" (readsBack_bytes h.value) ?_
  exact ReadsBack.required "signature" (readsBack_bytes h.signature) readsBack_noFields

/-- **What is stored under an identifier is read back.** -/
theorem decodeList?_encodeList {records : List ValueRecord} (hlength : records.length < UInt64.size)
    (h : ∀ record ∈ records, record.Fits) : decodeList? (encodeList records) = some records := by
  have hread := readsBack_list hlength fun record hmem => readsBack_codec (h record hmem)
  have hall := hread []
  rw [List.append_nil] at hall
  show ((list codec).read ((list codec).write records)).map Prod.fst = _
  rw [hall]
  rfl

theorem readsOnly_codec : ReadsOnly codec.read Fits := by
  refine ReadsOnly.iso (ReadsOnly.required "position" readsOnly_word
    (ReadsOnly.required "value" readsOnly_bytes
      (ReadsOnly.required "signature" readsOnly_bytes readsOnly_noFields))) ?_
  rintro ⟨position, value, signature, done⟩ ⟨-, hvalue, hsignature, -⟩
  exact ⟨hvalue, hsignature⟩

/-- Whatever is read under an identifier fits. -/
theorem fits_of_decodeList? {data : Bytes} {records : List ValueRecord}
    (h : decodeList? data = some records) : ∀ record ∈ records, record.Fits := by
  obtain ⟨⟨found, rest⟩, hread, hfound⟩ := Option.map_eq_some_iff.1 h
  cases hfound
  exact (readsOnly_list readsOnly_codec data found rest hread).2

end ValueRecord

end KeyTransparency
