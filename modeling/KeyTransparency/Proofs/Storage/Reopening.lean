import KeyTransparency.Proofs.Storage.Index

/-!
# A store's file is opened again

A call writes at the place of the next record and behind it, and a `sync` over two fields of the header
as well; what stands elsewhere stays, wherever the call is stopped (`Call.holds_interrupted`).  So a
store that is intact stays intact, and what a `sync` leaves is the same store when it is opened:

    Intact store → call.apply store = ok next → Intact next                       (Intact.apply)
    Intact store → sync.apply store = ok next → openFile next.file = ok next      (Intact.openFile_sync)
-/

namespace KeyTransparency

namespace FileStore

/-- The calls that write. -/
inductive Call where
  | put (key value : Bytes)
  | sync
deriving DecidableEq

namespace Call

variable (codec : Compression) (store : FileStore)

def apply : Call → Except Error FileStore
  | put key value => store.put codec key value
  | sync => store.sync.2.map fun _ => store.sync.1

/-- What a call writes and where, in the order in which it does. -/
def writes : Call → List (Nat × Bytes)
  | put _ value => [(store.handle.writeOffset, codec.compress value)]
  | sync =>
    [(16, Bytes.littleEndian 8 store.size ++ Bytes.littleEndian 8 store.handle.writeOffset),
      (store.handle.writeOffset, encodeIndex store.handle.index)]

/-- What the store knows after a call. -/
def handle : Call → StoreHandle
  | put key value =>
    let size := (codec.compress value).length % UInt32.size
    ⟨store.handle.index.insert key ⟨store.handle.writeOffset, size⟩, store.handle.writeOffset + size⟩
  | sync => store.handle

/-- The file when the call is stopped behind its first `n` bytes. -/
def interrupted (call : Call) (n : Nat) : FileImage := store.file.writeFirst n (call.writes codec store)

/-- Nothing is written behind the last place of a file. -/
def Room (call : Call) : Prop :=
  ∀ w ∈ call.writes codec store, w.1 + w.2.length ≤ FileImage.sizeLimit

/-- Four bytes hold the lengths. -/
def Small : Call → Prop
  | put key value => key.length < UInt32.size ∧ (codec.compress value).length < UInt32.size
  | sync => True

instance (call : Call) : Decidable (call.Room codec store) :=
  inferInstanceAs (Decidable (∀ w ∈ call.writes codec store, w.1 + w.2.length ≤ FileImage.sizeLimit))

instance : (call : Call) → Decidable (call.Small codec)
  | put key value => inferInstanceAs (Decidable (key.length < UInt32.size ∧
      (codec.compress value).length < UInt32.size))
  | sync => instDecidableTrue

variable {codec store} {next : FileStore} {call : Call}

theorem room_put_iff {key value : Bytes} : (put key value).Room codec store ↔
    store.handle.writeOffset + (codec.compress value).length ≤ FileImage.sizeLimit := by
  simp [Room, writes]

theorem room_sync_iff : sync.Room codec store ↔
    store.handle.writeOffset + (encodeIndex store.handle.index).length ≤ FileImage.sizeLimit := by
  have hfields : 16 + (8 + 8) ≤ FileImage.sizeLimit := by decide
  simp [Room, writes, hfields]

/-- A call goes through if there is room for what it writes, and then all of it is written. -/
theorem apply_eq_ok_iff : call.apply codec store = .ok next ↔ call.Room codec store ∧
    next = ⟨(call.writes codec store).foldl (fun file w => file.write w.1 w.2) store.file,
      call.handle codec store⟩ := by
  cases call with
  | put key value =>
    rw [room_put_iff, apply, FileStore.put]
    split
    · next hfull => exact iff_of_false (by simp) fun h => Nat.not_lt.2 h.1 hfull
    · next hroom =>
      rw [Except.ok.injEq, and_iff_right (Nat.not_lt.1 hroom), eq_comm]
      rfl
  | sync =>
    simp only [room_sync_iff, apply, FileStore.sync]
    split
    · next hfull => exact iff_of_false (by simp [Except.map]) fun h => Nat.not_lt.2 h.1 hfull
    · next hroom =>
      rw [Except.map, Except.ok.injEq, and_iff_right (Nat.not_lt.1 hroom), eq_comm]
      rfl

theorem handle_of_apply (h : call.apply codec store = .ok next) :
    next.handle = call.handle codec store := by
  rw [(apply_eq_ok_iff.1 h).2]

theorem handle_of_put {key value : Bytes} (hsmall : (put key value).Small codec)
    (h : (put key value).apply codec store = .ok next) :
    next.handle = ⟨store.handle.index.insert key
      ⟨store.handle.writeOffset, (codec.compress value).length⟩,
      store.handle.writeOffset + (codec.compress value).length⟩ := by
  simp only [handle_of_apply h, handle, Nat.mod_eq_of_lt hsmall.2]

theorem handle_of_sync (h : sync.apply codec store = .ok next) : next.handle = store.handle :=
  handle_of_apply h

/-- The next record never moves back. -/
theorem writeOffset_le_of_apply (h : call.apply codec store = .ok next) :
    store.handle.writeOffset ≤ next.handle.writeOffset := by
  rw [handle_of_apply h]
  cases call with
  | put key value => exact Nat.le_add_right _ _
  | sync => exact Nat.le_refl _

/-- A call that is stopped behind its last byte has written everything. -/
theorem exists_interrupted_eq (h : call.apply codec store = .ok next) :
    ∃ all, ∀ n, all ≤ n → call.interrupted codec store n = next.file := by
  rw [(apply_eq_ok_iff.1 h).2]
  exact FileImage.exists_writeFirst_eq store.file (call.writes codec store)

/-- What stands below the next record stays, but for the fields that a `sync` writes. -/
theorem holds_interrupted {offset : Nat} {bytes : Bytes} (h : store.file.Holds offset bytes)
    (hbelow : offset + bytes.length ≤ store.handle.writeOffset)
    (hfields : call = sync → offset + bytes.length ≤ 16 ∨ 32 ≤ offset) (n : Nat) :
    (call.interrupted codec store n).Holds offset bytes := by
  refine h.writeFirst ?_ n
  intro w hw
  cases call with
  | put key value =>
    obtain rfl := List.mem_singleton.1 hw
    exact .inl hbelow
  | sync =>
    rcases List.mem_cons.1 hw with rfl | hw
    · have := hfields rfl
      simpa using this
    · obtain rfl := List.mem_singleton.1 hw
      exact .inl hbelow

theorem holds_apply {offset : Nat} {bytes : Bytes} (h : store.file.Holds offset bytes)
    (hbelow : offset + bytes.length ≤ store.handle.writeOffset)
    (hfields : call = sync → offset + bytes.length ≤ 16 ∨ 32 ≤ offset)
    (happly : call.apply codec store = .ok next) : next.file.Holds offset bytes := by
  obtain ⟨all, hall⟩ := exists_interrupted_eq happly
  rw [← hall all (Nat.le_refl all)]
  exact holds_interrupted h hbelow hfields all

end Call

/-! ## Opening -/

theorem length_magic : magic.length = 8 := by decide +kernel

/-- The file begins as the file of a store does. -/
structure Begins (file : FileImage) : Prop where
  size : headerSize ≤ file.size
  mark : file.Holds 0 (magic ++ Bytes.littleEndian 4 version)

/-- The header refers to an index of so many entries at this place. -/
structure Refers (file : FileImage) (handle : StoreHandle) : Prop where
  begins : Begins file
  fields : file.Holds 16
    (Bytes.littleEndian 8 handle.index.length ++ Bytes.littleEndian 8 handle.writeOffset)
  count : handle.index.length < UInt64.size
  offset : handle.writeOffset < UInt64.size
  behind : 32 ≤ handle.writeOffset

/-- The file has what the store knows besides it. -/
structure Saved (file : FileImage) (handle : StoreHandle) : Prop extends Refers file handle where
  index : file.Holds handle.writeOffset (encodeIndex handle.index)
  valid : IndexValid handle.index

section

variable {file other : FileImage} {store : FileStore} {handle : StoreHandle}

theorem Begins.agrees (h : Begins file) (hagrees : other.Agrees file) : Begins other :=
  ⟨hagrees.size ▸ h.size, hagrees.holds h.mark⟩

theorem Saved.agrees (h : Saved file handle) (hagrees : other.Agrees file) : Saved other handle where
  begins := h.begins.agrees hagrees
  fields := hagrees.holds h.fields
  count := h.count
  offset := h.offset
  behind := h.behind
  index := hagrees.holds h.index
  valid := h.valid

theorem Begins.exists_header (h : Begins file) : ∃ header, file.read? 0 headerSize = some header := by
  refine ⟨_, (if_neg (by decide)).trans (if_pos ?_)⟩
  have := h.size
  omega

theorem ofLittleEndian_field {header : Bytes} {place width n : Nat}
    (hread : file.read? 0 headerSize = some header)
    (h : file.Holds place (Bytes.littleEndian width n)) (hplace : place + width ≤ headerSize)
    (hn : n < Bytes.bound width) :
    Bytes.ofLittleEndian ((header.drop place).take width) = n := by
  have hfield := h.take_drop hread (by rw [Bytes.length_littleEndian]; exact hplace)
  rw [Bytes.length_littleEndian] at hfield
  rw [hfield, Bytes.ofLittleEndian_littleEndian, Nat.mod_eq_of_lt hn]

/-- What is opened depends on the two fields of the header and on the index that they refer to. -/
theorem openFile_of_refers (h : Refers file handle) :
    openFile file = (readIndex? file handle.index.length handle.writeOffset []).elim (.error .io)
      fun index => .ok ⟨file, ⟨index, handle.writeOffset⟩⟩ := by
  obtain ⟨header, hread⟩ := h.begins.exists_header
  obtain ⟨hmagic, hversion⟩ := FileImage.holds_append.1 h.begins.mark
  obtain ⟨hcountField, hoffsetField⟩ := FileImage.holds_append.1 h.fields
  rw [length_magic] at hversion
  have hmark : (header.drop 0).take 8 = magic := by
    rw [← length_magic]
    exact hmagic.take_drop hread (by rw [length_magic]; decide)
  rw [List.drop_zero] at hmark
  have hfound : Bytes.ofLittleEndian ((header.drop 8).take 4) = version :=
    ofLittleEndian_field hread hversion (by decide) (by decide)
  have hentries : Bytes.ofLittleEndian ((header.drop 16).take 8) = handle.index.length :=
    ofLittleEndian_field hread hcountField (by decide) h.count
  have hindex : Bytes.ofLittleEndian ((header.drop 24).take 8) = handle.writeOffset :=
    ofLittleEndian_field hread hoffsetField (by decide) h.offset
  have hpos : handle.writeOffset ≠ 0 := by
    have := h.behind
    omega
  simp only [openFile, hread, hmark, hfound, hentries, hindex, ne_eq, not_true_eq_false, if_false, hpos]
  by_cases hzero : handle.index.length = 0
  · rw [if_pos hzero, hzero]
    rfl
  · rw [if_neg hzero]
    cases readIndex? file handle.index.length handle.writeOffset [] with
    | none => rfl
    | some index => rfl

theorem openFile_of_saved (h : Saved file handle) : openFile file = .ok ⟨file, handle⟩ := by
  rw [openFile_of_refers h.toRefers, readIndex?_encodeIndex h.valid h.index, Option.elim_some]

theorem begins_of_header {header : Bytes} (hread : file.read? 0 headerSize = some header)
    (hmark : header.take 8 = magic)
    (hfound : Bytes.ofLittleEndian ((header.drop 8).take 4) = version) : Begins file := by
  obtain ⟨hlength, hheader⟩ := FileImage.read?_eq_some_iff.1 hread
  have hpos : header ≠ [] := List.ne_nil_of_length_pos (by rw [hlength]; decide)
  have hend := hheader.end_le hpos
  have hfour : ((header.drop 8).take 4).length = 4 := by
    rw [List.length_take, List.length_drop, hlength]
    rfl
  have hversion := Bytes.littleEndian_ofLittleEndian ((header.drop 8).take 4)
  rw [hfour, hfound] at hversion
  refine ⟨by omega, ?_⟩
  rw [← hmark, hversion, ← List.take_add]
  exact hheader.take _

/-- Whatever is opened begins as a store's file does and has a valid index. -/
theorem openFile_eq_ok (h : openFile file = .ok store) :
    store.file = file ∧ Begins file ∧ IndexValid store.handle.index := by
  unfold openFile at h
  cases hread : file.read? 0 headerSize with
  | none =>
    rw [hread] at h
    cases h
  | some header =>
    rw [hread] at h
    simp only at h
    have hmark : header.take 8 = magic := by
      refine Decidable.byContradiction fun hother => ?_
      rw [if_pos hother] at h
      cases h
    rw [if_neg (not_not_intro hmark)] at h
    have hfound : Bytes.ofLittleEndian ((header.drop 8).take 4) = version := by
      refine Decidable.byContradiction fun hother => ?_
      rw [if_pos hother] at h
      cases h
    rw [if_neg (not_not_intro hfound)] at h
    have hbegins := begins_of_header hread hmark hfound
    split at h
    · cases h
      exact ⟨rfl, hbegins, .nil⟩
    split at h
    · cases h
      exact ⟨rfl, hbegins, .nil⟩
    split at h
    · next index hindex =>
      cases h
      exact ⟨rfl, hbegins, IndexValid.nil.readIndex? hindex⟩
    · cases h

/-! ## Calls -/

/-- The header begins as it should, the next record goes behind its fields, and the index is valid. -/
structure Intact (store : FileStore) : Prop where
  begins : Begins store.file
  behind : 32 ≤ store.handle.writeOffset
  valid : IndexValid store.handle.index

theorem intact_create : Intact create := by
  have hheader := FileImage.holds_write_self .empty 0
    (magic ++ Bytes.littleEndian 4 version ++ List.replicate (headerSize - 12) 0)
  have hmark := (FileImage.holds_append.1 hheader).1
  have hend := hheader.end_le (List.append_ne_nil_of_right_ne_nil _ (by decide))
  simp only [List.length_append, length_magic, Bytes.length_littleEndian, List.length_replicate] at hend
  exact ⟨⟨hend, hmark⟩, by decide, .nil⟩

theorem intact_of_openFile (h : openFile file = .ok store) (hbehind : 32 ≤ store.handle.writeOffset) :
    Intact store := by
  obtain ⟨hfile, hbegins, hvalid⟩ := openFile_eq_ok h
  exact ⟨hfile ▸ hbegins, hbehind, hvalid⟩

variable {codec : Compression} {next : FileStore} {call : Call}

theorem Begins.interrupted (h : Begins store.file) (hbehind : 32 ≤ store.handle.writeOffset) (n : Nat) :
    Begins (call.interrupted codec store n) := by
  have hlength : (magic ++ Bytes.littleEndian 4 version).length = 12 := by
    rw [List.length_append, length_magic, Bytes.length_littleEndian]
  refine ⟨Nat.le_trans h.size (FileImage.size_le_writeFirst _ _ _), ?_⟩
  exact Call.holds_interrupted h.mark (by omega) (fun _ => .inl (by omega)) n

theorem Intact.apply (h : Intact store) (hsmall : call.Small codec)
    (happly : call.apply codec store = .ok next) : Intact next := by
  obtain ⟨all, hall⟩ := Call.exists_interrupted_eq happly
  refine ⟨hall all (Nat.le_refl all) ▸ h.begins.interrupted h.behind all,
    Nat.le_trans h.behind (Call.writeOffset_le_of_apply happly), ?_⟩
  rw [Call.handle_of_apply happly]
  cases call with
  | put key value =>
    have hroom := Call.room_put_iff.1 (Call.apply_eq_ok_iff.1 happly).1
    have hlimit : FileImage.sizeLimit < UInt64.size := by decide
    have hoffset : store.handle.writeOffset < UInt64.size := by omega
    exact h.valid.insert ⟨hsmall.1, hoffset, Nat.mod_lt _ (by decide)⟩
  | sync => exact h.valid

/-- After a `sync` the file has what the store knows. -/
theorem Intact.saved (h : Intact store) (happly : Call.sync.apply codec store = .ok next) :
    Saved next.file next.handle := by
  obtain ⟨hroom, hnext⟩ := Call.apply_eq_ok_iff.1 happly
  rw [Call.room_sync_iff] at hroom
  have hlimit : FileImage.sizeLimit < UInt64.size := by decide
  have hcount := length_le_encodeIndex store.handle.index
  have hsmall : Call.Small codec .sync := True.intro
  have hbegins := (h.apply hsmall happly).begins
  rw [Call.handle_of_sync happly]
  rw [hnext] at hbegins ⊢
  refine ⟨⟨hbegins, ?_, by omega, by omega, h.behind⟩, FileImage.holds_write_self _ _ _, h.valid⟩
  refine (FileImage.holds_write_self _ _ _).write (.inl ?_)
  simpa using h.behind

theorem Intact.openFile_sync (h : Intact store) (happly : Call.sync.apply codec store = .ok next) :
    openFile next.file = .ok next :=
  openFile_of_saved (h.saved happly)

end

end FileStore

end KeyTransparency
