import KeyTransparency.Proofs.Storage.Reopening
import Mathlib.Control.Monad.Basic

/-!
# A store's file after a crash

A process is stopped, and the file is opened as it stands.  Nothing is lost of what was synced if nothing
has been put since, wherever the next `sync` is stopped, because it writes what stands there already; and
nothing can be lost if no key was synced:

    Restores (sync.interrupted synced n) synced
    synced.size = 0 → Restores ((put key value).interrupted now n) synced

Otherwise a record that was put since stands where the header says that the index is.  Its first four
bytes are read as the length of a key, which reaches behind the end of the file, so that the file cannot
be opened (`openFile_interrupted`).
-/

namespace KeyTransparency

namespace FileStore

section

variable (codec : Compression)

def applyAll (store : FileStore) (calls : List Call) : Except Error FileStore :=
  calls.foldlM (fun store call => call.apply codec store) store

/-- The values put under their keys. -/
def putAll (store : FileStore) (entries : List (Bytes × Bytes)) : Except Error FileStore :=
  applyAll codec store (entries.map fun entry => .put entry.1 entry.2)

/-- The file can be opened, and what is read then is what was read from the store. -/
def Restores (file : FileImage) (store : FileStore) : Prop :=
  ∃ opened, openFile file = .ok opened ∧ opened.handle = store.handle ∧
    ∀ key, opened.get codec key = store.get codec key

end

section

variable {codec : Compression} {store next synced now : FileStore} {file other : FileImage}
  {handle : StoreHandle} {call : Call} {key value : Bytes} {calls : List Call}

/-- What every call keeps, all calls keep. -/
theorem applyAll_induction {motive : FileStore → Prop} (hstart : motive store)
    (hstep : ∀ call ∈ calls, ∀ store next, motive store → call.apply codec store = .ok next →
      motive next)
    (happly : applyAll codec store calls = .ok next) : motive next := by
  induction calls generalizing store with
  | nil =>
    cases happly
    exact hstart
  | cons call rest ih =>
    rw [applyAll, List.foldlM_cons] at happly
    obtain ⟨middle, hfirst, hrest⟩ := bind_eq_ok_iff.1 happly
    exact ih (hstep call List.mem_cons_self store middle hstart hfirst)
      (fun later hlater => hstep later (List.mem_cons_of_mem _ hlater)) hrest

theorem not_restores (h : openFile file = .error .io) : ¬ Restores codec file store := by
  rintro ⟨opened, hopen, -⟩
  rw [h] at hopen
  cases hopen

theorem Intact.applyAll (h : Intact store) (hsmall : ∀ call ∈ calls, call.Small codec)
    (happly : applyAll codec store calls = .ok next) : Intact next :=
  applyAll_induction h (fun call hcall _ _ hintact => hintact.apply (hsmall call hcall)) happly

/-- After some calls and a `sync` the file has what the store knows. -/
theorem Intact.saved_of_applyAll (h : Intact store) (hsmall : ∀ call ∈ calls, call.Small codec)
    (happly : FileStore.applyAll codec store (calls ++ [.sync]) = .ok synced) :
    Saved synced.file synced.handle := by
  rw [FileStore.applyAll, List.foldlM_append] at happly
  obtain ⟨middle, hcalls, hlast⟩ := bind_eq_ok_iff.1 happly
  rw [List.foldlM_cons] at hlast
  obtain ⟨last, hsync, hlast⟩ := bind_eq_ok_iff.1 hlast
  cases hlast
  exact (h.applyAll hsmall hcalls).saved hsync

/-! ## Nothing put since -/

theorem get_eq_of_agrees (h : file.Agrees other) (handle : StoreHandle) (key : Bytes) :
    get codec ⟨file, handle⟩ key = get codec ⟨other, handle⟩ key := by
  unfold get
  simp only [h.read?]

theorem Saved.restores (h : Saved store.file store.handle) (hagrees : file.Agrees store.file) :
    Restores codec file store :=
  ⟨_, openFile_of_saved (h.agrees hagrees), rfl, get_eq_of_agrees hagrees store.handle⟩

/-- Where no key was synced, nothing is lost. -/
theorem Refers.restores_of_empty (h : Refers file store.handle) (hempty : store.handle.index = []) :
    Restores codec file store := by
  refine ⟨⟨file, store.handle⟩, ?_, rfl, fun key => ?_⟩
  · have hhandle : (⟨[], store.handle.writeOffset⟩ : StoreHandle) = store.handle := by rw [← hempty]
    rw [openFile_of_refers h, hempty]
    show Except.ok (FileStore.mk file ⟨[], store.handle.writeOffset⟩) = _
    rw [hhandle]
  · unfold get
    rw [hempty]
    rfl

/-- A `sync` right after another writes what stands there. -/
theorem Saved.agrees_interrupted (h : Saved store.file store.handle) (n : Nat) :
    (Call.sync.interrupted codec store n).Agrees store.file := by
  refine FileImage.agrees_writeFirst ?_ n
  intro w hw
  rcases List.mem_cons.1 hw with rfl | hw
  · exact h.fields
  · obtain rfl := List.mem_singleton.1 hw
    exact h.index

/-! ## Records put since -/

/-- The header still refers to the index that was synced, and records come behind its start. -/
structure Since (handle : StoreHandle) (store : FileStore) : Prop where
  refers : Refers store.file handle
  reached : handle.writeOffset ≤ store.handle.writeOffset

/-- The start of a record stands where the index was. -/
structure Overwritten (handle : StoreHandle) (store : FileStore) : Prop where
  held : store.file.Holds handle.writeOffset (Bytes.littleEndian 4 Zstd.magic)
  reached : handle.writeOffset + 4 ≤ store.handle.writeOffset

theorem Since.interrupted (h : Since handle store) (n : Nat) :
    Refers ((Call.put key value).interrupted codec store n) handle := by
  have hbehind := Nat.le_trans h.refers.behind h.reached
  refine ⟨h.refers.begins.interrupted hbehind n, ?_, h.refers.count, h.refers.offset, h.refers.behind⟩
  exact Call.holds_interrupted h.refers.fields (by simpa using hbehind) (by simp) n

theorem Since.put (h : Since handle store) (happly : (Call.put key value).apply codec store = .ok next) :
    Since handle next := by
  obtain ⟨all, hall⟩ := Call.exists_interrupted_eq happly
  exact ⟨hall all (Nat.le_refl all) ▸ h.interrupted all,
    Nat.le_trans h.reached (Call.writeOffset_le_of_apply happly)⟩

theorem Overwritten.put (h : Overwritten handle store)
    (happly : (Call.put key value).apply codec store = .ok next) : Overwritten handle next := by
  refine ⟨Call.holds_apply h.held ?_ (by simp) happly,
    Nat.le_trans h.reached (Call.writeOffset_le_of_apply happly)⟩
  rw [Bytes.length_littleEndian]
  exact h.reached

/-- The first bytes of a record come to stand where the index was. -/
theorem holds_interrupted_put (hframe : Bytes.littleEndian 4 Zstd.magic <+: codec.compress value)
    {n : Nat} (hn : 4 ≤ n) :
    ((Call.put key value).interrupted codec store n).Holds store.handle.writeOffset
      (Bytes.littleEndian 4 Zstd.magic) := by
  have hheld := FileImage.holds_write_self store.file store.handle.writeOffset
    ((codec.compress value).take n)
  have hstart := hheld.take 4
  rw [List.take_take, Nat.min_eq_left hn, ← Bytes.length_littleEndian 4 Zstd.magic,
    ← List.prefix_iff_eq_take.1 hframe] at hstart
  exact hstart

theorem overwritten_put (hframe : Bytes.littleEndian 4 Zstd.magic <+: codec.compress value)
    (hsmall : (Call.put key value).Small codec)
    (happly : (Call.put key value).apply codec store = .ok next) : Overwritten store.handle next := by
  obtain ⟨all, hall⟩ := Call.exists_interrupted_eq happly
  have hlength := hframe.length_le
  rw [Bytes.length_littleEndian] at hlength
  constructor
  · rw [← hall (max all 4) (Nat.le_max_left _ _)]
    exact holds_interrupted_put hframe (Nat.le_max_right _ _)
  · rw [Call.handle_of_put hsmall happly]
    exact Nat.add_le_add_left hlength _

theorem putAll_induction {motive : FileStore → Prop} {entries : List (Bytes × Bytes)}
    (hstart : motive store)
    (hstep : ∀ key value store next, motive store → (Call.put key value).apply codec store = .ok next →
      motive next)
    (hput : putAll codec store entries = .ok next) : motive next := by
  refine applyAll_induction hstart ?_ hput
  intro call hcall
  obtain ⟨entry, -, rfl⟩ := List.mem_map.1 hcall
  exact hstep entry.1 entry.2

/-- A key that the file is too short for. -/
theorem readIndex?_eq_none {offset length count : Nat} {before : SortedMap IndexEntry}
    (hheld : file.Holds offset (Bytes.littleEndian 4 length)) (hlength : length < UInt32.size)
    (hpos : length ≠ 0) (hshort : file.size < offset + 4 + length) :
    readIndex? file (count + 1) offset before = none := by
  have hkey : file.read? (offset + 4) length = none := by
    unfold FileImage.read?
    rw [if_neg hpos, if_neg (Nat.not_le.2 hshort)]
  rw [readIndex?, numberAt?_of_holds hheld hlength]
  simp only [Option.bind_eq_bind, Option.bind_some, hkey, Option.bind_none]

/-- The first bytes of a record are taken for the length of a key. -/
theorem openFile_of_overwritten (h : Refers file handle) (hindex : handle.index.length ≠ 0)
    (hheld : file.Holds handle.writeOffset (Bytes.littleEndian 4 Zstd.magic))
    (hsize : file.size < Zstd.magic) : openFile file = .error .io := by
  obtain ⟨count, hcount⟩ := Nat.exists_eq_succ_of_ne_zero hindex
  have hshort : file.size < handle.writeOffset + 4 + Zstd.magic := by omega
  rw [openFile_of_refers h, hcount, readIndex?_eq_none hheld (by decide) (by decide) hshort,
    Option.elim_none]

end

/-- What `Zstd` writes begins with the mark of its format. -/
theorem magic_prefix_compress (value : Bytes) :
    Bytes.littleEndian 4 Zstd.magic <+: Zstd.compression.compress value :=
  List.prefix_append _ _

/-- **A crash after a `sync`.**  A store is new or was opened, some calls go through and then a `sync`,
and after it some values are put.

The next `sync`, if nothing was put, can be stopped anywhere, and the file is opened as the store that was
synced.  If no key was synced, a `put` can be stopped anywhere, and the same holds.  But if a key was
synced, as soon as four bytes of a record were written the file cannot be opened any more: the record
stands where the index was.  That a new record begins with the mark of its format and that the file has
less than 4 GiB is needed for this only. -/
theorem openFile_interrupted (codec : Compression)
    (hframe : ∀ value, Bytes.littleEndian 4 Zstd.magic <+: codec.compress value)
    {start synced now : FileStore} {before : List Call} {entries : List (Bytes × Bytes)}
    (hstart : start = create ∨ openFile start.file = .ok start)
    (hbehind : 32 ≤ start.handle.writeOffset)
    (hbefore : ∀ call ∈ before, call.Small codec)
    (hentries : ∀ entry ∈ entries, (Call.put entry.1 entry.2).Small codec)
    (hsynced : applyAll codec start (before ++ [.sync]) = .ok synced)
    (hnow : putAll codec synced entries = .ok now) :
    (∀ n, Restores codec (Call.sync.interrupted codec synced n) synced) ∧
    ∀ key value n,
      (synced.size = 0 → Restores codec ((Call.put key value).interrupted codec now n) synced) ∧
      (synced.size ≠ 0 → entries ≠ [] ∨ 4 ≤ n →
        ((Call.put key value).interrupted codec now n).size < Zstd.magic →
        openFile ((Call.put key value).interrupted codec now n) = .error .io) := by
  have hintact : Intact start := by
    rcases hstart with rfl | hopen
    · exact intact_create
    · exact intact_of_openFile hopen hbehind
  have hsaved := hintact.saved_of_applyAll hbefore hsynced
  have hsince : Since synced.handle synced := ⟨hsaved.toRefers, Nat.le_refl _⟩
  refine ⟨fun n => hsaved.restores (hsaved.agrees_interrupted n), fun key value n => ?_⟩
  have hrefers : Refers ((Call.put key value).interrupted codec now n) synced.handle :=
    (putAll_induction hsince (fun _ _ _ _ hsince => hsince.put) hnow).interrupted n
  constructor
  · intro hempty
    exact hrefers.restores_of_empty (List.length_eq_zero_iff.1 hempty)
  · intro hsize hwritten hshort
    refine openFile_of_overwritten hrefers hsize ?_ hshort
    cases entries with
    | nil =>
      cases hnow
      exact holds_interrupted_put (hframe value) (hwritten.resolve_left fun hnil => hnil rfl)
    | cons first rest =>
      obtain ⟨next, hfirst, hrest⟩ := bind_eq_ok_iff.1 hnow
      have hover := overwritten_put (hframe first.2) (hentries first List.mem_cons_self) hfirst
      obtain ⟨hheld, hreached⟩ := putAll_induction hover (fun _ _ _ _ hover => hover.put) hrest
      refine Call.holds_interrupted hheld ?_ (by simp) n
      rw [Bytes.length_littleEndian]
      exact hreached

/-- Stopped within the second `sync`, and after a `put`. -/
theorem openFile_interrupted_one_key :
    ∃ synced now : FileStore,
      applyAll Zstd.compression create ([.put [1] [2]] ++ [.sync]) = .ok synced ∧
      putAll Zstd.compression synced [([3], [4])] = .ok now ∧
      Restores Zstd.compression (Call.sync.interrupted Zstd.compression synced 20) synced ∧
      openFile ((Call.put [5] [6]).interrupted Zstd.compression now 0) = .error .io := by
  have hbefore : ∀ call ∈ [Call.put [1] [2]], call.Small Zstd.compression := by decide
  have hentries : ∀ entry ∈ [(([3], [4]) : Bytes × Bytes)],
      (Call.put entry.1 entry.2).Small Zstd.compression := by decide
  refine ⟨_, _, rfl, rfl, ?_⟩
  obtain ⟨hsync, hput⟩ := openFile_interrupted Zstd.compression magic_prefix_compress (.inl rfl)
    (by decide) hbefore hentries rfl rfl
  exact ⟨hsync 20, (hput [5] [6] 0).2 (by decide +kernel) (.inl (by decide)) (by decide +kernel)⟩

/-- A value was synced, and after one more `put` the file that has it cannot be opened. -/
theorem synced_value_lost :
    ∃ synced now : FileStore,
      applyAll Zstd.compression create [.put [1] [2], .sync] = .ok synced ∧
      putAll Zstd.compression synced [([3], [4])] = .ok now ∧
      synced.get Zstd.compression [1] = .ok (some [2]) ∧
      openFile now.file = .error .io ∧ ¬ Restores Zstd.compression now.file synced := by
  refine ⟨_, _, rfl, rfl, ?_, ?_, not_restores ?_⟩ <;> decide +kernel

end FileStore

end KeyTransparency
