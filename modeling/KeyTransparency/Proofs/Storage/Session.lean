import KeyTransparency.Proofs.Storage.Reopening
import Mathlib.Data.Finset.Card

/-!
# A store in a file is a map

A new store is written, read, asked for its size, and closed and opened again, in any order.  As long as
there is room in the file, each request is answered as by the map of what was put (`answers`), and no
file is refused when it is opened:

    Small requests → RoomFor create requests → run create requests = ok (last, answers [] requests)
                                                                                        (run_create)

What carries it is that each key of the index leads to the record of its newest value, between the header
and the next record (`Recorded`).  Calls do not write there; the index that a `sync` leaves is written
over by the next `put`, but it is kept in memory.
-/

namespace KeyTransparency

namespace FileStore

/-- What is asked of a store. -/
inductive Request where
  | write (call : Call)
  | get (key : Bytes)
  | size
  | reopen
deriving DecidableEq

inductive Answer where
  | done
  | value (found : Option Bytes)
  | size (n : Nat)
deriving DecidableEq

section

variable (codec : Compression)

namespace Request

/-- The store afterwards, and the answer.  A store is closed before its file is opened again. -/
def perform (store : FileStore) : Request → Except Error (FileStore × Answer)
  | write call => (call.apply codec store).map fun next => (next, .done)
  | get key => (store.get codec key).map fun found => (store, .value found)
  | size => .ok (store, .size store.size)
  | reopen => (openFile store.close).map fun next => (next, .done)

/-- Nothing is written behind the last place of a file. -/
def Room (store : FileStore) : Request → Prop
  | write call => call.Room codec store
  | reopen => Call.sync.Room codec store
  | get _ | size => True

def Small : Request → Prop
  | write call => call.Small codec
  | get _ | size | reopen => True

instance (store : FileStore) : (request : Request) → Decidable (request.Room codec store)
  | write call => inferInstanceAs (Decidable (call.Room codec store))
  | reopen => inferInstanceAs (Decidable (Call.sync.Room codec store))
  | get _ | size => instDecidableTrue

instance : (request : Request) → Decidable (request.Small codec)
  | write call => inferInstanceAs (Decidable (call.Small codec))
  | get _ | size | reopen => instDecidableTrue

/-- What has been put, the newest first. -/
def after (puts : List (Bytes × Bytes)) : Request → List (Bytes × Bytes)
  | write (.put key value) => (key, value) :: puts
  | write .sync | get _ | size | reopen => puts

/-- The answer of the map of what has been put. -/
def answer (puts : List (Bytes × Bytes)) : Request → Answer
  | get key => .value (puts.lookup key)
  | size => .size (puts.map Prod.fst).toFinset.card
  | write _ | reopen => .done

end Request

def run : FileStore → List Request → Except Error (FileStore × List Answer)
  | store, [] => .ok (store, [])
  | store, request :: rest =>
    (request.perform codec store).bind fun done =>
      (run done.1 rest).map fun finished => (finished.1, done.2 :: finished.2)

/-- There is room for every request when it is made. -/
def RoomFor : FileStore → List Request → Prop
  | _, [] => True
  | store, request :: rest => request.Room codec store ∧
    ∀ done ∈ (request.perform codec store).toOption, RoomFor done.1 rest

instance RoomFor.decidable : (store : FileStore) → (requests : List Request) →
    Decidable (RoomFor codec store requests)
  | _, [] => instDecidableTrue
  | store, request :: rest =>
    have (done : FileStore × Answer) : Decidable (RoomFor codec done.1 rest) := decidable done.1 rest
    inferInstanceAs (Decidable (request.Room codec store ∧
      ∀ done ∈ (request.perform codec store).toOption, RoomFor codec done.1 rest))

end

def answers : (puts : List (Bytes × Bytes)) → List Request → List Answer
  | _, [] => []
  | puts, request :: rest => request.answer puts :: answers (request.after puts) rest

section

variable {codec : Compression} {store next : FileStore} {puts : List (Bytes × Bytes)} {call : Call}
  {entry : IndexEntry} {key value : Bytes}

/-- The entry is that of a record of the value, which stands between the header and the next record. -/
structure Recorded (codec : Compression) (store : FileStore) (entry : IndexEntry) (value : Bytes) :
    Prop where
  behind : 32 ≤ entry.offset
  below : entry.offset + entry.size ≤ store.handle.writeOffset
  size : (codec.compress value).length = entry.size
  held : store.file.Holds entry.offset (codec.compress value)

/-- The store keeps what has been put. -/
structure Keeps (codec : Compression) (store : FileStore) (puts : List (Bytes × Bytes)) : Prop where
  intact : Intact store
  reached : store.handle.writeOffset ≤ FileImage.sizeLimit
  records : ∀ key, Option.Rel (Recorded codec store) (store.handle.index.get? key) (puts.lookup key)

theorem keeps_create : Keeps codec create [] := ⟨intact_create, by decide, fun _ => .none⟩

/-! ## Reading -/

theorem Keeps.get (h : Keeps codec store puts) (key : Bytes) :
    store.get codec key = .ok (puts.lookup key) := by
  have hrecord := h.records key
  unfold FileStore.get
  cases hentry : store.handle.index.get? key with
  | none =>
    rw [hentry] at hrecord
    generalize puts.lookup key = found at hrecord
    cases hrecord with
    | none => rfl
  | some entry =>
    rw [hentry] at hrecord
    generalize puts.lookup key = found at hrecord
    cases hrecord with
    | some hrecord =>
      have hread := hrecord.held.read?
      rw [hrecord.size] at hread
      have hplace : ¬ FileImage.sizeLimit < entry.offset := by
        have := hrecord.below
        have := h.reached
        omega
      simp only [if_neg hplace, hread, codec.decompress?_compress]

theorem Keeps.size (h : Keeps codec store puts) :
    store.size = (puts.map Prod.fst).toFinset.card := by
  have hkeys : (store.handle.index.map Prod.fst).toFinset = (puts.map Prod.fst).toFinset := by
    ext key
    rw [List.mem_toFinset, List.mem_toFinset, ← SortedMap.isSome_get?_iff, ← SortedMap.isSome_get?_iff]
    have hrecord := h.records key
    show (store.handle.index.get? key).isSome ↔ (puts.lookup key).isSome
    generalize store.handle.index.get? key = entry, puts.lookup key = found at hrecord
    cases hrecord <;> exact Iff.rfl
  rw [← hkeys, List.toFinset_card_of_nodup h.intact.valid.ordered.nodup_keys, List.length_map]
  rfl

/-! ## Writing -/

theorem Recorded.apply (h : Recorded codec store entry value)
    (happly : call.apply codec store = .ok next) : Recorded codec next entry value := by
  have hbelow := h.below
  have hsize := h.size
  exact ⟨h.behind, Nat.le_trans hbelow (Call.writeOffset_le_of_apply happly), hsize,
    Call.holds_apply h.held (by omega) (fun _ => .inr h.behind) happly⟩

theorem Recorded.put (hintact : Intact store) (hsmall : (Call.put key value).Small codec)
    (happly : (Call.put key value).apply codec store = .ok next) :
    Recorded codec next ⟨store.handle.writeOffset, (codec.compress value).length⟩ value := by
  refine ⟨hintact.behind, ?_, rfl, ?_⟩
  · rw [Call.handle_of_put hsmall happly]
  · rw [(Call.apply_eq_ok_iff.1 happly).2]
    exact FileImage.holds_write_self _ _ _

theorem Keeps.apply (h : Keeps codec store puts) (hsmall : call.Small codec)
    (happly : call.apply codec store = .ok next) :
    Keeps codec next ((Request.write call).after puts) := by
  have hintact := h.intact.apply hsmall happly
  have hkept : ∀ key, Option.Rel (Recorded codec next) (store.handle.index.get? key) (puts.lookup key) := by
    intro key
    have hrecord := h.records key
    generalize store.handle.index.get? key = entry, puts.lookup key = found at hrecord ⊢
    cases hrecord with
    | none => exact .none
    | some hrecord => exact .some (hrecord.apply happly)
  cases call with
  | put key value =>
    have hrecord := Recorded.put h.intact hsmall happly
    have hhandle := Call.handle_of_put hsmall happly
    refine ⟨hintact, ?_, ?_⟩
    · rw [hhandle]
      exact Call.room_put_iff.1 (Call.apply_eq_ok_iff.1 happly).1
    · intro other
      rw [hhandle, SortedMap.get?_insert, Request.after, List.lookup_cons]
      by_cases hkey : other = key
      · rw [if_pos hkey, beq_iff_eq.2 hkey]
        exact .some hrecord
      · rw [if_neg hkey, beq_false_of_ne hkey]
        exact hkept other
  | sync =>
    have hhandle := Call.handle_of_sync happly
    exact ⟨hintact, hhandle ▸ h.reached, fun key => hhandle ▸ hkept key⟩

/-! ## Requests -/

theorem close_eq_of_sync (happly : Call.sync.apply codec store = .ok next) : store.close = next.file := by
  rw [Call.apply] at happly
  cases hsync : store.sync.2 with
  | error error =>
    rw [hsync] at happly
    cases happly
  | ok _ =>
    rw [hsync] at happly
    cases happly
    rfl

/-- Each request goes through and is answered as by the map. -/
theorem Keeps.perform (h : Keeps codec store puts) {request : Request} (hsmall : request.Small codec)
    (hroom : request.Room codec store) :
    ∃ next, request.perform codec store = .ok (next, request.answer puts) ∧
      Keeps codec next (request.after puts) := by
  cases request with
  | write call =>
    have happly := Call.apply_eq_ok_iff.2 ⟨hroom, rfl⟩
    refine ⟨_, ?_, h.apply hsmall happly⟩
    rw [Request.perform, happly]
    rfl
  | get key =>
    refine ⟨store, ?_, h⟩
    rw [Request.perform, h.get]
    rfl
  | size =>
    refine ⟨store, ?_, h⟩
    rw [Request.perform, h.size]
    rfl
  | reopen =>
    have happly := Call.apply_eq_ok_iff.2 ⟨hroom, rfl⟩
    have hsync : Call.Small codec .sync := True.intro
    refine ⟨_, ?_, h.apply hsync happly⟩
    rw [Request.perform, close_eq_of_sync happly, h.intact.openFile_sync happly]
    rfl

theorem Keeps.run (h : Keeps codec store puts) {requests : List Request}
    (hsmall : ∀ request ∈ requests, request.Small codec) (hroom : RoomFor codec store requests) :
    ∃ last, run codec store requests = .ok (last, answers puts requests) := by
  induction requests generalizing store puts with
  | nil => exact ⟨store, rfl⟩
  | cons request rest ih =>
    obtain ⟨next, hdone, hkeeps⟩ := h.perform (hsmall request List.mem_cons_self) hroom.1
    obtain ⟨last, hrun⟩ := ih hkeeps (fun later hlater => hsmall later (List.mem_cons_of_mem _ hlater))
      (hroom.2 _ (by rw [hdone]; rfl))
    refine ⟨last, ?_⟩
    rw [FileStore.run, hdone]
    show (FileStore.run codec next rest).map _ = _
    rw [hrun]
    rfl

end

/-- **A store in a file is a map.**  Whatever is asked of a new store, with reopening as often as one
likes, is answered: a read by the value of the latest `put` of its key, if there was one, and the size by
the number of different keys that were put.  Four bytes hold the lengths, and there is room in the file
for what is written. -/
theorem run_create (codec : Compression) (requests : List Request)
    (hsmall : ∀ request ∈ requests, request.Small codec) (hroom : RoomFor codec create requests) :
    ∃ last, run codec create requests = .ok (last, answers [] requests) :=
  keeps_create.run hsmall hroom

/-- Writing over the saved index, and reopening in between. -/
theorem run_create_reopened :
    let requests : List Request :=
      [.write (.put [1] [2]), .write .sync, .write (.put [3] [4]), .get [1], .reopen, .get [3], .get [5],
        .write (.put [1] [6]), .size, .reopen, .get [1], .size]
    (∀ request ∈ requests, request.Small Zstd.compression) ∧ RoomFor Zstd.compression create requests ∧
      ∃ last, run Zstd.compression create requests = .ok (last,
        [.done, .done, .done, .value (some [2]), .done, .value (some [4]), .value none,
          .done, .size 2, .done, .value (some [6]), .size 2]) :=
  ⟨by decide +kernel, by decide +kernel,
    run_create Zstd.compression _ (by decide +kernel) (by decide +kernel)⟩

end FileStore

end KeyTransparency
