import KeyTransparency.Storage.Basic
import KeyTransparency.Storage.FileImage
import KeyTransparency.Storage.Zstd.Lemmas

/-!
A store in one file.

    header    64 bytes: magic (8), version (4), flags (4), entry count (8), index offset (8), reserved
    records   compressed values; a value that is put again gets a new record
    index     for each key in order: key length (4), key, record offset (8), record size (4)

The index is kept in memory and written by `sync`, behind the records.  The next record overwrites it
there, and the file cannot be opened before it is written again behind that record.
-/

namespace KeyTransparency

/-- How values are put into records.  What was compressed can be read again. -/
structure Compression where
  compress : Bytes → Bytes
  decompress? : Bytes → Option Bytes
  decompress?_compress : ∀ value, decompress? (compress value) = some value

def Zstd.compression : Compression := ⟨compress, decompress?, decompress?_compress⟩

def FileStore.magic : Bytes := Bytes.ofString "KEYTRIE" ++ [0]

def FileStore.version : Nat := 1

def FileStore.headerSize : Nat := 64

structure IndexEntry where
  offset : Nat
  size : Nat
deriving DecidableEq

/-- What an open store knows besides its file. -/
structure StoreHandle where
  index : SortedMap IndexEntry
  /-- Where the next record goes. -/
  writeOffset : Nat
deriving DecidableEq

structure FileStore where
  file : FileImage
  handle : StoreHandle
deriving DecidableEq

namespace FileStore

def size (store : FileStore) : Nat := store.handle.index.length

/-- A new store in an empty file. -/
def create : FileStore :=
  let header := magic ++ Bytes.littleEndian 4 version ++ List.replicate (headerSize - 12) 0
  ⟨FileImage.empty.write 0 header, ⟨[], headerSize⟩⟩

/-! ## Opening -/

/-- A number read from the file. -/
def numberAt? (file : FileImage) (offset width : Nat) : Option Nat :=
  (file.read? offset width).map Bytes.ofLittleEndian

/-- Reads `count` index entries from `offset` on; a later entry for a key takes the place of an
earlier one. -/
def readIndex? (file : FileImage) : (count : Nat) → (offset : Nat) → SortedMap IndexEntry →
    Option (SortedMap IndexEntry)
  | 0, _, index => some index
  | count + 1, offset, index => do
    let length ← numberAt? file offset 4
    let key ← file.read? (offset + 4) length
    let recordOffset ← numberAt? file (offset + 4 + length) 8
    let recordSize ← numberAt? file (offset + 12 + length) 4
    readIndex? file count (offset + 16 + length) (index.insert key ⟨recordOffset, recordSize⟩)

def openFile (file : FileImage) : Except Error FileStore := do
  let some header := file.read? 0 headerSize | throw .io
  if header.take 8 ≠ magic then throw .notAStoreFile
  let found := Bytes.ofLittleEndian ((header.drop 8).take 4)
  if found ≠ version then throw (.storeVersion version found)
  let count := Bytes.ofLittleEndian ((header.drop 16).take 8)
  let indexOffset := Bytes.ofLittleEndian ((header.drop 24).take 8)
  if indexOffset = 0 then pure ⟨file, ⟨[], file.size⟩⟩
  else if count = 0 then pure ⟨file, ⟨[], indexOffset⟩⟩
  else
    match readIndex? file count indexOffset [] with
    | some index => pure ⟨file, ⟨index, indexOffset⟩⟩
    | none => throw .io

/-! ## Reading and writing -/

variable (codec : Compression)

def get (store : FileStore) (key : Bytes) : Except Error (Option Bytes) :=
  match store.handle.index.get? key with
  | none => .ok none
  | some entry =>
    if FileImage.sizeLimit < entry.offset then .error .io
    else
      match store.file.read? entry.offset entry.size with
      | none => .error .io
      | some data =>
        match codec.decompress? data with
        | some value => .ok (some value)
        | none => .error .corruptRecord

def put (store : FileStore) (key value : Bytes) : Except Error FileStore :=
  let data := codec.compress value
  let offset := store.handle.writeOffset
  let size := data.length % UInt32.size
  if FileImage.sizeLimit < offset + data.length then .error .io
  else
    .ok ⟨store.file.write offset data,
      ⟨store.handle.index.insert key ⟨offset, size⟩, offset + size⟩⟩

def encodeIndex (index : SortedMap IndexEntry) : Bytes :=
  index.flatMap fun (key, entry) =>
    Bytes.littleEndian 4 key.length ++ key ++ Bytes.littleEndian 8 entry.offset ++
      Bytes.littleEndian 4 entry.size

/-- Writes the header, which refers to the index, and then the index. -/
def sync (store : FileStore) : FileStore × Except Error Unit :=
  let offset := store.handle.writeOffset
  let index := encodeIndex store.handle.index
  let file := store.file.write 16
    (Bytes.littleEndian 8 store.size ++ Bytes.littleEndian 8 offset)
  if FileImage.sizeLimit < offset + index.length then ({ store with file }, .error .io)
  else ({ store with file := file.write offset index }, .ok ())

/-- Closing a store writes what is not yet written, as far as that is possible. -/
def close (store : FileStore) : FileImage := store.sync.1.file

instance : Storage FileStore := ⟨get Zstd.compression, put Zstd.compression⟩

end FileStore

end KeyTransparency
