import KeyTransparency.Storage.Zstd

/-!
What `decompress?` makes of what `compress` writes.

Main statement: it is the content again (`decompress?_compress`).  The blocks are read back one by one
(`blocks?_rawBlocks`), and the frame is accepted because its blocks are no larger than the pieces they
were cut into (`isReadInBlocks_plainFrame`).
-/

namespace KeyTransparency.Zstd

theorem number?_littleEndian (width n : Nat) (rest : Bytes) :
    number? width (Bytes.littleEndian width n ++ rest) = some (n % Bytes.bound width, rest) := by
  have h := Bytes.split?_append (Bytes.littleEndian width n) rest
  rw [Bytes.length_littleEndian] at h
  rw [number?, h, Option.map_some]
  exact congrArg (fun n => some (n, rest)) (Bytes.ofLittleEndian_littleEndian width n)

theorem number?_zero (bytes : Bytes) : number? 0 bytes = some (0, bytes) := by
  simp [number?, Bytes.split?, Bytes.ofLittleEndian]

theorem number?_one (b : UInt8) (bytes : Bytes) : number? 1 (b :: bytes) = some (b.toNat, bytes) := by
  simp [number?, Bytes.split?, Bytes.ofLittleEndian]

/-! ## Blocks -/

/-- A raw block behind its header, where `mark` is one for the last block and else zero. -/
theorem block?_raw (content rest : Bytes) (mark : Nat) (isMark : mark < 2)
    (small : content.length ≤ blockLimit) :
    block? (Bytes.littleEndian blockHeaderSize (8 * content.length + mark) ++ (content ++ rest)) =
      some ((Block.raw content, decide (mark = 1)), rest) := by
  have fits : 8 * content.length + mark < Bytes.bound blockHeaderSize := by
    have : Bytes.bound blockHeaderSize = 16777216 := rfl
    have : blockLimit = 131072 := rfl
    omega
  have size : (8 * content.length + mark) / 8 = content.length := by omega
  have kind : (8 * content.length + mark) / 2 % 4 = 0 := by omega
  have last : (8 * content.length + mark) % 2 = mark := by omega
  rw [block?, number?_littleEndian, Nat.mod_eq_of_lt fits]
  simp only [bind, Option.bind, size, kind, last, Bytes.split?_append, Option.map_some]

theorem blocks?_rawBlocks (rest : Bytes) (fuel : Nat) (before : List Block) (contents : List Bytes)
    (nonempty : contents ≠ []) (enough : contents.length ≤ fuel)
    (small : ∀ content ∈ contents, content.length ≤ blockLimit) :
    blocks? fuel before (rawBlocks contents ++ rest) =
      some (before.reverse ++ contents.map Block.raw, rest) := by
  induction contents generalizing fuel before with
  | nil => exact absurd rfl nonempty
  | cons content more ih =>
    rw [List.length_cons] at enough
    obtain ⟨fuel, rfl⟩ : ∃ n, fuel = n + 1 := ⟨fuel - 1, by omega⟩
    cases more with
    | nil =>
      have first := block?_raw content rest 1 (by omega) (small content (by simp))
      simp only [rawBlocks, blocks?, List.append_assoc, first]
      simp [bind, Option.bind]
    | cons next more =>
      have first := block?_raw content (rawBlocks (next :: more) ++ rest) 0 (by omega)
        (small content (by simp))
      have others := ih fuel (Block.raw content :: before) (List.cons_ne_nil _ _) (by omega)
        (fun c hc => small c (List.mem_cons_of_mem _ hc))
      rw [Nat.add_zero] at first
      simp only [rawBlocks, blocks?, List.append_assoc, first]
      simp only [bind, Option.bind, others]
      simp

theorem length_le_rawBlocks (contents : List Bytes) :
    contents.length ≤ (rawBlocks contents).length := by
  induction contents with
  | nil => exact Nat.zero_le _
  | cons content more ih =>
    cases more with
    | nil =>
      simp only [rawBlocks, List.length_append, Bytes.length_littleEndian, List.length_cons,
        List.length_nil, blockHeaderSize]
      omega
    | cons next more =>
      simp only [rawBlocks, List.length_append, Bytes.length_littleEndian, List.length_cons,
        blockHeaderSize] at ih ⊢
      omega

/-! ## The frame that is written -/

/-- The header that `compress` writes. -/
def plainHeader : Header := ⟨6, 2 * 1024 * 1024, none, false⟩

/-- A frame of raw blocks behind that header. -/
def plainFrame (contents : List Bytes) : Frame := ⟨plainHeader, contents.map .raw, none⟩

theorem header?_plain (rest : Bytes) : header? (0 :: 0x58 :: rest) = some (plainHeader, rest) := by
  simp only [header?, number?_one, number?_zero, bind, Option.bind, UInt8.reduceToNat,
    Nat.zero_testBit, Bool.false_eq_true, if_false, Nat.zero_mod, Nat.sub_self]
  rfl

theorem frame?_plain (fuel : Nat) (contents : List Bytes) (nonempty : contents ≠ [])
    (enough : contents.length ≤ fuel)
    (small : ∀ content ∈ contents, content.length ≤ blockLimit) :
    frame? fuel (0 :: 0x58 :: rawBlocks contents) = some (plainFrame contents, []) := by
  have blocks := blocks?_rawBlocks [] fuel [] contents nonempty enough small
  rw [List.append_nil] at blocks
  simp only [frame?, header?_plain, bind, Option.bind, blocks]
  rfl

theorem content_plainFrame (contents : List Bytes) :
    (plainFrame contents).content = contents.flatten := by
  rw [Frame.content, plainFrame, List.map_map]
  exact congrArg List.flatten (List.map_id contents)

theorem largestBlock_plainFrame (contents : List Bytes) :
    (plainFrame contents).largestBlock = blockLimit := by
  show min (2 * 1024 * 1024) blockLimit = blockLimit
  decide

theorem isReadInBlocks_plainFrame (contents : List Bytes) (space : Space)
    (small : ∀ content ∈ contents, content.length ≤ blockLimit) :
    (plainFrame contents).isReadInBlocks space = true := by
  have window : (plainFrame contents).window ≤ windowLimit := by
    show max windowUnit (2 * 1024 * 1024) ≤ windowLimit
    decide
  have blocks : (plainFrame contents).blocks.all (fun block =>
      block.size ≤ (plainFrame contents).largestBlock &&
        block.storedSize ≤ blockHeaderSize + (plainFrame contents).largestBlock) = true := by
    rw [largestBlock_plainFrame]
    refine List.all_eq_true.2 fun block hblock => ?_
    obtain ⟨content, hcontent, rfl⟩ := List.mem_map.1 hblock
    have fits := small content hcontent
    exact Bool.and_eq_true_iff.2
      ⟨decide_eq_true fits, decide_eq_true (Nat.add_le_add_left fits blockHeaderSize)⟩
  have size : (plainFrame contents).sizeIsKept space = true := by
    rw [Frame.sizeIsKept, Frame.sizeIsRight]
    exact ite_self _
  rw [Frame.isReadInBlocks, decide_eq_true window, blocks, size]
  rfl

theorem read?_plainFrame (contents : List Bytes) (offset : Nat) (space : Space)
    (small : ∀ content ∈ contents, content.length ≤ blockLimit) :
    (plainFrame contents).read? offset space =
      some (contents.flatten, space.settle (.ofFrame (plainFrame contents))) := by
  have atOnce : (plainFrame contents).isReadAtOnce offset = false := rfl
  rw [Frame.read?, atOnce, if_neg Bool.false_ne_true]
  simp only [isReadInBlocks_plainFrame contents _ small, Frame.contentIf, if_true,
    content_plainFrame]
  rfl

/-! ## Reading what was written -/

theorem decompress?_compress (content : Bytes) : decompress? (compress content) = some content := by
  have small (piece : Bytes) (h : piece ∈ Bytes.pieces blockLimit content) :
      piece.length ≤ blockLimit :=
    Bytes.length_le_of_mem_pieces (by decide) h
  have enough : (Bytes.pieces blockLimit content).length ≤ (compress content).length := by
    have := length_le_rawBlocks (Bytes.pieces blockLimit content)
    simp only [compress, List.length_append, List.length_cons]
    omega
  have frame := frame?_plain _ _ (Bytes.pieces_ne_nil blockLimit content) enough small
  have read := read?_plainFrame _ 0 .empty small
  rw [decompress?, frames?, Progress.next?]
  generalize (compress content).length = fuel at frame
  rw [compress, number?_littleEndian]
  simp only [bind, Option.bind]
  rw [if_neg (by decide), if_pos (by decide)]
  simp only [frame, Progress.start, read]
  show some [(Bytes.pieces blockLimit content).flatten].reverse.flatten = some content
  rw [List.reverse_singleton, List.flatten_singleton, Bytes.flatten_pieces]

end KeyTransparency.Zstd
