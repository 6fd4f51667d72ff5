import KeyTransparency.Partition.Digest
import Mathlib.Data.List.Dedup

/-!
# What the hashed byte strings determine

Every part of a preimage stands behind its length in eight bytes, so two preimages that are equal
as byte strings have equal parts, as far as eight bytes can tell the lengths.  For the nodes of a
trie:

    internalPreimage l a b = internalPreimage l' a' b' → l = l' ∧ a = a' ∧ b = b'   (internalPreimage_inj)
    l, values short → leafPreimage l values = leafPreimage l' values' → …           (leafPreimage_inj)
    leafPreimage l values ≠ internalPreimage l' a b                                 (leafPreimage_ne_internalPreimage)

The first needs no bound: the two hashes behind the label are too short to make up for a length that
wrapped around.  The parts hashed for a log or a forest have fixed lengths, so their preimages need no
bound either (`Hash.parts_inj`).  `Collision strings` is what the statements about forged proofs leave
open.
-/

namespace KeyTransparency

/-- Two different byte strings of the list have the same hash. -/
def Collision (strings : List Bytes) : Prop :=
  ∃ a ∈ strings, ∃ b ∈ strings, a ≠ b ∧ Hash.digest a = Hash.digest b

instance (strings : List Bytes) : Decidable (Collision strings) :=
  inferInstanceAs (Decidable (∃ a ∈ strings, ∃ b ∈ strings, a ≠ b ∧ Hash.digest a = Hash.digest b))

/-- A collision among some strings is one among more. -/
theorem Collision.mono {strings more : List Bytes} (hsub : strings ⊆ more) (h : Collision strings) :
    Collision more := by
  obtain ⟨a, ha, b, hb, hne, heq⟩ := h
  exact ⟨a, hsub ha, b, hsub hb, hne, heq⟩

/-- Of two strings with one hash either both are the same or they are a collision. -/
theorem eq_or_collision {strings : List Bytes} {a b : Bytes} (ha : a ∈ strings) (hb : b ∈ strings)
    (h : Hash.digest a = Hash.digest b) : a = b ∨ Collision strings := by
  by_cases hab : a = b
  · exact Or.inl hab
  · exact Or.inr ⟨a, ha, b, hb, hab, h⟩

/-- Strings without a collision are determined by their hashes. -/
theorem eq_of_digest_eq {strings : List Bytes} (hfree : ¬ Collision strings) {a b : Bytes}
    (ha : a ∈ strings) (hb : b ∈ strings) (h : Hash.digest a = Hash.digest b) : a = b :=
  (eq_or_collision ha hb h).resolve_right hfree

/-- Strings with different hashes do not collide. -/
theorem not_collision_of_nodup {strings : List Bytes} (h : (strings.dedup.map Hash.digest).Nodup) :
    ¬ Collision strings := by
  rintro ⟨a, ha, b, hb, hne, heq⟩
  exact hne (List.inj_on_of_nodup_map h (List.mem_dedup.2 ha) (List.mem_dedup.2 hb) heq)

namespace Hash

theorem ext_bytes {g h : Hash} (heq : g.bytes = h.bytes) : g = h := by
  cases g
  cases h
  cases heq
  rfl

/-! ## Framed parts -/

/-- The length before a part is read modulo 2^64; the bytes behind it are kept. -/
theorem framed_append_eq {p q r s : Bytes} (h : framed p ++ r = framed q ++ s) :
    p.length % Bytes.bound 8 = q.length % Bytes.bound 8 ∧ p ++ r = q ++ s := by
  simp only [framed, List.append_assoc] at h
  obtain ⟨hlen, hrest⟩ := List.append_inj h (by simp)
  have hmod := congrArg Bytes.ofLittleEndian hlen
  rw [Bytes.ofLittleEndian_littleEndian, Bytes.ofLittleEndian_littleEndian] at hmod
  exact ⟨hmod, hrest⟩

theorem framed_append_inj {p q r s : Bytes} (h : framed p ++ r = framed q ++ s)
    (hlen : p.length % Bytes.bound 8 = q.length % Bytes.bound 8 → p.length = q.length) :
    p = q ∧ r = s := by
  obtain ⟨hmod, happ⟩ := framed_append_eq h
  exact List.append_inj happ (hlen hmod)

/-- Lengths that agree modulo `M` are equal when the one and what follows it stay below `M`, whatever
the other is. -/
theorem length_eq_of_mod_eq {M m n x y : Nat} (hm : m < M) (hx : x < M) (htotal : m + x = n + y)
    (hmod : m % M = n % M) : m = n := by
  rw [Nat.mod_eq_of_lt hm] at hmod
  have hdiv := Nat.mod_add_div n M
  rcases Nat.eq_zero_or_pos (n / M) with h | h
  · rw [h] at hdiv
    omega
  · have := Nat.le_mul_of_pos_right M h
    omega

theorem framed_inj {p q : Bytes} (h : framed p = framed q) : p = q :=
  (List.append_inj h (by simp)).2

theorem tag_inj {d d' : Domain} (h : d.tag = d'.tag) : d = d' := by
  revert h
  cases d <;> cases d' <;> decide

/-- Preimages of different kinds differ in their first byte. -/
theorem preimage_domain {d d' : Domain} {parts parts' : List Bytes}
    (h : preimage d parts = preimage d' parts') : d = d' :=
  tag_inj (List.cons.inj h).1

/-- Parts of the same lengths are determined by their preimage. -/
theorem parts_inj {d d' : Domain} {parts parts' : List Bytes}
    (hlen : parts.map List.length = parts'.map List.length)
    (h : preimage d parts = preimage d' parts') : parts = parts' := by
  have hframes := (List.cons.inj h).2
  clear h
  induction parts generalizing parts' with
  | nil => exact (List.map_eq_nil_iff.1 hlen.symm).symm
  | cons part parts ih =>
    cases parts' with
    | nil => cases hlen
    | cons part' parts' =>
      rw [List.map_cons, List.map_cons] at hlen
      rw [List.flatMap_cons, List.flatMap_cons] at hframes
      obtain ⟨hhead, htail⟩ := List.cons.inj hlen
      obtain ⟨rfl, hrest⟩ := framed_append_inj hframes fun _ => hhead
      rw [ih htail hrest]

end Hash

namespace Trie

/-! ## Tries -/

theorem childBytes_length (child : Option Hash) : (childBytes child).length ≤ 32 := by
  cases child with
  | none => exact Nat.zero_le _
  | some h => exact Nat.le_of_eq h.length_bytes

theorem childBytes_inj {a b : Option Hash} (h : childBytes a = childBytes b) : a = b := by
  have hlen := congrArg List.length h
  cases a with
  | none =>
    cases b with
    | none => rfl
    | some b => simp [childBytes, b.length_bytes] at hlen
  | some a =>
    cases b with
    | none => simp [childBytes, a.length_bytes] at hlen
    | some b => exact congrArg some (Hash.ext_bytes h)

theorem internalPreimage_inj {l l' : Bits} {a b a' b' : Option Hash}
    (h : internalPreimage l a b = internalPreimage l' a' b') : l = l' ∧ a = a' ∧ b = b' := by
  have hbound : Bytes.bound 8 = 18446744073709551616 := rfl
  have ha := childBytes_length a
  have hb := childBytes_length b
  have ha' := childBytes_length a'
  have hb' := childBytes_length b'
  have hparts := (List.cons.inj h).2
  simp only [List.flatMap_cons, List.flatMap_nil, List.append_nil] at hparts
  have htotal := congrArg List.length hparts
  simp only [List.length_append, Hash.framed, Bytes.length_littleEndian] at htotal
  obtain ⟨hll, hparts⟩ := Hash.framed_append_inj hparts (by rw [hbound]; omega)
  obtain ⟨haa, hparts⟩ := Hash.framed_append_inj hparts (by rw [hbound]; omega)
  exact ⟨hll, childBytes_inj haa, childBytes_inj (Hash.framed_inj hparts)⟩

theorem leafPreimage_ne_internalPreimage {l l' : Bits} {values : List ValueEntry}
    {a b : Option Hash} : leafPreimage l values ≠ internalPreimage l' a b := fun h =>
  Domain.noConfusion (Hash.preimage_domain h)

@[simp] theorem length_encodeValues (values : List ValueEntry) :
    (encodeValues values).length = 40 * values.length := by
  induction values with
  | nil => rfl
  | cons v values ih =>
    have hv : (v.hash.bytes ++ Bytes.bigEndian64 v.position).length = 40 := by
      simp [v.hash.length_bytes]
    rw [encodeValues, List.flatMap_cons, List.length_append, hv]
    rw [encodeValues] at ih
    rw [ih, List.length_cons]
    omega

theorem encodeValues_inj {values values' : List ValueEntry}
    (h : encodeValues values = encodeValues values') : values = values' := by
  induction values generalizing values' with
  | nil =>
    have hlen := congrArg List.length h
    rw [length_encodeValues, length_encodeValues, List.length_nil] at hlen
    exact (List.eq_nil_of_length_eq_zero (by omega)).symm
  | cons v values ih =>
    cases values' with
    | nil =>
      have hlen := congrArg List.length h
      simp at hlen
    | cons v' values' =>
      simp only [encodeValues, List.flatMap_cons, List.append_assoc] at h
      obtain ⟨hhash, h⟩ := List.append_inj h (by rw [v.hash.length_bytes, v'.hash.length_bytes])
      obtain ⟨hpos, h⟩ := List.append_inj h (by simp)
      have hv : v = v' := by
        cases v
        cases v'
        cases Hash.ext_bytes hhash
        cases Bytes.bigEndian64_inj hpos
        rfl
      rw [hv, ih h]

/-- A leaf whose label and values eight bytes can measure shares its preimage with no other leaf,
however long. -/
theorem leafPreimage_inj {l l' : Bits} {values values' : List ValueEntry}
    (hl : l.length < UInt64.size) (hv : 40 * values.length < UInt64.size)
    (h : leafPreimage l values = leafPreimage l' values') : l = l' ∧ values = values' := by
  have hparts := (List.cons.inj h).2
  simp only [List.flatMap_cons, List.flatMap_nil, List.append_nil] at hparts
  have htotal := congrArg List.length hparts
  simp only [List.length_append, Hash.framed, Bytes.length_littleEndian, length_encodeValues]
    at htotal
  obtain ⟨hll, hparts⟩ := Hash.framed_append_inj hparts
    (Hash.length_eq_of_mod_eq hl hv (y := 40 * values'.length) (by omega))
  exact ⟨hll, encodeValues_inj (Hash.framed_inj hparts)⟩

/-- Leaves with one label and one preimage have the same values, however many. -/
theorem values_of_leafPreimage {label : Bits} {values values' : List ValueEntry}
    (h : leafPreimage label values = leafPreimage label values') : values = values' := by
  have hparts := (List.cons.inj h).2
  simp only [List.flatMap_cons, List.flatMap_nil, List.append_nil] at hparts
  exact encodeValues_inj (Hash.framed_inj (List.append_cancel_left hparts))

end Trie

/-! ## Values -/

def contentPreimage (identifier value signature : Bytes) (position : UInt64) : Bytes :=
  Hash.preimage .content [identifier, value, signature, Bytes.bigEndian64 position]

/-- Parts whose lengths eight bytes can measure together share their preimage with no others, however
long. -/
theorem contentPreimage_inj {identifier value signature identifier' value' signature' : Bytes}
    {position position' : UInt64}
    (hfit : identifier.length + value.length + signature.length < UInt64.size)
    (h : contentPreimage identifier value signature position =
      contentPreimage identifier' value' signature' position') :
    identifier = identifier' ∧ value = value' ∧ signature = signature' ∧ position = position' := by
  have hbound : Bytes.bound 8 = UInt64.size := rfl
  have hparts := (List.cons.inj h).2
  simp only [List.flatMap_cons, List.flatMap_nil, List.append_nil] at hparts
  have htotal := congrArg List.length hparts
  simp only [List.length_append, Hash.framed, Bytes.length_littleEndian, Bytes.length_bigEndian64]
    at htotal
  -- no part on either side is longer than all parts together
  have hlength : ∀ {m n : Nat}, m < UInt64.size → n < UInt64.size →
      m % Bytes.bound 8 = n % Bytes.bound 8 → m = n := fun hm hn hmod => by
    rwa [hbound, Nat.mod_eq_of_lt hm, Nat.mod_eq_of_lt hn] at hmod
  obtain ⟨hidentifier, hparts⟩ := Hash.framed_append_inj hparts (hlength (by omega) (by omega))
  obtain ⟨hvalue, hparts⟩ := Hash.framed_append_inj hparts (hlength (by omega) (by omega))
  obtain ⟨hsignature, hparts⟩ := Hash.framed_append_inj hparts (hlength (by omega) (by omega))
  exact ⟨hidentifier, hvalue, hsignature, Bytes.bigEndian64_inj (Hash.framed_inj hparts)⟩

/-! ## Logs -/

namespace Log

theorem leafPreimage_inj {entry entry' : LogEntry} (h : leafPreimage entry = leafPreimage entry') :
    entry = entry' := by
  have hparts := Hash.parts_inj (by simp [entry.root.length_bytes, entry'.root.length_bytes]) h
  obtain ⟨hepoch, hroot⟩ := List.cons.inj hparts
  cases entry
  cases entry'
  cases Bytes.bigEndian64_inj hepoch
  cases Hash.ext_bytes (List.cons.inj hroot).1
  rfl

theorem nodePreimage_inj {left right left' right' : Hash}
    (h : nodePreimage left right = nodePreimage left' right') : left = left' ∧ right = right' := by
  have hparts := Hash.parts_inj (by simp [Hash.length_bytes]) h
  obtain ⟨hleft, hright⟩ := List.cons.inj hparts
  exact ⟨Hash.ext_bytes hleft, Hash.ext_bytes (List.cons.inj hright).1⟩

end Log

/-! ## Forests -/

namespace ForestNode

theorem leafPreimage_inj {trieRoot trieRoot' : Hash} {period period' : UInt64}
    (h : leafPreimage trieRoot period = leafPreimage trieRoot' period') :
    trieRoot = trieRoot' ∧ period = period' := by
  have hparts := Hash.parts_inj (by simp [Hash.length_bytes]) h
  obtain ⟨hroot, hperiod⟩ := List.cons.inj hparts
  exact ⟨Hash.ext_bytes hroot, Bytes.bigEndian64_inj (List.cons.inj hperiod).1⟩

/-- A parent's hash says both its children's hashes, and of the right child everything. -/
theorem combinePreimage_inj {left right left' right' : ForestNode}
    (h : combinePreimage left right = combinePreimage left' right') :
    left.hash = left'.hash ∧ right = right' := by
  have hparts := Hash.parts_inj (by simp [Hash.length_bytes]) h
  obtain ⟨hleft, hparts⟩ := List.cons.inj hparts
  obtain ⟨hright, hparts⟩ := List.cons.inj hparts
  obtain ⟨hnewest, hparts⟩ := List.cons.inj hparts
  refine ⟨Hash.ext_bytes hleft, ?_⟩
  cases right
  cases right'
  cases Hash.ext_bytes hright
  cases Hash.ext_bytes hnewest
  cases Bytes.bigEndian64_inj (List.cons.inj hparts).1
  rfl

end ForestNode

/-! ## Chains -/

theorem chainPreimage_inj {older newer older' newer' chain chain' : Hash} {updateEpoch updateEpoch' : UInt64}
    (h : chainPreimage older newer updateEpoch chain = chainPreimage older' newer' updateEpoch' chain') :
    older = older' ∧ newer = newer' ∧ updateEpoch = updateEpoch' ∧ chain = chain' := by
  have hparts := Hash.parts_inj (by simp [Hash.length_bytes]) h
  obtain ⟨holder, hparts⟩ := List.cons.inj hparts
  obtain ⟨hnewer, hparts⟩ := List.cons.inj hparts
  obtain ⟨hepoch, hparts⟩ := List.cons.inj hparts
  exact ⟨Hash.ext_bytes holder, Hash.ext_bytes hnewer, Bytes.bigEndian64_inj hepoch,
    Hash.ext_bytes (List.cons.inj hparts).1⟩

end KeyTransparency
