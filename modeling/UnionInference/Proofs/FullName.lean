import UnionInference.Hashing
import UnionInference.Proofs.ClassName
import UnionInference.Proofs.Types.Cursor

/-!
Names told by their texts. A name that is divided before its last segment is told by its text alone:
such names that are compared part by part, by their folded texts or by the full name that spells them
are the same ones. The bytes that a name feeds to a hash function are those of its folded parts, so
they tell names apart just as well.
-/

namespace UnionInference

namespace QualifiedName

variable {q r : QualifiedName}

theorem Divided.startsWith_text (h : q.Divided) : Text.startsWith q.text "\\" = true := by
  cases h.isRead with
  | inRoot hname => simp [text, Text.startsWith]
  | nested hne htrim hname =>
    rw [text]
    split <;> simp [Text.startsWith]

/-- Divided names are the same up to letter case if their texts are. -/
theorem sameClass_iff_foldedText (hq : q.Divided) (hr : r.Divided) :
    q.sameClass r = true ↔ q.foldedText = r.foldedText := by
  rw [sameClass, beq_iff_eq]
  exact ⟨foldedText_eq_of_fold_eq, fold_eq_of_foldedText_eq hq hr⟩

/-- The full name of a class spells those of the same text up to letter case. -/
theorem isNamed_text_iff (hr : r.Divided) : q.isNamed r.text = true ↔ q.foldedText = r.foldedText := by
  rw [isNamed, if_pos hr.startsWith_text, Text.sameFolded_iff]
  rfl

end QualifiedName

/-! ### Bytes -/

namespace Text

open TypeParser

theorem toNat_lowerByte (b : UInt8) :
    (lowerByte b).toNat = if 65 ≤ b.toNat ∧ b.toNat ≤ 90 then b.toNat + 32 else b.toNat := by
  have hrange : 65 ≤ b ∧ b ≤ 90 ↔ 65 ≤ b.toNat ∧ b.toNat ≤ 90 := by
    rw [UInt8.le_iff_toNat_le, UInt8.le_iff_toNat_le]
    exact Iff.rfl
  rw [lowerByte]
  by_cases h : 65 ≤ b ∧ b ≤ 90
  · rw [if_pos h, if_pos (hrange.1 h), UInt8.toNat_add]
    have := hrange.1 h
    show (b.toNat + 32) % 256 = b.toNat + 32
    omega
  · rw [if_neg h, if_neg fun h' => h (hrange.2 h')]

/-- The bytes of a character in small letters are those of the character in small letters. -/
theorem encodeChar_toLower (c : Char) :
    String.utf8EncodeChar c.toLower = (String.utf8EncodeChar c).map lowerByte := by
  have hlower := toNat_toLower c
  rcases Nat.lt_or_ge c.toNat 128 with h | h
  · obtain ⟨b, hb, hbc⟩ := encodeChar_narrow h
    obtain ⟨d, hd, hdc⟩ := encodeChar_narrow (c := c.toLower) (by rw [hlower]; split <;> omega)
    rw [hb, hd, List.map_singleton, List.singleton_inj, ← UInt8.toNat_inj, toNat_lowerByte,
      ← toNat_ofByte b, ← toNat_ofByte d, hbc, hdc, hlower]
  · have hself : c.toLower = c := by
      rw [← Char.toNat_inj, hlower, if_neg (by omega)]
    rw [hself]
    refine (List.map_id' _).symm.trans (List.map_congr_left fun b hb => ?_)
    have hwide := encodeChar_wide h b hb
    rw [← UInt8.toNat_inj, toNat_lowerByte, if_neg (by omega)]

theorem map_lowerByte_encode (cs : List Char) :
    (encode cs).map lowerByte = encode (cs.map Char.toLower) := by
  induction cs with
  | nil => rfl
  | cons c cs ih =>
    rw [encode, List.flatMap_cons, List.map_append, ← encode, ih, List.map_cons, encode, encode,
      List.flatMap_cons, encodeChar_toLower]

/-- The byte at the end of what is fed stands in no text. -/
theorem notMem_encode (cs : List Char) : (0xff : UInt8) ∉ encode cs := by
  have hbyte : ∀ n, n % 256 < 255 → (0xff : UInt8) ≠ UInt8.ofNat n := by
    intro n hn heq
    have := congrArg UInt8.toNat heq
    rw [UInt8.toNat_ofNat'] at this
    exact absurd (show 255 = n % 256 from this) (by omega)
  intro hmem
  obtain ⟨c, -, hc⟩ := List.mem_flatMap.1 hmem
  rw [String.utf8EncodeChar] at hc
  split_ifs at hc
  all_goals
    simp only [List.mem_cons, List.not_mem_nil, or_false] at hc
  · exact hbyte _ (by omega) hc
  · rcases hc with hc | hc <;> exact hbyte _ (by omega) hc
  · rcases hc with hc | hc | hc <;> exact hbyte _ (by omega) hc
  · rcases hc with hc | hc | hc | hc <;> exact hbyte _ (by omega) hc

/-- A text feeds the bytes of its folded text. -/
theorem hashedBytes_eq (s : String) : hashedBytes s = bytes (fold s) ++ [0xff] := by
  rw [hashedBytes, ← bytes, bytes_eq, bytes_eq, map_lowerByte_encode, toList_fold]

theorem notMem_bytes (s : String) : (0xff : UInt8) ∉ bytes s := by
  rw [bytes_eq]
  exact notMem_encode s.toList

theorem bytes_inj {s r : String} : bytes s = bytes r ↔ s = r := by
  refine ⟨fun h => ?_, congrArg bytes⟩
  rw [bytes, bytes, Array.toList_inj] at h
  exact String.toByteArray_inj.1 (ByteArray.ext h)

end Text

/-- Names are the same up to letter case, part by part, exactly when they feed the same bytes. -/
theorem QualifiedName.sameClass_iff_hashedBytes {q r : QualifiedName} :
    q.sameClass r = true ↔ q.hashedBytes = r.hashedBytes := by
  rw [sameClass, beq_iff_eq, hashedBytes, hashedBytes, Text.hashedBytes_eq, Text.hashedBytes_eq,
    Text.hashedBytes_eq, Text.hashedBytes_eq, ← List.append_assoc, ← List.append_assoc,
    List.append_left_inj, List.append_assoc, List.append_assoc, List.singleton_append,
    List.singleton_append,
    List.append_cons_inj_of_notMem (Text.notMem_bytes _) (Text.notMem_bytes _)]
  rw [Text.bytes_inj, Text.bytes_inj, fold, fold, QualifiedName.mk.injEq]
  simp

end UnionInference
