import Kotlet.ClassFile.ModifiedUtf8

/-!
# Strings in class files: reading back what was written

* `toList_encode` : the bytes of a text, character by character;
* `decodeUnits_encodeUnit` : one unit is read back from its bytes;
* `charsOfUnits_charUnits` : one character is read back from its units;
* `decode_encode` : a whole string;
* `encodeUnit_inside`, `encode_ofString_append` : which bytes are written, and that they follow each other
  as the characters do;
* `encode_faithful` : what the encoding keeps.
-/

namespace Kotlet
namespace ModifiedUtf8

theorem toList_encode (t : Text) :
    (encode t).toList = t.flatMap fun g => encodeChar g.toChar := by
  have h : ∀ (t : Text) (acc : Array UInt8),
      (t.foldl (fun acc g => acc ++ (encodeChar g.toChar).toArray) acc).toList =
        acc.toList ++ t.flatMap fun g => encodeChar g.toChar := by
    intro t
    induction t with
    | nil => simp
    | cons g t ih => intro acc; rw [List.foldl_cons, ih]; simp
  simpa [encode] using h t #[]

theorem toList_encode_ofString (s : String) :
    (encode (Text.ofString s)).toList = s.toList.flatMap encodeChar := by
  rw [toList_encode, Text.ofString, Text.ofChars, List.flatMap_map]
  rfl

/-! ## Units -/

theorem lead_two {n : Nat} (h : n < 0x20) :
    ¬ UInt8.ofNat (0xc0 + n) < 0x80 ∧ UInt8.ofNat (0xc0 + n) &&& 0xe0 = 0xc0 ∧
      (UInt8.ofNat (0xc0 + n)).toNat % 0x20 = n := by
  have hall : ∀ n : Fin 0x20, ¬ UInt8.ofNat (0xc0 + n) < 0x80 ∧
      UInt8.ofNat (0xc0 + n) &&& 0xe0 = 0xc0 ∧ (UInt8.ofNat (0xc0 + n)).toNat % 0x20 = n := by
    decide
  exact hall ⟨n, h⟩

theorem lead_three {n : Nat} (h : n < 0x10) :
    ¬ UInt8.ofNat (0xe0 + n) < 0x80 ∧ UInt8.ofNat (0xe0 + n) &&& 0xe0 ≠ 0xc0 ∧
      UInt8.ofNat (0xe0 + n) &&& 0xf0 = 0xe0 ∧ (UInt8.ofNat (0xe0 + n)).toNat % 0x10 = n := by
  have hall : ∀ n : Fin 0x10, ¬ UInt8.ofNat (0xe0 + n) < 0x80 ∧
      UInt8.ofNat (0xe0 + n) &&& 0xe0 ≠ 0xc0 ∧ UInt8.ofNat (0xe0 + n) &&& 0xf0 = 0xe0 ∧
        (UInt8.ofNat (0xe0 + n)).toNat % 0x10 = n := by
    decide
  exact hall ⟨n, h⟩

theorem low_bits {n : Nat} (h : n < 0x40) : (UInt8.ofNat (0x80 + n)).toNat % 0x40 = n := by
  rw [UInt8.toNat_ofNat']
  omega

/-- A unit is read back from its bytes. -/
theorem decodeUnits_encodeUnit {u : Nat} (h : u < 0x10000) (pos : Nat) (units : List Nat)
    (rest : List UInt8) : ∃ pos', decodeUnits pos units (encodeUnit u ++ rest) =
      decodeUnits pos' (u :: units) rest := by
  unfold encodeUnit
  split
  · rename_i hu
    have hlt : UInt8.ofNat u < 0x80 := by
      rw [UInt8.lt_iff_toNat_lt, UInt8.toNat_ofNat']
      change u % 256 < 128
      omega
    have hn : (UInt8.ofNat u).toNat = u := by
      rw [UInt8.toNat_ofNat']
      omega
    refine ⟨pos + 1, ?_⟩
    rw [List.singleton_append, decodeUnits.eq_def]
    simp only [if_pos hlt, hn]
  · split
    · rename_i hu
      obtain ⟨h₁, h₂, h₃⟩ := lead_two (n := u / 0x40) (by omega)
      refine ⟨pos + 2, ?_⟩
      rw [List.cons_append, List.singleton_append, decodeUnits.eq_def]
      simp only [if_neg h₁, if_pos h₂, h₃, low_bits (Nat.mod_lt u (by decide : 0 < 0x40))]
      rw [Nat.div_add_mod']
    · obtain ⟨h₁, h₂, h₃, h₄⟩ := lead_three (n := u / 0x1000) (by omega)
      refine ⟨pos + 3, ?_⟩
      rw [List.cons_append, List.cons_append, List.singleton_append, decodeUnits.eq_def]
      simp only [if_neg h₁, if_neg h₂, if_pos h₃, h₄, low_bits (Nat.mod_lt u (by decide : 0 < 0x40)),
        low_bits (Nat.mod_lt (u / 0x40) (by decide : 0 < 0x40))]
      congr 2
      omega

theorem decodeUnits_flatMap {us : List Nat} (h : ∀ u ∈ us, u < 0x10000) :
    ∀ (pos : Nat) (units : List Nat),
      decodeUnits pos units (us.flatMap encodeUnit) = .ok (units.reverse ++ us) := by
  induction us with
  | nil => intro pos units; simp [decodeUnits]
  | cons u us ih =>
    intro pos units
    obtain ⟨pos', hpos⟩ := decodeUnits_encodeUnit (h u List.mem_cons_self) pos units
      (us.flatMap encodeUnit)
    rw [List.flatMap_cons, hpos, ih fun v hv => h v (List.mem_cons_of_mem u hv)]
    simp

/-! ## Characters -/

theorem char_lt (c : Char) : c.toNat < 0x110000 := by
  rcases c.valid with h | h
  · exact Nat.lt_trans h (by decide)
  · exact h.2

theorem charUnits_lt (c : Char) : ∀ u ∈ charUnits c, u < 0x10000 := by
  have hc := char_lt c
  intro u hu
  unfold charUnits surrogatePair at hu
  split at hu
  · obtain rfl := List.mem_singleton.mp hu
    assumption
  · simp only [List.mem_cons, List.not_mem_nil, or_false] at hu
    rcases hu with hu | hu <;> omega

/-- A character of one unit is no surrogate. -/
theorem loneChar_toNat {c : Char} (h : c.toNat < 0x10000) :
    isHigh c.toNat = false ∧ loneChar c.toNat = c := by
  have hv : c.toNat < 0xd800 ∨ 0xdfff < c.toNat := by
    rcases c.valid with h | h
    · exact .inl h
    · exact .inr h.1
  have hh : isHigh c.toNat = false := by
    simp only [isHigh, Bool.and_eq_false_iff, decide_eq_false_iff_not]
    omega
  have hl : isLow c.toNat = false := by
    simp only [isLow, Bool.and_eq_false_iff, decide_eq_false_iff_not]
    omega
  exact ⟨hh, by simp [loneChar, hh, hl]⟩

/-- A character is read back from its units. -/
theorem charsOfUnits_charUnits (c : Char) (acc : List Char) (rest : List Nat) :
    charsOfUnits acc (charUnits c ++ rest) = charsOfUnits (c :: acc) rest := by
  have hc := char_lt c
  unfold charUnits
  split
  · rename_i h
    obtain ⟨hh, hl⟩ := loneChar_toNat h
    cases rest with
    | nil => simp [charsOfUnits, hl]
    | cons v rest => simp [charsOfUnits, hh, hl]
  · rename_i h
    simp only [surrogatePair, List.cons_append, List.nil_append]
    rw [charsOfUnits, if_pos]
    · have hn : 0x10000 + (0xd800 + (c.toNat - 0x10000) / 0x400 - 0xd800) * 0x400 +
          (0xdc00 + (c.toNat - 0x10000) % 0x400 - 0xdc00) = c.toNat := by omega
      rw [hn, Char.ofNat_toNat]
    · simp only [isHigh, isLow, Bool.and_eq_true, decide_eq_true_eq]
      omega

theorem charsOfUnits_flatMap (cs acc : List Char) :
    charsOfUnits acc (cs.flatMap charUnits) = acc.reverse ++ cs := by
  induction cs generalizing acc with
  | nil => simp [charsOfUnits]
  | cons c cs ih => rw [List.flatMap_cons, charsOfUnits_charUnits, ih]; simp

/-- What is written is read back. -/
theorem decode_encode (s : String) : decode (encode (Text.ofString s)) = .ok s := by
  have hlt : ∀ u ∈ s.toList.flatMap charUnits, u < 0x10000 := by
    intro u hu
    obtain ⟨c, -, hc⟩ := List.mem_flatMap.mp hu
    exact charUnits_lt c u hc
  have hbytes : (encode (Text.ofString s)).toList = (s.toList.flatMap charUnits).flatMap encodeUnit := by
    rw [toList_encode_ofString, List.flatMap_assoc]
    rfl
  unfold decode
  rw [hbytes, decodeUnits_flatMap hlt]
  change Except.ok (String.ofList (charsOfUnits [] (s.toList.flatMap charUnits))) = _
  rw [charsOfUnits_flatMap]
  simp

/-! ## Bytes -/

/-- No unit is written with a zero byte or with a byte that would start four. -/
theorem encodeUnit_inside {u : Nat} (h : u < 0x10000) : ∀ b ∈ encodeUnit u, b ≠ 0 ∧ b < 0xf0 := by
  have hinside {n : Nat} (hpos : 0 < n) (hlt : n < 0xf0) : UInt8.ofNat n ≠ 0 ∧ UInt8.ofNat n < 0xf0 := by
    have hn : (UInt8.ofNat n).toNat = n := by
      rw [UInt8.toNat_ofNat']
      omega
    refine ⟨fun hzero => ?_, ?_⟩
    · rw [hzero] at hn
      exact Nat.ne_of_lt hpos hn
    · rw [UInt8.lt_iff_toNat_lt, hn]
      exact hlt
  intro b hb
  unfold encodeUnit at hb
  split at hb
  · obtain rfl := List.mem_singleton.mp hb
    exact hinside (by omega) (by omega)
  · split at hb
    all_goals
      simp only [List.mem_cons, List.not_mem_nil, or_false] at hb
      rcases hb with rfl | rfl | rfl <;> exact hinside (by omega) (by omega)

theorem encode_ofString_inside (s : String) : ∀ b ∈ encode (Text.ofString s), b ≠ 0 ∧ b < 0xf0 := by
  intro b hb
  rw [← Array.mem_toList_iff, toList_encode_ofString] at hb
  obtain ⟨c, -, hc⟩ := List.mem_flatMap.mp hb
  obtain ⟨u, hu, hbu⟩ := List.mem_flatMap.mp hc
  exact encodeUnit_inside (charUnits_lt c u hu) b hbu

theorem length_encodeUnit_le (u : Nat) : (encodeUnit u).length ≤ 3 := by
  unfold encodeUnit
  split
  · exact Nat.le_of_ble_eq_true rfl
  · split <;> simp

theorem length_encodeChar_le (c : Char) : (encodeChar c).length ≤ 6 := by
  unfold encodeChar charUnits
  split
  · rw [List.flatMap_singleton]
    exact Nat.le_trans (length_encodeUnit_le _) (by decide)
  · simp only [List.flatMap_cons, List.flatMap_nil, List.append_nil, List.length_append]
    exact Nat.add_le_add (length_encodeUnit_le _) (length_encodeUnit_le _)

/-- Texts in a row are written in a row. -/
theorem encode_append (t u : Text) : encode (t ++ u) = encode t ++ encode u := by
  apply Array.toList_inj.mp
  rw [Array.toList_append, toList_encode, toList_encode, toList_encode, List.flatMap_append]

theorem encode_ofString_append (s t : String) :
    encode (Text.ofString (s ++ t)) = encode (Text.ofString s) ++ encode (Text.ofString t) := by
  rw [← encode_append, Text.ofString_append]

/-- Every string is read back from its bytes, none of which is zero or starts a sequence of four; different
strings have different bytes, and strings in a row have their bytes in a row. -/
theorem encode_faithful :
    (∀ s : String, decode (encode (Text.ofString s)) = .ok s) ∧
      (∀ s : String, ∀ b ∈ encode (Text.ofString s), b ≠ 0 ∧ b < 0xf0) ∧
      (Function.Injective fun s : String => encode (Text.ofString s)) ∧
      ∀ s t : String, encode (Text.ofString (s ++ t)) = encode (Text.ofString s) ++ encode (Text.ofString t) := by
  refine ⟨decode_encode, encode_ofString_inside, fun s t hst => ?_, encode_ofString_append⟩
  have hread : Except.ok s = Except.ok (ε := Nat) t := by
    rw [← decode_encode s, ← decode_encode t]
    exact congrArg decode hst
  exact Except.ok.inj hread

end ModifiedUtf8
end Kotlet
