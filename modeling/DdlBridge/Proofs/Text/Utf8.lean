import DdlBridge.Text.Utf8

/-!
# Encoded text is read back

Decoding undoes encoding. The bytes of one character take the decoder from one character boundary
to the next (`foldlM_step_utf8EncodeChar`), whatever it read before.
-/

namespace DdlBridge.Text

theorem encode_append (as bs : List Char) : encode (as ++ bs) = encode as ++ encode bs := by
  simp [encode]

theorem encode_cons (c : Char) (cs : List Char) :
    encode (c :: cs) = String.utf8EncodeChar c ++ encode cs := by
  simp [encode]

/-- A character of ASCII is its own only byte. -/
theorem utf8EncodeChar_of_lt {c : Char} (h : c.toNat < 128) :
    String.utf8EncodeChar c = [UInt8.ofNat c.toNat] := by
  have hle : c.val.toNat ≤ 0x7F := Nat.le_of_lt_succ h
  simp only [String.utf8EncodeChar]
  rw [if_pos hle]
  rfl

/-- Every other character has only bytes above ASCII. -/
theorem le_of_mem_utf8EncodeChar {c : Char} (h : 128 ≤ c.toNat) {b : UInt8}
    (hb : b ∈ String.utf8EncodeChar c) : 128 ≤ b.toNat := by
  have hlt : ¬ c.val.toNat ≤ 0x7F := by
    have : c.val.toNat = c.toNat := rfl
    omega
  simp only [String.utf8EncodeChar] at hb
  rw [if_neg hlt] at hb
  split at hb
  · simp only [List.mem_cons, List.not_mem_nil, or_false] at hb
    rcases hb with rfl | rfl <;> simp only [UInt8.toNat_ofNat'] <;> omega
  · split at hb
    · simp only [List.mem_cons, List.not_mem_nil, or_false] at hb
      rcases hb with rfl | rfl | rfl <;> simp only [UInt8.toNat_ofNat'] <;> omega
    · have hmax := c.val.toNat_lt
      simp only [List.mem_cons, List.not_mem_nil, or_false] at hb
      rcases hb with rfl | rfl | rfl | rfl <;> simp only [UInt8.toNat_ofNat'] <;> omega

namespace Utf8

theorem step_of_lt {s : State} (hs : s.owed = 0) {n : Nat} (hn : n < 128) :
    s.step (UInt8.ofNat n) = .ok { s with chars := Char.ofNat n :: s.chars, index := s.index + 1 } := by
  have hval : (UInt8.ofNat n).toNat = n := by
    rw [UInt8.toNat_ofNat']
    omega
  unfold State.step
  rw [hs]
  simp only [hval]
  rw [if_pos hn]

theorem step_lead {s : State} (hs : s.owed = 0) {n value owed low high : Nat} (hn : n < 256)
    (hlow : 128 ≤ n) (h : lead? n = some (value, owed, low, high)) :
    s.step (UInt8.ofNat n) =
      .ok { s with index := s.index + 1, start := s.index, value, owed, low, high } := by
  have hval : (UInt8.ofNat n).toNat = n := by
    rw [UInt8.toNat_ofNat']
    omega
  unfold State.step
  rw [hs]
  simp only [hval]
  rw [if_neg (by omega), h]

theorem step_tail {s : State} {owed : Nat} (hs : s.owed = owed + 1) {n : Nat} (hn : n < 256)
    (hlow : s.low ≤ n) (hhigh : n ≤ s.high) :
    s.step (UInt8.ofNat n) =
      .ok { s with
        chars := if owed = 0 then Char.ofNat (s.value * 64 + (n - 0x80)) :: s.chars else s.chars
        index := s.index + 1, value := s.value * 64 + (n - 0x80), owed, low := 0x80,
        high := 0xBF } := by
  have hval : (UInt8.ofNat n).toNat = n := by
    rw [UInt8.toNat_ofNat']
    omega
  unfold State.step
  rw [hs]
  simp only [hval]
  rw [if_pos ⟨hlow, hhigh⟩]
  split <;> rfl

/-- The lead byte of a two-byte character. -/
theorem lead?_of_two {v : Nat} (hlow : 0x7F < v) (hhigh : v ≤ 0x7FF) :
    lead? (v / 64 % 0x20 + 0xC0) = some (v / 64, 1, 0x80, 0xBF) := by
  unfold lead?
  rw [if_pos (by omega), show v / 64 % 0x20 + 0xC0 - 0xC0 = v / 64 by omega]

/-- The lead byte of a three-byte character, with bounds that the next byte keeps. -/
theorem lead?_of_three {v : Nat} (hlow : 0x7FF < v) (hhigh : v ≤ 0xFFFF)
    (hvalid : v < 0xD800 ∨ 0xDFFF < v) :
    ∃ low high, lead? (v / 4096 % 0x10 + 0xE0) = some (v / 4096, 2, low, high) ∧
      low ≤ v / 64 % 0x40 + 0x80 ∧ v / 64 % 0x40 + 0x80 ≤ high := by
  unfold lead?
  rw [if_neg (by omega)]
  by_cases hfirst : v / 4096 % 0x10 + 0xE0 = 0xE0
  · rw [if_pos hfirst]
    exact ⟨0xA0, 0xBF, by rw [show v / 4096 = 0 by omega], by omega, by omega⟩
  rw [if_neg hfirst]
  by_cases hsurrogate : v / 4096 % 0x10 + 0xE0 = 0xED
  · rw [if_pos hsurrogate]
    exact ⟨0x80, 0x9F, by rw [show v / 4096 = 0xD by omega], by omega, by omega⟩
  rw [if_neg hsurrogate, if_pos (by omega)]
  exact ⟨0x80, 0xBF, by rw [show v / 4096 % 0x10 + 0xE0 - 0xE0 = v / 4096 by omega], by omega,
    by omega⟩

/-- The lead byte of a four-byte character, with bounds that the next byte keeps. -/
theorem lead?_of_four {v : Nat} (hlow : 0xFFFF < v) (hhigh : v < 0x110000) :
    ∃ low high, lead? (v / 262144 % 0x08 + 0xF0) = some (v / 262144, 3, low, high) ∧
      low ≤ v / 4096 % 0x40 + 0x80 ∧ v / 4096 % 0x40 + 0x80 ≤ high := by
  unfold lead?
  rw [if_neg (by omega), if_neg (by omega), if_neg (by omega), if_neg (by omega)]
  by_cases hfirst : v / 262144 % 0x08 + 0xF0 = 0xF0
  · rw [if_pos hfirst]
    exact ⟨0x90, 0xBF, by rw [show v / 262144 = 0 by omega], by omega, by omega⟩
  rw [if_neg hfirst]
  by_cases hmiddle : 0xF1 ≤ v / 262144 % 0x08 + 0xF0 ∧ v / 262144 % 0x08 + 0xF0 ≤ 0xF3
  · rw [if_pos hmiddle]
    exact ⟨0x80, 0xBF, by rw [show v / 262144 % 0x08 + 0xF0 - 0xF0 = v / 262144 by omega],
      by omega, by omega⟩
  rw [if_neg hmiddle, if_pos (by omega)]
  exact ⟨0x80, 0x8F, by rw [show v / 262144 = 4 by omega], by omega, by omega⟩

theorem foldlM_step_cons {s t : State} {b : UInt8} (h : s.step b = .ok t) (bs : List UInt8) :
    (b :: bs).foldlM State.step s = bs.foldlM State.step t := by
  rw [List.foldlM_cons, h]
  rfl

/-- The bytes of a character, read at a character boundary, add just that character. -/
theorem foldlM_step_utf8EncodeChar (c : Char) {s : State} (hs : s.owed = 0) :
    ∃ t, (String.utf8EncodeChar c).foldlM State.step s = .ok t ∧ t.owed = 0 ∧
      t.chars = c :: s.chars := by
  have hchar : Char.ofNat c.val.toNat = c := Char.ofNat_toNat c
  have hvalid : c.val.toNat < 0xD800 ∨ (0xDFFF < c.val.toNat ∧ c.val.toNat < 0x110000) := c.valid
  generalize hv : c.val.toNat = v at hchar hvalid
  simp only [String.utf8EncodeChar, hv]
  by_cases hone : v ≤ 0x7F
  · rw [if_pos hone, foldlM_step_cons (step_of_lt hs (by omega)), hchar]
    exact ⟨_, rfl, hs, rfl⟩
  rw [if_neg hone]
  by_cases htwo : v ≤ 0x7FF
  · have hvalue : v / 64 * 64 + (v % 0x40 + 0x80 - 0x80) = v := by omega
    rw [if_pos htwo,
      foldlM_step_cons (step_lead hs (by omega) (by omega) (lead?_of_two (by omega) htwo)),
      foldlM_step_cons (step_tail rfl (by omega) (by simp) (by simp only; omega))]
    refine ⟨_, rfl, rfl, ?_⟩
    simp only [↓reduceIte, hvalue, hchar]
  rw [if_neg htwo]
  by_cases hthree : v ≤ 0xFFFF
  · obtain ⟨low, high, hlead, hlow, hhigh⟩ := lead?_of_three (by omega) hthree (by omega)
    have hvalue : (v / 4096 * 64 + (v / 64 % 0x40 + 0x80 - 0x80)) * 64 + (v % 0x40 + 0x80 - 0x80)
        = v := by omega
    rw [if_pos hthree, foldlM_step_cons (step_lead hs (by omega) (by omega) hlead),
      foldlM_step_cons (step_tail rfl (by omega) hlow hhigh),
      foldlM_step_cons (step_tail rfl (by omega) (by simp) (by simp only; omega))]
    refine ⟨_, rfl, rfl, ?_⟩
    simp only [↓reduceIte, Nat.reduceEqDiff, hvalue, hchar]
  rw [if_neg hthree]
  obtain ⟨low, high, hlead, hlow, hhigh⟩ := lead?_of_four (v := v) (by omega) (by omega)
  have hvalue : ((v / 262144 * 64 + (v / 4096 % 0x40 + 0x80 - 0x80)) * 64
      + (v / 64 % 0x40 + 0x80 - 0x80)) * 64 + (v % 0x40 + 0x80 - 0x80) = v := by omega
  rw [foldlM_step_cons (step_lead hs (by omega) (by omega) hlead),
    foldlM_step_cons (step_tail rfl (by omega) hlow hhigh),
    foldlM_step_cons (step_tail rfl (by omega) (by simp) (by simp only; omega)),
    foldlM_step_cons (step_tail rfl (by omega) (by simp) (by simp only; omega))]
  refine ⟨_, rfl, rfl, ?_⟩
  simp only [↓reduceIte, Nat.reduceEqDiff, hvalue, hchar]

/-- A whole text, read at a character boundary, adds its characters. -/
theorem foldlM_step_encode (cs : List Char) {s : State} (hs : s.owed = 0) :
    ∃ t, (encode cs).foldlM State.step s = .ok t ∧ t.owed = 0 ∧
      t.chars = cs.reverse ++ s.chars := by
  induction cs generalizing s with
  | nil => exact ⟨s, rfl, hs, rfl⟩
  | cons c cs ih =>
    obtain ⟨t, ht, howed, hchars⟩ := foldlM_step_utf8EncodeChar c hs
    obtain ⟨u, hu, howed', hchars'⟩ := ih howed
    refine ⟨u, ?_, howed', ?_⟩
    · rw [encode_cons, List.foldlM_append, ht]
      exact hu
    · rw [hchars', hchars]
      simp

theorem decode_encode (cs : List Char) : decode (encode cs) = .ok cs := by
  obtain ⟨t, ht, howed, hchars⟩ := foldlM_step_encode cs (s := {}) rfl
  unfold decode
  rw [ht]
  simp [bind, Except.bind, howed, hchars, pure, Except.pure]

end Utf8

/-! ### ASCII texts -/

def isAscii (s : String) : Bool := s.toByteArray.data.toList.all (· < 128)

/-- The bytes of a text as characters. -/
def asciiChars (s : String) : List Char := s.toByteArray.data.toList.map fun b => Char.ofNat b.toNat

theorem toList_data_toByteArray (s : String) : s.toByteArray.data.toList = encode s.toList := by
  rw [← String.utf8Encode_toList, List.utf8Encode, List.toList_data_toByteArray, encode]

/-- The byte of an ASCII character stands for that character. -/
theorem ofNat_toNat_byte {c : Char} (h : c.toNat < 128) : Char.ofNat (UInt8.ofNat c.toNat).toNat = c := by
  rw [UInt8.toNat_ofNat', Nat.mod_eq_of_lt (by omega), Char.ofNat_toNat]

theorem map_encode_of_lt {cs : List Char} (h : ∀ b ∈ encode cs, b < 128) :
    (encode cs).map (fun b => Char.ofNat b.toNat) = cs := by
  induction cs with
  | nil => rfl
  | cons c cs ih =>
    rw [encode_cons, List.forall_mem_append] at h
    have hlow : c.toNat < 128 := by
      have hpos : 0 < (String.utf8EncodeChar c).length := by
        rw [String.length_utf8EncodeChar]
        exact c.utf8Size_pos
      obtain ⟨b, hb⟩ := List.exists_mem_of_length_pos hpos
      have hlt := UInt8.lt_iff_toNat_lt.1 (h.1 b hb)
      refine Nat.lt_of_not_le fun hle => ?_
      exact absurd (le_of_mem_utf8EncodeChar hle hb) (Nat.not_le.2 hlt)
    rw [encode_cons, utf8EncodeChar_of_lt hlow, List.singleton_append, List.map_cons, ih h.2,
      ofNat_toNat_byte hlow]

/-- An ASCII text has its bytes for characters. -/
theorem toList_of_isAscii {s : String} (h : isAscii s = true) : s.toList = asciiChars s := by
  unfold isAscii at h
  rw [List.all_eq_true] at h
  rw [toList_data_toByteArray] at h
  rw [asciiChars, toList_data_toByteArray, map_encode_of_lt fun b hb => of_decide_eq_true (h b hb)]

end DdlBridge.Text
