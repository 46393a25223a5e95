import DdlBridge.Proofs.Statement.Resume

/-!
# Reading words

A character of a word puts its bytes into the word in progress and on the line, and does nothing
else (`feedChar_word`).
-/

namespace DdlBridge.Statement

open Scanner Text

/-- The bytes of a character, as scanners see them. -/
def wordBytes (c : Char) : List Char := (String.utf8EncodeChar c).map fun b => Char.ofNat b.toNat

theorem wordBytes_of_lt {c : Char} (h : c.toNat < 128) : wordBytes c = [c] := by
  rw [wordBytes, utf8EncodeChar_of_lt h, List.map_singleton, ofNat_toNat_byte h]

theorem le_of_mem_wordBytes {c ch : Char} (h : 128 ≤ c.toNat) (hch : ch ∈ wordBytes c) :
    128 ≤ ch.toNat := by
  obtain ⟨b, hb, rfl⟩ := List.mem_map.1 hch
  rw [toNat_ofNat_byte]
  exact le_of_mem_utf8EncodeChar h hb

theorem length_wordBytes (c : Char) : (wordBytes c).length = c.utf8Size := by
  rw [wordBytes, List.length_map, String.length_utf8EncodeChar]

theorem one_lt_length_wordBytes {c : Char} (h : 128 ≤ c.toNat) : 1 < (wordBytes c).length := by
  have hone : c.utf8Size ≠ 1 := by
    rw [Ne, Char.utf8Size_eq_one_iff, UInt32.le_iff_toNat_le]
    have hval : c.val.toNat = c.toNat := rfl
    have hmax : (127 : UInt32).toNat = 127 := rfl
    omega
  have hpos := c.utf8Size_pos
  rw [length_wordBytes]
  omega

/-- The scanner with more of a word behind it. -/
def pushWord (s : Scanner) (bytes : List Char) : Scanner :=
  { s with
    word := (bytes.map Char.toUpper).reverse ++ s.word
    content := s.content || !bytes.isEmpty
    line := bytes.reverse ++ s.line }

theorem pushWord_append (s : Scanner) (front rest : List Char) :
    pushWord (pushWord s front) rest = pushWord s (front ++ rest) := by
  simp only [pushWord, List.map_append, List.reverse_append, List.append_assoc]
  cases front <;> cases rest <;> simp

theorem stepNormal_word {s : Scanner} {c : Char} (hword : s.isWordByte c = true) :
    s.stepNormal c = (pushWord s [c], false) := by
  rw [stepNormal, if_pos hword]
  simp only [pushWord, pushLine, List.map_cons, List.map_nil, List.reverse_singleton,
    List.singleton_append, List.isEmpty_cons, Bool.not_false, Bool.or_true]

theorem foldl_feedByte_word {bytes : List UInt8} (hbytes : ∀ b ∈ bytes, 128 ≤ b.toNat) {s : Scanner}
    (hregion : s.region = .normal) (cut : Bool) : bytes.foldl feedByte (s, cut) =
      (pushWord s (bytes.map fun b => Char.ofNat b.toNat), cut) := by
  induction bytes generalizing s with
  | nil => simp [pushWord]
  | cons b bytes ih =>
    have hb := hbytes b List.mem_cons_self
    have hword : s.isWordByte (Char.ofNat b.toNat) = true := by
      simp only [isWordByte, toNat_ofNat_byte, hb, decide_true, Bool.or_true, Bool.true_or]
    have hfeed : s.feed b = (pushWord s [Char.ofNat b.toNat], false) := by
      rw [Scanner.feed, step, hregion]
      exact stepNormal_word hword
    have hfirst : feedByte (s, cut) b = (pushWord s [Char.ofNat b.toNat], cut) := by
      rw [feedByte, hfeed]
      simp
    rw [List.foldl_cons, hfirst,
      ih (fun b' hmem => hbytes b' (List.mem_cons_of_mem _ hmem))
        (s := pushWord s [Char.ofNat b.toNat]) hregion, pushWord_append]
    rfl

/-- A character that goes on with a word. -/
theorem feedChar_word {s : Scanner} (hregion : s.region = .normal) {c : Char}
    (hword : 128 ≤ c.toNat ∨ s.isWordByte c = true) :
    feedChar s c = (pushWord s (wordBytes c), false) := by
  rcases Nat.lt_or_ge c.toNat 128 with h | h
  · have hbyte : s.isWordByte c = true := hword.resolve_left (by omega)
    rw [feedChar_of_lt s h, wordBytes_of_lt h, step, hregion]
    exact stepNormal_word hbyte
  · exact foldl_feedByte_word (fun b => le_of_mem_utf8EncodeChar h) hregion false

end DdlBridge.Statement
