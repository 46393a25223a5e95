import DdlBridge.Proofs.Text.LetterCase
import DdlBridge.Proofs.Token.Atom

/-!
# Tokens and letter case

Every reader takes from the lower text the lower text of what it takes, so lower-casing a script
lower-cases its tokens and leaves them where they are (`tokensFrom_lower`). Only dollar-quoted
literals are different: their two tags must agree in case.
-/

namespace DdlBridge

/-! ### Tokens -/

/-- The token with its text in lower case. -/
def Token.lowered (t : Token) : Token := { t with text := Text.lower t.text }

namespace Lexer

open Text

/-! ### Comments -/

theorem takeLine?_cons (c : Char) (cs : List Char) : takeLine? (c :: cs) =
    if c = '\n' ∨ (c = '\r' ∧ cs.head? = some '\n') then some ([], c :: cs)
    else if c = '\r' then none else (takeLine? cs).behind [c] := by
  conv => lhs; unfold takeLine?
  split
  case h_1 h => contradiction
  case h_2 h =>
    obtain ⟨rfl, rfl⟩ := List.cons.inj h
    rfl
  case h_3 h =>
    obtain ⟨rfl, rfl⟩ := List.cons.inj h
    rfl
  case h_4 hnewline hreturn h =>
    obtain ⟨rfl, rfl⟩ := List.cons.inj h
    have hnot : ¬(c = '\n' ∨ (c = '\r' ∧ cs.head? = some '\n')) := by
      rintro (rfl | ⟨rfl, hhead⟩)
      · exact hnewline rfl
      · obtain ⟨rest, rfl⟩ := List.head?_eq_some_iff.1 hhead
        exact hreturn rest rfl rfl
    rw [if_neg hnot]

theorem takeLine?_lower (cs : List Char) : takeLine? (lower cs) = (takeLine? cs).lower := by
  induction cs with
  | nil => rfl
  | cons c cs ih =>
    rw [lower_cons, takeLine?_cons, takeLine?_cons]
    simp only [head?_lower (k := '\n') rfl, toLower_eq_iff (k := '\n') rfl,
      toLower_eq_iff (k := '\r') rfl, ih]
    split
    · rfl
    · split
      · rfl
      · rw [Taken.lower_behind]
        rfl

theorem takeComment?_cons (hash : Bool) (c : Char) (cs : List Char) : takeComment? hash (c :: cs) =
    if c = '-' ∧ cs.head? = some '-' then (takeLine? cs.tail).behind ['-', '-']
    else if c = '/' ∧ cs.head? = some '*' then
      (breakOn ['*', '/'] cs.tail).map fun (body, rest) => ('/' :: '*' :: (body ++ ['*', '/']), rest)
    else if c = '#' ∧ hash = true then (takeLine? cs).behind ['#'] else none := by
  unfold takeComment?
  split
  case h_1 h =>
    obtain ⟨rfl, rfl⟩ := List.cons.inj h
    rfl
  case h_2 h =>
    obtain ⟨rfl, rfl⟩ := List.cons.inj h
    rfl
  case h_3 h =>
    obtain ⟨rfl, rfl⟩ := List.cons.inj h
    simp
  case h_4 hdash hslash hhash =>
    rw [if_neg, if_neg, if_neg]
    · rintro ⟨rfl, -⟩
      exact hhash cs rfl
    · rintro ⟨rfl, hhead⟩
      obtain ⟨rest, rfl⟩ := List.head?_eq_some_iff.1 hhead
      exact hslash rest rfl
    · rintro ⟨rfl, hhead⟩
      obtain ⟨rest, rfl⟩ := List.head?_eq_some_iff.1 hhead
      exact hdash rest rfl

theorem takeComment?_lower (hash : Bool) (cs : List Char) :
    takeComment? hash (lower cs) = (takeComment? hash cs).lower := by
  cases cs with
  | nil => rfl
  | cons c cs =>
    have htail : (lower cs).tail = lower cs.tail := List.map_tail.symm
    rw [lower_cons, takeComment?_cons, takeComment?_cons, htail, takeLine?_lower, takeLine?_lower,
      breakOn_lower (by decide)]
    simp only [head?_lower (k := '-') rfl, head?_lower (k := '*') rfl, toLower_eq_iff (k := '-') rfl,
      toLower_eq_iff (k := '/') rfl, toLower_eq_iff (k := '#') rfl]
    split
    · rw [Taken.lower_behind]
      rfl
    · split
      · cases breakOn ['*', '/'] cs.tail with
        | none => rfl
        | some taken => simp [Taken.lower, toLower_eq_self]
      · split
        · rw [Taken.lower_behind]
          rfl
        · rfl

/-! ### Quotes -/

theorem takeQuoted?_lower {closing : Char} (hclosing : closing.isAlpha = false) (escapes : Bool)
    (cs : List Char) :
    takeQuoted? closing escapes (lower cs) = (takeQuoted? closing escapes cs).lower := by
  have hsame : ∀ c : Char, c.toLower = closing ↔ c = closing := fun c => toLower_eq_iff hclosing
  have hback : ∀ c : Char, c.toLower = '\\' ↔ c = '\\' := fun c => toLower_eq_iff rfl
  fun_induction takeQuoted? closing escapes cs with
  | case1 => rfl
  | case2 c h => simp only [lower_cons, lower_nil, takeQuoted?, hback, if_pos h]; rfl
  | case3 h => simp [takeQuoted?, h, Taken.lower, toLower_eq_self closing hclosing]
  | case4 c h hne => simp [takeQuoted?, hback, hsame, h, hne, Taken.lower]
  | case5 c d cs h ih =>
    simp only [lower_cons, takeQuoted?, hback, hsame, if_pos h, ih, Taken.lower_behind]
    rfl
  | case6 d cs h =>
    have hsingle : ¬(escapes = true ∧ closing = '\\' ∨ True ∧ d = closing) := by simpa using h
    simp only [lower_cons, takeQuoted?, hback, hsame, if_neg hsingle, if_true]
    rfl
  | case7 c d cs h hne ih =>
    simp only [lower_cons, takeQuoted?, hback, hsame, if_neg h, if_neg hne, Taken.lower_behind]
    rw [← lower_cons, ih]
    rfl

theorem takeDelimited?_lower {opening closing : Char} (hopening : opening.isAlpha = false)
    (hclosing : closing.isAlpha = false) (escapes : Bool) (cs : List Char) :
    takeDelimited? opening closing escapes (lower cs) =
      (takeDelimited? opening closing escapes cs).lower := by
  cases cs with
  | nil => rfl
  | cons c cs =>
    simp only [lower_cons, takeDelimited?, toLower_eq_iff hopening, takeQuoted?_lower hclosing]
    split
    · rw [Taken.lower_behind]
      rfl
    · rfl

theorem takeDollar?_of_not_mem {cs : List Char} (h : '$' ∉ cs) : takeDollar? cs = none := by
  cases cs with
  | nil => rfl
  | cons c cs => exact Atom.takeDollar?_of_ne (Ne.symm (List.ne_of_not_mem_cons h)) cs

/-! ### Numbers and words -/

theorem takeNumber?_lower (cs : List Char) : takeNumber? (lower cs) = (takeNumber? cs).lower := by
  rw [takeNumber?, takeNumber?, takeWhile_lower isDigit_toLower, dropWhile_lower isDigit_toLower,
    isEmpty_lower]
  split
  · rfl
  · cases hrest : cs.dropWhile Char.isDigit with
    | nil => rfl
    | cons c rest =>
      by_cases hpoint : c = '.'
      · subst hpoint
        change some (_ ++ '.' :: (lower rest).takeWhile Char.isDigit,
          (lower rest).dropWhile Char.isDigit) = _
        rw [takeWhile_lower isDigit_toLower, dropWhile_lower isDigit_toLower]
        simp [Taken.lower, toLower_eq_self]
      · have hlower : c.toLower ≠ '.' := by rwa [Ne, toLower_eq_iff rfl]
        simp [hpoint, hlower, Taken.lower]

@[simp] theorem startsWord_toLower (c : Char) : startsWord c.toLower = startsWord c := by
  have hline : (c.toLower == '_') = (c == '_') := by
    rw [Bool.eq_iff_iff, beq_iff_eq, beq_iff_eq, toLower_eq_iff rfl]
  rw [startsWord, startsWord, isLetter_toLower, hline]

@[simp] theorem continuesWord_toLower (c : Char) : continuesWord c.toLower = continuesWord c :=
  toLower_of_ascii _ (by decide +kernel) c

theorem takeWord?_lower (cs : List Char) : takeWord? (lower cs) = (takeWord? cs).lower := by
  cases cs with
  | nil => rfl
  | cons c cs =>
    rw [lower_cons, takeWord?, takeWord?, startsWord_toLower, takeWhile_lower continuesWord_toLower,
      dropWhile_lower continuesWord_toLower]
    split
    · rfl
    · rfl

/-! ### The first segment -/

theorem lower_of_mem_readers {rules : LexicalRules} {cs : List Char}
    (hdollar : rules.dollarQuotes = true → '$' ∉ cs) {kind : TokenKind} {take : List Char → Taken}
    (h : (kind, take) ∈ readers rules) : take (lower cs) = (take cs).lower := by
  simp only [readers, List.mem_append, List.mem_cons, List.not_mem_nil, or_false,
    Prod.mk.injEq] at h
  rcases h with ((h | h) | h) | h | h | h | h
  · split at h
    case isTrue hrules =>
      obtain ⟨-, rfl⟩ := Prod.mk.inj (List.mem_singleton.1 h)
      have hlower : '$' ∉ lower cs := by
        simpa [lower, toLower_eq_iff] using hdollar hrules
      rw [takeDollar?_of_not_mem hlower, takeDollar?_of_not_mem (hdollar hrules)]
      rfl
    case isFalse => simp at h
  · split at h
    case isTrue =>
      obtain ⟨-, rfl⟩ := Prod.mk.inj (List.mem_singleton.1 h)
      exact takeDelimited?_lower rfl rfl _ _
    case isFalse => simp at h
  · split at h
    case isTrue =>
      obtain ⟨-, rfl⟩ := Prod.mk.inj (List.mem_singleton.1 h)
      exact takeDelimited?_lower rfl rfl _ _
    case isFalse => simp at h
  · exact h.2 ▸ takeDelimited?_lower rfl rfl _ _
  · exact h.2 ▸ takeDelimited?_lower rfl rfl _ _
  · exact h.2 ▸ takeNumber?_lower cs
  · exact h.2 ▸ takeWord?_lower cs

theorem firstOf_lower {cs : List Char} {rs : List (TokenKind × (List Char → Taken))}
    (h : ∀ r ∈ rs, r.2 (lower cs) = (r.2 cs).lower) :
    firstOf (lower cs) rs = (firstOf cs rs).map fun (kind, text, rest) => (kind, lower text, lower rest) := by
  induction rs with
  | nil => rfl
  | cons r rs ih =>
    obtain ⟨hr, hrs⟩ := List.forall_mem_cons.1 h
    rw [firstOf, firstOf, hr]
    cases r.2 cs with
    | none => exact ih hrs
    | some taken => rfl

/-- The lower text of both parts. -/
def lowerParts {κ : Type} (taken : κ × List Char × List Char) : κ × List Char × List Char :=
  (taken.1, lower taken.2.1, lower taken.2.2)

theorem takeToken_lower {rules : LexicalRules} {c : Char} {cs : List Char}
    (hdollar : rules.dollarQuotes = true → '$' ∉ c :: cs) :
    takeToken rules c.toLower (lower cs) = lowerParts (takeToken rules c cs) := by
  have hreaders : ∀ r ∈ readers rules, r.2 (lower (c :: cs)) = (r.2 (c :: cs)).lower := fun _ hr =>
    lower_of_mem_readers hdollar hr
  have hfirst := firstOf_lower hreaders
  rw [lower_cons] at hfirst
  rw [takeToken, takeToken, hfirst]
  cases firstOf (c :: cs) (readers rules) with
  | none => rfl
  | some taken => rfl

theorem takeSegment_lower {rules : LexicalRules} {c : Char} {cs : List Char}
    (hdollar : rules.dollarQuotes = true → '$' ∉ c :: cs) :
    takeSegment rules c.toLower (lower cs) = lowerParts (takeSegment rules c cs) := by
  rw [takeSegment, takeSegment, isBlank_toLower, takeToken_lower hdollar, ← lower_cons,
    takeComment?_lower]
  split
  · rfl
  · cases takeComment? rules.hashComments (c :: cs) with
    | none => rfl
    | some taken => rfl

/-! ### All segments -/

def Segment.lowered (s : Segment) : Segment := { s with text := lower s.text }

theorem token?_lowered (s : Segment) : s.lowered.token? = s.token?.map Token.lowered := by
  obtain ⟨kind, text, offset⟩ := s
  cases kind with
  | blank => rfl
  | comment => rfl
  | token kind => rfl

theorem segmentsFrom_lower {rules : LexicalRules} (offset : Nat) {cs : List Char}
    (hdollar : rules.dollarQuotes = true → '$' ∉ cs) :
    segmentsFrom rules offset (lower cs) = (segmentsFrom rules offset cs).map Segment.lowered := by
  fun_induction segmentsFrom rules offset cs with
  | case1 => rw [lower_nil, segmentsFrom]; rfl
  | case2 offset c cs _ ih =>
    have hrest : rules.dollarQuotes = true → '$' ∉ (takeSegment rules c cs).2.2 := by
      intro hrules hmem
      apply hdollar hrules
      rw [← (takeSegment_append rules c cs).2]
      exact List.mem_append_right _ hmem
    rw [lower_cons, segmentsFrom, takeSegment_lower hdollar, List.map_cons, ← ih hrest]
    simp only [lowerParts, width_lower]
    rfl

theorem tokensFrom_lower {rules : LexicalRules} (offset : Nat) {cs : List Char}
    (hdollar : rules.dollarQuotes = true → '$' ∉ cs) :
    tokensFrom rules offset (lower cs) = (tokensFrom rules offset cs).map Token.lowered := by
  rw [tokensFrom_eq_filterMap, tokensFrom_eq_filterMap, segmentsFrom_lower offset hdollar,
    List.filterMap_map, List.map_filterMap]
  congr 1
  funext s
  exact token?_lowered s

/-! ### Names -/

theorem unquote_lower {opening : Char} (h : opening.isAlpha = false) (cs : List Char) :
    unquote (lower (opening :: cs)) = lower (unquote (opening :: cs)) := by
  have hclosing : (if opening = '[' then ']' else opening).isAlpha = false := by
    split
    · rfl
    · exact h
  rw [lower_cons, toLower_eq_self opening h, unquote, unquote]
  generalize (if opening = '[' then ']' else opening) = closing at hclosing
  rw [← undouble_lower hclosing, apply_ite lower, lower_dropLast]
  simp only [getLast?_lower hclosing]

theorem exists_takeToken {rules : LexicalRules} {offset : Nat} {cs : List Char} {t : Token}
    (h : t ∈ tokensFrom rules offset cs) :
    ∃ c rest start, t = ⟨(takeToken rules c rest).1, (takeToken rules c rest).2.1, start⟩ := by
  rw [tokensFrom_eq_filterMap] at h
  obtain ⟨s, hs, hsome⟩ := List.mem_filterMap.1 h
  fun_induction segmentsFrom rules offset cs with
  | case1 => contradiction
  | case2 offset c cs _ ih =>
    rcases List.mem_cons.1 hs with rfl | hs
    · unfold takeSegment at hsome
      split at hsome
      · contradiction
      · split at hsome
        · contradiction
        · exact ⟨c, cs, offset, (Option.some.inj hsome).symm⟩
    · exact ih (List.mem_filterMap.2 ⟨s, hs, hsome⟩) hs

/-- The lower token stands for the lower name. -/
theorem ident?_lowered {rules : LexicalRules} {offset : Nat} {cs : List Char} {t : Token}
    (h : t ∈ tokensFrom rules offset cs) : t.lowered.ident? = t.ident?.map String.toLower := by
  obtain ⟨c, rest, start, rfl⟩ := exists_takeToken h
  have hsplit := takeToken_append rules c rest
  cases hc : c.isAlpha with
  | true =>
    have hstart := Atom.startsWord_of_isAlpha hc
    rw [Atom.takeToken_word (Atom.bare_of_word (.inl hstart)) hstart]
    exact congrArg some (toLower_ofList _).symm
  | false =>
    generalize takeToken rules c rest = taken at hsplit
    obtain ⟨kind, text, rest⟩ := taken
    obtain ⟨hne, hsplit⟩ := hsplit
    obtain ⟨opening, inner, rfl⟩ := List.exists_cons_of_ne_nil hne
    obtain rfl : opening = c := (List.cons.inj hsplit).1
    cases kind with
    | word => exact congrArg some (toLower_ofList _).symm
    | quotedIdent =>
      refine congrArg some ?_
      rw [toLower_ofList, ← unquote_lower hc]
      rfl
    | string | dollarString | number | punct => rfl

end Lexer

end DdlBridge
