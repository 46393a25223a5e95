import DdlBridge.Proofs.Statement.Level
import DdlBridge.Proofs.Statement.Lexing
import DdlBridge.Proofs.Token.Atom

/-!
# Texts without comments and blocks

To the lexer a text is plain if nothing in it is or opens a comment, every quote is closed, and no word
opens or closes a block (`Clean`, `clean_of_tokens`). The lexer and a scanner cut numbers and characters
above ASCII differently, but a scanner finds no such word either (`Clean.exists_script`).
-/

namespace DdlBridge.Statement

open Scanner Text Lexer Atom

variable {rules : LexicalRules} {c : Char} {cs rest : List Char}

/-- Read from its start, the text has no comment and no open quote, and none of its words opens or
closes a block. -/
inductive Clean (rules : LexicalRules) : List Char → Prop where
  | nil : Clean rules []
  /-- Any character that starts neither a word nor a region. -/
  | char {c : Char} {cs : List Char} (hword : startsWord c = false) (hquote : opensQuote rules c = false)
      (hdash : c = '-' → cs.head? ≠ some '-') (hslash : c = '/' → cs.head? ≠ some '*')
      (h : Clean rules cs) : Clean rules (c :: cs)
  | word {c : Char} {cs : List Char} (hstart : startsWord c = true)
      (hword : (Lexeme.word (c :: cs.takeWhile continuesWord)).keyword ∉ nestingWords)
      (h : Clean rules (cs.dropWhile continuesWord)) : Clean rules (c :: cs)
  | quoted {opening : Char} {body rest : List Char} (hopen : opensQuote rules opening = true)
      (hbody : Enclosed rules (closing opening) body) (hrest : rest.head? ≠ some (closing opening))
      (h : Clean rules rest) : Clean rules (opening :: (body ++ closing opening :: rest))

/-! ### What the lexer finds -/

/-- An opener that became punctuation, of a quote or of a comment. -/
def Dangling (rules : LexicalRules) (script : List Char) (t : Token) : Prop :=
  Unmatched rules script t ∨ (t.kind = .punct ∧ t.text = ['-'] ∧ (encode script)[t.stop]? = some 45)

theorem dangling_iff {script : List Char} {t : Token} : Dangling rules script t ↔ t.kind = .punct ∧
    ((t.text.length = 1 ∧ t.text.any (opensQuote rules) = true) ∨
      (t.text = ['/'] ∧ (encode script)[t.stop]? = some 42) ∨
      (t.text = ['-'] ∧ (encode script)[t.stop]? = some 45)) := by
  have hquote : (∃ c, t.text = [c] ∧ opensQuote rules c = true) ↔
      t.text.length = 1 ∧ t.text.any (opensQuote rules) = true := by
    rw [List.length_eq_one_iff]
    constructor
    · rintro ⟨c, htext, hopen⟩
      exact ⟨⟨c, htext⟩, by simpa [htext] using hopen⟩
    · rintro ⟨⟨c, htext⟩, hopen⟩
      exact ⟨c, htext, by simpa [htext] using hopen⟩
  rw [Dangling, Unmatched, hquote, ← and_or_left, or_assoc]

instance (rules : LexicalRules) (script : List Char) (t : Token) : Decidable (Dangling rules script t) :=
  decidable_of_iff' _ dangling_iff

theorem Clean.of_inert (hinert : inert rules c = true) (hstart : startsWord c = false)
    (h : Clean rules cs) : Clean rules (c :: cs) := by
  simp only [inert, Bool.and_eq_true, bne_iff_ne, ne_eq, Bool.not_eq_true'] at hinert
  obtain ⟨⟨hdash, hslash⟩, hquote⟩ := hinert
  exact .char hstart hquote (fun heq => absurd heq hdash) (fun heq => absurd heq hslash) h

/-- The characters of a number are plain one by one. -/
theorem Clean.of_number {text : List Char} (htext : ∀ d ∈ text, d.isDigit = true ∨ d = '.')
    (h : Clean rules rest) : Clean rules (text ++ rest) := by
  induction text with
  | nil => exact h
  | cons d text ih =>
    rw [List.forall_mem_cons] at htext
    refine .of_inert (inert_of_digit htext.1) ?_ (ih htext.2)
    rcases htext.1 with hdigit | rfl
    · rw [Bool.eq_false_iff]
      intro hstart
      rw [isDigit_of_startsWord hstart] at hdigit
      exact absurd hdigit (by simp)
    · decide

theorem not_startsWord_of_isBlank (h : isBlank c = true) : startsWord c = false := by
  rw [Bool.eq_false_iff]
  intro hstart
  rw [not_blank_of_word (.inl hstart)] at h
  exact absurd h (by simp)

/-- Punctuation that does not dangle opens nothing. -/
theorem Clean.of_punct {front : List Char} (hstart : startsWord c = false)
    (hopener : ¬ Dangling rules (front ++ c :: cs) ⟨.punct, [c], width front⟩) (h : Clean rules cs) :
    Clean rules (c :: cs) := by
  have hnext : ∀ d : Char, d.toNat < 128 → cs.head? = some d →
      (encode (front ++ c :: cs))[Token.stop ⟨.punct, [c], width front⟩]? =
        some (UInt8.ofNat d.toNat) := by
    intro d hd hhead
    have hstop : Token.stop ⟨.punct, [c], width front⟩ = width (front ++ [c]) := (width_append _ _).symm
    rw [hstop, List.append_cons, getElem?_encode_append]
    exact (head?_encode_eq_some_iff hd cs).2 hhead
  have hquote : opensQuote rules c = false := by
    rw [Bool.eq_false_iff]
    exact fun hquote => hopener (.inl ⟨rfl, .inl ⟨c, rfl, hquote⟩⟩)
  refine .char hstart hquote ?_ ?_ h
  · rintro rfl hhead
    exact hopener (.inr ⟨rfl, rfl, hnext '-' (by decide) hhead⟩)
  · rintro rfl hhead
    exact hopener (.inl ⟨rfl, .inr ⟨rfl, hnext '*' (by decide) hhead⟩⟩)

/-- A token that neither dangles nor opens or closes a block keeps a text plain. -/
theorem Clean.of_read (hplain : Plain rules) {front text rest : List Char} {kind : TokenKind}
    (hread : Read rules c cs (kind, text, rest)) (happend : text ++ rest = c :: cs)
    (hopener : ¬ Dangling rules (front ++ c :: cs) ⟨kind, text, width front⟩)
    (hword : Token.keyword ⟨kind, text, width front⟩ ∉ nestingWords) (h : Clean rules rest) :
    Clean rules (c :: cs) := by
  cases hread with
  | dollar hrules => exact absurd (hplain.dollar.symm.trans hrules) (by simp)
  | quoted hopen _ htake =>
    have hreads := readsUpTo_of_plain hplain hopen cs
    rw [htake] at hreads
    obtain ⟨body, rfl, hbody, hend⟩ := hreads
    rw [← happend]
    have hclean := Clean.quoted hopen hbody hend h
    rwa [List.append_cons] at hclean
  | number htake =>
    rw [← happend]
    exact .of_number (fun d hd => digit_of_takeNumber? htake d hd) h
  | word hstart => exact .word hstart hword h
  | punct _ _ hstart => exact .of_punct hstart hopener h

/-- What is plain token by token is plain. -/
theorem clean_of_tokens (hplain : Plain rules) (offset : Nat) (cs front : List Char)
    (hoffset : offset = width front)
    (hcomments : ∀ seg ∈ segmentsFrom rules offset cs, seg.kind ≠ .comment)
    (hopeners : ∀ t ∈ tokensFrom rules offset cs, ¬ Dangling rules (front ++ cs) t)
    (hwords : ∀ t ∈ tokensFrom rules offset cs, t.keyword ∉ nestingWords) : Clean rules cs := by
  fun_induction segmentsFrom rules offset cs generalizing front with
  | case1 => exact .nil
  | case2 offset c cs _ ih =>
    subst hoffset
    have happend := (takeSegment_append rules c cs).2
    rw [tokensFrom_cons, List.forall_mem_append] at hopeners hwords
    rw [List.forall_mem_cons] at hcomments
    generalize hsegment : takeSegment rules c cs = taken at happend hcomments hopeners hwords ih
    obtain ⟨kind, text, rest⟩ := taken
    dsimp only at happend hcomments hopeners hwords ih
    have hrest : Clean rules rest := by
      refine ih (front ++ text) (width_append _ _).symm hcomments.2 ?_ hwords.2
      rw [List.append_assoc, happend]
      exact hopeners.2
    unfold takeSegment at hsegment
    split at hsegment
    case isTrue hblank =>
      obtain ⟨-, -, rfl⟩ : .blank = kind ∧ [c] = text ∧ cs = rest := by simpa using hsegment
      exact .of_inert (inert_of_isBlank hblank) (not_startsWord_of_isBlank hblank) hrest
    case isFalse hblank =>
      split at hsegment
      case h_1 => exact absurd (Prod.mk.inj hsegment).1.symm hcomments.1
      case h_2 =>
        obtain ⟨rfl, htaken⟩ := Prod.mk.inj hsegment
        have hread := read rules c cs
        generalize takeToken rules c cs = taken at hread htaken hopeners hwords
        obtain ⟨kind, text', rest'⟩ := taken
        obtain ⟨rfl, rfl⟩ : text' = text ∧ rest' = rest := Prod.mk.inj htaken
        exact .of_read hplain hread happend
          (hopeners.1 ⟨kind, text', width front⟩ List.mem_cons_self)
          (hwords.1 ⟨kind, text', width front⟩ List.mem_cons_self) hrest

/-! ### What a scanner finds -/

/-- A lexeme that opens and closes no block and ends in front of a delimiter. -/
structure Lexeme.Idle (rules : LexicalRules) (l : Lexeme) : Prop where
  word : l.keyword ∉ nestingWords
  ends : ∀ c ∈ delimiters, l.endsAt rules c = true

/-- A scanner reads the text as lexemes that open and close no block. -/
def Idles (rules : LexicalRules) (cs : List Char) : Prop :=
  ∃ ls, Script rules ls ∧ textOf ls = cs ∧ ∀ l ∈ ls, l.Idle rules

theorem Idles.cons {l : Lexeme} (hl : l.Formed rules) (hidle : l.Idle rules)
    (hnext : ∀ c ∈ cs.head?, l.endsAt rules c = true) (h : Idles rules cs) :
    Idles rules (l.text ++ cs) := by
  obtain ⟨ls, hscript, rfl, hall⟩ := h
  exact ⟨l :: ls, .cons hl hnext hscript, List.flatMap_cons, List.forall_mem_cons.2 ⟨hidle, hall⟩⟩

theorem idle_word {w : List Char} (h : (Lexeme.word w).keyword ∉ nestingWords) :
    (Lexeme.word w).Idle rules :=
  ⟨h, (by decide : ∀ c ∈ delimiters, (!extendsWord c) = true)⟩

theorem idle_blank (c : Char) : (Lexeme.blank c).Idle rules :=
  ⟨(by decide : "" ∉ nestingWords), fun _ _ => rfl⟩

theorem idle_punct (hplain : Plain rules) (c : Char) : (Lexeme.punct c).Idle rules := by
  refine ⟨(by decide : "" ∉ nestingWords), fun d hd => ?_⟩
  have hne : d ≠ '-' ∧ d ≠ '*' := by
    have hall : ∀ d ∈ delimiters, d ≠ '-' ∧ d ≠ '*' := by decide
    exact hall d hd
  unfold Lexeme.endsAt
  split
  all_goals simp_all [hplain.dollar]

theorem idle_quoted {opening : Char} (hopen : opensQuote rules opening = true) (body : List Char) :
    (Lexeme.quoted opening body).Idle rules := by
  have hall : ∀ q ∈ ['\x27', '\x22', '\x60', ']'], ∀ d ∈ delimiters, (d != q) = true := by decide
  exact ⟨(by decide : "" ∉ nestingWords), hall _ (closing_cases opening hopen)⟩

theorem Idles.append (h : Idles rules cs) (hrest : Idles rules rest)
    (hnext : ∀ c ∈ rest.head?, c ∈ delimiters) : Idles rules (cs ++ rest) := by
  obtain ⟨ls, hscript, rfl, hall⟩ := h
  obtain ⟨ls', hscript', rfl, hall'⟩ := hrest
  refine ⟨ls ++ ls', script_append hscript hscript' fun l hl c hc => ?_, List.flatMap_append,
    List.forall_mem_append.2 ⟨hall, hall'⟩⟩
  exact (hall l (List.mem_of_getLast? hl)).ends c (hnext c hc)

theorem Idles.blank (hc : c ∈ plainBlanks) (h : Idles rules cs) : Idles rules (c :: cs) :=
  h.cons (.blank hc) (idle_blank c) fun _ _ => rfl

/-- All of a word of a scanner is read, whatever stands behind it. -/
theorem Idles.word (hc : opensWord c = true)
    (hword : (Lexeme.word (c :: cs.takeWhile extendsWord)).keyword ∉ nestingWords)
    (h : Idles rules (cs.dropWhile extendsWord)) : Idles rules (c :: cs) := by
  have hformed : (Lexeme.word (c :: cs.takeWhile extendsWord)).Formed rules :=
    .word hc fun _ => List.mem_takeWhile_imp
  have hall := h.cons hformed (idle_word hword) fun d hd => by
    have hnot := List.head?_dropWhile_not extendsWord cs
    rw [Option.mem_def.1 hd] at hnot
    simpa [Lexeme.endsAt] using hnot
  rwa [Lexeme.text, List.cons_append, List.takeWhile_append_dropWhile] at hall

/-- A character that no word starts with and that opens nothing. -/
theorem Idles.char (hplain : Plain rules) (hword : opensWord c = false)
    (hquote : opensQuote rules c = false) (hdash : c = '-' → cs.head? ≠ some '-')
    (hslash : c = '/' → cs.head? ≠ some '*') (h : Idles rules cs) : Idles rules (c :: cs) := by
  by_cases hblank : c ∈ plainBlanks
  · exact h.blank hblank
  · have hpunct : Lexeme.isPunct rules c = true := by
      simp [Lexeme.isPunct, hword, hblank, hquote, hplain.hash]
    refine h.cons (.punct hpunct) (idle_punct hplain c) fun d hd => ?_
    unfold Lexeme.endsAt
    split
    all_goals simp_all [hplain.dollar]

theorem isAlpha_of_keyword {w : List Char} (h : (Lexeme.word w).keyword ∈ nestingWords) :
    ∀ d ∈ w, d.isAlpha = true := by
  have hall : ∀ v ∈ nestingWords, ∀ d ∈ v.toList, d.isAlpha = true := by decide
  intro d hd
  have hupper := hall _ h d.toUpper (by
    rw [Lexeme.keyword, String.toList_ofList]
    exact List.mem_map_of_mem hd)
  rwa [← isAlpha_toLower, toLower_toUpper, isAlpha_toLower] at hupper

/-- A word of a scanner that opens or closes a block is one of the lexer. -/
theorem takeWhile_of_keyword
    (h : (Lexeme.word (c :: cs.takeWhile extendsWord)).keyword ∈ nestingWords) :
    startsWord c = true ∧ cs.takeWhile extendsWord = cs.takeWhile continuesWord := by
  have halpha := isAlpha_of_keyword h
  rw [List.forall_mem_cons] at halpha
  have hinside : ∀ d ∈ cs.takeWhile extendsWord, continuesWord d = true := fun d hd =>
    continuesWord_of_startsWord (startsWord_of_isAlpha (halpha.2 d hd))
  have hbehind : ∀ d ∈ (cs.dropWhile extendsWord).head?, continuesWord d = false := by
    intro d hd
    have hnot := List.head?_dropWhile_not extendsWord cs
    rw [Option.mem_def.1 hd] at hnot
    rw [Bool.eq_false_iff]
    intro hcontinues
    simp [extendsWord_of_continuesWord hcontinues] at hnot
  have hsplit := (takeWhile_append_of_head hinside hbehind).1
  rw [List.takeWhile_append_dropWhile] at hsplit
  exact ⟨startsWord_of_isAlpha halpha.1, hsplit.symm⟩

/-- In a text that is plain to the lexer a scanner finds no block, from its start nor from behind the
word that goes on there. -/
theorem Clean.idles (hplain : Plain rules) (h : Clean rules cs) :
    Idles rules cs ∧ Idles rules (cs.dropWhile extendsWord) := by
  induction h with
  | nil => exact ⟨⟨[], .nil, rfl, by simp⟩, ⟨[], .nil, rfl, by simp⟩⟩
  | @char c cs hstart hquote hdash hslash _ ih =>
    have hall : Idles rules (c :: cs) := by
      cases hopens : opensWord c with
      | true =>
        refine .word hopens (fun hkeyword => ?_) ih.2
        exact absurd ((takeWhile_of_keyword hkeyword).1.symm.trans hstart) (by simp)
      | false => exact .char hplain hopens hquote hdash hslash ih.1
    refine ⟨hall, ?_⟩
    rw [List.dropWhile_cons]
    split
    · exact ih.2
    · exact hall
  | @word c cs hstart hword _ ih =>
    have hrest : (cs.dropWhile continuesWord).dropWhile extendsWord = cs.dropWhile extendsWord := by
      have hinside : ∀ d ∈ cs.takeWhile continuesWord, extendsWord d = true := fun d hd =>
        extendsWord_of_continuesWord (List.mem_takeWhile_imp hd)
      rw [← List.dropWhile_append_of_pos hinside, List.takeWhile_append_dropWhile]
    have hopens := opensWord_of_startsWord hstart
    rw [hrest] at ih
    refine ⟨.word hopens (fun hkeyword => ?_) ih.2, ?_⟩
    · have hsame := (takeWhile_of_keyword hkeyword).2
      rw [hsame] at hkeyword
      exact hword hkeyword
    · rw [List.dropWhile_cons_of_pos (by simp [extendsWord, hopens])]
      exact ih.2
  | @quoted opening body rest hopen hbody hrest _ ih =>
    have hall : Idles rules (opening :: (body ++ closing opening :: rest)) := by
      have hcons := ih.1.cons (.quoted hopen hbody) (idle_quoted hopen body) fun d hd => by
        simpa [Lexeme.endsAt] using fun heq : d = closing opening => hrest (heq ▸ hd)
      rwa [Lexeme.text, List.cons_append, List.append_assoc] at hcons
    refine ⟨hall, ?_⟩
    rw [List.dropWhile_cons_of_neg (by simp [extendsWord_of_opensQuote hopen])]
    exact hall

end DdlBridge.Statement
