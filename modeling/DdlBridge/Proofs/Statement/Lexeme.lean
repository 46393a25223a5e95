import DdlBridge.Proofs.Statement.TerminatorLine
import DdlBridge.Proofs.Statement.Word
import DdlBridge.Proofs.Text.Ascii

/-!
# Lexemes

A script outside unfinished regions is a sequence of lexemes. A scanner decides about a word, a
quote or a `-` only at the character behind it, so its state between two lexemes is taken once it
has decided (`settle`). Then every lexeme has one effect on it (`take`).
-/

namespace DdlBridge.Statement

open Scanner Text

/-! ### Texts -/

/-- Feeds a text; the flag says whether a statement ends within it. -/
def feedText (s : Scanner) (cs : List Char) : Scanner × Bool := (encode cs).foldl feedByte (s, false)

theorem foldl_feedByte_flag (bytes : List UInt8) (s : Scanner) (cut : Bool) :
    bytes.foldl feedByte (s, cut) =
      ((bytes.foldl feedByte (s, false)).1, cut || (bytes.foldl feedByte (s, false)).2) := by
  induction bytes generalizing s cut with
  | nil => rw [List.foldl_nil, List.foldl_nil, Bool.or_false]
  | cons b bytes ih =>
    rw [List.foldl_cons, List.foldl_cons, ih, ih (feedByte (s, false) b).1 (feedByte (s, false) b).2]
    simp only [feedByte, Bool.false_or, Bool.or_assoc]

theorem feedText_nil (s : Scanner) : feedText s [] = (s, false) := rfl

theorem feedText_cons (s : Scanner) (c : Char) (cs : List Char) :
    feedText s (c :: cs) = ((feedText (feedChar s c).1 cs).1,
      (feedChar s c).2 || (feedText (feedChar s c).1 cs).2) := by
  rw [feedText, encode_cons, List.foldl_append, foldl_feedByte_flag]
  rfl

theorem feedText_append (s : Scanner) (cs cs' : List Char) :
    feedText s (cs ++ cs') = ((feedText (feedText s cs).1 cs').1,
      (feedText s cs).2 || (feedText (feedText s cs).1 cs').2) := by
  rw [feedText, encode_append, List.foldl_append, foldl_feedByte_flag]
  rfl

theorem feedText_cons_of_uncut {s t : Scanner} {c : Char} (h : feedChar s c = (t, false))
    (cs : List Char) : feedText s (c :: cs) = feedText t cs := by
  rw [feedText_cons, h, Bool.false_or]

theorem feedText_singleton (s : Scanner) (c : Char) : feedText s [c] = feedChar s c := by
  rw [feedText_cons, feedText_nil, Bool.or_false]

/-! ### Lexemes -/

/-- A character that a word starts with. -/
def opensWord (c : Char) : Bool := c.isAlphanum || c == '_' || 128 ≤ c.toNat

/-- A character that goes on with a word. -/
def extendsWord (c : Char) : Bool := opensWord c || c == '$' || c == '#'

def opensQuote (rules : LexicalRules) (c : Char) : Bool :=
  c == '\x27' || c == '\x22' || (rules.backtickQuotes && c == '\x60') ||
    (rules.bracketQuotes && c == '[')

/-- What closes a quote. -/
def closing (opening : Char) : Char := if opening = '[' then ']' else opening

/-- Whether a backslash in a quote takes the next character with it. -/
def escapesIn (rules : LexicalRules) (quote : Char) : Bool :=
  rules.backslashEscapes && (quote == '\x27' || quote == '\x22')

/-- The text between a quote and the `quote` that closes it. -/
inductive Enclosed (rules : LexicalRules) (quote : Char) : List Char → Prop where
  | nil : Enclosed rules quote []
  | char {c : Char} {cs : List Char} (hquote : c ≠ quote)
      (hescape : ¬ (c = '\\' ∧ escapesIn rules quote = true)) (h : Enclosed rules quote cs) :
      Enclosed rules quote (c :: cs)
  | doubled {cs : List Char} (h : Enclosed rules quote cs) : Enclosed rules quote (quote :: quote :: cs)
  | escaped {c : Char} {cs : List Char} (hquote : '\\' ≠ quote)
      (hescape : escapesIn rules quote = true) (h : Enclosed rules quote cs) :
      Enclosed rules quote ('\\' :: c :: cs)

inductive Lexeme where
  | blank (c : Char)
  | word (cs : List Char)
  | punct (c : Char)
  | quoted (opening : Char) (body : List Char)
  /-- `$tag$body$tag$` -/
  | dollar (tag body : List Char)
  /-- A comment up to but excluding the line end; `mark` opens it. -/
  | lineComment (mark body : List Char)
  | blockComment (body : List Char)
  deriving DecidableEq

namespace Lexeme

def text : Lexeme → List Char
  | blank c => [c]
  | word cs => cs
  | punct c => [c]
  | quoted opening body => opening :: (body ++ [closing opening])
  | dollar tag body => '$' :: (tag ++ '$' :: (body ++ '$' :: (tag ++ ['$'])))
  | lineComment mark body => mark ++ body
  | blockComment body => '/' :: '*' :: (body ++ ['*', '/'])

/-- White space and comments. -/
def isGap : Lexeme → Bool
  | blank _ | lineComment _ _ | blockComment _ => true
  | _ => false

/-- A word in upper case; empty for what is no word. -/
def keyword : Lexeme → String
  | word cs => String.ofList (upper cs)
  | _ => ""

theorem keyword_create : (word "CREATE".toList).keyword = "CREATE" := by decide

theorem keyword_begin : (word "BEGIN".toList).keyword = "BEGIN" := by decide

theorem keyword_end : (word "END".toList).keyword = "END" := by decide

/-- Whether a character may be punctuation. -/
def isPunct (rules : LexicalRules) (c : Char) : Bool :=
  !opensWord c && !plainBlanks.contains c && !opensQuote rules c && !(rules.hashComments && c == '#')

/-- Whether a character may stand in the tag of a dollar-quoted literal. -/
def inTag (c : Char) : Bool := c.isAlpha || c == '_' || c.isDigit

/-- The lexeme is one under the rules. -/
inductive Formed (rules : LexicalRules) : Lexeme → Prop where
  | blank {c : Char} (h : c ∈ plainBlanks) : Formed rules (blank c)
  | word {c : Char} {cs : List Char} (hfirst : opensWord c = true)
      (hrest : ∀ d ∈ cs, extendsWord d = true) : Formed rules (word (c :: cs))
  | punct {c : Char} (h : isPunct rules c = true) : Formed rules (punct c)
  | quoted {opening : Char} {body : List Char} (h : opensQuote rules opening = true)
      (hbody : Enclosed rules (closing opening) body) : Formed rules (quoted opening body)
  | dollar {tag body : List Char} (h : rules.dollarQuotes = true) (htag : ∀ c ∈ tag, inTag c = true)
      (hfirst : ∀ c ∈ tag.head?, c.isDigit = false)
      (hbody : ¬ '$' :: (tag ++ ['$']) <:+: body ++ '$' :: tag) : Formed rules (dollar tag body)
  | lineComment {mark body : List Char}
      (hmark : mark = ['-', '-'] ∨ (rules.hashComments = true ∧ mark = ['#']))
      (hbody : '\n' ∉ body) : Formed rules (lineComment mark body)
  | blockComment {body : List Char}
      (hbody : breakOn ['*', '/'] (body ++ ['*', '/']) = some (body, [])) :
      Formed rules (blockComment body)

/-- Whether `c` behind the lexeme is none of it. -/
def endsAt (rules : LexicalRules) : Lexeme → Char → Bool
  | word _, c => !extendsWord c
  | punct '-', c => c != '-'
  | punct '/', c => c != '*'
  | punct '$', c => !rules.dollarQuotes || !(c == '$' || c.isAlpha || c == '_')
  | quoted opening _, c => c != closing opening
  | lineComment _ _, c => c == '\n'
  | _, _ => true

end Lexeme

/-- Lexemes that are read as such when they stand in a row. -/
inductive Script (rules : LexicalRules) : List Lexeme → Prop where
  | nil : Script rules []
  | cons {l : Lexeme} {ls : List Lexeme} (hl : l.Formed rules)
      (hnext : ∀ c ∈ (ls.flatMap Lexeme.text).head?, l.endsAt rules c = true) (h : Script rules ls) :
      Script rules (l :: ls)

/-- The text of lexemes. -/
def textOf (ls : List Lexeme) : List Char := ls.flatMap Lexeme.text

/-- Words with a blank before each. -/
def spaced (ws : List String) : List Lexeme := ws.flatMap fun w => [.blank ' ', .word w.toList]

/-- Whether a lexeme that opens no region is one under the rules. -/
def Lexeme.isFormed (rules : LexicalRules) : Lexeme → Bool
  | blank c => plainBlanks.contains c
  | word [] => false
  | word (c :: cs) => opensWord c && cs.all extendsWord
  | punct c => isPunct rules c
  | _ => false

/-- Whether lexemes that open no region are read as such. -/
def isScript (rules : LexicalRules) : List Lexeme → Bool
  | [] => true
  | l :: ls => l.isFormed rules && (textOf ls).head?.all (l.endsAt rules) && isScript rules ls

theorem Lexeme.formed_of_isFormed {rules : LexicalRules} {l : Lexeme} (h : l.isFormed rules = true) :
    l.Formed rules := by
  cases l with
  | blank c => exact .blank (List.contains_iff_mem.1 h)
  | word cs =>
    cases cs with
    | nil => exact absurd h Bool.false_ne_true
    | cons c cs =>
      have hword : (opensWord c && cs.all extendsWord) = true := h
      simp only [Bool.and_eq_true, List.all_eq_true] at hword
      exact .word hword.1 hword.2
  | punct c => exact .punct h
  | quoted | dollar | lineComment | blockComment => exact absurd h Bool.false_ne_true

theorem script_of_isScript {rules : LexicalRules} {ls : List Lexeme} (h : isScript rules ls = true) :
    Script rules ls := by
  induction ls with
  | nil => exact .nil
  | cons l ls ih =>
    simp only [isScript, Bool.and_eq_true] at h
    refine .cons (Lexeme.formed_of_isFormed h.1.1) (fun c hc => ?_) (ih h.2)
    have hall := h.1.2
    rw [textOf, Option.mem_def.1 hc] at hall
    exact hall

/-! ### Decisions -/

/-- The scanner once it has decided about what it has read. -/
def settle (s : Scanner) : Scanner :=
  match s.region with
  | .normal => s.endWord
  | .dash => { s with content := true, previous := .punct '-', region := .normal }
  | .slash => { s with content := true, previous := .punct '/', region := .normal }
  | .quoteEnd _ | .dollarTag _ | .lineComment => { s with region := .normal }
  | _ => s

/-- Whether the scanner decides at `c`. -/
def decides (s : Scanner) (c : Char) : Prop :=
  match s.region with
  | .normal => s.word = [] ∨ extendsWord c = false
  | .dash => c ≠ '-'
  | .slash => c ≠ '*'
  | .quoteEnd quote => c ≠ quote ∧ quote.toNat < 128
  | .dollarTag tag => ¬ (c = '$' ∨ c.isAlpha ∨ c = '_' ∨ (c.isDigit ∧ tag ≠ []))
  | .lineComment => c = '\n'
  | _ => False

theorem isWordByte_of_nil {s : Scanner} (h : s.word = []) (c : Char) :
    s.isWordByte c = opensWord c := by
  simp only [isWordByte, opensWord, h, List.isEmpty_nil, Bool.not_true, Bool.false_and,
    Bool.or_false]

theorem isWordByte_eq_false {s : Scanner} {c : Char} (h : extendsWord c = false) :
    s.isWordByte c = false := by
  simp only [extendsWord, opensWord, Bool.or_eq_false_iff] at h
  simp only [isWordByte, h.1.1.1.1, h.1.1.1.2, h.1.1.2, h.1.2, h.2, Bool.or_false, Bool.and_false]

theorem endWord_of_nil {s : Scanner} (h : s.word = []) : s.endWord = s := by
  unfold endWord
  exact if_pos (List.isEmpty_iff.2 h)

theorem step_settle {s : Scanner} (hsound : s.Sound) {c : Char} (h : decides s c) :
    s.step c = (settle s).step c := by
  have hnormal : ∀ t : Scanner, t.region = .normal → t.step c = t.stepNormal c := by
    intro t ht
    simp only [step, ht]
  unfold decides at h
  unfold settle
  cases hregion : s.region with
  | normal =>
    simp only [hregion] at h
    dsimp only
    rw [hnormal s hregion, hnormal s.endWord ((region_endWord s).trans hregion)]
    rcases h with hword | hc
    · rw [endWord_of_nil hword]
    · rw [stepNormal, if_neg (by rw [isWordByte_eq_false hc]; simp), stepNormal,
        if_neg (by rw [isWordByte_eq_false hc]; simp), endWord_of_nil (word_endWord s)]
  | dash =>
    simp only [hregion] at h
    simp only [step, hregion]
    rw [if_neg h]
  | slash =>
    simp only [hregion] at h
    simp only [step, hregion]
    rw [if_neg h]
  | quoteEnd quote =>
    simp only [hregion] at h
    simp only [step, hregion]
    rw [if_neg h.1]
  | dollarTag tag =>
    simp only [hregion, not_or] at h
    simp only [step, hregion]
    rw [if_neg h.1, if_neg (by simpa only [not_or] using h.2)]
  | lineComment =>
    simp only [hregion] at h
    subst h
    have hword : s.word = [] := hsound.word (by rw [hregion]; simp)
    have hbare : ({ s with region := .normal } : Scanner).endWord = { s with region := .normal } :=
      endWord_of_nil hword
    have hline : s.step '\n' = ({ s with region := .normal } : Scanner).endLine := by
      simp only [step, hregion, if_true]
    dsimp only
    rw [hline, hnormal { s with region := .normal } rfl, stepNormal,
      if_neg (by rw [isWordByte_eq_false (by decide)]; simp), hbare]
    rfl
  | blockComment | blockCommentStar | quote | escape | dollar => simp only [hregion] at h

theorem extendsWord_of_le {c : Char} (h : 128 ≤ c.toNat) : extendsWord c = true := by
  simp only [extendsWord, opensWord, h, decide_true, Bool.or_true, Bool.true_or]

/-- Where it decides at a character above ASCII, it decides at each of its bytes. -/
theorem decides_of_le {s : Scanner} {c ch : Char} (h : decides s c) (hc : 128 ≤ c.toNat)
    (hch : 128 ≤ ch.toNat) : decides s ch := by
  unfold decides at h ⊢
  cases hregion : s.region <;> simp only [hregion] at h ⊢
  case normal =>
    refine .inl (h.resolve_right ?_)
    rw [extendsWord_of_le hc]
    simp
  case dash => exact ne_of_le_toNat hch (by decide)
  case slash => exact ne_of_le_toNat hch (by decide)
  case quoteEnd quote => exact ⟨ne_of_le_toNat hch h.2, h.2⟩
  case dollarTag tag =>
    rw [isAlpha_eq_false hch, isDigit_eq_false hch]
    have hdollar : ch ≠ '$' := ne_of_le_toNat hch (by decide)
    have hunder : ch ≠ '_' := ne_of_le_toNat hch (by decide)
    simp [hdollar, hunder]
  case lineComment => exact absurd h (ne_of_le_toNat hc (by decide))

theorem feedChar_settle {s : Scanner} (hsound : s.Sound) {c : Char} (h : decides s c) :
    feedChar s c = feedChar (settle s) c := by
  rcases Nat.lt_or_ge c.toNat 128 with hc | hc
  · rw [feedChar_of_lt s hc, feedChar_of_lt _ hc, step_settle hsound h]
  · unfold feedChar
    cases hencode : String.utf8EncodeChar c with
    | nil => exact absurd hencode String.utf8EncodeChar_ne_nil
    | cons b bytes =>
      have hb : 128 ≤ b.toNat := le_of_mem_utf8EncodeChar hc (by rw [hencode]; exact List.mem_cons_self)
      have hch : decides s (Char.ofNat b.toNat) :=
        decides_of_le h hc (le_toNat_ofNat_byte hb)
      have hfirst : feedByte (s, false) b = feedByte (settle s, false) b := by
        simp only [feedByte, Scanner.feed, step_settle hsound hch]
      rw [List.foldl_cons, List.foldl_cons, hfirst]

/-! ### One lexeme -/

/-- A scanner between two lexemes. -/
structure Settled (s : Scanner) : Prop where
  region : s.region = .normal
  word : s.word = []

theorem settled_fresh (rules : LexicalRules) : Settled (fresh rules) := ⟨rfl, rfl⟩

theorem Settled.sound {s : Scanner} (h : Settled s) : s.Sound := .of_normal h.region

theorem Settled.settle {s : Scanner} (h : Settled s) : settle s = s := by
  unfold DdlBridge.Statement.settle
  rw [h.region]
  exact endWord_of_nil h.word

theorem Settled.decides {s : Scanner} (h : Settled s) (c : Char) : decides s c := by
  unfold DdlBridge.Statement.decides
  rw [h.region]
  exact .inl h.word

/-- What a lexeme does to a settled scanner. -/
def take (s : Scanner) (l : Lexeme) : Scanner × Bool :=
  match l with
  | .blank c => if c = '\n' then s.endLine else (s, false)
  | .word cs => ((pushWord s (cs.flatMap wordBytes)).endWord, false)
  | .punct c =>
    if c = ';' then (s.takePunct ';').terminator
    else ({ s.takePunct c with
      parens := if c = '(' then s.parens + 1 else if c = ')' then s.parens - 1 else s.parens
      previous := if c = '$' ∧ s.rules.dollarQuotes then .quoted else .punct c }, false)
  | .quoted _ _ | .dollar _ _ =>
    ({ s with
      content := true, previous := .quoted, lineQuoted := true
      line := (feedText s l.text).1.line }, false)
  | .lineComment _ _ => (s, false)
  | .blockComment body => (if '\n' ∈ body then s.resetLine false else s, false)

/-- The text of a lexeme is read as that lexeme. -/
structure ReadsAs (s : Scanner) (l : Lexeme) : Prop where
  scanner : settle (feedText s l.text).1 = (take s l).1
  cut : (feedText s l.text).2 = (take s l).2
  decides : ∀ c, l.endsAt s.rules c = true → decides (feedText s l.text).1 c

variable {rules : LexicalRules} {s : Scanner}

theorem Settled.stepNormal (hs : Settled s) {c : Char} (hc : opensWord c = false) :
    feedChar s c = s.stepSymbol c := by
  have hlt : c.toNat < 128 := by
    simp only [opensWord, Bool.or_eq_false_iff, decide_eq_false_iff_not] at hc
    omega
  have hword : s.isWordByte c = false := by rw [isWordByte_of_nil hs.word, hc]
  simp only [feedChar_of_lt s hlt, step, hs.region]
  rw [Scanner.stepNormal, hword, endWord_of_nil hs.word]
  rfl

theorem Settled.endLine (hs : Settled s) : Settled s.endLine.1 := by
  unfold Scanner.endLine
  split
  · exact ⟨hs.region, hs.word⟩
  · exact ⟨hs.region, hs.word⟩

theorem Settled.terminator (hs : Settled s) : Settled s.terminator.1 := by
  unfold Scanner.terminator
  split
  · exact ⟨hs.region, hs.word⟩
  · exact ⟨hs.region, hs.word⟩

/-- A single character whose effect leaves the scanner settled. -/
theorem ReadsAs.of_settled {l : Lexeme} {c : Char} (htext : l.text = [c])
    (hfeed : feedChar s c = take s l) (hsettled : Settled (take s l).1) : ReadsAs s l := by
  have hread : feedText s l.text = take s l := by rw [htext, feedText_singleton, hfeed]
  refine ⟨?_, ?_, fun d _ => ?_⟩
  · rw [hread, hsettled.settle]
  · rw [hread]
  · rw [hread]
    exact hsettled.decides d

theorem reads_blank (hs : Settled s) {c : Char} (hc : c ∈ plainBlanks) : ReadsAs s (.blank c) := by
  simp only [plainBlanks, List.mem_cons, List.not_mem_nil, or_false] at hc
  rcases hc with rfl | rfl | rfl | rfl | rfl
  case inr.inr.inl =>
    exact .of_settled rfl (hs.stepNormal (by decide)) hs.endLine
  all_goals exact .of_settled rfl (hs.stepNormal (by decide)) hs

theorem isWordByte_of_extends (hword : s.word ≠ []) {c : Char} (hc : extendsWord c = true) :
    s.isWordByte c = true := by
  have hnot : s.word.isEmpty = false := by
    cases hcase : s.word with
    | nil => exact absurd hcase hword
    | cons => rfl
  simp only [extendsWord, opensWord, Bool.or_eq_true, or_assoc] at hc
  simp only [isWordByte, hnot, Bool.not_false, Bool.true_and, Bool.or_eq_true, or_assoc]
  exact hc

theorem wordBytes_ne_nil (c : Char) : wordBytes c ≠ [] := by
  rw [← List.length_pos_iff, length_wordBytes]
  exact c.utf8Size_pos

theorem pushWord_nil (s : Scanner) : pushWord s [] = s := by
  simp [pushWord]

theorem feedText_extends {cs : List Char} (hregion : s.region = .normal) (hword : s.word ≠ [])
    (hcs : ∀ c ∈ cs, extendsWord c = true) :
    feedText s cs = (pushWord s (cs.flatMap wordBytes), false) := by
  induction cs generalizing s with
  | nil => rw [List.flatMap_nil, pushWord_nil, feedText_nil]
  | cons c cs ih =>
    have hfirst := feedChar_word hregion
      (.inr (isWordByte_of_extends hword (hcs c List.mem_cons_self)))
    have hne : (pushWord s (wordBytes c)).word ≠ [] := by simp [pushWord, hword]
    rw [feedText_cons_of_uncut hfirst,
      ih (s := pushWord s (wordBytes c)) hregion hne fun d hd => hcs d (List.mem_cons_of_mem _ hd),
      pushWord_append, List.flatMap_cons]

theorem feedText_word (hs : Settled s) {c : Char} {cs : List Char} (hfirst : opensWord c = true)
    (hrest : ∀ d ∈ cs, extendsWord d = true) :
    feedText s (c :: cs) = (pushWord s ((c :: cs).flatMap wordBytes), false) := by
  have hfeed := feedChar_word hs.region
    (.inr ((isWordByte_of_nil hs.word c).trans hfirst))
  have hne : (pushWord s (wordBytes c)).word ≠ [] := by
    simp [pushWord, wordBytes_ne_nil]
  rw [feedText_cons_of_uncut hfeed,
    feedText_extends (s := pushWord s (wordBytes c)) hs.region hne hrest, pushWord_append,
    List.flatMap_cons]

theorem reads_word (hs : Settled s) {c : Char} {cs : List Char} (hfirst : opensWord c = true)
    (hrest : ∀ d ∈ cs, extendsWord d = true) : ReadsAs s (.word (c :: cs)) := by
  have hread := feedText_word hs hfirst hrest
  refine ⟨?_, ?_, fun d hd => ?_⟩
  · rw [Lexeme.text, hread, settle]
    have hregion : (pushWord s ((c :: cs).flatMap wordBytes)).region = .normal := hs.region
    simp only [hregion]
    rfl
  · rw [Lexeme.text, hread]
    rfl
  · rw [Lexeme.text, hread]
    have hregion : (pushWord s ((c :: cs).flatMap wordBytes)).region = .normal := hs.region
    simp only [decides, hregion]
    exact .inr (by simpa [Lexeme.endsAt] using hd)

/-- What punctuation other than `;` does, with the region and the word of a settled scanner. -/
theorem take_punct (hs : Settled s) {c : Char} (hc : c ≠ ';') : take s (.punct c) =
    ({ s with
      region := .normal, word := [], content := true, line := c :: s.line
      parens := if c = '(' then s.parens + 1 else if c = ')' then s.parens - 1 else s.parens
      previous := if c = '$' ∧ s.rules.dollarQuotes then .quoted else .punct c }, false) := by
  simp only [take, if_neg hc, takePunct, pushLine, ← hs.region, ← hs.word]

theorem Settled.take_punct (hs : Settled s) (c : Char) : Settled (take s (.punct c)).1 := by
  by_cases hc : c = ';'
  · subst hc
    have hmid : Settled (s.takePunct ';') := ⟨hs.region, hs.word⟩
    exact hmid.terminator
  · rw [DdlBridge.Statement.take_punct hs hc]
    exact ⟨rfl, rfl⟩

theorem reads_punct (hs : Settled s) {c : Char} (hc : Lexeme.isPunct s.rules c = true) :
    ReadsAs s (.punct c) := by
  simp only [Lexeme.isPunct, Bool.and_eq_true, Bool.not_eq_true'] at hc
  obtain ⟨⟨⟨hword, hblank⟩, hquote⟩, hhash⟩ := hc
  have hfeed := hs.stepNormal hword
  by_cases hdash : c = '-'
  · subst hdash
    refine ⟨?_, ?_, fun d hd => ?_⟩
    · rw [Lexeme.text, feedText_singleton, hfeed, take_punct hs (by decide)]
      simp [stepSymbol, settle, pushLine, hs.word]
    · rw [Lexeme.text, feedText_singleton, hfeed]
      rfl
    · rw [Lexeme.text, feedText_singleton, hfeed]
      simpa [stepSymbol, decides, Lexeme.endsAt] using hd
  by_cases hslash : c = '/'
  · subst hslash
    refine ⟨?_, ?_, fun d hd => ?_⟩
    · rw [Lexeme.text, feedText_singleton, hfeed, take_punct hs (by decide)]
      simp [stepSymbol, settle, pushLine, hs.word]
    · rw [Lexeme.text, feedText_singleton, hfeed]
      rfl
    · rw [Lexeme.text, feedText_singleton, hfeed]
      simpa [stepSymbol, decides, Lexeme.endsAt] using hd
  by_cases hdollar : c = '$' ∧ s.rules.dollarQuotes = true
  · obtain ⟨rfl, hrules⟩ := hdollar
    refine ⟨?_, ?_, fun d hd => ?_⟩
    · rw [Lexeme.text, feedText_singleton, hfeed, take_punct hs (by decide)]
      simp [stepSymbol, settle, pushLine, hs.word, hrules]
    · rw [Lexeme.text, feedText_singleton, hfeed, take_punct hs (by decide)]
      simp [stepSymbol, hrules]
    · rw [Lexeme.text, feedText_singleton, hfeed]
      simpa [stepSymbol, decides, Lexeme.endsAt, hrules, and_assoc] using hd
  refine .of_settled rfl (hfeed.trans ?_) (hs.take_punct c)
  by_cases hsemicolon : c = ';'
  · subst hsemicolon
    rfl
  rw [take_punct hs hsemicolon]
  simp only [plainBlanks, List.contains_eq_mem, List.mem_cons, List.not_mem_nil, or_false,
    decide_eq_false_iff_not, not_or] at hblank
  simp only [opensQuote, Bool.or_eq_false_iff, beq_eq_false_iff_ne, ne_eq] at hquote
  unfold stepSymbol
  split
  all_goals simp_all [takePunct, pushLine, hs.region, hs.word]

end DdlBridge.Statement
