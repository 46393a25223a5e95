import DdlBridge.Proofs.Statement.Taken
import DdlBridge.Proofs.Token.Segment

/-!
# Lexical regions

Scanners and the lexer look for quotes and comments on their own. A scanner goes byte by byte and
decides about a quote, a `-` or a `/` at the byte behind it; the lexer looks ahead, and an opener
that nothing closes is punctuation to it. Where the dialect has only quotes that are doubled inside,
both see the same regions: in front of every segment of the lexer the scanner is outside
(`Outside.segment`).
-/

namespace DdlBridge.Statement

open Scanner Text Lexer

/-- No dollar quotes, no `#` comments and no escapes. -/
structure Plain (rules : LexicalRules) : Prop where
  dollar : rules.dollarQuotes = false
  hash : rules.hashComments = false
  escapes : rules.backslashEscapes = false

/-- Every carriage return belongs to a line end. -/
def LineEnds (cs : List Char) : Prop := ∀ rest, '\r' :: rest <:+ cs → rest.head? = some '\n'

theorem LineEnds.of_suffix {cs rest : List Char} (h : LineEnds cs) (hrest : rest <:+ cs) :
    LineEnds rest := fun more hmore => h more (hmore.trans hrest)

/-- A character that opens no region under any rules. -/
def inert (rules : LexicalRules) (c : Char) : Bool := c != '-' && c != '/' && !opensQuote rules c

variable {rules : LexicalRules} {s : Scanner}

theorem inert_of {p : Char → Bool} (hp : ∀ c ∈ ['-', '/', '\x27', '\x22', '\x60', '['], p c = false)
    {c : Char} (h : p c = true) : inert rules c = true := by
  have hne : ∀ d ∈ ['-', '/', '\x27', '\x22', '\x60', '['], c ≠ d := by
    rintro d hd rfl
    rw [hp c hd] at h
    exact absurd h (by simp)
  simp only [List.mem_cons, List.not_mem_nil, or_false, forall_eq_or_imp, forall_eq] at hne
  obtain ⟨hdash, hslash, hquote, hdouble, hback, hbracket⟩ := hne
  simp [inert, opensQuote, hdash, hslash, hquote, hdouble, hback, hbracket]

theorem inert_of_continuesWord {c : Char} (h : continuesWord c = true) : inert rules c = true :=
  inert_of (by decide) h

theorem inert_of_startsWord {c : Char} (h : startsWord c = true) : inert rules c = true :=
  inert_of (by decide) h

theorem inert_of_isDigit {c : Char} (h : c.isDigit = true) : inert rules c = true :=
  inert_of (by decide) h

/-- The characters of a number. -/
theorem inert_of_digit {c : Char} (h : c.isDigit = true ∨ c = '.') : inert rules c = true := by
  rcases h with h | rfl
  · exact inert_of_isDigit h
  · exact inert_of (p := fun c => c == '.') (by decide) rfl

theorem inert_of_isBlank {c : Char} (h : isBlank c = true) : inert rules c = true :=
  inert_of (by decide) h

/-! ### What the lexer finds -/

theorem takeLine?_of_lineEnds {cs : List Char} (h : LineEnds cs) : ∃ line rest,
    takeLine? cs = some (line, rest) ∧ '\n' ∉ line ∧ ∀ c ∈ rest.head?, c = '\n' ∨ c = '\r' := by
  fun_induction takeLine? cs with
  | case1 => exact ⟨[], [], rfl, by simp, by simp⟩
  | case2 cs => exact ⟨[], '\n' :: cs, rfl, by simp, by simp⟩
  | case3 cs => exact ⟨[], '\r' :: '\n' :: cs, rfl, by simp, by simp⟩
  | case4 cs _ hnot =>
    have hnext := h cs List.suffix_rfl
    cases cs with
    | nil => exact absurd hnext (by simp)
    | cons d cs => exact absurd (by rw [Option.some.inj hnext]) (hnot cs rfl)
  | case5 c cs hnewline _ hreturn ih =>
    obtain ⟨line, rest, htake, hline, hrest⟩ := ih (h.of_suffix (List.suffix_cons c cs))
    have hc : c ≠ '\n' := hnewline
    refine ⟨c :: line, rest, by rw [htake]; rfl, ?_, hrest⟩
    simp [hline, hc.symm]

/-- Two dashes start a comment. -/
theorem head?_ne_dash {hash : Bool} {cs : List Char} (hends : LineEnds ('-' :: cs))
    (h : takeComment? hash ('-' :: cs) = none) : cs.head? ≠ some '-' := by
  intro hhead
  obtain ⟨more, rfl⟩ := List.head?_eq_some_iff.1 hhead
  obtain ⟨line, after, hline, -⟩ := takeLine?_of_lineEnds (hends.of_suffix ⟨['-', '-'], rfl⟩)
  rw [takeComment?, hline] at h
  exact absurd h (by simp [Taken.behind])

theorem escapesIn_eq_false (hplain : Plain rules) (quote : Char) : escapesIn rules quote = false := by
  rw [escapesIn, hplain.escapes, Bool.false_and]

/-- Without escapes the lexer reads on to the quote at which the scanner stops. -/
theorem readsUpTo_of_plain (hplain : Plain rules) {c : Char} (hopen : opensQuote rules c = true)
    (cs : List Char) :
    ReadsUpTo rules (closing c) cs (takeQuoted? (closing c) (lexerEscapes rules c) cs) := by
  have hescapes : lexerEscapes rules c = escapesIn rules (closing c) := by
    simp [escapesIn, lexerEscapes, hplain.escapes]
  rw [hescapes]
  exact readsUpTo_takeQuoted rules (closing_ne_backslash hopen) cs

/-- What the token at the front of `c :: cs` is. -/
inductive TokenCase (rules : LexicalRules) (c : Char) (cs : List Char) :
    TokenKind × List Char × List Char → Prop where
  | quoted {kind : TokenKind} {body rest : List Char} (hopen : opensQuote rules c = true)
      (hkind : kind ≠ .punct) (hbody : Enclosed rules (closing c) body)
      (hrest : rest.head? ≠ some (closing c)) :
      TokenCase rules c cs (kind, c :: (body ++ [closing c]), rest)
  | inert {kind : TokenKind} {text rest : List Char} (hkind : kind = .number ∨ kind = .word)
      (htext : ∀ d ∈ text, inert rules d = true) : TokenCase rules c cs (kind, text, rest)
  | punct (hbody : opensQuote rules c = true → Enclosed rules (closing c) cs) :
      TokenCase rules c cs (.punct, [c], cs)

theorem tokenCase (hplain : Plain rules) (c : Char) (cs : List Char) :
    TokenCase rules c cs (takeToken rules c cs) := by
  have hread := read rules c cs
  generalize takeToken rules c cs = taken at hread
  cases hread with
  | dollar hrules =>
    rw [hplain.dollar] at hrules
    contradiction
  | quoted hopen hkind htake =>
    have hreads := readsUpTo_of_plain hplain hopen cs
    rw [htake] at hreads
    obtain ⟨body, rfl, hbody, hrest⟩ := hreads
    refine .quoted hopen ?_ hbody hrest
    rcases hkind with rfl | rfl <;> simp
  | number htake =>
    exact .inert (.inl rfl) fun d hd => inert_of_digit (digit_of_takeNumber? htake d hd)
  | word hstart =>
    refine .inert (.inr rfl) (List.forall_mem_cons.2 ⟨inert_of_startsWord hstart, fun d hd => ?_⟩)
    exact inert_of_continuesWord (List.mem_takeWhile_imp hd)
  | punct _ hquote =>
    refine .punct fun hopen => ?_
    have hreads := readsUpTo_of_plain hplain hopen cs
    rw [hquote hopen] at hreads
    obtain ⟨body, hbody, rfl | ⟨-, hon⟩⟩ := hreads
    · exact hbody
    · rw [escapesIn_eq_false hplain] at hon
      contradiction

/-! ### The scanner outside every region -/

theorem region_of_inert (hplain : Plain s.rules) (hregion : s.region = .normal) {c : Char}
    (hc : inert s.rules c = true) : (feedChar s c).1.region = .normal := by
  rcases Nat.lt_or_ge c.toNat 128 with hlt | hge
  case inr =>
    rw [feedChar_word hregion (.inl hge)]
    exact hregion
  rw [feedChar_of_lt s hlt]
  simp only [step, hregion]
  unfold stepNormal
  split
  case isTrue => exact hregion
  case isFalse =>
    have hbare : s.endWord.region = .normal := (region_endWord s).trans hregion
    simp only [inert, opensQuote, Bool.and_eq_true, bne_iff_ne, ne_eq, Bool.not_eq_true',
      Bool.or_eq_false_iff, beq_eq_false_iff_ne] at hc
    unfold stepSymbol
    split
    case h_1 => exact (region_endLine _).trans hbare
    case h_6 => exact (region_terminator _).trans hbare
    all_goals simp_all [takePunct, pushLine, hplain.hash, hplain.dollar]

theorem feedText_inert (hsound : s.Sound) (hplain : Plain s.rules) (hregion : s.region = .normal)
    {cs : List Char} (hcs : ∀ c ∈ cs, inert s.rules c = true) :
    (feedText s cs).1.region = .normal := by
  induction cs generalizing s with
  | nil => exact hregion
  | cons c cs ih =>
    rw [List.forall_mem_cons] at hcs
    have hrules : (feedChar s c).1.rules = s.rules := rules_feedChar hsound c
    rw [feedText_cons]
    refine ih (sound_feedChar hsound c) (hrules.symm ▸ hplain)
      (region_of_inert hplain hregion hcs.1) fun d hd => ?_
    rw [hrules]
    exact hcs.2 d hd

/-- The scanner has left every region in front of a text, or it leaves it at the first character. -/
structure Outside (s : Scanner) (cs : List Char) : Prop where
  settled : (settle s).region = .normal
  next : ∀ c ∈ cs.head?,
    s.region = .normal ∨ decides s c ∨ (s.region = .lineComment ∧ c = '\r')

theorem Outside.of_normal (h : s.region = .normal) (cs : List Char) : Outside s cs := by
  refine ⟨?_, fun c _ => .inl h⟩
  unfold settle
  rw [h]
  exact (region_endWord s).trans h

theorem Outside.unfinished? {cs : List Char} (h : Outside s cs) : s.unfinished? = none := by
  have hsettled := h.settled
  unfold settle at hsettled
  unfold Scanner.unfinished?
  cases hregion : s.region <;> simp_all only [reduceCtorEq]

/-- At the next character the scanner is outside already. -/
theorem Outside.cons {c : Char} {cs : List Char} (h : Outside s (c :: cs)) (hsound : s.Sound)
    (hc : s.region = .lineComment → c ≠ '\r') : ∃ t : Scanner, t.Sound ∧ t.region = .normal ∧
      t.rules = s.rules ∧ (extendsWord c = false → Settled t) ∧ feedChar s c = feedChar t c := by
  have hdecides : decides s c → ∃ t : Scanner, t.Sound ∧ t.region = .normal ∧
      t.rules = s.rules ∧ (extendsWord c = false → Settled t) ∧ feedChar s c = feedChar t c := by
    intro hd
    have hsettled := settled_settle hsound hd
    exact ⟨settle s, hsettled.sound, hsettled.region, rules_settle s, fun _ => hsettled,
      feedChar_settle hsound hd⟩
  rcases h.next c rfl with hregion | hd | ⟨hregion, hreturn⟩
  · cases hword : extendsWord c with
    | true => exact ⟨s, hsound, hregion, rfl, fun hnot => absurd hnot (by simp), rfl⟩
    | false =>
      refine hdecides ?_ |>.imp fun t ht => ?_
      · simp only [decides, hregion]
        exact .inr hword
      · rwa [hword] at ht
  · exact hdecides hd
  · exact absurd hreturn (hc hregion)

/-- A lexeme leads from outside to outside. -/
theorem Outside.lexeme {l : Lexeme} {c : Char} {cs rest : List Char} (htext : l.text = c :: cs)
    (h : Outside s (c :: (cs ++ rest))) (hsound : s.Sound) (hl : l.Formed s.rules)
    (hc : extendsWord c = false ∧ c ≠ '\r') (hrest : ∀ d ∈ rest.head?, l.endsAt s.rules d = true) :
    Outside (feedText s l.text).1 rest ∧ ∃ t, (feedText s l.text).2 = (take t l).2 := by
  obtain ⟨t, -, -, hrules, hsettled, hfeed⟩ := h.cons hsound fun _ => hc.2
  have hs := hsettled hc.1
  have hread : ReadsAs t l := reads hs (hrules.symm ▸ hl)
  have hsame : feedText s l.text = feedText t l.text := by
    rw [htext, feedText_cons, feedText_cons, hfeed]
  rw [hsame]
  refine ⟨⟨?_, fun d hd => .inr (.inl (hread.decides d (hrules.symm ▸ hrest d hd)))⟩, t, hread.cut⟩
  rw [hread.scanner]
  exact (hs.take l).region

/-! ### Regions that nothing closes -/

theorem extendsWord_of_opensQuote {c : Char} (h : opensQuote rules c = true) :
    extendsWord c = false := by
  simp only [opensQuote, Bool.or_eq_true, Bool.and_eq_true, beq_iff_eq] at h
  obtain ((rfl | rfl) | ⟨-, rfl⟩) | ⟨-, rfl⟩ := h <;> decide

theorem unfinished_of_enclosed (hs : Settled s) {opening : Char} {cs : List Char}
    (hopen : opensQuote s.rules opening = true) (hcs : Enclosed s.rules (closing opening) cs) :
    (feedText s (opening :: cs)).1.unfinished? ≠ none := by
  obtain ⟨hword, hsymbol⟩ := stepSymbol_of_opensQuote hopen
  obtain ⟨line, hinside⟩ := feedText_enclosed (s := s.enterQuote (closing opening))
    (closing_of_opensQuote hopen) hcs rfl rfl rfl
  rw [feedText_cons_of_uncut ((hs.stepNormal hword).trans hsymbol), hinside]
  simp [Scanner.unfinished?, enterQuote]

theorem breakOn_cons_eq_none_iff {needle : List Char} {c : Char} {cs : List Char} :
    breakOn needle (c :: cs) = none ↔
      needle.isPrefixOf (c :: cs) = false ∧ breakOn needle cs = none := by
  rw [breakOn]
  cases needle.isPrefixOf (c :: cs) with
  | true => simp
  | false => simp [Taken.behind]

theorem unfinished_of_breakOn (s : Scanner) (cs : List Char) :
    (breakOn ['*', '/'] cs = none →
      (feedText { s with region := .blockComment } cs).1.unfinished? ≠ none) ∧
    (breakOn ['*', '/'] ('*' :: cs) = none →
      (feedText { s with region := .blockCommentStar } cs).1.unfinished? ≠ none) := by
  induction cs generalizing s with
  | nil => exact ⟨fun _ => by simp [feedText_nil, Scanner.unfinished?],
      fun _ => by simp [feedText_nil, Scanner.unfinished?]⟩
  | cons c cs ih =>
    have hstar : ∀ {region : Region}, region = .blockComment ∨ region = .blockCommentStar →
        feedChar { s with region } '*' = ({ s with region := .blockCommentStar }, false) := by
      intro region hregion
      rw [feedChar_of_lt _ (by decide)]
      rcases hregion with rfl | rfl <;> rfl
    constructor
    · intro h
      by_cases hc : c = '*'
      · subst hc
        rw [feedText_cons_of_uncut (hstar (.inl rfl))]
        exact (ih s).2 h
      · rw [feedText_cons_of_uncut (feedChar_comment s hc)]
        exact (ih (passLines s [c])).1 (breakOn_cons_eq_none_iff.1 h).2
    · intro h
      obtain ⟨hmarker, hrest⟩ := breakOn_cons_eq_none_iff.1 h
      have hslash : c ≠ '/' := by
        rintro rfl
        exact absurd hmarker (by simp [List.isPrefixOf])
      by_cases hc : c = '*'
      · subst hc
        rw [feedText_cons_of_uncut (hstar (.inr rfl))]
        exact (ih s).2 hrest
      · rw [feedText_cons_of_uncut (feedChar_commentStar s hslash hc)]
        exact (ih (passLines s [c])).1 (breakOn_cons_eq_none_iff.1 hrest).2

theorem unfinished_of_slash (hs : Settled s) {cs : List Char} (hcs : breakOn ['*', '/'] cs = none) :
    (feedText s ('/' :: '*' :: cs)).1.unfinished? ≠ none := by
  have hfirst := hs.stepNormal (c := '/') (by decide)
  have hsecond : feedChar { s.pushLine '/' with region := .slash } '*' =
      ({ s with region := .blockComment }, false) := by
    rw [feedChar_of_lt _ (by decide)]
    rfl
  rw [feedText_cons_of_uncut hfirst, feedText_cons_of_uncut hsecond]
  exact (unfinished_of_breakOn s cs).1 hcs

/-! ### One segment -/

/-- What the first segment of `c :: cs` is to a scanner outside. -/
inductive SegmentCase (s : Scanner) (c : Char) (cs : List Char) :
    SegmentKind × List Char × List Char → Prop where
  /-- Nothing closes what `c` opens. -/
  | unmatched (hopen : opensQuote s.rules c = true ∨ (c = '/' ∧ cs.head? = some '*'))
      (hunfinished : (feedText s (c :: cs)).1.unfinished? ≠ none) :
      SegmentCase s c cs (.token .punct, [c], cs)
  | passed {kind : SegmentKind} {text rest : List Char}
      (houtside : Outside (feedText s text).1 rest)
      (hmatched : kind = .token .punct → ∃ d, text = [d] ∧ opensQuote s.rules d = false ∧
        (d = '/' → rest.head? ≠ some '*'))
      (hcut : kind ∈ [.comment, .token .string, .token .quotedIdent] →
        (feedText s text).2 = false) :
      SegmentCase s c cs (kind, text, rest)

section

variable {c : Char} {cs : List Char}

/-- Text that opens no region leads from outside to outside. -/
theorem Outside.of_inert (h : Outside s (c :: cs)) (hsound : s.Sound) (hplain : Plain s.rules)
    (hc : s.region = .lineComment → c ≠ '\r') {text : List Char}
    (htext : ∀ d ∈ c :: text, inert s.rules d = true) (rest : List Char) :
    Outside (feedText s (c :: text)).1 rest := by
  obtain ⟨t, htsound, hregion, hrules, -, hfeed⟩ := h.cons hsound hc
  have hsame : feedText s (c :: text) = feedText t (c :: text) := by
    rw [feedText_cons, feedText_cons, hfeed]
  rw [hsame]
  rw [← hrules] at hplain htext
  exact .of_normal (feedText_inert htsound hplain hregion htext) rest

/-- The carriage return of a line end goes on with a line feed, which ends the comment. -/
theorem Outside.carriageReturn (h : Outside s ('\r' :: cs)) (hregion : s.region = .lineComment)
    (hends : LineEnds ('\r' :: cs)) : Outside s cs := by
  refine ⟨h.settled, fun d hd => .inr (.inl ?_)⟩
  have hnext := hends cs List.suffix_rfl
  rw [Option.mem_def.1 hd] at hnext
  simp only [decides, hregion]
  exact Option.some.inj hnext

theorem Outside.blank (h : Outside s (c :: cs)) (hsound : s.Sound) (hplain : Plain s.rules)
    (hends : LineEnds (c :: cs)) (hc : isBlank c = true) :
    SegmentCase s c cs (.blank, [c], cs) := by
  refine .passed ?_ (fun h => absurd h (by simp)) fun h => absurd h (by simp)
  by_cases hreturn : s.region = .lineComment ∧ c = '\r'
  · obtain ⟨hregion, rfl⟩ := hreturn
    rw [feedText_singleton, feedChar_lineComment hregion (by decide)]
    exact h.carriageReturn hregion hends
  · refine h.of_inert hsound hplain (fun hregion heq => hreturn ⟨hregion, heq⟩) ?_ cs
    exact List.forall_mem_singleton.2 (inert_of_isBlank hc)

theorem Outside.lineComment {line after : List Char} (h : Outside s ('-' :: '-' :: cs))
    (hsound : s.Sound) (hends : LineEnds cs) (hline : takeLine? cs = some (line, after)) :
    SegmentCase s '-' ('-' :: cs) (.comment, ['-', '-'] ++ line, after) := by
  obtain ⟨line', after', hline', hnewline, hafter⟩ := takeLine?_of_lineEnds hends
  rw [hline] at hline'
  obtain ⟨rfl, rfl⟩ := Prod.mk.inj (Option.some.inj hline')
  obtain ⟨t, -, -, -, hsettled, hfeed⟩ := h.cons hsound fun _ => by decide
  have hread := feedText_marked (hsettled (by decide)) (.inl rfl) hnewline
  have hsame : feedText s (['-', '-'] ++ line) = feedText t (['-', '-'] ++ line) := by
    simp only [List.cons_append, feedText_cons, hfeed]
  rw [Lexeme.text, ← hsame] at hread
  refine .passed ?_ (fun h => absurd h (by simp)) fun _ => by rw [hread]
  rw [hread]
  refine ⟨rfl, fun d hd => ?_⟩
  rcases hafter d hd with rfl | rfl
  · exact .inr (.inl rfl)
  · exact .inr (.inr ⟨rfl, rfl⟩)

theorem Outside.blockComment {body after : List Char} (h : Outside s ('/' :: '*' :: cs))
    (hsound : s.Sound) (hbreak : breakOn ['*', '/'] cs = some (body, after)) :
    SegmentCase s '/' ('*' :: cs) (.comment, (Lexeme.blockComment body).text, after) := by
  have htext : '/' :: '*' :: cs = '/' :: ('*' :: (body ++ ['*', '/']) ++ after) := by
    rw [breakOn_eq_some hbreak]
    simp
  rw [htext] at h
  obtain ⟨houtside, t, hcut⟩ := h.lexeme (l := .blockComment body) rfl hsound
    (.blockComment (breakOn_close hbreak)) (by decide) fun _ _ => rfl
  exact .passed houtside (fun h => absurd h (by simp)) fun _ => hcut

theorem Outside.comment (h : Outside s (c :: cs)) (hsound : s.Sound) (hplain : Plain s.rules)
    (hends : LineEnds (c :: cs)) {text rest : List Char}
    (hcomment : takeComment? s.rules.hashComments (c :: cs) = some (text, rest)) :
    SegmentCase s c cs (.comment, text, rest) := by
  rw [hplain.hash] at hcomment
  unfold takeComment? at hcomment
  split at hcomment
  case h_1 body heq =>
    obtain ⟨rfl, rfl⟩ := List.cons.inj heq
    obtain ⟨line, hline, rfl⟩ := Taken.behind_eq_some_iff.1 hcomment
    exact h.lineComment hsound (hends.of_suffix ⟨['-', '-'], rfl⟩) hline
  case h_2 more heq =>
    obtain ⟨rfl, rfl⟩ := List.cons.inj heq
    obtain ⟨⟨body, after⟩, hbreak, hpair⟩ := Option.map_eq_some_iff.1 hcomment
    obtain ⟨rfl, rfl⟩ := Prod.mk.inj hpair
    exact h.blockComment hsound hbreak
  case h_3 heq => exact absurd hcomment (by simp)
  case h_4 => exact absurd hcomment (by simp)

theorem Outside.quotedToken {kind : TokenKind} {body rest : List Char}
    (h : Outside s (c :: (body ++ [closing c] ++ rest))) (hsound : s.Sound)
    (hopen : opensQuote s.rules c = true) (hreturn : c ≠ '\r') (hkind : kind ≠ .punct)
    (hbody : Enclosed s.rules (closing c) body) (hrest : rest.head? ≠ some (closing c)) :
    SegmentCase s c cs (.token kind, c :: (body ++ [closing c]), rest) := by
  obtain ⟨houtside, t, hcut⟩ := h.lexeme (l := .quoted c body) rfl hsound (.quoted hopen hbody)
    ⟨extendsWord_of_opensQuote hopen, hreturn⟩ fun d hd => by
      simp only [Lexeme.endsAt, bne_iff_ne, ne_eq]
      rintro rfl
      exact hrest (Option.mem_def.1 hd)
  exact .passed houtside (fun h => absurd (SegmentKind.token.inj h) hkind) fun _ => hcut

/-- A quote that nothing closes. -/
theorem Outside.unclosedQuote (h : Outside s (c :: cs)) (hsound : s.Sound)
    (hopen : opensQuote s.rules c = true) (hreturn : c ≠ '\r')
    (hbody : Enclosed s.rules (closing c) cs) :
    SegmentCase s c cs (.token .punct, [c], cs) := by
  obtain ⟨t, -, -, hrules, hsettled, hfeed⟩ := h.cons hsound fun _ => hreturn
  refine .unmatched (.inl hopen) ?_
  rw [feedText_cons, hfeed, ← feedText_cons]
  rw [← hrules] at hopen hbody
  exact unfinished_of_enclosed (hsettled (extendsWord_of_opensQuote hopen)) hopen hbody

/-- Nothing closes a block comment, so the scanner would end in it. -/
theorem Outside.unfinished_of_breakOn (h : Outside s ('/' :: '*' :: cs)) (hsound : s.Sound)
    (hbreak : breakOn ['*', '/'] cs = none) :
    (feedText s ('/' :: '*' :: cs)).1.unfinished? ≠ none := by
  obtain ⟨t, -, -, -, hsettled, hfeed⟩ := h.cons hsound fun _ => by decide
  rw [feedText_cons, hfeed, ← feedText_cons]
  exact unfinished_of_slash (hsettled (by decide)) hbreak

/-- A `-` or a `/` that starts no comment. -/
theorem isPunct_of_mark (hc : c = '-' ∨ c = '/') (hopen : opensQuote rules c = false) :
    Lexeme.isPunct rules c = true := by
  rcases hc with rfl | rfl <;> simp [Lexeme.isPunct, hopen, opensWord, plainBlanks]

theorem endsAt_of_mark (hc : c = '-' ∨ c = '/') (hdash : c = '-' → cs.head? ≠ some '-')
    (hslash : c = '/' → cs.head? ≠ some '*') :
    ∀ d ∈ cs.head?, (Lexeme.punct c).endsAt rules d = true := by
  intro d hd
  rcases hc with rfl | rfl <;> simp only [Lexeme.endsAt, bne_iff_ne, ne_eq] <;> rintro rfl
  · exact hdash rfl (Option.mem_def.1 hd)
  · exact hslash rfl (Option.mem_def.1 hd)

/-- Punctuation that opens neither a quote nor a comment. -/
theorem Outside.of_punct (h : Outside s (c :: cs)) (hsound : s.Sound) (hplain : Plain s.rules)
    (hreturn : c ≠ '\r') (hopen : opensQuote s.rules c = false)
    (hdash : c = '-' → cs.head? ≠ some '-') (hslash : c = '/' → cs.head? ≠ some '*') :
    Outside (feedText s [c]).1 cs := by
  by_cases hmark : c = '-' ∨ c = '/'
  · have hword : extendsWord c = false := by rcases hmark with rfl | rfl <;> decide
    exact (h.lexeme (l := .punct c) rfl hsound (.punct (isPunct_of_mark hmark hopen))
      ⟨hword, hreturn⟩ (endsAt_of_mark hmark hdash hslash)).1
  · obtain ⟨hdash, hslash⟩ := not_or.1 hmark
    refine h.of_inert hsound hplain (fun _ => hreturn) (List.forall_mem_singleton.2 ?_) cs
    simp [inert, hdash, hslash, hopen]

theorem Outside.punctToken (h : Outside s (c :: cs)) (hsound : s.Sound) (hplain : Plain s.rules)
    (hends : LineEnds (c :: cs)) (hreturn : c ≠ '\r')
    (hcomment : takeComment? s.rules.hashComments (c :: cs) = none)
    (hbody : opensQuote s.rules c = true → Enclosed s.rules (closing c) cs) :
    SegmentCase s c cs (.token .punct, [c], cs) := by
  by_cases hopen : opensQuote s.rules c = true
  · exact h.unclosedQuote hsound hopen hreturn (hbody hopen)
  rw [Bool.not_eq_true] at hopen
  by_cases hslash : c = '/' ∧ cs.head? = some '*'
  · obtain ⟨rfl, hstar⟩ := hslash
    obtain ⟨more, rfl⟩ := List.head?_eq_some_iff.1 hstar
    refine .unmatched (.inr ⟨rfl, rfl⟩) (h.unfinished_of_breakOn hsound ?_)
    simpa [takeComment?] using hcomment
  have hslash' : c = '/' → cs.head? ≠ some '*' := fun heq hstar => hslash ⟨heq, hstar⟩
  refine .passed (h.of_punct hsound hplain hreturn hopen ?_ hslash')
    (fun _ => ⟨c, rfl, hopen, hslash'⟩) fun h => absurd h (by simp)
  rintro rfl
  exact head?_ne_dash hends hcomment

theorem Outside.token (h : Outside s (c :: cs)) (hsound : s.Sound) (hplain : Plain s.rules)
    (hends : LineEnds (c :: cs)) (hblank : isBlank c = false)
    (hcomment : takeComment? s.rules.hashComments (c :: cs) = none) :
    SegmentCase s c cs (.token (takeToken s.rules c cs).1, (takeToken s.rules c cs).2) := by
  have hreturn : c ≠ '\r' := by
    rintro rfl
    exact absurd hblank (by decide)
  obtain ⟨hne, happend⟩ := takeToken_append s.rules c cs
  have hcase := tokenCase hplain c cs
  generalize takeToken s.rules c cs = token at happend hne hcase
  cases hcase with
  | quoted hopen hkind hbody hrest =>
    rw [← happend] at h
    exact h.quotedToken hsound hopen hreturn hkind hbody hrest
  | @inert kind text rest hkind htext =>
    obtain ⟨d, text, rfl⟩ := List.exists_cons_of_ne_nil hne
    obtain ⟨rfl, -⟩ := List.cons.inj happend
    refine .passed (h.of_inert hsound hplain (fun _ => hreturn) htext rest) ?_ ?_ <;>
      rcases hkind with rfl | rfl <;> simp
  | punct hbody => exact h.punctToken hsound hplain hends hreturn hcomment hbody

/-- In front of every segment the scanner is outside, unless nothing closes the segment before. -/
theorem Outside.segment (h : Outside s (c :: cs)) (hsound : s.Sound) (hplain : Plain s.rules)
    (hends : LineEnds (c :: cs)) : SegmentCase s c cs (takeSegment s.rules c cs) := by
  unfold takeSegment
  split
  case isTrue hc => exact h.blank hsound hplain hends hc
  case isFalse hc =>
    split
    case h_1 text rest hcomment => exact h.comment hsound hplain hends hcomment
    case h_2 hcomment => exact h.token hsound hplain hends (by simpa using hc) hcomment

end

end DdlBridge.Statement
