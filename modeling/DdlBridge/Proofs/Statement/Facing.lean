import DdlBridge.Proofs.Statement.Misread

/-!
# Literals and comments stay whole

In front of every segment that is not misread, the scanner is outside or looks for a tag
(`Facing.segment`). So no statement ends inside a literal, a quoted identifier or a comment that lies
in front of the first misread segment (`uncut_of_not_misread`), under the rules of every dialect.
-/

namespace DdlBridge.Statement

open Scanner Text Lexer

variable {rules : LexicalRules} {s : Scanner} {word : Bool} {c : Char} {cs cs' rest : List Char}

/-! ### The scanner in front of a segment -/

/-- The scanner has left every region in front of a text, or it looks for a tag that no `$` ends.
It is in a word only if `word` is set. -/
inductive Facing (s : Scanner) (word : Bool) (cs : List Char) : Prop where
  | outside (h : Outside s cs) (hword : s.region = .normal → s.word ≠ [] → word = true)
  | tag (hregion : s.region = .dollarTag []) (hfirst : ∃ c ∈ cs.head?, c.isAlpha ∨ c = '_')
      (hnext : ∀ c ∈ (cs.dropWhile Lexeme.inTag).head?, c ≠ '$' ∧ c ≠ '#')

/-! A tag starts with a letter or `_`, as words do. -/

theorem startsWord_of_opensTag (h : c.isAlpha = true ∨ c = '_') : startsWord c = true := by
  rcases h with halpha | rfl
  · exact Atom.startsWord_of_isAlpha halpha
  · decide

theorem inTag_of_opensTag (h : c.isAlpha = true ∨ c = '_') : Lexeme.inTag c = true := by
  rcases h with halpha | rfl
  · simp [Lexeme.inTag, halpha]
  · decide

/-- What a scanner takes for a tag behind a `$` that it does not read into a word. -/
theorem isTag_takeWhile (h : ∃ d ∈ cs.head?, d = '$' ∨ d.isAlpha ∨ d = '_') :
    isTag (cs.takeWhile Lexeme.inTag) = true := by
  refine isTag_iff.2 ⟨fun d hd => List.mem_takeWhile_imp hd, fun d hd => ?_⟩
  obtain ⟨e, he, hcase⟩ := h
  obtain ⟨more, rfl⟩ := List.head?_eq_some_iff.1 (Option.mem_def.1 he)
  rw [List.takeWhile_cons] at hd
  split at hd
  case isFalse => exact absurd hd (by simp)
  case isTrue =>
    obtain rfl := Option.some.inj (Option.mem_def.1 hd)
    rcases hcase with rfl | hopens
    · decide
    · exact Atom.isDigit_of_startsWord (startsWord_of_opensTag hopens)

theorem breaksOff_of_tag (hfirst : ∃ d ∈ cs.head?, d.isAlpha ∨ d = '_')
    (hhash : (cs.dropWhile Lexeme.inTag).head? = some '#') : breaksOff cs = true := by
  have htag := isTag_takeWhile (hfirst.imp fun _ hd => hd.imp_right .inr)
  obtain ⟨d, hd, hopens⟩ := hfirst
  obtain ⟨more, rfl⟩ := List.head?_eq_some_iff.1 (Option.mem_def.1 hd)
  simp only [breaksOff, htag, hhash]
  simp [inTag_of_opensTag hopens]

theorem word_of_endsAt {t : Scanner} {l : Lexeme} (hread : ReadsAs t l)
    (hends : l.endsAt t.rules 'a' = true) (hregion : (feedText t l.text).1.region = .normal) :
    (feedText t l.text).1.word = [] := by
  have hdecides := hread.decides 'a' hends
  simp only [decides, hregion] at hdecides
  exact hdecides.resolve_right (by decide)

/-- The scanner in front of a sign, which it does not take for part of a word. -/
theorem Outside.exists_settled (h : Outside s (c :: cs)) (hsound : s.Sound) (hc : c ≠ '\r')
    (hword : extendsWord c = false ∨ (s.region = .normal → s.word = [])) :
    ∃ t, Settled t ∧ t.rules = s.rules ∧ feedChar s c = feedChar t c := by
  have hdecides : decides s c := by
    rcases h.next c rfl with hregion | hd | ⟨-, hreturn⟩
    · simp only [decides, hregion]
      exact hword.symm.imp_left fun hword => hword hregion
    · exact hd
    · exact absurd hreturn hc
  exact ⟨settle s, settled_settle hsound hdecides, rules_settle s, feedChar_settle hsound hdecides⟩

/-- Behind a lexeme the scanner is outside. -/
theorem facing_of_lexeme {t : Scanner} {l : Lexeme} (ht : Settled t) (hl : l.Formed t.rules)
    (htext : l.text = c :: cs) (hfeed : feedChar s c = feedChar t c)
    (hends : l.endsAt t.rules 'a' = true) (hrest : ∀ d ∈ rest.head?, l.endsAt t.rules d = true)
    (word : Bool) :
    Facing (feedText s l.text).1 word rest ∧ (feedText s l.text).2 = (take t l).2 := by
  have hread : ReadsAs t l := reads ht hl
  have hsame : feedText s l.text = feedText t l.text := by
    rw [htext, feedText_cons, feedText_cons, hfeed]
  rw [hsame]
  refine ⟨.outside ⟨?_, fun d hd => .inr (.inl (hread.decides d (hrest d hd)))⟩
    fun hregion hne => absurd (word_of_endsAt hread hends hregion) hne, hread.cut⟩
  rw [hread.scanner]
  exact (ht.take l).region

/-- A character that opens no region. -/
theorem feedChar_inert (hregion : s.region = .normal) (hc : inert s.rules c = true)
    (hdollar : c = '$' → s.word ≠ [] ∨ s.rules.dollarQuotes = false)
    (hhash : c = '#' → s.word ≠ [] ∨ s.rules.hashComments = false) :
    (feedChar s c).1.region = .normal ∧ ((feedChar s c).1.word ≠ [] →
      extendsWord c = true ∧ (c = '$' ∨ c = '#' → s.word ≠ [])) := by
  by_cases hword : 128 ≤ c.toNat ∨ s.isWordByte c = true
  · rw [feedChar_word hregion hword]
    refine ⟨hregion, fun _ => ?_⟩
    rcases hword with hwide | hbyte
    · refine ⟨extendsWord_of_le hwide, fun hsign => ?_⟩
      rcases hsign with rfl | rfl <;> exact absurd hwide (by decide)
    · refine ⟨?_, fun hsign hnil => ?_⟩
      · by_contra hnot
        rw [isWordByte_eq_false (by simpa using hnot)] at hbyte
        exact absurd hbyte (by simp)
      · rw [isWordByte_of_nil hnil] at hbyte
        rcases hsign with rfl | rfl <;> exact absurd hbyte (by decide)
  · rw [not_or, Nat.not_le] at hword
    have hbare : Settled s.endWord := ⟨(region_endWord s).trans hregion, word_endWord s⟩
    have hfeed : feedChar s c = s.endWord.stepSymbol c := by
      rw [feedChar_of_lt s hword.1]
      simp only [step, hregion]
      rw [stepNormal, if_neg hword.2]
    have hopen : s.word ≠ [] → c ≠ '$' ∧ c ≠ '#' := by
      refine fun hne => ⟨?_, ?_⟩ <;> rintro rfl <;>
        exact hword.2 (isWordByte_of_extends hne (by decide))
    have hpunct : ∀ d, Settled (s.endWord.takePunct d) := fun d => ⟨hbare.region, hbare.word⟩
    have hsettled : Settled (s.endWord.stepSymbol c).1 := by
      simp only [inert, opensQuote, Bool.and_eq_true, bne_iff_ne, ne_eq, Bool.not_eq_true',
        Bool.or_eq_false_iff, beq_eq_false_iff_ne] at hc
      unfold stepSymbol
      split
      case h_1 => exact hbare.endLine
      case h_6 => exact (hpunct ';').terminator
      all_goals first
        | exact ⟨hbare.region, hbare.word⟩
        | simp_all
    rw [hfeed]
    exact ⟨hsettled.region, fun hne => absurd hsettled.word hne⟩

theorem feedText_inert_plain (hsound : s.Sound) (hregion : s.region = .normal)
    (hcs : ∀ c ∈ cs, inert s.rules c = true ∧ c ≠ '$' ∧ c ≠ '#') :
    (feedText s cs).1.region = .normal ∧
      (cs ≠ [] → (feedText s cs).1.word ≠ [] → cs.getLast?.any extendsWord = true) := by
  induction cs generalizing s with
  | nil => exact ⟨hregion, fun hne => absurd rfl hne⟩
  | cons c cs ih =>
    obtain ⟨⟨hinert, hdollar, hhash⟩, hcs⟩ := List.forall_mem_cons.1 hcs
    obtain ⟨hregion', hword⟩ := feedChar_inert hregion hinert (fun h => absurd h hdollar)
      fun h => absurd h hhash
    obtain ⟨hlast, hlastWord⟩ := ih (sound_feedChar hsound c) hregion' fun d hd => by
      rw [rules_feedChar hsound]
      exact hcs d hd
    rw [feedText_cons]
    refine ⟨hlast, fun _ hne => ?_⟩
    cases cs with
    | nil => simpa using (hword hne).1
    | cons d cs =>
      rw [List.getLast?_cons_cons]
      exact hlastWord (by simp) hne

/-- Behind a `$` that opens no literal the scanner is outside, or it looks for a tag. -/
theorem facing_behind_dollar (hregion : s.region = .dollarTag []) (htake : takeDollar? ('$' :: cs) = none)
    (hbreaks : breaksOff cs = false) (hfinished : (feedText s cs).1.unfinished? = none)
    (word : Bool) : Facing s word cs := by
  by_cases hfirst : ∃ d ∈ cs.head?, d = '$' ∨ d.isAlpha ∨ d = '_'
  swap
  · refine .outside ⟨by simp only [settle, hregion], fun d hd => .inr (.inl ?_)⟩ fun hnormal => ?_
    · simp only [decides, hregion, ne_eq, not_true, and_false, or_false]
      exact fun hd' => hfirst ⟨d, hd, hd'⟩
    · rw [hregion] at hnormal
      contradiction
  have htag := isTag_takeWhile hfirst
  have hsplit := List.takeWhile_append_dropWhile (p := Lexeme.inTag) (l := cs)
  -- a `$` behind the tag would open a literal, which nothing closes or the lexer would have taken it
  have hdollar : (cs.dropWhile Lexeme.inTag).head? ≠ some '$' := by
    intro hhead
    obtain ⟨body, hbody⟩ := List.head?_eq_some_iff.1 hhead
    rw [hbody] at hsplit
    have hnone := takeDollar?_eq_none (isTag_iff.1 htag).1 (hsplit.symm ▸ htake)
    rw [← hsplit] at hfinished
    exact unfinished_of_tag htag hregion hnone hfinished
  obtain ⟨d, hd, hcase⟩ := hfirst
  have hne : d ≠ '$' := by
    rintro rfl
    obtain ⟨more, rfl⟩ := List.head?_eq_some_iff.1 (Option.mem_def.1 hd)
    exact hdollar rfl
  have hopens : ∃ d ∈ cs.head?, d.isAlpha ∨ d = '_' := ⟨d, hd, hcase.resolve_left hne⟩
  refine .tag hregion hopens fun e he => ⟨?_, ?_⟩
  · rintro rfl
    exact hdollar he
  · rintro rfl
    rw [breaksOff_of_tag hopens (Option.mem_def.1 he)] at hbreaks
    contradiction

section

variable (h : Outside s (c :: cs)) (hsound : s.Sound)
  (hword : s.region = .normal → s.word ≠ [] → word = true)

include h hsound

theorem Outside.exists_normal (hc : s.region = .lineComment → c ≠ '\r')
    (hword : s.region = .normal → s.word ≠ [] → word = true) :
    ∃ t : Scanner, t.Sound ∧ t.region = .normal ∧ t.rules = s.rules ∧
      (t.word ≠ [] → word = true) ∧ feedChar s c = feedChar t c := by
  rcases h.next c rfl with hregion | hd | ⟨hregion, hreturn⟩
  · exact ⟨s, hsound, hregion, rfl, hword hregion, rfl⟩
  · have hsettled := settled_settle hsound hd
    exact ⟨settle s, hsettled.sound, hsettled.region, rules_settle s,
      fun hne => absurd hsettled.word hne, feedChar_settle hsound hd⟩
  · exact absurd hreturn (hc hregion)

include hword

/-- A segment of one character that opens no region. -/
theorem Outside.facing_inert (seg : Segment) (hkind : seg.kind ∈ [.blank, .token .punct])
    (htext : seg.text = [c]) (hc : s.region = .lineComment → c ≠ '\r')
    (hinert : inert s.rules c = true) (hdollar : c = '$' → s.rules.dollarQuotes = false)
    (hhash : c = '#' → s.rules.hashComments = false) :
    Facing (feedText s seg.text).1 (inWord word seg) cs := by
  obtain ⟨t, -, hregion, hrules, hjoined, hfeed⟩ := h.exists_normal hsound hc hword
  obtain ⟨hregion', hafter⟩ := feedChar_inert hregion (hrules.symm ▸ hinert)
    (fun heq => .inr (hrules.symm ▸ hdollar heq)) fun heq => .inr (hrules.symm ▸ hhash heq)
  rw [htext, feedText_singleton, hfeed]
  refine .outside (.of_normal hregion' cs) fun _ hne => ?_
  obtain ⟨hextends, hsign⟩ := hafter hne
  have hopen : inWord word seg = if c = '$' ∨ c = '#' then word else extendsWord c := by
    rcases seg with ⟨kind, text, offset⟩
    obtain rfl : text = [c] := htext
    simp only [List.mem_cons, List.not_mem_nil, or_false] at hkind
    rcases hkind with rfl | rfl <;> simp [inWord]
  rw [hopen]
  split
  case isTrue heq => exact hjoined (hsign heq)
  case isFalse => exact hextends

theorem Outside.facing_blank (hends : LineEnds (c :: cs)) (hc : isBlank c = true) (offset : Nat) :
    Facing (feedText s [c]).1 (inWord word ⟨.blank, [c], offset⟩) cs := by
  by_cases hreturn : s.region = .lineComment ∧ c = '\r'
  · obtain ⟨hregion, rfl⟩ := hreturn
    rw [feedText_singleton, feedChar_lineComment hregion (by decide)]
    refine .outside (h.carriageReturn hregion hends) fun hnormal => ?_
    rw [hregion] at hnormal
    contradiction
  · refine h.facing_inert hsound hword ⟨.blank, [c], offset⟩ (by simp) rfl
      (fun hregion heq => hreturn ⟨hregion, heq⟩) (inert_of_isBlank hc) ?_ ?_
    · rintro rfl
      exact absurd hc (by decide)
    · rintro rfl
      exact absurd hc (by decide)

theorem Outside.facing_number {text : List Char} (htake : takeNumber? (c :: cs) = some (text, rest))
    (offset : Nat) :
    Facing (feedText s text).1 (inWord word ⟨.token .number, text, offset⟩) rest := by
  obtain ⟨hne, happend⟩ := splits_takeNumber? _ _ _ htake
  have hdigits := digit_of_takeNumber? htake
  obtain ⟨d, text, rfl⟩ := List.exists_cons_of_ne_nil hne
  obtain ⟨rfl, -⟩ := List.cons.inj happend
  have hreturn : d ≠ '\r' := by
    rintro rfl
    exact absurd (hdigits '\r' List.mem_cons_self) (by decide)
  obtain ⟨t, htsound, hregion, hrules, -, hfeed⟩ := h.exists_normal hsound (fun _ => hreturn) hword
  have hplain : ∀ e ∈ d :: text, inert t.rules e = true ∧ e ≠ '$' ∧ e ≠ '#' :=
    fun e he => plain_of_digit (hdigits e he)
  obtain ⟨hregion', hlast⟩ := feedText_inert_plain htsound hregion hplain
  have hsame : feedText s (d :: text) = feedText t (d :: text) := by
    rw [feedText_cons, feedText_cons, hfeed]
  rw [hsame]
  refine .outside (.of_normal hregion' rest) fun _ hword' => ?_
  have hnot : ¬ (d :: text = ['$'] ∨ d :: text = ['#']) := by
    have hd := hdigits d List.mem_cons_self
    rintro (heq | heq) <;> obtain ⟨rfl, -⟩ := List.cons.inj heq <;> exact absurd hd (by decide)
  rw [inWord, if_neg hnot]
  exact hlast (by simp) hword'

theorem Outside.facing_word (hstart : startsWord c = true) (offset : Nat) :
    Facing (feedText s (c :: cs.takeWhile continuesWord)).1
      (inWord word ⟨.token .word, c :: cs.takeWhile continuesWord, offset⟩)
      (cs.dropWhile continuesWord) := by
  have hopens := Atom.opensWord_of_startsWord hstart
  have hreturn : c ≠ '\r' := by
    rintro rfl
    exact absurd hopens (by decide)
  obtain ⟨t, -, hregion, -, -, hfeed⟩ := h.exists_normal hsound (fun _ => hreturn) hword
  have hfirst := feedChar_word hregion (.inr (isWordByte_of_opensWord t hopens))
  have hrest : ∀ d ∈ cs.takeWhile continuesWord, extendsWord d = true :=
    fun d hd => Atom.extendsWord_of_continuesWord (List.mem_takeWhile_imp hd)
  have hne : (pushWord t (wordBytes c)).word ≠ [] := by simp [pushWord, wordBytes_ne_nil]
  rw [feedText_cons, hfeed, hfirst, feedText_extends (s := pushWord t (wordBytes c)) hregion hne hrest,
    inWord_word offset hopens hrest]
  exact .outside (.of_normal (s := pushWord (pushWord t _) _) hregion _) fun _ _ => rfl

theorem Outside.facing_lineComment {mark line : List Char} (hends : LineEnds rest)
    (hmark : mark = ['-', '-'] ∨ (s.rules.hashComments = true ∧ mark = ['#']))
    (hcs : c :: cs = mark ++ rest) (hfree : c = '#' → word = false)
    (hline : takeLine? rest = some (line, cs')) :
    Facing (feedText s (mark ++ line)).1 false cs' ∧ (feedText s (mark ++ line)).2 = false := by
  obtain ⟨line', after, hline', hnewline, hafter⟩ := takeLine?_of_lineEnds hends
  rw [hline] at hline'
  obtain ⟨rfl, rfl⟩ := Prod.mk.inj (Option.some.inj hline')
  have hopen : c ≠ '\r' ∧ (extendsWord c = false ∨ (s.region = .normal → s.word = [])) := by
    rcases hmark with rfl | ⟨-, rfl⟩
    · obtain ⟨rfl, -⟩ := List.cons.inj hcs
      exact ⟨by decide, .inl (by decide)⟩
    · obtain ⟨rfl, -⟩ := List.cons.inj hcs
      refine ⟨by decide, .inr fun hregion => ?_⟩
      by_contra hne
      rw [hfree rfl] at hword
      exact absurd (hword hregion hne) (by simp)
  obtain ⟨t, ht, hrules, hfeed⟩ := h.exists_settled hsound hopen.1 hopen.2
  have hread := feedText_marked ht (hrules.symm ▸ hmark) hnewline
  have hsame : feedText s (mark ++ line) = feedText t (mark ++ line) := by
    rcases hmark with rfl | ⟨-, rfl⟩ <;> obtain ⟨rfl, -⟩ := List.cons.inj hcs <;>
      simp only [List.cons_append, feedText_cons, hfeed]
  rw [hsame]
  rw [Lexeme.text] at hread
  rw [hread]
  refine ⟨.outside ⟨rfl, fun d hd => ?_⟩ fun hregion => absurd hregion (by simp), rfl⟩
  rcases hafter d hd with rfl | rfl
  · exact .inr (.inl rfl)
  · exact .inr (.inr ⟨rfl, rfl⟩)

theorem Outside.facing_comment (hends : LineEnds (c :: cs)) {text : List Char}
    (hcomment : takeComment? s.rules.hashComments (c :: cs) = some (text, rest))
    (hfree : c = '#' → word = false) :
    Facing (feedText s text).1 false rest ∧ (feedText s text).2 = false := by
  unfold takeComment? at hcomment
  split at hcomment
  case h_1 body heq =>
    obtain ⟨line, hline, rfl⟩ := Taken.behind_eq_some_iff.1 hcomment
    exact h.facing_lineComment hsound hword (hends.of_suffix ⟨['-', '-'], heq.symm⟩) (.inl rfl) heq
      hfree hline
  case h_2 more heq =>
    obtain ⟨rfl, rfl⟩ := List.cons.inj heq
    obtain ⟨⟨body, after⟩, hbreak, hpair⟩ := Option.map_eq_some_iff.1 hcomment
    obtain ⟨rfl, rfl⟩ := Prod.mk.inj hpair
    obtain ⟨t, ht, -, hfeed⟩ := h.exists_settled hsound (by decide) (.inl (by decide))
    exact facing_of_lexeme (l := .blockComment body) ht (.blockComment (breakOn_close hbreak)) rfl hfeed
      rfl (fun _ _ => rfl) false
  case h_3 body heq =>
    split at hcomment
    case isTrue hrules =>
      obtain ⟨line, hline, rfl⟩ := Taken.behind_eq_some_iff.1 hcomment
      exact h.facing_lineComment hsound hword (hends.of_suffix ⟨['#'], heq.symm⟩) (.inr ⟨hrules, rfl⟩)
        heq hfree hline
    case isFalse => exact absurd hcomment (by simp)
  case h_4 => exact absurd hcomment (by simp)

omit hword in
theorem Outside.facing_quoted {kind : TokenKind} {text : List Char} (offset : Nat)
    (hopen : opensQuote s.rules c = true) (hkind : kind = .string ∨ kind = .quotedIdent)
    (htake : takeQuoted? (closing c) (lexerEscapes s.rules c) cs = some (text, rest))
    (hagrees : misread s.rules word ⟨.token kind, c :: text, offset⟩ rest = false) :
    Facing (feedText s (c :: text)).1 (inWord word ⟨.token kind, c :: text, offset⟩) rest ∧
      (feedText s (c :: text)).2 = false := by
  have hreturn : c ≠ '\r' := by
    rintro rfl
    exact absurd hopen (by simp [opensQuote])
  have hsame : takeQuoted? (closing c) (escapesIn s.rules (closing c)) cs = some (text, rest) := by
    have hcs := (splits_takeQuoted? _ _ _ _ _ htake).2
    have hquoted := takeQuoted_of_not_misread hopen (by rcases hkind with rfl | rfl <;> simp) hagrees
    rwa [hcs, htake] at hquoted
  have henclosed := readsUpTo_takeQuoted s.rules (closing_ne_backslash hopen) cs
  rw [hsame] at henclosed
  obtain ⟨body, rfl, hbody, hrest⟩ := henclosed
  obtain ⟨t, ht, hrules, hfeed⟩ :=
    h.exists_settled hsound hreturn (.inl (extendsWord_of_opensQuote hopen))
  have hends : (Lexeme.quoted c body).endsAt t.rules 'a' = true := by
    have hne : 'a' ≠ closing c := by
      simp only [opensQuote, Bool.or_eq_true, Bool.and_eq_true, beq_iff_eq] at hopen
      obtain ((rfl | rfl) | ⟨-, rfl⟩) | ⟨-, rfl⟩ := hopen <;> decide
    simpa [Lexeme.endsAt] using hne
  have hnot : inWord word ⟨.token kind, c :: (body ++ [closing c]), offset⟩ = false := by
    rcases hkind with rfl | rfl <;> rfl
  rw [hnot]
  refine facing_of_lexeme (l := .quoted c body) ht (hrules.symm ▸ .quoted hopen hbody) rfl hfeed
    hends (fun d hd => ?_) false
  simp only [Lexeme.endsAt, bne_iff_ne, ne_eq]
  rintro rfl
  exact hrest (Option.mem_def.1 hd)

theorem Outside.facing_dollar {tag inner : List Char} (hc : c = '$')
    (hrules : s.rules.dollarQuotes = true) (htag : isTag tag = true) (hfree : word = false)
    (hinner : breakOn ('$' :: (tag ++ ['$'])) (inner ++ '$' :: (tag ++ '$' :: rest)) =
      some (inner, rest)) :
    Facing (feedText s (Lexeme.dollar tag inner).text).1 false rest ∧
      (feedText s (Lexeme.dollar tag inner).text).2 = false := by
  subst hc
  obtain ⟨hin, hfirst⟩ := isTag_iff.1 htag
  have hbody := not_infix_of_breakOn (List.cons_ne_nil _ _) hinner
  have hlast : ('$' :: (tag ++ ['$'])).dropLast = '$' :: tag := by
    rw [← List.cons_append, List.dropLast_concat]
  rw [hlast] at hbody
  have hidle : s.region = .normal → s.word = [] := by
    intro hregion
    by_contra hne
    rw [hfree] at hword
    exact absurd (hword hregion hne) (by simp)
  obtain ⟨t, ht, hsame, hfeed⟩ := h.exists_settled hsound (by decide) (.inr hidle)
  exact facing_of_lexeme (l := .dollar tag inner) ht (.dollar (hsame.symm ▸ hrules) hin hfirst hbody)
    rfl hfeed rfl (fun _ _ => rfl) false

/-- Behind a `$` a scanner may look for a tag. -/
theorem Outside.facing_sign (offset : Nat) (hc : c = '$') (hrules : s.rules.dollarQuotes = true)
    (htake : takeDollar? (c :: cs) = none)
    (hagrees : misread s.rules word ⟨.token .punct, [c], offset⟩ cs = false)
    (hfinished : (feedText s (c :: cs)).1.unfinished? = none) :
    Facing (feedText s [c]).1 (inWord word ⟨.token .punct, [c], offset⟩) cs := by
  subst hc
  obtain ⟨t, htsound, hregion, hsame, hjoined, hfeed⟩ :=
    h.exists_normal hsound (fun _ => by decide) hword
  rw [feedText_singleton, hfeed]
  have hin : inWord word ⟨.token .punct, ['$'], offset⟩ = word := rfl
  rw [hin]
  by_cases hne : t.word = []
  swap
  -- in a word the `$` goes on with it, and looks for nothing
  · rw [feedChar_word hregion (.inr (isWordByte_of_extends hne (by decide)))]
    exact .outside (.of_normal (s := pushWord t _) hregion cs) fun _ _ => hjoined hne
  have ht : Settled t := ⟨hregion, hne⟩
  have hopen : feedChar t '$' = (inDollar t (.dollarTag []) ('$' :: t.line) t.lineQuoted, false) := by
    rw [ht.stepNormal (by decide), stepSymbol, if_pos (hsame.symm ▸ hrules)]
    rfl
  rw [feedText_cons, hfeed, hopen] at hfinished
  rw [hopen]
  have hbreaks : breaksOff cs = false := by simpa [misread, hrules] using hagrees
  exact facing_behind_dollar rfl htake hbreaks hfinished word

omit hword in
/-- Nothing closes a quote that the lexer takes for punctuation, so the scanner would end in it. -/
theorem Outside.opensQuote_eq_false (offset : Nat) (hreturn : c ≠ '\r')
    (hquote : opensQuote s.rules c = true →
      takeQuoted? (closing c) (lexerEscapes s.rules c) cs = none)
    (hagrees : misread s.rules word ⟨.token .punct, [c], offset⟩ cs = false)
    (hfinished : (feedText s (c :: cs)).1.unfinished? = none) : opensQuote s.rules c = false := by
  rw [Bool.eq_false_iff]
  intro hopen
  have hnone := takeQuoted_of_not_misread hopen (by simp) hagrees
  rw [List.nil_append, hquote hopen] at hnone
  obtain ⟨t, ht, hrules, hfeed⟩ :=
    h.exists_settled hsound hreturn (.inl (extendsWord_of_opensQuote hopen))
  have hunfinished := unfinished_of_takeQuoted ht (hrules.symm ▸ hopen) (hrules.symm ▸ hnone)
  rw [feedText_cons, ← hfeed, ← feedText_cons] at hunfinished
  exact hunfinished hfinished

omit hword in
theorem Outside.head?_ne_star (hc : c = '/')
    (hcomment : takeComment? s.rules.hashComments (c :: cs) = none)
    (hfinished : (feedText s (c :: cs)).1.unfinished? = none) : cs.head? ≠ some '*' := by
  subst hc
  intro hstar
  obtain ⟨more, rfl⟩ := List.head?_eq_some_iff.1 hstar
  have hbreak : breakOn ['*', '/'] more = none := by simpa [takeComment?] using hcomment
  exact h.unfinished_of_breakOn hsound hbreak hfinished

omit hword in
/-- A `-` or a `/` that starts no comment. -/
theorem Outside.facing_mark (hmark : c = '-' ∨ c = '/') (hquote : opensQuote s.rules c = false)
    (hdash : c = '-' → cs.head? ≠ some '-') (hslash : c = '/' → cs.head? ≠ some '*') (word : Bool) :
    Facing (feedText s [c]).1 word cs := by
  have hword : c ≠ '\r' ∧ extendsWord c = false := by rcases hmark with rfl | rfl <;> decide
  obtain ⟨t, ht, hrules, hfeed⟩ := h.exists_settled hsound hword.1 (.inl hword.2)
  refine (facing_of_lexeme (l := .punct c) ht (.punct (isPunct_of_mark hmark (hrules.symm ▸ hquote)))
    rfl hfeed ?_ (endsAt_of_mark hmark hdash hslash) word).1
  rcases hmark with rfl | rfl <;> rfl

/-- A character that starts nothing else. -/
theorem Outside.facing_punct (hends : LineEnds (c :: cs)) (offset : Nat) (hreturn : c ≠ '\r')
    (hcomment : takeComment? s.rules.hashComments (c :: cs) = none)
    (hdollar : s.rules.dollarQuotes = true → takeDollar? (c :: cs) = none)
    (hquote : opensQuote s.rules c = true →
      takeQuoted? (closing c) (lexerEscapes s.rules c) cs = none)
    (hagrees : misread s.rules word ⟨.token .punct, [c], offset⟩ cs = false)
    (hfinished : (feedText s (c :: cs)).1.unfinished? = none) :
    Facing (feedText s [c]).1 (inWord word ⟨.token .punct, [c], offset⟩) cs := by
  have hquote' := h.opensQuote_eq_false hsound offset hreturn hquote hagrees hfinished
  by_cases hmark : c = '-' ∨ c = '/'
  · refine h.facing_mark hsound hmark hquote' ?_
      (fun heq => h.head?_ne_star hsound heq hcomment hfinished) _
    rintro rfl
    exact head?_ne_dash hends hcomment
  by_cases hsign : c = '$' ∧ s.rules.dollarQuotes = true
  · exact h.facing_sign hsound hword offset hsign.1 hsign.2 (hdollar hsign.2) hagrees hfinished
  obtain ⟨hdash, hslash⟩ := not_or.1 hmark
  refine h.facing_inert hsound hword ⟨.token .punct, [c], offset⟩ (by simp) rfl (fun _ => hreturn)
    (by simp [inert, hdash, hslash, hquote']) (fun heq => ?_) fun heq => ?_
  · rw [Bool.eq_false_iff]
    exact fun hrules => hsign ⟨heq, hrules⟩
  · subst heq
    rw [Bool.eq_false_iff]
    intro hrules
    obtain ⟨line, after, hline, -⟩ := takeLine?_of_lineEnds (hends.of_suffix (List.suffix_cons _ _))
    rw [takeComment?, if_pos hrules, hline] at hcomment
    exact absurd hcomment (by simp [Taken.behind])

theorem Outside.facing_token (hends : LineEnds (c :: cs)) (offset : Nat) (hreturn : c ≠ '\r')
    (hcomment : takeComment? s.rules.hashComments (c :: cs) = none)
    {taken : TokenKind × List Char × List Char} (hread : Read s.rules c cs taken)
    (hagrees : misread s.rules word ⟨.token taken.1, taken.2.1, offset⟩ taken.2.2 = false)
    (hfinished : (feedText s (c :: cs)).1.unfinished? = none) :
    Facing (feedText s taken.2.1).1 (inWord word ⟨.token taken.1, taken.2.1, offset⟩) taken.2.2 ∧
      (.token taken.1 ∈ literalKinds → (feedText s taken.2.1).2 = false) := by
  cases hread with
  | @dollar tag inner rest hrules hc htag hinner =>
    have hclear : word = false ∧ isTag tag = true := by
      simpa [misread, Lexeme.text, takeWhile_tag htag] using hagrees
    obtain ⟨hfacing, hcut⟩ := h.facing_dollar hsound hword hc hrules hclear.2 hclear.1 hinner
    exact ⟨hfacing, fun _ => hcut⟩
  | quoted hopen hkind htake =>
    obtain ⟨hfacing, hcut⟩ := h.facing_quoted hsound offset hopen hkind htake hagrees
    exact ⟨hfacing, fun _ => hcut⟩
  | number htake => exact ⟨h.facing_number hsound hword htake offset, by simp [literalKinds]⟩
  | word hstart => exact ⟨h.facing_word hsound hword hstart offset, by simp [literalKinds]⟩
  | punct hdollar hquote =>
    exact ⟨h.facing_punct hsound hword hends offset hreturn hcomment hdollar hquote hagrees hfinished,
      by simp [literalKinds]⟩

end

/-- The characters of a tag go on with a word, and any other that does is no ASCII character. -/
theorem continuesWord_of_inTag (h : Lexeme.inTag c = true) : continuesWord c = true := by
  simp only [Lexeme.inTag, Bool.or_eq_true] at h
  simp only [continuesWord, isLetterOrNumeral, isLetter, isNumeral, Bool.or_eq_true]
  tauto

theorem le_toNat_of_continuesWord (h : continuesWord c = true) (htag : Lexeme.inTag c = false)
    (hdollar : c ≠ '$') (hhash : c ≠ '#') : 128 ≤ c.toNat := by
  simp only [Lexeme.inTag, Bool.or_eq_false_iff] at htag
  simp [continuesWord, isLetterOrNumeral, isLetter, isNumeral, htag, hdollar, hhash] at h
  omega

theorem takeToken_of_startsWord (rules : LexicalRules) (hstart : startsWord c = true)
    (cs : List Char) : takeToken rules c cs =
      (.word, c :: cs.takeWhile continuesWord, cs.dropWhile continuesWord) := by
  have hread := read rules c cs
  have hopens := Atom.opensWord_of_startsWord hstart
  generalize takeToken rules c cs = taken at hread
  cases hread with
  | dollar _ hc =>
    subst hc
    exact absurd hopens (by decide)
  | quoted hopen =>
    have hnot := extendsWord_of_opensQuote hopen
    rw [extendsWord, hopens] at hnot
    exact absurd hnot (by simp)
  | number htake =>
    obtain ⟨hne, happend⟩ := splits_takeNumber? _ _ _ htake
    obtain ⟨d, text, rfl⟩ := List.exists_cons_of_ne_nil hne
    obtain ⟨rfl, -⟩ := List.cons.inj happend
    rcases digit_of_takeNumber? htake d List.mem_cons_self with hdigit | rfl
    · simp only [startsWord, isLetter, Bool.or_eq_true, Bool.and_eq_true, decide_eq_true_eq,
        beq_iff_eq] at hstart
      rcases hstart with (halpha | ⟨hwide, -⟩) | rfl
      · rw [isAlpha_eq_false_of_isDigit hdigit] at halpha
        contradiction
      · rw [isDigit_eq_false hwide] at hdigit
        contradiction
      · exact absurd hdigit (by decide)
    · exact absurd hopens (by decide)
  | word => rfl
  | punct _ _ hnot =>
    rw [hstart] at hnot
    contradiction

theorem takeSegment_of_startsWord (rules : LexicalRules) (hstart : startsWord c = true)
    (cs : List Char) : takeSegment rules c cs =
      (.token .word, c :: cs.takeWhile continuesWord, cs.dropWhile continuesWord) := by
  have hblank : isBlank c = false := Atom.not_blank_of_word (.inl hstart)
  have hcomment : takeComment? rules.hashComments (c :: cs) = none := by
    have hopens := Atom.opensWord_of_startsWord hstart
    unfold takeComment?
    split
    case h_1 heq | h_2 heq | h_3 heq =>
      rw [(List.cons.inj heq).1] at hopens
      exact absurd hopens (by decide)
    case h_4 => rfl
  rw [takeSegment, if_neg (by simp [hblank]), hcomment, takeToken_of_startsWord rules hstart]

/-- Behind the characters of a tag a scanner reads on as in the rest of a word. -/
theorem facing_behind_tag (hsound : s.Sound) {tag : List Char} (hregion : s.region = .dollarTag tag)
    (hnext : ∀ d ∈ cs.head?, Lexeme.inTag d = false ∧ d ≠ '$' ∧ d ≠ '#') :
    Facing (feedText s (cs.takeWhile continuesWord)).1 true (cs.dropWhile continuesWord) := by
  have hsettle : settle s = { s with region := .normal } := by simp only [settle, hregion]
  have hidle : s.word = [] := hsound.word (by rw [hregion]; simp)
  cases cs with
  | nil =>
    rw [List.takeWhile_nil, feedText_nil]
    exact .outside ⟨by rw [hsettle], by simp⟩ fun _ _ => rfl
  | cons d more =>
    obtain ⟨hin, hdollar, hhash⟩ := hnext d rfl
    have hdecides : decides s d := by
      have hplain := hin
      simp only [Lexeme.inTag, Bool.or_eq_false_iff, beq_eq_false_iff_ne] at hplain
      simp [decides, hregion, hplain, hdollar]
    by_cases hword : continuesWord d = true
    · have hwide := le_toNat_of_continuesWord hword hin hdollar hhash
      have hopens : opensWord d = true := by simp [opensWord, hwide]
      have hextends : ∀ e ∈ more.takeWhile continuesWord, extendsWord e = true :=
        fun e he => Atom.extendsWord_of_continuesWord (List.mem_takeWhile_imp he)
      have hsettled : Settled { s with region := .normal } := ⟨rfl, hidle⟩
      rw [List.takeWhile_cons_of_pos hword, feedText_cons, feedChar_settle hsound hdecides, hsettle,
        ← feedText_cons, feedText_word hsettled hopens hextends]
      exact .outside (.of_normal (s := pushWord { s with region := .normal } _) rfl _) fun _ _ => rfl
    · rw [List.takeWhile_cons_of_neg hword, List.dropWhile_cons_of_neg hword, feedText_nil]
      refine .outside ⟨by rw [hsettle], fun e he => .inr (.inl ?_)⟩ fun _ _ => rfl
      obtain rfl := Option.some.inj (Option.mem_def.1 he)
      exact hdecides

/-- A scanner that looks for a tag reads the word that the lexer finds there. -/
theorem facing_of_tag (hsound : s.Sound) (hregion : s.region = .dollarTag [])
    (hc : c.isAlpha ∨ c = '_')
    (hnext : ∀ d ∈ ((c :: cs).dropWhile Lexeme.inTag).head?, d ≠ '$' ∧ d ≠ '#') (offset : Nat) :
    Facing (feedText s (c :: cs.takeWhile continuesWord)).1
      (inWord word ⟨.token .word, c :: cs.takeWhile continuesWord, offset⟩)
      (cs.dropWhile continuesWord) := by
  have hstart := startsWord_of_opensTag hc
  have hopens := Atom.opensWord_of_startsWord hstart
  have hdigit := Atom.isDigit_of_startsWord hstart
  have hin := inTag_of_opensTag hc
  have hrest : ∀ d ∈ cs.takeWhile continuesWord, extendsWord d = true :=
    fun d hd => Atom.extendsWord_of_continuesWord (List.mem_takeWhile_imp hd)
  rw [inWord_word offset hopens hrest]
  -- the word is the tag and what stands behind it
  have hcontinues := continuesWord_of_inTag hin
  have hword : c :: cs.takeWhile continuesWord = (c :: cs).takeWhile continuesWord := by
    rw [List.takeWhile_cons_of_pos hcontinues]
  have hbehind : cs.dropWhile continuesWord = (c :: cs).dropWhile continuesWord := by
    rw [List.dropWhile_cons_of_pos hcontinues]
  rw [hword, hbehind]
  have hsplit := List.takeWhile_append_dropWhile (p := Lexeme.inTag) (l := c :: cs)
  have htag : ∀ d ∈ (c :: cs).takeWhile Lexeme.inTag, Lexeme.inTag d = true :=
    fun d hd => List.mem_takeWhile_imp hd
  have hfirst : ∀ d ∈ ((c :: cs).takeWhile Lexeme.inTag).head?, d.isDigit = false := by
    rw [List.takeWhile_cons_of_pos hin]
    rintro d hd
    obtain rfl := Option.some.inj (Option.mem_def.1 hd)
    exact hdigit
  have hstop : ∀ d ∈ ((c :: cs).dropWhile Lexeme.inTag).head?, Lexeme.inTag d = false := by
    intro d hd
    have hnot := List.head?_dropWhile_not Lexeme.inTag (c :: cs)
    rw [Option.mem_def.1 hd] at hnot
    exact hnot
  generalize (c :: cs).takeWhile Lexeme.inTag = tag at hsplit htag hfirst
  generalize (c :: cs).dropWhile Lexeme.inTag = more at hsplit hnext hstop
  rw [← hsplit, List.takeWhile_append_of_pos fun d hd => continuesWord_of_inTag (htag d hd),
    List.dropWhile_append_of_pos fun d hd => continuesWord_of_inTag (htag d hd)]
  obtain ⟨line, hread⟩ := feedText_dollarTag [] htag (fun _ => hfirst) hregion
  have htagged := sound_feedText hsound tag
  rw [hread] at htagged
  rw [feedText_append, hread]
  exact facing_behind_tag htagged rfl fun d hd => ⟨hstop d hd, hnext d hd⟩

/-- Where a segment is not misread, the scanner is outside behind it or looks for a tag. -/
theorem Facing.segment (h : Facing s word (c :: cs)) (hsound : s.Sound) (hends : LineEnds (c :: cs))
    (offset : Nat) {taken : SegmentKind × List Char × List Char}
    (htaken : taken = takeSegment s.rules c cs)
    (hagrees : misread s.rules word ⟨taken.1, taken.2.1, offset⟩ taken.2.2 = false)
    (hfinished : (feedText s (c :: cs)).1.unfinished? = none) :
    Facing (feedText s taken.2.1).1 (inWord word ⟨taken.1, taken.2.1, offset⟩) taken.2.2 ∧
      (taken.1 ∈ literalKinds → (feedText s taken.2.1).2 = false) := by
  cases h with
  | outside h hword =>
    unfold takeSegment at htaken
    split at htaken
    case isTrue hc =>
      subst htaken
      exact ⟨h.facing_blank hsound hword hends hc offset, by simp [literalKinds]⟩
    case isFalse hc =>
      split at htaken
      case h_1 text rest hcomment =>
        subst htaken
        have hfree : c = '#' → word = false := by
          rintro rfl
          obtain ⟨hne, happend⟩ := splits_takeComment? _ _ _ _ hcomment
          obtain ⟨d, text, rfl⟩ := List.exists_cons_of_ne_nil hne
          obtain ⟨rfl, -⟩ := List.cons.inj happend
          simpa [misread] using hagrees
        obtain ⟨hfacing, hcut⟩ := h.facing_comment hsound hword hends hcomment hfree
        exact ⟨hfacing, fun _ => hcut⟩
      case h_2 hcomment =>
        subst htaken
        have hreturn : c ≠ '\r' := by
          rintro rfl
          exact absurd hc (by decide)
        exact h.facing_token hsound hword hends offset hreturn hcomment (read s.rules c cs) hagrees
          hfinished
  | tag hregion hfirst hnext =>
    obtain ⟨d, hd, hc⟩ := hfirst
    obtain rfl := Option.some.inj (Option.mem_def.1 hd)
    subst htaken
    rw [takeSegment_of_startsWord s.rules (startsWord_of_opensTag hc)]
    exact ⟨facing_of_tag hsound hregion hc hnext offset, by simp [literalKinds]⟩

/-! ### All segments -/

theorem le_offset_of_mem (rules : LexicalRules) (offset : Nat) (cs : List Char) :
    ∀ seg ∈ segmentsFrom rules offset cs, offset ≤ seg.offset := by
  fun_induction segmentsFrom rules offset cs with
  | case1 => exact fun seg hseg => absurd hseg List.not_mem_nil
  | case2 offset c cs _ ih =>
    exact List.forall_mem_cons.2 ⟨Nat.le_refl _, fun seg hseg => by have hle := ih seg hseg; omega⟩

theorem uncut_of_lt_misread (offset : Nat) (cs front : List Char) (hoffset : offset = width front)
    (hends : LineEnds cs) (hfacing : Facing (after rules front) word cs)
    (hfinished : (after rules (front ++ cs)).unfinished? = none) :
    ∀ seg ∈ segmentsFrom rules offset cs, seg.kind ∈ literalKinds →
      (∀ m ∈ firstMisread? rules word (segmentsFrom rules offset cs), seg.offset < m.offset) →
      Uncut rules (front ++ cs) seg.offset seg.stop := by
  -- segment by segment: `Facing` is what the scanner keeps until one is misread
  fun_induction segmentsFrom rules offset cs generalizing front word with
  | case1 offset => exact fun seg hseg => absurd hseg List.not_mem_nil
  | case2 offset c cs _ ih =>
    subst hoffset
    intro seg hseg hkind hfirst
    rw [firstMisread?, flatMap_text_segmentsFrom] at hfirst
    split at hfirst
    case isTrue =>
      have hlt := hfirst _ rfl
      have hle : width front ≤ seg.offset := by
        rcases List.mem_cons.1 hseg with rfl | hseg
        · exact Nat.le_refl _
        · exact (Nat.le_add_right _ _).trans (le_offset_of_mem _ _ _ _ hseg)
      exact absurd hle (Nat.not_le.2 hlt)
    case isFalse hagrees =>
      have hrules : (after rules front).rules = rules := rules_after rules front
      have happend := (takeSegment_append rules c cs).2
      rw [after_append_text] at hfinished
      obtain ⟨hnext, hcut⟩ := hfacing.segment (sound_after rules front) hends (width front) rfl
        (by rw [hrules]; exact Bool.not_eq_true _ ▸ hagrees) hfinished
      rw [hrules] at hnext hcut
      rw [← after_append_text] at hnext hfinished
      generalize takeSegment rules c cs = taken at happend hnext hcut hseg hfirst ih
      obtain ⟨kind, text, rest⟩ := taken
      dsimp only at happend hnext hcut hseg hfirst ih
      rw [← happend, ← List.append_assoc] at hfinished ⊢
      rcases List.mem_cons.1 hseg with rfl | hseg
      · exact uncut_of_feedText rest (hcut hkind)
      · exact ih (front ++ text) (width_append _ _).symm (hends.of_suffix ⟨text, happend⟩) hnext
          hfinished seg hseg hkind hfirst

theorem exists_segment_of_token {d : Dialect} {script : List Char} {t : Token}
    (h : t ∈ tokenize d script) : ∃ seg ∈ segmentsFrom d.rules 0 script,
      seg.kind = .token t.kind ∧ seg.offset = t.offset ∧ seg.stop = t.stop := by
  rw [tokenize, tokensFrom_eq_filterMap] at h
  obtain ⟨seg, hseg, htoken⟩ := List.mem_filterMap.1 h
  refine ⟨seg, hseg, ?_⟩
  unfold Segment.token? at htoken
  split at htoken
  case h_1 kind hkind =>
    obtain rfl := Option.some.inj htoken
    exact ⟨hkind, rfl, rfl⟩
  case h_2 => exact absurd htoken (by simp)

/-- **Statements end outside what is quoted or commented out.** In a script that does not end inside
a region, no statement ends inside a literal, a quoted identifier or a comment that lies in front of
every misread segment. -/
theorem uncut_of_not_misread {d : Dialect} {script : List Char} (hends : LineEnds script)
    (hfinish : ∃ s, (scan d.rules (encode script)).scanner.finish = .ok s) :
    (∀ t ∈ tokenize d script, t.kind ∈ [.string, .quotedIdent, .dollarString] →
      Agreed d script t.offset → Uncut d.rules script t.offset t.stop) ∧
    ∀ comment ∈ comments d script, Agreed d script comment.offset →
      Uncut d.rules script comment.offset comment.stop := by
  have hscanner : (scan d.rules (encode script)).scanner = after d.rules script := by
    rw [(scanner_scan d.rules (encode script)).1, after_eq_feedText]
    rfl
  rw [finish_eq_ok_iff, hscanner] at hfinish
  have hfacing : Facing (after d.rules []) false script :=
    .outside (.of_normal rfl script) fun _ hne => absurd rfl hne
  have huncut := uncut_of_lt_misread 0 script [] rfl hends hfacing hfinish
  rw [List.nil_append] at huncut
  refine ⟨fun t ht hkind hagreed => ?_, fun comment hcomment hagreed => ?_⟩
  · obtain ⟨seg, hseg, hsame, hstart, hstop⟩ := exists_segment_of_token ht
    rw [← hstart, ← hstop]
    refine huncut seg hseg ?_ (hstart ▸ hagreed)
    rw [hsame]
    simp only [List.mem_cons, List.not_mem_nil, or_false] at hkind
    rcases hkind with h | h | h <;> rw [h] <;> decide
  · obtain ⟨hseg, hkind⟩ := List.mem_filter.1 hcomment
    refine huncut comment hseg ?_ hagreed
    rw [of_decide_eq_true hkind]
    decide

instance Agreed.decidable (d : Dialect) (script : List Char) (offset : Nat) :
    Decidable (Agreed d script offset) :=
  decidable_of_iff ((firstMisread? d.rules false (segmentsFrom d.rules 0 script)).all
    (offset < ·.offset)) (by simp [Agreed, Option.all_eq_true])

/-- An escaped quote and a `#` comment, and a tag. -/
theorem uncut_of_not_misread_two_scripts :
    (∀ comment ∈ comments .mysql "SELECT 'a\\';', \x22b;\x22 # c;\n;".toList,
      Uncut Dialect.mysql.rules "SELECT 'a\\';', \x22b;\x22 # c;\n;".toList comment.offset
        comment.stop) ∧
    ∀ t ∈ tokenize .postgres "SELECT $a$b;$a$ || $1;".toList,
      t.kind ∈ [.string, .quotedIdent, .dollarString] →
        Uncut Dialect.postgres.rules "SELECT $a$b;$a$ || $1;".toList t.offset t.stop := by
  refine ⟨fun comment hcomment => ?_, fun t ht hkind => ?_⟩
  · have hagreed : ∀ comment ∈ comments .mysql "SELECT 'a\\';', \x22b;\x22 # c;\n;".toList,
        Agreed .mysql "SELECT 'a\\';', \x22b;\x22 # c;\n;".toList comment.offset := by
      decide +kernel
    exact (uncut_of_not_misread (by decide +kernel) ⟨_, rfl⟩).2 comment hcomment
      (hagreed comment hcomment)
  · have hagreed : ∀ t ∈ tokenize .postgres "SELECT $a$b;$a$ || $1;".toList,
        Agreed .postgres "SELECT $a$b;$a$ || $1;".toList t.offset := by
      decide +kernel
    exact (uncut_of_not_misread (by decide +kernel) ⟨_, rfl⟩).1 t ht hkind (hagreed t ht)

/-- To a scanner the `#` of this MySQL comment goes on with the number. -/
example : (scan Dialect.mysql.rules (encode "SELECT 1# a;b\n;".toList)).boundaries =
    [⟨14, true⟩, ⟨11, true⟩] := by decide +kernel

end DdlBridge.Statement
