import DdlBridge.Proofs.Statement.Lexeme

/-!
# Reading scripts

Reading a script is taking its lexemes in order (`feedText_script`), so what a scan of its bytes
reports is known from them (`boundaries_script_iff`).
-/

namespace DdlBridge.Statement

open Scanner Text

variable {rules : LexicalRules} {s : Scanner}

/-! ### Quoted text -/

theorem feedChar_quote {quote c : Char} (hquote : quote.toNat < 128)
    (hregion : s.region = .quote quote) (hlineQuoted : s.lineQuoted = true) (hc : c ≠ quote)
    (hescape : ¬ (c = '\\' ∧ escapesIn s.rules quote = true)) :
    ∃ line, feedChar s c = ({ s with line }, false) := by
  have hstep : ∀ ch : Char, ch ≠ quote → ¬ (ch = '\\' ∧ escapesIn s.rules quote = true) →
      ch ≠ '\n' → s.step ch = (s, false) := by
    intro ch hch hplain hline
    simp only [escapesIn, Bool.and_eq_true, Bool.or_eq_true, beq_iff_eq] at hplain
    simp only [step, hregion]
    rw [if_neg hch, if_neg hplain, if_neg hline]
  by_cases hline : c = '\n'
  · subst hline
    refine ⟨[], ?_⟩
    rw [feedChar_of_lt s (by decide)]
    simp only [step, hregion]
    rw [if_neg hc, if_neg (fun h => absurd h.1 (by decide))]
    simp only [if_true, resetLine, hlineQuoted, hregion]
  · refine ⟨s.line, ?_⟩
    rcases Nat.lt_or_ge c.toNat 128 with h | h
    · rw [feedChar_of_lt s h]
      exact hstep c hc hescape hline
    · have hwide : ∀ ch : Char, 128 ≤ ch.toNat → s.step ch = (s, false) := by
        intro ch hch
        refine hstep ch (ne_of_le_toNat hch hquote) (fun h => ?_) (ne_of_le_toNat hch (by decide))
        exact ne_of_le_toNat hch (by decide) h.1
      exact feedChar_of_steps h hwide hwide

theorem feedChar_escape {quote : Char} (hquote : quote.toNat < 128)
    (hregion : s.region = .escape quote) (c : Char) :
    feedChar s c = ({ s with region := .quote quote }, false) := by
  have hstep : ∀ ch : Char, s.step ch = ({ s with region := .quote quote }, false) := by
    intro ch
    simp only [step, hregion]
  rcases Nat.lt_or_ge c.toNat 128 with h | h
  · rw [feedChar_of_lt s h, hstep]
  · refine feedChar_of_steps h (fun ch _ => hstep ch) fun ch hch => ?_
    simp only [step]
    rw [if_neg (ne_of_le_toNat hch hquote),
      if_neg (fun h => absurd h.1 (ne_of_le_toNat hch (by decide))),
      if_neg (ne_of_le_toNat hch (by decide))]

theorem feedText_enclosed {quote : Char} (hquote : quote.toNat < 128) {body : List Char}
    (hbody : Enclosed rules quote body) (hrules : s.rules = rules)
    (hregion : s.region = .quote quote) (hlineQuoted : s.lineQuoted = true) :
    ∃ line, feedText s body = ({ s with line }, false) := by
  induction hbody generalizing s with
  | nil => exact ⟨s.line, rfl⟩
  | char hne hescape _ ih =>
    obtain ⟨line, hfirst⟩ := feedChar_quote hquote hregion hlineQuoted hne (by rwa [hrules])
    obtain ⟨line', hrest⟩ := ih (s := { s with line }) hrules hregion hlineQuoted
    exact ⟨line', by rw [feedText_cons_of_uncut hfirst, hrest]⟩
  | @doubled cs _ ih =>
    have hclose : feedChar s quote = ({ s with region := .quoteEnd quote }, false) := by
      rw [feedChar_of_lt s hquote]
      simp only [step, hregion, if_true]
    have hopen : feedChar { s with region := .quoteEnd quote } quote = (s, false) := by
      rw [feedChar_of_lt _ hquote]
      simp only [step, if_true, ← hregion]
    obtain ⟨line, hrest⟩ := ih hrules hregion hlineQuoted
    exact ⟨line, by rw [feedText_cons_of_uncut hclose, feedText_cons_of_uncut hopen, hrest]⟩
  | @escaped c cs hne hescape _ ih =>
    have hslash : feedChar s '\\' = ({ s with region := .escape quote }, false) := by
      simp only [escapesIn, Bool.and_eq_true, Bool.or_eq_true, beq_iff_eq] at hescape
      rw [feedChar_of_lt s (by decide)]
      simp only [step, hregion]
      rw [if_neg hne, if_pos ⟨trivial, by rwa [hrules]⟩]
    have hnext := feedChar_escape (s := { s with region := .escape quote }) hquote rfl c
    obtain ⟨line, hrest⟩ := ih hrules hregion hlineQuoted
    refine ⟨line, ?_⟩
    rw [feedText_cons_of_uncut hslash, feedText_cons_of_uncut hnext, ← hregion]
    exact hrest

theorem closing_of_opensQuote {opening : Char} (h : opensQuote rules opening = true) :
    (closing opening).toNat < 128 := by
  simp only [opensQuote, Bool.or_eq_true, Bool.and_eq_true, beq_iff_eq] at h
  obtain ((rfl | rfl) | ⟨-, rfl⟩) | ⟨-, rfl⟩ := h <;> decide

theorem stepSymbol_of_opensQuote {opening : Char} (h : opensQuote s.rules opening = true) :
    opensWord opening = false ∧
      s.stepSymbol opening = (s.enterQuote (closing opening), false) := by
  simp only [opensQuote, Bool.or_eq_true, Bool.and_eq_true, beq_iff_eq] at h
  obtain ((rfl | rfl) | ⟨hrules, rfl⟩) | ⟨hrules, rfl⟩ := h
  · exact ⟨by decide, rfl⟩
  · exact ⟨by decide, rfl⟩
  · exact ⟨by decide, by rw [stepSymbol, if_pos hrules]; rfl⟩
  · exact ⟨by decide, by rw [stepSymbol, if_pos hrules]; rfl⟩

/-- Behind the closing quote the scanner waits for a second one. -/
theorem feedText_quoted (hs : Settled s) {opening : Char} {body : List Char}
    (h : opensQuote s.rules opening = true) (hbody : Enclosed s.rules (closing opening) body) :
    ∃ line, feedText s (Lexeme.quoted opening body).text =
      ({ s.enterQuote (closing opening) with line, region := .quoteEnd (closing opening) }, false) := by
  have hclosing := closing_of_opensQuote h
  obtain ⟨hword, hsymbol⟩ := stepSymbol_of_opensQuote h
  have hopen := (hs.stepNormal hword).trans hsymbol
  obtain ⟨line, hinside⟩ := feedText_enclosed (s := s.enterQuote (closing opening)) hclosing hbody
    rfl rfl rfl
  have hclose : feedChar { s.enterQuote (closing opening) with line } (closing opening) =
      ({ s.enterQuote (closing opening) with line, region := .quoteEnd (closing opening) }, false) := by
    rw [feedChar_of_lt _ hclosing]
    simp only [step, enterQuote, if_true]
  refine ⟨line, ?_⟩
  rw [Lexeme.text, feedText_cons_of_uncut hopen, feedText_append, hinside, feedText_singleton, hclose]
  rfl

theorem reads_quoted (hs : Settled s) {opening : Char} {body : List Char}
    (h : opensQuote s.rules opening = true) (hbody : Enclosed s.rules (closing opening) body) :
    ReadsAs s (.quoted opening body) := by
  obtain ⟨line, hread⟩ := feedText_quoted hs h hbody
  refine ⟨?_, ?_, fun d hd => ?_⟩
  · rw [take, hread]
    simp only [settle, enterQuote, hs.region]
  · rw [hread]
    rfl
  · rw [hread]
    simp only [Lexeme.endsAt, bne_iff_ne, ne_eq] at hd
    exact ⟨hd, closing_of_opensQuote h⟩

/-! ### Comments -/

theorem feedText_lineComment (hregion : s.region = .lineComment) {body : List Char}
    (hbody : '\n' ∉ body) : feedText s body = (s, false) := by
  induction body with
  | nil => rfl
  | cons c body ih =>
    have hc : c ≠ '\n' := fun heq => hbody (heq ▸ List.mem_cons_self)
    rw [feedText_cons_of_uncut (feedChar_lineComment hregion hc)]
    exact ih fun hmem => hbody (List.mem_cons_of_mem _ hmem)

theorem feedText_marked (hs : Settled s) {mark body : List Char}
    (hmark : mark = ['-', '-'] ∨ (s.rules.hashComments = true ∧ mark = ['#'])) (hbody : '\n' ∉ body) :
    feedText s (Lexeme.lineComment mark body).text = ({ s with region := .lineComment }, false) := by
  have hopen : feedText s mark = ({ s with region := .lineComment }, false) := by
    rcases hmark with rfl | ⟨hrules, rfl⟩
    · have hfirst := hs.stepNormal (c := '-') (by decide)
      have hsecond : feedChar { s.pushLine '-' with region := .dash } '-' =
          ({ s with region := .lineComment }, false) := by
        rw [feedChar_of_lt _ (by decide)]
        rfl
      rw [feedText_cons_of_uncut hfirst, feedText_singleton, hsecond]
    · rw [feedText_singleton, hs.stepNormal (by decide), stepSymbol, if_pos hrules]
  rw [Lexeme.text, feedText_append, hopen, feedText_lineComment rfl hbody]
  rfl

theorem reads_lineComment (hs : Settled s) {mark body : List Char}
    (hmark : mark = ['-', '-'] ∨ (s.rules.hashComments = true ∧ mark = ['#'])) (hbody : '\n' ∉ body) :
    ReadsAs s (.lineComment mark body) := by
  have hread := feedText_marked hs hmark hbody
  refine ⟨?_, ?_, fun d hd => ?_⟩
  · rw [hread, settle, take]
    simp only [← hs.region]
  · rw [hread]
    rfl
  · rw [hread]
    simpa [decides, Lexeme.endsAt] using hd

/-- The scanner behind text of a block comment. -/
def passLines (s : Scanner) (body : List Char) : Scanner :=
  if '\n' ∈ body then s.resetLine false else s

theorem passLines_cons (s : Scanner) (c : Char) (body : List Char) :
    passLines (passLines s [c]) body = passLines s (c :: body) := by
  unfold passLines
  by_cases hc : '\n' = c
  · subst hc
    simp [resetLine]
  · simp [hc]

theorem passLines_of_ne (s : Scanner) {c : Char} (hc : c ≠ '\n') (body : List Char) :
    passLines s (c :: body) = passLines s body := by
  unfold passLines
  simp [hc.symm]

theorem exists_of_breakOn_cons {needle : List Char} {c : Char} {cs body rest : List Char}
    (hnot : needle.isPrefixOf (c :: cs) = false) (h : breakOn needle (c :: cs) = some (body, rest)) :
    ∃ inner, breakOn needle cs = some (inner, rest) ∧ body = c :: inner := by
  rw [breakOn, if_neg (by rw [hnot]; simp)] at h
  exact Taken.behind_eq_some_iff.1 h

theorem feedChar_comment (s : Scanner) {c : Char} (hstar : c ≠ '*') :
    feedChar { s with region := .blockComment } c =
      ({ passLines s [c] with region := .blockComment }, false) := by
  by_cases hc : c = '\n'
  · subst hc
    rw [feedChar_of_lt _ (by decide)]
    rfl
  · rw [feedChar_blockComment rfl hstar hc, passLines_of_ne s hc]
    rfl

theorem feedChar_commentStar (s : Scanner) {c : Char} (hslash : c ≠ '/') (hstar : c ≠ '*') :
    feedChar { s with region := .blockCommentStar } c =
      ({ passLines s [c] with region := .blockComment }, false) := by
  by_cases hc : c = '\n'
  · subst hc
    rw [feedChar_of_lt _ (by decide)]
    rfl
  · rw [feedChar_blockCommentStar rfl hslash hstar hc, passLines_of_ne s hc]
    rfl

theorem feedText_blockComment (s : Scanner) {cs body : List Char} :
    (breakOn ['*', '/'] cs = some (body, []) → feedText { s with region := .blockComment } cs =
      ({ passLines s body with region := .normal }, false)) ∧
    (breakOn ['*', '/'] ('*' :: cs) = some (body, []) →
      feedText { s with region := .blockCommentStar } cs =
        ({ passLines s body with region := .normal }, false)) := by
  induction cs generalizing s body with
  | nil => exact ⟨fun h => absurd h (by simp [breakOn]), fun h => absurd h (by simp [breakOn, Taken.behind])⟩
  | cons c cs ih =>
    constructor
    · intro h
      by_cases hstar : c = '*'
      · subst hstar
        have hfeed : feedChar { s with region := .blockComment } '*' =
            ({ s with region := .blockCommentStar }, false) := by
          rw [feedChar_of_lt _ (by decide)]
          rfl
        rw [feedText_cons_of_uncut hfeed]
        exact (ih s).2 h
      · obtain ⟨inner, hinner, rfl⟩ := exists_of_breakOn_cons (isPrefixOf_cons_of_ne hstar _ _) h
        rw [feedText_cons_of_uncut (feedChar_comment s hstar), (ih (passLines s [c])).1 hinner,
          passLines_cons]
    · intro h
      by_cases hslash : c = '/'
      · subst hslash
        have hends : ([], cs) = (body, []) := Option.some.inj h
        obtain ⟨rfl, rfl⟩ := Prod.mk.inj hends
        rw [feedText_singleton, feedChar_of_lt _ (by decide)]
        rfl
      · have hnot : ['*', '/'].isPrefixOf ('*' :: c :: cs) = false := by
          rw [List.isPrefixOf_cons_cons, isPrefixOf_cons_of_ne hslash, Bool.and_false]
        obtain ⟨inner, hinner, rfl⟩ := exists_of_breakOn_cons hnot h
        rw [passLines_of_ne s (by decide)]
        by_cases hstar : c = '*'
        · subst hstar
          have hfeed : feedChar { s with region := .blockCommentStar } '*' =
              ({ s with region := .blockCommentStar }, false) := by
            rw [feedChar_of_lt _ (by decide)]
            rfl
          rw [feedText_cons_of_uncut hfeed]
          exact (ih s).2 hinner
        · obtain ⟨more, hmore, rfl⟩ := exists_of_breakOn_cons (isPrefixOf_cons_of_ne hstar _ _) hinner
          rw [feedText_cons_of_uncut (feedChar_commentStar s hslash hstar),
            (ih (passLines s [c])).1 hmore, passLines_cons]

/-- A block comment that is closed. -/
theorem feedText_block (hs : Settled s) {body : List Char}
    (hbody : breakOn ['*', '/'] (body ++ ['*', '/']) = some (body, [])) :
    feedText s (Lexeme.blockComment body).text = (passLines s body, false) := by
  have hfirst := hs.stepNormal (c := '/') (by decide)
  have hsecond : feedChar { s.pushLine '/' with region := .slash } '*' =
      ({ s with region := .blockComment }, false) := by
    rw [feedChar_of_lt _ (by decide)]
    rfl
  have hsame : ({ passLines s body with region := .normal } : Scanner) = passLines s body := by
    unfold passLines
    split
    · simp only [resetLine, ← hs.region]
    · simp only [← hs.region]
  rw [Lexeme.text, feedText_cons_of_uncut hfirst, feedText_cons_of_uncut hsecond,
    (feedText_blockComment s).1 hbody, hsame]

theorem Settled.passLines (hs : Settled s) (body : List Char) : Settled (passLines s body) := by
  unfold DdlBridge.Statement.passLines
  split
  · exact ⟨hs.region, hs.word⟩
  · exact hs

theorem reads_blockComment (hs : Settled s) {body : List Char}
    (hbody : breakOn ['*', '/'] (body ++ ['*', '/']) = some (body, [])) :
    ReadsAs s (.blockComment body) := by
  have hread := feedText_block hs hbody
  refine ⟨?_, ?_, fun d _ => ?_⟩
  · rw [hread, (hs.passLines body).settle]
    rfl
  · rw [hread]
    rfl
  · rw [hread]
    exact (hs.passLines body).decides d

/-! ### Dollar-quoted literals -/

theorem lt_of_inTag {c : Char} (h : Lexeme.inTag c = true) : c.toNat < 128 := by
  rcases Nat.lt_or_ge c.toNat 128 with hc | hc
  · exact hc
  · have hunder : c ≠ '_' := ne_of_le_toNat hc (by decide)
    simp [Lexeme.inTag, isAlpha_eq_false hc, isDigit_eq_false hc, hunder] at h

theorem dollar_not_inTag {tag : List Char} (htag : ∀ c ∈ tag, Lexeme.inTag c = true) : '$' ∉ tag :=
  fun hmem => absurd (htag '$' hmem) (by decide)

/-- What the tag of a dollar-quoted literal is found to be behind a text. -/
def foundAfter (tag cs : List Char) : Option Nat := cs.foldl (dollarFound tag) none

theorem foundAfter_concat (tag cs : List Char) (c : Char) :
    foundAfter tag (cs ++ [c]) = dollarFound tag (foundAfter tag cs) c := by
  rw [foundAfter, List.foldl_append]
  rfl

/-- What is found has been read. -/
theorem suffix_of_foundAfter {tag cs : List Char} {k : Nat} (h : foundAfter tag cs = some k) :
    k ≤ tag.length ∧ '$' :: tag.take k <:+ cs := by
  induction cs using List.reverseRecOn generalizing k with
  | nil => simp [foundAfter] at h
  | append_singleton cs c ih =>
    rw [foundAfter_concat, dollarFound] at h
    have hdollar : c = '$' → some 0 = some k → k ≤ tag.length ∧ '$' :: tag.take k <:+ cs ++ [c] := by
      rintro rfl hk
      obtain rfl := Option.some.inj hk
      exact ⟨Nat.zero_le _, List.suffix_append cs ['$']⟩
    split at h
    case h_1 t hnext =>
      obtain ⟨j, hj, hget⟩ := Option.bind_eq_some_iff.1 hnext
      split at h
      case isTrue hc =>
        rw [hj] at h
        obtain rfl := Option.some.inj h
        obtain ⟨-, front, hfront⟩ := ih hj
        refine ⟨(List.getElem?_eq_some_iff.1 hget).1, front, ?_⟩
        rw [List.take_add_one, hget, ← hfront, hc]
        simp
      case isFalse =>
        split at h
        case isTrue hc => exact hdollar hc h
        case isFalse => exact absurd h (by simp)
    case h_2 =>
      split at h
      case isTrue hc => exact hdollar hc.2 h
      case isFalse => exact absurd h (by simp)

/-- What closes a dollar-quoted literal is its delimiter. -/
theorem not_closes_of_not_within {tag cs : List Char} {c : Char}
    (h : ¬ '$' :: (tag ++ ['$']) <:+: cs ++ [c]) :
    ¬ (foundAfter tag cs = some tag.length ∧ c = '$') := by
  rintro ⟨hfound, rfl⟩
  obtain ⟨-, front, hfront⟩ := suffix_of_foundAfter hfound
  refine h ⟨front, [], ?_⟩
  rw [← hfront, List.take_length]
  simp

theorem dollarFound_dollar {tag : List Char} (htag : '$' ∉ tag) {found : Option Nat}
    (h : ∀ k, found = some k → k < tag.length) : dollarFound tag found '$' = some 0 := by
  unfold dollarFound
  split
  case h_1 t hnext =>
    obtain ⟨j, -, hget⟩ := Option.bind_eq_some_iff.1 hnext
    have hne : '$' ≠ t := fun heq => htag (heq ▸ List.mem_of_getElem? hget)
    rw [if_neg hne, if_pos rfl]
  case h_2 hnext =>
    cases found with
    | none => rfl
    | some k =>
      have hget : tag[k]? = none := hnext
      exact absurd (h k rfl) (Nat.not_lt.2 (List.getElem?_eq_none_iff.1 hget))

theorem foldl_dollarFound (front rest : List Char) :
    rest.foldl (dollarFound (front ++ rest)) (some front.length) =
      some (front ++ rest).length := by
  induction rest generalizing front with
  | nil => rw [List.foldl_nil, List.append_nil]
  | cons c rest ih =>
    have hfound : dollarFound (front ++ c :: rest) (some front.length) c =
        some (front ++ [c]).length := by
      simp [dollarFound]
    have hsplit : front ++ c :: rest = front ++ [c] ++ rest := by simp
    rw [List.foldl_cons, hfound, hsplit]
    exact ih (front ++ [c])

theorem dollarFound_of_le {tag : List Char} (htag : ∀ c ∈ tag, Lexeme.inTag c = true)
    (found : Option Nat) {c : Char} (hc : 128 ≤ c.toNat) : dollarFound tag found c = none := by
  have hdollar : c ≠ '$' := ne_of_le_toNat hc (by decide)
  unfold dollarFound
  split
  case h_1 t hnext =>
    obtain ⟨j, -, hget⟩ := Option.bind_eq_some_iff.1 hnext
    have hne : c ≠ t := ne_of_le_toNat hc (lt_of_inTag (htag t (List.mem_of_getElem? hget)))
    rw [if_neg hne, if_neg hdollar]
  case h_2 => rw [if_neg fun h => hdollar h.2]

theorem feedChar_dollar {tag : List Char} (htag : ∀ c ∈ tag, Lexeme.inTag c = true)
    {found : Option Nat} (hregion : s.region = .dollar tag found) (hlineQuoted : s.lineQuoted = true)
    {c : Char} (hopen : ¬ (found = some tag.length ∧ c = '$')) :
    ∃ line, feedChar s c = ({ s with region := .dollar tag (dollarFound tag found c), line }, false) := by
  rcases Nat.lt_or_ge c.toNat 128 with h | h
  · rw [feedChar_of_lt s h]
    simp only [step, hregion]
    rw [stepDollar, if_neg hopen]
    by_cases hc : c = '\n'
    · refine ⟨[], ?_⟩
      rw [if_pos hc]
      simp only [resetLine, hlineQuoted]
    · refine ⟨s.line, ?_⟩
      rw [if_neg hc]
  · refine ⟨s.line, ?_⟩
    rw [dollarFound_of_le htag found h]
    have hwide : ∀ t : Scanner, ∀ before, t.region = .dollar tag before → ∀ ch : Char,
        128 ≤ ch.toNat → t.step ch = ({ t with region := .dollar tag none }, false) := by
      intro t before ht ch hch
      simp only [step, ht]
      rw [stepDollar, if_neg (fun h => ne_of_le_toNat hch (by decide) h.2),
        if_neg (ne_of_le_toNat hch (by decide)), dollarFound_of_le htag before hch]
    exact feedChar_of_steps h (hwide s found hregion) (hwide _ none rfl)

theorem feedText_dollar {tag : List Char} (htag : ∀ c ∈ tag, Lexeme.inTag c = true)
    (hregion : s.region = .dollar tag none) (hlineQuoted : s.lineQuoted = true) {cs : List Char}
    (hcs : ¬ '$' :: (tag ++ ['$']) <:+: cs) :
    ∃ line, feedText s cs = ({ s with region := .dollar tag (foundAfter tag cs), line }, false) := by
  induction cs using List.reverseRecOn with
  | nil => exact ⟨s.line, by rw [feedText_nil, foundAfter, List.foldl_nil, ← hregion]⟩
  | append_singleton cs c ih =>
    obtain ⟨line, hread⟩ := ih fun h => hcs (h.trans (List.prefix_append cs [c]).isInfix)
    have hopen := not_closes_of_not_within hcs
    obtain ⟨line', hlast⟩ := feedChar_dollar
      (s := { s with region := .dollar tag (foundAfter tag cs), line }) htag rfl hlineQuoted hopen
    refine ⟨line', ?_⟩
    rw [feedText_append, hread, feedText_singleton, hlast, foundAfter_concat]
    rfl

/-- Behind the body of a dollar-quoted literal its tag is found. -/
theorem foundAfter_tag {tag body : List Char} (htag : '$' ∉ tag)
    (hbody : ¬ '$' :: (tag ++ ['$']) <:+: body ++ '$' :: tag) :
    foundAfter tag (body ++ '$' :: tag) = some tag.length := by
  have hstart : foundAfter tag (body ++ ['$']) = some 0 := by
    rw [foundAfter_concat]
    refine dollarFound_dollar htag fun k hk => ?_
    obtain ⟨hle, front, hfront⟩ := suffix_of_foundAfter hk
    refine Nat.lt_of_le_of_ne hle fun heq => hbody ⟨front, tag, ?_⟩
    rw [← hfront, heq, List.take_length]
    simp
  have hsplit : body ++ '$' :: tag = body ++ ['$'] ++ tag := by simp
  rw [hsplit, foundAfter, List.foldl_append]
  rw [foundAfter] at hstart
  rw [hstart]
  exact foldl_dollarFound [] tag

theorem feedText_dollarTag (front : List Char) {tag : List Char} (htag : ∀ c ∈ tag, Lexeme.inTag c = true)
    (hfirst : front = [] → ∀ c ∈ tag.head?, c.isDigit = false)
    (hregion : s.region = .dollarTag front) :
    ∃ line, feedText s tag = ({ s with region := .dollarTag (front ++ tag), line }, false) := by
  induction tag generalizing s front with
  | nil => exact ⟨s.line, by rw [feedText_nil, List.append_nil, ← hregion]⟩
  | cons c tag ih =>
    have hin := htag c List.mem_cons_self
    have hdollar : c ≠ '$' := fun heq => absurd (heq ▸ hin) (by decide)
    have hgoes : c.isAlpha ∨ c = '_' ∨ (c.isDigit ∧ front ≠ []) := by
      simp only [Lexeme.inTag, Bool.or_eq_true, beq_iff_eq] at hin
      rcases hin with (halpha | hunder) | hdigit
      · exact .inl halpha
      · exact .inr (.inl hunder)
      · refine .inr (.inr ⟨hdigit, fun hfront => ?_⟩)
        have hnot := hfirst hfront c rfl
        rw [hdigit] at hnot
        exact absurd hnot (by simp)
    have hfeed : feedChar s c =
        ({ s with region := .dollarTag (front ++ [c]), line := c :: s.line }, false) := by
      rw [feedChar_of_lt s (lt_of_inTag hin)]
      simp only [step, hregion]
      rw [if_neg hdollar, if_pos hgoes]
      rfl
    obtain ⟨line, hrest⟩ := ih (front ++ [c])
      (s := { s with region := .dollarTag (front ++ [c]), line := c :: s.line })
      (fun d hd => htag d (List.mem_cons_of_mem _ hd)) (fun h => absurd h (by simp)) rfl
    refine ⟨line, ?_⟩
    rw [feedText_cons_of_uncut hfeed, hrest, List.append_assoc]
    rfl

/-- The scanner in a dollar-quoted literal that it met when it was `s`. -/
def inDollar (s : Scanner) (region : Region) (line : List Char) (quoted : Bool) : Scanner :=
  { s with content := true, previous := .quoted, region, line, lineQuoted := quoted }

/-- `$tag$` opens a dollar-quoted literal. -/
theorem feedText_opening (hs : Settled s) {tag : List Char} (hrules : s.rules.dollarQuotes = true)
    (htag : ∀ c ∈ tag, Lexeme.inTag c = true) (hfirst : ∀ c ∈ tag.head?, c.isDigit = false) :
    ∃ line, feedText s ('$' :: (tag ++ ['$'])) = (inDollar s (.dollar tag none) line true, false) := by
  have hopen : feedChar s '$' = (inDollar s (.dollarTag []) ('$' :: s.line) s.lineQuoted, false) := by
    rw [hs.stepNormal (by decide), stepSymbol, if_pos hrules]
    rfl
  obtain ⟨line, htagged⟩ := feedText_dollarTag [] htag (fun _ => hfirst)
    (s := inDollar s (.dollarTag []) ('$' :: s.line) s.lineQuoted) rfl
  have hentered : feedChar (inDollar s (.dollarTag tag) line s.lineQuoted) '$' =
      (inDollar s (.dollar tag none) line true, false) := by
    rw [feedChar_of_lt _ (by decide)]
    rfl
  refine ⟨line, ?_⟩
  rw [feedText_cons_of_uncut hopen, feedText_append, htagged, feedText_singleton]
  exact congrArg (fun r => (r.1, false || r.2)) hentered

theorem reads_dollar (hs : Settled s) {tag body : List Char} (hrules : s.rules.dollarQuotes = true)
    (htag : ∀ c ∈ tag, Lexeme.inTag c = true) (hfirst : ∀ c ∈ tag.head?, c.isDigit = false)
    (hbody : ¬ '$' :: (tag ++ ['$']) <:+: body ++ '$' :: tag) : ReadsAs s (.dollar tag body) := by
  obtain ⟨line, hopening⟩ := feedText_opening hs hrules htag hfirst
  obtain ⟨line', hinside⟩ := feedText_dollar (s := inDollar s (.dollar tag none) line true)
    htag rfl rfl hbody
  rw [foundAfter_tag (dollar_not_inTag htag) hbody] at hinside
  have hclose : feedChar (inDollar s (.dollar tag (some tag.length)) line' true) '$' =
      (inDollar s .normal line' true, false) := by
    rw [feedChar_of_lt _ (by decide)]
    simp only [inDollar, step, stepDollar, and_self, if_true]
  have htext : (Lexeme.dollar tag body).text =
      '$' :: (tag ++ ['$']) ++ (body ++ '$' :: tag ++ ['$']) := by
    simp [Lexeme.text]
  have hread : feedText s (Lexeme.dollar tag body).text = (inDollar s .normal line' true, false) := by
    rw [htext, feedText_append, hopening, feedText_append, hinside, feedText_singleton]
    exact congrArg (fun r => (r.1, false || (false || r.2))) hclose
  have hsettled : Settled (inDollar s .normal line' true) := ⟨rfl, hs.word⟩
  refine ⟨?_, ?_, fun d _ => ?_⟩
  · rw [take, hread, hsettled.settle]
    simp only [inDollar, hs.region]
  · rw [hread]
    rfl
  · rw [hread]
    exact hsettled.decides d

/-! ### Lexemes in a row -/

theorem reads (hs : Settled s) {l : Lexeme} (hl : l.Formed s.rules) : ReadsAs s l := by
  cases hl with
  | blank h => exact reads_blank hs h
  | word hfirst hrest => exact reads_word hs hfirst hrest
  | punct h => exact reads_punct hs h
  | quoted h hbody => exact reads_quoted hs h hbody
  | dollar h htag hfirst hbody => exact reads_dollar hs h htag hfirst hbody
  | lineComment hmark hbody => exact reads_lineComment hs hmark hbody
  | blockComment hbody => exact reads_blockComment hs hbody

theorem Settled.take (hs : Settled s) (l : Lexeme) : Settled (take s l).1 := by
  cases l with
  | blank c =>
    rw [DdlBridge.Statement.take]
    split
    · exact hs.endLine
    · exact hs
  | word cs => exact ⟨(region_endWord _).trans hs.region, word_endWord _⟩
  | punct c => exact hs.take_punct c
  | quoted | dollar => exact ⟨hs.region, hs.word⟩
  | lineComment => exact hs
  | blockComment =>
    dsimp only [DdlBridge.Statement.take]
    split
    · exact ⟨hs.region, hs.word⟩
    · exact hs

theorem rules_take (s : Scanner) (l : Lexeme) : (take s l).1.rules = s.rules := by
  cases l with
  | blank c =>
    rw [take]
    split
    · exact rules_endLine s
    · rfl
  | word cs => exact rules_endWord _
  | punct c =>
    rw [take]
    split
    · exact rules_terminator _
    · rfl
  | quoted | dollar | lineComment => rfl
  | blockComment =>
    dsimp only [take]
    split
    · rfl
    · rfl

theorem settled_settle (hsound : s.Sound) {c : Char} (h : decides s c) : Settled (settle s) := by
  unfold decides at h
  unfold settle
  cases hregion : s.region <;> simp only [hregion] at h ⊢
  case normal => exact ⟨(region_endWord s).trans hregion, word_endWord s⟩
  all_goals exact ⟨rfl, hsound.word (by simp [hregion])⟩

theorem sound_feedText (hsound : s.Sound) (cs : List Char) : (feedText s cs).1.Sound := by
  induction cs generalizing s with
  | nil => exact hsound
  | cons c cs ih =>
    rw [feedText_cons]
    exact ih (sound_feedChar hsound c)

theorem Lexeme.Formed.text_ne_nil {l : Lexeme} (hl : l.Formed rules) : l.text ≠ [] := by
  cases hl with
  | lineComment hmark =>
    rcases hmark with rfl | ⟨-, rfl⟩
    · simp [Lexeme.text]
    · simp [Lexeme.text]
  | _ => simp [Lexeme.text]

/-- Takes lexemes in order; the flag says whether a statement ends at one of them. -/
def takeAll (s : Scanner) : List Lexeme → Scanner × Bool
  | [] => (s, false)
  | l :: ls => ((takeAll (take s l).1 ls).1, (take s l).2 || (takeAll (take s l).1 ls).2)

theorem takeAll_append (s : Scanner) (ls ls' : List Lexeme) :
    takeAll s (ls ++ ls') = ((takeAll (takeAll s ls).1 ls').1,
      (takeAll s ls).2 || (takeAll (takeAll s ls).1 ls').2) := by
  induction ls generalizing s with
  | nil => simp [takeAll]
  | cons l ls ih => simp only [List.cons_append, takeAll, ih, Bool.or_assoc]

theorem takeAll_concat (s : Scanner) (ls : List Lexeme) (l : Lexeme) :
    takeAll s (ls ++ [l]) =
      ((take (takeAll s ls).1 l).1, (takeAll s ls).2 || (take (takeAll s ls).1 l).2) := by
  simp [takeAll_append, takeAll]

theorem rules_takeAll (s : Scanner) (ls : List Lexeme) : (takeAll s ls).1.rules = s.rules := by
  induction ls generalizing s with
  | nil => rfl
  | cons l ls ih => exact (ih _).trans (rules_take s l)

theorem Settled.takeAll (hs : Settled s) (ls : List Lexeme) : Settled (takeAll s ls).1 := by
  induction ls generalizing s with
  | nil => exact hs
  | cons l ls ih => exact ih (hs.take l)

theorem rules_settle (s : Scanner) : (settle s).rules = s.rules := by
  unfold settle
  cases s.region with
  | normal => exact rules_endWord s
  | _ => rfl

/-- Reading a script is taking its lexemes. -/
theorem feedText_script {ls : List Lexeme} (h : Script rules ls) (hsound : s.Sound)
    (hrules : s.rules = rules) (hsettled : Settled (settle s))
    (hfirst : ∀ c ∈ (textOf ls).head?, decides s c) :
    settle (feedText s (textOf ls)).1 = (takeAll (settle s) ls).1 ∧
      (feedText s (textOf ls)).2 = (takeAll (settle s) ls).2 := by
  induction h generalizing s with
  | nil => exact ⟨rfl, rfl⟩
  | @cons l ls hl hnext _ ih =>
    have hrules' : (settle s).rules = rules := (rules_settle s).trans hrules
    have hread : ReadsAs (settle s) l := reads hsettled (hrules'.symm ▸ hl)
    have hfeed : feedText s (textOf (l :: ls)) = feedText (settle s) (l.text ++ textOf ls) := by
      have htext : textOf (l :: ls) = l.text ++ textOf ls := List.flatMap_cons
      rw [htext] at hfirst ⊢
      cases hcs : l.text with
      | nil => exact absurd hcs hl.text_ne_nil
      | cons c cs =>
        have hc : decides s c := hfirst c (by rw [hcs]; rfl)
        rw [List.cons_append, feedText_cons, feedText_cons, feedChar_settle hsound hc]
    have hmid : settle (feedText (settle s) l.text).1 = (take (settle s) l).1 := hread.scanner
    have hrulesMid : (feedText (settle s) l.text).1.rules = rules := by
      rw [← rules_settle, hmid, rules_take, hrules']
    obtain ⟨hscanner, hcut⟩ := ih (s := (feedText (settle s) l.text).1)
      (sound_feedText hsettled.sound _) hrulesMid (hmid ▸ hsettled.take l)
      (fun c hc => hread.decides c (hrules'.symm ▸ hnext c hc))
    rw [hfeed, feedText_append, takeAll]
    refine ⟨?_, ?_⟩
    · rw [hscanner, hmid]
    · rw [hcut, hmid, hread.cut]

/-- Behind a script the scanner decides at what may follow it. -/
theorem decides_script {ls : List Lexeme} {c : Char} (h : Script rules (ls ++ [.punct c]))
    (hs : Settled s) (hrules : s.rules = rules) : decides (feedText s (textOf ls)).1 c := by
  induction ls generalizing s with
  | nil => exact hs.decides c
  | cons l ls ih =>
    cases h with
    | cons hl hnext hrest =>
      have hread : ReadsAs s l := reads hs (hrules.symm ▸ hl)
      have htext : textOf (l :: ls) = l.text ++ textOf ls := List.flatMap_cons
      have hdecides : ∀ d ∈ (textOf (ls ++ [.punct c])).head?, decides (feedText s l.text).1 d :=
        fun d hd => hread.decides d (hrules.symm ▸ hnext d hd)
      rw [htext, feedText_append]
      cases ls with
      | nil => exact hdecides c rfl
      | cons l' ls =>
        -- the next lexeme is read by the scanner that has decided about this one
        have hne : textOf (l' :: ls) ≠ [] := by
          cases hrest with
          | cons hl' =>
            rw [textOf, List.flatMap_cons]
            exact List.append_ne_nil_of_left_ne_nil hl'.text_ne_nil _
        obtain ⟨d, ds, hds⟩ := List.exists_cons_of_ne_nil hne
        have hfirst : decides (feedText s l.text).1 d := by
          refine hdecides d ?_
          rw [textOf, List.flatMap_append]
          rw [textOf] at hds
          rw [hds]
          rfl
        have hsame : feedText (feedText s l.text).1 (textOf (l' :: ls)) =
            feedText (take s l).1 (textOf (l' :: ls)) := by
          rw [← hread.scanner, hds, feedText_cons, feedText_cons,
            feedChar_settle (sound_feedText hs.sound _) hfirst]
        rw [hsame]
        exact ih hrest (hs.take l) ((rules_take s l).trans hrules)

/-- Where statements end in a script from its start. -/
theorem feedText_fresh {ls : List Lexeme} (h : Script rules ls) :
    settle (feedText (fresh rules) (textOf ls)).1 = (takeAll (fresh rules) ls).1 ∧
      (feedText (fresh rules) (textOf ls)).2 = (takeAll (fresh rules) ls).2 := by
  have hs := settled_fresh rules
  have hread := feedText_script h hs.sound rfl (hs.settle.symm ▸ hs) fun c _ => hs.decides c
  rwa [hs.settle] at hread

/-! ### The boundaries of a scan -/

theorem scan_concat (rules : LexicalRules) (bytes : List UInt8) (b : UInt8) :
    scan rules (bytes ++ [b]) = (scan rules bytes).step b := by
  rw [scan, List.foldl_append]
  rfl

theorem rules_scan (rules : LexicalRules) (bytes : List UInt8) :
    (scan rules bytes).scanner.rules = rules := by
  induction bytes using List.reverseRecOn with
  | nil => rfl
  | append_singleton bytes b ih =>
    rw [scan_concat]
    exact (rules_step _ _).trans ih

theorem foldl_feedByte_concat (s : Scanner) (bytes : List UInt8) (b : UInt8) :
    (bytes ++ [b]).foldl feedByte (s, false) =
      (((bytes.foldl feedByte (s, false)).1.feed b).1,
        (bytes.foldl feedByte (s, false)).2 || ((bytes.foldl feedByte (s, false)).1.feed b).2) := by
  rw [List.foldl_append]
  rfl

theorem scanner_scan (rules : LexicalRules) (bytes : List UInt8) :
    (scan rules bytes).scanner = (bytes.foldl feedByte (fresh rules, false)).1 ∧
      (scan rules bytes).index = bytes.length := by
  induction bytes using List.reverseRecOn with
  | nil => exact ⟨rfl, rfl⟩
  | append_singleton bytes b ih =>
    rw [scan_concat, foldl_feedByte_concat, ← ih.1, List.length_append, List.length_singleton,
      ← ih.2]
    exact ⟨rfl, rfl⟩

theorem boundaries_step (r : Scan) (b : UInt8) : (r.step b).boundaries =
    (if (r.scanner.feed b).2 = true then [⟨r.index, (r.scanner.feed b).1.lastContent⟩] else []) ++
      r.boundaries := by
  cases hnow : (r.scanner.feed b).2 with
  | true => simp [Scan.step, hnow]
  | false => simp [Scan.step, hnow]

theorem lt_of_mem_boundaries {bytes : List UInt8} {b : Boundary}
    (h : b ∈ (scan rules bytes).boundaries) : b.index < bytes.length := by
  induction bytes using List.reverseRecOn with
  | nil => exact absurd h List.not_mem_nil
  | append_singleton bytes byte ih =>
    have hindex := (scanner_scan rules bytes).2
    rw [scan_concat, boundaries_step] at h
    rw [List.length_append, List.length_singleton]
    rcases List.mem_append.1 h with h | h
    · rcases List.mem_ite_nil_right.1 h with ⟨-, h⟩
      rw [List.mem_singleton.1 h]
      show (scan rules bytes).index < _
      omega
    · exact Nat.lt_succ_of_lt (ih h)

/-- A scan has met a statement end if the flag has been raised. -/
theorem boundaries_scan (rules : LexicalRules) (bytes : List UInt8) :
    ((bytes.foldl feedByte (fresh rules, false)).2 = false → (scan rules bytes).boundaries = []) ∧
      ((bytes.foldl feedByte (fresh rules, false)).2 = true →
        ∃ b ∈ (scan rules bytes).boundaries, b.index < bytes.length) := by
  induction bytes using List.reverseRecOn with
  | nil => exact ⟨fun _ => rfl, fun h => absurd h (by simp)⟩
  | append_singleton bytes b ih =>
    obtain ⟨hscanner, hindex⟩ := scanner_scan rules bytes
    rw [scan_concat, foldl_feedByte_concat, ← hscanner, List.length_append, List.length_singleton]
    constructor
    · intro h
      rw [Bool.or_eq_false_iff] at h
      rw [boundaries_step, h.2, ih.1 h.1]
      rfl
    · intro h
      rw [boundaries_step]
      cases hnow : ((scan rules bytes).scanner.feed b).2 with
      | true => exact ⟨⟨bytes.length, ((scan rules bytes).scanner.feed b).1.lastContent⟩,
          by simp [hindex], by simp⟩
      | false =>
        rw [hnow, Bool.or_false] at h
        obtain ⟨b', hmem, hlt⟩ := ih.2 h
        exact ⟨b', by simp [hmem], by omega⟩

/-- Whether the only statement end lies behind the last byte, and the statement had content. -/
theorem boundaries_eq_singleton_iff (rules : LexicalRules) (bytes : List UInt8) (b : UInt8) :
    (scan rules (bytes ++ [b])).boundaries = [⟨bytes.length, true⟩] ↔
      (bytes.foldl feedByte (fresh rules, false)).2 = false ∧
        ((bytes.foldl feedByte (fresh rules, false)).1.feed b).2 = true ∧
        ((bytes.foldl feedByte (fresh rules, false)).1.feed b).1.lastContent = true := by
  obtain ⟨hscanner, hindex⟩ := scanner_scan rules bytes
  obtain ⟨hnone, hsome⟩ := boundaries_scan rules bytes
  rw [scan_concat, ← hscanner]
  cases hbefore : (bytes.foldl feedByte (fresh rules, false)).2 with
  | false =>
    cases hnow : ((scan rules bytes).scanner.feed b).2 with
    | false => simp [boundaries_step, hnow, hnone hbefore]
    | true => simp [boundaries_step, hnow, hnone hbefore, hindex]
  | true =>
    obtain ⟨b', hmem, hlt⟩ := hsome hbefore
    refine ⟨fun h => ?_, fun h => absurd h.1 (by simp)⟩
    have hmem' : b' ∈ ((scan rules bytes).step b).boundaries := by simp [boundaries_step, hmem]
    rw [h, List.mem_singleton] at hmem'
    rw [hmem'] at hlt
    exact absurd hlt (Nat.lt_irrefl _)

theorem lastContent_of_cut (hcut : (take s (.punct ';')).2 = true) :
    (take s (.punct ';')).1.lastContent = true := by
  rw [take, if_pos rfl] at hcut ⊢
  unfold terminator at hcut ⊢
  split
  case isTrue hopen => exact absurd hcut (by simp [hopen])
  case isFalse => rfl

theorem Script.formed {ls : List Lexeme} (h : Script rules ls) : ∀ l ∈ ls, l.Formed rules := by
  induction h with
  | nil => exact fun l hl => absurd hl (by simp)
  | cons hl _ _ ih => exact List.forall_mem_cons.2 ⟨hl, ih⟩

theorem Script.left {ls ls' : List Lexeme} (h : Script rules (ls ++ ls')) : Script rules ls := by
  induction ls with
  | nil => exact .nil
  | cons l ls ih =>
    cases h with
    | cons hl hnext hrest =>
      refine .cons hl (fun c hc => hnext c ?_) (ih hrest)
      cases ls with
      | nil => simp at hc
      | cons l' ls =>
        cases hrest with
        | cons hl' =>
          show c ∈ (l'.text ++ textOf (ls ++ ls')).head?
          rw [List.flatMap_cons] at hc
          cases htext : l'.text with
          | nil => exact absurd htext hl'.text_ne_nil
          | cons d ds =>
            rw [htext] at hc
            exact hc

@[simp] theorem lastContent_settle (s : Scanner) : (settle s).lastContent = s.lastContent := by
  unfold settle
  cases s.region with
  | normal => exact lastContent_endWord s
  | _ => rfl

theorem after_eq_feedText (rules : LexicalRules) (cs : List Char) :
    after rules cs = (feedText (fresh rules) cs).1 := by
  have hread : ∀ (s : Scanner) (cs : List Char), readOn s cs = (feedText s cs).1 := by
    intro s cs
    induction cs generalizing s with
    | nil => rfl
    | cons c cs ih => rw [feedText_cons, ← ih, readOn, List.foldl_cons, readOn]
  exact hread (fresh rules) cs

/-- Reading the `;` at the end of a script is taking it. -/
theorem feedChar_semicolon {ls : List Lexeme} (h : Script rules (ls ++ [.punct ';'])) :
    feedChar (feedText (fresh rules) (textOf ls)).1 ';' =
      take (takeAll (fresh rules) ls).1 (.punct ';') := by
  have hs := settled_fresh rules
  obtain ⟨hscanner, -⟩ := feedText_fresh h.left
  rw [feedChar_settle (sound_feedText hs.sound _) (decides_script h hs rfl), hscanner,
    (hs.takeAll ls).stepNormal (by decide)]
  rfl

/-- Whether the `;` at the end of a script ends a statement. -/
theorem mem_boundaries_script_iff {ls : List Lexeme} (h : Script rules (ls ++ [.punct ';'])) :
    ⟨(encode (textOf ls)).length, true⟩ ∈
        (scan rules (encode (textOf (ls ++ [.punct ';'])))).boundaries ↔
      (take (takeAll (fresh rules) ls).1 (.punct ';')).2 = true := by
  have hbytes : encode (textOf (ls ++ [.punct ';'])) = encode (textOf ls) ++ [59] := by
    rw [textOf, List.flatMap_append, encode_append]
    rfl
  obtain ⟨hscanner, hindex⟩ := scanner_scan rules (encode (textOf ls))
  have hfeed := feedChar_semicolon h
  rw [feedChar_of_lt _ (by decide)] at hfeed
  have hlast : (scan rules (encode (textOf ls))).scanner.feed 59 =
      take (takeAll (fresh rules) ls).1 (.punct ';') := by
    rw [hscanner]
    exact hfeed
  have hbefore : ⟨(encode (textOf ls)).length, true⟩ ∉ (scan rules (encode (textOf ls))).boundaries :=
    fun hmem => absurd (lt_of_mem_boundaries hmem) (Nat.lt_irrefl _)
  rw [hbytes, scan_concat]
  cases hcut : (take (takeAll (fresh rules) ls).1 (.punct ';')).2 with
  | false => simp [boundaries_step, hlast, hcut, hbefore]
  | true => simp [boundaries_step, hlast, hcut, hindex, lastContent_of_cut hcut]

/-- Whether the `;` at the end of a script ends its only statement. -/
theorem boundaries_script_iff {ls : List Lexeme} (h : Script rules (ls ++ [.punct ';'])) :
    (scan rules (encode (textOf (ls ++ [.punct ';'])))).boundaries =
        [⟨(encode (textOf ls)).length, true⟩] ↔
      (takeAll (fresh rules) ls).2 = false ∧
        (take (takeAll (fresh rules) ls).1 (.punct ';')).2 = true ∧
        (take (takeAll (fresh rules) ls).1 (.punct ';')).1.lastContent = true := by
  obtain ⟨-, hcut⟩ := feedText_fresh h.left
  obtain ⟨hscanner, hlast⟩ := feedText_fresh h
  have htext : textOf (ls ++ [.punct ';']) = textOf ls ++ [';'] := by simp [textOf, Lexeme.text]
  have hbytes : encode (textOf ls ++ [';']) = encode (textOf ls) ++ [59] := encode_append _ _
  have hcontent := congrArg lastContent hscanner
  rw [lastContent_settle] at hcontent
  rw [takeAll_concat] at hlast hcontent
  rw [htext] at hlast hcontent ⊢
  rw [feedText, hbytes, foldl_feedByte_concat] at hlast hcontent
  rw [hbytes, boundaries_eq_singleton_iff]
  rw [feedText] at hcut
  rw [hcontent, hcut]
  rw [hcut] at hlast
  constructor
  · rintro ⟨hbefore, hnow, hkept⟩
    rw [hbefore, Bool.false_or, Bool.false_or] at hlast
    exact ⟨hbefore, hlast ▸ hnow, hkept⟩
  · rintro ⟨hbefore, hnow, hkept⟩
    rw [hbefore, Bool.false_or, Bool.false_or] at hlast
    exact ⟨hbefore, hlast.symm ▸ hnow, hkept⟩

end DdlBridge.Statement
