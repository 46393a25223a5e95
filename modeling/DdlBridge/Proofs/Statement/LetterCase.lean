import DdlBridge.Proofs.Statement.Rejected
import DdlBridge.Proofs.Text.LetterCase

/-!
# Statements and letter case

A scanner keeps words in upper case, and compares no letters elsewhere outside dollar quotes: on the
lower text it does what it does on the text (`step_lowered`), so the statements of the lower text
are the lower statements of the text (`split_lower`).
-/

namespace DdlBridge

/-- A region in which no letters are compared. -/
def Region.Caseless : Region → Prop
  | .quote closing | .quoteEnd closing | .escape closing => closing.isAlpha = false
  | .dollarTag _ | .dollar _ _ => False
  | _ => True

namespace Scanner

open Text

/-- The same scanner behind the lower text. -/
def lowered (s : Scanner) : Scanner := { s with line := lower s.line }

def lowerStep (r : Scanner × Bool) : Scanner × Bool := (r.1.lowered, r.2)

/-! ### Words and lines -/

theorem onWord_lowered (s : Scanner) (w : String) : s.lowered.onWord w = (s.onWord w).lowered := by
  unfold onWord
  change (if s.pendingEnd = true then _ else _) = _
  split
  · split
    · rfl
    · split <;> rfl
  · rfl

theorem endWord_lowered (s : Scanner) : s.lowered.endWord = s.endWord.lowered := by
  have hword := onWord_lowered { s with word := [] } s.wordText
  unfold endWord
  change (if s.word.isEmpty = true then _ else _) = _
  split
  · rfl
  · exact congrArg (fun t : Scanner => { t with previous := .word s.wordText }) hword

theorem isTerminatorLine_lowered (s : Scanner) : s.lowered.isTerminatorLine = s.isTerminatorLine := by
  have hslash : (lower s.line == ['/']) = (s.line == ['/']) := by
    rw [Bool.eq_iff_iff, beq_iff_eq, beq_iff_eq]
    exact lower_eq_iff (by decide)
  unfold isTerminatorLine
  change (!s.lineQuoted && (s.rules.slashLines && lower s.line == ['/'] ||
    s.rules.goLines && upper (lower s.line).reverse == ['G', 'O'])) = _
  rw [hslash, ← lower_reverse, upper_lower]

theorem endLine_lowered (s : Scanner) : s.lowered.endLine = lowerStep s.endLine := by
  rw [endLine, endLine, isTerminatorLine_lowered]
  split <;> rfl

/-! ### One byte -/

theorem terminator_lowered (s : Scanner) : s.lowered.terminator = lowerStep s.terminator := by
  change ite (s.storedUnit = true ∨ s.settleEnd.depth ≠ 0) _ _ =
    lowerStep (ite (s.storedUnit = true ∨ s.settleEnd.depth ≠ 0) _ _)
  split <;> rfl

theorem popLine_lowered (s : Scanner) : s.lowered.popLine = s.popLine.lowered := by
  simp [popLine, lowered, lower, List.map_tail]

theorem takePunct_lowered (s : Scanner) {c : Char} (hc : c.isAlpha = false) :
    s.lowered.takePunct c = (s.takePunct c).lowered := by
  simp [takePunct, pushLine, lowered, toLower_eq_self c hc]

theorem stepSymbol_lowered (s : Scanner) {c : Char} (hc : c.isAlpha = false) :
    s.lowered.stepSymbol c = lowerStep (s.stepSymbol c) := by
  unfold stepSymbol
  split
  case h_1 => exact endLine_lowered s
  case h_6 => exact terminator_lowered (s.takePunct ';')
  case h_11 =>
    change (ite (s.rules.backtickQuotes = true) _ _, false) = _
    split <;> rfl
  case h_12 =>
    change (ite (s.rules.bracketQuotes = true) _ _, false) = _
    split <;> rfl
  case h_13 =>
    change (ite (s.rules.hashComments = true) _ _, false) = _
    split <;> rfl
  case h_14 =>
    change ite (s.rules.dollarQuotes = true) _ _ = _
    split <;> rfl
  case h_17 => rw [takePunct_lowered s hc]; rfl
  all_goals rfl

/-- A byte of a word, for a scanner that is at the start of one if `empty`. -/
def wordByte (empty : Bool) (c : Char) : Bool :=
  c.isAlphanum || c == '_' || 128 ≤ c.toNat || (!empty && (c == '$' || c == '#'))

theorem isWordByte_lowered (s : Scanner) (c : Char) :
    s.lowered.isWordByte c.toLower = s.isWordByte c := by
  have hbyte : ∀ empty : Bool, ∀ n < 128,
      wordByte empty (Char.ofNat n).toLower = wordByte empty (Char.ofNat n) := by
    decide
  exact toLower_of_ascii (wordByte s.word.isEmpty) (hbyte _) c

theorem stepNormal_lowered (s : Scanner) (c : Char) :
    s.lowered.stepNormal c.toLower = lowerStep (s.stepNormal c) := by
  unfold stepNormal
  rw [isWordByte_lowered]
  split
  case isTrue => rw [toUpper_toLower]; rfl
  case isFalse hword =>
    have hc : c.isAlpha = false := by
      rw [Bool.eq_false_iff]
      intro halpha
      simp [isWordByte, Char.isAlphanum, halpha] at hword
    rw [toLower_eq_self c hc, endWord_lowered]
    exact stepSymbol_lowered s.endWord hc

theorem step_lowered {s : Scanner} (hs : s.region.Caseless) (c : Char) :
    s.lowered.step c.toLower = lowerStep (s.step c) := by
  have hregion : s.lowered.region = s.region := rfl
  -- every character that a region compares with is no letter
  have hsame : ∀ k : Char, k.isAlpha = false → (c.toLower = k) = (c = k) := fun k hk =>
    propext (toLower_eq_iff hk)
  unfold step
  rw [hregion]
  cases hr : s.region with
  | normal => exact stepNormal_lowered s c
  | dash =>
    simp only [hsame '-' rfl]
    split
    · rw [popLine_lowered]
      rfl
    · exact stepNormal_lowered { s with content := true, previous := .punct '-', region := .normal } c
  | slash =>
    simp only [hsame '*' rfl]
    split
    · rw [popLine_lowered]
      rfl
    · exact stepNormal_lowered { s with content := true, previous := .punct '/', region := .normal } c
  | lineComment =>
    simp only [hsame '\n' rfl]
    split
    · exact endLine_lowered { s with region := .normal }
    · rfl
  | blockComment =>
    simp only [hsame '*' rfl, hsame '\n' rfl]
    split
    · rfl
    · split <;> rfl
  | blockCommentStar =>
    simp only [hsame '/' rfl, hsame '*' rfl, hsame '\n' rfl]
    split
    · rfl
    · split
      · rfl
      · split <;> rfl
  | quote closing =>
    rw [hr] at hs
    simp only [hsame closing hs, hsame '\\' rfl, hsame '\n' rfl]
    split
    · rfl
    · change (if c = '\\' ∧ s.rules.backslashEscapes = true ∧
        (closing = '\x27' ∨ closing = '\x22') then _ else _) = _
      split
      · rfl
      · split <;> rfl
  | quoteEnd closing =>
    rw [hr] at hs
    simp only [hsame closing hs]
    split
    · rfl
    · exact stepNormal_lowered { s with region := .normal } c
  | escape closing => rfl
  | dollarTag tag =>
    rw [hr] at hs
    exact hs.elim
  | dollar tag found =>
    rw [hr] at hs
    exact hs.elim

/-! ### Regions -/

theorem caseless_stepSymbol {s : Scanner} (hs : s.region.Caseless) {c : Char}
    (hc : s.rules.dollarQuotes = true → c ≠ '$') : (s.stepSymbol c).1.region.Caseless := by
  unfold stepSymbol
  split
  case h_1 =>
    unfold endLine
    split <;> exact hs
  case h_6 =>
    unfold terminator
    split <;> exact hs
  case h_11 | h_12 =>
    split
    · rfl
    · exact hs
  case h_13 =>
    split
    · trivial
    · exact hs
  case h_14 =>
    split
    case isTrue hrules => exact absurd rfl (hc hrules)
    case isFalse => exact hs
  case h_7 | h_8 => trivial
  case h_9 | h_10 => rfl
  all_goals exact hs

theorem caseless_stepNormal {s : Scanner} (hs : s.region.Caseless) {c : Char}
    (hc : s.rules.dollarQuotes = true → c ≠ '$') : (s.stepNormal c).1.region.Caseless := by
  unfold stepNormal
  split
  · exact hs
  · exact caseless_stepSymbol (s := s.endWord) (by rwa [region_endWord]) (by rwa [rules_endWord])

theorem caseless_step {s : Scanner} (hs : s.region.Caseless) {c : Char}
    (hc : s.rules.dollarQuotes = true → c ≠ '$') : (s.step c).1.region.Caseless := by
  have hnormal : ∀ t : Scanner, t.rules = s.rules → t.region = .normal →
      (t.stepNormal c).1.region.Caseless := by
    intro t hrules hregion
    exact caseless_stepNormal (by rw [hregion]; trivial) (by rwa [hrules])
  cases hr : s.region with
  | normal =>
    simp only [step, hr]
    exact hnormal s rfl hr
  | dash | slash =>
    simp only [step, hr]
    split
    · trivial
    · exact hnormal _ rfl rfl
  | lineComment =>
    simp only [step, hr]
    split
    · unfold endLine
      split <;> trivial
    · exact hs
  | blockComment =>
    simp only [step, hr]
    split
    · trivial
    · split <;> exact hs
  | blockCommentStar =>
    simp only [step, hr]
    split
    · trivial
    · split
      · exact hs
      · split <;> trivial
  | quote closing =>
    rw [hr] at hs
    simp only [step, hr]
    split
    · exact hs
    · split
      · exact hs
      · split
        · change s.region.Caseless
          rwa [hr]
        · rwa [hr]
  | quoteEnd closing =>
    rw [hr] at hs
    simp only [step, hr]
    split
    · exact hs
    · exact hnormal _ rfl rfl
  | escape closing =>
    rw [hr] at hs
    simp only [step, hr]
    exact hs
  | dollarTag tag | dollar tag found =>
    rw [hr] at hs
    exact hs.elim

end Scanner

/-- The statement with its text in lower case. -/
def Statement.lowered (s : Statement) : Statement := { s with text := Text.lower s.text }

namespace Statement

open Scanner Text

/-! ### One character -/

theorem foldl_feedByte_lowered {bytes : List UInt8} (hbytes : ∀ b ∈ bytes, 128 ≤ b.toNat)
    {s : Scanner} (hs : s.region.Caseless) (cut : Bool) :
    bytes.foldl feedByte (s.lowered, cut) = lowerStep (bytes.foldl feedByte (s, cut)) ∧
      (bytes.foldl feedByte (s, cut)).1.region.Caseless := by
  induction bytes generalizing s cut with
  | nil => exact ⟨rfl, hs⟩
  | cons b bytes ih =>
    obtain ⟨hb, hbytes⟩ := List.forall_mem_cons.1 hbytes
    have hlarge := le_toNat_ofNat_byte hb
    have hstep := step_lowered hs (Char.ofNat b.toNat)
    rw [toLower_of_le hlarge] at hstep
    have hnext : (s.feed b).1.region.Caseless :=
      caseless_step hs fun _ => ofNat_byte_ne hb (by decide)
    have hfeed : feedByte (s.lowered, cut) b = ((s.feed b).1.lowered, cut || (s.feed b).2) := by
      rw [feedByte, Scanner.feed, hstep]
      rfl
    rw [List.foldl_cons, List.foldl_cons, hfeed]
    exact ih hbytes hnext _

theorem feedChar_lowered {s : Scanner} (hs : s.region.Caseless) {c : Char}
    (hc : s.rules.dollarQuotes = true → c ≠ '$') :
    feedChar s.lowered c.toLower = lowerStep (feedChar s c) ∧
      (feedChar s c).1.region.Caseless := by
  rcases Nat.lt_or_ge c.toNat 128 with h | h
  · have hsame := toLower_of_ascii (fun c => decide (c.toNat < 128)) (by decide) c
    have hlower : c.toLower.toNat < 128 := of_decide_eq_true (hsame.trans (decide_eq_true h))
    rw [feedChar_of_lt _ hlower, feedChar_of_lt _ h]
    exact ⟨step_lowered hs c, caseless_step hs hc⟩
  · rw [toLower_of_le h]
    exact foldl_feedByte_lowered (fun b => le_of_mem_utf8EncodeChar h) hs false

/-! ### A text -/

variable {rules : LexicalRules}

theorem after_lower {cs : List Char} (hdollar : rules.dollarQuotes = true → '$' ∉ cs) :
    after rules (lower cs) = (after rules cs).lowered ∧ (after rules cs).region.Caseless := by
  induction cs using List.reverseRecOn with
  | nil => exact ⟨rfl, trivial⟩
  | append_singleton cs c ih =>
    have hfront : rules.dollarQuotes = true → '$' ∉ cs := by
      intro hrules hmem
      exact hdollar hrules (List.mem_append_left _ hmem)
    have hlast : (after rules cs).rules.dollarQuotes = true → c ≠ '$' := by
      rintro hrules rfl
      rw [rules_after] at hrules
      exact hdollar hrules (by simp)
    obtain ⟨hafter, hcaseless⟩ := ih hfront
    obtain ⟨hfeed, hnext⟩ := feedChar_lowered hcaseless hlast
    rw [lower_append, after_concat]
    refine ⟨?_, hnext⟩
    change after rules (lower cs ++ [c.toLower]) = _
    rw [after_concat, hafter, hfeed]
    rfl

/-! ### Pieces -/

theorem lastLine_lower (cs : List Char) :
    lastLine (lower cs) = (lower (lastLine cs).1, lower (lastLine cs).2) := by
  have hnewline : ∀ c : Char, (c.toLower != '\n') = (c != '\n') :=
    toLower_of_ascii (· != '\n') (by decide)
  rw [lastLine, ← lower_reverse, dropWhile_lower hnewline, takeWhile_lower hnewline, ← lower_reverse]
  simp [lastLine, lower, List.map_tail]

theorem stripTerminator_lower (rules : LexicalRules) (raw : List Char) :
    stripTerminator rules (lower raw) = lower (stripTerminator rules raw) := by
  have hslash : ∀ cs, (lower cs = ['/']) = (cs = ['/']) := fun cs =>
    propext (lower_eq_iff (by decide))
  have hbody : ∀ cs, (if (lower cs).getLast? = some ';' then trimEnd (lower cs).dropLast
      else lower cs) = lower (if cs.getLast? = some ';' then trimEnd cs.dropLast else cs) := by
    intro cs
    rw [apply_ite lower, ← trimEnd_lower, ← lower_dropLast]
    simp only [getLast?_lower (k := ';') rfl]
  simp only [stripTerminator, lastLine_lower, trim_lower, trimEnd_lower, upper_lower, hslash]
  rw [← apply_ite lower, hbody]

theorem ofPiece?_lower (rules : LexicalRules) (start : Nat) (raw : List Char) :
    ofPiece? rules start (lower raw) = (ofPiece? rules start raw).map lowered := by
  rw [ofPiece?, ofPiece?, stripTerminator_lower, trimStart_lower, isEmpty_lower]
  split
  · rfl
  · simp [lowered]

/-! ### The splitter -/

/-- The same splitter behind the lower text. -/
def Splitter.lowered (p : Splitter) : Splitter :=
  { p with
    scanner := p.scanner.lowered, piece := lower p.piece, found := p.found.map Statement.lowered }

theorem Splitter.cut_lowered (p : Splitter) (content : Bool) :
    p.lowered.cut content = (p.cut content).lowered := by
  have hpiece : ofPiece? p.lowered.scanner.rules p.lowered.start p.lowered.piece.reverse =
      (ofPiece? p.scanner.rules p.start p.piece.reverse).map Statement.lowered := by
    rw [← ofPiece?_lower, lower_reverse]
    rfl
  rw [Splitter.cut, Splitter.cut, hpiece]
  simp only [Splitter.lowered, List.map_append]
  congr 2
  split
  · cases ofPiece? p.scanner.rules p.start p.piece.reverse <;> rfl
  · rfl

theorem Splitter.step_lowered {p : Splitter} (hp : p.scanner.region.Caseless) {c : Char}
    (hc : p.scanner.rules.dollarQuotes = true → c ≠ '$') :
    p.lowered.step c.toLower = (p.step c).lowered := by
  have hfeed : feedChar p.lowered.scanner c.toLower = lowerStep (feedChar p.scanner c) :=
    (feedChar_lowered hp hc).1
  unfold Splitter.step
  rw [hfeed, utf8Size_toLower]
  dsimp only [lowerStep]
  split
  · exact Splitter.cut_lowered { p with
      scanner := (feedChar p.scanner c).1, offset := p.offset + c.utf8Size, piece := c :: p.piece } _
  · rfl

theorem splitter_lower {cs : List Char} (hdollar : rules.dollarQuotes = true → '$' ∉ cs) :
    splitter rules (lower cs) = (splitter rules cs).lowered := by
  induction cs using List.reverseRecOn with
  | nil => rfl
  | append_singleton cs c ih =>
    have hfront : rules.dollarQuotes = true → '$' ∉ cs := fun hrules hmem =>
      hdollar hrules (List.mem_append_left _ hmem)
    rw [lower_append]
    change splitter rules (lower cs ++ [c.toLower]) = _
    rw [splitter_concat, splitter_concat, ih hfront, Splitter.step_lowered]
    · rw [scanner_splitter]
      exact (after_lower hfront).2
    · rw [scanner_splitter, rules_after]
      rintro hrules rfl
      exact hdollar hrules (by simp)

theorem split_lower {cs : List Char} (hdollar : rules.dollarQuotes = true → '$' ∉ cs) :
    split rules (lower cs) = (split rules cs).map (List.map lowered) := by
  have hfinish : (splitter rules cs).lowered.scanner.finish =
      (splitter rules cs).scanner.finish.map Scanner.lowered := by
    have hsame : (splitter rules cs).lowered.scanner.unfinished? =
        (splitter rules cs).scanner.unfinished? := rfl
    have hend : (splitter rules cs).lowered.scanner.endWord =
        (splitter rules cs).scanner.endWord.lowered := endWord_lowered _
    rw [finish, finish, hsame, hend]
    cases (splitter rules cs).scanner.unfinished? with
    | some e => rfl
    | none => rfl
  rw [split_eq, split_eq, splitter_lower hdollar, hfinish]
  cases (splitter rules cs).scanner.finish with
  | error e => rfl
  | ok scanner =>
    have hcut := Splitter.cut_lowered { splitter rules cs with scanner } scanner.content
    have hfound := congrArg (fun p : Splitter => Except.ok (ε := Error) p.found.reverse) hcut
    refine hfound.trans ?_
    simp [Splitter.lowered, Except.map]

/-! ### Statements are made of the text -/

theorem mem_of_ofPiece? {start : Nat} {raw : List Char} {s : Statement}
    (h : ofPiece? rules start raw = some s) {c : Char} (hc : c ∈ s.text) : c ∈ raw := by
  unfold ofPiece? at h
  dsimp only at h
  split at h
  · contradiction
  · obtain rfl := Option.some.inj h
    exact (stripTerminator_isPrefix rules raw).subset ((List.dropWhile_sublist _).subset hc)

/-- The piece in progress and the statements found are made of what was read. -/
structure MadeOf (cs : List Char) (p : Splitter) : Prop where
  piece : ∀ c ∈ p.piece, c ∈ cs
  found : ∀ s ∈ p.found, ∀ c ∈ s.text, c ∈ cs

theorem MadeOf.cut {cs : List Char} {p : Splitter} (h : MadeOf cs p) (content : Bool) :
    MadeOf cs (p.cut content) where
  piece := by simp [Splitter.cut]
  found := by
    intro s hs c hc
    rcases List.mem_append.1 hs with hs | hs
    · split at hs
      · apply h.piece
        rw [← List.mem_reverse]
        exact mem_of_ofPiece? (Option.mem_toList.1 hs) hc
      · simp at hs
    · exact h.found s hs c hc

theorem madeOf_splitter (rules : LexicalRules) (cs : List Char) : MadeOf cs (splitter rules cs) := by
  induction cs using List.reverseRecOn with
  | nil => exact ⟨by simp [splitter], by simp [splitter]⟩
  | append_singleton cs c ih =>
    have hread : ∀ scanner offset, MadeOf (cs ++ [c])
        { splitter rules cs with scanner, offset, piece := c :: (splitter rules cs).piece } := by
      intro scanner offset
      refine ⟨fun d hd => ?_, fun s hs d hd => List.mem_append_left _ (ih.found s hs d hd)⟩
      rcases List.mem_cons.1 hd with rfl | hd
      · simp
      · exact List.mem_append_left _ (ih.piece d hd)
    rw [splitter_concat, Splitter.step]
    dsimp only
    split
    · exact (hread _ _).cut _
    · exact hread _ _

theorem mem_of_mem_split {cs : List Char} {statements : List Statement}
    (h : split rules cs = .ok statements) {s : Statement} (hs : s ∈ statements) {c : Char}
    (hc : c ∈ s.text) : c ∈ cs := by
  rw [split_eq] at h
  cases hfinish : (splitter rules cs).scanner.finish with
  | error e =>
    rw [hfinish] at h
    contradiction
  | ok scanner =>
    rw [hfinish] at h
    have hmade : MadeOf cs { splitter rules cs with scanner } :=
      ⟨(madeOf_splitter rules cs).piece, (madeOf_splitter rules cs).found⟩
    obtain rfl := Except.ok.inj h
    exact (hmade.cut scanner.content).found s (List.mem_reverse.1 hs) c hc

end Statement

end DdlBridge
