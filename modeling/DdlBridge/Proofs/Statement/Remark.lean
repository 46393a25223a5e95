import DdlBridge.Proofs.Statement.Region

/-!
# Text inside a comment

Text that is put into a line comment stays a comment unless one of its lines ends the comment. Behind
such a line end it must open another line comment before anything else but white space and closed
comments (`Remark`). No other text leaves both the lexer without a token and a scanner without content
(`silent_iff`).
-/

namespace DdlBridge.Statement

open Scanner Text Lexer

variable {rules : LexicalRules} {s t : Scanner} {c : Char} {cs : List Char}

/-- There is no line end in the text, and no part of one. -/
def OneLine (cs : List Char) : Prop := '\n' ∉ cs ∧ '\r' ∉ cs

theorem OneLine.append {cs' : List Char} (h : OneLine cs) (h' : OneLine cs') : OneLine (cs ++ cs') := by
  simp [OneLine, h.1, h.2, h'.1, h'.2]

theorem OneLine.left {cs' : List Char} (h : OneLine (cs ++ cs')) : OneLine cs :=
  ⟨fun hmem => h.1 (List.mem_append_left _ hmem), fun hmem => h.2 (List.mem_append_left _ hmem)⟩

/-- What opens a line comment. -/
def IsMark (rules : LexicalRules) (mark : List Char) : Prop :=
  mark = ['-', '-'] ∨ (rules.hashComments = true ∧ mark = ['#'])

/-- A text that says nothing when a line comment goes on behind it; the flag tells whether it starts
inside a line comment too. -/
inductive Remark (rules : LexicalRules) : Bool → List Char → Prop where
  | line {cs : List Char} (h : OneLine cs) : Remark rules true cs
  | ends {line ending cs : List Char} (hline : OneLine line)
      (hending : ending = ['\n'] ∨ ending = ['\r', '\n']) (h : Remark rules false cs) :
      Remark rules true (line ++ (ending ++ cs))
  | blank {c : Char} {cs : List Char} (hc : c ∈ plainBlanks) (h : Remark rules false cs) :
      Remark rules false (c :: cs)
  | block {body cs : List Char} (hbody : breakOn ['*', '/'] (body ++ ['*', '/']) = some (body, []))
      (h : Remark rules false cs) : Remark rules false ((Lexeme.blockComment body).text ++ cs)
  | mark {mark cs : List Char} (hmark : IsMark rules mark) (h : Remark rules true cs) :
      Remark rules false (mark ++ cs)

/-- Neither the lexer nor a scanner finds more than white space and comments up to the line end behind
the text. -/
structure Silent (s : Scanner) (cs : List Char) : Prop where
  trivia : (takeTrivia s.rules.hashComments cs).2 = []
  uncut : (feedText s (cs ++ ['\n'])).2 = false
  content : (feedText s (cs ++ ['\n'])).1.content = false

/-! ### What the lexer finds -/

theorem takeLine?_oneLine {line : List Char} (hline : OneLine line) (cs : List Char) :
    takeLine? (line ++ cs) = (takeLine? cs).behind line := by
  induction line with
  | nil =>
    rw [List.nil_append]
    cases takeLine? cs <;> rfl
  | cons c line ih =>
    obtain ⟨hnewline, hreturn⟩ := hline
    simp only [List.mem_cons, not_or] at hnewline hreturn
    have hc : c ≠ '\r' := Ne.symm hreturn.1
    have hstep : takeLine? (c :: (line ++ cs)) = (takeLine? (line ++ cs)).behind [c] := by
      rw [takeLine?.eq_def]
      split
      case h_1 heq => exact absurd heq (by simp)
      case h_2 heq => exact absurd (List.cons.inj heq).1.symm hnewline.1
      case h_3 heq => exact absurd (List.cons.inj heq).1 hc
      case h_4 heq =>
        obtain ⟨rfl, rfl⟩ := List.cons.inj heq
        exact if_neg hc
    rw [List.cons_append, hstep, ih ⟨hnewline.2, hreturn.2⟩]
    cases takeLine? cs <;> rfl

/-- A line goes up to the first line end. -/
theorem of_takeLine? {line rest : List Char} (h : takeLine? cs = some (line, rest)) :
    OneLine line ∧ (rest = [] ∨ ∃ ending more, (ending = ['\n'] ∨ ending = ['\r', '\n']) ∧
      rest = ending ++ more) := by
  fun_induction takeLine? cs generalizing line with
  | case1 =>
    obtain ⟨rfl, rfl⟩ := Prod.mk.inj (Option.some.inj h)
    exact ⟨⟨List.not_mem_nil, List.not_mem_nil⟩, .inl rfl⟩
  | case2 cs =>
    obtain ⟨rfl, rfl⟩ := Prod.mk.inj (Option.some.inj h)
    exact ⟨⟨List.not_mem_nil, List.not_mem_nil⟩, .inr ⟨['\n'], cs, .inl rfl, rfl⟩⟩
  | case3 cs =>
    obtain ⟨rfl, rfl⟩ := Prod.mk.inj (Option.some.inj h)
    exact ⟨⟨List.not_mem_nil, List.not_mem_nil⟩, .inr ⟨['\r', '\n'], cs, .inr rfl, rfl⟩⟩
  | case4 => exact absurd h (by simp)
  | case5 c cs hnewline _ hreturn ih =>
    obtain ⟨inner, hinner, rfl⟩ := Taken.behind_eq_some_iff.1 h
    obtain ⟨hline, hrest⟩ := ih hinner
    have hc : OneLine [c] := by
      simp only [OneLine, List.mem_singleton]
      exact ⟨fun heq => hnewline heq.symm, fun heq => hreturn heq.symm⟩
    exact ⟨hc.append hline, hrest⟩

theorem takeComment?_mark {mark : List Char} (hmark : IsMark rules mark) (cs : List Char) :
    takeComment? rules.hashComments (mark ++ cs) = (takeLine? cs).behind mark := by
  obtain rfl | ⟨hrules, rfl⟩ := hmark
  · rfl
  · rw [List.singleton_append, takeComment?, if_pos hrules]

theorem isBlank_head_mark {mark : List Char} (hmark : IsMark rules mark) : ∃ c rest,
    mark = c :: rest ∧ isBlank c = false := by
  obtain rfl | ⟨-, rfl⟩ := hmark
  · exact ⟨'-', ['-'], rfl, by decide⟩
  · exact ⟨'#', [], rfl, by decide⟩

/-- What follows a line comment. -/
theorem takeTrivia_mark {mark : List Char} (hmark : IsMark rules mark) {line rest : List Char}
    (h : takeLine? cs = some (line, rest)) :
    (takeTrivia rules.hashComments (mark ++ cs)).2 = (takeTrivia rules.hashComments rest).2 := by
  obtain ⟨c, more, rfl, hblank⟩ := isBlank_head_mark hmark
  have hcomment := takeComment?_mark hmark cs
  rw [h] at hcomment
  rw [List.cons_append] at hcomment ⊢
  rw [takeTrivia_of_not_blank _ hblank, hcomment]
  rfl

theorem takeTrivia_mark_ne_nil {mark : List Char} (hmark : IsMark rules mark)
    (h : takeLine? cs = none) : (takeTrivia rules.hashComments (mark ++ cs)).2 ≠ [] := by
  obtain ⟨c, more, rfl, hblank⟩ := isBlank_head_mark hmark
  have hcomment := takeComment?_mark hmark cs
  rw [h] at hcomment
  rw [List.cons_append] at hcomment ⊢
  rw [takeTrivia_of_not_blank _ hblank, hcomment]
  exact List.cons_ne_nil _ _

theorem takeTrivia_blanks (hash : Bool) {blanks : List Char} (h : ∀ c ∈ blanks, isBlank c = true)
    (cs : List Char) : (takeTrivia hash (blanks ++ cs)).2 = (takeTrivia hash cs).2 := by
  induction blanks with
  | nil => rfl
  | cons c blanks ih =>
    rw [List.cons_append, takeTrivia_blank _ (h c List.mem_cons_self)]
    exact ih fun d hd => h d (List.mem_cons_of_mem _ hd)

theorem takeTrivia_block (hash : Bool) {body : List Char}
    (hbody : breakOn ['*', '/'] (body ++ ['*', '/']) = some (body, [])) (cs : List Char) :
    (takeTrivia hash ((Lexeme.blockComment body).text ++ cs)).2 = (takeTrivia hash cs).2 := by
  rw [← List.append_nil (body ++ ['*', '/'])] at hbody
  have hfound : breakOn ['*', '/'] (body ++ ['*', '/'] ++ cs) = some (body, cs) := breakOn_append hbody cs
  have hcomment : takeComment? hash ('/' :: ('*' :: (body ++ ['*', '/']) ++ cs)) =
      some ((Lexeme.blockComment body).text, cs) := by
    rw [List.cons_append, takeComment?, hfound]
    rfl
  rw [Lexeme.text, List.cons_append, takeTrivia_of_not_blank _ (by decide), hcomment]

/-! ### What a scanner finds -/

theorem content_feedText (hsound : s.Sound) (h : s.content = true) (huncut : (feedText s cs).2 = false) :
    (feedText s cs).1.content = true := by
  induction cs generalizing s with
  | nil => exact h
  | cons c cs ih =>
    rw [feedText_cons, Bool.or_eq_false_iff] at huncut
    have hkept := kept_feedChar hsound h c
    rw [kept, huncut.1, if_neg (by simp)] at hkept
    rw [feedText_cons]
    exact ih (sound_feedChar hsound c) hkept huncut.2

theorem endLine_of_lineFree (h : LineFree s.rules) : s.endLine = (s.resetLine false, false) := by
  rw [endLine, isTerminatorLine_of_lineFree h, if_neg (by simp)]

/-- White space that scanners do not know is content. -/
theorem content_of_blank (hs : Settled s) (hblank : isBlank c = true) (hc : c ∉ plainBlanks) :
    (feedChar s c).1.content = true := by
  rcases (isBlank_cases hblank).resolve_left hc with rfl | hge
  · rw [hs.stepNormal (by decide)]
    rfl
  · rw [feedChar_word hs.region (.inl hge)]
    have hne : (wordBytes c).isEmpty = false := by
      rw [List.isEmpty_eq_false_iff]
      exact wordBytes_ne_nil c
    simp [pushWord, hne]

/-! ### Silence -/

/-- The scanner is between two lexemes of a statement without content, where lines end no statement. -/
structure Idle (rules : LexicalRules) (s : Scanner) : Prop where
  rules : s.rules = rules
  lineFree : LineFree s.rules
  settled : Settled s
  content : s.content = false

theorem Idle.resetLine (h : Idle rules s) : Idle rules (s.resetLine false) :=
  ⟨h.rules, h.lineFree, ⟨h.settled.region, h.settled.word⟩, h.content⟩

theorem Idle.passLines (h : Idle rules s) (body : List Char) : Idle rules (passLines s body) := by
  unfold DdlBridge.Statement.passLines
  split
  · exact h.resetLine
  · exact h

/-- A front that neither finds anything in. -/
theorem silent_append {front : List Char} (hfeed : feedText s front = (t, false))
    (hrules : t.rules = s.rules) (htrivia : (takeTrivia s.rules.hashComments (front ++ cs)).2 =
      (takeTrivia s.rules.hashComments cs).2) : Silent s (front ++ cs) ↔ Silent t cs := by
  have hread : feedText s (front ++ cs ++ ['\n']) = feedText t (cs ++ ['\n']) := by
    rw [List.append_assoc, feedText_append, hfeed, Bool.false_or]
  constructor
  · rintro ⟨hnone, huncut, hcontent⟩
    rw [hread] at huncut hcontent
    exact ⟨by rw [hrules, ← htrivia, hnone], huncut, hcontent⟩
  · rintro ⟨hnone, huncut, hcontent⟩
    refine ⟨?_, ?_, ?_⟩
    · rw [htrivia, ← hrules, hnone]
    · rw [hread, huncut]
    · rw [hread, hcontent]

theorem silent_blank (h : Idle rules s) (hc : c ∈ plainBlanks) : ∃ t, Idle rules t ∧
    (Silent s (c :: cs) ↔ Silent t cs) := by
  have htrivia : (takeTrivia s.rules.hashComments ([c] ++ cs)).2 =
      (takeTrivia s.rules.hashComments cs).2 :=
    takeTrivia_blanks _ (by simpa using isBlank_of_mem_plainBlanks hc) cs
  simp only [plainBlanks, List.mem_cons, List.not_mem_nil, or_false] at hc
  by_cases hnewline : c = '\n'
  · subst hnewline
    have hfeed : feedText s ['\n'] = (s.resetLine false, false) := by
      rw [feedText_singleton, h.settled.stepNormal (by decide), stepSymbol,
        endLine_of_lineFree h.lineFree]
    exact ⟨s.resetLine false, h.resetLine, silent_append hfeed rfl htrivia⟩
  · have hfeed : feedText s [c] = (s, false) := by
      rw [feedText_singleton]
      rcases hc with rfl | rfl | rfl | rfl | rfl
      case inr.inr.inl => exact absurd rfl hnewline
      all_goals exact h.settled.stepNormal (by decide)
    exact ⟨s, h, silent_append hfeed rfl htrivia⟩

theorem silent_block (h : Idle rules s) {body : List Char}
    (hbody : breakOn ['*', '/'] (body ++ ['*', '/']) = some (body, [])) : ∃ t, Idle rules t ∧
    (Silent s ((Lexeme.blockComment body).text ++ cs) ↔ Silent t cs) :=
  ⟨passLines s body, h.passLines body, silent_append (feedText_block h.settled hbody)
    ((h.passLines body).rules.trans h.rules.symm) (takeTrivia_block _ hbody cs)⟩

theorem feedText_endedLine (h : Idle rules s) {mark line ending : List Char} (hmark : IsMark rules mark)
    (hline : OneLine line) (hending : ending = ['\n'] ∨ ending = ['\r', '\n']) :
    feedText s (mark ++ (line ++ ending)) = (s.resetLine false, false) := by
  have hopen : ∀ body, '\n' ∉ body →
      feedText s (mark ++ body) = ({ s with region := .lineComment }, false) := fun body hbody =>
    feedText_marked h.settled (h.rules.symm ▸ hmark) hbody
  have hclose : feedText { s with region := .lineComment } ['\n'] = (s.resetLine false, false) := by
    rw [feedText_singleton, feedChar_of_lt _ (by decide)]
    have hsame : ({ s with region := .normal } : Scanner) = s := by rw [← h.settled.region]
    show endLine { s with region := .normal } = _
    rw [hsame, endLine_of_lineFree h.lineFree]
  obtain rfl | rfl := hending
  · rw [← List.append_assoc, feedText_append, hopen line hline.1, hclose]
    rfl
  · have hbody : '\n' ∉ line ++ ['\r'] := by simp [hline.1]
    have hparts : mark ++ (line ++ ['\r', '\n']) = mark ++ (line ++ ['\r']) ++ ['\n'] := by simp
    rw [hparts, feedText_append, hopen _ hbody, hclose]
    rfl

theorem silent_endedLine (h : Idle rules s) {mark line ending : List Char} (hmark : IsMark rules mark)
    (hline : OneLine line) (hending : ending = ['\n'] ∨ ending = ['\r', '\n']) :
    Silent s (mark ++ (line ++ (ending ++ cs))) ↔ Silent (s.resetLine false) cs := by
  have hstop : takeLine? (ending ++ cs) = some ([], ending ++ cs) := by
    obtain rfl | rfl := hending <;> rfl
  have htake : takeLine? (line ++ (ending ++ cs)) = some (line, ending ++ cs) := by
    rw [takeLine?_oneLine hline, hstop]
    exact Taken.behind_eq_some_iff.2 ⟨[], rfl, (List.append_nil line).symm⟩
  have hblank : ∀ c ∈ ending, isBlank c = true := by
    obtain rfl | rfl := hending <;> decide
  have htrivia := takeTrivia_mark hmark htake
  rw [takeTrivia_blanks _ hblank, ← h.rules] at htrivia
  have hparts : mark ++ (line ++ (ending ++ cs)) = mark ++ (line ++ ending) ++ cs := by simp
  rw [hparts] at htrivia ⊢
  exact silent_append (feedText_endedLine h hmark hline hending) rfl htrivia

/-- A line comment at the end of the text. -/
theorem silent_line (h : Idle rules s) {mark line : List Char} (hmark : IsMark rules mark)
    (hline : OneLine line) : Silent s (mark ++ line) := by
  have htake : takeLine? line = some (line, []) := by
    have hline' := takeLine?_oneLine hline []
    rw [List.append_nil] at hline'
    rw [hline']
    exact Taken.behind_eq_some_iff.2 ⟨[], rfl, (List.append_nil line).symm⟩
  have hfeed := feedText_endedLine h hmark hline (.inl rfl)
  rw [← List.append_assoc] at hfeed
  refine ⟨?_, ?_, ?_⟩
  · rw [h.rules, takeTrivia_mark hmark htake, takeTrivia_nil]
  · rw [hfeed]
  · rw [hfeed]
    exact h.content

/-! ### Remarks -/

/-- What stands in front of a text: a line comment that goes on in it, or nothing. -/
def Leads (rules : LexicalRules) : Bool → List Char → Prop
  | true, front => ∃ mark line, IsMark rules mark ∧ OneLine line ∧ front = mark ++ line
  | false, front => front = []

/-- The end of a comment, which a text in front of it does not reach into. -/
structure Closes (tail : List Char) : Prop where
  oneLine : OneLine tail
  slash : '/' ∉ tail
  start : ∃ more, tail = ' ' :: '(' :: more

variable {tail : List Char}

theorem Remark.silent {inside : Bool} (hremark : Remark rules inside cs) (htail : Closes tail)
    {front : List Char} (hfront : Leads rules inside front) (h : Idle rules s) :
    Silent s (front ++ (cs ++ tail)) := by
  induction hremark generalizing s front with
  | line hcs =>
    obtain ⟨mark, line, hmark, hline, rfl⟩ := hfront
    rw [List.append_assoc]
    exact silent_line h hmark (hline.append (hcs.append htail.oneLine))
  | @ends line ending cs hcs hending _ ih =>
    obtain ⟨mark, line', hmark, hline, rfl⟩ := hfront
    have hparts : mark ++ line' ++ (line ++ (ending ++ cs) ++ tail) =
        mark ++ ((line' ++ line) ++ (ending ++ (cs ++ tail))) := by simp
    rw [hparts, silent_endedLine h hmark (hline.append hcs) hending]
    exact ih rfl h.resetLine
  | blank hc _ ih =>
    obtain rfl : front = [] := hfront
    obtain ⟨t, ht, hiff⟩ := silent_blank h hc
    exact hiff.2 (ih rfl ht)
  | block hbody _ ih =>
    obtain rfl : front = [] := hfront
    obtain ⟨t, ht, hiff⟩ := silent_block h hbody
    rw [List.nil_append, List.append_assoc]
    exact hiff.2 (ih rfl ht)
  | @mark mark cs hmark _ ih =>
    obtain rfl : front = [] := hfront
    rw [List.nil_append, List.append_assoc]
    exact ih ⟨mark, [], hmark, ⟨List.not_mem_nil, List.not_mem_nil⟩, (List.append_nil _).symm⟩ h

/-- A part that ends in no character of the tail ends in front of it. -/
theorem prefix_of_not_mem_tail {part rest : List Char} {e : Char} (he : e ∉ tail)
    (h : part ++ [e] ++ rest = cs ++ tail) : ∃ more, cs = part ++ [e] ++ more ∧ rest = more ++ tail := by
  obtain ⟨more, hcs, hrest⟩ | ⟨more, hpart, htail⟩ := List.append_eq_append_iff.1 h
  · exact ⟨more, hcs, hrest⟩
  · cases more using List.reverseRecOn with
    | nil => exact ⟨[], by simpa using hpart.symm, by simpa using htail.symm⟩
    | append_singleton more d =>
      rw [← List.append_assoc] at hpart
      obtain ⟨-, hd⟩ := List.append_inj' hpart rfl
      obtain rfl : e = d := by simpa using hd
      exact absurd (by rw [htail]; simp) he

/-- Where a text opens a comment, the opener does not reach into the tail. -/
theorem exists_cons_of_append_eq {d : Char} {rest : List Char} (htail : Closes tail) (hd : d ≠ ' ')
    (h : cs ++ tail = d :: rest) : ∃ more, cs = d :: more ∧ rest = more ++ tail := by
  cases cs with
  | nil =>
    obtain ⟨more, rfl⟩ := htail.start
    exact absurd (List.cons.inj h).1.symm hd
  | cons e more =>
    obtain ⟨rfl, rfl⟩ := List.cons.inj h
    exact ⟨more, rfl, rfl⟩

/-- Inside a line comment the line goes on into the tail, or the text behind it is silent. -/
theorem Silent.inside {mark line : List Char} (hmark : IsMark rules mark) (hline : OneLine line)
    (htail : Closes tail) (h : Idle rules s) (hsilent : Silent s (mark ++ line ++ (cs ++ tail))) :
    OneLine cs ∨ ∃ line' ending rest, OneLine line' ∧ (ending = ['\n'] ∨ ending = ['\r', '\n']) ∧
      cs = line' ++ (ending ++ rest) ∧ Silent (s.resetLine false) (rest ++ tail) := by
  rw [List.append_assoc] at hsilent
  have hread := takeLine?_oneLine hline (cs ++ tail)
  cases htake : takeLine? (cs ++ tail) with
  | none =>
    rw [htake] at hread
    have hne := takeTrivia_mark_ne_nil hmark hread
    rw [← h.rules] at hne
    exact absurd hsilent.trivia hne
  | some taken =>
    obtain ⟨line', rest⟩ := taken
    have hparts := takeLine?_append htake
    obtain ⟨hline', rfl | ⟨ending, more, hending, rfl⟩⟩ := of_takeLine? htake
    · rw [List.append_nil] at hparts
      exact .inl (hparts ▸ hline').left
    · obtain ⟨front, hfront⟩ : ∃ front, ending = front ++ ['\n'] := by
        obtain rfl | rfl := hending
        · exact ⟨[], rfl⟩
        · exact ⟨['\r'], rfl⟩
      have hlast : line' ++ front ++ ['\n'] ++ more = cs ++ tail := by
        rw [← hparts, hfront]
        simp
      obtain ⟨rest, rfl, rfl⟩ := prefix_of_not_mem_tail htail.oneLine.1 hlast
      have hwhole : line' ++ front ++ ['\n'] ++ rest = line' ++ (ending ++ rest) := by
        rw [hfront]
        simp
      refine .inr ⟨line', ending, rest, hline', hending, hwhole, ?_⟩
      have htext : mark ++ (line ++ (line' ++ front ++ ['\n'] ++ rest ++ tail)) =
          mark ++ ((line ++ line') ++ (ending ++ (rest ++ tail))) := by
        rw [hwhole]
        simp
      rw [htext] at hsilent
      exact (silent_endedLine h hmark (hline.append hline') hending).1 hsilent

/-- A comment opens in front of the tail, and a block comment closes there. -/
theorem of_takeComment? (htail : Closes tail) {found : List Char × List Char}
    (hfound : takeComment? rules.hashComments (c :: cs ++ tail) = some found) :
    (∃ body rest, breakOn ['*', '/'] (body ++ ['*', '/']) = some (body, []) ∧
        c :: cs = (Lexeme.blockComment body).text ++ rest) ∨
      ∃ mark rest, IsMark rules mark ∧ c :: cs = mark ++ rest := by
  unfold takeComment? at hfound
  split at hfound
  case h_1 after heq =>
    obtain ⟨rfl, hafter⟩ := List.cons.inj heq
    obtain ⟨more, rfl, -⟩ := exists_cons_of_append_eq htail (by decide) hafter
    exact .inr ⟨['-', '-'], more, .inl rfl, rfl⟩
  case h_2 after heq =>
    obtain ⟨rfl, hafter⟩ := List.cons.inj heq
    obtain ⟨more, rfl, rfl⟩ := exists_cons_of_append_eq htail (by decide) hafter
    obtain ⟨⟨body, rest'⟩, hbreak, -⟩ := Option.map_eq_some_iff.1 hfound
    have hparts := breakOn_eq_some hbreak
    have hlast : body ++ ['*'] ++ ['/'] ++ rest' = more ++ tail := by
      rw [hparts]
      simp
    obtain ⟨rest'', rfl, rfl⟩ := prefix_of_not_mem_tail htail.slash hlast
    exact .inl ⟨body, rest'', breakOn_close hbreak, by simp [Lexeme.text]⟩
  case h_3 after heq =>
    obtain ⟨rfl, -⟩ := List.cons.inj heq
    split at hfound
    case isTrue hhash => exact .inr ⟨['#'], cs, .inr ⟨hhash, rfl⟩, rfl⟩
    case isFalse => exact absurd hfound (by simp)
  case h_4 => exact absurd hfound (by simp)

/-- What is silent outside a comment starts with white space or a comment. -/
theorem Silent.outside (htail : Closes tail) (h : Idle rules s) (hsilent : Silent s (cs ++ tail)) :
    (∃ c rest, c ∈ plainBlanks ∧ cs = c :: rest) ∨
      (∃ body rest, breakOn ['*', '/'] (body ++ ['*', '/']) = some (body, []) ∧
        cs = (Lexeme.blockComment body).text ++ rest) ∨
      ∃ mark rest, IsMark rules mark ∧ cs = mark ++ rest := by
  have htrivia := hsilent.trivia
  cases cs with
  | nil =>
    obtain ⟨more, rfl⟩ := htail.start
    rw [List.nil_append, takeTrivia_blank _ (by decide), takeTrivia_of_not_blank _ (by decide)] at htrivia
    exact absurd htrivia (by simp [takeComment?])
  | cons c cs =>
    cases hblank : isBlank c with
    | true =>
      refine .inl ⟨c, cs, ?_, rfl⟩
      by_contra hc
      have hsound := h.settled.sound
      have huncut := hsilent.uncut
      have hcontent := hsilent.content
      rw [List.cons_append, List.cons_append, feedText_cons] at huncut hcontent
      rw [Bool.or_eq_false_iff] at huncut
      have hkept := content_feedText (sound_feedChar hsound c) (content_of_blank h.settled hblank hc)
        huncut.2
      rw [hcontent] at hkept
      exact absurd hkept (by simp)
    | false =>
      rw [List.cons_append, takeTrivia_of_not_blank _ hblank, h.rules] at htrivia
      split at htrivia
      case h_1 hfound => exact .inr (of_takeComment? htail hfound)
      case h_2 => exact absurd htrivia (List.cons_ne_nil _ _)

theorem Silent.remark {inside : Bool} (htail : Closes tail) {front : List Char}
    (hfront : Leads rules inside front)
    (h : Idle rules s) (hsilent : Silent s (front ++ (cs ++ tail))) : Remark rules inside cs := by
  induction hn : cs.length using Nat.strong_induction_on generalizing s cs inside front with
  | _ n ih =>
    subst hn
    cases inside with
    | true =>
      obtain ⟨mark, line, hmark, hline, rfl⟩ := hfront
      obtain hcs | ⟨line', ending, rest, hline', hending, rfl, hrest⟩ :=
        hsilent.inside hmark hline htail h
      · exact .line hcs
      · have hpos : 0 < ending.length := by obtain rfl | rfl := hending <;> simp
        refine .ends hline' hending (ih rest.length ?_ rfl h.resetLine hrest rfl)
        simp only [List.length_append]
        omega
    | false =>
      obtain rfl : front = [] := hfront
      rw [List.nil_append] at hsilent
      obtain ⟨c, rest, hc, rfl⟩ | ⟨body, rest, hbody, rfl⟩ | ⟨mark, rest, hmark, rfl⟩ :=
        hsilent.outside htail h
      · obtain ⟨t, ht, hiff⟩ : ∃ t, Idle rules t ∧
            (Silent s (c :: (rest ++ tail)) ↔ Silent t (rest ++ tail)) := silent_blank h hc
        exact .blank hc (ih rest.length (by simp) rfl ht (hiff.1 hsilent) rfl)
      · obtain ⟨t, ht, hiff⟩ : ∃ t, Idle rules t ∧ (Silent s ((Lexeme.blockComment body).text ++
            (rest ++ tail)) ↔ Silent t (rest ++ tail)) := silent_block h hbody
        rw [List.append_assoc] at hsilent
        refine .block hbody (ih rest.length ?_ rfl ht (hiff.1 hsilent) rfl)
        simp only [Lexeme.text, List.length_append, List.length_cons, List.length_nil]
        omega
      · rw [List.append_assoc] at hsilent
        have hleads : Leads rules true mark :=
          ⟨mark, [], hmark, ⟨List.not_mem_nil, List.not_mem_nil⟩, (List.append_nil _).symm⟩
        have hpos : 0 < mark.length := by obtain rfl | ⟨-, rfl⟩ := hmark <;> simp
        refine .mark hmark (ih rest.length ?_ hleads h hsilent rfl)
        rw [List.length_append]
        omega

/-- In front of the end of a comment, what stays silent is a remark. -/
theorem silent_iff {inside : Bool} (htail : Closes tail) {front : List Char}
    (hfront : Leads rules inside front) (h : Idle rules s) :
    Silent s (front ++ (cs ++ tail)) ↔ Remark rules inside cs :=
  ⟨fun hsilent => hsilent.remark htail hfront h, fun hremark => hremark.silent htail hfront h⟩

end DdlBridge.Statement
