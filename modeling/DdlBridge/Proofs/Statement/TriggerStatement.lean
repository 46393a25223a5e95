import DdlBridge.Proofs.Grammar.Trigger
import DdlBridge.Proofs.Statement.Piece
import DdlBridge.Proofs.Statement.Tracking

/-!
# Triggers in scripts

A scanner knows a trigger from the first words of its statement (`Named`) and the place of its `BEGIN`
(`Opened`). Then the statement stays in one piece and the trigger keeps its body; otherwise the
statement is cut at the first `;` of the body (`TriggerText.split_eq`).
-/

namespace DdlBridge.Statement

open Scanner Text

variable {rules : LexicalRules} {s : Scanner} {l : Lexeme}

/-! ### Scripts that only `;` cuts -/

theorem take_uncut (hfree : LineFree s.rules) (hl : l ≠ .punct ';') : (take s l).2 = false := by
  cases l with
  | blank ch =>
    rw [take]
    split
    · rw [endLine, isTerminatorLine_of_lineFree hfree]
      rfl
    · rfl
  | punct ch =>
    have hch : ch ≠ ';' := fun heq => hl (by rw [heq])
    rw [take, if_neg hch]
  | word | quoted | dollar | lineComment | blockComment => rfl

theorem takeAll_uncut (hfree : LineFree s.rules) {ls : List Lexeme} (hls : .punct ';' ∉ ls) :
    (takeAll s ls).2 = false := by
  induction ls generalizing s with
  | nil => rfl
  | cons l ls ih =>
    rw [List.mem_cons, not_or] at hls
    rw [takeAll, take_uncut hfree fun heq => hls.1 heq.symm,
      ih (s := (take s l).1) (by rwa [rules_take]) hls.2]
    rfl

/-! ### The words of a statement -/

def Lexeme.word? : Lexeme → Option (List Char)
  | word cs => some cs
  | _ => none

/-- The words among lexemes, in upper case. -/
def wordsOf (ls : List Lexeme) : List String :=
  (ls.filterMap Lexeme.word?).map fun cs => (Lexeme.word cs).keyword

theorem wordsOf_word (cs : List Char) (ls : List Lexeme) :
    wordsOf (.word cs :: ls) = (Lexeme.word cs).keyword :: wordsOf ls := rfl

theorem wordsOf_of_not_word (hl : ∀ cs, l ≠ .word cs) (ls : List Lexeme) :
    wordsOf (l :: ls) = wordsOf ls := by
  cases l with
  | word cs => exact absurd rfl (hl cs)
  | _ => rfl

theorem mem_objects_iff (cs : List Char) :
    (spoken cs ∈ routines ↔ (Lexeme.word cs).keyword ∈ routines) ∧
      (spoken cs ∈ plainObjects ↔ (Lexeme.word cs).keyword ∈ plainObjects) :=
  ⟨spoken_mem_iff_of_short (by decide) cs, spoken_mem_iff_of_short (by decide) cs⟩

theorem namesRoutine_append_of_neutral {ws : List String}
    (hws : ∀ w ∈ ws, w ∉ routines ∧ w ∉ plainObjects) (ws' : List String) :
    namesRoutine (ws ++ ws') = namesRoutine ws' := by
  induction ws with
  | nil => rfl
  | cons w ws ih =>
    obtain ⟨hroutine, hplain⟩ := hws w List.mem_cons_self
    rw [List.cons_append, namesRoutine, if_neg hroutine, if_neg hplain]
    exact ih fun w' hmem => hws w' (List.mem_cons_of_mem _ hmem)

/-- What decides among more words decides among the first of them. -/
theorem namesRoutine_of_append {ws ws' : List String}
    (hws : ¬ ∀ w ∈ ws, w ∉ routines ∧ w ∉ plainObjects) (h : namesRoutine (ws ++ ws') = true) :
    namesRoutine ws = true := by
  induction ws with
  | nil => exact absurd (by simp) hws
  | cons w ws ih =>
    rw [List.cons_append, namesRoutine] at h
    rw [namesRoutine]
    split at h
    case isTrue hroutine => rw [if_pos hroutine]
    case isFalse hroutine =>
      rw [if_neg hroutine]
      split at h
      case isTrue => exact absurd h (by simp)
      case isFalse hplain =>
        rw [if_neg hplain]
        refine ih (fun hrest => hws fun w' hw' => ?_) h
        rcases List.mem_cons.1 hw' with rfl | hw'
        · exact ⟨hroutine, hplain⟩
        · exact hrest w' hw'

/-- `BEGIN` names nothing. -/
theorem namesRoutine_of_begin {ws : List String} {k : Nat}
    (h : namesRoutine ((ws ++ ["BEGIN"]).take k) = true) : namesRoutine (ws.take k) = true := by
  rw [List.take_append] at h
  by_cases hneutral : ∀ w ∈ ws.take k, w ∉ routines ∧ w ∉ plainObjects
  · rw [namesRoutine_append_of_neutral hneutral] at h
    revert h
    cases k - ws.length with
    | zero => simp [namesRoutine]
    | succ k => simp [namesRoutine, routines, plainObjects]
  · exact namesRoutine_of_append hneutral h

/-- The scanner keeps a word, or it is one that an `END` goes with. -/
theorem head_onWord (s : Scanner) (w : String) :
    (s.onWord w).head = (if s.head.length < maxHead then s.head ++ [w] else s.head) ∨
      ((w ∈ endSuffixes ∨ w = "CASE") ∧ (s.onWord w).head = s.head) := by
  by_cases hread : s.pendingEnd = true ∧ (w ∈ endSuffixes ∨ w = "CASE")
  · obtain ⟨hpending, hw | hw⟩ := hread
    · exact .inr ⟨.inl hw, by rw [onWord_of_suffix hpending hw]⟩
    · exact .inr ⟨.inr hw, by rw [hw, onWord_case hpending]; rfl⟩
  · rw [onWord_of_not hread]
    exact .inl rfl

theorem words_onWord (s : Scanner) (w : String) : s.words ≤ (s.onWord w).words := by
  by_cases hread : s.pendingEnd = true ∧ (w ∈ endSuffixes ∨ w = "CASE")
  · obtain ⟨hpending, hw | hw⟩ := hread
    · rw [onWord_of_suffix hpending hw]
    · rw [hw, onWord_case hpending]
      exact Nat.le_refl _
  · rw [onWord_of_not hread]
    exact Nat.le_succ _

/-! ### Statements whose first words name a routine -/

/-- A `CREATE` that has named nothing yet; the scanner looks at `k` more words at least. -/
structure Unnamed (k : Nat) (s : Scanner) : Prop where
  head : ∃ ws, s.head = "CREATE" :: ws ∧ ws.length + k < maxHead ∧
    ∀ w ∈ ws, w ∉ routines ∧ w ∉ plainObjects
  words : 0 < s.words
  content : s.content = true

/-- Behind one more word the scanner has kept it, unless it is one that an `END` goes with. -/
theorem Unnamed.take_word {k : Nat} (h : Unnamed (k + 1) s) (hs : Settled s) {cs : List Char}
    (hcs : cs ≠ []) : 0 < (take s (.word cs)).1.words ∧ (take s (.word cs)).1.content = true ∧
      ((take s (.word cs)).1.head = s.head ++ [spoken cs] ∨
        ((spoken cs ∈ endSuffixes ∨ spoken cs = "CASE") ∧ (take s (.word cs)).1.head = s.head)) := by
  obtain ⟨ws, hhead, hlength, -⟩ := h.head
  have hroom : (wordOnLine s cs).head.length < maxHead := by
    show s.head.length < maxHead
    rw [hhead, List.length_cons]
    omega
  have hkept := head_onWord (wordOnLine s cs) (spoken cs)
  rw [if_pos hroom] at hkept
  rw [Statement.take_word hs hcs]
  refine ⟨Nat.lt_of_lt_of_le (m := (wordOnLine s cs).words) h.words (words_onWord _ _), ?_, hkept⟩
  obtain ⟨_, _, _, _, _, heq⟩ := (wordOnLine s cs).onWord_eq (spoken cs)
  show ((wordOnLine s cs).onWord (spoken cs)).content = true
  rw [heq]
  rfl

theorem Unnamed.started {k : Nat} (h : Unnamed (k + 1) s) (hs : Settled s) {cs : List Char}
    (hcs : cs ≠ []) (hnamed : (Lexeme.word cs).keyword ∈ routines) :
    Started (take s (.word cs)).1 := by
  obtain ⟨ws, hhead, -, hws⟩ := h.head
  obtain ⟨hwords, hcontent, hkept | ⟨hword, -⟩⟩ := h.take_word hs hcs
  · refine ⟨?_, hwords, hcontent⟩
    rw [hkept, hhead]
    show namesRoutine (ws ++ [spoken cs]) = true
    rw [namesRoutine_append_of_neutral hws, namesRoutine, if_pos ((mem_objects_iff cs).1.2 hnamed)]
  · have hnone : ("CASE" :: endSuffixes).all (! routines.contains ·) = true := by decide
    have hnot := List.all_eq_true.1 hnone _ (List.mem_cons.2 hword.symm)
    rw [← (mem_objects_iff cs).1] at hnamed
    simp [hnamed] at hnot

theorem Unnamed.word {k : Nat} (h : Unnamed (k + 1) s) (hs : Settled s) {cs : List Char}
    (hcs : cs ≠ []) (hroutine : (Lexeme.word cs).keyword ∉ routines)
    (hplain : (Lexeme.word cs).keyword ∉ plainObjects) : Unnamed k (take s (.word cs)).1 := by
  obtain ⟨ws, hhead, hlength, hws⟩ := h.head
  obtain ⟨hwords, hcontent, hkept | ⟨-, hkept⟩⟩ := h.take_word hs hcs
  · refine ⟨⟨ws ++ [spoken cs], by rw [hkept, hhead, List.cons_append], ?_, ?_⟩, hwords, hcontent⟩
    · rw [List.length_append, List.length_singleton]
      omega
    · obtain ⟨hroutine', hplain'⟩ := mem_objects_iff cs
      rw [← hroutine'] at hroutine
      rw [← hplain'] at hplain
      exact List.forall_mem_append.2 ⟨hws, List.forall_mem_singleton.2 ⟨hroutine, hplain⟩⟩
  · exact ⟨⟨ws, hkept.trans hhead, by omega, hws⟩, hwords, hcontent⟩

/-- A routine named among the words that the scanner looks at makes it expect a block. -/
theorem started_of_named {k : Nat} {ls : List Lexeme} (hformed : ∀ l ∈ ls, l.Formed rules)
    (hs : Settled s) (h : Unnamed k s) (hnamed : namesRoutine ((wordsOf ls).take k) = true)
    (huncut : (takeAll s ls).2 = false) : Started (takeAll s ls).1 := by
  induction ls generalizing s k with
  | nil => exact absurd hnamed (by simp [wordsOf, namesRoutine])
  | cons l ls ih =>
    obtain ⟨hfirst, hrest⟩ := takeAll_cons_uncut huncut
    have hl := hformed l List.mem_cons_self
    have hformed' : ∀ l' ∈ ls, l'.Formed rules := fun l' hmem => hformed l' (List.mem_cons_of_mem _ hmem)
    by_cases hword : ∃ cs, l = .word cs
    · obtain ⟨cs, rfl⟩ := hword
      have hcs : cs ≠ [] := by
        rintro rfl
        cases hl
      cases k with
      | zero => exact absurd hnamed (by simp [namesRoutine])
      | succ k =>
        rw [wordsOf_word, List.take_succ_cons, namesRoutine] at hnamed
        split at hnamed
        case isTrue hroutine =>
          have hrun := started_run hformed' (hs.take _) (h.started hs hcs hroutine) hrest
          exact hrun
        case isFalse hroutine =>
          split at hnamed
          case isTrue => exact absurd hnamed (by simp)
          case isFalse hplain =>
            exact ih hformed' (hs.take _) (h.word hs hcs hroutine hplain) hnamed hrest
    · have hnone : ∀ cs, l ≠ .word cs := fun cs heq => hword ⟨cs, heq⟩
      obtain ⟨hhead, hwords, hcontent⟩ := head_take hs hnone hfirst
      have hkept : Unnamed k (take s l).1 := ⟨hhead ▸ h.head, hwords ▸ h.words, hcontent h.content⟩
      rw [wordsOf_of_not_word hnone] at hnamed
      exact ih hformed' (hs.take l) hkept hnamed hrest

/-! ### Statements in which no block is open -/

/-- Behind `CREATE` and these words nothing is open. -/
structure Flat (ws : List String) (s : Scanner) : Prop where
  head : s.head = ("CREATE" :: ws).take maxHead
  depth : s.depth = 0
  pending : s.pendingEnd = false

/-- The words of lexemes as a scanner reads them. -/
def spokenWords (ls : List Lexeme) : List String := (ls.filterMap Lexeme.word?).map spoken

theorem namesRoutine_spokenWords (k : Nat) (ls : List Lexeme) :
    namesRoutine ((spokenWords ls).take k) = namesRoutine ((wordsOf ls).take k) := by
  have hall : ∀ (k : Nat) (words : List (List Char)),
      namesRoutine ((words.map spoken).take k) =
        namesRoutine ((words.map fun cs => (Lexeme.word cs).keyword).take k) := by
    intro k words
    induction words generalizing k with
    | nil => rfl
    | cons cs words ih =>
      obtain ⟨hroutine, hplain⟩ := mem_objects_iff cs
      cases k with
      | zero => rfl
      | succ k =>
        simp only [List.map_cons, List.take_succ_cons, namesRoutine, hroutine, hplain, ih]
  exact hall k (ls.filterMap Lexeme.word?)

theorem take_concat_of_take {ws : List String} (w : String) :
    (if (("CREATE" :: ws).take maxHead).length < maxHead then ("CREATE" :: ws).take maxHead ++ [w]
      else ("CREATE" :: ws).take maxHead) = ("CREATE" :: (ws ++ [w])).take maxHead := by
  by_cases hroom : ws.length + 1 < maxHead
  · have hall : ("CREATE" :: ws).take maxHead = "CREATE" :: ws :=
      List.take_of_length_le (by rw [List.length_cons]; omega)
    have hmore : ("CREATE" :: (ws ++ [w])).take maxHead = "CREATE" :: (ws ++ [w]) := by
      refine List.take_of_length_le ?_
      rw [List.length_cons, List.length_append, List.length_singleton]
      omega
    rw [hall, hmore, if_pos (by rwa [List.length_cons]), List.cons_append]
  · have hfull : ("CREATE" :: ws).length ≥ maxHead := by
      rw [List.length_cons]
      omega
    rw [if_neg (by rw [List.length_take]; omega), ← List.cons_append,
      List.take_append_of_le_length hfull]

/-- The scanner behind a word when no `END` is undecided. -/
theorem take_word_of_decided (hs : Settled s) (hpending : s.pendingEnd = false) {cs : List Char}
    (hcs : cs ≠ []) : take s (.word cs) =
      ({ (wordOnLine s cs).countWord (spoken cs) with previous := .word (spoken cs) }, false) := by
  have hdecided : (wordOnLine s cs).pendingEnd = false := hpending
  rw [take_word hs hcs, Scanner.onWord, if_neg (by rw [hdecided]; simp)]

theorem Flat.step_word {ws : List String} (h : Flat ws s) (hs : Settled s)
    (hslash : s.rules.slashLines = false) {cs : List Char} (hcs : cs ≠ [])
    (hbegin : (Lexeme.word cs).keyword ≠ "BEGIN") (hcase : (Lexeme.word cs).keyword ≠ "CASE") :
    Flat (ws ++ [spoken cs]) (take s (.word cs)).1 := by
  have hdepth : (wordOnLine s cs).depth = 0 := h.depth
  rw [Ne, ← spoken_eq_iff (by decide) cs] at hbegin hcase
  rw [take_word_of_decided hs h.pending hcs]
  refine ⟨?_, ?_, ?_⟩
  · show (if (wordOnLine s cs).head.length < maxHead then (wordOnLine s cs).head ++ [spoken cs]
      else (wordOnLine s cs).head) = ("CREATE" :: (ws ++ [spoken cs])).take maxHead
    have hhead : (wordOnLine s cs).head = ("CREATE" :: ws).take maxHead := h.head
    rw [hhead]
    exact take_concat_of_take (spoken cs)
  · show ((wordOnLine s cs).countWord (spoken cs)).depth = 0
    rw [depth_countWord (s := wordOnLine s cs) hslash, if_neg (by simp [hbegin, hcase]), hdepth]
  · show ((wordOnLine s cs).countWord (spoken cs)).pendingEnd = false
    have hpending : (wordOnLine s cs).pendingEnd = false := h.pending
    rw [pendingEnd_countWord (s := wordOnLine s cs) hslash, hpending, hdepth]
    simp

theorem Flat.step_other {ws : List String} (h : Flat ws s) (hs : Settled s) (hl : l.Formed rules)
    (hnone : ∀ cs, l ≠ .word cs) (huncut : (take s l).2 = false) : Flat ws (take s l).1 := by
  obtain ⟨hhead, -, -⟩ := head_take hs hnone huncut
  cases hsettles : l.settles with
  | false =>
    obtain ⟨hdepth, hpending⟩ := nesting_take hs hsettles huncut
    exact ⟨hhead.trans h.head, hdepth.trans h.depth, hpending.trans h.pending⟩
  | true =>
    obtain rfl | ⟨cs, -, rfl⟩ := hl.settles_cases hsettles
    · obtain ⟨hdepth, hpending⟩ := nesting_semicolon huncut
      refine ⟨hhead.trans h.head, ?_, hpending⟩
      rw [hdepth]
      simp [settleEnd, h.depth, h.pending]
    · exact absurd rfl (hnone cs)

theorem Flat.step {ws : List String} (h : Flat ws s) (hs : Settled s)
    (hslash : s.rules.slashLines = false) (hl : l.Formed rules) (hbegin : l.keyword ≠ "BEGIN")
    (hcase : l.keyword ≠ "CASE") (huncut : (take s l).2 = false) :
    Flat (ws ++ spokenWords [l]) (take s l).1 := by
  cases l with
  | word cs =>
    have hcs : cs ≠ [] := by
      rintro rfl
      cases hl
    exact h.step_word hs hslash hcs hbegin hcase
  | blank | punct | quoted | dollar | lineComment | blockComment =>
    have hkept := h.step_other hs hl (by simp) huncut
    rwa [← List.append_nil ws] at hkept

/-- With nothing open, a `BEGIN` opens a block only behind words that name a routine. -/
theorem Flat.named_of_opensBlock {ws : List String} (h : Flat ws s)
    (hopens : (s.noteWord "BEGIN").opensBlock = true) :
    namesRoutine (ws.take (maxHead - 1)) = true ∧ (s.parens == 0 && admits s.previous) = true := by
  simp only [opensBlock, Bool.and_eq_true] at hopens
  obtain ⟨⟨⟨-, hparens⟩, hcontext⟩, hprevious⟩ := hopens
  have hdepth : (s.noteWord "BEGIN").depth = 0 := h.depth
  have hhead : (s.noteWord "BEGIN").head = ("CREATE" :: (ws ++ ["BEGIN"])).take maxHead := by
    rw [← take_concat_of_take, ← h.head]
    rfl
  rw [hdepth, hhead] at hcontext
  have hblock : mayHoldBlock (("CREATE" :: (ws ++ ["BEGIN"])).take maxHead) = true := by
    simpa using hcontext
  refine ⟨namesRoutine_of_begin hblock, ?_⟩
  rw [Bool.and_eq_true]
  exact ⟨hparens, hprevious⟩

theorem flat_run {ws : List String} {ls : List Lexeme} (hformed : ∀ l ∈ ls, l.Formed rules)
    (hs : Settled s) (hslash : s.rules.slashLines = false)
    (hblocks : ∀ l ∈ ls, l.keyword ≠ "BEGIN" ∧ l.keyword ≠ "CASE") (h : Flat ws s)
    (huncut : (takeAll s ls).2 = false) : Flat (ws ++ spokenWords ls) (takeAll s ls).1 := by
  induction ls generalizing s ws with
  | nil =>
    rw [spokenWords, List.filterMap_nil, List.map_nil, List.append_nil]
    exact h
  | cons l ls ih =>
    obtain ⟨hfirst, hrest⟩ := takeAll_cons_uncut huncut
    obtain ⟨hl, hls⟩ := List.forall_mem_cons.1 hblocks
    have hstep := h.step hs hslash (hformed l List.mem_cons_self) hl.1 hl.2 hfirst
    have hrun := ih (fun l' hmem => hformed l' (List.mem_cons_of_mem _ hmem)) (hs.take l)
      (by rwa [rules_take]) hls hstep hrest
    have hwords : spokenWords (l :: ls) = spokenWords [l] ++ spokenWords ls := by
      rw [spokenWords, ← List.singleton_append, List.filterMap_append, List.map_append]
      rfl
    rw [hwords, ← List.append_assoc]
    exact hrun

/-! ### Bodies -/

/-- A block is open, and no `END` is undecided. -/
structure Inside (s : Scanner) : Prop where
  opened : s.depth ≠ 0
  decided : s.pendingEnd = false

/-- Inside a block a word that opens and closes nothing leaves it open, and no `;` ends the statement. -/
theorem Inside.step (h : Inside s) (hs : Settled s) (hfree : LineFree s.rules) (hl : l.Formed rules)
    (hword : l.keyword ∉ ["BEGIN", "CASE", "END"]) :
    (take s l).2 = false ∧ Inside (take s l).1 := by
  simp only [List.mem_cons, List.not_mem_nil, or_false, not_or] at hword
  obtain ⟨hbegin, hcase, hend⟩ := hword
  have hsettled : s.settleEnd.depth = s.depth := by simp [settleEnd, h.decided]
  have huncut : (take s l).2 = false := by
    by_cases hsemicolon : l = .punct ';'
    · subst hsemicolon
      have hopen : (s.takePunct ';').settleEnd.depth ≠ 0 := by
        show s.settleEnd.depth ≠ 0
        rw [hsettled]
        exact h.opened
      rw [take, if_pos rfl, terminator, if_pos (.inr hopen)]
    · exact take_uncut hfree hsemicolon
  refine ⟨huncut, ?_⟩
  cases hsettles : l.settles with
  | false =>
    obtain ⟨hdepth, hpending⟩ := nesting_take hs hsettles huncut
    exact ⟨hdepth ▸ h.opened, hpending.trans h.decided⟩
  | true =>
    obtain rfl | ⟨cs, hcs, rfl⟩ := hl.settles_cases hsettles
    · obtain ⟨hdepth, hpending⟩ := nesting_semicolon huncut
      exact ⟨by rw [hdepth, hsettled]; exact h.opened, hpending⟩
    · cases wordStep hs hfree.1 hcs with
      | suffix hpending => exact absurd (h.decided.symm.trans hpending) (by simp)
      | reopen hpending => exact absurd (h.decided.symm.trans hpending) (by simp)
      | count opens _ _ hdepth hpending =>
        rw [if_neg (by simp [hbegin, hcase]), hsettled] at hdepth
        rw [beq_eq_false_iff_ne.2 hend, Bool.false_and] at hpending
        exact ⟨by rw [hdepth]; exact h.opened, hpending⟩

theorem inside_run {ls : List Lexeme} (hformed : ∀ l ∈ ls, l.Formed rules) (hs : Settled s)
    (hfree : LineFree s.rules) (hwords : ∀ l ∈ ls, l.keyword ∉ ["BEGIN", "CASE", "END"])
    (h : Inside s) : (takeAll s ls).2 = false ∧ Inside (takeAll s ls).1 := by
  induction ls generalizing s with
  | nil => exact ⟨rfl, h⟩
  | cons l ls ih =>
    obtain ⟨hl, hls⟩ := List.forall_mem_cons.1 hwords
    obtain ⟨huncut, hinside⟩ := h.step hs hfree (hformed l List.mem_cons_self) hl
    obtain ⟨hrest, hlast⟩ := ih (fun l' hmem => hformed l' (List.mem_cons_of_mem _ hmem)) (hs.take l)
      (by rwa [rules_take]) hls hinside
    refine ⟨?_, hlast⟩
    rw [takeAll, huncut, hrest]
    rfl

/-! ### Triggers -/

/-- The parts of `CREATE … TRIGGER … BEGIN s; …; END`. -/
structure TriggerText where
  create : Lexeme
  /-- What stands between `CREATE` and the `BEGIN` of the body. -/
  head : List Lexeme
  opening : Lexeme
  items : List Lexeme
  closing : Lexeme
  trail : List Lexeme
  hcreate : create.keyword = "CREATE"
  hhead : .punct ';' ∉ head
  hopening : opening.keyword = "BEGIN"
  hitems : ∀ l ∈ items, l.keyword ∉ ["BEGIN", "CASE", "END"]
  hclosing : closing.keyword = "END"
  htrail : Gap trail

namespace TriggerText

def before (r : TriggerText) : List Lexeme := r.create :: r.head

def body (r : TriggerText) : List Lexeme := r.opening :: (r.items ++ r.closing :: r.trail)

/-- The statement without its `;`. -/
def front (r : TriggerText) : List Lexeme := r.before ++ r.body

/-- One of the first words names a routine, and none before it another object. -/
def Named (r : TriggerText) : Prop := namesRoutine ((wordsOf r.head).take (maxHead - 1)) = true

/-- `BEGIN` stands neither in parentheses nor where a name would. -/
def Opened (rules : LexicalRules) (r : TriggerText) : Prop :=
  (Context.after {} r.before).parens = 0 ∧
    (Context.after {} r.before).last.any (·.admitsBlock rules) = true

theorem semicolon_not_mem_before (r : TriggerText) : .punct ';' ∉ r.before := by
  intro hmem
  rcases List.mem_cons.1 hmem with heq | hmem
  · exact Lexeme.ne_semicolon_of_keyword r.hcreate (by decide) heq.symm
  · exact r.hhead hmem

theorem semicolon_not_mem_end (r : TriggerText) : .punct ';' ∉ r.closing :: r.trail := by
  intro hmem
  rcases List.mem_cons.1 hmem with heq | hmem
  · exact Lexeme.ne_semicolon_of_keyword r.hclosing (by decide) heq.symm
  · exact absurd (r.htrail _ hmem) (by simp [Lexeme.isGap])

section

variable (r : TriggerText) (hfree : LineFree rules) (hformed : ∀ l ∈ r.front, l.Formed rules)

include hfree

theorem uncut_before : (takeAll (fresh rules) r.before).2 = false :=
  takeAll_uncut hfree r.semicolon_not_mem_before

theorem started_before (hformed : ∀ l ∈ r.before, l.Formed rules) (hnamed : r.Named) :
    Started (takeAll (fresh rules) r.before).1 := by
  have hs := settled_fresh rules
  obtain ⟨hbegun, hcontent⟩ := Begun.word hs (⟨rfl, rfl, rfl⟩ : Begun [] _) (by decide) r.hcreate
    (by decide) (by decide)
  have hunnamed : Unnamed (maxHead - 1) (take (fresh rules) r.create).1 :=
    ⟨⟨[], hbegun.head, by decide, by simp⟩, by rw [hbegun.words]; decide, hcontent⟩
  obtain ⟨-, hrest⟩ := takeAll_cons_uncut (r.uncut_before hfree)
  have hstarted := started_of_named (fun l hl => hformed l (List.mem_cons_of_mem _ hl))
    (hs.take r.create) hunnamed hnamed hrest
  exact hstarted

include hformed

/-- A trigger that is named and opened in time stays whole. -/
theorem uncut_front (hnamed : r.Named) (hopened : r.Opened rules) :
    (takeAll (fresh rules) r.front).2 = false := by
  have hs := settled_fresh rules
  have hbefore : ∀ l ∈ r.before, l.Formed rules := fun l hl => hformed l (by simp [front, hl])
  have huncut := r.uncut_before hfree
  have hstarted := r.started_before hfree hbefore hnamed
  have hsees := sees_run hfree.1 hbefore (sees_fresh rules) huncut
  obtain ⟨cs, hcs, hopening⟩ := Lexeme.exists_word_of_keyword r.hopening (by decide)
  have hinside : Inside (take (takeAll (fresh rules) r.before).1 r.opening).1 := by
    have hstep := hsees.wordStep hfree.1 hcs
    rw [← hopening, r.hopening] at hstep
    cases hstep with
    | suffix _ hw => exact absurd hw (by decide)
    | reopen _ hw => exact absurd hw (by decide)
    | count opens _ hopens hdepth hpending =>
      have hopen : opens = true := (hopens hstarted).trans (hsees.admits_iff.2 hopened)
      rw [if_pos (.inr ⟨rfl, hopen⟩)] at hdepth
      exact ⟨by rw [hdepth]; omega, hpending⟩
  have hrules : (take (takeAll (fresh rules) r.before).1 r.opening).1.rules = rules := by
    rw [rules_take, rules_takeAll]
    rfl
  obtain ⟨hitems, -⟩ := inside_run (fun l hl => hformed l (by simp [front, body, hl]))
    ((hs.takeAll r.before).take r.opening) (by rwa [hrules]) r.hitems hinside
  have hfree' : LineFree (takeAll (take (takeAll (fresh rules) r.before).1 r.opening).1 r.items).1.rules := by
    rwa [rules_takeAll, hrules]
  rw [front, body, takeAll_append, takeAll, takeAll_append, huncut, hitems,
    take_uncut (by rwa [rules_takeAll]) (Lexeme.ne_semicolon_of_keyword r.hopening (by decide)),
    takeAll_uncut hfree' r.semicolon_not_mem_end]
  rfl

theorem flat_before (hblocks : ∀ l ∈ r.head, l.keyword ≠ "BEGIN" ∧ l.keyword ≠ "CASE") :
    Flat (spokenWords r.head) (takeAll (fresh rules) r.before).1 := by
  have hs := settled_fresh rules
  obtain ⟨-, hrest⟩ := takeAll_cons_uncut (r.uncut_before hfree)
  have hcreate : Flat [] (take (fresh rules) r.create).1 := by
    obtain ⟨hbegun, -⟩ := Begun.word hs (⟨rfl, rfl, rfl⟩ : Begun [] _) (by decide) r.hcreate
      (by decide) (by decide)
    obtain ⟨cs, hcs, hword⟩ := Lexeme.exists_word_of_keyword r.hcreate (by decide)
    have hkeyword := r.hcreate
    rw [hword] at hkeyword hbegun ⊢
    refine ⟨hbegun.head, ?_, hbegun.pending⟩
    rw [take_word_of_decided hs rfl hcs, (spoken_eq_iff (by decide) cs).2 hkeyword]
    exact depth_countWord (s := wordOnLine (fresh rules) cs) hfree.1 "CREATE"
  have hrun := flat_run (fun l hl => hformed l (by simp [front, before, hl])) (hs.take r.create)
    (by rw [rules_take]; exact hfree.1) hblocks hcreate hrest
  exact hrun

/-- A `BEGIN` that the scanner takes for a name leaves it outside every block. -/
theorem flat_opening (hblocks : ∀ l ∈ r.head, l.keyword ≠ "BEGIN" ∧ l.keyword ≠ "CASE")
    (hnot : ¬ (r.Named ∧ r.Opened rules)) : ∃ ws,
      Flat ws (take (takeAll (fresh rules) r.before).1 r.opening).1 := by
  have hs := settled_fresh rules
  have hbefore : ∀ l ∈ r.before, l.Formed rules := fun l hl => hformed l (by simp [front, hl])
  have hflat := r.flat_before hfree hformed hblocks
  have hsees := sees_run hfree.1 hbefore (sees_fresh rules) (r.uncut_before hfree)
  have hsettled := hs.takeAll r.before
  have hslash : (takeAll (fresh rules) r.before).1.rules.slashLines = false := by
    rw [rules_takeAll]
    exact hfree.1
  obtain ⟨cs, hcs, hword⟩ := Lexeme.exists_word_of_keyword r.hopening (by decide)
  have hkeyword := r.hopening
  rw [hword] at hkeyword ⊢
  generalize takeAll (fresh rules) r.before = t at hflat hsees hsettled hslash
  obtain ⟨s, cut⟩ := t
  have hname : ((wordOnLine s cs).noteWord "BEGIN").opensBlock = false := by
    rw [Bool.eq_false_iff]
    intro hopens
    have hflat' : Flat (spokenWords r.head) (wordOnLine s cs) :=
      ⟨hflat.head, hflat.depth, hflat.pending⟩
    obtain ⟨hnamed, hadmits⟩ := hflat'.named_of_opensBlock hopens
    rw [namesRoutine_spokenWords] at hnamed
    exact hnot ⟨hnamed, hsees.admits_iff.1 hadmits⟩
  refine ⟨spokenWords r.head ++ ["BEGIN"], ?_⟩
  rw [take_word_of_decided hsettled hflat.pending hcs, (spoken_eq_iff (by decide) cs).2 hkeyword]
  refine ⟨?_, ?_, ?_⟩
  · rw [← take_concat_of_take, ← hflat.head]
    rfl
  · show ((wordOnLine s cs).countWord "BEGIN").depth = 0
    rw [depth_countWord (s := wordOnLine s cs) hslash, if_neg (by simp [hname])]
    exact hflat.depth
  · show ((wordOnLine s cs).countWord "BEGIN").pendingEnd = false
    rw [pendingEnd_countWord (s := wordOnLine s cs) hslash]
    have hpending : (wordOnLine s cs).pendingEnd = false := hflat.pending
    rw [hpending]
    rfl

end

/-! ### Splitting -/

theorem isBlank_of_keyword {l : Lexeme} {w : String} {d : Char} {more : List Char}
    (hl : l.keyword = w) (hw : w.toList = d :: more) (hd : isBlank d = false) :
    ∃ c cs, l.text = c :: cs ∧ isBlank c = false := by
  have hne : w ≠ "" := by
    rintro rfl
    exact absurd hw (by simp)
  obtain ⟨cs, -, rfl⟩ := Lexeme.exists_word_of_keyword hl hne
  have hupper : upper cs = d :: more := by rw [← hw, ← hl, Lexeme.keyword, String.toList_ofList]
  cases cs with
  | nil => exact absurd hupper (by simp [upper])
  | cons c cs =>
    refine ⟨c, cs, rfl, ?_⟩
    rw [Bool.eq_false_iff]
    intro hblank
    have hc : c.toUpper = d := (List.cons.inj hupper).1
    rw [toUpper_of_isBlank hblank] at hc
    rw [← hc, hblank] at hd
    exact absurd hd (by simp)

theorem exists_create (r : TriggerText) (ls : List Lexeme) :
    ∃ c cs, textOf (r.before ++ ls) = c :: cs ∧ isBlank c = false := by
  obtain ⟨c, cs, htext, hblank⟩ := isBlank_of_keyword r.hcreate (d := 'C') rfl (by decide)
  refine ⟨c, cs ++ textOf (r.head ++ ls), ?_, hblank⟩
  rw [before, List.cons_append, textOf_cons, htext, List.cons_append]

theorem exists_opening (r : TriggerText) :
    ∃ c cs, textOf r.body = c :: cs ∧ isBlank c = false := by
  obtain ⟨c, cs, htext, hblank⟩ := isBlank_of_keyword r.hopening (d := 'B') rfl (by decide)
  refine ⟨c, cs ++ textOf (r.items ++ r.closing :: r.trail), ?_, hblank⟩
  rw [body, textOf_cons, htext, List.cons_append]

/-- Scripts that start like the statement and end it at their only `;`. -/
theorem split_one (r : TriggerText) {ls : List Lexeme}
    (hscript : Script rules (r.before ++ ls ++ [.punct ';']))
    (huncut : (takeAll (fresh rules) (r.before ++ ls)).2 = false) :
    split rules (textOf (r.before ++ ls ++ [.punct ';'])) =
      .ok [⟨0, trimEnd (textOf (r.before ++ ls))⟩] := by
  obtain ⟨c, cs, htext, hblank⟩ := r.exists_create ls
  rw [split_of_uncut hscript huncut, textOf_concat, htext, ofPiece?_semicolon rules 0 hblank]
  rfl

/-- One piece of a trigger is the trigger with its whole body. -/
theorem parseScript_one (r : TriggerText) {d : Dialect}
    (hsplit : split d.rules (textOf (r.front ++ [.punct ';'])) =
      .ok [⟨0, trimEnd (textOf r.front)⟩]) {head : Trigger}
    (hhead : Grammar.triggerStart? d (trimEnd (textOf r.front)) =
      some (head, width (textOf r.before))) :
    parseScript d (textOf (r.front ++ [.punct ';'])) =
      .ok { triggers := [{ head with body := String.ofList (trimEnd (textOf r.body)) }] } := by
  obtain ⟨c, cs, htext, hblank⟩ := r.exists_create r.body
  obtain ⟨b, bs, hbody, hbblank⟩ := r.exists_opening
  have hnotEmpty : (trim (textOf (r.front ++ [.punct ';']))).isEmpty = false := by
    rw [isEmpty_trim_eq_false, textOf_concat]
    exact ⟨';', by simp, by decide⟩
  have hparts : trimEnd (textOf r.front) = textOf r.before ++ trimEnd (textOf r.body) := by
    rw [front, textOf_append, hbody, trimEnd_append_of_not_blank hbblank]
  have hrest : trim (dropBytes (width (textOf r.before)) (trimEnd (textOf r.front))) =
      trimEnd (textOf r.body) := by
    rw [hparts, dropBytes_width_append, trim, hbody, trimStart_trimEnd hbblank, trimEnd_trimEnd]
  have hne : trimEnd (textOf r.body) ≠ [] := by
    obtain ⟨more, hmore⟩ := exists_trimEnd hbblank bs
    rw [hbody, hmore]
    exact List.cons_ne_nil _ _
  have hstatement := Grammar.ofStatement_of_triggerStart? (s := ⟨0, trimEnd (textOf r.front)⟩) hhead
    (by rwa [hrest])
  rw [parseScript_of_ok hnotEmpty hsplit, Grammar.define_cons_of_ok hstatement, Grammar.define_nil, hrest]
  rfl

/-- Outside every block the first `;` of the body ends the statement. -/
theorem cut_at_first (r : TriggerText) (hfree : LineFree rules) (hformed : ∀ l ∈ r.front, l.Formed rules)
    (hblocks : ∀ l ∈ r.head, l.keyword ≠ "BEGIN" ∧ l.keyword ≠ "CASE")
    (hnot : ¬ (r.Named ∧ r.Opened rules)) {first more : List Lexeme}
    (hitems : r.items = first ++ .punct ';' :: more) (hfirst : .punct ';' ∉ first) :
    (takeAll (fresh rules) (r.before ++ r.opening :: first)).2 = false ∧
      (take (takeAll (fresh rules) (r.before ++ r.opening :: first)).1 (.punct ';')).2 = true := by
  have hs := settled_fresh rules
  obtain ⟨ws, hflat⟩ := r.flat_opening hfree hformed hblocks hnot
  have hnone : .punct ';' ∉ r.before ++ r.opening :: first := by
    intro hmem
    rcases List.mem_append.1 hmem with hmem | hmem
    · exact r.semicolon_not_mem_before hmem
    rcases List.mem_cons.1 hmem with heq | hmem
    · exact Lexeme.ne_semicolon_of_keyword r.hopening (by decide) heq.symm
    · exact hfirst hmem
  have huncut : (takeAll (fresh rules) (r.before ++ r.opening :: first)).2 = false :=
    takeAll_uncut hfree hnone
  refine ⟨huncut, ?_⟩
  have hparts : (takeAll (fresh rules) (r.before ++ r.opening :: first)).1 =
      (takeAll (take (takeAll (fresh rules) r.before).1 r.opening).1 first).1 := by
    rw [takeAll_append_fst, takeAll]
  obtain ⟨-, hrest⟩ := takeAll_append_uncut huncut
  obtain ⟨-, hlast⟩ := takeAll_cons_uncut hrest
  have hrules : (take (takeAll (fresh rules) r.before).1 r.opening).1.rules.slashLines = false := by
    rw [rules_take, rules_takeAll]
    exact hfree.1
  have hwords : ∀ l ∈ first, l.keyword ≠ "BEGIN" ∧ l.keyword ≠ "CASE" := by
    intro l hl
    have hl' := r.hitems l (by rw [hitems]; simp [hl])
    simp only [List.mem_cons, List.not_mem_nil, or_false, not_or] at hl'
    exact ⟨hl'.1, hl'.2.1⟩
  have hformed' : ∀ l ∈ first, l.Formed rules := fun l hl =>
    hformed l (by simp [front, body, hitems, hl])
  have hend := flat_run hformed' ((hs.takeAll r.before).take r.opening) hrules hwords hflat hlast
  have hall : ∀ l ∈ r.before ++ r.opening :: first, l.Formed rules := by
    intro l hl
    refine hformed l ?_
    rw [front, body, hitems]
    simp only [List.mem_append, List.mem_cons] at hl ⊢
    tauto
  have hsees := sees_run hfree.1 hall (sees_fresh rules) huncut
  refine (take_cut_iff hfree.1 hsees).2 (.inr ⟨rfl, ?_⟩)
  rw [hparts]
  simp [settleEnd, hend.depth, hend.pending]

/-- A trigger whose first words name it, and whose `BEGIN` stands where a block may start, is one
statement, and the grammar reads it with its whole body. Any other is cut behind the first `;` of its
body. -/
theorem split_trigger (r : TriggerText) {d : Dialect} (hfree : LineFree d.rules)
    (hscript : Script d.rules (r.front ++ [.punct ';'])) :
    (r.Named ∧ r.Opened d.rules →
      split d.rules (textOf (r.front ++ [.punct ';'])) = .ok [⟨0, trimEnd (textOf r.front)⟩] ∧
      ∀ head, Grammar.triggerStart? d (trimEnd (textOf r.front)) =
          some (head, width (textOf r.before)) →
        parseScript d (textOf (r.front ++ [.punct ';'])) =
          .ok { triggers := [{ head with body := String.ofList (trimEnd (textOf r.body)) }] }) ∧
    (¬ (r.Named ∧ r.Opened d.rules) →
      (∀ l ∈ r.head, l.keyword ≠ "BEGIN" ∧ l.keyword ≠ "CASE") →
      ∀ first more, r.items = first ++ .punct ';' :: more → .punct ';' ∉ first →
        split d.rules (textOf (r.front ++ [.punct ';'])) =
          (split d.rules (textOf (more ++ r.closing :: r.trail ++ [.punct ';']))).map fun new =>
            ⟨0, trimEnd (textOf (r.before ++ r.opening :: first))⟩ :: new.map
              (moved (width (textOf (r.before ++ r.opening :: first ++ [.punct ';']))))) := by
  have hformed : ∀ l ∈ r.front, l.Formed d.rules := fun l hl =>
    hscript.formed l (List.mem_append_left _ hl)
  constructor
  · rintro ⟨hnamed, hopened⟩
    have hsplit := r.split_one hscript (r.uncut_front hfree hformed hnamed hopened)
    exact ⟨hsplit, fun head hhead => r.parseScript_one hsplit hhead⟩
  · intro hnot hblocks first more hitems hfirst
    obtain ⟨huncut, hcut⟩ := r.cut_at_first hfree hformed hblocks hnot hitems hfirst
    have hparts : r.front ++ [.punct ';'] = (r.before ++ r.opening :: first ++ [.punct ';']) ++
        (more ++ r.closing :: r.trail ++ [.punct ';']) := by
      simp [front, body, hitems]
    have hscript' : Script d.rules (r.before ++ r.opening :: first ++ [.punct ';']) := by
      rw [hparts] at hscript
      exact hscript.left
    have hbegins : Begins d.rules (textOf (r.before ++ r.opening :: first ++ [.punct ';'])) := by
      have hends := (cutsAt_semicolon hscript').trans hcut
      rw [textOf_concat]
      exact .cut hends
    have hfound := (split_of_begins hbegins).symm.trans (r.split_one hscript' huncut)
    rw [hparts, textOf_append, split_append (.inl hfree) hbegins (.inl (joined_of_lineFree hfree _ _)),
      Except.ok.inj hfound]
    rfl

/-- `CREATE OR REPLACE TRIGGER t BEFORE INSERT ON a FOR EACH ROW BEGIN SET x = 1; SET y = 2; END`,
perhaps with `DEFINER = root@localhost` before `TRIGGER`. -/
def twoItems (definer : Bool) : TriggerText where
  create := .word "CREATE".toList
  head := spaced ["OR", "REPLACE"] ++
    (if definer then
      spaced ["DEFINER"] ++ [.blank ' ', .punct '='] ++ spaced ["root"] ++ [.punct '@'] ++
        [.word "localhost".toList]
    else []) ++
    spaced ["TRIGGER", "t", "BEFORE", "INSERT", "ON", "a", "FOR", "EACH", "ROW"] ++ [.blank ' ']
  opening := .word "BEGIN".toList
  items := spaced ["SET", "x"] ++ [.punct '='] ++ spaced ["1"] ++ .punct ';' ::
    (spaced ["SET", "y"] ++ [.punct '='] ++ spaced ["2"] ++ [.punct ';', .blank ' '])
  closing := .word "END".toList
  trail := []
  hcreate := Lexeme.keyword_create
  hhead := by cases definer <;> decide
  hopening := Lexeme.keyword_begin
  hitems := by decide
  hclosing := Lexeme.keyword_end
  htrail := gap_nil

/-- The trigger that `twoItems` defines. -/
def twoItemsTrigger : Trigger where
  name := "t"
  table := "a"
  timing := .before
  events := [.insert]
  forEachRow := true
  body := "BEGIN SET x= 1; SET y= 2; END"

theorem split_trigger_two_items :
    ((twoItems false).Named ∧ parseScript .mysql (textOf ((twoItems false).front ++ [.punct ';'])) =
      .ok { triggers := [twoItemsTrigger] }) ∧
    ¬ (twoItems true).Named ∧
      split Dialect.mysql.rules (textOf ((twoItems true).front ++ [.punct ';'])) ≠
        .ok [⟨0, trimEnd (textOf (twoItems true).front)⟩] := by
  have hfree : LineFree Dialect.mysql.rules := ⟨rfl, rfl⟩
  have hwhole := (twoItems false).split_trigger (d := .mysql) hfree (script_of_isScript (by decide))
  have hcut := (twoItems true).split_trigger (d := .mysql) hfree (script_of_isScript (by decide))
  have hnamed : (twoItems false).Named := rfl
  have hunnamed : ¬ (twoItems true).Named := by
    unfold Named
    decide
  have hopened : (twoItems false).Opened Dialect.mysql.rules := ⟨rfl, rfl⟩
  refine ⟨⟨hnamed, (hwhole.1 ⟨hnamed, hopened⟩).2 { twoItemsTrigger with body := "" } ?_⟩, hunnamed,
    fun hone => ?_⟩
  · decide +kernel
  · have hpieces := hcut.2 (fun h => hunnamed h.1) (by decide)
      (spaced ["SET", "x"] ++ [.punct '='] ++ spaced ["1"]) _ rfl (by decide)
    rw [hone] at hpieces
    cases hsplit : split Dialect.mysql.rules (textOf (spaced ["SET", "y"] ++ [.punct '='] ++ spaced ["2"] ++
        [.punct ';', .blank ' '] ++ (twoItems true).closing :: (twoItems true).trail ++ [.punct ';'])) with
    | error e =>
      rw [hsplit] at hpieces
      exact absurd hpieces (by simp [Except.map])
    | ok new =>
      rw [hsplit] at hpieces
      have hfirst := (List.cons.inj (Except.ok.inj hpieces)).1
      exact absurd (Statement.mk.inj hfirst).2 (by decide)

end TriggerText

end DdlBridge.Statement
