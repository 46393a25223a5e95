import DdlBridge.Proofs.Statement.Resume
import Mathlib.Data.List.TakeWhile

/-!
# Splitting a script in parts

The statements of a script are those of its parts, moved to where the parts start, as long as every
part starts where a statement does (`split_append`).
-/

namespace DdlBridge.Statement

open Scanner Text

/-- The same statement in a text that has `n` more bytes in front. -/
def moved (n : Nat) (s : Statement) : Statement := { s with offset := n + s.offset }

theorem ofPiece?_add (rules : LexicalRules) (n start : Nat) (raw : List Char) :
    ofPiece? rules (n + start) raw = (ofPiece? rules start raw).map (moved n) := by
  unfold ofPiece?
  dsimp only
  split
  · rfl
  · rw [Option.map_some, moved, Nat.add_assoc]

/-- The splitter behind a text. -/
def splitter (rules : LexicalRules) (cs : List Char) : Splitter :=
  cs.foldl Splitter.step { scanner := fresh rules }

variable {rules : LexicalRules} {done t : List Char} {c : Char}

theorem splitter_concat (rules : LexicalRules) (cs : List Char) (c : Char) :
    splitter rules (cs ++ [c]) = (splitter rules cs).step c := by
  simp only [splitter, List.foldl_append, List.foldl_cons, List.foldl_nil]

theorem scanner_step (p : Splitter) (c : Char) : (p.step c).scanner = (feedChar p.scanner c).1 := by
  unfold Splitter.step
  dsimp only
  split <;> rfl

theorem offset_step (p : Splitter) (c : Char) : (p.step c).offset = p.offset + c.utf8Size := by
  unfold Splitter.step
  dsimp only
  split <;> rfl

theorem scanner_splitter (rules : LexicalRules) (cs : List Char) :
    (splitter rules cs).scanner = after rules cs := by
  induction cs using List.reverseRecOn with
  | nil => rfl
  | append_singleton cs c ih => rw [splitter_concat, scanner_step, ih, after_concat]

theorem offset_splitter (rules : LexicalRules) (cs : List Char) :
    (splitter rules cs).offset = width cs := by
  induction cs using List.reverseRecOn with
  | nil => rfl
  | append_singleton cs c ih => rw [splitter_concat, offset_step, ih]; simp

/-- The statement that the piece in progress would be. -/
def Splitter.statement? (p : Splitter) (content : Bool) (raw : List Char) : Option Statement :=
  if content then ofPiece? p.scanner.rules p.start raw else none

theorem statement?_splitter (rules : LexicalRules) (cs : List Char) (content : Bool)
    (raw : List Char) : (splitter rules cs).statement? content raw =
      if content then ofPiece? rules (splitter rules cs).start raw else none := by
  rw [Splitter.statement?, scanner_splitter, rules_after]

theorem splitter_of_cut (hcut : cutsAt rules t c = true) :
    splitter rules (t ++ [c]) =
      { scanner := after rules (t ++ [c]), start := width (t ++ [c]), offset := width (t ++ [c]),
        piece := [],
        found := ((splitter rules t).statement? (after rules (t ++ [c])).lastContent
          (c :: (splitter rules t).piece).reverse).toList ++ (splitter rules t).found } := by
  have hrules : (feedChar (after rules t) c).1.rules = (after rules t).rules :=
    rules_feedChar (sound_after rules t) c
  rw [cutsAt] at hcut
  rw [splitter_concat, Splitter.step, scanner_splitter, after_concat, offset_splitter]
  dsimp only
  rw [if_pos hcut]
  simp only [Splitter.cut, Splitter.statement?, scanner_splitter, hrules, width_append, width_cons,
    width_nil, Nat.add_zero]

theorem splitter_of_not_cut (hcut : cutsAt rules t c = false) :
    splitter rules (t ++ [c]) =
      { splitter rules t with
        scanner := after rules (t ++ [c]), offset := width (t ++ [c]),
        piece := c :: (splitter rules t).piece } := by
  rw [cutsAt] at hcut
  rw [splitter_concat, Splitter.step, scanner_splitter, after_concat, offset_splitter]
  dsimp only
  rw [if_neg (by rw [hcut]; simp)]
  simp only [width_append, width_cons, width_nil, Nat.add_zero]

/-- Where a statement starts, no piece is in progress. -/
theorem splitter_begins (hbegin : Begins rules done) :
    (splitter rules done).piece = [] ∧ (splitter rules done).start = width done := by
  cases hbegin with
  | start => exact ⟨rfl, rfl⟩
  | cut hcut =>
    rw [splitter_of_cut hcut]
    exact ⟨rfl, rfl⟩

/-- The splitter that read on is at the piece of the one that started afresh. -/
structure Follows (rules : LexicalRules) (done t : List Char) : Prop where
  start : (splitter rules (done ++ t)).start = width done + (splitter rules t).start
  piece : (splitter rules (done ++ t)).piece = (splitter rules t).piece
  found : (splitter rules (done ++ t)).found =
    (splitter rules t).found.map (moved (width done)) ++ (splitter rules done).found

theorem Follows.statement? (h : Follows rules done t) (content : Bool) (raw : List Char) :
    (splitter rules (done ++ t)).statement? content raw =
      ((splitter rules t).statement? content raw).map (moved (width done)) := by
  simp only [Splitter.statement?, scanner_splitter, rules_after, h.start, ofPiece?_add]
  split <;> rfl

theorem Follows.of_joined (hrules : LineFree rules ∨ rules.backslashEscapes = false)
    (hbegin : Begins rules done) (hjoin : Joined rules done t) : Follows rules done t := by
  induction t using List.reverseRecOn with
  | nil =>
    obtain ⟨hpiece, hstart⟩ := splitter_begins hbegin
    refine ⟨?_, ?_, ?_⟩
    · rw [List.append_nil, hstart]
      rfl
    · rw [List.append_nil, hpiece]
      rfl
    · rw [List.append_nil]
      rfl
  | append_singleton t c ih =>
    have hfollows := ih hjoin.of_append
    obtain ⟨base, quoted, last, hfeed⟩ := feedChar_append hrules hbegin hjoin
    have hflag : cutsAt rules (done ++ t) c = cutsAt rules t c := by
      rw [cutsAt, cutsAt, hfeed]
      rfl
    have hassoc : done ++ (t ++ [c]) = done ++ t ++ [c] := (List.append_assoc ..).symm
    cases hcut : cutsAt rules t c with
    | false =>
      rw [hcut] at hflag
      refine ⟨?_, ?_, ?_⟩
      · rw [hassoc, splitter_of_not_cut hflag, splitter_of_not_cut hcut]
        exact hfollows.start
      · rw [hassoc, splitter_of_not_cut hflag, splitter_of_not_cut hcut]
        exact congrArg (c :: ·) hfollows.piece
      · rw [hassoc, splitter_of_not_cut hflag, splitter_of_not_cut hcut]
        exact hfollows.found
    | true =>
      rw [hcut] at hflag
      have hlast : (after rules (done ++ t ++ [c])).lastContent =
          (after rules (t ++ [c])).lastContent := by
        rw [after_concat, after_concat, hfeed]
        exact if_pos hcut
      refine ⟨?_, ?_, ?_⟩
      · rw [hassoc, splitter_of_cut hflag, splitter_of_cut hcut]
        simp only [width_append, Nat.add_assoc]
      · rw [hassoc, splitter_of_cut hflag, splitter_of_cut hcut]
      · rw [hassoc, splitter_of_cut hflag, splitter_of_cut hcut]
        simp only [hlast, hfollows.statement?, hfollows.piece, hfollows.found]
        rw [List.map_append, List.append_assoc, Option.toList_map]

/-! ### The end of the text -/

theorem split_eq (rules : LexicalRules) (cs : List Char) : split rules cs = do
    let scanner ← (splitter rules cs).scanner.finish
    return ({ splitter rules cs with scanner }.cut scanner.content).found.reverse := rfl

theorem split_of_unfinished {cs : List Char} {e : Error} (h : (after rules cs).unfinished? = some e) :
    split rules cs = .error e := by
  have hfinish : (splitter rules cs).scanner.finish = .error e := by
    rw [scanner_splitter, finish, h]
  rw [split_eq, hfinish]
  rfl

theorem split_of_finished {cs : List Char} (h : (after rules cs).unfinished? = none) :
    split rules cs = .ok ((splitter rules cs).found.reverse ++
      ((splitter rules cs).statement? (after rules cs).content
        (splitter rules cs).piece.reverse).toList) := by
  have hfinish : (splitter rules cs).scanner.finish = .ok (after rules cs).endWord := by
    rw [scanner_splitter, finish, h]
  rw [split_eq, hfinish]
  refine congrArg Except.ok ?_
  simp only [Splitter.cut, Splitter.statement?, content_endWord, rules_endWord, scanner_splitter,
    List.reverse_append]
  split
  · cases ofPiece? (after rules cs).rules (splitter rules cs).start
      (splitter rules cs).piece.reverse <;> rfl
  · rfl

theorem split_of_ok {cs : List Char} {statements : List Statement}
    (h : split rules cs = .ok statements) :
    statements = (splitter rules cs).found.reverse ++
      ((splitter rules cs).statement? (after rules cs).content
        (splitter rules cs).piece.reverse).toList := by
  cases hfinished : (after rules cs).unfinished? with
  | none =>
    rw [split_of_finished hfinished] at h
    exact (Except.ok.inj h).symm
  | some e =>
    rw [split_of_unfinished hfinished] at h
    exact absurd h (by simp)

/-- The statements are made of pieces of the text. -/
theorem exists_piece_of_mem_found {cs : List Char} {s : Statement}
    (h : s ∈ (splitter rules cs).found) : ∃ start raw, ofPiece? rules start raw = some s := by
  induction cs using List.reverseRecOn with
  | nil => exact absurd h List.not_mem_nil
  | append_singleton cs c ih =>
    cases hcut : cutsAt rules cs c with
    | false =>
      rw [splitter_of_not_cut hcut] at h
      exact ih h
    | true =>
      rw [splitter_of_cut hcut] at h
      rcases List.mem_append.1 h with h | h
      · rw [statement?_splitter, Option.mem_toList] at h
        exact ⟨_, _, (Option.mem_ite_none_right.1 h).2⟩
      · exact ih h

theorem exists_piece_of_mem_split {cs : List Char} {statements : List Statement}
    (h : split rules cs = .ok statements) {s : Statement} (hs : s ∈ statements) :
    ∃ start raw, ofPiece? rules start raw = some s := by
  rw [split_of_ok h] at hs
  rcases List.mem_append.1 hs with hs | hs
  · exact exists_piece_of_mem_found (List.mem_reverse.1 hs)
  · rw [statement?_splitter, Option.mem_toList] at hs
    exact ⟨_, _, (Option.mem_ite_none_right.1 hs).2⟩

/-- Only unfinished regions keep a text from being split. -/
theorem exists_of_split_eq_error {cs : List Char} {e : Error} (h : split rules cs = .error e) :
    ∃ text, e = .invalidInput text := by
  cases hunfinished : (after rules cs).unfinished? with
  | none =>
    rw [split_of_finished hunfinished] at h
    exact absurd h (by simp)
  | some e' =>
    rw [split_of_unfinished hunfinished] at h
    obtain rfl := Except.error.inj h
    unfold unfinished? at hunfinished
    cases hregion : (after rules cs).region with
    | quote | escape | blockComment | blockCommentStar | dollar =>
      rw [hregion] at hunfinished
      exact ⟨_, (Option.some.inj hunfinished).symm⟩
    | normal | lineComment | dash | slash | quoteEnd | dollarTag =>
      rw [hregion] at hunfinished
      exact absurd hunfinished (by simp)

/-- Where a statement starts, the text may end. -/
theorem finished_of_begins (hbegin : Begins rules done) :
    (after rules done).unfinished? = none ∧ (after rules done).content = false := by
  cases hbegin with
  | start => exact ⟨rfl, rfl⟩
  | cut hcut =>
    rw [after_concat]
    rcases feedChar_restarts (sound_after rules _) hcut with ⟨-, line, quoted, last, heq⟩ |
      ⟨-, -, last, heq⟩ <;> rw [heq] <;> exact ⟨rfl, rfl⟩

theorem split_of_begins (hbegin : Begins rules done) :
    split rules done = .ok (splitter rules done).found.reverse := by
  obtain ⟨hfinished, hcontent⟩ := finished_of_begins hbegin
  rw [split_of_finished hfinished, hcontent]
  simp only [Splitter.statement?, Bool.false_eq_true, if_false, Option.toList_none, List.append_nil]

theorem isBlank_of_mem_plainBlanks (h : c ∈ plainBlanks) : isBlank c = true := by
  simp only [plainBlanks, List.mem_cons, List.not_mem_nil, or_false] at h
  rcases h with rfl | rfl | rfl | rfl | rfl <;> decide

theorem trimEnd_append_blanks (cs : List Char) {w : List Char} (hw : ∀ c ∈ w, isBlank c = true) :
    trimEnd (cs ++ w) = trimEnd cs := by
  have hall : ∀ c ∈ w.reverse, isBlank c = true := fun c hc => hw c (List.mem_reverse.1 hc)
  simp only [trimEnd, List.reverse_append]
  rw [List.dropWhile_append_of_pos hall]

theorem isEmpty_trim_eq_false {cs : List Char} :
    (trim cs).isEmpty = false ↔ ∃ c ∈ cs, isBlank c = false := by
  have hnil : (trim cs).isEmpty = true ↔ ∀ c ∈ cs.dropWhile isBlank, isBlank c = true := by
    rw [List.isEmpty_iff, trim, trimEnd, List.reverse_eq_nil_iff, List.dropWhile_eq_nil_iff]
    simp only [List.mem_reverse, trimStart]
  rw [← Bool.not_eq_true, hnil]
  constructor
  · intro hnot
    simp only [Classical.not_forall, Bool.not_eq_true] at hnot
    obtain ⟨c, hc, hblank⟩ := hnot
    exact ⟨c, (List.dropWhile_sublist isBlank).subset hc, hblank⟩
  · rintro ⟨c, hc, hblank⟩ hall
    rw [← List.takeWhile_append_dropWhile (p := isBlank) (l := cs), List.mem_append] at hc
    rcases hc with hc | hc
    · have := List.mem_takeWhile_imp hc
      rw [hblank] at this
      exact absurd this (by simp)
    · rw [hall c hc] at hblank
      exact absurd hblank (by simp)

theorem ofPiece?_append_blanks (rules : LexicalRules) (start : Nat) (raw : List Char) {w : List Char}
    (hw : ∀ c ∈ w, isBlank c = true) : ofPiece? rules start (raw ++ w) = ofPiece? rules start raw := by
  have hstrip : stripTerminator rules (raw ++ w) = stripTerminator rules raw := by
    unfold stripTerminator
    rw [trimEnd_append_blanks raw hw]
  unfold ofPiece?
  rw [hstrip]

/-- White space behind a line end only makes the piece longer. -/
theorem splitter_append_blanks {cs w : List Char} (hquiet : Quiet (after rules cs))
    (hw : ∀ c ∈ w, c ∈ plainBlanks) :
    (splitter rules (cs ++ w)).start = (splitter rules cs).start ∧
      (splitter rules (cs ++ w)).piece = w.reverse ++ (splitter rules cs).piece ∧
      (splitter rules (cs ++ w)).found = (splitter rules cs).found := by
  induction w using List.reverseRecOn with
  | nil => simp
  | append_singleton w c ih =>
    have hprefix : ∀ d ∈ w, d ∈ plainBlanks := fun d hd => hw d (List.mem_append_left _ hd)
    obtain ⟨hstart, hpiece, hfound⟩ := ih hprefix
    have hcut : cutsAt rules (cs ++ w) c = false := by
      rw [cutsAt, hquiet.after_append hprefix, hquiet.feedChar (hw c (by simp))]
    rw [← List.append_assoc, splitter_of_not_cut hcut]
    refine ⟨hstart, ?_, hfound⟩
    simp [hpiece]

/-- So it adds nothing to what is found. -/
theorem split_append_blanks {cs w : List Char} (hquiet : Quiet (after rules cs))
    (hw : ∀ c ∈ w, c ∈ plainBlanks) : split rules (cs ++ w) = split rules cs := by
  have hblank : ∀ c ∈ w, isBlank c = true := fun c hc => isBlank_of_mem_plainBlanks (hw c hc)
  have hread : after rules (cs ++ w) = after rules cs := hquiet.after_append hw
  have hfinished : (after rules cs).unfinished? = none := by rw [unfinished?, hquiet.region]
  obtain ⟨hstart, hpiece, hfound⟩ := splitter_append_blanks hquiet hw
  rw [split_of_finished (hread.symm ▸ hfinished), split_of_finished hfinished, hread, hfound,
    statement?_splitter, statement?_splitter, hstart, hpiece, List.reverse_append,
    List.reverse_reverse, ofPiece?_append_blanks rules _ _ hblank]

theorem quiet_of_cut {v : List Char} (hcut : cutsAt rules v '\n' = true) :
    Quiet (after rules (v ++ ['\n'])) := by
  rw [after_concat]
  rcases feedChar_restarts (sound_after rules v) hcut with ⟨h, -⟩ | ⟨-, -, last, heq⟩
  · exact absurd h (by decide)
  · rw [heq]
    exact quiet_onLine_fresh _ last

/-- The statement that a hidden line end did not cut off is the one that it cuts off in a text that
starts behind the `;`. -/
theorem split_append_of_stale (hrules : LineFree rules ∨ rules.backslashEscapes = false)
    (hbegin : Begins rules done) (hstale : Stale rules done t) :
    split rules (done ++ t) = (split rules t).map fun new =>
      (splitter rules done).found.reverse ++ new.map (moved (width done)) := by
  obtain ⟨u, v, w, rfl, rfl, hv, hline, hw⟩ := hstale
  have hfollows := Follows.of_joined hrules hbegin (joined_of_not_mem hv)
  obtain ⟨s, hfeed, hquiet, hcontent⟩ := feedChar_hidden hrules hbegin hv hline
  have hafter : after rules (u ++ [';'] ++ v ++ ['\n']) = s := by rw [after_concat, hfeed]
  have hnot : cutsAt rules (u ++ [';'] ++ v) '\n' = false := by rw [cutsAt, hfeed]
  have hfinished : s.unfinished? = none := by rw [unfinished?, hquiet.region]
  have hlast : (after rules (v ++ ['\n'])).lastContent = s.content := by
    rw [hcontent, after_concat]
  have hstatement : (splitter rules (u ++ [';'] ++ v ++ ['\n'])).statement? s.content
      (splitter rules (u ++ [';'] ++ v ++ ['\n'])).piece.reverse =
      ((splitter rules v).statement? s.content ('\n' :: (splitter rules v).piece).reverse).map
        (moved (width (u ++ [';']))) := by
    rw [statement?_splitter, splitter_of_not_cut hnot, ← hfollows.statement?, statement?_splitter,
      hfollows.piece]
  have hfound : (splitter rules (u ++ [';'] ++ v ++ ['\n'])).found =
      (splitter rules (u ++ [';'] ++ v)).found := by
    rw [splitter_of_not_cut hnot]
  -- what follows either line end is white space at the start of a line
  have hparts : u ++ [';'] ++ (v ++ '\n' :: w) = u ++ [';'] ++ v ++ ['\n'] ++ w := by simp
  rw [hparts, split_append_blanks (hafter.symm ▸ hquiet) hw, List.append_cons v,
    split_append_blanks (quiet_of_cut hline) hw, split_of_begins (.cut hline),
    split_of_finished (hafter.symm ▸ hfinished), hafter, hstatement, hfound, hfollows.found,
    splitter_of_cut hline, hlast]
  refine congrArg Except.ok ?_
  simp only [List.reverse_append, List.map_append, List.append_assoc, List.map_reverse]
  rw [Option.toList_map]
  cases (splitter rules v).statement? s.content ('\n' :: (splitter rules v).piece).reverse <;> rfl

theorem split_append (hrules : LineFree rules ∨ rules.backslashEscapes = false)
    (hbegin : Begins rules done) (hagrees : Agrees rules done t) :
    split rules (done ++ t) = (split rules t).map fun new =>
      (splitter rules done).found.reverse ++ new.map (moved (width done)) := by
  rcases hagrees with hjoin | hstale
  case inr => exact split_append_of_stale hrules hbegin hstale
  have hfollows := Follows.of_joined hrules hbegin hjoin
  obtain ⟨base, quoted, last, hover, -⟩ := after_append hrules hbegin hjoin
  have hcontent : (after rules (done ++ t)).content = (after rules t).content := by
    rw [hover]
    rfl
  have hunfinished : (after rules (done ++ t)).unfinished? = (after rules t).unfinished? := by
    rw [hover]
    rfl
  cases h : (after rules t).unfinished? with
  | some e =>
    rw [split_of_unfinished h, split_of_unfinished (hunfinished.trans h)]
    rfl
  | none =>
    rw [split_of_finished h, split_of_finished (hunfinished.trans h), hcontent,
      hfollows.statement?, hfollows.piece, hfollows.found]
    refine congrArg Except.ok ?_
    dsimp only
    rw [List.reverse_append, List.map_append, List.append_assoc, List.map_reverse,
      Option.toList_map]

end DdlBridge.Statement
