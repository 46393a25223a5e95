import DdlBridge.Token.Lexer

/-!
# Segments

Tokenizing drops white space and comments. A text cut into segments keeps them: nothing is lost
(`flatMap_text_segmentsFrom`), and the tokens are the segments that are no trivia
(`tokensFrom_eq_filterMap`).
-/

namespace DdlBridge.Lexer

open Text

inductive SegmentKind where
  | blank
  | comment
  | token (kind : TokenKind)
  deriving DecidableEq, Repr

/-- A part of a text and the byte it starts at. -/
structure Segment where
  kind : SegmentKind
  text : List Char
  offset : Nat
  deriving DecidableEq, Repr

namespace Segment

/-- The offset behind the segment. -/
def stop (s : Segment) : Nat := s.offset + width s.text

def token? (s : Segment) : Option Token :=
  match s.kind with
  | .token kind => some ⟨kind, s.text, s.offset⟩
  | _ => none

end Segment

/-- The first segment of `c :: cs`: a blank, a comment or a token. -/
def takeSegment (rules : LexicalRules) (c : Char) (cs : List Char) :
    SegmentKind × List Char × List Char :=
  if isBlank c then (.blank, [c], cs)
  else match takeComment? rules.hashComments (c :: cs) with
    | some (text, rest) => (.comment, text, rest)
    | none => (.token (takeToken rules c cs).1, (takeToken rules c cs).2)

theorem takeSegment_append (rules : LexicalRules) (c : Char) (cs : List Char) :
    (takeSegment rules c cs).2.1 ≠ [] ∧
      (takeSegment rules c cs).2.1 ++ (takeSegment rules c cs).2.2 = c :: cs := by
  unfold takeSegment
  split
  · simp
  · split
    case h_1 text rest h => exact splits_takeComment? _ _ _ _ h
    case h_2 => exact takeToken_append rules c cs

theorem length_takeSegment_lt (rules : LexicalRules) (c : Char) (cs : List Char) :
    (takeSegment rules c cs).2.2.length < cs.length + 1 := by
  obtain ⟨hne, happ⟩ := takeSegment_append rules c cs
  have hlength := congrArg List.length happ
  have hpos := List.length_pos_iff.2 hne
  simp only [List.length_append, List.length_cons] at hlength
  omega

/-- The segments of a text that starts at byte `offset`. -/
def segmentsFrom (rules : LexicalRules) (offset : Nat) : List Char → List Segment
  | [] => []
  | c :: cs =>
    have := length_takeSegment_lt rules c cs
    ⟨(takeSegment rules c cs).1, (takeSegment rules c cs).2.1, offset⟩ ::
      segmentsFrom rules (offset + width (takeSegment rules c cs).2.1) (takeSegment rules c cs).2.2
termination_by cs => cs.length

theorem flatMap_text_segmentsFrom (rules : LexicalRules) (offset : Nat) (cs : List Char) :
    (segmentsFrom rules offset cs).flatMap Segment.text = cs := by
  fun_induction segmentsFrom rules offset cs with
  | case1 => rfl
  | case2 offset c cs _ ih => rw [List.flatMap_cons, ih, (takeSegment_append rules c cs).2]

/-! ### Trivia -/

theorem takeTrivia_eq (hash : Bool) (cs : List Char) : takeTrivia hash cs =
    match takeComment? hash (cs.dropWhile isBlank) with
    | some (comment, rest) =>
      (cs.takeWhile isBlank ++ comment ++ (takeTrivia hash rest).1, (takeTrivia hash rest).2)
    | none => (cs.takeWhile isBlank, cs.dropWhile isBlank) := by
  rw [takeTrivia]
  split
  case h_1 h => simp only [h]
  case h_2 h => simp only [h]

theorem takeTrivia_nil (hash : Bool) : takeTrivia hash [] = ([], []) := by
  rw [takeTrivia_eq]
  rfl

theorem takeTrivia_blank (hash : Bool) {c : Char} (hc : isBlank c = true) (cs : List Char) :
    takeTrivia hash (c :: cs) = (c :: (takeTrivia hash cs).1, (takeTrivia hash cs).2) := by
  rw [takeTrivia_eq, takeTrivia_eq hash cs, List.dropWhile_cons_of_pos hc,
    List.takeWhile_cons_of_pos hc]
  cases takeComment? hash (cs.dropWhile isBlank) with
  | none => rfl
  | some taken => rfl

theorem takeTrivia_of_not_blank (hash : Bool) {c : Char} (hc : isBlank c = false) (cs : List Char) :
    takeTrivia hash (c :: cs) = match takeComment? hash (c :: cs) with
      | some (comment, rest) => (comment ++ (takeTrivia hash rest).1, (takeTrivia hash rest).2)
      | none => ([], c :: cs) := by
  have hnot : ¬ isBlank c = true := by rw [hc]; simp
  rw [takeTrivia_eq, List.dropWhile_cons_of_neg hnot, List.takeWhile_cons_of_neg hnot]
  rfl

/-! ### Tokens -/

theorem tokensFrom_eq (rules : LexicalRules) (offset : Nat) (cs : List Char) :
    tokensFrom rules offset cs = match (takeTrivia rules.hashComments cs).2 with
      | [] => []
      | c :: rest =>
        ⟨(takeToken rules c rest).1, (takeToken rules c rest).2.1,
          offset + width (takeTrivia rules.hashComments cs).1⟩ ::
          tokensFrom rules
            (offset + width (takeTrivia rules.hashComments cs).1 +
              width (takeToken rules c rest).2.1)
            (takeToken rules c rest).2.2 := by
  rw [tokensFrom]
  split
  case h_1 h => simp only [h]
  case h_2 h => simp only [h]

theorem tokensFrom_nil (rules : LexicalRules) (offset : Nat) : tokensFrom rules offset [] = [] := by
  rw [tokensFrom_eq, takeTrivia_nil]

/-- Trivia in front of a text only moves its tokens. -/
theorem tokensFrom_append {rules : LexicalRules} {front cs : List Char}
    (h : takeTrivia rules.hashComments (front ++ cs) =
      (front ++ (takeTrivia rules.hashComments cs).1, (takeTrivia rules.hashComments cs).2))
    (offset : Nat) :
    tokensFrom rules offset (front ++ cs) = tokensFrom rules (offset + width front) cs := by
  rw [tokensFrom_eq, h, tokensFrom_eq rules (offset + width front) cs]
  simp only [width_append, Nat.add_assoc]

theorem tokensFrom_blank (rules : LexicalRules) (offset : Nat) {c : Char} (hc : isBlank c = true)
    (cs : List Char) :
    tokensFrom rules offset (c :: cs) = tokensFrom rules (offset + width [c]) cs := by
  change tokensFrom rules offset ([c] ++ cs) = _
  exact tokensFrom_append (takeTrivia_blank _ hc cs) offset

theorem tokensFrom_comment {rules : LexicalRules} {c : Char} {cs comment rest : List Char}
    (hc : isBlank c = false)
    (h : takeComment? rules.hashComments (c :: cs) = some (comment, rest)) (offset : Nat) :
    tokensFrom rules offset (c :: cs) = tokensFrom rules (offset + width comment) rest := by
  have hsplit : comment ++ rest = c :: cs := (splits_takeComment? _ _ _ _ h).2
  rw [← hsplit]
  refine tokensFrom_append ?_ offset
  rw [hsplit, takeTrivia_of_not_blank _ hc, h]

theorem tokensFrom_token {rules : LexicalRules} {c : Char} {cs : List Char} (hc : isBlank c = false)
    (h : takeComment? rules.hashComments (c :: cs) = none) (offset : Nat) :
    tokensFrom rules offset (c :: cs) =
      ⟨(takeToken rules c cs).1, (takeToken rules c cs).2.1, offset⟩ ::
        tokensFrom rules (offset + width (takeToken rules c cs).2.1) (takeToken rules c cs).2.2 := by
  rw [tokensFrom_eq, takeTrivia_of_not_blank _ hc, h]
  rfl

/-- What the first segment of a text is to its tokens. -/
theorem tokensFrom_cons (rules : LexicalRules) (offset : Nat) (c : Char) (cs : List Char) :
    tokensFrom rules offset (c :: cs) =
      (Segment.token? ⟨(takeSegment rules c cs).1, (takeSegment rules c cs).2.1, offset⟩).toList ++
        tokensFrom rules (offset + width (takeSegment rules c cs).2.1)
          (takeSegment rules c cs).2.2 := by
  unfold takeSegment
  split
  case isTrue hc => exact tokensFrom_blank rules offset hc cs
  case isFalse hc =>
    have hblank : isBlank c = false := by simpa using hc
    split
    case h_1 comment rest h => exact tokensFrom_comment hblank h offset
    case h_2 h => exact tokensFrom_token hblank h offset

theorem tokensFrom_eq_filterMap (rules : LexicalRules) (offset : Nat) (cs : List Char) :
    tokensFrom rules offset cs = (segmentsFrom rules offset cs).filterMap Segment.token? := by
  fun_induction segmentsFrom rules offset cs with
  | case1 => exact tokensFrom_nil rules _
  | case2 offset c cs _ ih =>
    rw [tokensFrom_cons, ih, List.filterMap_cons]
    cases Segment.token? ⟨(takeSegment rules c cs).1, (takeSegment rules c cs).2.1, offset⟩ with
    | none => rfl
    | some t => rfl

/-- A token is taken where no white space and no comment starts. -/
theorem exists_of_mem_tokensFrom {rules : LexicalRules} {n : Nat} {cs : List Char} {t : Token}
    (h : t ∈ tokensFrom rules n cs) : ∃ front c more rest, cs = front ++ c :: more ∧
      t.offset = n + width front ∧ isBlank c = false ∧
      takeComment? rules.hashComments (c :: more) = none ∧
      takeToken rules c more = (t.kind, t.text, rest) := by
  induction hlength : cs.length using Nat.strongRecOn generalizing n cs with
  | ind length ih =>
    cases cs with
    | nil =>
      rw [tokensFrom_nil] at h
      exact absurd h List.not_mem_nil
    | cons c cs =>
      have hlt : (takeSegment rules c cs).2.2.length < length :=
        hlength ▸ length_takeSegment_lt rules c cs
      rw [tokensFrom_cons] at h
      rcases List.mem_append.1 h with h | h
      · unfold takeSegment at h
        split at h
        · exact absurd h (by simp [Segment.token?])
        case isFalse hblank =>
          split at h
          · exact absurd h (by simp [Segment.token?])
          case h_2 hcomment =>
            obtain rfl := Option.some.inj (Option.mem_toList.1 h)
            exact ⟨[], c, cs, _, rfl, rfl, by simpa using hblank, hcomment, rfl⟩
      · obtain ⟨front, e, more, rest, hparts, hoffset, hstart⟩ := ih _ hlt h rfl
        have hsegment := (takeSegment_append rules c cs).2
        refine ⟨(takeSegment rules c cs).2.1 ++ front, e, more, rest, ?_, ?_, hstart⟩
        · rw [List.append_assoc, ← hparts, hsegment]
        · rw [hoffset, width_append, Nat.add_assoc]

end Lexer

/-- The comments between the tokens of a text. -/
def comments (dialect : Dialect) (text : List Char) : List Lexer.Segment :=
  (Lexer.segmentsFrom dialect.rules 0 text).filter (·.kind = .comment)

end DdlBridge
