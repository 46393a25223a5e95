import DdlBridge.Proofs.Grammar.Declaration

/-!
# Types read back

The declaration of a column is one statement, and its type is read as the column that the type makes
(`parseScript_of_type`). The text in the parentheses of the type may be any that stands there as it
does alone (`TypeText.Legible`).
-/

namespace DdlBridge

open Text Atom Statement Scanner Grammar DdlBridge.Parser

variable {d : Dialect} {rules : LexicalRules} {as : List Atom} {nullable : Bool}

/-! ### Atoms of one line -/

theorem not_breaks_of_continuesWord {c : Char} (h : Lexer.continuesWord c = true) :
    c ≠ ';' ∧ c ≠ '\n' := by
  constructor
  all_goals
    rintro rfl
    exact absurd h (by decide)

theorem inline_wordText {w : String} (h : isWordText w = true) : Inline w.toList := fun c hc =>
  not_breaks_of_continuesWord (continuesWord_of_isWord h c hc)

theorem inline_nextWords {ws : List String} (h : ∀ w ∈ ws, isWordText w = true) :
    Inline (textOf (nextWords ws)) := by
  intro c hc
  rw [textOf_nextWords] at hc
  obtain ⟨w, hw, hc⟩ := List.mem_flatMap.1 hc
  rcases List.mem_cons.1 hc with rfl | hc
  · decide
  · exact inline_wordText (h w hw) c hc

theorem inline_brackets (n : Nat) : Inline (textOf (brackets n)) := by
  induction n with
  | zero => exact fun c hc => absurd hc List.not_mem_nil
  | succ n ih =>
    have hpair : Inline ['[', ']'] := by decide
    exact hpair.append ih

theorem inline_numbers (ns : List UInt32) : Inline (textOf (numbers ns)) := by
  intro c hc
  obtain ⟨a, ha, hc⟩ := List.mem_flatMap.1 hc
  rcases mem_numbers ha with rfl | ⟨n, rfl⟩
  · rw [List.mem_singleton.1 hc]
    decide
  · rw [text_ofNat_eq] at hc
    have hdigit := (digits_spec n hc).1
    constructor
    all_goals
      rintro rfl
      exact absurd hdigit (by decide)

theorem apart_left {bs : List Atom} (h : Apart rules (as ++ bs)) : Apart rules as := by
  induction as with
  | nil => exact .nil
  | cons a as ih =>
    cases h with
    | cons ha hnext hrest =>
      refine .cons ha (fun c hc => hnext c ?_) (ih hrest)
      show c ∈ (textOf (as ++ bs)).head?
      rw [Atom.textOf_append, List.head?_append, Option.mem_def.1 hc]
      rfl

theorem inline_parameters (ns : List UInt32) : Inline (textOf (Atom.parameters ns)) := by
  unfold Atom.parameters
  split
  case isTrue => exact fun c hc => absurd hc List.not_mem_nil
  case isFalse =>
    have hopen : Inline ['('] := by decide
    have hclose : Inline [')'] := by decide
    rw [Atom.textOf_cons, Atom.textOf_append]
    exact hopen.append ((inline_numbers ns).append hclose)

/-- Behind atoms nothing is open. -/
theorem closed_of_apart (h : Apart rules as) : (after rules (textOf as)).unfinished? = none := by
  have hs := settled_fresh rules
  have hregion : (settle (after rules (textOf as))).region = .normal := by
    rw [after_eq_feedText, ← textOf_lexemesOf, (feedText_fresh h.script).1]
    exact (hs.takeAll _).region
  rw [unfinished?]
  unfold settle at hregion
  cases hr : (after rules (textOf as)).region with
  | quote | escape | blockComment | blockCommentStar | dollar =>
    rw [hr] at hregion
    exact absurd (hr.symm.trans hregion) (by simp)
  | normal | lineComment | dash | slash | quoteEnd | dollarTag => rfl

/-! ### What stands behind a type -/

theorem formed_bracket {c : Char} (hc : c ∈ ['[', ']']) (h : rules.bracketQuotes = false) :
    (punct c).Formed rules := by
  have hall : ∀ c ∈ ['[', ']'], opensWord c = false ∧ c ∉ plainBlanks ∧ isBlank c = false ∧
      c ∉ ['\x27', '\x22', '\x60', '#', '$'] := by decide
  obtain ⟨hword, hplain, hblank, hquote⟩ := hall c hc
  simp only [List.mem_cons, List.not_mem_nil, or_false, not_or] at hquote
  obtain ⟨hsingle, hdouble, hback, hhash, hdollar⟩ := hquote
  refine .punct ?_ hblank fun _ => hdollar
  simp [Lexeme.isPunct, opensQuote, hword, hplain, hsingle, hdouble, hback, hhash, h]

theorem apart_brackets {n : Nat} (hn : n ≠ 0 → rules.bracketQuotes = false) (h : Apart rules as) :
    Apart rules (brackets n ++ as) := by
  have hends : ∀ c ∈ ['[', ']'], ∀ e, (punct c).endsAt e = true := by
    have hall : ∀ c ∈ ['[', ']'], (c == '-') = false ∧ (c == '/') = false := by decide
    intro c hc e
    obtain ⟨hdash, hslash⟩ := hall c hc
    simp [endsAt, hdash, hslash]
  induction n with
  | zero => exact h
  | succ n ih =>
    have hrules := hn (Nat.succ_ne_zero n)
    refine .cons (formed_bracket (by decide) hrules) (fun e _ => hends _ (by decide) e) ?_
    exact .cons (formed_bracket (by decide) hrules) (fun e _ => hends _ (by decide) e)
      (ih fun _ => hrules)

theorem TypeText.Formed.wordText {t : TypeText} (h : t.Formed) :
    ∀ w ∈ t.zone ++ t.marks, isWordText w = true := by
  have hzone : ∀ zone ∈ timeZones, ∀ w ∈ zone, isWordText w = true := by decide
  intro w hw
  rcases List.mem_append.1 hw with hw | hw
  · exact hzone _ (h.zone.resolve_left fun hnil => by simp [hnil] at hw) w hw
  · exact (h.marks w hw).1

theorem TypeText.Formed.apart_suffix {t : TypeText} (h : t.Formed)
    (hbrackets : t.arrays ≠ 0 → rules.bracketQuotes = false) (has : Apart rules as) (hled : Led as) :
    Apart rules (t.suffix ++ as) := by
  rw [t.suffix_eq, List.append_assoc]
  refine Apart.nextWords h.wordText (apart_brackets hbrackets has) fun c hc => ?_
  cases harrays : t.arrays with
  | zero =>
    rw [harrays] at hc
    exact List.mem_cons_of_mem _ (hled c hc)
  | succ n =>
    rw [harrays] at hc
    obtain rfl := Option.some.inj hc
    decide

theorem apart_declarationTail (rules : LexicalRules) (nullable : Bool) :
    Apart rules (declarationTail nullable) := by
  have hclose : Apart rules [punct ')'] := Apart.nil.mark (by decide)
  have hnotNull : Row rules (spell ["NOT", "NULL"]) := row_spell (by decide +kernel)
  cases nullable with
  | true => exact hclose
  | false => exact (hnotNull.blank.apart.append hclose (led_mark (by decide) _))

theorem led_declarationTail (nullable : Bool) : Led (declarationTail nullable) := by
  cases nullable with
  | true => exact led_mark (by decide) _
  | false => exact led_blank _

theorem endsType_declarationTail (nullable : Bool) : Follows EndsType (declarationTail nullable) := by
  cases nullable with
  | true => exact follows_punct (fun _ => .inl rfl) _
  | false => exact ColumnClause.endsType .notNull [punct ')']

theorem inline_declarationTail (nullable : Bool) : Inline (textOf (declarationTail nullable)) := by
  cases nullable with
  | true | false => decide +kernel

theorem plain_of_not_mem {c : Char} (h : c ∉ Scanner.marks ++ ['[', ']']) : Plain rules c := by
  simp only [List.mem_append, List.mem_cons, List.not_mem_nil, or_false, not_or] at h
  exact ⟨h.1, fun _ => h.2⟩

theorem plain_declarationTail (nullable : Bool) :
    ∀ c ∈ textOf (declarationTail nullable), Plain rules c := by
  have hall : ∀ c ∈ textOf (declarationTail nullable), c ∉ Scanner.marks ++ ['[', ']'] := by
    cases nullable with
    | true | false => decide +kernel
  exact fun c hc => plain_of_not_mem (hall c hc)

/-- No quote starts or ends in a suffix. -/
theorem TypeText.Formed.plain_suffix {t : TypeText} (h : t.Formed)
    (hbrackets : t.arrays ≠ 0 → rules.bracketQuotes = false) :
    ∀ c ∈ textOf t.suffix, Plain rules c := by
  have hzone : ∀ zone ∈ timeZones, ∀ w ∈ zone, ∀ c ∈ w.toList, c ∉ Scanner.marks ++ ['[', ']'] := by
    decide
  have hsign : ∀ w ∈ signWords, ∀ c ∈ Scanner.marks ++ ['[', ']'], c.toUpper ∉ w.toList := by decide
  have hword : ∀ w ∈ t.zone ++ t.marks, ∀ c ∈ w.toList, Plain rules c := by
    intro w hw c hc
    refine plain_of_not_mem ?_
    rcases List.mem_append.1 hw with hw | hw
    · exact hzone _ (h.zone.resolve_left fun hnil => by simp [hnil] at hw) w hw c hc
    · have hupper : c.toUpper ∈ (upperWord w).toList := by
        rw [upperWord, String.toList_ofList]
        exact List.mem_map_of_mem hc
      exact fun hmem => hsign _ (h.marks w hw).2 c hmem hupper
  intro c hc
  rw [t.suffix_eq, Atom.textOf_append, textOf_nextWords] at hc
  rcases List.mem_append.1 hc with hc | hc
  · obtain ⟨w, hw, hc⟩ := List.mem_flatMap.1 hc
    rcases List.mem_cons.1 hc with rfl | hc
    · exact plain_of_not_mem (by decide)
    · exact hword w hw c hc
  · cases harrays : t.arrays with
    | zero =>
      rw [harrays] at hc
      exact absurd hc List.not_mem_nil
    | succ n =>
      have hrules := hbrackets (by rw [harrays]; exact Nat.succ_ne_zero n)
      have hmem : ∀ n, ∀ c ∈ textOf (brackets n), c ∉ Scanner.marks := by
        intro n
        induction n with
        | zero => exact fun c hc => absurd hc List.not_mem_nil
        | succ n ih =>
          refine List.forall_mem_cons.2 ⟨by decide, List.forall_mem_cons.2 ⟨by decide, ih⟩⟩
      exact ⟨hmem _ c hc, fun hon => absurd (hrules.symm.trans hon) (by simp)⟩

theorem TypeText.Formed.inline_front {t : TypeText} (h : t.Formed) : Inline (textOf t.front) := by
  have hwords := List.forall_mem_cons.1 h.words
  rw [TypeText.front, Atom.textOf_cons]
  exact (inline_wordText hwords.1).append (inline_nextWords hwords.2)

theorem TypeText.Formed.inline_suffix {t : TypeText} (h : t.Formed) : Inline (textOf t.suffix) := by
  rw [t.suffix_eq, Atom.textOf_append]
  exact (inline_nextWords h.wordText).append (inline_brackets _)

/-! ### Legible types -/

/-- In the declaration, the text in parentheses stands as it does alone. -/
structure TypeText.Legible (d : Dialect) (nullable : Bool) (t : TypeText) : Prop where
  closes : ∀ p ∈ t.parameters, Closes d.rules p (textOf (t.suffix ++ declarationTail nullable))
  unbroken : ∀ p ∈ t.parameters,
    Unbroken d.rules (textOf (declarationHead ++ (t.front ++ [punct '(']))) p
  /-- No brackets where they are quotes. -/
  brackets : t.arrays ≠ 0 → d.rules.bracketQuotes = false

theorem TypeText.Formed.ends {t : TypeText} (h : t.Formed) (hlegible : t.Legible d nullable) :
    TypeEnds d.rules t (declarationTail nullable) where
  apart := h.apart_suffix hlegible.brackets (apart_declarationTail _ nullable)
    (led_declarationTail nullable)
  led := led_declarationTail nullable
  leaves := (endsType_declarationTail nullable).imp fun _ ht => ht.leavesType
  paren _ := by
    rw [t.suffix_eq]
    exact follows_marks (fun _ _ _ => rfl) (fun _ => rfl)
      ((endsType_declarationTail nullable).imp fun _ ht => ht.isPunct (by decide))
  closes := hlegible.closes

/-! ### The declaration as a statement -/

theorem trimEnd_declarationText (type : List Char) (nullable : Bool) :
    trimEnd (declarationText type nullable) = declarationText type nullable := by
  have hparts : declarationText type nullable = textOf declarationHead ++
      (type ++ textOf (Atom.clauses (if nullable then [] else [.notNull]))) ++ [')'] := by
    rw [declarationText, declarationTail, Atom.textOf_append, List.append_assoc, List.append_assoc]
    rfl
  rw [hparts, trimEnd_concat (by decide)]

/-- A declaration made of atoms is one statement. -/
theorem split_of_apart (happart : Apart d.rules (declarationHead ++ (as ++ declarationTail nullable)))
    (hinline : Inline (textOf as)) : split d.rules (declarationText (textOf as) nullable ++ [';']) =
      .ok [⟨0, declarationText (textOf as) nullable⟩] := by
  obtain ⟨cs, hcs⟩ : ∃ cs, declarationText (textOf as) nullable = 'C' :: cs := ⟨_, rfl⟩
  have htrim := trimEnd_declarationText (textOf as) nullable
  have hcontent : (after d.rules ['C']).content = true := rfl
  have hline : Inline (declarationText (textOf as) nullable) := by
    have hhead : Inline (textOf declarationHead) := by decide +kernel
    exact hhead.append (hinline.append (inline_declarationTail nullable))
  have houtside : (after d.rules (declarationText (textOf as) nullable)).Outside := by
    have hparts : declarationText (textOf as) nullable = textOf (declarationHead ++
        (as ++ Atom.clauses (if nullable then [] else [.notNull]))) ++ [')'] := by
      simp only [declarationText, declarationTail, Atom.textOf_append, List.append_assoc]
      rfl
    rw [declarationTail, ← List.append_assoc, ← List.append_assoc] at happart
    have hclosed := closed_of_apart (apart_left happart)
    rw [List.append_assoc] at hclosed
    rw [hparts]
    exact outside_of_unfinished hclosed (by decide) (plain_of_not_mem (by decide)) (by decide)
  rw [hcs] at hline houtside htrim ⊢
  rw [split_of_outside (by decide) hcontent hline.cutFree houtside, htrim]

/-- A declaration with any unbroken text in parentheses is one statement. -/
theorem split_of_parenthesized {head p back : List Char}
    (hunbroken : Unbroken d.rules (textOf declarationHead ++ (head ++ ['('])) p)
    (hplain : ∀ c ∈ back, Plain d.rules c) (hinline : Inline back) :
    split d.rules (declarationText (head ++ '(' :: (p ++ ')' :: back)) nullable ++ [';']) =
      .ok [⟨0, declarationText (head ++ '(' :: (p ++ ')' :: back)) nullable⟩] := by
  obtain ⟨lead, hlead⟩ : ∃ lead, textOf declarationHead ++ (head ++ ['(']) = 'C' :: lead := ⟨_, rfl⟩
  have hparts : declarationText (head ++ '(' :: (p ++ ')' :: back)) nullable =
      'C' :: lead ++ p ++ ')' :: (back ++ textOf (declarationTail nullable)) := by
    rw [← hlead]
    simp [declarationText]
  have hcontent : (after d.rules ['C']).content = true := rfl
  rw [hlead] at hunbroken
  have hsplit := split_of_unbroken (by decide) hcontent hunbroken
    (List.forall_mem_append.2 ⟨hplain, plain_declarationTail nullable⟩)
    (hinline.append (inline_declarationTail nullable))
  rwa [← List.cons_append, ← List.cons_append, ← hparts, trimEnd_declarationText] at hsplit

/-- The declaration of a type is one statement. -/
theorem split_declarationText {t : TypeText} (h : t.Formed) (hlegible : t.Legible d nullable) :
    split d.rules (declarationText t.text nullable ++ [';']) =
      .ok [⟨0, declarationText t.text nullable⟩] := by
  cases hp : t.parameters with
  | none =>
    have hends := h.ends hlegible
    have happart := apart_declarationHead (h.apart_front hends.apart (t.head_suffix hends.led))
    have htext : t.text = textOf (t.front ++ t.suffix) := by
      simp [TypeText.text, hp, Atom.textOf_append]
    rw [← List.append_assoc t.front] at happart
    rw [htext]
    refine split_of_apart happart ?_
    rw [Atom.textOf_append]
    exact h.inline_front.append h.inline_suffix
  | some p =>
    have htext : t.text = textOf t.front ++ '(' :: (p ++ ')' :: textOf t.suffix) := by
      simp [TypeText.text, hp]
    have hunbroken := hlegible.unbroken p hp
    rw [Atom.textOf_append, Atom.textOf_append] at hunbroken
    rw [htext]
    exact split_of_parenthesized hunbroken (h.plain_suffix hlegible.brackets) h.inline_suffix

/-! ### The schema of the declaration -/

theorem not_isEmpty_declarationText (type : List Char) (nullable : Bool) :
    (trim (declarationText type nullable ++ [';'])).isEmpty = false :=
  isEmpty_trim_eq_false.2 ⟨'C', List.mem_cons_self, by decide⟩

/-- A table `t` with the column alone. -/
def Column.alone (c : Column) : Schema := { tables := [{ name := "t", columns := [c] }] }

theorem nullable_withParameters (c : Column) (text : List Char) :
    (withParameters c text).nullable = c.nullable := by
  unfold withParameters
  dsimp only
  split
  all_goals rfl

theorem TypeText.nullable_column (t : TypeText) (name : String) : (t.column name).nullable = true := by
  show (t.sized name).nullable = true
  unfold TypeText.sized
  split
  case h_1 => rfl
  case h_2 => exact nullable_withParameters _ _

/-- The declaration of a type defines the column that the type makes. -/
theorem parseScript_of_type {t : TypeText} (h : t.Formed)
    (hserial : (t.column "x").dataType ∉ serialTypes) (hlegible : t.Legible d nullable) :
    parseScript d (declarationText t.text nullable ++ [';']) =
      .ok ({ t.column "x" with nullable } : Column).alone := by
  have hread := columnType_of_text h hserial (h.ends hlegible) (textOf declarationHead)
  rw [← width_append] at hread
  have hnullable := t.nullable_column "x"
  have hstatement := ofStatement_of_columnType hread 0
  rw [parseScript_of_ok (not_isEmpty_declarationText _ _) (split_declarationText h hlegible),
    define_cons_of_ok hstatement, hnullable, Bool.true_and]
  rfl

/-- What holds of words and brackets holds of the first token of a suffix. -/
theorem TypeText.follows_suffix (t : TypeText) {P : Token → Prop} (hword : ∀ cs n, P ⟨.word, cs, n⟩)
    (hbracket : ∀ n, P ⟨.punct, ['['], n⟩) (hsuffix : t.suffix ≠ []) : Follows P (t.suffix ++ as) := by
  rw [t.suffix_eq] at hsuffix ⊢
  generalize t.zone ++ t.marks = ws at hsuffix ⊢
  generalize t.arrays = n at hsuffix ⊢
  cases ws with
  | cons w ws => exact Follows.blank (follows_word (hword _) _) ' '
  | nil =>
    cases n with
    | zero => exact absurd rfl hsuffix
    | succ n => exact follows_punct hbracket _

/-- Parameters behind a suffix are not read. -/
theorem exists_error_of_suffix {t : TypeText} (h : t.Formed) (hp : t.parameters = none)
    (hserial : (t.column "x").dataType ∉ serialTypes) (hsuffix : t.suffix ≠ [])
    (hbrackets : t.arrays ≠ 0 → d.rules.bracketQuotes = false) {ns : List UInt32} (hne : ns ≠ []) :
    ∃ e, parseScript d (declarationText (t.text ++ textOf (Atom.parameters ns)) false ++ [';']) =
      .error e := by
  have hled : Led (Atom.parameters ns ++ declarationTail false) :=
    (led_parameters ns).append (led_declarationTail false)
  have hatoms : Atom.parameters ns ++ declarationTail false =
      punct '(' :: (numbers ns ++ punct ')' :: declarationTail false) := by
    rw [Atom.parameters, if_neg (by simpa using hne)]
    simp
  have hends : TypeEnds d.rules t (Atom.parameters ns ++ declarationTail false) := by
    refine ⟨h.apart_suffix hbrackets ?_ hled, hled, ?_, fun _ => ?_, fun p hmem => ?_⟩
    · exact (row_parameters ns).apart.append (apart_declarationTail _ false) (led_declarationTail false)
    · rw [hatoms]
      exact follows_punct (fun _ => ⟨(by decide : "" ∉ typeWords), (by decide : "" ∉ suffixWords), rfl⟩) _
    · exact t.follows_suffix (fun _ _ => rfl) (fun _ => rfl) hsuffix
    · rw [hp] at hmem
      exact absurd hmem (by simp)
  -- the type is read up to its suffix, and the numbers are left to the rest of the table
  have hread := columnType_of_text h hserial hends (textOf declarationHead)
  have htext : t.text ++ textOf (Atom.parameters ns) =
      textOf (t.front ++ (t.suffix ++ Atom.parameters ns)) := by
    simp [TypeText.text, hp, Atom.textOf_append]
  have happart := apart_declarationHead (h.apart_front hends.apart (t.head_suffix hled))
  have hsplit : split d.rules (declarationText (t.text ++ textOf (Atom.parameters ns)) false ++ [';']) =
      .ok [⟨0, declarationText (t.text ++ textOf (Atom.parameters ns)) false⟩] := by
    rw [← List.append_assoc t.suffix, ← List.append_assoc t.front] at happart
    rw [htext]
    refine split_of_apart happart ?_
    rw [Atom.textOf_append, Atom.textOf_append]
    exact h.inline_front.append (h.inline_suffix.append (inline_parameters ns))
  rw [Atom.textOf_append, ← List.append_assoc t.text] at hread
  obtain ⟨e, he⟩ := exists_ofStatement_error hne hread 0
  refine ⟨e, ?_⟩
  rw [parseScript_of_ok (not_isEmpty_declarationText _ _) hsplit, define_cons_of_error he]

/-! ### Parameters made of atoms -/

theorem moved_zero (t : Token) : t.moved 0 = t := by
  rw [Token.moved, Nat.zero_add]

theorem formed_of_apart (h : Apart rules as) : ∀ a ∈ as, a.Formed rules := by
  induction h with
  | nil => exact fun _ h => absurd h List.not_mem_nil
  | cons ha _ _ ih => exact List.forall_mem_cons.2 ⟨ha, ih⟩

theorem closes_of_balanced {inner : List Atom} (happart : Apart rules inner) (hbalanced : Balanced inner)
    (rest : List Char) : Closes rules (textOf inner) rest := by
  have hends : ∀ a ∈ inner.getLast?, ∀ c ∈ (')' :: rest).head?, a.endsAt c = true := by
    intro a ha c hc
    obtain rfl := Option.some.inj hc
    exact (formed_of_apart happart a (List.mem_of_getLast? ha)).endsAt (by decide)
  obtain ⟨front, hfront, hclosing⟩ := exists_of_closing? (closing?_place 0 hbalanced [])
  have hplace : place 0 inner ++ [⟨.punct, [')'], 0 + width (textOf inner)⟩] =
      front ++ [⟨.punct, [')'], 0 + width (textOf inner)⟩] :=
    (place_append 0 inner [punct ')']).symm.trans hfront
  obtain rfl := List.append_cancel_right hplace
  have hmap : (place 0 inner).map (Token.moved 0) = place 0 inner :=
    (List.map_congr_left fun t _ => moved_zero t).trans (List.map_id _)
  have hfound := hclosing 0 (Lexer.tokensFrom rules (0 + width (textOf inner) + 1) rest)
  rw [hmap, moved_zero] at hfound
  rw [← tokensFrom_close, ← happart.tokensFrom_append hends] at hfound
  exact ⟨_, hfound, Nat.zero_add (width (textOf inner))⟩

/-- Any atoms of one line may stand in the parentheses of a type. -/
theorem TypeText.legible_of_atoms {t : TypeText} (h : t.Formed)
    (hbrackets : t.arrays ≠ 0 → d.rules.bracketQuotes = false) (hparameters : ∀ p ∈ t.parameters,
      ∃ inner : List Atom, p = Atom.textOf inner ∧ Apart d.rules inner ∧ Balanced inner ∧
        Inline (Atom.textOf inner)) :
    t.Legible d nullable where
  closes p hp := by
    obtain ⟨inner, rfl, happart, hbalanced, -⟩ := hparameters p hp
    exact closes_of_balanced happart hbalanced _
  unbroken p hp := by
    obtain ⟨inner, rfl, happart, -, hinline⟩ := hparameters p hp
    have hopen : Apart d.rules (punct '(' :: inner) := happart.mark (by decide)
    have hall := apart_declarationHead (h.apart_front hopen fun c hc => by
      obtain rfl := Option.some.inj hc
      decide)
    have hatoms : textOf (declarationHead ++ (t.front ++ [punct '('])) ++ textOf inner =
        textOf (declarationHead ++ (t.front ++ (punct '(' :: inner))) := by
      simp only [Atom.textOf_append, Atom.textOf_cons, List.append_assoc]
      rfl
    have hline : Inline (textOf (declarationHead ++ (t.front ++ (punct '(' :: inner)))) := by
      have hhead : Inline (textOf declarationHead) := by decide +kernel
      have hparen : Inline ['('] := by decide
      rw [Atom.textOf_append, Atom.textOf_append, Atom.textOf_cons]
      exact hhead.append (h.inline_front.append (hparen.append hinline))
    refine ⟨?_, ?_⟩
    · rw [hatoms]
      exact hline.cutFree
    · rw [hatoms]
      exact closed_of_apart hall
  brackets := hbrackets

theorem TypeText.legible_of_none {t : TypeText} (h : t.Formed) (hp : t.parameters = none)
    (hbrackets : t.arrays ≠ 0 → d.rules.bracketQuotes = false) : t.Legible d nullable :=
  legible_of_atoms h hbrackets fun p hmem => by
    rw [hp] at hmem
    exact absurd hmem (Option.not_mem_none p)

theorem TypeText.legible_of_numbers {t : TypeText} (h : t.Formed)
    (hbrackets : t.arrays ≠ 0 → d.rules.bracketQuotes = false)
    (hparameters : ∀ p ∈ t.parameters, ∃ ns, p = Atom.textOf (numbers ns)) : t.Legible d nullable := by
  refine legible_of_atoms h hbrackets fun p hp => ?_
  obtain ⟨ns, rfl⟩ := hparameters p hp
  exact ⟨_, rfl, (row_numbers ns).apart, balanced_numbers ns, inline_numbers ns⟩

end DdlBridge
