import DdlBridge.Proofs.Ddl.Row
import DdlBridge.Proofs.Ddl.Writing
import DdlBridge.Proofs.Token.Junction
import DdlBridge.Proofs.Token.LetterCase

/-!
# Type texts

A column type is written as words, a text in parentheses and suffixes (`TypeText`). It is read as the
column that these make, whatever the text in parentheses holds (`columnType_of_text`).
-/

namespace DdlBridge

open Text Atom DdlBridge.Parser DdlBridge.Grammar

variable {d : Dialect} {more : List Atom}

/-! ### Words in any case -/

/-- The keyword that a word is. -/
def upperWord (w : String) : String := String.ofList (upper w.toList)

/-- Whether the characters are those of one word. -/
def isWord : List Char → Bool
  | [] => false
  | c :: cs => Lexer.startsWord c && cs.all Lexer.continuesWord

def isWordText (w : String) : Bool := isWord w.toList

/-- Words with a blank before each. -/
def Atom.nextWords (ws : List String) : List Atom := ws.flatMap fun w => [blank ' ', word w.toList]

theorem isWord_cases {w : List Char} (h : isWord w = true) : ∃ c cs, w = c :: cs ∧
    Lexer.startsWord c = true ∧ ∀ b ∈ cs, Lexer.continuesWord b = true := by
  cases w with
  | nil => exact absurd h (by simp [isWord])
  | cons c cs =>
    rw [isWord, Bool.and_eq_true, List.all_eq_true] at h
    exact ⟨c, cs, rfl, h⟩

theorem continuesWord_of_isWord {w : List Char} (h : isWord w = true) :
    ∀ c ∈ w, Lexer.continuesWord c = true := by
  obtain ⟨c, cs, rfl, hfirst, hrest⟩ := isWord_cases h
  exact List.forall_mem_cons.2 ⟨continuesWord_of_startsWord hfirst, hrest⟩

theorem isWord_lower (w : List Char) : isWord (lower w) = isWord w := by
  cases w with
  | nil => rfl
  | cons c cs =>
    have hrest : Lexer.continuesWord ∘ Char.toLower = Lexer.continuesWord :=
      funext Lexer.continuesWord_toLower
    rw [lower_cons, isWord, isWord, Lexer.startsWord_toLower, lower, List.all_map, hrest]

theorem isWord_upper (w : List Char) : isWord (upper w) = isWord w := by
  rw [← isWord_lower, lower_upper, isWord_lower]

theorem formed_wordText (rules : LexicalRules) {w : String} (h : isWordText w = true) :
    (word w.toList).Formed rules := by
  obtain ⟨c, cs, hw, hfirst, hrest⟩ := isWord_cases h
  rw [hw]
  exact .word hfirst hrest

theorem textOf_nextWords (ws : List String) :
    textOf (nextWords ws) = ws.flatMap fun w => ' ' :: w.toList := by
  rw [nextWords, textOf_flatMap]
  refine congrArg ws.flatMap (funext fun w => ?_)
  rw [textOf_cons, textOf_singleton]
  rfl

theorem toList_joinWords (w : String) (ws : List String) :
    (joinWith " " (w :: ws)).toList = textOf (word w.toList :: nextWords ws) := by
  rw [toList_joinWith, textOf_cons, textOf_nextWords]
  rfl

theorem upper_textOf_nextWords (ws : List String) :
    upper (textOf (nextWords ws)) = textOf (nextWords (ws.map upperWord)) := by
  rw [textOf_nextWords, textOf_nextWords, upper, List.map_flatMap, List.flatMap_map]
  refine congrArg ws.flatMap (funext fun w => ?_)
  rw [upperWord, String.toList_ofList]
  rfl

theorem Atom.Apart.nextWords {rules : LexicalRules} {ws : List String} {as : List Atom}
    (hws : ∀ w ∈ ws, isWordText w = true) (h : Apart rules as)
    (hnext : ∀ c ∈ (textOf as).head?, c ∈ '[' :: delimiters) : Apart rules (nextWords ws ++ as) := by
  have hends : ∀ (w : String) (c : Char), c ∈ '[' :: delimiters → (word w.toList).endsAt c = true := by
    have hall : ∀ c ∈ '[' :: delimiters, (!Statement.extendsWord c) = true := by decide
    exact fun _ c hc => hall c hc
  induction ws with
  | nil => exact h
  | cons w ws ih =>
    rw [List.forall_mem_cons] at hws
    refine .blank (by decide) (.cons (formed_wordText rules hws.1) (fun c hc => ?_) (ih hws.2))
    refine hends w c ?_
    cases ws with
    | nil => exact hnext c hc
    | cons v ws =>
      obtain rfl := Option.some.inj hc
      decide

theorem reads_eatAny_word {w : String} {ws : List String} (hmem : upperWord w ∈ ws)
    (more : List Atom) : Reads d (eatAny ws) [word w.toList] (some (upperWord w)) more := by
  intro front
  have hkeyword : (⟨.word, w.toList, width front⟩ : Token).keyword = upperWord w := rfl
  have hplace : place (width front) ([word w.toList] ++ more) =
      ⟨.word, w.toList, width front⟩ :: place (width front + width w.toList) more := rfl
  rw [hplace, eatAny, if_pos (hkeyword ▸ hmem), hkeyword, textOf_singleton]
  rfl

/-! ### Suffixes -/

/-- The column with more text behind its type. -/
def Column.suffixed (c : Column) (text : List Char) : Column :=
  { c with dataType := c.dataType ++ String.ofList text }

theorem Column.suffixed_nil (c : Column) : c.suffixed [] = c := by
  rw [Column.suffixed, String.ofList_nil, String.append_empty]

theorem Column.suffixed_suffixed (c : Column) (text text' : List Char) :
    (c.suffixed text).suffixed text' = c.suffixed (text ++ text') := by
  simp only [Column.suffixed, String.ofList_append, String.append_assoc]

def timeZones : List (List String) :=
  [["WITH", "TIME", "ZONE"], ["WITH", "LOCAL", "TIME", "ZONE"], ["WITHOUT", "TIME", "ZONE"],
   ["WITHOUT", "LOCAL", "TIME", "ZONE"]]

def signWords : List String := ["UNSIGNED", "ZEROFILL"]

/-- As many pairs of brackets. -/
def Atom.brackets : Nat → List Atom
  | 0 => []
  | n + 1 => punct '[' :: punct ']' :: brackets n

/-- What `timeZone` reads behind its first word. -/
def zoneRest (c : Column) (w : String) : Parser Column := do
  let zone := if ← eatWord "LOCAL" then w ++ " LOCAL" else w
  expectWords ["TIME", "ZONE"]
  let dataType := c.dataType ++ " " ++ zone ++ " TIME ZONE"
  return { c with dataType, length := none }

theorem reads_zoneRest (c : Column) (w : String) (more : List Atom) :
    Reads d (zoneRest c w) (nextWords ["TIME", "ZONE"])
      { c with dataType := c.dataType ++ " " ++ w ++ " TIME ZONE", length := none } more :=
  Reads.blank ' ' <| Reads.bind_nil (r := spell ["TIME", "ZONE"])
    (reads_eatWords_none (follows_word (fun _ => rfl) _)) <|
  Reads.bind_pure (reads_expectWords _ more) (Reads.pure _ more)

theorem reads_zoneRest_local (c : Column) (w : String) (more : List Atom) :
    Reads d (zoneRest c w) (nextWords ["LOCAL", "TIME", "ZONE"])
      { c with dataType := c.dataType ++ " " ++ (w ++ " LOCAL") ++ " TIME ZONE", length := none } more :=
  Reads.blank ' ' <| Reads.bind (l := spell ["LOCAL"]) (r := blank ' ' :: spell ["TIME", "ZONE"])
    (reads_eatWords _ _) <|
  Reads.blank ' ' <| Reads.bind_pure (reads_expectWords _ more) (Reads.pure _ more)

theorem reads_timeZone {zone : List String} (hzone : zone ∈ timeZones) {c : Column}
    (htime : ['T', 'I', 'M', 'E'].isPrefixOf c.dataType.toList = true) (more : List Atom) :
    Reads d (timeZone c) (nextWords zone)
      { c.suffixed (upper (textOf (nextWords zone))) with length := none } more := by
  have hread : ∀ w, (w = "WITH" ∨ w = "WITHOUT") → upperWord w = w → ∀ ws dataType,
      c.dataType ++ String.ofList (upper (textOf (nextWords (w :: ws)))) = dataType →
      Reads d (zoneRest c w) (nextWords ws) { c with dataType, length := none } more →
      Reads d (timeZone c) (nextWords (w :: ws))
        { c.suffixed (upper (textOf (nextWords (w :: ws)))) with length := none } more := by
    intro w hw hupper ws dataType htext hrest
    have hatoms : nextWords (w :: ws) = blank ' ' :: ([word w.toList] ++ nextWords ws) := rfl
    rw [Column.suffixed, htext, hatoms]
    refine Reads.blank ' ' (Reads.peekKeyword fun n => ?_)
    have hnext : ((place n ([word w.toList] ++ nextWords ws ++ more)).head?.map (·.keyword)).getD "" = w :=
      hupper
    dsimp only
    rw [hnext, if_pos ⟨hw, htime⟩]
    exact Reads.bind (reads_advance_word _ _) hrest
  have happend : ∀ text text', c.dataType ++ text ++ text' = c.dataType ++ (text ++ text') :=
    fun _ _ => String.append_assoc
  simp only [timeZones, List.mem_cons, List.not_mem_nil, or_false] at hzone
  rcases hzone with rfl | rfl | rfl | rfl
  · exact hread _ (.inl rfl) (by decide) _ _ (by rw [happend, happend]; rfl) (reads_zoneRest c _ more)
  · refine hread _ (.inl rfl) (by decide) _ _ ?_ (reads_zoneRest_local c _ more)
    rw [happend, happend]
    rfl
  · exact hread _ (.inr rfl) (by decide) _ _ (by rw [happend, happend]; rfl) (reads_zoneRest c _ more)
  · refine hread _ (.inr rfl) (by decide) _ _ ?_ (reads_zoneRest_local c _ more)
    rw [happend, happend]
    rfl

theorem upper_textOf_nextWords_cons (w : String) (ws : List String) :
    upper (textOf (nextWords (w :: ws))) =
      ' ' :: (upperWord w).toList ++ upper (textOf (nextWords ws)) := by
  rw [upper_textOf_nextWords, upper_textOf_nextWords, List.map_cons, textOf_nextWords, textOf_nextWords,
    List.flatMap_cons]

theorem reads_signedness {w : String} (hw : upperWord w ∈ signWords) (c : Column) (more : List Atom) :
    Reads d (signedness c) (nextWords [w]) (some (c.suffixed (' ' :: (upperWord w).toList))) more := by
  have hmem : upperWord w ∈ ["UNSIGNED", "SIGNED", "ZEROFILL"] := by
    simp only [signWords, List.mem_cons, List.not_mem_nil, or_false] at hw ⊢
    exact hw.imp_right .inr
  have htext : ∀ text : String, c.dataType ++ " " ++ text =
      c.dataType ++ String.ofList (' ' :: text.toList) := by
    intro text
    rw [String.append_assoc, ← String.toList_inj]
    simp
  refine Reads.blank ' ' (Reads.bind_pure (reads_eatAny_word hmem more) ?_)
  simp only [signWords, List.mem_cons, List.not_mem_nil, or_false] at hw
  rw [Column.suffixed, ← htext]
  rcases hw with hw | hw <;> rw [hw] <;> exact Reads.pure _ more

theorem reads_signs {marks : List String} (hmarks : ∀ w ∈ marks, upperWord w ∈ signWords) (c : Column)
    (h : Follows (·.keyword ∉ ["UNSIGNED", "SIGNED", "ZEROFILL"]) more) :
    Reads d (many signedness c) (nextWords marks) (c.suffixed (upper (textOf (nextWords marks)))) more := by
  induction marks generalizing c with
  | nil =>
    have hnil : c.suffixed (upper (textOf (nextWords []))) = c := c.suffixed_nil
    rw [hnil]
    exact Reads.many_nil (reads_signedness_none c h)
  | cons w ws ih =>
    rw [List.forall_mem_cons] at hmarks
    rw [upper_textOf_nextWords_cons, ← Column.suffixed_suffixed]
    exact Reads.many_cons (reads_signedness hmarks.1 c _) (List.cons_ne_nil _ _) (ih hmarks.2 _)

theorem reads_arrayBrackets (c : Column) (more : List Atom) :
    Reads d (arrayBrackets c) (brackets 1) (some (c.suffixed ['[', ']'])) more := by
  refine Reads.bind (l := [punct '[']) (r := [punct ']']) (reads_eatPunct '[' _) ?_
  refine Reads.peek fun n => ?_
  have hnumber : (place n ([punct ']'] ++ more)).head?.any (·.kind == .number) = false := rfl
  dsimp only
  rw [hnumber]
  exact Reads.bind_pure (reads_expectPunct ']' more) (Reads.pure _ more)

theorem reads_brackets (n : Nat) (c : Column) (h : Follows (·.isPunct '[' = false) more) :
    Reads d (many arrayBrackets c) (brackets n) (c.suffixed (textOf (brackets n))) more := by
  induction n generalizing c with
  | zero =>
    have hnil : c.suffixed (textOf (brackets 0)) = c := c.suffixed_nil
    rw [hnil]
    exact Reads.many_nil (reads_arrayBrackets_none c h)
  | succ n ih =>
    have htext : textOf (brackets (n + 1)) = ['[', ']'] ++ textOf (brackets n) := rfl
    rw [htext, ← Column.suffixed_suffixed]
    have hpair : Reads d (arrayBrackets c) (brackets 1) (some (c.suffixed ['[', ']']))
        (brackets n ++ more) := reads_arrayBrackets c _
    exact Reads.many_cons hpair (List.cons_ne_nil _ _) (ih _)

theorem upper_textOf_brackets (n : Nat) : upper (textOf (brackets n)) = textOf (brackets n) := by
  induction n with
  | zero => rfl
  | succ n ih => exact congrArg (fun cs => '[' :: ']' :: cs) ih

/-! ### Types -/

/-- A column type as DDL has it. -/
structure TypeText where
  /-- The words in front, in any case. -/
  first : String
  more : List String := []
  /-- The text in parentheses. -/
  parameters : Option (List Char) := none
  zone : List String := []
  marks : List String := []
  arrays : Nat := 0

namespace TypeText

/-- The name of the type. -/
def words (t : TypeText) : String := joinWith " " (upperWord t.first :: t.more.map upperWord)

def front (t : TypeText) : List Atom := word t.first.toList :: nextWords t.more

def suffix (t : TypeText) : List Atom := nextWords t.zone ++ (nextWords t.marks ++ brackets t.arrays)

def text (t : TypeText) : List Char :=
  textOf t.front ++ (t.parameters.map fun p => '(' :: (p ++ [')'])).getD [] ++ textOf t.suffix

/-- The column behind the parameters. -/
def sized (t : TypeText) (name : String) : Column :=
  match t.parameters with
  | none => { name, dataType := t.words }
  | some p => withParameters { name, dataType := t.words } (trim p)

/-- The column that the type is read as. -/
def column (t : TypeText) (name : String) : Column :=
  { (t.sized name).suffixed (upper (textOf t.suffix)) with
    length := if t.zone = [] then (t.sized name).length else none }

structure Formed (t : TypeText) : Prop where
  words : ∀ w ∈ t.first :: t.more, isWordText w = true
  chain : (upperWord t.first :: t.more.map upperWord).IsChain (continuesType · · = true)
  not_interval : upperWord t.first ≠ "INTERVAL"
  zone : t.zone = [] ∨ t.zone ∈ timeZones
  time : t.zone ≠ [] → "TIME".toList <+: t.words.toList
  marks : ∀ w ∈ t.marks, isWordText w = true ∧ upperWord w ∈ signWords

end TypeText

/-! ### Words -/

/-- What the words of a type do not go on with. -/
def typeWords : List String := ["PRECISION", "VARYING", "CHARACTER", "CHAR", "RAW", "VARCHAR"]

/-- The keyword that comes next; empty at the end and in front of any other token. -/
def nextKeyword (ts : List Token) : String := (ts.head?.map (·.keyword)).getD ""

theorem typeWord_eq (words : List String) (src : Source) (ts : List Token) :
    typeWord words src ts = if continuesType (words.getLast?.getD "") (nextKeyword ts) then
      .ok (some (words ++ [nextKeyword ts]), ts.tail) else .ok (none, ts) := by
  have hdecides : typeWord words src ts = (if continuesType (words.getLast?.getD "") (nextKeyword ts)
      then (advance >>= fun _ => pure (some (words ++ [nextKeyword ts])))
      else pure none : Parser _) src ts := rfl
  rw [hdecides]
  split
  all_goals rfl

theorem many_typeWord {src : Source} {words next : List String} {n : Nat} {rest : List Token}
    (hchain : (words.getLast?.getD "" :: next.map upperWord).IsChain (continuesType · · = true))
    (hrest : nextKeyword rest ∉ typeWords) : many typeWord words src (place n (nextWords next) ++ rest) =
      .ok (words ++ next.map upperWord, rest) := by
  induction next generalizing words n with
  | nil =>
    have hstep : typeWord words src rest = .ok (none, rest) := by
      rw [typeWord_eq, continuesType_eq_false _ hrest, if_neg (by simp)]
    rw [List.map_nil, List.append_nil]
    exact many_of_none hstep
  | cons w next ih =>
    have hplace : place n (nextWords (w :: next)) ++ rest =
        ⟨.word, w.toList, n + 1⟩ :: (place (n + 1 + width w.toList) (nextWords next) ++ rest) := rfl
    rw [List.map_cons, List.isChain_cons_cons] at hchain
    have hstep : typeWord words src (place n (nextWords (w :: next)) ++ rest) =
        .ok (some (words ++ [upperWord w]), place (n + 1 + width w.toList) (nextWords next) ++ rest) := by
      have hnext : nextKeyword (place n (nextWords (w :: next)) ++ rest) = upperWord w := rfl
      rw [typeWord_eq, hnext, if_pos hchain.1]
      rfl
    rw [many_of_some hstep (by rw [hplace]; exact Nat.lt_succ_self _), List.map_cons,
      ih (by rw [List.getLast?_concat]; exact hchain.2), List.append_assoc, List.singleton_append]

/-! ### Columns of a type -/

/-- What `columnType` reads behind the parameters. -/
def typeSuffix (c : Column) : Parser Column := do
  let c ← timeZone c
  let c ← many signedness c
  let c ← many arrayBrackets c
  return withoutSerial c

/-- What `columnType` reads behind the words. -/
def typeRest (c : Column) : Parser Column := do
  let c ← if ← peekIsPunct '(' then withParameters c <$> parenthesized else pure c
  typeSuffix c

theorem columnType_of_words {t : TypeText} (h : t.Formed) (name : String) {src : Source} {n : Nat}
    {rest : List Token} (hrest : nextKeyword rest ∉ typeWords) :
    columnType name src (place n t.front ++ rest) = typeRest { name, dataType := t.words } src rest := by
  have hwords := @many_typeWord src [upperWord t.first] t.more (n + width t.first.toList) rest
    h.chain hrest
  have hplace : place n t.front ++ rest = ⟨.word, t.first.toList, n⟩ ::
      (place (n + width t.first.toList) (nextWords t.more) ++ rest) := rfl
  have hfirst : columnType name src (place n t.front ++ rest) =
      (many typeWord [upperWord t.first] >>= fun words =>
        if words.head? = some "INTERVAL" then do
          let words ← many intervalWord words
          return { name, dataType := joinWith " " words }
        else typeRest { name, dataType := joinWith " " words }) src
        (place (n + width t.first.toList) (nextWords t.more) ++ rest) := by
    rw [hplace]
    rfl
  have hhead : (upperWord t.first :: t.more.map upperWord).head? ≠ some "INTERVAL" :=
    fun heq => h.not_interval (Option.some.inj heq)
  rw [hfirst, bind_of_ok hwords, List.singleton_append, if_neg hhead]
  rfl

/-- The words that a suffix starts with. -/
def suffixWords : List String := ["WITH", "WITHOUT", "UNSIGNED", "SIGNED", "ZEROFILL"]

/-- What follows does not belong to a type. -/
structure LeavesType (t : Token) : Prop where
  word : t.keyword ∉ typeWords
  suffix : t.keyword ∉ suffixWords
  bracket : t.isPunct '[' = false

theorem EndsType.leavesType {t : Token} (h : EndsType t) : LeavesType t :=
  ⟨h.keyword_not_mem (by decide), h.keyword_not_mem (by decide), h.isPunct (by decide)⟩

theorem follows_marks {P : Token → Prop} {marks : List String} {n : Nat}
    (hmarks : ∀ w ∈ marks, ∀ k, P ⟨.word, w.toList, k⟩) (hbracket : ∀ k, P ⟨.punct, ['['], k⟩)
    (hmore : Follows P more) : Follows P (nextWords marks ++ brackets n ++ more) := by
  cases marks with
  | nil =>
    cases n with
    | zero => exact hmore
    | succ n => exact follows_punct hbracket _
  | cons w marks => exact Follows.blank (follows_word (hmarks w List.mem_cons_self) _) ' '

theorem upper_textOf_marks (marks : List String) (n : Nat) :
    upper (textOf (nextWords marks ++ brackets n)) =
      upper (textOf (nextWords marks)) ++ textOf (brackets n) := by
  rw [textOf_append, upper, List.map_append]
  exact congrArg (_ ++ ·) (upper_textOf_brackets n)

theorem reads_marks {marks : List String} (hmarks : ∀ w ∈ marks, upperWord w ∈ signWords) {n : Nat}
    {c : Column} (hserial :
      (c.suffixed (upper (textOf (nextWords marks ++ brackets n)))).dataType ∉ serialTypes)
    (hmore : Follows LeavesType more) : Reads d (do
      let c ← many signedness c
      let c ← many arrayBrackets c
      return withoutSerial c) (nextWords marks ++ brackets n)
      (c.suffixed (upper (textOf (nextWords marks ++ brackets n)))) more := by
  have hsign : Follows (·.keyword ∉ ["UNSIGNED", "SIGNED", "ZEROFILL"]) (brackets n ++ more) := by
    refine @follows_marks more (·.keyword ∉ ["UNSIGNED", "SIGNED", "ZEROFILL"]) [] n
      (fun _ h => absurd h List.not_mem_nil) (fun _ => show "" ∉ _ by decide)
      (hmore.imp fun _ ht hmem => ht.suffix ?_)
    exact List.mem_append_right ["WITH", "WITHOUT"] hmem
  rw [upper_textOf_marks, ← Column.suffixed_suffixed] at hserial ⊢
  refine Reads.bind (reads_signs hmarks c hsign) ?_
  refine Reads.bind_pure (reads_brackets n _ (hmore.imp fun _ ht => ht.bracket)) ?_
  rw [withoutSerial_of_not_mem hserial]
  exact Reads.pure _ more

theorem reads_typeSuffix {t : TypeText} (h : t.Formed) {c : Column}
    (htime : t.zone ≠ [] → "TIME".toList <+: c.dataType.toList)
    (hserial : (c.suffixed (upper (textOf t.suffix))).dataType ∉ serialTypes)
    (hmore : Follows LeavesType more) : Reads d (typeSuffix c) t.suffix
      { c.suffixed (upper (textOf t.suffix)) with length := if t.zone = [] then c.length else none }
      more := by
  have htext : upper (textOf t.suffix) = upper (textOf (nextWords t.zone)) ++
      upper (textOf (nextWords t.marks ++ brackets t.arrays)) := by
    rw [TypeText.suffix, textOf_append, upper, List.map_append]
    rfl
  by_cases hnil : t.zone = []
  case pos =>
    have hzone : Follows (·.keyword ∉ ["WITH", "WITHOUT"])
        (nextWords t.marks ++ brackets t.arrays ++ more) := by
      have hleaves : Follows (·.keyword ∉ ["WITH", "WITHOUT"]) more := hmore.imp fun _ ht hmem =>
        ht.suffix (List.mem_append_left ["UNSIGNED", "SIGNED", "ZEROFILL"] hmem)
      refine follows_marks (fun w hw _ hmem => ?_) (fun _ => show "" ∉ _ by decide) hleaves
      have hdisjoint : ∀ v ∈ signWords, v ∉ ["WITH", "WITHOUT"] := by decide
      exact hdisjoint _ (h.marks w hw).2 hmem
    have hatoms : t.suffix = nextWords t.marks ++ brackets t.arrays := by
      rw [TypeText.suffix, hnil]
      rfl
    rw [hatoms] at hserial ⊢
    rw [if_pos hnil]
    exact Reads.bind_nil (reads_timeZone_none c hzone)
      (reads_marks (fun w hw => (h.marks w hw).2) hserial hmore)
  case neg =>
    have hmem := h.zone.resolve_left hnil
    rw [htext, ← Column.suffixed_suffixed] at hserial ⊢
    rw [if_neg hnil]
    refine Reads.bind (reads_timeZone hmem (List.isPrefixOf_iff_prefix.2 (htime hnil)) _) ?_
    exact reads_marks (fun w hw => (h.marks w hw).2) hserial hmore

/-- Parameters leave the name of the type in front. -/
theorem isPrefix_withParameters (c : Column) (text : List Char) :
    c.dataType.toList <+: (withParameters c text).dataType.toList := by
  unfold withParameters
  dsimp only
  split
  case h_4 =>
    simp only [String.toList_append, List.append_assoc]
    exact List.prefix_append _ _
  all_goals exact List.prefix_rfl

theorem TypeText.isPrefix_sized (t : TypeText) (name : String) :
    t.words.toList <+: (t.sized name).dataType.toList := by
  unfold TypeText.sized
  split
  case h_1 => exact List.prefix_rfl
  case h_2 p _ => exact isPrefix_withParameters { name, dataType := t.words } (trim p)

theorem TypeText.Formed.apart_front {rules : LexicalRules} {t : TypeText} (h : t.Formed)
    {as : List Atom} (has : Apart rules as) (hnext : ∀ c ∈ (textOf as).head?, c ∈ '[' :: delimiters) :
    Apart rules (t.front ++ as) := by
  have hwords := List.forall_mem_cons.1 h.words
  refine .cons (formed_wordText rules hwords.1) (fun c hc => ?_) (Apart.nextWords hwords.2 has hnext)
  have hall : ∀ c ∈ '[' :: delimiters, (!Statement.extendsWord c) = true := by decide
  refine hall c ?_
  cases hmore : t.more with
  | nil =>
    rw [hmore] at hc
    exact hnext c hc
  | cons w ws =>
    rw [hmore] at hc
    obtain rfl := Option.some.inj hc
    decide

theorem TypeText.suffix_eq (t : TypeText) :
    t.suffix = nextWords (t.zone ++ t.marks) ++ brackets t.arrays := by
  rw [TypeText.suffix, nextWords, nextWords, nextWords, List.flatMap_append, List.append_assoc]

theorem TypeText.head_suffix (t : TypeText) {as : List Atom} (h : Led as) :
    ∀ c ∈ (textOf (t.suffix ++ as)).head?, c ∈ '[' :: delimiters := by
  intro c hc
  rw [suffix_eq] at hc
  generalize t.zone ++ t.marks = ws at hc
  cases ws with
  | cons w ws =>
    obtain rfl := Option.some.inj hc
    decide
  | nil =>
    generalize t.arrays = n at hc
    cases n with
    | zero => exact List.mem_cons_of_mem _ (h c hc)
    | succ n =>
      obtain rfl := Option.some.inj hc
      decide

/-- No suffix goes on with the name of the type. -/
theorem TypeText.Formed.nextKeyword {t : TypeText} (h : t.Formed) (hmore : Follows LeavesType more)
    (n : Nat) : nextKeyword (place n (t.suffix ++ more)) ∉ typeWords := by
  have hzone : ∀ zone ∈ timeZones, ∀ w ∈ zone, upperWord w ∉ typeWords := by decide
  have hsign : ∀ w ∈ signWords, w ∉ typeWords := by decide
  have hword : ∀ w ∈ t.zone ++ t.marks, upperWord w ∉ typeWords := by
    intro w hw
    rcases List.mem_append.1 hw with hw | hw
    · exact hzone _ (h.zone.resolve_left fun hnil => by simp [hnil] at hw) w hw
    · exact hsign _ (h.marks w hw).2
  rw [suffix_eq]
  exact keyword_head?_of_follows (follows_marks (fun w hw _ => hword w hw)
    (fun _ => show "" ∉ typeWords by decide) (hmore.imp fun _ ht => ht.word)) (by decide) n

/-- What stands behind a type in its definition. -/
structure TypeEnds (rules : LexicalRules) (t : TypeText) (more : List Atom) : Prop where
  apart : Apart rules (t.suffix ++ more)
  led : Led more
  leaves : Follows LeavesType more
  /-- Parentheses are those of the type. -/
  paren : t.parameters = none → Follows (·.isPunct '(' = false) (t.suffix ++ more)
  closes : ∀ p ∈ t.parameters, Closes rules p (textOf (t.suffix ++ more))

theorem typeRest_of_none (c : Column) {src : Source} {ts : List Token}
    (h : ts.head?.any (·.isPunct '(') = false) : typeRest c src ts = typeSuffix c src ts := by
  have hpeek : peekIsPunct '(' src ts = .ok (false, ts) := by rw [peekIsPunct, h]
  rw [typeRest, bind_of_ok hpeek]
  rfl

theorem typeRest_of_closing? (c : Column) {src : Source} {t close : Token} {ts rest : List Token}
    (hopen : t.isPunct '(' = true) (hclosing : closing? 0 ts = some (close, rest)) :
    typeRest c src (t :: ts) =
      typeSuffix (withParameters c (trim (slice t.stop close.offset src.text))) src rest := by
  have hpeek : peekIsPunct '(' src (t :: ts) = .ok (true, t :: ts) := by
    rw [peekIsPunct, List.head?_cons, Option.any_some, hopen]
  have hread : (withParameters c <$> parenthesized) src (t :: ts) =
      .ok (withParameters c (trim (slice t.stop close.offset src.text)), rest) := by
    show (parenthesized >>= fun text => pure (withParameters c text)) src (t :: ts) = _
    rw [bind_of_ok (parenthesized_of_closing? hopen hclosing)]
    rfl
  rw [typeRest, bind_of_ok hpeek, if_pos rfl, bind_of_ok hread]

theorem TypeText.Formed.reads_suffix {t : TypeText} (h : t.Formed) {name : String}
    (hserial : (t.column name).dataType ∉ serialTypes) (hmore : Follows LeavesType more) :
    Reads d (typeSuffix (t.sized name)) t.suffix (t.column name) more :=
  reads_typeSuffix h (fun hne => (h.time hne).trans (t.isPrefix_sized name)) hserial hmore

theorem columnType_of_none {t : TypeText} (h : t.Formed) {name : String}
    (hserial : (t.column name).dataType ∉ serialTypes) (hends : TypeEnds d.rules t more)
    (hp : t.parameters = none) (front : List Char) :
    columnType name ⟨front ++ (t.text ++ textOf more), d⟩
      (Lexer.tokensFrom d.rules (width front) (t.text ++ textOf more)) =
        .ok (t.column name, place (width front + width t.text) more) := by
  have hsized : t.sized name = { name, dataType := t.words } := by rw [TypeText.sized, hp]
  have htext : t.text ++ textOf more = textOf (t.front ++ (t.suffix ++ more)) := by
    simp [TypeText.text, hp, textOf_append]
  have hwidth : width front + width t.text =
      width (front ++ textOf t.front) + width (textOf t.suffix) := by
    simp [TypeText.text, hp, Nat.add_assoc]
  have hsuffix : Reads d (typeSuffix (t.sized name)) t.suffix (t.column name) more :=
    h.reads_suffix hserial hends.leaves
  have hread := hsuffix (front ++ textOf t.front)
  rw [List.append_assoc, ← textOf_append, hsized] at hread
  have hopen := any_head?_of_follows (hends.paren hp) (width (front ++ textOf t.front))
  rw [htext, (h.apart_front hends.apart (t.head_suffix hends.led)).tokensFrom, place_append,
    ← width_append, columnType_of_words h name (h.nextKeyword hends.leaves _), typeRest_of_none _ hopen,
    hread, hwidth]

theorem columnType_of_parameters {t : TypeText} (h : t.Formed) {name : String}
    (hserial : (t.column name).dataType ∉ serialTypes) (hends : TypeEnds d.rules t more)
    {p : List Char} (hp : t.parameters = some p) (front : List Char) :
    columnType name ⟨front ++ (t.text ++ textOf more), d⟩
      (Lexer.tokensFrom d.rules (width front) (t.text ++ textOf more)) =
        .ok (t.column name, place (width front + width t.text) more) := by
  have hsized : t.sized name = withParameters { name, dataType := t.words } (trim p) := by
    rw [TypeText.sized, hp]
  have htext : t.text ++ textOf more = textOf t.front ++ '(' :: (p ++ ')' :: textOf (t.suffix ++ more)) := by
    simp [TypeText.text, hp, textOf_append]
  have hopen : Apart d.rules (t.front ++ [punct '(']) :=
    h.apart_front (Apart.nil.mark (by decide)) fun c hc => by
      obtain rfl := Option.some.inj hc
      decide
  -- where the parameters start and where they are closed
  obtain ⟨start, hstart⟩ : ∃ start, start = front ++ textOf t.front ++ ['('] := ⟨_, rfl⟩
  have hwidth : width start = width front + width (textOf t.front) + 1 := by
    rw [hstart, width_append, width_append]
    rfl
  have hsource : front ++ (t.text ++ textOf more) = start ++ (p ++ ')' :: textOf (t.suffix ++ more)) := by
    simp [htext, hstart]
  have hclose : width (start ++ (p ++ [')'])) = width start + width p + 1 := by
    rw [width_append, width_append, ← Nat.add_assoc]
    rfl
  have hstop : width front + width t.text = width start + width p + 1 + width (textOf t.suffix) := by
    have hparts : front ++ t.text = start ++ (p ++ [')']) ++ textOf t.suffix := by
      simp [TypeText.text, hp, hstart]
    rw [← width_append, hparts, width_append, hclose]
  obtain ⟨ts, htokens, hclosing⟩ := (hends.closes p hp).exists_tokens_between hopen hends.apart rfl
  rw [← hwidth] at htokens hclosing
  have hsuffix : Reads d (typeSuffix (t.sized name)) t.suffix (t.column name) more :=
    h.reads_suffix hserial hends.leaves
  have hread := hsuffix (start ++ (p ++ [')']))
  have hback : start ++ (p ++ [')']) ++ textOf (t.suffix ++ more) =
      start ++ (p ++ ')' :: textOf (t.suffix ++ more)) := by simp
  have hslice : slice (width start) (width start + width p)
      (start ++ (p ++ ')' :: textOf (t.suffix ++ more))) = p := slice_width_append start p _
  rw [hback, hclose, hsized] at hread
  rw [hsource, htext, htokens, columnType_of_words h name (by show "" ∉ typeWords; decide)]
  refine (typeRest_of_closing? _ rfl (hclosing _)).trans ?_
  have hbehind : (⟨.punct, ['('], width front + width (textOf t.front)⟩ : Token).stop = width start :=
    hwidth.symm
  rw [hbehind, hslice, hread, hstop]

/-- A type is read as the column that its parts make. -/
theorem columnType_of_text {t : TypeText} (h : t.Formed) {name : String}
    (hserial : (t.column name).dataType ∉ serialTypes) (hends : TypeEnds d.rules t more)
    (front : List Char) : columnType name ⟨front ++ (t.text ++ textOf more), d⟩
      (Lexer.tokensFrom d.rules (width front) (t.text ++ textOf more)) =
        .ok (t.column name, place (width front + width t.text) more) := by
  cases hp : t.parameters with
  | none => exact columnType_of_none h hserial hends hp front
  | some p => exact columnType_of_parameters h hserial hends hp front

end DdlBridge
