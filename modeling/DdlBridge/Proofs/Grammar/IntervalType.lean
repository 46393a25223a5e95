import DdlBridge.Proofs.Grammar.TypeReading

/-!
# Interval types

An `INTERVAL` is read with the fields behind it (`parseScript_of_interval`). It has no parameters:
those behind it are dropped (`parseScript_of_intervalParameters`).
-/

namespace DdlBridge

open Text Atom Statement Grammar DdlBridge.Parser

variable {d : Dialect} {more : List Atom} {nullable : Bool}

theorem reads_intervalWord_none (words : List String)
    (hfield : Follows (·.keyword ∉ intervalFields) more) (hparen : Follows (·.isPunct '(' = false) more) :
    Reads d (intervalWord words) [] none more := by
  refine Reads.bind_nil (reads_eatAny_none hfield) (Reads.peekIsPunct fun n => ?_)
  rw [List.nil_append, any_head?_of_follows hparen]
  exact Reads.pure none more

theorem reads_intervalWords {fields : List String} (hfields : ∀ w ∈ fields, upperWord w ∈ intervalFields)
    (words : List String) (hfield : Follows (·.keyword ∉ intervalFields) more)
    (hparen : Follows (·.isPunct '(' = false) more) :
    Reads d (many intervalWord words) (nextWords fields) (words ++ fields.map upperWord) more := by
  induction fields generalizing words with
  | nil =>
    rw [List.map_nil, List.append_nil]
    exact Reads.many_nil (reads_intervalWord_none words hfield hparen)
  | cons w fields ih =>
    rw [List.forall_mem_cons] at hfields
    have hstep : Reads d (intervalWord words) (nextWords [w]) (some (words ++ [upperWord w]))
        (nextWords fields ++ more) :=
      Reads.blank ' ' (Reads.bind_pure (reads_eatAny_word hfields.1 _) (Reads.pure _ _))
    rw [List.map_cons, List.append_cons]
    exact Reads.many_cons hstep (List.cons_ne_nil _ _) (ih hfields.2 _)

theorem columnType_of_intervalWord {first : String} (hfirst : upperWord first = "INTERVAL")
    (name : String) (src : Source) (n : Nat) {rest : List Token} (hrest : nextKeyword rest ∉ typeWords) :
    columnType name src (⟨.word, first.toList, n⟩ :: rest) =
      (many intervalWord ["INTERVAL"] >>= fun words =>
        pure { name, dataType := joinWith " " words }) src rest := by
  have hstep : typeWord ["INTERVAL"] src rest = .ok (none, rest) := by
    rw [typeWord_eq, continuesType_eq_false _ hrest, if_neg (by simp)]
  have hwords : many typeWord [upperWord first] src rest = .ok ([upperWord first], rest) := by
    rw [hfirst]
    exact many_of_none hstep
  have hread : columnType name src (⟨.word, first.toList, n⟩ :: rest) =
      (many typeWord [upperWord first] >>= fun words =>
        if words.head? = some "INTERVAL" then do
          let words ← many intervalWord words
          return { name, dataType := joinWith " " words }
        else typeRest { name, dataType := joinWith " " words }) src rest := rfl
  rw [hread, bind_of_ok hwords, hfirst, if_pos (by rfl)]

theorem not_typeWord_of_interval {fields : List String}
    (hfields : ∀ w ∈ fields, upperWord w ∈ intervalFields) (n : Nat) :
    nextKeyword (place n (nextWords fields ++ declarationTail nullable)) ∉ typeWords := by
  cases fields with
  | nil =>
    exact keyword_head?_of_follows ((endsType_declarationTail nullable).imp fun _ ht => ht.leavesType.word)
      (by decide) n
  | cons w fields =>
    have hall : ∀ v ∈ intervalFields, v ∉ typeWords := by decide
    exact hall _ (hfields w List.mem_cons_self)

/-- The declaration of an interval defines the column with its fields. -/
theorem parseScript_of_interval {first : String} (hfirst : upperWord first = "INTERVAL")
    (hword : isWordText first = true) {fields : List String}
    (hfields : ∀ w ∈ fields, isWordText w = true ∧ upperWord w ∈ intervalFields) :
    parseScript d
        (declarationText (Atom.textOf (word first.toList :: nextWords fields)) nullable ++ [';']) =
      .ok ({ name := "x", dataType := joinWith " " ("INTERVAL" :: fields.map upperWord), nullable } :
        Column).alone := by
  have hled : Led (nextWords fields ++ declarationTail nullable) :=
    (led_flatMap fun w _ => led_blank _).append (led_declarationTail nullable)
  have happart : Apart d.rules (word first.toList :: (nextWords fields ++ declarationTail nullable)) :=
    .word hword (Apart.nextWords (fun w hw => (hfields w hw).1) (apart_declarationTail _ nullable)
      fun c hc => List.mem_cons_of_mem _ (led_declarationTail nullable c hc)) hled
  have hinline : Inline (Atom.textOf (word first.toList :: nextWords fields)) := by
    rw [Atom.textOf_cons]
    exact (inline_wordText hword).append (inline_nextWords fun w hw => (hfields w hw).1)
  have hends := endsType_declarationTail nullable
  have hread := reads_intervalWords (d := d) (fun w hw => (hfields w hw).2) ["INTERVAL"]
    (hends.imp fun _ ht => ht.keyword_not_mem (by decide)) (hends.imp fun _ ht => ht.isPunct (by decide))
    (Atom.textOf declarationHead ++ first.toList)
  have htype : columnType "x"
      ⟨declarationText (Atom.textOf (word first.toList :: nextWords fields)) nullable, d⟩
      (Lexer.tokensFrom d.rules (width (Atom.textOf declarationHead))
        (Atom.textOf (word first.toList :: nextWords fields) ++ Atom.textOf (declarationTail nullable))) =
      .ok ({ name := "x", dataType := joinWith " " ("INTERVAL" :: fields.map upperWord) },
        place (width (Atom.textOf declarationHead ++ Atom.textOf (word first.toList :: nextWords fields)))
          (declarationTail nullable)) := by
    have hsource : declarationText (Atom.textOf (word first.toList :: nextWords fields)) nullable =
        Atom.textOf declarationHead ++ first.toList ++
          Atom.textOf (nextWords fields ++ declarationTail nullable) := by
      simp only [declarationText, Atom.textOf_cons, Atom.textOf_append, Atom.text, List.append_assoc]
    have hplace : place (width (Atom.textOf declarationHead))
        (word first.toList :: (nextWords fields ++ declarationTail nullable)) =
        ⟨.word, first.toList, width (Atom.textOf declarationHead)⟩ ::
          place (width (Atom.textOf declarationHead ++ first.toList))
            (nextWords fields ++ declarationTail nullable) := by
      rw [width_append]
      rfl
    rw [← Atom.textOf_append, List.cons_append, happart.tokensFrom, hplace,
      columnType_of_intervalWord hfirst _ _ _ (not_typeWord_of_interval (fun w hw => (hfields w hw).2) _),
      hsource, bind_of_ok hread, Atom.textOf_cons, ← List.append_assoc, width_append _ (Atom.textOf _)]
    rfl
  rw [parseScript_of_ok (not_isEmpty_declarationText _ _)
    (split_of_apart (apart_declarationHead happart) hinline),
    define_cons_of_ok (ofStatement_of_columnType htype 0)]
  rfl

/-! ### Parameters of an interval -/

theorem intervalWord_of_closing? (words : List String) (src : Source) (n : Nat) {close : Token}
    {ts rest : List Token} (hclosing : closing? 0 ts = some (close, rest)) :
    intervalWord words src (⟨.punct, ['('], n⟩ :: ts) = .ok (some words, rest) := by
  have hfield : eatAny intervalFields src (⟨.punct, ['('], n⟩ :: ts) =
      .ok (none, ⟨.punct, ['('], n⟩ :: ts) := rfl
  have hpeek : peekIsPunct '(' src (⟨.punct, ['('], n⟩ :: ts) =
      .ok (true, ⟨.punct, ['('], n⟩ :: ts) := rfl
  have hdiscard : (discard parenthesized : Parser PUnit) src (⟨.punct, ['('], n⟩ :: ts) =
      .ok ((), rest) := bind_of_ok (parenthesized_of_closing? rfl hclosing) _
  rw [intervalWord, bind_of_ok hfield]
  exact (bind_of_ok hpeek _).trans (bind_of_ok hdiscard _)

/-- What stands in the parentheses of an interval is not looked at. -/
theorem columnType_of_intervalParameters {first : String} (hfirst : upperWord first = "INTERVAL")
    (hword : isWordText first = true) {p : List Char} (hmore : Apart d.rules more)
    (hends : Follows EndsType more) (hcloses : Closes d.rules p (Atom.textOf more)) (name : String)
    (front : List Char) : columnType name
      ⟨front ++ (first.toList ++ '(' :: (p ++ ')' :: Atom.textOf more)), d⟩
      (Lexer.tokensFrom d.rules (width front) (first.toList ++ '(' :: (p ++ ')' :: Atom.textOf more))) =
        .ok ({ name, dataType := "INTERVAL" },
          place (width (front ++ (first.toList ++ '(' :: (p ++ [')'])))) more) := by
  have hopen : Apart d.rules [word first.toList, punct '('] :=
    .word hword (Apart.nil.mark (by decide)) fun c hc => by
      obtain rfl := Option.some.inj hc
      decide
  have htext : first.toList ++ '(' :: (p ++ ')' :: Atom.textOf more) =
      Atom.textOf [word first.toList] ++ '(' :: (p ++ ')' :: Atom.textOf more) := by
    rw [Atom.textOf_singleton]
    rfl
  obtain ⟨k, hk⟩ : ∃ k, k = width front + width (Atom.textOf [word first.toList]) := ⟨_, rfl⟩
  obtain ⟨ts, htokens, hclosing⟩ := hcloses.exists_tokens_between hopen hmore hk
  have hstop : width (front ++ (first.toList ++ '(' :: (p ++ [')']))) = k + 1 + width p + 1 := by
    have hparts : front ++ (first.toList ++ '(' :: (p ++ [')'])) =
        front ++ Atom.textOf [word first.toList] ++ ['('] ++ p ++ [')'] := by
      simp [Atom.textOf_singleton, Atom.text]
    rw [hparts, width_append, width_append, width_append, width_append, ← hk]
    rfl
  have hnone := reads_intervalWord_none (d := d) ["INTERVAL"]
    (hends.imp fun _ ht => ht.keyword_not_mem (by decide)) (hends.imp fun _ ht => ht.isPunct (by decide))
    (front ++ (first.toList ++ '(' :: (p ++ [')'])))
  have hsource : front ++ (first.toList ++ '(' :: (p ++ [')'])) ++ Atom.textOf more =
      front ++ (first.toList ++ '(' :: (p ++ ')' :: Atom.textOf more)) := by simp
  rw [List.nil_append, hsource, hstop] at hnone
  -- one round takes the parameters, and the next one ends
  have hmany := (many_of_some (intervalWord_of_closing? ["INTERVAL"] _ k (hclosing _))
    (by simp only [List.length_cons, List.length_append]; omega)).trans (many_of_none hnone)
  rw [hstop]
  conv_lhs => rw [htext, htokens, ← htext]
  exact (columnType_of_intervalWord hfirst _ _ _ (by show "" ∉ typeWords; decide)).trans (bind_of_ok hmany _)

/-- The declaration of an interval drops its parameters. -/
theorem parseScript_of_intervalParameters {first : String} (hfirst : upperWord first = "INTERVAL")
    (hword : isWordText first = true) {p : List Char}
    (hcloses : Closes d.rules p (Atom.textOf (declarationTail nullable)))
    (hunbroken : Unbroken d.rules (Atom.textOf declarationHead ++ (first.toList ++ ['('])) p) :
    parseScript d (declarationText (first.toList ++ '(' :: (p ++ [')'])) nullable ++ [';']) =
      .ok ({ name := "x", dataType := "INTERVAL", nullable } : Column).alone := by
  have hread := columnType_of_intervalParameters hfirst hword (apart_declarationTail _ nullable)
    (endsType_declarationTail nullable) hcloses "x" (Atom.textOf declarationHead)
  have htext : first.toList ++ '(' :: (p ++ ')' :: Atom.textOf (declarationTail nullable)) =
      first.toList ++ '(' :: (p ++ [')']) ++ Atom.textOf (declarationTail nullable) := by simp
  rw [htext] at hread
  have hsplit := @split_of_parenthesized d nullable _ _ _ hunbroken
    (fun c hc => absurd hc List.not_mem_nil) (fun c hc => absurd hc List.not_mem_nil)
  rw [parseScript_of_ok (not_isEmpty_declarationText _ _) hsplit,
    define_cons_of_ok (ofStatement_of_columnType hread 0)]
  rfl

end DdlBridge
