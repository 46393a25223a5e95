import DdlBridge.Proofs.Ddl.Row
import DdlBridge.Proofs.Grammar.Head
import DdlBridge.Proofs.Grammar.ParsedType
import DdlBridge.Proofs.Statement.Front
import DdlBridge.Proofs.Token.Junction
import DdlBridge.Proofs.Token.LetterCase

/-!
# Reading a view

Behind the head that DDL gives a view, its definition is whatever text follows the white space and
the comments there (`ofStatement_viewHead`). So the definition of a view that was parsed starts with
a token and ends where its statement does (`definable_of_parseScript`).
-/

namespace DdlBridge

open Text Atom Statement DdlBridge.Parser DdlBridge.Grammar

/-! ### The head -/

namespace Atom

/-- What stands between `CREATE` and the name of a view. -/
def viewWords : Dialect → Bool → List String
  | .sqlite, _ => ["VIEW", "IF", "NOT", "EXISTS"]
  | .sqlServer, true => ["OR", "ALTER", "VIEW"]
  | _, true => ["OR", "REPLACE", "VIEW"]
  | _, false => ["VIEW"]

/-- What stands in front of the definition of a view. -/
def viewHead (d : Dialect) (v : View) : List Atom :=
  Atom.create (spell (viewWords d v.orReplace) ++
    [blank ' ', name d v.name, blank ' ', word "AS".toList])

end Atom

/-- The view as its DDL is read: some dialects replace a view in other words, or not at all. -/
def View.reread (d : Dialect) (v : View) : View :=
  { v with orReplace := v.orReplace && d != .sqlite && d != .sqlServer }

variable {d : Dialect} {v : View} {y : List Char}

theorem row_viewHead (hname : Readable v.name) : Row d.rules (viewHead d v) := by
  have hwords : ∀ d ∈ Dialect.all, ∀ r : Bool, (viewWords d r).all (isCalmWord ·.toList) = true := by
    decide +kernel
  have hd : d ∈ Dialect.all := by cases d <;> decide
  have has : Row d.rules [blank ' ', word "AS".toList] :=
    (row_word (by decide +kernel) (row_nil _) led_nil).blank
  have htail : Row d.rules (blank ' ' :: [Atom.name d v.name, blank ' ', word "AS".toList]) :=
    (row_name hname has (led_blank _)).blank
  have hspelled : Row d.rules (spell (viewWords d v.orReplace)) := row_spell (hwords d hd _)
  exact row_word (by decide +kernel) (hspelled.append htail (led_blank _)).blank (led_blank _)

/-- The tokens of the head, in front of others. -/
theorem tokensFrom_viewHead (hname : Readable v.name) (hy : ∀ c ∈ y.head?, c = '\n') :
    tokenize d (textOf (viewHead d v) ++ y) = place 0 (viewHead d v) ++
      Lexer.tokensFrom d.rules (width (textOf (viewHead d v))) y := by
  have hends : ∀ a ∈ (viewHead d v).getLast?, ∀ c ∈ y.head?, a.endsAt c = true := by
    intro a ha c hc
    have hlast : (viewHead d v).getLast? = some (word "AS".toList) := by
      rw [viewHead, Atom.create]
      simp [List.getLast?_append, List.getLast?_cons]
    rw [hlast] at ha
    obtain rfl := Option.some.inj ha
    rw [hy c hc]
    rfl
  rw [tokenize, (row_viewHead hname).apart.tokensFrom_append hends, Nat.zero_add]

namespace Grammar

variable {src : Source} {ts : List Token}

/-- The view whose definition is the text, or a complaint that there is none. -/
def defined (name : String) (orReplace : Bool) (definition : List Char) : Parser View :=
  if definition.isEmpty then fail (.noQuery name)
  else return { name, definition := String.ofList definition, orReplace }

theorem viewDefinition_eq (orReplace : Bool) : viewDefinition orReplace = (do
    expectWord "VIEW"
    discard (eatWords ["IF", "NOT", "EXISTS"])
    let name ← objectName
    skipParenthesized
    skipToAs name
    remainder >>= defined name orReplace) := by
  unfold viewDefinition defined
  rfl

/-- Behind its name and `AS` a view is defined by what is left. -/
theorem viewDefinition_of_name (orReplace : Bool) {name : String} {k n m : Nat} {us : List Token}
    (hexists : (discard (eatWords ["IF", "NOT", "EXISTS"]) : Parser PUnit) src us =
      .ok ((), Token.ofName d name n :: ⟨.word, "AS".toList, m⟩ :: ts)) :
    viewDefinition orReplace src (⟨.word, "VIEW".toList, k⟩ :: us) =
      (remainder >>= defined name orReplace) src ts := by
  have hview : expectWord "VIEW" src (⟨.word, "VIEW".toList, k⟩ :: us) = .ok ((), us) := rfl
  have hname : objectName src (Token.ofName d name n :: ⟨.word, "AS".toList, m⟩ :: ts) =
      .ok (name, ⟨.word, "AS".toList, m⟩ :: ts) :=
    objectName_of_name d name n fun u hu => by
      obtain rfl := Option.some.inj hu
      rfl
  have hskip : skipParenthesized src (⟨.word, "AS".toList, m⟩ :: ts) =
      .ok ((), ⟨.word, "AS".toList, m⟩ :: ts) := rfl
  have has : skipToAs name src (⟨.word, "AS".toList, m⟩ :: ts) = .ok ((), ts) := rfl
  rw [viewDefinition_eq, bind_of_ok hview, bind_of_ok hexists, bind_of_ok hname, bind_of_ok hskip,
    bind_of_ok has]

/-- What is left behind white space and comments is the remainder. -/
theorem remainder_of_tokensFrom (front y : List Char) :
    remainder ⟨front ++ y, d⟩ (Lexer.tokensFrom d.rules (width front) y) =
      .ok (trim (Lexer.takeTrivia d.rules.hashComments y).2, []) := by
  rw [Lexer.tokensFrom_eq]
  cases hrest : (Lexer.takeTrivia d.rules.hashComments y).2 with
  | nil => rfl
  | cons c rest =>
    have hparts : front ++ y = front ++ (Lexer.takeTrivia d.rules.hashComments y).1 ++ c :: rest := by
      rw [List.append_assoc, ← hrest, Lexer.takeTrivia_append]
    show Except.ok (trim (dropBytes (width front +
      width (Lexer.takeTrivia d.rules.hashComments y).1) (front ++ y)), _) = _
    rw [hparts, ← width_append, dropBytes_width_append]

theorem place_viewHead (d : Dialect) (v : View) : ∃ n m, place 0 (viewHead d v) =
    ⟨.word, "CREATE".toList, 0⟩ :: (place 7 (spell (viewWords d v.orReplace)) ++
      [Token.ofName d v.name n, ⟨.word, "AS".toList, m⟩]) := by
  rw [viewHead, Atom.create]
  exact ⟨_, _, by
    rw [place, place, place_append, place, place_name, place, place]
    rfl⟩

/-- The words in front of its name say that a view is created, and whether it may replace another. -/
theorem createHead_viewWords (r : Bool) (name : String) (n m : Nat) : ∃ k us,
    createHead {} (place 7 (spell (viewWords d r)) ++
      Token.ofName d name n :: ⟨.word, "AS".toList, m⟩ :: ts) =
      some ({ orReplace := r && d != .sqlite && d != .sqlServer }, some .view,
        ⟨.word, "VIEW".toList, k⟩ :: us) ∧
    (discard (eatWords ["IF", "NOT", "EXISTS"]) : Parser PUnit) src us =
      .ok ((), Token.ofName d name n :: ⟨.word, "AS".toList, m⟩ :: ts) := by
  have hnone : (discard (eatWords ["IF", "NOT", "EXISTS"]) : Parser PUnit) src
      (Token.ofName d name n :: ⟨.word, "AS".toList, m⟩ :: ts) =
      .ok ((), Token.ofName d name n :: ⟨.word, "AS".toList, m⟩ :: ts) :=
    bind_of_ok (eatWords_of_not_second ["EXISTS"] rfl) _
  cases d with
  | sqlite =>
    cases r <;> exact ⟨7, ⟨.word, "IF".toList, 12⟩ :: ⟨.word, "NOT".toList, 15⟩ ::
      ⟨.word, "EXISTS".toList, 19⟩ ::
      Token.ofName .sqlite name n :: ⟨.word, "AS".toList, m⟩ :: ts, rfl, rfl⟩
  | _ => cases r <;> exact ⟨_, _, rfl, hnone⟩

/-- The view is defined by what follows the white space and the comments behind its head. -/
theorem ofStatement_viewHead (hname : Readable v.name) (hy : ∀ c ∈ y.head?, c = '\n') (k : Nat) :
    ofStatement d ⟨k, textOf (viewHead d v) ++ y⟩ =
      let definition := trim (Lexer.takeTrivia d.rules.hashComments y).2
      if definition.isEmpty then
        .error (Complaint.error k (textOf (viewHead d v) ++ y) ⟨.noQuery v.name, none⟩)
      else .ok { views := [{ v.reread d with definition := String.ofList definition }] } := by
  obtain ⟨n, m, hplace⟩ := place_viewHead d v
  have htokens := tokensFrom_viewHead (d := d) hname hy
  rw [hplace, List.cons_append, List.append_assoc] at htokens
  obtain ⟨i, us, hhead, hexists⟩ := @createHead_viewWords d ⟨textOf (viewHead d v) ++ y, d⟩
    (Lexer.tokensFrom d.rules (width (textOf (viewHead d v))) y) v.orReplace v.name n m
  have hdefinition := viewDefinition_of_name (k := i)
    (v.orReplace && d != .sqlite && d != .sqlServer) hexists
  rw [bind_of_ok (remainder_of_tokensFrom _ _)] at hdefinition
  dsimp only
  rw [ofStatement_eq, htokens]
  simp only [List.cons_append, List.nil_append]
  rw [statement_of_create rfl hhead, objectSchema]
  unfold defined at hdefinition
  split at hdefinition
  case isTrue hempty =>
    rw [bind_of_error hdefinition, if_pos hempty]
    rfl
  case isFalse hempty =>
    rw [bind_of_ok hdefinition, if_neg hempty]
    rfl

end Grammar

/-! ### Definitions -/

/-- The text starts with a token and ends in no white space. -/
structure Definable (d : Dialect) (text : List Char) : Prop where
  nonempty : text ≠ []
  start : Lexer.takeTrivia d.rules.hashComments text = ([], text)
  trimmed : trimEnd text = text

theorem Definable.exists_cons {text : List Char} (h : Definable d text) : ∃ c cs, text = c :: cs ∧
    isBlank c = false ∧ Lexer.takeComment? d.rules.hashComments (c :: cs) = none := by
  obtain ⟨c, cs, rfl⟩ := List.exists_cons_of_ne_nil h.nonempty
  have hstart := h.start
  cases hblank : isBlank c with
  | true =>
    rw [Lexer.takeTrivia_blank _ hblank] at hstart
    exact absurd (congrArg Prod.fst hstart) (by simp)
  | false =>
    refine ⟨c, cs, rfl, hblank, ?_⟩
    rw [Lexer.takeTrivia_of_not_blank _ hblank] at hstart
    split at hstart
    case h_1 comment rest hcomment =>
      obtain ⟨hne, -⟩ := Lexer.splits_takeComment? _ _ _ _ hcomment
      exact absurd (List.append_eq_nil_iff.1 (congrArg Prod.fst hstart)).1 hne
    case h_2 hcomment => exact hcomment

theorem Definable.trim {text : List Char} (h : Definable d text) : trim text = text := by
  obtain ⟨c, cs, rfl, hblank, -⟩ := h.exists_cons
  have hstart : trimStart (c :: cs) = c :: cs :=
    List.dropWhile_cons_of_neg (by rw [hblank]; simp)
  rw [Text.trim, hstart, h.trimmed]

namespace Lexer

theorem getLast?_ne_of_cons {c e : Char} {cs : List Char} (h : (c :: cs).getLast? ≠ some e) :
    cs.getLast? ≠ some e := by
  intro hlast
  rw [List.getLast?_cons, hlast] at h
  exact h rfl

/-- A carriage return that no line feed follows stays one, if something follows it. -/
theorem takeLine?_append_of_none {cs : List Char} (h : takeLine? cs = none)
    (hlast : cs.getLast? ≠ some '\r') (more : List Char) : takeLine? (cs ++ more) = none := by
  induction cs with
  | nil => exact absurd h (by simp [takeLine?])
  | cons c cs ih =>
    have hhead : c = '\r' → (cs ++ more).head? = cs.head? := by
      rintro rfl
      cases cs with
      | nil => exact absurd rfl hlast
      | cons e cs => rfl
    rw [takeLine?_cons] at h
    rw [List.cons_append, takeLine?_cons]
    by_cases hend : c = '\n' ∨ (c = '\r' ∧ cs.head? = some '\n')
    · rw [if_pos hend] at h
      exact absurd h (by simp)
    rw [if_neg hend] at h
    rw [if_neg fun hend' => hend (hend'.imp_right fun ⟨hc, hfeed⟩ => ⟨hc, hhead hc ▸ hfeed⟩)]
    split
    case isTrue => rfl
    case isFalse hreturn =>
      rw [if_neg hreturn] at h
      rw [ih (Option.map_eq_none_iff.1 h) (getLast?_ne_of_cons hlast)]
      rfl

/-- What starts no comment starts none in front of a `;`. -/
theorem takeComment?_append_of_none {hash : Bool} {c : Char} {cs : List Char}
    (h : takeComment? hash (c :: cs) = none) (hlast : (c :: cs).getLast? ≠ some '\r')
    (hopen : ¬ ['/', '*'] <+: c :: cs) (more : List Char) :
    takeComment? hash (c :: cs ++ ';' :: more) = none := by
  have hsecond : ∀ e, e ≠ ';' → (cs ++ ';' :: more).head? = some e → ∃ rest, cs = e :: rest := by
    intro e he hhead
    cases cs with
    | nil => exact absurd (Option.some.inj hhead).symm he
    | cons b cs => exact ⟨cs, by rw [Option.some.inj hhead]⟩
  rw [List.cons_append, takeComment?_cons]
  split
  case isTrue hdash =>
    obtain ⟨rest, rfl⟩ := hsecond '-' (by decide) hdash.2
    rw [takeComment?_cons, if_pos ⟨hdash.1, rfl⟩] at h
    have hnone : takeLine? rest = none := Option.map_eq_none_iff.1 h
    have hall := takeLine?_append_of_none hnone
      (getLast?_ne_of_cons (getLast?_ne_of_cons hlast)) (';' :: more)
    show (takeLine? (rest ++ ';' :: more)).behind ['-', '-'] = none
    rw [hall]
    rfl
  case isFalse hdash =>
    split
    case isTrue hslash =>
      obtain ⟨rest, rfl⟩ := hsecond '*' (by decide) hslash.2
      rw [hslash.1] at hopen
      exact absurd (List.prefix_append ['/', '*'] rest) hopen
    case isFalse =>
      split
      case isTrue hhash =>
        obtain ⟨rfl, rfl⟩ := hhash
        have hline : (takeLine? cs).behind ['#'] = none := h
        rw [takeLine?_append_of_none (Option.map_eq_none_iff.1 hline) (getLast?_ne_of_cons hlast)]
        rfl
      case isFalse => rfl

end Lexer

/-- In front of a `;` the text is still behind all white space and comments, if it opens none that is
never closed. -/
theorem Definable.takeTrivia_append {text : List Char} (h : Definable d text)
    (hopen : ¬ ['/', '*'] <+: text) (more : List Char) :
    Lexer.takeTrivia d.rules.hashComments (text ++ ';' :: more) = ([], text ++ ';' :: more) := by
  have htrimmed := h.trimmed
  obtain ⟨c, cs, rfl, hblank, hcomment⟩ := h.exists_cons
  have hlast : (c :: cs).getLast? ≠ some '\r' := by
    intro hlast
    obtain ⟨front, hfront⟩ := List.getLast?_eq_some_iff.1 hlast
    rw [hfront, trimEnd_append_blanks front (w := ['\r']) (by decide)] at htrimmed
    have hlength := (trimEnd_isPrefix front).length_le
    rw [htrimmed, List.length_append, List.length_singleton] at hlength
    omega
  rw [List.cons_append, Lexer.takeTrivia_of_not_blank _ hblank, ← List.cons_append,
    Lexer.takeComment?_append_of_none hcomment hlast hopen]

/-- The rest of a trimmed text from a token on. -/
theorem definable_of_mem_tokenize {text : List Char} {t : Token} (h : t ∈ tokenize d text)
    (htrim : trimEnd text = text) : Definable d (trim (dropBytes t.offset text)) := by
  obtain ⟨front, c, rest, -, rfl, hoffset, hblank, hcomment, -⟩ := Lexer.exists_of_mem_tokensFrom h
  rw [trimEnd_append_of_not_blank hblank] at htrim
  have hrest : trimEnd (c :: rest) = c :: rest := List.append_cancel_left htrim
  have hstart : trimStart (c :: rest) = c :: rest :=
    List.dropWhile_cons_of_neg (by rw [hblank]; simp)
  rw [hoffset, Nat.zero_add, dropBytes_width_append, trim, hstart, hrest]
  refine ⟨by simp, ?_, hrest⟩
  rw [Lexer.takeTrivia_of_not_blank _ hblank, hcomment]

/-- Every view that the parser returns is defined by the text from one of the tokens on. -/
def Parser.Quotes {α : Type} (p : Parser α) (views : α → List View) : Prop :=
  ∀ src ts a rest, p src ts = .ok (a, rest) → ∀ v ∈ views a, ∃ t ∈ ts,
    v.definition.toList = trim (dropBytes t.offset src.text)

namespace Parser.Quotes

variable {α β : Type} {views : β → List View}

theorem none {p : Parser β} (h : Ensures p fun b => views b = []) : Quotes p views := by
  intro src ts b rest hread v hv
  rw [h src ts b rest hread] at hv
  exact absurd hv List.not_mem_nil

theorem seq {p : Parser α} {f : α → Parser β} (hp : Consumes p) (hf : ∀ a, Quotes (f a) views) :
    Quotes (p >>= f) views := by
  intro src ts b rest h v hv
  rw [bind_eq] at h
  split at h
  case h_1 a middle ha =>
    obtain ⟨t, ht, htext⟩ := hf a src middle b rest h v hv
    exact ⟨t, (hp src ts a middle ha).subset ht, htext⟩
  case h_2 => contradiction

theorem ite {c : Prop} [Decidable c] {p q : Parser β} (hp : Quotes p views) (hq : Quotes q views) :
    Quotes (if c then p else q) views := by
  split
  · exact hp
  · exact hq

end Parser.Quotes

namespace Grammar

theorem quotes_viewDefinition (orReplace : Bool) :
    Quotes (viewDefinition orReplace) fun v => [v] := by
  rw [viewDefinition_eq]
  refine .seq (consumes_expectWord _) fun _ => .seq (consumes_eatWords _).discard fun _ =>
    .seq consumes_objectName fun name => .seq consumes_skipParenthesized fun _ =>
    .seq (consumes_skipToAs name) fun _ => ?_
  intro src ts v rest h w hw
  obtain rfl := List.mem_singleton.1 hw
  cases ts with
  | nil => exact absurd h (by simp [bind_eq, remainder, defined, fail])
  | cons t ts =>
    refine ⟨t, List.mem_cons_self, ?_⟩
    have hread : remainder src (t :: ts) = .ok (trim (dropBytes t.offset src.text), []) := rfl
    rw [bind_of_ok hread, defined] at h
    split at h
    · contradiction
    · obtain ⟨rfl, -⟩ := Prod.mk.inj (Except.ok.inj h)
      exact String.toList_ofList

theorem quotes_statement : Quotes statement Schema.views := by
  have hnone : Ensures (pure {} : Parser Schema) fun s => s.views = [] := .pure rfl
  have hcreate : Quotes createStatement Schema.views := by
    refine .seq (consumes_expectWord _) fun _ => .seq consumes_objectHead fun found => ?_
    dsimp only
    split
    case h_3 =>
      intro src ts s rest h v hv
      rw [bind_eq] at h
      split at h
      case h_1 w middle hw =>
        obtain ⟨rfl, -⟩ := Prod.mk.inj (Except.ok.inj h)
        exact quotes_viewDefinition _ src ts w middle hw v hv
      case h_2 => contradiction
    case h_5 => exact .none hnone
    all_goals exact .none (.seq fun _ => .pure rfl)
  refine .seq consumes_peek fun next => ?_
  split
  case h_2 => exact .none hnone
  exact .ite hcreate (.ite (.none hnone) (.none (.fail _)))

end Grammar

/-! ### Parsed views -/

/-- The definition of a parsed view starts with a token, and it ends where its statement does. -/
theorem definable_of_parseScript {script : List Char} {s : Schema}
    (h : parseScript d script = .ok s) : ∀ v ∈ s.views, Definable d v.definition.toList := by
  refine forall_parseScript_of_piece (P := fun s => ∀ v ∈ s.views, Definable d v.definition.toList)
    (by simp) (fun _ _ hs hs' => List.forall_mem_append.2 ⟨hs, hs'⟩)
    (fun start raw s hpiece fragment hread v hv => ?_) h
  rw [ofStatement_eq] at hread
  split at hread
  case h_1 rest hread' =>
    obtain rfl := Except.ok.inj hread
    obtain ⟨t, ht, htext⟩ := quotes_statement _ _ _ _ hread' v hv
    rw [htext]
    exact definable_of_mem_tokenize ht (trimEnd_of_ofPiece? hpiece)
  case h_2 => contradiction

end DdlBridge
