import DdlBridge.Proofs.Statement.Lexeme

/-!
# Nesting of procedural bodies

A body holds items that end in `;` (`Nested`). A reader who follows its nesting has something open
wherever a word or a `;` settles what is open (`Nested.reaches`).
-/

namespace DdlBridge.Statement

open Scanner

/-! ### What is known of a front part -/

/-- What is known behind the front part of a statement. -/
structure Context where
  /-- Open blocks and `CASE` expressions. -/
  depth : Nat := 0
  /-- The last word is an `END` behind which no `;` stands. -/
  undecided : Bool := false
  /-- Open parentheses. -/
  parens : Nat := 0
  /-- The last lexeme that is no gap. -/
  last : Option Lexeme := none
  /-- The current line without gaps; none if a literal touches it. -/
  line : Option (List Char) := some []

namespace Context

/-- What is open once an undecided `END` has closed something. -/
def settled (c : Context) : Nat := if c.undecided then c.depth - 1 else c.depth

/-- Lets a word open or close something. -/
def nest (c : Context) (w : String) : Context :=
  if c.undecided = true ∧ w ∈ endSuffixes then { c with undecided := false }
  else
    { c with
      depth := if w = "BEGIN" ∨ w = "CASE" then c.settled + 1 else c.settled
      undecided := w == "END" }

@[simp] theorem parens_nest (c : Context) (w : String) : (c.nest w).parens = c.parens := by
  unfold nest
  split
  all_goals rfl

def step (c : Context) (l : Lexeme) : Context :=
  match l with
  | .blank ch => if ch = '\n' then { c with line := some [] } else c
  | .lineComment _ _ => c
  | .blockComment body => if '\n' ∈ body then { c with line := some [] } else c
  | .word cs => { c.nest l.keyword with last := some l, line := c.line.map (· ++ cs) }
  | .punct ch =>
    { c with
      depth := if ch = ';' then c.settled else c.depth
      undecided := ch != ';' && c.undecided
      parens := if ch = '(' then c.parens + 1 else if ch = ')' then c.parens - 1 else c.parens
      last := some l
      line := c.line.map (· ++ [ch]) }
  | .quoted _ _ | .dollar _ _ => { c with last := some l, line := none }

def after (c : Context) (ls : List Lexeme) : Context := ls.foldl step c

theorem after_cons (c : Context) (l : Lexeme) (ls : List Lexeme) :
    c.after (l :: ls) = (c.step l).after ls := rfl

theorem after_append (c : Context) (ls ls' : List Lexeme) :
    c.after (ls ++ ls') = (c.after ls).after ls' := List.foldl_append

/-- `k` blocks and `CASE` expressions are open, and perhaps an `END` is undecided. -/
structure At (c : Context) (k : Nat) (undecided : Bool) : Prop where
  depth : c.depth = k
  undecided : c.undecided = undecided

variable {c : Context} {k : Nat} {u : Bool}

theorem At.settled (h : c.At k false) : c.settled = k := by
  rw [Context.settled, h.undecided, if_neg (by simp), h.depth]

theorem At.settled_undecided (h : c.At k true) : c.settled = k - 1 := by
  rw [Context.settled, h.undecided, if_pos rfl, h.depth]

end Context

/-! ### Steps by kind of lexeme -/

/-- Words that open, close or name a block. -/
def blockWords : List String := ["BEGIN", "CASE", "END", "IF", "LOOP", "WHILE", "REPEAT"]

namespace Lexeme

def IsPlain (l : Lexeme) : Prop := l ≠ .punct ';' ∧ l.keyword ∉ blockWords

instance : DecidablePred IsPlain := fun l => inferInstanceAs (Decidable (_ ∧ l.keyword ∉ blockWords))

/-- Whether the lexeme settles what an `END` before it closes. -/
def settles : Lexeme → Bool
  | word _ => true
  | punct c => c == ';'
  | _ => false

theorem exists_word_of_keyword {l : Lexeme} {w : String} (h : l.keyword = w) (hw : w ≠ "") :
    ∃ cs, cs ≠ [] ∧ l = .word cs := by
  cases l with
  | word cs =>
    refine ⟨cs, ?_, rfl⟩
    rintro rfl
    exact hw h.symm
  | _ => exact absurd h.symm hw

theorem ne_semicolon_of_keyword {l : Lexeme} {w : String} (h : l.keyword = w) (hw : w ≠ "") :
    l ≠ .punct ';' := by
  rintro rfl
  exact hw h.symm

theorem IsPlain.ne {l : Lexeme} (hl : l.IsPlain) {w : String} (hw : w ∈ blockWords) :
    l.keyword ≠ w := by
  intro heq
  exact hl.2 (heq ▸ hw)

theorem mem_blockWords_of_mem {w : String} (hw : w ∈ endSuffixes) : w ∈ blockWords :=
  List.mem_of_mem_drop (i := 3) hw

theorem settles_of_isGap {l : Lexeme} (hl : l.isGap = true) : l.settles = false := by
  cases l with
  | blank | lineComment | blockComment => rfl
  | word | punct | quoted | dollar => exact absurd hl (by simp [isGap])

end Lexeme

namespace Context

variable {c : Context} {l : Lexeme} {k : Nat} {u : Bool}

theorem At.of_not_settles (h : c.At k u) (hl : l.settles = false) : (c.step l).At k u := by
  cases l with
  | blank | blockComment =>
    dsimp only [step]
    split
    · exact ⟨h.depth, h.undecided⟩
    · exact h
  | lineComment => exact h
  | punct ch =>
    have hch : ch ≠ ';' := fun heq => absurd hl (by simp [Lexeme.settles, heq])
    refine ⟨(if_neg hch).trans h.depth, ?_⟩
    simp [step, hch, h.undecided]
  | quoted | dollar => exact ⟨h.depth, h.undecided⟩
  | word => exact absurd hl (by simp [Lexeme.settles])

theorem at_semicolon (c : Context) : (c.step (.punct ';')).At c.settled false := ⟨rfl, rfl⟩

theorem at_word (cs : List Char)
    (hsuffix : ¬ (c.undecided = true ∧ (Lexeme.word cs).keyword ∈ endSuffixes)) :
    (c.step (.word cs)).At
      (if (Lexeme.word cs).keyword = "BEGIN" ∨ (Lexeme.word cs).keyword = "CASE" then c.settled + 1
        else c.settled)
      ((Lexeme.word cs).keyword == "END") := by
  rw [step, nest, if_neg hsuffix]
  exact ⟨rfl, rfl⟩

theorem at_opening (hl : l.keyword = "BEGIN" ∨ l.keyword = "CASE") :
    (c.step l).At (c.settled + 1) false := by
  obtain ⟨cs, -, rfl⟩ : ∃ cs, cs ≠ [] ∧ l = .word cs := by
    rcases hl with h | h
    · exact Lexeme.exists_word_of_keyword h (by decide)
    · exact Lexeme.exists_word_of_keyword h (by decide)
  have hword := at_word (c := c) cs (by rcases hl with h | h <;> rw [h] <;> simp [endSuffixes])
  rw [if_pos hl] at hword
  refine ⟨hword.depth, hword.undecided.trans ?_⟩
  rcases hl with h | h <;> rw [h] <;> decide

theorem at_end (hl : l.keyword = "END") : (c.step l).At c.settled true := by
  obtain ⟨cs, -, rfl⟩ := Lexeme.exists_word_of_keyword hl (by decide)
  have hword := at_word (c := c) cs (by rw [hl]; simp [endSuffixes])
  rw [hl] at hword
  exact hword

/-- `IF` settles that no block was closed, or opens none. -/
theorem At.if (h : c.At k u) (hl : l.keyword = "IF") : (c.step l).At k false := by
  obtain ⟨cs, -, rfl⟩ := Lexeme.exists_word_of_keyword hl (by decide)
  cases u with
  | true =>
    rw [step, nest, if_pos ⟨h.undecided, by rw [hl]; decide⟩]
    exact ⟨h.depth, rfl⟩
  | false =>
    have hword := at_word (c := c) cs (by simp [h.undecided])
    rw [hl, h.settled] at hword
    exact hword

theorem at_plain {cs : List Char} (hl : (Lexeme.word cs).IsPlain) :
    (c.step (.word cs)).At c.settled false := by
  have hword := at_word (c := c) cs fun h => hl.2 (Lexeme.mem_blockWords_of_mem h.2)
  rw [if_neg (not_or.2 ⟨hl.ne (by decide), hl.ne (by decide)⟩)] at hword
  exact ⟨hword.depth, hword.undecided.trans (beq_eq_false_iff_ne.2 (hl.ne (by decide)))⟩

theorem settled_eq {c' : Context} (h : c'.At c.depth c.undecided) : c'.settled = c.settled := by
  rw [settled, settled, h.depth, h.undecided]

theorem settled_plain (hl : l.IsPlain) : (c.step l).settled = c.settled := by
  cases hsettles : l.settles with
  | false => exact settled_eq (At.of_not_settles ⟨rfl, rfl⟩ hsettles)
  | true =>
    cases l with
    | word cs => exact (at_plain hl).settled
    | punct ch =>
      have hch : ch = ';' := by simpa [Lexeme.settles] using hsettles
      exact absurd (congrArg _ hch) hl.1
    | _ => exact absurd hsettles (by simp [Lexeme.settles])

theorem At.plain (h : c.At k false) (hl : l.IsPlain) : (c.step l).At k false := by
  cases hsettles : l.settles with
  | false => exact h.of_not_settles hsettles
  | true =>
    cases l with
    | word cs =>
      have hword := at_plain (c := c) hl
      rwa [h.settled] at hword
    | punct ch =>
      have hch : ch = ';' := by simpa [Lexeme.settles] using hsettles
      exact absurd (congrArg _ hch) hl.1
    | _ => exact absurd hsettles (by simp [Lexeme.settles])

end Context

/-! ### Reading on -/

/-- Somewhere in the lexemes behind `c` the reader meets one of which `P` holds. -/
def Meets (P : Context → Lexeme → Prop) (c : Context) (ls : List Lexeme) : Prop :=
  ∃ front l rest, ls = front ++ l :: rest ∧ P (c.after front) l

variable {P : Context → Lexeme → Prop}

theorem not_meets_nil (P : Context → Lexeme → Prop) (c : Context) : ¬ Meets P c [] := by
  rintro ⟨front, l, rest, hparts, -⟩
  simp at hparts

theorem meets_cons (c : Context) (l : Lexeme) (ls : List Lexeme) :
    Meets P c (l :: ls) ↔ P c l ∨ Meets P (c.step l) ls := by
  constructor
  · rintro ⟨front, l', rest, hparts, h⟩
    cases front with
    | nil =>
      obtain ⟨rfl, rfl⟩ := List.cons.inj hparts
      exact .inl h
    | cons l'' front =>
      obtain ⟨rfl, hrest⟩ := List.cons.inj hparts
      exact .inr ⟨front, l', rest, hrest, h⟩
  · rintro (h | ⟨front, l', rest, rfl, h⟩)
    · exact ⟨[], l, ls, rfl, h⟩
    · exact ⟨l :: front, l', rest, rfl, h⟩

instance Meets.decidable [∀ c l, Decidable (P c l)] (c : Context) :
    (ls : List Lexeme) → Decidable (Meets P c ls)
  | [] => .isFalse (not_meets_nil P c)
  | l :: ls =>
    have := Meets.decidable (c.step l) ls
    decidable_of_iff _ (meets_cons c l ls).symm

theorem meets_append (c : Context) (ls ls' : List Lexeme) :
    Meets P c (ls ++ ls') ↔ Meets P c ls ∨ Meets P (c.after ls) ls' := by
  induction ls generalizing c with
  | nil => exact ⟨.inr, fun h => h.resolve_left (not_meets_nil P c)⟩
  | cons l ls ih => rw [List.cons_append, meets_cons, meets_cons, ih, Context.after_cons, or_assoc]

theorem not_meets_of_forall {c : Context} {ls : List Lexeme} (h : ∀ l ∈ ls, ∀ c, ¬ P c l) :
    ¬ Meets P c ls := by
  rintro ⟨front, l, rest, rfl, hl⟩
  exact h l (by simp) _ hl

/-- A lexeme that settles what is open where nothing is. -/
structure Bare (c : Context) (l : Lexeme) : Prop where
  settles : l.settles = true
  keeps : ¬ (c.undecided = true ∧ l.keyword ∈ endSuffixes)
  settled : c.settled = 0

/-- From `c` to `c'` something is open wherever it is settled what is open. -/
structure Reaches (c : Context) (ls : List Lexeme) (c' : Context) : Prop where
  after : c.after ls = c'
  inside : ¬ Meets Bare c ls

namespace Reaches

theorem nil (c : Context) : Reaches c [] c := ⟨rfl, not_meets_nil Bare c⟩

theorem cons {c c' : Context} {l : Lexeme} {ls : List Lexeme} (hl : ¬ Bare c l)
    (h : Reaches (c.step l) ls c') : Reaches c (l :: ls) c' := by
  refine ⟨h.after, ?_⟩
  rw [meets_cons]
  exact not_or.2 ⟨hl, h.inside⟩

theorem append {c c' c'' : Context} {ls ls' : List Lexeme} (h : Reaches c ls c')
    (h' : Reaches c' ls' c'') : Reaches c (ls ++ ls') c'' := by
  obtain ⟨rfl, hinside⟩ := h
  refine ⟨(Context.after_append c ls ls').trans h'.after, ?_⟩
  rw [meets_append]
  exact not_or.2 ⟨hinside, h'.inside⟩

end Reaches

theorem not_bare_of_settled {c : Context} (h : c.settled ≠ 0) (l : Lexeme) : ¬ Bare c l :=
  fun hbare => h hbare.settled

/-- White space and comments. -/
def Gap (ls : List Lexeme) : Prop := ∀ l ∈ ls, l.isGap = true

instance : DecidablePred Gap := fun ls => inferInstanceAs (Decidable (∀ l ∈ ls, l.isGap = true))

theorem gap_nil : Gap [] := List.forall_mem_nil _

theorem Gap.reaches {ls : List Lexeme} (h : Gap ls) {c : Context} {k : Nat} {u : Bool}
    (hc : c.At k u) : ∃ c', Reaches c ls c' ∧ c'.At k u := by
  induction ls generalizing c with
  | nil => exact ⟨c, .nil c, hc⟩
  | cons l ls ih =>
    have hsettles := Lexeme.settles_of_isGap (h l List.mem_cons_self)
    obtain ⟨c', hreach, hc'⟩ := ih (fun l' hmem => h l' (List.mem_cons_of_mem _ hmem))
      (hc.of_not_settles hsettles)
    refine ⟨c', .cons (fun hbare => ?_) hreach, hc'⟩
    exact absurd hbare.settles (by rw [hsettles]; simp)

/-! ### Bodies -/

/-- Plain lexemes and `CASE … END` expressions. -/
inductive Run : List Lexeme → Prop where
  | nil : Run []
  | plain {l : Lexeme} {ls : List Lexeme} (hl : l.IsPlain) (h : Run ls) : Run (l :: ls)
  | case {opening closing : Lexeme} {inner ls : List Lexeme} (hopening : opening.keyword = "CASE")
      (hinner : Run inner) (hclosing : closing.keyword = "END") (h : Run ls) :
      Run (opening :: (inner ++ closing :: ls))

theorem Run.of_plain {front ls : List Lexeme} (hfront : ∀ l ∈ front, l.IsPlain) (h : Run ls) :
    Run (front ++ ls) := by
  induction front with
  | nil => exact h
  | cons l front ih =>
    obtain ⟨hl, hfront⟩ := List.forall_mem_cons.1 hfront
    exact .plain hl (ih hfront)

/-- An item of a body, or all that stands in one. -/
inductive Part where
  | item
  | items

/-- Procedural code. Between its items, each of which a `;` ends, plain lexemes may stand: white space
and comments, a label, `ELSE`. -/
inductive Nested : Part → List Lexeme → Prop where
  | run {ls : List Lexeme} (h : Run ls) : Nested .item ls
  /-- `IF … END IF` without statements of its own. -/
  | short {opening closing kind : Lexeme} {run gap gap' : List Lexeme} (hopening : opening.keyword = "IF")
      (hrun : Run run) (hclosing : closing.keyword = "END") (hgap : Gap gap) (hkind : kind.keyword = "IF")
      (hgap' : Gap gap') : Nested .item (opening :: (run ++ closing :: (gap ++ kind :: gap')))
  /-- `IF … THEN … END IF` -/
  | conditional {opening closing kind : Lexeme} {inner gap gap' : List Lexeme}
      (hopening : opening.keyword = "IF") (hinner : Nested .items inner) (hclosing : closing.keyword = "END")
      (hgap : Gap gap) (hkind : kind.keyword = "IF") (hgap' : Gap gap') :
      Nested .item (opening :: (inner ++ closing :: (gap ++ kind :: gap')))
  | block {opening closing : Lexeme} {inner gap : List Lexeme} (hopening : opening.keyword = "BEGIN")
      (hinner : Nested .items inner) (hclosing : closing.keyword = "END") (hgap : Gap gap) :
      Nested .item (opening :: (inner ++ closing :: gap))
  | nil : Nested .items []
  | plain {l : Lexeme} {ls : List Lexeme} (hl : l.IsPlain) (h : Nested .items ls) : Nested .items (l :: ls)
  | words {cs : List Char} {run ls : List Lexeme} (hrun : Run run) (hword : (Lexeme.word cs).IsPlain)
      (h : Nested .items ls) : Nested .items (run ++ .word cs :: ls)
  | item {item ls : List Lexeme} (hitem : Nested .item item) (h : Nested .items ls) :
      Nested .items (item ++ .punct ';' :: ls)

theorem Run.not_mem_semicolon {ls : List Lexeme} (h : Run ls) : .punct ';' ∉ ls := by
  have hword : ∀ {l : Lexeme} {w : String}, l.keyword = w → w ≠ "" → .punct ';' ≠ l := by
    rintro l w hl hw rfl
    exact hw hl.symm
  induction h with
  | nil => exact List.not_mem_nil
  | plain hl _ ih =>
    intro hmem
    rcases List.mem_cons.1 hmem with rfl | hmem
    · exact hl.1 rfl
    · exact ih hmem
  | case hopening _ hclosing _ ihinner ih =>
    intro hmem
    rcases List.mem_cons.1 hmem with heq | hmem
    · exact hword hopening (by decide) heq
    rcases List.mem_append.1 hmem with hmem | hmem
    · exact ihinner hmem
    rcases List.mem_cons.1 hmem with heq | hmem
    · exact hword hclosing (by decide) heq
    · exact ih hmem

theorem Run.reaches {ls : List Lexeme} (h : Run ls) {c : Context} (hc : c.settled ≠ 0) :
    ∃ c', Reaches c ls c' ∧ c'.settled = c.settled := by
  induction h generalizing c with
  | nil => exact ⟨c, .nil c, rfl⟩
  | @plain l ls hl _ ih =>
    have hstep := Context.settled_plain (c := c) hl
    obtain ⟨c', hreach, hc'⟩ := ih (c := c.step l) (by rwa [hstep])
    exact ⟨c', .cons (not_bare_of_settled hc l) hreach, hc'.trans hstep⟩
  | @case opening closing inner ls hopening _ hclosing _ ihinner ih =>
    have hopened := Context.at_opening (c := c) (.inr hopening)
    obtain ⟨d, hinner, hd⟩ := ihinner (c := c.step opening) (by rw [hopened.settled]; omega)
    rw [hopened.settled] at hd
    have hclosed := Context.at_end (c := d) hclosing
    have hback : (d.step closing).settled = c.settled := by
      rw [Context.settled, hclosed.undecided, if_pos rfl, hclosed.depth, hd]
      omega
    obtain ⟨c', hrest, hc'⟩ := ih (c := d.step closing) (by rwa [hback])
    refine ⟨c', .cons (not_bare_of_settled hc _) (hinner.append (.cons ?_ hrest)), hc'.trans hback⟩
    exact not_bare_of_settled (by rw [hd]; omega) _

variable {k : Nat}

/-- The `;` of an item keeps what is open around it. -/
theorem reaches_semicolon {c : Context} (hc : c.settled = k + 1) :
    Reaches c [.punct ';'] (c.step (.punct ';')) ∧ (c.step (.punct ';')).At (k + 1) false :=
  ⟨.cons (not_bare_of_settled (by omega) _) (.nil _), hc ▸ Context.at_semicolon c⟩

theorem reaches_endIf {closing kind : Lexeme} {gap gap' : List Lexeme}
    (hclosing : closing.keyword = "END") (hgap : Gap gap) (hkind : kind.keyword = "IF")
    (hgap' : Gap gap') {c : Context} (hc : c.settled = k + 1) :
    ∃ c', Reaches c (closing :: (gap ++ kind :: gap')) c' ∧ c'.settled = k + 1 := by
  have hend := Context.at_end (c := c) hclosing
  rw [hc] at hend
  obtain ⟨d, hd, hdat⟩ := hgap.reaches hend
  have hkept : ¬ Bare d kind := fun hbare =>
    hbare.keeps ⟨hdat.undecided, by rw [hkind]; decide⟩
  obtain ⟨e, he, heat⟩ := hgap'.reaches (hdat.if hkind)
  exact ⟨e, .cons (not_bare_of_settled (by omega) _) (hd.append (.cons hkept he)), heat.settled⟩

/-- What is open behind a part when `k` things are open before it. -/
def Part.Keeps (k : Nat) (c : Context) : Part → Prop
  | .item => c.settled = k
  | .items => c.At k false

/-- Behind procedural code what was open before it is open again. -/
theorem Nested.reaches {part : Part} {ls : List Lexeme} (h : Nested part ls) {c : Context}
    (hc : c.At (k + 1) false) : ∃ c', Reaches c ls c' ∧ part.Keeps (k + 1) c' := by
  induction h generalizing c k with
  | run h =>
    obtain ⟨c', hreach, hc'⟩ := h.reaches (c := c) (by rw [hc.settled]; omega)
    exact ⟨c', hreach, hc'.trans hc.settled⟩
  | @short opening _ _ _ _ _ hopening hrun hclosing hgap hkind hgap' =>
    have hif := hc.if hopening
    obtain ⟨d, hd, hdsettled⟩ := hrun.reaches (c := c.step opening) (by rw [hif.settled]; omega)
    obtain ⟨e, he, hesettled⟩ := reaches_endIf hclosing hgap hkind hgap' (hdsettled.trans hif.settled)
    exact ⟨e, .cons (not_bare_of_settled (by rw [hc.settled]; omega) _) (hd.append he), hesettled⟩
  | conditional hopening _ hclosing hgap hkind hgap' ih =>
    obtain ⟨d, hd, hdat⟩ := ih (hc.if hopening)
    obtain ⟨e, he, hesettled⟩ := reaches_endIf hclosing hgap hkind hgap' (Context.At.settled hdat)
    exact ⟨e, .cons (not_bare_of_settled (by rw [hc.settled]; omega) _) (hd.append he), hesettled⟩
  | block hopening _ hclosing hgap ih =>
    have hopened := Context.at_opening (c := c) (.inl hopening)
    rw [hc.settled] at hopened
    obtain ⟨d, hd, hdat⟩ := ih hopened
    have hdsettled := Context.At.settled hdat
    have hend := Context.at_end (c := d) hclosing
    rw [hdsettled] at hend
    obtain ⟨e, he, heat⟩ := hgap.reaches hend
    refine ⟨e, .cons (not_bare_of_settled (by rw [hc.settled]; omega) _) (hd.append (.cons ?_ he)),
      heat.settled_undecided⟩
    exact not_bare_of_settled (by omega) _
  | nil => exact ⟨c, .nil c, hc⟩
  | plain hl _ ih =>
    obtain ⟨c', hreach, hc'⟩ := ih (hc.plain hl)
    exact ⟨c', .cons (not_bare_of_settled (by rw [hc.settled]; omega) _) hreach, hc'⟩
  | words hrun hword _ ih =>
    obtain ⟨d, hd, hdsettled⟩ := hrun.reaches (c := c) (by rw [hc.settled]; omega)
    rw [hc.settled] at hdsettled
    have hplain := Context.at_plain (c := d) hword
    rw [hdsettled] at hplain
    obtain ⟨c', hreach, hc'⟩ := ih hplain
    exact ⟨c', hd.append (.cons (not_bare_of_settled (by omega) _) hreach), hc'⟩
  | item _ _ ihitem ih =>
    obtain ⟨d, hd, hdsettled⟩ := ihitem hc
    obtain ⟨hlast, hlastAt⟩ := reaches_semicolon hdsettled
    obtain ⟨c', hreach, hc'⟩ := ih hlastAt
    exact ⟨c', hd.append (hlast.append hreach), hc'⟩

/-- The last `;` of the items ends one of them, not one inside it. -/
theorem Nested.last_semicolon {ls : List Lexeme} (h : Nested .items ls) (hmem : .punct ';' ∈ ls) :
    ∃ front tail, ls = front ++ .punct ';' :: tail ∧ .punct ';' ∉ tail ∧
      ∀ c : Context, c.At (k + 1) false → ∃ c', Reaches c front c' ∧ c'.settled = k + 1 := by
  generalize hpart : Part.items = part at h
  induction h generalizing k with
  | run | short | conditional | block => exact absurd hpart (by simp)
  | nil => exact absurd hmem List.not_mem_nil
  | @plain l ls hl _ ih =>
    have hmem : .punct ';' ∈ ls := (List.mem_cons.1 hmem).resolve_left fun heq => hl.1 heq.symm
    obtain ⟨front, tail, rfl, htail, hfront⟩ := ih hmem rfl
    refine ⟨l :: front, tail, rfl, htail, fun c hc => ?_⟩
    obtain ⟨c', hreach, hc'⟩ := hfront _ (hc.plain hl)
    exact ⟨c', .cons (not_bare_of_settled (by rw [hc.settled]; omega) _) hreach, hc'⟩
  | @words cs run ls hrun hword _ ih =>
    have hmem : .punct ';' ∈ ls := by
      rcases List.mem_append.1 hmem with hmem | hmem
      · exact absurd hmem hrun.not_mem_semicolon
      · exact (List.mem_cons.1 hmem).resolve_left (by simp)
    obtain ⟨front, tail, rfl, htail, hfront⟩ := ih hmem rfl
    refine ⟨run ++ .word cs :: front, tail, by simp, htail, fun c hc => ?_⟩
    obtain ⟨d, hd, hdsettled⟩ := hrun.reaches (c := c) (by rw [hc.settled]; omega)
    rw [hc.settled] at hdsettled
    have hplain := Context.at_plain (c := d) hword
    rw [hdsettled] at hplain
    obtain ⟨c', hreach, hc'⟩ := hfront _ hplain
    exact ⟨c', hd.append (.cons (not_bare_of_settled (by omega) _) hreach), hc'⟩
  | @item item ls hitem _ _ ih =>
    by_cases hlater : .punct ';' ∈ ls
    · obtain ⟨front, tail, rfl, htail, hfront⟩ := ih hlater rfl
      refine ⟨item ++ .punct ';' :: front, tail, by simp, htail, fun c hc => ?_⟩
      obtain ⟨d, hd, hdsettled⟩ := hitem.reaches hc
      obtain ⟨hlast, hlastAt⟩ := reaches_semicolon hdsettled
      obtain ⟨c', hreach, hc'⟩ := hfront _ hlastAt
      exact ⟨c', hd.append (hlast.append hreach), hc'⟩
    · exact ⟨item, ls, rfl, hlater, fun c hc => hitem.reaches hc⟩

end DdlBridge.Statement
