import DdlBridge.Proofs.Statement.Split
import DdlBridge.Proofs.Statement.Word
import DdlBridge.Token.Lexer

/-!
# Lines that end a statement by themselves

Apart from white space and comments, such a line holds `/` or `GO` and nothing else
(`exists_of_cutsAt_newline`). Read by the lexer, it starts with the token `/` or with a word that is
at most `GO`.
-/

namespace DdlBridge.Statement

open Scanner Text

variable {rules : LexicalRules}

/-! ### Lines that cannot end a statement -/

/-- The front part of a line that no rest of it completes to a line that ends a statement. -/
def Blocked (base : List Char) (quoted : Bool) : Prop :=
  quoted = true ∨ ∀ front, front ++ base ≠ ['/'] ∧ upper (front ++ base).reverse ≠ ['G', 'O']

theorem isTerminatorLine_of_blocked {s : Scanner} {base : List Char} {quoted last : Bool}
    (h : Blocked base quoted) : (s.onLine base quoted last).isTerminatorLine = false := by
  rcases h with rfl | h
  · simp only [isTerminatorLine, onLine, Bool.or_true, Bool.not_true, Bool.false_and]
  · have hslash : (s.line ++ base == ['/']) = false := beq_eq_false_iff_ne.2 (h s.line).1
    have hgo : (upper (s.line ++ base).reverse == ['G', 'O']) = false :=
      beq_eq_false_iff_ne.2 (h s.line).2
    simp only [isTerminatorLine, onLine, hslash, hgo, Bool.and_false, Bool.or_self]

theorem toUpper_eq_iff {c small capital : Char} (hsmall : small.toUpper = capital)
    (hne : small ≠ capital) (hcapital : capital.toUpper = capital) :
    c.toUpper = capital ↔ c = small ∨ c = capital := by
  constructor
  · intro h
    rw [← hsmall] at h hne
    unfold Char.toUpper at h hne
    split at h
    case isTrue =>
      split at h
      case isTrue =>
        have hval := congrArg (fun d : Char => d.val - ('A'.val - 'a'.val)) h
        simp only [UInt32.add_sub_cancel] at hval
        exact .inl (Char.ext hval)
      case isFalse hlower =>
        rw [dif_neg hlower] at hne
        exact absurd rfl hne
    case isFalse =>
      rw [← hsmall]
      exact .inr h
  · rintro (rfl | rfl)
    · exact hsmall
    · exact hcapital

theorem toUpper_eq_G_iff {c : Char} : c.toUpper = 'G' ↔ c = 'g' ∨ c = 'G' :=
  toUpper_eq_iff (by decide) (by decide) (by decide)

theorem toUpper_eq_O_iff {c : Char} : c.toUpper = 'O' ↔ c = 'o' ∨ c = 'O' :=
  toUpper_eq_iff (by decide) (by decide) (by decide)

theorem Blocked.append {base : List Char} {quoted : Bool} (h : Blocked base quoted)
    (more : List Char) : Blocked (more ++ base) quoted :=
  h.imp_right fun hnot front => by
    rw [← List.append_assoc]
    exact hnot (front ++ more)

theorem blocked_singleton {c : Char} (hslash : c ≠ '/') (hg : c.toUpper ≠ 'G') (quoted : Bool) :
    Blocked [c] quoted := by
  refine .inr fun front => ⟨fun heq => ?_, fun heq => ?_⟩
  · have hlast := congrArg List.getLast? heq
    simp at hlast
    exact hslash hlast
  · rw [List.reverse_append] at heq
    exact hg (List.cons.inj heq).1

theorem blocked_pair {c d : Char} (hd : d.toUpper ≠ 'O') (quoted : Bool) : Blocked [d, c] quoted := by
  refine .inr fun front => ⟨fun heq => ?_, fun heq => ?_⟩
  · have hlength := congrArg List.length heq
    simp at hlength
  · rw [List.reverse_append] at heq
    exact hd (List.cons.inj (List.cons.inj heq).2).1

theorem blocked_of_length {base : List Char} (h : 2 < base.length) (quoted : Bool) :
    Blocked base quoted := by
  refine .inr fun front => ⟨fun heq => ?_, fun heq => ?_⟩
  · have hlength := congrArg List.length heq
    simp at hlength
    omega
  · have hlength := congrArg List.length heq
    simp [upper] at hlength
    omega

/-- The scanner behind more text. -/
def readOn (s : Scanner) (cs : List Char) : Scanner := cs.foldl (fun s c => (feedChar s c).1) s

theorem after_append_eq (rules : LexicalRules) (front rest : List Char) :
    after rules (front ++ rest) = readOn (after rules front) rest := by
  rw [after, List.foldl_append]
  rfl

theorem readOn_cons {s t : Scanner} {c : Char} {cut : Bool} (h : feedChar s c = (t, cut))
    (cs : List Char) : readOn s (c :: cs) = readOn t cs := by
  rw [readOn, List.foldl_cons, h]
  rfl

/-- A character of ASCII is one byte. -/
theorem readOn_cons_of_lt (s : Scanner) {c : Char} (hc : c.toNat < 128) (cs : List Char) :
    readOn s (c :: cs) = readOn (s.step c).1 cs :=
  readOn_cons (feedChar_of_lt s hc) cs

theorem sound_readOn {s : Scanner} (hsound : s.Sound) (cs : List Char) : (readOn s cs).Sound := by
  induction cs generalizing s with
  | nil => exact hsound
  | cons c cs ih => exact ih (sound_feedChar hsound c)

theorem readOn_onLine {s : Scanner} (hsound : s.Sound) {cs : List Char} (hcs : '\n' ∉ cs)
    (base : List Char) (quoted last : Bool) :
    ∃ last', readOn (s.onLine base quoted last) cs = (readOn s cs).onLine base quoted last' := by
  induction cs generalizing s last with
  | nil => exact ⟨last, rfl⟩
  | cons c cs ih =>
    have hc : c ≠ '\n' := fun heq => hcs (heq ▸ List.mem_cons_self)
    have hfeed := feedChar_onLine hsound hc base quoted last
    obtain ⟨last', hrest⟩ := ih (sound_feedChar hsound c)
      (fun hmem => hcs (List.mem_cons_of_mem _ hmem))
      (if (feedChar s c).2 then (feedChar s c).1.lastContent else last)
    exact ⟨last', (readOn_cons hfeed cs).trans hrest⟩

theorem step_newline_blocked {s : Scanner} (hsound : s.Sound) {base : List Char} {quoted : Bool}
    (h : Blocked base quoted) (last : Bool) : ((s.onLine base quoted last).step '\n').2 = false := by
  cases step_newline hsound with
  | ends t hregion hword hrules hlast hstep =>
    rw [hstep, endLine, isTerminatorLine_of_blocked h]
    rfl
  | drops t hlast hstep => rw [hstep]
  | escapes t hescape hlast hstep => rw [hstep]

/-- What is on the line already keeps it from ending a statement. -/
theorem not_cut_of_blocked {s : Scanner} (hsound : s.Sound)
    (hregion : s.region ≠ .dash ∧ s.region ≠ .slash) (h : Blocked s.line s.lineQuoted)
    {cs : List Char} (hcs : '\n' ∉ cs) : (feedChar (readOn s cs) '\n').2 = false := by
  have hbare : Sound { s with line := [], lineQuoted := false } := by
    refine ⟨?_, hsound.closing, hsound.escape, hsound.word⟩
    rintro (hdash | hslash)
    · exact absurd hdash hregion.1
    · exact absurd hslash hregion.2
  have hover : s = Scanner.onLine { s with line := [], lineQuoted := false } s.line s.lineQuoted
      s.lastContent := rfl
  obtain ⟨last, hread⟩ := readOn_onLine hbare hcs s.line s.lineQuoted s.lastContent
  rw [← hover] at hread
  rw [hread, feedChar_of_lt _ (by decide)]
  exact step_newline_blocked (sound_readOn hbare cs) h last

/-- Neither does a line in which a statement has ended before. -/
theorem not_cut_behind_semicolon {s : Scanner} (hsound : s.Sound) {front rest : List Char} {c : Char}
    (hcut : (feedChar (readOn s front) c).2 = true) (hc : c ≠ '\n') (hrest : '\n' ∉ rest) :
    (feedChar (readOn s (front ++ c :: rest)) '\n').2 = false := by
  have hrestart := feedChar_restarts (sound_readOn hsound front) hcut
  have hread : readOn s (front ++ c :: rest) = readOn (feedChar (readOn s front) c).1 rest := by
    rw [readOn, List.foldl_append]
    rfl
  rw [hread]
  rcases hrestart with ⟨rfl, line, quoted, last, heq⟩ | ⟨h, -⟩
  · have hblock : Blocked (';' :: line) quoted := by
      refine .inr fun front => ⟨fun heq => ?_, fun heq => ?_⟩
      · have hmem : ';' ∈ front ++ ';' :: line := List.mem_append_right _ List.mem_cons_self
        rw [heq] at hmem
        exact absurd hmem (by decide)
      · have hmem : ';'.toUpper ∈ upper (front ++ ';' :: line).reverse :=
          List.mem_map_of_mem (List.mem_reverse.2 (List.mem_append_right _ List.mem_cons_self))
        rw [heq] at hmem
        exact absurd hmem (by decide)
    obtain ⟨last', hover⟩ := readOn_onLine (sound_fresh _) hrest (';' :: line) quoted last
    rw [heq, hover, feedChar_of_lt _ (by decide)]
    exact step_newline_blocked (sound_readOn (sound_fresh _) rest) hblock last'
  · exact absurd h hc

/-- A statement with content that a terminator line ends is known to have had content. -/
theorem lastContent_of_content {s : Scanner} (hsound : s.Sound) (hcontent : s.content = true)
    {cs : List Char} (hcs : '\n' ∉ cs) (hcut : (feedChar (readOn s cs) '\n').2 = true) :
    (feedChar (readOn s cs) '\n').1.lastContent = true := by
  suffices hread : (readOn s cs).content = true by
    have hkept := kept_feedChar (sound_readOn hsound cs) hread '\n'
    rwa [kept, if_pos hcut] at hkept
  suffices hprefix : ∀ front rest, front ++ rest = cs → (readOn s front).content = true from
    hprefix cs [] (List.append_nil _)
  intro front
  induction front using List.reverseRecOn with
  | nil => exact fun _ _ => hcontent
  | append_singleton front c ih =>
    intro rest hparts
    have hparts' : front ++ c :: rest = cs := by rw [← hparts, List.append_assoc]; rfl
    have hnot : (feedChar (readOn s front) c).2 = false := by
      rw [Bool.eq_false_iff]
      intro hbefore
      have hc : c ≠ '\n' := fun heq => hcs (by rw [← hparts', heq]; simp)
      have hrest : '\n' ∉ rest := fun hmem => hcs (by rw [← hparts']; simp [hmem])
      rw [← hparts', not_cut_behind_semicolon hsound hbefore hc hrest] at hcut
      exact absurd hcut (by simp)
    have hkept := kept_feedChar (sound_readOn hsound front) (ih (c :: rest) hparts') c
    rw [kept, if_neg (by rw [hnot]; simp)] at hkept
    rw [readOn, List.foldl_append]
    exact hkept

/-! ### Comments -/

/-- Bytes above ASCII that leave the scanner where the first of them brings it. -/
theorem feedChar_of_steps {s t : Scanner} {c : Char} (h : 128 ≤ c.toNat)
    (hfirst : ∀ ch : Char, 128 ≤ ch.toNat → s.step ch = (t, false))
    (hrest : ∀ ch : Char, 128 ≤ ch.toNat → t.step ch = (t, false)) : feedChar s c = (t, false) := by
  have hstay : ∀ bytes : List UInt8, (∀ b ∈ bytes, 128 ≤ b.toNat) →
      bytes.foldl feedByte (t, false) = (t, false) := by
    intro bytes hbytes
    induction bytes with
    | nil => rfl
    | cons b bytes ih =>
      have hb := le_toNat_ofNat_byte (hbytes b List.mem_cons_self)
      have hfeed : feedByte (t, false) b = (t, false) := by
        simp only [feedByte, Scanner.feed, hrest _ hb, Bool.or_self]
      rw [List.foldl_cons, hfeed]
      exact ih fun b' hmem => hbytes b' (List.mem_cons_of_mem _ hmem)
  have hbytes : ∀ b ∈ String.utf8EncodeChar c, 128 ≤ b.toNat := fun b => le_of_mem_utf8EncodeChar h
  cases hencode : String.utf8EncodeChar c with
  | nil => exact absurd hencode String.utf8EncodeChar_ne_nil
  | cons b bytes =>
    rw [hencode] at hbytes
    have hb := le_toNat_ofNat_byte (hbytes b List.mem_cons_self)
    have hfeed : feedByte (s, false) b = (t, false) := by
      simp only [feedByte, Scanner.feed, hfirst _ hb, Bool.or_self]
    rw [feedChar, hencode, List.foldl_cons, hfeed]
    exact hstay bytes fun b' hmem => hbytes b' (List.mem_cons_of_mem _ hmem)

theorem ne_of_le_toNat {c d : Char} (hc : 128 ≤ c.toNat) (hd : d.toNat < 128) : c ≠ d := by
  rintro rfl
  omega

theorem feedChar_lineComment {s : Scanner} (hregion : s.region = .lineComment) {c : Char}
    (hc : c ≠ '\n') : feedChar s c = (s, false) := by
  have hstep : ∀ ch : Char, ch ≠ '\n' → s.step ch = (s, false) := by
    intro ch hch
    simp only [step, hregion]
    rw [if_neg hch]
  rcases Nat.lt_or_ge c.toNat 128 with h | h
  · rw [feedChar_of_lt s h]
    exact hstep c hc
  · exact feedChar_of_steps h (fun ch hch => hstep ch (ne_of_le_toNat hch (by decide)))
      (fun ch hch => hstep ch (ne_of_le_toNat hch (by decide)))

theorem feedChar_blockComment {s : Scanner} (hregion : s.region = .blockComment) {c : Char}
    (hstar : c ≠ '*') (hc : c ≠ '\n') : feedChar s c = (s, false) := by
  have hstep : ∀ ch : Char, ch ≠ '*' → ch ≠ '\n' → s.step ch = (s, false) := by
    intro ch hstar hch
    simp only [step, hregion]
    rw [if_neg hstar, if_neg hch]
  have hwide : ∀ ch : Char, 128 ≤ ch.toNat → s.step ch = (s, false) := fun ch hch =>
    hstep ch (ne_of_le_toNat hch (by decide)) (ne_of_le_toNat hch (by decide))
  rcases Nat.lt_or_ge c.toNat 128 with h | h
  · rw [feedChar_of_lt s h]
    exact hstep c hstar hc
  · exact feedChar_of_steps h hwide hwide

theorem feedChar_blockCommentStar {s : Scanner} (hregion : s.region = .blockCommentStar) {c : Char}
    (hslash : c ≠ '/') (hstar : c ≠ '*') (hc : c ≠ '\n') :
    feedChar s c = ({ s with region := .blockComment }, false) := by
  have hstep : ∀ ch : Char, ch ≠ '/' → ch ≠ '*' → ch ≠ '\n' →
      s.step ch = ({ s with region := .blockComment }, false) := by
    intro ch hslash hstar hch
    simp only [step, hregion]
    rw [if_neg hslash, if_neg hstar, if_neg hch]
  rcases Nat.lt_or_ge c.toNat 128 with h | h
  · rw [feedChar_of_lt s h]
    exact hstep c hslash hstar hc
  · refine feedChar_of_steps h (fun ch hch => hstep ch (ne_of_le_toNat hch (by decide))
      (ne_of_le_toNat hch (by decide)) (ne_of_le_toNat hch (by decide))) fun ch hch => ?_
    simp only [step]
    rw [if_neg (ne_of_le_toNat hch (by decide)), if_neg (ne_of_le_toNat hch (by decide))]

theorem breakOn_cons_of_not {needle : List Char} {c : Char} {cs body rest : List Char}
    (hnot : needle.isPrefixOf (c :: cs) = false) (h : breakOn needle cs = some (body, rest)) :
    breakOn needle (c :: cs) = some (c :: body, rest) := by
  rw [breakOn, if_neg (by rw [hnot]; simp), h]
  rfl

/-- What `breakOn` finds does not depend on what stands behind it. -/
theorem breakOn_append {needle : List Char} {body rest : List Char}
    (h : breakOn needle (body ++ needle ++ rest) = some (body, rest)) (more : List Char) :
    breakOn needle (body ++ needle ++ more) = some (body, more) := by
  induction body with
  | nil =>
    cases needle with
    | nil => cases more <;> rfl
    | cons d needle =>
      have hprefix : (d :: needle).isPrefixOf (d :: (needle ++ more)) = true :=
        List.isPrefixOf_iff_prefix.2 ⟨more, rfl⟩
      rw [List.nil_append, List.cons_append, breakOn, if_pos hprefix, List.length_cons,
        List.drop_succ_cons, List.drop_left]
  | cons c body ih =>
    rw [List.cons_append, List.cons_append, breakOn] at h
    split at h
    case isTrue => exact absurd h (by simp)
    case isFalse hnot =>
      obtain ⟨inner, hinner, hbody⟩ := Taken.behind_eq_some_iff.1 h
      obtain rfl := (List.cons.inj hbody).2
      refine breakOn_cons_of_not ?_ (ih hinner)
      rw [← Bool.not_eq_true, List.isPrefixOf_iff_prefix]
      rw [List.isPrefixOf_iff_prefix] at hnot
      intro hprefix
      refine hnot ?_
      have hshort : needle <+: c :: (body ++ needle) := by
        refine List.prefix_of_prefix_length_le hprefix ?_ (by simp; omega)
        rw [← List.cons_append]
        exact List.prefix_append _ _
      exact hshort.trans (by rw [← List.cons_append]; exact List.prefix_append _ _)

/-- What `breakOn` finds ends at the needle. -/
theorem breakOn_close {needle body rest cs : List Char} (h : breakOn needle cs = some (body, rest)) :
    breakOn needle (body ++ needle) = some (body, []) := by
  rw [breakOn_eq_some h] at h
  have hclosed := breakOn_append h []
  rwa [List.append_nil] at hclosed

theorem isPrefixOf_cons_of_ne {c d : Char} (h : c ≠ d) (needle cs : List Char) :
    (d :: needle).isPrefixOf (c :: cs) = false := by
  rw [List.isPrefixOf_cons_cons, beq_eq_false_iff_ne.2 h.symm, Bool.false_and]

/-- In the text `cs` of a comment, of which `text` is what a search for its end still looks at, the
scanner gets behind what closes the comment or stays in it to the end. `s` stands for the scanner
outside the comment. -/
def Leaves (s : Scanner) (region : Region) (text cs : List Char) : Prop :=
  (∃ body rest, breakOn ['*', '/'] text = some (body, rest) ∧
    readOn { s with region } cs = readOn { s with region := .normal } rest) ∨
  ∃ region', (region' = .blockComment ∨ region' = .blockCommentStar) ∧
    readOn { s with region } cs = { s with region := region' }

theorem Leaves.step {s : Scanner} {region region' : Region} {text text' cs : List Char} {c : Char}
    (h : Leaves s region' text' cs)
    (hfeed : feedChar { s with region } c = ({ s with region := region' }, false))
    (hbreak : ∀ body rest, breakOn ['*', '/'] text' = some (body, rest) →
      ∃ body', breakOn ['*', '/'] text = some (body', rest)) : Leaves s region text (c :: cs) := by
  unfold Leaves
  rw [readOn_cons hfeed]
  refine h.imp_left fun ⟨body, rest, hfound, hrest⟩ => ?_
  obtain ⟨body', hbody⟩ := hbreak body rest hfound
  exact ⟨body', rest, hbody, hrest⟩

/-- Inside a block comment the scanner looks for what closes it. -/
theorem leaves_blockComment (s : Scanner) {cs : List Char} (hcs : '\n' ∉ cs) :
    Leaves s .blockComment cs cs ∧ Leaves s .blockCommentStar ('*' :: cs) cs := by
  induction cs with
  | nil => exact ⟨.inr ⟨_, .inl rfl, rfl⟩, .inr ⟨_, .inr rfl, rfl⟩⟩
  | cons c cs ih =>
    obtain ⟨hinside, hstarred⟩ := ih fun hmem => hcs (List.mem_cons_of_mem _ hmem)
    have hc : c ≠ '\n' := fun heq => hcs (heq ▸ List.mem_cons_self)
    by_cases hstar : c = '*'
    · subst hstar
      refine ⟨hstarred.step (feedChar_of_lt _ (by decide)) fun body _ hfound => ⟨body, hfound⟩,
        hstarred.step (feedChar_of_lt _ (by decide)) fun body _ hfound => ⟨'*' :: body, ?_⟩⟩
      exact breakOn_cons_of_not rfl hfound
    have hbreak : ∀ body rest, breakOn ['*', '/'] cs = some (body, rest) →
        breakOn ['*', '/'] (c :: cs) = some (c :: body, rest) := fun _ _ =>
      breakOn_cons_of_not (isPrefixOf_cons_of_ne hstar _ _)
    refine ⟨hinside.step (feedChar_blockComment rfl hstar hc) fun body rest hfound =>
      ⟨c :: body, hbreak body rest hfound⟩, ?_⟩
    by_cases hslash : c = '/'
    · subst hslash
      exact .inl ⟨[], cs, rfl, readOn_cons_of_lt _ (by decide) cs⟩
    · refine hinside.step (feedChar_blockCommentStar rfl hslash hstar hc) fun body rest hfound =>
        ⟨'*' :: c :: body, breakOn_cons_of_not ?_ (hbreak body rest hfound)⟩
      rw [List.isPrefixOf_cons_cons, isPrefixOf_cons_of_ne hslash, Bool.and_false]

/-! ### What a terminator line holds -/

theorem isTerminatorLine_of_nil {s : Scanner} (hline : s.line = []) : s.isTerminatorLine = false := by
  simp [isTerminatorLine, hline, upper]

theorem not_cut_of_lineComment {s : Scanner} (hregion : s.region = .lineComment)
    (hline : s.line = []) {cs : List Char} (hcs : '\n' ∉ cs) :
    (feedChar (readOn s cs) '\n').2 = false := by
  have hstay : readOn s cs = s := by
    induction cs with
    | nil => rfl
    | cons c cs ih =>
      have hc : c ≠ '\n' := fun heq => hcs (heq ▸ List.mem_cons_self)
      rw [readOn_cons (feedChar_lineComment hregion hc)]
      exact ih fun hmem => hcs (List.mem_cons_of_mem _ hmem)
  rw [hstay, feedChar_of_lt _ (by decide), step, hregion]
  dsimp only
  rw [if_pos rfl, endLine, isTerminatorLine_of_nil (s := { s with region := .normal }) hline]
  rfl

/-- White space and comments. -/
inductive Trivia : List Char → Prop where
  | nil : Trivia []
  | blank {c : Char} {cs : List Char} (hc : isBlank c = true) (hcs : Trivia cs) : Trivia (c :: cs)
  | comment {body cs : List Char} (hbody : breakOn ['*', '/'] (body ++ ['*', '/'] ++ cs) = some (body, cs))
      (hcs : Trivia cs) : Trivia ('/' :: '*' :: (body ++ ['*', '/'] ++ cs))

/-- `c :: rest` is `/` that opens no comment, or a word that is at most `GO`. -/
inductive Opens (c : Char) (rest : List Char) : Prop where
  | slash (hc : c = '/') (hrest : ∀ more, rest ≠ '*' :: more)
  | go (hc : c = 'g' ∨ c = 'G')
      (hrest : rest.takeWhile Lexer.continuesWord ∈ [[], ['o'], ['O']])

theorem isWordByte_of_continuesWord {s : Scanner} (hword : s.word ≠ []) {c : Char}
    (hc : c.toNat < 128) (h : Lexer.continuesWord c = true) : s.isWordByte c = true := by
  have hnot : ¬ 127 < c.toNat := by omega
  simp only [Lexer.continuesWord, isLetterOrNumeral, isLetter, isNumeral, hnot, decide_false,
    Bool.false_and, Bool.or_false, Bool.or_eq_true, beq_iff_eq] at h
  have hempty : s.word.isEmpty = false := by
    rw [← Bool.not_eq_true, List.isEmpty_iff]
    exact hword
  simp only [isWordByte, hempty, Char.isAlphanum, Bool.not_false, Bool.true_and, Bool.or_eq_true,
    beq_iff_eq, decide_eq_true_eq]
  rcases h with (((h | h) | h) | h) | h
  · exact .inl (.inl (.inl (.inl h)))
  · exact .inl (.inl (.inl (.inr h)))
  · exact .inl (.inl (.inr h))
  · exact .inr (.inl h)
  · exact .inr (.inr h)

theorem word_pushWord_ne {s : Scanner} (hword : s.word ≠ []) (bytes : List Char) :
    (pushWord s bytes).word ≠ [] := by
  simp [pushWord, hword]

theorem feedChar_of_continuesWord {s : Scanner} (hregion : s.region = .normal) (hword : s.word ≠ [])
    {c : Char} (hc : Lexer.continuesWord c = true) :
    feedChar s c = (pushWord s (wordBytes c), false) := by
  refine feedChar_word hregion ?_
  rcases Nat.lt_or_ge c.toNat 128 with h | h
  · exact .inr (isWordByte_of_continuesWord hword h hc)
  · exact .inl h

theorem not_blocked_of_cut {s : Scanner} (hregion : s.region = .normal) {cs : List Char}
    (hcs : '\n' ∉ cs) (hcut : (feedChar (readOn s cs) '\n').2 = true) :
    ¬ Blocked s.line s.lineQuoted := by
  intro hblock
  rw [not_cut_of_blocked (.of_normal hregion) (by simp [hregion]) hblock hcs] at hcut
  exact absurd hcut (by simp)

/-- On a line that ends a statement a word of one letter goes on with an `O`. -/
theorem eq_o_of_cut {s : Scanner} (hregion : s.region = .normal) {g d : Char} (hline : s.line = [g])
    {cs : List Char} (hcs : '\n' ∉ cs)
    (hcut : (feedChar (readOn (pushWord s (wordBytes d)) cs) '\n').2 = true) : d = 'o' ∨ d = 'O' := by
  have hopen := not_blocked_of_cut (s := pushWord s (wordBytes d)) hregion hcs hcut
  have hdline : (pushWord s (wordBytes d)).line = (wordBytes d).reverse ++ [g] := by
    rw [pushWord, hline]
  rw [hdline] at hopen
  have hnarrow : d.toNat < 128 := by
    refine Nat.lt_of_not_ge fun hwide => hopen (blocked_of_length ?_ _)
    have hlength := one_lt_length_wordBytes hwide
    rw [List.length_append, List.length_reverse, List.length_singleton]
    omega
  rw [wordBytes_of_lt hnarrow] at hopen
  rw [← toUpper_eq_O_iff]
  exact Decidable.byContradiction fun hne => hopen (blocked_pair hne _)

/-- On a line that ends a statement a word of two letters ends. -/
theorem not_continuesWord_of_cut {s : Scanner} (hregion : s.region = .normal) (hword : s.word ≠ [])
    (hline : s.line.length = 2) {e : Char} {cs : List Char} (hcs : '\n' ∉ cs)
    (hcut : (feedChar (readOn s (e :: cs)) '\n').2 = true) : ¬ Lexer.continuesWord e = true := by
  intro he
  rw [readOn_cons (feedChar_of_continuesWord hregion hword he)] at hcut
  refine not_blocked_of_cut (s := pushWord s (wordBytes e)) hregion hcs hcut (blocked_of_length ?_ _)
  have hpos : 0 < (wordBytes e).length := by
    rw [length_wordBytes]
    exact e.utf8Size_pos
  rw [pushWord, List.length_append, List.length_reverse, hline]
  omega

/-- A line that ends a statement and starts with the letter `G` goes on with an `O` at most. -/
theorem takeWhile_of_cut {s : Scanner} (hregion : s.region = .normal) (hword : s.word ≠ [])
    {g : Char} (hline : s.line = [g]) {cs : List Char} (hcs : '\n' ∉ cs)
    (hcut : (feedChar (readOn s cs) '\n').2 = true) :
    cs.takeWhile Lexer.continuesWord ∈ [[], ['o'], ['O']] := by
  cases cs with
  | nil => simp
  | cons d cs =>
    have hrest : '\n' ∉ cs := fun hmem => hcs (List.mem_cons_of_mem _ hmem)
    by_cases hd : Lexer.continuesWord d = true
    case neg => simp [hd]
    rw [readOn_cons (feedChar_of_continuesWord hregion hword hd)] at hcut
    have hO := eq_o_of_cut hregion hline hrest hcut
    have hend : cs.takeWhile Lexer.continuesWord = [] := by
      cases cs with
      | nil => rfl
      | cons e cs =>
        have hlength : (pushWord s (wordBytes d)).line.length = 2 := by
          rw [pushWord, hline]
          rcases hO with rfl | rfl <;> rfl
        have he := not_continuesWord_of_cut (s := pushWord s (wordBytes d)) hregion
          (word_pushWord_ne hword _) hlength (fun hmem => hrest (List.mem_cons_of_mem _ hmem)) hcut
        exact List.takeWhile_cons_of_neg he
    rw [List.takeWhile_cons_of_pos hd, hend]
    rcases hO with rfl | rfl <;> simp

theorem blocked_wordBytes {c : Char} (hslash : c ≠ '/') (hg : c.toUpper ≠ 'G') :
    Blocked (wordBytes c).reverse false := by
  rcases Nat.lt_or_ge c.toNat 128 with h | h
  · rw [wordBytes_of_lt h]
    exact blocked_singleton hslash hg false
  · cases hbytes : wordBytes c with
    | nil =>
      have hlength := one_lt_length_wordBytes h
      simp [hbytes] at hlength
    | cons ch bytes =>
      have hch := le_of_mem_wordBytes h (hbytes ▸ List.mem_cons_self : ch ∈ wordBytes c)
      rw [List.reverse_cons]
      refine (blocked_singleton (ne_of_le_toNat hch (by decide)) ?_ false).append _
      rw [Ne, toUpper_eq_G_iff, not_or]
      exact ⟨ne_of_le_toNat hch (by decide), ne_of_le_toNat hch (by decide)⟩

/-- Such a character stands on the line, is quoted or opens a line comment. -/
theorem stepSymbol_of_other {c : Char} (hblank : c ∉ plainBlanks) (hslash : c ≠ '/') (hdash : c ≠ '-')
    (hg : c.toUpper ≠ 'G') :
    ((fresh rules).stepSymbol c).1.region = .lineComment ∧
        ((fresh rules).stepSymbol c).1.line = [] ∨
      (((fresh rules).stepSymbol c).1.region ≠ .dash ∧
        ((fresh rules).stepSymbol c).1.region ≠ .slash) ∧
        Blocked ((fresh rules).stepSymbol c).1.line ((fresh rules).stepSymbol c).1.lineQuoted := by
  have hself : Blocked [c] false := blocked_singleton hslash hg false
  have hquoted : ∀ line, Blocked line true := fun line => .inl rfl
  unfold stepSymbol
  split
  case h_1 | h_2 | h_3 | h_4 | h_5 => exact absurd (by simp [plainBlanks]) hblank
  case h_6 =>
    exact .inr ⟨by simp [terminator, settleEnd, resetStatement, takePunct, pushLine, fresh], hself⟩
  case h_7 => exact absurd rfl hdash
  case h_8 => exact absurd rfl hslash
  case h_9 | h_10 => exact .inr ⟨by simp [enterQuote], hquoted _⟩
  case h_11 | h_12 =>
    split
    · exact .inr ⟨by simp [enterQuote], hquoted _⟩
    · exact .inr ⟨by simp [takePunct, pushLine, fresh], hself⟩
  case h_13 =>
    split
    · exact .inl ⟨rfl, rfl⟩
    · exact .inr ⟨by simp [takePunct, pushLine, fresh], hself⟩
  case h_14 =>
    split
    · exact .inr ⟨by simp, hself⟩
    · exact .inr ⟨by simp [takePunct, pushLine, fresh], hself⟩
  all_goals exact .inr ⟨by simp [takePunct, pushLine, fresh], hself⟩

/-- A first character that is no white space and starts neither a comment nor `/` or `GO` keeps its
line from ending a statement. -/
theorem not_cut_of_other {c : Char} {cs : List Char} (hcs : '\n' ∉ c :: cs)
    (hblank : c ∉ plainBlanks) (hslash : c ≠ '/') (hdash : c ≠ '-') (hg : c.toUpper ≠ 'G') :
    (feedChar (readOn (fresh rules) (c :: cs)) '\n').2 = false := by
  have hrest : '\n' ∉ cs := fun hmem => hcs (List.mem_cons_of_mem _ hmem)
  have hsound := sound_feedChar (sound_fresh rules) c
  by_cases hword : 128 ≤ c.toNat ∨ (fresh rules).isWordByte c = true
  · have hfeed : feedChar (fresh rules) c = (pushWord (fresh rules) (wordBytes c), false) :=
      feedChar_word rfl hword
    rw [hfeed] at hsound
    rw [readOn_cons hfeed]
    refine not_cut_of_blocked hsound (by simp [pushWord, fresh]) ?_ hrest
    have hline : (pushWord (fresh rules) (wordBytes c)).line = (wordBytes c).reverse := by
      rw [pushWord]
      exact List.append_nil _
    rw [hline]
    exact blocked_wordBytes hslash hg
  · rw [not_or] at hword
    have hstep : feedChar (fresh rules) c = (fresh rules).stepSymbol c := by
      rw [feedChar_of_lt _ (by omega)]
      exact if_neg hword.2
    rw [hstep] at hsound
    rw [readOn_cons hstep]
    rcases stepSymbol_of_other hblank hslash hdash hg with ⟨hregion, hline⟩ | ⟨hregion, hblock⟩
    · exact not_cut_of_lineComment hregion hline hrest
    · exact not_cut_of_blocked hsound hregion hblock hrest

theorem feedChar_congr {s t : Scanner} {c d : Char} (hd : d.toNat < 128) (hc : c ≠ d)
    (hstep : ∀ ch : Char, ch ≠ d → s.step ch = t.step ch) : feedChar s c = feedChar t c := by
  rcases Nat.lt_or_ge c.toNat 128 with h | h
  · rw [feedChar_of_lt _ h, feedChar_of_lt _ h]
    exact hstep c hc
  · have hbytes : ∀ b ∈ String.utf8EncodeChar c, 128 ≤ b.toNat := fun b => le_of_mem_utf8EncodeChar h
    cases hencode : String.utf8EncodeChar c with
    | nil => exact absurd hencode String.utf8EncodeChar_ne_nil
    | cons b bytes =>
      have hb : Char.ofNat b.toNat ≠ d :=
        ofNat_byte_ne (hbytes b (hencode ▸ List.mem_cons_self)) hd
      simp only [feedChar, hencode, List.foldl_cons, feedByte, Scanner.feed, hstep _ hb]

/-- A dash that no second one follows is a character like any other. -/
theorem feedChar_dash {s : Scanner} (hregion : s.region = .dash) {c : Char} (hc : c ≠ '-') :
    feedChar s c =
      feedChar { s with content := true, previous := .punct '-', region := .normal } c := by
  refine feedChar_congr (d := '-') (by decide) hc fun ch hch => ?_
  simp only [step, hregion]
  rw [if_neg hch]

/-- So is a slash that no star follows. -/
theorem feedChar_slash {s : Scanner} (hregion : s.region = .slash) {c : Char} (hc : c ≠ '*') :
    feedChar s c =
      feedChar { s with content := true, previous := .punct '/', region := .normal } c := by
  refine feedChar_congr (d := '*') (by decide) hc fun ch hch => ?_
  simp only [step, hregion]
  rw [if_neg hch]

theorem not_cut_of_dash {cs : List Char} (hcs : '\n' ∉ cs) :
    (feedChar (readOn (fresh rules) ('-' :: cs)) '\n').2 = false := by
  have hread : readOn (fresh rules) ('-' :: cs) =
      readOn { (fresh rules).pushLine '-' with region := .dash } cs :=
    readOn_cons_of_lt _ (by decide) cs
  have hself : Blocked ['-'] false := blocked_singleton (by decide) (by decide) false
  have hplain : ∀ {rest : List Char}, '\n' ∉ rest → (feedChar (readOn
      { (fresh rules).pushLine '-' with content := true, previous := .punct '-', region := .normal }
        rest) '\n').2 = false := fun hrest =>
    not_cut_of_blocked (.of_normal rfl) (by simp) hself hrest
  rw [hread]
  cases cs with
  | nil =>
    change (feedChar _ '\n').2 = false
    rw [feedChar_dash rfl (by decide)]
    exact hplain List.not_mem_nil
  | cons d cs =>
    by_cases hd : d = '-'
    · subst hd
      rw [readOn_cons_of_lt _ (by decide)]
      exact not_cut_of_lineComment (s := { fresh rules with region := .lineComment }) rfl rfl
        fun hmem => hcs (List.mem_cons_of_mem _ hmem)
    · rw [readOn, List.foldl_cons, feedChar_dash rfl hd]
      exact hplain hcs

/-- A slash that opens no comment is content. -/
theorem lastContent_of_slash {cs : List Char} (hcs : '\n' ∉ cs) (hstar : ∀ more, cs ≠ '*' :: more)
    (hcut : (feedChar (readOn (fresh rules) ('/' :: cs)) '\n').2 = true) :
    (feedChar (readOn (fresh rules) ('/' :: cs)) '\n').1.lastContent = true := by
  have hread : feedChar (readOn (fresh rules) ('/' :: cs)) '\n' = feedChar (readOn
      { (fresh rules).pushLine '/' with content := true, previous := .punct '/', region := .normal }
        cs) '\n' := by
    have hslash : readOn (fresh rules) ('/' :: cs) =
        readOn { (fresh rules).pushLine '/' with region := .slash } cs :=
      readOn_cons_of_lt _ (by decide) cs
    rw [hslash]
    cases cs with
    | nil => exact feedChar_slash rfl (by decide)
    | cons d cs =>
      have hd : d ≠ '*' := fun heq => hstar cs (by rw [heq])
      rw [readOn, List.foldl_cons, feedChar_slash rfl hd]
      rfl
  rw [hread] at hcut ⊢
  exact lastContent_of_content (.of_normal rfl) rfl hcs hcut

/-- A line that ends a statement ends each block comment that it opens at its start, and what stands
behind the comment is read as if it were the line. -/
theorem exists_behind_comment {cs : List Char} (hcs : '\n' ∉ cs)
    (hcut : (feedChar (readOn (fresh rules) ('/' :: '*' :: cs)) '\n').2 = true) :
    ∃ body rest, breakOn ['*', '/'] cs = some (body, rest) ∧
      readOn (fresh rules) ('/' :: '*' :: cs) = readOn (fresh rules) rest := by
  have hread : readOn (fresh rules) ('/' :: '*' :: cs) =
      readOn { fresh rules with region := .blockComment } cs := by
    rw [readOn_cons_of_lt _ (by decide), readOn_cons_of_lt _ (by decide)]
    rfl
  rcases (leaves_blockComment (fresh rules) hcs).1 with ⟨body, rest, hbreak, hrest⟩ |
    ⟨region, hregion, hopen⟩
  · exact ⟨body, rest, hbreak, hread.trans hrest⟩
  · rw [hread, hopen, feedChar_of_lt _ (by decide)] at hcut
    rcases hregion with rfl | rfl <;> exact absurd hcut (by simp [step])

/-- A line that ends a statement and starts with the letter `G` starts with a word that is at most
`GO`. -/
theorem opens_of_cut {g : Char} (hg : g.toUpper = 'G') {cs : List Char} (hcs : '\n' ∉ cs)
    (hcut : (feedChar (readOn (fresh rules) (g :: cs)) '\n').2 = true) :
    (feedChar (readOn (fresh rules) (g :: cs)) '\n').1.lastContent = true ∧ Opens g cs := by
  have hletter := toUpper_eq_G_iff.1 hg
  have hfeed : feedChar (fresh rules) g = (pushWord (fresh rules) [g], false) := by
    have hword : (fresh rules).isWordByte g = true := by rcases hletter with rfl | rfl <;> rfl
    have hnarrow : g.toNat < 128 := by rcases hletter with rfl | rfl <;> decide
    rw [feedChar_word rfl (.inr hword), wordBytes_of_lt hnarrow]
  rw [readOn_cons hfeed] at hcut ⊢
  refine ⟨lastContent_of_content (.of_normal rfl) (by simp [pushWord]) hcs hcut, .go hletter ?_⟩
  exact takeWhile_of_cut (s := pushWord (fresh rules) [g]) rfl (by simp [pushWord]) rfl hcs hcut

/-- A line that ends a statement by itself holds `/` or a word that is at most `GO`, behind white
space and comments, and the statement that it ends has content. -/
theorem exists_of_cutsAt_newline {v : List Char} (hv : '\n' ∉ v)
    (hblank : ∀ c ∈ v, isBlank c = true → c ∈ plainBlanks) (hcut : cutsAt rules v '\n' = true) :
    (feedChar (after rules v) '\n').1.lastContent = true ∧
      ∃ a core rest, v = a ++ core :: rest ∧ Trivia a ∧ Opens core rest := by
  change (feedChar (readOn (fresh rules) v) '\n').1.lastContent = true ∧ _
  obtain ⟨n, hn⟩ : ∃ n, v.length ≤ n := ⟨_, Nat.le_refl _⟩
  induction n generalizing v with
  | zero =>
    rw [List.eq_nil_of_length_eq_zero (Nat.le_zero.1 hn)] at hcut
    rw [not_cutsAt_blanks (by simp [plainBlanks])] at hcut
    exact absurd hcut (by simp)
  | succ n ih =>
    cases v with
    | nil =>
      rw [not_cutsAt_blanks (by simp [plainBlanks])] at hcut
      exact absurd hcut (by simp)
    | cons c v =>
      have hrest : '\n' ∉ v := fun hmem => hv (List.mem_cons_of_mem _ hmem)
      have hlength : v.length ≤ n := Nat.le_of_succ_le_succ hn
      change (feedChar (readOn (fresh rules) (c :: v)) '\n').2 = true at hcut
      by_cases hplain : c ∈ plainBlanks
      · have hquiet : Quiet (fresh rules) := quiet_onLine_fresh rules false
        rw [readOn_cons (hquiet.feedChar hplain)] at hcut ⊢
        obtain ⟨hcontent, a, core, rest, rfl, ha, hopens⟩ :=
          ih hrest (fun d hd => hblank d (List.mem_cons_of_mem _ hd)) hcut hlength
        exact ⟨hcontent, c :: a, core, rest, rfl, .blank (isBlank_of_mem_plainBlanks hplain) ha,
          hopens⟩
      by_cases hslash : c = '/'
      · subst hslash
        by_cases hstar : ∃ w, v = '*' :: w
        · obtain ⟨w, rfl⟩ := hstar
          obtain ⟨body, tail, hbreak, hread⟩ :=
            exists_behind_comment (fun hmem => hrest (List.mem_cons_of_mem _ hmem)) hcut
          rw [hread] at hcut ⊢
          obtain rfl := breakOn_eq_some hbreak
          have hmem : ∀ d ∈ tail, d ∈ '/' :: '*' :: (body ++ ['*', '/'] ++ tail) := fun d hd =>
            List.mem_cons_of_mem _ (List.mem_cons_of_mem _ (List.mem_append_right _ hd))
          have hshort : tail.length ≤ n := by
            simp only [List.length_cons, List.length_append] at hlength
            omega
          obtain ⟨hcontent, a, core, rest, rfl, ha, hopens⟩ := ih (fun hmem' => hv (hmem _ hmem'))
            (fun d hd => hblank d (hmem d hd)) hcut hshort
          refine ⟨hcontent, '/' :: '*' :: (body ++ ['*', '/'] ++ a), core, rest, ?_,
            .comment (breakOn_append hbreak a) ha, hopens⟩
          simp
        · have hnone : ∀ more, v ≠ '*' :: more := fun more heq => hstar ⟨more, heq⟩
          exact ⟨lastContent_of_slash hrest hnone hcut, [], '/', v, rfl, .nil, .slash rfl hnone⟩
      by_cases hdash : c = '-'
      · subst hdash
        rw [not_cut_of_dash hrest] at hcut
        exact absurd hcut (by simp)
      by_cases hg : c.toUpper = 'G'
      · obtain ⟨hcontent, hopens⟩ := opens_of_cut hg hrest hcut
        exact ⟨hcontent, [], c, v, rfl, .nil, hopens⟩
      · rw [not_cut_of_other hv hplain hslash hdash hg] at hcut
        exact absurd hcut (by simp)

end DdlBridge.Statement
