import DdlBridge.Proofs.Statement.Restart
import DdlBridge.Proofs.Text.Ascii
import Mathlib.Data.List.Induction

/-!
# Reading on and starting afresh

A text is read by two scanners: one that has read on from the beginning of a script, and one that
started at a statement end within it. They differ by the front part of the line at most
(`after_append`), as long as that part does not hide a line that ends a statement by itself. When
it does, nothing but white space may follow (`Stale`).
-/

namespace DdlBridge.Statement

open Scanner Text

/-! ### Whole characters -/

theorem feedChar_of_lt (s : Scanner) {c : Char} (h : c.toNat < 128) : feedChar s c = s.step c := by
  simp only [feedChar, utf8EncodeChar_of_lt h, List.foldl_cons, List.foldl_nil, feedByte, feed,
    ofNat_toNat_byte h, Bool.false_or]

theorem toNat_ofNat_byte (b : UInt8) : (Char.ofNat b.toNat).toNat = b.toNat := by
  have hlt := b.toNat_lt
  have hvalid : b.toNat.isValidChar := .inl (by omega)
  rw [Char.ofNat, dif_pos hvalid]
  rfl

theorem le_toNat_ofNat_byte {b : UInt8} (h : 128 ≤ b.toNat) : 128 ≤ (Char.ofNat b.toNat).toNat := by
  rwa [toNat_ofNat_byte]

theorem ofNat_byte_ne {b : UInt8} (h : 128 ≤ b.toNat) {c : Char} (hc : c.toNat < 128) :
    Char.ofNat b.toNat ≠ c := by
  intro heq
  rw [← heq, toNat_ofNat_byte] at hc
  omega

/-- A byte above ASCII ends nothing. -/
theorem feed_of_le {s : Scanner} (hsound : s.Sound) {b : UInt8} (h : 128 ≤ b.toNat) :
    (s.feed b).2 = false := by
  rw [Bool.eq_false_iff]
  intro hcut
  rcases step_restarts hsound hcut with ⟨hc, -⟩ | ⟨hc, -⟩
  · exact ofNat_byte_ne h (by decide) hc
  · exact ofNat_byte_ne h (by decide) hc

/-- Bytes above ASCII end nothing and do not look at the line. -/
theorem foldl_feedByte (bytes : List UInt8) (hbytes : ∀ b ∈ bytes, 128 ≤ b.toNat) {s : Scanner}
    (hsound : s.Sound) : ∃ t : Scanner, t.Sound ∧ t.rules = s.rules ∧
      (∀ cut, bytes.foldl feedByte (s, cut) = (t, cut)) ∧
      ∀ base quoted last cut, bytes.foldl feedByte (s.onLine base quoted last, cut) =
        (t.onLine base quoted last, cut) := by
  induction bytes generalizing s with
  | nil => exact ⟨s, hsound, rfl, fun _ => rfl, fun _ _ _ _ => rfl⟩
  | cons b bytes ih =>
    have hb := hbytes b List.mem_cons_self
    have hnot := feed_of_le hsound hb
    obtain ⟨t, htsound, hrules, hfold, hover⟩ :=
      ih (fun b' hb' => hbytes b' (List.mem_cons_of_mem _ hb')) (hsound.step (Char.ofNat b.toNat))
    refine ⟨t, htsound, hrules.trans (rules_step s _), fun cut => ?_,
      fun base quoted last cut => ?_⟩
    · have hbyte : feedByte (s, cut) b = ((s.feed b).1, cut) := by
        simp only [feedByte, hnot, Bool.or_false]
      rw [List.foldl_cons, hbyte]
      exact hfold cut
    · have hbyte : feedByte (s.onLine base quoted last, cut) b =
          ((s.feed b).1.onLine base quoted last, cut) := by
        have hstep := step_onLine s base quoted last _ hsound
          (ofNat_byte_ne hb (c := '\n') (by decide))
        simp only [feedByte, feed] at hnot ⊢
        rw [hstep]
        simp only [onLineStep, hnot, Bool.or_false, Bool.false_eq_true, if_false]
      rw [List.foldl_cons, hbyte]
      exact hover base quoted last cut

/-- A character above ASCII ends nothing and does not look at the line. -/
theorem feedChar_of_le {s : Scanner} (hsound : s.Sound) {c : Char} (h : 128 ≤ c.toNat) :
    ∃ t : Scanner, t.Sound ∧ t.rules = s.rules ∧ feedChar s c = (t, false) ∧
      ∀ base quoted last, feedChar (s.onLine base quoted last) c = (t.onLine base quoted last, false) := by
  obtain ⟨t, htsound, hrules, hfold, hover⟩ :=
    foldl_feedByte (String.utf8EncodeChar c) (fun b => le_of_mem_utf8EncodeChar h) hsound
  exact ⟨t, htsound, hrules, hfold false, fun base quoted last => hover base quoted last false⟩

theorem sound_feedChar {s : Scanner} (hsound : s.Sound) (c : Char) : (feedChar s c).1.Sound := by
  rcases Nat.lt_or_ge c.toNat 128 with h | h
  · rw [feedChar_of_lt s h]
    exact hsound.step c
  · obtain ⟨t, htsound, -, hfeed, -⟩ := feedChar_of_le hsound h
    rw [hfeed]
    exact htsound

theorem rules_feedChar {s : Scanner} (hsound : s.Sound) (c : Char) :
    (feedChar s c).1.rules = s.rules := by
  rcases Nat.lt_or_ge c.toNat 128 with h | h
  · rw [feedChar_of_lt s h, rules_step]
  · obtain ⟨t, -, hrules, hfeed, -⟩ := feedChar_of_le hsound h
    rw [hfeed]
    exact hrules

theorem feedChar_restarts {s : Scanner} (hsound : s.Sound) {c : Char}
    (hcut : (feedChar s c).2 = true) : Restarted s.rules c (feedChar s c).1 := by
  rcases Nat.lt_or_ge c.toNat 128 with h | h
  · rw [feedChar_of_lt s h] at hcut ⊢
    exact step_restarts hsound hcut
  · obtain ⟨t, -, -, hfeed, -⟩ := feedChar_of_le hsound h
    rw [hfeed] at hcut
    exact absurd hcut (by simp)

/-- Away from line ends the scanner does not look at the line. -/
theorem feedChar_onLine {s : Scanner} (hsound : s.Sound) {c : Char} (hc : c ≠ '\n')
    (base : List Char) (quoted last : Bool) :
    feedChar (s.onLine base quoted last) c = onLineStep base quoted last (feedChar s c) := by
  rcases Nat.lt_or_ge c.toNat 128 with h | h
  · rw [feedChar_of_lt _ h, feedChar_of_lt _ h]
    exact step_onLine s base quoted last c hsound hc
  · obtain ⟨t, -, -, hfeed, hover⟩ := feedChar_of_le hsound h
    rw [hfeed, hover]
    rfl

theorem kept_foldl_feedByte {bytes : List UInt8} (hbytes : ∀ b ∈ bytes, 128 ≤ b.toNat) {s : Scanner}
    (hsound : s.Sound) (h : s.content = true) :
    kept (bytes.foldl feedByte (s, false)) = true := by
  induction bytes generalizing s with
  | nil => exact h
  | cons b bytes ih =>
    have hnot := feed_of_le hsound (hbytes b List.mem_cons_self)
    have hkept : (s.feed b).1.content = true := by
      have hstep := kept_step h (Char.ofNat b.toNat)
      rw [Scanner.feed] at hnot
      rwa [kept, if_neg (by rw [hnot]; simp)] at hstep
    have hfirst : feedByte (s, false) b = ((s.feed b).1, false) := by
      simp only [feedByte, hnot, Bool.or_self]
    rw [List.foldl_cons, hfirst]
    exact ih (fun b' hmem => hbytes b' (List.mem_cons_of_mem _ hmem)) (hsound.step _) hkept

theorem kept_feedChar {s : Scanner} (hsound : s.Sound) (h : s.content = true) (c : Char) :
    kept (feedChar s c) = true := by
  rcases Nat.lt_or_ge c.toNat 128 with hc | hc
  · rw [feedChar_of_lt s hc]
    exact kept_step h c
  · exact kept_foldl_feedByte (fun b => le_of_mem_utf8EncodeChar hc) hsound h

/-- The front part of a line that the line end does not tell from an empty one. -/
def Unseen (s : Scanner) (base : List Char) (quoted : Bool) : Prop :=
  LineFree s.rules ∨ (';' ∈ base ∧ (s.step '\n').2 = false) ∨ (base = [] ∧ quoted = false)

theorem step_newline_onLine {s : Scanner} (hsound : s.Sound) {base : List Char} {quoted : Bool}
    (hunseen : Unseen s base quoted) (last : Bool) : ∃ base' quoted',
      (s.onLine base quoted last).step '\n' = onLineStep base' quoted' last (s.step '\n') ∧
      ((base' = [] ∧ quoted' = false) ∨
        (s.rules.backslashEscapes = true ∧ base' = base ∧ quoted' = quoted)) := by
  have hself : s.step '\n' = (s.onLine [] false s.lastContent).step '\n' := by rw [onLine_self]
  cases step_newline hsound with
  | ends t hregion hword hrules hlast hstep =>
    have hend : s.step '\n' = t.endLine := by rw [hself, hstep, ← hlast, onLine_self]
    have hsame : (t.onLine base quoted last).isTerminatorLine = t.isTerminatorLine := by
      rcases hunseen with hfree | ⟨hmem, hflag⟩ | ⟨rfl, rfl⟩
      · rw [← hrules] at hfree
        rw [isTerminatorLine_of_lineFree hfree]
        exact isTerminatorLine_of_lineFree hfree
      · have hnot : t.isTerminatorLine = false := by
          rw [Bool.eq_false_iff]
          intro htrue
          rw [hend, endLine, if_pos htrue] at hflag
          exact absurd hflag (by simp)
        rw [hnot, not_isTerminatorLine_onLine _ _ _ _ hmem]
      · simp only [isTerminatorLine, onLine, List.append_nil, Bool.or_false]
    refine ⟨[], false, ?_, .inl ⟨rfl, rfl⟩⟩
    rw [hstep, hend, endLine_onLine t base quoted last hsame]
  | drops t hlast hstep =>
    have hend : s.step '\n' = (t, false) := by rw [hself, hstep, ← hlast, onLine_self]
    refine ⟨[], false, ?_, .inl ⟨rfl, rfl⟩⟩
    rw [hstep, hend]
    rfl
  | escapes t hescape hlast hstep =>
    have hend : s.step '\n' = (t, false) := by rw [hself, hstep, ← hlast, onLine_self]
    refine ⟨base, quoted, ?_, .inr ⟨hescape, rfl, rfl⟩⟩
    rw [hstep, hend]
    rfl

/-! ### Whole texts -/

theorem lineFree_or (d : Dialect) : LineFree d.rules ∨ d.rules.backslashEscapes = false := by
  cases d
  case mysql => exact .inl ⟨rfl, rfl⟩
  all_goals exact .inr rfl

/-- The scanner behind a text. -/
def after (rules : LexicalRules) (cs : List Char) : Scanner :=
  cs.foldl (fun s c => (feedChar s c).1) (fresh rules)

/-- Whether a statement ends at `c` behind a text. -/
def cutsAt (rules : LexicalRules) (cs : List Char) (c : Char) : Bool :=
  (feedChar (after rules cs) c).2

variable {rules : LexicalRules} {done t : List Char} {c : Char}

theorem after_concat (rules : LexicalRules) (cs : List Char) (c : Char) :
    after rules (cs ++ [c]) = (feedChar (after rules cs) c).1 := by
  simp only [after, List.foldl_append, List.foldl_cons, List.foldl_nil]

theorem sound_after (rules : LexicalRules) (cs : List Char) : (after rules cs).Sound := by
  induction cs using List.reverseRecOn with
  | nil => exact sound_fresh rules
  | append_singleton cs c ih =>
    rw [after_concat]
    exact sound_feedChar ih c

theorem rules_after (rules : LexicalRules) (cs : List Char) : (after rules cs).rules = rules := by
  induction cs using List.reverseRecOn with
  | nil => rfl
  | append_singleton cs c ih => rw [after_concat, rules_feedChar (sound_after rules cs), ih]

/-- A text behind which a statement starts. -/
inductive Begins (rules : LexicalRules) : List Char → Prop where
  | start : Begins rules []
  | cut {cs : List Char} {c : Char} (hcut : cutsAt rules cs c = true) : Begins rules (cs ++ [c])

theorem Begins.cutsAt {cs : List Char} (h : Begins rules (cs ++ [c])) : cutsAt rules cs c = true := by
  generalize htext : cs ++ [c] = text at h
  cases h with
  | start => exact absurd htext (by simp)
  | cut hcut =>
    obtain ⟨rfl, hc⟩ := List.append_inj' htext rfl
    rwa [List.singleton_inj.1 hc]

/-- A `;` of `done` that has `t` behind it does not hide that the first line of `t` ends a statement
by itself. -/
def Joined (rules : LexicalRules) (done t : List Char) : Prop :=
  ∀ u v w, done = u ++ [';'] → t = v ++ '\n' :: w → '\n' ∉ v → cutsAt rules v '\n' = false

theorem Joined.of_append {u : List Char} (h : Joined rules done (t ++ u)) : Joined rules done t := by
  rintro a v w hdone rfl hv
  exact h a v (w ++ u) hdone (by simp) hv

/-- What the front part of the line may be behind `done ++ t`, seen from a scanner that started
behind `done`. -/
def Front (rules : LexicalRules) (done t : List Char) (base : List Char) (quoted : Bool) : Prop :=
  LineFree rules ∨ rules.backslashEscapes = false ∧
    if '\n' ∉ t ∧ done.getLast? = some ';' then ';' ∈ base else base = [] ∧ quoted = false

/-- One character further the two scanners still differ by the front part of the line only. -/
theorem feedChar_front {base : List Char} {quoted : Bool} (last : Bool)
    (hfront : Front rules done t base quoted) (hjoin : Joined rules done (t ++ [c])) : ∃ base' quoted',
      feedChar ((after rules t).onLine base quoted last) c =
        onLineStep base' quoted' last (feedChar (after rules t) c) ∧
      Front rules done (t ++ [c]) base' quoted' := by
  have hsound := sound_after rules t
  have hrules := rules_after rules t
  by_cases hc : c = '\n'
  · subst hc
    have hunseen : Unseen (after rules t) base quoted := by
      rcases hfront with hfree | ⟨-, hbase⟩
      · exact .inl (hrules.symm ▸ hfree)
      · split at hbase
        case isTrue h =>
          obtain ⟨u, hu⟩ := List.getLast?_eq_some_iff.1 h.2
          have hcut := hjoin u t [] hu rfl h.1
          rw [cutsAt, feedChar_of_lt _ (by decide)] at hcut
          exact .inr (.inl ⟨hbase, hcut⟩)
        case isFalse => exact .inr (.inr hbase)
    obtain ⟨base', quoted', hstep, hfront'⟩ := step_newline_onLine hsound hunseen last
    refine ⟨base', quoted', ?_, ?_⟩
    · rw [feedChar_of_lt _ (by decide), feedChar_of_lt _ (by decide), hstep]
    · refine hfront.imp_right fun ⟨hescape, _⟩ => ⟨hescape, ?_⟩
      rw [if_neg (by simp)]
      refine hfront'.resolve_right fun h => ?_
      rw [hrules, hescape] at h
      exact absurd h.1 (by simp)
  · refine ⟨base, quoted, feedChar_onLine hsound hc base quoted last, ?_⟩
    have hmem : '\n' ∉ t ++ [c] ↔ '\n' ∉ t := by
      simp only [List.mem_append, List.mem_singleton, not_or]
      exact ⟨fun h => h.1, fun h => ⟨h, fun heq => hc heq.symm⟩⟩
    simpa only [Front, hmem] using hfront

/-- A scanner that has read on over statement ends, and one that started behind the last of them. -/
theorem after_append (hrules : LineFree rules ∨ rules.backslashEscapes = false)
    (hbegin : Begins rules done) (hjoin : Joined rules done t) : ∃ base quoted last,
      after rules (done ++ t) = (after rules t).onLine base quoted last ∧
      Front rules done t base quoted := by
  induction t using List.reverseRecOn with
  | nil =>
    rw [List.append_nil]
    cases hbegin with
    | start =>
      exact ⟨[], false, (fresh rules).lastContent, (onLine_self _).symm,
        hrules.imp_right fun hescape => ⟨hescape, rfl, rfl⟩⟩
    | @cut cs c hcut =>
      have hrestart := feedChar_restarts (sound_after rules cs) hcut
      rw [rules_after] at hrestart
      rw [after_concat]
      rcases hrestart with ⟨rfl, line, quoted, last, heq⟩ | ⟨rfl, -, last, heq⟩
      · refine ⟨';' :: line, quoted, last, heq, hrules.imp_right fun hescape => ⟨hescape, ?_⟩⟩
        rw [if_pos (by simp)]
        exact List.mem_cons_self
      · refine ⟨[], false, last, heq, hrules.imp_right fun hescape => ⟨hescape, ?_⟩⟩
        rw [if_neg (by simp)]
        exact ⟨rfl, rfl⟩
  | append_singleton t c ih =>
    obtain ⟨base, quoted, last, heq, hfront⟩ := ih hjoin.of_append
    obtain ⟨base', quoted', hfeed, hfront'⟩ := feedChar_front last hfront hjoin
    have hafter := congrArg Prod.fst hfeed
    rw [← heq, ← after_concat, List.append_assoc] at hafter
    rw [after_concat rules t c]
    exact ⟨base', quoted', _, hafter, hfront'⟩

/-- So the two cut alike, and agree on what they have cut off. -/
theorem feedChar_append (hrules : LineFree rules ∨ rules.backslashEscapes = false)
    (hbegin : Begins rules done) (hjoin : Joined rules done (t ++ [c])) : ∃ base quoted last,
      feedChar (after rules (done ++ t)) c = onLineStep base quoted last (feedChar (after rules t) c) := by
  obtain ⟨base, quoted, last, heq, hfront⟩ := after_append hrules hbegin hjoin.of_append
  obtain ⟨base', quoted', hfeed, -⟩ := feedChar_front last hfront hjoin
  exact ⟨base', quoted', last, by rw [heq, hfeed]⟩

/-! ### White space -/

/-- The white space that scanners know. -/
def plainBlanks : List Char := [' ', '\t', '\n', '\r', '\x0c']

theorem lt_of_mem_plainBlanks {c : Char} (h : c ∈ plainBlanks) : c.toNat < 128 := by
  have hall : ∀ d ∈ plainBlanks, d.toNat < 128 := by decide
  exact hall c h

theorem isBlank_cases {c : Char} (h : isBlank c = true) :
    c ∈ plainBlanks ∨ c = '\x0b' ∨ 128 ≤ c.toNat := by
  rcases Nat.lt_or_ge c.toNat 128 with hlt | hge
  · have hascii := of_ascii (fun d => isBlank d = true → d ∈ plainBlanks ∨ d = '\x0b') (by decide) hlt
    exact (hascii h).imp_right .inl
  · exact .inr (.inr hge)

/-- Whether all the white space is plain can be computed. -/
theorem plain_of_all {cs : List Char}
    (h : (cs.all fun c => !isBlank c || plainBlanks.contains c) = true) :
    ∀ c ∈ cs, isBlank c = true → c ∈ plainBlanks := by
  intro c hc hblank
  have hplain := List.all_eq_true.1 h c hc
  rw [hblank, Bool.not_true, Bool.false_or, List.contains_iff_mem] at hplain
  exact hplain

/-- A scanner at the start of a line, outside every region and word. -/
structure Quiet (s : Scanner) : Prop where
  region : s.region = .normal
  word : s.word = []
  line : s.line = []
  lineQuoted : s.lineQuoted = false

theorem quiet_onLine_fresh (rules : LexicalRules) (last : Bool) :
    Quiet ((fresh rules).onLine [] false last) := ⟨rfl, rfl, rfl, rfl⟩

/-- White space does nothing at the start of a line. -/
theorem Quiet.feedChar {s : Scanner} (hquiet : Quiet s) {c : Char} (hc : c ∈ plainBlanks) :
    feedChar s c = (s, false) := by
  have hword : s.endWord = s := by
    unfold endWord
    exact if_pos (List.isEmpty_iff.2 hquiet.word)
  have hline : s.endLine = (s, false) := by
    have hreset : s.resetLine false = s := by
      rw [resetLine, ← hquiet.line, ← hquiet.lineQuoted]
    have hnot : s.isTerminatorLine = false := by
      simp only [isTerminatorLine, hquiet.line]
      simp [Text.upper]
    rw [endLine, hnot, hreset]
    rfl
  have hstep : s.step c = s.stepNormal c := by
    unfold step
    rw [hquiet.region]
  simp only [plainBlanks, List.mem_cons, List.not_mem_nil, or_false] at hc
  rcases hc with rfl | rfl | rfl | rfl | rfl
  all_goals
    rw [feedChar_of_lt s (by decide), hstep, stepNormal,
      if_neg (by simp [isWordByte, hquiet.word]), hword]
  case inr.inr.inl => exact hline
  all_goals rfl

/-- Where the front part of the line hides that the line ends a statement by itself, the scanner
that read on has not cut. -/
theorem step_newline_hidden {s : Scanner} (hsound : s.Sound) (hcut : (s.step '\n').2 = true)
    {base : List Char} (hmem : ';' ∈ base) (quoted last : Bool) : ∃ t,
      (s.onLine base quoted last).step '\n' = (t, false) ∧ Quiet t ∧
      t.content = (s.step '\n').1.lastContent := by
  have hself : s.step '\n' = (s.onLine [] false s.lastContent).step '\n' := by rw [onLine_self]
  cases step_newline hsound with
  | ends t hregion hword hrules hlast hstep =>
    have hend : s.step '\n' = t.endLine := by rw [hself, hstep, ← hlast, onLine_self]
    rw [hend] at hcut ⊢
    have hterminator : t.isTerminatorLine = true := by
      rw [← Bool.not_eq_false]
      intro hfalse
      rw [endLine, hfalse] at hcut
      exact absurd hcut (by simp)
    refine ⟨(t.onLine base quoted last).resetLine false, ?_, ⟨hregion, hword, rfl, rfl⟩, ?_⟩
    · rw [hstep, endLine, not_isTerminatorLine_onLine _ _ _ _ hmem]
      rfl
    · rw [endLine, if_pos hterminator]
      rfl
  | drops t hlast hstep =>
    rw [hself, hstep] at hcut
    exact absurd hcut (by simp)
  | escapes t hescape hlast hstep =>
    rw [hself, hstep] at hcut
    exact absurd hcut (by simp)

/-- A `;` of `done` hides that the first line of `t` ends a statement by itself, and nothing but
white space follows that line. -/
def Stale (rules : LexicalRules) (done t : List Char) : Prop :=
  ∃ u v w, done = u ++ [';'] ∧ t = v ++ '\n' :: w ∧ '\n' ∉ v ∧ cutsAt rules v '\n' = true ∧
    ∀ c ∈ w, c ∈ plainBlanks

theorem joined_of_not_mem (h : '\n' ∉ t) : Joined rules done t := by
  rintro u v w - rfl -
  exact absurd (by simp) h

/-- Behind `done`, the scanner that read on and the one that started afresh still see the same
statements. -/
def Agrees (rules : LexicalRules) (done t : List Char) : Prop :=
  Joined rules done t ∨ Stale rules done t

/-- Some `;` hides that the rest of its line would end a statement by itself, and the script goes on
behind that line. -/
def Severed (rules : LexicalRules) (cs : List Char) : Prop :=
  ∃ u v w, cs = u ++ ';' :: (v ++ '\n' :: w) ∧ '\n' ∉ v ∧ (∃ c ∈ w, isBlank c = false) ∧
    cutsAt rules u ';' = true ∧ cutsAt rules v '\n' = true

/-- Where the line end is hidden, the scanner that read on takes it for white space. -/
theorem feedChar_hidden {u v : List Char} (hrules : LineFree rules ∨ rules.backslashEscapes = false)
    (hbegin : Begins rules (u ++ [';'])) (hv : '\n' ∉ v) (hcut : cutsAt rules v '\n' = true) : ∃ s,
      feedChar (after rules (u ++ [';'] ++ v)) '\n' = (s, false) ∧ Quiet s ∧
      s.content = (feedChar (after rules v) '\n').1.lastContent := by
  obtain ⟨base, quoted, last, heq, hfront⟩ :=
    after_append hrules hbegin (joined_of_not_mem hv)
  have hsound := sound_after rules v
  have hfree : ¬ LineFree rules := by
    rcases feedChar_restarts hsound hcut with ⟨h, -⟩ | ⟨-, h, -⟩
    · exact absurd h (by decide)
    · rwa [rules_after] at h
  have hmem : ';' ∈ base := by
    rcases hfront with h | ⟨-, h⟩
    · exact absurd h hfree
    · rwa [if_pos ⟨hv, by simp⟩] at h
  rw [cutsAt, feedChar_of_lt _ (by decide)] at hcut
  obtain ⟨s, hstep, hquiet, hcontent⟩ := step_newline_hidden hsound hcut hmem quoted last
  refine ⟨s, ?_, hquiet, ?_⟩
  · rw [heq, feedChar_of_lt _ (by decide), hstep]
  · rw [hcontent, feedChar_of_lt _ (by decide)]

theorem Quiet.after_append {cs w : List Char} (hquiet : Quiet (after rules cs))
    (hw : ∀ c ∈ w, c ∈ plainBlanks) : after rules (cs ++ w) = after rules cs := by
  induction w using List.reverseRecOn with
  | nil => rw [List.append_nil]
  | append_singleton w c ih =>
    have hprefix := ih fun d hd => hw d (List.mem_append_left _ hd)
    rw [← List.append_assoc, after_concat, hprefix, hquiet.feedChar (hw c (by simp))]

theorem after_blanks (rules : LexicalRules) {w : List Char} (hw : ∀ c ∈ w, c ∈ plainBlanks) :
    after rules w = fresh rules := by
  have hquiet : Quiet (after rules []) := quiet_onLine_fresh rules false
  exact hquiet.after_append hw

/-- No statement ends in mere white space. -/
theorem not_cutsAt_blanks (hw : ∀ d ∈ t ++ [c], d ∈ plainBlanks) : cutsAt rules t c = false := by
  rw [cutsAt, after_blanks rules fun d hd => hw d (List.mem_append_left _ hd)]
  have hquiet : Quiet (fresh rules) := quiet_onLine_fresh rules false
  rw [hquiet.feedChar (hw c (by simp))]

theorem joined_of_lineFree (hfree : LineFree rules) (done t : List Char) : Joined rules done t := by
  rintro u v w - - -
  rw [Bool.eq_false_iff]
  intro hcut
  rcases feedChar_restarts (sound_after rules v) hcut with ⟨h, -⟩ | ⟨-, h, -⟩
  · exact absurd h (by decide)
  · rw [rules_after] at h
    exact h hfree

theorem joined_of_blanks (hw : ∀ d ∈ t, d ∈ plainBlanks) : Joined rules done t := by
  rintro u v w - rfl -
  refine not_cutsAt_blanks fun d hd => hw d ?_
  rw [List.append_cons]
  exact List.mem_append_left _ hd

/-- A cut of the scanner that read on is one that both see. -/
theorem joined_of_cut (hrules : LineFree rules ∨ rules.backslashEscapes = false)
    (hbegin : Begins rules done) (hagrees : Agrees rules done (t ++ [c]))
    (hcut : cutsAt rules (done ++ t) c = true) : Joined rules done (t ++ [c]) := by
  rcases hagrees with hjoin | ⟨u, v, w, rfl, htext, hv, hline, hw⟩
  · exact hjoin
  obtain ⟨s, hfeed, hquiet, -⟩ := feedChar_hidden hrules hbegin hv hline
  have hafter : after rules (u ++ [';'] ++ v ++ ['\n']) = s := by rw [after_concat, hfeed]
  exfalso
  rcases List.eq_nil_or_concat w with rfl | ⟨w', d, rfl⟩
  · obtain ⟨rfl, hc⟩ := List.append_inj' htext rfl
    rw [List.singleton_inj.1 hc, cutsAt, hfeed] at hcut
    exact absurd hcut (by simp)
  · have htext' : t ++ [c] = (v ++ '\n' :: w') ++ [d] := by simpa using htext
    obtain ⟨rfl, hc⟩ := List.append_inj' htext' rfl
    have hprefix : after rules (u ++ [';'] ++ (v ++ '\n' :: w')) = s := by
      rw [← hafter]
      rw [show u ++ [';'] ++ (v ++ '\n' :: w') = u ++ [';'] ++ v ++ ['\n'] ++ w' by simp]
      exact (hafter.symm ▸ hquiet).after_append fun d hd => hw d (by simp [hd])
    rw [cutsAt, hprefix, hquiet.feedChar (List.singleton_inj.1 hc ▸ hw d (by simp))] at hcut
    exact absurd hcut (by simp)

/-- One character further they still see the same, if the script is not severed. -/
theorem Agrees.concat {rest : List Char} (hbegin : Begins rules done)
    (hsevered : ¬ Severed rules (done ++ (t ++ c :: rest)))
    (hblank : ∀ d ∈ done ++ (t ++ c :: rest), isBlank d = true → d ∈ plainBlanks)
    (hagrees : Agrees rules done t) : Agrees rules done (t ++ [c]) := by
  rcases hagrees with hjoin | ⟨u, v, w, rfl, rfl, hv, hline, hw⟩
  · by_cases hjoin' : Joined rules done (t ++ [c])
    · exact .inl hjoin'
    · simp only [Joined, Classical.not_forall] at hjoin'
      obtain ⟨u, v, w, hdone, htext, hv, hline⟩ := hjoin'
      rw [Bool.not_eq_false] at hline
      rcases List.eq_nil_or_concat w with rfl | ⟨w', d, rfl⟩
      · exact .inr ⟨u, v, [], hdone, htext, hv, hline, by simp⟩
      · have htext' : t ++ [c] = (v ++ '\n' :: w') ++ [d] := by simpa using htext
        obtain ⟨rfl, -⟩ := List.append_inj' htext' rfl
        rw [hjoin u v w' hdone rfl hv] at hline
        exact absurd hline (by simp)
  · refine .inr ⟨u, v, w ++ [c], rfl, by simp, hv, hline, fun d hd => ?_⟩
    rw [List.mem_append, List.mem_singleton] at hd
    rcases hd with hd | rfl
    · exact hw d hd
    · refine hblank d (by simp) ?_
      rw [← Bool.not_eq_false]
      intro hnot
      exact hsevered ⟨u, v, w ++ d :: rest, by simp, hv, ⟨d, by simp, hnot⟩, hbegin.cutsAt, hline⟩

end DdlBridge.Statement
