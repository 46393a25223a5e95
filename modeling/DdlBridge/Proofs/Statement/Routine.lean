import DdlBridge.Proofs.Statement.Tracking

/-!
# Stored routines

Whether a scan reports a trigger or a procedure with a well-nested body as one statement
(`Routine.boundaries_iff`).
-/

namespace DdlBridge.Statement

open Scanner Text

variable {rules : LexicalRules} {s : Scanner}

/-- The parts of `CREATE TRIGGER … BEGIN … END;`, without its `;`. -/
structure Routine where
  create : Lexeme
  gap : List Lexeme
  kind : Lexeme
  head : List Lexeme
  opening : Lexeme
  items : List Lexeme
  closing : Lexeme
  trail : List Lexeme
  hcreate : create.keyword = "CREATE"
  hgap : Gap gap
  hkind : kind.keyword = "TRIGGER" ∨ kind.keyword = "PROCEDURE"
  hhead : ∀ l ∈ head, l ≠ .punct ';' ∧ l.keyword ≠ "BEGIN" ∧ l.keyword ≠ "CASE"
  hopening : opening.keyword = "BEGIN"
  hitems : Nested .items items
  hclosing : closing.keyword = "END"
  htrail : Gap trail

namespace Routine

/-- What stands before `BEGIN`. -/
def before (r : Routine) : List Lexeme := r.create :: (r.gap ++ r.kind :: r.head)

/-- What stands behind `BEGIN`. -/
def body (r : Routine) : List Lexeme := r.items ++ r.closing :: r.trail

/-- The statement without its `;`. -/
def front (r : Routine) : List Lexeme := r.before ++ r.opening :: r.body

def lexemes (r : Routine) : List Lexeme := r.front ++ [.punct ';']

end Routine

theorem exact_fresh (rules : LexicalRules) : Exact {} (fresh rules) := ⟨rfl, rfl⟩

/-! ### Spoilt statements -/

/-- A word is misread and a `;` stands behind it. -/
def Spoilt (rules : LexicalRules) (ls : List Lexeme) : Prop :=
  ∃ front l mid rest, ls = front ++ l :: (mid ++ .punct ';' :: rest) ∧
    Misread rules (Context.after {} front) l

theorem Misread.ne_semicolon {c : Context} {l : Lexeme} (h : Misread rules c l) : l ≠ .punct ';' := by
  rintro rfl
  cases h with
  | reopened hcase => exact absurd hcase (by decide)
  | hidden hbegin => exact absurd hbegin (by decide)

theorem exists_of_append_eq {α : Type} {a b : α} {xs ys ps qs rs : List α}
    (h : xs ++ a :: ys = ps ++ b :: (qs ++ a :: rs)) (hys : a ∉ ys) (hb : b ≠ a) :
    ∃ more, xs = ps ++ b :: more := by
  rcases List.append_eq_append_iff.1 h with ⟨more, -, hrest⟩ | ⟨more, hxs, hrest⟩
  · cases more with
    | nil => exact absurd (List.cons.inj hrest).1.symm hb
    | cons c more =>
      refine absurd ?_ hys
      rw [(List.cons.inj hrest).2]
      simp
  · cases more with
    | nil => exact absurd (List.cons.inj hrest).1 hb
    | cons c more =>
      rw [(List.cons.inj hrest).1]
      exact ⟨more, hxs⟩

theorem semicolon_ne {l : Lexeme} {w : String} (hl : l.keyword = w) (hw : w ≠ "") : .punct ';' ≠ l := by
  rintro rfl
  exact hw hl.symm

namespace Routine

theorem started_before (r : Routine) (hformed : ∀ l ∈ r.before, l.Formed rules)
    (huncut : (takeAll (fresh rules) r.before).2 = false) :
    Started (takeAll (fresh rules) r.before).1 := by
  have hs := settled_fresh rules
  obtain ⟨hcreate, -⟩ := Begun.word hs (⟨rfl, rfl, rfl⟩ : Begun [] _) (by decide) r.hcreate
    (by decide) (by decide)
  obtain ⟨-, hrest⟩ := takeAll_cons_uncut huncut
  obtain ⟨hgap, hrest⟩ := takeAll_append_uncut hrest
  obtain ⟨-, hhead⟩ := takeAll_cons_uncut hrest
  have hbegun := takeAll_keeps (c := {}) (P := fun _ s => Settled s ∧ Begun ["CREATE"] s)
    (fun l hl _ _ h huncut => ⟨h.1.take l, h.2.gap h.1 (r.hgap l hl) huncut⟩) ⟨hs.take r.create, hcreate⟩
    hgap
  have hstarted : Started (take (takeAll (take (fresh rules) r.create).1 r.gap).1 r.kind).1 := by
    rcases r.hkind with hkind | hkind
    · obtain ⟨hkind, hcontent⟩ := hbegun.2.word hbegun.1 (by decide) hkind (by decide) (by decide)
      exact ⟨by rw [hkind.head]; rfl, by rw [hkind.words]; decide, hcontent⟩
    · obtain ⟨hkind, hcontent⟩ := hbegun.2.word hbegun.1 (by decide) hkind (by decide) (by decide)
      exact ⟨by rw [hkind.head]; rfl, by rw [hkind.words]; decide, hcontent⟩
  have hlast := started_run (fun l hl => hformed l (by simp [before, hl]))
    (hbegun.1.take r.kind) hstarted hhead
  rw [before, takeAll, takeAll_append]
  exact hlast

/-! ### Open blocks -/

theorem forall_mem_before (r : Routine) {l : Lexeme} (hl : l ∈ r.before) :
    l ≠ .punct ';' ∧ l.keyword ≠ "BEGIN" ∧ l.keyword ≠ "CASE" := by
  have hgap : ∀ l : Lexeme, l.isGap = true → l ≠ .punct ';' ∧ l.keyword ≠ "BEGIN" ∧ l.keyword ≠ "CASE" := by
    intro l hl
    cases l with
    | blank | lineComment | blockComment =>
      exact ⟨by simp, by simp [Lexeme.keyword], by simp [Lexeme.keyword]⟩
    | word | punct | quoted | dollar => exact absurd hl (by simp [Lexeme.isGap])
  have hword : ∀ l : Lexeme, ∀ w, l.keyword = w → w ≠ "" → w ≠ "BEGIN" → w ≠ "CASE" →
      l ≠ .punct ';' ∧ l.keyword ≠ "BEGIN" ∧ l.keyword ≠ "CASE" := by
    rintro l w rfl hne hbegin hcase
    exact ⟨fun heq => hne (by rw [heq]; rfl), hbegin, hcase⟩
  rcases List.mem_cons.1 hl with rfl | hl
  · exact hword _ _ r.hcreate (by decide) (by decide) (by decide)
  rcases List.mem_append.1 hl with hl | hl
  · exact hgap l (r.hgap l hl)
  rcases List.mem_cons.1 hl with rfl | hl
  · rcases r.hkind with hkind | hkind
    · exact hword _ _ hkind (by decide) (by decide) (by decide)
    · exact hword _ _ hkind (by decide) (by decide) (by decide)
  · exact r.hhead l hl

theorem depth_before (r : Routine) : (Context.after {} r.before).depth = 0 := by
  have hstep : ∀ (c : Context) (l : Lexeme), c.depth = 0 → l.keyword ≠ "BEGIN" →
      l.keyword ≠ "CASE" → (c.step l).depth = 0 := by
    intro c l hc hbegin hcase
    have hsettled : c.settled = 0 := by simp [Context.settled, hc]
    cases l with
    | word cs =>
      show (c.nest (Lexeme.word cs).keyword).depth = 0
      rw [Context.nest]
      split
      · exact hc
      · exact (if_neg (not_or.2 ⟨hbegin, hcase⟩)).trans hsettled
    | punct ch =>
      show (if ch = ';' then c.settled else c.depth) = 0
      rw [hsettled, hc, ite_self]
    | _ => exact (Context.At.of_not_settles (c := c) ⟨rfl, rfl⟩ rfl).depth.trans hc
  have hall : ∀ (ls : List Lexeme) (c : Context), c.depth = 0 →
      (∀ l ∈ ls, l.keyword ≠ "BEGIN" ∧ l.keyword ≠ "CASE") → (c.after ls).depth = 0 := by
    intro ls
    induction ls with
    | nil => exact fun c hc _ => hc
    | cons l ls ih =>
      intro c hc hls
      obtain ⟨hl, hls⟩ := List.forall_mem_cons.1 hls
      exact ih _ (hstep c l hc hl.1 hl.2) hls
  exact hall r.before {} rfl fun l hl => (r.forall_mem_before hl).2

/-- The context behind `BEGIN`. -/
def opened (r : Routine) : Context := (Context.after {} r.before).step r.opening

theorem opened_at (r : Routine) : r.opened.At 1 false := by
  have hsettled : (Context.after {} r.before).settled = 0 := by
    simp [Context.settled, r.depth_before]
  have hat := Context.at_opening (c := Context.after {} r.before) (.inl r.hopening)
  rw [hsettled] at hat
  exact hat

theorem reaches_body (r : Routine) : ∃ c, Reaches r.opened r.body c ∧ c.At 1 true := by
  obtain ⟨c, hitems, hc⟩ := r.hitems.reaches r.opened_at
  have hsettled := Context.At.settled hc
  have hend := Context.at_end (c := c) r.hclosing
  rw [hsettled] at hend
  obtain ⟨c', htrail, hc'⟩ := r.htrail.reaches hend
  exact ⟨c', hitems.append (.cons (not_bare_of_settled (by omega) _) htrail), hc'⟩

theorem not_misread_before (r : Routine) : ¬ Meets (Misread rules) {} r.before := by
  refine not_meets_of_forall fun l hl c hread => ?_
  obtain ⟨-, hbegin, hcase⟩ := r.forall_mem_before hl
  cases hread with
  | reopened h => exact hcase h
  | hidden h => exact hbegin h

theorem not_mem_end (r : Routine) : .punct ';' ∉ r.closing :: r.trail := by
  intro hmem
  rcases List.mem_cons.1 hmem with heq | hmem
  · exact semicolon_ne r.hclosing (by decide) heq
  · exact absurd (r.htrail _ hmem) (by simp [Lexeme.isGap])

/-- A `;` within the statement stands among its items. -/
theorem mem_items (r : Routine) (h : .punct ';' ∈ r.front) : .punct ';' ∈ r.items := by
  rcases List.mem_append.1 h with hmem | hmem
  · exact absurd rfl (r.forall_mem_before hmem).1
  rcases List.mem_cons.1 hmem with heq | hmem
  · exact absurd heq (semicolon_ne r.hopening (by decide))
  rcases List.mem_append.1 hmem with hmem | hmem
  · exact hmem
  · exact absurd hmem r.not_mem_end

/-- What is misread behind `BEGIN` is all that is misread. -/
theorem meets_misread_iff (r : Routine) (ls : List Lexeme) :
    Meets (Misread rules) {} (r.before ++ [r.opening] ++ ls) ↔
      Misread rules (Context.after {} r.before) r.opening ∨ Meets (Misread rules) r.opened ls := by
  have hafter : Context.after {} (r.before ++ [r.opening]) = r.opened := Context.after_append ..
  rw [meets_append, meets_append, meets_cons, hafter, or_iff_left (not_meets_nil _ _),
    or_iff_right r.not_misread_before]

/-- A `;` within the statement stands behind `BEGIN`. -/
theorem exists_items (r : Routine) {front rest : List Lexeme}
    (hsplit : r.front = front ++ .punct ';' :: rest) :
    ∃ items, front = r.before ++ [r.opening] ++ items ∧ r.body = items ++ .punct ';' :: rest := by
  have hparts : r.before ++ [r.opening] ++ r.body = front ++ .punct ';' :: rest := by
    rw [← hsplit]
    simp [Routine.front]
  rcases List.append_eq_append_iff.1 hparts with ⟨items, hfront, hrest⟩ | ⟨items, hfront, hrest⟩
  · exact ⟨items, hfront, hrest⟩
  · cases items with
    | nil => exact ⟨[], by simpa using hfront.symm, by simpa using hrest.symm⟩
    | cons l items =>
      obtain ⟨rfl, -⟩ := List.cons.inj hrest
      have hmem : .punct ';' ∈ r.before ++ [r.opening] := by
        rw [hfront]
        simp
      rcases List.mem_append.1 hmem with hmem | hmem
      · exact absurd rfl (r.forall_mem_before hmem).1
      · exact absurd (List.mem_singleton.1 hmem) (semicolon_ne r.hopening (by decide))

/-! ### The scan -/

section Scan

variable (r : Routine) (hslash : rules.slashLines = false)
  (hformed : ∀ l ∈ r.front, l.Formed rules)

include hslash hformed

theorem opened_run (huncut : (takeAll (fresh rules) (r.before ++ [r.opening])).2 = false) :
    Sees rules r.opened (takeAll (fresh rules) (r.before ++ [r.opening])).1 ∧
      Started (takeAll (fresh rules) (r.before ++ [r.opening])).1 ∧
      (¬ Misread rules (Context.after {} r.before) r.opening →
        Exact r.opened (takeAll (fresh rules) (r.before ++ [r.opening])).1) ∧
      (Misread rules (Context.after {} r.before) r.opening →
        Lags r.opened (takeAll (fresh rules) (r.before ++ [r.opening])).1) := by
  have hbefore : ∀ l ∈ r.before, l.Formed rules := fun l hl => hformed l (by simp [front, hl])
  have hopening : r.opening.Formed rules := hformed r.opening (by simp [front])
  obtain ⟨huncut, hlast⟩ := takeAll_append_uncut huncut
  obtain ⟨hcut, -⟩ := takeAll_cons_uncut hlast
  have hsees := sees_run hslash hbefore (sees_fresh rules) huncut
  have hstarted := r.started_before hbefore huncut
  have hexact := exact_run hslash hbefore (sees_fresh rules)
    (.inr fun l hl => (r.forall_mem_before hl).2.1) r.not_misread_before (exact_fresh rules) huncut
  rw [takeAll_append_fst]
  refine ⟨hsees.step hslash hopening hcut, hstarted.step hsees.settled hopening hcut, fun hread => ?_,
    fun hread => ?_⟩
  · exact hexact.step hslash hopening hsees (fun _ => hstarted) hread hcut
  · refine .of_misread hslash hsees hstarted hexact hread fun hcase => ?_
    rw [r.hopening] at hcase
    exact absurd hcase (by decide)

/-- Behind `BEGIN` the scanner lags as soon as something has been misread. -/
theorem lags_behind {ls : List Lexeme} (hls : ∀ l ∈ ls, l.Formed rules)
    (hopen : ¬ Meets Bare r.opened ls)
    (hread : Misread rules (Context.after {} r.before) r.opening ∨ Meets (Misread rules) r.opened ls)
    (huncut : (takeAll (fresh rules) (r.before ++ [r.opening] ++ ls)).2 = false) :
    Lags (r.opened.after ls) (takeAll (takeAll (fresh rules) (r.before ++ [r.opening])).1 ls).1 := by
  obtain ⟨hbefore, hrest⟩ := takeAll_append_uncut huncut
  obtain ⟨hsees, hstarted, hexact, hlags⟩ := r.opened_run hslash hformed hbefore
  by_cases hmisread : Misread rules (Context.after {} r.before) r.opening
  · exact lags_run hslash hls hsees hopen (hlags hmisread) hrest
  · exact misread_run hslash hls hsees hstarted hopen (hread.resolve_left hmisread) (hexact hmisread)
      hrest

/-- Behind `BEGIN` it is exact as long as nothing has been misread. -/
theorem exact_behind {ls : List Lexeme} (hls : ∀ l ∈ ls, l.Formed rules)
    (hread : ¬ Meets (Misread rules) {} (r.before ++ [r.opening] ++ ls))
    (huncut : (takeAll (fresh rules) (r.before ++ [r.opening] ++ ls)).2 = false) :
    Exact (r.opened.after ls) (takeAll (takeAll (fresh rules) (r.before ++ [r.opening])).1 ls).1 := by
  obtain ⟨hbefore, hrest⟩ := takeAll_append_uncut huncut
  obtain ⟨hsees, hstarted, hexact, -⟩ := r.opened_run hslash hformed hbefore
  rw [meets_misread_iff, not_or] at hread
  exact exact_run hslash hls hsees (.inl hstarted) hread.2 (hexact hread.1) hrest

/-- The `;` behind the body ends the statement, whatever has been misread in it. -/
theorem cut_at_end (huncut : (takeAll (fresh rules) r.front).2 = false) :
    (take (takeAll (fresh rules) r.front).1 (.punct ';')).2 = true := by
  have hsplit : r.front = r.before ++ [r.opening] ++ r.body := by simp [front]
  have hbody : ∀ l ∈ r.body, l.Formed rules := fun l hl => hformed l (by simp [front, hl])
  obtain ⟨c, hreach, hc⟩ := r.reaches_body
  have hsees := sees_run hslash hformed (sees_fresh rules) huncut
  refine (take_cut_iff hslash hsees).2 (.inr ⟨rfl, ?_⟩)
  rw [hsplit] at huncut ⊢
  rw [takeAll_append_fst]
  by_cases hread : Meets (Misread rules) {} (r.before ++ [r.opening] ++ r.body)
  · have hlags := r.lags_behind hslash hformed hbody hreach.inside ((r.meets_misread_iff _).1 hread)
      huncut
    have hlt := hlags.depth
    rw [hreach.after, hc.depth] at hlt
    simp only [settleEnd]
    split
    all_goals omega
  · have hexact := r.exact_behind hslash hformed hbody hread huncut
    rw [hexact.settled, hreach.after, hc.settled_undecided]

/-- A misread word has the scanner cut at the last `;` of the items. -/
theorem not_spoilt_of_uncut (huncut : (takeAll (fresh rules) r.front).2 = false) :
    ¬ Spoilt rules r.front := by
  rintro ⟨front, l, mid, rest, hparts, hread⟩
  have hmem : .punct ';' ∈ r.items := r.mem_items (by simp [hparts])
  obtain ⟨items, tail, hitems, htail, hreaches⟩ := r.hitems.last_semicolon (k := 0) hmem
  have hsplit : r.front = (r.before ++ [r.opening] ++ items) ++
      .punct ';' :: (tail ++ r.closing :: r.trail) := by
    simp [Routine.front, body, hitems]
  have hrest : .punct ';' ∉ tail ++ r.closing :: r.trail := by
    intro hlast
    rcases List.mem_append.1 hlast with hlast | hlast
    · exact htail hlast
    · exact r.not_mem_end hlast
  -- The misread word stands before the last `;` of the items.
  obtain ⟨more, hmore⟩ := exists_of_append_eq (hsplit.symm.trans hparts) hrest hread.ne_semicolon
  have hmeets : Meets (Misread rules) {} (r.before ++ [r.opening] ++ items) :=
    ⟨front, l, more, hmore, hread⟩
  obtain ⟨c, hreach, hc⟩ := hreaches r.opened r.opened_at
  rw [← hreach.after] at hc
  rw [hsplit] at huncut
  obtain ⟨hfront, hlast⟩ := takeAll_append_uncut huncut
  have hsees := sees_run hslash (fun l hl => hformed l (by rw [hsplit]; exact List.mem_append_left _ hl))
    (sees_fresh rules) hfront
  have hlags := r.lags_behind hslash hformed (fun l hl => hformed l (by simp [hsplit, hl]))
    hreach.inside ((r.meets_misread_iff _).1 hmeets) hfront
  have hbehind := hlags.settled (by rw [hc]; decide)
  rw [← takeAll_append_fst] at hbehind
  have hcut := (take_cut_iff hslash hsees).2 (.inr ⟨rfl, by omega⟩)
  rw [(takeAll_cons_uncut hlast).1] at hcut
  exact absurd hcut (by simp)

/-- Where nothing is spoilt and no line says `GO`, the statement does not end before its `;`. -/
theorem uncut_front (hread : ¬ Spoilt rules r.front) (hgo : ¬ Meets (GoLine rules) {} r.front) :
    (takeAll (fresh rules) r.front).2 = false := by
  rw [Bool.eq_false_iff]
  intro hcut
  obtain ⟨front, l, rest, hsplit, huncut, hnow⟩ := exists_first_cut hcut
  have hformed' : ∀ l ∈ front, l.Formed rules := fun l hl => hformed l (by simp [hsplit, hl])
  have hsees := sees_run hslash hformed' (sees_fresh rules) huncut
  rcases (take_cut_iff hslash hsees).1 hnow with hline | ⟨rfl, hdepth⟩
  · exact hgo ⟨front, l, rest, hsplit, hline⟩
  -- The `;` stands behind `BEGIN`, and nothing before it is misread.
  obtain ⟨items, rfl, hitems⟩ := r.exists_items hsplit
  have hnot : ¬ Meets (Misread rules) {} (r.before ++ [r.opening] ++ items) := by
    rintro ⟨front, l, mid, hparts, hl⟩
    exact hread ⟨front, l, mid, rest, by simp [hsplit, hparts], hl⟩
  have hexact := r.exact_behind hslash hformed (fun l hl => hformed' l (List.mem_append_right _ hl))
    hnot huncut
  obtain ⟨c, hreach, -⟩ := r.reaches_body
  have hinside := hreach.inside
  rw [hitems, meets_append, meets_cons, not_or, not_or] at hinside
  rw [takeAll_append_fst, hexact.settled] at hdepth
  exact hinside.2.1 ⟨rfl, fun hkeeps => absurd hkeeps.2 (by decide), hdepth⟩

end Scan

/-- A scan reports a stored routine as one statement if and only if no line of it says `GO` and no `;`
of its items stands behind a misread word. -/
theorem boundaries_iff (r : Routine) {d : Dialect} (hd : d ≠ .oracle)
    (hscript : Script d.rules r.lexemes) :
    (scan d.rules (encode (textOf r.lexemes))).boundaries =
        [⟨(encode (textOf r.front)).length, true⟩] ↔
      ¬ Spoilt d.rules r.front ∧ ¬ Meets (GoLine d.rules) {} r.front := by
  have hslash : d.rules.slashLines = false := by
    cases d with
    | oracle => exact absurd rfl hd
    | _ => rfl
  have hformed : ∀ l ∈ r.front, l.Formed d.rules := fun l hl =>
    hscript.formed l (List.mem_append_left _ hl)
  rw [lexemes, boundaries_script_iff hscript]
  constructor
  · rintro ⟨huncut, -, -⟩
    refine ⟨r.not_spoilt_of_uncut hslash hformed huncut, fun ⟨front, l, rest, hsplit, hline⟩ => ?_⟩
    rw [hsplit] at huncut
    obtain ⟨hfront, hrest⟩ := takeAll_append_uncut huncut
    have hsees := sees_run hslash (fun l hl => hformed l (by simp [hsplit, hl])) (sees_fresh d.rules)
      hfront
    have hcut := (take_cut_iff hslash hsees).2 (.inl hline)
    rw [(takeAll_cons_uncut hrest).1] at hcut
    exact absurd hcut (by simp)
  · rintro ⟨hread, hgo⟩
    have huncut := r.uncut_front hslash hformed hread hgo
    have hcut := r.cut_at_end hslash hformed huncut
    exact ⟨huncut, hcut, lastContent_of_cut hcut⟩

def oneCase (w : String) (rest : List Lexeme) : List Lexeme :=
  .word "CASE".toList :: ((spaced [w] ++ [.blank ' ']) ++ .word "END".toList :: rest)

theorem run_oneCase {w : String} (hw : ∀ l ∈ spaced [w] ++ [.blank ' '], l.IsPlain)
    {rest : List Lexeme} (h : Run rest) : Run (oneCase w rest) := by
  have hinner : Run ((spaced [w] ++ [.blank ' ']) ++ []) := .of_plain hw .nil
  rw [List.append_nil] at hinner
  exact .case rfl hinner rfl h

/-- `CREATE TRIGGER t BEFORE INSERT ON a BEGIN SET x = CASE a END + CASE b END; SET y = 1; END;` -/
def twoCases : Routine where
  create := .word "CREATE".toList
  gap := [.blank ' ']
  kind := .word "TRIGGER".toList
  head := spaced ["t", "BEFORE", "INSERT", "ON", "a"] ++ [.blank ' ']
  opening := .word "BEGIN".toList
  items :=
    (spaced ["SET", "x"] ++ [.blank ' ', .punct '=', .blank ' '] ++
      oneCase "a" ([.blank ' ', .punct '+', .blank ' '] ++ oneCase "b" [])) ++ .punct ';' ::
    ((spaced ["SET", "y"] ++ [.blank ' ', .punct '='] ++ spaced ["1"] ++ []) ++ .punct ';' ::
      [.blank ' '])
  closing := .word "END".toList
  trail := []
  hcreate := Lexeme.keyword_create
  hgap := by decide
  hkind := by decide
  hhead := by decide
  hopening := Lexeme.keyword_begin
  hitems := by
    refine .item (.run (.of_plain (by decide) (run_oneCase (by decide) ?_)))
      (.item (.run (.of_plain (by decide) .nil)) (.plain (by decide) .nil))
    exact .of_plain (by decide) (run_oneCase (by decide) .nil)
  hclosing := Lexeme.keyword_end
  htrail := gap_nil

theorem boundaries_iff_two_cases :
    Script Dialect.mysql.rules twoCases.lexemes ∧ Spoilt Dialect.mysql.rules twoCases.front ∧
      (scan Dialect.mysql.rules (encode (textOf twoCases.lexemes))).boundaries ≠
        [⟨(encode (textOf twoCases.front)).length, true⟩] := by
  have hscript : Script Dialect.mysql.rules twoCases.lexemes := script_of_isScript (by decide)
  have hspoilt : Spoilt Dialect.mysql.rules twoCases.front := by
    refine ⟨twoCases.front.take 30, .word "CASE".toList, (twoCases.front.drop 31).take 4,
      twoCases.front.drop 36, by decide, .reopened (by decide) (by decide)⟩
  refine ⟨hscript, hspoilt, fun hone => ?_⟩
  exact ((twoCases.boundaries_iff (by decide) hscript).1 hone).1 hspoilt

end Routine

end DdlBridge.Statement
