import DdlBridge.Proofs.Grammar.Yields

/-!
# Names of constraints in a column

A column definition is read clause by clause (`Parser.Runs`). `CONSTRAINT n` gives its name to the next
`CHECK` or `REFERENCES`, whatever clauses stand between the two (`lifted_names`).
-/

namespace DdlBridge

namespace Parser

variable {σ : Type}

/-! ### Repeated steps -/

/-- From `s` at `ts`, the steps read these chunks one after the other and come to a state with `rest`
left. -/
inductive Runs (step : σ → Parser (Option σ)) (src : Source) (s : σ) (ts : List Token) :
    List (List Token) → σ → List Token → Prop where
  | nil : Runs step src s ts [] s ts
  | snoc {chunks : List (List Token)} {chunk rest : List Token} {s' s'' : σ}
      (hruns : Runs step src s ts chunks s' (chunk ++ rest))
      (hstep : step s' src (chunk ++ rest) = .ok (some s'', rest)) :
      Runs step src s ts (chunks ++ [chunk]) s'' rest

variable {step : σ → Parser (Option σ)} {src : Source} {s s' : σ} {ts rest : List Token}
  {chunks : List (List Token)}

theorem Runs.tokens (h : Runs step src s ts chunks s' rest) : ts = chunks.flatten ++ rest := by
  induction h with
  | nil => rfl
  | snoc _ _ ih => rw [ih, List.flatten_concat, List.append_assoc]

/-- Steps that read a token or decline are taken until one declines. -/
theorem runs_of_many (hstep : ∀ s, Progresses (step s))
    (hdecline : ∀ s ts rest, step s src ts = .ok (none, rest) → rest = ts)
    (h : many step s src ts = .ok (s', rest)) : ∃ chunks, Runs step src s ts chunks s' rest := by
  suffices hfrom : ∀ chunks s₁ ts₁, Runs step src s ts chunks s₁ ts₁ →
      many step s₁ src ts₁ = .ok (s', rest) → ∃ chunks, Runs step src s ts chunks s' rest from
    hfrom [] s ts .nil h
  clear h
  intro chunks s₁ ts₁
  induction ts₁ using (measure List.length).wf.induction generalizing chunks s₁ with
  | h ts₁ ih =>
    intro hruns h
    rw [Parser.many] at h
    split at h
    case h_1 => contradiction
    case h_2 middle hnext =>
      obtain ⟨rfl, rfl⟩ := Prod.mk.inj (Except.ok.inj h)
      rw [hdecline s₁ ts₁ middle hnext]
      exact ⟨chunks, hruns⟩
    case h_3 s₂ middle hnext =>
      obtain ⟨hnone, -⟩ | ⟨t, more, rfl, read, rfl⟩ := hstep s₁ src ts₁ (some s₂) middle hnext
      · contradiction
      · have hlt : middle.length < (t :: (read ++ middle)).length := by
          rw [List.length_cons, List.length_append]
          omega
        rw [if_pos hlt] at h
        exact ih middle hlt (chunks ++ [t :: read]) s₂ (.snoc hruns hnext) h

end Parser

namespace Grammar

open DdlBridge.Parser

/-! ### One clause -/

/-- The words of the clauses that become constraints. -/
def liftedWords : List String := ["CHECK", "REFERENCES"]

/-- The kind of constraint that a clause with this word becomes. -/
def liftedKind (word : String) : ConstraintKind := if word = "CHECK" then .check else .foreignKey

/-- What a clause that starts with `word` does with the constraints and the pending name. -/
inductive Effect (word : String) (d d' : ColumnDraft) : Prop where
  | lifts (c : Constraint) (hword : word ∈ liftedWords) (hkind : c.kind = liftedKind word)
      (hd' : d' = d.lift c)
  | keeps (hword : word ∉ liftedWords) (hlifted : d'.lifted = d.lifted)
      (hname : d'.constraintName = d.constraintName)

theorem kind_refClause (fk : Constraint) : Ensures (refClause fk) fun next =>
    ∀ c ∈ next, c.kind = fk.kind := by
  have hsome : ∀ c : Constraint, c.kind = fk.kind → ∀ c' ∈ some c, c'.kind = fk.kind := by
    rintro c hc _ ⟨⟩
    exact hc
  exact .seq fun _ => .ite (fun _ => .seq fun _ => .pure (hsome _ rfl)) fun _ =>
    .seq fun _ => .ite (fun _ => .seq fun _ => .pure (hsome _ rfl)) fun _ =>
    .seq fun _ => .ite (fun _ => .seq fun _ => .pure (hsome _ rfl)) fun _ =>
    .seq fun _ => .ite (fun _ => .pure (hsome _ rfl)) fun _ =>
    .seq fun _ => .ite (fun _ => .pure (hsome _ rfl)) fun _ =>
    .seq fun _ => .ite (fun _ => .seq fun _ => .pure (hsome _ rfl)) fun _ => .pure (by simp)

theorem kind_references (fk : Constraint) : Ensures (references fk) fun c => c.kind = fk.kind := by
  have hmany : ∀ c : Constraint, c.kind = fk.kind →
      Ensures (many refClause c) fun c' => c'.kind = fk.kind := fun c hc =>
    .many hc fun c' hc' => (kind_refClause c').imp fun next hnext x hx => (hnext x hx).trans hc'
  exact .seq fun _ => .seq fun _ => .ite (fun _ => .seq fun _ => hmany _ rfl) fun _ => hmany _ rfl

/-- The end of the clauses, or a clause other than `CONSTRAINT`. -/
theorem effect_columnClause {d : ColumnDraft} {src : Source} {t : Token} {ts rest : List Token}
    {next : Option ColumnDraft} (hword : t.keyword ≠ "CONSTRAINT")
    (h : columnClause d src (t :: ts) = .ok (next, rest)) :
    next = none ∧ rest = t :: ts ∨ ∃ d', next = some d' ∧ Effect t.keyword d d' := by
  have keeps : ∀ column, t.keyword ∉ liftedWords →
      ∃ d', some { d with column } = some d' ∧ Effect t.keyword d d' :=
    fun column hnot => ⟨_, rfl, .keeps hnot rfl rfl⟩
  have lifts : ∀ c : Constraint, t.keyword ∈ liftedWords → c.kind = liftedKind t.keyword →
      ∃ d', some (d.lift c) = some d' ∧ Effect t.keyword d d' :=
    fun c hlifted hkind => ⟨_, rfl, .lifts c hlifted hkind rfl⟩
  have hpeek : peek src (t :: ts) = .ok (some t, t :: ts) := rfl
  rw [columnClause, bind_of_ok hpeek] at h
  dsimp only at h
  split at h
  case isTrue =>
    obtain ⟨rfl, rfl⟩ := Prod.mk.inj (Except.ok.inj h)
    exact .inl ⟨rfl, rfl⟩
  refine .inr ((?_ : Ensures _ fun next => ∃ d', next = some d' ∧ Effect t.keyword d d')
    src (t :: ts) next rest h)
  -- the cases are the words of the clauses, and `hw` says which one it is
  split
  case h_6 hw =>
    exact .seq fun _ => .seq fun _ => .pure (lifts _ (by rw [hw]; decide) (by rw [hw]; rfl))
  case h_7 hw =>
    exact .seq fun _ => (kind_references _).bind fun fk hkind =>
      .pure (lifts fk (by rw [hw]; decide) (by rw [hw]; exact hkind))
  case h_8 hw => exact absurd hw hword
  case h_1 hw | h_2 hw | h_9 hw | h_10 hw => exact .seq fun _ => .pure (keeps _ (by rw [hw]; decide))
  case h_13 hw =>
    exact .seq fun _ => .seq fun _ => .seq fun _ => .pure (keeps _ (by rw [hw]; decide))
  case h_18 =>
    have hnot : t.keyword ∉ liftedWords := by
      simp only [liftedWords, List.mem_cons, List.not_mem_nil, or_false, not_or]
      exact ⟨‹t.keyword = "CHECK" → False›, ‹t.keyword = "REFERENCES" → False›⟩
    exact .seq fun _ => .seq fun _ => .pure (keeps _ hnot)
  all_goals
    rename_i hw
    exact .seq fun _ => .seq fun _ => .pure (keeps _ (by rw [hw]; decide))

theorem of_ident {src : Source} {ts rest : List Token} {n : String} (h : ident src ts = .ok (n, rest)) :
    ∃ u, ts = u :: rest ∧ u.ident? = some n := by
  unfold ident at h
  split at h
  case h_1 u more =>
    split at h
    case h_1 name hname =>
      obtain ⟨rfl, rfl⟩ := Prod.mk.inj (Except.ok.inj h)
      exact ⟨u, rfl, hname⟩
    case h_2 => contradiction
  case h_2 => contradiction

theorem endsElement_of_keyword {t : Token} (h : t.keyword ≠ "") : endsElement t = false := by
  simp [endsElement, Token.isPunct, Token.kind_of_keyword h]

/-- `CONSTRAINT` and the name behind it. -/
theorem columnClause_constraint {d : ColumnDraft} {src : Source} {t : Token} {ts rest : List Token}
    {next : Option ColumnDraft} (hword : t.keyword = "CONSTRAINT")
    (h : columnClause d src (t :: ts) = .ok (next, rest)) :
    ∃ u n, ts = u :: rest ∧ u.ident? = some n ∧ next = some { d with constraintName := some n } := by
  have hend : endsElement t = false := endsElement_of_keyword (by rw [hword]; decide)
  have hpeek : peek src (t :: ts) = .ok (some t, t :: ts) := rfl
  have hadvance : advance src (t :: ts) = .ok ((), ts) := rfl
  rw [columnClause, bind_of_ok hpeek] at h
  dsimp only at h
  rw [hend, hword, if_neg (by decide)] at h
  replace h := (bind_of_ok hadvance _).symm.trans h
  rw [bind_eq] at h
  split at h
  case h_1 n more hident =>
    obtain ⟨rfl, rfl⟩ := Prod.mk.inj (Except.ok.inj h)
    obtain ⟨u, rfl, hu⟩ := of_ident hident
    exact ⟨u, n, rfl, hu, rfl⟩
  case h_2 => contradiction

/-! ### Clauses as tokens -/

/-- The clause is `CONSTRAINT n`. -/
def Names (n : String) (clause : List Token) : Prop :=
  ∃ t u : Token, clause = [t, u] ∧ t.keyword = "CONSTRAINT" ∧ u.ident? = some n

/-- The word that a clause starts with. -/
def clauseWord (clause : List Token) : String := (clause.head?.map (·.keyword)).getD ""

/-- The clause becomes a constraint of the table. -/
def lifts (clause : List Token) : Bool := clauseWord clause ∈ liftedWords

/-- The clause has nothing to do with constraint names. -/
def Passes (clause : List Token) : Prop := lifts clause = false ∧ ∀ n, ¬ Names n clause

variable {n m : String} {clause : List Token} {clauses before : List (List Token)}
  {d d' : ColumnDraft}

theorem Names.word (h : Names n clause) : clauseWord clause = "CONSTRAINT" := by
  obtain ⟨t, u, rfl, ht, -⟩ := h
  exact ht

theorem Names.lifts_eq (h : Names n clause) : lifts clause = false := by
  rw [lifts, h.word]
  decide

theorem Names.unique (h : Names n clause) (h' : Names m clause) : n = m := by
  obtain ⟨t, u, rfl, -, hu⟩ := h
  obtain ⟨t', u', htokens, -, hu'⟩ := h'
  obtain ⟨rfl, rfl⟩ : t = t' ∧ u = u' := by simpa using htokens
  exact Option.some.inj (hu.symm.trans hu')

/-- What a clause does to a draft. -/
inductive ClauseCase (clause : List Token) (d d' : ColumnDraft) : Prop where
  | names (n : String) (hclause : Names n clause) (hd' : d' = { d with constraintName := some n })
  | lifts (c : Constraint) (hclause : lifts clause = true)
      (hkind : c.kind = liftedKind (clauseWord clause)) (hd' : d' = d.lift c)
  | passes (hclause : Passes clause) (hlifted : d'.lifted = d.lifted)
      (hname : d'.constraintName = d.constraintName)

/-- A clause as it can be read: it has a token, and if it starts with `CONSTRAINT`, a name. -/
def WellRead (clause : List Token) : Prop :=
  clause ≠ [] ∧ (clauseWord clause = "CONSTRAINT" → ∃ n, Names n clause)

/-- Every clause that is read is one of the three. -/
theorem clauseCase_of_step {src : Source} {rest : List Token}
    (h : columnClause d src (clause ++ rest) = .ok (some d', rest)) :
    WellRead clause ∧ ClauseCase clause d d' := by
  obtain ⟨hnone, -⟩ | ⟨t, more, htokens, read, rfl⟩ :=
    progresses_columnClause d src _ _ _ h
  · contradiction
  obtain rfl : clause = t :: read := List.append_cancel_right htokens
  by_cases hword : t.keyword = "CONSTRAINT"
  · obtain ⟨u, n, hread, hu, hd'⟩ := columnClause_constraint hword h
    replace hread : read ++ rest = [u] ++ rest := hread
    obtain rfl : read = [u] := List.append_cancel_right hread
    have hnames : Names n [t, u] := ⟨t, u, rfl, hword, hu⟩
    exact ⟨⟨by simp, fun _ => ⟨n, hnames⟩⟩, .names n hnames (Option.some.inj hd')⟩
  · refine ⟨⟨by simp, fun heq => absurd heq hword⟩, ?_⟩
    obtain ⟨hnone, -⟩ | ⟨_, ⟨⟩, heffect⟩ := effect_columnClause hword h
    · contradiction
    cases heffect with
    | lifts c hlifted hkind hd' => exact .lifts c (decide_eq_true hlifted) hkind hd'
    | keeps hnot hlifted hname =>
      exact .passes ⟨decide_eq_false hnot, fun n hn => hword hn.word⟩ hlifted hname

theorem columnClause_declines {src : Source} {ts rest : List Token}
    (h : columnClause d src ts = .ok (none, rest)) : rest = ts := by
  cases ts with
  | nil =>
    obtain ⟨-, rfl⟩ := Prod.mk.inj (Except.ok.inj h)
    rfl
  | cons t ts =>
    by_cases hword : t.keyword = "CONSTRAINT"
    · obtain ⟨u, n, -, -, hnext⟩ := columnClause_constraint hword h
      contradiction
    · obtain ⟨-, hrest⟩ | ⟨d', hnext, -⟩ := effect_columnClause hword h
      · exact hrest
      · contradiction

/-! ### The pending name -/

/-- The last `CONSTRAINT` among the clauses names `n`, and no constraint has taken the name yet. -/
def Pending (n : String) (clauses : List (List Token)) : Prop :=
  ∃ earlier naming between, clauses = earlier ++ naming :: between ∧ Names n naming ∧
    ∀ clause ∈ between, Passes clause

/-- The last clause is `CONSTRAINT n`. -/
def EndsNaming (n : String) (clauses : List (List Token)) : Prop :=
  ∃ earlier naming, clauses = earlier ++ [naming] ∧ Names n naming

theorem EndsNaming.pending (h : EndsNaming n clauses) : Pending n clauses := by
  obtain ⟨earlier, naming, hclauses, hnames⟩ := h
  exact ⟨earlier, naming, [], hclauses, hnames, by simp⟩

theorem not_pending_nil (n : String) : ¬ Pending n [] := by
  rintro ⟨earlier, naming, between, hclauses, -⟩
  simp at hclauses

/-- One clause more. -/
theorem pending_concat_iff :
    Pending n (clauses ++ [clause]) ↔ Names n clause ∨ Passes clause ∧ Pending n clauses := by
  constructor
  · rintro ⟨earlier, naming, between, hclauses, hnames, hbetween⟩
    rcases List.eq_nil_or_concat between with rfl | ⟨between, last, rfl⟩
    · obtain ⟨-, rfl⟩ := List.append_singleton_inj.1 hclauses
      exact .inl hnames
    · have hparts : clauses ++ [clause] = (earlier ++ naming :: between) ++ [last] := by
        simpa using hclauses
      obtain ⟨rfl, rfl⟩ := List.append_singleton_inj.1 hparts
      exact .inr ⟨hbetween clause (by simp), earlier, naming, between, rfl, hnames,
        fun x hx => hbetween x (by simp [hx])⟩
  · rintro (hnames | ⟨hpasses, earlier, naming, between, rfl, hnames, hbetween⟩)
    · exact EndsNaming.pending ⟨clauses, clause, rfl, hnames⟩
    · refine ⟨earlier, naming, between ++ [clause], by simp, hnames, fun x hx => ?_⟩
      rcases List.mem_append.1 hx with hx | hx
      · exact hbetween x hx
      · rwa [List.mem_singleton.1 hx]

/-- The draft behind these clauses. -/
structure Drafted (clauses : List (List Token)) (d : ColumnDraft) : Prop where
  pending : ∀ n, d.constraintName = some n ↔ Pending n clauses
  count : d.lifted.length = clauses.countP lifts
  names : ∀ before clause after, clauses = before ++ clause :: after → lifts clause = true →
    ∃ c, d.lifted[before.countP lifts]? = some c ∧ c.kind = liftedKind (clauseWord clause) ∧
      ∀ n, c.name = some n ↔ Pending n before

theorem Drafted.init (c : Column) : Drafted [] { column := c } where
  pending n := iff_of_false (by simp) (not_pending_nil n)
  count := rfl
  names before clause after hclauses := absurd hclauses (by simp)

/-- What was lifted before stays where it is. -/
theorem Drafted.names_of_last (h : Drafted clauses d) (hgrows : d.lifted <+: d'.lifted)
    (hlast : lifts clause = true → ∃ c, d'.lifted[clauses.countP lifts]? = some c ∧
      c.kind = liftedKind (clauseWord clause) ∧ ∀ n, c.name = some n ↔ Pending n clauses)
    {before after : List (List Token)} {x : List Token}
    (hparts : clauses ++ [clause] = before ++ x :: after) (hx : lifts x = true) :
    ∃ c, d'.lifted[before.countP lifts]? = some c ∧ c.kind = liftedKind (clauseWord x) ∧
      ∀ n, c.name = some n ↔ Pending n before := by
  rcases List.eq_nil_or_concat after with rfl | ⟨after, last, rfl⟩
  · obtain ⟨rfl, rfl⟩ := List.append_singleton_inj.1 hparts
    exact hlast hx
  · have hparts' : clauses ++ [clause] = (before ++ x :: after) ++ [last] := by simpa using hparts
    obtain ⟨rfl, -⟩ := List.append_singleton_inj.1 hparts'
    obtain ⟨c, hc, hrest⟩ := h.names before x after rfl hx
    obtain ⟨more, hmore⟩ := hgrows
    have hlt := (List.getElem?_eq_some_iff.1 hc).1
    exact ⟨c, by rw [← hmore, List.getElem?_append_left hlt, hc], hrest⟩

/-- A clause that becomes no constraint leaves the constraints as they are. -/
theorem Drafted.unlifted (h : Drafted clauses d) (hlifts : lifts clause = false)
    (hlifted : d'.lifted = d.lifted)
    (hpending : ∀ n, d'.constraintName = some n ↔ Pending n (clauses ++ [clause])) :
    Drafted (clauses ++ [clause]) d' where
  pending := hpending
  count := by
    rw [hlifted, List.countP_append, List.countP_singleton, hlifts]
    exact h.count
  names before x after hparts hx := by
    refine h.names_of_last (hlifted ▸ List.prefix_rfl) (fun hlast => ?_) hparts hx
    rw [hlifts] at hlast
    contradiction

/-- A clause that becomes a constraint takes the pending name. -/
theorem Drafted.lift {c : Constraint} (h : Drafted clauses d) (hlifts : lifts clause = true)
    (hkind : c.kind = liftedKind (clauseWord clause)) :
    Drafted (clauses ++ [clause]) (d.lift c) where
  pending n := by
    rw [pending_concat_iff]
    refine iff_of_false (by simp [ColumnDraft.lift]) ?_
    rintro (hnames | ⟨hpasses, -⟩)
    · rw [hnames.lifts_eq] at hlifts
      contradiction
    · rw [hpasses.1] at hlifts
      contradiction
  count := by
    rw [List.countP_append, List.countP_singleton, hlifts, ← h.count]
    simp [ColumnDraft.lift]
  names before x after hparts hx := by
    refine h.names_of_last (List.prefix_append ..) (fun _ => ?_) hparts hx
    refine ⟨{ c with name := d.constraintName }, ?_, hkind, h.pending⟩
    rw [← h.count, ColumnDraft.lift, List.getElem?_concat_length]

theorem Drafted.concat (h : Drafted clauses d) (hclause : ClauseCase clause d d') :
    Drafted (clauses ++ [clause]) d' := by
  cases hclause with
  | names n hnames hd' =>
    refine h.unlifted hnames.lifts_eq (by rw [hd']) fun m => ?_
    rw [hd', Option.some.injEq, pending_concat_iff]
    refine ⟨fun heq => .inl (heq ▸ hnames), ?_⟩
    rintro (hm | ⟨hpasses, -⟩)
    · exact hnames.unique hm
    · exact absurd hnames (hpasses.2 n)
  | lifts c hlifts hkind hd' =>
    rw [hd']
    exact h.lift hlifts hkind
  | passes hpasses hlifted hname =>
    refine h.unlifted hpasses.1 hlifted fun m => ?_
    rw [hname, h.pending, pending_concat_iff]
    refine ⟨fun hpending => .inr ⟨hpasses, hpending⟩, ?_⟩
    rintro (hm | ⟨-, hpending⟩)
    · exact absurd hm (hpasses.2 m)
    · exact hpending

/-- Whatever the clauses, the draft behind them has the constraints that they call for. -/
theorem drafted_of_runs {src : Source} {c : Column} {ts rest : List Token}
    (h : Runs columnClause src { column := c } ts clauses d rest) :
    Drafted clauses d ∧ ∀ clause ∈ clauses, WellRead clause := by
  induction h with
  | nil => exact ⟨.init c, by simp⟩
  | snoc _ hstep ih =>
    obtain ⟨hdrafted, hwell⟩ := ih
    obtain ⟨hread, hclause⟩ := clauseCase_of_step hstep
    exact ⟨hdrafted.concat hclause,
      List.forall_mem_append.2 ⟨hwell, List.forall_mem_singleton.2 hread⟩⟩

/-! ### Names in the token list -/

/-- The tokens end in `CONSTRAINT n`. -/
def Introduces (n : String) (ts : List Token) : Prop :=
  ∃ front naming, ts = front ++ naming ∧ Names n naming

/-- The word `CONSTRAINT` stands nowhere but at the start of a clause. -/
def Unmistakable (front : List Token) (clauses : List (List Token)) : Prop :=
  (∀ t ∈ front, t.keyword ≠ "CONSTRAINT") ∧
    ∀ clause ∈ clauses, ∀ t ∈ clause.tail, t.keyword ≠ "CONSTRAINT"

theorem EndsNaming.introduces (h : EndsNaming n clauses) (front : List Token) :
    Introduces n (front ++ clauses.flatten) := by
  obtain ⟨earlier, naming, rfl, hnames⟩ := h
  exact ⟨front ++ earlier.flatten, naming, by simp, hnames⟩

theorem WellRead.eq_pair (h : WellRead clause) {t : Token}
    (htail : ∀ u ∈ clause.tail, u.keyword ≠ "CONSTRAINT") (ht : t ∈ clause)
    (hword : t.keyword = "CONSTRAINT") : ∃ u, clause = [t, u] := by
  obtain ⟨first, more, rfl⟩ := List.exists_cons_of_ne_nil h.1
  rcases List.mem_cons.1 ht with rfl | ht
  · obtain ⟨n, t', u, hclause, -⟩ := h.2 hword
    obtain ⟨-, rfl⟩ := List.cons.inj hclause
    exact ⟨u, rfl⟩
  · exact absurd hword (htail t ht)

theorem introduces_iff {front : List Token} (hplain : Unmistakable front clauses)
    (hread : ∀ clause ∈ clauses, WellRead clause) :
    Introduces n (front ++ clauses.flatten) ↔ EndsNaming n clauses := by
  refine ⟨?_, fun h => h.introduces front⟩
  rintro ⟨p, _, htokens, t, u, rfl, ht, hu⟩
  rcases List.eq_nil_or_concat clauses with rfl | ⟨earlier, last, rfl⟩
  · rw [List.flatten_nil, List.append_nil] at htokens
    exact absurd ht (hplain.1 t (by simp [htokens]))
  have hlast := hread last (by simp)
  obtain ⟨init, x, rfl⟩ := (List.eq_nil_or_concat last).resolve_left hlast.1
  have hparts : (front ++ earlier.flatten ++ init) ++ [x] = (p ++ [t]) ++ [u] := by
    simpa using htokens
  obtain ⟨hinit, rfl⟩ := List.append_singleton_inj.1 hparts
  rcases List.eq_nil_or_concat init with rfl | ⟨init, y, rfl⟩
  · -- what stands in front of the last clause cannot end in `CONSTRAINT`
    exfalso
    rcases List.eq_nil_or_concat earlier with rfl | ⟨earlier, before, rfl⟩
    · rw [List.flatten_nil, List.append_nil, List.append_nil] at hinit
      exact hplain.1 t (by simp [hinit]) ht
    · have hbefore := hread before (by simp)
      have htail := hplain.2 before (by simp)
      obtain ⟨init, z, rfl⟩ := (List.eq_nil_or_concat before).resolve_left hbefore.1
      have hends : (front ++ earlier.flatten ++ init) ++ [z] = p ++ [t] := by simpa using hinit
      obtain ⟨-, rfl⟩ := List.append_singleton_inj.1 hends
      obtain ⟨v, hpair⟩ := hbefore.eq_pair htail (by simp) ht
      obtain rfl : z = v := by simpa using congrArg List.getLast? hpair
      rw [hpair] at htail
      exact htail z (by simp) ht
  · have hends : (front ++ earlier.flatten ++ init) ++ [y] = p ++ [t] := by simpa using hinit
    obtain ⟨-, rfl⟩ := List.append_singleton_inj.1 hends
    obtain ⟨v, hpair⟩ := hlast.eq_pair (hplain.2 _ (by simp)) (by simp) ht
    obtain rfl : x = v := by simpa using congrArg List.getLast? hpair
    exact ⟨earlier, _, List.concat_eq_append, y, x, hpair, ht, hu⟩

/-! ### Column definitions -/

/-- A column definition as it is read: a name and a type, and then clauses. -/
structure ReadAs (src : Source) (ts rest front : List Token) (clauses : List (List Token))
    (d : ColumnDraft) : Prop where
  tokens : ts = front ++ (clauses.flatten ++ rest)
  runs : ∃ c, (ident >>= columnType) src ts = .ok (c, clauses.flatten ++ rest) ∧
    Runs columnClause src { column := c } (clauses.flatten ++ rest) clauses d rest

theorem exists_readAs {src : Source} {ts rest : List Token} {column : Column}
    {lifted : List Constraint} (h : columnDefinition src ts = .ok ((column, lifted), rest)) :
    ∃ front clauses d, ReadAs src ts rest front clauses d ∧ d.column = column ∧ d.lifted = lifted := by
  have hdefinition : columnDefinition = (ident >>= columnType) >>= fun c =>
      many columnClause { column := c } >>= fun d => pure (d.column, d.lifted) :=
    (bind_assoc ident columnType _).symm
  rw [hdefinition, bind_eq] at h
  split at h
  case h_2 => contradiction
  case h_1 c middle htype =>
    rw [bind_eq] at h
    split at h
    case h_2 => contradiction
    case h_1 d more hmany =>
      obtain ⟨hfound, rfl⟩ := Prod.mk.inj (Except.ok.inj h)
      obtain ⟨hcolumn, hlifted⟩ := Prod.mk.inj hfound
      obtain ⟨clauses, hruns⟩ :=
        runs_of_many progresses_columnClause (fun _ _ _ hnone => columnClause_declines hnone) hmany
      obtain rfl := hruns.tokens
      obtain ⟨front, hfront⟩ :=
        (consumes_ident.bind consumes_columnType) src ts c (clauses.flatten ++ more) htype
      exact ⟨front, clauses, d, ⟨hfront.symm, c, htype, hruns⟩, hcolumn, hlifted⟩

/-- **Names of lifted constraints.** A constraint has the name of the last `CONSTRAINT` before it that
no other constraint has taken. So it has the name that the tokens right in front of it introduce if
and only if no clause stands between the two. -/
theorem lifted_names {src : Source} {ts rest : List Token} {column : Column}
    {lifted : List Constraint} (h : columnDefinition src ts = .ok ((column, lifted), rest)) :
    ∃ front clauses d, ReadAs src ts rest front clauses d ∧ d.column = column ∧ d.lifted = lifted ∧
      lifted.length = clauses.countP lifts ∧
      ∀ before clause after, clauses = before ++ clause :: after → lifts clause = true →
        ∃ c, lifted[before.countP lifts]? = some c ∧ c.kind = liftedKind (clauseWord clause) ∧
          (∀ n, c.name = some n ↔ Pending n before) ∧
          (Unmistakable front before →
            ((∀ n, c.name = some n ↔ Introduces n (front ++ before.flatten)) ↔
              ∀ n, Pending n before → EndsNaming n before)) := by
  obtain ⟨front, clauses, d, hread, rfl, rfl⟩ := exists_readAs h
  obtain ⟨c, -, hruns⟩ := hread.runs
  obtain ⟨hdrafted, hwell⟩ := drafted_of_runs hruns
  refine ⟨front, clauses, d, hread, rfl, rfl, hdrafted.count, ?_⟩
  rintro before clause after rfl hclause
  obtain ⟨x, hx, hkind, hname⟩ := hdrafted.names before clause after rfl hclause
  refine ⟨x, hx, hkind, hname, fun hplain => ?_⟩
  have hends : ∀ n, Introduces n (front ++ before.flatten) ↔ EndsNaming n before := fun n =>
    introduces_iff hplain fun y hy => hwell y (List.mem_append_left _ hy)
  simp only [hname, hends]
  exact ⟨fun hiff n => (hiff n).1, fun hclose n => ⟨hclose n, EndsNaming.pending⟩⟩

/-- `NOT NULL` stands between the name and the `CHECK` that takes it. -/
theorem lifted_names_not_null :
    let src : Source := ⟨"x INT CONSTRAINT nn NOT NULL CHECK (x > 0)".toList, .postgres⟩
    let check : Constraint :=
      { name := some "nn", kind := .check, columns := ["x"], expression := some "x > 0" }
    columnDefinition src (tokenize .postgres src.text) =
        .ok (({ name := "x", dataType := "INT", nullable := false }, [check]), []) ∧
      ∃ front clauses d, ReadAs src (tokenize .postgres src.text) [] front clauses d ∧
        d.lifted = [check] ∧ clauses.countP lifts = 1 ∧
        ∀ before clause after, clauses = before ++ clause :: after → lifts clause = true →
          ∃ c, [check][before.countP lifts]? = some c ∧ ∀ n, c.name = some n ↔ Pending n before := by
  intro src check
  have h : columnDefinition src (tokenize .postgres src.text) =
      .ok (({ name := "x", dataType := "INT", nullable := false }, [check]), []) := by
    decide +kernel
  obtain ⟨front, clauses, d, hread, -, hlifted, hcount, hnames⟩ := lifted_names h
  refine ⟨h, front, clauses, d, hread, hlifted, hcount.symm, ?_⟩
  intro before clause after hparts hclause
  obtain ⟨c, hc, -, hname, -⟩ := hnames before clause after hparts hclause
  exact ⟨c, hc, hname⟩

end Grammar

end DdlBridge
