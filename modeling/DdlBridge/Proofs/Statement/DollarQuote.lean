import DdlBridge.Proofs.Statement.Misread

/-!
# Where a dollar-quoted literal ends

Inside a dollar-quoted literal a scanner only counts how much of the tag it has met behind the last `$`,
and where a byte does not fit it starts over by hand. A tag has no `$` in it, so the delimiter can occur
only from a `$` at which the count starts over: no occurrence is missed, none is made up, and the literal
ends where a search for the delimiter finds it first (`dollarQuoted_up_to_first`).
-/

namespace DdlBridge.Statement

open Scanner Text

variable {s : Scanner} {tag : List Char} {needle front rest bytes : List UInt8}

/-! ### First occurrences -/

/-- In `text` the needle stands behind `front`, and nowhere before. -/
structure FirstBehind (needle text front : List UInt8) : Prop where
  occurs : front ++ needle <+: text
  first : ∀ early, early ++ needle <+: text → front.length ≤ early.length

/-- The first occurrence is the one that no other one ends before. -/
theorem firstBehind_iff (hneedle : needle ≠ []) :
    FirstBehind needle (front ++ needle ++ rest) front ↔ ¬ needle <:+: front ++ needle.dropLast := by
  have hpos := List.length_pos_iff.2 hneedle
  have hfront : front ++ needle.dropLast <+: front ++ needle ++ rest := by
    have hshort := List.dropLast_prefix needle
    rw [List.append_assoc]
    exact (List.prefix_append_right_inj front).2 (hshort.trans (List.prefix_append needle rest))
  constructor
  · rintro ⟨-, hfirst⟩ ⟨early, later, hwhole⟩
    have hearly : early ++ needle <+: front ++ needle.dropLast := ⟨later, hwhole⟩
    have hle := hfirst early (hearly.trans hfront)
    have hlength := hearly.length_le
    simp only [List.length_append, List.length_dropLast] at hlength
    omega
  · intro hnot
    refine ⟨List.prefix_append _ _, fun early hearly => Nat.le_of_not_lt fun hlt => hnot ?_⟩
    have hinside : early ++ needle <+: front ++ needle.dropLast := by
      apply List.prefix_of_prefix_length_le hearly hfront
      simp only [List.length_append, List.length_dropLast]
      omega
    exact (List.suffix_append early needle).isInfix.trans hinside.isInfix

/-! ### Bytes as scanners see them -/

/-- The bytes, each read as the character with its number. -/
def seen (bytes : List UInt8) : List Char := bytes.map fun b => Char.ofNat b.toNat

theorem seen_append (front rest : List UInt8) : seen (front ++ rest) = seen front ++ seen rest :=
  List.map_append

theorem seen_encode {cs : List Char} (h : ∀ c ∈ cs, c.toNat < 128) : seen (encode cs) = cs := by
  induction cs with
  | nil => rfl
  | cons c cs ih =>
    obtain ⟨hc, hcs⟩ := List.forall_mem_cons.1 h
    rw [encode_cons, seen_append, ih hcs, utf8EncodeChar_of_lt hc, seen, List.map_singleton,
      ofNat_toNat_byte hc, List.singleton_append]

theorem infix_of_seen (h : seen needle <:+: seen bytes) : needle <:+: bytes := by
  have hinjective : Function.Injective fun b : UInt8 => Char.ofNat b.toNat := by
    intro b b' heq
    have hnumber := congrArg Char.toNat heq
    dsimp only at hnumber
    rw [toNat_ofNat_byte, toNat_ofNat_byte] at hnumber
    exact UInt8.toNat_inj.1 hnumber
  obtain ⟨found, hfound, heq⟩ := List.infix_map_iff.1 h
  rwa [hinjective.list_map heq]

/-! ### Delimiters -/

/-- The bytes of `$tag$`. -/
def delimiter (tag : List Char) : List UInt8 := encode ('$' :: (tag ++ ['$']))

theorem delimiter_eq (tag : List Char) : delimiter tag = encode ('$' :: tag) ++ [36] :=
  encode_append ('$' :: tag) ['$']

theorem dropLast_delimiter (tag : List Char) : (delimiter tag).dropLast = encode ('$' :: tag) := by
  rw [delimiter_eq, List.dropLast_concat]

theorem delimiter_ne_nil (tag : List Char) : delimiter tag ≠ [] := by
  rw [delimiter_eq]
  exact List.append_ne_nil_of_right_ne_nil _ (by simp)

theorem seen_delimiter (htag : ∀ c ∈ tag, Lexeme.inTag c = true) :
    seen (delimiter tag) = '$' :: (tag ++ ['$']) ∧ seen (encode ('$' :: tag)) = '$' :: tag := by
  have hlt : ∀ c ∈ '$' :: tag, c.toNat < 128 :=
    List.forall_mem_cons.2 ⟨by decide, fun c hc => lt_of_inTag (htag c hc)⟩
  have hfront := seen_encode hlt
  refine ⟨?_, hfront⟩
  rw [delimiter_eq, seen_append, hfront]
  rfl

theorem not_infix_seen (htag : ∀ c ∈ tag, Lexeme.inTag c = true) (h : ¬ delimiter tag <:+: bytes) :
    ¬ '$' :: (tag ++ ['$']) <:+: seen bytes := by
  rw [← (seen_delimiter htag).1]
  exact fun hoccurs => h (infix_of_seen hoccurs)

/-! ### Inside the literal -/

theorem feed_dollar {found : Option Nat} (hregion : s.region = .dollar tag found) {b : UInt8}
    (hopen : ¬ (found = some tag.length ∧ Char.ofNat b.toNat = '$')) :
    (s.feed b).1.region = .dollar tag (dollarFound tag found (Char.ofNat b.toNat)) ∧
      (s.feed b).2 = false := by
  simp only [feed, step, hregion, stepDollar]
  rw [if_neg hopen]
  split
  all_goals exact ⟨rfl, trivial⟩

theorem foldl_feedByte_dollar (hregion : s.region = .dollar tag none)
    (hbytes : ¬ '$' :: (tag ++ ['$']) <:+: seen bytes) :
    (bytes.foldl feedByte (s, false)).1.region = .dollar tag (foundAfter tag (seen bytes)) ∧
      (bytes.foldl feedByte (s, false)).2 = false := by
  induction bytes using List.reverseRecOn with
  | nil => exact ⟨hregion, rfl⟩
  | append_singleton bytes b ih =>
    have hseen : seen (bytes ++ [b]) = seen bytes ++ [Char.ofNat b.toNat] := seen_append bytes [b]
    rw [hseen] at hbytes
    obtain ⟨hinside, huncut⟩ := ih fun h => hbytes (h.trans (List.prefix_append _ _).isInfix)
    obtain ⟨hnext, hnot⟩ := feed_dollar hinside (not_closes_of_not_within hbytes)
    rw [foldl_feedByte_concat, hseen, foundAfter_concat, huncut, hnot]
    exact ⟨hnext, rfl⟩

/-- The literal is left with the byte that completes the delimiter for the first time. -/
theorem foldl_feedByte_closing (hregion : s.region = .dollar tag none)
    (htag : ∀ c ∈ tag, Lexeme.inTag c = true)
    (hfirst : ¬ delimiter tag <:+: front ++ (delimiter tag).dropLast) :
    ((front ++ delimiter tag).foldl feedByte (s, false)).1.region = .normal ∧
      ((front ++ delimiter tag).foldl feedByte (s, false)).2 = false := by
  have hnot := not_infix_seen htag hfirst
  obtain ⟨hinside, huncut⟩ := foldl_feedByte_dollar hregion hnot
  rw [dropLast_delimiter, seen_append, (seen_delimiter htag).2] at hnot hinside
  rw [foundAfter_tag (dollar_not_inTag htag) hnot] at hinside
  rw [dropLast_delimiter] at huncut
  have hclose : ∀ t : Scanner, t.region = .dollar tag (some tag.length) →
      t.feed 36 = ({ t with region := .normal }, false) := by
    intro t ht
    simp only [feed, step, ht, stepDollar]
    rw [if_pos ⟨trivial, by decide⟩]
  rw [delimiter_eq, ← List.append_assoc, foldl_feedByte_concat, huncut, hclose _ hinside]
  exact ⟨rfl, rfl⟩

/-- Behind these bytes a scanner is inside the literal: no statement has ended since, and the text may
not end. -/
structure InDollar (s : Scanner) (tag : List Char) (bytes : List UInt8) : Prop where
  region : ∃ found, (bytes.foldl feedByte (s, false)).1.region = .dollar tag found
  uncut : (bytes.foldl feedByte (s, false)).2 = false
  finish : (bytes.foldl feedByte (s, false)).1.finish =
    .error (.invalidInput "unterminated dollar-quoted string at end of input")

theorem InDollar.of_region {found : Option Nat}
    (hregion : (bytes.foldl feedByte (s, false)).1.region = .dollar tag found)
    (huncut : (bytes.foldl feedByte (s, false)).2 = false) : InDollar s tag bytes := by
  refine ⟨⟨found, hregion⟩, huncut, ?_⟩
  rw [Scanner.finish, Scanner.unfinished?, hregion]

/-- `$tag$` takes a scanner that is outside of all regions and words into the literal. -/
theorem foldl_feedByte_delimiter (hrules : s.rules.dollarQuotes = true) (hs : Settled s)
    (htag : isTag tag = true) : ∃ t : Scanner, t.region = .dollar tag none ∧
      ∀ more, (delimiter tag ++ more).foldl feedByte (s, false) = more.foldl feedByte (t, false) := by
  simp only [isTag, Bool.and_eq_true, List.all_eq_true, Bool.not_eq_true',
    Option.any_eq_false] at htag
  obtain ⟨line, hopening⟩ := feedText_opening hs hrules htag.1 htag.2
  refine ⟨inDollar s (.dollar tag none) line true, rfl, fun more => ?_⟩
  rw [List.foldl_append]
  exact congrArg (more.foldl feedByte) hopening

/-- **A dollar-quoted literal ends behind the first occurrence of its delimiter.** A scanner of
PostgreSQL outside all regions and words that reads `$tag$` and then any bytes is inside the literal until
the bytes `$tag$` have been read for the first time, and outside with the last of them. If they are never
read, it stays inside to the end, where the literal is not terminated. No statement ends meanwhile. -/
theorem dollarQuoted_up_to_first (hrules : s.rules = Dialect.postgres.rules) (hs : Settled s)
    (htag : isTag tag = true) (body : List UInt8) :
    (∀ front, FirstBehind (delimiter tag) body front →
      (∀ read, read <+: front ++ delimiter tag → read ≠ front ++ delimiter tag →
        InDollar s tag (delimiter tag ++ read)) ∧
      ((delimiter tag ++ (front ++ delimiter tag)).foldl feedByte (s, false)).1.region = .normal ∧
      ((delimiter tag ++ (front ++ delimiter tag)).foldl feedByte (s, false)).2 = false) ∧
    (¬ delimiter tag <:+: body → ∀ read, read <+: body → InDollar s tag (delimiter tag ++ read)) := by
  have hin : ∀ c ∈ tag, Lexeme.inTag c = true := by
    simp only [isTag, Bool.and_eq_true, List.all_eq_true] at htag
    exact htag.1
  obtain ⟨t, hregion, hopening⟩ := foldl_feedByte_delimiter (by rw [hrules]; rfl) hs htag
  have hinside : ∀ read, ¬ delimiter tag <:+: read → InDollar s tag (delimiter tag ++ read) := by
    intro read hnot
    obtain ⟨hdollar, huncut⟩ := foldl_feedByte_dollar hregion (not_infix_seen hin hnot)
    rw [← hopening] at hdollar huncut
    exact .of_region hdollar huncut
  constructor
  · intro front hfront
    have hfirst : ¬ delimiter tag <:+: front ++ (delimiter tag).dropLast := by
      obtain ⟨rest, hbody⟩ := hfront.occurs
      rw [← hbody] at hfront
      exact (firstBehind_iff (delimiter_ne_nil tag)).1 hfront
    refine ⟨fun read hread hne => hinside read fun hoccurs => hfirst ?_, ?_⟩
    · -- What is read lacks the last byte of the occurrence at least.
      have hshort : read <+: front ++ (delimiter tag).dropLast := by
        obtain ⟨unread, hwhole⟩ := hread
        have hunread : unread ≠ [] := by
          rintro rfl
          exact hne (by rw [← hwhole, List.append_nil])
        rw [← List.dropLast_append_of_ne_nil (delimiter_ne_nil tag), ← hwhole,
          List.dropLast_append_of_ne_nil hunread]
        exact List.prefix_append read unread.dropLast
      exact hoccurs.trans hshort.isInfix
    · rw [hopening]
      exact foldl_feedByte_closing hregion hin hfirst
  · intro hnot read hread
    exact hinside read fun hoccurs => hnot (hoccurs.trans hread.isInfix)

/-- A body that opens the delimiter a second time before it is closed, and one that only opens it. -/
theorem dollarQuoted_up_to_first_overlap :
    ((delimiter "tag".toList ++ (encode "$ta".toList ++ delimiter "tag".toList)).foldl feedByte
        (fresh Dialect.postgres.rules, false)).1.region = .normal ∧
      InDollar (fresh Dialect.postgres.rules) "tag".toList
        (delimiter "tag".toList ++ encode "$ta$ta".toList) :=
  have hs : Settled (fresh Dialect.postgres.rules) := ⟨rfl, rfl⟩
  have htag : isTag "tag".toList = true := by decide
  have hunclosed :
      ¬ delimiter "tag".toList <:+: encode "$ta".toList ++ (delimiter "tag".toList).dropLast := by
    decide
  have hfirst : FirstBehind (delimiter "tag".toList)
      (encode "$ta".toList ++ delimiter "tag".toList ++ [59]) (encode "$ta".toList) :=
    (firstBehind_iff (delimiter_ne_nil _)).2 hunclosed
  ⟨((dollarQuoted_up_to_first rfl hs htag _).1 _ hfirst).2.1,
    (dollarQuoted_up_to_first rfl hs htag (encode "$ta$ta".toList)).2 (by decide) _ (List.prefix_refl _)⟩

end DdlBridge.Statement
