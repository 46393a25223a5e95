import DdlBridge.Proofs.Statement.Region
import Mathlib.Data.List.Infix

/-!
# Scanning and tokenizing one script

Oracle, SQL Server and SQLite scripts end inside a region for the scanner exactly if the lexer finds
an opener that nothing closes. If they do not, no statement ends inside a literal, a quoted
identifier or a comment of the lexer.
-/

namespace DdlBridge.Statement

open Scanner Text Lexer

variable {rules : LexicalRules}

/-- An opener that became punctuation: a quote, or the slash in front of the byte of a `*`. -/
def Unmatched (rules : LexicalRules) (script : List Char) (t : Token) : Prop :=
  t.kind = .punct ∧ ((∃ c, t.text = [c] ∧ opensQuote rules c = true) ∨
    (t.text = ['/'] ∧ (encode script)[t.stop]? = some 42))

/-- No statement of a script ends at a byte from `start` to `stop`. -/
def Uncut (rules : LexicalRules) (script : List Char) (start stop : Nat) : Prop :=
  ∀ b ∈ (scan rules (encode script)).boundaries, ¬ (start ≤ b.index ∧ b.index < stop)

/-! ### Bytes -/

theorem head?_encode_eq_some_iff {c : Char} (hc : c.toNat < 128) (cs : List Char) :
    (encode cs).head? = some (UInt8.ofNat c.toNat) ↔ cs.head? = some c := by
  cases cs with
  | nil => simp [encode]
  | cons d cs =>
    rw [encode_cons, List.head?_cons, Option.some_inj]
    rcases Nat.lt_or_ge d.toNat 128 with hd | hd
    · have hbyte : UInt8.ofNat d.toNat = UInt8.ofNat c.toNat ↔ d.toNat = c.toNat := by
        rw [← UInt8.toNat_inj, UInt8.toNat_ofNat', UInt8.toNat_ofNat']
        omega
      rw [utf8EncodeChar_of_lt hd, List.singleton_append, List.head?_cons, Option.some_inj, hbyte]
      exact Char.toNat_inj
    · have hne : d ≠ c := ne_of_le_toNat hd hc
      refine ⟨fun h => ?_, fun h => absurd h hne⟩
      cases hencode : String.utf8EncodeChar d with
      | nil => exact absurd hencode String.utf8EncodeChar_ne_nil
      | cons b bytes =>
        have hb : 128 ≤ b.toNat :=
          le_of_mem_utf8EncodeChar hd (by rw [hencode]; exact List.mem_cons_self)
        rw [hencode, List.cons_append, List.head?_cons, Option.some_inj] at h
        rw [h, UInt8.toNat_ofNat'] at hb
        omega

theorem head?_encode_eq_star (cs : List Char) :
    (encode cs).head? = some 42 ↔ cs.head? = some '*' :=
  head?_encode_eq_some_iff (c := '*') (by decide) cs

theorem getElem?_encode_append (front rest : List Char) :
    (encode (front ++ rest))[width front]? = (encode rest).head? := by
  rw [encode_append, ← length_encode, List.getElem?_append_right (Nat.le_refl _), Nat.sub_self,
    List.head?_eq_getElem?]

theorem after_append_text (rules : LexicalRules) (front text : List Char) :
    after rules (front ++ text) = (feedText (after rules front) text).1 := by
  rw [after_eq_feedText, after_eq_feedText, feedText_append]

/-- Bytes read later end statements only behind what was read before. -/
theorem mem_boundaries_append {front rest : List UInt8} {b : Boundary}
    (h : b ∈ (scan rules (front ++ rest)).boundaries) :
    b ∈ (scan rules front).boundaries ∨ front.length ≤ b.index := by
  induction rest using List.reverseRecOn with
  | nil => exact .inl (by rwa [List.append_nil] at h)
  | append_singleton rest byte ih =>
    have hindex := (scanner_scan rules (front ++ rest)).2
    rw [← List.append_assoc, scan_concat, boundaries_step] at h
    rcases List.mem_append.1 h with h | h
    · obtain ⟨-, h⟩ := List.mem_ite_nil_right.1 h
      rw [List.mem_singleton.1 h]
      refine .inr ?_
      show front.length ≤ (scan rules (front ++ rest)).index
      rw [hindex, List.length_append]
      omega
    · exact ih h

/-- Where no flag is raised no statement ends. -/
theorem boundaries_append_of_uncut {front rest : List UInt8}
    (h : (rest.foldl feedByte ((scan rules front).scanner, false)).2 = false) :
    (scan rules (front ++ rest)).boundaries = (scan rules front).boundaries := by
  induction rest using List.reverseRecOn with
  | nil => rw [List.append_nil]
  | append_singleton rest byte ih =>
    have hscanner : (scan rules (front ++ rest)).scanner =
        (rest.foldl feedByte ((scan rules front).scanner, false)).1 := by
      rw [(scanner_scan rules (front ++ rest)).1, (scanner_scan rules front).1, List.foldl_append,
        foldl_feedByte_flag]
    rw [foldl_feedByte_concat, Bool.or_eq_false_iff] at h
    rw [← List.append_assoc, scan_concat, boundaries_step, hscanner, h.2, ih h.1]
    rfl

theorem uncut_of_feedText {front text : List Char} (rest : List Char)
    (h : (feedText (after rules front) text).2 = false) :
    Uncut rules (front ++ text ++ rest) (width front) (width front + width text) := by
  rintro b hb ⟨hstart, hstop⟩
  rw [encode_append] at hb
  rcases mem_boundaries_append hb with hb | hge
  · have hscanner : (scan rules (encode front)).scanner = after rules front := by
      rw [(scanner_scan rules (encode front)).1, after_eq_feedText]
      rfl
    rw [encode_append, boundaries_append_of_uncut (by rw [hscanner]; exact h)] at hb
    have hlt := lt_of_mem_boundaries hb
    rw [length_encode] at hlt
    omega
  · rw [length_encode, width_append] at hge
    omega

/-! ### All segments -/

/-- The kinds of segments that are regions. -/
def regionKinds : List SegmentKind := [.comment, .token .string, .token .quotedIdent]

theorem not_unmatched {kind : SegmentKind} {front text rest : List Char}
    (hmatched : kind = .token .punct → ∃ d, text = [d] ∧ opensQuote rules d = false ∧
      (d = '/' → rest.head? ≠ some '*')) :
    ∀ t ∈ (Segment.token? ⟨kind, text, width front⟩).toList,
      ¬ Unmatched rules (front ++ text ++ rest) t := by
  rintro t ht ⟨hpunct, hopen⟩
  have hkind : kind = .token .punct ∧ t.text = text ∧ t.offset = width front := by
    cases kind with
    | blank | comment => exact absurd ht (by simp [Segment.token?])
    | token kind =>
      simp only [Segment.token?, Option.toList_some, List.mem_singleton] at ht
      subst ht
      exact ⟨congrArg SegmentKind.token hpunct, rfl, rfl⟩
  obtain ⟨hkind, htext, hoffset⟩ := hkind
  obtain ⟨d, rfl, hquote, hslash⟩ := hmatched hkind
  rw [htext] at hopen
  rcases hopen with ⟨c, hc, hopen⟩ | ⟨hd, hbyte⟩
  · rw [← (List.cons.inj hc).1, hquote] at hopen
    exact absurd hopen (by simp)
  · have hstop : t.stop = width (front ++ [d]) := by
      rw [Token.stop, htext, hoffset, width_append]
    rw [hstop, getElem?_encode_append, head?_encode_eq_star] at hbyte
    exact hslash (List.cons.inj hd).1 hbyte

/-- An opener that nothing closes is left as punctuation. -/
theorem unmatched_of_opener {front cs : List Char} {c : Char}
    (hopen : opensQuote rules c = true ∨ (c = '/' ∧ cs.head? = some '*')) :
    Unmatched rules (front ++ c :: cs) ⟨.punct, [c], width front⟩ := by
  refine ⟨rfl, ?_⟩
  rcases hopen with hopen | ⟨rfl, hstar⟩
  · exact .inl ⟨c, rfl, hopen⟩
  · refine .inr ⟨rfl, ?_⟩
    have hsplit : front ++ '/' :: cs = front ++ ['/'] ++ cs := by simp
    have hstop : Token.stop ⟨.punct, ['/'], width front⟩ = width (front ++ ['/']) := by
      rw [Token.stop, width_append]
    rw [hsplit, hstop, getElem?_encode_append, head?_encode_eq_star, hstar]

theorem unfinished_iff_and_uncut (hplain : Plain rules) (offset : Nat) (cs : List Char)
    (front : List Char) (hoffset : offset = width front) (hends : LineEnds cs)
    (houtside : Outside (after rules front) cs) :
    ((after rules (front ++ cs)).unfinished? ≠ none ↔
      ∃ t ∈ tokensFrom rules offset cs, Unmatched rules (front ++ cs) t) ∧
    ((after rules (front ++ cs)).unfinished? = none →
      ∀ seg ∈ segmentsFrom rules offset cs, seg.kind ∈ regionKinds →
        Uncut rules (front ++ cs) seg.offset seg.stop) := by
  fun_induction segmentsFrom rules offset cs generalizing front with
  | case1 offset =>
    rw [List.append_nil, houtside.unfinished?, tokensFrom_nil]
    simp
  | case2 offset c cs _ ih =>
    subst hoffset
    have hrules : (after rules front).rules = rules := rules_after rules front
    have happend := (takeSegment_append rules c cs).2
    have hcase := houtside.segment (sound_after rules front) (hrules.symm ▸ hplain) hends
    rw [hrules] at hcase
    rw [tokensFrom_cons]
    generalize takeSegment rules c cs = taken at happend hcase ih
    cases hcase with
    | unmatched hopen hunfinished =>
      rw [← after_append_text] at hunfinished
      rw [hrules] at hopen
      exact ⟨⟨fun _ => ⟨⟨.punct, [c], width front⟩, by simp [Segment.token?], unmatched_of_opener hopen⟩,
        fun _ => hunfinished⟩, fun h => absurd h hunfinished⟩
    | @passed kind text rest hnext hmatched hcut =>
      dsimp only at happend ih ⊢
      rw [← happend, ← List.append_assoc]
      rw [← after_append_text] at hnext
      have hends' : LineEnds rest := hends.of_suffix ⟨text, happend⟩
      obtain ⟨hiff, huncut⟩ := ih (front ++ text) (width_append _ _).symm hends' hnext
      have hhead : ∀ t ∈ (Segment.token? ⟨kind, text, width front⟩).toList,
          ¬ Unmatched rules (front ++ text ++ rest) t := not_unmatched (hrules ▸ hmatched)
      refine ⟨?_, fun hfinished seg hseg hkind => ?_⟩
      · rw [hiff]
        constructor
        · rintro ⟨t, ht, hopen⟩
          exact ⟨t, List.mem_append_right _ ht, hopen⟩
        · rintro ⟨t, ht, hopen⟩
          rcases List.mem_append.1 ht with ht | ht
          · exact absurd hopen (hhead t ht)
          · exact ⟨t, ht, hopen⟩
      · rcases List.mem_cons.1 hseg with rfl | hseg
        · exact uncut_of_feedText rest (hcut hkind)
        · exact huncut hfinished seg hseg hkind

/-! ### The dialects -/

/-- The dialects whose only escape is a doubled quote. -/
def plainDialects : List Dialect := [.oracle, .sqlServer, .sqlite]

theorem plain_of_mem {d : Dialect} (hd : d ∈ plainDialects) : Plain d.rules := by
  simp only [plainDialects, List.mem_cons, List.not_mem_nil, or_false] at hd
  rcases hd with rfl | rfl | rfl <;> exact ⟨rfl, rfl, rfl⟩

theorem finish_eq_error_iff {s : Scanner} : (∃ e, s.finish = .error e) ↔ s.unfinished? ≠ none := by
  unfold finish
  cases s.unfinished? with
  | none => simp
  | some e => simp

theorem finish_eq_ok_iff {s : Scanner} : (∃ t, s.finish = .ok t) ↔ s.unfinished? = none := by
  unfold finish
  cases s.unfinished? with
  | none => simp
  | some e => simp

/-- The scanner ends inside a region exactly if the lexer is left with an opener, and no statement
ends inside a region of the lexer. -/
theorem scans_as_tokenized {d : Dialect} (hd : d ∈ plainDialects) {script : List Char}
    (hends : LineEnds script) :
    ((∃ e, (scan d.rules (encode script)).scanner.finish = .error e) ↔
      ∃ t ∈ tokenize d script, Unmatched d.rules script t) ∧
    ((∃ s, (scan d.rules (encode script)).scanner.finish = .ok s) →
      (∀ t ∈ tokenize d script, t.kind = .string ∨ t.kind = .quotedIdent →
        Uncut d.rules script t.offset t.stop) ∧
      ∀ comment ∈ comments d script, Uncut d.rules script comment.offset comment.stop) := by
  have hscanner : (scan d.rules (encode script)).scanner = after d.rules script := by
    rw [(scanner_scan d.rules (encode script)).1, after_eq_feedText]
    rfl
  obtain ⟨hiff, huncut⟩ := unfinished_iff_and_uncut (plain_of_mem hd) 0 script [] rfl hends
    (.of_normal rfl script)
  rw [List.nil_append] at hiff huncut
  rw [finish_eq_error_iff, finish_eq_ok_iff, hscanner]
  refine ⟨hiff, fun hfinished => ⟨fun t ht hkind => ?_, fun comment hcomment => ?_⟩⟩
  · rw [tokenize, tokensFrom_eq_filterMap] at ht
    obtain ⟨seg, hseg, htoken⟩ := List.mem_filterMap.1 ht
    have hsegment : seg.kind = .token t.kind ∧ seg.offset = t.offset ∧ seg.stop = t.stop := by
      unfold Segment.token? at htoken
      split at htoken
      case h_1 kind heq =>
        obtain rfl := Option.some.inj htoken
        exact ⟨heq, rfl, rfl⟩
      case h_2 => exact absurd htoken (by simp)
    obtain ⟨hkind', hstart, hstop⟩ := hsegment
    rw [← hstart, ← hstop]
    refine huncut hfinished seg hseg ?_
    rw [hkind']
    rcases hkind with h | h <;> rw [h] <;> decide
  · obtain ⟨hseg, hkind⟩ := List.mem_filter.1 hcomment
    refine huncut hfinished comment hseg ?_
    rw [of_decide_eq_true hkind]
    decide

instance LineEnds.decidable (cs : List Char) : Decidable (LineEnds cs) :=
  decidable_of_iff (∀ rest ∈ cs.tails, rest.head? = some '\r' → rest.tail.head? = some '\n') (by
    refine ⟨fun h rest hrest => h _ ((List.mem_tails _ _).2 hrest) rfl, fun h rest hrest hhead => ?_⟩
    obtain ⟨more, rfl⟩ := List.head?_eq_some_iff.1 hhead
    exact h more ((List.mem_tails _ _).1 hrest))

/-- A quote that is left open, and a script with a `;` in a comment and a name. -/
theorem scans_as_tokenized_two_scripts :
    (∃ e, (scan Dialect.oracle.rules (encode "SELECT 'a;b' -- c\r\nFROM \x22t;".toList)).scanner.finish =
      .error e) ∧
    (scan Dialect.sqlServer.rules (encode "SELECT 1 /* a; */ FROM [b;]; GO".toList)).boundaries =
      [⟨27, true⟩] ∧
    (∀ comment ∈ comments .sqlServer "SELECT 1 /* a; */ FROM [b;]; GO".toList,
      Uncut Dialect.sqlServer.rules "SELECT 1 /* a; */ FROM [b;]; GO".toList comment.offset
        comment.stop) := by
  refine ⟨?_, by decide +kernel, ?_⟩
  · refine (scans_as_tokenized (by decide) (by decide +kernel)).1.2
      ⟨⟨.punct, ['\x22'], 24⟩, by decide +kernel, rfl, .inl ⟨'\x22', rfl, by decide⟩⟩
  · exact ((scans_as_tokenized (by decide) (by decide +kernel)).2
      ⟨_, rfl⟩).2

end DdlBridge.Statement
