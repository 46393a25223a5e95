import DdlBridge.Proofs.Ddl.Name
import DdlBridge.Proofs.Statement.Lexing

/-!
# Names in quotes

In quotes a name is opaque, whatever characters it has: the lexer reads one token that stands for it,
and a scanner finds no statement end in it (`quoteIdent_isolated`).
-/

namespace DdlBridge

open Text Atom Ddl Statement Scanner

theorem readTokens_quotedName (d : Dialect) (name : String) :
    readTokens d (quotedName d name).text = .ok [⟨.quotedIdent, (quotedName d name).text, 0⟩] := by
  have happart : Apart d.rules [quotedName d name] :=
    .cons (formed_quotedName d name) (by simp [Atom.textOf]) .nil
  have hkind : (quotedName d name).kind? = some .quotedIdent := by
    rw [quotedName, kind?, if_neg (quotes_opens d).2.2.2.1]
  have htokens := happart.tokensFrom 0
  rw [textOf_singleton, place_of_kind hkind] at htokens
  rw [readTokens_eq, tokenize, htokens]
  rfl

namespace Scanner

/-- Outside every region, also within a word, a scanner reads quotes around a text up to the closing
one. -/
theorem feedText_quoted_of_normal {s : Scanner} (h : s.region = .normal) {opening : Char}
    {body : List Char} (hopens : opensQuote s.rules opening = true)
    (hbody : Enclosed s.rules (closing opening) body) :
    (feedText s (Lexeme.quoted opening body).text).2 = false ∧
      (feedText s (Lexeme.quoted opening body).text).1.region = .quoteEnd (closing opening) := by
  have hword : extendsWord opening = false := extendsWord_of_opensQuote hopens
  have hdecides : decides s opening := by
    simp only [decides, h]
    exact .inr hword
  -- The quote ends a word that stands in front of it, and is then read as if none had.
  have hfirst : feedChar s opening = feedChar s.endWord opening := by
    have hsettle : settle s = s.endWord := by simp only [settle, h]
    rw [feedChar_settle (.of_normal h) hdecides, hsettle]
  have hsettled : Settled s.endWord := ⟨(region_endWord s).trans h, word_endWord s⟩
  rw [← rules_endWord s] at hopens hbody
  obtain ⟨line, hread⟩ := feedText_quoted hsettled hopens hbody
  rw [Lexeme.text, feedText_cons] at hread
  rw [Lexeme.text, feedText_cons, hfirst, hread]
  exact ⟨rfl, rfl⟩

theorem scan_append_of_uncut (rules : LexicalRules) (bytes : List UInt8) (cs : List Char)
    (h : (feedText (scan rules bytes).scanner cs).2 = false) :
    (scan rules (bytes ++ encode cs)).boundaries = (scan rules bytes).boundaries ∧
      (scan rules (bytes ++ encode cs)).scanner = (feedText (scan rules bytes).scanner cs).1 := by
  refine ⟨boundaries_append_of_uncut h, ?_⟩
  rw [(scanner_scan rules (bytes ++ encode cs)).1, (scanner_scan rules bytes).1, List.foldl_append,
    foldl_feedByte_flag]
  rfl

end Scanner

/-- **Names in quotes are opaque.** A name in the quotes of a dialect is one token that stands for that
name. A scanner that is outside every region, wherever in a text, finds no statement end in it and is
left behind the closing quote, where the text may end. -/
theorem quoteIdent_isolated (d : Dialect) (name : String) :
    readTokens d ((Style.of d).quoteIdent name).toList =
        .ok [⟨.quotedIdent, ((Style.of d).quoteIdent name).toList, 0⟩] ∧
      Token.ident? ⟨.quotedIdent, ((Style.of d).quoteIdent name).toList, 0⟩ = some name ∧
      ∀ bytes, (scan d.rules bytes).scanner.region = .normal →
        (scan d.rules (bytes ++ encode ((Style.of d).quoteIdent name).toList)).boundaries =
            (scan d.rules bytes).boundaries ∧
          (scan d.rules (bytes ++ encode ((Style.of d).quoteIdent name).toList)).scanner.region =
            .quoteEnd (Style.of d).quotes.2 ∧
          ∃ s, (scan d.rules (bytes ++ encode ((Style.of d).quoteIdent name).toList)).scanner.finish =
            .ok s := by
  have htext := text_quotedName d name
  refine ⟨htext ▸ readTokens_quotedName d name, ?_, fun bytes hnormal => ?_⟩
  · rw [← htext, Token.ident?, unquote_quotedName, String.ofList_toList]
  · obtain ⟨hopens, hcloses, hescape, -, -⟩ := quotes_opens d
    have hrules := rules_scan d.rules bytes
    obtain ⟨huncut, hregion⟩ := feedText_quoted_of_normal hnormal (by rwa [hrules])
      (by rw [hrules, hcloses]; exact enclosed_double hescape name.toList)
    have hquoted : (Lexeme.quoted (Style.of d).quotes.1 (double (Style.of d).quotes.2 name.toList)).text =
        ((Style.of d).quoteIdent name).toList := htext
    rw [hquoted] at huncut hregion
    obtain ⟨hboundaries, hscanner⟩ := scan_append_of_uncut d.rules bytes _ huncut
    rw [hscanner]
    refine ⟨hboundaries, hregion.trans (by rw [hcloses]), finish_eq_ok_iff.2 ?_⟩
    rw [unfinished?, hregion]

/-- A name with a closing bracket, a semicolon and a line end, behind a word. -/
theorem quoteIdent_isolated_behind_word :
    (scan Dialect.sqlServer.rules (encode "DROP x".toList)).scanner.region = .normal ∧
      (scan Dialect.sqlServer.rules (encode "DROP x".toList ++
        encode ((Style.of .sqlServer).quoteIdent "a]b;\n").toList)).boundaries =
          (scan Dialect.sqlServer.rules (encode "DROP x".toList)).boundaries ∧
      (scan Dialect.sqlServer.rules (encode "DROP x".toList ++
        encode ((Style.of .sqlServer).quoteIdent "a]b;\n").toList)).scanner.region = .quoteEnd ']' :=
  have hnormal : (scan Dialect.sqlServer.rules (encode "DROP x".toList)).scanner.region = .normal := by
    decide +kernel
  have hscan := (quoteIdent_isolated .sqlServer "a]b;\n").2.2 _ hnormal
  ⟨hnormal, hscan.1, hscan.2.1⟩

end DdlBridge
