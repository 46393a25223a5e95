import DdlBridge.Proofs.Grammar.Sequence

/-!
# Reading definitions

A statement that creates a table or a sequence out of atoms is read as a schema of that table or
sequence alone (`ofStatement_table`, `ofStatement_sequence`).
-/

namespace DdlBridge

open Text Atom Ddl DdlBridge.Parser DdlBridge.Grammar

variable {d : Dialect}

/-- A statement that creates something. -/
def Atom.create (as : List Atom) : List Atom := word "CREATE".toList :: blank ' ' :: as

theorem ofStatement_of_reads {as : List Atom} (object : Option Object) {fragment : Schema}
    {s : Statement} (htext : s.text = textOf (Atom.create as))
    (hapart : Apart d.rules (Atom.create as))
    (hobject : ∀ n, createHead {} (place n as) = some ({}, object, place n as))
    (hread : Reads d (objectSchema {} object) as fragment []) : ofStatement d s = .ok fragment := by
  have htokens : tokenize d s.text = ⟨.word, "CREATE".toList, 0⟩ :: place (width "CREATE ".toList) as := by
    rw [htext]
    exact hapart.tokensFrom 0
  have hobject := hobject (width "CREATE ".toList)
  have hfragment := hread "CREATE ".toList
  rw [List.append_nil] at hfragment
  have htext' : s.text = "CREATE ".toList ++ textOf as := by
    rw [htext, Atom.create, textOf_cons, textOf_cons]
    rfl
  rw [← htext'] at hfragment
  exact ofStatement_of_create htokens rfl hobject hfragment

theorem ofStatement_table {name : String} {es : List Element} {s : Statement}
    (htext : s.text = textOf (Atom.create (Atom.table d name es)))
    (hapart : Apart d.rules (Atom.create (Atom.table d name es))) (hne : es ≠ [])
    (hes : ∀ e ∈ es, e.Plain d) (hnew : AllNew { name } es)
    (hcolumns : (tableOf name es).columns ≠ []) :
    ofStatement d s = .ok { tables := [tableOf name es] } := by
  refine ofStatement_of_reads (some .table) htext hapart (fun _ => rfl) ?_
  exact Reads.bind_pure (reads_tableDefinition hne hes hnew hcolumns) (Reads.pure _ [])

theorem ofStatement_sequence {q : Sequence} {s : Statement}
    (htext : s.text = textOf (Atom.create (Atom.sequence d q)))
    (hapart : Apart d.rules (Atom.create (Atom.sequence d q))) :
    ofStatement d s = .ok { sequences := [q] } := by
  refine ofStatement_of_reads (some .sequence) htext hapart (fun _ => rfl) ?_
  exact Reads.bind_pure (reads_sequenceDefinition d q) (Reads.pure _ [])

end DdlBridge
