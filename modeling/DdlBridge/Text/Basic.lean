import DdlBridge.Text.Blank

/-!
# Source text

Source text is a list of characters. Positions in it count the bytes of its UTF-8 form, so that
they agree with positions in the stream the text was read from; `slice_width_append` says that a
part is found again at its position.
-/

namespace DdlBridge.Text

/-- A statement about the characters of a list is decided along the list. The other instance that
applies to it runs through all characters there are. -/
instance decidableForallMem {p : Char → Prop} [DecidablePred p] (cs : List Char) :
    Decidable (∀ c ∈ cs, p c) :=
  List.decidableBAll p cs

/-- Length in UTF-8 bytes. -/
def width (cs : List Char) : Nat := cs.foldr (fun c n => c.utf8Size + n) 0

def trimStart (cs : List Char) : List Char := cs.dropWhile isBlank

def trimEnd (cs : List Char) : List Char := (cs.reverse.dropWhile isBlank).reverse

def trim (cs : List Char) : List Char := trimEnd (trimStart cs)

/-- The pieces between the characters that satisfy `p`, empty ones included. -/
def splitAt (p : Char → Bool) : List Char → List (List Char)
  | [] => [[]]
  | c :: cs =>
    if p c then [] :: splitAt p cs
    else match splitAt p cs with
      | [] => [[c]]
      | piece :: pieces => (c :: piece) :: pieces

/-- The maximal runs without white space. -/
def words (cs : List Char) : List (List Char) := (splitAt isBlank cs).filter (! ·.isEmpty)

/-- What is left behind the first `n` bytes. -/
def dropBytes : Nat → List Char → List Char
  | _, [] => []
  | 0, cs => cs
  | n + 1, c :: cs => dropBytes (n + 1 - c.utf8Size) cs

/-- The first `n` bytes. -/
def takeBytes : Nat → List Char → List Char
  | _, [] => []
  | 0, _ => []
  | n + 1, c :: cs => c :: takeBytes (n + 1 - c.utf8Size) cs

/-- The bytes from `start` up to but excluding `stop`. -/
def slice (start stop : Nat) (cs : List Char) : List Char :=
  takeBytes (stop - start) (dropBytes start cs)

/-- What a reader takes from the front of a text and what it leaves, if it takes anything. -/
abbrev Taken := Option (List Char × List Char)

/-- `front` was read first. -/
def Taken.behind (front : List Char) (t : Taken) : Taken :=
  t.map fun (text, rest) => (front ++ text, rest)

/-- Splits around the first occurrence of `needle`. -/
def breakOn (needle : List Char) : List Char → Taken
  | [] => if needle.isEmpty then some ([], []) else none
  | c :: cs =>
    if needle.isPrefixOf (c :: cs) then some ([], (c :: cs).drop needle.length)
    else (breakOn needle cs).behind [c]

/-- Every doubled `quote` becomes a single one, from the left. -/
def undouble (quote : Char) : List Char → List Char
  | [] => []
  | [c] => [c]
  | c :: d :: cs =>
    if c = quote ∧ d = quote then quote :: undouble quote cs else c :: undouble quote (d :: cs)

/-- Every `quote` is written twice. -/
def double (quote : Char) : List Char → List Char
  | [] => []
  | c :: cs => if c = quote then quote :: quote :: double quote cs else c :: double quote cs

def upper (cs : List Char) : List Char := cs.map Char.toUpper

def lower (cs : List Char) : List Char := cs.map Char.toLower

/-- Equality up to the case of ASCII letters. -/
def sameName (a b : String) : Bool := lower a.toList == lower b.toList

def joinWith (separator : String) : List String → String
  | [] => ""
  | [s] => s
  | s :: t :: rest => s ++ separator ++ joinWith separator (t :: rest)

/-- The digits `0` to `9` as a number; `none` for the empty text and for any other character. -/
def natural? (cs : List Char) : Option Nat :=
  if cs.isEmpty then none
  else cs.foldl
    (fun n c => n.bind fun n => if c.isDigit then some (10 * n + (c.toNat - 48)) else none) (some 0)

@[simp] theorem width_nil : width [] = 0 := rfl

@[simp] theorem width_cons (c : Char) (cs : List Char) :
    width (c :: cs) = c.utf8Size + width cs := rfl

@[simp] theorem width_append (as bs : List Char) : width (as ++ bs) = width as + width bs := by
  induction as with
  | nil => simp
  | cons c as ih => rw [List.cons_append, width_cons, width_cons, ih, Nat.add_assoc]

theorem width_pos {cs : List Char} (h : cs ≠ []) : 0 < width cs := by
  obtain ⟨c, cs, rfl⟩ := List.exists_cons_of_ne_nil h
  rw [width_cons]
  exact Nat.add_pos_left c.utf8Size_pos _

theorem dropBytes_width_append (as bs : List Char) : dropBytes (width as) (as ++ bs) = bs := by
  induction as with
  | nil => cases bs <;> rfl
  | cons c as ih =>
    obtain ⟨n, hn⟩ := Nat.exists_eq_add_one_of_ne_zero (Nat.pos_iff_ne_zero.1 c.utf8Size_pos)
    have hsum : width (c :: as) = (n + width as) + 1 := by rw [width_cons, hn]; omega
    rw [hsum, List.cons_append, dropBytes, hn, show n + width as + 1 - (n + 1) = width as by omega,
      ih]

theorem takeBytes_width_append (as bs : List Char) : takeBytes (width as) (as ++ bs) = as := by
  induction as with
  | nil => cases bs <;> rfl
  | cons c as ih =>
    obtain ⟨n, hn⟩ := Nat.exists_eq_add_one_of_ne_zero (Nat.pos_iff_ne_zero.1 c.utf8Size_pos)
    have hsum : width (c :: as) = (n + width as) + 1 := by rw [width_cons, hn]; omega
    rw [hsum, List.cons_append, takeBytes, hn, show n + width as + 1 - (n + 1) = width as by omega,
      ih]

theorem slice_width_append (as bs cs : List Char) :
    slice (width as) (width as + width bs) (as ++ (bs ++ cs)) = bs := by
  rw [slice, dropBytes_width_append, Nat.add_sub_cancel_left, takeBytes_width_append]

theorem Taken.behind_eq_some_iff {front text rest : List Char} {t : Taken} :
    t.behind front = some (text, rest) ↔
      ∃ inner, t = some (inner, rest) ∧ text = front ++ inner := by
  cases t <;> simp [Taken.behind]
  grind

theorem breakOn_eq_some {needle cs before after : List Char}
    (h : breakOn needle cs = some (before, after)) : cs = before ++ needle ++ after := by
  induction cs generalizing before with
  | nil =>
    cases needle <;> simp_all [breakOn]
  | cons c cs ih =>
    rw [breakOn] at h
    split at h
    · rename_i hp
      obtain ⟨rest, hrest⟩ := List.isPrefixOf_iff_prefix.1 hp
      simp only [Option.some.injEq, Prod.mk.injEq] at h
      rw [← h.1, ← h.2, ← hrest]
      simp
    · obtain ⟨inner, hinner, rfl⟩ := Taken.behind_eq_some_iff.1 h
      simp [ih hinner]

/-- What satisfies `p` ends where something else follows. -/
theorem takeWhile_append_of_head {p : Char → Bool} {cs rest : List Char} (hcs : ∀ c ∈ cs, p c = true)
    (hrest : ∀ c ∈ rest.head?, p c = false) :
    (cs ++ rest).takeWhile p = cs ∧ (cs ++ rest).dropWhile p = rest := by
  rw [List.takeWhile_append_of_pos hcs, List.dropWhile_append_of_pos hcs]
  cases rest with
  | nil => simp
  | cons c rest =>
    have hc : ¬ p c = true := by rw [hrest c rfl]; simp
    rw [List.takeWhile_cons_of_neg hc, List.dropWhile_cons_of_neg hc, List.append_nil]
    exact ⟨rfl, rfl⟩

end DdlBridge.Text
