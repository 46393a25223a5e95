import DdlBridge.Proofs.Text.Ascii
import DdlBridge.Text.Basic
import Mathlib.Data.List.TakeWhile

/-!
# Letter case

Lower-casing the ASCII letters of a text moves nothing in it: characters keep their widths and their
classes, and what is cut out of the lower text is the lower text of what is cut out.
-/

namespace DdlBridge.Text

/-! ### Characters -/

theorem toLower_of_le {c : Char} (h : 128 ≤ c.toNat) : c.toLower = c := by
  have hval : c.toNat = c.val.toNat := rfl
  have hZ : 'Z'.val.toNat = 90 := rfl
  unfold Char.toLower
  rw [dif_neg]
  rintro ⟨-, hle⟩
  rw [UInt32.le_iff_toNat_le] at hle
  omega

/-- What does not see letter case in ASCII does not see it at all. -/
theorem toLower_of_ascii {β : Type} (f : Char → β)
    (h : ∀ n < 128, f (Char.ofNat n).toLower = f (Char.ofNat n)) (c : Char) : f c.toLower = f c := by
  rcases Nat.lt_or_ge c.toNat 128 with hlt | hge
  · exact of_ascii (fun d => f d.toLower = f d) h hlt
  · rw [toLower_of_le hge]

@[simp] theorem toUpper_toLower (c : Char) : c.toLower.toUpper = c.toUpper :=
  toLower_of_ascii _ (by decide) c

@[simp] theorem toLower_toLower (c : Char) : c.toLower.toLower = c.toLower :=
  toLower_of_ascii _ (by decide) c

theorem toUpper_of_le {c : Char} (h : 128 ≤ c.toNat) : c.toUpper = c := by
  have hval : c.toNat = c.val.toNat := rfl
  have hz : 'z'.val.toNat = 122 := rfl
  unfold Char.toUpper
  rw [dif_neg]
  rintro ⟨-, hle⟩
  rw [UInt32.le_iff_toNat_le] at hle
  omega

@[simp] theorem toLower_toUpper (c : Char) : c.toUpper.toLower = c.toLower := by
  rcases Nat.lt_or_ge c.toNat 128 with hlt | hge
  · exact of_ascii (fun d => d.toUpper.toLower = d.toLower) (by decide) hlt
  · rw [toUpper_of_le hge]

@[simp] theorem utf8Size_toLower (c : Char) : c.toLower.utf8Size = c.utf8Size :=
  toLower_of_ascii _ (by decide) c

@[simp] theorem isBlank_toLower (c : Char) : isBlank c.toLower = isBlank c :=
  toLower_of_ascii _ (by decide +kernel) c

@[simp] theorem isLetter_toLower (c : Char) : isLetter c.toLower = isLetter c :=
  toLower_of_ascii _ (by decide +kernel) c

@[simp] theorem isDigit_toLower (c : Char) : c.toLower.isDigit = c.isDigit :=
  toLower_of_ascii _ (by decide) c

@[simp] theorem isAlpha_toLower (c : Char) : c.toLower.isAlpha = c.isAlpha :=
  toLower_of_ascii _ (by decide) c

theorem toLower_eq_self (c : Char) (h : c.isAlpha = false) : c.toLower = c := by
  rcases Nat.lt_or_ge c.toNat 128 with hlt | hge
  · exact of_ascii (fun d => d.isAlpha = false → d.toLower = d) (by decide) hlt h
  · exact toLower_of_le hge

/-- A character that is no letter is known by its lower one. -/
theorem toLower_eq_iff {c k : Char} (hk : k.isAlpha = false) : c.toLower = k ↔ c = k := by
  constructor
  · intro h
    have hc : c.isAlpha = false := by rw [← isAlpha_toLower, h, hk]
    rwa [toLower_eq_self c hc] at h
  · rintro rfl
    exact toLower_eq_self c hk

/-! ### Texts -/

@[simp] theorem lower_nil : lower [] = [] := rfl

@[simp] theorem lower_cons (c : Char) (cs : List Char) : lower (c :: cs) = c.toLower :: lower cs := rfl

@[simp] theorem lower_append (cs cs' : List Char) : lower (cs ++ cs') = lower cs ++ lower cs' :=
  List.map_append

@[simp] theorem lower_lower (cs : List Char) : lower (lower cs) = lower cs := by
  simp [lower]

@[simp] theorem upper_lower (cs : List Char) : upper (lower cs) = upper cs := by
  simp [upper, lower]

@[simp] theorem lower_upper (cs : List Char) : lower (upper cs) = lower cs := by
  simp [upper, lower]

@[simp] theorem upper_upper (cs : List Char) : upper (upper cs) = upper cs := by
  rw [← upper_lower (upper cs), lower_upper, upper_lower]

theorem lower_reverse (cs : List Char) : lower cs.reverse = (lower cs).reverse := List.map_reverse

theorem lower_dropLast (cs : List Char) : lower cs.dropLast = (lower cs).dropLast := List.map_dropLast

@[simp] theorem isEmpty_lower (cs : List Char) : (lower cs).isEmpty = cs.isEmpty := List.isEmpty_map

@[simp] theorem width_lower (cs : List Char) : width (lower cs) = width cs := by
  induction cs with
  | nil => rfl
  | cons c cs ih => rw [lower_cons, width_cons, width_cons, utf8Size_toLower, ih]

theorem head?_lower {k : Char} (hk : k.isAlpha = false) (cs : List Char) :
    (lower cs).head? = some k ↔ cs.head? = some k := by
  cases cs with
  | nil => exact Iff.rfl
  | cons c cs => simp [toLower_eq_iff hk]

theorem getLast?_lower {k : Char} (hk : k.isAlpha = false) (cs : List Char) :
    (lower cs).getLast? = some k ↔ cs.getLast? = some k := by
  rw [← List.head?_reverse, ← List.head?_reverse, ← lower_reverse, head?_lower hk]

theorem mem_lower {k : Char} (hk : k.isAlpha = false) {cs : List Char} : k ∈ lower cs ↔ k ∈ cs := by
  simp [lower, toLower_eq_iff hk]

/-- Texts that differ in letter case hold the same characters besides letters. -/
theorem mem_iff_of_lower_eq {k : Char} (hk : k.isAlpha = false) {cs cs' : List Char}
    (h : lower cs = lower cs') : k ∈ cs ↔ k ∈ cs' := by
  rw [← mem_lower hk, h, mem_lower hk]

/-- A text without letters is known by its lower one. -/
theorem lower_eq_iff {cs ks : List Char} (hks : ∀ k ∈ ks, k.isAlpha = false) :
    lower cs = ks ↔ cs = ks := by
  induction cs generalizing ks with
  | nil => exact Iff.rfl
  | cons c cs ih =>
    cases ks with
    | nil => simp
    | cons k ks =>
      obtain ⟨hk, hks⟩ := List.forall_mem_cons.1 hks
      rw [lower_cons, List.cons.injEq, List.cons.injEq, toLower_eq_iff hk, ih hks]

theorem takeWhile_lower {p : Char → Bool} (hp : ∀ c : Char, p c.toLower = p c) (cs : List Char) :
    (lower cs).takeWhile p = lower (cs.takeWhile p) := by
  have hcomp : p ∘ Char.toLower = p := funext hp
  rw [lower, List.takeWhile_map, hcomp]
  rfl

theorem dropWhile_lower {p : Char → Bool} (hp : ∀ c : Char, p c.toLower = p c) (cs : List Char) :
    (lower cs).dropWhile p = lower (cs.dropWhile p) := by
  have hcomp : p ∘ Char.toLower = p := funext hp
  rw [lower, List.dropWhile_map, hcomp]
  rfl

theorem trimStart_lower (cs : List Char) : trimStart (lower cs) = lower (trimStart cs) :=
  dropWhile_lower isBlank_toLower cs

theorem trimEnd_lower (cs : List Char) : trimEnd (lower cs) = lower (trimEnd cs) := by
  rw [trimEnd, ← lower_reverse, dropWhile_lower isBlank_toLower, ← lower_reverse]
  rfl

theorem trim_lower (cs : List Char) : trim (lower cs) = lower (trim cs) := by
  rw [trim, trimStart_lower, trimEnd_lower]
  rfl

theorem dropBytes_lower (n : Nat) (cs : List Char) :
    dropBytes n (lower cs) = lower (dropBytes n cs) := by
  induction cs generalizing n with
  | nil => cases n <;> rfl
  | cons c cs ih =>
    cases n with
    | zero => rfl
    | succ n =>
      rw [lower_cons, dropBytes, dropBytes, utf8Size_toLower]
      exact ih _

theorem takeBytes_lower (n : Nat) (cs : List Char) :
    takeBytes n (lower cs) = lower (takeBytes n cs) := by
  induction cs generalizing n with
  | nil => cases n <;> rfl
  | cons c cs ih =>
    cases n with
    | zero => rfl
    | succ n =>
      rw [lower_cons, takeBytes, takeBytes, lower_cons, utf8Size_toLower, ih]

theorem slice_lower (start stop : Nat) (cs : List Char) :
    slice start stop (lower cs) = lower (slice start stop cs) := by
  rw [slice, dropBytes_lower, takeBytes_lower]
  rfl

theorem splitAt_lower {p : Char → Bool} (hp : ∀ c : Char, p c.toLower = p c) (cs : List Char) :
    splitAt p (lower cs) = (splitAt p cs).map lower := by
  induction cs with
  | nil => rfl
  | cons c cs ih =>
    rw [lower_cons, splitAt, splitAt, hp, ih]
    split
    · rfl
    · cases splitAt p cs with
      | nil => rfl
      | cons piece pieces => rfl

theorem words_lower (cs : List Char) : words (lower cs) = (words cs).map lower := by
  rw [words, splitAt_lower isBlank_toLower, List.filter_map]
  congr 1
  apply List.filter_congr
  intro word _
  rw [Function.comp_apply, isEmpty_lower]

theorem natural?_lower (cs : List Char) : natural? (lower cs) = natural? cs := by
  have hdigit : ∀ c : Char, ∀ n : Nat, (if c.toLower.isDigit then some (10 * n + (c.toLower.toNat - 48))
      else none) = if c.isDigit then some (10 * n + (c.toNat - 48)) else none := by
    intro c n
    cases hc : c.isDigit with
    | false => simp [hc]
    | true => rw [toLower_eq_self c (isAlpha_eq_false_of_isDigit hc), hc]
  rw [natural?, natural?, isEmpty_lower, lower, List.foldl_map]
  simp only [hdigit]

/-- A needle without letters is found in either case. -/
theorem isPrefixOf_lower {needle : List Char} (hneedle : ∀ c ∈ needle, c.isAlpha = false)
    (cs : List Char) : needle.isPrefixOf (lower cs) = needle.isPrefixOf cs := by
  induction needle generalizing cs with
  | nil => rfl
  | cons k needle ih =>
    obtain ⟨hk, hneedle⟩ := List.forall_mem_cons.1 hneedle
    cases cs with
    | nil => rfl
    | cons c cs =>
      rw [lower_cons, List.isPrefixOf_cons_cons, List.isPrefixOf_cons_cons, ih hneedle]
      have hsame : (k == c.toLower) = (k == c) := by
        rw [Bool.eq_iff_iff, beq_iff_eq, beq_iff_eq, eq_comm, toLower_eq_iff hk, eq_comm]
      rw [hsame]

/-- The lower text of both parts. -/
def Taken.lower (t : Taken) : Taken := t.map fun (text, rest) => (Text.lower text, Text.lower rest)

theorem Taken.lower_behind (front : List Char) (t : Taken) :
    (t.behind front).lower = t.lower.behind (Text.lower front) := by
  cases t with
  | none => rfl
  | some taken => simp [Taken.lower, Taken.behind]

theorem breakOn_lower {needle : List Char} (hneedle : ∀ c ∈ needle, c.isAlpha = false)
    (cs : List Char) : breakOn needle (lower cs) = (breakOn needle cs).lower := by
  induction cs with
  | nil =>
    rw [lower_nil, breakOn]
    split
    · rfl
    · rfl
  | cons c cs ih =>
    rw [lower_cons, breakOn, breakOn, ← lower_cons, isPrefixOf_lower hneedle]
    split
    · simp [Taken.lower, lower, List.map_drop]
    · rw [Taken.lower_behind, ih]
      rfl

theorem undouble_lower {quote : Char} (hquote : quote.isAlpha = false) (cs : List Char) :
    undouble quote (lower cs) = lower (undouble quote cs) := by
  fun_induction undouble quote cs with
  | case1 => rfl
  | case2 => rfl
  | case3 c d cs hdouble ih =>
    have hlower : c.toLower = quote ∧ d.toLower = quote := by
      rwa [toLower_eq_iff hquote, toLower_eq_iff hquote]
    rw [lower_cons, lower_cons, undouble, if_pos hlower, ih, lower_cons, toLower_eq_self quote hquote]
  | case4 c d cs hdouble ih =>
    have hlower : ¬(c.toLower = quote ∧ d.toLower = quote) := by
      rwa [toLower_eq_iff hquote, toLower_eq_iff hquote]
    rw [lower_cons, lower_cons, undouble, if_neg hlower, ← lower_cons, ih, lower_cons]

/-! ### Names -/

theorem toList_toLower (s : String) : s.toLower.toList = lower s.toList :=
  String.toList_map

@[simp] theorem toLower_ofList (cs : List Char) :
    (String.ofList cs).toLower = String.ofList (lower cs) := by
  apply String.toList_injective
  rw [toList_toLower, String.toList_ofList, String.toList_ofList]

theorem toLower_ofList_congr {cs cs' : List Char} (h : lower cs = lower cs') :
    (String.ofList cs).toLower = (String.ofList cs').toLower := by
  rw [toLower_ofList, toLower_ofList, h]

theorem toLower_append (s t : String) : (s ++ t).toLower = s.toLower ++ t.toLower := by
  apply String.toList_injective
  simp [toList_toLower]

theorem lower_toList_eq {s t : String} (h : s.toLower = t.toLower) :
    lower s.toList = lower t.toList := by
  rw [← toList_toLower, h, toList_toLower]

theorem sameName_toLower (a b : String) : sameName a.toLower b.toLower = sameName a b := by
  rw [sameName, sameName, toList_toLower, toList_toLower, lower_lower, lower_lower]

end DdlBridge.Text
